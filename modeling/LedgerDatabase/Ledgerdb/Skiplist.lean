import LedgerDatabase.Common.DB
import LedgerDatabase.Common.StdMap

/-!
# `SkipList`

The skip lists that keep the versions of every key, newest first, as records under
`prefix|head` and `prefix|timestamp`.

The random numbers are an argument: `coins` are the outcomes of the comparisons with `probability`.
A search follows stored pointers.  It visits every record of the store at most once or does not
come to an end, so it is given one round for each.
-/

namespace LedgerDatabase.Ledgerdb

/-- `SkipNode`. -/
structure SkipNode where
  key : ℤ
  value : Bytes
  forward : List ℤ
  deriving DecidableEq, Repr

namespace SkipNode

/-- The text before the first bar and the text after it; without a bar, the text twice. -/
def cut (s : Bytes) : Bytes × Bytes :=
  if (124 : UInt8) ∈ s then (s.take (find s 124), s.drop (find s 124 + 1)) else (s, s)

/-- `SkipNode(const std::string&)`. -/
def ofString (node : Bytes) : Except Fault SkipNode := do
  let (keyText, rest) := cut node
  let key ← stol keyText
  let (value, rest) := cut rest
  let forward ← (splitBy rest 124).mapM stol
  return { key, value, forward }

/-- `SkipNode::ToString`. -/
def toBytes (n : SkipNode) : Bytes :=
  toDecimalInt n.key ++ str "|" ++ n.value ++ n.forward.flatMap fun ptr => str "|" ++ toDecimalInt ptr

/-- `SkipNode(long, const std::string&, int)`. -/
def make (key : ℤ) (value : Bytes) (level : ℕ) : SkipNode :=
  { key, value, forward := List.replicate level (-1) }

end SkipNode

namespace SkipList

/-- `maxLevel`. -/
def maxLevel : ℕ := 16

/-- `SkipList::randomLevel`. -/
def randomLevel (coins : List Bool) : ℕ := min (1 + (coins.takeWhile id).length) maxLevel

/-- `SkipList::nodeLevel`. -/
def nodeLevel (v : List ℤ) : Except Fault ℕ := do
  if (← at? v 0) = -1 then return 1
  else return 1 + (v.tail.takeWhile (· ≠ -1)).length

/-- The record of a node. -/
def nodeKey (pre : Bytes) (key : ℤ) : Bytes := pre ++ str "|" ++ toDecimalInt key

/-- `Get` into a fresh string. -/
def readRecord (db : DB) (key : Bytes) : Bytes := (db.getString key).getD []

/-! ### `find` -/

/-- The `while` loop of level `i`: forward as long as the next key is greater. -/
def descend (db : DB) (pre : Bytes) (searchKey : ℤ) (i : ℕ) :
    (fuel : ℕ) → SkipNode → Except Fault SkipNode
  | 0, _ => .error .diverges
  | fuel + 1, head => do
    let next ← at? head.forward i
    if next > -1 ∧ next > searchKey then
      descend db pre searchKey i fuel (← SkipNode.ofString (readRecord db (nodeKey pre next)))
    else return head

/-- The loop over the levels below `level`. -/
def findLevels (db : DB) (pre : Bytes) (searchKey : ℤ) : (level : ℕ) → SkipNode → Except Fault Bytes
  | 0, _ => return []
  | i + 1, head => do
    let head ← descend db pre searchKey i (db.rocks.length + 1) head
    if (← at? head.forward i) = searchKey then return readRecord db (nodeKey pre searchKey)
    else findLevels db pre searchKey i head

/-- `SkipList::find`. -/
def find (db : DB) (pre : Bytes) (searchKey : ℤ) : Except Fault Bytes := do
  let headstr := readRecord db (pre ++ str "|head")
  if headstr.length = 0 then return []
  else
    let head ← SkipNode.ofString headstr
    if head.key = searchKey then return headstr
    else findLevels db pre searchKey (← nodeLevel head.forward) head

/-! ### `insert` -/

/-- The search of `insert` so far: the node it stands on with its record, and the changed nodes. -/
structure Cursor where
  head : SkipNode
  fullkey : Bytes
  newnode : SkipNode
  update : StdMap SkipNode
  deriving DecidableEq, Repr

/-- The `while` loop of level `i`, where changed nodes are taken from `update`. -/
def advance (db : DB) (pre : Bytes) (searchKey : ℤ) (i : ℕ) :
    (fuel : ℕ) → Cursor → Except Fault Cursor
  | 0, _ => .error .diverges
  | fuel + 1, cur => do
    let next ← at? cur.head.forward i
    if next > -1 ∧ next > searchKey then
      let fullkey := nodeKey pre next
      let head ← match cur.update.lookup fullkey with
        | some node => .ok node
        | none => SkipNode.ofString (readRecord db fullkey)
      advance db pre searchKey i fuel { cur with head, fullkey }
    else return cur

/-- The loop over the levels below `level`. -/
def insertLevels (db : DB) (pre : Bytes) (searchKey : ℤ) : (level : ℕ) → Cursor → Except Fault Cursor
  | 0, cur => return cur
  | i + 1, cur => do
    let cur ← advance db pre searchKey i (db.rocks.length + 1) cur
    let next ← at? cur.head.forward i
    let newnode := { cur.newnode with forward := cur.newnode.forward.set i next }
    let head := { cur.head with forward := cur.head.forward.set i searchKey }
    insertLevels db pre searchKey i
      { head, fullkey := cur.fullkey, newnode, update := cur.update.assign cur.fullkey head }

/-- `SkipList::insert`. -/
def insert (db : DB) (pre : Bytes) (searchKey : ℤ) (newValue : Bytes) (coins : List Bool) :
    Except Fault DB := do
  let headstr := readRecord db (pre ++ str "|head")
  if headstr.length = 0 then
    return db.putString (pre ++ str "|head") (SkipNode.make searchKey newValue maxLevel).toBytes
  else
    let x ← find db pre searchKey
    if x.length > 0 then
      let skipnode ← SkipNode.ofString x
      return db.putString (nodeKey pre searchKey) { skipnode with value := newValue }.toBytes
    else
      let head ← SkipNode.ofString headstr
      let level := randomLevel coins
      let cur ← insertLevels db pre searchKey level
        { head, fullkey := pre ++ str "|head", newnode := SkipNode.make searchKey newValue level
          update := [] }
      let db := cur.update.foldl (fun db e => db.putString e.1 e.2.toBytes) db
      return db.putString (nodeKey pre searchKey) cur.newnode.toBytes

/-! ### `scan` -/

/-- The loop of `scan`, with the record to be read next. -/
def scanFrom (db : DB) (pre : Bytes) : (rounds : ℕ) → (key : Bytes) → Except Fault (List Bytes)
  | 0, _ => return []
  | rounds + 1, key => do
    let node := readRecord db key
    if node.length = 0 then return []
    else
      let skipnode ← SkipNode.ofString node
      let next ← at? skipnode.forward 0
      if next < 0 then return [node]
      else return node :: (← scanFrom db pre rounds (nodeKey pre next))

/-- `SkipList::scan`: the newest `n` records. -/
def scan (db : DB) (pre : Bytes) (n : ℤ) : Except Fault (List Bytes) :=
  scanFrom db pre n.toNat (pre ++ str "|head")

end SkipList

end LedgerDatabase.Ledgerdb
