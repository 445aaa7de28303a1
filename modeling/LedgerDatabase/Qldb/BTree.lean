import LedgerDatabase.Qldb.BTreeNode

/-!
# The B+ tree of `qldb`

`QLBTree`: `set` is `Set` of a batch, `get` and `range` are `Get` and `Range`.  The nodes are read
with `DB::Get`, which enters them into the cache of the store, so every operation returns the store
as well.

The recursion of the source goes down the levels of the tree.  Here it is bounded by the level that
the root states, and a tree that goes deeper is a loop.
-/

namespace LedgerDatabase.Qldb

open Chunk

/-- `QLBTree`: the prefix of its names, and the chunk of `root_node_`. -/
structure QLBTree where
  /-- `prefix_`. -/
  pre : Bytes
  root : Bytes
  deriving DecidableEq, Repr

/-- `QLBTreeNode::CreateFromChunk`; without a node every later call fails. -/
def createFromChunk : Option Bytes → Except Fault Bytes
  | none => .error .nullChunk
  | some c => if chunkType c = .kMeta ∨ chunkType c = .kMap then .ok c else .error .nullChunk

/-- A chunk that is dereferenced. -/
def deref : Option Bytes → Except Fault Bytes
  | none => .error .nullChunk
  | some c => .ok c

namespace QLBTree

/-- `QLBTree(db, prefix)`. -/
def ofDB (db : DB) (pre : Bytes) : Except Fault (QLBTree × DB) := do
  let (chunk, db) := db.getChunk (rootId pre)
  let root ← match chunk with
    | none => pure QLBTreeMap.emptyMap
    | some _ => createFromChunk chunk
  return ({ pre, root }, db)

/-- `numElements`. -/
def numElements (t : QLBTree) : ℕ := Qldb.numElements t.root

/-- The calls that a recursion from the root can need. -/
def depth (c : Bytes) : ℕ := levelOf c + 1

/-! ### Reading -/

/-- The loop over a leaf in `TryGet`. -/
def findVal (key : Bytes) : List (Bytes × Bytes) → Option Bytes
  | [] => none
  | (k, v) :: rest => if key = k then some v else if key < k then none else findVal key rest

/-- `TryGet`. -/
def tryGet (pre key : Bytes) : (fuel : ℕ) → (node : Bytes) → DB →
    Except Fault (Option Bytes × DB)
  | 0, _, _ => .error .diverges
  | fuel + 1, node, db =>
    match chunkType node with
    | .kMap => .ok (findVal key (QLBTreeMap.ofChunk node).entries, db)
    | .kMeta => do
      let m := QLBTreeMeta.ofChunk node
      let index ← m.binarySearch key
      let id ← m.childId index
      let (child, db) := db.getChunk (m.childKey pre id)
      tryGet pre key fuel (← deref child) db
    | _ => .ok (none, db)

/-- `Get`; `none` is the null slice. -/
def get (t : QLBTree) (key : Bytes) (db : DB) : Except Fault (Option Bytes × DB) :=
  tryGet t.pre key (depth t.root) t.root db

/-- `std::map::emplace`, which leaves a key that is there alone. -/
def emplace (key val : Bytes) (result : StdMap Bytes) : StdMap Bytes :=
  match result.lookup key with
  | some _ => result
  | none => result.assign key val

/-- `FindKey`. -/
def findKey (start stop : Bytes) : List (Bytes × Bytes) → StdMap Bytes → StdMap Bytes
  | [], result => result
  | (k, v) :: rest, result =>
    if ¬ k < start ∧ ¬ stop < k then findKey start stop rest (emplace k v result)
    else if stop < k then result
    else findKey start stop rest result

/-- The loop over the children in `TryRange`, `n` of them from index `i` on. -/
def rangeLoop (visit : Bytes → StdMap Bytes → DB → Except Fault (StdMap Bytes × DB)) (pre : Bytes)
    (m : QLBTreeMeta) : (n i : ℕ) → StdMap Bytes → DB → Except Fault (StdMap Bytes × DB)
  | 0, _, result, db => .ok (result, db)
  | n + 1, i, result, db => do
    let id ← m.childId i
    let (child, db) := db.getChunk (m.childKey pre id)
    let (result, db) ← visit (← deref child) result db
    rangeLoop visit pre m n (i + 1) result db

/-- `TryRange`. -/
def tryRange (pre start stop : Bytes) : (fuel : ℕ) → (node : Bytes) → StdMap Bytes → DB →
    Except Fault (StdMap Bytes × DB)
  | 0, _, _, _ => .error .diverges
  | fuel + 1, node, result, db =>
    match chunkType node with
    | .kMap => .ok (findKey start stop (QLBTreeMap.ofChunk node).entries result, db)
    | .kMeta => do
      let m := QLBTreeMeta.ofChunk node
      let first ← m.binarySearch start
      let last ← m.binarySearch stop
      rangeLoop (tryRange pre start stop fuel) pre m (last + 1 - first) first result db
    | _ => .ok (result, db)

/-- `Range`. -/
def range (t : QLBTree) (start stop : Bytes) (db : DB) : Except Fault (StdMap Bytes × DB) :=
  tryRange t.pre start stop (depth t.root) t.root [] db

/-! ### Writing -/

/-- `Insert` into a leaf. -/
def insertMap (cfg : BPlusConfig) (pre : Bytes) (m : QLBTreeMap) (key value : Bytes)
    (delta : QLBTreeDelta) : Except Fault (QLBTreeInsertResult × QLBTreeDelta) := do
  let new := QLBTreeMap.insertEntry key value false m.entries
  let idOf (entries : List (Bytes × Bytes)) : Except Fault Bytes :=
    if m.next = [] then .ok infi else (at? entries (entries.length - 1)).map Prod.fst
  if new.length ≤ cfg.leafFanout then
    let newRoot ← QLBTreeMap.encode 0 new m.next
    let id ← idOf new
    return ({ numElems := [new.length] }, delta.createChunk (nodeId pre 0 id) newRoot)
  else
    let splitIdx := BPlusConfig.computeSplitIndex new.length
    let (splitKey, _) ← at? new (splitIdx - 1)
    let new1 := new.take splitIdx
    let new2 := new.drop splitIdx
    let nodeId1 := nodeId pre 0 splitKey
    let nodeId2 := nodeId pre 0 (← idOf new2)
    let newRoot1 ← QLBTreeMap.encode 0 new1 nodeId2
    let newRoot2 ← QLBTreeMap.encode 0 new2 m.next
    let delta := delta.createChunk nodeId1 newRoot1
    return ({ isSplit := true, splitKey, numElems := [new1.length, new2.length] },
      delta.createChunk nodeId2 newRoot2)

/-- `Insert`. -/
def insert (cfg : BPlusConfig) (pre key value : Bytes) : (fuel : ℕ) → (node : Bytes) →
    QLBTreeDelta → DB → Except Fault (QLBTreeInsertResult × QLBTreeDelta × DB)
  | 0, _, _, _ => .error .diverges
  | fuel + 1, node, delta, db =>
    match chunkType node with
    | .kMeta => do
      let m := QLBTreeMeta.ofChunk node
      let index ← m.binarySearch key
      let id ← m.childId index
      let childKey := m.childKey pre id
      -- a node that the batch has changed is not read from the store
      let (child, db) := match delta.getChunk childKey with
        | some child => (some child, db)
        | none => db.getChunk childKey
      let (retval, delta, db) ← insert cfg pre key value fuel (← deref child) delta db
      let (result, delta) ← m.updateChild cfg pre index retval delta
      return (result, delta, db)
    | .kMap => do
      let (retval, delta) ← insertMap cfg pre (QLBTreeMap.ofChunk node) key value delta
      return (retval, delta, db)
    | _ => .ok ({}, delta, db)

/-- The name of the root after an insertion: a root that was split gets a new one above it. -/
def newRootId (pre : Bytes) (retval : QLBTreeInsertResult) (delta : QLBTreeDelta) :
    Except Fault (Bytes × QLBTreeDelta) :=
  if retval.isSplit then do
    let chunk ← QLBTreeMeta.encode (retval.level + 1) [retval.splitKey] retval.numElems
    let id := nodeId pre (retval.level + 1) infi
    return (id, delta.createChunk id chunk)
  else .ok (nodeId pre retval.level infi, delta)

/-- The loop of `Set` over the batch: the name of the root at its end, and the nodes changed. -/
def setLoop (cfg : BPlusConfig) (pre : Bytes) : List (Bytes × Bytes) → (root : Option Bytes) →
    (id : Bytes) → QLBTreeDelta → DB → Except Fault (Bytes × QLBTreeDelta × DB)
  | [], _, id, delta, db => .ok (id, delta, db)
  | (key, val) :: rest, root, _, delta, db => do
    let node ← deref root
    let (retval, delta, db) ← insert cfg pre key val (depth node) node delta db
    let (id, delta) ← newRootId pre retval delta
    setLoop cfg pre rest (delta.getChunk id) id delta db

/-- `QLBTreeDelta::Commit`. -/
def commit (pre : Bytes) (delta : QLBTreeDelta) : (fuel : ℕ) → (id : Bytes) → (isroot : Bool) →
    DB → Except Fault DB
  | 0, _, _, _ => .error .diverges
  | fuel + 1, id, isroot, db =>
    match delta.getChunk id with
    | none => .ok db
    | some node => do
      let db := db.putChunk (if isroot then rootId pre else id) (bytes node)
      if chunkType node = .kMeta then
        let m := QLBTreeMeta.ofChunk node
        let commitChild (db : DB) (id : Bytes) := commit pre delta fuel (m.childKey pre id) false db
        let db ← m.keys.foldlM commitChild db
        let lastElems ← m.getChildElems m.numEntries
        if 0 < lastElems then commitChild db infi else return db
      else return db

/-- `Set` of a batch; an empty one is refused. -/
def set (cfg : BPlusConfig) (t : QLBTree) (batch : List (Bytes × Bytes)) (db : DB) :
    Except Fault (Bool × QLBTree × DB) :=
  if batch.length = 0 then .ok (false, t, db)
  else do
    let (id, delta, db) ← setLoop cfg t.pre batch (some t.root) [] [] db
    let fuel := ((delta.getChunk id).map depth).getD 1
    let db ← commit t.pre delta fuel id true db
    let (root, db) := db.getChunk (rootId t.pre)
    let root ← createFromChunk root
    return (true, { t with root }, db)

end QLBTree

end LedgerDatabase.Qldb
