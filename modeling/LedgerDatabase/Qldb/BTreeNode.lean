import LedgerDatabase.Common.DB
import LedgerDatabase.Common.Slice
import LedgerDatabase.Common.StdMap
import LedgerDatabase.Qldb.Qlnode

/-!
# Nodes of the B+ tree of `qldb`

The nodes `QLBTreeMeta` and `QLBTreeMap`, and the table `QLBTreeDelta` of the nodes that a batch has
changed.

Nodes are chunks under `<prefix><level>|<id>`.  The id of a node is its largest key, and `_INFI_`
for the last node of a level; the root stands under `<prefix>ROOT` instead.

* A leaf (`QLBTreeMap`) is
  `| num_elements (8) | level (4) | num_entries (4) | (n_bytes (4) | key_bytes (4) | key | val)… |
  next_bytes (4) | next |`; of `next` only matters that it is empty in the last leaf.
* An inner node (`QLBTreeMeta`) is
  `| num_elements (8) | level (4) | num_entries (4) | (key_bytes (4) | key | num_elements (8))… |
  num_elements (8) |`.  The last number belongs to the child `_INFI_`, and is zero in a node that
  is not the last of its level and has no such child.

The source cuts a level to 32 and a number of elements to 64 bits; here such a node is refused like
one that does not fit a chunk.  A tree of `2^32` levels would exhaust the stack before that.
-/

namespace LedgerDatabase.Qldb

open Chunk

/-- `BPlusConfig`, as `Init` sets it. -/
structure BPlusConfig where
  fanout : ℕ := 10
  /-- `leaf_fanout_`. -/
  leafFanout : ℕ := 10
  /-- No node is cut into an empty half. -/
  fanout_pos : 1 ≤ fanout := by decide
  /-- No leaf is cut into an empty half. -/
  leafFanout_pos : 1 ≤ leafFanout := by decide

/-- `BPlusConfig::ComputeSplitIndex`. -/
def BPlusConfig.computeSplitIndex (size : ℕ) : ℕ := size / 2 + if size % 2 ≠ 0 then 1 else 0

/-- The reserved id of the last node of a level. -/
def infi : Bytes := str "_INFI_"

/-- `prefix + std::to_string(level) + "|" + id`. -/
def nodeId (pre : Bytes) (level : ℕ) (id : Bytes) : Bytes :=
  pre ++ toDecimal level ++ str "|" ++ id

/-- `prefix + "ROOT"`. -/
def rootId (pre : Bytes) : Bytes := pre ++ str "ROOT"

/-- `QLBTreeNode::numElements`. -/
def numElements (c : Bytes) : ℕ := dataNat c 0 8

/-- `level_` of a node. -/
def levelOf (c : Bytes) : ℕ := dataNat c 8 4

/-- `QLBTreeInsertResult`. -/
structure QLBTreeInsertResult where
  isSplit : Bool := false
  /-- `split_key`. -/
  splitKey : Bytes := []
  level : ℕ := 0
  /-- `num_elems`. -/
  numElems : List ℕ := []
  deriving DecidableEq, Repr

/-! ### Leaves -/

/-- What `QLBTreeMap` reads from its chunk. -/
structure QLBTreeMap where
  keys : List Bytes
  vals : List Bytes
  next : Bytes
  deriving DecidableEq, Repr

namespace QLBTreeMap

/-- An entry of a leaf. -/
def encodeEntry (e : Bytes × Bytes) : Bytes :=
  leBytes 4 (4 * 2 + e.1.length + e.2.length) ++ leBytes 4 e.1.length ++ e.1 ++ e.2

/-- `QLBTreeMap::Encode`, with the keys and values in pairs. -/
def encode (level : ℕ) (entries : List (Bytes × Bytes)) (next : Bytes) : Except Fault Bytes :=
  if level < 2 ^ 32 then
    createChunk .kMap
      (8 + 4 * 2 + (entries.map fun e => 4 * 2 + e.1.length + e.2.length).sum + (4 + next.length))
      (leBytes 8 entries.length ++ leBytes 4 level ++ leBytes 4 entries.length ++
        entries.flatMap encodeEntry ++ leBytes 4 next.length ++ next)
  else .error .oversize

/-- `QLBTreeMap::EmptyMap`, and `QLBTree::kEmptyMap`. -/
def emptyMap : Bytes :=
  ofByteData ChunkType.kMap.toByte (leBytes 8 0 ++ leBytes 4 0 ++ leBytes 4 0 ++ leBytes 4 0)

/-- The loop over the entries, and the offset behind them. -/
def entriesAt (c : Bytes) : (numEntries offset : ℕ) → List (Bytes × Bytes) × ℕ
  | 0, offset => ([], offset)
  | numEntries + 1, offset =>
    let nBytes := dataNat c offset 4
    let keyBytes := dataNat c (offset + 4) 4
    let valBytes := subSize (subSize nBytes keyBytes) (4 * 2)
    let (entries, last) := entriesAt c numEntries (offset + nBytes)
    ((dataBytes c (offset + 8) keyBytes, dataBytes c (offset + 8 + keyBytes) valBytes) :: entries,
      last)

/-- The constructor `QLBTreeMap(chunk)`. -/
def ofChunk (c : Bytes) : QLBTreeMap :=
  let (entries, offset) := entriesAt c (dataNat c 12 4) 16
  { keys := entries.map Prod.fst
    vals := entries.map Prod.snd
    next := dataBytes c (offset + 4) (dataNat c offset 4) }

/-- The entries of a leaf. -/
def entries (m : QLBTreeMap) : List (Bytes × Bytes) := m.keys.zip m.vals

/-- The loop of `Insert` over the entries. -/
def insertEntry (key value : Bytes) : (inserted : Bool) → List (Bytes × Bytes) →
    List (Bytes × Bytes)
  | inserted, [] => if inserted then [] else [(key, value)]
  | inserted, (k, v) :: rest =>
    let before := if !inserted && decide (key < k) then [(key, value)] else []
    let inserted := inserted || decide (key < k)
    if key = k then before ++ (k, value) :: insertEntry key value true rest
    else before ++ (k, v) :: insertEntry key value inserted rest

end QLBTreeMap

/-! ### The delta -/

/-- `QLBTreeDelta`: the changed nodes by their names. -/
abbrev QLBTreeDelta := StdMap Bytes

namespace QLBTreeDelta

/-- `CreateChunk`. -/
def createChunk (delta : QLBTreeDelta) (id chunk : Bytes) : QLBTreeDelta := delta.assign id chunk

/-- `GetChunk`; `none` is a chunk without a head. -/
def getChunk (delta : QLBTreeDelta) (id : Bytes) : Option Bytes := delta.lookup id

end QLBTreeDelta

/-! ### Inner nodes -/

/-- What `QLBTreeMeta` reads from its chunk. -/
structure QLBTreeMeta where
  level : ℕ
  keys : List Bytes
  /-- `num_elems_`. -/
  numElems : List ℕ
  deriving DecidableEq, Repr

namespace QLBTreeMeta

/-- `QLBTreeMeta::Encode`. -/
def encode (level : ℕ) (keys : List Bytes) (numElems : List ℕ) : Except Fault Bytes :=
  if level < 2 ^ 32 ∧ numElems.sum < 2 ^ 64 then
    createChunk .kMeta (8 + 4 * 2 + (keys.map fun key => 4 + key.length + 8).sum + 8)
      (leBytes 8 numElems.sum ++ leBytes 4 level ++ leBytes 4 keys.length ++
        (keys.zip numElems).flatMap (fun e => leBytes 4 e.1.length ++ e.1 ++ leBytes 8 e.2) ++
        leBytes 8 (numElems.getLastD 0))
  else .error .oversize

/-- The loop over the entries, and the offset behind them. -/
def entriesAt (c : Bytes) : (numEntries offset : ℕ) → List (Bytes × ℕ) × ℕ
  | 0, offset => ([], offset)
  | numEntries + 1, offset =>
    let keyBytes := dataNat c offset 4
    let (entries, last) := entriesAt c numEntries (offset + 4 + keyBytes + 8)
    ((dataBytes c (offset + 4) keyBytes, dataNat c (offset + 4 + keyBytes) 8) :: entries, last)

/-- The constructor `QLBTreeMeta(chunk)`. -/
def ofChunk (c : Bytes) : QLBTreeMeta :=
  let (entries, offset) := entriesAt c (dataNat c 12 4) 16
  { level := levelOf c
    keys := entries.map Prod.fst
    numElems := entries.map Prod.snd ++ [dataNat c offset 8] }

/-- `numEntries`. -/
def numEntries (m : QLBTreeMeta) : ℕ := m.keys.length

/-- The loop at the end of `BinarySearch`; `start` grows in each of at most `fuel` rounds. -/
def scan (m : QLBTreeMeta) (key : Bytes) : (fuel : ℕ) → (start : ℤ) → Except Fault ℤ
  | 0, _ => .error .diverges
  | fuel + 1, start =>
    if start < toInt m.numEntries then do
      let k ← at? m.keys (toSize start)
      if Slice.gt key k then
        let next ← addInt start 1
        scan m key fuel next
      else return start
    else return start

/-- `QLBTreeMeta::BinarySearch`; the interval is shortened in each of at most `fuel` calls. -/
def binarySearchAux (m : QLBTreeMeta) (key : Bytes) :
    (fuel : ℕ) → (start stop : ℤ) → Except Fault ℕ
  | 0, _, _ => .error .diverges
  | fuel + 1, start, stop =>
    if stop ≤ start then do
      let start := if toInt m.numEntries < start then toInt m.numEntries else start
      let start ← m.scan key (m.numEntries + 1) start
      return toSize start
    else do
      let sum ← addInt stop start
      let pivot := sum.tdiv 2
      let k ← at? m.keys (toSize pivot)
      if Slice.eq key k then return toSize pivot
      else if Slice.lt key k then
        -- the pivot itself is left out of the exclusive bound as well, and the loop makes up for it
        let stop ← addInt pivot (-1)
        binarySearchAux m key fuel start stop
      else
        let start ← addInt pivot 1
        binarySearchAux m key fuel start stop

/-- `BinarySearch(key, 0, numEntries())`. -/
def binarySearch (m : QLBTreeMeta) (key : Bytes) : Except Fault ℕ :=
  m.binarySearchAux key (m.numEntries + 1) 0 (toInt m.numEntries)

/-- The id of the child at `index`. -/
def childId (m : QLBTreeMeta) (index : ℕ) : Except Fault Bytes :=
  if index = m.numEntries then .ok infi else at? m.keys index

/-- The name of the child with the given id. -/
def childKey (m : QLBTreeMeta) (pre id : Bytes) : Bytes := nodeId pre (subSize m.level 1) id

/-- `GetChildElems`. -/
def getChildElems (m : QLBTreeMeta) (index : ℕ) : Except Fault ℕ := at? m.numElems index

/-- `new_keys` of `UpdateChild`. -/
def newKeys (m : QLBTreeMeta) (index : ℕ) (retval : QLBTreeInsertResult) : List Bytes :=
  if retval.isSplit then m.keys.take index ++ retval.splitKey :: m.keys.drop index else m.keys

/-- `new_elems` of `UpdateChild`. -/
def newElems (m : QLBTreeMeta) (index : ℕ) (retval : QLBTreeInsertResult) : List ℕ :=
  m.numElems.take index ++ retval.numElems ++ m.numElems.drop (index + 1)

/-- `QLBTreeMeta::UpdateChild`. -/
def updateChild (cfg : BPlusConfig) (m : QLBTreeMeta) (pre : Bytes) (index : ℕ)
    (retval : QLBTreeInsertResult) (delta : QLBTreeDelta) :
    Except Fault (QLBTreeInsertResult × QLBTreeDelta) := do
  let newKeys := m.newKeys index retval
  let newElems := m.newElems index retval
  let lastElems ← m.getChildElems m.numEntries
  let thisid ← if lastElems = 0 then at? newKeys (newKeys.length - 1) else pure infi
  if newKeys.length ≤ cfg.fanout then
    let chunk1 ← encode m.level newKeys newElems
    return ({ level := m.level, numElems := [numElements chunk1] },
      delta.createChunk (nodeId pre m.level thisid) chunk1)
  else
    let splitIdx := BPlusConfig.computeSplitIndex newKeys.length
    let splitKey ← at? newKeys (splitIdx - 1)
    let chunk1 ← encode m.level (newKeys.take splitIdx) (newElems.take splitIdx ++ [0])
    let chunk2 ← encode m.level (newKeys.drop splitIdx) (newElems.drop splitIdx)
    let delta := delta.createChunk (nodeId pre m.level splitKey) chunk1
    return ({ isSplit := true, splitKey, level := m.level,
              numElems := [numElements chunk1, numElements chunk2] },
      delta.createChunk (nodeId pre m.level thisid) chunk2)

end QLBTreeMeta

end LedgerDatabase.Qldb
