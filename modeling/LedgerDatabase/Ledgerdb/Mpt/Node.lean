import LedgerDatabase.Common.Chunk
import LedgerDatabase.Library.RadixTree

/-!
# Nodes of the Merkle Patricia trie

The classes `MPTFullNode`, `MPTShortNode`, `MPTHashNode`, `MPTValueNode` and `MPTNilNode` read and
write nodes as chunks; `MPTConfig` turns keys into nibbles.

* A full node holds the number of values below it (8 bytes), sixteen hash nodes (25 bytes each)
  and a value or nil node.
* A short node holds that number, the length of its key (4 bytes), the key, and a value node or a
  hash node.
-/

namespace LedgerDatabase.Ledgerdb

open Chunk

variable (H : Bytes → Hash)

/-! ### `MPTConfig` -/

namespace MPTConfig

/-- The `int8_t` with the given bits. -/
def int8 (b : UInt8) : ℤ := if b.toNat < 128 then b.toNat else b.toNat - 256

/-- The `char` with the low bits of an `int`. -/
def charOf (n : ℤ) : UInt8 := UInt8.ofNat (n.emod 256).toNat

/-- `MPTConfig::KeybytesToHex`: the nibbles by signed division, then the terminator 16. -/
def keybytesToHex (key : Bytes) : Bytes :=
  key.flatMap (fun b => [charOf ((int8 b).tdiv 16), charOf ((int8 b).tmod 16)]) ++ [16]

/-- `MPTConfig::PrefixLen`. -/
def prefixLen (key1 key2 : Bytes) : ℕ := RadixTree.prefixLen key1 key2

end MPTConfig

/-- `(size_t) c` of a signed `char`. -/
def charIndex (c : UInt8) : ℕ := if c.toNat < 128 then c.toNat else 2 ^ 64 - 256 + c.toNat

/-- `kHashSize`: the bytes of a hash node. -/
def kHashSize : ℕ := kMetaLength + kByteLength

/-- The `uint64_t` at the start of the data. -/
def numElem (c : Bytes) : ℕ := leNat (dataBytes c 0 8)

/-- The number of values below a child, as full nodes count it. -/
def elemsOf (c : Bytes) : ℕ :=
  match type c with
  | .kMPTNil => 0
  | .kMPTValue => 1
  | _ => numElem c

/-- `MPTNode::numElements`. -/
def MPTNode.numElements (c : Bytes) : ℕ :=
  match type c with
  | .kMPTFull => numElem c
  | .kMPTShort => numElem c
  | .kMPTValue => 1
  | _ => 0

/-! ### Nil, value and hash nodes -/

/-- `MPTNilNode::Encode`, and `Trie::kNilChunk`. -/
def MPTNilNode.encode : Bytes := ofData .kMPTNil []

namespace MPTValueNode

/-- `MPTValueNode::Encode`. -/
def encode (value : Bytes) : Except Fault Bytes := create .kMPTValue value.length value

/-- `MPTValueNode::getVal`; `std::string` throws on a size below zero. -/
def getVal (c : Bytes) : Except Fault Bytes :=
  if numBytes c < kMetaLength then .error .outOfRange
  else .ok (dataBytes c 0 (numBytes c - kMetaLength))

end MPTValueNode

namespace MPTHashNode

/-- The hash node for a hash. -/
def ofHash (h : Hash) : Bytes := ofData .kMPTHash h.bytes

/-- `MPTHashNode::Encode`. -/
def encode (child : Bytes) : Bytes := ofHash (hash H child)

/-- `MPTHashNode::childHash`. -/
def childHash (c : Bytes) : Hash where
  bytes := dataBytes c 0 kByteLength
  length_bytes := length_dataBytes ..

end MPTHashNode

/-! ### Short nodes -/

namespace MPTShortNode

/-- The bytes that stand for a child: a value itself, everything else by its hash. -/
def childBytes (node : Bytes) : Bytes :=
  if type node = .kMPTValue then bytes node else MPTHashNode.encode H node

/-- `MPTShortNode::Encode`. -/
def encode (key node : Bytes) : Except Fault Bytes :=
  let elems := if type node = .kMPTValue then 1 else numElem node
  let nodeOffset := 8 + 4 + key.length
  let capacity := nodeOffset + if type node = .kMPTValue then numBytes node else kHashSize
  create .kMPTShort capacity
    (leBytes 8 elems ++ leBytes 4 key.length ++ key ++ childBytes H node)

/-- `key_len` of `PrecomputeOffset`. -/
def keyLen (c : Bytes) : ℕ := leNat (dataBytes c 8 4)

/-- `MPTShortNode::getKey`. -/
def getKey (c : Bytes) : Bytes := dataBytes c 12 (keyLen c)

/-- `MPTShortNode::childNode`. -/
def childNode (c : Bytes) : Bytes := dataFrom c (12 + keyLen c)

end MPTShortNode

/-! ### Full nodes -/

namespace MPTFullNode

/-- `MPTFullNode::Encode`; for other than 17 nodes it returns a chunk without a head. -/
def encode (nodes : List Bytes) : Except Fault Bytes :=
  if nodes.length ≠ 17 then .error .nullChunk
  else
    let last := nodes.getD 16 []
    let elems := (nodes.map elemsOf).sum
    create .kMPTFull (8 + 16 * kHashSize + numBytes last)
      (leBytes 8 elems ++ (nodes.take 16).flatMap (MPTHashNode.encode H) ++ bytes last)

/-- `MPTFullNode::getChildAtIndex`. -/
def getChildAtIndex (c : Bytes) (index : ℕ) : Except Fault Bytes :=
  if index < 17 then .ok (dataFrom c (8 + kHashSize * index)) else .error .outOfRange

/-- `num_elem` of `setChildAtIndex`, on 64 bits. -/
def newElems (c child oChild : Bytes) : ℕ :=
  (numElem c + elemsOf child + 2 ^ 64 - elemsOf oChild) % 2 ^ 64

/-- `capacity` of `setChildAtIndex`, on 32 bits. -/
def newCapacity (c value old : Bytes) : ℕ :=
  (numBytes c + numBytes value + 2 ^ 64 - (kMetaLength + numBytes old)) % 2 ^ 32

/-- `MPTFullNode::setChildAtIndex`. -/
def setChildAtIndex (c : Bytes) (index : ℕ) (child oChild : Bytes) : Except Fault Bytes := do
  let value := if index = 16 then child else MPTHashNode.encode H child
  let old ← getChildAtIndex c index
  let capacity := newCapacity c value old
  -- everything before the child, the child, and everything after it
  let before := dataBytes c 8 (kHashSize * index)
  let rest := 8 + kHashSize * (index + 1)
  let tail := if index < 16 then dataBytes c rest (capacity - rest) else []
  create .kMPTFull capacity (leBytes 8 (newElems c child oChild) ++ before ++ bytes value ++ tail)

end MPTFullNode

end LedgerDatabase.Ledgerdb
