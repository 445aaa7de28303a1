import LedgerDatabase.Common.Hash

/-!
# Chunks

A chunk is `| num_bytes (4) | type (1) | data |`.  A `Chunk` of the source is a pointer to its head,
and the bytes that follow the chunk in memory are behind the pointer as well; here it is the list
of bytes from the head on.  The source leaves reads behind the end of the memory undefined, and
they yield zero bytes here.

`mkChunk` is the constructor `Chunk(type, capacity)` with the `memcpy` calls that fill it: it fails
when the bytes do not fit the 32-bit size or the buffer allocated for them.
-/

namespace LedgerDatabase

/-- `ChunkType`, as far as code on tries tells the types apart. -/
inductive ChunkType
  | kMPTFull
  | kMPTShort
  | kMPTHash
  | kMPTValue
  | kMPTNil
  | other
  deriving DecidableEq, Repr

/-- The type with the given `unsigned char`. -/
def ChunkType.ofByte (b : UInt8) : ChunkType :=
  match b.toNat with
  | 0 => kMPTFull
  | 1 => kMPTShort
  | 2 => kMPTHash
  | 3 => kMPTValue
  | 4 => kMPTNil
  | _ => other

/-- The `unsigned char` of a type; a chunk of any other type is never created here. -/
def ChunkType.toByte : ChunkType → UInt8
  | kMPTFull => 0
  | kMPTShort => 1
  | kMPTHash => 2
  | kMPTValue => 3
  | kMPTNil => 4
  | other => 99

/-- `n` bytes of memory from offset `off` on. -/
def readBytes (c : Bytes) (off n : ℕ) : Bytes :=
  (c.drop off).take n ++ List.replicate (n - (c.length - off)) 0

@[simp]
theorem length_readBytes (c : Bytes) (off n : ℕ) : (readBytes c off n).length = n := by
  simp only [readBytes, List.length_append, List.length_take, List.length_drop,
    List.length_replicate]
  omega

namespace Chunk

/-- `Chunk::kMetaLength`. -/
def kMetaLength : ℕ := 5

/-- `Chunk::numBytes`. -/
def numBytes (c : Bytes) : ℕ := leNat (readBytes c 0 4)

/-- `Chunk::type`. -/
def type (c : Bytes) : ChunkType := .ofByte (c.getD 4 0)

/-- The bytes of the chunk itself. -/
def bytes (c : Bytes) : Bytes := readBytes c 0 (numBytes c)

/-- `n` bytes of the data from offset `off` on. -/
def dataBytes (c : Bytes) (off n : ℕ) : Bytes := readBytes c (kMetaLength + off) n

@[simp]
theorem length_dataBytes (c : Bytes) (off n : ℕ) : (dataBytes c off n).length = n :=
  length_readBytes ..

/-- The pointer `data() + off`. -/
def dataFrom (c : Bytes) (off : ℕ) : Bytes := c.drop (kMetaLength + off)

/-- `Chunk::hash`. -/
def hash (H : Bytes → Hash) (c : Bytes) : Hash := H (bytes c)

/-- A chunk with the given data. -/
def ofData (type : ChunkType) (data : Bytes) : Bytes :=
  leBytes 4 (kMetaLength + data.length) ++ type.toByte :: data

/-- A chunk with the given `unsigned char` for its type. -/
def ofByteData (type : UInt8) (data : Bytes) : Bytes :=
  leBytes 4 (kMetaLength + data.length) ++ type :: data

/-- `Chunk(type, capacity)`, then filled with `data`. -/
def create (type : ChunkType) (capacity : ℕ) (data : Bytes) : Except Fault Bytes :=
  if data.length = capacity ∧ kMetaLength + capacity < 2 ^ 32 then .ok (ofData type data)
  else .error .oversize

end Chunk

end LedgerDatabase
