import LedgerDatabase.Common.Chunk

/-!
# Documents and blocks of `qldb`

`Document` and `QLBlock` are chunks.  `encode` writes one, `ofChunk` is the constructor that reads
the fields back (`PrecomputeOffset`).

* A document is
  `| ldg_bytes (4) | ledger_nm | seq (8) | entry_sz (4) | key_sz (4) | key | value | doc_seq (4) |
  version (4) | time (8) |`.
* A block is
  `| hash (20) | prev_hash (20) | block_time (8) | lg_sz (4) | lg_nm | seq_no (8) | stmt_type (1) |
  stmt_time (8) | num_entries (4) | document | … |`.
-/

namespace LedgerDatabase.Qldb

open Chunk

/-! ### Chunk types -/

/-- `ChunkType`, as far as the code of `qldb` tells the types apart. -/
inductive ChunkType
  | kMeta
  | kMap
  | kDocument
  | kQLBlock
  | other
  deriving DecidableEq, Repr

/-- The type with the given `unsigned char`. -/
def ChunkType.ofByte (b : UInt8) : ChunkType :=
  match b.toNat with
  | 5 => kMeta
  | 6 => kMap
  | 8 => kDocument
  | 9 => kQLBlock
  | _ => other

/-- The `unsigned char` of a type; a chunk of any other type is never created here. -/
def ChunkType.toByte : ChunkType → UInt8
  | kMeta => 5
  | kMap => 6
  | kDocument => 8
  | kQLBlock => 9
  | other => 99

/-- `Chunk::type`. -/
def chunkType (c : Bytes) : ChunkType := .ofByte (c.getD 4 0)

/-- `Chunk(type, capacity)`, then filled with `data`. -/
def createChunk (type : ChunkType) (capacity : ℕ) (data : Bytes) : Except Fault Bytes :=
  if data.length = capacity ∧ kMetaLength + capacity < 2 ^ 32 then .ok (ofByteData type.toByte data)
  else .error .oversize

/-- The integer in the `w` bytes at offset `off` of the data. -/
def dataNat (c : Bytes) (off w : ℕ) : ℕ := leNat (dataBytes c off w)

/-- `a - b` on `uint32_t`. -/
def subUInt32 (a b : ℕ) : ℕ := (a + 2 ^ 32 - b) % 2 ^ 32

/-! ### Documents -/

/-- `BlockAddress`. -/
structure BlockAddress where
  /-- `ledger_name`. -/
  ledgerName : Bytes
  /-- `seq_no`. -/
  seqNo : ℕ
  deriving DecidableEq, Repr

/-- `Data`. -/
structure Data where
  key : Bytes
  val : Bytes
  deriving DecidableEq, Repr

/-- `MetaData`. -/
structure MetaData where
  /-- `doc_seq`. -/
  docSeq : ℕ
  version : ℕ
  time : ℕ
  deriving DecidableEq, Repr

/-- What `Document` reads from its chunk. -/
structure Document where
  addr : BlockAddress
  data : Data
  metadata : MetaData
  deriving DecidableEq, Repr

namespace Document

/-- `Document::fixed_length`. -/
def fixedLength : ℕ := 36

/-- `Document::Encode`. -/
def encode (key val : Bytes) (addr : BlockAddress) (metadata : MetaData) : Except Fault Bytes :=
  let ledgerNmBytes := addr.ledgerName.length % 2 ^ 32
  let entryBytes := key.length + val.length + 4 * 2
  createChunk .kDocument (fixedLength + key.length + val.length + ledgerNmBytes)
    (leBytes 4 ledgerNmBytes ++ addr.ledgerName.take ledgerNmBytes ++ leBytes 8 addr.seqNo ++
      leBytes 4 entryBytes ++ leBytes 4 key.length ++ key ++ val ++ leBytes 4 metadata.docSeq ++
      leBytes 4 metadata.version ++ leBytes 8 metadata.time)

/-- The constructor `Document(chunk)`. -/
def ofChunk (c : Bytes) : Document :=
  let ldgBytes := dataNat c 0 4
  let seqOffset := 4 + ldgBytes
  let entryBytes := dataNat c (seqOffset + 8) 4
  let keyBytes := dataNat c (seqOffset + 12) 4
  let keyOffset := seqOffset + 16
  -- the first difference is one of 32-bit, the second one of 64-bit numbers
  let valBytes := subSize (subUInt32 entryBytes keyBytes) (4 * 2)
  let metaOffset := keyOffset + keyBytes + valBytes
  { addr := { ledgerName := dataBytes c 4 ldgBytes, seqNo := dataNat c seqOffset 8 }
    data := { key := dataBytes c keyOffset keyBytes, val := dataBytes c (keyOffset + keyBytes) valBytes }
    metadata :=
      { docSeq := dataNat c metaOffset 4
        version := dataNat c (metaOffset + 4) 4
        time := dataNat c (metaOffset + 8) 8 } }

end Document

/-! ### Blocks -/

/-- `Statement`. -/
structure Statement where
  type : UInt8
  time : ℕ
  deriving DecidableEq, Repr

/-- The hash of the twenty bytes at offset `off` of the data. -/
def dataHash (c : Bytes) (off : ℕ) : Hash where
  bytes := dataBytes c off kByteLength
  length_bytes := length_dataBytes ..

/-- What `QLBlock` reads from its chunk.  A document is the pointer to its head, with the bytes of
the block that follow it. -/
structure QLBlock where
  addr : BlockAddress
  documents : List Bytes
  statement : Statement
  blockTime : ℕ
  blockHash : Hash
  previousHash : Hash
  deriving DecidableEq

namespace QLBlock

/-- `QLBlock::fixed_length`. -/
def fixedLength : ℕ := 69

/-- `QLBlock::Encode`. -/
def encode (addr : BlockAddress) (statement : Statement) (blockTime : ℕ)
    (blockHash previousHash : Hash) (documents : List Bytes) : Except Fault Bytes :=
  createChunk .kQLBlock
    (fixedLength + addr.ledgerName.length + 4 + (documents.map numBytes).sum)
    (blockHash.bytes ++ previousHash.bytes ++ leBytes 8 blockTime ++
      leBytes 4 addr.ledgerName.length ++ addr.ledgerName ++ leBytes 8 addr.seqNo ++
      [statement.type] ++ leBytes 8 statement.time ++ leBytes 4 documents.length ++
      documents.flatMap bytes)

/-- The loop over the documents, from offset `offset` on. -/
def documentsAt (c : Bytes) : (numEntries offset : ℕ) → List Bytes
  | 0, _ => []
  | numEntries + 1, offset =>
    dataFrom c offset :: documentsAt c numEntries (offset + dataNat c offset 4)

/-- The constructor `QLBlock(chunk)`. -/
def ofChunk (c : Bytes) : QLBlock :=
  let ledgerNmBytes := dataNat c 48 4
  let seqOffset := 52 + ledgerNmBytes
  { addr := { ledgerName := dataBytes c 52 ledgerNmBytes, seqNo := dataNat c seqOffset 8 }
    documents := documentsAt c (dataNat c (seqOffset + 17) 4) (seqOffset + 21)
    statement :=
      { type := (dataBytes c (seqOffset + 8) 1).getD 0 0
        time := dataNat c (seqOffset + 9) 8 }
    blockTime := dataNat c 40 8
    blockHash := dataHash c 0
    previousHash := dataHash c kByteLength }

/-- `QLBlock::getDocumentSize`. -/
def getDocumentSize (b : QLBlock) : ℕ := b.documents.length

/-- `QLBlock::getDocumentBySeq`. -/
def getDocumentBySeq (b : QLBlock) (seq : ℕ) : Except Fault Bytes := at? b.documents seq

end QLBlock

end LedgerDatabase.Qldb
