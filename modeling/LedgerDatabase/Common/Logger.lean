import LedgerDatabase.Common.Chunk
import LedgerDatabase.Library.Frames

/-!
# The write-ahead log

`TxnEntry.encode` is `TxnEntry::Encode`.  An entry is a chunk with the data
`| numEntries (4) | (keySize (4) | key | valSize (4) | val)… | signature (20) | time (8) | txnid (8) |`.
`TxnEntry.parse` is `TxnEntry::Parse`, which takes such a chunk apart.

`Logger` appends to two files.  A record of the index says which bytes of the log belong to a block.
-/

namespace LedgerDatabase

/-- `ChunkType::kTxnLog`. -/
def kTxnLog : UInt8 := 12

/-- `TxnEntry`. -/
structure TxnEntry where
  keys : List Bytes
  vals : List Bytes
  signature : Hash
  time : UInt64
  txnid : UInt64
  /-- There is a value for each key. -/
  length_vals : vals.length = keys.length
  deriving DecidableEq

namespace TxnEntry

/-- The loop over the keys; `vals` is indexed along with them. -/
def encodeEntries : (keys vals : List Bytes) → Except Fault Bytes
  | [], _ => .ok []
  | _ :: _, [] => .error .outOfRange
  | key :: keys, val :: vals => do
    let rest ← encodeEntries keys vals
    return leBytes 4 key.length ++ key ++ leBytes 4 val.length ++ val ++ rest

/-- `TxnEntry::Encode`. -/
def encode (time : ℕ) (keys vals : List Bytes) (signature : Hash) (txnid : ℕ) :
    Except Fault Bytes := do
  let entries ← encodeEntries keys vals
  let totalSize := 4 + kByteLength + 2 * 8 + entries.length
  if Chunk.kMetaLength + totalSize < 2 ^ 32 then
    return Chunk.ofByteData kTxnLog (leBytes 4 keys.length ++ entries ++ signature.bytes ++
      leBytes 8 time ++ leBytes 8 txnid)
  else .error .oversize

/-- The loop of `TxnEntry::Parse`: the pairs of a key and a value, and the offset behind them. -/
def parseEntries (chunk : Bytes) : (numEntries offset : ℕ) → List (Bytes × Bytes) × ℕ
  | 0, offset => ([], offset)
  | numEntries + 1, offset =>
    let keySize := leNat (Chunk.dataBytes chunk offset 4)
    let key := Chunk.dataBytes chunk (offset + 4) keySize
    let valSize := leNat (Chunk.dataBytes chunk (offset + 4 + keySize) 4)
    let val := Chunk.dataBytes chunk (offset + 4 + keySize + 4) valSize
    let rest := parseEntries chunk numEntries (offset + 4 + keySize + 4 + valSize)
    ((key, val) :: rest.1, rest.2)

/-- `TxnEntry::Parse`. -/
def parse (chunk : Bytes) : TxnEntry :=
  let numEntries := leNat (Chunk.dataBytes chunk 0 4)
  let entries := parseEntries chunk numEntries 4
  { keys := entries.1.map Prod.fst
    vals := entries.1.map Prod.snd
    signature := ⟨Chunk.dataBytes chunk entries.2 kByteLength, Chunk.length_dataBytes ..⟩
    time := .ofNat (leNat (Chunk.dataBytes chunk (entries.2 + kByteLength) 8))
    txnid := .ofNat (leNat (Chunk.dataBytes chunk (entries.2 + kByteLength + 8) 8))
    length_vals := by rw [List.length_map, List.length_map] }

/-- One round of the loop of `TxnEntry::ParseTxnEntries`; `offset` may go past the end. -/
def next : Frames.Next Fault UInt8 TxnEntry := fun data =>
  if data = [] then .ok none else .ok (some (parse data, data.drop (Chunk.numBytes data)))

/-- `TxnEntry::ParseTxnEntries`. -/
def parseTxnEntries (data : Bytes) : Except Fault (List TxnEntry) := do
  let (result, _) ← Frames.drain .diverges next (data.length + 1) data
  return result

end TxnEntry

/-- A record of the index: `| seq (8) | block (8) | start (8) | end (8) |`. -/
structure IndexEntry where
  seq : ℕ
  block : ℕ
  start : ℕ
  /-- `end`. -/
  stop : ℕ
  deriving DecidableEq, Repr

/-- `Logger`. -/
structure Logger where
  /-- What has been written to the file `wal_` since it was opened. -/
  wal : Bytes := []
  /-- The records that have been written to the file `idx_` since it was opened. -/
  idx : List IndexEntry := []
  seq : ℕ := 0
  /-- `start_`. -/
  start : ℕ := 0
  /-- `end_`. -/
  stop : ℕ := 0
  deriving DecidableEq, Repr

namespace Logger

/-- `Logger::log`. -/
def log (l : Logger) (data : Bytes) : Logger := { l with wal := l.wal ++ data }

/-- `Logger::advance`. -/
def advance (l : Logger) (size : ℕ) : Logger := { l with stop := l.stop + size }

/-- `Logger::index`. -/
def index (l : Logger) (block : ℕ) : Logger :=
  { l with
    idx := l.idx ++ [⟨l.seq, block, l.start, l.stop⟩]
    seq := l.seq + 1
    start := l.stop }

/-- `Logger::read`: the bytes of the log that a record of the index names, and its block. -/
def read (l : Logger) (seq : ℕ) : Except Fault (Bytes × ℕ) := do
  let e ← at? l.idx seq
  return (readBytes l.wal e.start (e.stop - e.start), e.block)

/-- A transaction goes to the log, or a block is cut. -/
inductive Call
  | txn (t : TxnEntry)
  | index (block : ℕ)

/-- A transaction is encoded, logged and counted. -/
def call (l : Logger) : Call → Except Fault Logger
  | .txn t => do
    let chunk ← TxnEntry.encode t.time.toNat t.keys t.vals t.signature t.txnid.toNat
    return (l.log (Chunk.bytes chunk)).advance (Chunk.numBytes chunk)
  | .index block => .ok (l.index block)

end Logger

end LedgerDatabase
