import LedgerDatabase.Common.Logger
import LedgerDatabase.Library.Run
import LedgerDatabase.Qldb.BTree
import LedgerDatabase.Sqlledger.MerkleTree

/-!
# `SQLLedger`

`Set` stores the documents of a transaction under `<key>|<block>`, enters them into the index and
appends the transaction to the log.  The thread `updateLedger` cuts blocks: it takes what is in the
buffer as the next block and builds the Merkle trees over it.  All of this is in one store, and
`GetHistory` reads the records of a key from an iterator over that store.

The two threads take turns.  `Step` is what one of them does between two points at which the other one
can be seen: a critical section, one write of a document, or a part that touches only its own records.
`Set` is called by one thread at a time, since it changes `tid_` outside of any lock.

The B+ tree `history_` is made and never used.
-/

namespace LedgerDatabase.Sqlledger

open Qldb (QLBTree BPlusConfig)

variable (H : Bytes → Hash) (cfg : BPlusConfig)

/-! ### The state -/

/-- `SQLLedger`. -/
structure SQLLedger where
  db : DB
  indexed : QLBTree
  logger : Logger := {}
  /-- `buffer_`, in the order of the numbers. -/
  buffer : List (ℕ × List Bytes) := []
  blockSeq : ℕ := 0
  tid : ℕ := 0
  deriving DecidableEq

/-- Where a call of `Set` is. -/
inductive Setting
  | idle
  /-- It has the number of a block, and these keys and documents still have to be stored. -/
  | storing (keys vals : List Bytes) (now nextBlkSeq : ℕ) (docs : List Bytes)
      (left : List (Bytes × Bytes))
  /-- The index has the documents. -/
  | logging (keys vals : List Bytes) (now nextBlkSeq : ℕ)
  /-- The log has the transaction, which takes so many bytes there. -/
  | advancing (size nextBlkSeq : ℕ)
  deriving DecidableEq, Repr

/-- Where `updateLedger` is. -/
inductive Updating
  | sleeping
  /-- It builds this block; the transactions `left` still have to be built. -/
  | building (newBlkSeq txnSeq : ℕ) (left : List (ℕ × List Bytes)) (leaves : List Bytes)
  deriving DecidableEq, Repr

/-- The ledger and its two threads. -/
structure Threads where
  ledger : SQLLedger
  setting : Setting := .idle
  updating : Updating := .sleeping
  deriving DecidableEq

/-- `std::map::emplace` into the buffer. -/
def emplace (tid : ℕ) (docs : List Bytes) : List (ℕ × List Bytes) → List (ℕ × List Bytes)
  | [] => [(tid, docs)]
  | e :: buffer =>
    if tid = e.1 then e :: buffer
    else if tid < e.1 then (tid, docs) :: e :: buffer
    else e :: emplace tid docs buffer

/-- `BlockProof`. -/
structure BlockProof where
  blks : List Bytes
  deriving DecidableEq, Repr

/-- `DetailProof`. -/
structure DetailProof where
  /-- `txn_proof`. -/
  txnProof : Proof
  /-- `data_proof`. -/
  dataProof : Proof
  deriving DecidableEq, Repr

/-- `Auditor`. -/
structure Auditor where
  blks : List Bytes
  txns : Bytes
  digest : Bytes
  /-- `block_seq`. -/
  blockSeq : ℕ
  deriving DecidableEq, Repr

namespace SQLLedger

/-- `SQLLedger(t, dbpath)`, for the store that is found there. -/
def ofDB (db : DB) : Except Fault SQLLedger := do
  let (indexed, db) ← QLBTree.ofDB db (str "COMMITTED_")
  return { db, indexed }

/-! ### Names -/

/-- `"txn" + std::to_string(tid)`. -/
def txnKey (tid : ℕ) : Bytes := str "txn" ++ toDecimal tid

/-- `"blk" + std::to_string(seq)`. -/
def blockKey (seq : ℕ) : Bytes := str "blk" ++ toDecimal seq

/-- `key + "|"`. -/
def histPrefix (key : Bytes) : Bytes := key ++ str "|"

/-- `key + "|" + std::to_string(seq)`. -/
def histKey (key : Bytes) (seq : ℕ) : Bytes := histPrefix key ++ toDecimal seq

/-! ### `Set` -/

/-- A document: `{block}|{txnid}|{index}|{key}|{value}|{time}`. -/
def document (nextBlkSeq tid i : ℕ) (key val : Bytes) (now : ℕ) : Bytes :=
  toDecimal nextBlkSeq ++ str "|" ++ txnKey tid ++ str "|" ++ toDecimal i ++ str "|" ++ key ++
    str "|" ++ val ++ str "|" ++ toDecimal now

/-- The loop over the keys from index `i` on; `vals` is indexed along with them. -/
def documents (nextBlkSeq tid now : ℕ) : (i : ℕ) → (keys vals : List Bytes) →
    Except Fault (List Bytes)
  | _, [], _ => .ok []
  | _, _ :: _, [] => .error .outOfRange
  | i, key :: keys, val :: vals => do
    let docs ← documents nextBlkSeq tid now (i + 1) keys vals
    return document nextBlkSeq tid i key val now :: docs

/-- The first critical section of `Set`. -/
def beginSet (s : SQLLedger) (keys vals : List Bytes) (now : ℕ) :
    Except Fault (Setting × SQLLedger) := do
  let nextBlkSeq := s.blockSeq
  let docs ← documents nextBlkSeq s.tid now 0 keys vals
  return (.storing keys vals now nextBlkSeq docs (keys.zip docs),
    { s with buffer := emplace s.tid docs s.buffer })

/-- `db_.Put(hist_key, docs[i])`. -/
def putDocument (s : SQLLedger) (nextBlkSeq : ℕ) (e : Bytes × Bytes) : SQLLedger :=
  { s with db := s.db.putString (histKey e.1 nextBlkSeq) e.2 }

/-- `indexed_->Set(ks, ds)`. -/
def setIndexed (s : SQLLedger) (keys docs : List Bytes) : Except Fault SQLLedger := do
  let (_, indexed, db) ← s.indexed.set cfg (keys.zip docs) s.db
  return { s with indexed, db }

/-- "append to wal log": the size of the entry.  `tid_-1` is taken before `tid_` goes up. -/
def appendLog (s : SQLLedger) (keys vals : List Bytes) (now : ℕ) : Except Fault (ℕ × SQLLedger) := do
  let chunk ← TxnEntry.encode now keys vals (H (str "0")) (subSize s.tid 1)
  return (Chunk.numBytes chunk, { s with logger := s.logger.log (Chunk.bytes chunk) })

/-- The last critical section of `Set`, and `++tid_`. -/
def endSet (s : SQLLedger) (size : ℕ) : SQLLedger :=
  { s with logger := s.logger.advance size, tid := s.tid + 1 }

/-! ### `updateLedger` -/

/-- The critical section: the buffer becomes a block. -/
def cutBlock (s : SQLLedger) : Updating × SQLLedger :=
  (.building s.blockSeq 0 s.buffer [],
    { s with blockSeq := s.blockSeq + 1, buffer := [], logger := s.logger.index s.blockSeq })

/-- What `Build` leaves in `level` and `root_hash`, which are empty at first. -/
def builtOrEmpty (built : Option (Bytes × Bytes)) : Bytes × Bytes := built.getD ([], [])

/-- One round of the loop over the transactions of a block: the entry for the transaction. -/
def buildTxn (s : SQLLedger) (newBlkSeq txnSeq : ℕ) (txn : ℕ × List Bytes) :
    Except Fault (Bytes × SQLLedger) := do
  let txnid := txnKey txn.1
  let (built, db) ← MerkleTree.build H s.db txnid txn.2
  let (level, txnroot) := builtOrEmpty built
  let entry := txnid ++ str "|" ++ toDecimal newBlkSeq ++ str "|" ++ toDecimal txnSeq ++ str "|" ++
    txnroot ++ str "|" ++ level
  return (entry, { s with db := db.putString txnid entry })

/-- The rest of a round of `updateLedger`. -/
def buildBlock (s : SQLLedger) (newBlkSeq : ℕ) (leaves : List Bytes) : Except Fault SQLLedger := do
  let (built, db) ← MerkleTree.build H s.db (blockKey newBlkSeq) leaves
  let (level, rootHash) := builtOrEmpty built
  let digest := (db.getString (str "digest")).getD []
  let prevHash ← at? (splitBy digest 124) 0
  let newblock := prevHash ++ str "|" ++ rootHash ++ str "|" ++ level
  let newhash := (H newblock).toBase32
  let db := db.putString (blockKey newBlkSeq) newblock
  return { s with db := db.putString (str "digest") (newhash ++ str "|" ++ toDecimal newBlkSeq) }

/-! ### `GetHistory` -/

/-- What an iterator over the store sees. -/
def records (db : DB) : StdMap Bytes := db.rocks.foldr (fun e m => m.assign e.1 e.2) []

/-- The loop of `GetHistory`.  `cnt` is an `int`, and `none` is its overflow. -/
def historyLoop (pre : Bytes) (n : ℕ) : (cnt : ℕ) → StdMap Bytes → Option (List Bytes)
  | _, [] => some []
  | cnt, e :: iter =>
    if pre.isPrefixOf e.1 then
      let cnt := cnt + 1
      if cnt < 2 ^ 31 then
        if n ≤ cnt then some [e.2] else (historyLoop pre n cnt iter).map (e.2 :: ·)
      else none
    else some []

/-- `GetHistory`. -/
def getHistory (s : SQLLedger) (key : Bytes) (n : ℕ) : Option (List Bytes) :=
  if n = 0 then some []
  else historyLoop (histPrefix key) n 0 ((records s.db).lowerBound (histPrefix key))

/-! ### Proofs -/

/-- `GetDataAtBlock`. -/
def getDataAtBlock (s : SQLLedger) (key : Bytes) (blockSeq : ℕ) : Bytes :=
  (s.db.getString (histKey key blockSeq)).getD []

/-- The loop of `getBlockProof` over the blocks, and `*level` if it has been set. -/
def proofBlocks (db : DB) (blockAddr : ℕ) : List ℕ → Except Fault (List Bytes × Option ℤ)
  | [] => .ok ([], none)
  | i :: is => do
    let block := (db.getString (blockKey i)).getD []
    let level ← if i = blockAddr then do
        let blockinfo := splitBy block 124
        pure (some (toInt (← stoul (← at? blockinfo 2))))
      else pure none
    let rest ← proofBlocks db blockAddr is
    return (block :: rest.1, rest.2 <|> level)

/-- `getBlockProof`. -/
def getBlockProof (s : SQLLedger) (blockAddr tip : ℕ) : Except Fault (BlockProof × Option ℤ) := do
  if tip + 1 = 2 ^ 64 then throw .diverges
  let (blks, level) ← proofBlocks s.db blockAddr (List.range' blockAddr (tip + 1 - blockAddr))
  return (⟨blks⟩, level)

/-- `getDetailProof`. -/
def getDetailProof (s : SQLLedger) (key : Bytes) (blockAddr : ℕ) (level : ℤ) :
    Except Fault DetailProof := do
  let doc := s.getDataAtBlock key blockAddr
  let docitems := splitBy doc 124
  let txnid ← at? docitems 1
  let docseq ← stoul (← at? docitems 2)
  let txn := (s.db.getString txnid).getD []
  let txnitems := splitBy txn 124
  let txnseq ← stoul (← at? txnitems 2)
  let _txnroot ← at? txnitems 3
  let txnrootlevel ← stoul (← at? txnitems 4)
  return {
    txnProof := { MerkleTree.getProof s.db (blockKey blockAddr) level txnseq with value := txn }
    dataProof := { MerkleTree.getProof s.db (str "txn" ++ txnid) (toInt txnrootlevel) docseq with
      value := doc } }

/-! ### `GetCommitted`, `GetDigest` and `getAudit` -/

/-- `GetCommitted`; a null slice becomes an empty string. -/
def getCommitted (s : SQLLedger) (key : Bytes) : Except Fault (Bytes × SQLLedger) := do
  let (result, db) ← s.indexed.get key s.db
  return (result.getD [], { s with db })

/-- `GetDigest`: `*tip` and `*hash`. -/
def getDigest (s : SQLLedger) : Except Fault (ℕ × Bytes) := do
  let digest := (s.db.getString (str "digest")).getD []
  let res := splitBy digest 124
  let hash ← at? res 0
  return (← stoul (← at? res 1), hash)

/-- The loop of `getAudit` over the blocks: `level` and `blkroot` are read from the first one. -/
def auditBlocks (db : DB) (blockAddr : ℕ) : List ℕ → Except Fault (List Bytes)
  | [] => .ok []
  | i :: is => do
    let block := (db.getString (blockKey i)).getD []
    if i = blockAddr then
      let blockinfo := splitBy block 124
      let _level ← stoul (← at? blockinfo 2)
      let _blkroot ← at? blockinfo 1
    return block :: (← auditBlocks db blockAddr is)

/-- `getAudit`.  `tip` is an `int`, and `i <= tip` compares it as a `size_t`. -/
def getAudit (s : SQLLedger) (seq : ℕ) : Except Fault Auditor := do
  -- the number comes from the client, and the offset `seq * 32` in the index wraps at `2^64`
  let (txns, blockAddr) ← s.logger.read (seq % 2 ^ 59)
  let value := (s.db.getString (str "digest")).getD []
  let fields := splitBy value 124
  let digest ← at? fields 0
  let tip := (toInt (← stoul (← at? fields 1)) % 2 ^ 64).toNat
  if tip + 1 = 2 ^ 64 then throw .diverges
  let blks ← auditBlocks s.db blockAddr (List.range' blockAddr (tip + 1 - blockAddr))
  return { blks, txns, digest, blockSeq := blockAddr }

end SQLLedger

/-! ### `BlockProof::Verify` and `DetailProof::Verify` -/

/-- The loop over the blocks, newest first: the result and `*blk_mt_root`. -/
def BlockProof.verifyLoop : (target blkMtRoot : Bytes) → List Bytes → Except Fault (Bool × Bytes)
  | _, blkMtRoot, [] => .ok (true, blkMtRoot)
  | target, blkMtRoot, block :: blks =>
    if (H block).toBase32 ≠ target then .ok (false, blkMtRoot)
    else do
      let blockInfo := splitBy block 124
      let target ← at? blockInfo 0
      verifyLoop target (← at? blockInfo 1) blks

/-- `BlockProof::Verify`: the result and `*blk_mt_root`, which is `blkMtRoot` before the call. -/
def BlockProof.verify (p : BlockProof) (hash blkMtRoot : Bytes) : Except Fault (Bool × Bytes) :=
  verifyLoop H hash blkMtRoot p.blks.reverse

/-- `DetailProof::Verify`. -/
def DetailProof.verify (p : DetailProof) (hash : Bytes) : Except Fault Bool := do
  if hash ≠ p.txnProof.digest then return false
  if !(← p.txnProof.verify H) then return false
  let txnInfo := splitBy p.txnProof.value 124
  let txnMtRoot ← at? txnInfo 3
  if txnMtRoot ≠ p.txnProof.digest then return false
  p.dataProof.verify H

/-! ### `Auditor::Audit` -/

namespace Auditor

/-- The loop over the blocks, newest first: `blk_mt_root`, or `none` when a block does not have the
target hash. -/
def walkBlocks : (target blkMtRoot : Bytes) → List Bytes → Except Fault (Option Bytes)
  | _, blkMtRoot, [] => .ok (some blkMtRoot)
  | target, _, block :: blks =>
    if (H block).toBase32 ≠ target then .ok none
    else do
      let blockInfo := splitBy block 124
      let target ← at? blockInfo 0
      walkBlocks target (← at? blockInfo 1) blks

/-- The documents of an entry of the log, from index `i` on. -/
def documents (blockSeq : ℕ) (entry : TxnEntry) : List Bytes :=
  ((entry.keys.zip entry.vals).zipIdx).map fun e =>
    SQLLedger.document blockSeq entry.txnid.toNat e.2 e.1.1 e.1.2 entry.time.toNat

/-- The loop over the entries of the log, from number `j` on: the entries of their transactions. -/
def buildTxns (blockSeq : ℕ) : (j : ℕ) → List TxnEntry → DB → Except Fault (List Bytes × DB)
  | _, [], db => .ok ([], db)
  | j, entry :: entries, db => do
    let txnid := SQLLedger.txnKey entry.txnid.toNat
    let (built, db) ← MerkleTree.build H db txnid (documents blockSeq entry)
    let (level, txnroot) := SQLLedger.builtOrEmpty built
    let txnEntry := txnid ++ str "|" ++ toDecimal blockSeq ++ str "|" ++ toDecimal j ++ str "|" ++
      txnroot ++ str "|" ++ level
    let (buffer, db) ← buildTxns blockSeq (j + 1) entries db
    return (txnEntry :: buffer, db)

/-- `Auditor::Audit`: the result, `*ntxn` and the store of the auditor afterwards.  Before the log
is read, `*ntxn` stays `0`. -/
def audit (a : Auditor) (db : DB) : Except Fault (Bool × ℕ × DB) := do
  match ← walkBlocks H a.digest [] a.blks.reverse with
  | none => return (false, 0, db)
  | some blkMtRoot =>
    let entries ← TxnEntry.parseTxnEntries a.txns
    let (buffer, db) ← buildTxns H a.blockSeq 0 entries db
    let (built, db) ← MerkleTree.build H db (SQLLedger.blockKey a.blockSeq) buffer
    let (_, rootHash) := SQLLedger.builtOrEmpty built
    return (rootHash == blkMtRoot, entries.length, db)

end Auditor

/-! ### Steps -/

/-- A step of one of the threads. -/
inductive Step
  /-- `Set` is called, with the clock at `now`. -/
  | beginSet (keys vals : List Bytes) (now : ℕ)
  | putDocument
  | setIndexed
  | appendLog
  | endSet
  /-- `updateLedger` wakes up, and the buffer is not empty. -/
  | cutBlock
  | buildTxn
  | buildBlock
  deriving DecidableEq, Repr

/-- `none` where the step is not the next one of its thread, or does not return. -/
def step (t : Threads) : Step → Option Threads
  | .beginSet keys vals now =>
    if t.setting = .idle then do
      let (setting, ledger) ← (t.ledger.beginSet keys vals now).toOption
      return { t with ledger, setting }
    else none
  | .putDocument =>
    match t.setting with
    | .storing keys vals now nextBlkSeq docs (e :: left) => some { t with
        ledger := t.ledger.putDocument nextBlkSeq e
        setting := .storing keys vals now nextBlkSeq docs left }
    | _ => none
  | .setIndexed =>
    match t.setting with
    | .storing keys vals now nextBlkSeq docs [] => do
      let ledger ← (t.ledger.setIndexed cfg keys docs).toOption
      return { t with ledger, setting := .logging keys vals now nextBlkSeq }
    | _ => none
  | .appendLog =>
    match t.setting with
    | .logging keys vals now nextBlkSeq => do
      let (size, ledger) ← (t.ledger.appendLog H keys vals now).toOption
      return { t with ledger, setting := .advancing size nextBlkSeq }
    | _ => none
  | .endSet =>
    match t.setting with
    | .advancing size _ => some { t with ledger := t.ledger.endSet size, setting := .idle }
    | _ => none
  | .cutBlock =>
    if t.updating = .sleeping ∧ t.ledger.buffer ≠ [] then
      some { t with ledger := t.ledger.cutBlock.2, updating := t.ledger.cutBlock.1 }
    else none
  | .buildTxn =>
    match t.updating with
    | .building newBlkSeq txnSeq (txn :: left) leaves => do
      let (entry, ledger) ← (t.ledger.buildTxn H newBlkSeq txnSeq txn).toOption
      return { t with
        ledger, updating := .building newBlkSeq (txnSeq + 1) left (leaves ++ [entry]) }
    | _ => none
  | .buildBlock =>
    match t.updating with
    | .building newBlkSeq _ [] leaves => do
      let ledger ← (t.ledger.buildBlock H newBlkSeq leaves).toOption
      return { t with ledger, updating := .sleeping }
    | _ => none

end LedgerDatabase.Sqlledger
