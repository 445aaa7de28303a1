import LedgerDatabase.Distributed.QldbClient
import LedgerDatabase.Distributed.VersionStore
import LedgerDatabase.Sqlledger.SQLLedger

/-!
# `BatchGet`

How a shard of every build answers to `BATCH_GET`, and what `BufferClient::BatchGet` does with the
answer.
-/

namespace LedgerDatabase.Distributed

open Qldb Sqlledger

namespace VersionedKVStore

/-! ### `SQLLEDGER` -/

/-- What a reply says of a document: its fields and its timestamp. -/
def sqlEntry (result : Bytes) : Except Fault (KV × ℕ) := do
  let docs := splitBy result 124
  let key ← at? docs 3
  let val ← at? docs 4
  let estimateBlock ← stoul (← at? docs 0)
  return (⟨key, val, estimateBlock⟩, ← stoul (← at? docs 5))

/-- `VersionedKVStore::BatchGet` of the build `SQLLEDGER`. -/
def sqlBatchGet : List Bytes → TxnReply → SQLLedger → Except Fault (TxnReply × SQLLedger)
  | [], reply, s => .ok (reply, s)
  | key :: keys, reply, s => do
    let (result, s) ← s.getCommitted key
    if result.length = 0 then sqlBatchGet keys reply s
    else
      let (kv, timestamp) ← sqlEntry result
      sqlBatchGet keys { reply with values := reply.values ++ [kv]
                                    timestamps := reply.timestamps ++ [timestamp] } s

/-! ### `AMZQLDB` -/

/-- The proof for the newest document of a key. -/
def qldbEntry (tip : ℕ) (key : Bytes) (doc : Document) (q : QLDB) :
    Except Fault (QLDBProof × QLDB) := do
  let (proofres, q) ← q.getProof (str "test") tip doc.addr.seqNo doc.metadata.docSeq
  return ({
    key
    value := proofres.data.val
    blockno := .ofNat proofres.addr.seqNo
    docSeq := .ofNat proofres.metadata.docSeq
    version := .ofNat proofres.metadata.version
    time := .ofNat proofres.metadata.time
    hashes := proofres.proof
    pos := proofres.pos.map Int32.ofNat }, q)

/-- The loop over the keys. -/
def qldbProofs (tip : ℕ) : List Bytes → QLDB → Except Fault (List QLDBProof × QLDB)
  | [], q => .ok ([], q)
  | key :: keys, q => do
    let (result, q) ← q.getCommitted (str "test") key
    match result with
    | none => qldbProofs tip keys q
    | some chunk =>
      let (p, q) ← qldbEntry tip key (Document.ofChunk chunk) q
      let (proofs, q) ← qldbProofs tip keys q
      return (p :: proofs, q)

/-- `VersionedKVStore::BatchGet` of the build `AMZQLDB`, into a new reply. -/
def qldbBatchGet (keys : List Bytes) (q : QLDB) : Except Fault (QLDBReply × QLDB) := do
  let digestInfo ← q.digest (str "test")
  let (qproof, q) ← qldbProofs digestInfo.tip keys q
  return ({ hash := digestInfo.digest, qproof }, q)

end VersionedKVStore

/-! ### The builds -/

/-- The `VersionedKVStore` of a build. -/
inductive BuildStore
  | ledgerdb (s : VersionedKVStore.LedgerStore)
  | sqlledger (s : SQLLedger)
  | amzqldb (q : QLDB)

namespace BuildStore

open VersionedKVStore

/-- What a shard reports for a key. -/
structure Report where
  key : Bytes
  timestamp : ℕ
  deriving DecidableEq, Repr

/-- What a store has for a key. -/
def report (key : Bytes) : BuildStore → Option Report
  | .ledgerdb s => (s.ldb.getValue key).toOption.map fun e => ⟨key, e.1.timestamp⟩
  | .sqlledger s => do
    let (result, _) ← (s.getCommitted key).toOption
    if result.length = 0 then none
    else (sqlEntry result).toOption.map fun e => ⟨e.1.key, e.2⟩
  | .amzqldb q => do
    let digestInfo ← (q.digest (str "test")).toOption
    let (result, _) ← (q.getCommitted (str "test") key).toOption
    let (p, _) ← (qldbEntry digestInfo.tip key (Document.ofChunk (← result)) q).toOption
    return ⟨p.key, p.time.toNat⟩

/-- What a store has for some keys. -/
def reports (s : BuildStore) (keys : List Bytes) : List Report := keys.filterMap fun k => s.report k

end BuildStore

namespace BufferClient

variable (H : Bytes → Hash)

/-- `BufferClient::BatchGet`, answered by a store: `OCCStore::BatchGet` enters the digest and the
reads, and the callback of the build completes the promise. -/
def batchGetFrom (b : BufferClient) : BuildStore → Except Fault BufferClient
  | .ledgerdb s => do
    let digest ← VersionedKVStore.getDigest s
    let (reply, _) ← VersionedKVStore.batchGet b.buffer { digest } s
    b.batchGet reply
  | .sqlledger s => do
    let digest ← s.getDigest
    let (reply, _) ← VersionedKVStore.sqlBatchGet b.buffer { digest } s
    b.batchGet reply
  | .amzqldb q => do
    let (reply, _) ← VersionedKVStore.qldbBatchGet b.buffer q
    let p ← reply.batchGetCallback H
    let b ← b.addValues p
    return { b with buffer := [] }

end BufferClient

end LedgerDatabase.Distributed
