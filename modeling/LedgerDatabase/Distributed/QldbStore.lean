import LedgerDatabase.Distributed.QldbClient

/-!
# `VersionedKVStore` of the `AMZQLDB` build

The server keeps its values in the ledger `test` of a `QLDB` and answers with proofs: `BatchGet` and
`GetRange` with the last document of every key, `GetNVersions` with the last documents of a key.  The
digest in a reply is the one at the last `BatchGet` or `GetRange` that filled it.

`commit` is what `OCCStore::Commit` asks of the store for a transaction of a stored procedure.
-/

namespace LedgerDatabase.Distributed.QldbStore

open Qldb

/-- The ledger of the store. -/
def ledger : Bytes := str "test"

/-- The entry of a reply for the proof of a document. -/
def proofEntry (key : Bytes) (r : QLProofResult) : QLDBProof where
  key
  value := r.data.val
  blockno := UInt64.ofNat r.addr.seqNo
  docSeq := UInt64.ofNat r.metadata.docSeq
  version := UInt64.ofNat r.metadata.version
  time := UInt64.ofNat r.metadata.time
  hashes := r.proof
  pos := r.pos.map Int32.ofNat

/-- The proof of a document that was read for a key. -/
def addProof (tip : ℕ) (key document : Bytes) (q : QLDB) : Except Fault (QLDBProof × QLDB) := do
  let doc := Document.ofChunk document
  let (r, q) ← q.getProof ledger tip doc.addr.seqNo doc.metadata.docSeq
  return (proofEntry key r, q)

/-- The loop over documents, each with the key it was read for. -/
def addProofs (tip : ℕ) : List (Bytes × Bytes) → QLDB → Except Fault (List QLDBProof × QLDB)
  | [], q => .ok ([], q)
  | (key, document) :: rest, q => do
    let (p, q) ← addProof tip key document q
    let (proofs, q) ← addProofs tip rest q
    return (p :: proofs, q)

/-- The loop of `BatchGet`; a key without a document is skipped. -/
def batchGetLoop (tip : ℕ) : List Bytes → QLDB → Except Fault (List QLDBProof × QLDB)
  | [], q => .ok ([], q)
  | key :: keys, q => do
    let (result, q) ← q.getCommitted ledger key
    match result with
    | none => batchGetLoop tip keys q
    | some document =>
      let (p, q) ← addProof tip key document q
      let (proofs, q) ← batchGetLoop tip keys q
      return (p :: proofs, q)

/-- `VersionedKVStore::BatchGet`. -/
def batchGet (keys : List Bytes) (reply : QLDBReply) (q : QLDB) :
    Except Fault (QLDBReply × QLDB) := do
  let info ← q.digest ledger
  let (proofs, q) ← batchGetLoop info.tip keys q
  return ({ reply with hash := info.digest, qproof := reply.qproof ++ proofs }, q)

/-- `VersionedKVStore::GetRange`. -/
def getRange (start stop : Bytes) (reply : QLDBReply) (q : QLDB) :
    Except Fault (QLDBReply × QLDB) := do
  let info ← q.digest ledger
  let (results, q) ← q.range ledger start stop
  let (proofs, q) ← addProofs info.tip results q
  return ({ reply with hash := info.digest, qproof := reply.qproof ++ proofs }, q)

/-- The loop of `GetNVersions`. -/
def getNVersionsLoop (tip : ℕ) : List (Bytes × ℕ) → QLDB → Except Fault (List QLDBProof × QLDB)
  | [], q => .ok ([], q)
  | (key, n) :: verKeys, q => do
    let (results, q) ← q.getHistory ledger key n
    let documents ← results.mapM deref
    let (proofs, q) ← addProofs tip (documents.map fun document => (key, document)) q
    let (rest, q) ← getNVersionsLoop tip verKeys q
    return (proofs ++ rest, q)

/-- `VersionedKVStore::GetNVersions`, which does not set the digest of the reply. -/
def getNVersions (verKeys : List (Bytes × ℕ)) (reply : QLDBReply) (q : QLDB) :
    Except Fault (QLDBReply × QLDB) := do
  let info ← q.digest ledger
  let (proofs, q) ← getNVersionsLoop info.tip verKeys q
  return ({ reply with qproof := reply.qproof ++ proofs }, q)

/-- `VersionedKVStore::put`; the result of `Set` is dropped. -/
def put (H : Bytes → Hash) (cfg : BPlusConfig) (keys values : List Bytes) (env : Env)
    (reply : Option QLDBReply) (q : QLDB) : Except Fault (Option QLDBReply × QLDB) := do
  let (_, q) ← q.set H cfg ledger keys values env
  match reply with
  | none => return (none, q)
  | some reply =>
    let (reply, q) ← batchGet keys reply q
    return (some reply, q)

/-- The proofs for the read set, if there is one. -/
def commitReads (keys : List Bytes) (reply : QLDBReply) (q : QLDB) :
    Except Fault (QLDBReply × QLDB) :=
  if keys.length > 0 then batchGet keys reply q else .ok (reply, q)

/-- The proofs for `ver_keys`, if there are any. -/
def commitVersions (verKeys : List (Bytes × ℕ)) (reply : QLDBReply) (q : QLDB) :
    Except Fault (QLDBReply × QLDB) :=
  if verKeys.length > 0 then getNVersions verKeys reply q else .ok (reply, q)

/-- The write set, if there is one. -/
def commitWrites (H : Bytes → Hash) (cfg : BPlusConfig) (writeSet : List (Bytes × Bytes)) (env : Env)
    (reply : QLDBReply) (q : QLDB) : Except Fault (QLDBReply × QLDB) :=
  if writeSet.length > 0 then do
    let (reply', q) ← put H cfg (writeSet.map (·.1)) (writeSet.map (·.2)) env (some reply) q
    return (reply'.getD reply, q)
  else .ok (reply, q)

/-- What `OCCStore::Commit` with `ver_keys` asks of the store, for the keys of the read set and the
entries of the write set in the order of their maps.  `GetDigest` leaves the hash empty. -/
def commit (H : Bytes → Hash) (cfg : BPlusConfig) (reads : List Bytes) (verKeys : List (Bytes × ℕ))
    (writeSet : List (Bytes × Bytes)) (env : Env) (q : QLDB) : Except Fault (QLDBReply × QLDB) := do
  let (reply, q) ← commitReads reads {} q
  let (reply, q) ← commitVersions verKeys reply q
  commitWrites H cfg writeSet env reply q

end LedgerDatabase.Distributed.QldbStore
