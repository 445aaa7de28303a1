import LedgerDatabase.Distributed.Promises
import LedgerDatabase.Ledgerdb.LedgerDB
import LedgerDatabase.Sqlledger.SQLLedger

/-!
# `Client::Audit`

The client asks every shard for the log from a number on, `ShardClient::AuditCallback` has the reply
audited and completes the promise of the request, and `Client::Audit` goes over the promises.

A variable of `AuditCallback` may be read without having been set.  What it holds then is a parameter.
-/

namespace LedgerDatabase.Distributed

/-! ### Messages -/

/-- The message `MPTProof`. -/
structure MPTProofMessage where
  value : Bytes := []
  chunks : List Bytes := []
  pos : List Int32 := []
  deriving DecidableEq

/-- `Reply.LedgerDBAudit`. -/
structure LedgerDBAudit where
  digest : Bytes := []
  commitSeq : Int64 := 0
  firstBlockSeq : Int64 := 0
  commits : List Bytes := []
  blocks : List Bytes := []
  mptproofs : List MPTProofMessage := []
  deriving DecidableEq

/-- `Reply.SQLLedgerAudit`. -/
structure SQLLedgerAudit where
  blockNo : Int64 := 0
  digest : Bytes := []
  txns : Bytes := []
  blocks : List Bytes := []
  deriving DecidableEq

/-- `Reply`, with the fields of the answer to `AUDIT`. -/
structure AuditReply where
  status : Int32 := 0
  digest : Digest := {}
  saudit : SQLLedgerAudit := {}
  laudit : LedgerDBAudit := {}
  deriving DecidableEq

/-! ### `ShardClient` -/

/-- `ShardClient`, with the store `db_` of its auditor. -/
structure AuditClient where
  tipBlock : ℕ := 0
  db : DB := {}
  deriving DecidableEq

/-- What a promise of `Client::Audit` is completed with. -/
structure Verdict where
  reply : Int32
  verify : VerifyStatus
  deriving DecidableEq, Repr

namespace AuditClient

variable (H : Bytes → Hash)

/-- The auditor of the build `LEDGERDB` for a reply. -/
def ledgerdbAuditor (a : LedgerDBAudit) : Except Fault Ledgerdb.Auditor := do
  let mptproofs ← a.mptproofs.mapM fun p => ShardClient.appendProofs { value := p.value } p.chunks p.pos
  return {
    digest := a.digest
    commitSeq := sizeOfInt64 a.commitSeq
    firstBlockSeq := sizeOfInt64 a.firstBlockSeq
    commits := a.commits
    blocks := a.blocks
    mptproofs }

/-- The auditor of the build `SQLLEDGER` for a reply. -/
def sqlledgerAuditor (a : SQLLedgerAudit) : Sqlledger.Auditor where
  blks := a.blocks
  txns := a.txns
  digest := a.digest
  blockSeq := sizeOfInt64 a.blockNo

/-- `Auditor::Audit` of a build: the result, and the store afterwards.  The build `AMZQLDB` has no
auditor. -/
def auditReply (build : Build) (reply : AuditReply) (db : DB) : Except Fault (Option Bool × DB) :=
  match build with
  | .ledgerdb => do
    let auditor ← ledgerdbAuditor reply.laudit
    let (passed, db) ← auditor.audit H db
    return (some passed, db)
  | .sqlledger => do
    let (passed, _, db) ← (sqlledgerAuditor reply.saudit).audit H db
    return (some passed, db)
  | .amzqldb => .ok (none, db)

/-- The result of `Auditor::Audit` where `AuditCallback` calls it. -/
def judge (build : Build) (seq : UInt64) (reply : AuditReply) (db : DB) :
    Except Fault (Option Bool × DB) :=
  if seq.toNat ≤ sizeOfInt64 reply.digest.block then auditReply H build reply db else .ok (none, db)

/-- What is assigned to `res`. -/
def verifyStatus (res : VerifyStatus) : Option Bool → VerifyStatus
  | some true => .pass
  | some false => .failed
  | none => res

/-- `ShardClient::AuditCallback`, when the promise waits; `res` is what the variable holds before
anything is assigned to it. -/
def auditCallback (build : Build) (res : VerifyStatus) (seq : UInt64) (reply : AuditReply)
    (client : AuditClient) : Except Fault (Verdict × AuditClient) := do
  let (passed, db) ← judge H build seq reply client.db
  return (⟨reply.status, verifyStatus res passed⟩,
    { client with tipBlock := sizeOfInt64 reply.digest.block, db })

end AuditClient

/-! ### `Client` -/

/-- `std::map<int, uint64_t>`: the number from which each shard is audited. -/
abbrev AuditSeqs := SortedMap ℕ UInt64

namespace AuditSeqs

variable (H : Bytes → Hash)

/-- An empty map gets all shards. -/
def fill (nshards : ℕ) (seqs : AuditSeqs) : AuditSeqs :=
  if seqs.entries.length = 0 then (List.range nshards).foldl (fun m n => m.emplace n 0) seqs
  else seqs

/-- The requests to the shards and their callbacks: the promises, in the order of the requests. -/
def promises (build : Build) (res : ℕ → VerifyStatus) (replies : ℕ → AuditReply)
    (clients : ℕ → AuditClient) : List (ℕ × UInt64) →
    Except Fault (List (Verdict × AuditClient))
  | [] => .ok []
  | (shard, seq) :: entries => do
    let p ← (clients shard).auditCallback H build (res shard) seq (replies shard)
    return p :: (← promises build res replies clients entries)

/-- The loop over the promises, from number `n` on. -/
def collect : (n : ℕ) → List Verdict → Bool × AuditSeqs → Bool × AuditSeqs
  | _, [], acc => acc
  | n, p :: promises, (status, seqs) =>
    collect (n + 1) promises
      (if p.reply ≠ replyOk then (false, seqs)
      else if p.verify ≠ .unverified then
        -- `operator[]` enters `0` for a missing shard
        (status, seqs.assign n ((seqs.lookup n).getD 0 + 1))
      else (status, seqs))

/-- `Client::Audit`: the result and the map afterwards. -/
def audit (build : Build) (nshards : ℕ) (res : ℕ → VerifyStatus) (replies : ℕ → AuditReply)
    (clients : ℕ → AuditClient) (seqs : AuditSeqs) : Except Fault (Bool × AuditSeqs) := do
  let seqs := seqs.fill nshards
  let promises ← promises H build res replies clients seqs.entries
  return collect 0 (promises.map (·.1)) (true, seqs)

end AuditSeqs

end LedgerDatabase.Distributed
