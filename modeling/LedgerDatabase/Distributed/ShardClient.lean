import LedgerDatabase.Distributed.Proto
import LedgerDatabase.Ledgerdb.MerkleTree
import LedgerDatabase.Ledgerdb.Mpt.Trie

/-!
# `strongstore::ShardClient`

`GetProofCallback` of the `LEDGERDB` build: the client checks the proofs of a reply and completes
the promise that waits for it.
-/

namespace LedgerDatabase.Distributed

open Ledgerdb

/-- `VerifyStatus`. -/
inductive VerifyStatus
  | pass
  | unverified
  | failed
  deriving DecidableEq, Repr

/-- `ShardClient`: the promises by the number of their request, where `none` is `NULL`, and the
last block that the shard has reported. -/
structure ShardClient where
  verifyPromise : List (ℕ × Option ℕ) := []
  tipBlock : ℕ := 0
  deriving DecidableEq

/-- The call `Promise::Reply(r, vs)` on promise `promise`. -/
structure Completion where
  promise : ℕ
  reply : Int32
  verify : VerifyStatus
  deriving DecidableEq

namespace ShardClient

variable (H : Bytes → Hash)

/-- The loop over the chunks of a proof; `mpt_pos` is indexed along with them. -/
def appendProofs (prover : MPTProof) : List Bytes → List Int32 → Except Fault MPTProof
  | [], _ => .ok prover
  | _ :: _, [] => .error .outOfRange
  | chunk :: chunks, pos :: poss => appendProofs (prover.appendProof chunk (sizeOfInt32 pos)) chunks poss

/-- The trie proof of a reply. -/
def mptProver (p : LedgerDBProof) : Except Fault MPTProof :=
  appendProofs { value := p.mptvalue } p.mptChunks p.mptPos

/-- The Merkle proof of a reply. -/
def mtProver (p : LedgerDBProof) : Proof where
  digest := p.hash
  value := p.val
  proof := p.proof
  pos := p.mtPos.map sizeOfInt32

/-- The check of the trie proof of round `i`; without chunks there is none. -/
def checkMpt (mptdigest : Hash) (keys : List Bytes) (i : ℕ) (p : LedgerDBProof) :
    Except Fault Bool := do
  let prover ← mptProver p
  if p.mptChunks.length > 0 then prover.verifyProof H mptdigest (← at? keys i)
  else return true

/-- Round `i` of the loop over the proofs of a reply. -/
def checkProof (mptdigest : Hash) (keys : List Bytes) (i : ℕ) (p : LedgerDBProof)
    (res : VerifyStatus) : Except Fault VerifyStatus := do
  let mptOk ← checkMpt H mptdigest keys i p
  let res := if mptOk then res else .failed
  let mtOk ← (mtProver p).verify H
  return if mtOk then res else .failed

/-- The loop over the proofs of a reply, from round `i` on. -/
def checkProofs (mptdigest : Hash) (keys : List Bytes) :
    (i : ℕ) → List LedgerDBProof → VerifyStatus → Except Fault VerifyStatus
  | _, [], res => .ok res
  | i, p :: proofs, res => do
    checkProofs mptdigest keys (i + 1) proofs (← checkProof H mptdigest keys i p res)

/-- `ShardClient::GetProofCallback`: the client afterwards, and the completion of the promise. -/
def getProofCallback (client : ShardClient) (uid : ℕ) (keys : List Bytes) (reply : Reply) :
    Except Fault (ShardClient × Option Completion) :=
  match client.verifyPromise.lookup uid with
  | none =>
    -- `operator[]` enters `NULL` for a missing number
    .ok ({ client with verifyPromise := (uid, none) :: client.verifyPromise }, none)
  | some none => .ok (client, none)
  | some (some w) => do
    let mptdigest := Hash.fromBase32 reply.digest.mptHash
    let res ← checkProofs H mptdigest keys 0 reply.proof .pass
    let client : ShardClient :=
      { verifyPromise := client.verifyPromise.filter fun e => e.1 != uid
        tipBlock := sizeOfInt64 reply.digest.block }
    return (client, some ⟨w, reply.status, res⟩)

end ShardClient

end LedgerDatabase.Distributed
