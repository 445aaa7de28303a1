import LedgerDatabase.Distributed.Client
import LedgerDatabase.Distributed.ShardClient
import LedgerDatabase.Qldb.QLDB

/-!
# The client of the `AMZQLDB` build

The replies of a shard carry a proof for every document, and the callbacks of `ShardClient` check
them before they complete the promise.  `Promise::Reply` has an overload with the verdict and one
without; `Client` waits for the promises of all shards and returns a status.
-/

namespace LedgerDatabase.Distributed

open Qldb

/-- `QLDBProof`. -/
structure QLDBProof where
  key : Bytes := []
  value : Bytes := []
  blockno : UInt64 := 0
  docSeq : UInt64 := 0
  version : UInt64 := 0
  time : UInt64 := 0
  hashes : List Bytes := []
  pos : List Int32 := []
  deriving DecidableEq

/-- `Reply`, with the fields that the `AMZQLDB` build reads from the answers to `BATCH_GET`, `RANGE`
and `COMMIT`. -/
structure QLDBReply where
  status : Int32 := 0
  /-- `digest().hash()`. -/
  hash : Bytes := []
  qproof : List QLDBProof := []
  deriving DecidableEq

/-- `Promise`, after `Reply` has been called. -/
structure Promise where
  reply : Int32
  /-- The constructor does not set `verify`. -/
  verify : Option VerifyStatus := none
  values : StdMap Bytes := []
  timestamps : List ℕ := []
  unverifiedKeys : List Bytes := []
  estimatedBlocks : List ℕ := []
  deriving DecidableEq

namespace Promise

/-- `values.insert(vals.begin(), vals.end())`, which keeps the values that are there. -/
def insertValues (values vals : StdMap Bytes) : StdMap Bytes :=
  vals.foldl (fun m e => if (m.lookup e.1).isSome then m else m.assign e.1 e.2) values

/-- `Reply(r, ts, vals, keys, blocks)` on a new promise. -/
def replyValues (r : Int32) (ts : List ℕ) (vals : StdMap Bytes) (keys : List Bytes)
    (blocks : List ℕ) : Promise where
  reply := r
  values := insertValues [] vals
  timestamps := ts
  unverifiedKeys := keys
  estimatedBlocks := blocks

/-- `Reply(r, vs, keys, blocks)` on a new promise. -/
def replyVerify (r : Int32) (vs : VerifyStatus) (keys : List Bytes) (blocks : List ℕ) : Promise where
  reply := r
  verify := some vs
  unverifiedKeys := keys
  estimatedBlocks := blocks

end Promise

/-! ### Callbacks -/

namespace QLDBReply

variable (H : Bytes → Hash)

/-- `prover`. -/
def prover (p : QLDBProof) : QLProofResult where
  data := ⟨p.key, p.value⟩
  addr := ⟨str "test", p.blockno.toNat⟩
  metadata := ⟨p.docSeq.toNat, p.version.toNat, p.time.toNat⟩
  proof := p.hashes
  pos := p.pos.map sizeOfInt32

/-- The loop over the proofs of a reply: the verdict. -/
def verifyStatus (digest : Hash) : List QLDBProof → VerifyStatus → Except Fault VerifyStatus
  | [], vs => .ok vs
  | p :: proofs, vs => do
    let verified ← (prover p).verify H digest
    verifyStatus digest proofs (if verified then vs else .failed)

/-- The values of a reply. -/
def values (reply : QLDBReply) : StdMap Bytes :=
  Promise.insertValues [] (reply.qproof.map fun p => (p.key, p.value))

/-- The timestamps of a reply. -/
def timestamps (reply : QLDBReply) : List ℕ := reply.qproof.map fun p => p.time.toNat

/-- `ShardClient::BatchGetCallback` and `GetRangeCallback`, when somebody waits. -/
def batchGetCallback (reply : QLDBReply) : Except Fault Promise := do
  let _vs ← verifyStatus H (Hash.fromBase32 reply.hash) reply.qproof .pass
  return Promise.replyValues reply.status reply.timestamps reply.values [] []

/-- `ShardClient::CommitCallback`, when somebody waits. -/
def commitCallback (reply : QLDBReply) : Except Fault Promise := do
  if reply.status ≠ 0 then throw .assertion
  let vs ← verifyStatus H (Hash.fromBase32 reply.hash) reply.qproof .pass
  return Promise.replyVerify reply.status vs [] []

end QLDBReply

/-! ### `BufferClient` -/

namespace BufferClient

/-- The reads that `BatchGet` and `GetRange` add to the transaction. -/
def addValues (p : Promise) (b : BufferClient) : Except Fault BufferClient :=
  if p.reply = 0 then do
    let txn ← addReads p.timestamps 0 p.values b.txn
    return { b with txn }
  else .ok b

end BufferClient

/-! ### `Client` -/

/-- A call of `Client` that receives proofs. -/
inductive ProofCall
  | batchGet
  | getRange
  | commit
  deriving DecidableEq, Repr

/-- What such a call returns: a status or a truth value, and what it fills in. -/
structure ProofResult where
  result : Int32 ⊕ Bool
  values : StdMap Bytes
  keys : UnverifiedKeys
  client : Client

namespace ProofResult

/-- The caller is told of a failure. -/
def ReportsFailure (r : ProofResult) : Prop :=
  match r.result with
  | .inl status => status ≠ 0
  | .inr ok => ok = false

instance (r : ProofResult) : Decidable r.ReportsFailure := by
  unfold ReportsFailure
  cases r.result <;> infer_instance

end ProofResult

namespace Client

variable (H : Bytes → Hash)

/-- The keys of a promise, by block. -/
def addKeys (shard : ℕ) (p : Promise) (keys : UnverifiedKeys) : UnverifiedKeys :=
  (p.estimatedBlocks.zip p.unverifiedKeys).foldl (fun keys e => keys.addKey shard e.1 e.2) keys

/-- The calls of `BatchGet` or `GetRange` at the shards: their promises. -/
def readPromises (clearBuffer : Bool) (replies : ℕ → QLDBReply) : List ℕ → Client →
    Except Fault (List (ℕ × Promise) × Client)
  | [], c => .ok ([], c)
  | s :: shards, c => do
    let p ← (replies s).batchGetCallback H
    let b ← (c.bclient s).addValues p
    let b := if clearBuffer then { b with buffer := [] } else b
    let (promises, c) ← readPromises clearBuffer replies shards
      { c with bclient := Function.update c.bclient s b }
    return ((s, p) :: promises, c)

/-- A round of the loop of `BatchGet` and `GetRange` over the promises. -/
def collect (acc : Int32 × StdMap Bytes × UnverifiedKeys) (e : ℕ × Promise) :
    Int32 × StdMap Bytes × UnverifiedKeys :=
  if e.2.reply = 0 then
    (acc.1, Promise.insertValues acc.2.1 e.2.values, addKeys e.1 e.2 acc.2.2)
  else (e.2.reply, acc.2)

/-- The end of `BatchGet` and `GetRange`. -/
def readResult (values : StdMap Bytes) (keys : UnverifiedKeys) (promises : List (ℕ × Promise))
    (c : Client) : ProofResult :=
  let collected := promises.foldl collect (0, values, keys)
  { result := .inl collected.1, values := collected.2.1, keys := collected.2.2, client := c }

/-- `Client::BatchGet(values, keys)`. -/
def batchGetProofs (replies : ℕ → QLDBReply) (values : StdMap Bytes) (keys : UnverifiedKeys)
    (c : Client) : Except Fault ProofResult := do
  let (promises, c) ← readPromises H true replies c.participants c
  return readResult values keys promises c

/-- `Client::GetRange(from, to, values, keys)`. -/
def getRangeProofs (nshards : ℕ) (replies : ℕ → QLDBReply) (values : StdMap Bytes)
    (keys : UnverifiedKeys) (c : Client) : Except Fault ProofResult := do
  let (promises, c) ← readPromises H false replies (List.range nshards) c
  return readResult values keys promises c

/-- `Client::Commit(keys)`, once all participants have prepared the transaction. -/
def commitProofs (replies : ℕ → QLDBReply) (values : StdMap Bytes) (keys : UnverifiedKeys)
    (c : Client) : Except Fault ProofResult := do
  let promises ← c.participants.mapM fun s => return (s, ← (replies s).commitCallback H)
  return {
    result := .inr true
    values
    keys := promises.foldl (fun keys e => addKeys e.1 e.2 keys) keys
    client := c }

/-- The shards that a call asks. -/
def asked (nshards : ℕ) (c : Client) : ProofCall → List ℕ
  | .batchGet | .commit => c.participants
  | .getRange => List.range nshards

/-- The calls, with the replies of the shards and the maps to be filled. -/
def proofCall (nshards : ℕ) (replies : ℕ → QLDBReply) (values : StdMap Bytes)
    (keys : UnverifiedKeys) (c : Client) : ProofCall → Except Fault ProofResult
  | .batchGet => c.batchGetProofs H replies values keys
  | .getRange => c.getRangeProofs H nshards replies values keys
  | .commit => c.commitProofs H replies values keys

end Client

end LedgerDatabase.Distributed
