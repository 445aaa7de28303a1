import LedgerDatabase.Common.StdMap
import LedgerDatabase.Distributed.Server
import LedgerDatabase.Distributed.UnverifiedKeys

/-!
# `strongstore::Client` and `BufferClient`

A client buffers the operations of a transaction for every shard.  `Commit` is two-phase: it
prepares the transaction on the participants, merges their answers, and sends all of them a commit
or an abort.
-/

namespace LedgerDatabase.Distributed

/-- `BufferClient`. -/
structure BufferClient where
  txn : Transaction := {}
  history : List (Bytes × ℕ) := []
  buffer : List Bytes := []
  deriving DecidableEq, Repr

namespace BufferClient

/-- `BufferClient::Get`. -/
def get (key : Bytes) (b : BufferClient) : BufferClient :=
  if b.txn.writeSet.contains key then b
  else if b.txn.readSet.contains key then b
  else { b with txn := b.txn.addReadSet key {} }

/-- `BufferClient::GetNVersions`. -/
def getNVersions (key : Bytes) (n : ℕ) (b : BufferClient) : BufferClient :=
  { b with history := b.history ++ [(key, n)] }

/-- `BufferClient::BufferKey`. -/
def bufferKey (key : Bytes) (b : BufferClient) : BufferClient :=
  { b with buffer := b.buffer ++ [key] }

/-- `BufferClient::Put`. -/
def put (key value : Bytes) (b : BufferClient) : BufferClient :=
  { b with txn := b.txn.addWriteSet key value }

/-- The loop of `BufferClient::BatchGet` over the values of the promise, where `count` numbers
them. -/
def addReads (timestamps : List ℕ) : (count : ℕ) → StdMap Bytes → Transaction →
    Except Fault Transaction
  | _, [], txn => .ok txn
  | count, (key, _) :: values, txn => do
    let t ← at? timestamps count
    addReads timestamps (count + 1) values (txn.addReadSet key { timestamp := t })

/-- `values` of `BatchGetCallback`; `emplace` keeps the first value of a key. -/
def valuesOf (reply : TxnReply) : StdMap Bytes :=
  reply.values.foldl (fun m v => if (m.lookup v.key).isSome then m else m.assign v.key v.val) []

/-- `BufferClient::BatchGet` after the reply. -/
def batchGet (reply : TxnReply) (b : BufferClient) : Except Fault BufferClient :=
  if reply.status = .ok then do
    let txn ← addReads reply.timestamps 0 (valuesOf reply) b.txn
    return { b with txn, buffer := [] }
  else .ok { b with buffer := [] }

end BufferClient

/-- `Client`, with the clients of all shards. -/
structure Client where
  tId : ℕ
  /-- `participants`, in the order of the set. -/
  participants : List ℕ := []
  bclient : ℕ → BufferClient := fun _ => {}

/-- The operations of a transaction before `Commit` that do not wait for a shard. -/
inductive Op
  | get (key : Bytes)
  | getNVersions (key : Bytes) (n : ℕ)
  | bufferKey (key : Bytes)
  | put (key value : Bytes)
  deriving DecidableEq, Repr

namespace Op

/-- The key that decides on the shard. -/
def key : Op → Bytes
  | get key => key
  | getNVersions key _ => key
  | bufferKey key => key
  | put key _ => key

/-- The call of the `BufferClient`. -/
def apply : Op → BufferClient → BufferClient
  | get key => BufferClient.get key
  | getNVersions key n => BufferClient.getNVersions key n
  | bufferKey key => BufferClient.bufferKey key
  | put key value => BufferClient.put key value

end Op

namespace Client

/-- The conversion of a `char` to `uint64_t`. -/
def charWord (c : UInt8) : UInt64 := if c < 128 then c.toUInt64 else c.toUInt64 - 256

/-- `Client::key_to_shard`. -/
def keyToShard (key : Bytes) (nshards : ℕ) : ℕ :=
  (key.foldl (fun (hash : UInt64) c => ((hash <<< 5) + hash) + charWord c) 5381).toNat % nshards

/-- `Client::Begin`. -/
def begin (tId : ℕ) : Client := { tId }

/-- `Client::Get`, `GetNVersions`, `BufferKey` and `Put`: the shard of the key takes part, and its
client buffers the operation. -/
def call (nshards : ℕ) (c : Client) (op : Op) : Client :=
  let i := keyToShard op.key nshards
  { c with
    participants :=
      if i ∈ c.participants then c.participants else c.participants.orderedInsert (· ≤ ·) i
    bclient := Function.update c.bclient i (op.apply (c.bclient i)) }

/-- Several operations. -/
def calls (nshards : ℕ) (c : Client) (ops : List Op) : Client := ops.foldl (call nshards) c

/-- The loop of `Client::BatchGet` over the participants: the client and the values afterwards. -/
def batchGetLoop (replies : ℕ → TxnReply) : List ℕ → Client → StdMap Bytes →
    Except Fault (Client × StdMap Bytes)
  | [], c, values => .ok (c, values)
  | p :: ps, c, values => do
    let b ← (c.bclient p).batchGet (replies p)
    let values :=
      if (replies p).status = .ok then
        (BufferClient.valuesOf (replies p)).foldl
          (fun m e => if (m.lookup e.1).isSome then m else m.assign e.1 e.2) values
      else values
    batchGetLoop replies ps { c with bclient := Function.update c.bclient p b } values

/-- `Client::BatchGet`, after all participants have answered. -/
def batchGet (replies : ℕ → TxnReply) (c : Client) : Except Fault (Client × StdMap Bytes) :=
  batchGetLoop replies c.participants c []

/-! ### `Commit` -/

/-- The request of `Client::Prepare` to participant `p`. -/
def prepareRequest (o : HashOrder) (c : Client) (p : ℕ) : Request :=
  .prepare c.tId ((c.bclient p).txn.serialize o)

/-- A round of the loop of `Client::Prepare` over the answers. -/
def mergeReply (acc : ReplyStatus × ℕ) (reply : TxnReply) : ReplyStatus × ℕ :=
  (if reply.status ≠ .ok then if acc.1 ≠ .fail then reply.status else acc.1 else acc.1,
    if reply.timestamp.getD 0 > acc.2 then reply.timestamp.getD 0 else acc.2)

/-- The status and the timestamp with which `Client::Prepare` returns; `ts` is the answer of the
timestamp server. -/
def mergeReplies (ts : ℕ) (replies : List TxnReply) : ReplyStatus × ℕ :=
  replies.foldl mergeReply (.ok, ts)

/-- The timestamp of the commits; `now` is the clock of the client. -/
def commitTimestamp (mode : Mode) (now ts : ℕ) : ℕ :=
  match mode with
  | .occ => ts
  | .spanOcc => if now > ts then now else ts

/-- The request that commits the transaction at participant `p`. -/
def commitRequest (c : Client) (ts p : ℕ) : Request := .commit c.tId ts (c.bclient p).history

/-- The loop of `Commit` over the keys in the answer of participant `p`. -/
def reportReply (p : ℕ) (reply : TxnReply) (keys : UnverifiedKeys) : UnverifiedKeys :=
  reply.values.foldl (fun keys v => keys.addKey p v.estimateBlock v.key) keys

/-- The keys with which `Commit` returns after all participants have answered to the commit. -/
def report (replies : ℕ → TxnReply) (c : Client) (keys : UnverifiedKeys) : UnverifiedKeys :=
  c.participants.foldl (fun keys p => reportReply p (replies p) keys) keys

/-- The request that aborts the transaction. -/
def abortRequest (o : HashOrder) (c : Client) : Request :=
  .abort c.tId (({} : Transaction).serialize o)

end Client

end LedgerDatabase.Distributed
