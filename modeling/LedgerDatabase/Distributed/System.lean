import LedgerDatabase.Distributed.Client
import LedgerDatabase.Library.Run
import Mathlib.Logic.Function.Basic

/-!
# Clients and shards

Transactions of any clients at any shards.  A transaction is a session with its own requests and
replies at every shard: the requests to a shard arrive in the order in which they were sent, each
is executed once, and everything else is interleaved in any order.  `Commit` makes one round of
`Prepare`, since `COMMIT_RETRIES` is one, and waits for every answer.

`committed` and `applied` record what has happened; no step reads them.
-/

namespace LedgerDatabase.Distributed

/-- Where a transaction is. -/
inductive Phase
  /-- In `BatchGet`. -/
  | reading
  /-- In `Commit`, before the decision. -/
  | preparing
  /-- `Commit` returns `true`. -/
  | committed
  /-- `Commit` returns `false`. -/
  | aborted
  deriving DecidableEq, Repr

/-- A transaction, with the messages between its client and every shard so far. -/
structure Session where
  client : Client
  phase : Phase
  /-- The answers to `BATCH_GET`. -/
  readReplies : ℕ → Option TxnReply := fun _ => none
  /-- The timestamp of the transaction. -/
  ts : ℕ := 0
  requests : ℕ → List Request := fun _ => []
  replies : ℕ → List TxnReply := fun _ => []

namespace Session

/-- The first half of `Commit`: the prepare requests are sent. -/
def prepare (o : HashOrder) (session : Session) (ts : ℕ) : Session :=
  { session with
    phase := .preparing
    ts
    requests := fun p =>
      if p ∈ session.client.participants then [session.client.prepareRequest o p] else [] }

/-- An answer to `BATCH_GET`. -/
def readAnswer (session : Session) (s : ℕ) (reply : TxnReply) : Session :=
  { session with readReplies := Function.update session.readReplies s (some reply) }

/-- An answer to another request. -/
def answer (session : Session) (s : ℕ) (reply : TxnReply) : Session :=
  { session with
    replies := Function.update session.replies s (session.replies s ++ [reply]) }

/-- The second half of `Commit`, after all participants have answered. -/
def decide (o : HashOrder) (mode : Mode) (session : Session) (now : ℕ) : Session :=
  let merged := Client.mergeReplies session.ts
    (session.client.participants.flatMap fun p => (session.replies p).head?.toList)
  let send (request : ℕ → Request) : ℕ → List Request := fun p =>
    if p ∈ session.client.participants then session.requests p ++ [request p]
    else session.requests p
  if merged.1 = .ok then
    let ts := Client.commitTimestamp mode now merged.2
    { session with phase := .committed, ts, requests := send (session.client.commitRequest ts) }
  else
    { session with phase := .aborted, requests := send fun _ => session.client.abortRequest o }

end Session

/-- The writes of transaction `id`, as they were put into a shard. -/
structure Applied where
  id : ℕ
  shard : ℕ
  call : PutCall
  deriving DecidableEq, Repr

/-- The shards and the transactions, by their numbers. -/
structure System (S : Type) where
  shards : ℕ → OCCStore S
  sessions : ℕ → Option Session := fun _ => none
  /-- The committed transactions, in the order of their decisions. -/
  committed : List ℕ := []
  /-- The calls of `put`, in their order. -/
  applied : List Applied := []

/-- A step of the system. -/
inductive Label
  /-- A client begins transaction `id`, calls `ops`, and enters `Commit` with the answer `ts` of
  the timestamp server. -/
  | start (id : ℕ) (ops : List Op) (ts : ℕ)
  /-- A client begins transaction `id`, buffers `keys` and enters `BatchGet`. -/
  | startReads (id : ℕ) (keys : List Bytes)
  /-- `BATCH_GET` arrives at a shard. -/
  | read (id shard : ℕ)
  /-- `BatchGet` returns, the client puts what `compute` makes of the values, and enters
  `Commit`. -/
  | finishReads (id : ℕ) (compute : StdMap Bytes → List (Bytes × Bytes)) (ts : ℕ)
  /-- The next request of a transaction arrives at a shard, whose clock shows `time`. -/
  | deliver (id shard time : ℕ)
  /-- The client has all answers to `Prepare`; its clock shows `now`. -/
  | decide (id now : ℕ)

namespace System

variable {S : Type} (d : Deployment S)

/-- No transaction has begun. -/
def init (stores : ℕ → S) : System S := { shards := fun s => { store := stores s } }

def setSession (sys : System S) (id : ℕ) (session : Session) : System S :=
  { sys with sessions := Function.update sys.sessions id (some session) }

def setShard (sys : System S) (shard : ℕ) (store : OCCStore S) : System S :=
  { sys with shards := Function.update sys.shards shard store }

/-- The operations that put some entries. -/
def puts (entries : List (Bytes × Bytes)) : List Op := entries.map fun e => .put e.1 e.2

/-- `BATCH_GET` of a session at a shard. -/
def read (sys : System S) (id shard : ℕ) (session : Session) : Option (System S) :=
  match (sys.shards shard).batchGet d.kv (session.client.bclient shard).buffer with
  | .error _ => none
  | .ok (reply, store) =>
    some ((sys.setShard shard store).setSession id (session.readAnswer shard reply))

/-- The end of `BatchGet` and the first half of `Commit`. -/
def finishReads (sys : System S) (id : ℕ) (compute : StdMap Bytes → List (Bytes × Bytes)) (ts : ℕ)
    (session : Session) : Option (System S) :=
  match session.client.batchGet fun p => (session.readReplies p).getD {} with
  | .error _ => none
  | .ok (client, values) =>
    let client := client.calls d.nshards (puts (compute values))
    some (sys.setSession id ({ session with client }.prepare d.order ts))

/-- The execution of a request at a shard. -/
def execute (sys : System S) (id shard time : ℕ) (session : Session) (request : Request) :
    Option (System S) :=
  match Server.leaderUpcall d time request (sys.shards shard) with
  | .error _ => none
  | .ok up =>
    some { (sys.setShard shard up.store).setSession id (session.answer shard up.reply) with
      applied := sys.applied ++ up.call.toList.map fun call => ⟨id, shard, call⟩ }

/-- The step with a label; `none` when it cannot be taken or when the server stops in it. -/
def step (sys : System S) : Label → Option (System S)
  | .start id ops ts =>
    match sys.sessions id with
    | some _ => none
    | none =>
      let client := (Client.begin id).calls d.nshards ops
      some (sys.setSession id (({ client, phase := .preparing } : Session).prepare d.order ts))
  | .startReads id keys =>
    match sys.sessions id with
    | some _ => none
    | none =>
      let client := (Client.begin id).calls d.nshards (keys.map .bufferKey)
      some (sys.setSession id { client, phase := .reading })
  | .read id shard =>
    match sys.sessions id with
    | none => none
    | some session =>
      if session.phase = .reading ∧ shard ∈ session.client.participants ∧
          session.readReplies shard = none then
        read d sys id shard session
      else none
  | .finishReads id compute ts =>
    match sys.sessions id with
    | none => none
    | some session =>
      if session.phase = .reading ∧
          ∀ p ∈ session.client.participants, (session.readReplies p).isSome then
        finishReads d sys id compute ts session
      else none
  | .deliver id shard time =>
    match sys.sessions id with
    | none => none
    | some session =>
      match (session.requests shard)[(session.replies shard).length]? with
      | none => none
      | some request => execute d sys id shard time session request
  | .decide id now =>
    match sys.sessions id with
    | none => none
    | some session =>
      if session.phase = .preparing ∧
          ∀ p ∈ session.client.participants, session.replies p ≠ [] then
        let session := session.decide d.order d.mode now
        some { sys.setSession id session with
          committed := if session.phase = .committed then sys.committed ++ [id]
            else sys.committed }
      else none

end System

end LedgerDatabase.Distributed
