import LedgerDatabase.Distributed.OCCStore

/-!
# `strongstore::Server`

The upcall that executes a request at the leader of a shard.
-/

namespace LedgerDatabase.Distributed

/-- `Mode`; the modes with locks have no store. -/
inductive Mode
  | occ
  | spanOcc
  deriving DecidableEq, Repr

/-- `Request`, with the operations that are replicated. -/
inductive Request
  | prepare (txnid : ℕ) (txn : TransactionMessage)
  | commit (txnid timestamp : ℕ) (version : List (Bytes × ℕ))
  | abort (txnid : ℕ) (txn : TransactionMessage)
  deriving DecidableEq

/-- The servers and clients of a deployment. -/
structure Deployment (S : Type) where
  nshards : ℕ
  mode : Mode
  storedProcedure : Bool
  order : HashOrder
  kv : KVStore S

/-- What `LeaderUpcall` leaves behind: the reply, whether to replicate, the store, and the call of
`put` that was made. -/
structure Upcall (S : Type) where
  reply : TxnReply
  replicate : Bool
  store : OCCStore S
  call : Option PutCall

namespace Server

variable {S : Type} (d : Deployment S)

/-- The answer to `PREPARE`; `time` is the clock of the server. -/
def prepareReply (time : ℕ) (status : ReplyStatus) : TxnReply where
  status
  timestamp := if status = .ok ∧ d.mode = .spanOcc then some time else none

/-- `OCCStore::Commit` as `LeaderUpcall` calls it. -/
def commit (txnid timestamp : ℕ) (version : List (Bytes × ℕ)) (store : OCCStore S) :
    Except Fault (TxnReply × OCCStore S × PutCall) :=
  if d.storedProcedure then store.commitReads d.order d.kv txnid timestamp version
  else store.commit d.order d.kv txnid timestamp

/-- `Server::LeaderUpcall`. -/
def leaderUpcall (time : ℕ) (request : Request) (store : OCCStore S) : Except Fault (Upcall S) :=
  match request with
  | .prepare txnid txn =>
    let (status, store) := store.prepare txnid (Transaction.ofMessage txn)
    .ok { reply := prepareReply d time status, replicate := status = .ok, store, call := none }
  | .commit txnid timestamp version => do
    let (reply, store, call) ← commit d txnid timestamp version store
    return { reply := { reply with status := .ok }, replicate := true, store, call := some call }
  | .abort txnid _ =>
    .ok { reply := {}, replicate := true, store := store.abort txnid, call := none }

end Server

end LedgerDatabase.Distributed
