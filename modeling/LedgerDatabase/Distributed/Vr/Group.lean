import LedgerDatabase.Distributed.Vr.Replica
import LedgerDatabase.Library.Run

/-!
# A group of replicas

The replicas of a group, and every message that one of them has sent to another.  A message may
arrive at any time after it was sent, any number of times or never; requests of clients arrive at
any time at any replica; a timer that is running may fire at any time.
-/

namespace LedgerDatabase.Distributed.Vr

/-- A message between replicas. -/
structure Envelope where
  src : ℕ
  dst : ℕ
  msg : Message
  deriving DecidableEq, Repr

/-- The replicas by their indexes, and the messages in the order in which they were sent. -/
structure Group (A : Type) where
  replicas : ℕ → VRReplica A
  network : List Envelope := []

/-- Something that happens at a replica. -/
inductive Event
  /-- A request arrives from address `remote`. -/
  | request (i remote : ℕ) (req : Request)
  /-- An unlogged request arrives. -/
  | unloggedRequest (i : ℕ) (op : Bytes)
  /-- The `k`th message that was sent arrives. -/
  | deliver (k : ℕ)
  | viewChangeTimeout (i : ℕ)
  | nullCommitTimeout (i : ℕ)
  | stateTransferTimeout (i : ℕ)
  | resendPrepareTimeout (i : ℕ)
  | closeBatchTimeout (i : ℕ)
  deriving DecidableEq, Repr

/-- The messages of an output of replica `i`. -/
def Output.envelopes (c : Configuration) (i : ℕ) : Output → List Envelope
  | .toAll msg => ((List.range c.n).filter (· ≠ i)).map fun j => ⟨i, j, msg⟩
  | .toReplica j msg => [⟨i, j, msg⟩]
  | .toClient .. => []

namespace Group

variable {A : Type} (c : Configuration) (app : App A)

/-- All replicas have been constructed. -/
def init (a : ℕ → A) : Group A := { replicas := fun i => .new c i (a i) }

/-- The replica at which an event happens, and what it does; `none` when the event cannot
happen. -/
def handle (g : Group A) : Event → Option (ℕ × Except Failure (VRReplica A))
  | .request i remote req =>
    if i < c.n then some (i, (g.replicas i).handleRequest c app remote req) else none
  | .unloggedRequest i op =>
    if i < c.n then some (i, .ok ((g.replicas i).handleUnloggedRequest app op)) else none
  | .deliver k =>
    match g.network[k]? with
    | none => none
    | some e => some (e.dst, (g.replicas e.dst).receiveMessage c app e.src e.msg)
  | .viewChangeTimeout i =>
    if i < c.n ∧ (g.replicas i).viewChangeTimeout then
      some (i, .ok ((g.replicas i).startViewChange ((g.replicas i).view + 1)))
    else none
  | .nullCommitTimeout i =>
    if i < c.n ∧ (g.replicas i).nullCommitTimeout then some (i, (g.replicas i).sendNullCommit c)
    else none
  | .stateTransferTimeout i =>
    if i < c.n then
      some (i, .ok { g.replicas i with
        lastRequestStateTransferView := 0, lastRequestStateTransferOpnum := 0 })
    else none
  | .resendPrepareTimeout i =>
    if i < c.n ∧ (g.replicas i).resendPrepareTimeout then some (i, (g.replicas i).resendPrepare c)
    else none
  | .closeBatchTimeout i =>
    if i < c.n ∧ (g.replicas i).closeBatchTimeout then some (i, (g.replicas i).closeBatch c)
    else none

/-- Replica `i` goes on as `r`, and what it has sent is on its way. -/
def post (g : Group A) (i : ℕ) (r : VRReplica A) : Group A where
  replicas := Function.update g.replicas i { r with outbox := [] }
  network := g.network ++ r.outbox.flatMap (·.envelopes c i)

/-- The step with an event; `none` when it cannot happen or when the replica stops in it. -/
def step (g : Group A) (e : Event) : Option (Group A) :=
  match g.handle c app e with
  | some (i, .ok r) => some (g.post c i r)
  | _ => none

/-- How a replica stops when an event happens. -/
def stops (g : Group A) (e : Event) : Option Failure :=
  match g.handle c app e with
  | some (_, .error failure) => some failure
  | _ => none

/-! ### The invariant -/

/-- The log holds the entries `1` to `lastOp`, and what is committed is among them. -/
def LogInv (r : VRReplica A) : Prop :=
  r.log.entries.map (·.viewstamp.opnum) = List.range' 1 r.lastOp ∧ r.lastCommitted ≤ r.lastOp

/-- Every log is as its replica believes, and no event stops a replica in `CommitUpTo`,
`SendPrepareOKs` or `HandleStateTransfer`. -/
def Sound (g : Group A) : Prop :=
  (∀ i < c.n, LogInv (g.replicas i)) ∧
    ∀ e failure, g.stops c app e = some failure →
      failure.site ≠ .commitUpTo ∧ failure.site ≠ .sendPrepareOKs ∧
        failure.site ≠ .handleStateTransfer

/-- An event in which a leader executes a request that the application wants to be replicated. -/
def Replicates (g : Group A) : Event → Prop
  | .request i _ req => i < c.n ∧ (g.replicas i).status = .normal ∧ (g.replicas i).amLeader c ∧
      ¬ (g.replicas i).isDuplicate req ∧
      (app.leaderUpcall (g.replicas i).lastCommitted req.op (g.replicas i).app).1
  | _ => False

instance (g : Group A) : ∀ e, Decidable (g.Replicates c app e)
  | .request i _ req => inferInstanceAs (Decidable (i < c.n ∧ (g.replicas i).status = .normal ∧
      (g.replicas i).amLeader c ∧ ¬ (g.replicas i).isDuplicate req ∧
      (app.leaderUpcall (g.replicas i).lastCommitted req.op (g.replicas i).app).1))
  | .unloggedRequest .. => inferInstanceAs (Decidable False)
  | .deliver _ => inferInstanceAs (Decidable False)
  | .viewChangeTimeout _ => inferInstanceAs (Decidable False)
  | .nullCommitTimeout _ => inferInstanceAs (Decidable False)
  | .stateTransferTimeout _ => inferInstanceAs (Decidable False)
  | .resendPrepareTimeout _ => inferInstanceAs (Decidable False)
  | .closeBatchTimeout _ => inferInstanceAs (Decidable False)

end Group

end LedgerDatabase.Distributed.Vr
