import LedgerDatabase.Distributed.History

/-!
# Interactive transactions

A client of a server without stored procedures reads its keys with `BatchGet`, computes what to
write, puts it and commits.  `Program.alone` is such a transaction that nobody else is running
with, and `serialPrograms` runs several of them one after another.
-/

namespace LedgerDatabase.Distributed

/-- The steps of clients that read before they commit. -/
def Label.Interactive : Label → Prop
  | .start .. => False
  | _ => True

/-- A transaction: its number, the keys it reads, what it writes, and its timestamp. -/
structure Program where
  id : ℕ
  keys : List Bytes
  compute : StdMap Bytes → List (Bytes × Bytes)
  ts : ℕ

namespace Program

variable {S : Type} (d : Deployment S)

/-- The client of a transaction before `BatchGet`. -/
def reader (nshards id : ℕ) (keys : List Bytes) : Client :=
  (Client.begin id).calls nshards (keys.map .bufferKey)

/-- `BATCH_GET` at the participants. -/
def readLoop (client : Client) : List ℕ → (ℕ → Option TxnReply) → (ℕ → OCCStore S) →
    Option ((ℕ → Option TxnReply) × (ℕ → OCCStore S))
  | [], replies, shards => some (replies, shards)
  | p :: ps, replies, shards =>
    match (shards p).batchGet d.kv (client.bclient p).buffer with
    | .error _ => none
    | .ok (reply, store) =>
      readLoop client ps (Function.update replies p (some reply)) (Function.update shards p store)

/-- The shards after a transaction that nobody else is running with. -/
def alone (program : Program) (shards : ℕ → OCCStore S) : Option (ℕ → OCCStore S) :=
  let client := reader d.nshards program.id program.keys
  match readLoop d client client.participants (fun _ => none) shards with
  | none => none
  | some (replies, shards) =>
    match client.batchGet fun p => (replies p).getD {} with
    | .error _ => none
    | .ok (client, values) =>
      let client := client.calls d.nshards (System.puts (program.compute values))
      let session : Session := { client, phase := .preparing, ts := program.ts }
      (session.alone d shards).map (·.2)

end Program

/-- Transactions one after another. -/
def serialPrograms {S : Type} (d : Deployment S) :
    List Program → (ℕ → OCCStore S) → Option (ℕ → OCCStore S)
  | [], shards => some shards
  | program :: programs, shards =>
    match program.alone d shards with
    | none => none
    | some shards => serialPrograms d programs shards

/-- The final stores are those of a serial execution of the committed transactions. -/
def SerializableTo {S : Type} (d : Deployment S) (stores : ℕ → S) (labels : List Label)
    (sys : System S) : Prop :=
  ∃ programs : List Program, (programs.map (·.id)).Nodup ∧
    (∀ id, id ∈ programs.map (·.id) ↔
      ∃ session, sys.sessions id = some session ∧ session.phase = .committed) ∧
    (∀ program ∈ programs, .startReads program.id program.keys ∈ labels ∧
      ∃ ts, .finishReads program.id program.compute ts ∈ labels) ∧
    ∃ shards, serialPrograms d programs (System.init stores).shards = some shards ∧
      ∀ s, (shards s).store = (sys.shards s).store

/-- The keys of a reply. -/
def TxnReply.keys (reply : TxnReply) : List Bytes := reply.values.map (·.key)

/-- A `Prepare` that the store accepts. -/
def Request.accepted {S : Type} (store : OCCStore S) : Request → Bool
  | .prepare txnid txn => (store.prepare txnid (.ofMessage txn)).1 = .ok
  | _ => false

/-- A read finds all its keys, and a `Prepare` that will be accepted arrives where the keys that
its transaction has read still have the values and the timestamps that it has read. -/
def Fresh (a : Answers) (sys : System Versions) : Label → Prop
  | .read id s => ∀ session ∈ sys.sessions id, ∀ key ∈ (session.client.bclient s).buffer,
      (a.get ((sys.shards s).store key)).isSome
  | .deliver id s _ => ∀ session ∈ sys.sessions id,
      ∀ request ∈ (session.requests s)[(session.replies s).length]?,
        request.accepted (sys.shards s) → ∀ reply ∈ session.readReplies s,
          a.batchGet reply.keys {} (sys.shards s).store = reply
  | _ => True

instance (a : Answers) (sys : System Versions) : ∀ l, Decidable (Fresh a sys l)
  | .start .. => inferInstanceAs (Decidable True)
  | .startReads .. => inferInstanceAs (Decidable True)
  | .read id s => inferInstanceAs (Decidable (∀ session ∈ sys.sessions id,
      ∀ key ∈ (session.client.bclient s).buffer, (a.get ((sys.shards s).store key)).isSome))
  | .finishReads .. => inferInstanceAs (Decidable True)
  | .deliver id s _ => inferInstanceAs (Decidable (∀ session ∈ sys.sessions id,
      ∀ request ∈ (session.requests s)[(session.replies s).length]?,
        request.accepted (sys.shards s) → ∀ reply ∈ session.readReplies s,
          a.batchGet reply.keys {} (sys.shards s).store = reply))
  | .decide .. => inferInstanceAs (Decidable True)

end LedgerDatabase.Distributed
