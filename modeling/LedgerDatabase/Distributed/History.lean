import LedgerDatabase.Distributed.System

/-!
# Stores by the history of every key, and serial execution

`Answers.store` is a `VersionedKVStore` whose answers about a key are any function of what has
been put under that key, in the order of the calls of `put`; the blocks are left out.

`serial` executes transactions one after another: each prepares and commits at its participants
before the next one begins.
-/

namespace LedgerDatabase.Distributed

/-- The puts under every key, oldest first, with their timestamps. -/
abbrev Versions := Bytes → List (ℕ × Bytes)

/-- How a store answers from the puts under a key. -/
structure Answers where
  /-- The value and the timestamp that a get returns, if any. -/
  get : List (ℕ × Bytes) → Option (Bytes × ℕ)
  /-- The values of the newest versions. -/
  versions : List (ℕ × Bytes) → ℕ → List Bytes
  /-- What `put` enters in a reply for the written entries. -/
  report : List (Bytes × Bytes) → List KV

namespace PutCall

/-- The entries of a call of `put`. -/
def entries (call : PutCall) : List (Bytes × Bytes) := call.keys.zip call.vals

/-- The puts of a call under a key. -/
def versionsOf (call : PutCall) (k : Bytes) : List (ℕ × Bytes) :=
  (call.entries.filter fun e => e.1 == k).map fun e => (call.timestamp, e.2)

end PutCall

namespace Answers

variable (a : Answers)

/-- The answer to a get. -/
def found (store : Versions) (key : Bytes) : Option (KV × ℕ) :=
  (a.get (store key)).map fun r => (⟨key, r.1, 0⟩, r.2)

/-- The reply after gets. -/
def batchGet (keys : List Bytes) (reply : TxnReply) (store : Versions) : TxnReply :=
  { reply with
    values := reply.values ++ (keys.filterMap (a.found store)).map (·.1)
    timestamps := reply.timestamps ++ (keys.filterMap (a.found store)).map (·.2) }

/-- The reply after gets of versions. -/
def getNVersions (verKeys : List (Bytes × ℕ)) (reply : TxnReply) (store : Versions) : TxnReply :=
  { reply with
    values := reply.values ++
      verKeys.flatMap fun e => (a.versions (store e.1) e.2).map fun val => ⟨e.1, val, 0⟩ }

/-- The reply after puts. -/
def reported (call : PutCall) (reply : TxnReply) : TxnReply :=
  { reply with values := reply.values ++ a.report call.entries }

/-- The store after puts. -/
def putVersions (call : PutCall) (store : Versions) : Versions :=
  fun k => store k ++ call.versionsOf k

/-- The store whose answers are `a`. -/
def store : KVStore Versions where
  getDigest _ := .ok (0, [])
  batchGet keys reply store := .ok (a.batchGet keys reply store, store)
  getNVersions verKeys reply store := .ok (a.getNVersions verKeys reply store, store)
  put keys vals timestamp reply store :=
    .ok (reply.map (a.reported ⟨keys, vals, timestamp⟩),
      putVersions ⟨keys, vals, timestamp⟩ store)

/-- A store that returns the newest version of a key and reports nothing. -/
def latest : Answers where
  get versions := versions.getLast?.map fun v => (v.2, v.1)
  versions versions n := (versions.reverse.take n).map (·.2)
  report _ := []

/-- Shards with this store. -/
def deployment (nshards : ℕ) (mode : Mode) (storedProcedure : Bool) (order : HashOrder) :
    Deployment Versions :=
  { nshards, mode, storedProcedure, order, kv := a.store }

end Answers

/-! ### Stored procedures -/

/-- The operations of the stored procedures. -/
def Op.IsGetPut : Op → Prop
  | .get _ => True
  | .put _ _ => True
  | _ => False

/-- The steps when the servers do the reads of the transactions. -/
def Label.StoredProcedure : Label → Prop
  | .start _ ops _ => ∀ op ∈ ops, op.IsGetPut
  | .deliver .. => True
  | .decide .. => True
  | _ => False

/-! ### Serial execution -/

variable {S : Type} (d : Deployment S)

namespace Session

/-- The prepare and the commit of a transaction at one participant: the reply to the commit and
the store afterwards. -/
def aloneAt (session : Session) (p : ℕ) (store : OCCStore S) : Option (TxnReply × OCCStore S) :=
  match Server.leaderUpcall d 0 (session.client.prepareRequest d.order p) store with
  | .error _ => none
  | .ok up =>
    if up.reply.status = .ok then
      match Server.leaderUpcall d 0 (session.client.commitRequest session.ts p) up.store with
      | .error _ => none
      | .ok up => some (up.reply, up.store)
    else none

/-- The loop over the participants. -/
def aloneLoop (session : Session) :
    List ℕ → (ℕ → Option TxnReply) → (ℕ → OCCStore S) →
      Option ((ℕ → Option TxnReply) × (ℕ → OCCStore S))
  | [], replies, shards => some (replies, shards)
  | p :: ps, replies, shards =>
    match session.aloneAt d p (shards p) with
    | none => none
    | some (reply, store) =>
      aloneLoop session ps (Function.update replies p (some reply))
        (Function.update shards p store)

/-- A transaction that nobody else is running with: the replies to its commits and the shards
afterwards. -/
def alone (session : Session) (shards : ℕ → OCCStore S) :
    Option ((ℕ → Option TxnReply) × (ℕ → OCCStore S)) :=
  session.aloneLoop d session.client.participants (fun _ => none) shards

end Session

/-- Transactions one after another. -/
def serial : List Session → (ℕ → OCCStore S) →
    Option (List (ℕ → Option TxnReply) × (ℕ → OCCStore S))
  | [], shards => some ([], shards)
  | session :: sessions, shards =>
    match session.alone d shards with
    | none => none
    | some (reply, shards) =>
      match serial sessions shards with
      | none => none
      | some (replies, shards) => some (reply :: replies, shards)

end LedgerDatabase.Distributed
