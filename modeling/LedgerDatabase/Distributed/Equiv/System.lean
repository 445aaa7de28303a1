import LedgerDatabase.Distributed.Equiv.Client
import LedgerDatabase.Distributed.Equiv.OCCStore
import LedgerDatabase.Distributed.System

/-!
# Two-phase commit

`Inv` says for every transaction and shard which requests have been sent, which transactions the
shard holds as prepared, and which writes it has put; `inv_of_runs` shows it for every run.  From
it follow that `Commit` is atomic (`commit_atomic`) and that prepared transactions never conflict.
-/

namespace LedgerDatabase.Distributed

open Run
open OCCStore (putCall)

/-! ### Steps -/

namespace System

variable {S : Type} {d : Deployment S} {sys sys' : System S} {id : ℕ}

theorem step_start_iff {ops : List Op} {ts : ℕ} :
    step d sys (.start id ops ts) = some sys' ↔
      sys.sessions id = none ∧
      sys' = sys.setSession id (({ client := (Client.begin id).calls d.nshards ops
                                   phase := .preparing } : Session).prepare d.order ts) := by
  rw [step]
  cases h : sys.sessions id <;> simp [eq_comm]

theorem step_startReads_iff {keys : List Bytes} :
    step d sys (.startReads id keys) = some sys' ↔
      sys.sessions id = none ∧
      sys' = sys.setSession id { client := (Client.begin id).calls d.nshards (keys.map .bufferKey)
                                 phase := .reading } := by
  rw [step]
  cases h : sys.sessions id <;> simp [eq_comm]

theorem step_read_iff {s : ℕ} :
    step d sys (.read id s) = some sys' ↔
      ∃ session reply store, sys.sessions id = some session ∧ session.phase = .reading ∧
        s ∈ session.client.participants ∧ session.readReplies s = none ∧
        (sys.shards s).batchGet d.kv (session.client.bclient s).buffer = .ok (reply, store) ∧
        sys' = (sys.setShard s store).setSession id (session.readAnswer s reply) := by
  rw [step]
  cases h : sys.sessions id with
  | none => simp
  | some session =>
    dsimp only
    by_cases hg : session.phase = .reading ∧ s ∈ session.client.participants ∧
        session.readReplies s = none
    · rw [if_pos hg, read]
      cases hb : (sys.shards s).batchGet d.kv (session.client.bclient s).buffer with
      | error e => simp [hb]
      | ok r =>
        obtain ⟨reply, store⟩ := r
        constructor
        · intro he
          exact ⟨session, reply, store, rfl, hg.1, hg.2.1, hg.2.2, hb, (Option.some.inj he).symm⟩
        · rintro ⟨session', reply', store', hs, -, -, -, hb', rfl⟩
          obtain rfl := Option.some.inj hs
          rw [hb] at hb'
          obtain ⟨rfl, rfl⟩ := Prod.mk.inj (Except.ok.inj hb')
          rfl
    · rw [if_neg hg]
      constructor
      · intro he
        cases he
      · rintro ⟨session', reply, store, hs, h₁, h₂, h₃, -⟩
        obtain rfl := Option.some.inj hs
        exact absurd ⟨h₁, h₂, h₃⟩ hg

theorem step_finishReads_iff {compute : StdMap Bytes → List (Bytes × Bytes)} {ts : ℕ} :
    step d sys (.finishReads id compute ts) = some sys' ↔
      ∃ session client values, sys.sessions id = some session ∧ session.phase = .reading ∧
        (∀ p ∈ session.client.participants, (session.readReplies p).isSome) ∧
        session.client.batchGet (fun p => (session.readReplies p).getD {}) =
          .ok (client, values) ∧
        sys' = sys.setSession id (({ session with
          client := client.calls d.nshards (puts (compute values)) } : Session).prepare d.order ts)
    := by
  rw [step]
  cases h : sys.sessions id with
  | none => simp
  | some session =>
    dsimp only
    by_cases hg : session.phase = .reading ∧
        ∀ p ∈ session.client.participants, (session.readReplies p).isSome
    · rw [if_pos hg, finishReads]
      cases hb : session.client.batchGet fun p => (session.readReplies p).getD {} with
      | error e =>
        constructor
        · intro he
          cases he
        · rintro ⟨session', client, values, hs, -, -, hb', -⟩
          obtain rfl := Option.some.inj hs
          rw [hb] at hb'
          cases hb'
      | ok r =>
        obtain ⟨client, values⟩ := r
        constructor
        · intro he
          exact ⟨session, client, values, rfl, hg.1, hg.2, hb, (Option.some.inj he).symm⟩
        · rintro ⟨session', client', values', hs, -, -, hb', rfl⟩
          obtain rfl := Option.some.inj hs
          rw [hb] at hb'
          obtain ⟨rfl, rfl⟩ := Prod.mk.inj (Except.ok.inj hb')
          rfl
    · rw [if_neg hg]
      constructor
      · intro he
        cases he
      · rintro ⟨session', client, values, hs, h₁, h₂, -⟩
        obtain rfl := Option.some.inj hs
        exact absurd ⟨h₁, h₂⟩ hg

theorem step_deliver_iff {s time : ℕ} :
    step d sys (.deliver id s time) = some sys' ↔
      ∃ session request up, sys.sessions id = some session ∧
        (session.requests s)[(session.replies s).length]? = some request ∧
        Server.leaderUpcall d time request (sys.shards s) = .ok up ∧
        sys' = { (sys.setShard s up.store).setSession id (session.answer s up.reply) with
          applied := sys.applied ++ up.call.toList.map fun call => ⟨id, s, call⟩ } := by
  rw [step]
  cases h : sys.sessions id with
  | none => simp
  | some session =>
    dsimp only
    cases hr : (session.requests s)[(session.replies s).length]? with
    | none =>
      constructor
      · intro he
        cases he
      · rintro ⟨session', request, up, hs, hr', -⟩
        obtain rfl := Option.some.inj hs
        rw [hr] at hr'
        cases hr'
    | some request =>
      dsimp only
      rw [execute]
      constructor
      · intro he
        split at he
        · cases he
        · rename_i up hup
          exact ⟨session, request, up, rfl, hr, hup, (Option.some.inj he).symm⟩
      · rintro ⟨session', request', up, hs, hr', hup, rfl⟩
        obtain rfl := Option.some.inj hs
        rw [hr] at hr'
        obtain rfl := Option.some.inj hr'
        rw [hup]

theorem step_decide_iff {now : ℕ} :
    step d sys (.decide id now) = some sys' ↔
      ∃ session, sys.sessions id = some session ∧ session.phase = .preparing ∧
        (∀ p ∈ session.client.participants, session.replies p ≠ []) ∧
        sys' = { sys.setSession id (session.decide d.order d.mode now) with
          committed := if (session.decide d.order d.mode now).phase = .committed
            then sys.committed ++ [id] else sys.committed } := by
  rw [step]
  cases h : sys.sessions id with
  | none => simp
  | some session =>
    dsimp only
    by_cases hg : session.phase = .preparing ∧
        ∀ p ∈ session.client.participants, session.replies p ≠ []
    · rw [if_pos hg]
      constructor
      · intro he
        exact ⟨session, rfl, hg.1, hg.2, (Option.some.inj he).symm⟩
      · rintro ⟨session', hs, -, -, rfl⟩
        obtain rfl := Option.some.inj hs
        rfl
    · rw [if_neg hg]
      constructor
      · intro he
        cases he
      · rintro ⟨session', hs, h₁, h₂, -⟩
        obtain rfl := Option.some.inj hs
        exact absurd ⟨h₁, h₂⟩ hg

end System

/-! ### What a session has done at a shard -/

namespace Session

/-- The transaction as it reaches a shard. -/
def txnAt (o : HashOrder) (session : Session) (s : ℕ) : Transaction :=
  .ofMessage ((session.client.bclient s).txn.serialize o)

/-- The requests that a session has sent to a shard in its phase. -/
def sent (o : HashOrder) (session : Session) (s : ℕ) : List Request :=
  if s ∈ session.client.participants then
    match session.phase with
    | .reading => []
    | .preparing => [session.client.prepareRequest o s]
    | .committed =>
      [session.client.prepareRequest o s, session.client.commitRequest session.ts s]
    | .aborted => [session.client.prepareRequest o s, session.client.abortRequest o]
  else []

/-- The last answer of the shard was that the transaction is prepared. -/
def holds (session : Session) (s : ℕ) : Bool :=
  match session.replies s with
  | [r] => r.status = .ok
  | _ => false

/-- The shard has executed the commit. -/
def done (session : Session) (s : ℕ) : Bool :=
  session.phase = .committed ∧ (session.replies s).length = 2

theorem holds_singleton {session : Session} {s : ℕ} {r : TxnReply} (h : session.replies s = [r]) :
    session.holds s = Decidable.decide (r.status = .ok) := by
  unfold holds
  rw [h]

theorem holds_of_length_ne_one {session : Session} {s : ℕ}
    (h : (session.replies s).length ≠ 1) : session.holds s = false := by
  unfold holds
  split
  · rename_i heq
    exact absurd (by rw [heq]; rfl) h
  · rfl

theorem done_iff (session : Session) (s : ℕ) :
    session.done s = true ↔ session.phase = .committed ∧ (session.replies s).length = 2 := by
  simp [done]

theorem replies_answer (session : Session) (s : ℕ) (reply : TxnReply) :
    (session.answer s reply).replies s = session.replies s ++ [reply] :=
  Function.update_self ..

theorem replies_answer_of_ne (session : Session) {s s' : ℕ} (h : s ≠ s') (reply : TxnReply) :
    (session.answer s' reply).replies s = session.replies s :=
  Function.update_of_ne h ..

@[simp]
theorem phase_answer (session : Session) (s : ℕ) (reply : TxnReply) :
    (session.answer s reply).phase = session.phase := rfl

@[simp]
theorem client_answer (session : Session) (s : ℕ) (reply : TxnReply) :
    (session.answer s reply).client = session.client := rfl

theorem sent_answer (o : HashOrder) (session : Session) (s : ℕ) (reply : TxnReply) (s' : ℕ) :
    (session.answer s reply).sent o s' = session.sent o s' := rfl

/-- The writes that the commit puts into the shard. -/
def callAt (o : HashOrder) (session : Session) (s : ℕ) : PutCall :=
  putCall o (session.txnAt o s) session.ts

end Session

/-- The state of transaction `id` between its client and shard `s`, where `entry` is its entry in
the table of the shard and `applied` lists its writes there. -/
structure Part (o : HashOrder) (id : ℕ) (session : Session) (s : ℕ) (entry : Option Transaction)
    (applied : List Applied) : Prop where
  requests : session.requests s = session.sent o s
  length_le : (session.replies s).length ≤ (session.sent o s).length
  /-- A decided transaction has been answered by every participant. -/
  answered : session.phase = .committed ∨ session.phase = .aborted →
    s ∈ session.client.participants → session.replies s ≠ []
  accepted : session.phase = .committed → s ∈ session.client.participants →
    ∃ r, (session.replies s).head? = some r ∧ r.status = .ok
  entry_eq : entry = if session.holds s then some (session.txnAt o s) else none
  applied_eq : applied = if session.done s then [⟨id, s, session.callAt o s⟩] else []

namespace System

variable {S : Type} {d : Deployment S}

/-- The writes of a transaction at a shard. -/
def appliedAt (sys : System S) (id s : ℕ) : List Applied :=
  sys.applied.filter fun a => a.id = id ∧ a.shard = s

/-- The invariant of a run. -/
structure Inv (d : Deployment S) (sys : System S) : Prop where
  part : ∀ id session, sys.sessions id = some session → session.client.tId = id ∧
    ∀ s, Part d.order id session s ((sys.shards s).entry id) (sys.appliedAt id s)
  fresh : ∀ id, sys.sessions id = none →
    ∀ s, (sys.shards s).entry id = none ∧ sys.appliedAt id s = []
  conflictFree : ∀ s, (sys.shards s).ConflictFree
  committed : ∀ id, id ∈ sys.committed ↔
    ∃ session, sys.sessions id = some session ∧ session.phase = .committed
  nodup : sys.committed.Nodup

end System

namespace Session

/-- The decision is to commit when all participants have accepted. -/
theorem phase_decide (o : HashOrder) (mode : Mode) (session : Session) (now : ℕ) :
    (session.decide o mode now).phase =
      if ∀ p ∈ session.client.participants, ∀ r ∈ (session.replies p).head?, r.status = .ok
      then .committed else .aborted := by
  unfold decide
  have hok := Client.mergeReplies_ok_iff session.ts
    (session.client.participants.flatMap fun p => (session.replies p).head?.toList)
  have hall : (∀ r ∈ session.client.participants.flatMap
        (fun p => (session.replies p).head?.toList), r.status = .ok) ↔
      ∀ p ∈ session.client.participants, ∀ r ∈ (session.replies p).head?, r.status = .ok := by
    simp only [List.mem_flatMap, Option.mem_toList]
    constructor
    · intro h p hp r hr
      exact h r ⟨p, hp, hr⟩
    · rintro h r ⟨p, hp, hr⟩
      exact h p hp r hr
  rw [hall] at hok
  by_cases h : ∀ p ∈ session.client.participants, ∀ r ∈ (session.replies p).head?, r.status = .ok
  · rw [if_pos h]
    simp only [hok.mpr h, if_true]
  · rw [if_neg h]
    simp only [mt hok.mp h, if_false]

theorem client_decide (o : HashOrder) (mode : Mode) (session : Session) (now : ℕ) :
    (session.decide o mode now).client = session.client := by
  unfold decide
  dsimp only
  split <;> rfl

theorem replies_decide (o : HashOrder) (mode : Mode) (session : Session) (now : ℕ) :
    (session.decide o mode now).replies = session.replies := by
  unfold decide
  dsimp only
  split <;> rfl

theorem readReplies_decide (o : HashOrder) (mode : Mode) (session : Session) (now : ℕ) :
    (session.decide o mode now).readReplies = session.readReplies := by
  unfold decide
  dsimp only
  split <;> rfl

theorem requests_decide {o : HashOrder} {session : Session} {s : ℕ}
    (hphase : session.phase = .preparing) (h : session.requests s = session.sent o s) (mode : Mode)
    (now : ℕ) :
    (session.decide o mode now).requests s = (session.decide o mode now).sent o s := by
  rw [sent, hphase] at h
  have hsent := client_decide o mode session now
  rw [sent, hsent]
  unfold decide
  dsimp only
  split
  · dsimp only
    split
    · rename_i hs
      rw [h, if_pos hs]
      rfl
    · rename_i hs
      rw [h, if_neg hs]
  · dsimp only
    split
    · rename_i hs
      rw [h, if_pos hs]
      rfl
    · rename_i hs
      rw [h, if_neg hs]

end Session

/-! ### One shard -/

namespace Part

variable {o : HashOrder} {id s : ℕ} {session : Session} {entry : Option Transaction}
  {applied : List Applied}

/-- Before the first answer nothing has happened at the shard. -/
theorem of_replies_nil (hreplies : session.replies s = []) (hrequests : session.requests s =
    session.sent o s) (hphase : session.phase = .reading ∨ session.phase = .preparing) :
    Part o id session s none [] := by
  have hnot : session.phase ≠ .committed ∧ session.phase ≠ .aborted := by
    rcases hphase with h | h <;> rw [h] <;> decide
  constructor
  · exact hrequests
  · rw [hreplies]
    exact Nat.zero_le _
  · rintro (h | h)
    · exact absurd h hnot.1
    · exact absurd h hnot.2
  · intro h
    exact absurd h hnot.1
  · simp [Session.holds, hreplies]
  · simp [Session.done, hreplies]

theorem of_prepare (hreplies : session.replies s = []) (ts : ℕ) :
    Part o id (session.prepare o ts) s none [] :=
  of_replies_nil hreplies rfl (Or.inr rfl)

/-- Reading changes nothing at the shard. -/
theorem read (h : Part o id session s entry applied) (replies : ℕ → Option TxnReply) :
    Part o id { session with readReplies := replies } s entry applied :=
  ⟨h.requests, h.length_le, h.answered, h.accepted, h.entry_eq, h.applied_eq⟩

/-- The number of answers and the phase decide what is prepared and put. -/
theorem length_replies (h : Part o id session s entry applied)
    (hphase : session.phase = .preparing) : (session.replies s).length ≤ 1 := by
  have hle := h.length_le
  rw [Session.sent, hphase] at hle
  split at hle
  · exact hle
  · exact hle.trans (Nat.zero_le 1)

theorem decide (h : Part o id session s entry applied) (hphase : session.phase = .preparing)
    (hall : ∀ p ∈ session.client.participants, session.replies p ≠ []) (mode : Mode) (now : ℕ) :
    Part o id (session.decide o mode now) s entry applied := by
  have hreplies := Session.replies_decide o mode session now
  have hclient := Session.client_decide o mode session now
  have hlen := h.length_replies hphase
  have hrequests := Session.requests_decide hphase h.requests mode now
  constructor
  · exact hrequests
  · rw [← hrequests, hreplies]
    refine (h.length_le.trans ?_)
    rw [← h.requests]
    unfold Session.decide
    dsimp only
    split <;> dsimp only <;> split <;> simp
  · intro _ hs
    rw [hreplies]
    rw [hclient] at hs
    exact hall s hs
  · intro hc hs
    rw [hclient] at hs
    rw [Session.phase_decide] at hc
    split at hc
    · rename_i hok
      rw [hreplies]
      cases hr : session.replies s with
      | nil => exact absurd hr (hall s hs)
      | cons r rs => exact ⟨r, rfl, hok s hs r (by rw [hr]; rfl)⟩
    · cases hc
  · have hholds : (session.decide o mode now).holds s = session.holds s := by
      unfold Session.holds
      rw [hreplies]
    have htxn : (session.decide o mode now).txnAt o s = session.txnAt o s := by
      unfold Session.txnAt
      rw [hclient]
    rw [h.entry_eq, hholds, htxn]
  · have hdone : session.done s = false := by simp [Session.done, hphase]
    have hdone' : (session.decide o mode now).done s = false := by
      simp only [Session.done, hreplies, decide_eq_false_iff_not]
      omega
    rw [h.applied_eq, hdone, hdone']
    rfl

/-- **The next request** at a shard: the vote, the commit of a transaction that the shard holds,
or the abort. -/
theorem next_cases (h : Part o id session s entry applied) {request : Request}
    (hnext : (session.requests s)[(session.replies s).length]? = some request) :
    s ∈ session.client.participants ∧
      ((session.phase = .preparing ∧ session.replies s = [] ∧
          request = session.client.prepareRequest o s) ∨
        (session.phase = .committed ∧ (∃ r, session.replies s = [r] ∧ r.status = .ok) ∧
          request = session.client.commitRequest session.ts s) ∨
        (session.phase = .aborted ∧ (∃ r, session.replies s = [r]) ∧
          request = session.client.abortRequest o)) := by
  rw [h.requests] at hnext
  by_cases hs : s ∈ session.client.participants
  · refine ⟨hs, ?_⟩
    -- a decided transaction is past its first request
    have hanswered := fun hc => h.answered hc hs
    rw [Session.sent, if_pos hs] at hnext
    cases hphase : session.phase with
    | reading => simp [hphase] at hnext
    | preparing =>
      simp only [hphase] at hnext
      cases hr : session.replies s with
      | nil =>
        rw [hr] at hnext
        exact Or.inl ⟨rfl, rfl, (Option.some.inj hnext).symm⟩
      | cons r rs => simp [hr] at hnext
    | committed =>
      simp only [hphase] at hnext
      obtain ⟨r, hr, hok⟩ := h.accepted hphase hs
      cases hrs : session.replies s with
      | nil => exact absurd hrs (hanswered (Or.inl hphase))
      | cons r' rs =>
        rw [hrs] at hr hnext
        obtain rfl := Option.some.inj hr
        cases rs with
        | nil => exact Or.inr (Or.inl ⟨rfl, ⟨r', rfl, hok⟩, (Option.some.inj hnext).symm⟩)
        | cons r'' rs => simp at hnext
    | aborted =>
      simp only [hphase] at hnext
      cases hrs : session.replies s with
      | nil => exact absurd hrs (hanswered (Or.inr hphase))
      | cons r' rs =>
        rw [hrs] at hnext
        cases rs with
        | nil => exact Or.inr (Or.inr ⟨rfl, ⟨r', rfl⟩, (Option.some.inj hnext).symm⟩)
        | cons r'' rs => simp at hnext
  · rw [Session.sent, if_neg hs] at hnext
    simp at hnext

variable {S : Type} {d : Deployment S}


/-- **One request** keeps the state of its transaction at the shard, and the entries of the
others. -/
theorem deliver {store : OCCStore S} {time : ℕ} {request : Request} {up : Upcall S}
    (h : Part d.order id session s (store.entry id) applied) (hid : session.client.tId = id)
    (hnext : (session.requests s)[(session.replies s).length]? = some request)
    (hup : Server.leaderUpcall d time request store = .ok up) :
    Part d.order id (session.answer s up.reply) s (up.store.entry id)
        (applied ++ up.call.toList.map fun call => ⟨id, s, call⟩) ∧
      (∀ id', id' ≠ id → up.store.entry id' = store.entry id') ∧
      (store.ConflictFree → up.store.ConflictFree) := by
  obtain ⟨hs, hcase⟩ := h.next_cases hnext
  have hreplies : ∀ rs, session.replies s = rs →
      (session.answer s up.reply).replies s = rs ++ [up.reply] := by
    rintro rs rfl
    exact session.replies_answer s up.reply
  have hentry := h.entry_eq
  have happlied := h.applied_eq
  obtain ⟨hphase, hnil, rfl⟩ | ⟨hphase, ⟨r, hr, hok⟩, rfl⟩ | ⟨hphase, ⟨r, hr⟩, rfl⟩ := hcase
  · -- the vote
    rw [Client.prepareRequest, hid] at hup
    obtain ⟨up', hup', hcall, hstatus, hstore⟩ := Server.leaderUpcall_prepare (d := d) time id
      ((session.client.bclient s).txn.serialize d.order) store
    rw [hup] at hup'
    obtain rfl := Except.ok.inj hup'
    have hnone : store.entry id = none := by rw [hentry]; simp [Session.holds, hnil]
    have hempty : applied = [] := by rw [happlied]; simp [Session.done, hphase]
    have hone := hreplies [] hnil
    have hpart : Part d.order id (session.answer s up.reply) s
        (if up.reply.status = .ok then some (session.txnAt d.order s) else none) applied := by
      constructor
      · exact h.requests
      · rw [hone, Session.sent_answer, Session.sent, if_pos hs, hphase]
        exact le_rfl
      · rintro (hc | hc) <;> rw [Session.phase_answer, hphase] at hc <;> cases hc
      · intro hc
        rw [Session.phase_answer, hphase] at hc
        cases hc
      · rw [Session.holds_singleton hone]
        simp only [decide_eq_true_eq]
        rfl
      · rw [hempty]
        simp [Session.done, Session.phase_answer, hphase]
    rw [hcall, hstore]
    simp only [Option.toList_none, List.map_nil, List.append_nil]
    obtain ⟨hprep, -⟩ | ⟨hprep, -⟩ := OCCStore.prepare_of_entry_none hnone
      (.ofMessage ((session.client.bclient s).txn.serialize d.order))
    · rw [hstatus, hprep] at hpart
      rw [hprep]
      refine ⟨?_, fun id' hne => ?_, fun hfree => ?_⟩
      · simpa [OCCStore.entry, Session.txnAt] using hpart
      · rw [OCCStore.entry, List.lookup_cons, beq_eq_false_iff_ne.mpr hne]
      · have hfree' := hfree.prepare hnone
          (.ofMessage ((session.client.bclient s).txn.serialize d.order))
        rwa [hprep] at hfree'
    · rw [hstatus, hprep] at hpart
      rw [hprep, hnone]
      exact ⟨by simpa using hpart, fun _ _ => rfl, fun hfree => hfree⟩
  · -- the commit
    rw [Client.commitRequest, hid] at hup
    obtain ⟨hprepared, hcall, -⟩ := Server.leaderUpcall_commit hup
    have hlookup : ∀ id', up.store.entry id' = (store.abort id).entry id' := by
      intro id'
      rw [OCCStore.entry, hprepared]
    have hholds : session.holds s = true := by simp [Session.holds, hr, hok]
    rw [hholds, if_pos rfl] at hentry
    have hempty : applied = [] := by rw [happlied]; simp [Session.done, hr]
    have htwo := hreplies [r] hr
    refine ⟨?_, fun id' hne => ?_, fun hfree => ?_⟩
    · constructor
      · exact h.requests
      · rw [htwo, Session.sent_answer, Session.sent, if_pos hs, hphase]
        exact le_rfl
      · intro _ _
        rw [htwo]
        simp
      · intro _ _
        rw [htwo]
        exact ⟨r, rfl, hok⟩
      · rw [hlookup, OCCStore.entry_abort, if_pos rfl,
          Session.holds_of_length_ne_one (by rw [htwo]; simp)]
        rfl
      · rw [hempty, hcall, hentry, 
          if_pos ((Session.done_iff (session.answer s up.reply) s).mpr
            ⟨hphase, by rw [htwo]; rfl⟩)]
        rfl
    · rw [hlookup, OCCStore.entry_abort, if_neg hne]
    · refine (hfree.abort id).mono fun id' t ht => ?_
      rwa [hlookup] at ht
  · -- the abort
    rw [Client.abortRequest, hid, Server.leaderUpcall_abort] at hup
    obtain rfl := Except.ok.inj hup
    have hempty : applied = [] := by rw [happlied]; simp [Session.done, hphase]
    have htwo := hreplies [r] hr
    refine ⟨?_, fun id' hne => ?_, fun hfree => hfree.abort id⟩
    · constructor
      · exact h.requests
      · rw [htwo, Session.sent_answer, Session.sent, if_pos hs, hphase]
        exact le_rfl
      · intro _ _
        rw [htwo]
        simp
      · intro hc
        rw [Session.phase_answer, hphase] at hc
        cases hc
      · rw [OCCStore.entry_abort, if_pos rfl,
          Session.holds_of_length_ne_one (by rw [htwo]; simp)]
        rfl
      · rw [hempty]
        simp [Session.done, hphase]
    · rw [OCCStore.entry_abort, if_neg hne]

/-- An answer of another shard changes nothing. -/
theorem answer_of_ne (h : Part o id session s entry applied) {s' : ℕ} (hne : s ≠ s')
    (reply : TxnReply) : Part o id (session.answer s' reply) s entry applied := by
  have hreplies := session.replies_answer_of_ne hne reply
  have hholds : (session.answer s' reply).holds s = session.holds s := by
    unfold Session.holds
    rw [hreplies]
  constructor
  · exact h.requests
  · rw [hreplies]
    exact h.length_le
  · rw [hreplies]
    exact h.answered
  · rw [hreplies]
    exact h.accepted
  · rw [hholds]
    exact h.entry_eq
  · have hdone : (session.answer s' reply).done s = session.done s := by
      unfold Session.done
      rw [hreplies]
      rfl
    rw [hdone]
    exact h.applied_eq

end Part

/-! ### The invariant -/

namespace System

variable {S : Type} {d : Deployment S} {sys sys' : System S}

@[simp]
theorem sessions_setSession (sys : System S) (id : ℕ) (session : Session) :
    (sys.setSession id session).sessions = Function.update sys.sessions id (some session) := rfl

@[simp]
theorem shards_setSession (sys : System S) (id : ℕ) (session : Session) :
    (sys.setSession id session).shards = sys.shards := rfl

@[simp]
theorem committed_setSession (sys : System S) (id : ℕ) (session : Session) :
    (sys.setSession id session).committed = sys.committed := rfl

@[simp]
theorem sessions_setShard (sys : System S) (s : ℕ) (store : OCCStore S) :
    (sys.setShard s store).sessions = sys.sessions := rfl

@[simp]
theorem shards_setShard (sys : System S) (s : ℕ) (store : OCCStore S) :
    (sys.setShard s store).shards = Function.update sys.shards s store := rfl

theorem appliedAt_concat (applied : List Applied) (call : Option PutCall) (id s id' s' : ℕ) :
    ((applied ++ call.toList.map fun call => ({ id, shard := s, call } : Applied)).filter
        fun a => a.id = id' ∧ a.shard = s') =
      (applied.filter fun a => a.id = id' ∧ a.shard = s') ++
        if id = id' ∧ s = s' then call.toList.map fun call => { id, shard := s, call }
        else [] := by
  rw [List.filter_append]
  congr 1
  cases call with
  | none => simp
  | some call =>
    by_cases h : id = id' ∧ s = s'
    · rw [if_pos h]
      simp [h]
    · rw [if_neg h]
      simpa using h

theorem inv_init (d : Deployment S) (stores : ℕ → S) : Inv d (init stores) where
  part id session h := by cases h
  fresh id _ s := ⟨rfl, rfl⟩
  conflictFree s id id' t t' h := by cases h
  committed id := by simp [init]
  nodup := List.nodup_nil

/-- A step that only changes the session of `id` keeps the invariant of the others. -/
theorem Inv.setSession (h : Inv d sys) {id : ℕ} {session : Session}
    (hid : session.client.tId = id)
    (hpart : ∀ s, Part d.order id session s ((sys.shards s).entry id) (sys.appliedAt id s))
    (hcommitted : id ∈ sys.committed ↔ session.phase = .committed) :
    Inv d (sys.setSession id session) := by
  constructor
  · intro id' session' hs
    rw [sessions_setSession] at hs
    by_cases he : id' = id
    · subst he
      rw [Function.update_self] at hs
      obtain rfl := Option.some.inj hs
      exact ⟨hid, hpart⟩
    · rw [Function.update_of_ne he] at hs
      exact h.part id' session' hs
  · intro id' hs
    rw [sessions_setSession] at hs
    by_cases he : id' = id
    · subst he
      rw [Function.update_self] at hs
      cases hs
    · rw [Function.update_of_ne he] at hs
      exact h.fresh id' hs
  · exact h.conflictFree
  · intro id'
    by_cases he : id' = id
    · subst he
      simp [hcommitted]
    · rw [committed_setSession, h.committed, sessions_setSession, Function.update_of_ne he]
  · exact h.nodup

/-- A store whose entries stay the same. -/
theorem Inv.setShard (h : Inv d sys) {s : ℕ} {store : OCCStore S}
    (hentry : ∀ id, store.entry id = (sys.shards s).entry id) : Inv d (sys.setShard s store) := by
  have hall : ∀ s' id, ((sys.setShard s store).shards s').entry id = (sys.shards s').entry id := by
    intro s' id
    rw [shards_setShard]
    by_cases he : s' = s
    · subst he
      rw [Function.update_self]
      exact hentry id
    · rw [Function.update_of_ne he]
  constructor
  · intro id session hs
    refine ⟨(h.part id session hs).1, fun s' => ?_⟩
    rw [hall]
    exact (h.part id session hs).2 s'
  · intro id hs s'
    rw [hall]
    exact h.fresh id hs s'
  · intro s'
    refine (h.conflictFree s').mono fun id t ht => ?_
    rwa [hall] at ht
  · exact h.committed
  · exact h.nodup

/-- **Every step** keeps the invariant. -/
theorem inv_step (h : Inv d sys) {l : Label} (hstep : step d sys l = some sys') : Inv d sys' := by
  have hnot : ∀ {id : ℕ}, sys.sessions id = none → id ∉ sys.committed := by
    intro id hnone hmem
    obtain ⟨session, hs, -⟩ := (h.committed id).mp hmem
    rw [hnone] at hs
    cases hs
  -- a transaction in another phase is not committed
  have hphase : ∀ {id : ℕ} {session : Session}, sys.sessions id = some session →
      session.phase ≠ .committed → id ∉ sys.committed := by
    intro id session hs hne hmem
    obtain ⟨session', hs', hc⟩ := (h.committed id).mp hmem
    rw [hs] at hs'
    obtain rfl := Option.some.inj hs'
    exact hne hc
  cases l with
  | start id ops ts =>
    obtain ⟨hnone, rfl⟩ := step_start_iff.mp hstep
    refine h.setSession (Client.tId_calls ..) (fun s => ?_) ?_
    · rw [(h.fresh id hnone s).1, (h.fresh id hnone s).2]
      exact Part.of_prepare rfl ts
    · exact iff_of_false (hnot hnone) (by simp [Session.prepare])
  | startReads id keys =>
    obtain ⟨hnone, rfl⟩ := step_startReads_iff.mp hstep
    refine h.setSession (Client.tId_calls ..) (fun s => ?_) ?_
    · rw [(h.fresh id hnone s).1, (h.fresh id hnone s).2]
      refine Part.of_replies_nil rfl ?_ (Or.inl rfl)
      rw [Session.sent]
      split <;> rfl
    · exact iff_of_false (hnot hnone) (by simp)
  | read id s =>
    obtain ⟨session, reply, store, hs, hreading, -, -, hget, rfl⟩ := step_read_iff.mp hstep
    have hentry : ∀ id, store.entry id = (sys.shards s).entry id := by
      rw [OCCStore.batchGet] at hget
      obtain ⟨digest, -, hget⟩ := bind_eq_ok_iff.mp hget
      obtain ⟨⟨_, _⟩, -, hget⟩ := bind_eq_ok_iff.mp hget
      obtain ⟨-, rfl⟩ := Prod.mk.inj (Except.ok.inj hget)
      exact fun _ => rfl
    have h' := h.setShard hentry
    refine h'.setSession (h'.part id session hs).1 (fun s' => ?_) ?_
    · exact ((h'.part id session hs).2 s').read _
    · refine iff_of_false (hphase hs ?_) ?_
      · rw [hreading]
        decide
      · rw [Session.readAnswer, hreading]
        decide
  | finishReads id compute ts =>
    obtain ⟨session, client, values, hs, hreading, -, hbatch, rfl⟩ := step_finishReads_iff.mp hstep
    obtain ⟨hid, hpart⟩ := h.part id session hs
    -- nothing has been sent before
    have hempty : ∀ s, session.replies s = [] := by
      intro s
      have hle := (hpart s).length_le
      rw [Session.sent, hreading] at hle
      split at hle <;> exact List.length_eq_zero_iff.mp (Nat.le_zero.mp hle)
    refine h.setSession ?_ (fun s => ?_) ?_
    · change (client.calls d.nshards _).tId = id
      rw [Client.tId_calls, Client.tId_batchGetLoop hbatch, hid]
    · have hentry := (hpart s).entry_eq
      have happlied := (hpart s).applied_eq
      rw [Session.holds_of_length_ne_one (by rw [hempty s]; simp), if_neg Bool.false_ne_true]
        at hentry
      rw [if_neg (by rw [Session.done_iff, hempty s]; simp)] at happlied
      rw [hentry, happlied]
      refine Part.of_prepare ?_ ts
      exact hempty s
    · refine iff_of_false (hphase hs ?_) (by simp [Session.prepare])
      rw [hreading]
      decide
  | deliver id s time =>
    obtain ⟨session, request, up, hs, hnext, hup, rfl⟩ := step_deliver_iff.mp hstep
    obtain ⟨hid, hpart⟩ := h.part id session hs
    obtain ⟨hhere, hothers, hfree⟩ := (hpart s).deliver hid hnext hup
    have hshard : ∀ s' id', (s' ≠ s ∨ id' ≠ id) →
        ((sys.setShard s up.store).shards s').entry id' = (sys.shards s').entry id' := by
      intro s' id' hne
      rw [shards_setShard]
      by_cases he : s' = s
      · subst he
        rw [Function.update_self]
        exact hothers id' (hne.resolve_left fun h => h rfl)
      · rw [Function.update_of_ne he]
    constructor
    · intro id' session' hs'
      by_cases he : id' = id
      · subst he
        change Function.update sys.sessions id' _ id' = _ at hs'
        rw [Function.update_self] at hs'
        obtain rfl := Option.some.inj hs'
        refine ⟨hid, fun s' => ?_⟩
        change Part _ _ _ _ (((sys.setShard s up.store).shards s').entry id')
          ((sys.applied ++ _).filter _)
        rw [appliedAt_concat]
        by_cases hss : s' = s
        · subst hss
          rw [if_pos ⟨rfl, rfl⟩, shards_setShard, Function.update_self]
          exact hhere
        · rw [if_neg fun h => hss h.2.symm, List.append_nil, hshard s' id' (Or.inl hss)]
          exact (hpart s').answer_of_ne hss _
      · change Function.update sys.sessions id _ id' = _ at hs'
        rw [Function.update_of_ne he] at hs'
        refine ⟨(h.part id' session' hs').1, fun s' => ?_⟩
        change Part _ _ _ _ (((sys.setShard s up.store).shards s').entry id')
          ((sys.applied ++ _).filter _)
        rw [appliedAt_concat, if_neg fun h => he h.1.symm, List.append_nil,
          hshard s' id' (Or.inr he)]
        exact (h.part id' session' hs').2 s'
    · intro id' hs' s'
      have he : id' ≠ id := by
        rintro rfl
        change Function.update sys.sessions id' _ id' = _ at hs'
        rw [Function.update_self] at hs'
        cases hs'
      change Function.update sys.sessions id _ id' = _ at hs'
      rw [Function.update_of_ne he] at hs'
      constructor
      · exact (hshard s' id' (Or.inr he)).trans (h.fresh id' hs' s').1
      · change (sys.applied ++ _).filter _ = []
        rw [appliedAt_concat, if_neg fun h => he h.1.symm, List.append_nil]
        exact (h.fresh id' hs' s').2
    · intro s'
      change ((sys.setShard s up.store).shards s').ConflictFree
      rw [shards_setShard]
      by_cases hss : s' = s
      · subst hss
        rw [Function.update_self]
        exact hfree (h.conflictFree s')
      · rw [Function.update_of_ne hss]
        exact h.conflictFree s'
    · intro id'
      change id' ∈ sys.committed ↔ ∃ session', Function.update sys.sessions id _ id' = _ ∧ _
      rw [h.committed]
      by_cases he : id' = id
      · subst he
        rw [Function.update_self, hs]
        simp
      · rw [Function.update_of_ne he]
    · exact h.nodup
  | decide id now =>
    obtain ⟨session, hs, hpreparing, hall, rfl⟩ := step_decide_iff.mp hstep
    obtain ⟨hid, hpart⟩ := h.part id session hs
    have hnew := hphase hs (by rw [hpreparing]; decide)
    have hpart' := fun s => (hpart s).decide hpreparing hall d.mode now
    constructor
    · intro id' session' hs'
      by_cases he : id' = id
      · subst he
        change Function.update sys.sessions id' _ id' = _ at hs'
        rw [Function.update_self] at hs'
        obtain rfl := Option.some.inj hs'
        exact ⟨by rw [Session.client_decide, hid], hpart'⟩
      · change Function.update sys.sessions id _ id' = _ at hs'
        rw [Function.update_of_ne he] at hs'
        exact h.part id' session' hs'
    · intro id' hs'
      have he : id' ≠ id := by
        rintro rfl
        change Function.update sys.sessions id' _ id' = _ at hs'
        rw [Function.update_self] at hs'
        cases hs'
      change Function.update sys.sessions id _ id' = _ at hs'
      rw [Function.update_of_ne he] at hs'
      exact h.fresh id' hs'
    · exact h.conflictFree
    · intro id'
      change id' ∈ (if _ then _ else _) ↔ ∃ session', Function.update sys.sessions id _ id' = _ ∧ _
      by_cases he : id' = id
      · subst he
        rw [Function.update_self]
        split
        · rename_i hc
          simp [hc]
        · rename_i hc
          simp [hc, hnew]
      · rw [Function.update_of_ne he, ← h.committed]
        split <;> simp [he]
    · change (if _ then _ else _ : List ℕ).Nodup
      split
      · exact List.nodup_append.mpr ⟨h.nodup, List.nodup_singleton id, by
          rintro a ha b hb rfl
          rw [List.mem_singleton] at hb
          exact hnew (hb ▸ ha)⟩
      · exact h.nodup

/-- **Every run** keeps the invariant. -/
theorem inv_of_runs {stores : ℕ → S} {labels : List Label}
    (h : runs (step d) (init stores) labels = some sys) : Inv d sys :=
  runs_inv (inv_init d stores) (fun _ _ _ hinv hstep => inv_step hinv hstep) h

/-! ### Clients -/

/-- The clients of all sessions are well formed. -/
def Wf (sys : System S) : Prop :=
  ∀ id session, sys.sessions id = some session → session.client.Wf

/-- A property of all sessions after one of them has changed. -/
theorem forall_setSession {P : Session → Prop}
    (h : ∀ id session, sys.sessions id = some session → P session) {id : ℕ} {session : Session}
    (hnew : P session) (id' : ℕ) (session' : Session)
    (hs : Function.update sys.sessions id (some session) id' = some session') : P session' := by
  by_cases he : id' = id
  · subst he
    rw [Function.update_self] at hs
    obtain rfl := Option.some.inj hs
    exact hnew
  · rw [Function.update_of_ne he] at hs
    exact h id' session' hs

theorem Wf.setSession (h : sys.Wf) {id : ℕ} {session : Session} (hc : session.client.Wf) :
    (sys.setSession id session).Wf :=
  forall_setSession (P := fun session => session.client.Wf) h hc

theorem wf_step (h : sys.Wf) {l : Label} (hstep : step d sys l = some sys') : sys'.Wf := by
  cases l with
  | start id ops ts =>
    obtain ⟨-, rfl⟩ := step_start_iff.mp hstep
    exact h.setSession ((Client.wf_begin id).calls d.nshards ops)
  | startReads id keys =>
    obtain ⟨-, rfl⟩ := step_startReads_iff.mp hstep
    exact h.setSession ((Client.wf_begin id).calls d.nshards (keys.map .bufferKey))
  | read id s =>
    obtain ⟨session, reply, store, hs, -, -, -, -, rfl⟩ := step_read_iff.mp hstep
    have h' : (sys.setShard s store).Wf := h
    exact h'.setSession (h id session hs)
  | finishReads id compute ts =>
    obtain ⟨session, client, values, hs, -, -, hbatch, rfl⟩ := step_finishReads_iff.mp hstep
    exact h.setSession (((h id session hs).batchGetLoop (fun _ hp => hp) hbatch).calls d.nshards _)
  | deliver id s time =>
    obtain ⟨session, request, up, hs, -, -, rfl⟩ := step_deliver_iff.mp hstep
    have h' : (sys.setShard s up.store).Wf := h
    exact h'.setSession (h id session hs)
  | decide id now =>
    obtain ⟨session, hs, -, -, rfl⟩ := step_decide_iff.mp hstep
    have hclient : (session.decide d.order d.mode now).client.Wf := by
      rw [Session.client_decide]
      exact h id session hs
    exact h.setSession hclient

theorem wf_of_runs {stores : ℕ → S} {labels : List Label}
    (h : runs (step d) (init stores) labels = some sys) : sys.Wf := by
  have h₀ : (init stores).Wf := fun _ _ h => by cases h
  exact runs_inv h₀ (fun _ _ _ hk hstep => wf_step hk hstep) h

end System

end LedgerDatabase.Distributed
