import LedgerDatabase.Common.Equiv.Bytes
import LedgerDatabase.Distributed.Equiv.Vr.LogInvariant

/-!
# What a group never does

Only a closed batch is sent in a `PREPARE`, and no handler starts the timer that closes a batch.  So
nothing is ever appended to a log, whatever is requested: all logs stay empty, no message has a request
in it, and `CommitUpTo` has nothing to execute.  An event changes the application of a replica only if
the replica executes a request itself, as the leader (`nothing_replicated`).

The servers of the timestamps count on their own, therefore.  What they hand out is unique in the group
as long as one replica is asked (`timestamps_distinct_iff`).
-/

namespace LedgerDatabase.Distributed.Vr

open Run

/-- A message without requests. -/
def Message.Bare : Message → Prop
  | .prepare _ | .prepareOK _ => False
  | .commit _ | .requestStateTransfer _ | .startViewChange _ => True
  | .stateTransfer msg => msg.entries = []
  | .doViewChange msg => msg.entries = []
  | .startView msg => msg.entries = []

def Output.Bare : Output → Prop
  | .toAll msg => msg.Bare
  | .toReplica _ msg => msg.Bare
  | .toClient .. => True

theorem Log.find_empty (opnum : ℕ) : ({} : Log).find opnum = .ok none := by
  unfold find
  exact if_pos rfl

namespace VRReplica

variable {A : Type} {c : Configuration} {app : App A} {r r₁ : VRReplica A}

/-- A replica with an empty log that closes no batch. -/
structure Bare (r : VRReplica A) : Prop where
  log : r.log = {}
  resendPrepare : r.resendPrepareTimeout = false
  closeBatch : r.closeBatchTimeout = false
  votes : ∀ view, ∀ kv ∈ r.doViewChangeQuorum.messages view, kv.2.entries = []
  outbox : ∀ out ∈ r.outbox, out.Bare

theorem bare_new (myIdx : ℕ) (a : A) : Bare (new c myIdx a) := by
  constructor
  · rfl
  · rfl
  · rfl
  · intro view kv hkv
    cases hkv
  · intro out hout
    cases hout

/-- `r₁` is what has become of `r`, which has executed nothing. -/
structure Idle (r r₁ : VRReplica A) : Prop extends Bare r₁ where
  appState : r₁.app = r.app
  upcalls : r₁.upcalls = r.upcalls
  lastCommitted : r₁.lastCommitted = r.lastCommitted
  view : r.view ≤ r₁.view

theorem Bare.idle (h : Bare r) : Idle r r := ⟨h, rfl, rfl, rfl, le_rfl⟩

namespace Idle

theorem send (h : Idle r r₁) {out : Output} (hout : out.Bare) : Idle r (r₁.send out) := by
  refine ⟨⟨h.log, h.resendPrepare, h.closeBatch, h.votes, fun out' hout' => ?_⟩, h.appState, h.upcalls,
    h.lastCommitted, h.view⟩
  rcases List.mem_append.mp hout' with hout' | hout'
  · exact h.outbox out' hout'
  · rwa [List.mem_singleton.mp hout']

theorem requestStateTransfer (h : Idle r r₁) : Idle r r₁.requestStateTransfer := by
  unfold VRReplica.requestStateTransfer
  split
  · exact h
  · apply send
    · exact ⟨⟨h.log, h.resendPrepare, h.closeBatch, h.votes, h.outbox⟩, h.appState, h.upcalls,
        h.lastCommitted, h.view⟩
    · trivial

theorem startViewChange (h : Idle r r₁) {newview : ℕ} (hview : r₁.view ≤ newview) :
    Idle r (r₁.startViewChange newview) := by
  apply send
  · exact ⟨⟨h.log, rfl, rfl, h.votes, h.outbox⟩, h.appState, h.upcalls, h.lastCommitted,
      h.view.trans hview⟩
  · trivial

theorem joinViewChange (h : Idle r r₁) {view : ℕ} (hview : r₁.view ≤ view) :
    Idle r (r₁.joinViewChange view) := by
  unfold VRReplica.joinViewChange
  split
  · exact h.startViewChange hview
  · exact h

theorem enterView (h : Idle r r₁) {newview : ℕ} (hview : r₁.view ≤ newview) :
    Idle r (r₁.enterView c newview) := by
  unfold VRReplica.enterView
  dsimp only
  split
  · exact ⟨⟨h.log, h.resendPrepare, h.closeBatch, fun _ _ hkv => (by cases hkv), h.outbox⟩, h.appState,
      h.upcalls, h.lastCommitted, h.view.trans hview⟩
  · exact ⟨⟨h.log, rfl, rfl, fun _ _ hkv => (by cases hkv), h.outbox⟩, h.appState, h.upcalls,
      h.lastCommitted, h.view.trans hview⟩

/-- The number of the last operation decides nothing here. -/
theorem setLastOp (h : Idle r r₁) (lastOp : ℕ) : Idle r { r₁ with lastOp } :=
  ⟨⟨h.log, h.resendPrepare, h.closeBatch, h.votes, h.outbox⟩, h.appState, h.upcalls, h.lastCommitted,
    h.view⟩

end Idle

/-! ### Handlers -/

/-- The replica executes nothing, or stops. -/
def Idles (r : VRReplica A) : Except Failure (VRReplica A) → Prop
  | .ok r₁ => Idle r r₁
  | .error _ => True

theorem idles_bind {x : Except Failure (VRReplica A)} {f : VRReplica A → Except Failure (VRReplica A)}
    (hx : Idles r x) (h : ∀ r₁, Idle r r₁ → Idles r (f r₁)) : Idles r (x >>= f) := by
  cases x with
  | error failure => trivial
  | ok r₁ => exact h r₁ hx

/-- A step that changes nothing when it succeeds. -/
theorem idles_same_bind {x : Except Failure (VRReplica A)}
    {f : VRReplica A → Except Failure (VRReplica A)} (hx : ∀ r₂, x = .ok r₂ → r₂ = r₁)
    (h : Idles r (f r₁)) : Idles r (x >>= f) := by
  cases x with
  | error failure => trivial
  | ok r₂ =>
    rw [hx r₂ rfl]
    exact h

theorem idles_assert_bind {site : Site} {p : Prop} [Decidable p] {x : Except Failure (VRReplica A)}
    (h : Idles r x) : Idles r (assert site p >>= fun _ => x) := by
  by_cases hp : p
  · rw [assert, if_pos hp]
    exact h
  · rw [assert, if_neg hp]
    trivial

theorem idles_inside_bind {site : Site} {α : Type} {x : Except Fault α}
    {f : α → Except Failure (VRReplica A)} (h : ∀ a, x = .ok a → Idles r (f a)) :
    Idles r (inside site x >>= f) := by
  cases x with
  | error fault => trivial
  | ok a => exact h a rfl

/-- There is nothing to commit. -/
theorem idles_commitUpTo (h : Idle r r₁) (upto : ℕ) : Idles r (r₁.commitUpTo app upto) := by
  unfold commitUpTo
  cases upto - r₁.lastCommitted with
  | zero => exact h
  | succ n =>
    rw [commitLoop, commitNext, h.log, Log.find_empty]
    trivial

/-- There is nothing to acknowledge. -/
theorem idles_sendPrepareOKs (h : Idle r r₁) (oldLastOp : ℕ) :
    Idles r (r₁.sendPrepareOKs c oldLastOp) := by
  unfold sendPrepareOKs
  induction List.range' oldLastOp (r₁.lastOp + 1 - oldLastOp) with
  | nil => exact h
  | cons i is ih =>
    rw [sendPrepareOKsLoop]
    split
    · exact ih
    · rw [h.log, Log.find_empty]
      trivial

theorem idles_handleCommit (h : Bare r) (msg : CommitMessage) : Idles r (r.handleCommit c app msg) := by
  have hr : Idle r { r with viewChangeTimeout := true } :=
    ⟨⟨h.log, h.resendPrepare, h.closeBatch, h.votes, h.outbox⟩, rfl, rfl, rfl, le_rfl⟩
  unfold handleCommit
  dsimp only
  split_ifs
  · exact h.idle
  · exact h.idle
  · exact h.idle.requestStateTransfer
  · trivial
  · exact hr
  · exact hr.requestStateTransfer
  · exact idles_commitUpTo hr msg.opnum

theorem idles_handleRequestStateTransfer (h : Bare r) (remote : ℕ)
    (msg : RequestStateTransferMessage) : Idles r (r.handleRequestStateTransfer remote msg) := by
  unfold handleRequestStateTransfer
  split_ifs
  · exact h.idle
  · exact h.idle.requestStateTransfer
  · rw [h.log, Log.dump_empty]
    exact h.idle.send rfl

theorem idles_handleStateTransfer (h : Bare r) {msg : StateTransferMessage}
    (hentries : msg.entries = []) : Idles r (r.handleStateTransfer c app msg) := by
  unfold handleStateTransfer
  split
  · exact h.idle
  · rename_i hview
    rw [hentries, installLoop]
    have hr : Idle r (if msg.view > r.view then r.enterView c msg.view else r) := by
      split
      · exact h.idle.enterView (Nat.not_lt.mp hview)
      · exact h.idle
    apply idles_assert_bind
    apply idles_bind (idles_commitUpTo hr msg.opnum)
    intro r₁ h₁
    apply idles_bind (idles_sendPrepareOKs h₁ _)
    intro r₂ h₂
    exact ⟨⟨h₂.log, h₂.resendPrepare, h₂.closeBatch, h₂.votes, h₂.outbox⟩, h₂.appState, h₂.upcalls,
      h₂.lastCommitted, h₂.view⟩

theorem idles_handleStartViewChange (h : Bare r) (msg : StartViewChangeMessage) :
    Idles r (r.handleStartViewChange c msg) := by
  unfold handleStartViewChange
  split_ifs with hview
  · exact h.idle
  · exact h.idle
  · have hr := h.idle.joinViewChange (Nat.not_lt.mp hview)
    apply idles_assert_bind
    dsimp only [QuorumSet.addAndCheckForQuorum]
    -- the quorum is not looked at in `Idle`
    have hr₁ : ∀ startViewChangeQuorum, Idle r { r.joinViewChange msg.view with
        startViewChangeQuorum } := fun _ =>
      ⟨⟨hr.log, hr.resendPrepare, hr.closeBatch, hr.votes, hr.outbox⟩, hr.appState, hr.upcalls,
        hr.lastCommitted, hr.view⟩
    split
    · exact hr₁ _
    · split_ifs
      · exact hr₁ _
      · apply idles_inside_bind
        intro committed _
        apply idles_inside_bind
        intro entries hentries
        apply (hr₁ _).send
        have hlog := hr.log
        rw [hlog, Log.dump_empty] at hentries
        exact (Except.ok.inj hentries).symm

/-- Without entries there is nothing to install. -/
theorem installLatest_eq (msg : DoViewChangeMessage) {latestMsg : DoViewChangeMessage}
    (hentries : latestMsg.entries = []) {r₂ : VRReplica A}
    (h : r₁.installLatest msg latestMsg = .ok r₂) : r₂ = r₁ := by
  unfold installLatest assert at h
  rw [hentries] at h
  dsimp only at h
  split_ifs at h
  · exact (Except.ok.inj h).symm
  all_goals cases h

theorem installView_eq {msg : StartViewMessage} (hentries : msg.entries = []) {r₂ : VRReplica A}
    (h : r₁.installView msg = .ok r₂) : r₂ = r₁ := by
  unfold installView assert at h
  rw [hentries] at h
  dsimp only at h
  split_ifs at h
  · exact (Except.ok.inj h).symm
  all_goals cases h

/-- The most recent log is the one of a message. -/
theorem mem_of_latest {msgs : List (ℕ × DoViewChangeMessage)} : ∀ {view op : ℕ}
    {latestMsg : Option DoViewChangeMessage} {msg : DoViewChangeMessage},
    (latest view op latestMsg msgs).2 = some msg → latestMsg = some msg ∨ ∃ i, (i, msg) ∈ msgs := by
  induction msgs with
  | nil => exact fun h => Or.inl h
  | cons kv msgs ih =>
    intro view op latestMsg msg h
    obtain ⟨i, x⟩ := kv
    rw [latest] at h
    split_ifs at h
    · rcases ih h with heq | ⟨j, hj⟩
      · exact Or.inr ⟨i, Option.some.inj heq ▸ List.mem_cons_self⟩
      · exact Or.inr ⟨j, List.mem_cons_of_mem _ hj⟩
    · rcases ih h with heq | ⟨j, hj⟩
      · exact Or.inl heq
      · exact Or.inr ⟨j, List.mem_cons_of_mem _ hj⟩

theorem idles_handleDoViewChange (h : Bare r) {msg : DoViewChangeMessage}
    (hentries : msg.entries = []) : Idles r (r.handleDoViewChange c app msg) := by
  unfold handleDoViewChange
  split_ifs with hview
  · exact h.idle
  · exact h.idle
  · have hjoin := h.idle.joinViewChange (Nat.not_lt.mp hview)
    have hle : (r.joinViewChange msg.view).view ≤ msg.view := by
      unfold joinViewChange
      split
      · exact le_rfl
      · exact Nat.not_lt.mp hview
    dsimp only
    generalize r.joinViewChange msg.view = r₁ at hjoin hle
    apply idles_assert_bind
    have hvotes : ∀ kv ∈ QuorumSet.assign msg.replicaIdx msg (r₁.doViewChangeQuorum.messages msg.view),
        kv.2.entries = [] := by
      intro kv hkv
      rcases QuorumSet.mem_assign hkv with rfl | hkv
      · exact hentries
      · exact hjoin.votes msg.view kv hkv
    have hlatest : ∀ x, (latest r₁.log.lastViewstamp.view r₁.log.lastViewstamp.opnum none
        (QuorumSet.assign msg.replicaIdx msg (r₁.doViewChangeQuorum.messages msg.view))).2 = some x →
        x.entries = [] := by
      intro x hx
      rcases mem_of_latest hx with hnone | ⟨i, hi⟩
      · cases hnone
      · exact hvotes (i, x) hi
    dsimp only [QuorumSet.addAndCheckForQuorum]
    generalize QuorumSet.assign msg.replicaIdx msg (r₁.doViewChangeQuorum.messages msg.view) = msgs
      at hvotes hlatest
    have hvoted : Idle r { r₁ with doViewChangeQuorum :=
        ⟨Function.update r₁.doViewChangeQuorum.messages msg.view msgs⟩ } := by
      refine ⟨⟨hjoin.log, hjoin.resendPrepare, hjoin.closeBatch, fun view kv hkv => ?_, hjoin.outbox⟩,
        hjoin.appState, hjoin.upcalls, hjoin.lastCommitted, hjoin.view⟩
      by_cases he : view = msg.view
      · subst he
        dsimp only at hkv
        rw [Function.update_self] at hkv
        exact hvotes kv hkv
      · dsimp only at hkv
        rw [Function.update_of_ne he] at hkv
        exact hjoin.votes view kv hkv
    have hlog := hjoin.log
    split_ifs
    · dsimp only
      generalize latest r₁.log.lastViewstamp.view r₁.log.lastViewstamp.opnum none msgs = found
        at hlatest
      obtain ⟨latestOp, latestMsg⟩ := found
      -- the new leader has the log that it had
      have hentered := (hvoted.enterView (c := c) hle).setLastOp latestOp
      have hstart : ∀ {r₂ : VRReplica A} {first : ℕ}, Idle r r₂ →
          Idles r (inside .handleDoViewChange (r₂.log.dump first) >>= fun entries =>
            .ok (r₂.send (.toAll (.startView ⟨r₂.view, r₂.lastOp, r₂.lastCommitted, entries⟩)))) := by
        intro r₂ first h₂
        rw [h₂.log, Log.dump_empty]
        exact h₂.send rfl
      cases latestMsg with
      | none =>
        apply idles_inside_bind
        intro committedSVC _
        apply idles_inside_bind
        intro committedDVC _
        apply idles_assert_bind
        exact hstart hentered
      | some latestMsg =>
        apply idles_same_bind fun r₂ => installLatest_eq msg (hlatest latestMsg rfl)
        apply idles_inside_bind
        intro committedSVC _
        apply idles_inside_bind
        intro committedDVC _
        apply idles_assert_bind
        apply idles_bind (idles_commitUpTo hentered latestMsg.lastCommitted)
        intro r₂ h₂
        exact hstart h₂
    · exact hvoted

theorem idles_handleStartView (h : Bare r) {msg : StartViewMessage} (hentries : msg.entries = []) :
    Idles r (r.handleStartView c app msg) := by
  unfold handleStartView
  split_ifs with hview
  · exact h.idle
  · exact h.idle
  · apply idles_assert_bind
    apply idles_same_bind fun r₂ => installView_eq hentries
    have hr := h.idle.enterView (c := c) (Nat.not_lt.mp hview)
    apply idles_assert_bind
    apply idles_bind (idles_commitUpTo (hr.setLastOp msg.lastOp) msg.lastCommitted)
    intro r₁ h₁
    exact idles_sendPrepareOKs h₁ _

/-- **A message without requests** makes nobody execute anything. -/
theorem idles_receiveMessage (h : Bare r) (remote : ℕ) {msg : Message} (hmsg : msg.Bare) :
    Idles r (r.receiveMessage c app remote msg) := by
  cases msg with
  | prepare msg => exact hmsg.elim
  | prepareOK msg => exact hmsg.elim
  | commit msg => exact idles_handleCommit h msg
  | requestStateTransfer msg => exact idles_handleRequestStateTransfer h remote msg
  | stateTransfer msg => exact idles_handleStateTransfer h hmsg
  | startViewChange msg => exact idles_handleStartViewChange h msg
  | doViewChange msg => exact idles_handleDoViewChange h hmsg
  | startView msg => exact idles_handleStartView h hmsg

/-! ### Requests -/

/-- `r₁` is `r` after it has executed `req` as the leader. -/
structure RunsRequest (c : Configuration) (app : App A) (req : Request) (r r₁ : VRReplica A) : Prop
    extends Bare r₁ where
  normal : r.status = .normal
  leader : r.amLeader c
  appState : r₁.app = (app.leaderUpcall r.lastCommitted req.op r.app).2.2
  upcalls : r₁.upcalls = r.upcalls ++ [⟨req, (app.leaderUpcall r.lastCommitted req.op r.app).1,
    (app.leaderUpcall r.lastCommitted req.op r.app).2.1⟩]
  lastCommitted : r.lastCommitted ≤ r₁.lastCommitted
  view : r.view ≤ r₁.view

theorem Bare.execute (h : Bare r) (hnormal : r.status = .normal) (hleader : r.amLeader c)
    (remote : ℕ) (req : Request) : RunsRequest c app req r (r.execute app remote req) := by
  unfold VRReplica.execute
  dsimp only
  have hout : ∀ msg, ∀ out ∈ r.outbox ++ [Output.toClient remote msg], out.Bare := by
    intro msg out hmem
    rcases List.mem_append.mp hmem with hmem | hmem
    · exact h.outbox out hmem
    · rw [List.mem_singleton.mp hmem]
      trivial
  split_ifs
  · exact ⟨⟨h.log, h.resendPrepare, h.closeBatch, h.votes, hout _⟩, hnormal, hleader, rfl, rfl,
      Nat.le_succ _, le_rfl⟩
  · exact ⟨⟨h.log, h.resendPrepare, h.closeBatch, h.votes, hout _⟩, hnormal, hleader, rfl, rfl,
      le_rfl, le_rfl⟩

/-- What was done before the request is executed does not matter. -/
theorem RunsRequest.of_idle {r₂ : VRReplica A} {req : Request} (h : Idle r r₁) (hnormal : r.status = .normal)
    (hleader : r.amLeader c) (hexec : RunsRequest c app req r₁ r₂) : RunsRequest c app req r r₂ := by
  refine ⟨hexec.toBare, hnormal, hleader, ?_, ?_, ?_, h.view.trans hexec.view⟩
  · rw [hexec.appState, h.lastCommitted, h.appState]
  · rw [hexec.upcalls, h.lastCommitted, h.appState, h.upcalls]
  · rw [← h.lastCommitted]
    exact hexec.lastCommitted

/-- **A request** is executed by the leader, or not at all. -/
theorem Bare.handleRequest {remote : ℕ} {req : Request} (h : Bare r)
    (hrun : r.handleRequest c app remote req = .ok r₁) : Idle r r₁ ∨ RunsRequest c app req r r₁ := by
  unfold VRReplica.handleRequest at hrun
  by_cases hnormal : r.status = .normal
  · rw [if_neg (not_not.mpr hnormal)] at hrun
    by_cases hleader : r.amLeader c
    · rw [if_neg (not_not.mpr hleader)] at hrun
      dsimp only at hrun
      have hknown : Idle r { r with
          clientAddresses := Function.update r.clientAddresses req.clientid (some remote) } :=
        ⟨⟨h.log, h.resendPrepare, h.closeBatch, h.votes, h.outbox⟩, rfl, rfl, rfl, le_rfl⟩
      split_ifs at hrun
      · obtain rfl := Except.ok.inj hrun
        left
        unfold resendReply
        split
        · exact hknown
        · split_ifs
          · exact hknown.send trivial
          · exact hknown
      · right
        cases hupdate : VRReplica.updateClientTable req { r with
            clientAddresses := Function.update r.clientAddresses req.clientid (some remote) } with
        | error fault =>
          rw [hupdate] at hrun
          cases hrun
        | ok r₂ =>
          rw [hupdate] at hrun
          obtain rfl := Except.ok.inj hrun
          have heq := updateClientTable_eq_ok hupdate
          have hidle : Idle r r₂ := by
            rw [heq]
            exact ⟨⟨h.log, h.resendPrepare, h.closeBatch, h.votes, h.outbox⟩, rfl, rfl, rfl, le_rfl⟩
          apply RunsRequest.of_idle hidle hnormal hleader
          apply hidle.toBare.execute
          · rw [heq]
            exact hnormal
          · rw [heq]
            exact hleader
    · rw [if_pos hleader] at hrun
      obtain rfl := Except.ok.inj hrun
      exact Or.inl h.idle
  · rw [if_pos hnormal] at hrun
    obtain rfl := Except.ok.inj hrun
    exact Or.inl h.idle

end VRReplica

/-! ### Groups -/

namespace Group

open VRReplica (Bare Idle Idles RunsRequest)

variable {A : Type} {c : Configuration} {app : App A} {g g' : Group A}

/-- What an event does to replica `j`: nothing that the application sees, or the replica executes the
request that arrives. -/
inductive Effect (c : Configuration) (app : App A) (e : Event) (j : ℕ) (r r₁ : VRReplica A) : Prop
  | idle (h : Idle r r₁)
  | executes (remote : ℕ) (req : Request) (he : e = .request j remote req)
    (h : RunsRequest c app req r r₁)
  | unlogged (op : Bytes) (he : e = .unloggedRequest j op) (normal : r.status = .normal)
    (h : Idle { r with app := (app.unloggedUpcall op r.app).2 } r₁)

/-- A group without requests in logs and messages. -/
structure AllBare (g : Group A) : Prop where
  replicas : ∀ i, Bare (g.replicas i)
  network : ∀ e ∈ g.network, e.msg.Bare

theorem allBare_init (c : Configuration) (a : ℕ → A) : AllBare (init c a) :=
  ⟨fun i => VRReplica.bare_new i (a i), fun _ he => by cases he⟩

theorem Effect.bare {e : Event} {j : ℕ} {r r₁ : VRReplica A} (h : Effect c app e j r r₁) : Bare r₁ := by
  cases h with
  | idle h => exact h.toBare
  | executes remote req he h => exact h.toBare
  | unlogged op he normal h => exact h.toBare

/-- What the replica has sent is on its way. -/
theorem Effect.clear {e : Event} {j : ℕ} {r r₁ : VRReplica A} (h : Effect c app e j r r₁) :
    Effect c app e j r { r₁ with outbox := [] } := by
  have hbare : Bare { r₁ with outbox := [] } := by
    refine ⟨h.bare.log, h.bare.resendPrepare, h.bare.closeBatch, h.bare.votes, fun out hout => ?_⟩
    cases hout
  cases h with
  | idle h => exact .idle ⟨hbare, h.appState, h.upcalls, h.lastCommitted, h.view⟩
  | executes remote req he h =>
    exact .executes remote req he
      ⟨hbare, h.normal, h.leader, h.appState, h.upcalls, h.lastCommitted, h.view⟩
  | unlogged op he normal h =>
    exact .unlogged op he normal ⟨hbare, h.appState, h.upcalls, h.lastCommitted, h.view⟩

theorem Effect.of_idles {e : Event} {j : ℕ} {r r₁ : VRReplica A} {x : Except Failure (VRReplica A)}
    (h : Idles r x) (hx : x = .ok r₁) : Effect c app e j r r₁ := by
  rw [hx] at h
  exact .idle h

/-- **An event at its replica.** -/
theorem AllBare.handle (h : AllBare g) {e : Event} {i : ℕ} {r₁ : VRReplica A}
    (hhandle : g.handle c app e = some (i, .ok r₁)) : Effect c app e i (g.replicas i) r₁ := by
  cases e with
  | request j remote req =>
    rw [Group.handle] at hhandle
    split_ifs at hhandle
    obtain ⟨rfl, hrun⟩ := Prod.mk.inj (Option.some.inj hhandle)
    rcases (h.replicas j).handleRequest hrun with hidle | hexec
    · exact .idle hidle
    · exact .executes remote req rfl hexec
  | unloggedRequest j op =>
    rw [Group.handle] at hhandle
    split_ifs at hhandle
    obtain ⟨rfl, hrun⟩ := Prod.mk.inj (Option.some.inj hhandle)
    obtain rfl := Except.ok.inj hrun
    have hr := h.replicas j
    unfold VRReplica.handleUnloggedRequest
    split_ifs with hnormal
    · exact .idle hr.idle
    · apply Effect.unlogged op rfl (not_not.mp hnormal)
      exact ⟨⟨hr.log, hr.resendPrepare, hr.closeBatch, hr.votes, hr.outbox⟩, rfl, rfl, rfl, le_rfl⟩
  | deliver k =>
    rw [Group.handle] at hhandle
    split at hhandle
    · cases hhandle
    · rename_i env henv
      obtain ⟨rfl, hrun⟩ := Prod.mk.inj (Option.some.inj hhandle)
      exact .of_idles (VRReplica.idles_receiveMessage (h.replicas _) _
        (h.network env (List.mem_of_getElem? henv))) hrun
  | viewChangeTimeout j =>
    rw [Group.handle] at hhandle
    split_ifs at hhandle
    obtain ⟨rfl, hrun⟩ := Prod.mk.inj (Option.some.inj hhandle)
    obtain rfl := Except.ok.inj hrun
    exact .idle ((h.replicas j).idle.startViewChange (Nat.le_succ _))
  | nullCommitTimeout j =>
    rw [Group.handle] at hhandle
    split_ifs at hhandle
    obtain ⟨rfl, hrun⟩ := Prod.mk.inj (Option.some.inj hhandle)
    refine .of_idles (VRReplica.idles_assert_bind ?_) hrun
    exact (h.replicas j).idle.send trivial
  | stateTransferTimeout j =>
    rw [Group.handle] at hhandle
    split_ifs at hhandle
    obtain ⟨rfl, hrun⟩ := Prod.mk.inj (Option.some.inj hhandle)
    obtain rfl := Except.ok.inj hrun
    have hr := h.replicas j
    exact .idle ⟨⟨hr.log, hr.resendPrepare, hr.closeBatch, hr.votes, hr.outbox⟩, rfl, rfl, rfl, le_rfl⟩
  | resendPrepareTimeout j =>
    -- the timer is never started
    rw [Group.handle] at hhandle
    split_ifs at hhandle with hrunning
    rw [(h.replicas j).resendPrepare] at hrunning
    cases hrunning.2
  | closeBatchTimeout j =>
    rw [Group.handle] at hhandle
    split_ifs at hhandle with hrunning
    rw [(h.replicas j).closeBatch] at hrunning
    cases hrunning.2

theorem bare_envelopes {out : Output} (h : out.Bare) {i : ℕ} {e : Envelope}
    (he : e ∈ out.envelopes c i) : e.msg.Bare := by
  cases out with
  | toAll msg =>
    obtain ⟨j, -, rfl⟩ := List.mem_map.mp he
    exact h
  | toReplica j msg =>
    rw [List.mem_singleton.mp he]
    exact h
  | toClient remote msg => cases he

/-- **A step** keeps logs and messages without requests. -/
theorem AllBare.step (h : AllBare g) {e : Event} (hstep : step c app g e = some g') :
    AllBare g' ∧ ∀ j, Effect c app e j (g.replicas j) (g'.replicas j) := by
  unfold Group.step at hstep
  split at hstep
  · rename_i i r₁ hhandle
    obtain rfl := Option.some.inj hstep
    have heffect := h.handle hhandle
    have hall : ∀ j, Effect c app e j (g.replicas j) ((g.post c i r₁).replicas j) := by
      intro j
      by_cases he : j = i
      · subst he
        rw [replicas_post_self]
        exact heffect.clear
      · rw [replicas_post_of_ne g he]
        exact .idle (h.replicas j).idle
    refine ⟨⟨fun j => (hall j).bare, fun env henv => ?_⟩, hall⟩
    rcases List.mem_append.mp henv with henv | henv
    · exact h.network env henv
    · obtain ⟨out, hout, henv⟩ := List.mem_flatMap.mp henv
      exact bare_envelopes (heffect.bare.outbox out hout) henv
  · cases hstep

theorem allBare_runs {a : ℕ → A} {events : List Event}
    (h : runs (step c app) (init c a) events = some g) : AllBare g :=
  runs_inv (allBare_init c a) (fun _ _ _ hg hstep => (hg.step hstep).1) h

/-- **Nothing is replicated.**  In every state of every run all logs are empty and no message has a
request in it, and an event changes the application of a replica only if it is a request that the
replica executes itself: a logged one as the leader of its view. -/
theorem nothing_replicated (c : Configuration) (app : App A) (a : ℕ → A) (events : List Event)
    (g : Group A) (h : runs (step c app) (init c a) events = some g) :
    (∀ i, (g.replicas i).log = {}) ∧ (∀ e ∈ g.network, e.msg.Bare) ∧
      ∀ e g', step c app g e = some g' →
        ∀ j, Effect c app e j (g.replicas j) (g'.replicas j) := by
  have hbare := allBare_runs h
  exact ⟨fun i => (hbare.replicas i).log, hbare.network, fun e g' hstep => (hbare.step hstep).2⟩

/-- A request to the leader, which is replicated, and a view change. -/
def changeEvents : List Event :=
  [.request 0 7 ⟨[], 1, 1⟩, .viewChangeTimeout 1, .deliver 1]

theorem nothing_replicated_change :
    ∃ g, runs (step ⟨1⟩ replicating) (init ⟨1⟩ fun _ => ()) changeEvents = some g ∧
      (∀ i, (g.replicas i).log = {}) ∧ ∀ e ∈ g.network, e.msg.Bare := by
  have hrun : (runs (step ⟨1⟩ replicating) (init ⟨1⟩ fun _ => ()) changeEvents).isSome := by
    decide +kernel
  obtain ⟨g, h⟩ := Option.isSome_iff_exists.mp hrun
  obtain ⟨hlog, hnetwork, -⟩ := nothing_replicated ⟨1⟩ replicating (fun _ => ()) changeEvents g h
  exact ⟨g, h, hlog, hnetwork⟩

/-! ### Timestamps -/

/-- The timestamps that a replica has handed out. -/
def timestamps (g : Group TimeStampServer) (i : ℕ) : List Bytes := (g.replicas i).upcalls.map (·.res)

/-- A server has handed out the numbers from one on. -/
structure Counts (r : VRReplica TimeStampServer) : Prop where
  ts : r.app.ts = r.upcalls.length
  results : r.upcalls.map (·.res) = (List.range' 1 r.upcalls.length).map toDecimal

theorem Counts.effect {e : Event} {j : ℕ} {r r₁ : VRReplica TimeStampServer} (h : Counts r)
    (heffect : Effect c TimeStampServer.app e j r r₁) : Counts r₁ := by
  cases heffect with
  | idle hidle =>
    constructor
    · rw [hidle.appState, hidle.upcalls]
      exact h.ts
    · rw [hidle.upcalls]
      exact h.results
  | executes remote req he hexec =>
    constructor
    · rw [hexec.appState, hexec.upcalls, List.length_append]
      exact congrArg (· + 1) h.ts
    · rw [hexec.upcalls, List.map_append, List.length_append, h.results, List.length_singleton,
        List.range'_concat, List.map_append]
      congr 1
      show [toDecimal (r.app.ts + 1)] = [toDecimal (1 + 1 * r.upcalls.length)]
      rw [h.ts]
      congr 2
      omega
  | unlogged op he normal hidle =>
    constructor
    · rw [hidle.appState, hidle.upcalls]
      exact h.ts
    · rw [hidle.upcalls]
      exact h.results

theorem counts_runs {events : List Event} {g : Group TimeStampServer}
    (h : runs (step c TimeStampServer.app) (init c fun _ => {}) events = some g) (i : ℕ) :
    Counts (g.replicas i) := by
  have hall : AllBare g ∧ ∀ i, Counts (g.replicas i) := by
    apply runs_inv (P := fun g => AllBare g ∧ ∀ i, Counts (g.replicas i)) _ _ h
    · exact ⟨allBare_init c _, fun i => ⟨rfl, rfl⟩⟩
    · rintro g₁ e g₂ ⟨hbare, hcounts⟩ hstep
      obtain ⟨hbare', heffect⟩ := hbare.step hstep
      exact ⟨hbare', fun j => (hcounts j).effect (heffect j)⟩
  exact hall.2 i

/-- **Timestamps are unique as long as one replica is asked.**  Every replica hands out the numbers
from one on, so in a run all timestamps are distinct exactly when only one replica has executed
requests. -/
theorem timestamps_distinct_iff (c : Configuration) (events : List Event) (g : Group TimeStampServer)
    (h : runs (step c TimeStampServer.app) (init c fun _ => {}) events = some g) :
    (∀ i, g.timestamps i = (List.range' 1 (g.replicas i).upcalls.length).map toDecimal) ∧
      ((∀ (i j k l : ℕ) (t : Bytes), (g.timestamps i)[k]? = some t → (g.timestamps j)[l]? = some t →
          i = j ∧ k = l) ↔
        ∀ i j, (g.replicas i).upcalls ≠ [] → (g.replicas j).upcalls ≠ [] → i = j) := by
  have hresults : ∀ i, g.timestamps i =
      (List.range' 1 (g.replicas i).upcalls.length).map toDecimal := fun i => (counts_runs h i).results
  have hget : ∀ (i k : ℕ) (t : Bytes), (g.timestamps i)[k]? = some t →
      k < (g.replicas i).upcalls.length ∧ t = toDecimal (1 + k) := by
    intro i k t hk
    rw [hresults i, List.getElem?_map] at hk
    obtain ⟨n, hn, rfl⟩ := Option.map_eq_some_iff.mp hk
    obtain ⟨hlt, hn⟩ := List.getElem?_eq_some_iff.mp hn
    rw [List.length_range'] at hlt
    rw [List.getElem_range'] at hn
    exact ⟨hlt, by rw [← hn, Nat.one_mul]⟩
  refine ⟨hresults, fun hdistinct i j hi hj => ?_, fun hone i j k l t hk hl => ?_⟩
  · -- both have handed out the first number
    have hfirst : ∀ i, (g.replicas i).upcalls ≠ [] → (g.timestamps i)[0]? = some (toDecimal 1) := by
      intro i hi
      rw [hresults i, List.getElem?_map, List.getElem?_range']
      · rfl
      · exact List.length_pos_iff.mpr hi
    exact (hdistinct i j 0 0 _ (hfirst i hi) (hfirst j hj)).1
  · obtain ⟨hki, hkt⟩ := hget i k t hk
    obtain ⟨hlj, hlt⟩ := hget j l t hl
    obtain rfl := hone i j (List.ne_nil_of_length_pos (by omega)) (List.ne_nil_of_length_pos (by omega))
    have heq := toDecimal_injective (hkt.symm.trans hlt)
    exact ⟨rfl, by omega⟩

/-- A request to replica 0, a change to view 1 and a request to replica 1. -/
def twoLeaders : List Event :=
  [.request 0 7 ⟨[], 1, 1⟩, .viewChangeTimeout 1, .deliver 1, .deliver 3, .deliver 4,
    .request 1 7 ⟨[], 1, 2⟩]

theorem timestamps_distinct_iff_twoLeaders :
    ∃ g, runs (step ⟨1⟩ TimeStampServer.app) (init ⟨1⟩ fun _ => {}) twoLeaders = some g ∧
      ¬ ∀ (i j k l : ℕ) (t : Bytes), (g.timestamps i)[k]? = some t →
        (g.timestamps j)[l]? = some t → i = j ∧ k = l := by
  have hrun : ((runs (step ⟨1⟩ TimeStampServer.app) (init ⟨1⟩ fun _ => {}) twoLeaders).map fun g =>
      ((g.replicas 0).upcalls.isEmpty, (g.replicas 1).upcalls.isEmpty)) = some (false, false) := by
    decide +kernel
  obtain ⟨g, h, hup⟩ := Option.map_eq_some_iff.mp hrun
  obtain ⟨h0, h1⟩ := Prod.mk.inj hup
  refine ⟨g, h, fun hdistinct => ?_⟩
  have hone := (timestamps_distinct_iff ⟨1⟩ twoLeaders g h).2.mp hdistinct 0 1
    (List.isEmpty_eq_false_iff.mp h0) (List.isEmpty_eq_false_iff.mp h1)
  exact absurd hone (by decide)

end Group

end LedgerDatabase.Distributed.Vr
