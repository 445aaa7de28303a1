import LedgerDatabase.Distributed.TimeServer
import LedgerDatabase.Distributed.Vr.Group

/-!
# The logs of a group

A leader that executes a request which the application wants to be replicated counts it and does
not append it to its log.  As long as no leader does that, every log is empty, all counters are
zero and so is everything in a message (`Quiet`); the first one that does has a log that is too
short.  So the logs are sound in all states of a run exactly when no request is replicated in it
(`sound_iff`).
-/

namespace LedgerDatabase.Distributed.Vr

open Run

/-! ### Quiet messages and replicas -/

/-- A message of a group in which nothing has been replicated. -/
def Message.Quiet : Message → Prop
  | .prepare _ => False
  | .prepareOK _ => False
  | .commit msg => msg.opnum = 0
  | .requestStateTransfer _ => True
  | .stateTransfer msg => msg.opnum = 0 ∧ msg.entries = []
  | .startViewChange _ => True
  | .doViewChange msg => msg.lastNormalView = 0 ∧ msg.lastOp = 0
  | .startView msg => msg.lastOp = 0 ∧ msg.lastCommitted = 0 ∧ msg.entries = []

def Output.Quiet : Output → Prop
  | .toAll msg => msg.Quiet
  | .toReplica _ msg => msg.Quiet
  | .toClient .. => True

/-- The functions that the invariant is about. -/
def Failure.Elsewhere (failure : Failure) : Prop :=
  failure.site ≠ .commitUpTo ∧ failure.site ≠ .sendPrepareOKs ∧
    failure.site ≠ .handleStateTransfer

theorem Log.dump_empty (first : ℕ) : ({} : Log).dump first = .ok [] := by
  have hlast : ({} : Log).lastOpnum = 0 := rfl
  rw [dump, hlast, show 0 + 1 - max first 1 = 0 by omega]
  rfl

theorem QuorumSet.mem_assign {MSG : Type} {replicaIdx : ℕ} {msg : MSG} {l : List (ℕ × MSG)}
    {kv : ℕ × MSG} (h : kv ∈ assign replicaIdx msg l) : kv = (replicaIdx, msg) ∨ kv ∈ l := by
  induction l with
  | nil => exact Or.inl (List.mem_singleton.mp h)
  | cons e l ih =>
    obtain ⟨i, m⟩ := e
    rw [assign] at h
    split_ifs at h with h₁ h₂
    · subst h₁
      rcases List.mem_cons.mp h with h | h
      · exact Or.inl h
      · exact Or.inr (List.mem_cons_of_mem _ h)
    · rcases List.mem_cons.mp h with h | h
      · exact Or.inl h
      · exact Or.inr h
    · rcases List.mem_cons.mp h with h | h
      · exact Or.inr (h ▸ List.mem_cons_self)
      · exact (ih h).imp_right (List.mem_cons_of_mem _)

namespace VRReplica

variable {A : Type} {c : Configuration} {app : App A} {r r' : VRReplica A}

/-- A replica of a group in which nothing has been replicated. -/
structure Quiet (r : VRReplica A) : Prop where
  log : r.log = {}
  lastOp : r.lastOp = 0
  lastCommitted : r.lastCommitted = 0
  votes : ∀ view, ∀ kv ∈ r.doViewChangeQuorum.messages view,
    kv.2.lastNormalView = 0 ∧ kv.2.lastOp = 0
  outbox : ∀ out ∈ r.outbox, out.Quiet

theorem quiet_new (myIdx : ℕ) (a : A) : Quiet (new c myIdx a) := by
  constructor
  · rfl
  · rfl
  · rfl
  · intro view kv hkv
    cases hkv
  · intro out hout
    cases hout

namespace Quiet

theorem send (h : Quiet r) {out : Output} (hout : out.Quiet) : Quiet (r.send out) := by
  refine ⟨h.log, h.lastOp, h.lastCommitted, h.votes, fun out' hout' => ?_⟩
  rcases List.mem_append.mp hout' with hout' | hout'
  · exact h.outbox out' hout'
  · rwa [List.mem_singleton.mp hout']

theorem requestStateTransfer (h : Quiet r) : Quiet r.requestStateTransfer := by
  unfold VRReplica.requestStateTransfer
  split
  · exact h
  · refine send ?_ trivial
    exact ⟨h.log, h.lastOp, h.lastCommitted, h.votes, h.outbox⟩

theorem startViewChange (h : Quiet r) (newview : ℕ) : Quiet (r.startViewChange newview) := by
  refine send ?_ trivial
  exact ⟨h.log, h.lastOp, h.lastCommitted, h.votes, h.outbox⟩

theorem joinViewChange (h : Quiet r) (view : ℕ) : Quiet (r.joinViewChange view) := by
  unfold VRReplica.joinViewChange
  split
  · exact h.startViewChange view
  · exact h

theorem enterView (h : Quiet r) (newview : ℕ) : Quiet (r.enterView c newview) := by
  unfold VRReplica.enterView
  dsimp only
  split
  · exact ⟨h.log, h.lastOp, h.lastCommitted, fun _ _ hkv => (by cases hkv), h.outbox⟩
  · exact ⟨h.log, h.lastOp, h.lastCommitted, fun _ _ hkv => (by cases hkv), h.outbox⟩

/-- There is nothing to commit. -/
theorem commitUpTo (h : Quiet r) : r.commitUpTo app 0 = .ok r := by
  rw [VRReplica.commitUpTo, h.lastCommitted]
  rfl

/-- There is nothing to acknowledge. -/
theorem sendPrepareOKs (h : Quiet r) : r.sendPrepareOKs c 0 = .ok r := by
  rw [VRReplica.sendPrepareOKs, h.lastOp]
  change sendPrepareOKsLoop c [0] r = .ok r
  rw [sendPrepareOKsLoop, if_pos (Nat.zero_le _), sendPrepareOKsLoop]

end Quiet

/-! ### Handlers -/

/-- A handler keeps the replica quiet, or it stops the replica elsewhere. -/
def Calm : Except Failure (VRReplica A) → Prop
  | .ok r => Quiet r
  | .error failure => failure.Elsewhere

theorem calm_assert_bind {site : Site} (hsite : ∀ fault, (Failure.mk site fault).Elsewhere)
    {p : Prop} [Decidable p] {x : Except Failure (VRReplica A)} (h : p → Calm x) :
    Calm (assert site p >>= fun _ => x) := by
  by_cases hp : p
  · rw [assert, if_pos hp]
    exact h hp
  · rw [assert, if_neg hp]
    exact hsite _

theorem calm_inside_bind {site : Site} (hsite : ∀ fault, (Failure.mk site fault).Elsewhere)
    {α : Type} {x : Except Fault α} {f : α → Except Failure (VRReplica A)}
    (h : ∀ a, x = .ok a → Calm (f a)) : Calm (inside site x >>= f) := by
  cases x with
  | error fault => exact hsite fault
  | ok a => exact h a rfl

theorem calm_handleCommit (h : Quiet r) {msg : CommitMessage} (hmsg : msg.opnum = 0) :
    Calm (r.handleCommit c app msg) := by
  unfold handleCommit
  split_ifs
  · exact h
  · exact h
  · exact h.requestStateTransfer
  · exact ⟨by simp, by simp, by simp⟩
  · dsimp only
    rw [if_pos (by omega)]
    exact ⟨h.log, h.lastOp, h.lastCommitted, h.votes, h.outbox⟩

theorem calm_handleRequestStateTransfer (h : Quiet r) (remote : ℕ)
    (msg : RequestStateTransferMessage) : Calm (r.handleRequestStateTransfer remote msg) := by
  unfold handleRequestStateTransfer
  split_ifs
  · exact h
  · exact h.requestStateTransfer
  · rw [h.log, Log.dump_empty]
    exact h.send ⟨h.lastCommitted, rfl⟩

theorem calm_handleStateTransfer (h : Quiet r) {msg : StateTransferMessage} (hop : msg.opnum = 0)
    (hentries : msg.entries = []) : Calm (r.handleStateTransfer c app msg) := by
  unfold handleStateTransfer
  split_ifs
  · exact h
  · have hr : Quiet (if msg.view > r.view then r.enterView c msg.view else r) := by
      split
      · exact h.enterView msg.view
      · exact h
    generalize hr₁ : (if msg.view > r.view then r.enterView c msg.view else r) = r₁ at hr
    have hassert : assert .handleStateTransfer (0 ≤ r₁.lastOp) = .ok () := if_pos (Nat.zero_le _)
    rw [hentries, hop, h.lastOp, installLoop]
    dsimp only [bind, Except.bind]
    rw [hr₁, hassert]
    dsimp only
    rw [hr.commitUpTo]
    dsimp only
    rw [hr.sendPrepareOKs]
    exact ⟨hr.log, hr.lastOp, hr.lastCommitted, hr.votes, hr.outbox⟩

theorem calm_handleStartViewChange (h : Quiet r) (msg : StartViewChangeMessage) :
    Calm (r.handleStartViewChange c msg) := by
  unfold handleStartViewChange
  split_ifs
  · exact h
  · exact h
  · have hr := h.joinViewChange msg.view
    refine calm_assert_bind (fun _ => ⟨by simp, by simp, by simp⟩) fun _ => ?_
    dsimp only [QuorumSet.addAndCheckForQuorum]
    split
    · exact ⟨hr.log, hr.lastOp, hr.lastCommitted, hr.votes, hr.outbox⟩
    · split_ifs
      · exact ⟨hr.log, hr.lastOp, hr.lastCommitted, hr.votes, hr.outbox⟩
      · refine calm_inside_bind (fun _ => ⟨by simp, by simp, by simp⟩) fun committed _ => ?_
        refine calm_inside_bind (fun _ => ⟨by simp, by simp, by simp⟩) fun entries _ => ?_
        change Quiet (VRReplica.send _ _)
        refine Quiet.send ?_ ?_
        · exact ⟨hr.log, hr.lastOp, hr.lastCommitted, hr.votes, hr.outbox⟩
        · refine ⟨?_, hr.lastOp⟩
          change (VRReplica.log (r.joinViewChange msg.view)).lastViewstamp.view = 0
          rw [hr.log]
          rfl

/-- No vote has a more recent log. -/
theorem latest_eq {msgs : List (ℕ × DoViewChangeMessage)}
    (h : ∀ kv ∈ msgs, kv.2.lastNormalView = 0 ∧ kv.2.lastOp = 0) :
    latest 0 0 none msgs = (0, none) := by
  induction msgs with
  | nil => rfl
  | cons kv msgs ih =>
    obtain ⟨i, x⟩ := kv
    obtain ⟨hview, hop⟩ := h (i, x) (List.mem_cons_self ..)
    dsimp only at hview hop
    rw [latest, if_neg (by omega)]
    exact ih fun kv hkv => h kv (List.mem_cons_of_mem _ hkv)

theorem calm_handleDoViewChange (h : Quiet r) {msg : DoViewChangeMessage}
    (hview : msg.lastNormalView = 0) (hop : msg.lastOp = 0) :
    Calm (r.handleDoViewChange c app msg) := by
  unfold handleDoViewChange
  split_ifs
  · exact h
  · exact h
  · have hr := h.joinViewChange msg.view
    refine calm_assert_bind (fun _ => ⟨by simp, by simp, by simp⟩) fun _ => ?_
    have hvotes : ∀ kv ∈ QuorumSet.assign msg.replicaIdx msg
        ((r.joinViewChange msg.view).doViewChangeQuorum.messages msg.view),
        kv.2.lastNormalView = 0 ∧ kv.2.lastOp = 0 := by
      intro kv hkv
      rcases QuorumSet.mem_assign hkv with rfl | hkv
      · exact ⟨hview, hop⟩
      · exact hr.votes msg.view kv hkv
    have hr₁ : Quiet { r.joinViewChange msg.view with
        doViewChangeQuorum := ⟨Function.update (r.joinViewChange msg.view).doViewChangeQuorum.messages
          msg.view (QuorumSet.assign msg.replicaIdx msg
            ((r.joinViewChange msg.view).doViewChangeQuorum.messages msg.view))⟩ } := by
      refine ⟨hr.log, hr.lastOp, hr.lastCommitted, fun view kv hkv => ?_, hr.outbox⟩
      by_cases he : view = msg.view
      · subst he
        dsimp only at hkv
        rw [Function.update_self] at hkv
        exact hvotes kv hkv
      · dsimp only at hkv
        rw [Function.update_of_ne he] at hkv
        exact hr.votes view kv hkv
    have hlast : (r.joinViewChange msg.view).log.lastViewstamp = ⟨0, 0⟩ := by
      rw [hr.log]
      rfl
    dsimp only [QuorumSet.addAndCheckForQuorum]
    split_ifs
    · dsimp only
      rw [hlast]
      dsimp only
      rw [latest_eq hvotes]
      refine calm_inside_bind (fun _ => ⟨by simp, by simp, by simp⟩) fun committedSVC _ => ?_
      refine calm_inside_bind (fun _ => ⟨by simp, by simp, by simp⟩) fun committedDVC _ => ?_
      refine calm_assert_bind (fun _ => ⟨by simp, by simp, by simp⟩) fun _ => ?_
      have hr₂ := hr₁.enterView (c := c) msg.view
      refine calm_inside_bind (fun _ => ⟨by simp, by simp, by simp⟩) fun entries hentries => ?_
      have hnil : entries = [] := by
        have hlog := hr₂.log
        dsimp only at hentries
        rw [hlog, Log.dump_empty] at hentries
        exact (Except.ok.inj hentries).symm
      refine Quiet.send ?_ ⟨rfl, hr₂.lastCommitted, hnil⟩
      exact ⟨hr₂.log, rfl, hr₂.lastCommitted, hr₂.votes, hr₂.outbox⟩
    · exact hr₁

theorem calm_handleStartView (h : Quiet r) {msg : StartViewMessage} (hop : msg.lastOp = 0)
    (hcommitted : msg.lastCommitted = 0) (hentries : msg.entries = []) :
    Calm (r.handleStartView c app msg) := by
  unfold handleStartView
  split_ifs
  · exact h
  · exact h
  · refine calm_assert_bind (fun _ => ⟨by simp, by simp, by simp⟩) fun _ => ?_
    have hinstall : r.installView msg = .ok r := by
      rw [installView, hentries, hop, hcommitted, h.lastCommitted]
      rfl
    have hr := h.enterView (c := c) msg.view
    have hr₁ : Quiet { r.enterView c msg.view with lastOp := msg.lastOp } :=
      ⟨hr.log, hop, hr.lastCommitted, hr.votes, hr.outbox⟩
    rw [hinstall]
    refine calm_assert_bind (fun _ => ⟨by simp, by simp, by simp⟩) fun _ => ?_
    rw [hcommitted, hr.lastOp]
    rw [hr₁.commitUpTo]
    change Calm (VRReplica.sendPrepareOKs c 0 _)
    rw [hr₁.sendPrepareOKs]
    exact hr₁

/-- A handler of a quiet message. -/
theorem calm_receiveMessage (h : Quiet r) (remote : ℕ) {msg : Message} (hmsg : msg.Quiet) :
    Calm (r.receiveMessage c app remote msg) := by
  cases msg with
  | prepare msg => exact hmsg.elim
  | prepareOK msg => exact hmsg.elim
  | commit msg => exact calm_handleCommit h hmsg
  | requestStateTransfer msg => exact calm_handleRequestStateTransfer h remote msg
  | stateTransfer msg => exact calm_handleStateTransfer h hmsg.1 hmsg.2
  | startViewChange msg => exact calm_handleStartViewChange h msg
  | doViewChange msg => exact calm_handleDoViewChange h hmsg.1 hmsg.2
  | startView msg => exact calm_handleStartView h hmsg.1 hmsg.2.1 hmsg.2.2

theorem updateClientTable_eq_ok {req : Request} (h : r.updateClientTable req = .ok r') :
    r' = { r with clientTable := r'.clientTable } := by
  unfold updateClientTable at h
  dsimp only at h
  split_ifs at h
  · obtain rfl := Except.ok.inj h
    rfl
  · obtain rfl := Except.ok.inj h
    rfl

/-- A request that is executed and wants to be replicated only counts. -/
theorem handleRequest_replicate {remote : ℕ} {req : Request} (hnormal : r.status = .normal)
    (hleader : r.amLeader c) (hdup : ¬ r.isDuplicate req)
    (hreplicate : (app.leaderUpcall r.lastCommitted req.op r.app).1)
    (h : r.handleRequest c app remote req = .ok r') :
    r'.log = r.log ∧ r'.lastOp = r.lastOp + 1 := by
  unfold handleRequest at h
  rw [if_neg (by simp [hnormal]), if_neg (by simp [hleader])] at h
  change (if r.isDuplicate req then _ else _) = _ at h
  rw [if_neg hdup] at h
  cases hupdate : updateClientTable req { r with
      clientAddresses := Function.update r.clientAddresses req.clientid (some remote) } with
  | error fault =>
    rw [hupdate] at h
    cases h
  | ok r₁ =>
    rw [hupdate] at h
    obtain rfl := Except.ok.inj h
    rw [updateClientTable_eq_ok hupdate]
    simp [execute, hreplicate, VRReplica.send]

/-- A request that is not replicated. -/
theorem calm_handleRequest (h : Quiet r) (remote : ℕ) {req : Request}
    (hnot : ¬ (r.status = .normal ∧ r.amLeader c ∧ ¬ r.isDuplicate req ∧
      (app.leaderUpcall r.lastCommitted req.op r.app).1)) :
    Calm (r.handleRequest c app remote req) := by
  unfold handleRequest
  by_cases hnormal : r.status = .normal
  · rw [if_neg (by simp [hnormal])]
    by_cases hleader : r.amLeader c
    · rw [if_neg (by simp [hleader])]
      dsimp only
      by_cases hdup : r.isDuplicate req
      · refine (if_pos hdup).symm ▸ ?_
        change Quiet (resendReply remote req _)
        unfold resendReply
        split
        · exact ⟨h.log, h.lastOp, h.lastCommitted, h.votes, h.outbox⟩
        · split_ifs
          · refine Quiet.send ?_ trivial
            exact ⟨h.log, h.lastOp, h.lastCommitted, h.votes, h.outbox⟩
          · exact ⟨h.log, h.lastOp, h.lastCommitted, h.votes, h.outbox⟩
      · have hreplicate : ¬ (app.leaderUpcall r.lastCommitted req.op r.app).1 :=
          fun hr => hnot ⟨hnormal, hleader, hdup, hr⟩
        refine (if_neg hdup).symm ▸ ?_
        refine calm_inside_bind (fun _ => ⟨by simp, by simp, by simp⟩) fun r₁ hupdate => ?_
        rw [updateClientTable_eq_ok hupdate]
        change Quiet (execute app remote req _)
        simp only [execute, hreplicate, if_false, Bool.false_eq_true]
        refine Quiet.send ?_ trivial
        exact ⟨h.log, h.lastOp, h.lastCommitted, h.votes, h.outbox⟩
    · rw [if_pos (by simp [hleader])]
      exact h
  · rw [if_pos hnormal]
    exact h

theorem elsewhere_handleRequest {remote : ℕ} {req : Request} {failure : Failure}
    (h : r.handleRequest c app remote req = .error failure) : failure.Elsewhere := by
  unfold handleRequest at h
  dsimp only at h
  split_ifs at h
  rcases hupdate : updateClientTable req { r with
      clientAddresses := Function.update r.clientAddresses req.clientid (some remote) } with
    fault | r₁
  · rw [hupdate] at h
    obtain rfl := Except.error.inj h
    exact ⟨by simp, by simp, by simp⟩
  · rw [hupdate] at h
    cases h

end VRReplica

/-! ### Groups -/

namespace Group

open VRReplica (Quiet Calm)

variable {A : Type} {c : Configuration} {app : App A} {g g' : Group A}

/-- A group in which nothing has been replicated. -/
structure AllQuiet (g : Group A) : Prop where
  replicas : ∀ i, Quiet (g.replicas i)
  network : ∀ e ∈ g.network, e.msg.Quiet

theorem allQuiet_init (c : Configuration) (a : ℕ → A) : AllQuiet (init c a) :=
  ⟨fun i => VRReplica.quiet_new i (a i), fun _ he => by cases he⟩

/-- **An event in a quiet group** that replicates nothing. -/
theorem AllQuiet.calm (h : AllQuiet g) {e : Event} (hnot : ¬ g.Replicates c app e) {i : ℕ}
    {x : Except Failure (VRReplica A)} (hhandle : g.handle c app e = some (i, x)) : Calm x := by
  cases e with
  | request j remote req =>
    rw [handle] at hhandle
    split_ifs at hhandle with hj
    obtain ⟨-, rfl⟩ := Prod.mk.inj (Option.some.inj hhandle)
    exact VRReplica.calm_handleRequest (h.replicas j) remote fun hr => hnot ⟨hj, hr⟩
  | unloggedRequest j op =>
    rw [handle] at hhandle
    split_ifs at hhandle
    obtain ⟨-, rfl⟩ := Prod.mk.inj (Option.some.inj hhandle)
    have hq := h.replicas j
    change Quiet (VRReplica.handleUnloggedRequest app op _)
    unfold VRReplica.handleUnloggedRequest
    split
    · exact hq
    · exact ⟨hq.log, hq.lastOp, hq.lastCommitted, hq.votes, hq.outbox⟩
  | deliver k =>
    rw [handle] at hhandle
    split at hhandle
    · cases hhandle
    · rename_i env henv
      obtain ⟨-, rfl⟩ := Prod.mk.inj (Option.some.inj hhandle)
      exact VRReplica.calm_receiveMessage (h.replicas _) _
        (h.network env (List.mem_of_getElem? henv))
  | viewChangeTimeout j =>
    rw [handle] at hhandle
    split_ifs at hhandle
    obtain ⟨-, rfl⟩ := Prod.mk.inj (Option.some.inj hhandle)
    exact (h.replicas j).startViewChange _
  | nullCommitTimeout j =>
    rw [handle] at hhandle
    split_ifs at hhandle
    obtain ⟨-, rfl⟩ := Prod.mk.inj (Option.some.inj hhandle)
    have hq := h.replicas j
    refine VRReplica.calm_assert_bind (fun _ => ⟨by simp, by simp, by simp⟩) fun _ => ?_
    exact hq.send hq.lastCommitted
  | stateTransferTimeout j =>
    rw [handle] at hhandle
    split_ifs at hhandle
    obtain ⟨-, rfl⟩ := Prod.mk.inj (Option.some.inj hhandle)
    have hq := h.replicas j
    exact ⟨hq.log, hq.lastOp, hq.lastCommitted, hq.votes, hq.outbox⟩
  | resendPrepareTimeout j =>
    rw [handle] at hhandle
    split_ifs at hhandle
    obtain ⟨-, rfl⟩ := Prod.mk.inj (Option.some.inj hhandle)
    have hq := h.replicas j
    refine VRReplica.calm_assert_bind (fun _ => ⟨by simp, by simp, by simp⟩) fun _ => ?_
    rw [if_pos (hq.lastOp.trans hq.lastCommitted.symm)]
    exact hq
  | closeBatchTimeout j =>
    rw [handle] at hhandle
    split_ifs at hhandle
    obtain ⟨-, rfl⟩ := Prod.mk.inj (Option.some.inj hhandle)
    -- there is no batch to close
    refine VRReplica.calm_assert_bind (fun _ => ⟨by simp, by simp, by simp⟩) fun _ => ?_
    refine VRReplica.calm_assert_bind (fun _ => ⟨by simp, by simp, by simp⟩) fun hlt => ?_
    rw [(h.replicas j).lastOp] at hlt
    exact absurd hlt (Nat.not_lt_zero _)

/-- What a quiet replica sends is quiet. -/
theorem quiet_envelopes {out : Output} (h : out.Quiet) {i : ℕ} {e : Envelope}
    (he : e ∈ out.envelopes c i) : e.msg.Quiet := by
  cases out with
  | toAll msg =>
    obtain ⟨j, -, rfl⟩ := List.mem_map.mp he
    exact h
  | toReplica j msg =>
    rw [List.mem_singleton.mp he]
    exact h
  | toClient remote msg => cases he

theorem replicas_post_self (g : Group A) (i : ℕ) (r : VRReplica A) :
    (g.post c i r).replicas i = { r with outbox := [] } :=
  Function.update_self ..

theorem replicas_post_of_ne (g : Group A) {i j : ℕ} (h : j ≠ i) (r : VRReplica A) :
    (g.post c i r).replicas j = g.replicas j :=
  Function.update_of_ne h ..

theorem allQuiet_step (h : AllQuiet g) {e : Event} (hnot : ¬ g.Replicates c app e)
    (hstep : step c app g e = some g') : AllQuiet g' := by
  unfold step at hstep
  split at hstep
  · rename_i i r hhandle
    obtain rfl := Option.some.inj hstep
    have hr : Quiet r := h.calm hnot hhandle
    constructor
    · intro j
      by_cases he : j = i
      · subst he
        rw [replicas_post_self]
        exact ⟨hr.log, hr.lastOp, hr.lastCommitted, hr.votes, fun _ ho => by cases ho⟩
      · rw [replicas_post_of_ne g he]
        exact h.replicas j
    · intro env henv
      rcases List.mem_append.mp henv with henv | henv
      · exact h.network env henv
      · obtain ⟨out, hout, henv⟩ := List.mem_flatMap.mp henv
        exact quiet_envelopes (hr.outbox out hout) henv
  · cases hstep

/-- A quiet group is sound. -/
theorem AllQuiet.sound (h : AllQuiet g) : g.Sound c app := by
  constructor
  · intro i _
    have hq := h.replicas i
    rw [LogInv, hq.log, hq.lastOp, hq.lastCommitted]
    exact ⟨rfl, le_rfl⟩
  · intro e failure hstops
    unfold stops at hstops
    split at hstops
    · rename_i i failure' hhandle
      obtain rfl := Option.some.inj hstops
      cases e with
      | request j remote req =>
        rw [handle] at hhandle
        split_ifs at hhandle
        obtain ⟨-, hx⟩ := Prod.mk.inj (Option.some.inj hhandle)
        exact VRReplica.elsewhere_handleRequest hx
      | _ =>
        change Calm (A := A) (.error failure')
        refine h.calm ?_ hhandle
        exact fun hr => hr
    · cases hstops

/-- **Replicating a request** leaves a log that is too short. -/
theorem not_sound_of_replicates (h : g.Sound c app) {e : Event} (hr : g.Replicates c app e)
    (hstep : step c app g e = some g') : ¬ g'.Sound c app := by
  cases e with
  | request i remote req =>
    obtain ⟨hi, hnormal, hleader, hdup, hreplicate⟩ := hr
    rw [step, handle, if_pos hi] at hstep
    split at hstep
    · rename_i j r hhandle
      obtain rfl := Option.some.inj hstep
      obtain ⟨rfl, hx⟩ := Prod.mk.inj (Option.some.inj hhandle)
      obtain ⟨hlog, hop⟩ :=
        VRReplica.handleRequest_replicate hnormal hleader hdup hreplicate hx
      intro hsound
      -- the log holds as many entries as before
      have hbefore := congrArg List.length (h.1 i hi).1
      have hafter := congrArg List.length (hsound.1 i hi).1
      rw [replicas_post_self] at hafter
      simp only [List.length_map, List.length_range', hlog, hop] at hbefore hafter
      omega
    · cases hstep
  | _ => exact hr.elim

/-- **The logs are sound in all states of a run exactly when nothing is replicated in it.** -/
theorem sound_iff (c : Configuration) (app : App A) (a : ℕ → A) (events : List Event)
    (g : Group A) (h : runs (step c app) (init c a) events = some g) :
    (∀ pre, pre <+: events → ∀ g', runs (step c app) (init c a) pre = some g' → g'.Sound c app) ↔
      Along (step c app) (fun g e => ¬ g.Replicates c app e) (init c a) events := by
  constructor
  · revert h
    induction events using List.reverseRecOn generalizing g with
    | nil => exact fun _ _ => trivial
    | append_singleton events e ih =>
      intro h hsound
      obtain ⟨g₁, h₁, hstep⟩ := runs_concat_eq_some.mp h
      refine along_concat.mpr ⟨?_, fun g₂ h₂ hr => ?_⟩
      · exact ih g₁ h₁ fun pre hpre => hsound pre (hpre.trans (List.prefix_append _ _))
      · obtain rfl := Option.some.inj (h₁.symm.trans h₂)
        have hbefore := hsound events (List.prefix_append _ _) g₁ h₁
        exact not_sound_of_replicates hbefore hr hstep (hsound _ (List.prefix_refl _) g h)
  · intro halong pre hpre g' h'
    have hquiet : AllQuiet g' :=
      runs_induction_along (motive := fun _ g => AllQuiet g) (allQuiet_init c a)
        (fun _ _ _ _ _ hq hnot hstep => allQuiet_step hq hnot hstep) (halong.of_prefix hpre) h'
    exact hquiet.sound

/-- A request to three timestamp servers, and a null commit. -/
def timestampEvents : List Event := [.request 0 7 ⟨[], 1, 1⟩, .nullCommitTimeout 0, .deliver 0]

theorem sound_iff_timestamps :
    ∃ g, runs (step ⟨1⟩ TimeStampServer.app) (init ⟨1⟩ fun _ => {}) timestampEvents = some g ∧
      g.Sound ⟨1⟩ TimeStampServer.app := by
  have hrun : (runs (step ⟨1⟩ TimeStampServer.app) (init ⟨1⟩ fun _ => {})
      timestampEvents).isSome := by decide +kernel
  have halong : Along (step ⟨1⟩ TimeStampServer.app)
      (fun g e => ¬ g.Replicates ⟨1⟩ TimeStampServer.app e) (init ⟨1⟩ fun _ => {})
      timestampEvents := by decide +kernel
  obtain ⟨g, h⟩ := Option.isSome_iff_exists.mp hrun
  exact ⟨g, h, (sound_iff ⟨1⟩ TimeStampServer.app (fun _ => {}) timestampEvents g h).mpr halong _
    (List.prefix_refl _) g h⟩

/-- An application that wants every request to be replicated. -/
def replicating : App Unit where
  leaderUpcall _ _ _ := (true, [], ())
  replicaUpcall _ _ _ := ([], ())
  unloggedUpcall _ _ := ([], ())

/-- The leader executes a request; its null commit makes replica 1 ask for the state. -/
def replicatedEvents : List Event :=
  [.request 0 7 ⟨[], 1, 1⟩, .nullCommitTimeout 0, .deliver 0, .deliver 2]

theorem not_sound_replicated :
    ¬ ∀ (A : Type) (c : Configuration) (app : App A) (a : ℕ → A) (events : List Event)
        (g : Group A), runs (step c app) (init c a) events = some g → g.Sound c app := by
  intro hclaim
  -- the answer to replica 1 says that operation 1 is committed and has no entries
  have hstops : (runs (step ⟨1⟩ replicating) (init ⟨1⟩ fun _ => ()) replicatedEvents).bind
      (fun g => g.stops ⟨1⟩ replicating (.deliver 4)) =
        some ⟨.handleStateTransfer, .assertion⟩ := by decide +kernel
  obtain ⟨g, h, hstops⟩ := Option.bind_eq_some_iff.mp hstops
  obtain ⟨-, hsound⟩ := hclaim Unit ⟨1⟩ replicating (fun _ => ()) replicatedEvents g h
  exact (hsound _ _ hstops).2.2 rfl

end Group

end LedgerDatabase.Distributed.Vr
