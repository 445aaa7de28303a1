import LedgerDatabase.Common.Equiv.Bytes
import LedgerDatabase.Distributed.Promises
import Mathlib.Data.List.Perm.Basic
import Mathlib.Order.Basic

/-!
# Every promise goes its own way

As long as no verification request times out, the promise in `waiting` is the one of the only
request of a transaction that is under way (`Inv.request`), and a verification request finds its own
promise in the table (`Inv.promise`).  The timeout of a verification request completes what is in
`waiting`, which is never its own promise.
-/

namespace LedgerDatabase.Distributed.ShardState

open Run

variable {build : Build} {s s' : ShardState}

/-- The calls that are posted and those whose requests are pending. -/
def live (s : ShardState) : List Posted :=
  s.timers ++ s.pendingReqs.entries.map fun e => ⟨e.2.call, e.2.continuation.txn?⟩

/-- What holds of the calls that are under way. -/
structure Live (s : ShardState) (live : List Posted) : Prop where
  nodup : (live.map (·.call)).Nodup
  lt : ∀ x ∈ live, x.call < s.calls
  notCompleted : ∀ x ∈ live, x.call ∉ s.completed
  /-- At most one of them is for a transaction. -/
  one : ∀ x ∈ live, ∀ y ∈ live, x.txn.isSome → y.txn.isSome → x = y
  /-- `Client` waits for it. -/
  busy : ∀ x ∈ live, ∀ t, x.txn = some t →
    if t.promised then x.call ∈ s.issued else s.blockingBegin = some false
  verify : ∀ x ∈ live, x.txn = none → x.call ∉ s.issued

/-- The invariant of the runs in which no verification request times out. -/
structure Inv (s : ShardState) : Prop where
  routed : Routed s
  live : Live s s.live
  waiting : ∀ w, s.waiting = some w → w ∈ s.issued ∧ w ∉ s.completed
  timer : ∀ x ∈ s.timers, x.txn.isSome → s.waiting = none
  request : ∀ r req, (r, req) ∈ s.pendingReqs → ∀ t, req.continuation = .txn t →
    s.waiting = if t.promised then some req.call else none
  promise : ∀ r req, (r, req) ∈ s.pendingReqs → ∀ uid, req.continuation = .verify uid →
    s.verifyPromise.lookup uid = some (some req.call)
  uid : ∀ e ∈ s.verifyPromise, e.1 < s.uid
  reqId : ∀ r ∈ s.pendingReqs.keys, r ≤ s.lastReqId
  issued : ∀ c ∈ s.issued, c < s.calls
  completed : ∀ c ∈ s.completed, c < s.calls

theorem inv_init : Inv {} where
  routed := ⟨List.nodup_nil, fun _ h => absurd h List.not_mem_nil, fun _ h => absurd h List.not_mem_nil⟩
  live := by constructor <;> simp [ShardState.live]
  waiting _ h := by cases h
  timer _ h := absurd h List.not_mem_nil
  request _ _ h := absurd h (SortedMap.notMem_empty _)
  promise _ _ h := absurd h (SortedMap.notMem_empty _)
  uid _ h := absurd h List.not_mem_nil
  reqId _ h := absurd h List.not_mem_nil
  issued _ h := absurd h List.not_mem_nil
  completed _ h := absurd h List.not_mem_nil

theorem Routed.congr (h : Routed s) (hcompletions : s'.completions = s.completions)
    (htimedOut : s'.timedOut = s.timedOut) : Routed s' where
  once := by
    rw [ShardState.completed, hcompletions]
    exact h.once
  own := by
    rw [hcompletions]
    exact h.own
  timeout := by
    rw [hcompletions, htimedOut]
    exact h.timeout

/-! ### The calls under way -/

variable {x : Posted} {l l' : List Posted}

theorem Live.perm (h : Live s l) (hl : l.Perm l') : Live s l' where
  nodup := (hl.map _).nodup_iff.mp h.nodup
  lt y hy := h.lt y (hl.mem_iff.mpr hy)
  notCompleted y hy := h.notCompleted y (hl.mem_iff.mpr hy)
  one y hy z hz := h.one y (hl.mem_iff.mpr hy) z (hl.mem_iff.mpr hz)
  busy y hy := h.busy y (hl.mem_iff.mpr hy)
  verify y hy := h.verify y (hl.mem_iff.mpr hy)

theorem Live.tail (h : Live s (x :: l)) : Live s l where
  nodup := (List.nodup_cons.mp h.nodup).2
  lt y hy := h.lt y (List.mem_cons_of_mem x hy)
  notCompleted y hy := h.notCompleted y (List.mem_cons_of_mem x hy)
  one y hy z hz := h.one y (List.mem_cons_of_mem x hy) z (List.mem_cons_of_mem x hz)
  busy y hy := h.busy y (List.mem_cons_of_mem x hy)
  verify y hy := h.verify y (List.mem_cons_of_mem x hy)

/-- Another call has another number. -/
theorem Live.call_ne (h : Live s (x :: l)) {y : Posted} (hy : y ∈ l) : y.call ≠ x.call := fun heq =>
  (List.nodup_cons.mp h.nodup).1 (List.mem_map.mpr ⟨y, hy, heq⟩)

/-- Next to a request of a transaction there are only verification requests. -/
theorem Live.others (h : Live s (x :: l)) (hx : x.txn.isSome) : ∀ y ∈ l, y.txn = none := by
  intro y hy
  by_contra hne
  have heq := h.one x List.mem_cons_self y (List.mem_cons_of_mem x hy) hx
    (Option.isSome_iff_ne_none.mpr hne)
  exact h.call_ne hy (congrArg Posted.call heq.symm)

/-- The other calls stay under way when one is completed. -/
theorem Live.of_completed (h : Live s (x :: l)) (hcalls : s'.calls = s.calls)
    (hcompleted : ∀ c ∈ s'.completed, c ∈ s.completed ∨ c = x.call) (hissued : s'.issued = s.issued)
    (hbusy : s'.blockingBegin = s.blockingBegin ∨ x.txn.isSome) : Live s' l where
  nodup := h.tail.nodup
  lt y hy := by
    rw [hcalls]
    exact h.tail.lt y hy
  notCompleted y hy hmem := by
    rcases hcompleted _ hmem with hmem | heq
    · exact h.tail.notCompleted y hy hmem
    · exact h.call_ne hy heq
  one := h.tail.one
  busy y hy t ht := by
    rcases hbusy with hb | hx
    · rw [hissued, hb]
      exact h.tail.busy y hy t ht
    · rw [h.others hx y hy] at ht
      cases ht
  verify y hy := by
    rw [hissued]
    exact h.tail.verify y hy

/-- A new call comes under way. -/
theorem Live.cons (h : Live s l) (hcall : x.call = s.calls) (hcalls : s'.calls = s.calls + 1)
    (hnew : s.calls ∉ s.completed) (hcompleted : s'.completed = s.completed)
    (hissued : s'.issued = s.issued ∨ s'.issued = s.issued ++ [s.calls])
    (hbusy : ∀ t, x.txn = some t →
      if t.promised then x.call ∈ s'.issued else s'.blockingBegin = some false)
    (hverify : x.txn = none → x.call ∉ s'.issued ∧ s'.blockingBegin = s.blockingBegin)
    (hothers : x.txn.isSome → ∀ y ∈ l, y.txn = none) : Live s' (x :: l) where
  nodup := by
    refine List.nodup_cons.mpr ⟨fun hmem => ?_, h.nodup⟩
    obtain ⟨y, hy, heq⟩ := List.mem_map.mp hmem
    exact (h.lt y hy).ne (heq.trans hcall)
  lt y hy := by
    rcases List.mem_cons.mp hy with rfl | hy
    · omega
    · have := h.lt y hy
      omega
  notCompleted y hy := by
    rw [hcompleted]
    rcases List.mem_cons.mp hy with rfl | hy
    · rwa [hcall]
    · exact h.notCompleted y hy
  one y hy z hz hy' hz' := by
    rcases List.mem_cons.mp hy with rfl | hyl <;> rcases List.mem_cons.mp hz with rfl | hzl
    · rfl
    · simp [hothers hy' z hzl] at hz'
    · simp [hothers hz' y hyl] at hy'
    · exact h.one y hyl z hzl hy' hz'
  busy y hy t ht := by
    rcases List.mem_cons.mp hy with rfl | hy
    · exact hbusy t ht
    · cases hx : x.txn with
      | some t' => simp [hothers (by simp [hx]) y hy] at ht
      | none =>
        rw [(hverify hx).2]
        have hb := h.busy y hy t ht
        rcases hissued with hi | hi <;> rw [hi]
        · exact hb
        · split at hb
          · rw [if_pos ‹_›]
            exact List.mem_append_left _ hb
          · rwa [if_neg ‹_›]
  verify y hy hnone := by
    rcases List.mem_cons.mp hy with rfl | hy
    · exact (hverify hnone).1
    · have hv := h.verify y hy hnone
      rcases hissued with hi | hi <;> rw [hi]
      · exact hv
      · simpa [hv] using (h.lt y hy).ne

/-! ### Calls -/

theorem live_perm_of_request {r : ℕ} {req : PendingRequest} (hr : (r, req) ∈ s.pendingReqs) :
    s.live.Perm (⟨req.call, req.continuation.txn?⟩ :: (s.erase r).live) := by
  rw [ShardState.live, ShardState.live, erase]
  refine (List.Perm.append_left _ ((SortedMap.perm_erase hr).map _)).trans ?_
  exact List.perm_middle

theorem live_perm_of_timer {i : ℕ} {posted : Posted} (hi : s.timers[i]? = some posted) :
    s.live.Perm (posted :: ({ s with timers := s.timers.eraseIdx i } : ShardState).live) := by
  obtain ⟨hlt, rfl⟩ := List.getElem?_eq_some_iff.mp hi
  exact List.Perm.append_right _ (List.getElem_cons_eraseIdx_perm hlt).symm

/-- `Client` issues a request of a transaction only when no other is under way. -/
theorem Inv.txn_eq_none (h : Inv s) (hidle : s.Idle) : ∀ y ∈ s.live, y.txn = none := by
  intro y hy
  cases hy' : y.txn with
  | none => rfl
  | some t =>
    have hb := h.live.busy y hy t hy'
    split at hb
    · exact absurd (hidle.1 _ hb) (h.live.notCompleted y hy)
    · exact absurd hb hidle.2

theorem Inv.waiting_eq_none (h : Inv s) (hidle : s.Idle) : s.waiting = none := by
  cases hw : s.waiting with
  | none => rfl
  | some w => exact absurd (hidle.1 w (h.waiting w hw).1) (h.waiting w hw).2

theorem Inv.fresh (h : Inv s) : s.calls ∉ s.completed := fun hmem => (h.completed _ hmem).false

theorem issued_callTxn (s : ShardState) (t : TxnCall) :
    (s.callTxn t).issued = s.issued ∨ (s.callTxn t).issued = s.issued ++ [s.calls] := by
  rw [ShardState.callTxn]
  cases t.promised
  · exact Or.inl rfl
  · exact Or.inr rfl

theorem Inv.callTxn (h : Inv s) (hidle : s.Idle) (t : TxnCall) : Inv (s.callTxn t) where
  routed := h.routed.congr rfl rfl
  live := by
    have hnone := h.txn_eq_none hidle
    refine Live.perm (h.live.cons (x := ⟨s.calls, some t⟩) rfl rfl h.fresh rfl
      (issued_callTxn s t) ?_ ?_ ?_) ?_
    · intro t' ht
      obtain rfl := Option.some.inj ht
      cases t with
      | batchGet | getRange | prepare => simp [ShardState.callTxn, TxnCall.promised]
      | commit promised | abort promised =>
        cases promised <;> simp [ShardState.callTxn, TxnCall.promised, TxnCall.blocksBegin]
    · intro hnone
      cases hnone
    · exact fun _ => hnone
    · rw [ShardState.live, ShardState.live, ShardState.callTxn, List.append_assoc]
      exact List.perm_middle.symm
  waiting w hw := by
    rw [ShardState.callTxn, h.waiting_eq_none hidle] at hw
    cases hw
  timer _ _ _ := h.waiting_eq_none hidle
  request r req hr t' ht := h.request r req hr t' ht
  promise := h.promise
  uid := h.uid
  reqId := h.reqId
  issued c hc := by
    change c < s.calls + 1
    rcases issued_callTxn s t with heq | heq <;> rw [heq] at hc
    · exact (h.issued c hc).trans (Nat.lt_succ_self _)
    · rcases List.mem_append.mp hc with hc | hc
      · exact (h.issued c hc).trans (Nat.lt_succ_self _)
      · rw [List.mem_singleton.mp hc]
        exact Nat.lt_succ_self _
  completed c hc := (h.completed c hc).trans (Nat.lt_succ_self _)

theorem Inv.postVerify (h : Inv s) : Inv s.postVerify where
  routed := h.routed.congr rfl rfl
  live := by
    refine Live.perm (h.live.cons (x := ⟨s.calls, none⟩) rfl rfl h.fresh rfl (Or.inl rfl) ?_ ?_ ?_) ?_
    · intro t ht
      cases ht
    · exact fun _ => ⟨fun hmem => (h.issued _ hmem).false, rfl⟩
    · intro ht
      cases ht
    · rw [ShardState.live, ShardState.live, ShardState.postVerify, List.append_assoc]
      exact List.perm_middle.symm
  waiting := h.waiting
  timer x hx ht := by
    rcases List.mem_append.mp hx with hx | hx
    · exact h.timer x hx ht
    · rw [List.mem_singleton.mp hx] at ht
      cases ht
  request := h.request
  promise := h.promise
  uid := h.uid
  reqId := h.reqId
  issued c hc := (h.issued c hc).trans (Nat.lt_succ_self _)
  completed c hc := (h.completed c hc).trans (Nat.lt_succ_self _)

/-- A completion of an open promise by its own call. -/
theorem Routed.complete (h : Routed s) {promise : ℕ} {cause : Cause} {timedOut : List ℕ}
    (hnew : promise ∉ s.completed) (hown : promise = cause.call)
    (htimedOut : timedOut = s.timedOut ∨
      timedOut = s.timedOut ++ [promise] ∧ cause = .timeout promise)
    (hcompletions : s'.completions = s.completions ++ [⟨promise, cause⟩])
    (htimedOut' : s'.timedOut = timedOut) : Routed s' where
  once := by
    rw [completed, hcompletions, List.map_append, ← completed]
    refine List.nodup_append.mpr ⟨h.once, List.nodup_singleton _, fun c hc c' hc' heq => ?_⟩
    rw [heq, List.mem_singleton.mp hc'] at hc
    exact hnew hc
  own c hc := by
    rw [hcompletions] at hc
    rcases List.mem_append.mp hc with hc | hc
    · exact h.own c hc
    · rw [List.mem_singleton.mp hc]
      exact hown
  timeout call hcall := by
    rw [hcompletions]
    rw [htimedOut'] at hcall
    rcases htimedOut with heq | ⟨heq, rfl⟩ <;> rw [heq] at hcall
    · exact List.mem_append_left _ (h.timeout call hcall)
    · rcases List.mem_append.mp hcall with hcall | hcall
      · exact List.mem_append_left _ (h.timeout call hcall)
      · rw [List.mem_singleton.mp hcall]
        exact List.mem_append_right _ (List.mem_singleton_self _)

/-- A call that sends no request completes its own promise. -/
theorem Inv.refuse (h : Inv s) :
    Inv ({ s with calls := s.calls + 1 }.complete s.calls (.refusal s.calls)) where
  routed := h.routed.complete h.fresh rfl (Or.inl rfl) rfl rfl
  live :=
    { nodup := h.live.nodup
      lt := fun x hx => (h.live.lt x hx).trans (Nat.lt_succ_self _)
      notCompleted := fun x hx hmem => by
        rw [ShardState.completed, complete, List.map_append] at hmem
        rcases List.mem_append.mp hmem with hmem | hmem
        · exact h.live.notCompleted x hx hmem
        · exact (h.live.lt x hx).ne (List.mem_singleton.mp hmem)
      one := h.live.one
      busy := h.live.busy
      verify := h.live.verify }
  waiting w hw := by
    refine ⟨(h.waiting w hw).1, fun hmem => ?_⟩
    rw [ShardState.completed, complete, List.map_append] at hmem
    rcases List.mem_append.mp hmem with hmem | hmem
    · exact (h.waiting w hw).2 hmem
    · exact (h.issued w (h.waiting w hw).1).ne (List.mem_singleton.mp hmem)
  timer := h.timer
  request := h.request
  promise := h.promise
  uid := h.uid
  reqId := h.reqId
  issued c hc := (h.issued c hc).trans (Nat.lt_succ_self _)
  completed c hc := by
    rw [ShardState.completed, complete, List.map_append] at hc
    rcases List.mem_append.mp hc with hc | hc
    · exact (h.completed c hc).trans (Nat.lt_succ_self _)
    · rw [List.mem_singleton.mp hc]
      exact Nat.lt_succ_self _

theorem Inv.callVerify (h : Inv s) (v : VerifyCall) : Inv (s.callVerify v) := by
  cases v with
  | audit seq => exact h.postVerify
  | getProof block =>
    rw [ShardState.callVerify]
    split
    · exact h.refuse
    · exact h.postVerify

theorem Inv.begin (h : Inv s) (hs : s.begin = some s') : Inv s' := by
  rw [ShardState.begin] at hs
  split at hs
  · obtain rfl := Option.some.inj hs
    exact h
  · rename_i hb
    obtain rfl := Option.some.inj hs
    refine { h with routed := h.routed.congr rfl rfl, live := { h.live with busy := ?_ } }
    -- nothing under way waits for `blockingBegin`
    intro x hx t ht
    have hbusy := h.live.busy x hx t ht
    split at hbusy
    · rwa [if_pos ‹_›]
    · rw [hb] at hbusy
      cases hbusy
  · cases hs

/-! ### Timers -/

theorem mem_erase_iff {r r' : ℕ} {req : PendingRequest} :
    (r', req) ∈ (s.erase r).pendingReqs ↔ r' ≠ r ∧ (r', req) ∈ s.pendingReqs :=
  SortedMap.mem_erase

/-- A request goes out. -/
theorem Inv.invoke {call : ℕ} {c : Continuation} {sent : Bool} (h : Inv s)
    (hlive : Live s (⟨call, c.txn?⟩ :: s.live))
    (hrequest : ∀ t, c = .txn t → s.waiting = if t.promised then some call else none)
    (hpromise : ∀ uid, c = .verify uid → s.verifyPromise.lookup uid = some (some call)) :
    Inv (s.invoke sent ⟨call, c⟩) := by
  have hfresh : s.lastReqId + 1 ∉ s.pendingReqs.keys := fun hmem => by
    have := h.reqId _ hmem
    omega
  cases sent with
  | false =>
    refine { h with routed := h.routed.congr rfl rfl, live := { h.live with }, reqId := ?_ }
    exact fun r hr => (h.reqId r hr).trans (Nat.le_succ _)
  | true =>
    have hperm : (s.invoke true ⟨call, c⟩).live.Perm (⟨call, c.txn?⟩ :: s.live) := by
      rw [ShardState.live, ShardState.live, ShardState.invoke]
      refine (List.Perm.append_left _ ((SortedMap.perm_assign hfresh).map _)).trans ?_
      exact List.perm_middle
    have hmem (r : ℕ) (req : PendingRequest) :
        (r, req) ∈ (s.invoke true ⟨call, c⟩).pendingReqs → req = ⟨call, c⟩ ∨
          (r, req) ∈ s.pendingReqs := by
      intro hr
      rcases SortedMap.mem_assign.mp hr with ⟨-, hreq⟩ | ⟨-, hr⟩
      · exact Or.inl hreq
      · exact Or.inr hr
    refine { h with
      routed := h.routed.congr rfl rfl
      live := Live.perm { hlive with } hperm.symm
      request := ?_
      promise := ?_
      reqId := ?_ }
    · intro r req hr t ht
      rcases hmem r req hr with rfl | hr
      · exact hrequest t ht
      · exact h.request r req hr t ht
    · intro r req hr uid hc
      rcases hmem r req hr with rfl | hr
      · exact hpromise uid hc
      · exact h.promise r req hr uid hc
    · intro r hr
      obtain ⟨req, hr⟩ := SortedMap.mem_keys.mp hr
      rcases SortedMap.mem_assign.mp hr with ⟨rfl, -⟩ | ⟨-, hr⟩
      · exact le_rfl
      · exact (h.reqId r (SortedMap.mem_keys.mpr ⟨req, hr⟩)).trans (Nat.le_succ _)

/-- A posted function of a transaction finds nothing else of a transaction under way. -/
theorem Inv.fire {i : ℕ} {posted : Posted} (h : Inv s) (hi : s.timers[i]? = some posted)
    (sent : Bool) : Inv ({ s with timers := s.timers.eraseIdx i }.fire posted sent) := by
  have hlive := h.live.perm (live_perm_of_timer hi)
  have hmem : posted ∈ s.timers := List.mem_of_getElem? hi
  have hsub : s.timers.eraseIdx i ⊆ s.timers := List.eraseIdx_subset
  obtain ⟨call, txn⟩ := posted
  cases txn with
  | some t =>
    have hothers := hlive.others rfl
    have hbusy := hlive.busy _ List.mem_cons_self t rfl
    refine Inv.invoke { h with
      routed := h.routed.congr rfl rfl
      live := { hlive.tail with }
      waiting := ?_
      timer := ?_
      request := ?_ } { hlive with } ?_ ?_
    · intro w hw
      simp only at hw
      split at hw
      · obtain rfl := Option.some.inj hw
        rw [if_pos ‹_›] at hbusy
        exact ⟨hbusy, hlive.notCompleted _ List.mem_cons_self⟩
      · cases hw
    · intro x hx hx'
      rw [hothers x (List.mem_append_left _ hx)] at hx'
      cases hx'
    · intro r req hr t' ht'
      have hx := hothers _ (List.mem_append_right _ (List.mem_map_of_mem hr))
      simp only [ht', Continuation.txn?] at hx
      cases hx
    · intro t' ht'
      obtain rfl := Continuation.txn.inj ht'
      rfl
    · intro uid hc
      cases hc
  | none =>
    have hnone : s.verifyPromise.lookup s.uid = none := by
      refine List.lookup_eq_none_iff.mpr fun e he => ?_
      simpa using (h.uid e he).ne'
    have hlookup (uid : ℕ) (p : Option ℕ) (hp : s.verifyPromise.lookup uid = some p) :
        List.lookup uid ((s.uid, some call) :: s.verifyPromise) = some p := by
      have hne : uid ≠ s.uid := by
        rintro rfl
        rw [hnone] at hp
        cases hp
      rwa [List.lookup_cons, beq_eq_false_iff_ne.mpr hne]
    rw [ShardState.fire, emplacePromise]
    simp only [hnone, Option.isSome_none, Bool.false_eq_true, if_false]
    refine Inv.invoke { h with
      routed := h.routed.congr rfl rfl
      live := { hlive.tail with }
      timer := fun x hx => h.timer x (hsub hx)
      promise := ?_
      uid := ?_ } { hlive with } ?_ ?_
    · exact fun r req hr uid hc => hlookup uid _ (h.promise r req hr uid hc)
    · intro e he
      rcases List.mem_cons.mp he with rfl | he
      · exact Nat.lt_succ_self _
      · exact (h.uid e he).trans (Nat.lt_succ_self _)
    · intro t ht
      cases ht
    · intro uid hc
      obtain rfl := Continuation.verify.inj hc
      exact List.lookup_cons_self

/-! ### Replies and timeouts -/

theorem lookup_filter_ne (m : List (ℕ × Option ℕ)) {uid uid' : ℕ} (h : uid' ≠ uid) :
    (m.filter fun e => e.1 != uid).lookup uid' = m.lookup uid' := by
  induction m with
  | nil => rfl
  | cons e m ih =>
    rw [List.filter_cons]
    by_cases he : e.1 = uid
    · rw [if_neg (by simp [he]), ih, List.lookup_cons, he, beq_eq_false_iff_ne.mpr h]
    · rw [if_pos (by simpa using he), List.lookup_cons, List.lookup_cons, ih]

theorem Inv.erase (h : Inv s) {r : ℕ} {req : PendingRequest} (hr : (r, req) ∈ s.pendingReqs) :
    Inv (s.erase r) :=
  { h with
    routed := h.routed.congr rfl rfl
    live := { (h.live.perm (live_perm_of_request hr)).tail with }
    request := fun r' req' hr' => h.request r' req' (mem_erase_iff.mp hr').2
    promise := fun r' req' hr' => h.promise r' req' (mem_erase_iff.mp hr').2
    reqId := fun r' hr' => by
      obtain ⟨req', hr'⟩ := SortedMap.mem_keys.mp hr'
      exact h.reqId r' (SortedMap.mem_keys.mpr ⟨req', (mem_erase_iff.mp hr').2⟩) }

/-- **The end of a request of a transaction**: its own promise is in `waiting`. -/
theorem Inv.replyWaiting (h : Inv s) {r : ℕ} {call : ℕ} {t : TxnCall}
    (hr : (r, ⟨call, .txn t⟩) ∈ s.pendingReqs) {cause : Cause} (hcause : cause.call = call)
    {tip : ℕ} {blocking : Option Bool} {timedOut : List ℕ}
    (htimedOut : timedOut = s.timedOut ∨
      timedOut = s.timedOut ++ [call] ∧ cause = .timeout call ∧ t.promised) :
    Inv (({ s.erase r with tipBlock := tip, blockingBegin := blocking, timedOut } :
      ShardState).replyWaiting cause) := by
  have hlive := h.live.perm (live_perm_of_request hr)
  have hothers := hlive.others rfl
  have hinv := h.erase hr
  have hwaiting := h.request r _ hr t rfl
  have hopen : call ∉ s.completed := hlive.notCompleted _ List.mem_cons_self
  have hcall : call < s.calls := hlive.lt _ List.mem_cons_self
  have hrequest : ∀ r' req, (r', req) ∈ (s.erase r).pendingReqs → ∀ t', req.continuation ≠ .txn t' := by
    intro r' req hr' t' ht'
    have hx := hothers _ (List.mem_append_right _ (List.mem_map_of_mem hr'))
    simp only [ht', Continuation.txn?] at hx
    cases hx
  rw [ShardState.replyWaiting]
  by_cases hp : t.promised
  · -- the promise of the request
    rw [if_pos hp] at hwaiting
    simp only [ShardState.erase, hwaiting]
    have hcompleted (c : ℕ)
        (hc : c ∈ List.map Completed.promise (s.completions ++ [⟨call, cause⟩])) :
        c ∈ s.completed ∨ c = call := by
      rw [List.map_append] at hc
      exact (List.mem_append.mp hc).imp_right List.mem_singleton.mp
    refine { hinv with
      routed := h.routed.complete hopen hcause.symm ?_ rfl rfl
      live := hlive.of_completed rfl hcompleted rfl (Or.inr rfl)
      waiting := ?_
      timer := fun _ _ _ => rfl
      request := fun r' req hr' t' ht' => absurd ht' (hrequest r' req hr' t')
      completed := ?_ }
    · exact htimedOut.imp_right fun ⟨heq, hcause, _⟩ => ⟨heq, hcause⟩
    · intro w hw
      cases hw
    · intro c hc
      rcases hcompleted c hc with hc | rfl
      · exact h.completed c hc
      · exact hcall
  · -- nobody waits
    rw [if_neg hp] at hwaiting
    simp only [ShardState.erase, hwaiting]
    have htimedOut' : timedOut = s.timedOut := by
      rcases htimedOut with heq | ⟨-, -, hp'⟩
      · exact heq
      · exact absurd hp' hp
    exact { hinv with
      routed := h.routed.congr rfl htimedOut'
      live := hlive.of_completed rfl (fun _ => Or.inl) rfl (Or.inr rfl)
      waiting := fun _ hw => nomatch hw
      timer := fun _ _ _ => rfl
      request := fun r' req hr' t' ht' => absurd ht' (hrequest r' req hr' t') }

theorem updateTip_eq (build : Build) (reply : Reply) (s : ShardState) :
    ∃ tip, s.updateTip build reply = { s with tipBlock := tip } := by
  rw [updateTip]
  split
  · exact ⟨_, rfl⟩
  · exact ⟨s.tipBlock, rfl⟩

/-- The callbacks of transactions are `replyWaiting`, up to what the shard reports. -/
theorem callback_txn {reply : Reply} {call : ℕ} {t : TxnCall}
    (hs : s.callback build reply ⟨call, .txn t⟩ = some s') :
    ∃ tip blocking, s' = { s with tipBlock := tip, blockingBegin := blocking }.replyWaiting
      (.reply call) := by
  have hunblock (s₁ : ShardState) (h₁ : s.unblockBegin reply = some s₁) :
      s₁ = { s with blockingBegin := some true } := by
    rw [unblockBegin] at h₁
    split at h₁
    · exact (Option.some.inj h₁).symm
    · cases h₁
  cases t with
  | batchGet | getRange =>
    obtain ⟨tip, htip⟩ := updateTip_eq build reply s
    refine ⟨tip, s.blockingBegin, ?_⟩
    rw [← Option.some.inj hs, batchGetCallback, htip]
  | prepare => exact ⟨s.tipBlock, s.blockingBegin, (Option.some.inj hs).symm⟩
  | commit promised =>
    obtain ⟨s₁, h₁, rfl⟩ := Option.map_eq_some_iff.mp hs
    obtain ⟨tip, htip⟩ := updateTip_eq build reply s₁
    refine ⟨tip, some true, ?_⟩
    rw [htip, hunblock s₁ h₁]
  | abort promised =>
    obtain ⟨s₁, h₁, rfl⟩ := Option.map_eq_some_iff.mp hs
    refine ⟨s.tipBlock, some true, ?_⟩
    rw [hunblock s₁ h₁]

/-- The number of a promise is that of one request. -/
theorem Inv.verifyCallback (h : Inv s) {r call uid : ℕ} {reply : Reply}
    (hr : (r, ⟨call, .verify uid⟩) ∈ s.pendingReqs) :
    Inv ((s.erase r).verifyCallback uid call reply) := by
  have hlive := h.live.perm (live_perm_of_request hr)
  have hinv := h.erase hr
  have hpromise : s.verifyPromise.lookup uid = some (some call) := h.promise r _ hr uid rfl
  have hopen : call ∉ s.completed := hlive.notCompleted _ List.mem_cons_self
  have hcompleted (c : ℕ)
      (hc : c ∈ List.map Completed.promise (s.completions ++ [⟨call, .reply call⟩])) :
      c ∈ s.completed ∨ c = call := by
    rw [List.map_append] at hc
    exact (List.mem_append.mp hc).imp_right List.mem_singleton.mp
  rw [ShardState.verifyCallback]
  simp only [ShardState.erase, hpromise]
  refine { hinv with
    routed := h.routed.complete hopen rfl (Or.inl rfl) rfl rfl
    live := hlive.of_completed rfl hcompleted rfl (Or.inl rfl)
    waiting := ?_
    promise := ?_
    uid := fun e he => h.uid e (List.mem_of_mem_filter he)
    completed := ?_ }
  · intro w hw
    refine ⟨(h.waiting w hw).1, fun hc => ?_⟩
    rcases hcompleted w hc with hc | rfl
    · exact (h.waiting w hw).2 hc
    · exact hlive.verify _ List.mem_cons_self rfl (h.waiting _ hw).1
  · intro r' req hr' uid' hc
    have hlookup := h.promise r' req (mem_erase_iff.mp hr').2 uid' hc
    have hne : uid' ≠ uid := by
      rintro rfl
      have hcall := Option.some.inj (Option.some.inj (hlookup.symm.trans hpromise))
      exact hlive.call_ne (List.mem_append_right _ (List.mem_map_of_mem hr')) hcall
    rw [← hlookup]
    exact lookup_filter_ne s.verifyPromise hne
  · intro c hc
    rcases hcompleted c hc with hc | rfl
    · exact h.completed c hc
    · exact hlive.lt _ List.mem_cons_self

/-- `verifyCallback` is `GetProofCallback` without the checks. -/
theorem verifyCallback_eq {H : Bytes → Hash} {uid call : ℕ} {keys : List Bytes} {reply : Reply}
    {client : ShardClient} {c : Option Completion}
    (hs : s.toShardClient.getProofCallback H uid keys reply = .ok (client, c)) :
    (s.verifyCallback uid call reply).toShardClient = client ∧
      (s.verifyCallback uid call reply).completions =
        s.completions ++ c.toList.map fun c => ⟨c.promise, .reply call⟩ := by
  rw [ShardClient.getProofCallback] at hs
  rw [verifyCallback]
  split at hs
  · rename_i hl
    obtain ⟨rfl, rfl⟩ := Prod.mk.inj (Except.ok.inj hs)
    simp [hl]
  · rename_i hl
    obtain ⟨rfl, rfl⟩ := Prod.mk.inj (Except.ok.inj hs)
    simp [hl]
  · rename_i w hl
    obtain ⟨res, -, hs⟩ := bind_eq_ok_iff.mp hs
    obtain ⟨rfl, rfl⟩ := Prod.mk.inj (Except.ok.inj hs)
    simp [hl, complete]

/-! ### Runs -/

theorem Inv.handleReply (h : Inv s) {r : ℕ} {reply : Reply}
    (hs : s.handleReply build r reply = some s') : Inv s' := by
  rw [ShardState.handleReply] at hs
  split at hs
  · obtain rfl := Option.some.inj hs
    exact h
  · rename_i req hreq
    have hr := SortedMap.lookup_eq_some.mp hreq
    obtain ⟨call, continuation⟩ := req
    cases continuation with
    | verify uid =>
      obtain rfl := Option.some.inj hs
      exact h.verifyCallback hr
    | txn t =>
      obtain ⟨tip, blocking, rfl⟩ := callback_txn hs
      exact h.replyWaiting hr rfl (Or.inl rfl)

theorem TxnCall.promised_of_unlogged {t : TxnCall} (h : t.unlogged) : t.promised := by
  cases t <;> first | rfl | cases h

theorem Inv.timeout (h : Inv s) {r : ℕ} (hl : s.NoVerifyTimeout (.timeout r))
    (hs : s.unloggedRequestTimeoutCallback r = some s') : Inv s' := by
  rw [unloggedRequestTimeoutCallback] at hs
  split at hs
  · obtain rfl := Option.some.inj hs
    exact h
  · rename_i req hreq
    have hr := SortedMap.lookup_eq_some.mp hreq
    obtain ⟨call, continuation⟩ := req
    split at hs
    · rename_i hunlogged
      obtain rfl := Option.some.inj hs
      cases continuation with
      | verify uid => cases hl _ hreq
      | txn t =>
        have hpromised := TxnCall.promised_of_unlogged hunlogged
        -- neither the tip nor the blocking call changes
        have hinv := fun tip blocking => @Inv.replyWaiting _ h _ _ _ hr (.timeout _) rfl tip blocking _
          (Or.inr ⟨rfl, rfl, hpromised⟩)
        exact hinv s.tipBlock s.blockingBegin
    · cases hs

theorem Inv.resendRequest (h : Inv s) {r : ℕ} {sent : Bool}
    (hs : s.resendRequest r sent = some s') : Inv s' := by
  rw [ShardState.resendRequest] at hs
  split at hs
  · obtain rfl := Option.some.inj hs
    exact h
  · rename_i req hreq
    split at hs
    · cases hs
    · obtain rfl := Option.some.inj hs
      split
      · exact h
      · exact h.erase (SortedMap.lookup_eq_some.mp hreq)

/-- Every step keeps the invariant, if no verification request times out. -/
theorem Inv.step (h : Inv s) {l : Label} (hl : s.NoVerifyTimeout l)
    (hs : s.step build l = some s') : Inv s' := by
  cases l with
  | txn t =>
    rw [ShardState.step] at hs
    split at hs
    · rename_i hidle
      obtain rfl := Option.some.inj hs
      exact h.callTxn hidle t
    · cases hs
  | verify v =>
    obtain rfl := Option.some.inj hs
    exact h.callVerify v
  | begin => exact h.begin hs
  | timer i sent =>
    obtain ⟨posted, hi, rfl⟩ := Option.map_eq_some_iff.mp hs
    exact h.fire hi sent
  | reply r reply => exact h.handleReply hs
  | timeout r => exact h.timeout hl hs
  | resend r sent => exact h.resendRequest hs

/-- The timeout of a verification request leaves its own promise open. -/
theorem Inv.not_routed (h : Inv s) {l : Label} (hl : ¬ s.NoVerifyTimeout l)
    (hs : s.step build l = some s') : ¬ Routed s' := by
  intro hrouted
  cases l with
  | timeout r =>
    rw [NoVerifyTimeout] at hl
    push Not at hl
    obtain ⟨⟨call, continuation⟩, hreq, htxn⟩ := hl
    cases continuation with
    | txn t => exact htxn rfl
    | verify uid =>
      have hr := SortedMap.lookup_eq_some.mp hreq
      have hlive := h.live.perm (live_perm_of_request hr)
      have hopen : call ∉ s.completed := hlive.notCompleted _ List.mem_cons_self
      rw [ShardState.step, unloggedRequestTimeoutCallback] at hs
      simp only [Option.mem_def.mp hreq, Continuation.unlogged, if_true, Option.some.injEq] at hs
      subst hs
      -- whoever waits, it is not the promise of this request
      have hcompletions : ∀ c ∈ (({ s.erase r with timedOut := s.timedOut ++ [call] } :
          ShardState).getTimeout call).completions,
          c ∈ s.completions ∨ s.waiting = some c.promise := by
        intro c hc
        rw [getTimeout, ShardState.replyWaiting] at hc
        cases hw : s.waiting with
        | none =>
          simp only [ShardState.erase, hw] at hc
          exact Or.inl hc
        | some w =>
          simp only [ShardState.erase, hw] at hc
          rcases List.mem_append.mp hc with hc | hc
          · exact Or.inl hc
          · rw [List.mem_singleton.mp hc]
            exact Or.inr rfl
      have htimedOut : call ∈ (({ s.erase r with timedOut := s.timedOut ++ [call] } :
          ShardState).getTimeout call).timedOut := by
        rw [getTimeout, ShardState.replyWaiting]
        split <;> simp [complete]
      rcases hcompletions _ (hrouted.timeout call htimedOut) with hc | hw
      · exact hopen (List.mem_map_of_mem hc)
      · exact hlive.verify _ List.mem_cons_self rfl (h.waiting _ hw).1
  | txn _ | verify _ | begin | timer _ _ | reply _ _ | resend _ _ => exact hl trivial

/-- **Promises are routed** in all states of a run exactly if no verification request times out. -/
theorem routed_iff (build : Build) (labels : List Label) (s : ShardState)
    (h : runs (step build) {} labels = some s) :
    (∀ pre s', pre <+: labels → runs (step build) {} pre = some s' → Routed s') ↔
      Along (step build) NoVerifyTimeout {} labels :=
  along_iff_of_inv inv_init (fun _ => Inv.routed) (fun _ _ _ (h : Inv _) => h.step)
    (fun _ _ _ h => h.not_routed) h

/-- A read that times out while a proof is on its way. -/
theorem routed_read : (runs (step .ledgerdb) {} [.txn .batchGet, .timer 0 true,
      .verify (.getProof 0), .timer 0 true, .timeout 1, .reply 2 {}]).isSome ∧
    ∀ pre s', pre <+: [.txn .batchGet, .timer 0 true, .verify (.getProof 0), .timer 0 true,
      .timeout 1, .reply 2 {}] → runs (step .ledgerdb) {} pre = some s' → Routed s' := by
  refine ⟨by decide, ?_⟩
  refine (routed_iff .ledgerdb _ ((runs (step .ledgerdb) {} [.txn .batchGet, .timer 0 true,
    .verify (.getProof 0), .timer 0 true, .timeout 1, .reply 2 {}]).get (by decide))
    (by simp)).mpr ?_
  decide

/-- A proof that times out while a read is on its way completes the promise of the read. -/
theorem read_completed_by_proof_timeout : ¬ ∀ (build : Build) (labels : List Label) (s : ShardState),
    runs (step build) {} labels = some s → Routed s := by
  intro h
  have hrouted := h .ledgerdb [.txn .batchGet, .timer 0 true, .verify (.getProof 0),
    .timer 0 true, .timeout 2] _ (Option.some_get (by decide)).symm
  have hown := hrouted.own
  revert hown
  decide

end LedgerDatabase.Distributed.ShardState
