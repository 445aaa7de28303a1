import LedgerDatabase.Distributed.Equiv.System
import LedgerDatabase.Distributed.History
import LedgerDatabase.Library.ConflictOrder

/-!
# The history of a shard

In a run over the stores `Answers.store`, a shard holds the puts of the applied commits in the
order of their arrival (`Hist.store_eq`), and of two transactions that conflict at a shard the one
that was decided first is applied first (`Hist.respects`): both hold their keys from before the
decision until the commit.
-/

namespace LedgerDatabase.Distributed

open ConflictOrder Run
open OCCStore (putCall)
open Transaction (Conflict)

/-! ### Requests at such a store -/

namespace Answers

variable (a : Answers) {o : HashOrder}

/-- The reply to the commit of a transaction by a server with stored procedures. -/
def commitReply (o : HashOrder) (txn : Transaction) (timestamp : ℕ) (version : List (Bytes × ℕ))
    (store : Versions) : TxnReply :=
  let reply := a.batchGet ((o.order txn.readSet).map (·.1)) {} store
  let reply := a.getNVersions version reply store
  if txn.writeSet.length > 0 then a.reported (putCall o txn timestamp) reply else reply

theorem batchGet_nil (reply : TxnReply) (store : Versions) : a.batchGet [] reply store = reply := by
  simp [batchGet]

theorem getNVersions_nil (reply : TxnReply) (store : Versions) :
    a.getNVersions [] reply store = reply := by
  simp [getNVersions]

theorem readKeys_store (keys : List Bytes) (reply : TxnReply) (store : Versions) :
    OCCStore.readKeys a.store keys reply store = .ok (a.batchGet keys reply store, store) := by
  rw [OCCStore.readKeys]
  split
  · rfl
  · rename_i h
    rw [List.length_eq_zero_iff.mp (by omega : keys.length = 0), batchGet_nil]

theorem readVersions_store (verKeys : List (Bytes × ℕ)) (reply : TxnReply) (store : Versions) :
    OCCStore.readVersions a.store verKeys reply store =
      .ok (a.getNVersions verKeys reply store, store) := by
  rw [OCCStore.readVersions]
  split
  · rfl
  · rename_i h
    rw [List.length_eq_zero_iff.mp (by omega : verKeys.length = 0), getNVersions_nil]

theorem putVersions_nil {call : PutCall} (h : call.keys = []) (store : Versions) :
    putVersions call store = store := by
  funext k
  simp [putVersions, PutCall.versionsOf, PutCall.entries, h]

theorem putWrites_store (call : PutCall) (reply : TxnReply) (store : Versions) :
    OCCStore.putWrites a.store call reply store =
      .ok (if call.keys.length > 0 then a.reported call reply else reply, putVersions call store)
    := by
  rw [OCCStore.putWrites]
  by_cases h : call.keys.length > 0
  · rw [if_pos h, if_pos h]
    rfl
  · rw [if_neg h, if_neg h,
      putVersions_nil (List.length_eq_zero_iff.mp (by omega : call.keys.length = 0))]

/-- **A commit** puts the writes and, with stored procedures, answers from the puts before it. -/
theorem leaderUpcall_commit (nshards : ℕ) (mode : Mode) (sp : Bool) {id : ℕ}
    {s : OCCStore Versions} {txn : Transaction} (h : s.entry id = some txn) (o : HashOrder)
    (time timestamp : ℕ) (version : List (Bytes × ℕ)) :
    ∃ up, Server.leaderUpcall (a.deployment nshards mode sp o) time (.commit id timestamp version) s
        = .ok up ∧
      up.store = { s.abort id with store := putVersions (putCall o txn timestamp) s.store } ∧
      (sp = true → up.reply = a.commitReply o txn timestamp version s.store) := by
  have hlen : (o.order txn.writeSet).length = txn.writeSet.length := (o.perm _).length_eq
  cases sp with
  | false =>
    refine ⟨_, rfl, ?_, fun h => by cases h⟩
    change ({ s with store := putVersions (putCall o ((s.entry id).getD {}) timestamp) s.store }
      : OCCStore Versions).abort id = _
    rw [h]
    rfl
  | true =>
    have hcommit : OCCStore.commitReads o a.store id timestamp version s =
        .ok (a.commitReply o txn timestamp version s.store,
          { s.abort id with store := putVersions (putCall o txn timestamp) s.store },
          putCall o txn timestamp) := by
      rw [OCCStore.commitReads, show s.prepared.lookup id = some txn from h]
      change (OCCStore.readKeys a.store _ {} s.store >>= _) = _
      rw [readKeys_store, ok_bind]
      dsimp only
      rw [readVersions_store, ok_bind]
      dsimp only
      rw [putWrites_store, ok_bind, commitReply]
      simp only [List.length_map, hlen]
      rfl
    refine ⟨{ reply := a.commitReply o txn timestamp version s.store, replicate := true
              store := { s.abort id with store := putVersions (putCall o txn timestamp) s.store }
              call := some (putCall o txn timestamp) }, ?_, rfl, fun _ => rfl⟩
    rw [Server.leaderUpcall, Server.commit]
    change (OCCStore.commitReads o a.store id timestamp version s >>= _) = _
    rw [hcommit, ok_bind]
    have hstatus : (a.commitReply o txn timestamp version s.store).status = .ok := by
      rw [commitReply]
      split <;> rfl
    dsimp only [pure, Except.pure]
    rw [← hstatus]

/-- A reply only depends on the keys that the transaction reads. -/
theorem commitReply_congr {txn : Transaction} {timestamp : ℕ} {store store' : Versions}
    (h : ∀ k ∈ txn.reads, store k = store' k) :
    a.commitReply o txn timestamp [] store = a.commitReply o txn timestamp [] store' := by
  have hget : a.batchGet ((o.order txn.readSet).map (·.1)) {} store =
      a.batchGet ((o.order txn.readSet).map (·.1)) {} store' := by
    have hfound : ((o.order txn.readSet).map (·.1)).filterMap (a.found store) =
        ((o.order txn.readSet).map (·.1)).filterMap (a.found store') := by
      refine List.filterMap_congr fun k hk => ?_
      have hmem : k ∈ txn.reads := ((o.perm txn.readSet).map _).mem_iff.mp hk
      rw [found, found, h k hmem]
    rw [batchGet, batchGet, hfound]
  rw [commitReply, commitReply, hget, getNVersions_nil, getNVersions_nil]

end Answers

/-! ### Histories -/

/-- The puts of some commits on top of a first store. -/
def after (first : Versions) (l : List Applied) : Versions :=
  fun k => first k ++ l.flatMap fun a => a.call.versionsOf k

theorem after_nil (first : Versions) : after first [] = first := by
  funext k
  simp [after]

theorem after_concat (first : Versions) (l : List Applied) (a : Applied) :
    after first (l ++ [a]) = Answers.putVersions a.call (after first l) := by
  funext k
  simp [after, Answers.putVersions]

namespace System

variable {S : Type} {d : Deployment S} {sys sys' : System S}

/-- The commits that a shard has applied, in their order. -/
def appliedTo (sys : System S) (s : ℕ) : List Applied := sys.applied.filter fun a => a.shard = s

/-- The transaction `id` as it reaches shard `s`. -/
def txnOf (o : HashOrder) (sys : System S) (id s : ℕ) : Transaction :=
  ((sys.sessions id).map fun session => session.txnAt o s).getD {}

/-- Two transactions conflict at a shard. -/
def ConflictAt (o : HashOrder) (sys : System S) (s x y : ℕ) : Prop :=
  Conflict (sys.txnOf o x s) (sys.txnOf o y s)

theorem txnOf_eq {o : HashOrder} {id : ℕ} {session : Session}
    (h : sys.sessions id = some session) (s : ℕ) : sys.txnOf o id s = session.txnAt o s := by
  rw [txnOf, h]
  rfl

/-- After `BatchGet` the client of a transaction stays the same. -/
theorem client_step {l : Label} (hstep : step d sys l = some sys') {id : ℕ} {session : Session}
    (hs : sys.sessions id = some session) (hphase : session.phase ≠ .reading) :
    ∃ session', sys'.sessions id = some session' ∧ session'.client = session.client := by
  -- a step of another transaction
  have hother : ∀ {id' : ℕ} {session' : Session}, id ≠ id' →
      Function.update sys.sessions id' (some session') id = some session := by
    intro id' session' hne
    rw [Function.update_of_ne hne, hs]
  cases l with
  | start id' ops ts =>
    obtain ⟨hnone, rfl⟩ := step_start_iff.mp hstep
    have hne : id ≠ id' := by
      rintro rfl
      rw [hs] at hnone
      cases hnone
    exact ⟨session, hother hne, rfl⟩
  | startReads id' keys =>
    obtain ⟨hnone, rfl⟩ := step_startReads_iff.mp hstep
    have hne : id ≠ id' := by
      rintro rfl
      rw [hs] at hnone
      cases hnone
    exact ⟨session, hother hne, rfl⟩
  | read id' s =>
    obtain ⟨session', reply, store, hs', hreading, -, -, -, rfl⟩ := step_read_iff.mp hstep
    have hne : id ≠ id' := by
      rintro rfl
      rw [hs] at hs'
      obtain rfl := Option.some.inj hs'
      exact hphase hreading
    exact ⟨session, hother hne, rfl⟩
  | finishReads id' compute ts =>
    obtain ⟨session', client, values, hs', hreading, -, -, rfl⟩ := step_finishReads_iff.mp hstep
    have hne : id ≠ id' := by
      rintro rfl
      rw [hs] at hs'
      obtain rfl := Option.some.inj hs'
      exact hphase hreading
    exact ⟨session, hother hne, rfl⟩
  | deliver id' s time =>
    obtain ⟨session', request, up, hs', -, -, rfl⟩ := step_deliver_iff.mp hstep
    by_cases he : id = id'
    · subst he
      rw [hs] at hs'
      obtain rfl := Option.some.inj hs'
      exact ⟨_, Function.update_self .., rfl⟩
    · exact ⟨session, hother he, rfl⟩
  | decide id' now =>
    obtain ⟨session', hs', -, -, rfl⟩ := step_decide_iff.mp hstep
    by_cases he : id = id'
    · subst he
      rw [hs] at hs'
      obtain rfl := Option.some.inj hs'
      exact ⟨_, Function.update_self .., Session.client_decide ..⟩
    · exact ⟨session, hother he, rfl⟩

theorem txnOf_step (hinv : Inv d sys) {l : Label} (hstep : step d sys l = some sys') {id : ℕ}
    (hid : id ∈ sys.committed) (o : HashOrder) (s : ℕ) : sys'.txnOf o id s = sys.txnOf o id s := by
  obtain ⟨session, hs, hc⟩ := (hinv.committed id).mp hid
  obtain ⟨session', hs', hclient⟩ := client_step hstep hs (by rw [hc]; simp)
  rw [txnOf_eq hs, txnOf_eq hs', Session.txnAt, Session.txnAt, hclient]

/-- What is applied has been committed. -/
theorem committed_of_applied (hinv : Inv d sys) {a : Applied} (h : a ∈ sys.applied) :
    a.id ∈ sys.committed := by
  have hmem : a ∈ sys.appliedAt a.id a.shard := by simpa [appliedAt] using h
  cases hs : sys.sessions a.id with
  | none =>
    rw [(hinv.fresh a.id hs a.shard).2] at hmem
    cases hmem
  | some session =>
    have happlied := ((hinv.part a.id session hs).2 a.shard).applied_eq
    rw [happlied] at hmem
    split at hmem
    · rename_i hdone
      exact (hinv.committed a.id).mpr ⟨session, hs, ((Session.done_iff ..).mp hdone).1⟩
    · cases hmem

/-- No transaction is applied twice at a shard. -/
theorem nodup_appliedTo (hinv : Inv d sys) (s : ℕ) : ((sys.appliedTo s).map (·.id)).Nodup := by
  rw [List.nodup_iff_count_le_one]
  intro id
  have hcount : ((sys.appliedTo s).map (·.id)).count id = (sys.appliedAt id s).length := by
    rw [List.count, List.countP_map, appliedTo, List.countP_filter, appliedAt,
      ← List.countP_eq_length_filter]
    refine List.countP_congr fun a _ => ?_
    simp
  rw [hcount]
  cases hs : sys.sessions id with
  | none =>
    rw [(hinv.fresh id hs s).2]
    simp
  | some session =>
    rw [((hinv.part id session hs).2 s).applied_eq]
    split <;> simp

/-- A transaction with keys at a shard takes part there. -/
theorem mem_participants_of_conflict (hwf : sys.Wf) {o : HashOrder} {id s : ℕ} {session : Session}
    (hs : sys.sessions id = some session) {t : Transaction}
    (h : Conflict (sys.txnOf o id s) t) : s ∈ session.client.participants := by
  by_contra hmem
  have hempty := (hwf id session hs).empty s hmem
  rw [txnOf_eq hs, Session.txnAt, hempty, Transaction.ofMessage_serialize Transaction.keyed_empty]
    at h
  have hnil : ∀ {V : Type}, o.order ([] : UnorderedMap V) = [] := fun {V} =>
    List.perm_nil.mp (o.perm _)
  obtain ⟨k, ⟨hk, -⟩ | ⟨hk, -⟩⟩ := h
  · simp [Transaction.reads, hnil] at hk
  · simp [Transaction.writes, hnil] at hk

/-- A committed transaction that a shard has not applied is still prepared there. -/
theorem entry_of_not_applied (hinv : Inv d sys) {id s : ℕ} {session : Session}
    (hs : sys.sessions id = some session) (hc : session.phase = .committed)
    (hmem : s ∈ session.client.participants) (hnot : id ∉ (sys.appliedTo s).map (·.id)) :
    (sys.shards s).entry id = some (session.txnAt d.order s) := by
  have hpart := (hinv.part id session hs).2 s
  have hdone : session.done s = false := by
    by_contra hdone
    rw [Bool.not_eq_false] at hdone
    have happlied := hpart.applied_eq
    rw [if_pos hdone] at happlied
    have hin : (⟨id, s, session.callAt d.order s⟩ : Applied) ∈ sys.appliedAt id s := by
      rw [happlied]
      exact List.mem_singleton_self _
    rw [appliedAt, List.mem_filter] at hin
    exact hnot (List.mem_map.mpr ⟨_, List.mem_filter.mpr ⟨hin.1, by simp⟩, rfl⟩)
  -- it has answered the vote and nothing else
  obtain ⟨r, hr, hok⟩ := hpart.accepted hc hmem
  have hle := hpart.length_le
  rw [Session.sent, if_pos hmem, hc] at hle
  have hne : (session.replies s).length ≠ 2 := by
    intro htwo
    rw [(Session.done_iff session s).mpr ⟨hc, htwo⟩] at hdone
    cases hdone
  have hentry := hpart.entry_eq
  cases hreplies : session.replies s with
  | nil =>
    rw [hreplies] at hr
    cases hr
  | cons r' rs =>
    rw [hreplies] at hr hle hne
    obtain rfl := Option.some.inj hr
    cases rs with
    | nil =>
      rw [hentry, if_pos]
      rw [Session.holds_singleton hreplies, decide_eq_true hok]
    | cons r'' rs =>
      simp only [List.length_cons, List.length_nil] at hle hne
      omega

/-- **Committing respects the decisions**: when a shard applies a transaction, everything that was
decided before and conflicts with it has been applied there. -/
theorem applied_of_before (hinv : Inv d sys) (hwf : sys.Wf) {s x y : ℕ} {sx sy : Session}
    (hx : sys.sessions x = some sx) (hcx : sx.phase = .committed) (hy : sys.sessions y = some sy)
    (hne : x ≠ y) (hentry : (sys.shards s).entry y = some (sy.txnAt d.order s))
    (hconf : sys.ConflictAt d.order s x y) : x ∈ (sys.appliedTo s).map (·.id) := by
  by_contra hnot
  have hmem := mem_participants_of_conflict hwf hx hconf
  have hentryx := entry_of_not_applied hinv hx hcx hmem hnot
  rw [ConflictAt, txnOf_eq hx, txnOf_eq hy] at hconf
  exact hinv.conflictFree s x y _ _ hentryx hentry hne hconf

/-! ### The invariant -/

section

variable {a : Answers} {nshards : ℕ} {mode : Mode} {sp : Bool} {o : HashOrder}
  {stores : ℕ → Versions} {sys sys' : System Versions}

/-- The shards hold what they have applied, in an order that respects the decisions. -/
structure Hist (o : HashOrder) (stores : ℕ → Versions) (sys : System Versions) : Prop where
  store_eq : ∀ s, (sys.shards s).store = after (stores s) (sys.appliedTo s)
  respects : ∀ s, Respects (sys.ConflictAt o s) sys.committed ((sys.appliedTo s).map (·.id))

theorem hist_init (o : HashOrder) (stores : ℕ → Versions) : Hist o stores (init stores) where
  store_eq s := by
    simp [init, after_nil, appliedTo]
  respects s x y h := h.elim

/-- A step that applies and decides nothing. -/
theorem Hist.of_same (h : Hist o stores sys) (hstore : ∀ s, (sys'.shards s).store =
      (sys.shards s).store) (happlied : sys'.applied = sys.applied)
    (hcommitted : sys'.committed = sys.committed)
    (htxn : ∀ id ∈ sys.committed, ∀ s, sys'.txnOf o id s = sys.txnOf o id s) :
    Hist o stores sys' := by
  have happliedTo : ∀ s, sys'.appliedTo s = sys.appliedTo s := by
    intro s
    rw [appliedTo, happlied, appliedTo]
  constructor
  · intro s
    rw [hstore, happliedTo]
    exact h.store_eq s
  · intro s
    rw [hcommitted, happliedTo]
    refine (h.respects s).congr fun x hx y hy hconf => ?_
    rwa [ConflictAt, htxn x hx, htxn y hy] at hconf

theorem appliedTo_concat (applied : List Applied) (x : Applied) (s : ℕ) :
    ((applied ++ [x]).filter fun a => a.shard = s) =
      (applied.filter fun a => a.shard = s) ++ if x.shard = s then [x] else [] := by
  rw [List.filter_append]
  congr 1
  by_cases h : x.shard = s <;> simp [h]

/-- What a delivery does: it commits a transaction that the shard holds, or it leaves the store as
it is. -/
theorem deliver_cases {id s time : ℕ}
    (hinv : Inv (a.deployment nshards mode sp o) sys)
    (hstep : step (a.deployment nshards mode sp o) sys (.deliver id s time) = some sys') :
    ∃ session, sys.sessions id = some session ∧ s ∈ session.client.participants ∧
      ((session.phase = .committed ∧ (sys.shards s).entry id = some (session.txnAt o s) ∧
          (∃ r reply, session.replies s = [r] ∧
            sys'.sessions = Function.update sys.sessions id (some (session.answer s reply)) ∧
            (sp = true → reply = a.commitReply o (session.txnAt o s) session.ts
              (session.client.bclient s).history (sys.shards s).store)) ∧
          (sys'.shards s).store =
            Answers.putVersions (session.callAt o s) (sys.shards s).store ∧
          (∀ s', s' ≠ s → sys'.shards s' = sys.shards s') ∧
          sys'.applied = sys.applied ++ [⟨id, s, session.callAt o s⟩]) ∨
        (session.phase ≠ .committed ∧
          (∃ reply, sys'.sessions =
            Function.update sys.sessions id (some (session.answer s reply))) ∧
          (∀ s', (sys'.shards s').store = (sys.shards s').store) ∧
          sys'.applied = sys.applied)) ∧
      sys'.committed = sys.committed := by
  obtain ⟨session, request, up, hs, hnext, hup, rfl⟩ := step_deliver_iff.mp hstep
  obtain ⟨hid, hpart⟩ := hinv.part id session hs
  obtain ⟨hmem, hcase⟩ := (hpart s).next_cases hnext
  have hothers : ∀ s', s' ≠ s → Function.update sys.shards s up.store s' = sys.shards s' :=
    fun s' hne => Function.update_of_ne hne ..
  refine ⟨session, hs, hmem, ?_, rfl⟩
  obtain ⟨hphase, hnil, rfl⟩ | ⟨hphase, ⟨r, hr, hok⟩, rfl⟩ | ⟨hphase, ⟨r, hr⟩, rfl⟩ := hcase
  · -- the vote leaves the store
    refine Or.inr ⟨by rw [hphase]; simp, ⟨up.reply, rfl⟩, fun s' => ?_, ?_⟩
    · change (Function.update sys.shards s up.store s').store = _
      by_cases he : s' = s
      · subst he
        rw [Function.update_self]
        obtain ⟨up', hup', -, -, hstore⟩ := Server.leaderUpcall_prepare
          (d := a.deployment nshards mode sp o) time session.client.tId
          ((session.client.bclient s').txn.serialize o) (sys.shards s')
        have heq : up = up' := Except.ok.inj (hup.symm.trans hup')
        rw [heq, hstore, OCCStore.store_prepare]
      · rw [hothers s' he]
    · obtain ⟨up', hup', hcall, -, -⟩ := Server.leaderUpcall_prepare
        (d := a.deployment nshards mode sp o) time session.client.tId
        ((session.client.bclient s).txn.serialize o) (sys.shards s)
      have heq : up = up' := Except.ok.inj (hup.symm.trans hup')
      change sys.applied ++ _ = _
      rw [heq, hcall]
      simp
  · -- the commit
    have hentry := (hpart s).entry_eq
    rw [Session.holds_singleton hr, decide_eq_true hok, if_pos rfl] at hentry
    rw [Client.commitRequest, hid] at hup
    obtain ⟨up', hup', hstore, hreply⟩ := a.leaderUpcall_commit nshards mode sp hentry o time
      session.ts (session.client.bclient s).history
    have heq : up = up' := Except.ok.inj (hup.symm.trans hup')
    have hcall := (Server.leaderUpcall_commit hup).2.1
    subst heq
    refine Or.inl ⟨hphase, hentry, ⟨r, up.reply, hr, rfl, hreply⟩, ?_, hothers, ?_⟩
    · change (Function.update sys.shards s up.store s).store = _
      rw [Function.update_self, hstore]
      rfl
    · change sys.applied ++ _ = _
      rw [hcall, hentry]
      rfl
  · -- the abort
    rw [Client.abortRequest, Server.leaderUpcall_abort] at hup
    obtain rfl := Except.ok.inj hup
    refine Or.inr ⟨by rw [hphase]; simp, ⟨{}, rfl⟩, fun s' => ?_, ?_⟩
    · by_cases he : s' = s
      · subst he
        change (Function.update sys.shards s' _ s').store = _
        rw [Function.update_self]
        rfl
      · change (Function.update sys.shards s _ s').store = _
        rw [Function.update_of_ne he]
    · change sys.applied ++ _ = _
      simp

/-- **Every step** keeps the histories. -/
theorem hist_step (h : Hist o stores sys) (hinv : Inv (a.deployment nshards mode sp o) sys)
    (hwf : sys.Wf) {l : Label} (hstep : step (a.deployment nshards mode sp o) sys l = some sys') :
    Hist o stores sys' := by
  have htxn : ∀ id ∈ sys.committed, ∀ s, sys'.txnOf o id s = sys.txnOf o id s :=
    fun id hid s => txnOf_step hinv hstep hid o s
  cases l with
  | start id ops ts =>
    obtain ⟨-, rfl⟩ := step_start_iff.mp hstep
    exact h.of_same (fun _ => rfl) rfl rfl htxn
  | startReads id keys =>
    obtain ⟨-, rfl⟩ := step_startReads_iff.mp hstep
    exact h.of_same (fun _ => rfl) rfl rfl htxn
  | read id s =>
    obtain ⟨session, reply, store, -, -, -, -, hget, rfl⟩ := step_read_iff.mp hstep
    have hstore : store.store = (sys.shards s).store := by
      obtain ⟨-, rfl⟩ := Prod.mk.inj (Except.ok.inj hget)
      rfl
    refine h.of_same (fun s' => ?_) rfl rfl htxn
    change (Function.update sys.shards s store s').store = _
    by_cases he : s' = s
    · subst he
      rw [Function.update_self, hstore]
    · rw [Function.update_of_ne he]
  | finishReads id compute ts =>
    obtain ⟨session, client, values, -, -, -, -, rfl⟩ := step_finishReads_iff.mp hstep
    exact h.of_same (fun _ => rfl) rfl rfl htxn
  | deliver id s time =>
    obtain ⟨session, hs, hmem, hcase, hcommitted⟩ := deliver_cases hinv hstep
    obtain ⟨hphase, hentry, -, hstore, hothers, happlied⟩ | ⟨-, -, hstore, happlied⟩ := hcase
    · have happliedTo : ∀ s', sys'.appliedTo s' = sys.appliedTo s' ++
          if s = s' then [⟨id, s, session.callAt o s⟩] else [] := by
        intro s'
        rw [appliedTo, happlied, appliedTo_concat]
        rfl
      constructor
      · intro s'
        rw [happliedTo]
        by_cases he : s' = s
        · subst he
          rw [if_pos rfl, hstore, after_concat, h.store_eq]
        · rw [if_neg fun e => he e.symm, List.append_nil, hothers s' he]
          exact h.store_eq s'
      · intro s'
        rw [hcommitted, happliedTo]
        have hold : Respects (sys.ConflictAt o s') sys.committed ((sys.appliedTo s' ++
            if s = s' then ([⟨id, s, session.callAt o s⟩] : List Applied) else []).map (·.id)) := by
          by_cases he : s = s'
          · subst he
            rw [if_pos rfl, List.map_append]
            refine (h.respects s).apply fun x hbefore hconf => ?_
            -- what was decided before and conflicts is no longer prepared here
            obtain ⟨sx, hx, hcx⟩ := (hinv.committed x).mp hbefore.mem.1
            have hne : x ≠ id := by
              rintro rfl
              exact hbefore.asymm hinv.nodup hbefore
            exact applied_of_before hinv hwf hx hcx hs hne hentry hconf
          · rw [if_neg he, List.append_nil]
            exact h.respects s'
        refine hold.congr fun x hx y hy hconf => ?_
        rwa [ConflictAt, htxn x hx, htxn y hy] at hconf
    · exact h.of_same hstore happlied hcommitted htxn
  | decide id now =>
    obtain ⟨session, hs, hpreparing, -, rfl⟩ := step_decide_iff.mp hstep
    have hnew : id ∉ sys.committed := by
      intro hmem
      obtain ⟨session', hs', hc⟩ := (hinv.committed id).mp hmem
      rw [hs] at hs'
      obtain rfl := Option.some.inj hs'
      rw [hpreparing] at hc
      cases hc
    have hnot : ∀ s, id ∉ (sys.appliedTo s).map (·.id) := by
      intro s hmem
      obtain ⟨x, hx, rfl⟩ := List.mem_map.mp hmem
      exact hnew (committed_of_applied hinv (List.mem_filter.mp hx).1)
    refine ⟨h.store_eq, fun s => ?_⟩
    -- the new decision is last, and it is applied nowhere
    intro x y hxy hconf hy
    by_cases hyid : y = id
    · subst hyid
      exact absurd hy (hnot s)
    · have hxy' : Before x y sys.committed := by
        change Before x y (if _ then _ else _) at hxy
        split at hxy
        · rcases before_concat.mp hxy with hxy | ⟨-, rfl⟩
          · exact hxy
          · exact absurd rfl hyid
        · exact hxy
      refine h.respects s x y hxy' ?_ hy
      rwa [ConflictAt, htxn x hxy'.mem.1, htxn y hxy'.mem.2] at hconf

theorem hist_of_runs {labels : List Label}
    (h : runs (step (a.deployment nshards mode sp o)) (init stores) labels = some sys) :
    Hist o stores sys :=
  runs_induction (motive := fun _ sys => Hist o stores sys) (hist_init o stores)
    (fun _ _ _ _ hrun hist hstep => hist_step hist (inv_of_runs hrun) (wf_of_runs hrun) hstep) h

/-! ### Replies -/

/-- A commit that was executed by a server with stored procedures was answered from what the shard
had applied before. -/
def Replied (a : Answers) (o : HashOrder) (stores : ℕ → Versions) (sys : System Versions) : Prop :=
  ∀ id session s, sys.sessions id = some session → session.done s = true →
    ∃ pre post, sys.appliedTo s = pre ++ ⟨id, s, session.callAt o s⟩ :: post ∧
      (session.replies s)[1]? = some (a.commitReply o (session.txnAt o s) session.ts
        (session.client.bclient s).history (after (stores s) pre))

/-- A step that executes no commit. -/
theorem Replied.of_update (h : Replied a o stores sys) {id : ℕ} {session : Session}
    (hsessions : sys'.sessions = Function.update sys.sessions id (some session))
    (happlied : sys'.applied = sys.applied) (hdone : ∀ s, session.done s = false) :
    Replied a o stores sys' := by
  intro id' session' s hs hd
  rw [hsessions] at hs
  by_cases he : id' = id
  · subst he
    rw [Function.update_self] at hs
    obtain rfl := Option.some.inj hs
    rw [hdone] at hd
    cases hd
  · rw [Function.update_of_ne he] at hs
    rw [appliedTo, happlied]
    exact h id' session' s hs hd

theorem done_of_phase {session : Session} (h : session.phase ≠ .committed) (s : ℕ) :
    session.done s = false := by
  simp [Session.done, h]

theorem replied_step (h : Replied a o stores sys) (hist : Hist o stores sys)
    (hinv : Inv (a.deployment nshards mode true o) sys) {l : Label}
    (hstep : step (a.deployment nshards mode true o) sys l = some sys') :
    Replied a o stores sys' := by
  cases l with
  | start id ops ts =>
    obtain ⟨-, rfl⟩ := step_start_iff.mp hstep
    exact h.of_update rfl rfl (done_of_phase (by simp [Session.prepare]))
  | startReads id keys =>
    obtain ⟨-, rfl⟩ := step_startReads_iff.mp hstep
    exact h.of_update rfl rfl (done_of_phase (by simp))
  | read id s =>
    obtain ⟨session, reply, store, -, hreading, -, -, -, rfl⟩ := step_read_iff.mp hstep
    exact h.of_update rfl rfl (done_of_phase (by simp [Session.readAnswer, hreading]))
  | finishReads id compute ts =>
    obtain ⟨session, client, values, -, -, -, -, rfl⟩ := step_finishReads_iff.mp hstep
    exact h.of_update rfl rfl (done_of_phase (by simp [Session.prepare]))
  | decide id now =>
    obtain ⟨session, hs, hpreparing, -, rfl⟩ := step_decide_iff.mp hstep
    refine h.of_update rfl rfl fun s => ?_
    have hlen := ((hinv.part id session hs).2 s).length_replies hpreparing
    rw [← Bool.not_eq_true, Session.done_iff, Session.replies_decide]
    omega
  | deliver id s time =>
    obtain ⟨session, hs, -, hcase, -⟩ := deliver_cases hinv hstep
    obtain ⟨hphase, -, ⟨r, reply, hr, hsessions, hreply⟩, -, -, happlied⟩ |
      ⟨hphase, ⟨reply, hsessions⟩, -, happlied⟩ := hcase
    · have happliedTo : ∀ s', sys'.appliedTo s' = sys.appliedTo s' ++
          if s = s' then [⟨id, s, session.callAt o s⟩] else [] := by
        intro s'
        rw [appliedTo, happlied, appliedTo_concat]
        rfl
      -- an earlier commit stays where it is
      have hold : ∀ id' session' s', sys.sessions id' = some session' →
          session'.done s' = true → ∃ pre post,
            sys'.appliedTo s' = pre ++ ⟨id', s', session'.callAt o s'⟩ :: post ∧
            (session'.replies s')[1]? = some (a.commitReply o (session'.txnAt o s') session'.ts
              (session'.client.bclient s').history (after (stores s') pre)) := by
        intro id' session' s' hs' hd
        obtain ⟨pre, post, hsplit, hr'⟩ := h id' session' s' hs' hd
        refine ⟨pre, post ++ if s = s' then [⟨id, s, session.callAt o s⟩] else [], ?_, hr'⟩
        rw [happliedTo, hsplit, List.append_assoc, List.cons_append]
      intro id' session' s' hs' hd
      rw [hsessions] at hs'
      by_cases he : id' = id
      · subst he
        rw [Function.update_self] at hs'
        obtain rfl := Option.some.inj hs'
        by_cases hss : s' = s
        · subst hss
          refine ⟨sys.appliedTo s', [], ?_, ?_⟩
          · rw [happliedTo, if_pos rfl]
            rfl
          · rw [Session.replies_answer, hr, hreply rfl, hist.store_eq]
            rfl
        · have hreplies := session.replies_answer_of_ne hss reply
          have hd' : session.done s' = true := by
            rw [Session.done_iff] at hd ⊢
            rwa [hreplies, Session.phase_answer] at hd
          rw [hreplies]
          exact hold id' session s' hs hd'
      · rw [Function.update_of_ne he] at hs'
        exact hold id' session' s' hs' hd
    · exact h.of_update hsessions happlied (done_of_phase hphase)

theorem replied_of_runs {labels : List Label}
    (h : runs (step (a.deployment nshards mode true o)) (init stores) labels = some sys) :
    Replied a o stores sys :=
  runs_induction (motive := fun _ sys => Replied a o stores sys) (fun _ _ _ hs _ => by cases hs)
    (fun _ _ _ _ hrun hr hstep => replied_step hr (hist_of_runs hrun) (inv_of_runs hrun) hstep) h

end

end System

end LedgerDatabase.Distributed
