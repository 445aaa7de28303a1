import LedgerDatabase.Common.Equiv.Bytes
import LedgerDatabase.Distributed.Server
import LedgerDatabase.Library.Run

/-!
# What is prepared

`Prepare` admits a transaction when it does not conflict with a prepared one, so prepared
transactions never conflict (`ConflictFree.prepare`), in whatever order the calls come
(`admission_exact`).  The rest says what every request does to the
entry of its own transaction and to those of the others.
-/

namespace LedgerDatabase.Distributed

namespace Transaction

/-- The keys that a transaction reads. -/
def reads (txn : Transaction) : List Bytes := txn.readSet.map (·.1)

/-- The keys that a transaction writes. -/
def writes (txn : Transaction) : List Bytes := txn.writeSet.map (·.1)

/-- One of two transactions writes a key that the other one reads or writes. -/
def Conflict (t u : Transaction) : Prop :=
  ∃ k, (k ∈ t.reads ∧ k ∈ u.writes) ∨ (k ∈ t.writes ∧ (k ∈ u.writes ∨ k ∈ u.reads))

theorem Conflict.symm {t u : Transaction} (h : Conflict t u) : Conflict u t := by
  obtain ⟨k, ⟨hr, hw⟩ | ⟨hw, hw' | hr⟩⟩ := h
  · exact ⟨k, Or.inr ⟨hw, Or.inr hr⟩⟩
  · exact ⟨k, Or.inr ⟨hw', Or.inl hw⟩⟩
  · exact ⟨k, Or.inl ⟨hr, hw⟩⟩

end Transaction

namespace OCCStore

open Transaction (Conflict)

variable {S : Type}

/-- The entry of a transaction in the table. -/
abbrev entry (s : OCCStore S) (id : ℕ) : Option Transaction := s.prepared.lookup id

theorem mem_of_entry {s : OCCStore S} {id : ℕ} {t : Transaction} (h : s.entry id = some t) :
    (id, t) ∈ s.prepared := by
  rw [entry, List.lookup_eq_some_iff] at h
  obtain ⟨l₁, l₂, hsplit, -⟩ := h
  rw [hsplit]
  simp

theorem mem_getPreparedWrites {s : OCCStore S} {k : Bytes} :
    k ∈ s.getPreparedWrites ↔ ∃ e ∈ s.prepared, k ∈ e.2.writes := by
  simp [getPreparedWrites, Transaction.writes]

theorem mem_getPreparedReadWrites {s : OCCStore S} {k : Bytes} :
    k ∈ s.getPreparedReadWrites ↔ ∃ e ∈ s.prepared, k ∈ e.2.writes ∨ k ∈ e.2.reads := by
  simp [getPreparedReadWrites, Transaction.writes, Transaction.reads]

/-! ### The table after a request -/

theorem lookup_filter_ne {α : Type} (l : List (ℕ × α)) (id id' : ℕ) :
    (l.filter fun t => t.1 ≠ id).lookup id' = if id' = id then none else l.lookup id' := by
  induction l with
  | nil => simp
  | cons e l ih =>
    obtain ⟨n, a⟩ := e
    by_cases hn : n = id
    · rw [List.filter_cons_of_neg (by simpa using hn), ih, List.lookup_cons]
      split
      · rfl
      · rename_i hne
        rw [beq_eq_false_iff_ne.mpr (hn ▸ hne)]
    · rw [List.filter_cons_of_pos (by simpa using hn), List.lookup_cons, List.lookup_cons, ih]
      by_cases hn' : id' = n
      · subst hn'
        simp [hn]
      · rw [beq_eq_false_iff_ne.mpr hn']

@[simp]
theorem entry_abort (s : OCCStore S) (id id' : ℕ) :
    (s.abort id).entry id' = if id' = id then none else s.entry id' :=
  lookup_filter_ne _ _ _

@[simp]
theorem store_abort (s : OCCStore S) (id : ℕ) : (s.abort id).store = s.store := rfl

theorem abort_of_entry_none {s : OCCStore S} {id : ℕ} (h : s.entry id = none) :
    s.abort id = s := by
  have hne : ∀ e ∈ s.prepared, e.1 ≠ id := by
    rw [entry, List.lookup_eq_none_iff] at h
    intro e he heq
    have := h e he
    simp [heq] at this
  rw [abort, List.filter_eq_self.mpr (by simpa using hne)]

/-- **`Prepare`** of a transaction that is not prepared: it is entered when it conflicts with no
prepared one, and nothing changes otherwise. -/
theorem prepare_of_entry_none {s : OCCStore S} {id : ℕ} (h : s.entry id = none)
    (txn : Transaction) :
    s.prepare id txn = (.ok, { s with prepared := (id, txn) :: s.prepared }) ∧
        (∀ e ∈ s.prepared, ¬ Conflict txn e.2) ∨
      s.prepare id txn = (.fail, s) ∧ ∃ e ∈ s.prepared, Conflict txn e.2 := by
  unfold prepare
  have hnone : (s.prepared.lookup id).isSome = false := by
    rw [show s.prepared.lookup id = none from h]
    rfl
  rw [if_neg (by simp [hnone])]
  by_cases hr : txn.readSet.any fun read => s.getPreparedWrites.contains read.1
  · rw [if_pos hr, abort_of_entry_none h]
    refine Or.inr ⟨rfl, ?_⟩
    obtain ⟨read, hread, hk⟩ := List.any_eq_true.mp hr
    obtain ⟨e, he, hw⟩ := mem_getPreparedWrites.mp (List.contains_iff_mem.mp hk)
    exact ⟨e, he, read.1, Or.inl ⟨List.mem_map_of_mem hread, hw⟩⟩
  · rw [if_neg hr]
    by_cases hw : txn.writeSet.any fun write => s.getPreparedReadWrites.contains write.1
    · rw [if_pos hw, abort_of_entry_none h]
      refine Or.inr ⟨rfl, ?_⟩
      obtain ⟨write, hwrite, hk⟩ := List.any_eq_true.mp hw
      obtain ⟨e, he, hrw⟩ := mem_getPreparedReadWrites.mp (List.contains_iff_mem.mp hk)
      exact ⟨e, he, write.1, Or.inr ⟨List.mem_map_of_mem hwrite, hrw⟩⟩
    · rw [if_neg hw]
      refine Or.inl ⟨rfl, ?_⟩
      rintro e he ⟨k, ⟨hkr, hkw⟩ | ⟨hkw, hk⟩⟩
      · obtain ⟨read, hread, rfl⟩ := List.mem_map.mp hkr
        exact hr (List.any_eq_true.mpr
          ⟨read, hread, List.contains_iff_mem.mpr (mem_getPreparedWrites.mpr ⟨e, he, hkw⟩)⟩)
      · obtain ⟨write, hwrite, rfl⟩ := List.mem_map.mp hkw
        exact hw (List.any_eq_true.mpr
          ⟨write, hwrite, List.contains_iff_mem.mpr (mem_getPreparedReadWrites.mpr ⟨e, he, hk⟩)⟩)

@[simp]
theorem store_prepare (s : OCCStore S) (id : ℕ) (txn : Transaction) :
    (s.prepare id txn).2.store = s.store := by
  unfold prepare
  split
  · rfl
  · split
    · rfl
    · split <;> rfl

/-! ### Conflicts -/

/-- No two prepared transactions conflict. -/
def ConflictFree (s : OCCStore S) : Prop :=
  ∀ id id' t t', s.entry id = some t → s.entry id' = some t' → id ≠ id' → ¬ Conflict t t'

/-- Entries that only get fewer stay free of conflicts. -/
theorem ConflictFree.mono {s s' : OCCStore S} (h : s.ConflictFree)
    (hsub : ∀ id t, s'.entry id = some t → s.entry id = some t) : s'.ConflictFree :=
  fun id id' t t' ht ht' => h id id' t t' (hsub id t ht) (hsub id' t' ht')

theorem ConflictFree.abort {s : OCCStore S} (h : s.ConflictFree) (id : ℕ) :
    (s.abort id).ConflictFree := by
  refine h.mono fun id' t ht => ?_
  rw [entry_abort] at ht
  split at ht
  · cases ht
  · exact ht

theorem ConflictFree.prepare {s : OCCStore S} (h : s.ConflictFree) {id : ℕ}
    (hnone : s.entry id = none) (txn : Transaction) : (s.prepare id txn).2.ConflictFree := by
  obtain ⟨heq, hfree⟩ | ⟨heq, -⟩ := prepare_of_entry_none hnone txn
  · rw [heq]
    -- the new entry conflicts with none of the old ones
    have hnew : ∀ id' t', id' ≠ id → s.entry id' = some t' → ¬ Conflict txn t' :=
      fun id' t' _ ht' => hfree (id', t') (mem_of_entry ht')
    intro id₁ id₂ t₁ t₂ h₁ h₂ hne
    simp only [entry, List.lookup_cons] at h₁ h₂
    by_cases e₁ : id₁ = id
    · subst e₁
      have e₂ : (id₂ == id₁) = false := by simpa using fun e => hne e.symm
      simp only [beq_self_eq_true, Option.some.injEq, e₂] at h₁ h₂
      subst h₁
      exact hnew id₂ t₂ (fun e => hne e.symm) h₂
    · have hf : (id₁ == id) = false := by simpa using e₁
      simp only [hf] at h₁
      by_cases e₂ : id₂ = id
      · subst e₂
        simp only [beq_self_eq_true, Option.some.injEq] at h₂
        subst h₂
        exact fun hc => hnew id₁ t₁ e₁ h₁ hc.symm
      · have hf₂ : (id₂ == id) = false := by simpa using e₂
        simp only [hf₂] at h₂
        exact h id₁ id₂ t₁ t₂ h₁ h₂ hne
  · rw [heq]
    exact h

/-! ### Commits -/

/-- The call of `put` that commits a transaction. -/
def putCall (o : HashOrder) (txn : Transaction) (timestamp : ℕ) : PutCall :=
  ⟨(o.order txn.writeSet).map (·.1), (o.order txn.writeSet).map (·.2), timestamp⟩

theorem commit_eq_ok {o : HashOrder} {kv : KVStore S} {id timestamp : ℕ} {s s' : OCCStore S}
    {reply : TxnReply} {call : PutCall}
    (h : s.commit o kv id timestamp = .ok (reply, s', call)) :
    s'.prepared = (s.abort id).prepared ∧ call = putCall o ((s.entry id).getD {}) timestamp := by
  rw [commit] at h
  obtain ⟨digest, -, h⟩ := bind_eq_ok_iff.mp h
  obtain ⟨⟨_, store⟩, -, h⟩ := bind_eq_ok_iff.mp h
  obtain ⟨-, rfl, rfl⟩ := Prod.mk.inj (Except.ok.inj h) |>.imp_right Prod.mk.inj
  exact ⟨rfl, rfl⟩

theorem commitReads_eq_ok {o : HashOrder} {kv : KVStore S} {id timestamp : ℕ}
    {verKeys : List (Bytes × ℕ)} {s s' : OCCStore S} {reply : TxnReply} {call : PutCall}
    (h : s.commitReads o kv id timestamp verKeys = .ok (reply, s', call)) :
    s'.prepared = (s.abort id).prepared ∧ call = putCall o ((s.entry id).getD {}) timestamp := by
  rw [commitReads] at h
  split at h
  · cases h
  · rename_i txn htxn
    obtain ⟨digest, -, h⟩ := bind_eq_ok_iff.mp h
    obtain ⟨⟨_, _⟩, -, h⟩ := bind_eq_ok_iff.mp h
    obtain ⟨⟨_, _⟩, -, h⟩ := bind_eq_ok_iff.mp h
    obtain ⟨⟨_, _⟩, -, h⟩ := bind_eq_ok_iff.mp h
    obtain ⟨-, rfl, rfl⟩ := Prod.mk.inj (Except.ok.inj h) |>.imp_right Prod.mk.inj
    refine ⟨rfl, ?_⟩
    rw [entry, htxn]
    rfl

/-! ### Runs of calls -/

/-- A transaction is entered once. -/
def NodupIds (s : OCCStore S) : Prop := (s.prepared.map Prod.fst).Nodup

theorem entry_of_mem {s : OCCStore S} (h : s.NodupIds) {e : ℕ × Transaction}
    (he : e ∈ s.prepared) : s.entry e.1 = some e.2 := by
  obtain ⟨l₁, l₂, hsplit⟩ := List.append_of_mem he
  rw [NodupIds, hsplit, List.map_append, List.map_cons, List.nodup_append] at h
  rw [entry, List.lookup_eq_some_iff]
  refine ⟨l₁, l₂, hsplit, fun e' he' => ?_⟩
  have hne := h.2.2 e'.1 (List.mem_map_of_mem he') e.1 List.mem_cons_self
  simpa using Ne.symm hne

theorem NodupIds.abort {s : OCCStore S} (h : s.NodupIds) (id : ℕ) : (s.abort id).NodupIds :=
  h.sublist (List.filter_sublist.map _)

theorem NodupIds.cons {s : OCCStore S} (h : s.NodupIds) {id : ℕ} (hnone : s.entry id = none)
    (txn : Transaction) : NodupIds { s with prepared := (id, txn) :: s.prepared } := by
  apply List.nodup_cons.mpr
  constructor
  · intro hid
    obtain ⟨e, he, rfl⟩ := List.mem_map.mp hid
    rw [entry_of_mem h he] at hnone
    cases hnone
  · exact h

/-- Nothing happens when a transaction is prepared already. -/
theorem prepare_of_entry_some {s : OCCStore S} {id : ℕ} {t : Transaction}
    (h : s.entry id = some t) (txn : Transaction) : s.prepare id txn = (.ok, s) := by
  rw [prepare, if_pos]
  rw [show s.prepared.lookup id = some t from h]
  rfl

/-- What every call keeps. -/
structure Admitted (s : OCCStore S) : Prop where
  nodup : s.NodupIds
  free : s.ConflictFree

theorem Admitted.abort {s : OCCStore S} (h : s.Admitted) (id : ℕ) : (s.abort id).Admitted :=
  ⟨h.nodup.abort id, h.free.abort id⟩

/-- Both properties are about the table alone. -/
theorem Admitted.congr {s s' : OCCStore S} (h : s.Admitted) (heq : s'.prepared = s.prepared) :
    s'.Admitted := by
  constructor
  · rw [NodupIds, heq]
    exact h.nodup
  · apply h.free.mono
    intro id t ht
    rwa [entry, ← heq]

theorem Admitted.prepare {s : OCCStore S} (h : s.Admitted) (id : ℕ) (txn : Transaction) :
    (s.prepare id txn).2.Admitted := by
  cases hentry : s.entry id with
  | some t =>
    rw [prepare_of_entry_some hentry]
    exact h
  | none =>
    refine ⟨?_, h.free.prepare hentry txn⟩
    obtain ⟨heq, -⟩ | ⟨heq, -⟩ := prepare_of_entry_none hentry txn
    · rw [heq]
      exact h.nodup.cons hentry txn
    · rw [heq]
      exact h.nodup

section Calls

variable {o : HashOrder} {kv : KVStore S}

theorem Admitted.step {s s' : OCCStore S} (h : s.Admitted) {c : Call}
    (hstep : s.step o kv c = some s') : s'.Admitted := by
  cases c with
  | prepare id txn =>
    obtain rfl := Option.some.inj hstep
    exact h.prepare id txn
  | abort id =>
    obtain rfl := Option.some.inj hstep
    exact h.abort id
  | commit id timestamp =>
    simp only [OCCStore.step] at hstep
    split at hstep
    · rename_i reply s₁ call hcommit
      obtain rfl := Option.some.inj hstep
      exact (h.abort id).congr (commit_eq_ok hcommit).1
    · cases hstep
  | commitReads id timestamp verKeys =>
    simp only [OCCStore.step] at hstep
    split at hstep
    · rename_i reply s₁ call hcommit
      obtain rfl := Option.some.inj hstep
      exact (h.abort id).congr (commitReads_eq_ok hcommit).1
    · cases hstep

theorem admitted_of_runs {store : S} {calls : List Call} {s : OCCStore S}
    (h : Run.runs (OCCStore.step o kv) { store } calls = some s) : s.Admitted := by
  refine Run.runs_inv ?_ (fun s c s' hs hstep => hs.step hstep) h
  constructor
  · exact List.nodup_nil
  · intro id id' t t' ht
    cases ht

/-- **Admission is exact** in every run of `Prepare`, `Commit` and `Abort` from an empty table. -/
theorem admission_exact {store : S} {calls : List Call} {s : OCCStore S}
    (h : Run.runs (OCCStore.step o kv) { store } calls = some s) :
    s.ConflictFree ∧
      (∀ id txn, s.entry id = none →
        ((s.prepare id txn).1 = .ok ↔ ∀ id' t, s.entry id' = some t → ¬ Conflict txn t)) ∧
      ∀ id txn, (s.prepare id txn).1 ≠ .ok → (s.prepare id txn).2.prepared = s.prepared := by
  have hinv := admitted_of_runs h
  refine ⟨hinv.free, ?_, ?_⟩
  · intro id txn hnone
    obtain ⟨heq, hfree⟩ | ⟨heq, e, he, hconflict⟩ := prepare_of_entry_none hnone txn
    · rw [heq]
      exact iff_of_true rfl fun id' t ht => hfree _ (mem_of_entry ht)
    · rw [heq]
      exact iff_of_false (fun hok => by cases hok) fun hfree => hfree _ _ (entry_of_mem hinv.nodup he) hconflict
  · intro id txn hfail
    cases hentry : s.entry id with
    | some t =>
      rw [prepare_of_entry_some hentry] at hfail
      exact absurd rfl hfail
    | none =>
      obtain ⟨heq, -⟩ | ⟨heq, -⟩ := prepare_of_entry_none hentry txn
      · rw [heq] at hfail
        exact absurd rfl hfail
      · rw [heq]

/-- Two writers of one key, of which the second is prepared after the first has committed. -/
theorem admission_exact_writers :
    ∃ (kv : KVStore Unit) (s : OCCStore Unit),
      Run.runs (OCCStore.step .insertion kv) { store := () }
        [.prepare 1 { writeSet := [(str "k", str "a")] },
          .prepare 2 { writeSet := [(str "k", str "b")] }, .commit 1 7,
          .prepare 2 { writeSet := [(str "k", str "b")] }] = some s ∧
      s.entry 2 = some { writeSet := [(str "k", str "b")] } ∧ s.ConflictFree := by
  let kv : KVStore Unit :=
    { getDigest := fun _ => .ok (0, [])
      batchGet := fun _ reply s => .ok (reply, s)
      getNVersions := fun _ reply s => .ok (reply, s)
      put := fun _ _ _ reply s => .ok (reply, s) }
  have hrun : Run.runs (OCCStore.step .insertion kv) { store := () }
      [.prepare 1 { writeSet := [(str "k", str "a")] },
        .prepare 2 { writeSet := [(str "k", str "b")] }, .commit 1 7,
        .prepare 2 { writeSet := [(str "k", str "b")] }] =
      some { store := (), prepared := [(2, { writeSet := [(str "k", str "b")] })] } := rfl
  exact ⟨kv, _, hrun, by decide, (admission_exact hrun).1⟩

end Calls

end OCCStore

/-! ### The upcall -/

namespace Server

open OCCStore (putCall)

variable {S : Type} {d : Deployment S}

/-- `PREPARE` answers as `Prepare` does. -/
theorem leaderUpcall_prepare (time id : ℕ) (msg : TransactionMessage) (s : OCCStore S) :
    ∃ up, leaderUpcall d time (.prepare id msg) s = .ok up ∧ up.call = none ∧
      up.reply.status = (s.prepare id (.ofMessage msg)).1 ∧
      up.store = (s.prepare id (.ofMessage msg)).2 :=
  ⟨_, rfl, rfl, rfl, rfl⟩

/-- **`COMMIT`** takes the transaction out of the table and puts its writes. -/
theorem leaderUpcall_commit {time id timestamp : ℕ} {version : List (Bytes × ℕ)}
    {s : OCCStore S} {up : Upcall S}
    (h : leaderUpcall d time (.commit id timestamp version) s = .ok up) :
    up.store.prepared = (s.abort id).prepared ∧
      up.call = some (putCall d.order ((s.entry id).getD {}) timestamp) ∧
      up.reply.status = .ok := by
  rw [leaderUpcall] at h
  obtain ⟨⟨reply, store, call⟩, hcommit, h⟩ := bind_eq_ok_iff.mp h
  obtain rfl := Except.ok.inj h
  have hcall : store.prepared = (s.abort id).prepared ∧
      call = putCall d.order ((s.entry id).getD {}) timestamp := by
    rw [commit] at hcommit
    split at hcommit
    · exact OCCStore.commitReads_eq_ok hcommit
    · exact OCCStore.commit_eq_ok hcommit
  exact ⟨hcall.1, congrArg some hcall.2, rfl⟩

theorem leaderUpcall_abort (time id : ℕ) (msg : TransactionMessage) (s : OCCStore S) :
    leaderUpcall d time (.abort id msg) s =
      .ok { reply := {}, replicate := true, store := s.abort id, call := none } := rfl

end Server

end LedgerDatabase.Distributed
