import LedgerDatabase.Ledgerdb.Equiv.GetRange

/-!
# What a read leaves behind

`GetValues` looks a key up with `operator[]`, which enters a missing key with `0`.  The lists and the
values do not change, but a later `GetRange` walks over the new entry.  So a read has no effect
exactly if all its keys have been entered before, by `Set` or by another read
(`getValues_unchanged_iff`).
-/

namespace LedgerDatabase.Ledgerdb.LedgerDB

variable {H : Bytes → Hash} {s s' : LedgerDB} {heads : StdMap ℤ} {key : Bytes} {keys : List Bytes}

/-! ### Runs -/

/-- A call on a ledger, or a round of `buildTree`. -/
inductive Call
  | set (c : SetCall)
  | build (n : ℕ)
  | values (keys : List Bytes)
  | range (start stop : Bytes)
  | versions (nversions : UInt64) (keys : List Bytes)

/-- What a call returns. -/
inductive Answer
  | done
  | values (fs : List Found)
  | range (m : StdMap Found)
  | versions (fss : List (List Found))
  deriving DecidableEq

/-- One call. -/
def Call.exec (H : Bytes → Hash) (s : LedgerDB) : Call → Except Fault (Answer × LedgerDB)
  | .set c => do return (.done, ← c.run s)
  | .build n => do return (.done, ← s.buildTree H n)
  | .values keys => do
    let (fs, s) ← s.getValues keys
    return (.values fs, s)
  | .range start stop => do return (.range (← s.getRange start stop), s)
  | .versions n keys => do return (.versions (← s.getNVersions n keys), s)

/-- One call after the other; a call that fails ends the run. -/
def execAll (H : Bytes → Hash) : List Call → LedgerDB → Except Fault (List Answer × LedgerDB)
  | [], s => .ok ([], s)
  | call :: calls, s => do
    let (answer, s) ← call.exec H s
    let (answers, s) ← execAll H calls s
    return (answer :: answers, s)

/-- No later call sees a difference between two states. -/
def Unchanged (H : Bytes → Hash) (s s' : LedgerDB) : Prop :=
  ∀ calls, (execAll H calls s').map Prod.fst = (execAll H calls s).map Prod.fst

/-- The keys that a call enters into `skiplist_head_`. -/
def Call.entered : Call → List Bytes
  | .set c => c.keys
  | .values keys => keys
  | .build _ | .range _ _ | .versions _ _ => []

/-! ### The index -/

/-- `skiplist_head_` has exactly the entered keys. -/
structure Entered (heads : StdMap ℤ) (entered : List Bytes) : Prop where
  ordered : heads.Ordered
  mem : ∀ key, key ∈ heads.map (·.1) ↔ key ∈ entered

variable {entered : List Bytes}

theorem Entered.assign (h : Entered heads entered) (key : Bytes) (k : ℤ) :
    Entered (heads.assign key k) (entered ++ [key]) := by
  refine ⟨h.ordered.assign key k, fun key' => ?_⟩
  rw [StdMap.keys_assign, h.mem, List.mem_append, List.mem_singleton]
  tauto

theorem Entered.setKeys {timestamp : ℕ} {blk : Bytes} {values : List Bytes} {coins : List (List Bool)}
    {db db' : DB} {heads' : StdMap ℤ} (h : Entered heads entered)
    (hrun : LedgerDB.setKeys timestamp blk keys values coins db heads = .ok (db', heads')) :
    Entered heads' (entered ++ keys) := by
  induction keys generalizing values coins db heads entered with
  | nil =>
    obtain ⟨-, rfl⟩ := Prod.mk.inj (Except.ok.inj hrun)
    rwa [List.append_nil]
  | cons key keys ih =>
    cases values with
    | nil => cases hrun
    | cons val values =>
      rw [LedgerDB.setKeys] at hrun
      obtain ⟨db₁, -, hrun⟩ := bind_eq_ok_iff.mp hrun
      rw [← List.singleton_append, ← List.append_assoc]
      exact ih (h.assign key _) hrun

/-- A read of one key only enters it. -/
theorem getValue_state {f : Found} (h : s.getValue key = .ok (f, s')) :
    s' = { s with skiplistHead := s.skiplistHead.assign key ((s.skiplistHead.lookup key).getD 0) } := by
  unfold getValue at h
  simp only at h
  obtain ⟨node, -, h⟩ := bind_eq_ok_iff.mp h
  split_ifs at h
  · exact (Prod.mk.inj (Except.ok.inj h)).2.symm
  · obtain ⟨skipnode, -, h⟩ := bind_eq_ok_iff.mp h
    obtain ⟨found, -, h⟩ := bind_eq_ok_iff.mp h
    exact (Prod.mk.inj (Except.ok.inj h)).2.symm

theorem Entered.getValues {fs : List Found} (h : Entered s.skiplistHead entered)
    (hget : s.getValues keys = .ok (fs, s')) : Entered s'.skiplistHead (entered ++ keys) := by
  induction keys generalizing s fs entered with
  | nil =>
    obtain ⟨-, rfl⟩ := Prod.mk.inj (Except.ok.inj hget)
    rwa [List.append_nil]
  | cons key keys ih =>
    rw [LedgerDB.getValues] at hget
    obtain ⟨⟨f, s₁⟩, hvalue, hget⟩ := bind_eq_ok_iff.mp hget
    obtain ⟨⟨fs', s₂⟩, hrest, hget⟩ := bind_eq_ok_iff.mp hget
    obtain ⟨-, rfl⟩ := Prod.mk.inj (Except.ok.inj hget)
    rw [← List.singleton_append, ← List.append_assoc]
    apply ih _ hrest
    rw [getValue_state hvalue]
    exact h.assign key _

/-- One call. -/
theorem Entered.exec {call : Call} {answer : Answer} (h : Entered s.skiplistHead entered)
    (hrun : call.exec H s = .ok (answer, s')) :
    Entered s'.skiplistHead (entered ++ call.entered) := by
  cases call with
  | set c =>
    obtain ⟨s₁, hcall, hrun⟩ := bind_eq_ok_iff.mp hrun
    obtain ⟨-, rfl⟩ := Prod.mk.inj (Except.ok.inj hrun)
    obtain ⟨⟨s₂, blk⟩, hset, heq⟩ := bind_eq_ok_iff.mp hcall
    obtain rfl : s₂ = s₁ := Except.ok.inj heq
    rw [LedgerDB.set] at hset
    split_ifs at hset with hkeys
    · obtain ⟨rfl, -⟩ := Prod.mk.inj (Except.ok.inj hset)
      rw [Call.entered, List.length_eq_zero_iff.mp hkeys, List.append_nil]
      exact h
    · obtain ⟨blkVal, -, hset⟩ := bind_eq_ok_iff.mp hset
      obtain ⟨⟨db', heads'⟩, hloop, hset⟩ := bind_eq_ok_iff.mp hset
      obtain ⟨rfl, -⟩ := Prod.mk.inj (Except.ok.inj hset)
      exact h.setKeys hloop
  | build n =>
    obtain ⟨s₁, hbuild, hrun⟩ := bind_eq_ok_iff.mp hrun
    obtain ⟨-, rfl⟩ := Prod.mk.inj (Except.ok.inj hrun)
    rw [Call.entered, List.append_nil]
    rw [buildTree] at hbuild
    split at hbuild
    · rwa [← Except.ok.inj hbuild]
    · obtain ⟨db, -, hbuild⟩ := bind_eq_ok_iff.mp hbuild
      rwa [← Except.ok.inj hbuild]
  | values keys =>
    obtain ⟨⟨fs, s₁⟩, hget, hrun⟩ := bind_eq_ok_iff.mp hrun
    obtain ⟨-, rfl⟩ := Prod.mk.inj (Except.ok.inj hrun)
    exact h.getValues hget
  | range start stop =>
    obtain ⟨m, -, hrun⟩ := bind_eq_ok_iff.mp hrun
    obtain ⟨-, rfl⟩ := Prod.mk.inj (Except.ok.inj hrun)
    rwa [Call.entered, List.append_nil]
  | versions n keys =>
    obtain ⟨fss, -, hrun⟩ := bind_eq_ok_iff.mp hrun
    obtain ⟨-, rfl⟩ := Prod.mk.inj (Except.ok.inj hrun)
    rwa [Call.entered, List.append_nil]

/-- **The entered keys of a run.** -/
theorem Entered.execAll {calls : List Call} {answers : List Answer}
    (h : Entered s.skiplistHead entered) (hrun : execAll H calls s = .ok (answers, s')) :
    Entered s'.skiplistHead (entered ++ calls.flatMap Call.entered) := by
  induction calls generalizing s answers entered with
  | nil =>
    obtain ⟨-, rfl⟩ := Prod.mk.inj (Except.ok.inj hrun)
    rwa [List.flatMap_nil, List.append_nil]
  | cons call calls ih =>
    obtain ⟨⟨answer, s₁⟩, hcall, hrun⟩ := bind_eq_ok_iff.mp hrun
    obtain ⟨⟨answers', s₂⟩, hrest, hrun⟩ := bind_eq_ok_iff.mp hrun
    obtain ⟨-, rfl⟩ := Prod.mk.inj (Except.ok.inj hrun)
    rw [List.flatMap_cons, ← List.append_assoc]
    exact ih (h.exec hcall) hrest

/-! ### Reads -/

/-- A read of entered keys changes nothing. -/
theorem getValues_state {fs : List Found} (horder : s.skiplistHead.Ordered)
    (hkeys : ∀ key ∈ keys, key ∈ s.skiplistHead.map (·.1))
    (hget : s.getValues keys = .ok (fs, s')) : s' = s := by
  induction keys generalizing fs with
  | nil => exact (Prod.mk.inj (Except.ok.inj hget)).2.symm
  | cons key keys ih =>
    rw [LedgerDB.getValues] at hget
    obtain ⟨⟨f, s₁⟩, hvalue, hget⟩ := bind_eq_ok_iff.mp hget
    obtain ⟨⟨fs', s₂⟩, hrest, hget⟩ := bind_eq_ok_iff.mp hget
    obtain ⟨-, rfl⟩ := Prod.mk.inj (Except.ok.inj hget)
    obtain ⟨e, he, rfl⟩ := List.mem_map.mp (hkeys key List.mem_cons_self)
    have hlookup := StdMap.lookup_of_mem horder he
    have hstate := getValue_state hvalue
    rw [hlookup, Option.getD_some, StdMap.assign_of_lookup horder hlookup] at hstate
    rw [hstate] at hrest
    exact ih (fun key hkey => hkeys key (List.mem_cons_of_mem _ hkey)) hrest

theorem rangeLoop_self (db : DB) (it : StdMap ℤ) (values : StdMap Found) :
    LedgerDB.rangeLoop db it it values = .ok values := by
  cases it with
  | nil => rfl
  | cons e it => rw [LedgerDB.rangeLoop, if_pos (List.length_cons).symm]

/-- The range of one key that was not entered is empty. -/
theorem getRange_of_not_mem (horder : s.skiplistHead.Ordered)
    (hkey : key ∉ s.skiplistHead.map (·.1)) : s.getRange key key = .ok [] := by
  have hbounds : s.skiplistHead.lowerBound key = s.skiplistHead.upperBound key := by
    rw [StdMap.lowerBound_eq_filter horder, StdMap.upperBound_eq_filter horder]
    refine List.filter_congr fun e he => ?_
    have hne : e.1 ≠ key := fun heq => hkey (List.mem_map.mpr ⟨e, he, heq⟩)
    have hiff : e.1 ≤ key ↔ e.1 < key :=
      ⟨fun hle => StdMap.lt_of_not_lt_of_ne (List.not_lt.mpr hle) hne.symm, List.le_of_lt⟩
    simp [hiff]
  rw [getRange, hbounds, rangeLoop_self]

/-- The range of one entered key is not. -/
theorem getRange_of_mem (horder : s.skiplistHead.Ordered) (hkey : key ∈ s.skiplistHead.map (·.1)) :
    s.getRange key key ≠ .ok [] := by
  obtain ⟨⟨key, k⟩, he, rfl⟩ := List.mem_map.mp hkey
  obtain ⟨l, r, hheads⟩ := List.append_of_mem he
  rw [hheads] at horder
  obtain ⟨-, hr, hlr⟩ := StdMap.ordered_append.mp horder
  have hl : ∀ e ∈ l, e.1 < key := fun e he => hlr e he (key, k) List.mem_cons_self
  have hr : ∀ e ∈ r, key < e.1 := (List.pairwise_cons.mp hr).1
  have hlower : s.skiplistHead.lowerBound key = (key, k) :: r := by
    rw [hheads, StdMap.lowerBound, List.dropWhile_append_of_pos fun e he => decide_eq_true (hl e he)]
    exact List.dropWhile_cons_of_neg (by simp [List.lt_irrefl])
  have hupper : s.skiplistHead.upperBound key = r := by
    rw [hheads, StdMap.upperBound,
      List.dropWhile_append_of_pos fun e he => decide_eq_true (List.le_of_lt (hl e he)),
      List.dropWhile_cons_of_pos (by simp)]
    cases r with
    | nil => rfl
    | cons e r =>
      exact List.dropWhile_cons_of_neg (by simpa using hr e List.mem_cons_self)
  intro hget
  rw [getRange, hlower, hupper, LedgerDB.rangeLoop, if_neg (Nat.succ_ne_self _)] at hget
  obtain ⟨node, -, hget⟩ := bind_eq_ok_iff.mp hget
  obtain ⟨skipnode, -, hget⟩ := bind_eq_ok_iff.mp hget
  obtain ⟨f, -, hget⟩ := bind_eq_ok_iff.mp hget
  rw [rangeLoop_self] at hget
  exact StdMap.assign_ne_nil (Except.ok.inj hget)

theorem execAll_range (H : Bytes → Hash) (s : LedgerDB) (start stop : Bytes) :
    (execAll H [.range start stop] s).map Prod.fst =
      (s.getRange start stop).map fun m => [Answer.range m] := by
  rw [LedgerDB.execAll, Call.exec]
  cases s.getRange start stop <;> rfl

/-- **A read has no effect** exactly if all its keys have been entered before. -/
theorem getValues_unchanged_iff {calls : List Call} {answers : List Answer} {fs : List Found}
    (hrun : execAll H calls {} = .ok (answers, s)) (hget : s.getValues keys = .ok (fs, s')) :
    Unchanged H s s' ↔ ∀ key ∈ keys, key ∈ calls.flatMap Call.entered := by
  have hstart : Entered ({} : LedgerDB).skiplistHead [] :=
    ⟨StdMap.ordered_nil, fun _ => Iff.rfl⟩
  have h := hstart.execAll hrun
  rw [List.nil_append] at h
  constructor
  · intro hsame key hkey
    by_contra hnew
    have h' := h.getValues hget
    have hin : key ∈ s'.skiplistHead.map (·.1) := (h'.mem key).mpr (List.mem_append_right _ hkey)
    -- the range of this key shows the difference
    have hrange := hsame [.range key key]
    have hbefore := getRange_of_not_mem h.ordered fun hmem => hnew ((h.mem key).mp hmem)
    apply getRange_of_mem h'.ordered hin
    rw [execAll_range, execAll_range, hbefore] at hrange
    cases hafter : s'.getRange key key with
    | error e =>
      rw [hafter] at hrange
      cases hrange
    | ok m =>
      rw [hafter] at hrange
      rw [Answer.range.inj (List.cons.inj (Except.ok.inj hrange)).1]
  · intro hkeys calls'
    rw [getValues_state h.ordered (fun key hkey => (h.mem key).mpr (hkeys key hkey)) hget]

/-- A key is looked up twice, the first time before it is written. -/
def lookupCalls : List Call :=
  [.values [str "k"], .set ⟨[str "k", str "j"], [str "a", str "b"], 5, []⟩]

theorem getValues_unchanged_lookup :
    ∃ answers s fs s', execAll (Hash.ofTable []) lookupCalls {} = .ok (answers, s) ∧
      s.getValues [str "j", str "k"] = .ok (fs, s') ∧ Unchanged (Hash.ofTable []) s s' := by
  have hok : ((execAll (Hash.ofTable []) lookupCalls {}).bind fun r =>
      r.2.getValues [str "j", str "k"]).toBool := by decide +kernel
  cases hrun : execAll (Hash.ofTable []) lookupCalls {} with
  | error e =>
    rw [hrun] at hok
    cases hok
  | ok r =>
    obtain ⟨answers, s⟩ := r
    rw [hrun] at hok
    cases hget : s.getValues [str "j", str "k"] with
    | error e =>
      change (s.getValues [str "j", str "k"]).toBool at hok
      rw [hget] at hok
      cases hok
    | ok r =>
      exact ⟨answers, s, r.1, r.2, rfl, hget,
        (getValues_unchanged_iff hrun hget).mpr (by decide)⟩

/-- Reading a key that was never written makes a later range fail. -/
theorem read_breaks_range :
    ∃ s', ({} : LedgerDB).getValues [str "k"] = .ok ([⟨0, 0, []⟩], s') ∧
      ({} : LedgerDB).getRange (str "a") (str "z") = .ok [] ∧
      s'.getRange (str "a") (str "z") = .error .invalidArgument ∧
      ¬ Unchanged (Hash.ofTable []) {} s' := by
  have hafter : ({ skiplistHead := [(str "k", 0)] } : LedgerDB).getRange (str "a") (str "z") =
      .error .invalidArgument := by decide +kernel
  refine ⟨{ skiplistHead := [(str "k", 0)] }, rfl, rfl, hafter, fun hsame => ?_⟩
  have hrange := hsame [.range (str "a") (str "z")]
  rw [execAll_range, execAll_range, hafter] at hrange
  cases hrange

end LedgerDatabase.Ledgerdb.LedgerDB
