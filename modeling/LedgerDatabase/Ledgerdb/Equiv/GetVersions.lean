import LedgerDatabase.Ledgerdb.Equiv.Versions

/-!
# The newest versions of a key

`scan` starts at the head, which is the first version that was written, and goes on with the other
versions in descending order until a timestamp looks negative.  The number of versions is cut to an
`int`.  So `GetVersions` returns the newest versions only if the first version is the newest one and
these two limits do not matter (`getNVersions_iff`).

Timestamps of other keys need not be different: their lists are separate (`Holding.setKeys`).
-/

namespace LedgerDatabase.Ledgerdb.LedgerDB

open SkipList (Agree Empty IsNode Pass Rep randomLevel reachedNodes records)
open SkipChain (Node)

variable {s s' : LedgerDB} {db db' : DB} {heads heads' : StdMap ℤ} {ws rest : List Version}
  {w : Version} {cs : List SetCall} {c : SetCall} {key : Bytes}

/-! ### The list of one key -/

/-- The list of a key holds some versions, with the first one at its head. -/
inductive Holding (db : DB) (key : Bytes) : List Version → Prop
  | empty (hempty : Empty db (listKey key)) : Holding db key []
  | chain (w : Version) (rest behind : List Version) (h : Node ℤ Bytes) (ns : List (Node ℤ Bytes))
      (hr : Rep db (listKey key) h ns) (hhead : (h.key, h.val) = w.entry)
      (hns : ns.map (fun n => (n.key, n.val)) = behind.map Version.entry)
      (hperm : behind.Perm rest) : Holding db key (w :: rest)

theorem Holding.agree (hh : Holding db key ws) (ha : Agree (listKey key) db db') :
    Holding db' key ws := by
  cases hh with
  | empty hempty => exact Holding.empty (hempty.agree ha)
  | chain w rest behind h ns hr hhead hns hperm =>
    exact Holding.chain w rest behind h ns (hr.agree ha) hhead hns hperm

/-- The timestamps in a list. -/
theorem mem_keys_of_entries {ns : List (Node ℤ Bytes)} {behind : List Version}
    (hns : ns.map (fun n => (n.key, n.val)) = behind.map Version.entry) :
    ns.map Node.key = behind.map fun w => toLong w.timestamp.toNat := by
  have hkeys := congrArg (List.map Prod.fst) hns
  rw [List.map_map, List.map_map] at hkeys
  exact hkeys

/-- **Another version.** -/
theorem Holding.write (hh : Holding db w.key ws) (hw : Plain w.val) (coins : List Bool)
    (hnew : w.timestamp ∉ ws.map Version.timestamp) :
    ∃ db', SkipList.insert db (listKey w.key) w.entry.1 w.entry.2 coins = .ok db' ∧
      Holding db' w.key (ws ++ [w]) := by
  cases hh with
  | empty hempty =>
    obtain ⟨db', hrun, hr, -⟩ :=
      SkipList.insert_empty coins hempty.head hempty.node (noBar_entry hw)
    exact ⟨db', hrun, Holding.chain w [] [] _ [] hr rfl rfl (List.Perm.refl _)⟩
  | chain w₀ rest behind h ns hr hhead hns hperm =>
    have hfresh : w.entry.1 ∉ (h :: ns).map Node.key := by
      rw [List.map_cons, mem_keys_of_entries hns, show h.key = w₀.entry.1 from (Prod.mk.inj hhead).1,
        List.mem_cons, not_or]
      rw [List.map_cons, List.mem_cons, not_or] at hnew
      refine ⟨fun heq => hnew.1 (toLong_injective heq), fun hmem => hnew.2 ?_⟩
      obtain ⟨w', hw', heq⟩ := List.mem_map.mp hmem
      rw [← toLong_injective heq]
      exact List.mem_map_of_mem (hperm.mem_iff.mp hw')
    obtain ⟨db', hrun, hr', -⟩ := SkipList.insert_rep coins hr hfresh (noBar_entry hw)
    -- the versions behind the head are cut where the nodes are
    rw [← SkipChain.passed_append_stopped (Pass w.entry.1) ns, List.map_append] at hns
    obtain ⟨newer, older, rfl, hnewer, holder⟩ := List.map_eq_append_iff.mp hns.symm
    refine ⟨db', hrun, Holding.chain w₀ (rest ++ [w]) (newer ++ w :: older) h _ hr' hhead ?_ ?_⟩
    · rw [SkipChain.insert, List.map_append, List.map_cons, ← hnewer, ← holder, List.map_append,
        List.map_cons]
    · exact (List.perm_middle.trans (hperm.cons w)).trans (List.perm_append_singleton w rest).symm

/-- The loop of `Set`. -/
theorem Holding.setKeys {timestamp : UInt64} {blk : ℕ} {keys values : List Bytes}
    {coins : List (List Bool)} (hh : Holding db key ws)
    (hrun : LedgerDB.setKeys timestamp.toNat (toDecimal blk) keys values coins db heads =
      .ok (db', heads'))
    (hplain : ∀ w ∈ writesOf key (SetCall.writes blk ⟨keys, values, timestamp, coins⟩), Plain w.val)
    (hdistinct : ((ws ++ writesOf key (SetCall.writes blk ⟨keys, values, timestamp, coins⟩)).map
      Version.timestamp).Nodup) :
    Holding db' key (ws ++ writesOf key (SetCall.writes blk ⟨keys, values, timestamp, coins⟩)) := by
  induction keys generalizing db heads ws values coins with
  | nil =>
    obtain ⟨rfl, -⟩ := Prod.mk.inj (Except.ok.inj hrun)
    rw [SetCall.writes, List.zip_nil_left, List.map_nil, writesOf, List.filter_nil, List.append_nil]
    exact hh
  | cons k keys ih =>
    cases values with
    | nil => cases hrun
    | cons val values =>
      rw [LedgerDB.setKeys] at hrun
      obtain ⟨db₁, hinsert, hrun⟩ := bind_eq_ok_iff.mp hrun
      have hcons : SetCall.writes blk ⟨k :: keys, val :: values, timestamp, coins⟩ =
          ⟨k, timestamp, blk, val⟩ :: SetCall.writes blk ⟨keys, values, timestamp, coins.tail⟩ := rfl
      rw [hcons] at hplain hdistinct ⊢
      by_cases hk : k = key
      · subst hk
        have hself (ws : List Version) : writesOf k (⟨k, timestamp, blk, val⟩ :: ws) =
            ⟨k, timestamp, blk, val⟩ :: writesOf k ws := by simp [writesOf]
        rw [hself] at hplain hdistinct ⊢
        rw [← List.singleton_append, ← List.append_assoc] at hdistinct ⊢
        have hnew : timestamp ∉ ws.map Version.timestamp := by
          rw [List.map_append, List.map_append, List.nodup_append, List.nodup_append] at hdistinct
          intro hmem
          exact hdistinct.1.2.2 _ hmem timestamp (by simp) rfl
        obtain ⟨db₂, hinsert', hh'⟩ := Holding.write (w := ⟨k, timestamp, blk, val⟩) hh
          (hplain _ List.mem_cons_self) coins.head?.toList.flatten hnew
        have heq : db₂ = db₁ := Except.ok.inj (hinsert'.symm.trans hinsert)
        subst heq
        exact ih hh' hrun (fun w hw => hplain w (List.mem_cons_of_mem _ hw)) hdistinct
      · have hother (ws : List Version) : writesOf key (⟨k, timestamp, blk, val⟩ :: ws) =
            writesOf key ws := by simp [writesOf, hk]
        rw [hother] at hplain hdistinct ⊢
        have hframe := (SkipList.insert_writes hinsert).frame
        refine ih (hh.agree (hframe.agree fun heq => hk ?_)) hrun hplain hdistinct
        exact (listKey_injective heq).symm

/-- What is known of one key after some calls. -/
structure HasWritten (s : LedgerDB) (key : Bytes) (w : Written) : Prop where
  next : s.nextBlockSeq = w.blocks
  holding : Holding s.db key (writesOf key w.writes)

theorem HasWritten.set {w : Written} (h : HasWritten s key w) (hrun : c.run s = .ok s')
    (hplain : ∀ v ∈ writesOf key (w.set c).writes, Plain v.val)
    (hdistinct : ((writesOf key (w.set c).writes).map Version.timestamp).Nodup) :
    HasWritten s' key (w.set c) := by
  rw [SetCall.run, LedgerDB.set] at hrun
  rw [Written.set] at hplain hdistinct ⊢
  by_cases hkeys : c.keys.length = 0
  · rw [if_pos hkeys] at hrun ⊢
    obtain rfl := Except.ok.inj hrun
    exact h
  · rw [if_neg hkeys] at hrun hplain hdistinct ⊢
    obtain ⟨⟨s₁, blk⟩, hset, hrun⟩ := bind_eq_ok_iff.mp hrun
    obtain rfl : s₁ = s' := Except.ok.inj hrun
    obtain ⟨blkVal, -, hset⟩ := bind_eq_ok_iff.mp hset
    obtain ⟨⟨db', heads'⟩, hloop, hset⟩ := bind_eq_ok_iff.mp hset
    obtain ⟨rfl, -⟩ := Prod.mk.inj (Except.ok.inj hset)
    have hput : Agree (listKey key) s.db (s.db.putString (ledgerKey s.nextBlockSeq) blkVal) := by
      have hread (k : Bytes) (hk : str "skiplist_" <+: k) :
          SkipList.readRecord (s.db.putString (ledgerKey s.nextBlockSeq) blkVal) k =
            SkipList.readRecord s.db k := by
        rw [SkipList.readRecord, SkipList.readRecord, DB.getString_putString, if_neg]
        exact ne_of_head? (head?_skiplist hk) (head?_ledgerKey _) (by decide)
      exact ⟨hread _ (prefix_headKey key), fun k => hread _ (prefix_listNode key k)⟩
    simp only at hplain hdistinct
    rw [writesOf_append, ← h.next] at hplain hdistinct
    refine ⟨by rw [← h.next], ?_⟩
    simp only
    rw [writesOf_append, ← h.next]
    exact (h.holding.agree hput).setKeys hloop
      (fun v hv => hplain v (List.mem_append_right _ hv)) hdistinct

theorem HasWritten.run {cs : List SetCall} (hrun : setAll {} cs = .ok s)
    (hplain : ∀ w ∈ writesOf key (written cs).writes, Plain w.val)
    (hdistinct : ((writesOf key (written cs).writes).map Version.timestamp).Nodup) :
    HasWritten s key (written cs) := by
  induction cs using List.reverseRecOn generalizing s with
  | nil =>
    obtain rfl := Except.ok.inj hrun
    exact ⟨rfl, Holding.empty ⟨rfl, fun _ => rfl⟩⟩
  | append_singleton cs c ih =>
    rw [setAll_concat] at hrun
    obtain ⟨s₁, hinit, hstep⟩ := bind_eq_ok_iff.mp hrun
    have hsub : (writesOf key (written cs).writes).Sublist
        (writesOf key (written (cs ++ [c])).writes) := by
      rw [written_concat, Written.set]
      split_ifs
      · exact List.Sublist.refl _
      · rw [writesOf_append]
        exact List.sublist_append_left _ _
    have h₁ := ih hinit (fun w hw => hplain w (hsub.subset hw)) (hdistinct.sublist (hsub.map _))
    rw [written_concat] at hplain hdistinct ⊢
    exact h₁.set hstep hplain hdistinct

/-! ### Reading it -/

/-- The versions that `scan` reaches behind the head. -/
def reachedVersions (ws : List Version) : List Version := ws.takeWhile fun w => 0 ≤ w.entry.1

theorem parseVersions_eq {xs : List Bytes} (hxs : List.Forall₂ IsNode xs (ws.map Version.entry))
    (hplain : ∀ w ∈ ws, Plain w.val) :
    LedgerDB.parseVersions xs = .ok (ws.map Version.found) := by
  induction ws generalizing xs with
  | nil =>
    cases hxs
    rfl
  | cons w ws ih =>
    rw [List.map_cons] at hxs
    obtain ⟨x, xs', hx, hxs', rfl⟩ := List.forall₂_cons_right_iff.mp hxs
    obtain ⟨node, hparse, -, hvalue⟩ := parse_isNode hx (hplain w List.mem_cons_self)
    have hrest := ih hxs' fun w hw => hplain w (List.mem_cons_of_mem _ hw)
    simp only [LedgerDB.parseVersions, hparse, ok_bind, hvalue, hrest]
    rfl

theorem getNVersions_eq {n : UInt64} {xs : List Bytes} {fs : List Found}
    (hscan : SkipList.scan s.db (listKey key) (toInt n.toNat) = .ok xs)
    (hparse : LedgerDB.parseVersions xs = .ok fs) : s.getNVersions n [key] = .ok [fs] := by
  rw [listKey] at hscan
  simp only [getNVersions, LedgerDB.getVersions, hscan, ok_bind, hparse]
  rfl

/-- `GetVersions` of a key that was not written. -/
theorem Holding.getNVersions_nil (hh : Holding s.db key []) (n : UInt64) :
    s.getNVersions n [key] = .ok [[]] := by
  cases hh with
  | empty hempty => exact getNVersions_eq (SkipList.scan_of_empty hempty.head _) rfl

/-- **`GetVersions`** returns the first version and those behind it. -/
theorem Holding.getNVersions_cons (hh : Holding s.db key (w :: rest))
    (hplain : ∀ v ∈ w :: rest, Plain v.val) (n : UInt64) :
    ∃ behind : List Version, behind.Perm rest ∧
      behind.Pairwise (fun v v' => 0 ≤ v'.entry.1 → v'.entry.1 < v.entry.1) ∧
      s.getNVersions n [key] =
        .ok [((w :: reachedVersions behind).take (toInt n.toNat).toNat).map Version.found] := by
  cases hh with
  | chain _ _ behind h ns hr hhead hns hperm =>
    have hkeys := mem_keys_of_entries hns
    refine ⟨behind, hperm, ?_, getNVersions_eq (hr.scan_records _) ?_⟩
    · have hsorted : (ns.map Node.key).Pairwise fun m n => 0 ≤ n → n < m :=
        List.pairwise_map.mpr hr.sorted
      rw [hkeys, List.pairwise_map] at hsorted
      exact hsorted
    · have hlen : (reachedNodes ns).length = (reachedVersions behind).length := by
        have hmap := congrArg (List.takeWhile fun k => decide (0 ≤ k)) hkeys
        rw [List.takeWhile_map, List.takeWhile_map] at hmap
        have hmap' := congrArg List.length hmap
        rwa [List.length_map, List.length_map] at hmap'
      have hcut : w :: reachedVersions behind =
          (w :: behind).take ((reachedVersions behind).length + 1) := by
        rw [List.take_succ_cons]
        congr 1
        exact List.prefix_iff_eq_take.mp (List.takeWhile_prefix _)
      rw [hcut, List.take_take, hlen]
      apply parseVersions_eq
      · rw [List.map_take, List.map_cons, ← hns, ← hhead]
        exact List.forall₂_take _ (SkipList.forall₂_records hr.clean)
      · intro v hv
        apply hplain
        have hmem := List.mem_of_mem_take hv
        rcases List.mem_cons.mp hmem with rfl | hmem
        · exact List.mem_cons_self
        · exact List.mem_cons_of_mem _ (hperm.mem_iff.mp hmem)

/-! ### The newest versions -/

/-- `fs` are the `n` versions with the largest timestamps, newest first. -/
def Newest (n : ℕ) (ws : List Version) (fs : List Found) : Prop :=
  ∃ newest older : List Version, (newest ++ older).Perm ws ∧ newest.length = min n ws.length ∧
    newest.Pairwise (fun v v' => v'.timestamp < v.timestamp) ∧
    (∀ v ∈ newest, ∀ v' ∈ older, v'.timestamp < v.timestamp) ∧ newest.map Version.found = fs

/-- `GetVersions` returns the newest versions of a key. -/
def ReturnsNewest (s : LedgerDB) (key : Bytes) (n : UInt64) (ws : List Version) : Prop :=
  ∃ fs, s.getNVersions n [key] = .ok [fs] ∧ Newest n.toNat ws fs

/-- The first version is the newest one, the number of versions that there are to return is not cut,
and the timestamps of the others do not look negative. -/
def FirstNewest (n : UInt64) : List Version → Prop
  | [] => True
  | w :: rest => n = 0 ∨ (∀ v ∈ rest, v.timestamp < w.timestamp) ∧
      min n.toNat (rest.length + 1) ≤ toInt n.toNat ∧
      (n = 1 ∨ ∀ v ∈ rest, v.timestamp.toNat < 2 ^ 63)

theorem toInt_le (n : ℕ) : toInt n ≤ n := by
  rw [toInt]
  split_ifs <;> omega

theorem entry_nonneg_iff : 0 ≤ w.entry.1 ↔ w.timestamp.toNat < 2 ^ 63 := by
  have hlt := w.timestamp.toNat_lt
  rw [Version.entry, toLong]
  split_ifs <;> omega

theorem entry_lt_iff {v : Version} (hv : v.timestamp.toNat < 2 ^ 63)
    (hw : w.timestamp.toNat < 2 ^ 63) : v.entry.1 < w.entry.1 ↔ v.timestamp < w.timestamp := by
  rw [UInt64.lt_iff_toNat_lt, Version.entry, Version.entry, toLong, toLong]
  split_ifs <;> omega

theorem nonneg_of_mem_reachedVersions (h : w ∈ reachedVersions ws) : 0 ≤ w.entry.1 := by
  simpa using List.mem_takeWhile_imp h

/-- The first `m` of all versions in order are the newest ones. -/
theorem newest_take {behind : List Version} {n m : ℕ} (hperm : behind.Perm rest)
    (hm : min n (rest.length + 1) = min m (rest.length + 1))
    (hfirst : ∀ v ∈ rest, v.timestamp < w.timestamp)
    (hsorted : behind.Pairwise fun v v' => v'.timestamp < v.timestamp) :
    Newest n (w :: rest) (((w :: behind).take m).map Version.found) := by
  have hall : (w :: behind).Pairwise fun v v' => v'.timestamp < v.timestamp :=
    List.pairwise_cons.mpr ⟨fun v hv => hfirst v (hperm.mem_iff.mp hv), hsorted⟩
  rw [← List.take_append_drop m (w :: behind), List.pairwise_append] at hall
  refine ⟨(w :: behind).take m, (w :: behind).drop m, ?_, ?_, hall.1, hall.2.2, rfl⟩
  · rw [List.take_append_drop]
    exact hperm.cons w
  · rw [List.length_take, List.length_cons, List.length_cons, hperm.length_eq, hm]

/-- **When it is right.** -/
theorem FirstNewest.returnsNewest {n : UInt64} (h : FirstNewest n ws) (hh : Holding s.db key ws)
    (hplain : ∀ w ∈ ws, Plain w.val) : ReturnsNewest s key n ws := by
  cases ws with
  | nil => exact ⟨[], hh.getNVersions_nil n, [], [], List.Perm.refl _, by simp, by simp, by simp, rfl⟩
  | cons w rest =>
    obtain ⟨behind, hperm, hsorted, hget⟩ := hh.getNVersions_cons hplain n
    refine ⟨_, hget, ?_⟩
    rcases h with rfl | ⟨hfirst, hcut, hsmall⟩
    · exact ⟨[], w :: rest, List.Perm.refl _, by simp, by simp, by simp, rfl⟩
    · rcases hsmall with rfl | hsmall
      · -- one version
        refine ⟨[w], rest, List.Perm.refl _, by simp, by simp, by simpa using hfirst, ?_⟩
        rfl
      · have hlt : ∀ v ∈ behind, v.timestamp.toNat < 2 ^ 63 := fun v hv =>
          hsmall v (hperm.mem_iff.mp hv)
        have hreached : reachedVersions behind = behind :=
          List.takeWhile_eq_self_iff.mpr fun v hv => decide_eq_true (entry_nonneg_iff.mpr (hlt v hv))
        rw [hreached]
        apply newest_take hperm _ hfirst
        · refine hsorted.imp_of_mem fun {v v'} hv hv' hlt' => ?_
          rw [← entry_lt_iff (hlt v' hv') (hlt v hv)]
          exact hlt' (entry_nonneg_iff.mpr (hlt v' hv'))
        · have hle := toInt_le n.toNat
          omega

theorem found_timestamp {v v' : Version} (h : v.found = v'.found) : v.timestamp = v'.timestamp :=
  UInt64.toNat_inj.mp (congrArg Found.timestamp h)

/-- A first list with the entries of a second one begins like it. -/
theorem exists_cons_of_map_found {x : Version} {vs more : List Version}
    (h : vs.map Version.found = (x :: more).map Version.found) :
    ∃ y ys, vs = y :: ys ∧ y.timestamp = x.timestamp ∧
      ys.map Version.found = more.map Version.found := by
  cases vs with
  | nil => cases h
  | cons y ys =>
    obtain ⟨hhead, htail⟩ := List.cons.inj h
    exact ⟨y, ys, rfl, found_timestamp hhead, htail⟩

/-- **When it is wrong.** -/
theorem ReturnsNewest.firstNewest {n : UInt64} (h : ReturnsNewest s key n ws)
    (hh : Holding s.db key ws) (hplain : ∀ w ∈ ws, Plain w.val)
    (hdistinct : (ws.map Version.timestamp).Nodup) : FirstNewest n ws := by
  cases ws with
  | nil => trivial
  | cons w rest =>
    obtain ⟨behind, -, -, hget⟩ := hh.getNVersions_cons hplain n
    obtain ⟨fs, hget', newest, older, hall, hlen, hsorted, hold, rfl⟩ := h
    rw [hget] at hget'
    have hfs := (List.cons.inj (Except.ok.inj hget')).1
    by_cases hn : n = 0
    · exact Or.inl hn
    · right
      have hpos : 0 < n.toNat := Nat.pos_of_ne_zero fun hzero => hn (UInt64.toNat_inj.mp hzero)
      rw [List.length_cons] at hlen
      have hcut : newest.length ≤ (toInt n.toNat).toNat := by
        have hlength := congrArg List.length hfs
        rw [List.length_map, List.length_map, List.length_take] at hlength
        omega
      cases newest with
      | nil =>
        rw [List.length_nil] at hlen
        omega
      | cons x more =>
        -- the first of them is the first version
        obtain ⟨y, ys, htake, htime, hmore⟩ := exists_cons_of_map_found hfs
        obtain ⟨m, hm⟩ : ∃ m, (toInt n.toNat).toNat = m + 1 :=
          Nat.exists_eq_add_one.mpr (Nat.lt_of_lt_of_le (Nat.succ_pos _) hcut)
        rw [hm, List.take_succ_cons] at htake
        obtain ⟨rfl, rfl⟩ := List.cons.inj htake
        obtain rfl : w = x := List.inj_on_of_nodup_map hdistinct List.mem_cons_self
          (hall.mem_iff.mp (by simp)) htime
        have hrest : (more ++ older).Perm rest := hall.cons_inv
        obtain ⟨hfirst, hsorted⟩ := List.pairwise_cons.mp hsorted
        refine ⟨fun v hv => ?_, by omega, ?_⟩
        · rcases List.mem_append.mp (hrest.mem_iff.mpr hv) with hv | hv
          · exact hfirst v hv
          · exact hold w List.mem_cons_self v hv
        · by_contra hlarge
          push Not at hlarge
          obtain ⟨hone, v, hv, hv63⟩ := hlarge
          have hone' : n.toNat ≠ 1 := fun heq => hone (UInt64.toNat_inj.mp heq)
          have hmem := List.length_pos_of_mem hv
          cases more with
          | nil =>
            rw [List.length_singleton] at hlen
            omega
          | cons x more =>
            -- the second one does not look negative, so no other version does
            obtain ⟨y, ys, htake, htime, -⟩ := exists_cons_of_map_found hmore
            have hy : y ∈ reachedVersions behind :=
              List.mem_of_mem_take (htake ▸ List.mem_cons_self)
            have hsmall := entry_nonneg_iff.mp (nonneg_of_mem_reachedVersions hy)
            rw [htime] at hsmall
            have hle : v.timestamp.toNat ≤ x.timestamp.toNat := by
              rcases List.mem_append.mp (hrest.mem_iff.mpr hv) with hv | hv
              · rcases List.mem_cons.mp hv with rfl | hv
                · exact le_refl _
                · exact le_of_lt ((List.pairwise_cons.mp hsorted).1 v hv)
              · exact le_of_lt (hold x (by simp) v hv)
            omega

/-- **`GetVersions` returns the newest versions** of a key exactly if the first one is the newest, the
number of them fits into an `int`, and the timestamps of the others into a `long`. -/
theorem getNVersions_iff {cs : List SetCall} (hrun : setAll {} cs = .ok s)
    (hplain : ∀ w ∈ writesOf key (written cs).writes, Plain w.val)
    (hdistinct : ((writesOf key (written cs).writes).map Version.timestamp).Nodup) (n : UInt64) :
    ReturnsNewest s key n (writesOf key (written cs).writes) ↔
      FirstNewest n (writesOf key (written cs).writes) := by
  have hwritten := HasWritten.run hrun hplain hdistinct
  constructor
  · intro h
    exact h.firstNewest hwritten.holding hplain hdistinct
  · intro h
    exact h.returnsNewest hwritten.holding hplain

/-- The first version of `k` is its newest one; another key is written twice at one time. -/
def versionCalls : List SetCall :=
  [⟨[str "k", str "j"], [str "a", str "x"], 9, []⟩, ⟨[str "j"], [str "y"], 9, []⟩,
    ⟨[str "k"], [str "b"], 5, [[true]]⟩, ⟨[str "k"], [str "c"], 7, []⟩]

theorem getNVersions_two :
    ∃ s, setAll {} versionCalls = .ok s ∧
      ReturnsNewest s (str "k") 2 (writesOf (str "k") (written versionCalls).writes) := by
  obtain ⟨s, hrun⟩ : ∃ s, setAll {} versionCalls = .ok s := by
    have hok : (setAll {} versionCalls).toBool := by decide +kernel
    cases hrun : setAll {} versionCalls with
    | ok s => exact ⟨s, rfl⟩
    | error e => rw [hrun] at hok; cases hok
  have hplain : ∀ w ∈ writesOf (str "k") (written versionCalls).writes,
      (124 : UInt8) ∉ w.val ∧ (64 : UInt8) ∉ w.val := by decide
  refine ⟨s, hrun, (getNVersions_iff hrun (fun w hw => ⟨(hplain w hw).1, (hplain w hw).2⟩)
    (by decide) 2).mpr (Or.inr ⟨by decide, by decide, Or.inr (by decide)⟩)⟩

/-- The second version of `k` is newer than the first one. -/
def newerCalls : List SetCall := [⟨[str "k"], [str "a"], 5, []⟩, ⟨[str "k"], [str "b"], 7, []⟩]

/-- The oldest version is returned as the newest one. -/
theorem oldest_returned :
    ∃ s, setAll {} newerCalls = .ok s ∧ s.getNVersions 1 [str "k"] = .ok [[⟨5, 0, str "a"⟩]] ∧
      ¬ ReturnsNewest s (str "k") 1 (writesOf (str "k") (written newerCalls).writes) := by
  have hread : ((setAll {} newerCalls).bind fun s => s.getNVersions 1 [str "k"]) =
      .ok [[⟨5, 0, str "a"⟩]] := by decide +kernel
  cases hrun : setAll {} newerCalls with
  | error e =>
    rw [hrun] at hread
    cases hread
  | ok s =>
    rw [hrun] at hread
    have hplain : ∀ w ∈ writesOf (str "k") (written newerCalls).writes,
        (124 : UInt8) ∉ w.val ∧ (64 : UInt8) ∉ w.val := by decide
    have hwritten : HasWritten s (str "k") (written newerCalls) :=
      HasWritten.run hrun (fun w hw => ⟨(hplain w hw).1, (hplain w hw).2⟩) (by decide)
    refine ⟨s, rfl, hread, fun hnewest => ?_⟩
    have hfirst := hnewest.firstNewest hwritten.holding
      (fun w hw => ⟨(hplain w hw).1, (hplain w hw).2⟩) (by decide)
    rcases hfirst with hzero | ⟨hlt, -⟩
    · exact absurd hzero (by decide)
    · exact absurd (hlt ⟨str "k", 7, 1, str "b"⟩ (by decide)) (by decide)

end LedgerDatabase.Ledgerdb.LedgerDB
