import LedgerDatabase.Ledgerdb.Equiv.Skiplist.Map

/-!
# Reassigning keys

A key that is inserted again is found first, and then its node is written back under its key.  That is
where the node stands, except for the first key of a list: its node is the head, and what is written
under its key is never read.  So `find` returns the last value of every other key and the first value
of the first key (`insertAll_reassign_iff`).
-/

namespace LedgerDatabase.Ledgerdb.SkipList

open SkipChain (Node)

variable {db db' : DB} {pre : Bytes} {h n : Node ℤ Bytes} {ns a b : List (Node ℤ Bytes)} {k : ℤ}
  {v : Bytes} {coins : List Bool} {cs : List Insertion} {c c₀ : Insertion}

/-! ### Writing a node back -/

/-- `insert` with a key that is there. -/
theorem insert_of_find {node : SkipNode} {x : Bytes} (hhead : readRecord db (headKey pre) ≠ [])
    (hfind : find db pre k = .ok x) (hparse : SkipNode.ofString x = .ok node) :
    insert db pre k v coins = .ok (db.putString (nodeKey pre k) { node with value := v }.toBytes) := by
  have hlen : ¬ (readRecord db (headKey pre)).length = 0 := by simpa using hhead
  have hx : x.length > 0 := by
    apply List.length_pos_of_ne_nil
    rintro rfl
    cases hparse
  rw [insert, ← headKey, if_neg hlen, hfind]
  simp only [ok_bind, if_pos hx, hparse]
  rfl

theorem Rep.head_ne_nil (hr : Rep db pre h ns) : readRecord db (headKey pre) ≠ [] := by
  rw [hr.head]
  exact SkipNode.toBytes_ne_nil _

theorem link_update (n : Node ℤ Bytes) (v : Bytes) (i : ℕ) (a b : List (Node ℤ Bytes)) :
    link i (a ++ { n with val := v } :: b) = link i (a ++ n :: b) := by
  rw [link, link, SkipChain.next, SkipChain.next, List.find?_append, List.find?_append]
  cases a.find? fun n => decide (i < n.level) with
  | some m => rfl
  | none =>
    rw [Option.none_or, Option.none_or, List.find?_cons, List.find?_cons]
    by_cases hi : i < n.level <;> simp [hi]

/-- The record of the head is left as it is. -/
theorem Rep.insert_head (hr : Rep db pre h ns) (v : Bytes) (coins : List Bool) :
    ∃ db', insert db pre h.key v coins = .ok db' ∧ Rep db' pre h ns ∧ Frame pre db db' := by
  have hfind : find db pre h.key = .ok (record h ns).toBytes := by
    rw [hr.find_eq (Or.inl rfl), if_pos rfl]
  refine ⟨_, insert_of_find hr.head_ne_nil hfind (ofString_record (hr.clean h List.mem_cons_self) ns),
    ?_, fun key _ hnode => ?_⟩
  · have hnodup := List.nodup_cons.mp hr.nodup
    refine ⟨?_, hr.headLevel, fun a n b hns => ?_, fun k hk => ?_, hr.sorted, hr.clean, hr.nodup⟩
    · rw [readRecord_putString, if_neg (nodeKey_ne_headKey pre pre h.key).symm, hr.head]
    · have hne : n.key ≠ h.key := by
        intro heq
        apply hnodup.1
        rw [← heq, hns]
        exact List.mem_map_of_mem (by simp)
      rw [readRecord_putString, if_neg fun heq => hne (nodeKey_inj heq).2, hr.node a n b hns]
    · have hne : k ≠ h.key := by
        rintro rfl
        exact hk List.mem_cons_self
      rw [readRecord_putString, if_neg fun heq => hne (nodeKey_inj heq).2, hr.absent k hk]
  · rw [DB.getString_putString, if_neg (hnode h.key)]

theorem record_update (m n : Node ℤ Bytes) (v : Bytes) (a b : List (Node ℤ Bytes)) :
    record m (a ++ { n with val := v } :: b) = record m (a ++ n :: b) := by
  rw [record, record]
  congr 1
  exact map_range_congr fun i _ => link_update n v i a b

/-- The nodes of a list with a new value are the changed one and the others, which are as before. -/
theorem update_cases {a' b' : List (Node ℤ Bytes)} {m : Node ℤ Bytes}
    (hsplit : a ++ { n with val := v } :: b = a' ++ m :: b') :
    (m = { n with val := v } ∧ b' = b) ∨
      m ∈ a ++ b ∧ ∃ a'' c, a ++ n :: b = a'' ++ m :: c ∧ record m b' = record m c := by
  rcases List.append_eq_append_iff.mp hsplit with ⟨z, ha, hz⟩ | ⟨z, ha, hz⟩
  · cases z with
    | nil =>
      obtain ⟨hm, rfl⟩ := List.cons.inj (show { n with val := v } :: b = m :: b' from hz)
      exact Or.inl ⟨hm.symm, rfl⟩
    | cons m' z =>
      obtain ⟨rfl, rfl⟩ :=
        List.cons.inj (show { n with val := v } :: b = m' :: (z ++ m :: b') from hz)
      exact Or.inr ⟨by simp, a ++ n :: z, b', by simp, rfl⟩
  · cases z with
    | nil =>
      obtain ⟨hm, rfl⟩ := List.cons.inj (show m :: b' = { n with val := v } :: b from hz)
      exact Or.inl ⟨hm, rfl⟩
    | cons m' z =>
      obtain ⟨rfl, rfl⟩ :=
        List.cons.inj (show m :: b' = m' :: (z ++ { n with val := v } :: b) from hz)
      exact Or.inr ⟨by simp [ha], a', z ++ n :: b, by simp [ha], record_update m n v z b⟩

/-- Another node gets its new value. -/
theorem Rep.insert_node (hr : Rep db pre h (a ++ n :: b)) (hnonneg : ∀ m ∈ a ++ n :: b, 0 ≤ m.key)
    (hv : NoBar v) (coins : List Bool) :
    ∃ db', insert db pre n.key v coins = .ok db' ∧
      Rep db' pre h (a ++ { n with val := v } :: b) ∧ Frame pre db db' := by
  have hn : Clean n := hr.clean n (by simp)
  have hkeys := List.nodup_cons.mp hr.nodup
  have hhead : n.key ≠ h.key := by
    intro heq
    apply hkeys.1
    rw [← heq]
    exact List.mem_map_of_mem (by simp)
  have hfind : find db pre n.key = .ok (record n b).toBytes := by
    rw [hr.find_eq (Or.inr (hr.reached hnonneg n.key)), if_neg hhead, hr.node a n b rfl]
  have hmap : (a ++ { n with val := v } :: b).map Node.key = (a ++ n :: b).map Node.key := by simp
  refine ⟨_, insert_of_find hr.head_ne_nil hfind (ofString_record hn b), ?_, fun key _ hnode => ?_⟩
  · refine ⟨?_, hr.headLevel, fun a' m b' hsplit => ?_, fun k hk => ?_, ?_, fun m hm => ?_, ?_⟩
    · rw [readRecord_putString, if_neg (nodeKey_ne_headKey pre pre n.key).symm, hr.head,
        record_update h n v a b]
    · rw [readRecord_putString]
      rcases update_cases hsplit with ⟨rfl, rfl⟩ | ⟨hm, a'', c, hc, hrecord⟩
      · rw [if_pos rfl]
        rfl
      · have hne : m.key ≠ n.key := by
          have hnodup := hkeys.2
          rw [(List.perm_middle (a := n)).map Node.key |>.nodup_iff] at hnodup
          intro heq
          apply (List.nodup_cons.mp hnodup).1
          rw [← heq]
          exact List.mem_map_of_mem hm
        rw [if_neg fun heq => hne (nodeKey_inj heq).2, hr.node a'' m c hc, hrecord]
    · rw [List.map_cons, hmap, ← List.map_cons] at hk
      have hne : k ≠ n.key := by
        rintro rfl
        exact hk (List.mem_map_of_mem (by simp))
      rw [readRecord_putString, if_neg fun heq => hne (nodeKey_inj heq).2, hr.absent k hk]
    · have hsorted := hr.sorted
      rw [List.pairwise_append, List.pairwise_cons] at hsorted ⊢
      refine ⟨hsorted.1, hsorted.2.1, fun m hm m' hm' => ?_⟩
      rcases List.mem_cons.mp hm' with rfl | hm'
      · exact hsorted.2.2 m hm n List.mem_cons_self
      · exact hsorted.2.2 m hm m' (List.mem_cons_of_mem _ hm')
    · simp only [List.mem_cons, List.mem_append] at hm
      rcases hm with rfl | hm | rfl | hm
      · exact hr.clean m List.mem_cons_self
      · exact hr.clean m (by simp [hm])
      · exact ⟨hv, hn.level⟩
      · exact hr.clean m (by simp [hm])
    · rw [List.map_cons, hmap]
      exact hr.nodup
  · rw [DB.getString_putString, if_neg (hnode n.key)]

/-! ### Runs -/

/-- Calls on one list, where keys may come again. -/
structure Assignments (pre : Bytes) (cs : List Insertion) : Prop where
  pre : ∀ c ∈ cs, c.pre = pre
  nonneg : ∀ c ∈ cs, 0 ≤ c.searchKey
  noBar : ∀ c ∈ cs, NoBar c.newValue

/-- The value of the last call with a key. -/
def lastValue (cs : List Insertion) (k : ℤ) : Option Bytes :=
  (cs.reverse.find? fun c => c.searchKey = k).map Insertion.newValue

/-- `find` returns the last value of every key. -/
def LastFound (db : DB) (pre : Bytes) (cs : List Insertion) : Prop :=
  ∀ c ∈ cs, ∃ x v, lastValue cs c.searchKey = some v ∧ find db pre c.searchKey = .ok x ∧
    IsNode x (c.searchKey, v)

theorem lastValue_concat (cs : List Insertion) (c : Insertion) (k : ℤ) :
    lastValue (cs ++ [c]) k = if c.searchKey = k then some c.newValue else lastValue cs k := by
  rw [lastValue, List.reverse_append, List.reverse_singleton, List.singleton_append, List.find?_cons]
  by_cases hk : c.searchKey = k <;> simp [hk, lastValue]

/-- The list with the first call `c₀` has the last values of its keys behind the head. -/
structure Assigned (db : DB) (pre : Bytes) (c₀ : Insertion) (cs : List Insertion)
    (h : Node ℤ Bytes) (ns : List (Node ℤ Bytes)) : Prop where
  rep : Rep db pre h ns
  head : (h.key, h.val) = c₀.entry
  keys : ∀ k, k ∈ (h :: ns).map Node.key ↔ ∃ c ∈ cs, c.searchKey = k
  last : ∀ n ∈ ns, lastValue cs n.key = some n.val

theorem Assigned.nonneg (ha : Assigned db pre c₀ cs h ns) (hcs : ∀ c ∈ cs, 0 ≤ c.searchKey) :
    ∀ n ∈ ns, 0 ≤ n.key := by
  intro n hn
  obtain ⟨c, hc, hkey⟩ := (ha.keys n.key).mp (List.mem_map_of_mem (List.mem_cons_of_mem _ hn))
  rw [← hkey]
  exact hcs c hc

/-- The other keys keep their last values. -/
theorem Assigned.last_concat (ha : Assigned db pre c₀ cs h ns) (hn : n ∈ ns)
    (hne : c.searchKey ≠ n.key) : lastValue (cs ++ [c]) n.key = some n.val := by
  rw [lastValue_concat, if_neg hne, ha.last n hn]

/-- **One call.** -/
theorem Assigned.insert (ha : Assigned db pre c₀ cs h ns) (hcs : ∀ c ∈ cs, 0 ≤ c.searchKey)
    (hpre : c.pre = pre) (hv : NoBar c.newValue) :
    ∃ db' ns', c.run db = .ok db' ∧ Assigned db' pre c₀ (cs ++ [c]) h ns' := by
  have hkeys : ∀ k, (∃ c' ∈ cs ++ [c], c'.searchKey = k) ↔
      c.searchKey = k ∨ ∃ c' ∈ cs, c'.searchKey = k := by
    intro k
    simp only [List.mem_append, List.mem_singleton]
    constructor
    · rintro ⟨c', hc' | rfl, rfl⟩
      · exact Or.inr ⟨c', hc', rfl⟩
      · exact Or.inl rfl
    · rintro (rfl | ⟨c', hc', rfl⟩)
      · exact ⟨c, Or.inr rfl, rfl⟩
      · exact ⟨c', Or.inl hc', rfl⟩
  have hnodup := List.nodup_cons.mp ha.rep.nodup
  rw [Insertion.run, hpre]
  by_cases hmem : c.searchKey ∈ (h :: ns).map Node.key
  · rcases List.mem_cons.mp (List.map_cons ▸ hmem) with hhead | htail
    · -- the first key: the list stays as it is
      obtain ⟨db', hrun, hr, -⟩ := ha.rep.insert_head c.newValue c.coins
      rw [← hhead] at hrun
      refine ⟨db', ns, hrun, hr, ha.head, fun k => ?_, fun n hn => ?_⟩
      · rw [hkeys, ha.keys]
        refine ⟨Or.inr, fun hk => hk.elim ?_ id⟩
        rintro rfl
        exact (ha.keys _).mp hmem
      · refine ha.last_concat hn fun heq => hnodup.1 ?_
        rw [← hhead, heq]
        exact List.mem_map_of_mem hn
    · obtain ⟨n, hn, hkey⟩ := List.mem_map.mp htail
      obtain ⟨a, b, rfl⟩ := List.append_of_mem hn
      obtain ⟨db', hrun, hr, -⟩ := ha.rep.insert_node (ha.nonneg hcs) hv c.coins
      rw [hkey] at hrun
      refine ⟨db', _, hrun, hr, ha.head, fun k => ?_, fun m hm => ?_⟩
      · rw [hkeys, ← ha.keys]
        have hmap : (h :: (a ++ { n with val := c.newValue } :: b)).map Node.key =
            (h :: (a ++ n :: b)).map Node.key := by simp
        rw [hmap]
        refine ⟨Or.inr, fun hk => hk.elim ?_ id⟩
        rintro rfl
        exact hmem
      · have hother : ∀ m ∈ a ++ b, c.searchKey ≠ m.key := by
          have hmiddle : (a ++ n :: b).Perm (n :: (a ++ b)) := List.perm_middle
          have hperm := (hmiddle.map Node.key).nodup_iff
          intro m hm heq
          apply (List.nodup_cons.mp (hperm.mp hnodup.2)).1
          rw [hkey, heq]
          exact List.mem_map_of_mem hm
        have hcases : m = { n with val := c.newValue } ∨ m ∈ a ++ b := by
          simp only [List.mem_append, List.mem_cons] at hm ⊢
          tauto
        rcases hcases with rfl | hm
        · rw [lastValue_concat, if_pos hkey.symm]
        · refine ha.last_concat ?_ (hother m hm)
          simp only [List.mem_append, List.mem_cons] at hm ⊢
          tauto
  · obtain ⟨db', hrun, hr, -⟩ := insert_rep c.coins ha.rep hmem hv
    have hperm := SkipChain.perm_insert (Pass c.searchKey)
      ⟨c.searchKey, c.newValue, randomLevel c.coins⟩ ns
    refine ⟨db', _, hrun, hr, ha.head, fun k => ?_, fun n hn => ?_⟩
    · rw [((hperm.cons h).map Node.key).mem_iff, hkeys, ← ha.keys]
      simp only [List.map_cons, List.mem_cons]
      tauto
    · rcases List.mem_cons.mp (hperm.mem_iff.mp hn) with rfl | hn
      · rw [lastValue_concat, if_pos rfl]
      · refine ha.last_concat hn fun heq => hmem ?_
        rw [heq]
        exact List.mem_map_of_mem (List.mem_cons_of_mem _ hn)

/-- **All calls.** -/
theorem Assignments.run (hcs : Assignments pre (c₀ :: cs)) (hempty : Empty db pre) :
    ∃ db' h ns, insertAll db (c₀ :: cs) = .ok db' ∧ Assigned db' pre c₀ (c₀ :: cs) h ns := by
  induction cs using List.reverseRecOn with
  | nil =>
    obtain ⟨db', hrun, hr, -⟩ := insert_empty (k := c₀.searchKey) c₀.coins hempty.head
      hempty.node (hcs.noBar c₀ List.mem_cons_self)
    refine ⟨db', _, [], ?_, hr, rfl, fun k => ?_, fun n hn => absurd hn List.not_mem_nil⟩
    · rw [insertAll, List.foldlM_cons, Insertion.run, hcs.pre c₀ List.mem_cons_self, hrun]
      rfl
    · simp [eq_comm]
  | append_singleton cs c ih =>
    have hinit : c₀ :: cs ⊆ c₀ :: (cs ++ [c]) := by simp
    have hlast : c ∈ c₀ :: (cs ++ [c]) := by simp
    obtain ⟨db₁, h, ns, hrun, ha⟩ := ih
      ⟨fun c hc => hcs.pre c (hinit hc), fun c hc => hcs.nonneg c (hinit hc),
        fun c hc => hcs.noBar c (hinit hc)⟩
    obtain ⟨db', ns', hstep, ha'⟩ := ha.insert (fun c hc => hcs.nonneg c (hinit hc))
      (hcs.pre c hlast) (hcs.noBar c hlast)
    refine ⟨db', h, ns', ?_, ha'⟩
    rw [insertAll] at hrun ⊢
    rw [← List.cons_append, List.foldlM_append, hrun]
    simp only [ok_bind, List.foldlM_cons, hstep, List.foldlM_nil]
    rfl

theorem Assigned.found_head (ha : Assigned db pre c₀ cs h ns) :
    ∃ x, find db pre c₀.searchKey = .ok x ∧ IsNode x c₀.entry := by
  obtain ⟨hkey, -⟩ := Prod.mk.inj ha.head
  rw [← ha.head, ← hkey]
  exact ha.rep.find_node List.mem_cons_self (Or.inl rfl)

/-- **Reassigning keys.**  `find` returns the last value of every key exactly if the last value of the
first key is its first one. -/
theorem insertAll_reassign_iff (hcs : Assignments pre cs) (hempty : Empty db pre) :
    ∃ db', insertAll db cs = .ok db' ∧
      (LastFound db' pre cs ↔
        ∀ c ∈ cs.head?, lastValue cs c.searchKey = some c.newValue) := by
  cases cs with
  | nil =>
    refine ⟨db, rfl, fun _ c hc => ?_, fun _ c hc => absurd hc List.not_mem_nil⟩
    cases hc
  | cons c₀ cs =>
    obtain ⟨db', h, ns, hrun, ha⟩ := hcs.run hempty
    obtain ⟨x, hfind, hx⟩ := ha.found_head
    refine ⟨db', hrun, ?_⟩
    rw [List.head?_cons]
    constructor
    · intro hfound c hc
      obtain rfl := Option.some.inj hc
      obtain ⟨x', v, hlast, hfind', hx'⟩ := hfound _ List.mem_cons_self
      rw [hfind] at hfind'
      obtain rfl := Except.ok.inj hfind'
      obtain ⟨node, hparse, hentry⟩ := hx
      obtain ⟨node', hparse', hentry'⟩ := hx'
      rw [hparse] at hparse'
      obtain rfl := Except.ok.inj hparse'
      rw [hlast, ← (Prod.mk.inj (hentry.symm.trans hentry')).2]
    · intro hfirst c hc
      obtain ⟨n, hn, hkey⟩ := List.mem_map.mp ((ha.keys c.searchKey).mpr ⟨c, hc, rfl⟩)
      rw [← hkey]
      rcases List.mem_cons.mp hn with rfl | hn
      · refine ⟨x, c₀.newValue, ?_, ?_, ?_⟩
        all_goals rw [show n.key = c₀.searchKey from (Prod.mk.inj ha.head).1]
        · exact hfirst c₀ rfl
        · exact hfind
        · exact hx
      · have hnonneg := ha.nonneg hcs.nonneg
        obtain ⟨y, hy, hnode⟩ := ha.rep.find_node (List.mem_cons_of_mem _ hn)
          (Or.inr (ha.rep.reached hnonneg n.key))
        exact ⟨y, n.val, ha.last n hn, hy, hnode⟩

/-- The second key is inserted again, and the first one with its old value. -/
def againInsertions : List Insertion :=
  [⟨str "a", 5, str "1", []⟩, ⟨str "a", 9, str "2", [true]⟩, ⟨str "a", 9, str "3", []⟩,
    ⟨str "a", 5, str "1", []⟩]

theorem insertAll_reassign_again :
    ∃ db, insertAll {} againInsertions = .ok db ∧
      (LastFound db (str "a") againInsertions ↔
        ∀ c ∈ againInsertions.head?, lastValue againInsertions c.searchKey = some c.newValue) :=
  insertAll_reassign_iff
    ⟨by decide, by decide, show ∀ c ∈ againInsertions, (124 : UInt8) ∉ c.newValue by decide⟩
    ⟨rfl, fun _ => rfl⟩

/-- The first key is inserted again with another value. -/
def firstAgain : List Insertion := [⟨str "a", 5, str "1", []⟩, ⟨str "a", 5, str "2", []⟩]

/-- The head keeps its first value. -/
theorem first_not_reassigned :
    Assignments (str "a") firstAgain ∧
      ∃ db, insertAll {} firstAgain = .ok db ∧ ¬ LastFound db (str "a") firstAgain := by
  have hcs : Assignments (str "a") firstAgain :=
    ⟨by decide, by decide, show ∀ c ∈ firstAgain, (124 : UInt8) ∉ c.newValue by decide⟩
  have hread : ((insertAll {} firstAgain).bind fun db => find db (str "a") 5).bind
      SkipNode.ofString = .ok ⟨5, str "1", List.replicate 16 (-1)⟩ := by decide +kernel
  obtain ⟨db, hrun⟩ : ∃ db, insertAll {} firstAgain = .ok db := ⟨_, rfl⟩
  refine ⟨hcs, db, hrun, fun hfound => ?_⟩
  obtain ⟨x, v, hlast, hfind, node, hparse, hentry⟩ :=
    hfound ⟨str "a", 5, str "1", []⟩ List.mem_cons_self
  obtain rfl : str "2" = v := Option.some.inj hlast
  rw [hrun] at hread
  change (find db (str "a") 5).bind SkipNode.ofString = _ at hread
  rw [hfind] at hread
  change SkipNode.ofString x = _ at hread
  rw [hread] at hparse
  obtain rfl := Except.ok.inj hparse
  have hvalue : str "1" = str "2" := (Prod.mk.inj hentry).2
  exact absurd hvalue (by decide)

end LedgerDatabase.Ledgerdb.SkipList
