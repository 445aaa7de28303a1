import LedgerDatabase.Ledgerdb.Equiv.Skiplist.Insert

/-!
# Skip lists as finite maps

A sequence of insertions under any prefixes, with keys that are not negative and occur once under
their prefix, and values without bars.  `find` and `scan` then return what was inserted, and an
insertion does not change what they return for other prefixes (`insertAll_refines`).

The chain of a prefix is what carries the proof (`Lists`): `find` and `scan` only depend on it.
-/

namespace LedgerDatabase.Ledgerdb.SkipList

open SkipChain (Node stopped_append)

/-! ### Calls -/

/-- A call of `insert`. -/
structure Insertion where
  pre : Bytes
  searchKey : ℤ
  newValue : Bytes
  coins : List Bool

/-- The entry that a call makes. -/
def Insertion.entry (c : Insertion) : ℤ × Bytes := (c.searchKey, c.newValue)

/-- The call on a store. -/
def Insertion.run (db : DB) (c : Insertion) : Except Fault DB :=
  insert db c.pre c.searchKey c.newValue c.coins

/-- One call after the other. -/
def insertAll (db : DB) (cs : List Insertion) : Except Fault DB := cs.foldlM Insertion.run db

/-- The calls under a prefix. -/
def under (pre : Bytes) (cs : List Insertion) : List Insertion := cs.filter fun c => c.pre = pre

/-- Calls that use no key twice under one prefix. -/
structure Insertions (cs : List Insertion) : Prop where
  nonneg : ∀ c ∈ cs, 0 ≤ c.searchKey
  noBar : ∀ c ∈ cs, NoBar c.newValue
  nodup : (cs.map fun c => (c.pre, c.searchKey)).Nodup

/-- A record is that of a node with a key and a value. -/
def IsNode (x : Bytes) (e : ℤ × Bytes) : Prop :=
  ∃ node, SkipNode.ofString x = .ok node ∧ (node.key, node.value) = e

/-- The store holds what the calls have inserted: `find` returns it, and so does `scan`, each node
once. -/
structure Refines (db : DB) (cs : List Insertion) : Prop where
  found : ∀ c ∈ cs, ∃ x, find db c.pre c.searchKey = .ok x ∧ IsNode x c.entry
  missing : ∀ pre k, (∀ c ∈ cs, c.pre = pre → c.searchKey ≠ k) → find db pre k = .ok []
  scanned : ∀ pre (n : ℤ), (under pre cs).length ≤ n →
    ∃ xs es, scan db pre n = .ok xs ∧ List.Forall₂ IsNode xs es ∧
      es.Perm ((under pre cs).map Insertion.entry)

variable {db db' : DB} {pre pre' : Bytes} {h n : Node ℤ Bytes} {ns b c : List (Node ℤ Bytes)} {k : ℤ}
  {rounds : ℕ} {cs : List Insertion}

/-! ### `find` without negative keys -/

/-- Without negative keys the whole list is ordered. -/
theorem Rep.reached (hr : Rep db pre h ns) (hnonneg : ∀ n ∈ ns, 0 ≤ n.key) (k : ℤ) :
    Reached k ns := by
  by_cases hk : k ∈ ns.map Node.key
  · obtain ⟨n, hn, rfl⟩ := List.mem_map.mp hk
    obtain ⟨a, b, rfl⟩ := List.append_of_mem hn
    right
    have hpass : ∀ m ∈ a, Pass n.key m.key := by
      intro m hm
      have hlt := (List.pairwise_append.mp hr.sorted).2.2 m hm n List.mem_cons_self (hnonneg n hn)
      have hpos := hnonneg m (by simp [hm])
      exact ⟨by omega, hlt⟩
    rw [stopped_append hpass]
    · rfl
    · intro m hm
      rw [List.head?_cons, Option.mem_some_iff] at hm
      subst hm
      exact fun hself => absurd hself.2 (lt_irrefl _)
  · exact Or.inl hk

/-! ### `scan` -/

/-- The records of a chain. -/
def records (n : Node ℤ Bytes) : List (Node ℤ Bytes) → List Bytes
  | [] => [(record n []).toBytes]
  | m :: b => (record n (m :: b)).toBytes :: records m b

theorem length_records (n : Node ℤ Bytes) (b : List (Node ℤ Bytes)) :
    (records n b).length = b.length + 1 := by
  induction b generalizing n with
  | nil => rfl
  | cons m b ih => rw [records, List.length_cons, ih, List.length_cons]

theorem forall₂_records (hclean : ∀ m ∈ n :: b, Clean m) :
    List.Forall₂ IsNode (records n b) ((n :: b).map fun m => (m.key, m.val)) := by
  have hnode (n : Node ℤ Bytes) (b : List (Node ℤ Bytes)) (hn : Clean n) :
      IsNode (record n b).toBytes (n.key, n.val) := ⟨record n b, ofString_record hn b, rfl⟩
  induction b generalizing n with
  | nil => exact List.Forall₂.cons (hnode n [] (hclean n List.mem_cons_self)) List.Forall₂.nil
  | cons m b ih =>
    apply List.Forall₂.cons (hnode n (m :: b) (hclean n List.mem_cons_self))
    exact ih fun m' hm' => hclean m' (List.mem_cons_of_mem _ hm')

/-- A link leads to the next node, or the list ends for `scan`. -/
theorem link_zero_cons {m : Node ℤ Bytes} (hm : Clean m) : link 0 (m :: b) = m.key := by
  rw [link, SkipChain.next_cons_of_lt hm.level, Option.getD_some]

/-- A round of the loop of `scan`. -/
theorem Rep.scanFrom_succ (hr : Rep db pre h ns) {key : Bytes} (rounds : ℕ) (hb : b <:+ ns)
    (hclean : Clean n) (hkey : readRecord db key = (record n b).toBytes) :
    (link 0 b < 0 ∧ scanFrom db pre (rounds + 1) key = .ok [(record n b).toBytes]) ∨
      ∃ m c, b = m :: c ∧ c <:+ ns ∧ Clean m ∧ 0 ≤ m.key ∧
        readRecord db (nodeKey pre m.key) = (record m c).toBytes ∧
        scanFrom db pre (rounds + 1) key =
          (scanFrom db pre rounds (nodeKey pre m.key)).map ((record n b).toBytes :: ·) := by
  have hlen : ¬ (record n b).toBytes.length = 0 := by
    simpa using SkipNode.toBytes_ne_nil (record n b)
  simp only [scanFrom, hkey, if_neg hlen, ofString_record hclean, ok_bind, at?_forward hclean.level]
  by_cases hlink : link 0 b < 0
  · exact Or.inl ⟨hlink, by rw [if_pos hlink]; rfl⟩
  · right
    cases b with
    | nil => exact absurd (show link 0 [] < 0 by decide) hlink
    | cons m c =>
      obtain ⟨a, rfl⟩ := hb
      have hm : Clean m := hr.clean m (by simp)
      rw [link_zero_cons hm] at hlink ⊢
      refine ⟨m, c, rfl, (List.suffix_cons m c).trans (List.suffix_append a _), hm,
        not_lt.mp hlink, hr.node a m c rfl, ?_⟩
      rw [if_neg hlink]
      cases scanFrom db pre rounds (nodeKey pre m.key) <;> rfl

/-- The nodes that `scan` reaches behind the head: a negative key ends it. -/
def reachedNodes (ns : List (Node ℤ Bytes)) : List (Node ℤ Bytes) := ns.takeWhile fun n => 0 ≤ n.key

/-- The loop of `scan` follows the chain. -/
theorem Rep.scanFrom_eq (hr : Rep db pre h ns) {key : Bytes} (hb : b <:+ ns) (hclean : Clean n)
    (hkey : readRecord db key = (record n b).toBytes) :
    scanFrom db pre rounds key =
      .ok ((records n b).take (min rounds ((reachedNodes b).length + 1))) := by
  induction rounds generalizing n b key with
  | zero =>
    rw [Nat.zero_min]
    rfl
  | succ rounds ih =>
    rcases hr.scanFrom_succ rounds hb hclean hkey with
      ⟨hlink, hscan⟩ | ⟨m, c, rfl, hc, hm, hpos, hkey', hscan⟩
    · have hnil : reachedNodes b = [] := by
        cases b with
        | nil => rfl
        | cons m b =>
          rw [link_zero_cons (hr.clean m (List.mem_cons_of_mem _ (hb.subset List.mem_cons_self)))]
            at hlink
          rw [reachedNodes, List.takeWhile_cons_of_neg (by simpa using hlink)]
      rw [hscan, hnil, List.length_nil, Nat.zero_add, Nat.min_eq_right (Nat.succ_pos _)]
      cases b <;> rfl
    · have hcons : (reachedNodes (m :: c)).length + 1 = (reachedNodes c).length + 1 + 1 := by
        rw [reachedNodes, List.takeWhile_cons_of_pos (by simpa using hpos), List.length_cons]
        rfl
      rw [hscan, ih hc hm hkey', hcons, Nat.add_min_add_right]
      rfl

/-- **`scan`** returns the newest records. -/
theorem Rep.scan_records (hr : Rep db pre h ns) (n : ℤ) :
    scan db pre n = .ok ((records h ns).take (min n.toNat ((reachedNodes ns).length + 1))) :=
  hr.scanFrom_eq List.suffix_rfl (hr.clean h List.mem_cons_self) hr.head

theorem Rep.scan_eq (hr : Rep db pre h ns) (hnonneg : ∀ n ∈ ns, 0 ≤ n.key) (n : ℤ) :
    scan db pre n = .ok ((records h ns).take n.toNat) := by
  have hall : reachedNodes ns = ns :=
    List.takeWhile_eq_self_iff.mpr fun n hn => decide_eq_true (hnonneg n hn)
  rw [hr.scan_records, hall, ← length_records h ns, ← List.take_eq_take_min]

theorem scan_of_empty (hempty : readRecord db (headKey pre) = []) (n : ℤ) :
    scan db pre n = .ok [] := by
  rw [scan, ← headKey]
  cases n.toNat with
  | zero => rfl
  | succ rounds =>
    simp only [scanFrom, hempty]
    rfl

/-! ### One prefix -/

/-- Two stores with the same records for a prefix. -/
structure Agree (pre : Bytes) (db db' : DB) : Prop where
  head : readRecord db' (headKey pre) = readRecord db (headKey pre)
  node : ∀ k, readRecord db' (nodeKey pre k) = readRecord db (nodeKey pre k)

theorem Frame.agree (hf : Frame pre db db') (hne : pre' ≠ pre) : Agree pre' db db' where
  head := hf.headKey hne
  node := hf.nodeKey hne

/-- The list of a prefix is not there yet. -/
structure Empty (db : DB) (pre : Bytes) : Prop where
  head : readRecord db (headKey pre) = []
  node : ∀ k, readRecord db (nodeKey pre k) = []

/-- The list of a prefix holds the entries `es`, in the order in which they came.  The last one is
found whatever its key is. -/
inductive Lists (db : DB) (pre : Bytes) (es : List (ℤ × Bytes)) : Prop
  | empty (hes : es = []) (hempty : Empty db pre)
  | chain (h : Node ℤ Bytes) (ns : List (Node ℤ Bytes)) (hr : Rep db pre h ns)
      (hperm : ((h :: ns).map fun n => (n.key, n.val)).Perm es)
      (hlast : ∀ e ∈ es.getLast?, e.1 = h.key ∨ Reached e.1 ns)

theorem Empty.agree (he : Empty db pre) (ha : Agree pre db db') : Empty db' pre where
  head := by rw [ha.head, he.head]
  node k := by rw [ha.node, he.node]

theorem Rep.agree (hr : Rep db pre h ns) (ha : Agree pre db db') : Rep db' pre h ns where
  head := by rw [ha.head, hr.head]
  headLevel := hr.headLevel
  node a n b hsplit := by rw [ha.node, hr.node a n b hsplit]
  absent k hk := by rw [ha.node, hr.absent k hk]
  sorted := hr.sorted
  clean := hr.clean
  nodup := hr.nodup

theorem Lists.agree {es : List (ℤ × Bytes)} (hl : Lists db pre es) (ha : Agree pre db db') :
    Lists db' pre es := by
  cases hl with
  | empty hes hempty => exact Lists.empty hes (hempty.agree ha)
  | chain h ns hr hperm hlast => exact Lists.chain h ns (hr.agree ha) hperm hlast

/-- The keys of a chain are those of its entries. -/
theorem mem_keys {es : List (ℤ × Bytes)}
    (hperm : ((h :: ns).map fun n => (n.key, n.val)).Perm es) :
    k ∈ (h :: ns).map Node.key ↔ k ∈ es.map Prod.fst := by
  have hkeys := (hperm.map Prod.fst).mem_iff (a := k)
  rwa [List.map_map] at hkeys

/-- **One insertion.** -/
theorem Lists.insert {es : List (ℤ × Bytes)} (hl : Lists db pre es) {v : Bytes} (coins : List Bool)
    (hk : k ∉ es.map Prod.fst) (hv : NoBar v) :
    ∃ db', SkipList.insert db pre k v coins = .ok db' ∧ Lists db' pre (es ++ [(k, v)]) ∧
      Frame pre db db' := by
  have hlast : ∀ e ∈ (es ++ [(k, v)]).getLast?, e = (k, v) := by
    intro e he
    rw [List.getLast?_concat, Option.mem_some_iff] at he
    exact he.symm
  cases hl with
  | empty hes hempty =>
    subst hes
    obtain ⟨db', hrun, hr, hf⟩ := insert_empty coins hempty.head hempty.node hv
    refine ⟨db', hrun, Lists.chain _ _ hr (List.Perm.refl _) fun e he => ?_, hf⟩
    left
    rw [hlast e he]
  | chain h ns hr hperm =>
    rw [← mem_keys hperm] at hk
    obtain ⟨db', hrun, hr', hf⟩ := insert_rep coins hr hk hv
    have hnew := ((SkipChain.perm_insert (Pass k) ⟨k, v, randomLevel coins⟩ ns).cons h).trans
      (List.Perm.swap _ h ns)
    have hentries := hnew.map fun n => (n.key, n.val)
    refine ⟨db', hrun, Lists.chain _ _ hr' ?_ fun e he => ?_, hf⟩
    · exact (hentries.trans (hperm.cons (k, v))).trans (List.perm_append_singleton _ _).symm
    · -- a search for the new key stops at the new node
      right
      right
      rw [hlast e he, SkipChain.insert, stopped_append fun n => SkipChain.pass_of_mem_passed]
      · rfl
      · intro m hm
        rw [List.head?_cons, Option.mem_some_iff] at hm
        subst hm
        exact fun hself => absurd hself.2 (lt_irrefl _)

/-- `find` returns the record of a node that it does not miss. -/
theorem Rep.find_node (hr : Rep db pre h ns) (hn : n ∈ h :: ns)
    (hreached : n.key = h.key ∨ Reached n.key ns) :
    ∃ x, find db pre n.key = .ok x ∧ IsNode x (n.key, n.val) := by
  refine ⟨_, hr.find_eq hreached, ?_⟩
  rcases List.mem_cons.mp hn with rfl | hn
  · rw [if_pos rfl]
    exact ⟨record n ns, ofString_record (hr.clean n List.mem_cons_self) ns, rfl⟩
  · have hne : n.key ≠ h.key := by
      rintro heq
      apply (List.nodup_cons.mp hr.nodup).1
      rw [← heq]
      exact List.mem_map_of_mem hn
    obtain ⟨a, b, rfl⟩ := List.append_of_mem hn
    rw [if_neg hne, hr.node a n b rfl]
    exact ⟨record n b, ofString_record (hr.clean n (by simp)) b, rfl⟩

/-- `find` returns the entries. -/
theorem Lists.find_eq {es : List (ℤ × Bytes)} (hl : Lists db pre es)
    (hnonneg : ∀ e ∈ es, 0 ≤ e.1) {e : ℤ × Bytes} (he : e ∈ es) :
    ∃ x, find db pre e.1 = .ok x ∧ IsNode x e := by
  cases hl with
  | empty hes hempty => simp [hes] at he
  | chain h ns hr hperm =>
    have hns : ∀ n ∈ ns, 0 ≤ n.key := fun n hn =>
      hnonneg (n.key, n.val) (hperm.mem_iff.mp (List.mem_map.mpr ⟨n, by simp [hn], rfl⟩))
    obtain ⟨n, hn, rfl⟩ := List.mem_map.mp (hperm.mem_iff.mpr he)
    exact hr.find_node hn (Or.inr (hr.reached hns n.key))

/-- `find` returns the last entry. -/
theorem Lists.find_last {es : List (ℤ × Bytes)} (hl : Lists db pre es) {e : ℤ × Bytes}
    (he : e ∈ es.getLast?) : ∃ x, find db pre e.1 = .ok x ∧ IsNode x e := by
  cases hl with
  | empty hes hempty => simp [hes] at he
  | chain h ns hr hperm hlast =>
    have hmem : e ∈ es := List.mem_of_getLast? he
    have hreached := hlast e he
    obtain ⟨n, hn, rfl⟩ := List.mem_map.mp (hperm.mem_iff.mpr hmem)
    exact hr.find_node hn hreached

/-- `find` returns nothing else. -/
theorem Lists.find_eq_nil {es : List (ℤ × Bytes)} (hl : Lists db pre es)
    (hk : k ∉ es.map Prod.fst) : find db pre k = .ok [] := by
  cases hl with
  | empty hes hempty => exact find_of_empty hempty.head
  | chain h ns hr hperm =>
    rw [← mem_keys hperm, List.map_cons, List.mem_cons, not_or] at hk
    rw [hr.find_eq (Or.inr (Or.inl hk.2)), if_neg hk.1, hr.absent k (by rwa [List.map_cons, List.mem_cons, not_or])]

/-- `scan` returns the entries. -/
theorem Lists.scan_eq {es : List (ℤ × Bytes)} (hl : Lists db pre es)
    (hnonneg : ∀ e ∈ es, 0 ≤ e.1) {n : ℤ} (hn : es.length ≤ n) :
    ∃ xs es', scan db pre n = .ok xs ∧ List.Forall₂ IsNode xs es' ∧ es'.Perm es := by
  cases hl with
  | empty hes hempty => exact ⟨[], [], scan_of_empty hempty.head n, List.Forall₂.nil, by rw [hes]⟩
  | chain h ns hr hperm =>
    have hns : ∀ n ∈ ns, 0 ≤ n.key := fun n hn =>
      hnonneg (n.key, n.val) (hperm.mem_iff.mp (List.mem_map.mpr ⟨n, by simp [hn], rfl⟩))
    have hlen : (records h ns).length ≤ n.toNat := by
      have hes := hperm.length_eq
      rw [List.length_map, List.length_cons] at hes
      rw [length_records]
      omega
    refine ⟨_, _, hr.scan_eq hns n, ?_, hperm⟩
    rw [List.take_of_length_le hlen]
    exact forall₂_records hr.clean

/-- What happens under other prefixes does not change what is returned. -/
theorem Lists.same {es : List (ℤ × Bytes)} (hl : Lists db pre' es) (hnonneg : ∀ e ∈ es, 0 ≤ e.1)
    (ha : Agree pre' db db') (k n : ℤ) :
    find db' pre' k = find db pre' k ∧ scan db' pre' n = scan db pre' n := by
  cases hl with
  | empty hes hempty =>
    have hempty' := hempty.agree ha
    rw [find_of_empty hempty.head, find_of_empty hempty'.head, scan_of_empty hempty.head,
      scan_of_empty hempty'.head]
    exact ⟨rfl, rfl⟩
  | chain h ns hr hperm =>
    have hr' := hr.agree ha
    have hns : ∀ n ∈ ns, 0 ≤ n.key := fun n hn =>
      hnonneg (n.key, n.val) (hperm.mem_iff.mp (List.mem_map.mpr ⟨n, by simp [hn], rfl⟩))
    rw [hr.find_eq (Or.inr (hr.reached hns k)), hr'.find_eq (Or.inr (hr'.reached hns k)),
      ha.node, hr.scan_eq hns, hr'.scan_eq hns]
    exact ⟨rfl, rfl⟩

/-! ### All prefixes -/

/-- The entries of a prefix. -/
def entries (pre : Bytes) (cs : List Insertion) : List (ℤ × Bytes) :=
  (under pre cs).map Insertion.entry

theorem entries_concat (pre : Bytes) (cs : List Insertion) (c : Insertion) :
    entries pre (cs ++ [c]) = entries pre cs ++ if c.pre = pre then [c.entry] else [] := by
  rw [entries, under, List.filter_append, List.map_append, List.filter_singleton]
  by_cases hpre : c.pre = pre <;> simp [hpre, entries, under]

theorem mem_entries {c : Insertion} (hc : c ∈ cs) : c.entry ∈ entries c.pre cs :=
  List.mem_map_of_mem (List.mem_filter.mpr ⟨hc, by simp⟩)

/-- Every entry is that of a call. -/
theorem exists_of_mem_entries {e : ℤ × Bytes} (he : e ∈ entries pre cs) :
    ∃ c ∈ cs, c.pre = pre ∧ c.entry = e := by
  obtain ⟨c, hc, rfl⟩ := List.mem_map.mp he
  obtain ⟨hmem, hpre⟩ := List.mem_filter.mp hc
  exact ⟨c, hmem, of_decide_eq_true hpre, rfl⟩

theorem Insertions.entries_nonneg (hcs : Insertions cs) (pre : Bytes) :
    ∀ e ∈ entries pre cs, 0 ≤ e.1 := by
  intro e he
  obtain ⟨c, hc, -, rfl⟩ := exists_of_mem_entries he
  exact hcs.nonneg c hc

theorem Insertions.init {c : Insertion} (hcs : Insertions (cs ++ [c])) : Insertions cs where
  nonneg c' hc' := hcs.nonneg c' (List.mem_append_left _ hc')
  noBar c' hc' := hcs.noBar c' (List.mem_append_left _ hc')
  nodup := hcs.nodup.sublist ((List.sublist_append_left cs [c]).map _)

/-- The key of the last call is new. -/
theorem Insertions.fresh {c : Insertion} (hcs : Insertions (cs ++ [c])) :
    c.searchKey ∉ (entries c.pre cs).map Prod.fst := by
  intro hmem
  obtain ⟨e, he, hkey⟩ := List.mem_map.mp hmem
  obtain ⟨c', hc', hpre, rfl⟩ := exists_of_mem_entries he
  have hnodup := hcs.nodup
  rw [List.map_append, List.nodup_append] at hnodup
  refine hnodup.2.2 _ (List.mem_map_of_mem hc') _ (List.mem_singleton_self _) ?_
  exact Prod.ext hpre hkey

/-- The step of a run. -/
theorem Insertions.step {c : Insertion} (hcs : Insertions (cs ++ [c]))
    (hl : ∀ pre, Lists db pre (entries pre cs)) :
    ∃ db', c.run db = .ok db' ∧ (∀ pre, Lists db' pre (entries pre (cs ++ [c]))) ∧
      Frame c.pre db db' := by
  obtain ⟨db', hrun, hlist, hf⟩ := (hl c.pre).insert c.coins hcs.fresh
    (hcs.noBar c (List.mem_append_right _ (List.mem_singleton_self _)))
  refine ⟨db', hrun, fun pre => ?_, hf⟩
  rw [entries_concat]
  by_cases hpre : c.pre = pre
  · rw [if_pos hpre, ← hpre]
    exact hlist
  · rw [if_neg hpre, List.append_nil]
    exact (hl pre).agree (hf.agree (Ne.symm hpre))

/-- A run of insertions leaves every prefix with the list of its entries. -/
theorem Insertions.run (hcs : Insertions cs) :
    ∃ db, insertAll {} cs = .ok db ∧ ∀ pre, Lists db pre (entries pre cs) := by
  induction cs using List.reverseRecOn with
  | nil => exact ⟨{}, rfl, fun pre => Lists.empty rfl ⟨rfl, fun _ => rfl⟩⟩
  | append_singleton cs c ih =>
    obtain ⟨db, hrun, hl⟩ := ih hcs.init
    obtain ⟨db', hstep, hl', -⟩ := hcs.step hl
    refine ⟨db', ?_, hl'⟩
    unfold insertAll at hrun ⊢
    rw [List.foldlM_append, hrun]
    simp only [ok_bind, List.foldlM_cons, hstep, List.foldlM_nil]
    rfl

theorem Insertions.refines (hcs : Insertions cs) (hl : ∀ pre, Lists db pre (entries pre cs)) :
    Refines db cs where
  found c hc := (hl c.pre).find_eq (hcs.entries_nonneg c.pre) (mem_entries hc)
  missing pre k hk := by
    apply (hl pre).find_eq_nil
    intro hmem
    obtain ⟨e, he, rfl⟩ := List.mem_map.mp hmem
    obtain ⟨c, hc, hpre, rfl⟩ := exists_of_mem_entries he
    exact hk c hc hpre rfl
  scanned pre n hn := by
    apply (hl pre).scan_eq (hcs.entries_nonneg pre)
    rwa [entries, List.length_map]

/-- **The skip lists refine finite maps.**  Insertions with new keys succeed, the store then holds
what they have inserted, and the next insertion does not change other prefixes. -/
theorem insertAll_refines (hcs : Insertions cs) :
    ∃ db, insertAll {} cs = .ok db ∧ Refines db cs ∧
      ∀ c, Insertions (cs ++ [c]) → ∃ db', c.run db = .ok db' ∧ ∀ pre, pre ≠ c.pre →
        ∀ k n, find db' pre k = find db pre k ∧ scan db' pre n = scan db pre n := by
  obtain ⟨db, hrun, hl⟩ := hcs.run
  refine ⟨db, hrun, hcs.refines hl, fun c hnext => ?_⟩
  obtain ⟨db', hstep, -, hf⟩ := hnext.step hl
  exact ⟨db', hstep, fun pre hne => (hl pre).same (hcs.entries_nonneg pre) (hf.agree hne)⟩

/-- Insertions under two prefixes, one of which contains a bar. -/
def someInsertions : List Insertion :=
  [⟨str "a", 5, str "1", [true]⟩, ⟨str "a|5", 7, str "2", []⟩, ⟨str "a", 9, str "3", []⟩,
    ⟨str "a", 6, [], [true, true]⟩]

theorem insertAll_refines_some :
    ∃ db, insertAll {} someInsertions = .ok db ∧ Refines db someInsertions := by
  have hcs : Insertions someInsertions :=
    { nonneg := by decide
      noBar := show ∀ c ∈ someInsertions, (124 : UInt8) ∉ c.newValue by decide
      nodup := by decide }
  obtain ⟨db, hrun, href, -⟩ := insertAll_refines hcs
  exact ⟨db, hrun, href⟩

end LedgerDatabase.Ledgerdb.SkipList
