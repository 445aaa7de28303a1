import LedgerDatabase.Common.Equiv.DB
import LedgerDatabase.Ledgerdb.Equiv.Skiplist
import LedgerDatabase.Ledgerdb.Equiv.Skiplist.Find

/-!
# Inserting into a skip list

`insert` walks down the levels of the new node and changes the link of one node on each of them.  When
the levels from `i` on have been done, every node in front of the new one has its new links on these
levels and its old ones below (`half`), in the table `update` or in the store.  After level zero that
is the chain with the new node behind those that are to be passed (`insert_rep`).
-/

namespace LedgerDatabase.Ledgerdb.SkipList

open SkipChain (Node)

/-! ### Positions -/

section Positions

variable {α : Type*}

/-- Two ways to cut a list. -/
theorem cut_cases {l c a c' a' : List α} (h : l = c ++ a) (h' : l = c' ++ a') :
    c' = c ∨ (∃ z n, c = c' ++ z ++ [n] ∧ a' = z ++ n :: a) ∨
      ∃ z n, c' = c ++ z ++ [n] ∧ a = z ++ n :: a' := by
  rcases List.append_eq_append_iff.mp (h.symm.trans h') with ⟨z, hc, ha⟩ | ⟨z, hc, ha⟩
  · rcases List.eq_nil_or_concat z with rfl | ⟨z, n, rfl⟩
    · exact Or.inl (by simpa using hc)
    · exact Or.inr (Or.inr ⟨z, n, by simpa using hc, by simpa using ha⟩)
  · rcases List.eq_nil_or_concat z with rfl | ⟨z, n, rfl⟩
    · exact Or.inl (by simpa using hc.symm)
    · exact Or.inr (Or.inl ⟨z, n, by simpa using hc, by simpa using ha⟩)

theorem set_map_range {n i : ℕ} (f : ℕ → α) (v : α) :
    ((List.range n).map f).set i v = (List.range n).map fun j => if j = i then v else f j := by
  refine List.ext_getElem (by simp) fun j hj hj' => ?_
  simp only [List.getElem_set, List.getElem_map, List.getElem_range]
  exact if_congr eq_comm rfl rfl

theorem map_range_congr {n : ℕ} {f g : ℕ → α} (h : ∀ j < n, f j = g j) :
    (List.range n).map f = (List.range n).map g :=
  List.map_congr_left fun j hj => h j (List.mem_range.mp hj)

end Positions

/-- The node behind which the search stands, after the nodes `c`. -/
def standing (h : Node ℤ Bytes) (c : List (Node ℤ Bytes)) : Node ℤ Bytes := c.getLastD h

/-- The name of that node. -/
def nameOf (pre : Bytes) (c : List (Node ℤ Bytes)) : Bytes :=
  match c.getLast? with
  | none => headKey pre
  | some n => nodeKey pre n.key

@[simp]
theorem standing_nil (h : Node ℤ Bytes) : standing h [] = h := rfl

@[simp]
theorem standing_concat (h n : Node ℤ Bytes) (c : List (Node ℤ Bytes)) :
    standing h (c ++ [n]) = n := by
  simp [standing]

@[simp]
theorem nameOf_nil (pre : Bytes) : nameOf pre [] = headKey pre := rfl

@[simp]
theorem nameOf_concat (pre : Bytes) (n : Node ℤ Bytes) (c : List (Node ℤ Bytes)) :
    nameOf pre (c ++ [n]) = nodeKey pre n.key := by
  simp [nameOf]

/-- Different positions have different names. -/
theorem nameOf_ne {pre : Bytes} {c z a : List (Node ℤ Bytes)} {n : Node ℤ Bytes}
    (hnodup : ((c ++ z ++ n :: a).map Node.key).Nodup) : nameOf pre c ≠ nodeKey pre n.key := by
  rcases List.eq_nil_or_concat c with rfl | ⟨c, m, rfl⟩
  · exact (nodeKey_ne_headKey pre pre n.key).symm
  · rw [List.concat_eq_append, nameOf_concat]
    intro heq
    have hkey := (nodeKey_inj heq).2
    rw [List.concat_eq_append, List.map_append, List.nodup_append] at hnodup
    exact hnodup.2.2 m.key (by simp) n.key (by simp) hkey

/-! ### Half-done insertions -/

/-- A node in front of the new one, with its new links from level `i` on.  `a` are the nodes that
stand between them. -/
def half (new : Node ℤ Bytes) (rest : List (Node ℤ Bytes)) (i : ℕ) (n : Node ℤ Bytes)
    (a : List (Node ℤ Bytes)) : SkipNode where
  key := n.key
  value := n.val
  forward := (List.range n.level).map fun j =>
    if i ≤ j then link j (a ++ new :: rest) else link j (a ++ rest)

/-- What `insert` reads for a name. -/
def effective (db : DB) (update : StdMap SkipNode) (key : Bytes) : Except Fault SkipNode :=
  match update.lookup key with
  | some node => .ok node
  | none => SkipNode.ofString (readRecord db key)

variable {db db' : DB} {pre : Bytes} {h new n : Node ℤ Bytes} {ns a rest c passed : List (Node ℤ Bytes)}
  {i level fuel : ℕ} {cur : Cursor} {coins : List Bool}

theorem half_level : half new rest new.level n a = record n (a ++ rest) := by
  rw [half, record]
  congr 1
  refine map_range_congr fun j _ => ?_
  split
  · rw [link, link, SkipChain.next_insert_of_le ‹_›]
  · rfl

theorem half_zero : half new rest 0 n a = record n (a ++ new :: rest) := by
  simp [half, record]

/-- The table `update` when the levels from `i` on are done. -/
structure Half (db : DB) (pre : Bytes) (h new : Node ℤ Bytes) (passed rest : List (Node ℤ Bytes))
    (i : ℕ) (update : StdMap SkipNode) : Prop where
  node : ∀ c a, passed = c ++ a →
    effective db update (nameOf pre c) = .ok (half new rest i (standing h c) a)
  names : ∀ e ∈ update, ∃ c a, passed = c ++ a ∧ e.1 = nameOf pre c
  ordered : update.Ordered

/-- The cursor stands behind the nodes `c`. -/
structure Stands (db : DB) (pre : Bytes) (h new : Node ℤ Bytes) (passed rest : List (Node ℤ Bytes))
    (i : ℕ) (cur : Cursor) (c a : List (Node ℤ Bytes)) : Prop where
  split : passed = c ++ a
  head : cur.head = half new rest i (standing h c) a
  fullkey : cur.fullkey = nameOf pre c
  newnode : cur.newnode =
    ⟨new.key, new.val, (List.range new.level).map fun j => if i ≤ j then link j rest else -1⟩
  table : Half db pre h new passed rest i cur.update

/-- The new node fits between `passed` and `rest`. -/
structure Fits (db : DB) (pre : Bytes) (h new : Node ℤ Bytes) (passed rest : List (Node ℤ Bytes)) :
    Prop where
  rep : Rep db pre h (passed ++ rest)
  pass : ∀ n ∈ passed, Pass new.key n.key
  stop : ∀ n ∈ rest, ¬ Pass new.key n.key
  fresh : new.key ∉ (h :: (passed ++ rest)).map Node.key
  clean : Clean new
  level : new.level ≤ maxLevel

/-- The records in front of the new node. -/
theorem Fits.readRecord (hf : Fits db pre h new passed rest) (hsplit : passed = c ++ a) :
    readRecord db (nameOf pre c) = (record (standing h c) (a ++ rest)).toBytes ∧
      Clean (standing h c) := by
  rcases List.eq_nil_or_concat c with rfl | ⟨c, n, rfl⟩
  · rw [List.nil_append] at hsplit
    rw [← hsplit]
    exact ⟨hf.rep.head, hf.rep.clean h List.mem_cons_self⟩
  · rw [List.concat_eq_append] at hsplit ⊢
    rw [nameOf_concat, standing_concat]
    exact ⟨hf.rep.node c n (a ++ rest) (by simp [hsplit]), hf.rep.clean n (by simp [hsplit])⟩

/-- The cursor before the first level. -/
theorem Fits.start (hf : Fits db pre h new passed rest) :
    Stands db pre h new passed rest new.level
      { head := record h (passed ++ rest), fullkey := headKey pre
        newnode := SkipNode.make new.key new.val new.level, update := [] } [] passed := by
  refine ⟨rfl, half_level.symm, rfl, ?_, ?_, fun e he => absurd he List.not_mem_nil,
    StdMap.ordered_nil⟩
  · have hforward : ((List.range new.level).map fun j => if new.level ≤ j then link j rest else -1) =
        List.replicate new.level (-1) := by
      rw [List.eq_replicate_iff]
      refine ⟨by rw [List.length_map, List.length_range], fun f hfwd => ?_⟩
      obtain ⟨j, hj, rfl⟩ := List.mem_map.mp hfwd
      exact if_neg (Nat.not_le.mpr (List.mem_range.mp hj))
    rw [hforward]
    rfl
  · intro c a hsplit
    obtain ⟨hold, hclean⟩ := hf.readRecord hsplit
    rw [effective, List.lookup_nil]
    rw [hold, ofString_record hclean, half_level]

/-! ### One level -/

/-- A link that is to be followed stays in front of the new node. -/
theorem Fits.follow (hf : Fits db pre h new passed rest) (hsplit : passed = c ++ a)
    (hpass : Pass new.key (link i (a ++ rest))) :
    ∃ z n a', a = z ++ n :: a' ∧ i < n.level ∧ n.key = link i (a ++ rest) := by
  have hsuffix : a ++ rest <:+ passed ++ rest := ⟨c, by rw [hsplit, List.append_assoc]⟩
  obtain ⟨z, n, b, hb, hlevel, hkey, hz⟩ := hf.rep.follow hsuffix hpass
  have hcut : a ++ rest = (z ++ [n]) ++ b := by simpa using hb
  rcases List.append_eq_append_iff.mp hcut with ⟨s, hs, hrest⟩ | ⟨s, hs, -⟩
  · -- nothing behind the new node is to be passed
    rcases List.eq_nil_or_concat s with rfl | ⟨s, m, rfl⟩
    · exact ⟨z, n, [], by simpa using hs.symm, hlevel, hkey⟩
    · have hm : m ∈ z ++ [n] := by simp [hs]
      exact absurd (hz m hm) (hf.stop m (by simp [hrest]))
  · exact ⟨z, n, s, by simpa using hs, hlevel, hkey⟩

/-- Where a search stops, no node is left on its level in front of the new one. -/
theorem Fits.level_le (hf : Fits db pre h new passed rest) (hsplit : passed = c ++ a)
    (hstop : ¬ Pass new.key (link i (a ++ rest))) : ∀ n ∈ a, n.level ≤ i := by
  by_contra hlevel
  push Not at hlevel
  obtain ⟨n, hn, hlt⟩ := hlevel
  have hnext : SkipChain.next i (a ++ rest) = SkipChain.next i a :=
    SkipChain.next_append_of_mem hn hlt
  cases hkey : SkipChain.next i a with
  | none => exact absurd hlt (Nat.not_lt.mpr (SkipChain.next_eq_none.mp hkey n hn))
  | some key =>
    obtain ⟨z, m, b, rfl, -, -, rfl⟩ := SkipChain.next_eq_some.mp hkey
    rw [link, hnext, hkey, Option.getD_some] at hstop
    exact hstop (hf.pass m (by simp [hsplit]))

/-- The `while` loop of `insert` on one level. -/
theorem Stands.advance (hf : Fits db pre h new passed rest)
    (hs : Stands db pre h new passed rest (i + 1) cur c a) (hlevel : i < (standing h c).level)
    (hfuel : a.length < fuel) :
    ∃ cur' c' a', advance db pre new.key i fuel cur = .ok cur' ∧
      Stands db pre h new passed rest (i + 1) cur' c' a' ∧ i < (standing h c').level ∧
      ¬ Pass new.key (link i (a' ++ rest)) := by
  induction fuel generalizing cur c a with
  | zero => omega
  | succ fuel ih =>
    have hnext : at? cur.head.forward i = .ok (link i (a ++ rest)) := by
      rw [hs.head, half, at?_of_lt (by simpa using hlevel)]
      simp
    rw [SkipList.advance, hnext]
    simp only [ok_bind]
    by_cases hpass : Pass new.key (link i (a ++ rest))
    · rw [if_pos (show link i (a ++ rest) > -1 ∧ link i (a ++ rest) > new.key from hpass)]
      obtain ⟨z, n, a', rfl, hn, hkey⟩ := hf.follow hs.split hpass
      have hsplit : passed = (c ++ z ++ [n]) ++ a' := by simp [hs.split]
      have hread := hs.table.node (c ++ z ++ [n]) a' hsplit
      rw [nameOf_concat, standing_concat, effective] at hread
      rw [← hkey]
      rw [List.length_append, List.length_cons] at hfuel
      have hmoved : Stands db pre h new passed rest (i + 1)
          { cur with head := half new rest (i + 1) n a', fullkey := nodeKey pre n.key }
          (c ++ z ++ [n]) a' :=
        ⟨hsplit, by rw [standing_concat], by rw [nameOf_concat], hs.newnode, hs.table⟩
      obtain ⟨cur', c', a'', heq, hs', hlevel', hstop⟩ :=
        ih hmoved (by rwa [standing_concat]) (by omega)
      refine ⟨cur', c', a'', ?_, hs', hlevel', hstop⟩
      cases hl : cur.update.lookup (nodeKey pre n.key) with
      | some node =>
        simp only [hl] at hread ⊢
        rw [Except.ok.inj hread]
        exact heq
      | none =>
        simp only [hl] at hread ⊢
        rw [hread]
        exact heq
    · rw [if_neg (show ¬ (link i (a ++ rest) > -1 ∧ link i (a ++ rest) > new.key) from hpass)]
      exact ⟨cur, c, a, rfl, hs, hlevel, hpass⟩

/-- The nodes that do not stand right before the new one on a level keep their link. -/
theorem half_eq_of_other (ha : ∀ m ∈ a, m.level ≤ i)
    (hlevel : i < (standing h c).level) (hsplit : passed = c ++ a)
    {c' a' : List (Node ℤ Bytes)} (hsplit' : passed = c' ++ a') (hne : c' ≠ c) :
    half new rest i (standing h c') a' = half new rest (i + 1) (standing h c') a' := by
  rw [half, half]
  congr 1
  refine map_range_congr fun j hj => ?_
  by_cases hij : i = j
  · subst hij
    rw [if_pos le_rfl, if_neg (by omega)]
    rcases cut_cases hsplit hsplit' with heq | ⟨z, n, rfl, rfl⟩ | ⟨z, n, rfl, rfl⟩
    · exact absurd heq hne
    · -- the link ends at the node behind which the search stands
      rw [standing_concat] at hlevel
      rw [link, link, SkipChain.next_insert_of_mem (n := n) (by simp) hlevel]
    · -- the node does not take part in the level
      rw [standing_concat] at hj
      exact absurd hj (Nat.not_lt.mpr (ha n (by simp)))
  · refine if_congr ?_ rfl rfl
    omega

theorem effective_assign (db : DB) (update : StdMap SkipNode) (key key' : Bytes) (node : SkipNode) :
    effective db (update.assign key node) key' =
      if key' = key then .ok node else effective db update key' := by
  rw [effective, StdMap.lookup_assign]
  split_ifs <;> rfl

/-- The links that `insert` changes on one level. -/
theorem Stands.relink (hf : Fits db pre h new passed rest)
    (hs : Stands db pre h new passed rest (i + 1) cur c a) (hi : i < new.level)
    (hlevel : i < (standing h c).level) (hstop : ¬ Pass new.key (link i (a ++ rest))) :
    Stands db pre h new passed rest i
      { head := { cur.head with forward := cur.head.forward.set i new.key }
        fullkey := cur.fullkey
        newnode := { cur.newnode with
          forward := cur.newnode.forward.set i (link i (a ++ rest)) }
        update := cur.update.assign cur.fullkey
          { cur.head with forward := cur.head.forward.set i new.key } } c a := by
  have ha := hf.level_le hs.split hstop
  have hhead : ({ cur.head with forward := cur.head.forward.set i new.key } : SkipNode) =
      half new rest i (standing h c) a := by
    rw [hs.head, half, half]
    simp only
    rw [set_map_range]
    congr 1
    refine map_range_congr fun j _ => ?_
    by_cases hij : j = i
    · subst hij
      rw [if_pos rfl, if_pos le_rfl, link, SkipChain.next_insert_of_forall ha hi, Option.getD_some]
    · rw [if_neg hij]
      refine if_congr ?_ rfl rfl
      omega
  refine ⟨hs.split, hhead, hs.fullkey, ?_, ?_, ?_, hs.table.ordered.assign _ _⟩
  · rw [hs.newnode]
    simp only
    rw [set_map_range]
    congr 1
    refine map_range_congr fun j _ => ?_
    by_cases hij : j = i
    · subst hij
      rw [if_pos rfl, if_pos le_rfl, link, link, SkipChain.next_append_of_forall ha]
    · rw [if_neg hij]
      refine if_congr ?_ rfl rfl
      omega
  · intro c' a' hsplit'
    rw [effective_assign, hs.fullkey]
    by_cases hc : c' = c
    · subst hc
      obtain rfl := List.append_cancel_left (hs.split.symm.trans hsplit')
      rw [if_pos rfl, hhead]
    · have hnodup : (passed.map Node.key).Nodup := by
        have hall := (List.nodup_cons.mp hf.rep.nodup).2
        rw [List.map_append] at hall
        exact (List.nodup_append.mp hall).1
      have hname : nameOf pre c' ≠ nameOf pre c := by
        rcases cut_cases hs.split hsplit' with heq | ⟨z, n, rfl, -⟩ | ⟨z, n, rfl, -⟩
        · exact absurd heq hc
        · rw [hs.split, List.append_assoc _ [n], List.singleton_append] at hnodup
          rw [nameOf_concat]
          exact nameOf_ne hnodup
        · rw [hsplit', List.append_assoc _ [n], List.singleton_append] at hnodup
          rw [nameOf_concat]
          exact (nameOf_ne hnodup).symm
      rw [if_neg hname, hs.table.node c' a' hsplit', half_eq_of_other ha hlevel hs.split hsplit' hc]
  · intro e he
    rcases StdMap.mem_assign he with rfl | he
    · exact ⟨c, a, hs.split, hs.fullkey⟩
    · exact hs.table.names e he

/-! ### All levels -/

theorem Stands.insertLevels (hf : Fits db pre h new passed rest)
    (hs : Stands db pre h new passed rest level cur c a) (hlevel : level ≤ (standing h c).level)
    (hle : level ≤ new.level) :
    ∃ cur' c' a', insertLevels db pre new.key level cur = .ok cur' ∧
      Stands db pre h new passed rest 0 cur' c' a' := by
  induction level generalizing cur c a with
  | zero => exact ⟨cur, c, a, rfl, hs⟩
  | succ i ih =>
    have hfuel : a.length < db.rocks.length + 1 := by
      have hlen := hf.rep.length_le
      rw [hs.split, List.length_append, List.length_append] at hlen
      omega
    obtain ⟨cur₁, c₁, a₁, heq, hs₁, hlevel₁, hstop⟩ := hs.advance hf hlevel hfuel
    have hnext : at? cur₁.head.forward i = .ok (link i (a₁ ++ rest)) := by
      rw [hs₁.head, half, at?_of_lt (by simpa using hlevel₁)]
      simp
    rw [SkipList.insertLevels, heq]
    simp only [ok_bind, hnext]
    exact ih (hs₁.relink hf hle hlevel₁ hstop) hlevel₁.le (Nat.le_of_succ_le hle)

/-! ### Writing the nodes -/

/-- Records that do not belong to a prefix are the same. -/
def Frame (pre : Bytes) (db db' : DB) : Prop :=
  ∀ key, key ≠ headKey pre → (∀ k, key ≠ nodeKey pre k) → db'.getString key = db.getString key

theorem Frame.readRecord {key : Bytes} (hf : Frame pre db db') (hhead : key ≠ headKey pre)
    (hnode : ∀ k, key ≠ nodeKey pre k) : readRecord db' key = readRecord db key := by
  rw [SkipList.readRecord, SkipList.readRecord, hf key hhead hnode]

/-- Another prefix is not affected. -/
theorem Frame.headKey {pre' : Bytes} (hf : Frame pre db db') (hne : pre' ≠ pre) :
    SkipList.readRecord db' (headKey pre') = SkipList.readRecord db (SkipList.headKey pre') :=
  hf.readRecord (fun heq => hne (headKey_inj heq)) fun k heq => nodeKey_ne_headKey pre pre' k heq.symm

theorem Frame.nodeKey {pre' : Bytes} (hf : Frame pre db db') (hne : pre' ≠ pre) (k : ℤ) :
    SkipList.readRecord db' (nodeKey pre' k) = SkipList.readRecord db (SkipList.nodeKey pre' k) :=
  hf.readRecord (nodeKey_ne_headKey pre' pre k) fun _ heq => hne (nodeKey_inj heq).1

/-- **Writes to a list** leave everything else as it was. -/
theorem Writes.frame (h : Writes pre db db') : Frame pre db db' := by
  obtain ⟨ws, rfl, hws⟩ := h
  intro key hhead hnode
  rw [DB.getString, DB.getString]
  refine PutLog.lookup_append_of_not_mem fun v hv => ?_
  rcases hws _ hv with hkey | ⟨k, hkey⟩
  · exact hhead hkey
  · exact hnode k hkey

/-- The writes at the end of `insert`. -/
def writeNodes (db : DB) (update : StdMap SkipNode) : DB :=
  db.putStrings (update.map fun e => (e.1, e.2.toBytes))

theorem writeNodes_eq (db : DB) (update : StdMap SkipNode) :
    update.foldl (fun db e => db.putString e.1 e.2.toBytes) db = writeNodes db update := by
  rw [writeNodes, DB.putStrings, List.foldl_map]

theorem readRecord_putString (db : DB) (key val key' : Bytes) :
    readRecord (db.putString key val) key' = if key' = key then val else readRecord db key' := by
  rw [readRecord, DB.getString_putString, readRecord]
  split_ifs <;> rfl

theorem readRecord_writeNodes_of_not_mem {update : StdMap SkipNode} {key : Bytes}
    (hkey : ∀ e ∈ update, e.1 ≠ key) : readRecord (writeNodes db update) key = readRecord db key := by
  rw [readRecord, writeNodes, DB.getString_putStrings_of_not_mem, readRecord]
  intro hmem
  obtain ⟨e, he, rfl⟩ : ∃ e ∈ update, e.1 = key := by simpa using hmem
  exact hkey e he rfl

/-- Afterwards every record in front of the new node has its new links. -/
theorem Half.readRecord (hf : Fits db pre h new passed rest) {update : StdMap SkipNode}
    (ht : Half db pre h new passed rest 0 update) (hsplit : passed = c ++ a) :
    readRecord (writeNodes db update) (nameOf pre c) =
      (record (standing h c) (a ++ new :: rest)).toBytes := by
  have heff := ht.node c a hsplit
  rw [half_zero, effective] at heff
  cases hl : update.lookup (nameOf pre c) with
  | some node =>
    simp only [hl] at heff
    rw [← Except.ok.inj heff]
    have hmem : (nameOf pre c, node.toBytes) ∈ update.map fun e => (e.1, e.2.toBytes) :=
      List.mem_map_of_mem (f := fun e => (e.1, e.2.toBytes)) (PutLog.mem_of_lookup hl)
    have hnodup : ((update.map fun e => (e.1, e.2.toBytes)).map Prod.fst).Nodup := by
      rw [List.map_map]
      exact ht.ordered.nodup
    rw [SkipList.readRecord, writeNodes, DB.getString_putStrings_of_mem _ _ hnodup hmem]
    rfl
  | none =>
    simp only [hl] at heff
    have hkey : ∀ e ∈ update, e.1 ≠ nameOf pre c := by
      rintro e he heq
      obtain ⟨v, hv⟩ := PutLog.lookup_isSome_of_mem he
      rw [heq, hl] at hv
      cases hv
    -- the old record is parsed to the new one
    obtain ⟨hold, hclean⟩ := hf.readRecord hsplit
    rw [readRecord_writeNodes_of_not_mem hkey]
    rw [hold, ofString_record hclean] at heff
    rw [hold, Except.ok.inj heff]

theorem Fits.sorted (hf : Fits db pre h new passed rest) :
    (passed ++ new :: rest).Pairwise fun m n => 0 ≤ n.key → n.key < m.key := by
  obtain ⟨hpassed, hrest, hboth⟩ := List.pairwise_append.mp hf.rep.sorted
  have hfresh := hf.fresh
  refine List.pairwise_append.mpr ⟨hpassed, List.pairwise_cons.mpr ⟨fun n hn hpos => ?_, hrest⟩, ?_⟩
  · have hstop := hf.stop n hn
    have hne : n.key ≠ new.key := by
      rintro heq
      refine hfresh (List.mem_map.mpr ⟨n, ?_, heq⟩)
      simp [hn]
    rw [Pass] at hstop
    omega
  · intro m hm n hn hpos
    rcases List.mem_cons.mp hn with rfl | hn
    · exact (hf.pass m hm).2
    · exact hboth m hm n hn hpos

/-- **The records after an insertion** are those of the chain with the new node. -/
theorem Fits.rep_insert (hf : Fits db pre h new passed rest) {update : StdMap SkipNode}
    (ht : Half db pre h new passed rest 0 update) :
    Rep ((writeNodes db update).putString (nodeKey pre new.key) (record new rest).toBytes) pre h
      (passed ++ new :: rest) := by
  have hkeys : ∀ n ∈ h :: (passed ++ rest), n.key ≠ new.key := fun n hn heq =>
    hf.fresh (List.mem_map.mpr ⟨n, hn, heq⟩)
  have hnodup : ((passed ++ rest).map Node.key).Nodup := (List.nodup_cons.mp hf.rep.nodup).2
  -- the table has no entry for a node behind the new one, nor for keys that are not in the chain
  have hnames : ∀ k, (∀ n ∈ passed, n.key ≠ k) → ∀ e ∈ update, e.1 ≠ nodeKey pre k := by
    intro k hk e he heq
    obtain ⟨c, a, hsplit, hname⟩ := ht.names e he
    rw [hname] at heq
    rcases List.eq_nil_or_concat c with rfl | ⟨c, n, rfl⟩
    · exact nodeKey_ne_headKey pre pre k heq.symm
    · rw [List.concat_eq_append] at hsplit heq
      rw [nameOf_concat] at heq
      exact hk n (by simp [hsplit]) (nodeKey_inj heq).2
  refine ⟨?_, hf.rep.headLevel, ?_, ?_, hf.sorted, ?_, ?_⟩
  · rw [readRecord_putString, if_neg (nodeKey_ne_headKey pre pre new.key).symm]
    exact ht.readRecord hf (c := []) rfl
  · intro a n b hsplit
    rw [readRecord_putString]
    rcases List.append_eq_append_iff.mp hsplit with ⟨z, ha, hz⟩ | ⟨z, ha, hz⟩
    · -- `n` is the new node or stands behind it
      cases z with
      | nil =>
        obtain ⟨rfl, rfl⟩ := List.cons.inj (show new :: rest = n :: b from hz)
        rw [if_pos rfl]
      | cons m z =>
        obtain ⟨rfl, rfl⟩ := List.cons.inj (show new :: rest = m :: (z ++ n :: b) from hz)
        have hne : n.key ≠ new.key := hkeys n (by simp)
        have hpassed : ∀ m ∈ passed, m.key ≠ n.key := by
          intro m hm heq
          rw [List.map_append, List.nodup_append] at hnodup
          exact hnodup.2.2 m.key (List.mem_map_of_mem hm) n.key (by simp) heq
        rw [if_neg fun heq => hne (nodeKey_inj heq).2,
          readRecord_writeNodes_of_not_mem (hnames n.key hpassed)]
        exact hf.rep.node (passed ++ z) n b (by simp)
    · cases z with
      | nil =>
        obtain ⟨rfl, rfl⟩ := List.cons.inj (show n :: b = new :: rest from hz)
        rw [if_pos rfl]
      | cons m z =>
        obtain ⟨rfl, rfl⟩ := List.cons.inj (show n :: b = m :: (z ++ new :: rest) from hz)
        have hne : n.key ≠ new.key := hkeys n (by simp [ha])
        rw [if_neg fun heq => hne (nodeKey_inj heq).2]
        have hread := ht.readRecord hf (c := a ++ [n]) (a := z) (by simp [ha])
        rwa [nameOf_concat, standing_concat] at hread
  · intro k hk
    have hne : k ≠ new.key := by
      rintro rfl
      exact hk (by simp)
    have hpassed : ∀ n ∈ passed, n.key ≠ k := fun n hn heq =>
      hk (List.mem_map.mpr ⟨n, by simp [hn], heq⟩)
    rw [readRecord_putString, if_neg fun heq => hne (nodeKey_inj heq).2,
      readRecord_writeNodes_of_not_mem (hnames k hpassed)]
    refine hf.rep.absent k fun hmem => hk ?_
    obtain ⟨n, hn, rfl⟩ := List.mem_map.mp hmem
    refine List.mem_map_of_mem ?_
    simp only [List.mem_cons, List.mem_append] at hn ⊢
    tauto
  · intro n hn
    rcases List.mem_cons.mp hn with rfl | hn
    · exact hf.rep.clean n List.mem_cons_self
    · rcases List.mem_append.mp hn with hn | hn
      · exact hf.rep.clean n (by simp [hn])
      · rcases List.mem_cons.mp hn with rfl | hn
        · exact hf.clean
        · exact hf.rep.clean n (by simp [hn])
  · have hperm : ((h :: (passed ++ new :: rest)).map Node.key).Perm
        (new.key :: (h :: (passed ++ rest)).map Node.key) :=
      ((List.perm_middle (a := new)).cons h |>.trans (List.Perm.swap new h _)).map Node.key
    exact hperm.nodup_iff.mpr (List.nodup_cons.mpr ⟨hf.fresh, hf.rep.nodup⟩)

theorem frame_insert {update : StdMap SkipNode} (ht : Half db pre h new passed rest 0 update)
    (k : ℤ) (val : Bytes) : Frame pre db ((writeNodes db update).putString (nodeKey pre k) val) := by
  intro key hhead hnode
  rw [DB.getString_putString, if_neg (hnode k), writeNodes, DB.getString_putStrings_of_not_mem]
  intro hmem
  obtain ⟨e, he, rfl⟩ : ∃ e ∈ update, e.1 = key := by simpa using hmem
  obtain ⟨c, a, -, hname⟩ := ht.names e he
  rcases List.eq_nil_or_concat c with rfl | ⟨c, n, rfl⟩
  · exact hhead hname
  · rw [List.concat_eq_append, nameOf_concat] at hname
    exact hnode n.key hname

/-! ### `insert` -/

theorem randomLevel_pos (coins : List Bool) : 0 < randomLevel coins := by
  rw [randomLevel, maxLevel]
  omega

theorem randomLevel_le (coins : List Bool) : randomLevel coins ≤ maxLevel := Nat.min_le_right _ _

/-- **`insert`** into a list. -/
theorem insert_rep {k : ℤ} {v : Bytes} (coins : List Bool) (hr : Rep db pre h ns)
    (hk : k ∉ (h :: ns).map Node.key) (hv : NoBar v) :
    ∃ db', insert db pre k v coins = .ok db' ∧
      Rep db' pre h (SkipChain.insert (Pass k) ⟨k, v, randomLevel coins⟩ ns) ∧ Frame pre db db' := by
  have hns := SkipChain.passed_append_stopped (Pass k) ns
  have hf : Fits db pre h ⟨k, v, randomLevel coins⟩ (SkipChain.passed (Pass k) ns)
      (SkipChain.stopped (Pass k) ns) := by
    refine ⟨?_, fun n hn => SkipChain.pass_of_mem_passed hn,
      fun n hn => SkipChain.not_pass_of_mem_stopped (hr.passable k) hn, ?_,
      ⟨hv, randomLevel_pos coins⟩, randomLevel_le coins⟩
    · rwa [hns]
    · rwa [hns]
  rw [List.map_cons, List.mem_cons, not_or] at hk
  -- the key is not there
  have hfind : find db pre k = .ok [] := by
    rw [hr.find_eq (Or.inr (Or.inl hk.2)), if_neg hk.1, hr.absent k (by rwa [List.map_cons, List.mem_cons, not_or])]
  have hlen : ¬ (record h ns).toBytes.length = 0 := by
    simpa using SkipNode.toBytes_ne_nil (record h ns)
  have hstart := hf.start
  rw [hns] at hstart
  obtain ⟨cur, c, a, hlevels, hend⟩ := hstart.insertLevels hf
    (by rw [standing_nil, hr.headLevel]; exact randomLevel_le coins) le_rfl
  have hnewnode : cur.newnode = record ⟨k, v, randomLevel coins⟩ (SkipChain.stopped (Pass k) ns) := by
    rw [hend.newnode]
    simp [record]
  refine ⟨_, ?_, hf.rep_insert hend.table, frame_insert hend.table k _⟩
  rw [insert, ← headKey, hr.head, if_neg hlen, hfind]
  simp only [ok_bind, List.length_nil, Nat.lt_irrefl, gt_iff_lt, if_false,
    ofString_record (hr.clean h List.mem_cons_self)]
  simp only at hlevels
  rw [hlevels]
  simp only [ok_bind, writeNodes_eq, hnewnode]
  rfl

/-- The first insertion makes the head. -/
theorem insert_empty {k : ℤ} {v : Bytes} (coins : List Bool)
    (hhead : readRecord db (headKey pre) = []) (hnode : ∀ k, readRecord db (nodeKey pre k) = []) (hv : NoBar v) :
    ∃ db', insert db pre k v coins = .ok db' ∧ Rep db' pre ⟨k, v, maxLevel⟩ [] ∧
      Frame pre db db' := by
  have hmake : SkipNode.make k v maxLevel = record ⟨k, v, maxLevel⟩ [] := by
    rw [SkipNode.make, record]
    congr 1
  refine ⟨db.putString (headKey pre) (SkipNode.make k v maxLevel).toBytes, ?_, ?_, ?_⟩
  · rw [insert, ← headKey, hhead]
    rfl
  · refine ⟨?_, rfl, fun a n b hsplit => ?_, fun k' _ => ?_, List.Pairwise.nil, fun n hn => ?_, ?_⟩
    · rw [readRecord_putString, if_pos rfl, hmake]
    · simp at hsplit
    · rw [readRecord_putString, if_neg (nodeKey_ne_headKey pre pre k')]
      exact hnode k'
    · rw [List.mem_singleton.mp hn]
      exact ⟨hv, show 0 < maxLevel by decide⟩
    · exact List.nodup_singleton k
  · intro key hkey _
    rw [DB.getString_putString, if_neg hkey]

end LedgerDatabase.Ledgerdb.SkipList
