import LedgerDatabase.Qldb.Equiv.BTree.Set

/-!
# Ranges of a B+ tree

`Range` visits the children whose keys can lie between the bounds.  A node that is not the last of its
level has no child `_INFI_`, but a bound behind all of its keys leads there all the same, and then the
last node of the level below is visited, which belongs to another part of the tree.  What is collected
there lies between the bounds as well and is collected at most once (`Collected`), so the result is
right (`Represents.range`).
-/

namespace LedgerDatabase.Qldb.QLBTree

open Qldb.QLBTreeMeta (rank)

variable {s : Bytes → Option Bytes} {pre id c start stop : Bytes} {n : ℕ} {es tail : StdMap Bytes}
  {kids : Kids} {P : Bytes → StdMap Bytes → Prop} {db : DB} {t : QLBTree}

/-! ### What is collected -/

/-- A key between the bounds. -/
def Within (start stop k : Bytes) : Prop := ¬ k < start ∧ ¬ stop < k

instance : Decidable (Within start stop id) := inferInstanceAs (Decidable (_ ∧ _))

/-- The result has entries of the tree between the bounds only. -/
def Sound (all : StdMap Bytes) (start stop : Bytes) (result : StdMap Bytes) : Prop :=
  ∀ k v, result.lookup k = some v → (k, v) ∈ all ∧ Within start stop k

/-- The entries `es` between the bounds have been added to the result. -/
structure Collected (all : StdMap Bytes) (start stop : Bytes) (es result result' : StdMap Bytes) :
    Prop where
  sound : Sound all start stop result → Sound all start stop result'
  keeps : ∀ k, (result.lookup k).isSome → (result'.lookup k).isSome
  finds : ∀ e ∈ es, Within start stop e.1 → (result'.lookup e.1).isSome
  ordered : result.Ordered → result'.Ordered

namespace Collected

variable {all es' result result' result'' : StdMap Bytes}

theorem refl (h : ∀ e ∈ es, ¬ Within start stop e.1) : Collected all start stop es result result :=
  ⟨fun hs => hs, fun _ hk => hk, fun e he hin => absurd hin (h e he), fun ho => ho⟩

theorem trans (h : Collected all start stop es result result')
    (h' : Collected all start stop es' result' result'') :
    Collected all start stop (es ++ es') result result'' := by
  refine ⟨fun hs => h'.sound (h.sound hs), fun k hk => h'.keeps k (h.keeps k hk), ?_,
    fun ho => h'.ordered (h.ordered ho)⟩
  intro e he hin
  rcases List.mem_append.mp he with he | he
  · exact h'.keeps e.1 (h.finds e he hin)
  · exact h'.finds e he hin

theorem mono (h : Collected all start stop es result result')
    (hes : ∀ e ∈ es', Within start stop e.1 → e ∈ es) :
    Collected all start stop es' result result' :=
  { h with finds := fun e he hin => h.finds e (hes e he hin) hin }

end Collected

/-! ### Leaves -/

theorem lookup_emplace {key val : Bytes} {result : StdMap Bytes} (k : Bytes) :
    (emplace key val result).lookup k =
      if k = key then some ((result.lookup key).getD val) else result.lookup k := by
  rw [emplace]
  cases hkey : result.lookup key with
  | none => simp only [StdMap.lookup_assign, Option.getD_none]
  | some v =>
    by_cases hk : k = key
    · rw [if_pos hk, hk]
      exact hkey
    · rw [if_neg hk]

theorem collected_emplace {all result : StdMap Bytes} {e : Bytes × Bytes} (he : e ∈ all)
    (hin : Within start stop e.1) :
    Collected all start stop [e] result (emplace e.1 e.2 result) := by
  constructor
  · intro hs k v hk
    rw [lookup_emplace] at hk
    split_ifs at hk with heq
    · subst heq
      cases hold : result.lookup e.1 with
      | none =>
        rw [hold] at hk
        obtain rfl := Option.some.inj hk
        exact ⟨he, hin⟩
      | some w =>
        rw [hold] at hk
        obtain rfl := Option.some.inj hk
        exact hs _ _ hold
    · exact hs k v hk
  · intro k hk
    rw [lookup_emplace]
    split_ifs
    · rfl
    · exact hk
  · intro e' he' _
    rw [List.mem_singleton.mp he', lookup_emplace, if_pos rfl]
    rfl
  · intro ho
    rw [emplace]
    split
    · exact ho
    · exact ho.assign e.1 e.2

/-- **`FindKey`** collects the entries of a leaf. -/
theorem collected_findKey {all : StdMap Bytes} : ∀ {es result : StdMap Bytes}, es.Ordered →
    (∀ e ∈ es, e ∈ all) → Collected all start stop es result (findKey start stop es result)
  | [], _, _, _ => Collected.refl fun _ he => absurd he List.not_mem_nil
  | (k, v) :: es, result, hord, hall => by
    obtain ⟨hhead, htail⟩ := List.pairwise_cons.mp hord
    have hrest : ∀ e ∈ es, e ∈ all := fun e he => hall e (List.mem_cons_of_mem _ he)
    rw [findKey]
    split_ifs with hin hbehind
    · exact (collected_emplace (hall _ List.mem_cons_self) hin).trans (collected_findKey htail hrest)
    · -- the entries behind this one are larger
      apply Collected.refl
      intro e he hin'
      rcases List.mem_cons.mp he with rfl | he
      · exact hin hin'
      · exact hin'.2 (List.lt_trans hbehind (hhead e he))
    · apply (collected_findKey htail hrest).mono
      intro e he hin'
      rcases List.mem_cons.mp he with rfl | he
      · exact absurd hin' hin
      · exact he

/-! ### The last nodes of the levels -/

/-- The last node of every level below `n` is there. -/
def Spine (s : Bytes → Option Bytes) (pre : Bytes) (all : StdMap Bytes) (n : ℕ) : Prop :=
  ∀ m < n, ∃ es, Slot (fun _ => none) s pre m infi es ∧ es.Ordered ∧ ∀ e ∈ es, e ∈ all

theorem spine_of_node : ∀ {n : ℕ} {es : StdMap Bytes} {c : Bytes},
    Node (fun _ => none) s pre n infi es c → es.Ordered → Spine s pre es n
  | 0, _, _, _, _ => fun _ hm => absurd hm (Nat.not_lt_zero _)
  | n + 1, es, c, ⟨kids, tail, h⟩, hord => by
    have hmem : (infi, tail) ∈ withTail kids tail := List.mem_append_right _ (List.mem_singleton_self _)
    have htail : tail ≠ [] := fun hnil => h.tail_iff.mp hnil rfl
    have hord' : tail.Ordered := h.ordered_kid hord hmem
    have hsub : ∀ e ∈ tail, e ∈ es := by
      intro e he
      rw [h.entries]
      exact List.mem_flatMap_of_mem hmem he
    have hslot := h.kid _ hmem htail
    intro m hm
    rcases Nat.eq_or_lt_of_le (Nat.le_of_lt_succ hm) with rfl | hlt
    · exact ⟨tail, hslot, hord', hsub⟩
    · obtain ⟨c', hc', hnode⟩ := hslot.node
      obtain ⟨es', hes', hord'', hsub'⟩ := spine_of_node hnode hord' m hlt
      exact ⟨es', hes', hord'', fun e he => hsub e (hsub' e he)⟩

/-! ### Inner nodes -/

/-- What can lie between the bounds is below the children that are visited. -/
theorem Inner.mem_visited (h : Inner P n id es c kids tail) (hord : es.Ordered) {e : Bytes × Bytes}
    (he : e ∈ es) (hin : Within start stop e.1) :
    e ∈ entriesOf (((withTail kids tail).drop (rank (kids.map Prod.fst) start)).take
      (rank (kids.map Prod.fst) stop + 1 - rank (kids.map Prod.fst) start)) := by
  have hids := h.pairwise_ids hord
  have hall := h.ordered hord
  rw [h.entries] at he
  obtain ⟨p, hp, he⟩ := List.mem_flatMap.mp he
  obtain ⟨i, hi⟩ := List.mem_iff_getElem?.mp hp
  -- a child before the first one has smaller keys
  have hfirst : rank (kids.map Prod.fst) start ≤ i := by
    by_contra hlt
    rw [Nat.not_le] at hlt
    have hlen : rank (kids.map Prod.fst) start ≤ kids.length := by
      have hle : rank (kids.map Prod.fst) start ≤ (kids.map Prod.fst).length := QLBTreeMeta.rank_le
      rwa [List.length_map] at hle
    rw [withTail, List.getElem?_append_left (by omega)] at hi
    have hid : (kids.map Prod.fst)[i]? = some p.1 := by
      rw [List.getElem?_map, hi]
      rfl
    have hsmaller := (QLBTreeMeta.lt_rank_iff hids hid).mp hlt
    have hmem := List.mem_of_getElem? hi
    have hnot := not_lastKey_lt (h.ordered_kid hord hp) (h.sep p hmem) he
    apply hin.1
    by_cases heq : e.1 = p.1
    · rwa [heq]
    · exact List.lt_trans (StdMap.lt_of_not_lt_of_ne hnot (Ne.symm heq)) hsmaller
  -- a child behind the last one has larger keys
  have hlast : i ≤ rank (kids.map Prod.fst) stop := by
    by_contra hlt
    rw [Nat.not_le] at hlt
    have hlen : i ≤ kids.length := by
      have hle := (List.getElem?_eq_some_iff.mp hi).1
      rw [withTail, List.length_append, List.length_singleton] at hle
      omega
    obtain ⟨q, hq⟩ : ∃ q, kids[rank (kids.map Prod.fst) stop]? = some q :=
      ⟨_, List.getElem?_eq_getElem (by omega)⟩
    have hid : (kids.map Prod.fst)[rank (kids.map Prod.fst) stop]? = some q.1 := by
      rw [List.getElem?_map, hq]
      rfl
    have hnot : ¬ q.1 < stop := fun hless =>
      Nat.lt_irrefl _ ((QLBTreeMeta.lt_rank_iff hids hid).mpr hless)
    have hqmem := List.mem_of_getElem? hq
    obtain ⟨e', he', heq⟩ := List.mem_map.mp (mem_keys_of_lastKey (h.sep q hqmem))
    have hq' : (withTail kids tail)[rank (kids.map Prod.fst) stop]? = some q := by
      rw [withTail, List.getElem?_append_left (List.getElem?_eq_some_iff.mp hq).1]
      exact hq
    have hless : q.1 < e.1 := by
      rw [← heq]
      obtain ⟨hqlt, hqget⟩ := List.getElem?_eq_some_iff.mp hq'
      obtain ⟨hilt, higet⟩ := List.getElem?_eq_some_iff.mp hi
      have hpair := List.pairwise_iff_getElem.mp (ordered_entriesOf.mp hall).2 _ _ hqlt hilt hlt
      rw [hqget, higet] at hpair
      exact hpair e' he' e he
    apply hin.2
    by_cases hstop : stop = q.1
    · rwa [hstop]
    · exact List.lt_trans (StdMap.lt_of_not_lt_of_ne hnot (Ne.symm hstop)) hless
  apply List.mem_flatMap_of_mem _ he
  rw [List.mem_iff_getElem?]
  refine ⟨i - rank (kids.map Prod.fst) start, ?_⟩
  rw [List.getElem?_take_of_lt (by omega), List.getElem?_drop, Nat.add_sub_cancel' hfirst]
  exact hi

/-- **The loop over the children** collects what each of them does. -/
theorem rangeLoop_spec {all : StdMap Bytes}
    {visit : Bytes → StdMap Bytes → DB → Except Fault (StdMap Bytes × DB)}
    (h : Inner P (n + 1) id es c kids tail)
    (hvisit : ∀ p ∈ withTail kids tail, ∀ result db', db.SameAnswers db' → ∃ child result' db'',
      db'.chunkAt (nodeId pre n p.1) = some child ∧
        visit child result (db'.getChunk (nodeId pre n p.1)).2 = .ok (result', db'') ∧
        db.SameAnswers db'' ∧ Collected all start stop p.2 result result') :
    ∀ {k i : ℕ} (result : StdMap Bytes) {db' : DB}, db.SameAnswers db' →
      k + i ≤ (withTail kids tail).length → ∃ result' db'',
        rangeLoop visit pre (QLBTreeMeta.ofChunk c) k i result db' = .ok (result', db'') ∧
          db.SameAnswers db'' ∧
          Collected all start stop (entriesOf (((withTail kids tail).drop i).take k)) result result'
  | 0, i, result, db', hsame, _ =>
    ⟨result, db', rfl, hsame, Collected.refl fun _ he => absurd he List.not_mem_nil⟩
  | k + 1, i, result, db', hsame, hle => by
    have hi : i < (withTail kids tail).length := by omega
    have hget := List.getElem?_eq_getElem hi
    obtain ⟨child, result₁, db₁, hchild, hrun, hsame₁, hcol⟩ :=
      hvisit _ (List.getElem_mem hi) result db' hsame
    obtain ⟨result', db'', hloop, hsame', hcol'⟩ := rangeLoop_spec h hvisit (k := k) (i := i + 1)
      result₁ hsame₁ (by omega)
    refine ⟨result', db'', ?_, hsame', ?_⟩
    · rw [rangeLoop]
      simp only [h.childId hget, ok_bind, h.childKey]
      rw [DB.getChunk_eq, hchild]
      simp only [deref, ok_bind, hrun]
      exact hloop
    · rw [List.drop_eq_getElem_cons hi, List.take_succ_cons, entriesOf_cons]
      exact hcol.trans hcol'

/-- **`TryRange`** collects the entries of a node. -/
theorem tryRange_spec {all : StdMap Bytes} : ∀ {n fuel : ℕ} {id : Bytes} {es : StdMap Bytes}
    {c : Bytes} {db : DB} (result : StdMap Bytes), Node (fun _ => none) db.chunkAt pre n id es c →
    es.Ordered → (∀ e ∈ es, e ∈ all) → Spine db.chunkAt pre all n → n < fuel →
    ∃ result' db', tryRange pre start stop fuel c result db = .ok (result', db') ∧
      db.SameAnswers db' ∧ Collected all start stop es result result'
  | _, 0, _, _, _, _, _, _, _, _, _, hfuel => absurd hfuel (Nat.not_lt_zero _)
  | 0, fuel + 1, id, es, c, db, result, ⟨next, hc, _⟩, hord, hall, _, _ => by
    refine ⟨_, db, ?_, DB.SameAnswers.refl db, collected_findKey hord hall⟩
    rw [tryRange, QLBTreeMap.chunkType_encode hc]
    simp only [QLBTreeMap.entries_ofChunk_encode hc]
  | n + 1, fuel + 1, id, es, c, db, result, ⟨kids, tail, h⟩, hord, hall, hspine, hfuel => by
    have hspine' : Spine db.chunkAt pre all n := fun m hm => hspine m (Nat.lt_succ_of_lt hm)
    -- a child without entries is the last node of its level, from another part of the tree
    have hchild : ∀ p ∈ withTail kids tail, ∃ es', Slot (fun _ => none) db.chunkAt pre n p.1 es' ∧
        es'.Ordered ∧ (∀ e ∈ es', e ∈ all) ∧ ∀ e ∈ p.2, e ∈ es' := by
      intro p hp
      by_cases hne : p.2 = []
      · have hinfi : p.1 = infi := by
          rcases List.mem_append.mp hp with hp | hp
          · exact absurd hne (ne_nil_of_lastKey (h.sep p hp))
          · rw [List.mem_singleton.mp hp]
        obtain ⟨es', hslot, hord', hsub⟩ := hspine n (Nat.lt_succ_self n)
        rw [hinfi, hne]
        exact ⟨es', hslot, hord', hsub, fun _ he => absurd he List.not_mem_nil⟩
      · refine ⟨p.2, h.kid p hp hne, h.ordered_kid hord hp, fun e he => hall e ?_, fun _ he => he⟩
        rw [h.entries]
        exact List.mem_flatMap_of_mem hp he
    have hvisit : ∀ p ∈ withTail kids tail, ∀ result db', db.SameAnswers db' →
        ∃ child result' db'', db'.chunkAt (nodeId pre n p.1) = some child ∧
          tryRange pre start stop fuel child result (db'.getChunk (nodeId pre n p.1)).2 =
            .ok (result', db'') ∧
          db.SameAnswers db'' ∧ Collected all start stop p.2 result result' := by
      intro p hp result db' hsame
      obtain ⟨es', hslot, hord', hsub, hmem⟩ := hchild p hp
      obtain ⟨c', hc', hnode⟩ := hslot.node
      rw [Option.none_or] at hc'
      have hsame₁ := hsame.trans (DB.SameAnswers.getChunk db' (nodeId pre n p.1))
      rw [← hsame₁.chunkAt] at hnode
      obtain ⟨result', db'', hrun, hsame₂, hcol⟩ := tryRange_spec result hnode hord' hsub
        (hsame₁.chunkAt ▸ hspine') (Nat.lt_of_succ_lt_succ hfuel)
      refine ⟨c', result', db'', ?_, hrun, hsame₁.trans hsame₂, hcol.mono fun e he _ => hmem e he⟩
      rw [hsame.chunkAt]
      exact hc'
    have hlast : rank (kids.map Prod.fst) stop ≤ kids.length := by
      have hle : rank (kids.map Prod.fst) stop ≤ (kids.map Prod.fst).length := QLBTreeMeta.rank_le
      rwa [List.length_map] at hle
    have hlen : (withTail kids tail).length = kids.length + 1 := by
      rw [withTail, List.length_append]
      rfl
    have hfirst : rank (kids.map Prod.fst) start ≤ kids.length := by
      have hle : rank (kids.map Prod.fst) start ≤ (kids.map Prod.fst).length := QLBTreeMeta.rank_le
      rwa [List.length_map] at hle
    obtain ⟨result', db', hloop, hsame, hcol⟩ := rangeLoop_spec h hvisit result
      (DB.SameAnswers.refl db) (k := rank (kids.map Prod.fst) stop + 1 - rank (kids.map Prod.fst) start)
      (i := rank (kids.map Prod.fst) start) (by omega)
    refine ⟨result', db', ?_, hsame, hcol.mono fun e he hin => h.mem_visited hord he hin⟩
    rw [tryRange, QLBTreeMeta.chunkType_encode h.encoded]
    simp only [h.binarySearch hord, ok_bind]
    exact hloop

/-- **`Range`** returns the entries between the bounds. -/
theorem Represents.range (h : Represents t db es) (start stop : Bytes) :
    ∃ result db', t.range start stop db = .ok (result, db') ∧ db.SameAnswers db' ∧ result.Ordered ∧
      ∀ k, result.lookup k = if Within start stop k then es.lookup k else none := by
  obtain ⟨n, hnode⟩ := h.node
  obtain ⟨result, db', hrun, hsame, hcol⟩ := tryRange_spec [] hnode h.ordered (fun _ he => he)
    (spine_of_node hnode h.ordered) (lt_depth_node hnode)
  refine ⟨result, db', hrun, hsame, hcol.ordered StdMap.ordered_nil, fun k => ?_⟩
  have hsound : Sound es start stop result := hcol.sound fun k v hk => nomatch hk
  cases hk : result.lookup k with
  | some v =>
    obtain ⟨hmem, hin⟩ := hsound k v hk
    rw [if_pos hin]
    exact (StdMap.lookup_of_mem h.ordered hmem).symm
  | none =>
    split_ifs with hin
    · cases hes : es.lookup k with
      | none => rfl
      | some v =>
        have hfound := hcol.finds (k, v) (PutLog.mem_of_lookup hes) hin
        rw [hk] at hfound
        cases hfound
    · rfl

end LedgerDatabase.Qldb.QLBTree
