import LedgerDatabase.Qldb.Equiv.BTree.Node

/-!
# Looking up a key in a B+ tree

`BinarySearch` finds the child whose entries reach up to the key (`Inner.locate`): all entries of the
children before it are smaller, and all entries of those behind it are larger.  So the key is in the
tree if it is in that child, and `TryGet` finds what the entries say (`tryGet_eq`).
-/

namespace LedgerDatabase

/-- The stores answer alike. -/
structure DB.SameAnswers (db db' : DB) : Prop where
  rocks : db'.rocks = db.rocks
  chunkAt : db'.chunkAt = db.chunkAt

namespace DB.SameAnswers

variable {db db' db'' : DB}

theorem refl (db : DB) : SameAnswers db db := ⟨rfl, rfl⟩

theorem trans (h : SameAnswers db db') (h' : SameAnswers db' db'') : SameAnswers db db'' :=
  ⟨h'.rocks.trans h.rocks, h'.chunkAt.trans h.chunkAt⟩

theorem symm (h : SameAnswers db db') : SameAnswers db' db := ⟨h.rocks.symm, h.chunkAt.symm⟩

theorem getChunk (db : DB) (key : Bytes) : SameAnswers db (db.getChunk key).2 :=
  ⟨rocks_getChunk db key, chunkAt_getChunk db key⟩

/-- Both read the same chunk, and go on answering alike. -/
theorem getChunk_congr (h : SameAnswers db db') (key : Bytes) :
    (db.getChunk key).1 = (db'.getChunk key).1 ∧
      SameAnswers (db.getChunk key).2 (db'.getChunk key).2 :=
  ⟨(congrFun h.chunkAt key).symm, ((getChunk db key).symm.trans h).trans (getChunk db' key)⟩

end DB.SameAnswers

namespace Qldb.QLBTree

open QLBTreeMeta (rank)

variable {d s : Bytes → Option Bytes} {pre id c key : Bytes} {n : ℕ} {es tail : StdMap Bytes}
  {kids : Kids} {P : Bytes → StdMap Bytes → Prop}

/-! ### The child for a key -/

/-- The entries reach up to the key, or are the last ones. -/
def Reaches (id : Bytes) (es : StdMap Bytes) (key : Bytes) : Prop :=
  id = infi ∨ lastKey es = some id ∧ ¬ id < key

/-- No key is larger than the last one. -/
theorem not_lastKey_lt (hord : es.Ordered) {k : Bytes} (hk : lastKey es = some k) {e : Bytes × Bytes}
    (he : e ∈ es) : ¬ k < e.1 := by
  obtain ⟨a, ha, rfl⟩ := Option.map_eq_some_iff.mp hk
  obtain ⟨l, rfl⟩ := List.getLast?_eq_some_iff.mp ha
  rcases List.mem_append.mp he with hl | hl
  · obtain ⟨-, -, hlt⟩ := StdMap.ordered_append.mp hord
    exact List.lt_asymm (hlt e hl a (List.mem_singleton_self a))
  · obtain rfl := List.mem_singleton.mp hl
    exact List.lt_irrefl _

/-- The entries below the children are in order. -/
theorem ordered_entriesOf : (entriesOf kids).Ordered ↔ (∀ p ∈ kids, p.2.Ordered) ∧
    kids.Pairwise fun p p' => ∀ e ∈ p.2, ∀ e' ∈ p'.2, e.1 < e'.1 := List.pairwise_flatMap

theorem lastKey_append_of_ne_nil {es' : StdMap Bytes} (h : es' ≠ []) :
    lastKey (es ++ es') = lastKey es' := by
  rw [lastKey, List.getLast?_append_of_ne_nil _ h, lastKey]

/-- The last key below children without a last one. -/
theorem lastKey_entriesOf {p : Bytes × StdMap Bytes} (hp : kids.getLast? = some p)
    (hsep : lastKey p.2 = some p.1) : lastKey (entriesOf (withTail kids [])) = some p.1 := by
  obtain ⟨l, rfl⟩ := List.getLast?_eq_some_iff.mp hp
  rw [withTail, entriesOf_append, entriesOf_append]
  simp only [entriesOf_cons, entriesOf_nil, List.append_nil]
  rw [lastKey_append_of_ne_nil (ne_nil_of_lastKey hsep), hsep]

namespace Inner

theorem ordered (h : Inner P n id es c kids tail) (hord : es.Ordered) :
    (entriesOf (withTail kids tail)).Ordered := h.entries ▸ hord

theorem ordered_kid (h : Inner P n id es c kids tail) (hord : es.Ordered) {p : Bytes × StdMap Bytes}
    (hp : p ∈ withTail kids tail) : p.2.Ordered := (ordered_entriesOf.mp (h.ordered hord)).1 p hp

/-- The ids of the children are in order. -/
theorem pairwise_ids (h : Inner P n id es c kids tail) (hord : es.Ordered) :
    (kids.map Prod.fst).Pairwise (· < ·) := by
  have hpair := (List.pairwise_append.mp (ordered_entriesOf.mp (h.ordered hord)).2).1
  rw [List.pairwise_map]
  apply hpair.imp_of_mem
  intro p p' hp hp' hlt
  obtain ⟨e, he, heq⟩ := List.mem_map.mp (mem_keys_of_lastKey (h.sep p hp))
  obtain ⟨e', he', heq'⟩ := List.mem_map.mp (mem_keys_of_lastKey (h.sep p' hp'))
  rw [← heq, ← heq']
  exact hlt e he e' he'

/-- The last key of a node that is not the last of its level. -/
theorem lastKey_of_tail (h : Inner P n id es c kids []) {p : Bytes × StdMap Bytes}
    (hp : kids.getLast? = some p) : lastKey es = some p.1 := by
  rw [h.entries]
  exact lastKey_entriesOf hp (h.sep p (List.mem_of_getLast? hp))

end Inner

/-- `BinarySearch` counts the children whose ids are smaller. -/
theorem Inner.binarySearch (h : Inner P n id es c kids tail) (hord : es.Ordered) (key : Bytes) :
    (QLBTreeMeta.ofChunk c).binarySearch key = .ok (rank (kids.map Prod.fst) key) := by
  have hkeys : (QLBTreeMeta.ofChunk c).keys = kids.map Prod.fst := by
    rw [h.ofChunk]
  have hsorted := h.pairwise_ids hord
  rw [← hkeys] at hsorted
  have hlen : c.length < 2 ^ 32 := by
    rw [← QLBTreeMeta.bytes_encode h.encoded]
    exact Chunk.length_bytes_lt c
  rw [QLBTreeMeta.binarySearch_eq hsorted (QLBTreeMeta.numEntries_lt hlen hsorted), hkeys]

/-- The child that `BinarySearch` finds for a key, and the children around it. -/
structure Located (kids : Kids) (tail : StdMap Bytes) (key : Bytes) (front : Kids)
    (p : Bytes × StdMap Bytes) (back : Kids) : Prop where
  eq : withTail kids tail = front ++ p :: back
  index : front.length = rank (kids.map Prod.fst) key
  below : ∀ e ∈ entriesOf front, e.1 < key
  ne_nil : p.2 ≠ []
  reaches : Reaches p.1 p.2 key
  last : (p = (infi, tail) ∧ back = [] ∧ kids = front) ∨
    ∃ rest, back = withTail rest tail ∧ kids = front ++ p :: rest ∧ ¬ p.1 < key

/-- **The child for a key.** -/
theorem Inner.locate (h : Inner P n id es c kids tail) (hord : es.Ordered) (hr : Reaches id es key) :
    ∃ front p back, Located kids tail key front p back := by
  have hids := h.pairwise_ids hord
  have hle : rank (kids.map Prod.fst) key ≤ kids.length := by
    have hrank : rank (kids.map Prod.fst) key ≤ (kids.map Prod.fst).length := QLBTreeMeta.rank_le
    rwa [List.length_map] at hrank
  have hbelow : ∀ i p, kids[i]? = some p → (i < rank (kids.map Prod.fst) key ↔ p.1 < key) := by
    intro i p hp
    apply QLBTreeMeta.lt_rank_iff hids
    rw [List.getElem?_map, hp]
    rfl
  generalize hi : rank (kids.map Prod.fst) key = i at hle hbelow
  have hfront : ∀ e ∈ entriesOf (kids.take i), e.1 < key := by
    intro e he
    obtain ⟨p, hp, he⟩ := List.mem_flatMap.mp he
    obtain ⟨j, hj, hget⟩ := List.mem_take_iff_getElem.mp hp
    have hlt : p.1 < key := (hbelow j p (by rw [← hget]; exact List.getElem?_eq_getElem _)).mp (by omega)
    have hmem : p ∈ kids := List.mem_of_mem_take hp
    have hnot := not_lastKey_lt (h.ordered_kid hord (List.mem_append_left _ hmem)) (h.sep p hmem) he
    by_cases heq : e.1 = p.1
    · rwa [heq]
    · exact List.lt_trans (StdMap.lt_of_not_lt_of_ne hnot (Ne.symm heq)) hlt
  rcases Nat.lt_or_ge i kids.length with hlt | hge
  · -- a child with a key
    have hget := List.getElem?_eq_getElem hlt
    have hmem : kids[i] ∈ kids := List.getElem_mem hlt
    have hnot : ¬ kids[i].1 < key := fun hless =>
      Nat.lt_irrefl i ((hbelow i _ hget).mpr hless)
    have hkids : kids = kids.take i ++ kids[i] :: kids.drop (i + 1) := by
      rw [← List.drop_eq_getElem_cons hlt, List.take_append_drop]
    refine ⟨kids.take i, kids[i], withTail (kids.drop (i + 1)) tail, ?_, ?_, hfront,
      ne_nil_of_lastKey (h.sep _ hmem), Or.inr ⟨h.sep _ hmem, hnot⟩, Or.inr ⟨_, rfl, hkids, hnot⟩⟩
    · rw [withTail, withTail, ← List.cons_append, ← List.append_assoc, ← hkids]
    · rw [hi, List.length_take, Nat.min_eq_left hlt.le]
  · -- the last child
    obtain rfl : i = kids.length := Nat.le_antisymm hle hge
    have htail : tail ≠ [] := by
      rintro rfl
      obtain ⟨p, hp⟩ : ∃ p, kids.getLast? = some p := ⟨_, List.getLast?_eq_some_getLast h.kids_ne⟩
      have hid : id ≠ infi := h.tail_iff.mp rfl
      obtain ⟨hlast, hnot⟩ := hr.resolve_left hid
      obtain rfl : p.1 = id := Option.some.inj ((h.lastKey_of_tail hp).symm.trans hlast)
      rw [List.getLast?_eq_getElem?] at hp
      have hpos := List.length_pos_iff.mpr h.kids_ne
      exact hnot ((hbelow _ p hp).mp (by omega))
    rw [List.take_length] at hfront
    exact ⟨kids, (infi, tail), [], rfl, hi.symm, hfront, htail, Or.inl rfl,
      Or.inl ⟨rfl, rfl, rfl⟩⟩

namespace Located

variable {front back : Kids} {p : Bytes × StdMap Bytes}

theorem mem (hl : Located kids tail key front p back) : p ∈ withTail kids tail := by
  rw [hl.eq]
  exact List.mem_append_right _ List.mem_cons_self

theorem entries (hl : Located kids tail key front p back) (h : Inner P n id es c kids tail) :
    es = entriesOf front ++ (p.2 ++ entriesOf back) := by
  rw [h.entries, hl.eq, entriesOf_append, entriesOf_cons]

theorem getElem? (hl : Located kids tail key front p back) :
    (withTail kids tail)[front.length]? = some p := by
  rw [hl.eq, List.getElem?_append_right le_rfl, Nat.sub_self]
  rfl

/-- The entries behind the child are larger. -/
theorem above (hl : Located kids tail key front p back) (h : Inner P n id es c kids tail)
    (hord : es.Ordered) : ∀ e ∈ entriesOf back, key < e.1 := by
  intro e he
  rcases hl.last with ⟨-, rfl, -⟩ | ⟨rest, -, hkids, hnot⟩
  · cases he
  · have hmem : p ∈ kids := by
      rw [hkids]
      exact List.mem_append_right _ List.mem_cons_self
    rw [hl.entries h] at hord
    obtain ⟨-, hord, -⟩ := StdMap.ordered_append.mp hord
    obtain ⟨-, -, hlt⟩ := StdMap.ordered_append.mp hord
    obtain ⟨e', he', heq⟩ := List.mem_map.mp (mem_keys_of_lastKey (h.sep p hmem))
    have hless := hlt e' he' e he
    by_cases hkey : key = p.1
    · rwa [hkey, ← heq]
    · rw [heq] at hless
      exact List.lt_trans (StdMap.lt_of_not_lt_of_ne hnot (Ne.symm hkey)) hless

theorem lookup (hl : Located kids tail key front p back) (h : Inner P n id es c kids tail)
    (hord : es.Ordered) : es.lookup key = p.2.lookup key := by
  rw [hl.entries h, StdMap.lookup_append_right hl.below,
    StdMap.lookup_append_left (hl.above h hord)]

/-- `BinarySearch` finds the child. -/
theorem binarySearch (hl : Located kids tail key front p back) (h : Inner P n id es c kids tail)
    (hord : es.Ordered) : (QLBTreeMeta.ofChunk c).binarySearch key = .ok front.length := by
  rw [h.binarySearch hord, hl.index]

end Located

theorem subSize_succ_one (n : ℕ) : subSize (n + 1) 1 = n := by
  rw [subSize, if_pos (Nat.le_add_left 1 n), Nat.add_sub_cancel]

theorem Inner.childKey (h : Inner P (n + 1) id es c kids tail) (pre x : Bytes) :
    (QLBTreeMeta.ofChunk c).childKey pre x = nodeId pre n x := by
  rw [h.ofChunk, QLBTreeMeta.childKey, subSize_succ_one]

/-! ### `TryGet` -/

/-- The loop over a leaf finds what a lookup does. -/
theorem findVal_eq (hord : es.Ordered) : findVal key es = es.lookup key := by
  induction es with
  | nil => rfl
  | cons e es ih =>
    obtain ⟨hhead, htail⟩ := List.pairwise_cons.mp hord
    rw [findVal, StdMap.lookup_cons_ite]
    by_cases heq : key = e.1
    · rw [if_pos heq, if_pos heq]
    · rw [if_neg heq, if_neg heq]
      by_cases hlt : key < e.1
      · rw [if_pos hlt, StdMap.lookup_eq_none]
        rintro e' he' rfl
        exact List.lt_irrefl _ (List.lt_trans hlt (hhead e' he'))
      · rw [if_neg hlt, ih htail]

/-- **`TryGet`** finds what the entries say. -/
theorem tryGet_eq : ∀ {n fuel : ℕ} {id : Bytes} {es : StdMap Bytes} {c : Bytes} {db : DB},
    Node (fun _ => none) db.chunkAt pre n id es c → es.Ordered → Reaches id es key → n < fuel →
    ∃ db', tryGet pre key fuel c db = .ok (es.lookup key, db') ∧ db.SameAnswers db'
  | _, 0, _, _, _, _, _, _, _, hfuel => absurd hfuel (Nat.not_lt_zero _)
  | 0, fuel + 1, id, es, c, db, ⟨next, hc, _⟩, hord, _, _ => by
    refine ⟨db, ?_, DB.SameAnswers.refl db⟩
    rw [tryGet, QLBTreeMap.chunkType_encode hc]
    simp only [QLBTreeMap.entries_ofChunk_encode hc, findVal_eq hord]
  | n + 1, fuel + 1, id, es, c, db, ⟨kids, tail, h⟩, hord, hr, hfuel => by
    obtain ⟨front, p, back, hl⟩ := h.locate hord hr
    obtain ⟨c', hc', hnode⟩ := (h.kid p hl.mem hl.ne_nil).node
    rw [Option.none_or] at hc'
    have hsame := DB.SameAnswers.getChunk db (nodeId pre n p.1)
    rw [← hsame.chunkAt] at hnode
    obtain ⟨db', hget, hsame'⟩ := tryGet_eq hnode (h.ordered_kid hord hl.mem) hl.reaches
      (Nat.lt_of_succ_lt_succ hfuel)
    refine ⟨db', ?_, hsame.trans hsame'⟩
    rw [tryGet, QLBTreeMeta.chunkType_encode h.encoded]
    simp only [hl.binarySearch h hord, ok_bind, h.childId hl.getElem?, h.childKey]
    rw [DB.getChunk_eq, hc', hl.lookup h hord]
    exact hget

/-- A store that answers alike gives the same value. -/
theorem tryGet_congr {fuel : ℕ} {node : Bytes} {db db' db₁ : DB} {r : Option Bytes}
    (hsame : db.SameAnswers db') (h : tryGet pre key fuel node db = .ok (r, db₁)) :
    ∃ db₁', tryGet pre key fuel node db' = .ok (r, db₁') ∧ db.SameAnswers db₁' := by
  induction fuel generalizing node db db' with
  | zero => cases h
  | succ fuel ih =>
    rw [tryGet] at h ⊢
    split at h
    case h_1 =>
      obtain ⟨rfl, -⟩ := Prod.mk.inj (Except.ok.inj h)
      exact ⟨db', rfl, hsame⟩
    case h_2 =>
      obtain ⟨index, hindex, h⟩ := bind_eq_ok_iff.mp h
      obtain ⟨id, hid, h⟩ := bind_eq_ok_iff.mp h
      obtain ⟨hchunk, hsame'⟩ := hsame.getChunk_congr ((QLBTreeMeta.ofChunk node).childKey pre id)
      dsimp only at h
      obtain ⟨child, hchild, h⟩ := bind_eq_ok_iff.mp h
      obtain ⟨db₁', hget, hsame₁⟩ := ih hsame' h
      refine ⟨db₁', ?_, (DB.SameAnswers.getChunk db _).trans hsame₁⟩
      simp only [hindex, hid, ok_bind, ← hchunk, hchild]
      exact hget
    case h_3 =>
      obtain ⟨rfl, -⟩ := Prod.mk.inj (Except.ok.inj h)
      exact ⟨db', rfl, hsame⟩

/-- Reading changes no answer. -/
theorem tryGet_sameAnswers {fuel : ℕ} {node : Bytes} {db db₁ : DB} {r : Option Bytes}
    (h : tryGet pre key fuel node db = .ok (r, db₁)) : db.SameAnswers db₁ := by
  obtain ⟨db₁', h', hsame⟩ := tryGet_congr (DB.SameAnswers.refl db) h
  rw [h] at h'
  exact (Prod.mk.inj (Except.ok.inj h')).2 ▸ hsame

end Qldb.QLBTree

end LedgerDatabase
