import LedgerDatabase.Common.StdMap
import LedgerDatabase.Library.PutLog

/-!
# Maps by strings

`assign` writes one key and keeps the others (`lookup_assign`) and the order of the entries
(`Ordered.assign`), so every key stands once in a map.
-/

namespace LedgerDatabase.StdMap

variable {V : Type} {m : StdMap V} {key : Bytes} {val : V}

omit V in
/-- Keys that are neither equal nor in this order are in the other one. -/
theorem lt_of_not_lt_of_ne {k k' : Bytes} (h : ¬ k < k') (hne : k ≠ k') : k' < k := by
  by_contra h'
  exact hne (List.le_antisymm (List.not_lt.mp h') (List.not_lt.mp h))

/-- The keys stand in increasing order. -/
def Ordered (m : StdMap V) : Prop := m.Pairwise fun e e' => e.1 < e'.1

theorem lookup_cons_ite (k : Bytes) (e : Bytes × V) :
    List.lookup k (e :: m) = if k = e.1 then some e.2 else m.lookup k := by
  rw [List.lookup_cons]
  by_cases h : k = e.1
  · rw [if_pos h, beq_iff_eq.mpr h]
  · rw [if_neg h, beq_eq_false_iff_ne.mpr h]

theorem lookup_assign (k : Bytes) :
    (m.assign key val).lookup k = if k = key then some val else m.lookup k := by
  induction m with
  | nil => rw [assign, lookup_cons_ite]
  | cons e m ih =>
    obtain ⟨k', v'⟩ := e
    rw [assign]
    by_cases h1 : key = k'
    · rw [if_pos h1, lookup_cons_ite, lookup_cons_ite, h1]
      by_cases hk : k = k' <;> simp [hk]
    · rw [if_neg h1]
      by_cases h2 : key < k'
      · rw [if_pos h2, lookup_cons_ite]
      · rw [if_neg h2, lookup_cons_ite, lookup_cons_ite, ih]
        by_cases hk : k = k'
        · rw [if_pos hk, if_pos hk, if_neg fun h => h1 (h.symm.trans hk)]
        · rw [if_neg hk, if_neg hk]

theorem mem_assign {e : Bytes × V} (h : e ∈ m.assign key val) : e = (key, val) ∨ e ∈ m := by
  induction m with
  | nil => exact Or.inl (List.mem_singleton.mp h)
  | cons e' m ih =>
    obtain ⟨k', v'⟩ := e'
    rw [assign] at h
    split_ifs at h with h1 h2
    · rcases List.mem_cons.mp h with h | h
      · exact Or.inl h
      · exact Or.inr (List.mem_cons_of_mem _ h)
    · rcases List.mem_cons.mp h with h | h
      · exact Or.inl h
      · exact Or.inr h
    · rcases List.mem_cons.mp h with h | h
      · exact Or.inr (h ▸ List.mem_cons_self)
      · exact (ih h).imp_right (List.mem_cons_of_mem _)

/-- The order of the entries is kept. -/
theorem Ordered.assign (h : m.Ordered) (key : Bytes) (val : V) : (m.assign key val).Ordered := by
  induction m with
  | nil => exact List.pairwise_singleton _ _
  | cons e m ih =>
    obtain ⟨k', v'⟩ := e
    obtain ⟨hhead, htail⟩ := List.pairwise_cons.mp h
    rw [StdMap.assign]
    split_ifs with h1 h2
    · subst h1
      exact List.pairwise_cons.mpr ⟨hhead, htail⟩
    · refine List.pairwise_cons.mpr ⟨fun e he => ?_, h⟩
      rcases List.mem_cons.mp he with rfl | he
      · exact h2
      · exact List.lt_trans h2 (hhead e he)
    · refine List.pairwise_cons.mpr ⟨fun e he => ?_, ih htail⟩
      rcases mem_assign he with rfl | he
      · exact lt_of_not_lt_of_ne h2 h1
      · exact hhead e he

theorem Ordered.nodup (h : m.Ordered) : (m.map (·.1)).Nodup := by
  rw [List.Nodup, List.pairwise_map]
  apply List.Pairwise.imp _ h
  intro a b hlt heq
  rw [heq] at hlt
  exact List.lt_irrefl _ hlt

theorem mem_emplace {e : Bytes × V} (h : e ∈ m.emplace key val) : e = (key, val) ∨ e ∈ m := by
  rw [emplace] at h
  split_ifs at h
  · exact Or.inr h
  · exact mem_assign h

/-- Every entry is found. -/
theorem lookup_of_mem (h : m.Ordered) {e : Bytes × V} (he : e ∈ m) : m.lookup e.1 = some e.2 := by
  induction m with
  | nil => cases he
  | cons e' m ih =>
    obtain ⟨hhead, htail⟩ := List.pairwise_cons.mp h
    rw [lookup_cons_ite]
    rcases List.mem_cons.mp he with rfl | he
    · exact if_pos rfl
    · have hne : e.1 ≠ e'.1 := by
        intro heq
        have hlt := hhead e he
        rw [heq] at hlt
        exact List.lt_irrefl _ hlt
      rw [if_neg hne, ih htail he]

theorem ordered_nil : Ordered ([] : StdMap V) := List.Pairwise.nil

/-! ### Parts of a map -/

theorem ordered_append {l r : StdMap V} :
    Ordered (l ++ r) ↔ l.Ordered ∧ r.Ordered ∧ ∀ e ∈ l, ∀ e' ∈ r, e.1 < e'.1 :=
  List.pairwise_append

theorem lookup_eq_none (h : ∀ e ∈ m, key ≠ e.1) : m.lookup key = none := by
  rw [List.lookup_eq_none_iff]
  intro e he
  exact bne_iff_ne.mpr (h e he)

/-- Behind smaller keys a key is looked up in the rest. -/
theorem lookup_append_right {l r : StdMap V} (h : ∀ e ∈ l, e.1 < key) :
    (l ++ r).lookup key = r.lookup key := by
  rw [List.lookup_append, lookup_eq_none, Option.none_or]
  rintro e he rfl
  exact List.lt_irrefl _ (h e he)

/-- Before larger keys a key is looked up in the first part. -/
theorem lookup_append_left {l r : StdMap V} (h : ∀ e ∈ r, key < e.1) :
    (l ++ r).lookup key = l.lookup key := by
  rw [List.lookup_append, lookup_eq_none (m := r), Option.or_none]
  rintro e he rfl
  exact List.lt_irrefl _ (h e he)

/-- Behind smaller keys a key is written into the rest. -/
theorem assign_append_right {l r : StdMap V} (h : ∀ e ∈ l, e.1 < key) :
    (l ++ r).assign key val = l ++ r.assign key val := by
  induction l with
  | nil => rfl
  | cons e l ih =>
    have he := h e List.mem_cons_self
    have hne : key ≠ e.1 := by
      rintro rfl
      exact List.lt_irrefl _ he
    rw [List.cons_append, assign, if_neg hne, if_neg (List.lt_asymm he),
      ih fun e he => h e (List.mem_cons_of_mem _ he), List.cons_append]

/-- A key up to one of the first part is written there. -/
theorem assign_append_left {l r : StdMap V} (h : ∃ e ∈ l, ¬ e.1 < key) :
    (l ++ r).assign key val = l.assign key val ++ r := by
  induction l with
  | nil =>
    obtain ⟨e, he, -⟩ := h
    cases he
  | cons e l ih =>
    obtain ⟨k, v⟩ := e
    rw [List.cons_append, assign, assign]
    split_ifs with heq hlt
    · rfl
    · rfl
    · rw [ih, List.cons_append]
      obtain ⟨e, he, hnot⟩ := h
      rcases List.mem_cons.mp he with rfl | he
      · exact absurd (lt_of_not_lt_of_ne hlt heq) hnot
      · exact ⟨e, he, hnot⟩

theorem mem_assign_self : (key, val) ∈ m.assign key val := by
  induction m with
  | nil => exact List.mem_singleton_self _
  | cons e m ih =>
    rw [assign]
    split_ifs
    · exact List.mem_cons_self
    · exact List.mem_cons_self
    · exact List.mem_cons_of_mem _ ih

/-- The keys after a write. -/
theorem keys_assign {k : Bytes} :
    k ∈ (m.assign key val).map (·.1) ↔ k = key ∨ k ∈ m.map (·.1) := by
  induction m with
  | nil => simp [assign]
  | cons e m ih =>
    rw [assign]
    split_ifs with heq hlt
    · rw [List.map_cons, List.map_cons, List.mem_cons, List.mem_cons, heq]
      tauto
    · rw [List.map_cons, List.mem_cons]
    · rw [List.map_cons, List.map_cons, List.mem_cons, List.mem_cons, ih]
      tauto

theorem assign_ne_nil : m.assign key val ≠ [] := List.ne_nil_of_mem mem_assign_self

/-! ### Ranges -/

section

variable {α : Type} {p : α → Bool} {l : List α}

omit V

/-- Where all elements before a good one are good, the good ones come first. -/
theorem takeWhile_eq_filter (h : l.Pairwise fun a b => p b → p a) : l.takeWhile p = l.filter p := by
  induction l with
  | nil => rfl
  | cons a l ih =>
    obtain ⟨hhead, htail⟩ := List.pairwise_cons.mp h
    by_cases ha : p a
    · rw [List.takeWhile_cons_of_pos ha, List.filter_cons_of_pos ha, ih htail]
    · rw [List.takeWhile_cons_of_neg ha, List.filter_eq_nil_iff.mpr]
      intro b hb hpb
      rcases List.mem_cons.mp hb with rfl | hb
      · exact ha hpb
      · exact ha (hhead b hb hpb)

theorem dropWhile_eq_filter (h : l.Pairwise fun a b => p b → p a) :
    l.dropWhile p = l.filter fun a => !p a := by
  induction l with
  | nil => rfl
  | cons a l ih =>
    obtain ⟨hhead, htail⟩ := List.pairwise_cons.mp h
    by_cases ha : p a
    · rw [List.dropWhile_cons_of_pos ha, List.filter_cons_of_neg (by simpa using ha), ih htail]
    · rw [List.dropWhile_cons_of_neg ha, eq_comm, List.filter_eq_self]
      intro b hb
      rcases List.mem_cons.mp hb with rfl | hb
      · simpa using ha
      · simpa using fun hpb => ha (hhead b hb hpb)

end

/-- The entries up to a key come first. -/
theorem Ordered.pairwise_le (h : m.Ordered) (key : Bytes) :
    m.Pairwise fun e e' => decide (e'.1 ≤ key) → decide (e.1 ≤ key) := by
  apply h.imp
  intro e e' hlt hle
  rw [decide_eq_true_eq] at hle ⊢
  exact List.le_trans (List.le_of_lt hlt) hle

theorem lowerBound_eq_filter (h : m.Ordered) (key : Bytes) :
    m.lowerBound key = m.filter fun e => !decide (e.1 < key) := by
  apply dropWhile_eq_filter
  apply h.imp
  intro e e' hlt hlt'
  rw [decide_eq_true_eq] at hlt' ⊢
  exact List.lt_trans hlt hlt'

theorem upperBound_eq_filter (h : m.Ordered) (key : Bytes) :
    m.upperBound key = m.filter fun e => !decide (e.1 ≤ key) :=
  dropWhile_eq_filter (h.pairwise_le key)

/-- A key behind all others is entered at the end. -/
theorem emplace_concat (h : ∀ e ∈ m, e.1 < key) : m.emplace key val = m ++ [(key, val)] := by
  have hnone : m.lookup key = none := by
    apply lookup_eq_none
    rintro e he rfl
    exact List.lt_irrefl _ (h e he)
  have hassign : (m ++ []).assign key val = m ++ [(key, val)] := assign_append_right h
  rw [List.append_nil] at hassign
  rw [emplace, hnone, hassign]
  rfl

/-- Writing what is there changes nothing. -/
theorem assign_of_lookup (h : m.Ordered) (hl : m.lookup key = some val) : m.assign key val = m := by
  induction m with
  | nil => cases hl
  | cons e m ih =>
    obtain ⟨hhead, htail⟩ := List.pairwise_cons.mp h
    rw [lookup_cons_ite] at hl
    rw [assign]
    by_cases hkey : key = e.1
    · rw [if_pos hkey] at hl ⊢
      rw [hkey, ← Option.some.inj hl]
    · rw [if_neg hkey] at hl ⊢
      -- the key stands behind the first entry
      have hlt : e.1 < key := by
        by_contra hlt
        rw [lookup_eq_none] at hl
        · cases hl
        · intro e' he' heq
          rw [heq] at hlt
          exact hlt (hhead e' he')
      rw [if_neg (List.lt_asymm hlt), ih htail hl]

/-! ### Equality of maps -/

theorem Ordered.mem_iff (h : m.Ordered) {e : Bytes × V} : e ∈ m ↔ m.lookup e.1 = some e.2 :=
  ⟨lookup_of_mem h, PutLog.mem_of_lookup⟩

/-- Ordered maps with the same answers are equal. -/
theorem Ordered.ext {m' : StdMap V} (h : m.Ordered) (h' : m'.Ordered)
    (hlookup : ∀ k, m.lookup k = m'.lookup k) : m = m' := by
  apply List.Perm.eq_of_pairwise _ h h'
  · rw [List.perm_ext_iff_of_nodup h.nodup.of_map h'.nodup.of_map]
    intro e
    rw [h.mem_iff, h'.mem_iff, hlookup]
  · intro e e' _ _ hlt hlt'
    exact absurd hlt' (List.lt_asymm hlt)

theorem lookup_map_val {W : Type} (f : V → W) (k : Bytes) :
    (m.map fun e => (e.1, f e.2)).lookup k = (m.lookup k).map f := by
  induction m with
  | nil => rfl
  | cons e m ih =>
    rw [List.map_cons, lookup_cons_ite, lookup_cons_ite, ih, apply_ite (Option.map f)]
    rfl

/-- A filter by the keys. -/
theorem lookup_filter (p : Bytes → Prop) [DecidablePred p] (k : Bytes) :
    (m.filter fun e => p e.1).lookup k = if p k then m.lookup k else none := by
  induction m with
  | nil => exact (ite_self _).symm
  | cons e m ih =>
    rw [List.filter_cons]
    by_cases he : p e.1
    · rw [if_pos (decide_eq_true he), lookup_cons_ite, lookup_cons_ite, ih]
      by_cases hk : k = e.1
      · rw [if_pos hk, if_pos hk, if_pos (hk ▸ he)]
      · rw [if_neg hk, if_neg hk]
    · rw [if_neg (fun h => he (of_decide_eq_true h)), lookup_cons_ite, ih]
      by_cases hk : k = e.1
      · rw [if_neg (hk ▸ he), if_neg (hk ▸ he)]
      · rw [if_neg hk]

end LedgerDatabase.StdMap
