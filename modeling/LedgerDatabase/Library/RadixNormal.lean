import LedgerDatabase.Library.RadixTree

/-!
# Radix trees in normal form

A tree is `Tight` when every branch has two children that are not empty, as insertions leave it
(`tight_insert`).  A tight tree is determined by what it holds (`ext_of_get`), and it has as many
values as keys (`count_eq_ncard`).

The letters of a `short` node are the longest common prefix of the keys below it, and a branch
stands where two keys part: this is why two trees with the same keys have the same nodes.
-/

namespace RadixTree

variable {ι V : Type} [DecidableEq ι] {Q : V → Prop} {P : Set (List ι)} {k : List ι} {v : V}

/-- Every branch has two children that are not empty. -/
def Tight : RadixTree ι V → Prop
  | nil => True
  | value _ => True
  | short _ child => child.Tight
  | full kids => (∃ i j, i ≠ j ∧ kids i ≠ nil ∧ kids j ≠ nil) ∧ ∀ i, (kids i).Tight

/-- The letters that all keys of the tree start with. -/
def common : RadixTree ι V → List ι
  | short key _ => key
  | _ => []

/-! ### Insertion -/

omit [DecidableEq ι] in
theorem hang_ne_nil (key : List ι) {child : RadixTree ι V} (h : child ≠ nil) :
    hang key child ≠ nil := by
  unfold hang
  split_ifs
  · exact h
  · intro hshort
    cases hshort

omit [DecidableEq ι] in
theorem Closed.ne_nil {child : RadixTree ι V} (h : child.Closed) : child ≠ nil := by
  rintro rfl
  exact h

omit [DecidableEq ι] in
theorem tight_hang {key : List ι} {child : RadixTree ι V} (h : child.Tight) :
    (hang key child).Tight := by
  unfold hang
  split_ifs <;> exact h

theorem tight_fork {o u : ι} {ko ku : List ι} {child : RadixTree ι V} (hou : o ≠ u)
    (hne : child ≠ nil) (h : child.Tight) : (fork o ko child u ku v).Tight := by
  constructor
  · refine ⟨o, u, hou, ?_, ?_⟩
    · rw [Function.update_of_ne hou, Function.update_self]
      exact hang_ne_nil ko hne
    · rw [Function.update_self]
      apply hang_ne_nil
      intro hv
      cases hv
  · intro i
    by_cases hiu : i = u
    · subst hiu
      rw [Function.update_self]
      exact tight_hang trivial
    · rw [Function.update_of_ne hiu]
      by_cases hio : i = o
      · subst hio
        rw [Function.update_self]
        exact tight_hang h
      · rw [Function.update_of_ne hio]
        trivial

theorem insert_ne_nil {t : RadixTree ι V} : t.insert k v ≠ nil := by
  cases t with
  | nil =>
    apply hang_ne_nil
    intro h
    cases h
  | value w =>
    intro h
    cases h
  | short key child =>
    rw [insert]
    split
    · intro h
      cases h
    · apply hang_ne_nil
      intro h
      cases h
    · intro h
      cases h
  | full kids =>
    intro h
    cases k <;> cases h

/-- Insertion keeps the normal form. -/
theorem tight_insert (hP : IsAntichain (· <+: ·) P) {t : RadixTree ι V} (ht : t.WF Q P)
    (htight : t.Tight) (hk : k ∈ P) : (t.insert k v).Tight := by
  induction t generalizing P k with
  | nil => exact tight_hang trivial
  | value w => trivial
  | short key child ih =>
    obtain ⟨hne, hnil, hex, hclosed, hchild⟩ := ht
    by_cases hpre : key <+: k
    · rw [insert_short_below hpre]
      exact ih (antichain_after hP key) hchild htight (drop_mem_after hk hpre)
    · obtain ⟨p, o, ko, u, ku, rfl, rfl, hou, hm⟩ :=
        exists_fork hpre (not_prefix_of_exists hP hex hk hpre)
      rw [insert_short_of_fork hm]
      exact tight_hang (tight_fork hou hclosed.ne_nil htight)
  | full kids ih =>
    obtain ⟨hnil, hex, hkids⟩ := ht
    obtain ⟨⟨a, b, hab, ha, hb⟩, htights⟩ := htight
    rcases k with _ | ⟨i, k⟩
    · exact absurd hk hnil
    -- the children that were not empty still are not
    have hkeep : ∀ j, kids j ≠ nil → Function.update kids i ((kids i).insert k v) j ≠ nil := by
      intro j hj
      by_cases hji : j = i
      · subst hji
        rw [Function.update_self]
        exact insert_ne_nil
      · rwa [Function.update_of_ne hji]
    refine ⟨⟨a, b, hab, hkeep a ha, hkeep b hb⟩, fun j => ?_⟩
    by_cases hji : j = i
    · subst hji
      rw [Function.update_self]
      exact ih j (antichain_after hP _) (hkids j) (htights j) hk
    · rw [Function.update_of_ne hji]
      exact htights j

/-! ### The keys of a tight tree -/

/-- A tree that is not empty holds a key. -/
theorem exists_get_of_tight {t : RadixTree ι V} (ht : t.WF Q P) (htight : t.Tight)
    (hne : t ≠ nil) : ∃ k ∈ P, t.get k ≠ none := by
  induction t generalizing P with
  | nil => exact absurd rfl hne
  | value w => exact ⟨[], ht.1, by simp [get]⟩
  | short key child ih =>
    obtain ⟨-, -, -, hclosed, hchild⟩ := ht
    obtain ⟨k, hk, hget⟩ := ih hchild htight hclosed.ne_nil
    refine ⟨key ++ k, hk, ?_⟩
    rw [get, if_pos (List.prefix_append _ _), List.drop_left]
    exact hget
  | full kids ih =>
    obtain ⟨-, -, hkids⟩ := ht
    obtain ⟨⟨i, -, -, hi, -⟩, htights⟩ := htight
    obtain ⟨k, hk, hget⟩ := ih i (hkids i) (htights i) hi
    exact ⟨i :: k, hk, hget⟩

theorem common_prefix_of_get {t : RadixTree ι V} (h : t.get k ≠ none) : t.common <+: k := by
  cases t with
  | short key child =>
    rw [get] at h
    show key <+: k
    by_contra hpre
    rw [if_neg hpre] at h
    exact h rfl
  | _ => exact List.nil_prefix

omit [DecidableEq ι] in
/-- Two keys that part after `key` have no more than `key` in common. -/
theorem prefix_of_prefix_fork {rest rest' : List ι} {i j : ι} (hij : i ≠ j) :
    ∀ {p key : List ι}, p <+: key ++ i :: rest → p <+: key ++ j :: rest' → p <+: key
  | [], key, _, _ => List.nil_prefix
  | a :: p, [], h, h' => by
    rw [List.nil_append, List.cons_prefix_cons] at h h'
    exact absurd (h.1.symm.trans h'.1) hij
  | a :: p, c :: key, h, h' => by
    rw [List.cons_append, List.cons_prefix_cons] at h h'
    exact List.cons_prefix_cons.mpr ⟨h.1, prefix_of_prefix_fork hij h.2 h'.2⟩

/-- Below a closed node that is not a value two keys part. -/
theorem prefix_of_forall_get_full {kids : ι → RadixTree ι V} {p key : List ι}
    (ht : (full kids).WF Q (after P key)) (htight : (full kids).Tight)
    (h : ∀ k ∈ after P key, (full kids).get k ≠ none → p <+: key ++ k) : p <+: key := by
  obtain ⟨-, -, hkids⟩ := ht
  obtain ⟨⟨i, j, hij, hi, hj⟩, htights⟩ := htight
  obtain ⟨k, hk, hget⟩ := exists_get_of_tight (hkids i) (htights i) hi
  obtain ⟨k', hk', hget'⟩ := exists_get_of_tight (hkids j) (htights j) hj
  exact prefix_of_prefix_fork hij (h (i :: k) hk hget) (h (j :: k') hk' hget')

/-- What all keys of a tree start with is within its `common` letters. -/
theorem prefix_common {t : RadixTree ι V} {p : List ι} (ht : t.WF Q P) (htight : t.Tight)
    (hne : t ≠ nil) (h : ∀ k ∈ P, t.get k ≠ none → p <+: k) : p <+: t.common := by
  cases t with
  | nil => exact absurd rfl hne
  | value w => exact h [] ht.1 (by simp [get])
  | short key child =>
    obtain ⟨-, -, -, hclosed, hchild⟩ := ht
    -- every key of the child is one of the tree, behind the letters of the node
    have hbelow : ∀ k ∈ after P key, child.get k ≠ none → p <+: key ++ k := by
      intro k hk hget
      apply h (key ++ k) hk
      rw [get, if_pos (List.prefix_append _ _), List.drop_left]
      exact hget
    show p <+: key
    cases child with
    | nil => exact hclosed.elim
    | value w => simpa using hbelow [] hchild.1 (by simp [get])
    | short key' child' => exact hclosed.elim
    | full kids => exact prefix_of_forall_get_full hchild htight hbelow
  | full kids =>
    have h' : (full kids).WF Q (after P []) := ht
    exact prefix_of_forall_get_full h' htight h

/-- A tree with the keys of one that is not empty. -/
theorem ne_nil_of_get_eq {t t' : RadixTree ι V} (ht : t.WF Q P) (htight : t.Tight) (hne : t ≠ nil)
    (h : ∀ k ∈ P, t.get k = t'.get k) : t' ≠ nil := by
  obtain ⟨k, hk, hget⟩ := exists_get_of_tight ht htight hne
  rintro rfl
  exact hget (h k hk)

/-- Trees with the same keys start with the same letters. -/
theorem common_eq {t t' : RadixTree ι V} (ht : t.WF Q P) (htight : t.Tight) (hne : t ≠ nil)
    (ht' : t'.WF Q P) (htight' : t'.Tight) (h : ∀ k ∈ P, t.get k = t'.get k) :
    t.common = t'.common := by
  have hne' := ne_nil_of_get_eq ht htight hne h
  have hle : t.common <+: t'.common := by
    apply prefix_common ht' htight' hne'
    intro k hk hget
    rw [← h k hk] at hget
    exact common_prefix_of_get hget
  have hle' : t'.common <+: t.common := by
    apply prefix_common ht htight hne
    intro k hk hget
    rw [h k hk] at hget
    exact common_prefix_of_get hget
  exact hle.eq_of_length_le hle'.length_le

/-- **A tight tree is determined by what it holds.** -/
theorem ext_of_get {t t' : RadixTree ι V} (ht : t.WF Q P) (htight : t.Tight)
    (ht' : t'.WF Q P) (htight' : t'.Tight) (h : ∀ k ∈ P, t.get k = t'.get k) : t = t' := by
  induction t generalizing P t' with
  | nil =>
    by_contra hne
    exact ne_nil_of_get_eq ht' htight' (Ne.symm hne) (fun k hk => (h k hk).symm) rfl
  | value w =>
    cases t' with
    | nil => exact absurd (h [] ht.1) (by simp [get])
    | value w' =>
      have hval := h [] ht.1
      rw [get, get, Option.some_inj] at hval
      rw [hval]
    | short key' child' => exact absurd ht.1 ht'.2.1
    | full kids' => exact absurd ht.1 ht'.1
  | short key child ih =>
    have hne : short key child ≠ nil := by simp
    have hcommon := common_eq ht htight hne ht' htight' h
    cases t' with
    | nil => exact absurd rfl (ne_nil_of_get_eq ht htight hne h)
    | value w' => exact absurd ht'.1 ht.2.1
    | short key' child' =>
      obtain rfl : key = key' := hcommon
      obtain ⟨-, -, -, -, hchild⟩ := ht
      obtain ⟨-, -, -, -, hchild'⟩ := ht'
      rw [ih hchild htight hchild' htight' fun k hk => ?_]
      have hk' := h (key ++ k) hk
      simp only [get, List.prefix_append, if_true, List.drop_left] at hk'
      exact hk'
    | full kids' => exact absurd hcommon ht.1
  | full kids ih =>
    have hne : full kids ≠ nil := by simp
    have hcommon := common_eq ht htight hne ht' htight' h
    cases t' with
    | nil => exact absurd rfl (ne_nil_of_get_eq ht htight hne h)
    | value w' => exact absurd ht'.1 ht.1
    | short key' child' => exact absurd hcommon.symm ht'.1
    | full kids' =>
      congr 1
      ext1 i
      exact ih i (ht.2.2 i) (htight.2 i) (ht'.2.2 i) (htight'.2 i) fun k hk => h (i :: k) hk

/-! ### The number of keys -/

/-- The keys of `P` that a tree holds. -/
def held (P : Set (List ι)) (t : RadixTree ι V) : Set (List ι) := {k ∈ P | t.get k ≠ none}

theorem held_short {key : List ι} {child : RadixTree ι V} :
    held P (short key child) = (key ++ ·) '' held (after P key) child := by
  ext k
  constructor
  · rintro ⟨hk, hget⟩
    have hpre : key <+: k := common_prefix_of_get hget
    refine ⟨k.drop key.length, ⟨drop_mem_after hk hpre, ?_⟩, ?_⟩
    · rwa [get, if_pos hpre] at hget
    · obtain ⟨rest, rfl⟩ := hpre
      rw [List.drop_left]
  · rintro ⟨rest, ⟨hk, hget⟩, rfl⟩
    refine ⟨hk, ?_⟩
    rw [get, if_pos (List.prefix_append _ _), List.drop_left]
    exact hget

theorem held_full {kids : ι → RadixTree ι V} :
    held P (full kids) = ⋃ i, (i :: ·) '' held (after P [i]) (kids i) := by
  ext k
  rw [Set.mem_iUnion]
  constructor
  · rintro ⟨hk, hget⟩
    cases k with
    | nil => exact absurd rfl hget
    | cons i k => exact ⟨i, k, ⟨hk, hget⟩, rfl⟩
  · rintro ⟨i, k, ⟨hk, hget⟩, rfl⟩
    exact ⟨hk, hget⟩

/-- **A tree has as many values as keys.** -/
theorem count_eq_encard [Fintype ι] (hP : IsAntichain (· <+: ·) P) {t : RadixTree ι V}
    (ht : t.WF Q P) : (held P t).encard = t.count := by
  induction t generalizing P with
  | nil =>
    have hempty : held P (nil : RadixTree ι V) = ∅ := by
      ext k
      simp [held, get]
    rw [hempty, Set.encard_empty, count, Nat.cast_zero]
  | value w =>
    have hone : held P (value w) = {[]} := by
      ext k
      constructor
      · exact fun hk => eq_nil_of_nil_mem hP ht.1 hk.1
      · rintro rfl
        exact ⟨ht.1, by simp [get]⟩
    rw [hone, Set.encard_singleton, count, Nat.cast_one]
  | short key child ih =>
    rw [held_short, (List.append_right_injective key).encard_image,
      ih (antichain_after hP key) ht.2.2.2.2, count]
  | full kids ih =>
    have hcons : ∀ i : ι, Function.Injective (i :: · : List ι → List ι) :=
      fun i k k' h => (List.cons.inj h).2
    have hdisj : Pairwise (Function.onFun Disjoint
        fun i => (i :: ·) '' held (after P [i]) (kids i)) := by
      intro i j hij
      rw [Function.onFun, Set.disjoint_left]
      rintro k ⟨rest, -, rfl⟩ ⟨rest', -, h⟩
      exact hij (List.cons.inj h).1.symm
    rw [held_full, Set.encard_iUnion_of_finite hdisj, finsum_eq_sum_of_fintype, count,
      Nat.cast_sum]
    apply Finset.sum_congr rfl
    intro i _
    rw [(hcons i).encard_image, ih i (antichain_after hP _) (ht.2.2 i)]

end RadixTree
