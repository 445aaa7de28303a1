import Mathlib.Data.List.Perm.Basic
import Mathlib.Data.List.Sort
import Mathlib.Tactic.Common

/-!
# Orders that agree on conflicts

Two lists of distinct elements, `applied` and `order`, may arrange them differently, but a pair
that conflicts stands in `applied` as it stands in `order` (`Respects`).  Then elements that all
conflict with one another stand in both lists in the same way (`Respects.filter_eq`), also before
an element that conflicts with all of them (`Respects.filter_before_eq`).  This is what conflict
serializability needs: the writers of a key conflict with one another and with its readers.
-/

namespace ConflictOrder

variable {α : Type*}

/-! ### The order of a list -/

/-- `a` stands before `b` in a list. -/
def Before (a b : α) : List α → Prop
  | [] => False
  | c :: l => (a = c ∧ b ∈ l) ∨ Before a b l

theorem Before.mem {a b : α} {l : List α} (h : Before a b l) : a ∈ l ∧ b ∈ l := by
  induction l with
  | nil => exact h.elim
  | cons c l ih =>
    rcases h with ⟨rfl, hb⟩ | h
    · exact ⟨List.mem_cons_self .., List.mem_cons_of_mem _ hb⟩
    · exact ⟨List.mem_cons_of_mem _ (ih h).1, List.mem_cons_of_mem _ (ih h).2⟩

theorem before_append {a b : α} {l l' : List α} :
    Before a b (l ++ l') ↔ Before a b l ∨ (a ∈ l ∧ b ∈ l') ∨ Before a b l' := by
  induction l with
  | nil => simp [Before]
  | cons c l ih =>
    rw [List.cons_append, Before, Before, ih, List.mem_append, List.mem_cons]
    tauto

theorem before_concat {a b c : α} {l : List α} :
    Before a b (l ++ [c]) ↔ Before a b l ∨ (a ∈ l ∧ b = c) := by
  rw [before_append]
  simp [Before]

/-- Of two distinct elements one stands before the other. -/
theorem before_total {a b : α} {l : List α} (ha : a ∈ l) (hb : b ∈ l) (hne : a ≠ b) :
    Before a b l ∨ Before b a l := by
  induction l with
  | nil => cases ha
  | cons c l ih =>
    rw [List.mem_cons] at ha hb
    rcases ha with rfl | ha
    · exact Or.inl (Or.inl ⟨rfl, hb.resolve_left fun h => hne h.symm⟩)
    · rcases hb with rfl | hb
      · exact Or.inr (Or.inl ⟨rfl, ha⟩)
      · exact (ih ha hb).imp Or.inr Or.inr

theorem Before.asymm {a b : α} {l : List α} (hl : l.Nodup) (h : Before a b l) :
    ¬ Before b a l := by
  induction l with
  | nil => exact h.elim
  | cons c l ih =>
    rw [List.nodup_cons] at hl
    rcases h with ⟨rfl, hb⟩ | h
    · rintro (⟨rfl, -⟩ | h')
      · exact hl.1 hb
      · exact hl.1 h'.mem.2
    · rintro (⟨rfl, -⟩ | h')
      · exact hl.1 h.mem.2
      · exact ih hl.2 h h'

/-- What stands before the element after `pre` is in `pre`. -/
theorem before_iff_mem {a b : α} {pre post : List α} (hl : (pre ++ b :: post).Nodup) :
    Before a b (pre ++ b :: post) ↔ a ∈ pre := by
  rw [before_append, Before]
  have hb : b ∉ pre := fun h => (List.nodup_append.mp hl).2.2 b h b (List.mem_cons_self ..) rfl
  have hb' : b ∉ post := (List.nodup_cons.mp (List.nodup_append.mp hl).2.1).1
  constructor
  · rintro (h | ⟨h, -⟩ | ⟨-, h⟩ | h)
    · exact absurd h.mem.2 hb
    · exact h
    · exact absurd h hb'
    · exact absurd h.mem.2 hb'
  · intro h
    exact Or.inr (Or.inl ⟨h, List.mem_cons_self ..⟩)

theorem before_filter {a b : α} {p : α → Bool} {l : List α} :
    Before a b (l.filter p) ↔ Before a b l ∧ p a ∧ p b := by
  induction l with
  | nil => simp [Before]
  | cons c l ih =>
    rw [List.filter_cons, Before]
    split
    · rename_i hc
      rw [Before, ih, List.mem_filter]
      constructor
      · rintro (⟨rfl, hb, hp⟩ | ⟨h, hp⟩)
        · exact ⟨Or.inl ⟨rfl, hb⟩, hc, hp⟩
        · exact ⟨Or.inr h, hp⟩
      · rintro ⟨⟨rfl, hb⟩ | h, hp⟩
        · exact Or.inl ⟨rfl, hb, hp.2⟩
        · exact Or.inr ⟨h, hp⟩
    · rename_i hc
      rw [ih]
      constructor
      · rintro ⟨h, hp⟩
        exact ⟨Or.inr h, hp⟩
      · rintro ⟨⟨rfl, -⟩ | h, hp⟩
        · exact absurd hp.1 hc
        · exact ⟨h, hp⟩

theorem pairwise_before (l : List α) : l.Pairwise fun a b => Before a b l := by
  induction l with
  | nil => exact List.Pairwise.nil
  | cons c l ih =>
    refine List.Pairwise.cons (fun b hb => Or.inl ⟨rfl, hb⟩) ?_
    exact ih.imp fun h => Or.inr h

theorem pairwise_of_before {R : α → α → Prop} {l : List α} (h : ∀ a b, Before a b l → R a b) :
    l.Pairwise R :=
  (pairwise_before l).imp fun hab => h _ _ hab

/-- Lists of distinct elements are equal when they have the same elements in the same order. -/
theorem eq_of_before {l l' : List α} (hl : l.Nodup) (hl' : l'.Nodup) (hmem : ∀ a, a ∈ l ↔ a ∈ l')
    (hbefore : ∀ a b, Before a b l → Before a b l') : l = l' := by
  have hperm : l.Perm l' := (List.perm_ext_iff_of_nodup hl hl').mpr hmem
  refine hperm.eq_of_pairwise ?_ (pairwise_of_before hbefore) (pairwise_before l')
  intro a b _ _ hab hba
  exact absurd hba (hab.asymm hl')

/-! ### Conflicts -/

variable {conflict : α → α → Prop}

/-- The elements of `applied` stand there after everything that conflicts with them and stands
before them in `order`. -/
def Respects (conflict : α → α → Prop) (order applied : List α) : Prop :=
  ∀ a b, Before a b order → conflict a b → b ∈ applied → Before a b applied

namespace Respects

variable {order applied : List α}

/-- Only conflicts within the order matter. -/
theorem congr {conflict' : α → α → Prop} (h : Respects conflict order applied)
    (hconf : ∀ a ∈ order, ∀ b ∈ order, conflict' a b → conflict a b) :
    Respects conflict' order applied :=
  fun a b hab hc hb => h a b hab (hconf a hab.mem.1 b hab.mem.2 hc) hb

/-- Appending an element that was not applied to the order. -/
theorem decide (h : Respects conflict order applied) {c : α} (hc : c ∉ applied) :
    Respects conflict (order ++ [c]) applied := by
  intro a b hab hconf hb
  rcases before_concat.mp hab with hab | ⟨-, rfl⟩
  · exact h a b hab hconf hb
  · exact absurd hb hc

/-- Applying an element whose conflicting predecessors have been applied. -/
theorem apply (h : Respects conflict order applied) {c : α}
    (hpre : ∀ a, Before a c order → conflict a c → a ∈ applied) :
    Respects conflict order (applied ++ [c]) := by
  intro a b hab hconf hb
  rcases List.mem_append.mp hb with hb | hb
  · exact before_concat.mpr (Or.inl (h a b hab hconf hb))
  · obtain rfl := List.mem_singleton.mp hb
    exact before_concat.mpr (Or.inr ⟨hpre a hab hconf, rfl⟩)

/-- **Elements that conflict with one another** stand in both lists in the same way. -/
theorem filter_eq (h : Respects conflict order applied) (horder : order.Nodup)
    (happlied : applied.Nodup) {p : α → Bool}
    (hconf : ∀ a b, p a → p b → a ≠ b → conflict a b)
    (hmem : ∀ a, p a → (a ∈ order ↔ a ∈ applied)) : applied.filter p = order.filter p := by
  refine (eq_of_before (horder.filter p) (happlied.filter p) ?_ ?_).symm
  · intro a
    simp only [List.mem_filter]
    exact and_congr_left fun hp => hmem a hp
  · intro a b hab
    obtain ⟨hab, ha, hb⟩ := before_filter.mp hab
    have hne : a ≠ b := by
      rintro rfl
      exact hab.asymm horder hab
    exact before_filter.mpr
      ⟨h a b hab (hconf a b ha hb hne) ((hmem b hb).mp hab.mem.2), ha, hb⟩

/-- **Before an element that conflicts with all of them** they stand in both lists in the same
way. -/
theorem filter_before_eq (h : Respects conflict order applied)
    (hsymm : ∀ a b, conflict a b → conflict b a) {x : α} {pre post pre' post' : List α}
    (horder : order = pre ++ x :: post) (happlied : applied = pre' ++ x :: post')
    (hnodup : order.Nodup) (hnodup' : applied.Nodup) (hsub : ∀ a ∈ applied, a ∈ order)
    {p : α → Bool} (hconf : ∀ a b, p a → p b → a ≠ b → conflict a b)
    (hx : ∀ a, p a → a ≠ x → conflict a x) : pre'.filter p = pre.filter p := by
  subst horder happlied
  have hxmem : x ∈ pre' ++ x :: post' := by simp
  have hpre : pre.Nodup := (List.nodup_append.mp hnodup).1
  have hpre' : pre'.Nodup := (List.nodup_append.mp hnodup').1
  -- an element before `x` in the order has been applied before it
  have hto : ∀ a ∈ pre, p a → a ∈ pre' := by
    intro a ha hp
    have hne : a ≠ x := by
      rintro rfl
      exact (List.nodup_append.mp hnodup).2.2 a ha a (List.mem_cons_self ..) rfl
    have hab := h a x ((before_iff_mem hnodup).mpr ha) (hx a hp hne) hxmem
    exact (before_iff_mem hnodup').mp hab
  have hfrom : ∀ a ∈ pre', p a → a ∈ pre := by
    intro a ha hp
    have hne : a ≠ x := by
      rintro rfl
      exact (List.nodup_append.mp hnodup').2.2 a ha a (List.mem_cons_self ..) rfl
    have hmem : a ∈ pre' ++ x :: post' := List.mem_append_left _ ha
    rcases before_total (hsub a hmem) (by simp) hne with hax | hxa
    · exact (before_iff_mem hnodup).mp hax
    · have hbefore := h x a hxa (hsymm a x (hx a hp hne)) hmem
      exact absurd ((before_iff_mem hnodup').mpr ha) (hbefore.asymm hnodup')
  refine (eq_of_before (hpre.filter p) (hpre'.filter p) ?_ ?_).symm
  · intro a
    simp only [List.mem_filter]
    exact and_congr_left fun hp => ⟨fun ha => hto a ha hp, fun ha => hfrom a ha hp⟩
  · intro a b hab
    obtain ⟨hab, ha, hb⟩ := before_filter.mp hab
    have hne : a ≠ b := by
      rintro rfl
      exact hab.asymm hpre hab
    have hb' := hto b hab.mem.2 hb
    have hbefore := h a b (before_append.mpr (Or.inl hab)) (hconf a b ha hb hne)
      (List.mem_append_left _ hb')
    refine before_filter.mpr ⟨?_, ha, hb⟩
    -- both are in front of `x`, so their order is that of the front
    rcases before_append.mp hbefore with h' | ⟨-, h'⟩ | h'
    · exact h'
    · exact absurd rfl ((List.nodup_append.mp hnodup').2.2 b hb' b h')
    · exact absurd rfl ((List.nodup_append.mp hnodup').2.2 b hb' b h'.mem.2)

end Respects

end ConflictOrder
