import Mathlib.Data.Finset.Card
import Mathlib.Data.List.Nodup
import Mathlib.Tactic.Common

/-!
# Prefixes of a sorted list

In a list that is sorted by a strict relation `r`, an element is among the first `n` exactly if fewer
than `n` elements are below it (`mem_take_iff`).  So what holds between the elements of a prefix is a
statement about the elements alone (`pairwise_take_iff`), whatever list they come from.
-/

namespace SortedPrefix

variable {α : Type*} {r q : α → α → Prop} [DecidableRel r] {l : List α} {n : ℕ}

theorem filter_eq_nil_of_forall [Std.Asymm r] {a : α} (h : ∀ b ∈ l, r a b) :
    l.filter (fun c => decide (r c a)) = [] := by
  rw [List.filter_eq_nil_iff]
  intro c hc hca
  exact Std.Asymm.asymm _ _ (h c hc) (of_decide_eq_true hca)

/-- The elements below a later one. -/
theorem length_filter_cons_of_rel {a b : α} (h : r a b) :
    ((a :: l).filter fun c => decide (r c b)).length =
      (l.filter fun c => decide (r c b)).length + 1 := by
  rw [List.filter_cons_of_pos (p := fun c => decide (r c b)) (decide_eq_true h), List.length_cons]

/-- There is no element below the first one. -/
theorem length_filter_cons_self [Std.Asymm r] {a : α} (h : ∀ b ∈ l, r a b) :
    ((a :: l).filter fun c => decide (r c a)).length = 0 := by
  have hself : ¬ r a a := fun haa => Std.Asymm.asymm _ _ haa haa
  rw [List.filter_cons_of_neg (p := fun c => decide (r c a)) (by simpa using hself),
    filter_eq_nil_of_forall h, List.length_nil]

/-- **The first elements** are those with few elements below them. -/
theorem mem_take_iff [Std.Asymm r] (h : l.Pairwise r) {b : α} :
    b ∈ l.take n ↔ b ∈ l ∧ (l.filter fun c => decide (r c b)).length < n := by
  induction l generalizing n with
  | nil => simp
  | cons a l ih =>
    obtain ⟨hhead, htail⟩ := List.pairwise_cons.mp h
    cases n with
    | zero => simp
    | succ n =>
      rw [List.take_succ_cons, List.mem_cons, List.mem_cons, ih htail]
      constructor
      · rintro (rfl | ⟨hb, hlt⟩)
        · refine ⟨Or.inl rfl, ?_⟩
          rw [length_filter_cons_self hhead]
          exact Nat.succ_pos n
        · refine ⟨Or.inr hb, ?_⟩
          rw [length_filter_cons_of_rel (hhead b hb)]
          exact Nat.succ_lt_succ hlt
      · rintro ⟨rfl | hb, hlt⟩
        · exact Or.inl rfl
        · rw [length_filter_cons_of_rel (hhead b hb)] at hlt
          exact Or.inr ⟨hb, Nat.lt_of_succ_lt_succ hlt⟩

/-- **Between the first elements** holds what holds between an element and one with few below it. -/
theorem pairwise_take_iff [Std.Asymm r] (h : l.Pairwise r) :
    (l.take n).Pairwise q ↔ ∀ a ∈ l, ∀ b ∈ l, r a b →
      (l.filter fun c => decide (r c b)).length < n → q a b := by
  have htake : (l.take n).Pairwise r := h.sublist (List.take_sublist n l)
  constructor
  · intro hq a ha b hb hab hlt
    -- what is below an element of the prefix is in the prefix
    have hb' : b ∈ l.take n := (mem_take_iff h).mpr ⟨hb, hlt⟩
    have ha' : a ∈ l.take n := by
      by_contra hnot
      have hdrop : a ∈ l.drop n := by
        rw [← List.take_append_drop n l, List.mem_append] at ha
        exact ha.resolve_left hnot
      have hba : r b a := by
        have hall := h
        rw [← List.take_append_drop n l] at hall
        exact (List.pairwise_append.mp hall).2.2 b hb' a hdrop
      exact Std.Asymm.asymm _ _ hab hba
    have hboth := htake.and hq
    have hne : a ≠ b := by
      rintro rfl
      exact Std.Asymm.asymm _ _ hab hab
    have hget := List.pairwise_iff_getElem.mp hboth
    obtain ⟨i, hi, rfl⟩ := List.getElem_of_mem ha'
    obtain ⟨j, hj, rfl⟩ := List.getElem_of_mem hb'
    rcases Nat.lt_trichotomy i j with hij | rfl | hji
    · exact (hget i j hi hj hij).2
    · exact absurd rfl hne
    · exact absurd (hget j i hj hi hji).1 (Std.Asymm.asymm _ _ hab)
  · intro hq
    apply List.Pairwise.imp_of_mem _ htake
    intro a b ha hb hab
    obtain ⟨hb, hlt⟩ := (mem_take_iff h).mp hb
    exact hq a (List.mem_of_mem_take ha) b hb hab hlt

end SortedPrefix
