import Mathlib.Data.List.Dedup
import Mathlib.Order.Defs.Unbundled
import Mathlib.Tactic.Common

/-!
# Positions in an order

An ordered container lists what was put into it in increasing order and once.  So where an element
stands in it depends on the elements only and not on the order in which they came (`getElem?_rank`).
-/

namespace Rank

variable {α : Type*} [LT α]

theorem nodup_of_sorted [IsStrictTotalOrder α (· < ·)] {xs : List α} (h : xs.Pairwise (· < ·)) :
    xs.Nodup := by
  apply h.imp
  rintro a b hlt rfl
  exact irrefl a hlt

variable [DecidableLT α] [DecidableEq α]

/-- The number of different elements of `ks` below `k`. -/
def rank (ks : List α) (k : α) : ℕ := (ks.dedup.filter fun k' => k' < k).length

variable [IsStrictTotalOrder α (· < ·)] {xs ks : List α} {k : α}

/-- The rank of an element counts the elements of a sorted list that has the same elements. -/
theorem rank_eq (hxs : xs.Pairwise (· < ·)) (hmem : ∀ k, k ∈ xs ↔ k ∈ ks) :
    rank ks k = (xs.filter fun k' => k' < k).length := by
  have hperm : ks.dedup.Perm xs := by
    rw [List.perm_ext_iff_of_nodup (List.nodup_dedup ks) (nodup_of_sorted hxs)]
    intro a
    rw [List.mem_dedup, hmem]
  exact (hperm.filter _).length_eq

/-- **The position of an element** in a sorted list is its rank. -/
theorem getElem?_rank (hxs : xs.Pairwise (· < ·)) (hmem : ∀ k, k ∈ xs ↔ k ∈ ks) (hk : k ∈ ks) :
    xs[rank ks k]? = some k := by
  rw [rank_eq hxs hmem]
  obtain ⟨l, r, rfl⟩ := List.append_of_mem ((hmem k).mpr hk)
  obtain ⟨-, hr, hl⟩ := List.pairwise_append.mp hxs
  have hbefore : l.filter (fun k' => k' < k) = l := by
    rw [List.filter_eq_self]
    intro a ha
    exact decide_eq_true (hl a ha k List.mem_cons_self)
  have hbehind : (k :: r).filter (fun k' => k' < k) = [] := by
    rw [List.filter_eq_nil_iff]
    intro a ha hlt
    have hlt := of_decide_eq_true hlt
    rcases List.mem_cons.mp ha with rfl | ha
    · exact irrefl _ hlt
    · exact irrefl _ (IsTrans.trans _ _ _ hlt ((List.pairwise_cons.mp hr).1 a ha))
  rw [List.filter_append, hbefore, hbehind, List.append_nil, List.getElem?_append_right (Nat.le_refl _),
    Nat.sub_self, List.getElem?_cons_zero]

/-- In a sorted list without repetitions every element is at its rank. -/
theorem getElem?_rank_self (hxs : xs.Pairwise (· < ·)) (hk : k ∈ xs) : xs[rank xs k]? = some k :=
  getElem?_rank hxs (fun _ => Iff.rfl) hk

end Rank
