import LedgerDatabase.Common.Slice
import LedgerDatabase.Common.Equiv.Bytes

/-!
# The order of byte strings

The comparisons of `Slice` are those of the lexicographic order on lists of bytes.
-/

namespace LedgerDatabase

theorem memcmp_cons (a b : UInt8) (s t : Bytes) (n : ℕ) :
    memcmp (a :: s) (b :: t) (n + 1) =
      if a = b then memcmp s t n else (a.toNat : ℤ) - b.toNat := rfl

/-- Different bytes have different numbers. -/
theorem toNat_sub_ne_zero {a b : UInt8} (h : a ≠ b) : (a.toNat : ℤ) - b.toNat ≠ 0 := by
  intro hzero
  apply h
  rw [← UInt8.toNat_inj]
  omega

/-- `memcmp` of as many bytes as both strings have. -/
theorem memcmp_eq_zero_iff {s t : Bytes} (h : s.length = t.length) :
    memcmp s t s.length = 0 ↔ s = t := by
  induction s generalizing t with
  | nil =>
    cases t with
    | nil => exact iff_of_true rfl rfl
    | cons b t => cases h
  | cons a s ih =>
    cases t with
    | nil => cases h
    | cons b t =>
      rw [List.length_cons, memcmp_cons]
      split_ifs with hab
      · rw [ih (Nat.succ.inj h), hab, List.cons.injEq, eq_self_iff_true, true_and]
      · exact iff_of_false (toNat_sub_ne_zero hab) fun heq => hab (List.cons.inj heq).1

namespace Slice

@[simp]
theorem eq_iff {s t : Bytes} : eq s t = true ↔ s = t := by
  rw [eq]
  split_ifs with hlen
  · exact iff_of_false id fun heq => hlen (heq ▸ rfl)
  · rw [decide_eq_true_iff, memcmp_eq_zero_iff (not_not.mp hlen)]

theorem lt_cons (a b : UInt8) (s t : Bytes) :
    lt (a :: s) (b :: t) = if a = b then lt s t else decide (a < b) := by
  have hmin : min (a :: s).length (b :: t).length = min s.length t.length + 1 := by
    rw [List.length_cons, List.length_cons, Nat.add_min_add_right]
  simp only [lt, hmin, memcmp_cons]
  split_ifs with hab hcmp hcmp
  · rfl
  · simp only [List.length_cons, Nat.add_lt_add_iff_right]
  · rw [decide_eq_decide, UInt8.lt_iff_toNat_lt]
    omega
  · exact absurd (not_not.mp hcmp) (toNat_sub_ne_zero hab)

@[simp]
theorem lt_iff {s t : Bytes} : lt s t = true ↔ s < t := by
  induction s generalizing t with
  | nil =>
    cases t with
    | nil => exact iff_of_false Bool.false_ne_true (List.lt_irrefl _)
    | cons b t => exact iff_of_true rfl (List.nil_lt_cons b t)
  | cons a s ih =>
    cases t with
    | nil => exact iff_of_false Bool.false_ne_true (List.not_lt_nil _)
    | cons b t =>
      rw [lt_cons, List.cons_lt_cons_iff]
      split_ifs with hab
      · rw [ih, hab]
        simp
      · rw [decide_eq_true_iff]
        simp [hab]

theorem gt_eq_lt (s t : Bytes) : gt s t = lt t s := by
  have hneg : ∀ n, memcmp s t n = -memcmp t s n := by
    intro n
    induction n generalizing s t with
    | zero => cases s <;> cases t <;> rfl
    | succ n ih =>
      cases s with
      | nil => cases t <;> rfl
      | cons a s =>
        cases t with
        | nil => rfl
        | cons b t =>
          rw [memcmp_cons, memcmp_cons]
          by_cases hab : a = b
          · rw [if_pos hab, if_pos hab.symm, ih]
          · rw [if_neg hab, if_neg (Ne.symm hab), Int.neg_sub]
  simp only [gt, lt, hneg, Nat.min_comm t.length]
  simp

@[simp]
theorem gt_iff {s t : Bytes} : gt s t = true ↔ t < s := by
  rw [gt_eq_lt, lt_iff]

end Slice

end LedgerDatabase
