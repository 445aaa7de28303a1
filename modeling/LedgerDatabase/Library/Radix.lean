import Mathlib

/-!
# Numbers by their digits

`value b ds` is the number with the digits `ds` to base `b`, the most significant one first, as loops
build it that shift an accumulator and add the next digit (`foldl_shift`).  Lists of one length
are told apart by their numbers (`value_inj`).
-/

namespace Radix

/-- The number with the given digits, most significant first. -/
def value (b : ℕ) (ds : List ℕ) : ℕ := Nat.ofDigits b ds.reverse

variable {b : ℕ}

theorem value_nil : value b [] = 0 := rfl

theorem value_cons (d : ℕ) (ds : List ℕ) :
    value b (d :: ds) = d * b ^ ds.length + value b ds := by
  rw [value, List.reverse_cons, Nat.ofDigits_append, List.length_reverse, Nat.ofDigits_singleton,
    value]
  ring

theorem value_concat (ds : List ℕ) (d : ℕ) : value b (ds ++ [d]) = value b ds * b + d := by
  rw [value, List.reverse_concat, Nat.ofDigits_cons, value]
  ring

theorem value_lt (hb : 1 < b) {ds : List ℕ} (h : ∀ d ∈ ds, d < b) : value b ds < b ^ ds.length := by
  rw [value, ← List.length_reverse]
  apply Nat.ofDigits_lt_base_pow_length hb
  intro d hd
  exact h d (List.mem_reverse.mp hd)

theorem value_inj (hb : 1 < b) {ds es : List ℕ} (hlen : ds.length = es.length)
    (hds : ∀ d ∈ ds, d < b) (hes : ∀ e ∈ es, e < b) (h : value b ds = value b es) : ds = es := by
  apply List.reverse_injective
  apply Nat.ofDigits_inj_of_len_eq hb
  · rw [List.length_reverse, List.length_reverse, hlen]
  · exact fun d hd => hds d (List.mem_reverse.mp hd)
  · exact fun e he => hes e (List.mem_reverse.mp he)
  · exact h

/-- A loop that shifts by `k` bits and adds a digit, on words of `w` bits. -/
theorem foldl_shift {k w : ℕ} (ds : List ℕ) {acc : ℕ} (h : acc < 2 ^ w) :
    ds.foldl (fun tmp d => (tmp <<< k + d) % 2 ^ w) acc =
      (acc * (2 ^ k) ^ ds.length + value (2 ^ k) ds) % 2 ^ w := by
  induction ds generalizing acc with
  | nil =>
    rw [List.foldl_nil, value_nil, List.length_nil, pow_zero, Nat.mul_one, Nat.add_zero,
      Nat.mod_eq_of_lt h]
  | cons d ds ih =>
    have hsplit : acc * (2 ^ k) ^ (d :: ds).length + value (2 ^ k) (d :: ds) =
        (acc * 2 ^ k + d) * (2 ^ k) ^ ds.length + value (2 ^ k) ds := by
      rw [value_cons, List.length_cons, pow_succ']
      ring
    -- what is cut off from the accumulator stays a multiple of `2 ^ w`
    rw [List.foldl_cons, Nat.shiftLeft_eq, ih (Nat.mod_lt _ (Nat.two_pow_pos w)), hsplit]
    apply Nat.ModEq.add_right
    exact (Nat.mod_modEq _ _).mul_right _

end Radix
