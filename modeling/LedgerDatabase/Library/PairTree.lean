import Mathlib.Data.Nat.Log
import Mathlib.Logic.Function.Iterate
import Mathlib.Tactic.Ring

/-!
# Binary trees given level by level

`pairUp two one xs` is the level above `xs`: neighbours are joined with `two`, and a last element
without a neighbour is passed through `one`.  `level two one L xs` is the `L`-th level above the
leaves `xs`; it has `⌈n / 2^L⌉` entries (`length_level`), so `Nat.clog 2 n` is the height at which
one entry, the root, is left.

`groups xs` cuts a level into the neighbours that are joined, so a level determines the one below it
as far as joining is injective (`level_injOn`).

Entry `k` of level `L` depends only on the leaves `k 2^L, …, (k+1) 2^L - 1` (`level_drop`,
`level_take`).  Once all of them are there the entry is final: appending leaves does not change it
(`getElem?_level_append`).
-/

namespace PairTree

variable {α : Type*} (two : α → α → α) (one : α → α)

/-- The level above `xs`. -/
def pairUp : List α → List α
  | [] => []
  | [a] => [one a]
  | a :: b :: xs => two a b :: pairUp xs

/-- The `L`-th level above the leaves `xs`. -/
def level (L : ℕ) (xs : List α) : List α := (pairUp two one)^[L] xs

/-! ### One level -/

theorem length_pairUp : ∀ xs : List α, (pairUp two one xs).length = (xs.length + 1) / 2
  | [] => by simp [pairUp]
  | [_] => by simp [pairUp]
  | _ :: _ :: xs => by
    simp only [pairUp, List.length_cons, length_pairUp xs]
    omega

theorem drop_pairUp : ∀ (k : ℕ) (xs : List α),
    (pairUp two one xs).drop k = pairUp two one (xs.drop (2 * k))
  | 0, xs => by simp
  | k + 1, [] => by simp [pairUp]
  | k + 1, [a] => by simp [pairUp, Nat.mul_add]
  | k + 1, a :: b :: xs => by
    rw [pairUp, List.drop_succ_cons, drop_pairUp k xs, Nat.mul_add, Nat.mul_one,
      List.drop_succ_cons, List.drop_succ_cons]

theorem take_pairUp : ∀ (k : ℕ) (xs : List α),
    (pairUp two one xs).take k = pairUp two one (xs.take (2 * k))
  | 0, xs => by simp [pairUp]
  | k + 1, [] => by simp [pairUp]
  | k + 1, [a] => by simp [pairUp, Nat.mul_add]
  | k + 1, a :: b :: xs => by
    rw [pairUp, List.take_succ_cons, take_pairUp k xs, Nat.mul_add, Nat.mul_one,
      List.take_succ_cons, List.take_succ_cons, pairUp]

/-- An inner entry joins its two children. -/
theorem getElem?_pairUp_two {xs : List α} {k : ℕ} {a b : α} (ha : xs[2 * k]? = some a)
    (hb : xs[2 * k + 1]? = some b) : (pairUp two one xs)[k]? = some (two a b) := by
  have hdrop : xs.drop (2 * k) = a :: b :: xs.drop (2 * k + 2) := by
    obtain ⟨hlt, rfl⟩ := List.getElem?_eq_some_iff.mp hb
    obtain ⟨hlt', rfl⟩ := List.getElem?_eq_some_iff.mp ha
    rw [List.drop_eq_getElem_cons hlt', List.drop_eq_getElem_cons hlt]
  have h : ((pairUp two one xs).drop k)[0]? = some (two a b) := by
    rw [drop_pairUp, hdrop, pairUp, List.getElem?_cons_zero]
  rwa [List.getElem?_drop, Nat.add_zero] at h

/-- A last entry without a right child passes its only child on. -/
theorem getElem?_pairUp_one {xs : List α} {k : ℕ} {a : α} (ha : xs[2 * k]? = some a)
    (hlen : xs.length = 2 * k + 1) : (pairUp two one xs)[k]? = some (one a) := by
  have hdrop : xs.drop (2 * k) = [a] := by
    obtain ⟨hlt, rfl⟩ := List.getElem?_eq_some_iff.mp ha
    rw [List.drop_eq_getElem_cons hlt, List.drop_eq_nil_of_le (by omega)]
  have h : ((pairUp two one xs).drop k)[0]? = some (one a) := by
    rw [drop_pairUp, hdrop, pairUp, List.getElem?_cons_zero]
  rwa [List.getElem?_drop, Nat.add_zero] at h

/-- What an entry was made of. -/
theorem pairUp_cases : ∀ {xs : List α} {k : ℕ} {y : α}, (pairUp two one xs)[k]? = some y →
    (∃ a b, xs[2 * k]? = some a ∧ xs[2 * k + 1]? = some b ∧ y = two a b) ∨
      ∃ a, xs[2 * k]? = some a ∧ xs.length = 2 * k + 1 ∧ y = one a
  | [], k, y, h => by simp [pairUp] at h
  | [a], 0, y, h => Or.inr ⟨a, rfl, rfl, (Option.some.inj h).symm⟩
  | [a], k + 1, y, h => by simp [pairUp] at h
  | a :: b :: xs, 0, y, h => Or.inl ⟨a, b, rfl, rfl, (Option.some.inj h).symm⟩
  | a :: b :: xs, k + 1, y, h => by
    rw [pairUp, List.getElem?_cons_succ] at h
    rcases pairUp_cases h with ⟨c, d, hc, hd, hy⟩ | ⟨c, hc, hlen, hy⟩
    · exact Or.inl ⟨c, d, hc, hd, hy⟩
    · exact Or.inr ⟨c, hc, by rw [List.length_cons, List.length_cons, hlen]; rfl, hy⟩

/-! ### All levels -/

@[simp]
theorem level_zero (xs : List α) : level two one 0 xs = xs := rfl

theorem level_succ (L : ℕ) (xs : List α) :
    level two one (L + 1) xs = pairUp two one (level two one L xs) :=
  Function.iterate_succ_apply' ..

/-- Level `L` has an entry `k` exactly when its first leaf `k 2^L` is there. -/
theorem lt_length_level (L k : ℕ) (xs : List α) :
    k < (level two one L xs).length ↔ k * 2 ^ L < xs.length := by
  induction L generalizing k with
  | zero => simp
  | succ L ih =>
    have hpow : k * 2 ^ (L + 1) = 2 * k * 2 ^ L := by ring
    rw [level_succ, length_pairUp, hpow, ← ih]
    omega

/-- Level `L` has one entry exactly when the leaves fit under it. -/
theorem length_level_eq_one (L : ℕ) (xs : List α) :
    (level two one L xs).length = 1 ↔ 0 < xs.length ∧ xs.length ≤ 2 ^ L := by
  have h0 := lt_length_level two one L 0 xs
  have h1 := lt_length_level two one L 1 xs
  omega

theorem drop_level (L k : ℕ) (xs : List α) :
    (level two one L xs).drop k = level two one L (xs.drop (k * 2 ^ L)) := by
  induction L generalizing k with
  | zero => simp
  | succ L ih =>
    have hpow : k * 2 ^ (L + 1) = 2 * k * 2 ^ L := by ring
    rw [level_succ, drop_pairUp, ih, level_succ, hpow]

theorem take_level (L k : ℕ) (xs : List α) :
    (level two one L xs).take k = level two one L (xs.take (k * 2 ^ L)) := by
  induction L generalizing k with
  | zero => simp
  | succ L ih =>
    have hpow : k * 2 ^ (L + 1) = 2 * k * 2 ^ L := by ring
    rw [level_succ, take_pairUp, ih, level_succ, hpow]

/-- **A complete entry is final**: leaves appended behind its last one do not change it. -/
theorem getElem?_level_append (L k : ℕ) (xs ys : List α) (h : (k + 1) * 2 ^ L ≤ xs.length) :
    (level two one L (xs ++ ys))[k]? = (level two one L xs)[k]? := by
  have htake : ∀ zs : List α, (level two one L zs)[k]?
      = (level two one L (zs.take ((k + 1) * 2 ^ L)))[k]? := by
    intro zs
    rw [← take_level, List.getElem?_take_of_lt (by omega)]
  rw [htake (xs ++ ys), htake xs, List.take_append_of_le_length h]

/-! ### Groups of neighbours -/

/-- The neighbours that stand below one entry of the next level. -/
def groups : List α → List (List α)
  | [] => []
  | [a] => [[a]]
  | a :: b :: xs => [a, b] :: groups xs

@[simp]
theorem flatten_groups : ∀ xs : List α, (groups xs).flatten = xs
  | [] => rfl
  | [_] => rfl
  | a :: b :: xs => by
    rw [groups, List.flatten_cons, flatten_groups xs]
    rfl

theorem groups_injective : Function.Injective (groups : List α → List (List α)) :=
  Function.LeftInverse.injective flatten_groups

theorem getElem?_groups : ∀ (xs : List α) (i : ℕ), 2 * i < xs.length →
    (groups xs)[i]? = some ((xs.drop (2 * i)).take 2)
  | [], i, h => by simp at h
  | [a], i, h => by
    have hi : i = 0 := by
      rw [List.length_singleton] at h
      omega
    subst hi
    rfl
  | a :: b :: xs, 0, _ => rfl
  | a :: b :: xs, i + 1, h => by
    rw [groups, List.getElem?_cons_succ, getElem?_groups xs i (by
      rw [List.length_cons, List.length_cons] at h
      omega)]
    rfl

theorem mem_groups_length {g : List α} : ∀ {xs : List α}, g ∈ groups xs →
    g.length = 1 ∨ g.length = 2
  | [], h => absurd h List.not_mem_nil
  | [a], h => Or.inl (by rw [List.mem_singleton.mp h]; rfl)
  | a :: b :: xs, h => by
    rcases List.mem_cons.mp h with rfl | h
    · exact Or.inr rfl
    · exact mem_groups_length h

/-- A function that is injective on the entries of two lists is so on the lists. -/
theorem eq_of_map_eq {β γ : Type*} {f : β → γ} {S : Set β} (hf : Set.InjOn f S) :
    ∀ {xs ys : List β}, (∀ x ∈ xs, x ∈ S) → (∀ y ∈ ys, y ∈ S) → xs.map f = ys.map f → xs = ys
  | [], [], _, _, _ => rfl
  | [], y :: ys, _, _, h => by cases h
  | x :: xs, [], _, _, h => by cases h
  | x :: xs, y :: ys, hxs, hys, h => by
    rw [List.map_cons, List.map_cons] at h
    obtain ⟨hhead, htail⟩ := List.cons.inj h
    rw [hf (hxs x List.mem_cons_self) (hys y List.mem_cons_self) hhead,
      eq_of_map_eq hf (fun x hx => hxs x (List.mem_cons_of_mem _ hx))
        (fun y hy => hys y (List.mem_cons_of_mem _ hy)) htail]

section

variable {two one} {f : List α → α} (htwo : ∀ a b, two a b = f [a, b]) (hone : ∀ a, one a = f [a])
include htwo hone

theorem pairUp_eq_map_groups : ∀ xs : List α, pairUp two one xs = (groups xs).map f
  | [] => rfl
  | [a] => by rw [pairUp, groups, List.map_singleton, hone]
  | a :: b :: xs => by
    rw [pairUp, groups, List.map_cons, htwo, pairUp_eq_map_groups xs]

/-- **A level determines its leaves** when `f` is injective on the groups that were joined. -/
theorem level_injOn {S : Set (List α)} (hf : Set.InjOn f S) {xs ys : List α} : ∀ {L : ℕ},
    (∀ l < L, ∀ g ∈ groups (level two one l xs), g ∈ S) →
    (∀ l < L, ∀ g ∈ groups (level two one l ys), g ∈ S) →
    level two one L xs = level two one L ys → xs = ys
  | 0, _, _, h => h
  | L + 1, hxs, hys, h => by
    rw [level_succ, level_succ, pairUp_eq_map_groups htwo hone, pairUp_eq_map_groups htwo hone] at h
    have hgroups : groups (level two one L xs) = groups (level two one L ys) :=
      eq_of_map_eq hf (hxs L (by omega)) (hys L (by omega)) h
    exact level_injOn hf (fun l hl => hxs l (by omega)) (fun l hl => hys l (by omega))
      (groups_injective hgroups)

end

/-! ### The root -/

theorem length_le_two_pow_clog (xs : List α) : xs.length ≤ 2 ^ Nat.clog 2 xs.length :=
  Nat.le_pow_clog (by omega) _

/-- Below the height there is more than one entry. -/
theorem two_pow_lt_of_lt_clog {L n : ℕ} (h : L < Nat.clog 2 n) : 2 ^ L < n :=
  (Nat.lt_clog_iff_pow_lt (by omega)).mp h

/-- At the height one entry is left. -/
theorem length_level_clog {xs : List α} (h : xs ≠ []) :
    (level two one (Nat.clog 2 xs.length) xs).length = 1 :=
  (length_level_eq_one ..).mpr ⟨List.length_pos_iff.mpr h, length_le_two_pow_clog xs⟩

end PairTree
