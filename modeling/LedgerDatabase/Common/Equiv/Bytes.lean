import LedgerDatabase.Common.Bytes

/-!
# Numbers and field lists as byte strings

`stoul_toDecimal` and `stoi_toDecimal`: reading a decimal number back gives the number, also when
text that does not start with a digit follows it.  `splitBy_intercalate`: cutting a string at the
delimiter it was joined with gives the pieces back when none of them contains the delimiter.
-/

namespace LedgerDatabase

/-! ### Results -/

theorem ok_bind {α β : Type} (a : α) (f : α → Except Fault β) : (Except.ok a >>= f) = f a := rfl

theorem error_bind {α β : Type} (e : Fault) (f : α → Except Fault β) :
    (Except.error e >>= f) = .error e := rfl

/-- A sequence returns when both parts do. -/
theorem bind_eq_ok_iff {α β : Type} {x : Except Fault α} {f : α → Except Fault β} {b : β} :
    (x >>= f) = .ok b ↔ ∃ a, x = .ok a ∧ f a = .ok b := by
  cases x with
  | error e => simp [error_bind]
  | ok a => simp [ok_bind]

theorem map_eq_ok_iff {α β : Type} {x : Except Fault α} {f : α → β} {b : β} :
    x.map f = .ok b ↔ ∃ a, x = .ok a ∧ f a = b := by
  cases x with
  | error e => simp [Except.map]
  | ok a => simp [Except.map]

theorem toNat_toUInt8_of_isDigit {c : Char} (h : c.isDigit) : c.toUInt8.toNat = c.toNat := by
  simp only [Char.isDigit, Bool.and_eq_true, decide_eq_true_eq] at h
  have h2 : c.val.toNat ≤ 57 := h.2
  rw [Char.toUInt8, UInt32.toNat_toUInt8, Nat.mod_eq_of_lt (by omega)]
  rfl

theorem isDigit_of_mem_toDecimal {n : ℕ} {b : UInt8} (h : b ∈ toDecimal n) : isDigit b := by
  simp only [toDecimal, List.mem_map] at h
  obtain ⟨c, hc, rfl⟩ := h
  have hd : c.isDigit := Nat.isDigit_of_mem_toDigits (by omega) (by omega) hc
  have hn := toNat_toUInt8_of_isDigit hd
  simp only [Char.isDigit, Bool.and_eq_true, decide_eq_true_eq] at hd
  have h1 : 48 ≤ c.toNat := hd.1
  have h2 : c.toNat ≤ 57 := hd.2
  simp only [isDigit, Bool.and_eq_true, decide_eq_true_eq, UInt8.le_iff_toNat_le, hn]
  exact ⟨h1, h2⟩

theorem toDecimal_ne_nil (n : ℕ) : toDecimal n ≠ [] := by
  simp [toDecimal, Nat.toDigits_ne_nil]

theorem digitsValue_toDecimal (n : ℕ) : digitsValue (toDecimal n) = n := by
  have hfold : ∀ (cs : List Char) (init : ℕ), (∀ c ∈ cs, c.isDigit) →
      (cs.map Char.toUInt8).foldl (fun acc d => 10 * acc + (d.toNat - 48)) init
        = Nat.ofDigitChars 10 cs init := by
    intro cs
    induction cs with
    | nil => intro init _; simp
    | cons c cs ih =>
      intro init hcs
      rw [List.map_cons, List.foldl_cons, ih _ (fun d hd => hcs d (List.mem_cons_of_mem _ hd)),
        Nat.ofDigitChars_cons, toNat_toUInt8_of_isDigit (hcs c (List.mem_cons_self ..))]
      rfl
  rw [digitsValue, toDecimal,
    hfold _ _ (fun c hc => Nat.isDigit_of_mem_toDigits (by omega) (by omega) hc),
    Nat.ofDigitChars_ten_toDigits]

theorem toDecimal_injective : Function.Injective toDecimal :=
  Function.LeftInverse.injective digitsValue_toDecimal

@[simp]
theorem toDecimal_inj {m n : ℕ} : toDecimal m = toDecimal n ↔ m = n := toDecimal_injective.eq_iff

theorem not_mem_toDecimal {b : UInt8} (hb : isDigit b = false) (n : ℕ) : b ∉ toDecimal n := by
  intro hmem
  rw [isDigit_of_mem_toDecimal hmem] at hb
  exact Bool.noConfusion hb

/-! ### Reading a number back -/

theorem splitSign_of_isDigit {d : UInt8} (hd : isDigit d) (s : Bytes) :
    splitSign (d :: s) = (false, d :: s) := by
  unfold splitSign
  split
  · rename_i h; rw [(List.cons.inj h).1] at hd; exact absurd hd (by decide)
  · rename_i h; rw [(List.cons.inj h).1] at hd; exact absurd hd (by decide)
  · rfl

/-- A number in front of text that does not continue it is scanned as that number. -/
theorem scanNumber_toDecimal (n : ℕ) (rest : Bytes) (hrest : ∀ b ∈ rest.head?, isDigit b = false) :
    scanNumber (toDecimal n ++ rest) = .ok (false, n) := by
  obtain ⟨d, ds, hds⟩ := List.exists_cons_of_ne_nil (toDecimal_ne_nil n)
  have hd : isDigit d := isDigit_of_mem_toDecimal (n := n) (by rw [hds]; exact List.mem_cons_self ..)
  have hspace : isSpace d = false := by
    simp only [isDigit, isSpace, Bool.and_eq_true, decide_eq_true_eq, UInt8.le_iff_toNat_le] at hd ⊢
    have h1 : 48 ≤ d.toNat := hd.1
    have hne : d ≠ 32 := by rintro rfl; exact absurd h1 (by decide)
    simp only [beq_eq_false_iff_ne.mpr hne, Bool.false_or, Bool.and_eq_false_iff,
      decide_eq_false_iff_not]
    right
    change ¬ d.toNat ≤ 13
    omega
  have hdrop : (toDecimal n ++ rest).dropWhile isSpace = toDecimal n ++ rest := by
    rw [hds, List.cons_append, List.dropWhile_cons_of_neg (by simp [hspace])]
  have htake : (toDecimal n ++ rest).takeWhile isDigit = toDecimal n := by
    rw [List.takeWhile_append_of_pos fun b hb => isDigit_of_mem_toDecimal hb]
    cases rest with
    | nil => simp
    | cons b bs =>
      rw [List.takeWhile_cons_of_neg (by simp [hrest b rfl]), List.append_nil]
  have hsign : splitSign (toDecimal n ++ rest) = (false, toDecimal n ++ rest) := by
    rw [hds, List.cons_append, splitSign_of_isDigit hd]
  rw [scanNumber, hdrop, hsign]
  simp only [htake, toDecimal_ne_nil, digitsValue_toDecimal, ↓reduceIte]

theorem stoul_toDecimal (n : ℕ) : stoul (toDecimal n) = .ok n := by
  have h := scanNumber_toDecimal n [] (by simp)
  rw [List.append_nil] at h
  rw [stoul, h]
  rfl

theorem stoi_toDecimal (n : ℕ) : stoi (toDecimal n) = .ok (n : Int) := by
  have h := scanNumber_toDecimal n [] (by simp)
  rw [List.append_nil] at h
  rw [stoi, h]
  rfl

/-! ### Field lists -/

/-- Joined pieces without the delimiter are recovered by `splitBy`. -/
theorem splitBy_intercalate (delim : UInt8) (pieces : List Bytes) (hne : pieces ≠ [])
    (hp : ∀ p ∈ pieces, delim ∉ p) : splitBy ([delim].intercalate pieces) delim = pieces :=
  List.splitOn_intercalate delim hp hne

theorem intercalate_injOn {delim : UInt8} {ps qs : List Bytes} (hps : ps ≠ []) (hqs : qs ≠ [])
    (hp : ∀ p ∈ ps, delim ∉ p) (hq : ∀ q ∈ qs, delim ∉ q)
    (h : [delim].intercalate ps = [delim].intercalate qs) : ps = qs := by
  rw [← splitBy_intercalate delim ps hps hp, h, splitBy_intercalate delim qs hqs hq]

/-- A delimiter separates the pieces before it from those after it. -/
theorem splitBy_append (delim : UInt8) (s t : Bytes) :
    splitBy (s ++ delim :: t) delim = splitBy s delim ++ splitBy t delim :=
  List.splitOnP_append_cons s t (by simp)

theorem splitBy_ne_nil (s : Bytes) (delim : UInt8) : splitBy s delim ≠ [] :=
  List.splitOnP_ne_nil _ _

/-- The pieces of a string consist of its bytes. -/
theorem subset_of_mem_splitBy {s p : Bytes} {delim : UInt8} (h : p ∈ splitBy s delim) : p ⊆ s := by
  intro b hb
  have hjoin : [delim].intercalate (splitBy s delim) = s := List.intercalate_splitOn delim
  rw [← hjoin, List.intercalate]
  refine List.mem_flatten.mpr ⟨p, ?_, hb⟩
  generalize splitBy s delim = pieces at h
  induction pieces with
  | nil => exact absurd h List.not_mem_nil
  | cons q pieces ih =>
    cases pieces with
    | nil => exact h
    | cons r pieces =>
      rw [List.intersperse_cons_cons]
      rcases List.mem_cons.mp h with rfl | h
      · exact List.mem_cons_self
      · exact List.mem_cons_of_mem _ (List.mem_cons_of_mem _ (ih h))

/-- The pieces of a string do not contain the delimiter. -/
theorem not_mem_of_mem_splitBy {s p : Bytes} {delim : UInt8} (h : p ∈ splitBy s delim) :
    delim ∉ p := by
  rw [splitBy, List.splitOn_eq_splitOnP] at h
  induction s generalizing p with
  | nil =>
    rw [List.splitOnP_nil, List.mem_singleton] at h
    rw [h]
    exact List.not_mem_nil
  | cons b s ih =>
    rw [List.splitOnP_cons_eq_if_modifyHead] at h
    split_ifs at h with hb
    · rcases List.mem_cons.mp h with rfl | h
      · exact List.not_mem_nil
      · exact ih h
    · cases hs : s.splitOnP (· == delim) with
      | nil => exact absurd hs (List.splitOnP_ne_nil _ s)
      | cons q pieces =>
        rw [hs, List.modifyHead_cons] at h
        rcases List.mem_cons.mp h with rfl | h
        · rw [List.mem_cons, not_or]
          exact ⟨fun heq => hb (beq_iff_eq.mpr heq.symm), ih (hs ▸ List.mem_cons_self)⟩
        · exact ih (hs ▸ List.mem_cons_of_mem q h)

theorem at?_of_lt {α : Type*} {v : List α} {i : ℕ} (h : i < v.length) : at? v i = .ok v[i] := by
  rw [at?, List.getElem?_eq_getElem h]

/-! ### Numbers of an `int` -/

theorem toInt_of_lt {n : ℕ} (h : n < 2 ^ 31) : toInt n = n := by
  have hmod : n % 2 ^ 32 = n := Nat.mod_eq_of_lt (by omega)
  rw [toInt, hmod, if_pos h]
  norm_cast

theorem toSize_natCast {n : ℕ} (h : n < 2 ^ 64) : toSize (n : ℤ) = n := by
  rw [toSize]
  omega

theorem addInt_of_lt {a b : ℤ} (hlow : -2 ^ 31 ≤ a + b) (hhigh : a + b < 2 ^ 31) :
    addInt a b = .ok (a + b) := if_pos ⟨hlow, hhigh⟩

/-! ### Little-endian integers -/

@[simp]
theorem length_leBytes (w n : ℕ) : (leBytes w n).length = w := by
  induction w generalizing n with
  | zero => rfl
  | succ w ih => rw [leBytes, List.length_cons, ih]

theorem leNat_leBytes (w n : ℕ) : leNat (leBytes w n) = n % 256 ^ w := by
  induction w generalizing n with
  | zero => rw [leBytes, leNat, Nat.pow_zero, Nat.mod_one]
  | succ w ih =>
    have hpow : 256 ^ (w + 1) = 256 * 256 ^ w := Nat.pow_succ'
    rw [leBytes, leNat, ih, UInt8.toNat_ofNat', hpow, Nat.mod_mul]

end LedgerDatabase
