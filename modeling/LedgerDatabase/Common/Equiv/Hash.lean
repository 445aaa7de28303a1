import LedgerDatabase.Common.Hash
import LedgerDatabase.Library.Radix

/-!
# Correctness of the base32 form

A group of five bytes and its eight characters are the digits of one number below `2^40`, to base
`256` (`byteValue`) and to base `32` (`charValue`).  The shifts build the number (`groupValue_eq`,
`charsValue_eq`) and cut it into digits again (`byteValue_groupBytes`, `charValue_groupChars`), and
digits of one length are told apart by their number.  So each of `toBase32` and `fromBase32` undoes
the other (`base32_inverse`).
-/

namespace LedgerDatabase.Hash

open Radix

/-! ### The alphabet -/

theorem find_alphabet (d : ℕ) (hd : d < 32) : find alphabet (alphabet.getD d 0) = d := by
  interval_cases d <;> decide

theorem find_alphabet_of_mem {b : UInt8} (h : b ∈ alphabet) :
    find alphabet b < 32 ∧ alphabet.getD (find alphabet b) 0 = b := by
  have hlt : alphabet.idxOf b < alphabet.length := List.idxOf_lt_length_of_mem h
  rw [find, if_pos h]
  constructor
  · exact hlt
  · rw [List.getD_eq_getElem _ _ hlt, List.getElem_idxOf]

/-! ### The number of a group -/

/-- Bytes as the digits of a number. -/
def byteValue (bs : Bytes) : ℕ := value 256 (bs.map UInt8.toNat)

/-- Characters as the digits of a number. -/
def charValue (cs : Bytes) : ℕ := value 32 (cs.map (find alphabet))

theorem byteValue_lt (bs : Bytes) : byteValue bs < 256 ^ bs.length := by
  rw [← List.length_map (f := UInt8.toNat)]
  apply value_lt (by decide)
  intro d hd
  obtain ⟨b, -, rfl⟩ := List.mem_map.mp hd
  exact b.toNat_lt

theorem charValue_lt {cs : Bytes} (h : ∀ b ∈ cs, b ∈ alphabet) : charValue cs < 32 ^ cs.length := by
  rw [← List.length_map (f := find alphabet)]
  apply value_lt (by decide)
  intro d hd
  obtain ⟨b, hb, rfl⟩ := List.mem_map.mp hd
  exact (find_alphabet_of_mem (h b hb)).1

theorem byteValue_inj {bs bs' : Bytes} (hlen : bs.length = bs'.length)
    (h : byteValue bs = byteValue bs') : bs = bs' := by
  have hlt : ∀ bs : Bytes, ∀ d ∈ bs.map UInt8.toNat, d < 256 := by
    intro bs d hd
    obtain ⟨b, -, rfl⟩ := List.mem_map.mp hd
    exact b.toNat_lt
  apply List.map_injective_iff.mpr fun b b' => UInt8.toNat_inj.mp
  apply value_inj (by decide) _ (hlt bs) (hlt bs') h
  rw [List.length_map, List.length_map, hlen]

theorem charValue_inj {cs cs' : Bytes} (hlen : cs.length = cs'.length)
    (hcs : ∀ b ∈ cs, b ∈ alphabet) (hcs' : ∀ b ∈ cs', b ∈ alphabet)
    (h : charValue cs = charValue cs') : cs = cs' := by
  have hlt : ∀ cs : Bytes, (∀ b ∈ cs, b ∈ alphabet) → ∀ d ∈ cs.map (find alphabet), d < 32 := by
    intro cs hcs d hd
    obtain ⟨b, hb, rfl⟩ := List.mem_map.mp hd
    exact (find_alphabet_of_mem (hcs b hb)).1
  have hidx : cs.map (find alphabet) = cs'.map (find alphabet) := by
    apply value_inj (by decide) _ (hlt cs hcs) (hlt cs' hcs') h
    rw [List.length_map, List.length_map, hlen]
  -- the index gives back the character
  have hback : ∀ cs : Bytes, (∀ b ∈ cs, b ∈ alphabet) →
      (cs.map (find alphabet)).map (fun d => alphabet.getD d 0) = cs := by
    intro cs hcs
    rw [List.map_map]
    conv_rhs => rw [← List.map_id cs]
    apply List.map_congr_left
    intro b hb
    exact (find_alphabet_of_mem (hcs b hb)).2
  rw [← hback cs hcs, ← hback cs' hcs', hidx]

/-! ### Shifts -/

/-- The bytes read by a loop over indices. -/
theorem map_getD_range {bs : Bytes} {i n : ℕ} (h : i + n ≤ bs.length) :
    (List.range n).map (fun j => bs.getD (i + j) 0) = (bs.drop i).take n := by
  apply List.ext_getElem
  · rw [List.length_map, List.length_range, List.length_take, List.length_drop]
    omega
  · intro j hj hj'
    rw [List.length_map, List.length_range] at hj
    rw [List.getElem_map, List.getElem_range, List.getElem_take, List.getElem_drop,
      List.getD_eq_getElem]

theorem groupValue_eq {bs : Bytes} {i : ℕ} (h : i + 5 ≤ bs.length) :
    groupValue bs i = byteValue ((bs.drop i).take 5) := by
  have hlen : ((bs.drop i).take 5).length = 5 := by
    rw [List.length_take, List.length_drop]
    omega
  have hlt := byteValue_lt ((bs.drop i).take 5)
  rw [hlen] at hlt
  have hfold : groupValue bs i = (((bs.drop i).take 5).map UInt8.toNat).foldl
      (fun tmp d => (tmp <<< 8 + d) % 2 ^ 64) 0 := by
    rw [← map_getD_range h, List.map_map, List.foldl_map, groupValue]
    rfl
  rw [hfold, foldl_shift _ (by decide), Nat.zero_mul, Nat.zero_add]
  exact Nat.mod_eq_of_lt (Nat.lt_trans hlt (by decide))

theorem charsValue_eq {s : Bytes} {i : ℕ} (h : i + 8 ≤ s.length)
    (hmem : ∀ b ∈ s, b ∈ alphabet) : charsValue s i = charValue ((s.drop i).take 8) := by
  have hlen : ((s.drop i).take 8).length = 8 := by
    rw [List.length_take, List.length_drop]
    omega
  have hlt : charValue ((s.drop i).take 8) < 32 ^ ((s.drop i).take 8).length :=
    charValue_lt fun b hb => hmem b (List.mem_of_mem_drop (List.mem_of_mem_take hb))
  rw [hlen] at hlt
  have hfold : charsValue s i = (((s.drop i).take 8).map (find alphabet)).foldl
      (fun tmp d => (tmp <<< 5 + d) % 2 ^ 64) 0 := by
    rw [← map_getD_range h, List.map_map, List.foldl_map, charsValue]
    rfl
  rw [hfold, foldl_shift _ (by decide), Nat.zero_mul, Nat.zero_add]
  exact Nat.mod_eq_of_lt (Nat.lt_trans hlt (by decide))

/-! ### Masks -/

theorem byteValue_bytesUpTo (n tmp : ℕ) : byteValue (bytesUpTo n tmp) = tmp % 256 ^ n := by
  induction n generalizing tmp with
  | zero => rw [pow_zero, Nat.mod_one]; rfl
  | succ n ih =>
    have hbyte : (UInt8.ofNat (tmp &&& (1 <<< 8 - 1))).toNat = tmp % 256 := by
      rw [UInt8.toNat_ofNat', Nat.shiftLeft_eq, Nat.one_mul, Nat.and_two_pow_sub_one_eq_mod]
      exact Nat.mod_mod _ _
    have hrest : value 256 ((bytesUpTo n (tmp >>> 8)).map UInt8.toNat) = tmp / 256 % 256 ^ n := by
      rw [← byteValue, ih, Nat.shiftRight_eq_div_pow]
    rw [byteValue, bytesUpTo, List.map_append, List.map_singleton, value_concat, hbyte, hrest,
      pow_succ', Nat.mod_mul]
    ring

/-- The five bytes of a group have the number they were cut from. -/
theorem byteValue_groupBytes {tmp : ℕ} (h : tmp < 2 ^ 40) : byteValue (groupBytes tmp) = tmp := by
  rw [groupBytes, byteValue_bytesUpTo]
  exact Nat.mod_eq_of_lt h

@[simp]
theorem length_charsFrom (n tmp : ℕ) : (charsFrom n tmp).length = n := by
  induction n generalizing tmp with
  | zero => rfl
  | succ n ih => rw [charsFrom, List.length_cons, ih]

@[simp]
theorem length_groupChars (tmp : ℕ) : (groupChars tmp).length = 8 := length_charsFrom ..

/-- A digit is one of the alphabet, since the higher ones are masked out. -/
theorem digit_lt {n tmp : ℕ} (h : tmp < 32 ^ (n + 1)) : (tmp >>> (5 * n)) % 2 ^ 8 = tmp / 32 ^ n ∧
    tmp / 32 ^ n < 32 := by
  have hlt : tmp / 32 ^ n < 32 := by
    apply Nat.div_lt_of_lt_mul
    rwa [← pow_succ]
  have hshift : tmp >>> (5 * n) = tmp / 32 ^ n := by
    rw [Nat.shiftRight_eq_div_pow, pow_mul]
    rfl
  constructor
  · rw [hshift]
    exact Nat.mod_eq_of_lt (by omega)
  · exact hlt

theorem mask_eq (n tmp : ℕ) : tmp &&& (1 <<< (5 * n) - 1) = tmp % 32 ^ n := by
  rw [Nat.shiftLeft_eq, Nat.one_mul, Nat.and_two_pow_sub_one_eq_mod, pow_mul]
  rfl

theorem charValue_charsFrom {n tmp : ℕ} (h : tmp < 32 ^ n) : charValue (charsFrom n tmp) = tmp := by
  induction n generalizing tmp with
  | zero =>
    rw [pow_zero, Nat.lt_one_iff] at h
    rw [h]
    rfl
  | succ n ih =>
    obtain ⟨hdigit, hlt⟩ := digit_lt h
    have hrest : value 32 ((charsFrom n (tmp % 32 ^ n)).map (find alphabet)) = tmp % 32 ^ n :=
      ih (Nat.mod_lt _ (Nat.pow_pos (by decide)))
    rw [charValue, charsFrom, hdigit, mask_eq, List.map_cons, find_alphabet _ hlt, value_cons, hrest,
      List.length_map, length_charsFrom]
    exact Nat.div_add_mod' tmp (32 ^ n)

/-- The eight characters of a group have the number they were cut from. -/
theorem charValue_groupChars {tmp : ℕ} (h : tmp < 2 ^ 40) : charValue (groupChars tmp) = tmp :=
  charValue_charsFrom h

theorem mem_alphabet_of_mem_charsFrom {n tmp : ℕ} (h : tmp < 32 ^ n) {b : UInt8}
    (hb : b ∈ charsFrom n tmp) : b ∈ alphabet := by
  induction n generalizing tmp with
  | zero => cases hb
  | succ n ih =>
    obtain ⟨hdigit, hlt⟩ := digit_lt h
    rw [charsFrom, hdigit, mask_eq] at hb
    rcases List.mem_cons.mp hb with rfl | hb
    · rw [List.getD_eq_getElem _ _ hlt]
      exact List.getElem_mem hlt
    · exact ih (Nat.mod_lt _ (Nat.pow_pos (by decide))) hb

/-! ### One group -/

theorem groupValue_lt {bs : Bytes} {i : ℕ} (h : i + 5 ≤ bs.length) : groupValue bs i < 2 ^ 40 := by
  have hlt := byteValue_lt ((bs.drop i).take 5)
  rw [List.length_take, List.length_drop, Nat.min_eq_left (by omega)] at hlt
  rwa [groupValue_eq h]

theorem charsValue_lt {s : Bytes} {i : ℕ} (h : i + 8 ≤ s.length) (hmem : ∀ b ∈ s, b ∈ alphabet) :
    charsValue s i < 2 ^ 40 := by
  have hlt : charValue ((s.drop i).take 8) < 32 ^ ((s.drop i).take 8).length :=
    charValue_lt fun b hb => hmem b (List.mem_of_mem_drop (List.mem_of_mem_take hb))
  rw [List.length_take, List.length_drop, Nat.min_eq_left (by omega)] at hlt
  rwa [charsValue_eq h hmem]

/-- The five bytes of a group are recovered from their number. -/
theorem groupBytes_groupValue {bs : Bytes} {i : ℕ} (h : i + 5 ≤ bs.length) :
    groupBytes (groupValue bs i) = (bs.drop i).take 5 := by
  apply byteValue_inj
  · rw [length_groupBytes, List.length_take, List.length_drop]
    omega
  · rw [byteValue_groupBytes (groupValue_lt h), groupValue_eq h]

/-- The eight characters of a group are recovered from their number. -/
theorem groupChars_charsValue {s : Bytes} {i : ℕ} (h : i + 8 ≤ s.length)
    (hmem : ∀ b ∈ s, b ∈ alphabet) : groupChars (charsValue s i) = (s.drop i).take 8 := by
  have hlt := charsValue_lt h hmem
  apply charValue_inj
  · rw [length_groupChars, List.length_take, List.length_drop]
    omega
  · exact fun b hb => mem_alphabet_of_mem_charsFrom hlt hb
  · exact fun b hb => hmem b (List.mem_of_mem_drop (List.mem_of_mem_take hb))
  · rw [charValue_groupChars hlt, charsValue_eq h hmem]

/-! ### The whole hash -/

/-- Four groups of `k` bytes. -/
theorem groups_eq {l : Bytes} (k : ℕ) (h : l.length = 4 * k) :
    (l.drop 0).take k ++ (l.drop k).take k ++ (l.drop (2 * k)).take k ++ (l.drop (3 * k)).take k
      = l := by
  have hall : l.take (k + k + k + k) = l := List.take_of_length_le (by omega)
  rw [List.drop_zero, Nat.two_mul, show 3 * k = k + k + k by omega, ← List.take_add, ← List.take_add,
    ← List.take_add, hall]

/-- The groups of a string of groups. -/
theorem take_drop_groups {a b c d : Bytes} {k : ℕ} (ha : a.length = k) (hb : b.length = k)
    (hc : c.length = k) (hd : d.length = k) :
    ((a ++ b ++ c ++ d).drop 0).take k = a ∧ ((a ++ b ++ c ++ d).drop k).take k = b ∧
      ((a ++ b ++ c ++ d).drop (2 * k)).take k = c ∧
      ((a ++ b ++ c ++ d).drop (3 * k)).take k = d := by
  have hlen : (a ++ b ++ c ++ d).length = 4 * k := by
    simp only [List.length_append]
    omega
  have hgroups := groups_eq k hlen
  have htake : ∀ i, i + k ≤ 4 * k → (((a ++ b ++ c ++ d).drop i).take k).length = k := by
    intro i hi
    rw [List.length_take, List.length_drop, hlen]
    omega
  obtain ⟨habc, h3⟩ := List.append_inj' hgroups ((htake _ (by omega)).trans hd.symm)
  obtain ⟨hab, h2⟩ := List.append_inj' habc ((htake _ (by omega)).trans hc.symm)
  obtain ⟨h0, h1⟩ := List.append_inj' hab ((htake _ (by omega)).trans hb.symm)
  exact ⟨h0, h1, h2, h3⟩

theorem length_toBase32 (h : Hash) : h.toBase32.length = kBase32Length := by
  simp [toBase32, kBase32Length]

/-- Every character of a base32 form is in the alphabet. -/
theorem mem_alphabet_of_mem_toBase32 {h : Hash} {b : UInt8} (hb : b ∈ h.toBase32) :
    b ∈ alphabet := by
  have hgroup : ∀ i, i + 5 ≤ kByteLength → b ∈ groupChars (groupValue h.bytes i) → b ∈ alphabet := by
    intro i hi hmem
    rw [← h.length_bytes] at hi
    exact mem_alphabet_of_mem_charsFrom (groupValue_lt hi) hmem
  simp only [toBase32, List.mem_append] at hb
  rcases hb with ((hb | hb) | hb) | hb
  · exact hgroup 0 (by decide) hb
  · exact hgroup 5 (by decide) hb
  · exact hgroup 10 (by decide) hb
  · exact hgroup 15 (by decide) hb

/-- Decoding the base32 form of a hash gives the hash back. -/
theorem fromBase32_toBase32 (h : Hash) : fromBase32 h.toBase32 = h := by
  obtain ⟨bs, hbs⟩ := h
  have hmem : ∀ b ∈ toBase32 ⟨bs, hbs⟩, b ∈ alphabet := fun b hb => mem_alphabet_of_mem_toBase32 hb
  have hgroup : ∀ i j, i + 8 ≤ kBase32Length → j + 5 ≤ kByteLength →
      ((toBase32 ⟨bs, hbs⟩).drop i).take 8 = groupChars (groupValue bs j) →
      groupBytes (charsValue (toBase32 ⟨bs, hbs⟩) i) = (bs.drop j).take 5 := by
    intro i j hi hj hchars
    rw [← length_toBase32 ⟨bs, hbs⟩] at hi
    rw [← hbs] at hj
    rw [charsValue_eq hi hmem, hchars, charValue_groupChars (groupValue_lt hj),
      groupBytes_groupValue hj]
  obtain ⟨h0, h1, h2, h3⟩ := take_drop_groups (length_groupChars (groupValue bs 0))
    (length_groupChars (groupValue bs 5)) (length_groupChars (groupValue bs 10))
    (length_groupChars (groupValue bs 15))
  simp only [fromBase32]
  congr 1
  rw [hgroup 0 0 (by decide) (by decide) h0, hgroup 8 5 (by decide) (by decide) h1,
    hgroup 16 10 (by decide) (by decide) h2, hgroup 24 15 (by decide) (by decide) h3]
  exact groups_eq 5 hbs

/-- Encoding what a string of 32 characters of the alphabet decodes to gives the string back. -/
theorem toBase32_fromBase32 {s : Bytes} (hlen : s.length = kBase32Length)
    (hmem : ∀ b ∈ s, b ∈ alphabet) : (fromBase32 s).toBase32 = s := by
  have hgroup : ∀ i j, i + 8 ≤ kBase32Length → j + 5 ≤ kByteLength →
      ((fromBase32 s).bytes.drop j).take 5 = groupBytes (charsValue s i) →
      groupChars (groupValue (fromBase32 s).bytes j) = (s.drop i).take 8 := by
    intro i j hi hj hbytes
    rw [← hlen] at hi
    rw [← (fromBase32 s).length_bytes] at hj
    rw [groupValue_eq hj, hbytes, byteValue_groupBytes (charsValue_lt hi hmem),
      groupChars_charsValue hi hmem]
  obtain ⟨h0, h1, h2, h3⟩ := take_drop_groups (length_groupBytes (charsValue s 0))
    (length_groupBytes (charsValue s 8)) (length_groupBytes (charsValue s 16))
    (length_groupBytes (charsValue s 24))
  rw [toBase32, hgroup 0 0 (by decide) (by decide) h0, hgroup 8 5 (by decide) (by decide) h1,
    hgroup 16 10 (by decide) (by decide) h2, hgroup 24 15 (by decide) (by decide) h3]
  exact groups_eq 8 hlen

/-- **Base32** is a bijection between the hashes and the strings of 32 characters of the
alphabet. -/
theorem base32_inverse : (∀ h : Hash, fromBase32 h.toBase32 = h) ∧
    ∀ s : Bytes, s.length = kBase32Length → (∀ b ∈ s, b ∈ alphabet) → (fromBase32 s).toBase32 = s :=
  ⟨fromBase32_toBase32, fun _ => toBase32_fromBase32⟩

/-- The alphabet itself is such a string. -/
theorem base32_inverse_alphabet : (fromBase32 alphabet).toBase32 = alphabet :=
  base32_inverse.2 alphabet rfl fun _ hb => hb

theorem toBase32_injective : Function.Injective toBase32 :=
  Function.LeftInverse.injective fromBase32_toBase32

@[simp]
theorem toBase32_inj {h h' : Hash} : h.toBase32 = h'.toBase32 ↔ h = h' :=
  toBase32_injective.eq_iff

end LedgerDatabase.Hash
