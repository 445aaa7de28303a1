import LedgerDatabase.Ledgerdb.Equiv.Mpt.Node

/-!
# Keys of the trie

`hexKey` is the path of a key with bytes below `0x80`: its nibbles and the terminator.  Paths are
terminated (`terminated`), so none is a prefix of another, and below any part of a path only
terminated paths or the empty one remain (`Tails`).  In a well-formed trie this fixes where values
stand: in slot 16 of a full node and nowhere else (`isValue_kid`, `kid_last`).
-/

namespace LedgerDatabase.Ledgerdb.Mpt

/-- Keys that `KeybytesToHex` turns into nibbles. -/
def Ascii (key : Bytes) : Prop := ∀ b ∈ key, b.toNat < 128

instance (key : Bytes) : Decidable (Ascii key) := inferInstanceAs (Decidable (∀ b ∈ key, _))

/-- The path of a key. -/
def hexKey (key : Bytes) : List (Fin 17) :=
  key.flatMap (fun b => [Fin.ofNat 17 (b.toNat / 16), Fin.ofNat 17 (b.toNat % 16)]) ++ [16]

/-- Nibbles, then the terminator. -/
def terminated : Set (List (Fin 17)) := {k | ∃ body, (16 : Fin 17) ∉ body ∧ k = body ++ [16]}

/-- What can remain below a part of a path. -/
def Tails (P : Set (List (Fin 17))) : Prop := ∀ k ∈ P, k = [] ∨ k ∈ terminated

/-! ### The path of a key -/

theorem charOf_nibbles {b : UInt8} (hb : b.toNat < 128) :
    [MPTConfig.charOf ((MPTConfig.int8 b).tdiv 16), MPTConfig.charOf ((MPTConfig.int8 b).tmod 16)]
      = nibbles [Fin.ofNat 17 (b.toNat / 16), Fin.ofNat 17 (b.toNat % 16)] := by
  have hint : MPTConfig.int8 b = (b.toNat : ℤ) := by rw [MPTConfig.int8, if_pos hb]
  have hchar : ∀ n : ℕ, n < 16 → MPTConfig.charOf (n : ℤ) = UInt8.ofNat (Fin.ofNat 17 n : Fin 17) := by
    intro n hn
    rw [MPTConfig.charOf, Fin.val_ofNat, Nat.mod_eq_of_lt (by omega)]
    congr 1
    have : ((n : ℤ).emod 256) = n := Int.emod_eq_of_lt (by omega) (by omega)
    rw [this, Int.toNat_natCast]
  have hdiv : (b.toNat : ℤ).tdiv 16 = ((b.toNat / 16 : ℕ) : ℤ) := rfl
  have hmod : (b.toNat : ℤ).tmod 16 = ((b.toNat % 16 : ℕ) : ℤ) := rfl
  rw [hint, hdiv, hmod, hchar _ (by omega), hchar _ (by omega)]
  rfl

theorem keybytesToHex_eq : ∀ {key : Bytes}, Ascii key →
    MPTConfig.keybytesToHex key = nibbles (hexKey key)
  | [], _ => rfl
  | b :: key, hkey => by
    have hrest := keybytesToHex_eq fun c hc => hkey c (List.mem_cons_of_mem _ hc)
    have hb := charOf_nibbles (hkey b List.mem_cons_self)
    unfold MPTConfig.keybytesToHex hexKey at hrest ⊢
    rw [List.flatMap_cons, List.append_assoc, hrest, hb, List.flatMap_cons, List.append_assoc]
    simp [nibbles]

theorem length_hexKey (key : Bytes) : (hexKey key).length = 2 * key.length + 1 := by
  simp only [hexKey, List.length_append, List.length_flatMap, List.length_cons, List.length_nil]
  simp
  omega

theorem hexKey_injOn : ∀ {key key' : Bytes}, Ascii key → Ascii key' →
    hexKey key = hexKey key' → key = key'
  | [], [], _, _, _ => rfl
  | [], b :: key', _, _, h => by
    have := congrArg List.length h
    simp only [length_hexKey, List.length_cons, List.length_nil] at this
    omega
  | b :: key, [], _, _, h => by
    have := congrArg List.length h
    simp only [length_hexKey, List.length_cons, List.length_nil] at this
    omega
  | b :: key, b' :: key', hkey, hkey', h => by
    have hb := hkey b List.mem_cons_self
    have hb' := hkey' b' List.mem_cons_self
    simp only [hexKey, List.flatMap_cons, List.cons_append, List.nil_append, List.cons.injEq,
      Fin.ext_iff, Fin.val_ofNat] at h
    obtain ⟨hdiv, hmod, hrest⟩ := h
    have hbb : b = b' := UInt8.toNat_inj.mp (by omega)
    rw [hbb, hexKey_injOn (fun c hc => hkey c (List.mem_cons_of_mem _ hc))
      (fun c hc => hkey' c (List.mem_cons_of_mem _ hc)) hrest]

theorem hexKey_mem_terminated {key : Bytes} (hkey : Ascii key) : hexKey key ∈ terminated := by
  refine ⟨_, ?_, rfl⟩
  rw [List.mem_flatMap]
  rintro ⟨b, hb, hmem⟩
  have hlt := hkey b hb
  simp only [List.mem_cons, List.not_mem_nil, or_false, Fin.ext_iff, Fin.val_ofNat] at hmem
  have h16 : ((16 : Fin 17) : ℕ) = 16 := rfl
  omega

/-! ### Terminated paths -/

/-- An end marker that occurs nowhere else makes codes prefix-free. -/
theorem eq_of_prefix_terminated {α : Type*} {x : α} {body body' : List α} (hbody' : x ∉ body')
    (h : body ++ [x] <+: body' ++ [x]) : body = body' := by
  obtain ⟨rest, hrest⟩ := h
  rcases List.eq_nil_or_concat rest with rfl | ⟨rest, y, rfl⟩
  · rw [List.append_nil] at hrest
    exact List.append_cancel_right hrest
  · -- the terminator of the first one would be inside the second
    rw [List.concat_eq_append, ← List.append_assoc] at hrest
    obtain ⟨hbody, -⟩ := List.append_inj' hrest rfl
    exact absurd (by rw [← hbody]; simp) hbody'

theorem antichain_terminated : IsAntichain (· <+: ·) terminated := by
  rintro k ⟨body, -, rfl⟩ k' ⟨body', hbody', rfl⟩ hne hpre
  exact hne (by rw [eq_of_prefix_terminated hbody' hpre])

theorem tails_terminated : Tails terminated := fun _ hk => Or.inr hk

theorem Tails.mono {P P' : Set (List (Fin 17))} (h : Tails P') (hsub : P ⊆ P') : Tails P :=
  fun k hk => h k (hsub hk)

theorem Tails.after {P : Set (List (Fin 17))} (h : Tails P) (key : List (Fin 17)) :
    Tails (RadixTree.after P key) := by
  intro k hk
  rcases List.eq_nil_or_concat k with rfl | ⟨k, x, rfl⟩
  · exact Or.inl rfl
  rw [List.concat_eq_append] at hk ⊢
  rcases h _ hk with hnil | ⟨body, hbody, heq⟩
  · simp at hnil
  · rw [← List.append_assoc] at heq
    obtain ⟨rfl, hx⟩ := List.append_inj' heq rfl
    refine Or.inr ⟨k, fun hmem => hbody (List.mem_append_right _ hmem), by rw [hx]⟩

section Slots

variable {P : Set (List (Fin 17))} {Q : Bytes → Prop} {kids : Fin 17 → Tree}

/-- The terminator is only the end of a path. -/
theorem tail_of_terminator (hT : Tails P) {k : List (Fin 17)} (hk : 16 :: k ∈ P) : k = [] := by
  rcases hT _ hk with h | ⟨body, hbody, heq⟩
  · simp at h
  · cases body with
    | nil => exact (List.cons.inj heq).2
    | cons b body =>
      obtain ⟨rfl, -⟩ := List.cons.inj heq
      exact absurd List.mem_cons_self hbody

/-- A nibble is not the end of a path. -/
theorem eq_terminator_of_singleton (hT : Tails P) {i : Fin 17} (hi : [i] ∈ P) : i = 16 := by
  rcases hT _ hi with h | ⟨body, -, heq⟩
  · simp at h
  · cases body with
    | nil => exact (List.cons.inj heq).1
    | cons b body => simp at heq

/-- Below a nibble there is no value. -/
theorem isValue_kid (hT : Tails P) (hwf : (RadixTree.full kids).WF Q P) {i : Fin 17}
    (hi : i ≠ 16) : isValue (kids i) = false := by
  obtain ⟨-, -, hkids⟩ := hwf
  have hkid := hkids i
  cases hk : kids i with
  | value v =>
    rw [hk] at hkid
    exact absurd (eq_terminator_of_singleton hT hkid.1) hi
  | nil => rfl
  | short key child => rfl
  | full kids => rfl

/-- Below the terminator there is a value or nothing. -/
theorem kid_last (hT : Tails P) (hwf : (RadixTree.full kids).WF Q P) :
    kids 16 = .nil ∨ ∃ v, kids 16 = .value v := by
  obtain ⟨-, -, hkids⟩ := hwf
  have hkid := hkids 16
  cases hk : kids 16 with
  | nil => exact Or.inl rfl
  | value v => exact Or.inr ⟨v, rfl⟩
  | short key child =>
    rw [hk] at hkid
    obtain ⟨-, hnil, ⟨k, hk, -⟩, -⟩ := hkid
    exact absurd (tail_of_terminator hT hk ▸ hk) hnil
  | full kids' =>
    rw [hk] at hkid
    obtain ⟨hnil, ⟨k, hk⟩, -⟩ := hkid
    exact absurd (tail_of_terminator hT hk ▸ hk) hnil

end Slots

/-! ### Nibbles as bytes -/

theorem charIndex_nibble (i : Fin 17) : charIndex (UInt8.ofNat i) = i := by
  have hi : (UInt8.ofNat i).toNat = i := by
    rw [UInt8.toNat_ofNat', Nat.mod_eq_of_lt (by omega)]
  rw [charIndex, hi, if_pos (by omega)]

theorem nibbles_injective : Function.Injective nibbles := by
  have hmap : Function.Injective fun i : Fin 17 => UInt8.ofNat i := by
    intro i j h
    have := congrArg charIndex h
    rw [charIndex_nibble, charIndex_nibble] at this
    exact Fin.ext this
  exact List.map_injective_iff.mpr hmap

@[simp]
theorem nibbles_cons (i : Fin 17) (k : List (Fin 17)) :
    nibbles (i :: k) = UInt8.ofNat i :: nibbles k := rfl

theorem nibbles_append (k k' : List (Fin 17)) : nibbles (k ++ k') = nibbles k ++ nibbles k' :=
  List.map_append

theorem nibbles_drop (k : List (Fin 17)) (n : ℕ) : nibbles (k.drop n) = (nibbles k).drop n :=
  List.map_drop

theorem nibbles_take (k : List (Fin 17)) (n : ℕ) : nibbles (k.take n) = (nibbles k).take n :=
  List.map_take

theorem prefixLen_nibbles : ∀ k k' : List (Fin 17),
    MPTConfig.prefixLen (nibbles k) (nibbles k') = RadixTree.prefixLen k k'
  | [], _ => by simp [MPTConfig.prefixLen, nibbles, RadixTree.prefixLen]
  | _ :: _, [] => by simp [MPTConfig.prefixLen, nibbles, RadixTree.prefixLen]
  | i :: k, j :: k' => by
    have hij : UInt8.ofNat i = UInt8.ofNat j ↔ i = j := by
      refine ⟨fun h => ?_, fun h => by rw [h]⟩
      have := congrArg charIndex h
      rw [charIndex_nibble, charIndex_nibble] at this
      exact Fin.ext this
    have hrec := prefixLen_nibbles k k'
    rw [MPTConfig.prefixLen] at hrec ⊢
    simp only [nibbles_cons, RadixTree.prefixLen, hij, hrec]

/-- `substr(pos)` of a path. -/
theorem substrFrom_nibbles {k : List (Fin 17)} {pos : ℕ} (h : pos ≤ k.length) :
    substrFrom (nibbles k) pos = .ok (nibbles (k.drop pos)) := by
  rw [substrFrom, if_neg (by rw [length_nibbles]; omega), nibbles_drop]

end LedgerDatabase.Ledgerdb.Mpt

namespace LedgerDatabase.Ledgerdb.MPTConfig

open Mpt (Ascii eq_of_prefix_terminated)

/-! ### Keys of any bytes

The division is on `int8_t`: a byte from `0x80` on has a negative quotient or remainder.  The two still
determine the byte, and neither is the terminator. -/

/-- The elements of a byte. -/
def elems (b : UInt8) : Bytes := [charOf ((int8 b).tdiv 16), charOf ((int8 b).tmod 16)]

theorem int8_bounds (b : UInt8) : -128 ≤ int8 b ∧ int8 b < 128 := by
  have hb := b.toNat_lt
  unfold int8
  split_ifs
  all_goals omega

theorem int8_injective : Function.Injective int8 := by
  intro b b' h
  have hb := b.toNat_lt
  have hb' := b'.toNat_lt
  apply UInt8.toNat_inj.mp
  unfold int8 at h
  split_ifs at h
  all_goals omega

/-- Division towards zero. -/
theorem tdiv_tmod (n : ℤ) : n = 16 * n.tdiv 16 + n.tmod 16 ∧
    (0 ≤ n → 0 ≤ n.tdiv 16 ∧ 0 ≤ n.tmod 16 ∧ n.tmod 16 < 16) ∧
    (n < 0 → n.tdiv 16 ≤ 0 ∧ n.tmod 16 ≤ 0 ∧ -16 < n.tmod 16) := by
  refine ⟨(Int.mul_tdiv_add_tmod n 16).symm, ?_, ?_⟩
  · intro hn
    rw [Int.tdiv_eq_ediv_of_nonneg hn, Int.tmod_eq_emod_of_nonneg hn]
    omega
  · intro hn
    obtain ⟨m, rfl⟩ : ∃ m, n = -m := ⟨-n, by omega⟩
    have hm : 0 ≤ m := by omega
    rw [Int.neg_tdiv, Int.neg_tmod, Int.tdiv_eq_ediv_of_nonneg hm, Int.tmod_eq_emod_of_nonneg hm]
    omega

theorem toNat_charOf {n : ℤ} (h : -16 < n ∧ n < 16) :
    ((charOf n).toNat : ℤ) = if 0 ≤ n then n else n + 256 := by
  have hmod : n.emod 256 = if 0 ≤ n then n else n + 256 := by
    show n % 256 = _
    split_ifs
    all_goals omega
  rw [charOf, UInt8.toNat_ofNat', hmod]
  split_ifs
  all_goals omega

/-- The quotient and the remainder of a byte, as they are stored. -/
theorem elems_spec (b : UInt8) : ∃ q r : ℤ, int8 b = 16 * q + r ∧
    (0 ≤ int8 b → 0 ≤ q ∧ 0 ≤ r) ∧ (int8 b < 0 → q ≤ 0 ∧ r ≤ 0) ∧
    (-16 < q ∧ q < 16) ∧ (-16 < r ∧ r < 16) ∧ elems b = [charOf q, charOf r] := by
  have hb := int8_bounds b
  obtain ⟨heq, hpos, hneg⟩ := tdiv_tmod (int8 b)
  refine ⟨_, _, heq, fun h => ⟨(hpos h).1, (hpos h).2.1⟩, fun h => ⟨(hneg h).1, (hneg h).2.1⟩,
    ?_, ?_, rfl⟩
  all_goals omega

theorem terminator_notMem_elems (b : UInt8) : 16 ∉ elems b := by
  obtain ⟨q, r, -, -, -, hq, hr, heq⟩ := elems_spec b
  have hnot : ∀ {n : ℤ}, -16 < n ∧ n < 16 → 16 ≠ charOf n := by
    intro n hn h
    have hnat := toNat_charOf hn
    rw [← h, show (16 : UInt8).toNat = 16 from rfl] at hnat
    split_ifs at hnat
    all_goals omega
  rw [heq]
  simp [hnot hq, hnot hr]

/-- Only the bytes below `0x80` have nibbles. -/
theorem elems_lt_iff (b : UInt8) : (∀ e ∈ elems b, e.toNat < 16) ↔ b.toNat < 128 := by
  obtain ⟨q, r, hb, hpos, hneg, hq, hr, heq⟩ := elems_spec b
  have hlt : ∀ {n : ℤ}, -16 < n ∧ n < 16 → ((charOf n).toNat < 16 ↔ 0 ≤ n) := by
    intro n hn
    have hnat := toNat_charOf hn
    split_ifs at hnat
    all_goals omega
  have hsign : 0 ≤ int8 b ↔ b.toNat < 128 := by
    have := b.toNat_lt
    unfold int8
    split_ifs
    all_goals omega
  rw [heq, List.forall_mem_cons, List.forall_mem_singleton, hlt hq, hlt hr, ← hsign]
  constructor
  · intro h
    omega
  · exact hpos

theorem elems_injective : Function.Injective elems := by
  intro b b' h
  obtain ⟨q, r, hb, -, -, hq, hr, heq⟩ := elems_spec b
  obtain ⟨q', r', hb', -, -, hq', hr', heq'⟩ := elems_spec b'
  have hchar : ∀ {m n : ℤ}, -16 < m ∧ m < 16 → -16 < n ∧ n < 16 → charOf m = charOf n → m = n := by
    intro m n hm hn hmn
    have hnat := toNat_charOf hm
    rw [hmn, toNat_charOf hn] at hnat
    split_ifs at hnat
    all_goals omega
  rw [heq, heq', List.cons.injEq, List.cons.injEq] at h
  apply int8_injective
  rw [hb, hb', hchar hq hq' h.1, hchar hr hr' h.2.1]

theorem flatMap_elems_injective : Function.Injective (List.flatMap elems) := by
  intro key key' h
  induction key generalizing key' with
  | nil =>
    cases key' with
    | nil => rfl
    | cons b' key' => simp [elems] at h
  | cons b key ih =>
    cases key' with
    | nil => simp [elems] at h
    | cons b' key' =>
      rw [List.flatMap_cons, List.flatMap_cons] at h
      obtain ⟨hb, hkey⟩ := List.append_inj h rfl
      rw [elems_injective hb, ih hkey]

theorem keybytesToHex_eq_elems (key : Bytes) : keybytesToHex key = key.flatMap elems ++ [16] := rfl

/-- Codes of different keys are not prefixes of each other. -/
theorem eq_of_prefix_keybytesToHex {key key' : Bytes}
    (h : keybytesToHex key <+: keybytesToHex key') : key = key' := by
  apply flatMap_elems_injective
  apply eq_of_prefix_terminated _ h
  rw [List.mem_flatMap]
  rintro ⟨b, -, hb⟩
  exact terminator_notMem_elems b hb

/-- What the code of a key should be: nibbles and the terminator, and no other key's code begins it or
begins with it. -/
structure EncodesNibbles (key : Bytes) : Prop where
  length : (keybytesToHex key).length = 2 * key.length + 1
  nibbles : ∀ e ∈ (keybytesToHex key).dropLast, e.toNat < 16
  last : (keybytesToHex key).getLast? = some 16
  ne : ∀ key', key' ≠ key → keybytesToHex key' ≠ keybytesToHex key
  prefix_free : ∀ key', key' ≠ key →
    ¬ keybytesToHex key' <+: keybytesToHex key ∧ ¬ keybytesToHex key <+: keybytesToHex key'

/-- **`KeybytesToHex` yields nibbles** exactly for the keys without bytes from `0x80` on. -/
theorem encodesNibbles_iff (key : Bytes) : EncodesNibbles key ↔ Ascii key := by
  have hmem : (∀ e ∈ key.flatMap elems, e.toNat < 16) ↔ Ascii key := by
    rw [List.forall_mem_flatMap]
    exact forall₂_congr fun b _ => elems_lt_iff b
  constructor
  · intro h
    have hnibbles := h.nibbles
    rw [keybytesToHex_eq_elems, List.dropLast_concat] at hnibbles
    exact hmem.mp hnibbles
  · intro h
    refine ⟨?_, ?_, ?_, ?_, ?_⟩
    · simp [keybytesToHex_eq_elems, List.length_flatMap, elems]
      omega
    · rw [keybytesToHex_eq_elems, List.dropLast_concat]
      exact hmem.mpr h
    · rw [keybytesToHex_eq_elems, List.getLast?_concat]
    · intro key' hne heq
      exact hne (eq_of_prefix_keybytesToHex (heq ▸ List.prefix_rfl))
    · intro key' hne
      exact ⟨fun hpre => hne (eq_of_prefix_keybytesToHex hpre),
        fun hpre => hne (eq_of_prefix_keybytesToHex hpre).symm⟩

/-- The key `0x80`: the quotient is -8, stored as 248. -/
theorem not_encodesNibbles : ¬ EncodesNibbles [0x80] := by
  intro h
  exact absurd (h.nibbles 248 (by decide)) (by decide)

end LedgerDatabase.Ledgerdb.MPTConfig
