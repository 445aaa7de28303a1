import LedgerDatabase.Ledgerdb.Equiv.Mpt.Keys
import LedgerDatabase.Ledgerdb.Mpt.Trie

/-!
# `Trie::Get`

`Known know t`: whoever knows the answers `know` of the store knows all nodes of `t`.  Then
`Get` returns what the tree `t` holds (`get_runIn`).
-/

namespace LedgerDatabase.Ledgerdb.Mpt

open Chunk

variable {H : Bytes → Hash}

/-- Every node fits its 32-bit size. -/
def Fits (t : Tree) : Prop := t.All fun t => nodeSize t < 2 ^ 32

/-- What is stored under the hash of a node; the nil node is not stored. -/
def stored (H : Bytes → Hash) : Tree → Option Bytes
  | .nil => none
  | t => some (enc H t)

/-- The store answers with the nodes of `t`. -/
def Known (H : Bytes → Hash) (know : Query → Option (Option Bytes)) (t : Tree) : Prop :=
  t.All fun t => isValue t = false → know (.hash (H (enc H t))) = some (stored H t)

section

variable {know : Query → Option (Option Bytes)} {P : Set (List (Fin 17))} {Q : Bytes → Prop}
  {t : Tree}

theorem Fits.node (h : Fits t) : nodeSize t < 2 ^ 32 := by
  cases t <;> first | exact h | exact h.1

theorem Known.node (h : Known H know t) (hv : isValue t = false) :
    know (.hash (H (enc H t))) = some (stored H t) := by
  cases t <;> first | exact h hv | exact h.1 hv

/-- An inner node is a value or known by its hash. -/
theorem stored_getD (hv : t ≠ .nil) : stored H t = some (enc H t) := by
  cases t <;> first | rfl | exact absurd rfl hv

/-- Reading the chunk of a node, where nothing stands for the nil node. -/
theorem readHash_runIn (h : Known H know t) (hv : isValue t = false) :
    (readHash (H (enc H t))).runIn know = some (.ok (stored H t)) :=
  Ask.runIn_query know (h.node hv)

/-! ### `TryGet` -/

/-- A hash node leads to the node it stands for. -/
theorem tryGet_ofHash (h : Known H know t) (hv : isValue t = false) (fuel : ℕ) (junk key : Bytes)
    (pos : ℕ) :
    (Trie.tryGet (fuel + 1) (MPTHashNode.ofHash (H (enc H t)) ++ junk) key pos).runIn know
      = (Trie.tryGet fuel (enc H t) key pos).runIn know := by
  rw [Trie.tryGet, type_ofHash, childHash_ofHash]
  simp only
  rw [Ask.runIn_bind_ok know _ (readHash_runIn h hv)]
  cases t <;> rfl

/-- The child of a short node, whether it is stored in it or not. -/
theorem tryGet_ref (h : Known H know t) {fuel : ℕ} {key : Bytes} {pos : ℕ} {r : Bytes}
    (hr : ∀ n, fuel ≤ n → (Trie.tryGet n (enc H t) key pos).runIn know = some (.ok r)) :
    (Trie.tryGet (fuel + 1) (ref H t) key pos).runIn know = some (.ok r) := by
  unfold ref
  cases hv : isValue t with
  | true => exact hr _ (by omega)
  | false =>
    have := tryGet_ofHash h hv fuel [] key pos
    rw [List.append_nil] at this
    exact this.trans (hr _ le_rfl)

theorem subSize_drop {k : List (Fin 17)} {pos : ℕ} (h : pos ≤ k.length) :
    subSize k.length pos = (k.drop pos).length := by
  rw [subSize, if_pos h, List.length_drop]

/-- The comparison of `TryGet` with the key of a short node. -/
theorem substr_eq_iff {k : List (Fin 17)} {pos : ℕ} (h : pos ≤ k.length) (key : List (Fin 17)) :
    ∃ part, substr (nibbles k) pos key.length = .ok part ∧
      (nibbles key = part ↔ key <+: k.drop pos) := by
  refine ⟨nibbles ((k.drop pos).take key.length), ?_, ?_⟩
  · rw [substr, if_neg (by rw [length_nibbles]; omega), nibbles_take, nibbles_drop]
  · rw [nibbles_injective.eq_iff, List.prefix_iff_eq_take]

/-- The nibble at a position of a path. -/
theorem charIndex_getD {k rest : List (Fin 17)} (pos : ℕ) {i : Fin 17}
    (h : k.drop pos = i :: rest) :
    charIndex ((nibbles k).getD pos 0) = i := by
  have hget : (nibbles k)[pos]? = some (UInt8.ofNat i.val) := by
    have hdrop : ((nibbles k).drop pos)[0]? = some (UInt8.ofNat i.val) := by
      rw [← nibbles_drop, h]
      rfl
    simpa using hdrop
  rw [List.getD_eq_getElem?_getD, hget, Option.getD_some, charIndex_nibble]

/-- **`TryGet`** finds what the tree holds below the position reached. -/
theorem tryGet_runIn (hP : IsAntichain (· <+: ·) P) (hT : Tails P) (hwf : t.WF Q P)
    (hfits : Fits t) (hknown : Known H know t) {k : List (Fin 17)} {pos : ℕ} (hpos : pos ≤ k.length)
    (hk : k.drop pos ∈ P) {fuel : ℕ} (hfuel : 2 * (k.drop pos).length + 1 ≤ fuel) :
    (Trie.tryGet fuel (enc H t) (nibbles k) pos).runIn know
      = some (.ok ((t.get (k.drop pos)).getD [])) := by
  induction t generalizing P pos fuel with
  | nil =>
    obtain ⟨fuel, rfl⟩ := Nat.exists_eq_add_of_le' (by omega : 1 ≤ fuel)
    rw [Trie.tryGet, type_enc]
    rfl
  | value v =>
    obtain ⟨fuel, rfl⟩ := Nat.exists_eq_add_of_le' (by omega : 1 ≤ fuel)
    rw [Trie.tryGet, type_enc]
    simp only [kind]
    rw [getVal_enc hfits.node]
    rfl
  | short key child ih =>
    obtain ⟨hne, hnil, hex, hclosed, hchild⟩ := hwf
    have hkeypos : 0 < key.length := List.length_pos_iff.mpr hne
    obtain ⟨fuel, rfl⟩ := Nat.exists_eq_add_of_le' (by omega : 1 ≤ fuel)
    rw [Trie.tryGet, type_enc]
    simp only [kind, getKey_enc hfits.node, childNode_enc hfits.node, length_nibbles]
    rw [subSize_drop hpos, RadixTree.get]
    by_cases hlen : (k.drop pos).length < key.length
    · rw [if_pos hlen, if_neg fun h => by have := h.length_le; omega]
      rfl
    · obtain ⟨part, hpart, hiff⟩ := substr_eq_iff hpos key
      rw [if_neg hlen, Ask.runIn_ofExcept_bind_ok know _ hpart]
      by_cases hpre : key <+: k.drop pos
      · have hdrop : (k.drop pos).drop key.length = k.drop (pos + key.length) := List.drop_drop
        have hrest := RadixTree.drop_mem_after hk hpre
        have hle := hpre.length_le
        rw [List.length_drop] at hle
        rw [if_pos hpre, if_neg (not_not.mpr (hiff.mpr hpre)), hdrop]
        rw [hdrop] at hrest
        obtain ⟨fuel, rfl⟩ := Nat.exists_eq_add_of_le' (by omega : 1 ≤ fuel)
        refine tryGet_ref hknown.2 fun n hn => ?_
        refine ih (RadixTree.antichain_after hP key) (hT.after key) hchild hfits.2 hknown.2
          (by omega) hrest ?_
        simp only [List.length_drop] at hfuel ⊢
        omega
      · rw [if_neg hpre, if_pos fun h => hpre (hiff.mp h)]
        rfl
  | full kids ih =>
    have hwf' := hwf
    obtain ⟨hnil, hex, hkids⟩ := hwf
    obtain ⟨i, rest, hcons⟩ : ∃ i rest, k.drop pos = i :: rest := by
      cases hd : k.drop pos with
      | nil => exact absurd (hd ▸ hk) hnil
      | cons i rest => exact ⟨i, rest, rfl⟩
    have hrest : k.drop (pos + 1) = rest := by
      rw [← List.drop_drop, hcons, List.drop_one, List.tail_cons]
    have hlen := congrArg List.length hcons
    simp only [List.length_drop, List.length_cons] at hlen hfuel
    obtain ⟨fuel, rfl⟩ := Nat.exists_eq_add_of_le' (by omega : 2 ≤ fuel)
    rw [Trie.tryGet, type_enc]
    simp only [kind]
    rw [charIndex_getD _ hcons, hcons, RadixTree.get, ← hrest]
    have hrec : ∀ n, fuel ≤ n → (Trie.tryGet n (enc H (kids i)) (nibbles k) (pos + 1)).runIn know
        = some (.ok (((kids i).get (k.drop (pos + 1))).getD [])) := by
      intro n hn
      refine ih i (RadixTree.antichain_after hP _) (hT.after _) (hkids i) (hfits.2 i)
        (hknown.2 i) (by omega) ?_ ?_
      · rw [hrest, RadixTree.mem_after, List.singleton_append, ← hcons]
        exact hk
      · rw [List.length_drop]
        omega
    -- slot 16 holds the child itself, the other slots its hash
    obtain ⟨c, hc, hlast, hhash⟩ := getChildAtIndex_cases (H := H) kids i
    rw [Ask.runIn_ofExcept_bind_ok know _ hc]
    by_cases hi : i = 16
    · rw [hlast hi]
      exact hrec _ (by omega)
    · obtain ⟨junk, rfl⟩ := hhash hi
      rw [tryGet_ofHash (hknown.2 i) (isValue_kid hT hwf' hi)]
      exact hrec _ le_rfl

end

/-! ### Opening a trie -/

theorem hash_nil : Chunk.hash H MPTNilNode.encode = H (enc H .nil) := hash_enc (t := .nil) (by decide)

/-- A trie is opened at the hash of its root. -/
theorem setNodeForHash_runIn {know : Query → Option (Option Bytes)} {t : Tree}
    (h : Known H know t) (hv : isValue t = false)
    (hne : t ≠ .nil → H (enc H t) ≠ H (enc H .nil)) :
    (Trie.setNodeForHash H (H (enc H t))).runIn know = some (.ok (enc H t)) := by
  rw [Trie.setNodeForHash, hash_nil]
  by_cases hnil : t = .nil
  · subst hnil
    rw [if_pos rfl]
    rfl
  · rw [if_neg (hne hnil), Ask.runIn_bind_ok know _ (readHash_runIn h hv), stored_getD hnil]
    rfl

/-- **`Get`** returns what the opened tree holds under the key, and `""` for nothing. -/
theorem get_runIn {know : Query → Option (Option Bytes)} {P : Set (List (Fin 17))}
    {Q : Bytes → Prop} {t : Tree} (hP : IsAntichain (· <+: ·) P) (hT : Tails P) (hwf : t.WF Q P)
    (hfits : Fits t) (hknown : Known H know t) (hv : isValue t = false)
    (hne : t ≠ .nil → H (enc H t) ≠ H (enc H .nil)) {key : Bytes} (hkey : Ascii key)
    (hmem : hexKey key ∈ P) :
    (Trie.get H (H (enc H t)) key).runIn know = some (.ok ((t.get (hexKey key)).getD [])) := by
  rw [Trie.get, Ask.runIn_bind_ok know _ (setNodeForHash_runIn hknown hv hne),
    keybytesToHex_eq hkey]
  have hget : (Trie.tryGet (Trie.fuelFor (nibbles (hexKey key))) (enc H t) (nibbles (hexKey key))
      0).runIn know = some (.ok ((t.get ((hexKey key).drop 0)).getD [])) :=
    tryGet_runIn hP hT hwf hfits hknown (by omega) (by simpa using hmem)
      (by simp [Trie.fuelFor])
  simpa using hget

end LedgerDatabase.Ledgerdb.Mpt
