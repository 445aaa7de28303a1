import LedgerDatabase.Ledgerdb.Equiv.Mpt.VerifyProof

/-!
# `Trie::GetProof`

`pathOf H t k` lists the chunks that `GetProof` collects along the path `k`.  They lead from the
root to the value (`passes_pathOf`), so the proof of a key that is there is accepted
(`verifyProof_pathOf`).
-/

namespace LedgerDatabase.Ledgerdb.Mpt

open Chunk

/-- The chunks along a path, each with the child taken. -/
def pathOf (H : Bytes → Hash) : Tree → List (Fin 17) → List (Bytes × ℕ)
  | .short key child, k =>
    (enc H (.short key child), 0) ::
      if key <+: k then pathOf H child (k.drop key.length) else []
  | .full kids, i :: k => (enc H (.full kids), i.val) :: pathOf H (kids i) k
  | .full _, [] => []
  | .nil, _ => []
  | .value _, _ => []

section

variable {H : Bytes → Hash} {S : Set Bytes} {know : Query → Option (Option Bytes)}
  {P : Set (List (Fin 17))} {Q : Bytes → Prop} {t : Tree}

/-! ### `TryGetProof` -/

/-- A hash node leads to the node it stands for. -/
theorem tryGetProof_ofHash (h : Known H know t) (hv : isValue t = false) (fuel : ℕ)
    (junk key : Bytes) (pos : ℕ) (proof : MPTProof) :
    (Trie.tryGetProof (fuel + 1) (MPTHashNode.ofHash (H (enc H t)) ++ junk) key pos proof).runIn know
      = (Trie.tryGetProof fuel (enc H t) key pos proof).runIn know := by
  rw [Trie.tryGetProof, type_ofHash, childHash_ofHash]
  simp only
  rw [Ask.runIn_bind_ok know _ (readHash_runIn h hv)]
  cases t <;> rfl

/-- The child of a short node, whether it is stored in it or not. -/
theorem tryGetProof_ref (h : Known H know t) {fuel : ℕ} {key : Bytes} {pos : ℕ}
    {proof r : MPTProof}
    (hr : ∀ n, fuel ≤ n → (Trie.tryGetProof n (enc H t) key pos proof).runIn know = some (.ok r)) :
    (Trie.tryGetProof (fuel + 1) (ref H t) key pos proof).runIn know = some (.ok r) := by
  unfold ref
  cases hv : isValue t with
  | true => exact hr _ (by omega)
  | false =>
    have := tryGetProof_ofHash h hv fuel [] key pos proof
    rw [List.append_nil] at this
    exact this.trans (hr _ le_rfl)

/-- **`TryGetProof`** collects the chunks below the position reached, and the value if there is
one. -/
theorem tryGetProof_runIn (hP : IsAntichain (· <+: ·) P) (hT : Tails P) (hwf : t.WF Q P)
    (hfits : Fits t) (hknown : Known H know t) {k : List (Fin 17)} {pos : ℕ} (hpos : pos ≤ k.length)
    (hk : k.drop pos ∈ P) {fuel : ℕ} (hfuel : 2 * (k.drop pos).length + 1 ≤ fuel)
    (map : List (Bytes × ℕ)) :
    (Trie.tryGetProof fuel (enc H t) (nibbles k) pos ⟨[], map⟩).runIn know
      = some (.ok ⟨(t.get (k.drop pos)).getD [], map ++ pathOf H t (k.drop pos)⟩) := by
  induction t generalizing P pos fuel map with
  | nil =>
    obtain ⟨fuel, rfl⟩ := Nat.exists_eq_add_of_le' (by omega : 1 ≤ fuel)
    rw [Trie.tryGetProof, type_enc, pathOf, List.append_nil]
    rfl
  | value v =>
    obtain ⟨fuel, rfl⟩ := Nat.exists_eq_add_of_le' (by omega : 1 ≤ fuel)
    rw [Trie.tryGetProof, type_enc]
    simp only [kind, pathOf, List.append_nil]
    rw [getVal_enc hfits.node]
    rfl
  | short key child ih =>
    obtain ⟨hne, hnil, hex, hclosed, hchild⟩ := hwf
    have hkeypos : 0 < key.length := List.length_pos_iff.mpr hne
    obtain ⟨fuel, rfl⟩ := Nat.exists_eq_add_of_le' (by omega : 1 ≤ fuel)
    rw [Trie.tryGetProof, type_enc, pathOf]
    simp only [kind, getKey_enc hfits.node, childNode_enc hfits.node, length_nibbles,
      MPTProof.appendProof, bytes_enc hfits.node]
    rw [subSize_drop hpos, RadixTree.get]
    by_cases hlen : (k.drop pos).length < key.length
    · rw [if_pos hlen, if_neg fun h => by have := h.length_le; omega,
        if_neg fun h => by have := h.length_le; omega]
      rfl
    · obtain ⟨part, hpart, hiff⟩ := substr_eq_iff hpos key
      rw [if_neg hlen, Ask.runIn_ofExcept_bind_ok know _ hpart]
      by_cases hpre : key <+: k.drop pos
      · have hdrop : (k.drop pos).drop key.length = k.drop (pos + key.length) := List.drop_drop
        have hrest := RadixTree.drop_mem_after hk hpre
        have hle := hpre.length_le
        rw [List.length_drop] at hle
        rw [if_pos hpre, if_pos hpre, if_neg (not_not.mpr (hiff.mpr hpre)), hdrop]
        rw [hdrop] at hrest
        obtain ⟨fuel, rfl⟩ := Nat.exists_eq_add_of_le' (by omega : 1 ≤ fuel)
        refine tryGetProof_ref hknown.2 fun n hn => ?_
        have hfuel' : 2 * (k.drop (pos + key.length)).length + 1 ≤ n := by
          simp only [List.length_drop] at hfuel ⊢
          omega
        have hrec := ih (RadixTree.antichain_after hP key) (hT.after key) hchild hfits.2 hknown.2
          (by omega) hrest hfuel' (map ++ [(enc H (.short key child), 0)])
        rwa [List.append_assoc, List.singleton_append] at hrec
      · rw [if_neg hpre, if_neg hpre, if_pos fun h => hpre (hiff.mp h)]
        rfl
  | full kids ih =>
    have hwf' := hwf
    obtain ⟨hnil, hex, hkids⟩ := hwf
    obtain ⟨i, rest, hcons⟩ : ∃ i rest, k.drop pos = i :: rest := by
      cases hd : k.drop pos with
      | nil => exact absurd (hd ▸ hk) hnil
      | cons i rest => exact ⟨i, rest, rfl⟩
    have hrest : k.drop (pos + 1) = rest := by
      rw [← List.drop_drop, hcons, List.drop_one, List.tail_cons]
    have hlen := congrArg List.length hcons
    simp only [List.length_drop, List.length_cons] at hlen hfuel
    obtain ⟨fuel, rfl⟩ := Nat.exists_eq_add_of_le' (by omega : 2 ≤ fuel)
    rw [Trie.tryGetProof, type_enc]
    simp only [kind, MPTProof.appendProof, bytes_enc hfits.node]
    rw [charIndex_getD _ hcons, hcons, RadixTree.get, pathOf, ← hrest]
    have hrec : ∀ n, fuel ≤ n → (Trie.tryGetProof n (enc H (kids i)) (nibbles k) (pos + 1)
        ⟨[], map ++ [(enc H (.full kids), i.val)]⟩).runIn know
        = some (.ok ⟨((kids i).get (k.drop (pos + 1))).getD [],
          map ++ (enc H (.full kids), i.val) :: pathOf H (kids i) (k.drop (pos + 1))⟩) := by
      intro n hn
      rw [ih i (RadixTree.antichain_after hP _) (hT.after _) (hkids i) (hfits.2 i)
        (hknown.2 i) (by omega), List.append_assoc, List.singleton_append]
      · rw [hrest, RadixTree.mem_after, List.singleton_append, ← hcons]
        exact hk
      · rw [List.length_drop]
        omega
    -- slot 16 holds the child itself, the other slots its hash
    obtain ⟨c, hc, hlast, hhash⟩ := getChildAtIndex_cases (H := H) kids i
    rw [Ask.runIn_ofExcept_bind_ok know _ hc]
    by_cases hi : i = 16
    · rw [hlast hi]
      exact hrec _ (by omega)
    · obtain ⟨junk, rfl⟩ := hhash hi
      rw [tryGetProof_ofHash (hknown.2 i) (isValue_kid hT hwf' hi)]
      exact hrec _ le_rfl

/-- **`GetProof`** on the opened tree. -/
theorem getProof_runIn (hwf : t.WF Q terminated) (hfits : Fits t) (hknown : Known H know t)
    {key : Bytes} (hkey : Ascii key) :
    (Trie.getProof (enc H t) key).runIn know
      = some (.ok ⟨(t.get (hexKey key)).getD [], pathOf H t (hexKey key)⟩) := by
  rw [Trie.getProof, keybytesToHex_eq hkey]
  have hmem : (hexKey key).drop 0 ∈ terminated := hexKey_mem_terminated hkey
  have hfuel : 2 * ((hexKey key).drop 0).length + 1 ≤ Trie.fuelFor (nibbles (hexKey key)) := by
    rw [Trie.fuelFor, length_nibbles, List.drop_zero]
    omega
  exact tryGetProof_runIn antichain_terminated tails_terminated hwf hfits hknown (Nat.zero_le _)
    hmem hfuel []

/-- On a key of any bytes, `TryGetProof` reads nodes of the tree only. -/
theorem tryGetProof_known : ∀ (fuel : ℕ) {t : Tree}, Good H S t → Known H know t →
    ∀ (key : Bytes) (pos : ℕ) (proof : MPTProof),
      (∃ x, (Trie.tryGetProof fuel (enc H t) key pos proof).runIn know = some x) ∧
      (isValue t = false → ∀ junk, ∃ x, (Trie.tryGetProof fuel
        (MPTHashNode.ofHash (H (enc H t)) ++ junk) key pos proof).runIn know = some x)
  | 0, _, _, _, _, _, _ => ⟨⟨_, rfl⟩, fun _ _ => ⟨_, rfl⟩⟩
  | fuel + 1, t, hgood, hknown, key, pos, proof => by
    constructor
    · rw [Trie.tryGetProof, type_enc]
      cases t with
      | nil => exact ⟨_, rfl⟩
      | value v =>
        simp only [kind]
        rw [getVal_enc hgood.fits.node]
        exact ⟨_, rfl⟩
      | short skey child =>
        have hchild : ∃ x, (Trie.tryGetProof fuel (ref H child) key
            (pos + (nibbles skey).length) (proof.appendProof (enc H (.short skey child)) 0)).runIn know
            = some x := by
          have hrec := tryGetProof_known fuel hgood.child hknown.2 key
            (pos + (nibbles skey).length) (proof.appendProof (enc H (.short skey child)) 0)
          rw [ref]
          split_ifs with hv
          · exact hrec.1
          · have := hrec.2 (Bool.not_eq_true _ ▸ hv) []
            rwa [List.append_nil] at this
        simp only [kind, getKey_enc hgood.fits.node, childNode_enc hgood.fits.node]
        split_ifs
        · exact ⟨_, rfl⟩
        · cases hpart : substr key pos (nibbles skey).length with
          | error e => exact ⟨_, rfl⟩
          | ok part =>
            rw [Ask.runIn_ofExcept_bind_ok know _ rfl]
            split_ifs
            · exact ⟨_, rfl⟩
            · exact hchild
      | full kids =>
        simp only [kind]
        by_cases hi : charIndex (key.getD pos 0) < 17
        · obtain ⟨c, hc, hlast, hhash⟩ := getChildAtIndex_cases (H := H) kids ⟨_, hi⟩
          rw [Ask.runIn_ofExcept_bind_ok know _ hc]
          have hrec := tryGetProof_known fuel (hgood.kid ⟨_, hi⟩) (hknown.2 ⟨_, hi⟩) key (pos + 1)
            (proof.appendProof (enc H (.full kids)) (charIndex (key.getD pos 0)))
          by_cases h16 : (⟨_, hi⟩ : Fin 17) = 16
          · rw [hlast h16]
            exact hrec.1
          · obtain ⟨junk, rfl⟩ := hhash h16
            exact hrec.2 ((hgood.slots.1 kids rfl).1 _ h16) junk
        · rw [MPTFullNode.getChildAtIndex, if_neg hi]
          exact ⟨_, rfl⟩
    · intro hv junk
      rw [tryGetProof_ofHash hknown hv]
      exact (tryGetProof_known fuel hgood hknown key pos proof).1

/-! ### Verification -/

/-- The chunks of a path are nodes of the tree. -/
theorem mem_pathOf (h : Good H S t) (hv : isValue t = false) : ∀ {k : List (Fin 17)}
    {e : Bytes × ℕ}, e ∈ pathOf H t k → bytes e.1 = e.1 ∧ e.1 ∈ S := by
  induction t with
  | nil =>
    intro k e he
    exact absurd he List.not_mem_nil
  | value v => cases hv
  | short key child ih =>
    intro k e he
    rw [pathOf] at he
    rcases List.mem_cons.mp he with rfl | he
    · exact ⟨bytes_enc h.fits.node, h.chunks.node hv⟩
    · split_ifs at he
      · cases hchild : isValue child with
        | true =>
          obtain ⟨w, rfl⟩ := exists_value_of_isValue hchild
          exact absurd he (by simp [pathOf])
        | false => exact ih h.child hchild he
      · exact absurd he List.not_mem_nil
  | full kids ih =>
    intro k e he
    cases k with
    | nil => exact absurd he (by simp [pathOf])
    | cons i k =>
      rw [pathOf] at he
      rcases List.mem_cons.mp he with rfl | he
      · exact ⟨bytes_enc h.fits.node, h.chunks.node hv⟩
      · cases hkid : isValue (kids i) with
        | true =>
          obtain ⟨w, hw⟩ := exists_value_of_isValue hkid
          rw [hw] at he
          exact absurd he (by simp [pathOf])
        | false => exact ih i (h.kid i) hkid he

/-- The path of a key that is there passes its value. -/
theorem passes_pathOf (hT : Tails P) (hwf : t.WF Q P) (hv : isValue t = false)
    {k : List (Fin 17)} (hk : k ∈ P) {v : Bytes} (hget : t.get k = some v) :
    passes H t (pathOf H t k) = some [v] := by
  induction t generalizing P k with
  | nil => cases hget
  | value w => cases hv
  | short key child ih =>
    obtain ⟨hne, hnil, hex, hclosed, hchild⟩ := hwf
    rw [RadixTree.get] at hget
    split_ifs at hget with hpre
    rw [pathOf, if_pos hpre, passes, if_pos rfl]
    cases hval : isValue child with
    | true =>
      obtain ⟨w, rfl⟩ := exists_value_of_isValue hval
      -- the value ends the path
      obtain rfl : w = v := by
        rw [RadixTree.get] at hget
        exact Option.some.inj hget
      simp [leads, pathOf, passes]
    | false =>
      rw [leads_short hval]
      simp only
      rw [ih (hT.after key) hchild hval (RadixTree.drop_mem_after hk hpre) hget]
      rfl
  | full kids ih =>
    obtain ⟨i, k, rfl⟩ : ∃ i k', k = i :: k' := by
      cases k with
      | nil => cases hget
      | cons i k => exact ⟨i, k, rfl⟩
    rw [RadixTree.get] at hget
    rw [pathOf, passes, if_pos rfl, leads, dif_pos i.isLt]
    by_cases hi : i = 16
    · subst hi
      -- slot 16 holds the value itself
      rcases kid_last hT hwf with hnil | ⟨w, hw⟩
      · rw [hnil] at hget
        cases hget
      · rw [hw] at hget ⊢
        obtain rfl : w = v := by
          rw [RadixTree.get] at hget
          exact Option.some.inj hget
        simp [pathOf, passes, slotValue]
    · have hval : i.val ≠ 16 := fun heq => hi (Fin.ext heq)
      rw [if_neg hval]
      simp only [Fin.eta]
      rw [ih i (hT.after _) (hwf.2.2 i) (isValue_kid hT hwf hi) (k := k) _ hget]
      · rfl
      · rw [RadixTree.mem_after, List.singleton_append]
        exact hk

/-- **The proof of a key that is there** is accepted. -/
theorem verifyProof_pathOf (hinj : Set.InjOn H S) (hgood : Good H S t)
    (hwf : t.WF Q terminated) (hv : isValue t = false) {key : Bytes} (hkey : Ascii key) {v : Bytes}
    (hne : v ≠ []) (hget : t.get (hexKey key) = some v) :
    MPTProof.verifyProof H ⟨v, pathOf H t (hexKey key)⟩ (H (enc H t)) key = .ok true := by
  rw [MPTProof.verifyProof]
  apply (verifyLoop_eq_true_iff hinj hne key _ t 0 hgood hv fun e he => mem_pathOf hgood hv he).mpr
  exact ⟨[v], passes_pathOf tails_terminated hwf hv (hexKey_mem_terminated hkey) hget,
    fun w hw => List.mem_singleton.mp hw⟩

end

end LedgerDatabase.Ledgerdb.Mpt
