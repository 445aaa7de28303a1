import LedgerDatabase.Ledgerdb.Equiv.Mpt.Insert

/-!
# `Trie::TryRemove`

`tryRemove_makes`: from the chunk of a covered tree `t`, `TryRemove` makes the chunk of
`t.remove k`.  The first sixteen slots of a full node are hash nodes, also those without a child, so
the search for an only child never finds one (`onlyChild_enc`) and branches are never collapsed.
-/

namespace LedgerDatabase.Ledgerdb.Mpt

open Chunk

variable {H : Bytes → Hash} {S : Set Bytes} {know : Query → Option (Option Bytes)}
  {delta : Delta} {t : Tree} {P : Set (List (Fin 17))} {Q : Bytes → Prop} {k : List (Fin 17)}

/-! ### The search for an only child -/

/-- The types in the slots of a full node. -/
theorem exists_type_slot (kids : Fin 17 → Tree) {i : ℕ} (hi : i < 17) :
    ∃ c, MPTFullNode.getChildAtIndex (enc H (.full kids)) i = .ok c ∧
      (i ≠ 16 → type c = .kMPTHash) := by
  obtain ⟨c, hc, -, hhash⟩ := getChildAtIndex_cases (H := H) kids ⟨i, hi⟩
  refine ⟨c, hc, fun hne => ?_⟩
  obtain ⟨junk, rfl⟩ := hhash fun h => hne (congrArg Fin.val h)
  exact type_ofHash _ _

theorem countChild_hash (kids : Fin 17 → Tree) {i : ℕ} (hi : i < 16) (pos : ℤ) :
    Trie.countChild (enc H (.full kids)) pos i = .ok (if pos = -1 then (i : ℤ) else -2) := by
  obtain ⟨c, hc, htype⟩ := exists_type_slot (H := H) kids (show i < 17 by omega)
  rw [Trie.countChild, hc, ok_bind, htype (by omega), if_pos (by simp)]
  rfl

/-- Once two children are seen, the verdict stays. -/
theorem foldlM_countChild (kids : Fin 17 → Tree) : ∀ l : List ℕ, (∀ i ∈ l, i < 17) →
    l.foldlM (Trie.countChild (enc H (.full kids))) (-2) = .ok (-2)
  | [], _ => rfl
  | i :: l, hl => by
    obtain ⟨c, hc, -⟩ := exists_type_slot (H := H) kids (hl i List.mem_cons_self)
    have hstep : Trie.countChild (enc H (.full kids)) (-2) i = .ok (-2) := by
      rw [Trie.countChild, hc, ok_bind, if_neg (show (-2 : ℤ) ≠ -1 by omega), ite_self]
      rfl
    rw [List.foldlM_cons, hstep, ok_bind]
    exact foldlM_countChild kids l fun j hj => hl j (List.mem_cons_of_mem _ hj)

theorem onlyChild_enc (kids : Fin 17 → Tree) :
    Trie.onlyChild (enc H (.full kids)) = .ok (-2) := by
  rw [Trie.onlyChild, show List.range 17 = 0 :: 1 :: List.range' 2 15 from rfl, List.foldlM_cons,
    countChild_hash kids (by omega), ok_bind, List.foldlM_cons, countChild_hash kids (by omega),
    ok_bind]
  refine foldlM_countChild kids _ fun i hi => ?_
  have := List.mem_range'_1.mp hi
  omega

/-- No branch is collapsed. -/
theorem collapse_runIn (kids : Fin 17 → Tree) (d : Delta) :
    (Trie.collapse H d (enc H (.full kids))).runIn know = some (.ok (enc H (.full kids))) := by
  rw [Trie.collapse, Ask.runIn_ofExcept_bind_ok know _ (onlyChild_enc kids)]
  rfl

/-! ### `TryRemove` -/

theorem tryRemove_ref (hinj : Set.InjOn H S) (hdelta : DeltaOk H S delta) {child : Tree}
    (hcov : Covered H know delta child) (hchunk : Chunks H S child) (hv : isValue child = false)
    (fuel : ℕ) (key : Bytes) :
    (Trie.tryRemove H (fuel + 1) (ref H child) key delta).runIn know
      = (Trie.tryRemove H fuel (enc H child) key delta).runIn know := by
  have hresolve := getHashNodeChild_runIn hinj hdelta hcov hchunk hv []
  have htype := type_ofHash (H (enc H child)) []
  rw [List.append_nil] at hresolve htype
  rw [ref, if_neg (by rw [hv]; exact Bool.false_ne_true), Trie.tryRemove, htype]
  exact Ask.runIn_bind_ok know _ hresolve

/-- **`TryRemove`** makes the tree without the key. -/
theorem tryRemove_makes (hinj : Set.InjOn H S) (hP : IsAntichain (· <+: ·) P) (hT : Tails P)
    (hnil : Known H know .nil) (hwf : t.WF Q P) (hk : k ∈ P) (hfits : Fits t)
    (hchunk : Chunks H S t) (hnew : Chunks H S (t.remove k)) (hdelta : DeltaOk H S delta)
    (hcov : Covered H know delta t) {fuel : ℕ} (hfuel : 2 * k.length + 1 ≤ fuel) :
    Makes H S know delta (t.remove k) (Trie.tryRemove H fuel (enc H t) (nibbles k) delta) := by
  have hmakesNil : Makes H S know delta .nil (pure (MPTNilNode.encode, delta)) :=
    Or.inr ⟨delta, fits_nil, rfl, hdelta, Extends.refl _, hnil⟩
  induction t generalizing P k fuel with
  | nil =>
    obtain ⟨fuel, rfl⟩ := Nat.exists_eq_add_of_le' (by omega : 1 ≤ fuel)
    rw [Trie.tryRemove, type_enc]
    exact hmakesNil
  | value w =>
    obtain ⟨fuel, rfl⟩ := Nat.exists_eq_add_of_le' (by omega : 1 ≤ fuel)
    rw [Trie.tryRemove, type_enc]
    exact hmakesNil
  | short key child ih =>
    have hwf' := hwf
    obtain ⟨hne, hnilP, hex, hclosed, hchild⟩ := hwf
    have hkpos : 0 < k.length := List.length_pos_iff.mpr fun h => hnilP (h ▸ hk)
    have hkeypos := List.length_pos_iff.mpr hne
    obtain ⟨fuel, rfl⟩ := Nat.exists_eq_add_of_le' (by omega : 2 ≤ fuel)
    rw [Trie.tryRemove, type_enc]
    simp only [kind, getKey_enc hfits.node, childNode_enc hfits.node, prefixLen_nibbles,
      length_nibbles]
    rw [RadixTree.remove] at hnew ⊢
    by_cases hpre : key <+: k
    · have hmatch := (RadixTree.prefixLen_eq_length_iff k key).mpr hpre
      rw [if_pos hpre] at hnew ⊢
      rw [hmatch, if_neg (Nat.lt_irrefl _)]
      by_cases hlen : k.length = key.length
      · rw [if_pos hlen, if_pos hlen.symm]
        exact hmakesNil
      · rw [if_neg hlen] at hnew ⊢
        rw [if_neg (Ne.symm hlen)]
        obtain ⟨kids, rfl⟩ := RadixTree.exists_full_of_short hP hwf' hk hpre hlen
        have hrest := RadixTree.drop_mem_after hk hpre
        refine .of_ok (substrFrom_nibbles hpre.length_le) ?_
        have hrec : Makes H S know delta ((RadixTree.full kids).remove (k.drop key.length))
            (Trie.tryRemove H (fuel + 1) (ref H (.full kids)) (nibbles (k.drop key.length))
              delta) := by
          unfold Makes
          rw [tryRemove_ref hinj hdelta hcov.child hchunk.2 rfl]
          exact ih (RadixTree.antichain_after hP key) (hT.after key) hchild hrest hfits.2
            hchunk.2 hnew.2 hcov.child (by rw [List.length_drop]; omega)
        refine hrec.bind (fun h => h.2) fun d hfits' hd hext hcov' => ?_
        -- what is left of a branch is a branch
        obtain ⟨kids', hkids'⟩ : ∃ kids', (RadixTree.full kids).remove (k.drop key.length)
            = .full kids' := by
          cases k.drop key.length <;> exact ⟨_, rfl⟩
        have hjoin : Trie.joinShort H (nibbles key)
            (enc H ((RadixTree.full kids).remove (k.drop key.length)))
            = MPTShortNode.encode H (nibbles key)
              (enc H ((RadixTree.full kids).remove (k.drop key.length))) := by
          rw [Trie.joinShort, type_enc, hkids', kind, if_neg (by simp)]
        simp only [hjoin]
        exact makes_short hinj hfits' (hnew.1 rfl) hd hext hcov'
    · have hlt : RadixTree.prefixLen k key < key.length := by
        have hne' := mt (RadixTree.prefixLen_eq_length_iff k key).mp hpre
        have hle := RadixTree.prefixLen_le_right k key
        omega
      rw [if_neg hpre, if_pos hlt]
      exact Or.inr ⟨delta, hfits, rfl, hdelta, Extends.refl _, hcov⟩
  | full kids ih =>
    have hwf' := hwf
    obtain ⟨hnilP, hex, hkids⟩ := hwf
    rcases k with _ | ⟨i, k⟩
    · exact absurd hk hnilP
    obtain ⟨fuel, rfl⟩ := Nat.exists_eq_add_of_le' (by omega : 1 ≤ fuel)
    rw [List.length_cons] at hfuel
    have hchild' : Chunks H S ((kids i).remove k) := by
      have := hnew.2 i
      rwa [Function.update_self] at this
    rw [Trie.tryRemove, type_enc]
    simp only [kind]
    rw [charIndex_getD (k := i :: k) 0 rfl]
    refine .of_runIn (oriChild_runIn hinj hdelta (hcov.kid i) (hchunk.2 i)
      (isValue_kid hT hwf')) (.of_ok (substrFrom_nibbles (by simp)) ?_)
    refine (ih i (RadixTree.antichain_after hP _) (hT.after _) (hkids i) hk (hfits.2 i)
      (hchunk.2 i) hchild' (hcov.kid i) (by omega)).bind (fun h => ?_) ?_
    · have := h.2 i
      rwa [Function.update_self] at this
    · intro d hfits' hd hext hcov'
      have hset : Makes H S know delta _ _ := makes_setChild hinj hd hext hfits hfits' hcov hcov' (hnew.1 rfl)
      -- `collapse` passes the new root through
      unfold Makes at hset ⊢
      cases hx : MPTFullNode.setChildAtIndex H (enc H (.full kids)) i (enc H ((kids i).remove k))
          (enc H (kids i)) with
      | error e =>
        rw [hx] at hset
        exact hset
      | ok c =>
        have hc := setChildAtIndex_enc (H := H) i hfits.node hfits'.node
        rw [hx] at hc
        split_ifs at hc
        obtain rfl := Except.ok.inj hc
        rw [hx, Ask.runIn_ofExcept_bind_ok know _ rfl] at hset
        rw [Ask.runIn_ofExcept_bind_ok know _ rfl, Ask.runIn_bind_ok know _ (collapse_runIn _ d)]
        exact hset

end LedgerDatabase.Ledgerdb.Mpt
