import LedgerDatabase.Library.RadixNormal

/-!
# When removal keeps the normal form

`remove` leaves the branches that it passes, so a branch can end up with one child.
`tight_remove_iff` says when that does not happen: the key is the only one (`Lone`), or where it
leaves the other keys there are two more directions (`Spare`).

Both are conditions on the set of keys, and the proof goes down the tree with the keys below each
node: behind shared letters (`spare_append_iff`) and below a branch (`spare_cons_iff`).
-/

namespace RadixTree

variable {ι V : Type} {K : Set (List ι)} {k : List ι}

/-- There is no other key. -/
def Lone (K : Set (List ι)) (k : List ι) : Prop := ∀ k' ∈ K, k' = k

/-- Behind some letters `p` the key `k` goes on alone, and other keys go on in two more ways. -/
def Spare (K : Set (List ι)) (k : List ι) : Prop :=
  ∃ (p : List ι) (a b c : ι), a ≠ b ∧ a ≠ c ∧ b ≠ c ∧ p ++ [a] <+: k ∧
    (∀ k' ∈ K, p ++ [a] <+: k' → k' = k) ∧ (∃ k' ∈ K, p ++ [b] <+: k') ∧ ∃ k' ∈ K, p ++ [c] <+: k'

/-! ### Sets of keys -/

/-- Keys that go on in two ways behind `p` are not one key. -/
theorem not_prefix_of_ne {a b : ι} (hab : a ≠ b) : ∀ {p k : List ι}, p ++ [a] <+: k →
    ¬ p ++ [b] <+: k
  | [], _, ⟨rest, rfl⟩, h => by
    rw [List.nil_append, List.nil_append, List.singleton_append, List.cons_prefix_cons] at h
    exact hab h.1.symm
  | _ :: p, _, ⟨rest, rfl⟩, h => by
    rw [List.cons_append, List.cons_append, List.cons_append, List.cons_prefix_cons] at h
    exact not_prefix_of_ne hab ⟨rest, rfl⟩ h.2

/-- With two more ways to go, there are two other keys. -/
theorem Spare.exists_two (h : Spare K k) : ∃ k₁ ∈ K, ∃ k₂ ∈ K, k₁ ≠ k ∧ k₂ ≠ k ∧ k₁ ≠ k₂ := by
  obtain ⟨p, a, b, c, hab, hac, hbc, hk, -, ⟨k₁, hk₁, hb⟩, ⟨k₂, hk₂, hc⟩⟩ := h
  refine ⟨k₁, hk₁, k₂, hk₂, ?_, ?_, ?_⟩
  · rintro rfl
    exact not_prefix_of_ne hab hk hb
  · rintro rfl
    exact not_prefix_of_ne hac hk hc
  · rintro rfl
    exact not_prefix_of_ne hbc hb hc

theorem Lone.not_spare (h : Lone K k) : ¬ Spare K k := by
  intro hspare
  obtain ⟨k', hk', -, -, hne, -⟩ := hspare.exists_two
  exact hne (h k' hk')

theorem lone_append_iff {key : List ι} : Lone ((key ++ ·) '' K) (key ++ k) ↔ Lone K k := by
  constructor
  · intro h k' hk'
    exact List.append_cancel_left (h (key ++ k') ⟨k', hk', rfl⟩)
  · rintro h _ ⟨k', hk', rfl⟩
    rw [h k' hk']

/-- Behind letters that all keys share, the keys go on as before. -/
theorem spare_append_iff {key : List ι} : Spare ((key ++ ·) '' K) (key ++ k) ↔ Spare K k := by
  constructor
  · rintro ⟨p, a, b, c, hab, hac, hbc, hk, halone, ⟨_, ⟨kb, hkb, rfl⟩, hb⟩, ⟨_, ⟨kc, hkc, rfl⟩, hc⟩⟩
    -- `k` and another key share `key`, so they part behind it
    have hnot : ¬ p ++ [a] <+: key := fun h =>
      not_prefix_of_ne hab (h.trans (List.prefix_append key kb)) hb
    obtain ⟨q, rfl⟩ : key <+: p := by
      rcases List.prefix_or_prefix_of_prefix (List.prefix_append key k) hk with h | h
      · rcases List.prefix_concat_iff.mp h with rfl | h
        · exact absurd List.prefix_rfl hnot
        · exact h
      · exact absurd h hnot
    simp only [List.append_assoc, List.prefix_append_right_inj] at hk halone hb hc
    refine ⟨q, a, b, c, hab, hac, hbc, hk, fun k' hk' hpre => ?_, ⟨kb, hkb, hb⟩, ⟨kc, hkc, hc⟩⟩
    apply List.append_cancel_left
    exact halone (key ++ k') ⟨k', hk', rfl⟩ ((List.prefix_append_right_inj key).mpr hpre)
  · rintro ⟨q, a, b, c, hab, hac, hbc, hk, halone, ⟨kb, hkb, hb⟩, ⟨kc, hkc, hc⟩⟩
    refine ⟨key ++ q, a, b, c, hab, hac, hbc, ?_, ?_, ⟨_, ⟨kb, hkb, rfl⟩, ?_⟩,
      ⟨_, ⟨kc, hkc, rfl⟩, ?_⟩⟩
    · rwa [List.append_assoc, List.prefix_append_right_inj]
    · rintro _ ⟨k', hk', rfl⟩ hpre
      rw [List.append_assoc, List.prefix_append_right_inj] at hpre
      rw [halone k' hk' hpre]
    · rwa [List.append_assoc, List.prefix_append_right_inj]
    · rwa [List.append_assoc, List.prefix_append_right_inj]

/-- Below a branch, the key is alone and two other slots have keys, or it has spare ways below its
own slot. -/
theorem spare_cons_iff {K : ι → Set (List ι)} {i : ι} {k : List ι} :
    Spare (⋃ j, (j :: ·) '' K j) (i :: k) ↔
      (Lone (K i) k ∧ ∃ b c, i ≠ b ∧ i ≠ c ∧ b ≠ c ∧ (K b).Nonempty ∧ (K c).Nonempty) ∨
        Spare (K i) k := by
  have hmem : ∀ {j : ι} {k : List ι}, j :: k ∈ (⋃ j, (j :: ·) '' K j) ↔ k ∈ K j := by
    intro j k
    rw [Set.mem_iUnion]
    constructor
    · rintro ⟨j', k', hk', heq⟩
      obtain ⟨rfl, rfl⟩ := List.cons.inj heq
      exact hk'
    · exact fun hk => ⟨j, k, hk, rfl⟩
  have hcons : ∀ {k : List ι}, k ∈ (⋃ j, (j :: ·) '' K j) → ∃ j k', k = j :: k' ∧ k' ∈ K j := by
    intro k hk
    obtain ⟨j, k', hk', rfl⟩ := Set.mem_iUnion.mp hk
    exact ⟨j, k', rfl, hk'⟩
  constructor
  · rintro ⟨p, a, b, c, hab, hac, hbc, hk, halone, ⟨kb, hkb, hb⟩, ⟨kc, hkc, hc⟩⟩
    obtain ⟨jb, kb, rfl, hmb⟩ := hcons hkb
    obtain ⟨jc, kc, rfl, hmc⟩ := hcons hkc
    cases p with
    | nil =>
      simp only [List.nil_append, List.cons_prefix_cons, List.nil_prefix, and_true] at hk halone hb hc
      subst hk hb hc
      refine Or.inl ⟨fun k' hk' => ?_, b, c, hab, hac, hbc, ⟨kb, hmb⟩, ⟨kc, hmc⟩⟩
      exact (List.cons.inj (halone (a :: k') (hmem.mpr hk') (List.cons_prefix_cons.mpr
        ⟨rfl, List.nil_prefix⟩))).2
    | cons x p =>
      simp only [List.cons_append, List.cons_prefix_cons] at hk halone hb hc
      obtain ⟨rfl, hk⟩ := hk
      obtain ⟨rfl, hb⟩ := hb
      obtain ⟨rfl, hc⟩ := hc
      refine Or.inr ⟨p, a, b, c, hab, hac, hbc, hk, fun k' hk' hpre => ?_, ⟨kb, hmb, hb⟩,
        ⟨kc, hmc, hc⟩⟩
      exact (List.cons.inj (halone (x :: k') (hmem.mpr hk') (List.cons_prefix_cons.mpr
        ⟨rfl, hpre⟩))).2
  · rintro (⟨hlone, b, c, hib, hic, hbc, ⟨kb, hkb⟩, ⟨kc, hkc⟩⟩ |
      ⟨p, a, b, c, hab, hac, hbc, hk, halone, ⟨kb, hkb, hb⟩, ⟨kc, hkc, hc⟩⟩)
    · refine ⟨[], i, b, c, hib, hic, hbc, ?_, ?_, ⟨b :: kb, hmem.mpr hkb, ?_⟩,
        ⟨c :: kc, hmem.mpr hkc, ?_⟩⟩
      · exact List.cons_prefix_cons.mpr ⟨rfl, List.nil_prefix⟩
      · intro k' hk' hpre
        obtain ⟨j, k', rfl, hm⟩ := hcons hk'
        obtain rfl : i = j := (List.cons_prefix_cons.mp hpre).1
        rw [hlone k' hm]
      · exact List.cons_prefix_cons.mpr ⟨rfl, List.nil_prefix⟩
      · exact List.cons_prefix_cons.mpr ⟨rfl, List.nil_prefix⟩
    · refine ⟨i :: p, a, b, c, hab, hac, hbc, ?_, ?_, ⟨i :: kb, hmem.mpr hkb, ?_⟩,
        ⟨i :: kc, hmem.mpr hkc, ?_⟩⟩
      · exact List.cons_prefix_cons.mpr ⟨rfl, hk⟩
      · intro k' hk' hpre
        obtain ⟨j, k', rfl, hm⟩ := hcons hk'
        obtain ⟨rfl, hrest⟩ := List.cons_prefix_cons.mp hpre
        rw [halone k' hm hrest]
      · exact List.cons_prefix_cons.mpr ⟨rfl, hb⟩
      · exact List.cons_prefix_cons.mpr ⟨rfl, hc⟩

/-! ### Trees -/

variable [DecidableEq ι] {Q : V → Prop} {P : Set (List ι)} {t : RadixTree ι V}

/-- Another key of the tree survives. -/
theorem remove_ne_nil_of_ne (hP : IsAntichain (· <+: ·) P) (ht : t.WF Q P) (hk : k ∈ P)
    {k' : List ι} (hk' : k' ∈ held P t) (hne : k' ≠ k) : t.remove k ≠ nil := by
  intro hnil
  have hget := get_remove hP ht hk hk'.1
  rw [hnil, if_neg hne, get] at hget
  exact hk'.2 hget.symm

/-- Removal of the only key empties the tree, if it keeps the normal form. -/
theorem remove_eq_nil_of_lone (hP : IsAntichain (· <+: ·) P) (ht : t.WF Q P) (hk : k ∈ P)
    (htight : (t.remove k).Tight) (hlone : Lone (held P t) k) : t.remove k = nil := by
  by_contra hne
  obtain ⟨k', hk', hget⟩ := exists_get_of_tight (wf_remove hP ht hk) htight hne
  rw [get_remove hP ht hk hk'] at hget
  by_cases heq : k' = k
  · exact hget (if_pos heq)
  · rw [if_neg heq] at hget
    exact heq (hlone k' ⟨hk', hget⟩)

theorem held_nonempty {t : RadixTree ι V} (ht : t.WF Q P) (htight : t.Tight) :
    (held P t).Nonempty ↔ t ≠ nil := by
  constructor
  · rintro ⟨k, -, hget⟩ rfl
    exact hget rfl
  · intro hne
    obtain ⟨k, hk, hget⟩ := exists_get_of_tight ht htight hne
    exact ⟨k, hk, hget⟩

/-- **Removal keeps the normal form** exactly if the key is the only one or leaves the others where
these go on in two ways. -/
theorem tight_remove_iff (hP : IsAntichain (· <+: ·) P) (ht : t.WF Q P) (htight : t.Tight)
    (hk : k ∈ held P t) : (t.remove k).Tight ↔ Lone (held P t) k ∨ Spare (held P t) k := by
  induction t generalizing P k with
  | nil => exact absurd rfl hk.2
  | value w =>
    refine iff_of_true trivial (Or.inl fun k' hk' => ?_)
    rw [eq_nil_of_nil_mem hP ht.1 hk.1, eq_nil_of_nil_mem hP ht.1 hk'.1]
  | short key child ih =>
    have hpre : key <+: k := common_prefix_of_get hk.2
    by_cases hlen : k.length = key.length
    · -- the node stands for `k` alone
      rw [remove, if_pos hpre, if_pos hlen]
      refine iff_of_true trivial (Or.inl fun k' hk' => ?_)
      obtain rfl : key = k := hpre.eq_of_length hlen.symm
      exact (hP.eq hk.1 hk'.1 (common_prefix_of_get hk'.2)).symm
    · obtain ⟨rest, rfl⟩ := hpre
      rw [held_short, lone_append_iff, spare_append_iff, remove, if_pos (List.prefix_append _ _),
        if_neg hlen, List.drop_left]
      rw [held_short] at hk
      obtain ⟨rest', hrest, heq⟩ := hk
      obtain rfl : rest' = rest := List.append_cancel_left heq
      exact ih (antichain_after hP key) ht.2.2.2.2 htight hrest
  | full kids ih =>
    obtain ⟨hnil, hex, hkids⟩ := ht
    obtain ⟨⟨x, y, hxy, hx, hy⟩, htights⟩ := htight
    obtain ⟨i, k, rfl⟩ : ∃ i k', k = i :: k' := by
      cases k with
      | nil => exact absurd hk.1 hnil
      | cons i k => exact ⟨i, k, rfl⟩
    have hki : k ∈ held (after P [i]) (kids i) := hk
    have hPi := antichain_after hP [i]
    have hslot : ∀ j, (held (after P [j]) (kids j)).Nonempty ↔ kids j ≠ nil := fun j =>
      held_nonempty (hkids j) (htights j)
    have hiff := ih i hPi (hkids i) (htights i) hki
    -- a branch has keys in two slots, so no key is the only one
    have hnot : ¬ Lone (held P (full kids)) (i :: k) := by
      intro hlone
      rw [held_full] at hlone
      obtain ⟨kx, hkx⟩ := (hslot x).mpr hx
      obtain ⟨ky, hky⟩ := (hslot y).mpr hy
      have hix := List.cons.inj (hlone (x :: kx) (Set.mem_iUnion.mpr ⟨x, kx, hkx, rfl⟩))
      have hiy := List.cons.inj (hlone (y :: ky) (Set.mem_iUnion.mpr ⟨y, ky, hky, rfl⟩))
      exact hxy (hix.1.trans hiy.1.symm)
    rw [or_iff_right hnot, held_full, spare_cons_iff, remove]
    constructor
    · rintro ⟨⟨b, c, hbc, hb, hc⟩, htights'⟩
      have htight' := htights' i
      rw [Function.update_self] at htight'
      rcases hiff.mp htight' with hlone | hspare
      · have hempty := remove_eq_nil_of_lone hPi (hkids i) hki.1 htight' hlone
        -- the slot of the key is empty now, so the two children are others
        have hother : ∀ j, Function.update kids i ((kids i).remove k) j ≠ nil →
            i ≠ j ∧ kids j ≠ nil := by
          intro j hj
          by_cases hji : j = i
          · rw [hji, Function.update_self] at hj
            exact absurd hempty hj
          · rw [Function.update_of_ne hji] at hj
            exact ⟨Ne.symm hji, hj⟩
        obtain ⟨hib, hb⟩ := hother b hb
        obtain ⟨hic, hc⟩ := hother c hc
        exact Or.inl ⟨hlone, b, c, hib, hic, hbc, (hslot b).mpr hb, (hslot c).mpr hc⟩
      · exact Or.inr hspare
    · intro h
      have htight' : ((kids i).remove k).Tight := hiff.mpr (h.imp_left fun h => h.1)
      constructor
      · rcases h with ⟨-, b, c, hib, hic, hbc, hb, hc⟩ | hspare
        · refine ⟨b, c, hbc, ?_, ?_⟩
          · rw [Function.update_of_ne hib.symm]
            exact (hslot b).mp hb
          · rw [Function.update_of_ne hic.symm]
            exact (hslot c).mp hc
        · -- the slot of the key still has keys, so the branch keeps all its children
          obtain ⟨k', hk', -, -, hne, -⟩ := hspare.exists_two
          have hkeep : ∀ j, kids j ≠ nil →
              Function.update kids i ((kids i).remove k) j ≠ nil := by
            intro j hj
            by_cases hji : j = i
            · subst hji
              rw [Function.update_self]
              exact remove_ne_nil_of_ne hPi (hkids j) hki.1 hk' hne
            · rwa [Function.update_of_ne hji]
          exact ⟨x, y, hxy, hkeep x hx, hkeep y hy⟩
      · intro j
        by_cases hji : j = i
        · subst hji
          rwa [Function.update_self]
        · rw [Function.update_of_ne hji]
          exact htights j

end RadixTree
