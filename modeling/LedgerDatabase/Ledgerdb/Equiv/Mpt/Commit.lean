import LedgerDatabase.Ledgerdb.Equiv.Mpt.Insert

/-!
# `MPTDelta::Commit`

Without collisions the chunk of a node determines the tree below it (`enc_inj`), so no chunk is
met twice on the way down and `commitFuel` rounds are enough.  `commit_spec`: `Commit` writes chunks
of the tree under their hashes, and afterwards every node of a covered tree is in the store.
-/

namespace LedgerDatabase.Ledgerdb.Mpt

open Chunk

/-- Values stand in slot 16 of a full node, or below a short node. -/
def Slots (t : Tree) : Prop :=
  t.All fun t => ∀ kids, t = .full kids →
    (∀ i, i ≠ 16 → isValue (kids i) = false) ∧ (kids 16 = .nil ∨ ∃ v, kids 16 = .value v)

/-- A trie that can be stored: its nodes fit, and its chunks are in `S`. -/
structure Good (H : Bytes → Hash) (S : Set Bytes) (t : Tree) : Prop where
  fits : Fits t
  chunks : Chunks H S t
  slots : Slots t

section

variable {H : Bytes → Hash} {S : Set Bytes} {know : Query → Option (Option Bytes)}
  {delta : Delta} {t : Tree}

theorem slots_of_wf {P : Set (List (Fin 17))} {Q : Bytes → Prop} (hT : Tails P) (h : t.WF Q P) :
    Slots t := by
  induction t generalizing P with
  | nil => intro kids hk; cases hk
  | value v => intro kids hk; cases hk
  | short key child ih =>
    refine ⟨?_, ih (hT.after key) h.2.2.2.2⟩
    intro kids hk
    cases hk
  | full kids ih =>
    refine ⟨?_, fun i => ih i (hT.after [i]) (h.2.2 i)⟩
    rintro kids' ⟨⟩
    exact ⟨fun i hi => isValue_kid hT h hi, kid_last hT h⟩

theorem Good.child {key : List (Fin 17)} (h : Good H S (.short key t)) : Good H S t :=
  ⟨h.fits.2, h.chunks.2, h.slots.2⟩

theorem Good.kid {kids : Fin 17 → Tree} (h : Good H S (.full kids)) (i : Fin 17) :
    Good H S (kids i) :=
  ⟨h.fits.2 i, h.chunks.2 i, h.slots.2 i⟩

/-! ### The chunk determines the tree -/

theorem kind_eq_of_enc_eq {t' : Tree} (h : enc H t = enc H t') : kind t = kind t' := by
  rw [← type_enc (H := H), h, type_enc]

theorem hash_eq_of_ofHash_eq {h h' : Hash} (junk junk' : Bytes)
    (heq : MPTHashNode.ofHash h ++ junk = MPTHashNode.ofHash h' ++ junk') : h = h' := by
  rw [← childHash_ofHash h junk, heq, childHash_ofHash]

/-- Children with the same reference have the same chunk. -/
theorem enc_eq_of_ref_eq (hinj : Set.InjOn H S) {t' : Tree} (h : Chunks H S t)
    (h' : Chunks H S t') (heq : ref H t = ref H t') : enc H t = enc H t' := by
  have htype : ∀ {s : Tree} (x : Hash), enc H s ≠ MPTHashNode.ofHash x := by
    intro s x hx
    have hkind : kind s = .kMPTHash := by
      rw [← type_enc (H := H), hx]
      exact type_ofData'
    cases s <;> cases hkind
  unfold ref at heq
  cases hv : isValue t <;> cases hv' : isValue t' <;>
    simp only [hv, hv', if_true, Bool.false_eq_true, if_false] at heq
  · refine hinj (h.node hv) (h'.node hv') (hash_eq_of_ofHash_eq [] [] ?_)
    rw [heq]
  · exact absurd heq.symm (htype _)
  · exact absurd heq (htype _)
  · exact heq

/-- **The chunk of a node determines the tree** when no two chunks have the same hash. -/
theorem enc_inj (hinj : Set.InjOn H S) {t' : Tree} (h : Good H S t) (h' : Good H S t')
    (heq : enc H t = enc H t') : t = t' := by
  have hkind := kind_eq_of_enc_eq heq
  induction t generalizing t' with
  | nil =>
    cases t' <;> first | rfl | cases hkind
  | value v =>
    cases t' with
    | value v' =>
      have := congrArg MPTValueNode.getVal heq
      rw [getVal_enc h.fits.node, getVal_enc h'.fits.node] at this
      rw [Except.ok.inj this]
    | _ => cases hkind
  | short key child ih =>
    cases t' with
    | short key' child' =>
      have hkey := congrArg MPTShortNode.getKey heq
      rw [getKey_enc h.fits.node, getKey_enc h'.fits.node] at hkey
      have href := congrArg MPTShortNode.childNode heq
      rw [childNode_enc h.fits.node, childNode_enc h'.fits.node] at href
      have henc := enc_eq_of_ref_eq hinj h.chunks.2 h'.chunks.2 href
      rw [nibbles_injective hkey, ih h.child h'.child henc (kind_eq_of_enc_eq henc)]
    | _ => cases hkind
  | full kids ih =>
    cases t' with
    | full kids' =>
      have hkids : kids = kids' := by
        funext i
        have henc : enc H (kids i) = enc H (kids' i) := by
          obtain ⟨c, hc, hlast, hhash⟩ := getChildAtIndex_cases (H := H) kids i
          obtain ⟨c', hc', hlast', hhash'⟩ := getChildAtIndex_cases (H := H) kids' i
          rw [heq, hc'] at hc
          obtain rfl := Except.ok.inj hc
          by_cases hi : i = 16
          · rw [← hlast hi, ← hlast' hi]
          · obtain ⟨junk, hjunk⟩ := hhash hi
            obtain ⟨junk', hjunk'⟩ := hhash' hi
            refine hinj ((h.kid i).chunks.node ?_) ((h'.kid i).chunks.node ?_)
              (hash_eq_of_ofHash_eq _ _ (hjunk.symm.trans hjunk'))
            · exact (h.slots.1 kids rfl).1 i hi
            · exact (h'.slots.1 kids' rfl).1 i hi
        exact ih i (h.kid i) (h'.kid i) henc (kind_eq_of_enc_eq henc)
      rw [hkids]
    | _ => cases hkind

/-! ### The depth of the recursion -/

open Classical in
/-- The number of chunks in a delta that belong to trees lower than `h`. -/
noncomputable def rank (H : Bytes → Hash) (S : Set Bytes) (delta : Delta) (h : ℕ) : ℕ :=
  delta.countP fun e => ∃ t : Tree, Good H S t ∧ enc H t = e.2 ∧ t.height < h

theorem rank_le_length (delta : Delta) (h : ℕ) : rank H S delta h ≤ delta.length :=
  List.countP_le_length

/-- Going down to a chunk of the delta lowers the rank. -/
theorem rank_lt (hinj : Set.InjOn H S) (ht : Good H S t) {e : Hash × Bytes} (he : e ∈ delta)
    (henc : e.2 = enc H t) {h : ℕ} (hh : t.height < h) :
    rank H S delta t.height < rank H S delta h := by
  classical
  obtain ⟨l, l', rfl⟩ := List.append_of_mem he
  have hmono : ∀ l : Delta, rank H S l t.height ≤ rank H S l h := by
    intro l
    refine List.countP_mono_left fun e _ hlow => ?_
    simp only [decide_eq_true_eq] at hlow ⊢
    obtain ⟨s, hs, hse, hsh⟩ := hlow
    exact ⟨s, hs, hse, hsh.trans hh⟩
  have hhigh : ∃ s : Tree, Good H S s ∧ enc H s = e.2 ∧ s.height < h := ⟨t, ht, henc.symm, hh⟩
  have hlow : ¬ ∃ s : Tree, Good H S s ∧ enc H s = e.2 ∧ s.height < t.height := by
    rintro ⟨s, hs, hse, hsh⟩
    rw [enc_inj hinj hs ht (hse.trans henc)] at hsh
    exact Nat.lt_irrefl _ hsh
  have h1 := hmono l
  have h2 := hmono l'
  unfold rank at h1 h2 ⊢
  simp only [List.countP_append, List.countP_cons, decide_eq_true hhigh, decide_eq_false hlow,
    if_true, Bool.false_eq_true, if_false]
  omega

/-! ### `Commit` -/

/-- The writes `puts` make every node of `t` persistent that was not known before. -/
def Persists (H : Bytes → Hash) (know : Query → Option (Option Bytes)) (puts : List (Hash × Bytes))
    (t : Tree) : Prop :=
  t.All fun t => isValue t = false → know (.hash (H (enc H t))) = some (stored H t) ∨
    t ≠ .nil ∧ (H (enc H t), enc H t) ∈ puts

/-- What `Commit` may write: chunks of `S` under their hashes, and not the nil chunk. -/
def PutsOk (H : Bytes → Hash) (S : Set Bytes) (puts : List (Hash × Bytes)) : Prop :=
  ∀ e ∈ puts, e.1 = H e.2 ∧ e.2 ∈ S ∧ e.2 ≠ enc H .nil

theorem Persists.mono {puts puts' : List (Hash × Bytes)} (hsub : puts ⊆ puts')
    (h : Persists H know puts t) : Persists H know puts' t := by
  have hnode : ∀ s : Tree, (isValue s = false → know (.hash (H (enc H s))) = some (stored H s) ∨
      s ≠ .nil ∧ (H (enc H s), enc H s) ∈ puts) →
      isValue s = false → know (.hash (H (enc H s))) = some (stored H s) ∨
        s ≠ .nil ∧ (H (enc H s), enc H s) ∈ puts' :=
    fun s hs hv => (hs hv).imp_right fun h => ⟨h.1, hsub h.2⟩
  induction t with
  | nil => exact hnode _ h
  | value v => exact hnode _ h
  | short key child ih => exact ⟨hnode _ h.1, ih h.2⟩
  | full kids ih => exact ⟨hnode _ h.1, fun i => ih i (h.2 i)⟩

theorem Known.persists (h : Known H know t) : Persists H know [] t := by
  induction t with
  | nil => exact fun hv => Or.inl (h hv)
  | value v => intro hv; simp [isValue] at hv
  | short key child ih => exact ⟨fun hv => Or.inl (h.1 hv), ih h.2⟩
  | full kids ih => exact ⟨fun hv => Or.inl (h.1 hv), fun i => ih i (h.2 i)⟩

/-- "commit current" writes a chunk of the delta. -/
theorem commitCurrent_spec (hinj : Set.InjOn H S) (hdelta : DeltaOk H S delta) (ht : Good H S t)
    (hnilS : enc H .nil ∈ S) (hv : isValue t = false) (hne : t ≠ .nil) :
    PutsOk H S (MPTDelta.commitCurrent H delta (enc H t)) ∧
      (delta.lookup (H (enc H t)) = some (enc H t) →
        (H (enc H t), enc H t) ∈ MPTDelta.commitCurrent H delta (enc H t)) := by
  have hchunk := ht.chunks.node hv
  have henc : enc H t ≠ enc H .nil := by
    intro h
    have hkind := kind_eq_of_enc_eq h
    cases t <;> first | exact absurd rfl hne | cases hkind
  have hhash : H (enc H t) ≠ H (enc H .nil) := fun h => henc (hinj hchunk hnilS h)
  rw [MPTDelta.commitCurrent, hash_enc ht.fits.node, hash_nil, MPTDelta.getChunk]
  cases hlook : delta.lookup (H (enc H t)) with
  | none => exact ⟨by simp [PutsOk], by simp⟩
  | some c =>
    obtain rfl := hdelta.lookup_eq hinj hchunk hlook
    simp only [if_pos hhash]
    refine ⟨?_, fun _ => List.mem_singleton_self _⟩
    intro e he
    obtain rfl := List.mem_singleton.mp he
    exact ⟨rfl, hchunk, henc⟩

/-- The result of a loop of calls that all return. -/
theorem mapM_spec {α β : Type} {f : α → Except Fault β} {R : α → β → Prop} :
    ∀ l : List α, (∀ a ∈ l, ∃ b, f a = .ok b ∧ R a b) →
      ∃ bs, l.mapM f = .ok bs ∧ (∀ b ∈ bs, ∃ a ∈ l, R a b) ∧ ∀ a ∈ l, ∃ b ∈ bs, R a b
  | [], _ => ⟨[], rfl, by simp, by simp⟩
  | a :: l, h => by
    obtain ⟨b, hb, hR⟩ := h a List.mem_cons_self
    obtain ⟨bs, hbs, hback, hfor⟩ := mapM_spec l fun a' ha' => h a' (List.mem_cons_of_mem _ ha')
    refine ⟨b :: bs, ?_, ?_, ?_⟩
    · rw [List.mapM_cons, hb, ok_bind, hbs, ok_bind]
      rfl
    · intro b' hb'
      rcases List.mem_cons.mp hb' with rfl | hb'
      · exact ⟨a, List.mem_cons_self, hR⟩
      · obtain ⟨a', ha', hR'⟩ := hback b' hb'
        exact ⟨a', List.mem_cons_of_mem _ ha', hR'⟩
    · intro a' ha'
      rcases List.mem_cons.mp ha' with rfl | ha'
      · exact ⟨b, List.mem_cons_self, hR⟩
      · obtain ⟨b', hb', hR'⟩ := hfor a' ha'
        exact ⟨b', List.mem_cons_of_mem _ hb', hR'⟩

/-- The writes for a child that is reached by its hash. -/
theorem commit_ofHash (hinj : Set.InjOn H S) (hdelta : DeltaOk H S delta) (ht : Good H S t)
    (hcov : Covered H know delta t) (hv : isValue t = false) (junk : Bytes) (fuel : ℕ)
    (h : delta.lookup (H (enc H t)) = some (enc H t) →
      ∃ puts, MPTDelta.commit H delta fuel (enc H t) = .ok puts ∧ PutsOk H S puts ∧
        Persists H know puts t) :
    ∃ puts, MPTDelta.commit H delta (fuel + 1) (MPTHashNode.ofHash (H (enc H t)) ++ junk)
        = .ok puts ∧ PutsOk H S puts ∧ Persists H know puts t := by
  rw [MPTDelta.commit, type_ofHash, childHash_ofHash, MPTDelta.getChunk]
  cases hlook : delta.lookup (H (enc H t)) with
  | some c =>
    obtain rfl := hdelta.lookup_eq hinj (ht.chunks.node hv) hlook
    exact h hlook
  | none =>
    have hknown : Known H know t := by
      cases t with
      | nil => exact hcov
      | value v => exact absurd hv (by simp [isValue])
      | short key child => exact hcov.resolve_right fun h => by simp [h.1] at hlook
      | full kids => exact hcov.resolve_right fun h => by simp [h.1] at hlook
    exact ⟨[], rfl, by simp [PutsOk], hknown.persists⟩

theorem PutsOk.append {puts puts' : List (Hash × Bytes)} (h : PutsOk H S puts)
    (h' : PutsOk H S puts') : PutsOk H S (puts ++ puts') := by
  intro e he
  rcases List.mem_append.mp he with he | he
  · exact h e he
  · exact h' e he

/-- A node of a covered tree is in the delta or known. -/
theorem Covered.node (h : Covered H know delta t) (hv : isValue t = false) (hne : t ≠ .nil) :
    know (.hash (H (enc H t))) = some (stored H t) ∨
      delta.lookup (H (enc H t)) = some (enc H t) := by
  cases t with
  | nil => exact absurd rfl hne
  | value v => simp [isValue] at hv
  | short key child => exact h.imp (fun h => h.node hv) fun h => h.1
  | full kids => exact h.imp (fun h => h.node hv) fun h => h.1

/-- The writes for a child of a full node. -/
theorem commitChild_spec (hinj : Set.InjOn H S) (hdelta : DeltaOk H S delta)
    (hnilS : enc H .nil ∈ S) {kids : Fin 17 → Tree} (ht : Good H S (.full kids))
    (hcov : Covered H know delta (.full kids)) (fuel : ℕ) (i : Fin 17)
    (h : delta.lookup (H (enc H (kids i))) = some (enc H (kids i)) →
      ∃ puts, MPTDelta.commit H delta fuel (enc H (kids i)) = .ok puts ∧ PutsOk H S puts ∧
        Persists H know puts (kids i)) :
    ∃ puts, MPTDelta.commitChild H (fun child => MPTDelta.commit H delta (fuel + 1) child)
        (enc H (.full kids)) i = .ok puts ∧ PutsOk H S puts ∧ Persists H know puts (kids i) := by
  obtain ⟨hslots, hslot16⟩ := ht.slots.1 kids rfl
  obtain ⟨c, hc, hlast, hhash⟩ := getChildAtIndex_cases (H := H) kids i
  have hnilPersists : kids i = .nil → Persists H know [] (kids i) := by
    intro hn
    have hk := hcov.kid i
    rw [hn] at hk ⊢
    exact Known.persists hk
  rw [MPTDelta.commitChild, hc, ok_bind, hash_nil]
  by_cases h16 : i = 16
  · have hkind : kind (kids i) ≠ .kMPTHash := by cases kids i <;> simp [kind]
    refine ⟨[], ?_, by simp [PutsOk], ?_⟩
    · rw [hlast h16, type_enc, if_neg fun h => hkind h.1]
      rfl
    · rw [h16] at hnilPersists ⊢
      rcases hslot16 with hn | ⟨v, hn⟩
      · exact hnilPersists hn
      · rw [hn]
        exact fun hv => by simp [isValue] at hv
  · obtain ⟨junk, rfl⟩ := hhash h16
    have hv := hslots i h16
    rw [type_ofHash, childHash_ofHash]
    by_cases hn : H (enc H (kids i)) = H (enc H .nil)
    · -- only the nil node has the hash of the nil node
      have hkind := kind_eq_of_enc_eq (hinj ((ht.kid i).chunks.node hv) hnilS hn)
      have hnil : kids i = .nil := by
        cases hk : kids i <;> rw [hk] at hkind <;> first | rfl | cases hkind
      refine ⟨[], ?_, by simp [PutsOk], hnilPersists hnil⟩
      rw [if_neg fun h => h.2 hn]
      rfl
    · rw [if_pos ⟨rfl, hn⟩]
      exact commit_ofHash hinj hdelta (ht.kid i) (hcov.kid i) hv junk fuel h

/-- **`Commit`** of a covered tree makes all its nodes persistent. -/
theorem commit_spec (hinj : Set.InjOn H S) (hdelta : DeltaOk H S delta) (hnilS : enc H .nil ∈ S)
    (ht : Good H S t) (hcov : Covered H know delta t) {fuel : ℕ}
    (hfuel : 2 * rank H S delta t.height + 2 ≤ fuel) :
    ∃ puts, MPTDelta.commit H delta fuel (enc H t) = .ok puts ∧ PutsOk H S puts ∧
      Persists H know puts t := by
  induction t generalizing fuel with
  | nil =>
    obtain ⟨fuel, rfl⟩ := Nat.exists_eq_add_of_le' (by omega : 1 ≤ fuel)
    refine ⟨[], ?_, by simp [PutsOk], Known.persists hcov⟩
    rw [MPTDelta.commit, type_enc]
    rfl
  | value v =>
    obtain ⟨fuel, rfl⟩ := Nat.exists_eq_add_of_le' (by omega : 1 ≤ fuel)
    refine ⟨[], ?_, by simp [PutsOk], fun hv => by simp [isValue] at hv⟩
    rw [MPTDelta.commit, type_enc]
    rfl
  | short key child ih =>
    obtain ⟨fuel, rfl⟩ := Nat.exists_eq_add_of_le' (by omega : 2 ≤ fuel)
    obtain ⟨hcur, hmem⟩ := commitCurrent_spec hinj hdelta ht hnilS rfl (by simp)
    -- a value is stored in the node, another child is reached by its hash
    obtain ⟨puts, hputs, hok, hpers⟩ : ∃ puts,
        MPTDelta.commit H delta (fuel + 1) (ref H child) = .ok puts ∧ PutsOk H S puts ∧
          Persists H know puts child := by
      unfold ref
      cases hv : isValue child with
      | true =>
        obtain ⟨v, rfl⟩ : ∃ v, child = .value v := by
          cases child <;> first | exact ⟨_, rfl⟩ | cases hv
        refine ⟨[], ?_, by simp [PutsOk], fun hv => by simp [isValue] at hv⟩
        rw [if_pos rfl, MPTDelta.commit, type_enc]
        rfl
      | false =>
        rw [if_neg Bool.false_ne_true]
        have hstep := commit_ofHash hinj hdelta ht.child hcov.child hv [] fuel
          fun hlook => ih ht.child hcov.child (by
            have := rank_lt hinj ht.child (PutLog.mem_of_lookup hlook) rfl
              (show child.height < (RadixTree.short key child).height by
                rw [RadixTree.height]; omega)
            omega)
        rwa [List.append_nil] at hstep
    refine ⟨puts ++ MPTDelta.commitCurrent H delta (enc H (.short key child)), ?_,
      hok.append hcur, ?_, hpers.mono (List.subset_append_left _ _)⟩
    · rw [MPTDelta.commit, type_enc]
      simp only [kind]
      rw [childNode_enc ht.fits.node, hputs]
      rfl
    · intro hv
      exact (hcov.node hv (by simp)).imp_right fun h =>
        ⟨by simp, List.mem_append_right _ (hmem h)⟩
  | full kids ih =>
    obtain ⟨fuel, rfl⟩ := Nat.exists_eq_add_of_le' (by omega : 2 ≤ fuel)
    obtain ⟨hcur, hmem⟩ := commitCurrent_spec hinj hdelta ht hnilS rfl (by simp)
    have hkid : ∀ i ∈ List.range 17, ∃ puts,
        MPTDelta.commitChild H (fun child => MPTDelta.commit H delta (fuel + 1) child)
          (enc H (.full kids)) i = .ok puts ∧
        (PutsOk H S puts ∧ ∀ hi : i < 17, Persists H know puts (kids ⟨i, hi⟩)) := by
      intro i hi
      obtain ⟨puts, hputs, hok, hpers⟩ := commitChild_spec hinj hdelta hnilS ht hcov fuel
        ⟨i, List.mem_range.mp hi⟩ fun hlook => ih _ (ht.kid _) (hcov.kid _) (by
          have := rank_lt hinj (ht.kid _) (PutLog.mem_of_lookup hlook) rfl
            (RadixTree.height_kid_lt kids ⟨i, List.mem_range.mp hi⟩)
          omega)
      exact ⟨puts, hputs, hok, fun _ => hpers⟩
    obtain ⟨putss, hmap, hback, hfor⟩ := mapM_spec _ hkid
    refine ⟨putss.flatten ++ MPTDelta.commitCurrent H delta (enc H (.full kids)), ?_, ?_, ?_, ?_⟩
    · rw [MPTDelta.commit, type_enc]
      simp only [kind]
      rw [hmap]
      rfl
    · refine PutsOk.append ?_ hcur
      intro e he
      obtain ⟨puts, hputs, he⟩ := List.mem_flatten.mp he
      obtain ⟨i, -, hok, -⟩ := hback puts hputs
      exact hok e he
    · intro hv
      exact (hcov.node hv (by simp)).imp_right fun h =>
        ⟨by simp, List.mem_append_right _ (hmem h)⟩
    · intro i
      obtain ⟨puts, hputs, -, hpers⟩ := hfor i (List.mem_range.mpr i.isLt)
      exact (hpers i.isLt).mono fun e he =>
        List.mem_append_left _ (List.mem_flatten.mpr ⟨puts, hputs, he⟩)

end

end LedgerDatabase.Ledgerdb.Mpt
