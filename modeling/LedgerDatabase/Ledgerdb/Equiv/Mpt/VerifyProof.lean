import LedgerDatabase.Ledgerdb.Equiv.Mpt.History

/-!
# What an accepted `MPTProof` shows

`passes t map`: the chunks `map` of a proof are followed through the trie `t` from its root, and the
values on the way are collected.  Without collisions, `VerifyProof` accepts a proof with a
non-empty value exactly when all values passed are that value (`verifyLoop_eq_true_iff`).  It never
compares the path with the key, and a path need not pass a value at all.

`verifyProof_sound_iff`: so an accepted proof shows what the trie holds under the key only for some
paths (`Conclusive`), and an empty proof shows nothing (`verifyProof_empty_accepted`).
-/

namespace LedgerDatabase.Ledgerdb.Mpt

open Chunk

/-! ### Proofs -/

/-- A proof as it is put together: `SetValue`, and `AppendProof` for every part. -/
def proofOf (value : Bytes) (parts : List (Bytes × ℕ)) : MPTProof :=
  parts.foldl (fun proof part => proof.appendProof part.1 part.2) { value := value }

theorem foldl_appendProof : ∀ (parts : List (Bytes × ℕ)) (proof : MPTProof),
    parts.foldl (fun proof part => proof.appendProof part.1 part.2) proof
      = { proof with map := proof.map ++ parts.map fun part => (bytes part.1, part.2) }
  | [], proof => by rw [List.foldl_nil, List.map_nil, List.append_nil]
  | part :: parts, proof => by
    rw [List.foldl_cons, foldl_appendProof parts, MPTProof.appendProof, List.map_cons,
      List.append_assoc, List.singleton_append]

theorem proofOf_eq (value : Bytes) (parts : List (Bytes × ℕ)) :
    proofOf value parts = ⟨value, parts.map fun part => (bytes part.1, part.2)⟩ := by
  rw [proofOf, foldl_appendProof]
  rfl

/-! ### Paths through a trie -/

/-- The value that stands in slot 16. -/
def slotValue : Tree → Bytes
  | .value w => w
  | _ => []

/-- Where a node leads to in `VerifyProof`, and the value that is checked there.  After a value the
loop expects the same node again. -/
def leads : Tree → ℕ → Option (Tree × Option Bytes)
  | .short key (.value w), _ => some (.short key (.value w), some w)
  | .short _ child, _ => some (child, none)
  | .full kids, pos =>
    if h : pos < 17 then
      if pos = 16 then some (.full kids, some (slotValue (kids 16)))
      else some (kids ⟨pos, h⟩, none)
    else none
  | _, _ => none

/-- The values that a path checks, from the node `t` on; `none` when it leaves the trie. -/
def passes (H : Bytes → Hash) (t : Tree) : List (Bytes × ℕ) → Option (List Bytes)
  | [] => some []
  | (chunk, pos) :: map =>
    if chunk = enc H t then
      match leads t pos with
      | none => none
      | some (t', w) => (passes H t' map).map (w.toList ++ ·)
    else none

/-- A path that shows what the key holds, whatever value comes with it: it leaves the trie, or it
checks a value that is the one of the key, or empty, or different from another. -/
def Conclusive (H : Bytes → Hash) (t : Tree) (m : Bytes → Option Bytes) (map : List (Bytes × ℕ))
    (key : Bytes) : Prop :=
  ∀ ws, passes H t map = some ws → ∃ w ∈ ws, m key = some w ∨ w = [] ∨ ∃ w' ∈ ws, w' ≠ w

/-- Two byte strings with the same hash. -/
def Collision (H : Bytes → Hash) (S : List Bytes) : Prop :=
  ∃ c ∈ S, ∃ c' ∈ S, c ≠ c' ∧ H c = H c'

theorem injOn_of_not_collision {H : Bytes → Hash} {S : List Bytes} (h : ¬ Collision H S) :
    Set.InjOn H {c | c ∈ S} := by
  intro c hc c' hc' heq
  by_contra hne
  exact h ⟨c, hc, c', hc', hne, heq⟩

section

variable {H : Bytes → Hash} {S : Set Bytes} {t : Tree}

/-! ### One round -/

/-- What a node leads to is again a node of the trie. -/
theorem Good.leads {t' : Tree} {w : Option Bytes} {pos : ℕ} (h : Good H S t)
    (hv : isValue t = false) (hleads : leads t pos = some (t', w)) :
    Good H S t' ∧ isValue t' = false := by
  cases t with
  | nil => cases hleads
  | value v => cases hleads
  | short key child =>
    cases child with
    | value v =>
      obtain ⟨rfl, -⟩ := Prod.mk.inj (Option.some.inj hleads)
      exact ⟨h, rfl⟩
    | _ =>
      obtain ⟨rfl, -⟩ := Prod.mk.inj (Option.some.inj hleads)
      exact ⟨h.child, rfl⟩
  | full kids =>
    rw [Mpt.leads] at hleads
    split_ifs at hleads with hpos hlast
    · obtain ⟨rfl, -⟩ := Prod.mk.inj (Option.some.inj hleads)
      exact ⟨h, rfl⟩
    · obtain ⟨rfl, -⟩ := Prod.mk.inj (Option.some.inj hleads)
      refine ⟨h.kid _, (h.slots.1 kids rfl).1 _ fun heq => hlast ?_⟩
      exact congrArg Fin.val heq

theorem exists_value_of_isValue (h : isValue t) : ∃ w, t = .value w := by
  cases t with
  | value w => exact ⟨w, rfl⟩
  | _ => cases h

theorem leads_short {key : List (Fin 17)} {pos : ℕ} (h : isValue t = false) :
    leads (.short key t) pos = some (t, none) := by
  cases t with
  | value w => cases h
  | _ => rfl

theorem getVal_slot {s : Tree} (hfits : nodeSize s < 2 ^ 32) (h : s = .nil ∨ ∃ v, s = .value v) :
    MPTValueNode.getVal (enc H s) = .ok (slotValue s) := by
  rcases h with rfl | ⟨v, rfl⟩
  · rfl
  · exact getVal_enc hfits

/-- The hash of a node is that of its chunk. -/
theorem Good.not_ne_hash (h : Good H S t) : ¬ H (enc H t) ≠ Chunk.hash H (enc H t) := by
  rw [hash_enc h.fits.node]
  exact fun hne => hne rfl

/-- A branch is left through the recorded child, and at the last one its value is checked. -/
theorem verifyStep_full (value : Bytes) {kids : Fin 17 → Tree} (h : Good H S (.full kids))
    (key : Bytes) (i : Fin 17) (pos : ℕ) :
    MPTProof.verifyStep H value key (enc H (.full kids)) i pos (H (enc H (.full kids))) =
      .ok (if i = 16 then
          if slotValue (kids 16) = value then some (pos + 1, H (enc H (.full kids))) else none
        else some (pos + 1, H (enc H (kids i)))) := by
  rw [MPTProof.verifyStep, if_neg h.not_ne_hash, type_enc,
    if_pos (show kind (.full kids) = .kMPTFull from rfl)]
  obtain ⟨c, hc, hlast, hother⟩ := getChildAtIndex_cases (H := H) kids i
  simp only [hc, ok_bind]
  by_cases hi : i = 16
  · subst hi
    have hval := getVal_slot (H := H) (h.kid 16).fits.node (h.slots.1 kids rfl).2
    rw [if_pos (show ((16 : Fin 17) : ℕ) = 16 from rfl), if_pos rfl, hlast rfl]
    simp only [hval, ok_bind]
    by_cases heq : slotValue (kids 16) = value
    · rw [if_neg (not_not.mpr heq), if_pos heq]
      rfl
    · rw [if_pos heq, if_neg heq]
      rfl
  · obtain ⟨junk, rfl⟩ := hother hi
    have hval : ¬ (i : ℕ) = 16 := fun heq => hi (Fin.ext heq)
    rw [if_neg hval, if_neg hi, childHash_ofHash]
    rfl

/-- **One round of `VerifyProof`** on a node of the trie. -/
theorem verifyStep_enc {value : Bytes} (hvalue : value ≠ []) (h : Good H S t)
    (hv : isValue t = false) (key : Bytes) (mapPos pos : ℕ) :
    match leads t mapPos with
    | none => ∃ e, MPTProof.verifyStep H value key (enc H t) mapPos pos (H (enc H t)) = .error e
    | some (t', w) => ∃ pos', MPTProof.verifyStep H value key (enc H t) mapPos pos (H (enc H t))
        = .ok (if ∀ w' ∈ w, w' = value then some (pos', H (enc H t')) else none) := by
  cases t with
  | nil =>
    -- the nil chunk is read as a short node
    rw [MPTProof.verifyStep, if_neg h.not_ne_hash, type_enc, if_neg (by decide), if_pos hvalue]
    exact ⟨.outOfRange, rfl⟩
  | value v => cases hv
  | short key' child =>
    rw [MPTProof.verifyStep, if_neg h.not_ne_hash, type_enc, if_neg (by simp [kind]), if_pos hvalue,
      childNode_enc h.fits.node]
    by_cases hchild : isValue child
    · obtain ⟨w, rfl⟩ := exists_value_of_isValue hchild
      refine ⟨pos + (MPTShortNode.getKey (enc H (.short key' (.value w)))).length, ?_⟩
      have hval : MPTValueNode.getVal (ref H (.value w)) = .ok w :=
        getVal_slot (H := H) h.child.fits.node (Or.inr ⟨w, rfl⟩)
      have htype : ¬ type (ref H (.value w)) = .kMPTHash := by
        show ¬ type (enc H (.value w)) = .kMPTHash
        rw [type_enc]
        simp [kind]
      simp only [if_neg htype, hval, ok_bind]
      by_cases heq : w = value
      · rw [if_neg (not_not.mpr heq), if_pos (by simpa using heq)]
        rfl
      · rw [if_pos heq, if_neg (by simpa using heq)]
        rfl
    · rw [Bool.not_eq_true] at hchild
      have htype := type_ofHash (H (enc H child)) []
      have hnext := childHash_ofHash (H (enc H child)) []
      rw [List.append_nil] at htype hnext
      rw [leads_short hchild, ref, hchild, if_neg Bool.false_ne_true]
      refine ⟨pos + (MPTShortNode.getKey (enc H (.short key' child))).length, ?_⟩
      simp only [htype, hnext, if_true]
      rw [if_pos (by simp)]
      rfl
  | full kids =>
    have hfull (i : Fin 17) := verifyStep_full value h key i pos
    rw [Mpt.leads]
    by_cases hpos : mapPos < 17
    · rw [dif_pos hpos]
      by_cases h16 : mapPos = 16
      · rw [if_pos h16]
        refine ⟨pos + 1, (hfull ⟨mapPos, hpos⟩).trans ?_⟩
        rw [if_pos (Fin.ext h16)]
        simp
      · rw [if_neg h16]
        refine ⟨pos + 1, (hfull ⟨mapPos, hpos⟩).trans ?_⟩
        rw [if_neg fun heq => h16 (congrArg Fin.val heq)]
        simp
    · rw [dif_neg hpos]
      refine ⟨.outOfRange, ?_⟩
      rw [MPTProof.verifyStep, if_neg h.not_ne_hash, type_enc,
        if_pos (show kind (.full kids) = .kMPTFull from rfl), MPTFullNode.getChildAtIndex,
        if_neg hpos, error_bind]

/-- **The loop of `VerifyProof`** with a value. -/
theorem verifyLoop_eq_true_iff (hinj : Set.InjOn H S) {value : Bytes} (hvalue : value ≠ [])
    (key : Bytes) : ∀ (map : List (Bytes × ℕ)) (t : Tree) (pos : ℕ), Good H S t →
    isValue t = false → (∀ e ∈ map, bytes e.1 = e.1 ∧ e.1 ∈ S) →
    (MPTProof.verifyLoop H value key map pos (H (enc H t)) = .ok true ↔
      ∃ ws, passes H t map = some ws ∧ ∀ w ∈ ws, w = value)
  | [], t, pos, _, _, _ => by
    rw [MPTProof.verifyLoop, passes]
    exact ⟨fun _ => ⟨[], rfl, by simp⟩, fun _ => rfl⟩
  | (chunk, mapPos) :: map, t, pos, h, hv, hmap => by
    obtain ⟨hbytes, hmem⟩ := hmap (chunk, mapPos) List.mem_cons_self
    rw [MPTProof.verifyLoop, passes]
    by_cases heq : chunk = enc H t
    · subst heq
      have hstep := verifyStep_enc hvalue h hv key mapPos pos
      rw [if_pos rfl]
      rcases hleads : leads t mapPos with _ | ⟨t', w⟩
      · rw [hleads] at hstep
        obtain ⟨e, he⟩ := hstep
        rw [he, error_bind]
        simp
      · rw [hleads] at hstep
        obtain ⟨pos', hpos'⟩ := hstep
        rw [hpos', ok_bind]
        have hnext := h.leads hv hleads
        have ih := verifyLoop_eq_true_iff hinj hvalue key map t' pos' hnext.1 hnext.2
          fun e he => hmap e (List.mem_cons_of_mem _ he)
        -- the values passed here and those passed later
        have hws : ∀ ws : List Bytes, (∀ w' ∈ w.toList ++ ws, w' = value) ↔
            (∀ w' ∈ w, w' = value) ∧ ∀ w' ∈ ws, w' = value := by
          intro ws
          rw [List.forall_mem_append]
          simp only [Option.mem_toList, Option.mem_def]
        by_cases hw : ∀ w' ∈ w, w' = value
        · rw [if_pos hw]
          simp only [ih, Option.map_eq_some_iff]
          constructor
          · rintro ⟨ws, hpasses, hall⟩
            exact ⟨_, ⟨ws, hpasses, rfl⟩, (hws ws).mpr ⟨hw, hall⟩⟩
          · rintro ⟨_, ⟨ws, hpasses, rfl⟩, hall⟩
            exact ⟨ws, hpasses, ((hws ws).mp hall).2⟩
        · rw [if_neg hw]
          simp only [Option.map_eq_some_iff]
          constructor
          · intro hfalse
            cases hfalse
          · rintro ⟨_, ⟨ws, -, rfl⟩, hall⟩
            exact absurd ((hws ws).mp hall).1 hw
    · -- another chunk has another hash
      have hne : H (enc H t) ≠ Chunk.hash H chunk := by
        rw [Chunk.hash, hbytes]
        exact fun hhash => heq (hinj hmem (h.chunks.node hv) hhash.symm)
      rw [if_neg heq, MPTProof.verifyStep, if_pos hne]
      constructor
      · intro hfalse
        cases hfalse
      · rintro ⟨ws, hnone, -⟩
        cases hnone

theorem Good.mono {S' : Set Bytes} (h : Good H S t) (hsub : S ⊆ S') : Good H S' t :=
  ⟨h.fits, RadixTree.All.imp (fun _ hc hv => hsub (hc hv)) h.chunks, h.slots⟩

/-- All values passed are `value`, for every `value`: when does the key hold it? -/
theorem forall_eq_imp_iff {m : Bytes → Option Bytes} {key : Bytes} (ws : List Bytes) :
    (∀ value, value ≠ [] → (∀ w ∈ ws, w = value) → m key = some value) ↔
      ∃ w ∈ ws, m key = some w ∨ w = [] ∨ ∃ w' ∈ ws, w' ≠ w := by
  constructor
  · intro h
    by_contra hno
    push Not at hno
    cases ws with
    | nil =>
      -- nothing was checked, so any two values are accepted
      have h0 := h [0] (by simp) (by simp)
      have h1 := h [1] (by simp) (by simp)
      rw [h0] at h1
      simp at h1
    | cons w ws =>
      obtain ⟨hm, hne, hall⟩ := hno w List.mem_cons_self
      exact hm (h w hne hall)
  · rintro ⟨w, hw, hcase⟩ value hvalue hall
    rcases hcase with hm | hnil | ⟨w', hw', hne⟩
    · rw [hm, hall w hw]
    · exact absurd ((hall w hw).symm.trans hnil) hvalue
    · exact absurd ((hall w' hw').trans (hall w hw).symm) hne

end

/-! ### Soundness -/

/-- The chunks of a proof and of the history of a trie. -/
def exhibited (H : Bytes → Hash) (hist : List Call) (parts : List (Bytes × ℕ)) : List Bytes :=
  (parts.map fun part => bytes part.1) ++ historyChunks H hist

/-- Version `i` of a history: its root hash, its tree and the map that it holds. -/
structure IsVersion (hist : List Call) (roots : List Hash) (i : ℕ) (root : Hash) (t : Tree)
    (m : Bytes → Option Bytes) : Prop where
  root : roots[i]? = some root
  tree : (versionsFrom hist [.nil])[i]? = some t
  map : (maps hist)[i]? = some m

/-- **When an accepted proof is right**: for a version of any history, any parts of a proof and any
key, every value accepted with the proof is the one under the key, or a collision is exhibited, if
and only if the path is conclusive or a collision is exhibited. -/
theorem verifyProof_sound_iff (H : Bytes → Hash) (hist : List Call) (hbased : Based 1 hist)
    (hascii : ∀ c ∈ hist, ∀ k ∈ c.op.keys, Ascii k) {roots : List Hash} {db : DB}
    (hrun : run H hist = .ok (roots, db)) {i : ℕ} {root : Hash} {t : Tree}
    {m : Bytes → Option Bytes} (hversion : IsVersion hist roots i root t m)
    (parts : List (Bytes × ℕ)) (key : Bytes) :
    (∀ value, value ≠ [] → (proofOf value parts).verifyProof H root key = .ok true →
        m key = some value ∨ Collision H (exhibited H hist parts)) ↔
      Conclusive H t m (parts.map fun part => (bytes part.1, part.2)) key ∨
        Collision H (exhibited H hist parts) := by
  obtain ⟨hroot, ht, -⟩ := hversion
  by_cases hcol : Collision H (exhibited H hist parts)
  · exact ⟨fun _ => Or.inr hcol, fun _ _ _ _ => Or.inr hcol⟩
  have hinj := injOn_of_not_collision hcol
  have hsub : {c | c ∈ historyChunks H hist} ⊆ {c | c ∈ exhibited H hist parts} :=
    fun c hc => List.mem_append_right _ hc
  rcases run_spec H hist hbased hascii (hinj.mono hsub) with ⟨herr, -⟩ | ⟨db', hrun', hvs⟩
  · rw [hrun] at herr
    cases herr
  rw [hrun] at hrun'
  obtain ⟨rfl, -⟩ := Prod.mk.inj (Except.ok.inj hrun')
  rw [List.getElem?_map, ht, Option.map_some, Option.some_inj] at hroot
  subst hroot
  have hstored := hvs.stored t (List.mem_of_getElem? ht)
  have hparts : ∀ e ∈ parts.map (fun part => (bytes part.1, part.2)),
      bytes e.1 = e.1 ∧ e.1 ∈ {c | c ∈ exhibited H hist parts} := by
    intro e he
    obtain ⟨part, hpart, rfl⟩ := List.mem_map.mp he
    exact ⟨bytes_bytes part.1, List.mem_append_left _ (List.mem_map_of_mem hpart)⟩
  have haccept : ∀ value, value ≠ [] →
      ((proofOf value parts).verifyProof H (H (enc H t)) key = .ok true ↔
        ∃ ws, passes H t (parts.map fun part => (bytes part.1, part.2)) = some ws ∧
          ∀ w ∈ ws, w = value) := by
    intro value hvalue
    rw [proofOf_eq]
    exact verifyLoop_eq_true_iff hinj hvalue key _ t 0 (hstored.good.mono hsub)
      (isValue_of_wf hstored.wf) hparts
  simp only [hcol, or_false]
  constructor
  · intro h ws hws
    rw [← forall_eq_imp_iff ws]
    exact fun value hvalue hall => h value hvalue ((haccept value hvalue).mpr ⟨ws, hws, hall⟩)
  · intro h value hvalue hverify
    obtain ⟨ws, hws, hall⟩ := (haccept value hvalue).mp hverify
    exact (forall_eq_imp_iff ws).mpr (h ws hws) value hvalue hall

/-- The key `a` is set to `x`. -/
def setA : List Call := [⟨0, .set (str "a") (str "x")⟩]

/-- The node of the trie that holds `x` under `a`. -/
def chunkA : Bytes :=
  [26, 0, 0, 0, 1, 1, 0, 0, 0, 0, 0, 0, 0, 3, 0, 0, 0, 6, 1, 16, 6, 0, 0, 0, 3, 120]

theorem based_setA : Based 1 setA := by simp [setA, Based]

theorem ascii_setA : ∀ c ∈ setA, ∀ k ∈ c.op.keys, Ascii k := by
  have h : ∀ c ∈ setA, ∀ k ∈ c.op.keys, ∀ b ∈ k, b.toNat < 128 := by decide +kernel
  exact h

theorem not_collision_setA (parts : List (Bytes × ℕ)) (hparts : ∀ part ∈ parts, part.1 = chunkA) :
    ¬ Collision hashXY (exhibited hashXY setA parts) := by
  have hsub : ∀ c ∈ exhibited hashXY setA parts, c ∈ chunkA :: historyChunks hashXY setA := by
    intro c hc
    rcases List.mem_append.mp hc with hc | hc
    · obtain ⟨part, hpart, rfl⟩ := List.mem_map.mp hc
      rw [hparts part hpart]
      exact List.mem_cons_self
    · exact List.mem_cons_of_mem _ hc
  have hinj : ∀ c ∈ chunkA :: historyChunks hashXY setA,
      ∀ c' ∈ chunkA :: historyChunks hashXY setA, hashXY c = hashXY c' → c = c' := by
    decide +kernel
  rintro ⟨c, hc, c', hc', hne, heq⟩
  exact hne (hinj c (hsub c hc) c' (hsub c' hc') heq)

/-- The only call of `setA` returns. -/
theorem run_setA : ∃ roots db root, run hashXY setA = .ok (roots, db) ∧
    IsVersion setA roots 1 root (.short (hexKey (str "a")) (.value (str "x")))
      (Function.update (fun _ => none) (str "a") (some (str "x"))) := by
  have hinj := injOn_of_not_collision (not_collision_setA [] (by simp))
  rcases run_spec hashXY setA based_setA ascii_setA hinj with ⟨-, hbig⟩ | ⟨db, hrun, -⟩
  · exact absurd (by simp [Small, setA, Op.keys, Op.vals, str]) hbig
  · exact ⟨_, db, _, hrun, rfl, rfl, rfl⟩

/-- The proof that `GetProof` returns for `a` is conclusive. -/
theorem verifyProof_sound_iff_setA : ∃ roots db root m, run hashXY setA = .ok (roots, db) ∧
    IsVersion setA roots 1 root (.short (hexKey (str "a")) (.value (str "x"))) m ∧
    ∀ value, value ≠ [] →
      (proofOf value [(chunkA, 0)]).verifyProof hashXY root (str "a") = .ok true →
      m (str "a") = some value ∨ Collision hashXY (exhibited hashXY setA [(chunkA, 0)]) := by
  obtain ⟨roots, db, root, hrun, hversion⟩ := run_setA
  refine ⟨roots, db, root, _, hrun, hversion, ?_⟩
  apply (verifyProof_sound_iff hashXY setA based_setA ascii_setA hrun hversion [(chunkA, 0)]
    (str "a")).mpr
  refine Or.inl fun ws hws => ⟨str "x", ?_, Or.inl rfl⟩
  have hpasses : passes hashXY (.short (hexKey (str "a")) (.value (str "x")))
      [(bytes chunkA, 0)] = some [str "x"] := by decide +kernel
  rw [List.map_singleton, hpasses, Option.some_inj] at hws
  rw [← hws]
  exact List.mem_singleton_self _

/-- An empty proof of `z` is accepted for a key that holds `x`. -/
theorem verifyProof_empty_accepted : ∃ roots db root t m, run hashXY setA = .ok (roots, db) ∧
    IsVersion setA roots 1 root t m ∧ str "z" ≠ [] ∧
    (proofOf (str "z") []).verifyProof hashXY root (str "a") = .ok true ∧
    ¬ (m (str "a") = some (str "z") ∨ Collision hashXY (exhibited hashXY setA [])) := by
  obtain ⟨roots, db, root, hrun, hversion⟩ := run_setA
  refine ⟨roots, db, root, _, _, hrun, hversion, by decide, rfl, ?_⟩
  rintro (hm | hcol)
  · rw [Function.update_self, Option.some_inj] at hm
    exact absurd hm (by decide)
  · exact not_collision_setA [] (by simp) hcol

end LedgerDatabase.Ledgerdb.Mpt
