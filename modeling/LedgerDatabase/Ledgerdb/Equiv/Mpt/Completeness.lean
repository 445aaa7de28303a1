import LedgerDatabase.Ledgerdb.Equiv.Mpt.Proof

/-!
# Which proofs are accepted

A key with a value gets a proof that is accepted (`getProof_present`).  For a key without one,
`GetProof` returns the empty value, and then `VerifyProof` handles short nodes in another way: it
compares their nibbles with the bytes of the key, rejects the proof when they differ, and goes on
neither in the key nor to the next hash when they do not.  So the proof is accepted when the path
meets branches only, and in few other cases (`getProof_absent_iff`).
-/

namespace LedgerDatabase.Ledgerdb.Mpt

open Chunk

/-- `GetProof` of a trie that is opened at a root. -/
def proofAt (H : Bytes → Hash) (root : Hash) (key : Bytes) : Reads MPTProof := do
  let node ← Trie.setNodeForHash H root
  Trie.getProof node key

/-- The path `k` below a node shows that the key has no value: it meets branches up to an empty
child, or the first short node on it is not on the way and has nibbles that are the bytes of the key
at this depth. -/
def ShowsAbsence : Tree → (k : List (Fin 17)) → (key : Bytes) → (pos : ℕ) → Prop
  | .nil, _, _, _ => True
  | .value _, _, _, _ => False
  | .short skey _, k, key, pos => ¬ skey <+: k ∧ pos ≤ key.length ∧ nibbles skey <+: key.drop pos
  | .full _, [], _, _ => False
  | .full kids, i :: k, key, pos => ShowsAbsence (kids i) k key (pos + 1)

section

variable {H : Bytes → Hash} {S : Set Bytes} {P : Set (List (Fin 17))} {Q : Bytes → Prop} {t : Tree}
  {m : Bytes → Option Bytes}

/-! ### Keys with a value -/

theorem Op.ascii_update {op : Op} (hkeys : ∀ k ∈ op.keys, Ascii k)
    (h : ∀ k, m k ≠ none → Ascii k) : ∀ k, op.update m k ≠ none → Ascii k := by
  have hset (m : Bytes → Option Bytes) (h : ∀ k, m k ≠ none → Ascii k) (key : Bytes)
      (hkey : Ascii key) (v : Option Bytes) : ∀ k, Function.update m key v k ≠ none → Ascii k := by
    intro k hk
    by_cases heq : k = key
    · rwa [heq]
    · rw [Function.update_of_ne heq] at hk
      exact h k hk
  cases op with
  | get key => exact h
  | set key val => exact hset m h key (hkeys key (List.mem_singleton_self _)) _
  | remove key => exact hset m h key (hkeys key (List.mem_singleton_self _)) _
  | setBatch kvs =>
    simp only [update]
    induction kvs generalizing m with
    | nil => exact h
    | cons e kvs ih =>
      apply ih
      · exact hset m h e.1 (hkeys e.1 List.mem_cons_self) _
      · exact fun k hk => hkeys k (List.mem_cons_of_mem _ hk)

/-- The versions of a history hold keys of the history. -/
theorem ascii_mapsFrom : ∀ (hist : List Call) (ms : List (Bytes → Option Bytes)),
    (∀ c ∈ hist, ∀ k ∈ c.op.keys, Ascii k) → (∀ m ∈ ms, ∀ k, m k ≠ none → Ascii k) →
    ∀ m ∈ mapsFrom hist ms, ∀ k, m k ≠ none → Ascii k
  | [], _, _, h => h
  | c :: hist, ms, hascii, h => by
    apply ascii_mapsFrom hist _ fun c hc => hascii c (List.mem_cons_of_mem _ hc)
    intro m hm
    rcases List.mem_append.mp hm with hm | hm
    · exact h m hm
    · rw [List.mem_singleton.mp hm]
      apply c.op.ascii_update (hascii c List.mem_cons_self)
      rw [List.getD_eq_getElem?_getD]
      cases hget : ms[c.base]? with
      | none => exact fun k hk => absurd rfl hk
      | some m => exact h m (List.mem_of_getElem? hget)

/-- **`GetProof`** on a stored version. -/
theorem Stored.proofAt {db : DB} (hinj : Set.InjOn H S) (hok : StoreOk H S db)
    (hnilS : enc H .nil ∈ S) (h : Stored H S db t) {key : Bytes} (hkey : Ascii key) :
    (db.reads (Mpt.proofAt H (H (enc H t)) key)).1
      = .ok ⟨(t.get (hexKey key)).getD [], pathOf H t (hexKey key)⟩ := by
  apply (hok.reads_of_runIn hinj _).1
  have hver := h.version hok hnilS
  rw [Mpt.proofAt, Ask.runIn_bind_ok _ _ (hver.open_runIn hinj hnilS)]
  exact getProof_runIn hver.wf hver.good.fits hver.known hkey

/-! ### Keys without a value -/

/-- A short node when the value is empty. -/
theorem verifyStep_short_nil {skey : List (Fin 17)} {child : Tree}
    (h : Good H S (.short skey child)) (key : Bytes) (mapPos pos : ℕ) :
    MPTProof.verifyStep H [] key (enc H (.short skey child)) mapPos pos
        (H (enc H (.short skey child))) =
      if key.length < pos then .error .outOfRange
      else .ok (if nibbles skey <+: key.drop pos then some (pos, H (enc H (.short skey child)))
        else none) := by
  have htype : ¬ kind (.short skey child) = .kMPTFull := by simp [kind]
  rw [MPTProof.verifyStep, if_neg h.not_ne_hash, type_enc, if_neg htype, if_neg (not_not.mpr rfl),
    getKey_enc h.fits.node, substrFrom]
  have hiff : MPTConfig.prefixLen (key.drop pos) (nibbles skey) = (nibbles skey).length ↔
      nibbles skey <+: key.drop pos := RadixTree.prefixLen_eq_length_iff _ _
  split_ifs with hlen hpre
  · rfl
  · simp only [ok_bind]
    rw [if_neg (not_not.mpr (hiff.mpr hpre))]
    rfl
  · simp only [ok_bind]
    rw [if_pos fun heq => hpre (hiff.mp heq)]
    rfl

/-- After a short node the verifier expects it again, and rejects the next branch. -/
theorem verifyLoop_child (hinj : Set.InjOn H S) {skey : List (Fin 17)} {kids : Fin 17 → Tree}
    (h : Good H S (.short skey (.full kids))) (key : Bytes) (pos : ℕ) (i : ℕ)
    (map : List (Bytes × ℕ)) :
    MPTProof.verifyLoop H [] key ((enc H (.full kids), i) :: map) pos
      (H (enc H (.short skey (.full kids)))) = .ok false := by
  have hne : H (enc H (.short skey (.full kids))) ≠ Chunk.hash H (enc H (.full kids)) := by
    rw [hash_enc h.child.fits.node]
    intro heq
    have henc := hinj (h.chunks.node rfl) (h.child.chunks.node rfl) heq
    have hkind := congrArg type henc
    rw [type_enc, type_enc] at hkind
    cases hkind
  rw [MPTProof.verifyLoop, MPTProof.verifyStep, if_pos hne]
  rfl

/-- **The proof of a key that is not there** is accepted exactly if its path shows that. -/
theorem verifyLoop_pathOf_iff (hinj : Set.InjOn H S) (hP : IsAntichain (· <+: ·) P) (hT : Tails P)
    (hwf : t.WF Q P) (hgood : Good H S t) (hv : isValue t = false) {k : List (Fin 17)} (hk : k ∈ P)
    (hget : t.get k = none) (key : Bytes) (pos : ℕ) :
    MPTProof.verifyLoop H [] key (pathOf H t k) pos (H (enc H t)) = .ok true ↔
      ShowsAbsence t k key pos := by
  induction t generalizing P k pos with
  | nil => exact iff_of_true rfl trivial
  | value w => cases hv
  | short skey child ih =>
    obtain ⟨hne, hnil, hex, hclosed, hchild⟩ := hwf
    rw [pathOf, MPTProof.verifyLoop, verifyStep_short_nil hgood, ShowsAbsence]
    by_cases hlen : key.length < pos
    · rw [if_pos hlen, error_bind]
      exact iff_of_false (by simp) fun hshows => absurd hlen (not_lt.mpr hshows.2.1)
    · rw [if_neg hlen, ok_bind]
      by_cases hpre : nibbles skey <+: key.drop pos
      · rw [if_pos hpre]
        by_cases hon : skey <+: k
        · -- the short node is passed, and the branch below it is rejected
          rw [if_pos hon]
          refine iff_of_false ?_ fun hshows => hshows.1 hon
          rw [RadixTree.get, if_pos hon] at hget
          cases child with
          | full kids =>
            obtain ⟨i, k', hk'⟩ : ∃ i k', k.drop skey.length = i :: k' := by
              cases hd : k.drop skey.length with
              | nil =>
                have hmem := RadixTree.drop_mem_after hk hon
                rw [hd] at hmem
                exact absurd hmem hchild.1
              | cons i k' => exact ⟨i, k', rfl⟩
            simp only [hk', pathOf]
            rw [verifyLoop_child hinj hgood]
            simp
          | value w => cases hget
          | nil => cases hclosed
          | short skey' child' => cases hclosed
        · rw [if_neg hon]
          exact iff_of_true rfl ⟨hon, not_lt.mp hlen, hpre⟩
      · rw [if_neg hpre]
        exact iff_of_false (by simp [pure, Except.pure]) fun hshows => hpre hshows.2.2
  | full kids ih =>
    have hwf' := hwf
    obtain ⟨hnil, hex, hkids⟩ := hwf
    obtain ⟨i, k, rfl⟩ : ∃ i k', k = i :: k' := by
      cases k with
      | nil => exact absurd hk hnil
      | cons i k => exact ⟨i, k, rfl⟩
    rw [RadixTree.get] at hget
    rw [pathOf, MPTProof.verifyLoop, verifyStep_full [] hgood, ok_bind, ShowsAbsence]
    by_cases hi : i = 16
    · subst hi
      rcases kid_last hT hwf' with hkid | ⟨w, hkid⟩
      · rw [if_pos rfl, hkid, if_pos (show slotValue .nil = [] from rfl)]
        exact iff_of_true rfl trivial
      · rw [hkid] at hget
        cases hget
    · rw [if_neg hi]
      exact ih i (RadixTree.antichain_after hP _) (hT.after _) (hkids i) (hgood.kid i)
        (isValue_kid hT hwf' hi) hk hget (pos + 1)

/-- The proof of a key that holds nothing, on a stored version. -/
theorem Stored.absent_iff {db : DB} (hinj : Set.InjOn H S) (hok : StoreOk H S db)
    (hnilS : enc H .nil ∈ S) (h : Stored H S db t) {key : Bytes} (hkey : Ascii key)
    (hget : t.get (hexKey key) = none) :
    (∃ p, (db.reads (Mpt.proofAt H (H (enc H t)) key)).1 = .ok p ∧ p.value = [] ∧
        p.verifyProof H (H (enc H t)) key = .ok true) ↔
      ShowsAbsence t (hexKey key) key 0 := by
  have hproof := h.proofAt hinj hok hnilS hkey
  rw [hget] at hproof
  rw [← verifyLoop_pathOf_iff hinj antichain_terminated tails_terminated h.wf h.good
    (isValue_of_wf h.wf) (hexKey_mem_terminated hkey) hget key 0, hproof]
  constructor
  · rintro ⟨p, hp, -, hverify⟩
    obtain rfl := Except.ok.inj hp
    exact hverify
  · exact fun hverify => ⟨_, rfl, rfl, hverify⟩

end

/-! ### Histories -/

/-- What a version holds is what its tree holds. -/
theorem Versions.get_eq {H : Bytes → Hash} {S : Set Bytes} {db : DB} {ts : List Tree}
    {ms : List (Bytes → Option Bytes)} (h : Versions H S db ts ms) {i : ℕ} {t : Tree}
    {m : Bytes → Option Bytes} (ht : ts[i]? = some t) (hm : ms[i]? = some m) {key : Bytes}
    (hkey : Ascii key) : t.get (hexKey key) = m key := by
  obtain ⟨hi, rfl⟩ := List.getElem?_eq_some_iff.mp ht
  obtain ⟨hi', rfl⟩ := List.getElem?_eq_some_iff.mp hm
  exact (List.forall₂_iff_get.mp h.holds).2 i hi hi' key hkey

/-- **Keys with a value get accepted proofs**: after any history, for every version and every key
that holds a value that is not empty, `GetProof` returns the value, and `VerifyProof` accepts. -/
theorem getProof_present (H : Bytes → Hash) (hist : List Call) (hbased : Based 1 hist)
    (hascii : ∀ c ∈ hist, ∀ k ∈ c.op.keys, Ascii k)
    (hinj : Set.InjOn H {c | c ∈ historyChunks H hist}) :
    (run H hist = .error .oversize ∧ ¬ Small hist) ∨
      ∃ roots db, run H hist = .ok (roots, db) ∧ roots.length = (maps hist).length ∧
        ∀ (i : ℕ) (root : Hash) (m : Bytes → Option Bytes), roots[i]? = some root →
          (maps hist)[i]? = some m → ∀ key v, m key = some v → v ≠ [] →
          ∃ p, (db.reads (proofAt H root key)).1 = .ok p ∧ p.value = v ∧
            p.verifyProof H root key = .ok true := by
  rcases run_spec H hist hbased hascii hinj with herr | ⟨db, hrun, hvs⟩
  · exact Or.inl herr
  refine Or.inr ⟨_, db, hrun, by rw [List.length_map, hvs.holds.length_eq], ?_⟩
  intro i root m hroot hm key v hkey hv
  rw [List.getElem?_map, Option.map_eq_some_iff] at hroot
  obtain ⟨t, ht, rfl⟩ := hroot
  have hstored := hvs.stored t (List.mem_of_getElem? ht)
  have hsome : m key ≠ none := by
    rw [hkey]
    exact Option.some_ne_none v
  have hakey : Ascii key := ascii_mapsFrom hist [fun _ => none] hascii
    (fun m hm k hk => absurd (by rw [List.mem_singleton.mp hm]) hk) m (List.mem_of_getElem? hm) key
    hsome
  have hget : t.get (hexKey key) = some v := (hvs.get_eq ht hm hakey).trans hkey
  refine ⟨_, hstored.proofAt hinj hvs.store List.mem_cons_self hakey, ?_, ?_⟩
  · rw [hget]
    rfl
  · rw [hget]
    exact verifyProof_pathOf hinj hstored.good hstored.wf (isValue_of_wf hstored.wf) hakey hv hget

/-- **Keys without a value**: after any history, for every version and every key that holds nothing,
`GetProof` returns the empty value, and `VerifyProof` accepts it exactly if the path shows that
there is nothing. -/
theorem getProof_absent_iff (H : Bytes → Hash) (hist : List Call) (hbased : Based 1 hist)
    (hascii : ∀ c ∈ hist, ∀ k ∈ c.op.keys, Ascii k)
    (hinj : Set.InjOn H {c | c ∈ historyChunks H hist}) {roots : List Hash} {db : DB}
    (hrun : run H hist = .ok (roots, db)) {i : ℕ} {root : Hash} {t : Tree}
    {m : Bytes → Option Bytes} (hversion : IsVersion hist roots i root t m) {key : Bytes}
    (hkey : Ascii key) (habsent : m key = none) :
    (∃ p, (db.reads (proofAt H root key)).1 = .ok p ∧ p.value = [] ∧
        p.verifyProof H root key = .ok true) ↔
      ShowsAbsence t (hexKey key) key 0 := by
  obtain ⟨hroot, ht, hm⟩ := hversion
  rcases run_spec H hist hbased hascii hinj with ⟨herr, -⟩ | ⟨db', hrun', hvs⟩
  · rw [hrun] at herr
    cases herr
  rw [hrun] at hrun'
  obtain ⟨rfl, rfl⟩ := Prod.mk.inj (Except.ok.inj hrun')
  rw [List.getElem?_map, ht, Option.map_some, Option.some_inj] at hroot
  subst hroot
  have hstored := hvs.stored t (List.mem_of_getElem? ht)
  exact hstored.absent_iff hinj hvs.store List.mem_cons_self hkey
    ((hvs.get_eq ht hm hkey).trans habsent)

theorem getProof_present_setA : ∃ roots db root, run hashXY setA = .ok (roots, db) ∧
    roots[1]? = some root ∧ ∃ p, (db.reads (proofAt hashXY root (str "a"))).1 = .ok p ∧
      p.value = str "x" ∧ p.verifyProof hashXY root (str "a") = .ok true := by
  have hinj := injOn_of_not_collision (not_collision_setA [] (by simp))
  rcases getProof_present hashXY setA based_setA ascii_setA hinj with
    ⟨-, hbig⟩ | ⟨roots, db, hrun, hlen, hproof⟩
  · exact absurd (by simp [Small, setA, Op.keys, Op.vals, str]) hbig
  · obtain ⟨r, root, rfl⟩ := List.length_eq_two.mp hlen
    have hmap : (maps setA)[1]? = some (Function.update (fun _ => none) (str "a") (some (str "x"))) :=
      rfl
    exact ⟨_, db, root, hrun, rfl, hproof 1 root _ rfl hmap (str "a") (str "x")
      (Function.update_self _ _ _) (by decide)⟩

/-- The node of `a` has other nibbles than the text of `b`. -/
theorem not_showsAbsence_b :
    ¬ ShowsAbsence (.short (hexKey (str "a")) (.value (str "x"))) (hexKey (str "b")) (str "b") 0 := by
  have hpre : ¬ nibbles (hexKey (str "a")) <+: (str "b").drop 0 := by decide
  exact fun hshows => hpre hshows.2.2

theorem ascii_b : Ascii (str "b") := by
  have h : ∀ b ∈ str "b", b.toNat < 128 := by decide +kernel
  exact h

theorem getProof_absent_iff_setA : ∃ roots db root, run hashXY setA = .ok (roots, db) ∧
    IsVersion setA roots 1 root (.short (hexKey (str "a")) (.value (str "x")))
      (Function.update (fun _ => none) (str "a") (some (str "x"))) ∧
    ((∃ p, (db.reads (proofAt hashXY root (str "b"))).1 = .ok p ∧ p.value = [] ∧
        p.verifyProof hashXY root (str "b") = .ok true) ↔
      ShowsAbsence (.short (hexKey (str "a")) (.value (str "x"))) (hexKey (str "b")) (str "b") 0) := by
  obtain ⟨roots, db, root, hrun, hversion⟩ := run_setA
  have hinj := injOn_of_not_collision (not_collision_setA [] (by simp))
  exact ⟨roots, db, root, hrun, hversion, getProof_absent_iff hashXY setA based_setA ascii_setA hinj
    hrun hversion ascii_b (Function.update_of_ne (by decide) _ _)⟩

/-- In the trie that holds `a` only, the proof for `b` is not accepted. -/
theorem absent_rejected : ∃ roots db root m, run hashXY setA = .ok (roots, db) ∧
    IsVersion setA roots 1 root (.short (hexKey (str "a")) (.value (str "x"))) m ∧
    m (str "b") = none ∧
    ¬ ∃ p, (db.reads (proofAt hashXY root (str "b"))).1 = .ok p ∧ p.value = [] ∧
      p.verifyProof hashXY root (str "b") = .ok true := by
  have hinj := injOn_of_not_collision (not_collision_setA [] (by simp))
  rcases run_spec hashXY setA based_setA ascii_setA hinj with ⟨-, hbig⟩ | ⟨db, hrun, hvs⟩
  · exact absurd (by simp [Small, setA, Op.keys, Op.vals, str]) hbig
  · have hstored := hvs.stored _ (List.mem_of_getElem? (i := 1) rfl)
    have hnone : Function.update (fun _ => none) (str "a") (some (str "x")) (str "b") = none :=
      Function.update_of_ne (by decide) _ _
    have hget := hvs.get_eq (i := 1) rfl rfl ascii_b
    refine ⟨_, db, _, _, hrun, ⟨rfl, rfl, rfl⟩, hnone, fun haccepted => not_showsAbsence_b ?_⟩
    exact (hstored.absent_iff hinj hvs.store List.mem_cons_self ascii_b
      (hget.trans hnone)).mp haccepted

end LedgerDatabase.Ledgerdb.Mpt
