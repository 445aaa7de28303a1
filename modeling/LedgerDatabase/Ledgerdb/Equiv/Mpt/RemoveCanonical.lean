import LedgerDatabase.Library.RadixRemove
import LedgerDatabase.Ledgerdb.Equiv.Mpt.Canonical
import LedgerDatabase.Ledgerdb.Equiv.Mpt.VerifyProof

/-!
# When `Remove` returns to an earlier root hash

`TryRemove` leaves the branches on its way, also one with a single child left, which no `Set` would
make.  So the root hash that `Remove` returns is that of a trie built without the key exactly if the
branch where the key leaves the other keys has two more children, or there is no other key
(`remove_canonical_iff`).
-/

namespace LedgerDatabase.Ledgerdb.Mpt

/-- The encoded keys of a map. -/
def keysOf (m : Bytes → Option Bytes) : Set (List (Fin 17)) := hexKey '' {k | m k ≠ none}

/-- Removing `key` leaves every branch two children: `key` is the only key, or it parts from all
others at a nibble where these go on in two more ways. -/
def Keeps (m : Bytes → Option Bytes) (key : Bytes) : Prop :=
  RadixTree.Lone (keysOf m) (hexKey key) ∨ RadixTree.Spare (keysOf m) (hexKey key)

section

variable {H : Bytes → Hash} {S : Set Bytes} {t t' : Tree} {m : Bytes → Option Bytes} {key : Bytes}

/-- The tree without a key is the one tree of the map without it exactly if the branches keep two
children. -/
theorem Spells.remove_eq_iff (h : Spells t m) (hkey : m key ≠ none)
    (h' : Spells t' (Function.update m key none)) : t.remove (hexKey key) = t' ↔ Keeps m key := by
  have hascii := h.ascii key hkey
  have hmem : hexKey key ∈ asciiKeys := ⟨key, hascii, rfl⟩
  have hheld : hexKey key ∈ RadixTree.held asciiKeys t := by
    rw [h.held_eq]
    exact ⟨key, hkey, rfl⟩
  have htight := RadixTree.tight_remove_iff antichain_asciiKeys h.wf h.tight hheld
  rw [h.held_eq] at htight
  unfold Keeps keysOf
  rw [← htight]
  constructor
  · rintro rfl
    exact h'.tight
  · intro hremove
    have hspells : Spells (t.remove (hexKey key)) (Function.update m key none) := by
      refine ⟨RadixTree.wf_remove antichain_asciiKeys h.wf hmem, hremove, ?_, h'.ascii⟩
      intro k hk
      rw [RadixTree.get_remove antichain_asciiKeys h.wf hmem ⟨k, hk, rfl⟩, Function.update_apply,
        h.holds k hk]
      by_cases heq : k = key
      · rw [if_pos heq, if_pos (by rw [heq])]
      · rw [if_neg heq, if_neg fun hhex => heq (hexKey_injOn hk hascii hhex)]
    exact hspells.unique h'

/-- Stored versions have one root hash exactly if they are one tree. -/
theorem Stored.root_eq_iff {db db' : DB} {S' : Set Bytes} (hinj : Set.InjOn H (S ∪ S'))
    (h : Stored H S db t) (h' : Stored H S' db' t') : H (enc H t) = H (enc H t') ↔ t = t' := by
  have hgood := h.good.mono (Set.subset_union_left (t := S'))
  have hgood' := h'.good.mono (Set.subset_union_right (s := S))
  constructor
  · intro heq
    apply enc_inj hinj hgood hgood'
    exact hinj (hgood.chunks.node (isValue_of_wf h.wf)) (hgood'.chunks.node (isValue_of_wf h'.wf))
      heq
  · rintro rfl
    rfl

end

theorem versionsFrom_append (hist' : List Call) : ∀ (hist : List Call) (ts : List Tree),
    versionsFrom (hist ++ hist') ts = versionsFrom hist' (versionsFrom hist ts)
  | [], _ => rfl
  | c :: hist, ts => versionsFrom_append hist' hist (ts ++ [c.op.tree (ts.getD c.base .nil)])

theorem length_mapsFrom : ∀ (hist : List Call) (ms : List (Bytes → Option Bytes)),
    (mapsFrom hist ms).length = ms.length + hist.length
  | [], _ => rfl
  | c :: hist, ms => by
    rw [mapsFrom, length_mapsFrom hist, List.length_append, List.length_singleton,
      List.length_cons]
    omega

theorem based_append : ∀ (hist : List Call) (n : ℕ) (c : Call), Based n hist →
    c.base < n + hist.length → Based n (hist ++ [c])
  | [], _, _, _, hc => ⟨hc, trivial⟩
  | _ :: hist, n, c, ⟨hbase, h⟩, hc =>
    ⟨hbase, based_append hist (n + 1) c h (by rw [List.length_cons] at hc; omega)⟩

/-- The root hash after `Remove`, for versions of two histories: a history that does not return met
a tree that does not fit. -/
theorem remove_root_eq_iff (H : Bytes → Hash) (hist hist' : List Call) (hbased : Based 1 hist)
    (hbased' : Based 1 hist') (hascii : ∀ c ∈ hist, ∀ k ∈ c.op.keys, Ascii k)
    (hascii' : ∀ c ∈ hist', ∀ k ∈ c.op.keys, Ascii k) (hsets : ∀ c ∈ hist, c.op.isSet)
    (hsets' : ∀ c ∈ hist', c.op.isSet) {i j : ℕ} {m : Bytes → Option Bytes} {key : Bytes}
    (hm : (maps hist)[i]? = some m) (hkey : m key ≠ none)
    (hm' : (maps hist')[j]? = some (Function.update m key none))
    (hinj : Set.InjOn H ({c | c ∈ historyChunks H (hist ++ [⟨i, .remove key⟩])} ∪
      {c | c ∈ historyChunks H hist'})) :
    (run H (hist ++ [⟨i, .remove key⟩]) = .error .oversize ∧
      ¬ Small (hist ++ [⟨i, .remove key⟩])) ∨
    (run H hist' = .error .oversize ∧ ¬ Small hist') ∨
    ∃ roots root db roots' root' db',
      run H (hist ++ [⟨i, .remove key⟩]) = .ok (roots ++ [root], db) ∧
      run H hist' = .ok (roots', db') ∧ roots'[j]? = some root' ∧
      (root = root' ↔ Keeps m key) := by
  have hspells : List.Forall₂ Spells (versionsFrom hist [.nil]) (maps hist) :=
    spells_versionsFrom hist [.nil] _ (.cons spells_nil .nil) hbased hascii hsets
  have hspells' : List.Forall₂ Spells (versionsFrom hist' [.nil]) (maps hist') :=
    spells_versionsFrom hist' [.nil] _ (.cons spells_nil .nil) hbased' hascii' hsets'
  -- the version that the key is removed from, and the one built without it
  obtain ⟨hi, -⟩ := List.getElem?_eq_some_iff.mp hm
  obtain ⟨hj, -⟩ := List.getElem?_eq_some_iff.mp hm'
  obtain ⟨t, ht⟩ : ∃ t, (versionsFrom hist [.nil])[i]? = some t :=
    ⟨_, List.getElem?_eq_getElem (hspells.length_eq ▸ hi)⟩
  obtain ⟨t', ht'⟩ : ∃ t, (versionsFrom hist' [.nil])[j]? = some t :=
    ⟨_, List.getElem?_eq_getElem (hspells'.length_eq ▸ hj)⟩
  have hspell : Spells t m := forall₂_getElem? hspells ht hm
  have hspell' : Spells t' (Function.update m key none) := forall₂_getElem? hspells' ht' hm'
  have hbased₁ : Based 1 (hist ++ [⟨i, .remove key⟩]) := by
    apply based_append hist 1 _ hbased
    rw [maps, length_mapsFrom] at hi
    exact hi
  have hascii₁ : ∀ c ∈ hist ++ [⟨i, .remove key⟩], ∀ k ∈ c.op.keys, Ascii k := by
    intro c hc k hk
    rcases List.mem_append.mp hc with hc | hc
    · exact hascii c hc k hk
    · rw [List.mem_singleton.mp hc] at hk
      rw [List.mem_singleton.mp hk]
      exact hspell.ascii key hkey
  rcases run_spec H _ hbased₁ hascii₁ (hinj.mono Set.subset_union_left) with herr | ⟨db, hrun, hvs⟩
  · exact Or.inl herr
  rcases run_spec H _ hbased' hascii' (hinj.mono Set.subset_union_right) with
    herr | ⟨db', hrun', hvs'⟩
  · exact Or.inr (Or.inl herr)
  have hlast : versionsFrom (hist ++ [⟨i, .remove key⟩]) [.nil]
      = versionsFrom hist [.nil] ++ [t.remove (hexKey key)] := by
    rw [versionsFrom_append, versionsFrom, versionsFrom, List.getD_eq_getElem?_getD, ht]
    rfl
  rw [hlast] at hrun hvs
  rw [List.map_append] at hrun
  refine Or.inr (Or.inr ⟨_, _, db, _, H (enc H t'), db', hrun, hrun', ?_, ?_⟩)
  · exact (List.getElem?_map ..).trans (congrArg _ ht')
  have hstored := hvs.stored _ (List.mem_append_right _ (List.mem_singleton_self _))
  have hstored' := hvs'.stored t' (List.mem_of_getElem? ht')
  rw [hstored.root_eq_iff hinj hstored']
  exact hspell.remove_eq_iff hkey hspell'

/-- **`Remove` and maps without the key**: let a version of a history of `Set` hold `m` with the
key, and a version of another one hold `m` without it.  The root hash that `Remove` returns for the
first is that of the second exactly if `Remove` leaves every branch two children.  A history that
does not return met a tree that does not fit. -/
theorem remove_canonical_iff (H : Bytes → Hash) (hist hist' : List Call) (hbased : Based 1 hist)
    (hbased' : Based 1 hist') (hascii : ∀ c ∈ hist, ∀ k ∈ c.op.keys, Ascii k)
    (hascii' : ∀ c ∈ hist', ∀ k ∈ c.op.keys, Ascii k) (hsets : ∀ c ∈ hist, c.op.isSet)
    (hsets' : ∀ c ∈ hist', c.op.isSet) {i j : ℕ} {m : Bytes → Option Bytes} {key : Bytes}
    (hm : (maps hist)[i]? = some m) (hkey : m key ≠ none)
    (hm' : (maps hist')[j]? = some (Function.update m key none))
    (hinj : Set.InjOn H ({c | c ∈ historyChunks H (hist ++ [⟨i, .remove key⟩])} ∪
      {c | c ∈ historyChunks H hist'})) :
    (run H (hist ++ [⟨i, .remove key⟩]) = .error .oversize ∧
      ¬ Small (hist ++ [⟨i, .remove key⟩])) ∨
    (run H hist' = .error .oversize ∧ ¬ Small hist') ∨
    ∃ roots root db roots' root' db',
      run H (hist ++ [⟨i, .remove key⟩]) = .ok (roots ++ [root], db) ∧
      run H hist' = .ok (roots', db') ∧ roots'[j]? = some root' ∧ (root = root' ↔ Keeps m key) :=
  remove_root_eq_iff H hist hist' hbased hbased' hascii hascii' hsets hsets' hm hkey hm' hinj

/-- The only key is removed, and the root is that of the empty trie. -/
theorem remove_canonical_only_key : ∃ roots root db roots' db',
    run hashXY (setA ++ [⟨1, .remove (str "a")⟩]) = .ok (roots ++ [root], db) ∧
      run hashXY [] = .ok (roots', db') ∧ roots'[0]? = some root := by
  have hinj : ∀ c ∈ historyChunks hashXY (setA ++ [⟨1, .remove (str "a")⟩]) ++
      historyChunks hashXY [], ∀ c' ∈ historyChunks hashXY (setA ++ [⟨1, .remove (str "a")⟩]) ++
      historyChunks hashXY [], hashXY c = hashXY c' → c = c' := by decide +kernel
  have hm : (maps setA)[1]? = some (Function.update (fun _ => none) (str "a") (some (str "x"))) :=
    rfl
  have hm' : (maps [])[0]? = some (Function.update (Function.update (fun _ => none) (str "a")
      (some (str "x"))) (str "a") none) := by
    rw [Function.update_idem, Function.update_eq_self_iff.mpr rfl]
    rfl
  have hsmall : Small (setA ++ [⟨1, .remove (str "a")⟩]) := by
    simp [Small, setA, Op.keys, Op.vals, str]
  rcases remove_canonical_iff hashXY setA [] based_setA trivial ascii_setA (by simp)
    (by decide +kernel) (by simp) hm (by rw [Function.update_self]; simp) hm'
    (fun c hc c' hc' => hinj c (List.mem_append.mpr hc) c' (List.mem_append.mpr hc')) with
    ⟨-, hbig⟩ | ⟨-, hbig⟩ | ⟨roots, root, db, roots', root', db', hrun, hrun', hroot', hiff⟩
  · exact absurd hsmall hbig
  · exact absurd (by simp [Small]) hbig
  · obtain rfl : root = root' := by
      apply hiff.mpr
      refine Or.inl ?_
      rintro _ ⟨k, hk, rfl⟩
      by_cases heq : k = str "a"
      · rw [heq]
      · exact absurd (Function.update_of_ne heq _ _) hk
    exact ⟨roots, root, db, roots', db', hrun, hrun', hroot'⟩

/-- The slot of a branch with the child of a hash in base32. -/
def slotOf (hash : String) : Bytes := MPTHashNode.ofHash (Hash.fromBase32 (str hash))

/-- The nil chunk in the slots of a branch. -/
def nilSlot : Bytes := slotOf "OU62L3IC44LMMXS3ZENWNLMC264F6BD5"

/-- The branch with `x` in slot 1 and the given slot 2, with the number of its values. -/
def branchChunk (num : Nat) (slot : Bytes) : Bytes :=
  leBytes 4 418 ++ [0] ++ leBytes 8 num ++ nilSlot ++ slotOf "SNGRNIN6EQLZJYVFSQKCA74Y6CVCJX4E" ++ slot ++
    (List.replicate 13 nilSlot).flatten ++ [5, 0, 0, 0, 4]

/-- BLAKE2b on the tries that hold `x` under `a`, and `y` under `b` as well, and on what is left of
the second without `b`. -/
def tableAB : List (Bytes × String) :=
  [([5, 0, 0, 0, 4], "OU62L3IC44LMMXS3ZENWNLMC264F6BD5"),
    ([26, 0, 0, 0, 1, 1, 0, 0, 0, 0, 0, 0, 0, 3, 0, 0, 0, 6, 1, 16, 6, 0, 0, 0, 3, 120],
      "XV3X2W6TWGRY2AQKH2FMEZKMYTZHGL65"),
    ([24, 0, 0, 0, 1, 1, 0, 0, 0, 0, 0, 0, 0, 1, 0, 0, 0, 16, 6, 0, 0, 0, 3, 120],
      "SNGRNIN6EQLZJYVFSQKCA74Y6CVCJX4E"),
    ([24, 0, 0, 0, 1, 1, 0, 0, 0, 0, 0, 0, 0, 1, 0, 0, 0, 16, 6, 0, 0, 0, 3, 121],
      "3VW74ZMY3FKSH7SFW5LP2UWDH7B5FNPK"),
    (branchChunk 2 (slotOf "3VW74ZMY3FKSH7SFW5LP2UWDH7B5FNPK"), "T3G3FLJ2RNH53UH7OUYWJZNF4RFFXIEY"),
    ([43, 0, 0, 0, 1, 2, 0, 0, 0, 0, 0, 0, 0, 1, 0, 0, 0, 6, 25, 0, 0, 0, 2, 158, 205, 178, 173, 58,
      139, 79, 221, 208, 255, 117, 49, 100, 229, 165, 228, 74, 91, 160, 152],
      "ZEEDOG7IWBZD4OG7TDOIRC3KXSFCDWVM"),
    (branchChunk 1 nilSlot, "5ATBJTKPOIWKDY5VUFZTMIWZPUIYHZNS"),
    ([43, 0, 0, 0, 1, 1, 0, 0, 0, 0, 0, 0, 0, 1, 0, 0, 0, 6, 25, 0, 0, 0, 2, 232, 38, 20, 205, 79,
      114, 44, 161, 227, 181, 161, 115, 54, 34, 217, 125, 17, 131, 229, 178],
      "H4ZI7RRYIB3UOTFJC7XVARY6Z46UENPS")]

@[inherit_doc tableAB]
def hashAB : Bytes → Hash := Hash.ofTable tableAB

/-- The keys `a` and `b` are set. -/
def setAB : List Call := [⟨0, .set (str "a") (str "x")⟩, ⟨1, .set (str "b") (str "y")⟩]

@[inherit_doc setAB]
def mapAB : Bytes → Option Bytes :=
  Function.update (Function.update (fun _ => none) (str "a") (some (str "x"))) (str "b")
    (some (str "y"))

/-- Without `b` the branch of `a` and `b` has one child. -/
theorem not_keeps_b : ¬ Keeps mapAB (str "b") := by
  have hkeys : ∀ k ∈ keysOf mapAB, k = hexKey (str "a") ∨ k = hexKey (str "b") := by
    rintro _ ⟨k, hk, rfl⟩
    by_cases hb : k = str "b"
    · exact Or.inr (by rw [hb])
    · by_cases ha : k = str "a"
      · exact Or.inl (by rw [ha])
      · exact absurd ((Function.update_of_ne hb _ _).trans (Function.update_of_ne ha _ _)) hk
  rintro (hlone | hspare)
  · have ha : hexKey (str "a") = hexKey (str "b") := by
      apply hlone
      have hsome : mapAB (str "a") = some (str "x") := by decide
      refine ⟨str "a", fun hnone => ?_, rfl⟩
      rw [hsome] at hnone
      cases hnone
    exact absurd ha (by decide)
  · -- there are no two other keys
    obtain ⟨k₁, hk₁, k₂, hk₂, hne₁, hne₂, hne⟩ := hspare.exists_two
    have h₁ := (hkeys k₁ hk₁).resolve_right hne₁
    have h₂ := (hkeys k₂ hk₂).resolve_right hne₂
    exact hne (h₁.trans h₂.symm)

/-- Set `a` and `b` and remove `b`: the root hash is not that of the trie that holds `a`. -/
theorem remove_not_canonical : ∃ m roots root db roots' root' db',
    (maps setAB)[2]? = some m ∧ m (str "b") ≠ none ∧
      (maps setA)[1]? = some (Function.update m (str "b") none) ∧
      run hashAB (setAB ++ [⟨2, .remove (str "b")⟩]) = .ok (roots ++ [root], db) ∧
      run hashAB setA = .ok (roots', db') ∧ roots'[1]? = some root' ∧ root ≠ root' := by
  have hbased : Based 1 setAB := by simp [setAB, Based]
  have hascii : ∀ c ∈ setAB, ∀ k ∈ c.op.keys, Ascii k := by
    have h : ∀ c ∈ setAB, ∀ k ∈ c.op.keys, ∀ b ∈ k, b.toNat < 128 := by decide +kernel
    exact h
  have htable : ∀ c ∈ historyChunks hashAB (setAB ++ [⟨2, .remove (str "b")⟩]) ++
      historyChunks hashAB setA, c ∈ tableAB.map (·.1) := by decide +kernel
  have hdistinct : ∀ c ∈ tableAB.map (·.1), ∀ c' ∈ tableAB.map (·.1),
      hashAB c = hashAB c' → c = c' := by decide +kernel
  have hinj : Set.InjOn hashAB ({c | c ∈ historyChunks hashAB (setAB ++ [⟨2, .remove (str "b")⟩])} ∪
      {c | c ∈ historyChunks hashAB setA}) := fun c hc c' hc' =>
    hdistinct c (htable c (List.mem_append.mpr hc)) c' (htable c' (List.mem_append.mpr hc'))
  have hm : (maps setAB)[2]? = some mapAB := rfl
  have hm' : (maps setA)[1]? = some (Function.update mapAB (str "b") none) := by
    rw [mapAB, Function.update_idem]
    -- `b` is not a key of the map with `a`
    exact congrArg some (Function.update_eq_self_iff.mpr (by decide)).symm
  have hkey : mapAB (str "b") ≠ none := by decide
  have hsmall : Small (setAB ++ [⟨2, .remove (str "b")⟩]) := by
    simp [Small, setAB, Op.keys, Op.vals, str]
  have hsmall' : Small setA := by simp [Small, setA, Op.keys, Op.vals, str]
  rcases remove_root_eq_iff hashAB setAB setA hbased based_setA hascii ascii_setA
    (by decide +kernel) (by decide +kernel) hm hkey hm' hinj with
    ⟨-, hbig⟩ | ⟨-, hbig⟩ | ⟨roots, root, db, roots', root', db', hrun, hrun', hroot', hiff⟩
  · exact absurd hsmall hbig
  · exact absurd hsmall' hbig
  · exact ⟨mapAB, roots, root, db, roots', root', db', hm, hkey, hm', hrun, hrun', hroot',
      fun heq => not_keeps_b (hiff.mp heq)⟩

end LedgerDatabase.Ledgerdb.Mpt
