import LedgerDatabase.Ledgerdb.Equiv.Mpt.Remove
import LedgerDatabase.Ledgerdb.Equiv.Mpt.Store

/-!
# `Set` and `Remove`

The operations of `Trie` on a stored version: each returns the root hash of the new tree, and its
writes make that tree persistent, or it fails because a tree on the way does not fit
(`Commits`).
-/

namespace LedgerDatabase.Ledgerdb.Mpt

open Chunk

/-- The tree with some keys set, one after the other. -/
def setAll (t : Tree) : List (Bytes × Bytes) → Tree
  | [] => t
  | (key, val) :: kvs => setAll (t.insert (hexKey key) val) kvs

/-- The trees on the way to `setAll`. -/
def setTrace (t : Tree) : List (Bytes × Bytes) → List Tree
  | [] => []
  | (key, val) :: kvs => t.insert (hexKey key) val :: setTrace (t.insert (hexKey key) val) kvs

/-- A stored version: a trie over terminated keys whose nodes are known. -/
structure Version (H : Bytes → Hash) (S : Set Bytes) (know : Query → Option (Option Bytes))
    (t : Tree) : Prop where
  wf : t.WF (fun _ => True) terminated
  good : Good H S t
  known : Known H know t

/-- The outcome of an operation: the root of `t'` with the writes that make it persistent, or a
failure because one of the trees `ts` does not fit. -/
def Commits (H : Bytes → Hash) (S : Set Bytes) (know : Query → Option (Option Bytes))
    (t' : Tree) (ts : List Tree) (p : Reads (Hash × List (Hash × Bytes))) : Prop :=
  ((∃ s ∈ ts, ¬ Fits s) ∧ p.runIn know = some (.error .oversize)) ∨
    ∃ puts, p.runIn know = some (.ok (H (enc H t'), puts)) ∧ PutsOk H S puts ∧
      Persists H know puts t' ∧ t'.WF (fun _ => True) terminated ∧ Good H S t'

section

variable {H : Bytes → Hash} {S : Set Bytes} {know : Query → Option (Option Bytes)} {t : Tree}
  {delta : Delta}

/-- A trie over terminated keys is not a value. -/
theorem isValue_of_wf {Q : Bytes → Prop} (h : t.WF Q terminated) : isValue t = false := by
  cases t with
  | value v =>
    obtain ⟨body, -, heq⟩ := h.1
    simp at heq
  | nil => rfl
  | short key child => rfl
  | full kids => rfl

/-- There is fuel for every nibble of a key. -/
theorem le_fuelFor (key : Bytes) :
    2 * (hexKey key).length + 1 ≤ Trie.fuelFor (nibbles (hexKey key)) := by
  rw [Trie.fuelFor, length_nibbles]
  omega

/-- The root of a version is opened. -/
theorem Version.open_runIn (hinj : Set.InjOn H S) (hnilS : enc H .nil ∈ S)
    (h : Version H S know t) :
    (Trie.setNodeForHash H (H (enc H t))).runIn know = some (.ok (enc H t)) := by
  have hv := isValue_of_wf h.wf
  exact setNodeForHash_runIn h.known hv fun hne heq =>
    enc_ne_nil hne (hinj (h.good.chunks.node hv) hnilS heq)

/-- The end of every operation. -/
theorem commits_finish (hinj : Set.InjOn H S) (hnilS : enc H .nil ∈ S)
    (hdelta : DeltaOk H S delta) (hwf : t.WF (fun _ => True) terminated) (hgood : Good H S t)
    (hcov : Covered H know delta t) (ts : List Tree) :
    Commits H S know t ts (Trie.finish H (enc H t) delta) := by
  have hrank := rank_le_length (H := H) (S := S) delta t.height
  have hfuel : 2 * rank H S delta t.height + 2 ≤ MPTDelta.commitFuel delta := by
    rw [MPTDelta.commitFuel]
    omega
  obtain ⟨puts, hputs, hok, hpers⟩ := commit_spec hinj hdelta hnilS hgood hcov hfuel
  refine Or.inr ⟨puts, ?_, hok, hpers, hwf, hgood⟩
  rw [Trie.finish, Ask.runIn_ofExcept_bind_ok know _ hputs, hash_enc hgood.fits.node]
  rfl

/-! ### `Set` -/

/-- **The loop of `Set`** over keys and values. -/
theorem insertAll_runIn (hinj : Set.InjOn H S) (hnil : Known H know .nil) :
    ∀ (kvs : List (Bytes × Bytes)) (t : Tree) (delta : Delta),
      (∀ e ∈ kvs, Ascii e.1) → t.WF (fun _ => True) terminated → Good H S t →
      (∀ s ∈ setTrace t kvs, Chunks H S s) → DeltaOk H S delta → Covered H know delta t →
      ((∃ s ∈ setTrace t kvs, ¬ Fits s) ∧
        (Trie.insertAll H (enc H t) delta (kvs.map (·.1)) (kvs.map (·.2))).runIn know
          = some (.error .oversize)) ∨
      ∃ delta', (Trie.insertAll H (enc H t) delta (kvs.map (·.1)) (kvs.map (·.2))).runIn know
          = some (.ok (enc H (setAll t kvs), delta')) ∧
        (setAll t kvs).WF (fun _ => True) terminated ∧ Good H S (setAll t kvs) ∧
        DeltaOk H S delta' ∧ Covered H know delta' (setAll t kvs)
  | [], t, delta, _, hwf, hgood, _, hdelta, hcov =>
    Or.inr ⟨delta, rfl, hwf, hgood, hdelta, hcov⟩
  | (key, val) :: kvs, t, delta, hascii, hwf, hgood, hchunks, hdelta, hcov => by
    have hkey : Ascii key := hascii (key, val) List.mem_cons_self
    have hmem := hexKey_mem_terminated hkey
    have hnew := hchunks _ List.mem_cons_self
    have hwf' := RadixTree.wf_insert antichain_terminated hwf hmem (v := val) trivial
    rw [List.map_cons, List.map_cons, Trie.insertAll, setTrace, setAll]
    by_cases hval : nodeSize (.value val) < 2 ^ 32
    · have hencode : MPTValueNode.encode val = .ok (enc H (.value val)) := by
        rw [encode_value (H := H), if_pos hval]
      rw [Ask.runIn_ofExcept_bind_ok know _ hencode, keybytesToHex_eq hkey]
      rcases insert_makes hinj antichain_terminated tails_terminated hnil hval hwf hmem hgood.fits
        hgood.chunks hnew hdelta hcov (le_fuelFor key)
        with ⟨hno, herr⟩ | ⟨delta', hfits, hok, hdelta', -, hcov'⟩
      · exact Or.inl ⟨⟨_, List.mem_cons_self, hno⟩, Ask.runIn_bind_error know _ herr⟩
      · rw [Ask.runIn_bind_ok know _ hok]
        rcases insertAll_runIn hinj hnil kvs (t.insert (hexKey key) val) delta'
          (fun e he => hascii e (List.mem_cons_of_mem _ he)) hwf'
          ⟨hfits, hnew, slots_of_wf tails_terminated hwf'⟩
          (fun s hs => hchunks s (List.mem_cons_of_mem _ hs)) hdelta' hcov'
          with ⟨⟨s, hs, hno⟩, herr⟩ | hrest
        · exact Or.inl ⟨⟨s, List.mem_cons_of_mem _ hs, hno⟩, herr⟩
        · exact Or.inr hrest
    · have hencode : MPTValueNode.encode val = .error .oversize := by
        rw [encode_value (H := H), if_neg hval]
      refine Or.inl ⟨⟨_, List.mem_cons_self, fun hfits => hval ?_⟩,
        Ask.runIn_ofExcept_bind_error know _ hencode⟩
      exact RadixTree.all_value_of_insert antichain_terminated hwf hmem hfits

/-- Opening a version, setting keys, and committing. -/
theorem commits_insertAll (hinj : Set.InjOn H S) (hnilS : enc H .nil ∈ S)
    (hnil : Known H know .nil) (h : Version H S know t) (kvs : List (Bytes × Bytes))
    (hascii : ∀ e ∈ kvs, Ascii e.1) (hchunks : ∀ s ∈ setTrace t kvs, Chunks H S s) :
    Commits H S know (setAll t kvs) (setTrace t kvs)
      (Trie.insertAll H (enc H t) [] (kvs.map (·.1)) (kvs.map (·.2)) >>= fun r =>
        Trie.finish H r.1 r.2) := by
  rcases insertAll_runIn hinj hnil kvs t [] hascii h.wf h.good hchunks (by simp [DeltaOk])
    (h.known.covered []) with ⟨hno, herr⟩ | ⟨delta, hok, hwf, hgood, hdelta, hcov⟩
  · exact Or.inl ⟨hno, Ask.runIn_bind_error know _ herr⟩
  · have := commits_finish hinj hnilS hdelta hwf hgood hcov (setTrace t kvs)
    unfold Commits at this ⊢
    rwa [Ask.runIn_bind_ok know _ hok]

/-- **`Set`** of one key. -/
theorem commits_set (hinj : Set.InjOn H S) (hnilS : enc H .nil ∈ S) (hnil : Known H know .nil)
    (h : Version H S know t) {key val : Bytes} (hkey : Ascii key)
    (hchunk : Chunks H S (t.insert (hexKey key) val)) :
    Commits H S know (t.insert (hexKey key) val) [t.insert (hexKey key) val]
      (Trie.set H (H (enc H t)) key val) := by
  have := commits_insertAll hinj hnilS hnil h [(key, val)] (by simpa using hkey)
    (by simpa [setTrace] using hchunk)
  unfold Commits at this ⊢
  rwa [Trie.set, Ask.runIn_bind_ok know _ (h.open_runIn hinj hnilS)]

/-- **`Set`** of several keys. -/
theorem commits_setBatch (hinj : Set.InjOn H S) (hnilS : enc H .nil ∈ S) (hnil : Known H know .nil)
    (h : Version H S know t) {kvs : List (Bytes × Bytes)} (hascii : ∀ e ∈ kvs, Ascii e.1)
    (hchunks : ∀ s ∈ setTrace t kvs, Chunks H S s) :
    Commits H S know (setAll t kvs) (setTrace t kvs)
      (Trie.setBatch H (H (enc H t)) (kvs.map (·.1)) (kvs.map (·.2))) := by
  have hbatch := commits_insertAll hinj hnilS hnil h kvs hascii hchunks
  unfold Commits at hbatch ⊢
  rw [Trie.setBatch, Ask.runIn_bind_ok know _ (h.open_runIn hinj hnilS), List.length_map]
  by_cases hlen : kvs.length = 0
  · obtain rfl := List.length_eq_zero_iff.mp hlen
    rw [if_pos hlen, hash_enc h.good.fits.node]
    exact Or.inr ⟨[], rfl, by simp [PutsOk], h.known.persists, h.wf, h.good⟩
  · rwa [if_neg hlen]

/-! ### `Remove` -/

/-- **`Remove`** of a key. -/
theorem commits_remove (hinj : Set.InjOn H S) (hnilS : enc H .nil ∈ S) (hnil : Known H know .nil)
    (h : Version H S know t) {key : Bytes} (hkey : Ascii key)
    (hchunk : Chunks H S (t.remove (hexKey key))) :
    Commits H S know (t.remove (hexKey key)) [t.remove (hexKey key)]
      (Trie.remove H (H (enc H t)) key) := by
  have hmem := hexKey_mem_terminated hkey
  have hwf := RadixTree.wf_remove antichain_terminated h.wf hmem
  have hremove := tryRemove_makes hinj antichain_terminated tails_terminated hnil h.wf hmem
    h.good.fits h.good.chunks hchunk (by simp [DeltaOk]) (h.known.covered []) (le_fuelFor key)
  rw [Trie.remove, keybytesToHex_eq hkey]
  rcases hremove with ⟨hno, herr⟩ | ⟨delta, hfits, hok, hdelta, -, hcov⟩
  · refine Or.inl ⟨⟨_, List.mem_singleton_self _, hno⟩, ?_⟩
    rw [Ask.runIn_bind_ok know _ (h.open_runIn hinj hnilS), Ask.runIn_bind_error know _ herr]
  · have := commits_finish hinj hnilS hdelta hwf
      ⟨hfits, hchunk, slots_of_wf tails_terminated hwf⟩ hcov [t.remove (hexKey key)]
    unfold Commits at this ⊢
    rwa [Ask.runIn_bind_ok know _ (h.open_runIn hinj hnilS), Ask.runIn_bind_ok know _ hok]

end

end LedgerDatabase.Ledgerdb.Mpt
