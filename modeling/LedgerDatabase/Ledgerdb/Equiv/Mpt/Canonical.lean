import LedgerDatabase.Library.RadixNormal
import LedgerDatabase.Ledgerdb.Equiv.Mpt.History

/-!
# The root hash depends on the content only

Without `Remove`, the tree of every version is in normal form over the encoded keys, so it is
determined by the map that it holds (`Spells.unique`).  Two histories that reach the same map reach
the same root hash, and the counter in the root node is the number of keys (`root_canonical`).
-/

namespace LedgerDatabase.Ledgerdb.Mpt

/-- The encoded keys. -/
def asciiKeys : Set (List (Fin 17)) := hexKey '' {key | Ascii key}

theorem asciiKeys_subset : asciiKeys ⊆ terminated := by
  rintro k ⟨key, hkey, rfl⟩
  exact hexKey_mem_terminated hkey

theorem antichain_asciiKeys : IsAntichain (· <+: ·) asciiKeys :=
  antichain_terminated.subset asciiKeys_subset

/-- The call is not `Remove`. -/
def Op.isSet : Op → Bool
  | .remove _ => false
  | _ => true

/-- A tree in normal form that holds exactly the map. -/
structure Spells (t : Tree) (m : Bytes → Option Bytes) : Prop where
  wf : t.WF (fun _ => True) asciiKeys
  tight : t.Tight
  holds : Holds t m
  ascii : ∀ k, m k ≠ none → Ascii k

theorem spells_nil : Spells .nil fun _ => none :=
  ⟨trivial, trivial, fun _ _ => rfl, fun _ h => absurd rfl h⟩

theorem ascii_update {m : Bytes → Option Bytes} {key : Bytes} (h : ∀ k, m k ≠ none → Ascii k)
    (hkey : Ascii key) (val : Bytes) :
    ∀ k, Function.update m key (some val) k ≠ none → Ascii k := by
  intro k hk
  by_cases heq : k = key
  · rwa [heq]
  · rw [Function.update_of_ne heq] at hk
    exact h k hk

theorem Spells.insert {t : Tree} {m : Bytes → Option Bytes} (h : Spells t m) {key : Bytes}
    (hkey : Ascii key) (val : Bytes) :
    Spells (t.insert (hexKey key) val) (Function.update m key (some val)) where
  wf := RadixTree.wf_insert antichain_asciiKeys h.wf ⟨key, hkey, rfl⟩ trivial
  tight := RadixTree.tight_insert antichain_asciiKeys h.wf h.tight ⟨key, hkey, rfl⟩
  holds := by
    intro k hk
    rw [RadixTree.get_insert antichain_asciiKeys h.wf ⟨key, hkey, rfl⟩ ⟨k, hk, rfl⟩,
      Function.update_apply, h.holds k hk]
    by_cases heq : k = key
    · rw [if_pos heq, if_pos (by rw [heq])]
    · rw [if_neg heq, if_neg fun hhex => heq (hexKey_injOn hk hkey hhex)]
  ascii := ascii_update h.ascii hkey val

theorem Spells.setAll : ∀ (kvs : List (Bytes × Bytes)) {t : Tree} {m : Bytes → Option Bytes},
    (∀ e ∈ kvs, Ascii e.1) → Spells t m →
    Spells (setAll t kvs) (kvs.foldl (fun m e => Function.update m e.1 (some e.2)) m)
  | [], _, _, _, h => h
  | (key, val) :: kvs, _, _, hascii, h =>
    Spells.setAll kvs (fun e he => hascii e (List.mem_cons_of_mem _ he))
      (h.insert (hascii (key, val) List.mem_cons_self) val)

theorem Op.spells {t : Tree} {m : Bytes → Option Bytes} (h : Spells t m) (op : Op)
    (hascii : ∀ k ∈ op.keys, Ascii k) (hset : op.isSet) : Spells (op.tree t) (op.update m) := by
  cases op with
  | get key => exact h
  | set key val => exact h.insert (hascii key (List.mem_singleton_self _)) val
  | setBatch kvs => exact Spells.setAll kvs (fun e he => hascii e.1 (List.mem_map_of_mem he)) h
  | remove key => exact absurd hset Bool.false_ne_true

/-- The versions of a history are in normal form. -/
theorem spells_versionsFrom : ∀ (hist : List Call) (ts : List Tree)
    (ms : List (Bytes → Option Bytes)), List.Forall₂ Spells ts ms → Based ts.length hist →
    (∀ c ∈ hist, ∀ k ∈ c.op.keys, Ascii k) → (∀ c ∈ hist, c.op.isSet) →
    List.Forall₂ Spells (versionsFrom hist ts) (mapsFrom hist ms)
  | [], _, _, h, _, _, _ => h
  | c :: hist, ts, ms, h, ⟨hbase, hbased⟩, hascii, hsets => by
    have hbase' : c.base < ms.length := h.length_eq ▸ hbase
    rw [versionsFrom, mapsFrom, List.getD_eq_getElem _ _ hbase, List.getD_eq_getElem _ _ hbase']
    apply spells_versionsFrom hist
    · apply List.rel_append h
      apply List.Forall₂.cons _ .nil
      apply c.op.spells _ (hascii c List.mem_cons_self) (hsets c List.mem_cons_self)
      exact (List.forall₂_iff_get.mp h).2 c.base hbase hbase'
    · rw [List.length_append, List.length_singleton]
      exact hbased
    · exact fun c hc => hascii c (List.mem_cons_of_mem _ hc)
    · exact fun c hc => hsets c (List.mem_cons_of_mem _ hc)

/-- **One tree for one map.** -/
theorem Spells.unique {t t' : Tree} {m : Bytes → Option Bytes} (h : Spells t m)
    (h' : Spells t' m) : t = t' := by
  apply RadixTree.ext_of_get h.wf h.tight h'.wf h'.tight
  rintro _ ⟨key, hkey, rfl⟩
  rw [h.holds key hkey, h'.holds key hkey]

/-- The keys of a tree are those of its map. -/
theorem Spells.held_eq {t : Tree} {m : Bytes → Option Bytes} (h : Spells t m) :
    RadixTree.held asciiKeys t = hexKey '' {k | m k ≠ none} := by
  ext k
  constructor
  · rintro ⟨⟨key, hkey, rfl⟩, hget⟩
    rw [h.holds key hkey] at hget
    exact ⟨key, hget, rfl⟩
  · rintro ⟨key, hm, rfl⟩
    refine ⟨⟨key, h.ascii key hm, rfl⟩, ?_⟩
    rw [h.holds key (h.ascii key hm)]
    exact hm

/-- The values of a tree are as many as the keys of its map. -/
theorem Spells.count {t : Tree} {m : Bytes → Option Bytes} (h : Spells t m) :
    ∃ keys : Finset Bytes, (∀ k, k ∈ keys ↔ m k ≠ none) ∧ t.count = keys.card := by
  have hinj : Set.InjOn hexKey {k | m k ≠ none} := fun k hk k' hk' heq =>
    hexKey_injOn (h.ascii k hk) (h.ascii k' hk') heq
  have hcount := RadixTree.count_eq_encard antichain_asciiKeys h.wf
  rw [h.held_eq, hinj.encard_image] at hcount
  have hfinite : {k | m k ≠ none}.Finite := Set.finite_of_encard_eq_coe hcount
  refine ⟨hfinite.toFinset, fun k => hfinite.mem_toFinset, ?_⟩
  rw [hfinite.encard_eq_coe_toFinset_card] at hcount
  exact_mod_cast hcount.symm

/-! ### The counter of the root -/

theorem numElements_enc {H : Bytes → Hash} {t : Tree} :
    MPTNode.numElements (enc H t) = t.count % 2 ^ 64 := by
  rw [MPTNode.numElements, type_enc]
  cases t with
  | nil => rfl
  | value v => rfl
  | short key child => exact numElem_enc rfl
  | full kids => exact numElem_enc rfl

/-- **`numElements`** of a stored version. -/
theorem Stored.numElements {H : Bytes → Hash} {S : Set Bytes} {db : DB} {t : Tree}
    (hinj : Set.InjOn H S) (hok : StoreOk H S db) (hnilS : enc H .nil ∈ S) (h : Stored H S db t) :
    (db.reads (Trie.numElements H (H (enc H t)))).1 = .ok (t.count % 2 ^ 64) := by
  apply (hok.reads_of_runIn hinj _).1
  rw [Trie.numElements, Ask.runIn_bind_ok _ _ ((h.version hok hnilS).open_runIn hinj hnilS)]
  show some (Except.ok (MPTNode.numElements (enc H t))) = _
  rw [numElements_enc]

theorem forall₂_getElem? {α β : Type} {R : α → β → Prop} {l : List α} {l' : List β}
    (h : List.Forall₂ R l l') {i : ℕ} {a : α} {b : β} (ha : l[i]? = some a)
    (hb : l'[i]? = some b) : R a b := by
  obtain ⟨hi, rfl⟩ := List.getElem?_eq_some_iff.mp ha
  obtain ⟨hi', rfl⟩ := List.getElem?_eq_some_iff.mp hb
  exact (List.forall₂_iff_get.mp h).2 i hi hi'

/-- **The root hash depends on the content only**: versions of two histories of `Set` that hold the
same map have the same root hash, and its counter is the number of keys of the map, as a
`uint64_t`.  A history that does not return met a tree that does not fit. -/
theorem root_canonical (H : Bytes → Hash) (hist hist' : List Call) (hbased : Based 1 hist)
    (hbased' : Based 1 hist') (hascii : ∀ c ∈ hist, ∀ k ∈ c.op.keys, Ascii k)
    (hascii' : ∀ c ∈ hist', ∀ k ∈ c.op.keys, Ascii k) (hsets : ∀ c ∈ hist, c.op.isSet)
    (hsets' : ∀ c ∈ hist', c.op.isSet) (hinj : Set.InjOn H {c | c ∈ historyChunks H hist})
    (hinj' : Set.InjOn H {c | c ∈ historyChunks H hist'}) :
    (run H hist = .error .oversize ∧ ¬ Small hist) ∨
    (run H hist' = .error .oversize ∧ ¬ Small hist') ∨
    ∃ roots db roots' db', run H hist = .ok (roots, db) ∧ run H hist' = .ok (roots', db') ∧
      roots.length = (maps hist).length ∧ roots'.length = (maps hist').length ∧
      ∀ (i j : ℕ) (root root' : Hash) (m : Bytes → Option Bytes),
        roots[i]? = some root → (maps hist)[i]? = some m →
        roots'[j]? = some root' → (maps hist')[j]? = some m →
        root = root' ∧ ∃ keys : Finset Bytes, (∀ k, k ∈ keys ↔ m k ≠ none) ∧
          (db.reads (Trie.numElements H root)).1 = .ok (keys.card % 2 ^ 64) ∧
          (db'.reads (Trie.numElements H root')).1 = .ok (keys.card % 2 ^ 64) := by
  rcases run_spec H hist hbased hascii hinj with herr | ⟨db, hrun, hvs⟩
  · exact Or.inl herr
  rcases run_spec H hist' hbased' hascii' hinj' with herr | ⟨db', hrun', hvs'⟩
  · exact Or.inr (Or.inl herr)
  have hspells : List.Forall₂ Spells (versionsFrom hist [.nil]) (maps hist) :=
    spells_versionsFrom hist [.nil] _ (.cons spells_nil .nil) hbased hascii hsets
  have hspells' : List.Forall₂ Spells (versionsFrom hist' [.nil]) (maps hist') :=
    spells_versionsFrom hist' [.nil] _ (.cons spells_nil .nil) hbased' hascii' hsets'
  refine Or.inr (Or.inr ⟨_, db, _, db', hrun, hrun', ?_, ?_, ?_⟩)
  · rw [List.length_map, hspells.length_eq]
  · rw [List.length_map, hspells'.length_eq]
  intro i j root root' m hroot hm hroot' hm'
  rw [List.getElem?_map, Option.map_eq_some_iff] at hroot hroot'
  obtain ⟨t, ht, rfl⟩ := hroot
  obtain ⟨t', ht', rfl⟩ := hroot'
  have hspell : Spells t m := forall₂_getElem? hspells ht hm
  have hspell' : Spells t' m := forall₂_getElem? hspells' ht' hm'
  obtain rfl : t = t' := hspell.unique hspell'
  obtain ⟨keys, hkeys, hcard⟩ := hspell.count
  refine ⟨rfl, keys, hkeys, ?_, ?_⟩
  · rw [← hcard]
    exact (hvs.stored t (List.mem_of_getElem? ht)).numElements hinj hvs.store List.mem_cons_self
  · rw [← hcard]
    exact (hvs'.stored t (List.mem_of_getElem? ht')).numElements hinj' hvs'.store
      List.mem_cons_self

/-- The key `a` is set to `x` and then to `y`. -/
def twoSets : List Call := [⟨0, .set (str "a") (str "x")⟩, ⟨1, .set (str "a") (str "y")⟩]

/-- The key `a` is set to `y` at once. -/
def oneSet : List Call := [⟨0, .setBatch [(str "a", str "y")]⟩]

/-- The last versions have the same root. -/
theorem root_canonical_overwrite :
    Based 1 twoSets ∧ Based 1 oneSet ∧ (∀ c ∈ twoSets, ∀ k ∈ c.op.keys, Ascii k) ∧
      (∀ c ∈ oneSet, ∀ k ∈ c.op.keys, Ascii k) ∧ (∀ c ∈ twoSets, c.op.isSet) ∧
      (∀ c ∈ oneSet, c.op.isSet) ∧ Set.InjOn hashXY {c | c ∈ historyChunks hashXY twoSets} ∧
      Set.InjOn hashXY {c | c ∈ historyChunks hashXY oneSet} ∧
      ∃ r0 r1 r2 db r0' db', run hashXY twoSets = .ok ([r0, r1, r2], db) ∧
        run hashXY oneSet = .ok ([r0', r2], db') ∧
        (db.reads (Trie.numElements hashXY r2)).1 = .ok 1 := by
  have hbased : Based 1 twoSets := by simp [twoSets, Based]
  have hbased' : Based 1 oneSet := by simp [oneSet, Based]
  have hascii : ∀ c ∈ twoSets, ∀ k ∈ c.op.keys, Ascii k := by
    have h : ∀ c ∈ twoSets, ∀ k ∈ c.op.keys, ∀ b ∈ k, b.toNat < 128 := by decide +kernel
    exact h
  have hascii' : ∀ c ∈ oneSet, ∀ k ∈ c.op.keys, Ascii k := by
    have h : ∀ c ∈ oneSet, ∀ k ∈ c.op.keys, ∀ b ∈ k, b.toNat < 128 := by decide +kernel
    exact h
  have hsets : ∀ c ∈ twoSets, c.op.isSet := by decide +kernel
  have hsets' : ∀ c ∈ oneSet, c.op.isSet := by decide +kernel
  have hinj : Set.InjOn hashXY {c | c ∈ historyChunks hashXY twoSets} := by
    have h : ∀ c ∈ historyChunks hashXY twoSets, ∀ c' ∈ historyChunks hashXY twoSets,
      hashXY c = hashXY c' → c = c' := by decide +kernel
    exact fun c hc c' hc' => h c hc c' hc'
  have hinj' : Set.InjOn hashXY {c | c ∈ historyChunks hashXY oneSet} := by
    have h : ∀ c ∈ historyChunks hashXY oneSet, ∀ c' ∈ historyChunks hashXY oneSet,
      hashXY c = hashXY c' → c = c' := by decide +kernel
    exact fun c hc c' hc' => h c hc c' hc'
  refine ⟨hbased, hbased', hascii, hascii', hsets, hsets', hinj, hinj', ?_⟩
  have hsmall : Small twoSets := by simp [Small, twoSets, Op.keys, Op.vals, str]
  have hsmall' : Small oneSet := by simp [Small, oneSet, Op.keys, Op.vals, str]
  rcases root_canonical hashXY twoSets oneSet hbased hbased' hascii hascii' hsets hsets' hinj hinj'
    with ⟨-, hbig⟩ | ⟨-, hbig⟩ | ⟨roots, db, roots', db', hrun, hrun', hlen, hlen', hall⟩
  · exact absurd hsmall hbig
  · exact absurd hsmall' hbig
  obtain ⟨r0, r1, r2, rfl⟩ := List.length_eq_three.mp hlen
  obtain ⟨r0', r1', rfl⟩ := List.length_eq_two.mp hlen'
  have hm : Function.update (Function.update (fun _ => none) (str "a") (some (str "x"))) (str "a")
      (some (str "y")) = Function.update (fun _ => none) (str "a") (some (str "y")) :=
    Function.update_idem _ _ _
  obtain ⟨rfl, keys, hkeys, hnum, -⟩ := hall 2 1 r2 r1'
    (Function.update (fun _ => none) (str "a") (some (str "y"))) rfl (congrArg some hm) rfl rfl
  have hcard : keys = {str "a"} := by
    ext k
    rw [hkeys, Finset.mem_singleton, Function.update_apply]
    by_cases hk : k = str "a" <;> simp [hk]
  rw [hcard] at hnum
  exact ⟨r0, r1, r2, db, r0', db', hrun, hrun', hnum⟩

end LedgerDatabase.Ledgerdb.Mpt
