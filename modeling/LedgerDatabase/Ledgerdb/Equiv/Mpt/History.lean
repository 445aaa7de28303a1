import LedgerDatabase.Ledgerdb.Equiv.Mpt.Ops

/-!
# The trie is a map with persistent versions

A history is a list of calls on one store, each on a trie opened at the root hash of an earlier
version (`Call`); a `Get` leaves the version as it is.  `run` executes a history from the empty
store, `maps` says what the versions should hold.

`get_run`: after any history, `Get` on any of its versions returns what the version should hold.
The hash function may be any that has no collision among the chunks of the history
(`historyChunks`).  A call can only fail when a key and a value do not fit a chunk (`Small`).
-/

namespace LedgerDatabase.Ledgerdb.Mpt

open Chunk

/-- A call of a method of `Trie`. -/
inductive Op
  | get (key : Bytes)
  | set (key val : Bytes)
  | setBatch (kvs : List (Bytes × Bytes))
  | remove (key : Bytes)

namespace Op

/-- The call on a trie opened at `root`: the root hash it returns, and its writes. -/
def call (H : Bytes → Hash) (root : Hash) : Op → Reads (Hash × List (Hash × Bytes))
  | get key => do
    let _ ← Trie.get H root key
    return (root, [])
  | set key val => Trie.set H root key val
  | setBatch kvs => Trie.setBatch H root (kvs.map (·.1)) (kvs.map (·.2))
  | remove key => Trie.remove H root key

/-- What the call makes of a finite map. -/
def update (m : Bytes → Option Bytes) : Op → Bytes → Option Bytes
  | get _ => m
  | set key val => Function.update m key (some val)
  | setBatch kvs => kvs.foldl (fun m e => Function.update m e.1 (some e.2)) m
  | remove key => Function.update m key none

/-- What the call makes of a tree. -/
def tree (t : Tree) : Op → Tree
  | get _ => t
  | set key val => t.insert (hexKey key) val
  | setBatch kvs => setAll t kvs
  | remove key => t.remove (hexKey key)

/-- The trees that the call builds on the way. -/
def trees (t : Tree) : Op → List Tree
  | get _ => []
  | set key val => [t.insert (hexKey key) val]
  | setBatch kvs => setTrace t kvs
  | remove key => [t.remove (hexKey key)]

/-- The keys of a call. -/
def keys : Op → List Bytes
  | get key => [key]
  | set key _ => [key]
  | setBatch kvs => kvs.map (·.1)
  | remove key => [key]

/-- The values of a call. -/
def vals : Op → List Bytes
  | get _ => []
  | set _ val => [val]
  | setBatch kvs => kvs.map (·.2)
  | remove _ => []

end Op

/-- A call on an earlier version. -/
structure Call where
  base : ℕ
  op : Op

/-! ### Histories -/

/-- The calls in order, from the versions `roots` on; each adds a version. -/
def runFrom (H : Bytes → Hash) : List Call → List Hash → DB → Except Fault (List Hash × DB)
  | [], roots, db => .ok (roots, db)
  | c :: hist, roots, db => do
    let root ← at? roots c.base
    let (result, db) := db.reads (c.op.call H root)
    let (newRoot, puts) ← result
    runFrom H hist (roots ++ [newRoot]) (db.putHashes puts)

/-- A history on an empty store; version 0 is the empty trie. -/
def run (H : Bytes → Hash) (hist : List Call) : Except Fault (List Hash × DB) :=
  runFrom H hist [Chunk.hash H MPTNilNode.encode] {}

/-- What the versions should hold. -/
def mapsFrom : List Call → List (Bytes → Option Bytes) → List (Bytes → Option Bytes)
  | [], ms => ms
  | c :: hist, ms => mapsFrom hist (ms ++ [c.op.update (ms.getD c.base fun _ => none)])

@[inherit_doc mapsFrom]
def maps (hist : List Call) : List (Bytes → Option Bytes) := mapsFrom hist [fun _ => none]

/-- Every call is on a version that is there. -/
def Based : ℕ → List Call → Prop
  | _, [] => True
  | n, c :: hist => c.base < n ∧ Based (n + 1) hist

/-- The chunks of the nodes of a tree. -/
def chunkList (H : Bytes → Hash) : Tree → List Bytes
  | .nil => [enc H .nil]
  | .value _ => []
  | .short key child => enc H (.short key child) :: chunkList H child
  | .full kids => enc H (.full kids) :: (List.finRange 17).flatMap fun i => chunkList H (kids i)

/-- The trees that a history builds. -/
def treesFrom : List Call → List Tree → List Tree
  | [], _ => []
  | c :: hist, ts =>
    c.op.trees (ts.getD c.base .nil) ++ treesFrom hist (ts ++ [c.op.tree (ts.getD c.base .nil)])

/-- The trees of the versions. -/
def versionsFrom : List Call → List Tree → List Tree
  | [], ts => ts
  | c :: hist, ts => versionsFrom hist (ts ++ [c.op.tree (ts.getD c.base .nil)])

/-- The chunks that a history hashes. -/
def historyChunks (H : Bytes → Hash) (hist : List Call) : List Bytes :=
  enc H .nil :: (treesFrom hist [.nil]).flatMap (chunkList H)

/-- Every key of the history fits a chunk with every value of it. -/
def Small (hist : List Call) : Prop :=
  ∀ k ∈ hist.flatMap fun c => c.op.keys, ∀ v ∈ [] :: hist.flatMap fun c => c.op.vals,
    2 * k.length + v.length + 418 < 2 ^ 32

section

variable {H : Bytes → Hash} {S : Set Bytes}

/-! ### Trees and maps -/

/-- A tree that holds a map. -/
def Holds (t : Tree) (m : Bytes → Option Bytes) : Prop := ∀ k, Ascii k → t.get (hexKey k) = m k

theorem holds_insert {t : Tree} {m : Bytes → Option Bytes} (hwf : t.WF (fun _ => True) terminated)
    (h : Holds t m) {key : Bytes} (hkey : Ascii key) (val : Bytes) :
    Holds (t.insert (hexKey key) val) (Function.update m key (some val)) := by
  intro k hk
  rw [RadixTree.get_insert antichain_terminated hwf (hexKey_mem_terminated hkey)
    (hexKey_mem_terminated hk), Function.update_apply, h k hk]
  by_cases heq : k = key
  · rw [if_pos heq, if_pos (by rw [heq])]
  · rw [if_neg heq, if_neg fun h => heq (hexKey_injOn hk hkey h)]

theorem holds_remove {t : Tree} {m : Bytes → Option Bytes} (hwf : t.WF (fun _ => True) terminated)
    (h : Holds t m) {key : Bytes} (hkey : Ascii key) :
    Holds (t.remove (hexKey key)) (Function.update m key none) := by
  intro k hk
  rw [RadixTree.get_remove antichain_terminated hwf (hexKey_mem_terminated hkey)
    (hexKey_mem_terminated hk), Function.update_apply, h k hk]
  by_cases heq : k = key
  · rw [if_pos heq, if_pos (by rw [heq])]
  · rw [if_neg heq, if_neg fun h => heq (hexKey_injOn hk hkey h)]

theorem holds_setAll : ∀ (kvs : List (Bytes × Bytes)) {t : Tree} {m : Bytes → Option Bytes},
    (∀ e ∈ kvs, Ascii e.1) → t.WF (fun _ => True) terminated → Holds t m →
    Holds (setAll t kvs) (kvs.foldl (fun m e => Function.update m e.1 (some e.2)) m)
  | [], _, _, _, _, h => h
  | (key, val) :: kvs, t, m, hascii, hwf, h => by
    have hkey : Ascii key := hascii (key, val) List.mem_cons_self
    exact holds_setAll kvs (fun e he => hascii e (List.mem_cons_of_mem _ he))
      (RadixTree.wf_insert antichain_terminated hwf (hexKey_mem_terminated hkey) trivial)
      (holds_insert hwf h hkey val)

theorem Op.holds {t : Tree} {m : Bytes → Option Bytes} (hwf : t.WF (fun _ => True) terminated)
    (h : Holds t m) (op : Op) (hascii : ∀ k ∈ op.keys, Ascii k) :
    Holds (op.tree t) (op.update m) := by
  cases op with
  | get key => exact h
  | set key val => exact holds_insert hwf h (hascii key (List.mem_singleton_self _)) val
  | setBatch kvs => exact holds_setAll kvs (fun e he => hascii e.1 (List.mem_map_of_mem he)) hwf h
  | remove key => exact holds_remove hwf h (hascii key (List.mem_singleton_self _))

/-! ### Sizes -/

/-- The keys `P'` and the values in `Q` bound the nodes of a tree. -/
theorem fits_of_wf {P P' : Set (List (Fin 17))} {Q : Bytes → Prop}
    (hsmall : ∀ k ∈ P', ∀ v, Q v ∨ v = [] → k.length + v.length + 417 < 2 ^ 32)
    {t : Tree} (hT : Tails P) (hlen : ∀ k ∈ P, ∃ k' ∈ P', k.length ≤ k'.length)
    (h : t.WF Q P) : Fits t := by
  induction t generalizing P with
  | nil => exact fits_nil
  | value v =>
    obtain ⟨k', hk', -⟩ := hlen _ h.1
    have := hsmall k' hk' v (Or.inl h.2)
    show nodeSize (.value v) < 2 ^ 32
    rw [nodeSize, kMetaLength]
    omega
  | short key child ih =>
    obtain ⟨-, -, ⟨k, hk, hpre⟩, -, hchild⟩ := h
    refine ⟨?_, ih (hT.after key) (fun k hk => ?_) hchild⟩
    · obtain ⟨k', hk', hle⟩ := hlen k hk
      have hkey := hpre.length_le
      have h0 := hsmall k' hk' [] (Or.inr rfl)
      rw [List.length_nil] at h0
      rw [nodeSize]
      cases child with
      | value v =>
        have hv := hsmall k' hk' v (Or.inl hchild.2)
        simp only [isValue, if_true, nodeSize, kMetaLength]
        omega
      | _ => simp only [isValue, Bool.false_eq_true, if_false, kMetaLength, kHashSize,
          kByteLength]; omega
    · obtain ⟨k', hk', hle⟩ := hlen _ (RadixTree.mem_after.mp hk)
      rw [List.length_append] at hle
      exact ⟨k', hk', by omega⟩
  | full kids ih =>
    have hlast := kid_last hT h
    obtain ⟨hnil, ⟨k, hk⟩, hkids⟩ := h
    refine ⟨?_, fun i => ih i (hT.after [i]) (fun k hk => ?_) (hkids i)⟩
    · obtain ⟨k', hk', hle⟩ := hlen k hk
      have hpos : 0 < k.length := List.length_pos_iff.mpr fun hn => hnil (hn ▸ hk)
      rw [nodeSize]
      rcases hlast with hn | ⟨v, hv⟩
      · have h0 := hsmall k' hk' [] (Or.inr rfl)
        rw [List.length_nil] at h0
        simp only [hn, nodeSize, kMetaLength, kHashSize, kByteLength]
        omega
      · have hQ := hkids 16
        rw [hv] at hQ
        have := hsmall k' hk' v (Or.inl hQ.2)
        simp only [hv, nodeSize, kMetaLength, kHashSize, kByteLength]
        omega
    · obtain ⟨k', hk', hle⟩ := hlen _ (RadixTree.mem_after.mp hk)
      rw [List.length_append] at hle
      exact ⟨k', hk', by omega⟩

/-- The trees of a batch hold its keys and values only. -/
theorem wf_setTrace {P : Set (List (Fin 17))} {Q : Bytes → Prop} (hP : IsAntichain (· <+: ·) P) :
    ∀ (kvs : List (Bytes × Bytes)) {t : Tree}, (∀ e ∈ kvs, hexKey e.1 ∈ P ∧ Q e.2) → t.WF Q P →
      (setAll t kvs).WF Q P ∧ ∀ s ∈ setTrace t kvs, s.WF Q P
  | [], _, _, h => ⟨h, by simp [setTrace]⟩
  | (key, val) :: kvs, t, hkvs, h => by
    obtain ⟨hkey, hval⟩ := hkvs (key, val) List.mem_cons_self
    have hwf := RadixTree.wf_insert hP h hkey hval
    obtain ⟨hall, htrace⟩ :=
      wf_setTrace hP kvs (fun e he => hkvs e (List.mem_cons_of_mem _ he)) hwf
    refine ⟨hall, fun s hs => ?_⟩
    rcases List.mem_cons.mp hs with rfl | hs
    · exact hwf
    · exact htrace s hs

/-- The trees of a call hold the keys and values of the call only. -/
theorem Op.wf {P : Set (List (Fin 17))} {Q : Bytes → Prop} (hP : IsAntichain (· <+: ·) P)
    {t : Tree} (h : t.WF Q P) (op : Op) (hkeys : ∀ k ∈ op.keys, hexKey k ∈ P)
    (hvals : ∀ v ∈ op.vals, Q v) : (op.tree t).WF Q P ∧ ∀ s ∈ op.trees t, s.WF Q P := by
  cases op with
  | get key => exact ⟨h, by simp [Op.trees]⟩
  | set key val =>
    have hwf := RadixTree.wf_insert hP h (hkeys key (List.mem_singleton_self _))
      (hvals val (List.mem_singleton_self _))
    exact ⟨hwf, by simpa [Op.trees] using hwf⟩
  | setBatch kvs =>
    exact wf_setTrace hP kvs (fun e he =>
      ⟨hkeys _ (List.mem_map_of_mem he), hvals _ (List.mem_map_of_mem he)⟩) h
  | remove key =>
    have hwf := RadixTree.wf_remove hP h (hkeys key (List.mem_singleton_self _))
    exact ⟨hwf, by simpa [Op.trees] using hwf⟩

/-- The trees of a history hold its keys and values only. -/
theorem wf_treesFrom {P : Set (List (Fin 17))} {Q : Bytes → Prop} (hP : IsAntichain (· <+: ·) P) :
    ∀ (hist : List Call) (ts : List Tree),
      (∀ c ∈ hist, (∀ k ∈ c.op.keys, hexKey k ∈ P) ∧ ∀ v ∈ c.op.vals, Q v) →
      (∀ t ∈ ts, t.WF Q P) → ∀ s ∈ treesFrom hist ts, s.WF Q P
  | [], _, _, _ => by simp [treesFrom]
  | c :: hist, ts, hhist, hts => by
    have hbase : (ts.getD c.base .nil).WF Q P := by
      rw [List.getD_eq_getElem?_getD]
      cases hget : ts[c.base]? with
      | none => trivial
      | some t => exact hts t (List.mem_of_getElem? hget)
    obtain ⟨hkeys, hvals⟩ := hhist c List.mem_cons_self
    obtain ⟨htree, htrees⟩ := c.op.wf hP hbase hkeys hvals
    intro s hs
    rcases List.mem_append.mp hs with hs | hs
    · exact htrees s hs
    · refine wf_treesFrom hP hist _ (fun c hc => hhist c (List.mem_cons_of_mem _ hc)) ?_ s hs
      intro t ht
      rcases List.mem_append.mp ht with ht | ht
      · exact hts t ht
      · rw [List.mem_singleton.mp ht]
        exact htree

/-- The trees of a history with small keys and values fit. -/
theorem fits_treesFrom {hist : List Call} (hascii : ∀ c ∈ hist, ∀ k ∈ c.op.keys, Ascii k)
    (hsmall : Small hist) : ∀ s ∈ treesFrom hist [.nil], Fits s := by
  have hsub : {k | ∃ key ∈ hist.flatMap fun c => c.op.keys, k = hexKey key} ⊆ terminated := by
    rintro k ⟨key, hkey, rfl⟩
    obtain ⟨c, hc, hkey⟩ := List.mem_flatMap.mp hkey
    exact hexKey_mem_terminated (hascii c hc key hkey)
  intro s hs
  have hwf := wf_treesFrom (Q := (· ∈ hist.flatMap fun c => c.op.vals))
    (antichain_terminated.subset hsub) hist [.nil]
    (fun c hc => ⟨fun k hk => ⟨k, List.mem_flatMap.mpr ⟨c, hc, hk⟩, rfl⟩,
      fun v hv => List.mem_flatMap.mpr ⟨c, hc, hv⟩⟩)
    (by rintro t ht; rw [List.mem_singleton.mp ht]; trivial) s hs
  refine fits_of_wf ?_ (tails_terminated.mono hsub) (fun k hk => ⟨k, hk, le_rfl⟩) hwf
  rintro k ⟨key, hkey, rfl⟩ v hv
  have := hsmall key hkey v (hv.elim (List.mem_cons_of_mem _) fun h => h ▸ List.mem_cons_self)
  rw [length_hexKey]
  omega

/-! ### One call -/

/-- A version in the store. -/
structure Stored (H : Bytes → Hash) (S : Set Bytes) (db : DB) (t : Tree) : Prop where
  wf : t.WF (fun _ => True) terminated
  good : Good H S t
  held : Held H db t

theorem Stored.mono {db db' : DB} {t : Tree} (h : Stored H S db t) (hsub : db.rocks ⊆ db'.rocks) :
    Stored H S db' t :=
  ⟨h.wf, h.good, h.held.mono hsub⟩

theorem Stored.version {db : DB} {t : Tree} (hok : StoreOk H S db) (hnilS : enc H .nil ∈ S)
    (h : Stored H S db t) : Version H S (knowStore H S db) t :=
  ⟨h.wf, h.good, h.held.known hok h.good.chunks hnilS⟩

theorem known_nil {db : DB} (hok : StoreOk H S db) (hnilS : enc H .nil ∈ S) :
    Known H (knowStore H S db) .nil :=
  held_nil.known hok (fun _ => hnilS) hnilS

/-- **`Get`** on a stored version. -/
theorem Stored.get_runIn {db : DB} {t : Tree} (hinj : Set.InjOn H S) (hok : StoreOk H S db)
    (hnilS : enc H .nil ∈ S) (h : Stored H S db t) {key : Bytes} (hkey : Ascii key) :
    (Trie.get H (H (enc H t)) key).runIn (knowStore H S db)
      = some (.ok ((t.get (hexKey key)).getD [])) := by
  have hv := isValue_of_wf h.wf
  exact Mpt.get_runIn antichain_terminated tails_terminated h.wf h.good.fits
    (h.version hok hnilS).known hv
    (fun hne heq => enc_ne_nil hne (hinj (h.good.chunks.node hv) hnilS heq)) hkey
    (hexKey_mem_terminated hkey)

/-- A call on a stored version is known to commit. -/
theorem Op.commits {db : DB} {t : Tree} (hinj : Set.InjOn H S) (hok : StoreOk H S db)
    (hnilS : enc H .nil ∈ S) (h : Stored H S db t) (op : Op) (hascii : ∀ k ∈ op.keys, Ascii k)
    (hchunks : ∀ s ∈ op.trees t, Chunks H S s) :
    Commits H S (knowStore H S db) (op.tree t) (op.trees t) (op.call H (H (enc H t))) := by
  have hver := h.version hok hnilS
  have hnil := known_nil hok hnilS
  cases op with
  | get key =>
    refine Or.inr ⟨[], ?_, by simp [PutsOk], hver.known.persists, h.wf, h.good⟩
    rw [Op.call, Ask.runIn_bind_ok _ _
      (h.get_runIn hinj hok hnilS (hascii key (List.mem_singleton_self _)))]
    rfl
  | set key val =>
    exact commits_set hinj hnilS hnil hver (hascii key (List.mem_singleton_self _))
      (hchunks _ (List.mem_singleton_self _))
  | setBatch kvs =>
    exact commits_setBatch hinj hnilS hnil hver
      (fun e he => hascii e.1 (List.mem_map_of_mem he)) hchunks
  | remove key =>
    exact commits_remove hinj hnilS hnil hver (hascii key (List.mem_singleton_self _))
      (hchunks _ (List.mem_singleton_self _))

/-- **A call on a stored version** adds the new version to the store and keeps the old ones, or a
tree on the way does not fit. -/
theorem Op.step {db : DB} {t : Tree} (hinj : Set.InjOn H S) (hok : StoreOk H S db)
    (hnilS : enc H .nil ∈ S) (h : Stored H S db t) (op : Op) (hascii : ∀ k ∈ op.keys, Ascii k)
    (hchunks : ∀ s ∈ op.trees t, Chunks H S s) :
    ((db.reads (op.call H (H (enc H t)))).1 = .error .oversize ∧ ∃ s ∈ op.trees t, ¬ Fits s) ∨
    ∃ puts db', db.reads (op.call H (H (enc H t))) = (.ok (H (enc H (op.tree t)), puts), db') ∧
      PutsOk H S puts ∧ db'.rocks = db.rocks ∧ StoreOk H S db' ∧
      Stored H S (db'.putHashes puts) (op.tree t) := by
  rcases op.commits hinj hok hnilS h hascii hchunks with
    ⟨hno, herr⟩ | ⟨puts, hrun, hputs, hpers, hwf, hgood⟩
  · exact Or.inl ⟨(hok.reads_of_runIn hinj herr).1, hno⟩
  · obtain ⟨hres, hok', hrocks⟩ := hok.reads_of_runIn hinj hrun
    refine Or.inr ⟨puts, _, Prod.ext hres rfl, hputs, hrocks, hok', hwf, hgood, ?_⟩
    refine hpers.held fun k c hk => ?_
    rw [hrocks]
    exact hok.mem_of_know hk

/-! ### Histories on a store -/

/-- The trees of the versions, with what they should hold. -/
structure Versions (H : Bytes → Hash) (S : Set Bytes) (db : DB) (ts : List Tree)
    (ms : List (Bytes → Option Bytes)) : Prop where
  store : StoreOk H S db
  stored : ∀ t ∈ ts, Stored H S db t
  holds : List.Forall₂ Holds ts ms

/-- Every version reads as the map that it should hold. -/
def ReadsAs (H : Bytes → Hash) (db : DB) (roots : List Hash) (ms : List (Bytes → Option Bytes)) :
    Prop :=
  List.Forall₂ (fun root m => ∀ k, Ascii k →
    (db.reads (Trie.get H root k)).1 = .ok ((m k).getD [])) roots ms

theorem Versions.readsAs {db : DB} {ts : List Tree} {ms : List (Bytes → Option Bytes)}
    (hinj : Set.InjOn H S) (hnilS : enc H .nil ∈ S) (h : Versions H S db ts ms) :
    ReadsAs H db (ts.map fun t => H (enc H t)) ms := by
  rw [ReadsAs, List.forall₂_map_left_iff]
  refine (List.forall₂_and_left _ _ |>.mpr ⟨h.stored, h.holds⟩).imp ?_
  rintro t m ⟨hst, hholds⟩ k hk
  rw [(h.store.reads_of_runIn hinj (hst.get_runIn hinj h.store hnilS hk)).1, hholds k hk]

/-- **A history keeps every version**, or one of its trees does not fit. -/
theorem runFrom_spec (hinj : Set.InjOn H S) (hnilS : enc H .nil ∈ S) :
    ∀ (hist : List Call) (db : DB) (ts : List Tree) (ms : List (Bytes → Option Bytes)),
      Versions H S db ts ms → Based ts.length hist →
      (∀ c ∈ hist, ∀ k ∈ c.op.keys, Ascii k) → (∀ s ∈ treesFrom hist ts, Chunks H S s) →
      (runFrom H hist (ts.map fun t => H (enc H t)) db = .error .oversize ∧
        ∃ s ∈ treesFrom hist ts, ¬ Fits s) ∨
      ∃ db', runFrom H hist (ts.map fun t => H (enc H t)) db
          = .ok ((versionsFrom hist ts).map fun t => H (enc H t), db') ∧
        Versions H S db' (versionsFrom hist ts) (mapsFrom hist ms)
  | [], db, ts, ms, h, _, _, _ => Or.inr ⟨db, rfl, h⟩
  | c :: hist, db, ts, ms, h, ⟨hbase, hbased⟩, hascii, hchunks => by
    have hlen := h.holds.length_eq
    have hbase' : c.base < ms.length := by omega
    have hget : ts.getD c.base .nil = ts[c.base] := by simp [hbase]
    have hmget : ms.getD c.base (fun _ => none) = ms[c.base] := by simp [hbase']
    have hst := h.stored _ (List.getElem_mem hbase)
    rw [treesFrom, hget] at hchunks
    rw [runFrom, treesFrom, mapsFrom, versionsFrom, hget, hmget,
      at?_of_lt (by rw [List.length_map]; exact hbase), ok_bind, List.getElem_map]
    rcases c.op.step hinj h.store hnilS hst (hascii c List.mem_cons_self)
      (fun s hs => hchunks s (List.mem_append_left _ hs)) with
      ⟨herr, s, hs, hno⟩ | ⟨puts, db', hreads, hputs, hrocks, hok, hnew⟩
    · refine Or.inl ⟨?_, s, List.mem_append_left _ hs, hno⟩
      simp only [herr, error_bind]
    · have hnext : Versions H S (db'.putHashes puts) (ts ++ [c.op.tree ts[c.base]])
          (ms ++ [c.op.update ms[c.base]]) := by
        have hsub : db.rocks ⊆ (db'.putHashes puts).rocks := by
          rw [(rocks_putHashes puts _).1, hrocks]
          exact List.subset_append_right _ _
        refine ⟨hok.putHashes hinj hputs, fun t ht => ?_, ?_⟩
        · rcases List.mem_append.mp ht with ht | ht
          · exact (h.stored t ht).mono hsub
          · rw [List.mem_singleton.mp ht]
            exact hnew
        · refine List.rel_append h.holds (.cons ?_ .nil)
          refine c.op.holds hst.wf ?_ (hascii c List.mem_cons_self)
          exact (List.forall₂_iff_get.mp h.holds).2 c.base hbase hbase'
      rcases runFrom_spec hinj hnilS hist _ _ _ hnext (by simpa using hbased)
        (fun c hc => hascii c (List.mem_cons_of_mem _ hc))
        (fun s hs => hchunks s (List.mem_append_right _ hs)) with ⟨herr, s, hs, hno⟩ | hrest
      · refine Or.inl ⟨?_, s, List.mem_append_right _ hs, hno⟩
        simp only [hreads, ok_bind]
        simpa using herr
      · refine Or.inr ?_
        simp only [hreads, ok_bind]
        simpa using hrest

/-- The chunks of a tree are those in its `chunkList`. -/
theorem chunks_of_chunkList {t : Tree} (h : ∀ c ∈ chunkList H t, c ∈ S) : Chunks H S t := by
  induction t with
  | nil => exact fun _ => h _ (List.mem_singleton_self _)
  | value v => exact fun hv => by simp [isValue] at hv
  | short key child ih =>
    exact ⟨fun _ => h _ List.mem_cons_self, ih fun c hc => h c (List.mem_cons_of_mem _ hc)⟩
  | full kids ih =>
    refine ⟨fun _ => h _ List.mem_cons_self, fun i => ih i fun c hc => ?_⟩
    exact h c (List.mem_cons_of_mem _ (List.mem_flatMap.mpr ⟨i, List.mem_finRange i, hc⟩))

/-- **A history on an empty store** keeps every version, or one of its trees does not fit. -/
theorem run_spec (H : Bytes → Hash) (hist : List Call) (hbased : Based 1 hist)
    (hascii : ∀ c ∈ hist, ∀ k ∈ c.op.keys, Ascii k)
    (hinj : Set.InjOn H {c | c ∈ historyChunks H hist}) :
    (run H hist = .error .oversize ∧ ¬ Small hist) ∨
      ∃ db, run H hist = .ok ((versionsFrom hist [.nil]).map fun t => H (enc H t), db) ∧
        Versions H {c | c ∈ historyChunks H hist} db (versionsFrom hist [.nil]) (maps hist) := by
  have hnilS : enc H .nil ∈ {c | c ∈ historyChunks H hist} := List.mem_cons_self
  have hchunks : ∀ s ∈ treesFrom hist [.nil], Chunks H {c | c ∈ historyChunks H hist} s := by
    intro s hs
    refine chunks_of_chunkList fun c hc => ?_
    exact List.mem_cons_of_mem _ (List.mem_flatMap.mpr ⟨s, hs, hc⟩)
  have hempty : Versions H {c | c ∈ historyChunks H hist} {} [.nil] [fun _ => none] := by
    refine ⟨⟨by simp, by simp⟩, fun t ht => ?_, .cons (fun _ _ => rfl) .nil⟩
    rw [List.mem_singleton.mp ht]
    exact ⟨trivial, ⟨fits_nil, fun _ => hnilS, fun kids hk => by cases hk⟩, held_nil⟩
  rw [run, hash_nil]
  rcases runFrom_spec hinj hnilS hist {} [.nil] _ hempty hbased hascii hchunks with
    ⟨herr, s, hs, hno⟩ | hrun
  · exact Or.inl ⟨herr, fun hsmall => hno (fits_treesFrom hascii hsmall s hs)⟩
  · exact Or.inr hrun

/-- **The trie is a map with persistent versions**: after any history, `Get` on each version, old
or new, returns what was last set in the calls that led to it, and `""` for nothing.  A history
that does not return met a tree that does not fit. -/
theorem get_run (H : Bytes → Hash) (hist : List Call) (hbased : Based 1 hist)
    (hascii : ∀ c ∈ hist, ∀ k ∈ c.op.keys, Ascii k)
    (hinj : Set.InjOn H {c | c ∈ historyChunks H hist}) :
    (∃ roots db, run H hist = .ok (roots, db) ∧ ReadsAs H db roots (maps hist)) ∨
      (run H hist = .error .oversize ∧ ¬ Small hist) := by
  rcases run_spec H hist hbased hascii hinj with herr | ⟨db, hrun, hversions⟩
  · exact Or.inr herr
  · exact Or.inl ⟨_, db, hrun, hversions.readsAs hinj List.mem_cons_self⟩

end

/-- BLAKE2b on the nil chunk and on the tries that hold `x`, or `y`, under the key `a`. -/
def hashXY : Bytes → Hash := Hash.ofTable
  [([5, 0, 0, 0, 4], "OU62L3IC44LMMXS3ZENWNLMC264F6BD5"),
    ([26, 0, 0, 0, 1, 1, 0, 0, 0, 0, 0, 0, 0, 3, 0, 0, 0, 6, 1, 16, 6, 0, 0, 0, 3, 120],
      "XV3X2W6TWGRY2AQKH2FMEZKMYTZHGL65"),
    ([26, 0, 0, 0, 1, 1, 0, 0, 0, 0, 0, 0, 0, 3, 0, 0, 0, 6, 1, 16, 6, 0, 0, 0, 3, 121],
      "V4HTPOX3WKOWLEHDUKDCFQ3CPTQYSSRH")]

/-- The key `a` is set, set again, and removed. -/
def historyXY : List Call :=
  [⟨0, .set (str "a") (str "x")⟩, ⟨1, .setBatch [(str "a", str "y")]⟩, ⟨2, .remove (str "a")⟩]

/-- After the removal the two earlier versions still hold `x` and `y`. -/
theorem get_run_set_set_remove :
    Based 1 historyXY ∧ (∀ c ∈ historyXY, ∀ k ∈ c.op.keys, Ascii k) ∧
      Set.InjOn hashXY {c | c ∈ historyChunks hashXY historyXY} ∧
      ∃ r0 r1 r2 r3 db, run hashXY historyXY = .ok ([r0, r1, r2, r3], db) ∧
        (db.reads (Trie.get hashXY r0 (str "a"))).1 = .ok [] ∧
        (db.reads (Trie.get hashXY r1 (str "a"))).1 = .ok (str "x") ∧
        (db.reads (Trie.get hashXY r2 (str "a"))).1 = .ok (str "y") ∧
        (db.reads (Trie.get hashXY r3 (str "a"))).1 = .ok [] := by
  have hbased : Based 1 historyXY := by simp [historyXY, Based]
  have hascii : ∀ c ∈ historyXY, ∀ k ∈ c.op.keys, Ascii k := by
    have h : ∀ c ∈ historyXY, ∀ k ∈ c.op.keys, ∀ b ∈ k, b.toNat < 128 := by decide +kernel
    exact h
  have hinj : Set.InjOn hashXY {c | c ∈ historyChunks hashXY historyXY} := by
    have h : ∀ c ∈ historyChunks hashXY historyXY, ∀ c' ∈ historyChunks hashXY historyXY,
      hashXY c = hashXY c' → c = c' := by decide +kernel
    exact fun c hc c' hc' => h c hc c' hc'
  have hsmall : Small historyXY := by
    simp [Small, historyXY, Op.keys, Op.vals, str]
  refine ⟨hbased, hascii, hinj, ?_⟩
  rcases get_run hashXY historyXY hbased hascii hinj with ⟨roots, db, hrun, hreads⟩ | ⟨-, hbig⟩
  · have ha : Ascii (str "a") := hascii _ List.mem_cons_self _ List.mem_cons_self
    have hmaps : maps historyXY = [fun _ => none, Function.update (fun _ => none) (str "a")
      (some (str "x")), Function.update (Function.update (fun _ => none) (str "a")
      (some (str "x"))) (str "a") (some (str "y")), Function.update (Function.update
      (Function.update (fun _ => none) (str "a") (some (str "x"))) (str "a") (some (str "y")))
      (str "a") none] := rfl
    rw [hmaps] at hreads
    obtain _ | ⟨h0, _ | ⟨h1, _ | ⟨h2, _ | ⟨h3, _ | _⟩⟩⟩⟩ := hreads
    refine ⟨_, _, _, _, db, hrun, h0 _ ha, ?_, ?_, ?_⟩
    · simpa using h1 _ ha
    · simpa using h2 _ ha
    · simpa using h3 _ ha
  · exact absurd hsmall hbig

end LedgerDatabase.Ledgerdb.Mpt
