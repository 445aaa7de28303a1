import LedgerDatabase.Common.Equiv.DB
import LedgerDatabase.Qldb.BTree
import LedgerDatabase.Qldb.Equiv.BTreeNode

/-!
# The nodes of a B+ tree

`Node d s pre n id es c`: the chunk `c` is a node of level `n` with the id `id`, and the entries below
it are `es`.  Its children are found under their names, first among the nodes `d` that the batch has
changed and then in the store `s` (`Slot`).  A node that the batch has not changed has no changed node
below it.

What is below a node stands under the names `Names`, so two nodes with disjoint entries do not share
one, and a write under other names leaves the node as it is (`Slot.congr`).
-/

namespace LedgerDatabase.Qldb.QLBTree

/-! ### Names -/

/-- The largest key. -/
def lastKey (es : StdMap Bytes) : Option Bytes := es.getLast?.map Prod.fst

/-- The names that a node with the id `id` and the nodes below it can have. -/
def Names (pre : Bytes) (n : ℕ) (id : Bytes) (es : StdMap Bytes) (y : Bytes) : Prop :=
  ∃ m ≤ n, ∃ x, (x = id ∨ x ∈ es.map Prod.fst) ∧ y = nodeId pre m x

section Names

variable {pre id id' y : Bytes} {n n' : ℕ} {es es' : StdMap Bytes}

theorem names_self : Names pre n id es (nodeId pre n id) := ⟨n, le_rfl, id, Or.inl rfl, rfl⟩

theorem Names.mono (h : Names pre n id es y) (hn : n ≤ n')
    (hid : id = id' ∨ id ∈ es'.map Prod.fst) (hes : ∀ k ∈ es.map Prod.fst, k ∈ es'.map Prod.fst) :
    Names pre n' id' es' y := by
  obtain ⟨m, hm, x, hx, rfl⟩ := h
  refine ⟨m, hm.trans hn, x, ?_, rfl⟩
  rcases hx with rfl | hx
  · exact hid
  · exact Or.inr (hes x hx)

/-- Nodes below different parts of an entry list have different names. -/
theorem Names.disjoint (h : Names pre n id es y) (h' : Names pre n' id' es' y) (hne : id ≠ id')
    (hid : id ∉ es'.map Prod.fst) (hid' : id' ∉ es.map Prod.fst)
    (hes : ∀ k ∈ es.map Prod.fst, k ∉ es'.map Prod.fst) : False := by
  obtain ⟨m, -, x, hx, rfl⟩ := h
  obtain ⟨m', -, x', hx', heq⟩ := h'
  obtain ⟨-, rfl⟩ := nodeId_inj.mp heq
  rcases hx with rfl | hx <;> rcases hx' with rfl | hx'
  · exact hne rfl
  · exact hid hx'
  · exact hid' hx
  · exact hes x hx hx'

theorem not_names_of_level {m : ℕ} {x : Bytes} (h : n < m) : ¬ Names pre n id es (nodeId pre m x) := by
  rintro ⟨m', hm', x', -, heq⟩
  obtain ⟨rfl, -⟩ := nodeId_inj.mp heq
  omega

theorem not_names_rootId : ¬ Names pre n id es (rootId pre) := by
  rintro ⟨m, -, x, -, heq⟩
  exact nodeId_ne_rootId _ _ _ heq.symm

end Names

/-! ### Nodes -/

/-- The children of an inner node with their entries, for the ids and the last one. -/
abbrev Kids := List (Bytes × StdMap Bytes)

/-- All children; the last node of a level has the child `_INFI_`, and in the others `tail` is empty. -/
def withTail (kids : Kids) (tail : StdMap Bytes) : Kids := kids ++ [(infi, tail)]

/-- The entries below the children. -/
def entriesOf (kids : Kids) : StdMap Bytes := kids.flatMap Prod.snd

/-- The ids of the children with their numbers of elements. -/
def counts (kids : Kids) : List (Bytes × ℕ) := kids.map fun p => (p.1, p.2.length)

/-- The chunk `c` is an inner node over the children `kids`, which have `P`. -/
structure Inner (P : Bytes → StdMap Bytes → Prop) (n : ℕ) (id : Bytes) (es : StdMap Bytes) (c : Bytes)
    (kids : Kids) (tail : StdMap Bytes) : Prop where
  entries : es = entriesOf (withTail kids tail)
  encoded : QLBTreeMeta.encode n ((counts kids).map Prod.fst)
    ((counts kids).map Prod.snd ++ [tail.length]) = .ok c
  kids_ne : kids ≠ []
  tail_iff : tail = [] ↔ id ≠ infi
  sep : ∀ p ∈ kids, lastKey p.2 = some p.1
  kid : ∀ p ∈ withTail kids tail, p.2 ≠ [] → P p.1 p.2

section

variable (d s : Bytes → Option Bytes) (pre : Bytes)

/-- A node with `N` stands under its name; if it is not a changed one, then none below it is. -/
structure Stands (N : Bytes → StdMap Bytes → Bytes → Prop) (n : ℕ) (id : Bytes) (es : StdMap Bytes) :
    Prop where
  clean : d (nodeId pre n id) = none → ∀ y, Names pre n id es y → d y = none
  node : ∃ c, (d (nodeId pre n id)).or (s (nodeId pre n id)) = some c ∧ N id es c

/-- The chunk `c` is a node of level `n`. -/
def Node : (n : ℕ) → (id : Bytes) → (es : StdMap Bytes) → (c : Bytes) → Prop
  | 0, id, es, c => ∃ next, QLBTreeMap.encode 0 es next = .ok c ∧ (next = [] ↔ id = infi)
  | n + 1, id, es, c => ∃ kids tail, Inner (Stands d s pre (Node n) n) (n + 1) id es c kids tail

/-- A node of level `n` stands under its name. -/
def Slot (n : ℕ) (id : Bytes) (es : StdMap Bytes) : Prop := Stands d s pre (Node d s pre n) n id es

end

section

variable {d d' s s' : Bytes → Option Bytes} {pre id c : Bytes} {n : ℕ} {es : StdMap Bytes}

theorem node_zero : Node d s pre 0 id es c ↔
    ∃ next, QLBTreeMap.encode 0 es next = .ok c ∧ (next = [] ↔ id = infi) := Iff.rfl

theorem node_succ : Node d s pre (n + 1) id es c ↔
    ∃ kids tail, Inner (Slot d s pre n) (n + 1) id es c kids tail := Iff.rfl

/-! ### The entries below the children -/

@[simp]
theorem entriesOf_append (kids kids' : Kids) :
    entriesOf (kids ++ kids') = entriesOf kids ++ entriesOf kids' := List.flatMap_append

@[simp]
theorem entriesOf_cons (p : Bytes × StdMap Bytes) (kids : Kids) :
    entriesOf (p :: kids) = p.2 ++ entriesOf kids := List.flatMap_cons

@[simp]
theorem entriesOf_nil : entriesOf [] = [] := rfl

theorem mem_keys_of_lastKey {k : Bytes} (h : lastKey es = some k) : k ∈ es.map Prod.fst := by
  obtain ⟨e, he, rfl⟩ := Option.map_eq_some_iff.mp h
  exact List.mem_map_of_mem (List.mem_of_getLast? he)

theorem ne_nil_of_lastKey {k : Bytes} (h : lastKey es = some k) : es ≠ [] := by
  rintro rfl
  cases h

/-- The keys of a child are keys of the node. -/
theorem keys_entriesOf {kids : Kids} {p : Bytes × StdMap Bytes} (hp : p ∈ kids) :
    ∀ k ∈ p.2.map Prod.fst, k ∈ (entriesOf kids).map Prod.fst := by
  intro k hk
  obtain ⟨e, he, rfl⟩ := List.mem_map.mp hk
  exact List.mem_map_of_mem (List.mem_flatMap_of_mem hp he)

namespace Inner

variable {P P' : Bytes → StdMap Bytes → Prop} {kids : Kids} {tail : StdMap Bytes}

theorem imp (h : Inner P n id es c kids tail)
    (himp : ∀ p ∈ withTail kids tail, p.2 ≠ [] → P p.1 p.2 → P' p.1 p.2) :
    Inner P' n id es c kids tail :=
  { h with kid := fun p hp hne => himp p hp hne (h.kid p hp hne) }

/-- The id of a child is the one of the node or one of its keys. -/
theorem id_kid (h : Inner P n id es c kids tail) {p : Bytes × StdMap Bytes}
    (hp : p ∈ withTail kids tail) (hne : p.2 ≠ []) : p.1 = id ∨ p.1 ∈ es.map Prod.fst := by
  rcases List.mem_append.mp hp with hmem | hmem
  · right
    rw [h.entries]
    exact keys_entriesOf hp _ (mem_keys_of_lastKey (h.sep p hmem))
  · left
    obtain rfl := List.mem_singleton.mp hmem
    by_contra hid
    exact hne (h.tail_iff.mpr fun hinfi => hid hinfi.symm)

/-- The names below a child are names below the node. -/
theorem names_kid (h : Inner P n id es c kids tail) {p : Bytes × StdMap Bytes}
    (hp : p ∈ withTail kids tail) (hne : p.2 ≠ []) {m m' : ℕ} (hm : m ≤ m') {y : Bytes}
    (hy : Names pre m p.1 p.2 y) : Names pre m' id es y := by
  apply hy.mono hm (h.id_kid hp hne)
  rw [h.entries]
  exact keys_entriesOf hp

end Inner

/-- A node with children has entries. -/
theorem Inner.ne_nil {P : Bytes → StdMap Bytes → Prop} {kids : Kids} {tail : StdMap Bytes}
    (h : Inner P n id es c kids tail) : es ≠ [] := by
  obtain ⟨p, hp⟩ := List.exists_mem_of_ne_nil kids h.kids_ne
  obtain ⟨e, he⟩ := List.exists_mem_of_ne_nil p.2 (ne_nil_of_lastKey (h.sep p hp))
  rw [h.entries]
  exact List.ne_nil_of_mem (List.mem_flatMap_of_mem (List.mem_append_left _ hp) he)

theorem map_fst_counts (kids : Kids) : (counts kids).map Prod.fst = kids.map Prod.fst := by
  rw [counts, List.map_map]
  rfl

theorem map_snd_counts (kids : Kids) (tail : StdMap Bytes) :
    (counts kids).map Prod.snd ++ [tail.length] = (withTail kids tail).map fun p => p.2.length := by
  rw [counts, List.map_map, withTail, List.map_append]
  rfl

/-! ### Writes elsewhere -/

theorem Stands.imp {N N' : Bytes → StdMap Bytes → Bytes → Prop} (h : Stands d s pre N n id es)
    (hd : ∀ y, Names pre n id es y → d' y = d y) (hs : ∀ y, Names pre n id es y → s' y = s y)
    (himp : ∀ c, N id es c → N' id es c) : Stands d' s' pre N' n id es := by
  constructor
  · intro hnone y hy
    rw [hd _ names_self] at hnone
    rw [hd y hy]
    exact h.clean hnone y hy
  · obtain ⟨c, hc, hN⟩ := h.node
    refine ⟨c, ?_, himp c hN⟩
    rw [hd _ names_self, hs _ names_self, hc]

/-- A node depends only on what stands under the names below it. -/
theorem Node.congr : ∀ {n : ℕ} {id : Bytes} {es : StdMap Bytes} {c : Bytes}, Node d s pre n id es c →
    (∀ y, Names pre n id es y → d' y = d y) → (∀ y, Names pre n id es y → s' y = s y) →
    Node d' s' pre n id es c
  | 0, _, _, _, h, _, _ => h
  | n + 1, id, es, c, ⟨kids, tail, h⟩, hd, hs => by
    refine ⟨kids, tail, h.imp fun p hp hne hkid => ?_⟩
    have hd' : ∀ y, Names pre n p.1 p.2 y → d' y = d y := fun y hy =>
      hd y (h.names_kid hp hne (Nat.le_succ n) hy)
    have hs' : ∀ y, Names pre n p.1 p.2 y → s' y = s y := fun y hy =>
      hs y (h.names_kid hp hne (Nat.le_succ n) hy)
    exact hkid.imp hd' hs' fun c hc => hc.congr hd' hs'

theorem Slot.congr (h : Slot d s pre n id es) (hd : ∀ y, Names pre n id es y → d' y = d y)
    (hs : ∀ y, Names pre n id es y → s' y = s y) : Slot d' s' pre n id es :=
  Stands.imp h hd hs fun _ hc => hc.congr hd hs

/-! ### What a node says about itself -/

theorem levelOf_node (h : Node d s pre n id es c) : levelOf c = n := by
  cases n with
  | zero =>
    obtain ⟨next, hc, -⟩ := h
    exact QLBTreeMap.levelOf_encode hc
  | succ n =>
    obtain ⟨kids, tail, h⟩ := h
    exact QLBTreeMeta.levelOf_encode h.encoded

theorem length_entriesOf (kids : Kids) (tail : StdMap Bytes) :
    (entriesOf (withTail kids tail)).length = ((counts kids).map Prod.snd).sum + tail.length := by
  rw [withTail, entriesOf_append, List.length_append, entriesOf, List.length_flatMap, counts,
    List.map_map]
  simp [entriesOf, Function.comp_def]

theorem Inner.numElements {P : Bytes → StdMap Bytes → Prop} {kids : Kids} {tail : StdMap Bytes}
    (h : Inner P n id es c kids tail) : Qldb.numElements c = es.length := by
  rw [QLBTreeMeta.numElements_encode h.encoded, h.entries, length_entriesOf]

/-- **`numElements`** is the number of entries below the node. -/
theorem numElements_node (h : Node d s pre n id es c) : Qldb.numElements c = es.length := by
  cases n with
  | zero =>
    obtain ⟨next, hc, -⟩ := h
    exact QLBTreeMap.numElements_encode hc
  | succ n =>
    obtain ⟨kids, tail, h⟩ := h
    exact h.numElements

theorem bytes_node (h : Node d s pre n id es c) : Chunk.bytes c = c := by
  cases n with
  | zero =>
    obtain ⟨next, hc, -⟩ := h
    exact QLBTreeMap.bytes_encode hc
  | succ n =>
    obtain ⟨kids, tail, h⟩ := h
    exact QLBTreeMeta.bytes_encode h.encoded

theorem Inner.ofChunk {P : Bytes → StdMap Bytes → Prop} {kids : Kids} {tail : StdMap Bytes}
    (h : Inner P n id es c kids tail) : QLBTreeMeta.ofChunk c =
      ⟨n, kids.map Prod.fst, (withTail kids tail).map fun p => p.2.length⟩ := by
  rw [QLBTreeMeta.ofChunk_encode h.encoded, map_fst_counts, map_snd_counts]

/-- The child at an index. -/
theorem Inner.childId {P : Bytes → StdMap Bytes → Prop} {kids : Kids} {tail : StdMap Bytes}
    (h : Inner P n id es c kids tail) {i : ℕ} {p : Bytes × StdMap Bytes}
    (hp : (withTail kids tail)[i]? = some p) : (QLBTreeMeta.ofChunk c).childId i = .ok p.1 := by
  rw [h.ofChunk, QLBTreeMeta.childId, QLBTreeMeta.numEntries, List.length_map]
  split_ifs with hi
  · rw [withTail, List.getElem?_append_right hi.ge, hi, Nat.sub_self] at hp
    obtain rfl := Option.some.inj hp
    rfl
  · have hlt : i < kids.length := by
      have hlen := (List.getElem?_eq_some_iff.mp hp).1
      rw [withTail, List.length_append, List.length_singleton] at hlen
      omega
    rw [withTail, List.getElem?_append_left hlt] at hp
    rw [at?, List.getElem?_map, hp]
    rfl

end

end LedgerDatabase.Qldb.QLBTree
