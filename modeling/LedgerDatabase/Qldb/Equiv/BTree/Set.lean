import LedgerDatabase.Qldb.Equiv.BTree.Commit

/-!
# A B+ tree as a map

`Represents t db es`: the tree `t` over the store `db` has the entries `es`.  `Set` of a batch assigns
its keys one after the other (`set_spec`), and `Get` looks a key up (`get_eq`).  A tree depends only on
what stands under its own names (`IsName`), which start with its prefix.
-/

namespace LedgerDatabase.Qldb.QLBTree

open DB (WritesIn)
open Chunk

variable {s : Bytes → Option Bytes} {pre id c key : Bytes} {n : ℕ} {es : StdMap Bytes}
  {delta : QLBTreeDelta} {db db' : DB} {cfg : BPlusConfig} {t : QLBTree} {batch : List (Bytes × Bytes)}

/-! ### The entries -/

/-- The entries after a batch. -/
def assignAll (es : StdMap Bytes) (batch : List (Bytes × Bytes)) : StdMap Bytes :=
  batch.foldl (fun es e => es.assign e.1 e.2) es

@[simp]
theorem assignAll_nil : assignAll es [] = es := rfl

@[simp]
theorem assignAll_cons (e : Bytes × Bytes) :
    assignAll es (e :: batch) = assignAll (es.assign e.1 e.2) batch := rfl

theorem ordered_assignAll (h : es.Ordered) : (assignAll es batch).Ordered := by
  induction batch generalizing es with
  | nil => exact h
  | cons e batch ih => exact ih (h.assign e.1 e.2)

theorem mem_keys_assignAll {k : Bytes} :
    k ∈ (assignAll es batch).map Prod.fst ↔ k ∈ batch.map Prod.fst ∨ k ∈ es.map Prod.fst := by
  induction batch generalizing es with
  | nil => simp
  | cons e batch ih =>
    rw [assignAll_cons, ih, StdMap.keys_assign, List.map_cons, List.mem_cons]
    tauto

/-- No key is the reserved one. -/
def NoInfi (es : List (Bytes × Bytes)) : Prop := infi ∉ es.map Prod.fst

theorem NoInfi.assign {value : Bytes} (h : NoInfi es) (hkey : key ≠ infi) :
    NoInfi (es.assign key value) := by
  rw [NoInfi, StdMap.keys_assign, not_or]
  exact ⟨hkey.symm, h⟩

theorem NoInfi.assignAll (h : NoInfi es) (hbatch : NoInfi batch) : NoInfi (assignAll es batch) := by
  rw [NoInfi, mem_keys_assignAll, not_or]
  exact ⟨hbatch, h⟩

/-! ### The loop of `Set` -/

theorem chunkType_node {d : Bytes → Option Bytes} (h : Node d s pre n id es c) :
    chunkType c = .kMeta ∨ chunkType c = .kMap := by
  cases n with
  | zero =>
    obtain ⟨next, hc, -⟩ := h
    exact Or.inr (QLBTreeMap.chunkType_encode hc)
  | succ n =>
    obtain ⟨kids, tail, h⟩ := h
    exact Or.inl (QLBTreeMeta.chunkType_encode h.encoded)

theorem createFromChunk_node {d : Bytes → Option Bytes} (h : Node d s pre n id es c) :
    createFromChunk (some c) = .ok c := by
  rw [createFromChunk, if_pos (chunkType_node h)]

theorem lt_depth_node {d : Bytes → Option Bytes} (h : Node d s pre n id es c) : n < depth c := by
  rw [depth, levelOf_node h]
  exact Nat.lt_succ_self n

/-- **The root after an insertion**: one that was cut gets a new one above it. -/
theorem newRootId_spec {d : Bytes → Option Bytes} {r : QLBTreeInsertResult} {left : Kids}
    {right : StdMap Bytes} (hins : Inserted d delta.getChunk s pre n infi es r left right) :
    Outcome (· = Fault.oversize)
      (fun r' => ∃ n' c, r'.1 = nodeId pre n' infi ∧ r'.2.getChunk r'.1 = some c ∧
        Node r'.2.getChunk s pre n' infi es c)
      (newRootId pre r delta) := by
  have hslot := fun p (hp : p ∈ left ++ [(infi, right)]) => hins.slot hp
  unfold newRootId
  rw [hins.level]
  rcases hins.split with ⟨rfl, hsplit⟩ | ⟨l, rfl, hlast, hsplit⟩
  · -- the root keeps its level
    rw [if_neg (by rw [hsplit]; exact Bool.false_ne_true)]
    obtain ⟨c, hc, hnode⟩ := hins.nodes (infi, right) (List.mem_singleton_self _)
    have hes : es = right := hins.entries
    rw [← hes] at hnode
    exact ⟨n, c, rfl, hc, hnode⟩
  · -- a new root over the two parts
    rw [if_pos hsplit, hins.numElems]
    apply (QLBTreeMeta.encode_outcome _ _ _).bind
    intro c hc
    have hes : es = entriesOf (withTail [(r.splitKey, l)] right) := by
      rw [hins.entries, withTail, entriesOf_append]
      simp only [entriesOf_cons, entriesOf_nil, List.append_nil]
    have hi : Inner (Slot delta.getChunk s pre n) (n + 1) infi es c [(r.splitKey, l)] right := by
      rw [hes]
      apply inner_of_encode (fun q hq _ => hslot q hq) (List.cons_ne_nil _ _)
        (iff_of_false hins.right_ne (not_not.mpr rfl)) _ hc
      intro q hq
      obtain rfl := List.mem_singleton.mp hq
      exact hlast
    refine ⟨n + 1, c, rfl, ?_, hi.node fun y hy => ?_⟩
    · rw [getChunk_createChunk, if_pos rfl]
    · rw [getChunk_createChunk, if_neg (hy infi)]

/-- **The loop of `Set`**: the changed nodes and those of the store are a tree. -/
theorem setLoop_spec : ∀ {batch : List (Bytes × Bytes)} {id c : Bytes} {n : ℕ} {es : StdMap Bytes}
    {delta : QLBTreeDelta} {db : DB}, Node delta.getChunk db.chunkAt pre n infi es c → es.Ordered →
    NoInfi es → NoInfi batch →
    (batch = [] → id = nodeId pre n infi ∧ delta.getChunk id = some c) →
    Outcome (· = Fault.oversize)
      (fun r => db.SameAnswers r.2.2 ∧ ∃ n' c', r.1 = nodeId pre n' infi ∧
        r.2.1.getChunk r.1 = some c' ∧
        Node r.2.1.getChunk db.chunkAt pre n' infi (assignAll es batch) c')
      (setLoop cfg pre batch (some c) id delta db)
  | [], id, c, n, es, delta, db, hnode, _, _, _, hid =>
    ⟨DB.SameAnswers.refl db, n, c, (hid rfl).1, (hid rfl).2, hnode⟩
  | (key, value) :: batch, id, c, n, es, delta, db, hnode, hord, hinfi, hbatch, _ => by
    have hkey : key ≠ infi := fun heq => hbatch (by rw [← heq]; exact List.mem_cons_self)
    have hinfi' : NoInfi (es.assign key value) := hinfi.assign hkey
    rw [setLoop]
    apply (insert_spec hnode hord hinfi' (Or.inl rfl) (lt_depth_node hnode)).bind
    rintro ⟨r, delta₁, db₁⟩ ⟨hsame, left, right, hins⟩
    simp only at hsame hins
    apply (newRootId_spec hins).bind
    rintro ⟨id₂, delta₂⟩ ⟨n₂, c₂, hid₂, hc₂, hnode₂⟩
    simp only at hid₂ hc₂ hnode₂ ⊢
    rw [← hsame.chunkAt] at hnode₂
    rw [hc₂]
    apply (setLoop_spec hnode₂ (hord.assign key value) hinfi'
      (fun hmem => hbatch (List.mem_cons_of_mem _ hmem)) fun _ => ⟨hid₂, hc₂⟩).mono
    rintro r' ⟨hsame', n', c', hid', hc', hnode'⟩
    rw [hsame.chunkAt] at hnode'
    exact ⟨hsame.trans hsame', n', c', hid', hc', hnode'⟩

/-! ### Trees -/

/-- The names of the tree with the prefix `pre`. -/
def IsName (pre y : Bytes) : Prop := y = rootId pre ∨ ∃ n x, y = nodeId pre n x

theorem isName_of_names {y : Bytes} (h : Names pre n id es y) : IsName pre y := by
  obtain ⟨m, -, x, -, rfl⟩ := h
  exact Or.inr ⟨m, x, rfl⟩

/-- The tree over the store has the entries. -/
structure Represents (t : QLBTree) (db : DB) (es : StdMap Bytes) : Prop where
  ordered : es.Ordered
  noInfi : NoInfi es
  node : ∃ n, Node (fun _ => none) db.chunkAt t.pre n infi es t.root
  stored : db.chunkAt (rootId t.pre) = some t.root ∨
    db.chunkAt (rootId t.pre) = none ∧ t.root = QLBTreeMap.emptyMap

/-- A tree depends only on its own names. -/
theorem Represents.congr (h : Represents t db es)
    (hdb : ∀ y, IsName t.pre y → db'.chunkAt y = db.chunkAt y) : Represents t db' es := by
  obtain ⟨n, hnode⟩ := h.node
  refine ⟨h.ordered, h.noInfi, ⟨n, hnode.congr (fun _ _ => rfl) fun y hy => ?_⟩, ?_⟩
  · exact hdb y (isName_of_names hy)
  · rw [hdb _ (Or.inl rfl)]
    exact h.stored

theorem Represents.sameAnswers (h : Represents t db es) (hsame : db.SameAnswers db') :
    Represents t db' es := h.congr fun y _ => congrFun hsame.chunkAt y

/-- **A new tree** is empty. -/
theorem represents_new (pre : Bytes) (hnone : db.chunkAt (rootId pre) = none) :
    ∃ db', ofDB db pre = .ok (⟨pre, QLBTreeMap.emptyMap⟩, db') ∧ db.SameAnswers db' ∧
      Represents ⟨pre, QLBTreeMap.emptyMap⟩ db' [] := by
  have hsame := DB.SameAnswers.getChunk db (rootId pre)
  refine ⟨_, ?_, hsame, StdMap.ordered_nil, List.not_mem_nil,
    ⟨0, node_zero.mpr ⟨[], QLBTreeMap.encode_nil, iff_of_true rfl rfl⟩⟩, Or.inr ⟨?_, rfl⟩⟩
  · rw [ofDB, DB.getChunk_eq, hnone]
    rfl
  · rw [hsame.chunkAt]
    exact hnone

/-- **`numElements`** is the number of entries. -/
theorem Represents.numElements (h : Represents t db es) : t.numElements = es.length := by
  obtain ⟨n, hnode⟩ := h.node
  exact numElements_node hnode

/-- **`Get`** looks the key up. -/
theorem Represents.get (h : Represents t db es) (key : Bytes) :
    ∃ db', t.get key db = .ok (es.lookup key, db') ∧ db.SameAnswers db' := by
  obtain ⟨n, hnode⟩ := h.node
  exact tryGet_eq hnode h.ordered (Or.inl rfl) (lt_depth_node hnode)

/-- **`Set`** of a batch assigns its keys. -/
theorem Represents.set (h : Represents t db es) (hbatch : NoInfi batch) :
    Outcome (· = Fault.oversize)
      (fun r => r.1 = !batch.isEmpty ∧ r.2.1.pre = t.pre ∧
        Represents r.2.1 r.2.2 (assignAll es batch) ∧ WritesIn (IsName t.pre) db r.2.2)
      (t.set cfg batch db) := by
  obtain ⟨n, hnode⟩ := h.node
  have hdelta : (fun _ => none) = QLBTreeDelta.getChunk [] := rfl
  rw [hdelta] at hnode
  unfold QLBTree.set
  by_cases hempty : batch.length = 0
  · obtain rfl := List.length_eq_zero_iff.mp hempty
    rw [if_pos List.length_nil]
    exact ⟨rfl, rfl, h, WritesIn.refl db⟩
  · have hne : batch ≠ [] := fun hnil => hempty (List.length_eq_zero_iff.mpr hnil)
    rw [if_neg hempty]
    apply (setLoop_spec hnode h.ordered h.noInfi hbatch fun hnil => absurd hnil hne).bind
    rintro ⟨id, delta, db₁⟩ ⟨hsame, n', c', hid, hc', hnode'⟩
    simp only at hsame hid hc' hnode' ⊢
    subst hid
    rw [← hsame.chunkAt] at hnode'
    have hord : (assignAll es batch).Ordered := ordered_assignAll h.ordered
    have hinfi := h.noInfi.assignAll hbatch
    obtain ⟨db₂, hcommit, hnode₂, hroot, hwrites⟩ :=
      commit_spec true hc' hnode' hord hinfi (lt_depth_node hnode')
    rw [if_pos rfl] at hroot
    rw [hc', Option.map_some, Option.getD_some, hcommit]
    simp only [ok_bind]
    rw [DB.getChunk_eq, hroot, createFromChunk_node hnode₂]
    have hsame₂ := DB.SameAnswers.getChunk db₂ (rootId t.pre)
    refine ⟨?_, rfl, ⟨hord, hinfi, ⟨n', ?_⟩, Or.inl ?_⟩, ?_⟩
    · rw [List.isEmpty_eq_false_iff.mpr hne]
      rfl
    · rw [hsame₂.chunkAt]
      exact hnode₂
    · rw [hsame₂.chunkAt]
      exact hroot
    · apply (WritesIn.of_sameAnswers hsame).trans
      apply WritesIn.trans _ (WritesIn.of_sameAnswers hsame₂)
      apply hwrites.mono
      rintro y (rfl | ⟨m, -, hy⟩)
      · exact Or.inl rfl
      · exact isName_of_names hy

/-! ### What a batch writes -/

/-- `Insert` does not write to the store. -/
theorem sameAnswers_insert {value : Bytes} : ∀ {fuel : ℕ} {node : Bytes} {delta : QLBTreeDelta}
    {db : DB} {r : QLBTreeInsertResult × QLBTreeDelta × DB},
    insert cfg pre key value fuel node delta db = .ok r → db.SameAnswers r.2.2
  | 0, _, _, _, _, h => nomatch h
  | fuel + 1, node, delta, db, r, h => by
    rw [insert] at h
    split at h
    · simp only [bind_eq_ok_iff] at h
      obtain ⟨index, -, id, -, node', -, ⟨r₁, delta₁, db₁⟩, hins, ⟨r₂, delta₂⟩, -, h⟩ := h
      rw [← Except.ok.inj h]
      apply DB.SameAnswers.trans _ (sameAnswers_insert hins)
      -- the child is one that the batch has changed, or it is read
      split
      · exact DB.SameAnswers.refl db
      · exact DB.SameAnswers.getChunk db _
    · obtain ⟨⟨r₁, delta₁⟩, -, h⟩ := bind_eq_ok_iff.mp h
      rw [← Except.ok.inj h]
      exact DB.SameAnswers.refl db
    · rw [← Except.ok.inj h]
      exact DB.SameAnswers.refl db

theorem sameAnswers_setLoop {root : Option Bytes} {r : Bytes × QLBTreeDelta × DB}
    (h : setLoop cfg pre batch root id delta db = .ok r) : db.SameAnswers r.2.2 := by
  induction batch generalizing root id delta db with
  | nil =>
    rw [← Except.ok.inj h]
    exact DB.SameAnswers.refl db
  | cons e batch ih =>
    rw [setLoop] at h
    simp only [bind_eq_ok_iff] at h
    obtain ⟨node, -, ⟨r₁, delta₁, db₁⟩, hins, ⟨id₂, delta₂⟩, -, h⟩ := h
    exact (sameAnswers_insert hins).trans (ih h)

/-- `Commit` keeps what a write under a name of the tree keeps, whatever the nodes are. -/
theorem commit_inv {I : DB → Prop}
    (hput : ∀ db key chunk, IsName pre key → I db → I (db.putChunk key chunk)) :
    ∀ {fuel : ℕ} {id : Bytes} {isroot : Bool} {db : DB},
      IsName pre (if isroot then rootId pre else id) → I db →
        Outcome (fun _ => True) I (commit pre delta fuel id isroot db)
  | 0, _, _, _, _, _ => trivial
  | fuel + 1, id, isroot, db, hid, hdb => by
    rw [commit]
    generalize (if isroot then rootId pre else id) = key at hid ⊢
    cases delta.getChunk id with
    | none => exact hdb
    | some node =>
      have hnode := hput db key (bytes node) hid hdb
      have hchild (db₁ : DB) (x : Bytes) (hdb₁ : I db₁) : Outcome (fun _ => True) I
          (commit pre delta fuel ((QLBTreeMeta.ofChunk node).childKey pre x) false db₁) :=
        commit_inv hput (Or.inr ⟨_, _, rfl⟩) hdb₁
      dsimp only
      split_ifs
      · apply (Outcome.foldlM hnode fun db₁ x _ hdb₁ => hchild db₁ x hdb₁).bind
        intro db₁ hdb₁
        cases (QLBTreeMeta.ofChunk node).getChildElems (QLBTreeMeta.ofChunk node).numEntries with
        | error e => trivial
        | ok lastElems =>
          rw [ok_bind]
          split_ifs
          · exact hchild db₁ infi hdb₁
          · exact hdb₁
      · exact hnode

/-- **`Set` writes names of the tree only**, also for keys with which the tree itself goes wrong. -/
theorem agreeOff_set {r : Bool × QLBTree × DB} (h : t.set cfg batch db = .ok r) :
    r.2.1.pre = t.pre ∧ DB.AgreeOff (IsName t.pre) db r.2.2 := by
  rw [set] at h
  split at h
  · rw [← Except.ok.inj h]
    exact ⟨rfl, DB.AgreeOff.refl db⟩
  · simp only [bind_eq_ok_iff] at h
    obtain ⟨⟨id, delta, db₁⟩, hloop, db₂, hcommit, root, -, h⟩ := h
    rw [← Except.ok.inj h]
    refine ⟨rfl, ?_⟩
    have hsame : db.SameAnswers db₁ := sameAnswers_setLoop hloop
    have hwrites := (commit_inv (I := WritesIn (IsName t.pre) db₁)
      (fun db _ chunk hkey hw => hw.trans (WritesIn.putChunk db chunk hkey)) (Or.inl rfl)
      (WritesIn.refl db₁)).of_ok hcommit
    apply ((DB.AgreeOff.of_sameAnswers hsame).trans hwrites.toAgreeOff).trans
    exact DB.AgreeOff.of_sameAnswers (DB.SameAnswers.getChunk db₂ _)

end LedgerDatabase.Qldb.QLBTree
