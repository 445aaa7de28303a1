import LedgerDatabase.Qldb.Equiv.BTree.Insert

/-!
# Storing the changed nodes

`Commit` writes the changed nodes that are reached from the root over changed nodes.  A node that is
not changed has no changed node below it, so no other node is left out: afterwards the store alone has
the tree (`commit_spec`).  Only names of the tree are written (`DB.WritesIn`).
-/

namespace LedgerDatabase

/-- The stores answer alike, except under names with `N`. -/
structure DB.AgreeOff (N : Bytes → Prop) (db db' : DB) : Prop where
  chunkAt : ∀ y, ¬ N y → db'.chunkAt y = db.chunkAt y
  getString : ∀ y, ¬ N y → db'.getString y = db.getString y

/-- The stores differ under names with `N` only, and no cached chunk is made stale. -/
structure DB.WritesIn (N : Bytes → Prop) (db db' : DB) : Prop extends AgreeOff N db db' where
  coherent : ∀ y, db.chunkAt y = db.getString y → db'.chunkAt y = db'.getString y

namespace DB

variable {N N' : Bytes → Prop} {db db' db'' : DB}

theorem SameAnswers.getString (h : SameAnswers db db') : db'.getString = db.getString := by
  funext y
  rw [DB.getString, h.rocks, DB.getString]

theorem AgreeOff.refl (db : DB) : AgreeOff N db db := ⟨fun _ _ => rfl, fun _ _ => rfl⟩

theorem AgreeOff.trans (h : AgreeOff N db db') (h' : AgreeOff N db' db'') : AgreeOff N db db'' :=
  ⟨fun y hy => (h'.chunkAt y hy).trans (h.chunkAt y hy),
    fun y hy => (h'.getString y hy).trans (h.getString y hy)⟩

theorem AgreeOff.mono (h : AgreeOff N db db') (hN : ∀ y, N y → N' y) : AgreeOff N' db db' :=
  ⟨fun y hy => h.chunkAt y fun hy' => hy (hN y hy'),
    fun y hy => h.getString y fun hy' => hy (hN y hy')⟩

theorem AgreeOff.of_sameAnswers (h : SameAnswers db db') : AgreeOff N db db' :=
  ⟨fun y _ => congrFun h.chunkAt y, fun y _ => congrFun h.getString y⟩

theorem AgreeOff.putChunk (db : DB) {key : Bytes} (chunk : Bytes) (hkey : N key) :
    AgreeOff N db (db.putChunk key chunk) := by
  refine ⟨fun y hy => ?_, fun y hy => ?_⟩
  · rw [chunkAt_putChunk, if_neg (by rintro rfl; exact hy hkey)]
  · rw [getString_putChunk, if_neg (by rintro rfl; exact hy hkey)]

theorem AgreeOff.putString (db : DB) {key : Bytes} (val : Bytes) (hkey : N key) :
    AgreeOff N db (db.putString key val) := by
  refine ⟨fun y hy => ?_, fun y hy => ?_⟩
  · exact chunkAt_putString_of_ne db val (by rintro rfl; exact hy hkey)
  · rw [getString_putString, if_neg (by rintro rfl; exact hy hkey)]

theorem WritesIn.refl (db : DB) : WritesIn N db db := ⟨AgreeOff.refl db, fun _ h => h⟩

theorem WritesIn.trans (h : WritesIn N db db') (h' : WritesIn N db' db'') : WritesIn N db db'' :=
  ⟨h.toAgreeOff.trans h'.toAgreeOff, fun y hy => h'.coherent y (h.coherent y hy)⟩

theorem WritesIn.mono (h : WritesIn N db db') (hN : ∀ y, N y → N' y) : WritesIn N' db db' :=
  ⟨h.toAgreeOff.mono hN, h.coherent⟩

theorem WritesIn.of_sameAnswers (h : SameAnswers db db') : WritesIn N db db' :=
  ⟨AgreeOff.of_sameAnswers h, fun y hy => by rw [h.chunkAt, h.getString, hy]⟩

theorem WritesIn.putChunk (db : DB) {key : Bytes} (chunk : Bytes) (hkey : N key) :
    WritesIn N db (db.putChunk key chunk) := by
  refine ⟨AgreeOff.putChunk db chunk hkey, fun y hy => ?_⟩
  rw [chunkAt_putChunk, getString_putChunk, hy]

end DB

namespace Qldb.QLBTree

open DB (WritesIn)
open Chunk

variable {s : Bytes → Option Bytes} {pre id c : Bytes} {n fuel : ℕ} {es tail : StdMap Bytes}
  {kids : Kids} {P : Bytes → StdMap Bytes → Prop} {delta : QLBTreeDelta} {db : DB}

/-- A node of the stored tree. -/
abbrev StoredSlot (db : DB) (pre : Bytes) (n : ℕ) (id : Bytes) (es : StdMap Bytes) : Prop :=
  Slot (fun _ => none) db.chunkAt pre n id es

/-- A node that is not changed is in the store, with all below it. -/
theorem Slot.stored (h : Slot delta.getChunk db.chunkAt pre n id es)
    (hnone : delta.getChunk (nodeId pre n id) = none) : StoredSlot db pre n id es :=
  h.congr (fun y hy => (h.clean hnone y hy).symm) fun _ _ => rfl

/-- The children of an inner node that have entries. -/
def children (kids : Kids) (tail : StdMap Bytes) : Kids := if tail = [] then kids else withTail kids tail

theorem children_sublist (kids : Kids) (tail : StdMap Bytes) :
    (children kids tail).Sublist (withTail kids tail) := by
  unfold children
  split_ifs
  · exact List.sublist_append_left _ _
  · exact List.Sublist.refl _

theorem Inner.mem_children (h : Inner P n id es c kids tail) {q : Bytes × StdMap Bytes} :
    q ∈ children kids tail ↔ q ∈ withTail kids tail ∧ q.2 ≠ [] := by
  unfold children
  split_ifs with htail
  · rw [htail, withTail, List.mem_append, List.mem_singleton]
    constructor
    · exact fun hq => ⟨Or.inl hq, ne_nil_of_lastKey (h.sep q hq)⟩
    · rintro ⟨hq | rfl, hne⟩
      · exact hq
      · exact absurd rfl hne
  · refine ⟨fun hq => ⟨hq, ?_⟩, And.left⟩
    rcases List.mem_append.mp hq with hq | hq
    · exact ne_nil_of_lastKey (h.sep q hq)
    · obtain rfl := List.mem_singleton.mp hq
      exact htail

theorem Inner.separate (h : Inner P n id es c kids tail) (hord : es.Ordered)
    (hinfi : infi ∉ es.map Prod.fst) : Separate pre (children kids tail) :=
  (separate_withTail (h.entries ▸ hord) (h.entries ▸ hinfi) h.sep).sublist (children_sublist kids tail)

/-- The child `_INFI_` is there exactly if it has elements. -/
theorem Inner.lastElems (h : Inner P n id es c kids tail) :
    (QLBTreeMeta.ofChunk c).getChildElems (QLBTreeMeta.ofChunk c).numEntries = .ok tail.length := by
  rw [h.ofChunk, QLBTreeMeta.getChildElems, QLBTreeMeta.numEntries, at?, List.length_map, withTail,
    List.map_append, List.getElem?_append_right (List.length_map _).le, List.length_map,
    Nat.sub_self]
  rfl

/-! ### The children -/

/-- Storing children one after the other. -/
theorem commitKids_spec (commitKid : DB → Bytes → Except Fault DB) :
    ∀ {l : Kids} (db : DB), Separate pre l →
      (∀ q ∈ l, Slot delta.getChunk db.chunkAt pre n q.1 q.2) →
      (∀ db q, q ∈ l → Slot delta.getChunk db.chunkAt pre n q.1 q.2 →
        ∃ db', commitKid db q.1 = .ok db' ∧ StoredSlot db' pre n q.1 q.2 ∧
          WritesIn (Names pre n q.1 q.2) db db') →
      ∃ db', (l.map Prod.fst).foldlM commitKid db = .ok db' ∧
        (∀ q ∈ l, StoredSlot db' pre n q.1 q.2) ∧
        WritesIn (fun y => ∃ q ∈ l, Names pre n q.1 q.2 y) db db'
  | [], db, _, _, _ => ⟨db, rfl, fun _ h => absurd h List.not_mem_nil, WritesIn.refl db⟩
  | q :: l, db, hsep, hslot, hcommit => by
    obtain ⟨hhead, htail⟩ := List.pairwise_cons.mp hsep
    obtain ⟨db₁, hq, hstored, hwrites⟩ := hcommit db q List.mem_cons_self (hslot q List.mem_cons_self)
    have hslot₁ : ∀ q' ∈ l, Slot delta.getChunk db₁.chunkAt pre n q'.1 q'.2 := by
      intro q' hq'
      apply (hslot q' (List.mem_cons_of_mem _ hq')).congr fun _ _ => rfl
      exact fun y hy => hwrites.chunkAt y fun hy' => hhead q' hq' n n y hy' hy
    obtain ⟨db', hl, hstored', hwrites'⟩ := commitKids_spec commitKid db₁ htail hslot₁
      fun db q' hq' => hcommit db q' (List.mem_cons_of_mem _ hq')
    refine ⟨db', ?_, ?_, ?_⟩
    · rw [List.map_cons, List.foldlM_cons, hq]
      exact hl
    · intro q' hq'
      rcases List.mem_cons.mp hq' with rfl | hq'
      · apply hstored.congr fun _ _ => rfl
        exact fun y hy => hwrites'.chunkAt y fun ⟨q'', hq'', hy'⟩ => hhead q'' hq'' n n y hy hy'
      · exact hstored' q' hq'
    · apply (hwrites.mono fun y hy => ⟨q, List.mem_cons_self, hy⟩).trans
      exact hwrites'.mono fun y ⟨q', hq', hy⟩ => ⟨q', List.mem_cons_of_mem _ hq', hy⟩

/-- `Commit` below an inner node. -/
theorem commit_inner (h : Inner P (n + 1) id es c kids tail) (isroot : Bool)
    (hc : delta.getChunk (nodeId pre (n + 1) id) = some c) :
    commit pre delta (fuel + 1) (nodeId pre (n + 1) id) isroot db =
      ((children kids tail).map Prod.fst).foldlM
        (fun db x => commit pre delta fuel (nodeId pre n x) false db)
        (db.putChunk (if isroot then rootId pre else nodeId pre (n + 1) id) c) := by
  have hkeys : (QLBTreeMeta.ofChunk c).keys = kids.map Prod.fst := by rw [h.ofChunk]
  rw [commit, hc]
  simp only [QLBTreeMeta.bytes_encode h.encoded, QLBTreeMeta.chunkType_encode h.encoded, if_true,
    h.childKey, hkeys, h.lastElems, ok_bind]
  unfold children
  by_cases htail : tail = []
  · rw [if_pos htail, htail]
    exact bind_pure _
  · rw [if_neg htail, withTail, List.map_append, List.foldlM_append]
    simp only [if_pos (List.length_pos_iff.mpr htail)]
    congr 1
    funext db'
    exact (bind_pure _).symm

/-- **`Commit`** stores a changed node and all below it. -/
theorem commit_spec : ∀ {n fuel : ℕ} {id : Bytes} {es : StdMap Bytes} {c : Bytes} {db : DB}
    (isroot : Bool), delta.getChunk (nodeId pre n id) = some c →
    Node delta.getChunk db.chunkAt pre n id es c → es.Ordered → infi ∉ es.map Prod.fst → n < fuel →
    ∃ db', commit pre delta fuel (nodeId pre n id) isroot db = .ok db' ∧
      Node (fun _ => none) db'.chunkAt pre n id es c ∧
      db'.chunkAt (if isroot then rootId pre else nodeId pre n id) = some c ∧
      WritesIn (fun y => y = (if isroot then rootId pre else nodeId pre n id) ∨
        ∃ m < n, Names pre m id es y) db db'
  | _, 0, _, _, _, _, _, _, _, _, _, hfuel => absurd hfuel (Nat.not_lt_zero _)
  | 0, fuel + 1, id, es, c, db, isroot, hc, ⟨next, henc, hnext⟩, _, _, _ => by
    have htype : ¬ chunkType c = .kMeta := by
      rw [QLBTreeMap.chunkType_encode henc]
      decide
    refine ⟨_, ?_, node_zero.mpr ⟨next, henc, hnext⟩, ?_, WritesIn.putChunk db c (Or.inl rfl)⟩
    · rw [commit, hc]
      simp only [QLBTreeMap.bytes_encode henc]
      rw [if_neg htype]
      rfl
    · rw [DB.chunkAt_putChunk, if_pos rfl]
  | n + 1, fuel + 1, id, es, c, db, isroot, hc, ⟨kids, tail, h⟩, hord, hinfi, hfuel => by
    generalize hkey : (if isroot then rootId pre else nodeId pre (n + 1) id) = key
    -- the name of the node is not one of those below it
    have hnot : ∀ q : Bytes × StdMap Bytes, ¬ Names pre n q.1 q.2 key := by
      intro q
      rw [← hkey]
      split_ifs
      · exact not_names_rootId
      · exact not_names_of_level (Nat.lt_succ_self n)
    have hkid : ∀ q ∈ children kids tail, q ∈ withTail kids tail ∧ q.2 ≠ [] := fun q hq =>
      h.mem_children.mp hq
    have hkeysub : ∀ q ∈ children kids tail, infi ∉ q.2.map Prod.fst := by
      intro q hq hmem
      rw [h.entries] at hinfi
      exact hinfi (keys_entriesOf (hkid q hq).1 _ hmem)
    obtain ⟨db', hrun, hstored, hwrites⟩ := commitKids_spec
      (fun db x => commit pre delta fuel (nodeId pre n x) false db) (db.putChunk key c) (h.separate hord hinfi)
      (fun q hq => Slot.congr (h.kid q (hkid q hq).1 (hkid q hq).2) (fun _ _ => rfl) fun y hy => by
        rw [DB.chunkAt_putChunk, if_neg]
        rintro rfl
        exact hnot q hy)
      (fun db₁ q hq hslot => by
        cases hcq : delta.getChunk (nodeId pre n q.1) with
        | none =>
          obtain ⟨fuel, rfl⟩ := Nat.exists_eq_succ_of_ne_zero (by omega : fuel ≠ 0)
          refine ⟨db₁, ?_, hslot.stored hcq, WritesIn.refl db₁⟩
          rw [commit, hcq]
        | some cq =>
          obtain ⟨c', hc', hnode⟩ := hslot.node
          rw [hcq, Option.some_or] at hc'
          obtain rfl := Option.some.inj hc'
          obtain ⟨db₂, hrun, hnode₂, hat, hwrites⟩ := commit_spec false hcq hnode
            (h.ordered_kid hord (hkid q hq).1) (hkeysub q hq) (Nat.lt_of_succ_lt_succ hfuel)
          refine ⟨db₂, hrun, ⟨fun _ _ _ => rfl, cq, hat, hnode₂⟩, hwrites.mono ?_⟩
          rintro y (rfl | ⟨m, hm, hy⟩)
          · exact names_self
          · exact hy.mono hm.le (Or.inl rfl) fun k hk => hk)
    refine ⟨db', ?_, ⟨kids, tail, ?_⟩, ?_, ?_⟩
    · rw [commit_inner h isroot hc, hkey]
      exact hrun
    · exact { h with kid := fun q hq hne => hstored q (h.mem_children.mpr ⟨hq, hne⟩) }
    · rw [hwrites.chunkAt key fun ⟨q, _, hy⟩ => hnot q hy, DB.chunkAt_putChunk, if_pos rfl]
    · apply (WritesIn.putChunk db c (Or.inl rfl)).trans
      apply hwrites.mono
      rintro y ⟨q, hq, hy⟩
      exact Or.inr ⟨n, Nat.lt_succ_self n, h.names_kid (hkid q hq).1 (hkid q hq).2 le_rfl hy⟩

end Qldb.QLBTree

end LedgerDatabase
