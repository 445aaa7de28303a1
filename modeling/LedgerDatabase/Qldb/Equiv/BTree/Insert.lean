import LedgerDatabase.Library.Outcome
import LedgerDatabase.Qldb.Equiv.BTree.Get

/-!
# Inserting into a B+ tree

An insertion into a node replaces its entries by those with the key assigned.  What was one node is
then one or two nodes, the last of them under the old name (`Inserted`).  A leaf is cut where it has
too many entries (`insertMap_spec`).  An inner node takes over what its child returns
(`Located.replace`) and is cut in the same way (`updateChild_spec`).  Only names below the node are
written, so the other children stay as they are (`Separate`).
-/

namespace LedgerDatabase.Qldb.QLBTree

variable {d s : Bytes → Option Bytes} {pre id c key value : Bytes} {n : ℕ} {es tail : StdMap Bytes}
  {kids : Kids} {P : Bytes → StdMap Bytes → Prop} {delta : QLBTreeDelta} {cfg : BPlusConfig}

/-! ### The delta -/

theorem getChunk_createChunk (delta : QLBTreeDelta) (x chunk y : Bytes) :
    (delta.createChunk x chunk).getChunk y = if y = x then some chunk else delta.getChunk y :=
  StdMap.lookup_assign y

/-! ### Entries -/

theorem lastKey_concat {l : StdMap Bytes} {e : Bytes × Bytes} : lastKey (l ++ [e]) = some e.1 := by
  rw [lastKey, List.getLast?_concat]
  rfl

/-- A key up to the last one does not change the last one. -/
theorem lastKey_assign {k : Bytes} (hk : lastKey es = some k) (hnot : ¬ k < key) :
    lastKey (es.assign key value) = some k := by
  obtain ⟨a, ha, rfl⟩ := Option.map_eq_some_iff.mp hk
  obtain ⟨l, rfl⟩ := List.getLast?_eq_some_iff.mp ha
  by_cases hl : ∃ e ∈ l, ¬ e.1 < key
  · rw [StdMap.assign_append_left hl, lastKey_concat]
  · push Not at hl
    rw [StdMap.assign_append_right hl, lastKey_append_of_ne_nil StdMap.assign_ne_nil]
    by_cases heq : key = a.1
    · rw [StdMap.assign, if_pos heq, heq]
      rfl
    · rw [StdMap.assign, if_neg heq, if_pos (StdMap.lt_of_not_lt_of_ne hnot (Ne.symm heq))]
      rfl

/-- The last key, as the code reads it. -/
theorem at?_last {k : Bytes} (hk : lastKey es = some k) :
    (at? es (es.length - 1)).map Prod.fst = .ok k := by
  obtain ⟨a, ha, rfl⟩ := Option.map_eq_some_iff.mp hk
  rw [List.getLast?_eq_getElem?] at ha
  rw [at?, ha]
  rfl

/-- The last entry of the first part of a cut list. -/
theorem getLast?_take {α : Type} {l : List α} {i : ℕ} (hi : 0 < i) (hle : i ≤ l.length) :
    (l.take i).getLast? = l[i - 1]? := by
  rw [List.getLast?_eq_getElem?, List.length_take, Nat.min_eq_left hle,
    List.getElem?_take_of_lt (Nat.sub_lt hi one_pos)]

/-- A list that is too long is cut into two parts with elements. -/
theorem computeSplitIndex_bounds {size fanout : ℕ} (hpos : 1 ≤ fanout) (h : ¬ size ≤ fanout) :
    0 < BPlusConfig.computeSplitIndex size ∧ BPlusConfig.computeSplitIndex size < size := by
  unfold BPlusConfig.computeSplitIndex
  split_ifs <;> omega

/-! ### What an insertion returns -/

/-- After an insertion the entries are spread over the nodes `left` and one under the old name. -/
structure Inserted (d d' s : Bytes → Option Bytes) (pre : Bytes) (n : ℕ) (id : Bytes)
    (es : StdMap Bytes) (r : QLBTreeInsertResult) (left : Kids) (right : StdMap Bytes) : Prop where
  entries : es = entriesOf left ++ right
  level : r.level = n
  numElems : r.numElems = (left ++ [(id, right)]).map fun p => p.2.length
  split : left = [] ∧ r.isSplit = false ∨
    ∃ l, left = [(r.splitKey, l)] ∧ lastKey l = some r.splitKey ∧ r.isSplit = true
  right_ne : right ≠ []
  nodes : ∀ p ∈ left ++ [(id, right)], ∃ c, d' (nodeId pre n p.1) = some c ∧ Node d' s pre n p.1 p.2 c
  frame : ∀ y, ¬ Names pre n id es y → d' y = d y

namespace Inserted

variable {d' : Bytes → Option Bytes} {r : QLBTreeInsertResult} {left : Kids} {right : StdMap Bytes}

theorem lastKey_left (h : Inserted d d' s pre n id es r left right) {p : Bytes × StdMap Bytes}
    (hp : p ∈ left) : lastKey p.2 = some p.1 := by
  rcases h.split with ⟨rfl, -⟩ | ⟨l, rfl, hl, -⟩
  · cases hp
  · obtain rfl := List.mem_singleton.mp hp
    exact hl

theorem lastKey_right (h : Inserted d d' s pre n id es r left right) :
    lastKey right = lastKey es := by
  rw [h.entries, lastKey_append_of_ne_nil h.right_ne]

theorem slot (h : Inserted d d' s pre n id es r left right) {p : Bytes × StdMap Bytes}
    (hp : p ∈ left ++ [(id, right)]) : Slot d' s pre n p.1 p.2 := by
  obtain ⟨c, hc, hnode⟩ := h.nodes p hp
  constructor
  · intro hnone
    rw [hc] at hnone
    cases hnone
  · exact ⟨c, by rw [hc, Option.some_or], hnode⟩

end Inserted

/-- A node that was written without a cut. -/
theorem inserted_one {r : QLBTreeInsertResult} (hne : es ≠ []) (hsplit : r.isSplit = false)
    (hlevel : r.level = n) (hnum : r.numElems = [es.length])
    (hnode : ∀ d', (∀ y, (∀ x, y ≠ nodeId pre n x) → d' y = delta.getChunk y) →
      Node d' s pre n id es c) :
    Inserted delta.getChunk (delta.createChunk (nodeId pre n id) c).getChunk s pre n id es r [] es := by
  refine ⟨rfl, hlevel, hnum, Or.inl ⟨rfl, hsplit⟩, hne, ?_, ?_⟩
  · intro p hp
    obtain rfl := List.mem_singleton.mp hp
    refine ⟨c, by rw [getChunk_createChunk, if_pos rfl], hnode _ fun y hy => ?_⟩
    rw [getChunk_createChunk, if_neg (hy id)]
  · intro y hy
    rw [getChunk_createChunk, if_neg]
    rintro rfl
    exact hy names_self

/-- A node that was cut. -/
theorem inserted_two {r : QLBTreeInsertResult} {l right : StdMap Bytes} {c₁ c₂ : Bytes}
    (hes : es = l ++ right) (hne : right ≠ []) (hlast : lastKey l = some r.splitKey)
    (hid : r.splitKey ≠ id) (hsplit : r.isSplit = true) (hlevel : r.level = n)
    (hnum : r.numElems = [l.length, right.length])
    (hnode₁ : ∀ d', (∀ y, (∀ x, y ≠ nodeId pre n x) → d' y = delta.getChunk y) →
      Node d' s pre n r.splitKey l c₁)
    (hnode₂ : ∀ d', (∀ y, (∀ x, y ≠ nodeId pre n x) → d' y = delta.getChunk y) →
      Node d' s pre n id right c₂) :
    Inserted delta.getChunk ((delta.createChunk (nodeId pre n r.splitKey) c₁).createChunk
      (nodeId pre n id) c₂).getChunk s pre n id es r [(r.splitKey, l)] right := by
  have hother : ∀ y, (∀ x, y ≠ nodeId pre n x) →
      ((delta.createChunk (nodeId pre n r.splitKey) c₁).createChunk (nodeId pre n id) c₂).getChunk y
        = delta.getChunk y := by
    intro y hy
    rw [getChunk_createChunk, if_neg (hy id), getChunk_createChunk, if_neg (hy r.splitKey)]
  refine ⟨?_, hlevel, hnum, Or.inr ⟨l, rfl, hlast, hsplit⟩, hne, ?_, ?_⟩
  · rw [hes, entriesOf_cons, entriesOf_nil, List.append_nil]
  · intro p hp
    rcases List.mem_cons.mp hp with rfl | hp
    · refine ⟨c₁, ?_, hnode₁ _ hother⟩
      rw [getChunk_createChunk, if_neg fun heq => hid (nodeId_inj.mp heq).2, getChunk_createChunk,
        if_pos rfl]
    · obtain rfl := List.mem_singleton.mp hp
      exact ⟨c₂, by rw [getChunk_createChunk, if_pos rfl], hnode₂ _ hother⟩
  · intro y hy
    rw [getChunk_createChunk, if_neg, getChunk_createChunk, if_neg]
    · rintro rfl
      refine hy ⟨n, le_rfl, r.splitKey, Or.inr ?_, rfl⟩
      rw [hes, List.map_append]
      exact List.mem_append_left _ (mem_keys_of_lastKey hlast)
    · rintro rfl
      exact hy names_self

/-! ### Leaves -/

/-- The id of a node, and the last key. -/
def HasId (id : Bytes) (es : StdMap Bytes) : Prop := id = infi ∨ lastKey es = some id

theorem Reaches.hasId_assign (hr : Reaches id es key) : HasId id (es.assign key value) := by
  rcases hr with hid | ⟨hlast, hnot⟩
  · exact Or.inl hid
  · exact Or.inr (lastKey_assign hlast hnot)

/-- The keys of the first part of a list are not the id of the last part. -/
theorem ne_id_of_append {l right : StdMap Bytes} {k : Bytes} (hord : (l ++ right).Ordered)
    (hinfi : infi ∉ (l ++ right).map Prod.fst) (hid : HasId id right) (hk : k ∈ l.map Prod.fst) :
    k ≠ id := by
  rintro rfl
  obtain ⟨-, -, hlt⟩ := StdMap.ordered_append.mp hord
  rcases hid with rfl | hlast
  · rw [List.map_append] at hinfi
    exact hinfi (List.mem_append_left _ hk)
  · obtain ⟨e, he, heq⟩ := List.mem_map.mp hk
    obtain ⟨e', he', heq'⟩ := List.mem_map.mp (mem_keys_of_lastKey hlast)
    have hless := hlt e he e' he'
    rw [heq, heq'] at hless
    exact List.lt_irrefl _ hless

theorem nodeId_ne_nil (pre : Bytes) (n : ℕ) (x : Bytes) : nodeId pre n x ≠ [] := by
  simp [nodeId, str]

theorem QLBTreeMap.encode_outcome (level : ℕ) (entries : List (Bytes × Bytes)) (next : Bytes) :
    Outcome (· = Fault.oversize) (fun c => QLBTreeMap.encode level entries next = .ok c)
      (QLBTreeMap.encode level entries next) := by
  cases h : QLBTreeMap.encode level entries next with
  | ok c => exact rfl
  | error e => exact QLBTreeMap.encode_error h

/-- **An insertion into a leaf.** -/
theorem insertMap_spec {next : Bytes} (hc : QLBTreeMap.encode 0 es next = .ok c)
    (hnext : next = [] ↔ id = infi) (hord : es.Ordered) (hr : Reaches id es key)
    (hinfi : infi ∉ (es.assign key value).map Prod.fst) (delta : QLBTreeDelta) :
    Outcome (· = Fault.oversize)
      (fun r => ∃ left right, Inserted delta.getChunk r.2.getChunk s pre 0 id (es.assign key value)
        r.1 left right)
      (insertMap cfg pre (QLBTreeMap.ofChunk c) key value delta) := by
  have hord' : (es.assign key value).Ordered := hord.assign key value
  have hid : HasId id (es.assign key value) := hr.hasId_assign
  have hne : es.assign key value ≠ [] := StdMap.assign_ne_nil
  have hm : (QLBTreeMap.ofChunk c).next = next := by
    rw [QLBTreeMap.ofChunk_encode hc]
  unfold insertMap
  simp only [QLBTreeMap.entries_ofChunk_encode hc, QLBTreeMap.insertEntry_eq key value hord, hm]
  generalize es.assign key value = new at hinfi hord' hid hne
  -- the id under which the last node is written
  have hidOf : ∀ l, HasId id l → (if next = [] then Except.ok infi
      else (at? l (l.length - 1)).map Prod.fst) = Except.ok id := by
    intro l hl
    split_ifs with hnil
    · rw [hnext.mp hnil]
    · exact at?_last (hl.resolve_left fun h => hnil (hnext.mpr h))
  by_cases hfit : new.length ≤ cfg.leafFanout
  · -- the leaf is written as one
    rw [if_pos hfit]
    apply (QLBTreeMap.encode_outcome 0 new next).bind
    intro c' hc'
    simp only [hidOf new hid, ok_bind]
    exact ⟨[], new, inserted_one (n := 0) hne rfl rfl rfl fun d' _ =>
      node_zero.mpr ⟨next, hc', hnext⟩⟩
  · -- the leaf is cut
    rw [if_neg hfit]
    obtain ⟨hpos, hlt⟩ := computeSplitIndex_bounds cfg.leafFanout_pos hfit
    generalize BPlusConfig.computeSplitIndex new.length = i at hpos hlt
    have hcut : new = new.take i ++ new.drop i := (List.take_append_drop i new).symm
    have hdrop : new.drop i ≠ [] := by
      rw [Ne, List.drop_eq_nil_iff]
      omega
    have hget : at? new (i - 1) = .ok new[i - 1] := at?_of_lt (by omega)
    have hlast : lastKey (new.take i) = some (new[i - 1]).1 := by
      rw [lastKey, getLast?_take hpos hlt.le, List.getElem?_eq_getElem (by omega)]
      rfl
    have hid₂ : HasId id (new.drop i) := by
      have happend : lastKey (new.take i ++ new.drop i) = lastKey (new.drop i) :=
        lastKey_append_of_ne_nil hdrop
      rw [HasId, ← happend, ← hcut]
      exact hid
    have hne₁ : (new[i - 1]).1 ≠ id := by
      rw [hcut] at hord' hinfi
      exact ne_id_of_append hord' hinfi hid₂ (mem_keys_of_lastKey hlast)
    have hne₂ : (new[i - 1]).1 ≠ infi := by
      rintro heq
      exact hinfi (heq ▸ List.mem_map_of_mem (List.getElem_mem _))
    simp only [hget, ok_bind, hidOf _ hid₂]
    apply (QLBTreeMap.encode_outcome 0 (new.take i) (nodeId pre 0 id)).bind
    intro c₁ hc₁
    apply (QLBTreeMap.encode_outcome 0 (new.drop i) next).bind
    intro c₂ hc₂
    refine ⟨_, new.drop i, inserted_two (n := 0) (r := ⟨true, (new[i - 1]).1, 0, _⟩) hcut hdrop hlast
      hne₁ rfl rfl rfl ?_ ?_⟩
    · exact fun d' _ => node_zero.mpr ⟨_, hc₁, iff_of_false (nodeId_ne_nil _ _ _) hne₂⟩
    · exact fun d' _ => node_zero.mpr ⟨next, hc₂, hnext⟩

/-! ### The other children -/

/-- No name stands below two of the children. -/
def Separate (pre : Bytes) (kids : Kids) : Prop :=
  kids.Pairwise fun p p' => ∀ n n' y, Names pre n p.1 p.2 y → ¬ Names pre n' p'.1 p'.2 y

/-- The children of a node are separate. -/
theorem separate_withTail (hord : (entriesOf (withTail kids tail)).Ordered)
    (hinfi : infi ∉ (entriesOf (withTail kids tail)).map Prod.fst)
    (hsep : ∀ p ∈ kids, lastKey p.2 = some p.1) : Separate pre (withTail kids tail) := by
  have hkeys : ∀ l l' : StdMap Bytes, (∀ e ∈ l, ∀ e' ∈ l', e.1 < e'.1) →
      ∀ k ∈ l.map Prod.fst, k ∉ l'.map Prod.fst := by
    intro l l' hlt k hk hk'
    obtain ⟨e, he, rfl⟩ := List.mem_map.mp hk
    obtain ⟨e', he', heq⟩ := List.mem_map.mp hk'
    have hless := hlt e he e' he'
    rw [heq] at hless
    exact List.lt_irrefl _ hless
  obtain ⟨hkids, -, hcross⟩ := List.pairwise_append.mp (ordered_entriesOf.mp hord).2
  apply List.pairwise_append.mpr ⟨?_, List.pairwise_singleton _ _, ?_⟩
  · apply hkids.imp_of_mem
    intro p p' hp hp' hlt n n' y hy hy'
    have hk := mem_keys_of_lastKey (hsep p hp)
    have hk' := mem_keys_of_lastKey (hsep p' hp')
    have hdisj := hkeys _ _ hlt
    exact hy.disjoint hy' (fun heq => hdisj _ hk (heq ▸ hk')) (hdisj _ hk)
      (fun h => hdisj _ h hk') hdisj
  · intro p hp p' hp' n n' y hy hy'
    obtain rfl := List.mem_singleton.mp hp'
    have hk := mem_keys_of_lastKey (hsep p hp)
    have hdisj := hkeys _ _ (hcross p hp _ (List.mem_singleton_self _))
    have hnot : infi ∉ p.2.map Prod.fst := fun h =>
      hinfi (keys_entriesOf (List.mem_append_left _ hp) _ h)
    exact hy.disjoint hy' (fun heq : p.1 = infi => hnot (heq ▸ hk)) (hdisj _ hk) hnot hdisj

/-- A child is replaced by the nodes that the insertion into it returns. -/
theorem Located.replace {front back : Kids} {p : Bytes × StdMap Bytes}
    (hl : Located kids tail key front p back) (left : Kids) {right : StdMap Bytes}
    (hright : right ≠ []) : ∃ kids' tail',
      withTail kids' tail' = front ++ (left ++ (p.1, right) :: back) ∧
      kids'.map Prod.fst = (kids.map Prod.fst).take front.length ++
        (left.map Prod.fst ++ (kids.map Prod.fst).drop front.length) ∧
      (tail' = [] ↔ tail = []) ∧ (kids ≠ [] → kids' ≠ []) ∧
      ∀ q ∈ kids', q ∈ kids ∨ q ∈ left ∨ q = (p.1, right) ∧ p ∈ kids ∧ ¬ p.1 < key := by
  have hne := hl.ne_nil
  rcases hl.last with ⟨rfl, rfl, rfl⟩ | ⟨rest, rfl, rfl, hnot⟩
  · refine ⟨kids ++ left, right, ?_, ?_, iff_of_false hright hne, fun h h' => ?_, ?_⟩
    · rw [withTail, List.append_assoc]
    · rw [List.map_append, List.take_of_length_le (List.length_map _).le,
        List.drop_of_length_le (List.length_map _).le, List.append_nil]
    · exact h (List.append_eq_nil_iff.mp h').1
    · intro q hq
      rcases List.mem_append.mp hq with hq | hq
      · exact Or.inl hq
      · exact Or.inr (Or.inl hq)
  · refine ⟨front ++ (left ++ (p.1, right) :: rest), tail, ?_, ?_, Iff.rfl, fun _ => by simp, ?_⟩
    · simp only [withTail, List.append_assoc, List.cons_append]
    · have hlen : (front.map Prod.fst).length = front.length := List.length_map _
      simp only [List.map_append, List.map_cons]
      rw [List.take_left' hlen, List.drop_left' hlen]
    · intro q hq
      rcases List.mem_append.mp hq with hq | hq
      · exact Or.inl (List.mem_append_left _ hq)
      · rcases List.mem_append.mp hq with hq | hq
        · exact Or.inr (Or.inl hq)
        · rcases List.mem_cons.mp hq with rfl | hq
          · exact Or.inr (Or.inr ⟨rfl, List.mem_append_right _ List.mem_cons_self, hnot⟩)
          · exact Or.inl (List.mem_append_right _ (List.mem_cons_of_mem _ hq))

/-! ### Inner nodes -/

theorem QLBTreeMeta.encode_outcome (level : ℕ) (keys : List Bytes) (numElems : List ℕ) :
    Outcome (· = Fault.oversize) (fun c => QLBTreeMeta.encode level keys numElems = .ok c)
      (QLBTreeMeta.encode level keys numElems) := by
  cases h : QLBTreeMeta.encode level keys numElems with
  | ok c => exact rfl
  | error e => exact QLBTreeMeta.encode_error h

/-- The end of `UpdateChild`: the node is written over its keys and numbers, in one part or two. -/
def writeInner (cfg : BPlusConfig) (pre : Bytes) (level : ℕ) (thisid : Bytes) (newKeys : List Bytes)
    (newElems : List ℕ) (delta : QLBTreeDelta) : Except Fault (QLBTreeInsertResult × QLBTreeDelta) :=
  if newKeys.length ≤ cfg.fanout then do
    let chunk1 ← QLBTreeMeta.encode level newKeys newElems
    return ({ level, numElems := [Qldb.numElements chunk1] },
      delta.createChunk (nodeId pre level thisid) chunk1)
  else do
    let splitIdx := BPlusConfig.computeSplitIndex newKeys.length
    let splitKey ← at? newKeys (splitIdx - 1)
    let chunk1 ← QLBTreeMeta.encode level (newKeys.take splitIdx) (newElems.take splitIdx ++ [0])
    let chunk2 ← QLBTreeMeta.encode level (newKeys.drop splitIdx) (newElems.drop splitIdx)
    return ({ isSplit := true, splitKey, level,
              numElems := [Qldb.numElements chunk1, Qldb.numElements chunk2] },
      (delta.createChunk (nodeId pre level splitKey) chunk1).createChunk (nodeId pre level thisid)
        chunk2)

/-- The number of elements under `_INFI_` says whether the node is the last one. -/
theorem updateChild_eq {r : QLBTreeInsertResult} {i : ℕ} {newKeys : List Bytes}
    (h : Inner P n id es c kids tail) (hkeys : (QLBTreeMeta.ofChunk c).newKeys i r = newKeys)
    (hlast : tail = [] → newKeys.getLast? = some id) :
    (QLBTreeMeta.ofChunk c).updateChild cfg pre i r delta =
      writeInner cfg pre n id newKeys ((QLBTreeMeta.ofChunk c).newElems i r) delta := by
  have hm := h.ofChunk
  have hlevel : (QLBTreeMeta.ofChunk c).level = n := by rw [hm]
  have helems : (QLBTreeMeta.ofChunk c).getChildElems (QLBTreeMeta.ofChunk c).numEntries =
      .ok tail.length := by
    rw [hm, QLBTreeMeta.getChildElems, QLBTreeMeta.numEntries, at?, List.length_map, withTail,
      List.map_append, List.getElem?_append_right (List.length_map _).le, List.length_map,
      Nat.sub_self]
    rfl
  unfold QLBTreeMeta.updateChild
  simp only [hkeys, helems, ok_bind, hlevel]
  by_cases hzero : tail.length = 0
  · have hthis : at? newKeys (newKeys.length - 1) = .ok id := by
      rw [at?, ← List.getLast?_eq_getElem?, hlast (List.length_eq_zero_iff.mp hzero)]
    rw [if_pos hzero, hthis]
    rfl
  · have hid : id = infi := by
      by_contra hne
      exact hzero (List.length_eq_zero_iff.mpr (h.tail_iff.mpr hne))
    rw [if_neg hzero, hid]
    rfl

/-- A chunk that was written for the children is a node over them. -/
theorem inner_of_encode (hslot : ∀ q ∈ withTail kids tail, q.2 ≠ [] → Slot d s pre n q.1 q.2)
    (hne : kids ≠ []) (htail : tail = [] ↔ id ≠ infi) (hsep : ∀ q ∈ kids, lastKey q.2 = some q.1)
    (hc : QLBTreeMeta.encode (n + 1) (kids.map Prod.fst)
      ((withTail kids tail).map fun p => p.2.length) = .ok c) :
    Inner (Slot d s pre n) (n + 1) id (entriesOf (withTail kids tail)) c kids tail := by
  refine ⟨rfl, ?_, hne, htail, hsep, hslot⟩
  rw [map_fst_counts, map_snd_counts]
  exact hc

/-- Writing nodes of its level leaves an inner node alone. -/
theorem Inner.node (h : Inner (Slot d s pre n) (n + 1) id es c kids tail)
    {d' : Bytes → Option Bytes} (hd : ∀ y, (∀ x, y ≠ nodeId pre (n + 1) x) → d' y = d y) :
    Node d' s pre (n + 1) id es c := by
  refine node_succ.mpr ⟨kids, tail, h.imp fun p _ _ hp => hp.congr ?_ fun y _ => rfl⟩
  intro y hy
  apply hd
  rintro x rfl
  exact not_names_of_level (Nat.lt_succ_self n) hy

/-- **The node is written** over its new children. -/
theorem writeInner_spec
    (hslot : ∀ q ∈ withTail kids tail, q.2 ≠ [] → Slot delta.getChunk s pre n q.1 q.2)
    (hne : kids ≠ []) (htail : tail = [] ↔ id ≠ infi) (hsep : ∀ q ∈ kids, lastKey q.2 = some q.1)
    (hord : (entriesOf (withTail kids tail)).Ordered)
    (hinfi : infi ∉ (entriesOf (withTail kids tail)).map Prod.fst)
    (hid : HasId id (entriesOf (withTail kids tail))) :
    Outcome (· = Fault.oversize)
      (fun r => ∃ left right, Inserted delta.getChunk r.2.getChunk s pre (n + 1) id
        (entriesOf (withTail kids tail)) r.1 left right)
      (writeInner cfg pre (n + 1) id (kids.map Prod.fst)
        ((withTail kids tail).map fun p => p.2.length) delta) := by
  unfold writeInner
  by_cases hfit : (kids.map Prod.fst).length ≤ cfg.fanout
  · -- the node is written as one
    rw [if_pos hfit]
    apply (QLBTreeMeta.encode_outcome _ _ _).bind
    intro c₁ hc₁
    have hi := inner_of_encode hslot hne htail hsep hc₁
    exact ⟨[], _, inserted_one hi.ne_nil rfl rfl (by rw [hi.numElements]) fun d' hd => hi.node hd⟩
  · -- the node is cut
    rw [if_neg hfit]
    obtain ⟨hpos, hlt⟩ := computeSplitIndex_bounds cfg.fanout_pos hfit
    generalize BPlusConfig.computeSplitIndex (kids.map Prod.fst).length = j at hpos hlt
    rw [List.length_map] at hlt
    have hdrop : kids.drop j ≠ [] := by
      rw [Ne, List.drop_eq_nil_iff]
      omega
    have htake : kids.take j ≠ [] := by
      rw [Ne, List.take_eq_nil_iff]
      rintro (hz | hz)
      · omega
      · exact hne hz
    have hget : kids[j - 1]? = some kids[j - 1] := List.getElem?_eq_getElem (by omega)
    have hkey : at? (kids.map Prod.fst) (j - 1) = .ok (kids[j - 1]).1 := by
      rw [at?, List.getElem?_map, hget]
      rfl
    have helems₁ : (List.map (fun p => p.2.length) (withTail kids tail)).take j ++ [0] =
        (withTail (kids.take j) []).map fun p => p.2.length := by
      rw [withTail, List.map_append, List.take_append_of_le_length (by rw [List.length_map]; omega),
        withTail, List.map_append, List.map_take]
      rfl
    have helems₂ : (List.map (fun p => p.2.length) (withTail kids tail)).drop j =
        (withTail (kids.drop j) tail).map fun p => p.2.length := by
      rw [withTail, List.map_append, List.drop_append_of_le_length (by rw [List.length_map]; omega),
        withTail, List.map_append, List.map_drop]
    have hcut : entriesOf (withTail kids tail) = entriesOf (withTail (kids.take j) []) ++
        entriesOf (withTail (kids.drop j) tail) := by
      rw [withTail, withTail, withTail, entriesOf_append, entriesOf_append, entriesOf_append,
        ← List.append_assoc]
      simp only [entriesOf_cons, entriesOf_nil, List.append_nil]
      rw [← entriesOf_append, List.take_append_drop]
    have hsep₁ : ∀ q ∈ kids.take j, lastKey q.2 = some q.1 := fun q hq =>
      hsep q (List.mem_of_mem_take hq)
    have hlast : lastKey (entriesOf (withTail (kids.take j) [])) = some (kids[j - 1]).1 := by
      have hgetLast : (kids.take j).getLast? = some kids[j - 1] := by
        rw [getLast?_take hpos hlt.le, hget]
      exact lastKey_entriesOf hgetLast (hsep₁ _ (List.mem_of_getLast? hgetLast))
    have hright : HasId id (entriesOf (withTail (kids.drop j) tail)) := by
      have hne₂ : entriesOf (withTail (kids.drop j) tail) ≠ [] := by
        obtain ⟨q, hq⟩ := List.exists_mem_of_ne_nil _ hdrop
        obtain ⟨e, he⟩ := List.exists_mem_of_ne_nil _
          (ne_nil_of_lastKey (hsep q (List.mem_of_mem_drop hq)))
        exact List.ne_nil_of_mem (List.mem_flatMap_of_mem (List.mem_append_left _ hq) he)
      rw [HasId, ← lastKey_append_of_ne_nil hne₂, ← hcut]
      exact hid
    have hmem : (kids[j - 1]).1 ∈ (entriesOf (withTail (kids.take j) [])).map Prod.fst :=
      mem_keys_of_lastKey hlast
    have hne_infi : (kids[j - 1]).1 ≠ infi := by
      rintro heq
      rw [hcut, List.map_append, List.mem_append, ← heq] at hinfi
      exact hinfi (Or.inl hmem)
    have hne_id : (kids[j - 1]).1 ≠ id := by
      rw [hcut] at hord hinfi
      exact ne_id_of_append hord hinfi hright hmem
    simp only [hkey, ok_bind]
    rw [helems₁, helems₂, ← List.map_take, ← List.map_drop]
    apply (QLBTreeMeta.encode_outcome _ _ _).bind
    intro c₁ hc₁
    apply (QLBTreeMeta.encode_outcome _ _ _).bind
    intro c₂ hc₂
    have hi₁ := inner_of_encode (fun q hq hqne => by
      rcases List.mem_append.mp hq with hq | hq
      · exact hslot q (List.mem_append_left _ (List.mem_of_mem_take hq)) hqne
      · obtain rfl := List.mem_singleton.mp hq
        exact absurd rfl hqne) htake (iff_of_true rfl hne_infi) hsep₁ hc₁
    have hi₂ := inner_of_encode (fun q hq hqne => by
      rcases List.mem_append.mp hq with hq | hq
      · exact hslot q (List.mem_append_left _ (List.mem_of_mem_drop hq)) hqne
      · exact hslot q (List.mem_append_right _ hq) hqne) hdrop htail
      (fun q hq => hsep q (List.mem_of_mem_drop hq)) hc₂
    refine ⟨_, _, inserted_two (r := ⟨true, (kids[j - 1]).1, n + 1, _⟩) hcut hi₂.ne_nil hlast hne_id
      rfl rfl ?_ (fun d' hd => hi₁.node hd) fun d' hd => hi₂.node hd⟩
    rw [hi₁.numElements, hi₂.numElements]

/-! ### `Insert` -/

section Child

variable {front back left : Kids} {p : Bytes × StdMap Bytes} {right : StdMap Bytes}
  {d' : Bytes → Option Bytes} {r : QLBTreeInsertResult}

/-- An insertion into the node is one into the child. -/
theorem Located.assign (hl : Located kids tail key front p back) (h : Inner P n id es c kids tail) :
    es.assign key value = entriesOf front ++ (p.2.assign key value ++ entriesOf back) := by
  rw [hl.entries h, StdMap.assign_append_right hl.below]
  congr 1
  rcases hl.last with ⟨-, rfl, -⟩ | ⟨rest, -, hkids, hnot⟩
  · rw [entriesOf_nil, List.append_nil, List.append_nil]
  · have hmem : p ∈ kids := by
      rw [hkids]
      exact List.mem_append_right _ List.mem_cons_self
    obtain ⟨e, he, heq⟩ := List.mem_map.mp (mem_keys_of_lastKey (h.sep p hmem))
    exact StdMap.assign_append_left ⟨e, he, heq ▸ hnot⟩

/-- The other children have none of the names below the child. -/
theorem Located.separate (hl : Located kids tail key front p back) (h : Inner P n id es c kids tail)
    (hord : (es.assign key value).Ordered) (hinfi : infi ∉ (es.assign key value).map Prod.fst)
    {q : Bytes × StdMap Bytes} (hq : q ∈ front ∨ q ∈ back) {m m' : ℕ} {y : Bytes}
    (hy : Names pre m q.1 q.2 y) : ¬ Names pre m' p.1 (p.2.assign key value) y := by
  have hne : p.2.assign key value ≠ [] := StdMap.assign_ne_nil
  obtain ⟨kids₁, tail₁, heq, -, -, -, hmem⟩ := hl.replace [] hne
  rw [List.nil_append] at heq
  have hes : es.assign key value = entriesOf (withTail kids₁ tail₁) := by
    rw [hl.assign h, heq, entriesOf_append, entriesOf_cons]
  have hsep : ∀ q ∈ kids₁, lastKey q.2 = some q.1 := by
    intro q hq
    rcases hmem q hq with hq | hq | ⟨rfl, hp, hnot⟩
    · exact h.sep q hq
    · cases hq
    · exact lastKey_assign (h.sep p hp) hnot
  have hall : Separate pre (withTail kids₁ tail₁) :=
    separate_withTail (hes ▸ hord) (hes ▸ hinfi) hsep
  rw [heq] at hall
  obtain ⟨-, hback, hcross⟩ := List.pairwise_append.mp hall
  rcases hq with hq | hq
  · exact hcross q hq _ List.mem_cons_self m m' y hy
  · exact fun hy' => (List.pairwise_cons.mp hback).1 q hq m' m y hy' hy

/-- The children after the insertion. -/
theorem Located.slots (hl : Located kids tail key front p back)
    (h : Inner (Slot d s pre n) (n + 1) id es c kids tail) (hord : (es.assign key value).Ordered)
    (hinfi : infi ∉ (es.assign key value).map Prod.fst)
    (hins : Inserted d d' s pre n p.1 (p.2.assign key value) r left right)
    {q : Bytes × StdMap Bytes} (hq : q ∈ front ++ (left ++ (p.1, right) :: back)) (hne : q.2 ≠ []) :
    Slot d' s pre n q.1 q.2 := by
  have hkeep : q ∈ front ∨ q ∈ back → Slot d' s pre n q.1 q.2 := by
    intro hq
    have hmem : q ∈ withTail kids tail := by
      rw [hl.eq, List.mem_append, List.mem_cons]
      tauto
    apply (h.kid q hmem hne).congr _ fun y _ => rfl
    exact fun y hy => hins.frame y (hl.separate h hord hinfi hq hy)
  rcases List.mem_append.mp hq with hq | hq
  · exact hkeep (Or.inl hq)
  · rw [List.append_cons] at hq
    rcases List.mem_append.mp hq with hq | hq
    · exact hins.slot hq
    · exact hkeep (Or.inr hq)

/-- `new_keys` after the insertion. -/
theorem Inserted.newKeys (hins : Inserted d d' s pre n id es r left right) (m : QLBTreeMeta) (i : ℕ) :
    m.newKeys i r = m.keys.take i ++ (left.map Prod.fst ++ m.keys.drop i) := by
  unfold QLBTreeMeta.newKeys
  rcases hins.split with ⟨rfl, hsplit⟩ | ⟨l, rfl, -, hsplit⟩
  · rw [hsplit, if_neg Bool.false_ne_true, List.map_nil, List.nil_append, List.take_append_drop]
  · rw [hsplit, if_pos rfl]
    rfl

/-- `new_elems` after the insertion. -/
theorem Located.newElems {n' : ℕ} {es' : StdMap Bytes} (hl : Located kids tail key front p back)
    (h : Inner P n' id es c kids tail) (hins : Inserted d d' s pre n p.1 es' r left right) :
    (QLBTreeMeta.ofChunk c).newElems front.length r =
      (front ++ (left ++ (p.1, right) :: back)).map fun p => p.2.length := by
  have hlen : (front.map fun p => p.2.length).length = front.length := List.length_map _
  rw [h.ofChunk, QLBTreeMeta.newElems, hl.eq, hins.numElems]
  simp only [List.map_append, List.map_cons, List.map_nil]
  rw [List.take_left' hlen, ← List.drop_drop, List.drop_left' hlen]
  simp only [List.drop_succ_cons, List.drop_zero, List.append_assoc, List.cons_append,
    List.nil_append]

end Child

/-- **An insertion** assigns the key in the entries below the node. -/
theorem insert_spec : ∀ {n fuel : ℕ} {id : Bytes} {es : StdMap Bytes} {c : Bytes}
    {delta : QLBTreeDelta} {db : DB}, Node delta.getChunk db.chunkAt pre n id es c → es.Ordered →
    infi ∉ (es.assign key value).map Prod.fst → Reaches id es key → n < fuel →
    Outcome (· = Fault.oversize)
      (fun r => db.SameAnswers r.2.2 ∧ ∃ left right, Inserted delta.getChunk r.2.1.getChunk db.chunkAt
        pre n id (es.assign key value) r.1 left right)
      (insert cfg pre key value fuel c delta db)
  | _, 0, _, _, _, _, _, _, _, _, _, hfuel => absurd hfuel (Nat.not_lt_zero _)
  | 0, fuel + 1, id, es, c, delta, db, ⟨next, hc, hnext⟩, hord, hinfi, hr, _ => by
    rw [insert, QLBTreeMap.chunkType_encode hc]
    apply (insertMap_spec hc hnext hord hr hinfi delta).bind
    rintro ⟨r, delta'⟩ hins
    exact ⟨DB.SameAnswers.refl db, hins⟩
  | n + 1, fuel + 1, id, es, c, delta, db, ⟨kids, tail, h⟩, hord, hinfi, hr, hfuel => by
    obtain ⟨front, p, back, hl⟩ := h.locate hord hr
    obtain ⟨c', hc', hnode⟩ := (h.kid p hl.mem hl.ne_nil).node
    have hord' : (es.assign key value).Ordered := hord.assign key value
    have hinfi' : infi ∉ (p.2.assign key value).map Prod.fst := by
      intro hmem
      rw [hl.assign h, List.map_append, List.map_append] at hinfi
      exact hinfi (List.mem_append_right _ (List.mem_append_left _ hmem))
    have hrest : ∀ db₀, db.SameAnswers db₀ → Outcome (· = Fault.oversize)
        (fun r => db.SameAnswers r.2.2 ∧ ∃ left right, Inserted delta.getChunk r.2.1.getChunk
          db.chunkAt pre (n + 1) id (es.assign key value) r.1 left right)
        (insert cfg pre key value fuel c' delta db₀ >>= fun r =>
          (QLBTreeMeta.ofChunk c).updateChild cfg pre front.length r.1 r.2.1 >>= fun r' =>
            pure (r'.1, r'.2, r.2.2)) := by
      intro db₀ hsame
      rw [← hsame.chunkAt] at hnode
      apply (insert_spec hnode (h.ordered_kid hord hl.mem) hinfi' hl.reaches
        (Nat.lt_of_succ_lt_succ hfuel)).bind
      rintro ⟨r, delta', db'⟩ ⟨hsame', left, right, hins⟩
      simp only at hsame' hins
      rw [hsame.chunkAt] at hins
      -- the node over its new children
      obtain ⟨kids', tail', heq, hkeys, htail, hne, hmem⟩ := hl.replace left hins.right_ne
      have hes : es.assign key value = entriesOf (withTail kids' tail') := by
        rw [hl.assign h, hins.entries, heq]
        simp only [entriesOf_append, entriesOf_cons, List.append_assoc]
      have hsep : ∀ q ∈ kids', lastKey q.2 = some q.1 := by
        intro q hq
        rcases hmem q hq with hq | hq | ⟨rfl, hp, hnot⟩
        · exact h.sep q hq
        · exact hins.lastKey_left hq
        · rw [hins.lastKey_right]
          exact lastKey_assign (h.sep p hp) hnot
      have hid : HasId id (entriesOf (withTail kids' tail')) := hes ▸ hr.hasId_assign
      have hnewKeys : (QLBTreeMeta.ofChunk c).newKeys front.length r = kids'.map Prod.fst := by
        rw [hins.newKeys, h.ofChunk, hkeys]
      have hlast : tail = [] → (kids'.map Prod.fst).getLast? = some id := by
        intro hnil
        obtain ⟨q, hq⟩ : ∃ q, kids'.getLast? = some q :=
          ⟨_, List.getLast?_eq_some_getLast (hne h.kids_ne)⟩
        have hlastq := lastKey_entriesOf hq (hsep q (List.mem_of_getLast? hq))
        rw [htail.mpr hnil] at hid
        rw [List.getLast?_map, hq, Option.map_some, ← hlastq]
        exact hid.resolve_left (h.tail_iff.mp hnil)
      simp only [updateChild_eq h hnewKeys hlast, hl.newElems h hins, ← heq]
      apply (writeInner_spec (fun q hq hqne => hl.slots h hord' hinfi hins (heq ▸ hq) hqne)
        (hne h.kids_ne) (htail.trans h.tail_iff) hsep (hes ▸ hord') (hes ▸ hinfi) hid).bind
      rintro ⟨r', delta''⟩ ⟨left', right', hins'⟩
      rw [← hes] at hins'
      refine ⟨hsame.trans hsame', left', right', { hins' with frame := fun y hy => ?_ }⟩
      rw [hins'.frame y hy]
      apply hins.frame
      intro hy'
      apply hy
      apply hy'.mono (Nat.le_succ n)
      · rcases h.id_kid hl.mem hl.ne_nil with hidp | hidp
        · exact Or.inl hidp
        · exact Or.inr (StdMap.keys_assign.mpr (Or.inr hidp))
      · intro k hk
        rw [hl.assign h, List.map_append, List.map_append]
        exact List.mem_append_right _ (List.mem_append_left _ hk)
    rw [insert, QLBTreeMeta.chunkType_encode h.encoded]
    simp only [hl.binarySearch h hord, ok_bind, h.childId hl.getElem?, h.childKey]
    -- the child is read from the delta or from the store
    cases hchild : delta.getChunk (nodeId pre n p.1) with
    | some child =>
      rw [hchild, Option.some_or] at hc'
      obtain rfl := Option.some.inj hc'
      exact hrest db (DB.SameAnswers.refl db)
    | none =>
      rw [hchild, Option.none_or] at hc'
      rw [DB.getChunk_eq, hc']
      exact hrest _ (DB.SameAnswers.getChunk db _)

end LedgerDatabase.Qldb.QLBTree
