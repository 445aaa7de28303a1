import LedgerDatabase.Ledgerdb.Equiv.Mpt.FullNode
import LedgerDatabase.Library.RadixTree

/-!
# Tries as trees

A trie is a radix tree over nibbles and the terminator 16, with byte strings as values; `enc` is
the chunk of its root node, in which all children but values are replaced by their hashes.  On
these chunks the node classes do what their names say: the accessors return the parts that `enc`
put there, and `Encode` and `setChildAtIndex` return the chunk of the tree with the given parts, or
fail when it does not fit its 32-bit size (`nodeSize`).
-/

namespace LedgerDatabase.Ledgerdb.Mpt

open Chunk

/-- A trie: nibbles and the terminator 16 lead to values. -/
abbrev Tree := RadixTree (Fin 17) Bytes

/-- The terminator is written `16`. -/
instance neZeroSlots : NeZero 17 := ⟨by decide⟩

/-- The bytes of a run of nibbles. -/
def nibbles (key : List (Fin 17)) : Bytes := key.map fun i : Fin 17 => UInt8.ofNat i.val

@[simp]
theorem length_nibbles (key : List (Fin 17)) : (nibbles key).length = key.length := by
  simp [nibbles]

/-- Values are stored inside their parents. -/
def isValue : Tree → Bool
  | .value _ => true
  | _ => false

/-- The type of the chunk of a node. -/
def kind : Tree → ChunkType
  | .nil => .kMPTNil
  | .value _ => .kMPTValue
  | .short _ _ => .kMPTShort
  | .full _ => .kMPTFull

/-- The number of bytes of the chunk of a node. -/
def nodeSize : Tree → ℕ
  | .nil => kMetaLength
  | .value v => kMetaLength + v.length
  | .short key child =>
    kMetaLength + (8 + 4 + key.length + if isValue child then nodeSize child else kHashSize)
  | .full kids => kMetaLength + (8 + 16 * kHashSize + nodeSize (kids 16))

variable (H : Bytes → Hash)

/-- The chunk of a node. -/
def enc : Tree → Bytes
  | .nil => ofData .kMPTNil []
  | .value v => ofData .kMPTValue v
  | .short key child => ofData .kMPTShort (leBytes 8 child.count ++ leBytes 4 key.length ++
      nibbles key ++ if isValue child then enc child else MPTHashNode.ofHash (H (enc child)))
  | .full kids => ofData .kMPTFull (leBytes 8 (RadixTree.full kids).count ++
      (List.finRange 16).flatMap (fun i => MPTHashNode.ofHash (H (enc (kids i.castSucc)))) ++
      enc (kids 16))

/-- The bytes that stand for a child of a short node. -/
def ref (child : Tree) : Bytes :=
  if isValue child then enc H child else MPTHashNode.ofHash (H (enc H child))

/-! ### The chunk of a node -/

theorem enc_eq_ofData (t : Tree) : ∃ data, enc H t = ofData (kind t) data := by
  cases t <;> exact ⟨_, rfl⟩

theorem length_enc : ∀ t : Tree, (enc H t).length = nodeSize t
  | .nil => rfl
  | .value v => length_ofData
  | .short key child => by
    have hif : (if isValue child then enc H child else MPTHashNode.ofHash (H (enc H child))).length
        = if isValue child then nodeSize child else kHashSize := by
      split_ifs
      · exact length_enc child
      · exact length_ofHash _
    rw [enc, length_ofData, nodeSize]
    simp only [List.length_append, length_leBytes, length_nibbles, hif]
  | .full kids => by
    rw [enc, length_ofData, nodeSize]
    simp only [List.length_append, length_leBytes, length_enc (kids 16),
      length_flatMap_const (fun _ => length_ofHash _), List.length_finRange]

section Enc

variable {H} {t : Tree} {junk : Bytes}

@[simp]
theorem type_enc : type (enc H t) = kind t := by
  obtain ⟨data, hdata⟩ := enc_eq_ofData H t
  rw [hdata, type_ofData']

theorem numBytes_enc (h : nodeSize t < 2 ^ 32) : numBytes (enc H t) = nodeSize t := by
  have hlen := length_enc H t
  obtain ⟨data, hdata⟩ := enc_eq_ofData H t
  rw [hdata, length_ofData] at hlen
  rw [hdata, numBytes_ofData' (by omega), hlen]

theorem bytes_enc (h : nodeSize t < 2 ^ 32) : bytes (enc H t) = enc H t := by
  have hlen := length_enc H t
  obtain ⟨data, hdata⟩ := enc_eq_ofData H t
  rw [hdata, length_ofData] at hlen
  rw [hdata, bytes_ofData' (by omega)]

theorem hash_enc (h : nodeSize t < 2 ^ 32) : Chunk.hash H (enc H t) = H (enc H t) := by
  rw [Chunk.hash, bytes_enc h]

/-- The count of a short or full node. -/
theorem numElem_ofData {ty : ChunkType} (n : ℕ) (rest : Bytes) :
    numElem (ofData ty (leBytes 8 n ++ rest)) = n % 2 ^ 64 := by
  rw [numElem, dataBytes_ofData' (by simp), List.drop_zero, List.take_left' (length_leBytes ..),
    leNat_leBytes]
  rfl

theorem elemsOf_enc (t : Tree) : elemsOf (enc H t) = t.count % 2 ^ 64 := by
  rw [elemsOf, type_enc]
  cases t with
  | nil => rfl
  | value v => rfl
  | short key child =>
    simp only [kind, enc, List.append_assoc, numElem_ofData]
    rfl
  | full kids => simp only [kind, enc, List.append_assoc, numElem_ofData]

end Enc

/-! ### Values and short nodes -/

section Short

variable {H} {key : List (Fin 17)} {child : Tree}

theorem encode_value (v : Bytes) : MPTValueNode.encode v
    = if nodeSize (.value v) < 2 ^ 32 then .ok (enc H (.value v)) else .error .oversize := by
  rw [MPTValueNode.encode, create_eq rfl, ← length_enc H]
  rfl

theorem getVal_enc {v : Bytes} (h : nodeSize (.value v) < 2 ^ 32) :
    MPTValueNode.getVal (enc H (.value v)) = .ok v := by
  rw [MPTValueNode.getVal, numBytes_enc h, if_neg (by rw [nodeSize]; omega), enc,
    dataBytes_ofData' (by rw [nodeSize]; omega), nodeSize, Nat.add_sub_cancel_left, List.drop_zero,
    List.take_length]

theorem length_ref : (ref H child).length
    = if isValue child then nodeSize child else kHashSize := by
  unfold ref
  split_ifs
  · exact length_enc H child
  · exact length_ofHash _

theorem enc_short : enc H (.short key child) = ofData .kMPTShort
    (leBytes 8 child.count ++ (leBytes 4 key.length ++ (nibbles key ++ ref H child))) := by
  rw [enc, ref, List.append_assoc, List.append_assoc]

theorem type_enc_eq_value_iff : type (enc H child) = .kMPTValue ↔ isValue child := by
  rw [type_enc]
  cases child <;> simp [kind, isValue]

theorem numElem_enc (h : isValue child = false) : numElem (enc H child) = child.count % 2 ^ 64 := by
  rw [← elemsOf_enc (H := H), elemsOf, type_enc]
  cases child with
  | nil => rfl
  | value v => simp [isValue] at h
  | short key child => rfl
  | full kids => rfl

/-- `MPTShortNode::Encode` builds a short node over a child that fits. -/
theorem encode_short (hchild : nodeSize child < 2 ^ 32) :
    MPTShortNode.encode H (nibbles key) (enc H child)
      = if nodeSize (.short key child) < 2 ^ 32 then .ok (enc H (.short key child))
        else .error .oversize := by
  have helems : leBytes 8 (if type (enc H child) = .kMPTValue then 1 else numElem (enc H child))
      = leBytes 8 child.count := by
    simp only [type_enc_eq_value_iff]
    cases hv : isValue child
    · rw [if_neg Bool.false_ne_true, numElem_enc hv]
      exact leBytes_mod 8 _
    · obtain ⟨v, rfl⟩ : ∃ v, child = .value v := by
        cases child <;> simp [isValue] at hv
        exact ⟨_, rfl⟩
      rfl
  have hbytes : MPTShortNode.childBytes H (enc H child) = ref H child := by
    simp only [MPTShortNode.childBytes, type_enc_eq_value_iff, ref, bytes_enc hchild,
      MPTHashNode.encode, hash_enc hchild]
  have hcap : 8 + 4 + (nibbles key).length
      + (if type (enc H child) = .kMPTValue then numBytes (enc H child) else kHashSize)
      = 8 + 4 + key.length + (ref H child).length := by
    simp only [type_enc_eq_value_iff, numBytes_enc hchild, length_nibbles, length_ref]
  simp only [MPTShortNode.encode, helems, hbytes, hcap]
  rw [create_eq (by simp; omega), length_nibbles, List.append_assoc, List.append_assoc, ← enc_short,
    length_enc]

section Parts

variable (h : nodeSize (.short key child) < 2 ^ 32)
include h

theorem keyLen_enc : MPTShortNode.keyLen (enc H (.short key child)) = key.length := by
  rw [nodeSize] at h
  rw [MPTShortNode.keyLen, enc_short, dataBytes_ofData' (by simp; omega),
    List.drop_left' (length_leBytes ..), List.take_left' (length_leBytes ..), leNat_leBytes]
  exact Nat.mod_eq_of_lt (by omega)

theorem getKey_enc : MPTShortNode.getKey (enc H (.short key child)) = nibbles key := by
  rw [MPTShortNode.getKey, keyLen_enc h, enc_short, dataBytes_ofData' (by simp; omega),
    ← List.append_assoc, List.drop_left' (by simp), List.take_left' (length_nibbles key)]

theorem childNode_enc : MPTShortNode.childNode (enc H (.short key child)) = ref H child := by
  rw [MPTShortNode.childNode, keyLen_enc h, enc_short, dataFrom_ofData' (by simp; omega),
    ← List.append_assoc, ← List.append_assoc, List.drop_left' (by simp; omega)]

end Parts

end Short

/-! ### Full nodes -/

section Full

open MPTFullNode (layout)

variable {H} {kids : Fin 17 → Tree}

/-- The hashes of the first sixteen children. -/
def kidHashes (H : Bytes → Hash) (kids : Fin 17 → Tree) : List Hash :=
  (List.finRange 16).map fun i => H (enc H (kids i.castSucc))

theorem length_kidHashes (H : Bytes → Hash) (kids : Fin 17 → Tree) : (kidHashes H kids).length = 16 := by
  rw [kidHashes, List.length_map, List.length_finRange]

/-- The hashes around one of the children. -/
theorem kidHashes_split (kids : Fin 17 → Tree) (i : Fin 16) : ∃ before after,
    kidHashes H kids = before ++ H (enc H (kids i.castSucc)) :: after ∧ before.length = i ∧
      ∀ t, kidHashes H (Function.update kids i.castSucc t) = before ++ H (enc H t) :: after := by
  have hlt : (i : ℕ) < (kidHashes H kids).length := by
    rw [length_kidHashes]
    exact i.isLt
  have hupdate (t : Tree) : kidHashes H (Function.update kids i.castSucc t) =
      (kidHashes H kids).set i (H (enc H t)) := by
    apply List.ext_getElem
    · rw [List.length_set, length_kidHashes, length_kidHashes]
    · intro n hn _
      rw [length_kidHashes] at hn
      simp only [kidHashes, List.getElem_map, List.getElem_finRange, List.getElem_set]
      by_cases hni : (i : ℕ) = n
      · subst hni
        simp
      · rw [if_neg hni, Function.update_of_ne]
        intro h
        have := congrArg Fin.val h
        simp only [Fin.val_castSucc, Fin.val_cast] at this
        omega
  refine ⟨(kidHashes H kids).take i, (kidHashes H kids).drop (i + 1), ?_, ?_, ?_⟩
  · have h := hupdate (kids i.castSucc)
    rw [Function.update_eq_self, List.set_eq_take_append_cons_drop, if_pos hlt] at h
    exact h
  · rw [List.length_take]
    omega
  · intro t
    rw [hupdate, List.set_eq_take_append_cons_drop, if_pos hlt]

theorem enc_full : enc H (.full kids) =
    layout (RadixTree.full kids).count (kidHashes H kids) (enc H (kids 16)) := by
  rw [enc, layout, kidHashes, List.flatMap_map, List.append_assoc]

/-- The children of a full node, as a list. -/
def kidChunks (H : Bytes → Hash) (kids : Fin 17 → Tree) : List Bytes :=
  (List.finRange 17).map fun i => enc H (kids i)

theorem kidChunks_eq : kidChunks H kids
    = (List.finRange 16).map (fun i => enc H (kids i.castSucc)) ++ [enc H (kids 16)] := by
  rw [kidChunks, List.finRange_succ_last, List.map_append, List.map_map]
  rfl

/-- `MPTFullNode::Encode` builds a full node over children that fit. -/
theorem encode_full (hkids : ∀ i, nodeSize (kids i) < 2 ^ 32) :
    MPTFullNode.encode H (kidChunks H kids)
      = if nodeSize (.full kids) < 2 ^ 32 then .ok (enc H (.full kids))
        else .error .oversize := by
  have hhashes : ((List.finRange 16).map fun i => enc H (kids i.castSucc)).map (Chunk.hash H) =
      kidHashes H kids := by
    rw [kidHashes, List.map_map]
    exact List.map_congr_left fun i _ => hash_enc (hkids _)
  have hsum : leBytes 8 ((kidChunks H kids).map elemsOf).sum
      = leBytes 8 (RadixTree.full kids).count := by
    refine leBytes_congr ?_
    rw [kidChunks, List.map_map, RadixTree.count, Fin.sum_univ_def]
    generalize List.finRange 17 = l
    induction l with
    | nil => rfl
    | cons i l ih =>
      simp only [List.map_cons, List.sum_cons, Function.comp_apply, elemsOf_enc]
      exact Nat.ModEq.add (Nat.mod_modEq _ (256 ^ 8)) ih
  have hnode : layout ((kidChunks H kids).map elemsOf).sum (kidHashes H kids)
      (bytes (enc H (kids 16))) = enc H (.full kids) := by
    rw [enc_full, layout, layout, hsum, bytes_enc (hkids 16)]
  rw [kidChunks_eq] at hnode ⊢
  rw [MPTFullNode.encode_eq (by rw [List.length_map, List.length_finRange]), hhashes, hnode,
    length_enc]

/-- The first sixteen children are hash nodes. -/
theorem getChildAtIndex_enc (kids : Fin 17 → Tree) (i : Fin 16) : ∃ junk,
    MPTFullNode.getChildAtIndex (enc H (.full kids)) i
      = .ok (MPTHashNode.ofHash (H (enc H (kids i.castSucc))) ++ junk) := by
  obtain ⟨before, after, hsplit, hlen, -⟩ := kidHashes_split (H := H) kids i
  have hchild := MPTFullNode.getChildAtIndex_hash (RadixTree.full kids).count before
    (H (enc H (kids i.castSucc))) after (enc H (kids 16)) (by omega)
  rw [← hsplit, ← enc_full, hlen] at hchild
  exact ⟨_, hchild⟩

/-- **`getChildAtIndex`**: the node itself in slot 16, its hash node in the other slots. -/
theorem getChildAtIndex_cases (kids : Fin 17 → Tree) (i : Fin 17) :
    ∃ c, MPTFullNode.getChildAtIndex (enc H (.full kids)) i = .ok c ∧
      (i = 16 → c = enc H (kids i)) ∧
      (i ≠ 16 → ∃ junk, c = MPTHashNode.ofHash (H (enc H (kids i))) ++ junk) := by
  induction i using Fin.lastCases with
  | last =>
    have hlast := MPTFullNode.getChildAtIndex_last (RadixTree.full kids).count (enc H (kids 16))
      (length_kidHashes H kids)
    rw [← enc_full] at hlast
    exact ⟨_, hlast, fun _ => rfl, fun h => absurd rfl h⟩
  | cast i =>
    obtain ⟨junk, hchild⟩ := getChildAtIndex_enc (H := H) kids i
    exact ⟨_, hchild, fun h => absurd h (Fin.castSucc_lt_last i).ne, fun _ => ⟨junk, rfl⟩⟩

/-- The count of a full node after a child was replaced, computed on 64 bits. -/
theorem leBytes_count_update (kids : Fin 17 → Tree) (i : Fin 17) (t : Tree) :
    leBytes 8 (MPTFullNode.newElems (enc H (.full kids)) (enc H t) (enc H (kids i)))
      = leBytes 8 (RadixTree.full (Function.update kids i t)).count := by
  have hcount := RadixTree.count_full_update kids i t
  apply MPTFullNode.leBytes_newElems (numElem_enc rfl)
  rw [elemsOf_enc, elemsOf_enc]
  omega

theorem update_castSucc_last (i : Fin 16) (t : Tree) :
    Function.update kids i.castSucc t 16 = kids 16 :=
  Function.update_of_ne (fun h => (Fin.castSucc_lt_last i).ne h.symm) _ _

/-- **`setChildAtIndex`** replaces a child that fits. -/
theorem setChildAtIndex_enc (i : Fin 17) {t : Tree} (hfull : nodeSize (.full kids) < 2 ^ 32)
    (ht : nodeSize t < 2 ^ 32) :
    MPTFullNode.setChildAtIndex H (enc H (.full kids)) i (enc H t) (enc H (kids i))
      = if nodeSize (.full (Function.update kids i t)) < 2 ^ 32 then
          .ok (enc H (.full (Function.update kids i t))) else .error .oversize := by
  have hfit := hfull
  rw [← length_enc H, enc_full] at hfit
  have hcount := leBytes_count_update (H := H) kids i t
  rw [← length_enc H (.full (Function.update kids i t)), enc_full, enc_full]
  rw [enc_full] at hcount
  induction i using Fin.lastCases with
  | last =>
    rw [show (Fin.last 16 : Fin 17) = 16 from rfl] at hcount ⊢
    have hlast : nodeSize (kids 16) < 2 ^ 32 := by
      rw [nodeSize] at hfull
      omega
    have hhashes : kidHashes H (Function.update kids 16 t) = kidHashes H kids := by
      unfold kidHashes
      apply List.map_congr_left
      intro j _
      rw [Function.update_of_ne (show j.castSucc ≠ 16 from (Fin.castSucc_lt_last j).ne)]
    have hset := MPTFullNode.setChildAtIndex_last (H := H) (enc H t) (enc H (kids 16))
      (length_kidHashes H kids) (by rw [numBytes_enc hlast, length_enc]) hfit
    rw [bytes_enc ht, MPTFullNode.layout_congr hcount] at hset
    rw [hhashes, Function.update_self]
    exact hset
  | cast i =>
    obtain ⟨before, after, hsplit, hlen, hupdate⟩ := kidHashes_split (H := H) kids i
    have hlen16 := length_kidHashes H kids
    rw [hsplit] at hfit hcount hlen16
    have hset := MPTFullNode.setChildAtIndex_hash (H := H) (enc H t) (enc H (kids i.castSucc)) hlen16
      hfit
    rw [hash_enc ht, MPTFullNode.layout_congr hcount, hlen] at hset
    rw [hsplit, hupdate, update_castSucc_last, if_pos]
    · exact hset
    · rw [MPTFullNode.length_layout] at hfit ⊢
      rw [List.length_append, List.length_cons] at hfit ⊢
      exact hfit

end Full

end LedgerDatabase.Ledgerdb.Mpt
