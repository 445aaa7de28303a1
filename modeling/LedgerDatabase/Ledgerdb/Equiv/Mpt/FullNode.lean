import LedgerDatabase.Common.Equiv.Chunk
import LedgerDatabase.Ledgerdb.Mpt.Node

/-!
# The bytes of a full node

`layout` is a full node with a given count, the hashes of the first sixteen children, and the bytes
of the last one.  `Encode` builds such a node, `getChildAtIndex` finds its parts, and
`setChildAtIndex` replaces one of them.  Hence replacing a child in place and encoding the node again
give the same bytes (`setChildAtIndex_encode`).
-/

namespace LedgerDatabase.Ledgerdb.Mpt

open Chunk

/-! ### Blocks of one length -/

section Blocks

variable {α : Type*} {f : α → Bytes} {n : ℕ}

theorem length_flatMap_const {l : List α} (hf : ∀ a, (f a).length = n) :
    (l.flatMap f).length = l.length * n := by
  rw [List.length_flatMap, List.map_congr_left (fun a _ => hf a), List.map_const', List.sum_replicate]
  rfl

end Blocks

/-! ### Hash nodes -/

section

variable {junk : Bytes}

@[simp]
theorem length_ofHash (h : Hash) : (MPTHashNode.ofHash h).length = kHashSize := by
  rw [MPTHashNode.ofHash, length_ofData, h.length_bytes, kHashSize]

theorem type_ofHash (h : Hash) (junk : Bytes) :
    type (MPTHashNode.ofHash h ++ junk) = .kMPTHash := type_ofData

theorem numBytes_ofHash (h : Hash) : numBytes (MPTHashNode.ofHash h ++ junk) = kHashSize := by
  rw [MPTHashNode.ofHash, numBytes_ofData (by rw [h.length_bytes]; decide), h.length_bytes,
    kHashSize]

theorem bytes_ofHash (h : Hash) :
    bytes (MPTHashNode.ofHash h ++ junk) = MPTHashNode.ofHash h :=
  bytes_ofData (by rw [h.length_bytes]; decide)

theorem childHash_ofHash (h : Hash) (junk : Bytes) :
    MPTHashNode.childHash (MPTHashNode.ofHash h ++ junk) = h := by
  have hbytes : dataBytes (MPTHashNode.ofHash h ++ junk) 0 kByteLength = h.bytes := by
    rw [MPTHashNode.ofHash, dataBytes_ofData (by rw [h.length_bytes]; omega), List.drop_zero,
      List.take_of_length_le h.length_bytes.le]
  rw [MPTHashNode.childHash]
  cases h
  simpa using hbytes

end

end LedgerDatabase.Ledgerdb.Mpt

namespace LedgerDatabase.Ledgerdb.MPTFullNode

open Chunk Mpt

variable {H : Bytes → Hash}

/-! ### The parts of a full node -/

/-- A full node with the given parts. -/
def layout (count : ℕ) (hashes : List Hash) (last : Bytes) : Bytes :=
  ofData .kMPTFull (leBytes 8 count ++ (hashes.flatMap MPTHashNode.ofHash ++ last))

variable {count : ℕ} {hashes before after : List Hash} {h : Hash} {last : Bytes} {i : ℕ}

theorem length_hashes (hashes : List Hash) :
    (hashes.flatMap MPTHashNode.ofHash).length = kHashSize * hashes.length := by
  rw [length_flatMap_const length_ofHash, Nat.mul_comm]

theorem length_layout (count : ℕ) (hashes : List Hash) (last : Bytes) :
    (layout count hashes last).length =
      kMetaLength + (8 + kHashSize * hashes.length + last.length) := by
  rw [layout, length_ofData]
  simp only [List.length_append, length_leBytes, length_hashes]
  omega

theorem numBytes_layout (hfit : (layout count hashes last).length < 2 ^ 32) :
    numBytes (layout count hashes last) = (layout count hashes last).length := by
  rw [layout, length_ofData] at hfit ⊢
  exact numBytes_ofData' hfit

/-- The memory from the count on. -/
theorem dataFrom_layout (count : ℕ) (hashes : List Hash) (last : Bytes) : dataFrom (layout count hashes last) 0 =
    leBytes 8 count ++ (hashes.flatMap MPTHashNode.ofHash ++ last) := by
  rw [layout, dataFrom_ofData' (Nat.zero_le _), List.drop_zero]

theorem numElem_layout (count : ℕ) (hashes : List Hash) (last : Bytes) :
    numElem (layout count hashes last) = count % 2 ^ 64 := by
  rw [numElem, dataBytes_of_dataFrom (dataFrom_layout ..) (length_leBytes ..), leNat_leBytes]
  rfl

/-- The memory from a child on. -/
theorem dataFrom_child (count : ℕ) (before after : List Hash) (last : Bytes) :
    dataFrom (layout count (before ++ after) last) (8 + kHashSize * before.length) =
    after.flatMap MPTHashNode.ofHash ++ last := by
  have hdata := dataFrom_step (dataFrom_layout count (before ++ after) last) 8 (length_leBytes ..)
  rw [List.flatMap_append, List.append_assoc, Nat.zero_add] at hdata
  exact dataFrom_step hdata _ (length_hashes before)

theorem dataBytes_before (count : ℕ) (before after : List Hash) (last : Bytes) :
    dataBytes (layout count (before ++ after) last) 8 (kHashSize * before.length) = before.flatMap MPTHashNode.ofHash := by
  have hdata := dataFrom_step (dataFrom_layout count (before ++ after) last) 8 (length_leBytes ..)
  rw [List.flatMap_append, List.append_assoc, Nat.zero_add] at hdata
  exact dataBytes_of_dataFrom hdata (length_hashes before)

/-- The first sixteen children are hash nodes. -/
theorem getChildAtIndex_hash (count : ℕ) (before : List Hash) (h : Hash) (after : List Hash) (last : Bytes)
    (hi : before.length < 17) :
    getChildAtIndex (layout count (before ++ h :: after) last) before.length =
      .ok (MPTHashNode.ofHash h ++ (after.flatMap MPTHashNode.ofHash ++ last)) := by
  rw [getChildAtIndex, if_pos hi, dataFrom_child, List.flatMap_cons, List.append_assoc]

/-- The last child is there itself. -/
theorem getChildAtIndex_last (count : ℕ) (last : Bytes) (hlen : hashes.length = 16) :
    getChildAtIndex (layout count hashes last) 16 = .ok last := by
  have hdata := dataFrom_child count hashes [] last
  rw [List.append_nil, hlen, List.flatMap_nil, List.nil_append] at hdata
  rw [getChildAtIndex, if_pos (by omega), hdata]

/-! ### Replacing a part -/

variable {child oChild : Bytes}

theorem newCapacity_layout (hfit : (layout count hashes last).length < 2 ^ 32) {value old : Bytes}
    (hold : numBytes old ≤ (layout count hashes last).length - kMetaLength) :
    newCapacity (layout count hashes last) value old =
      ((layout count hashes last).length - kMetaLength - numBytes old + numBytes value) % 2 ^ 32 := by
  rw [newCapacity, numBytes_layout hfit]
  rw [length_layout] at hfit hold ⊢
  omega

theorem setChildAtIndex_hash (child oChild : Bytes) (hlen : (before ++ h :: after).length = 16)
    (hfit : (layout count (before ++ h :: after) last).length < 2 ^ 32) :
    setChildAtIndex H (layout count (before ++ h :: after) last) before.length child oChild =
      .ok (layout (newElems (layout count (before ++ h :: after) last) child oChild)
        (before ++ hash H child :: after) last) := by
  have hlen' := hlen
  rw [List.length_append, List.length_cons] at hlen'
  have hi : before.length < 16 := by omega
  have hvalue : MPTHashNode.encode H child = MPTHashNode.ofHash (hash H child) ++ [] :=
    (List.append_nil _).symm
  have hsize := length_layout count (before ++ h :: after) last
  rw [hlen] at hsize
  have hsize' : (layout (newElems (layout count (before ++ h :: after) last) child oChild)
      (before ++ hash H child :: after) last).length =
      (layout count (before ++ h :: after) last).length := by
    simp only [length_layout, List.length_append, List.length_cons]
  have hcap : newCapacity (layout count (before ++ h :: after) last) (MPTHashNode.encode H child)
      (MPTHashNode.ofHash h ++ (after.flatMap MPTHashNode.ofHash ++ last)) =
      8 + kHashSize * 16 + last.length := by
    rw [newCapacity_layout hfit (by rw [numBytes_ofHash, hsize]; omega), numBytes_ofHash, hvalue,
      numBytes_ofHash, hsize]
    omega
  -- what stands behind the child
  have htail : dataBytes (layout count (before ++ h :: after) last)
      (8 + kHashSize * (before.length + 1)) (8 + kHashSize * 16 + last.length -
        (8 + kHashSize * (before.length + 1))) = after.flatMap MPTHashNode.ofHash ++ last := by
    have hdata := dataFrom_child count (before ++ [h]) after last
    rw [List.append_assoc, List.singleton_append, List.length_append, List.length_singleton] at hdata
    rw [← List.append_nil (after.flatMap MPTHashNode.ofHash ++ last)] at hdata
    apply dataBytes_of_dataFrom hdata
    rw [List.length_append, length_hashes, ← hlen, List.length_append, List.length_cons,
      Nat.mul_add, Nat.mul_add, Nat.mul_add]
    omega
  rw [setChildAtIndex, getChildAtIndex_hash _ _ _ _ _ (by omega), ok_bind]
  simp only [if_neg (show before.length ≠ 16 by omega), hcap, dataBytes_before, if_pos hi, htail]
  rw [hvalue, bytes_ofHash]
  generalize newElems (layout count (before ++ h :: after) last) child oChild = n at hsize'
  have hdata : ofData .kMPTFull (leBytes 8 n ++ before.flatMap MPTHashNode.ofHash ++
      MPTHashNode.ofHash (hash H child) ++ (after.flatMap MPTHashNode.ofHash ++ last)) =
      layout n (before ++ hash H child :: after) last := by
    rw [layout, List.flatMap_append, List.flatMap_cons]
    simp only [List.append_assoc]
  have hlength := congrArg List.length hdata
  rw [length_ofData, hsize', hsize] at hlength
  rw [create_eq (Nat.add_left_cancel hlength), hdata, hsize', if_pos hfit]

theorem setChildAtIndex_last (child oChild : Bytes) (hlen : hashes.length = 16) (hlast : numBytes last = last.length)
    (hfit : (layout count hashes last).length < 2 ^ 32) :
    setChildAtIndex H (layout count hashes last) 16 child oChild =
      if (layout (newElems (layout count hashes last) child oChild) hashes (bytes child)).length < 2 ^ 32
      then .ok (layout (newElems (layout count hashes last) child oChild) hashes (bytes child))
      else .error .oversize := by
  have hsize := length_layout count hashes last
  have hsize' := length_layout (newElems (layout count hashes last) child oChild) hashes (bytes child)
  have hbytes : (bytes child).length = numBytes child := length_readBytes ..
  rw [hlen] at hsize hsize'
  have hcap : newCapacity (layout count hashes last) child last =
      (8 + kHashSize * 16 + (bytes child).length) % 2 ^ 32 := by
    rw [newCapacity_layout hfit (by rw [hlast, hsize]; omega), hlast, hsize, hbytes]
    congr 1
    omega
  have hbefore := dataBytes_before count hashes [] last
  rw [List.append_nil, hlen] at hbefore
  rw [setChildAtIndex, getChildAtIndex_last _ _ hlen, ok_bind]
  simp only [if_true, hcap, hbefore, if_neg (Nat.lt_irrefl 16)]
  generalize newElems (layout count hashes last) child oChild = n at hsize'
  have hdata : ofData .kMPTFull (leBytes 8 n ++ hashes.flatMap MPTHashNode.ofHash ++ bytes child ++ []) =
      layout n hashes (bytes child) := by
    rw [layout, List.append_nil, List.append_assoc]
  have hlength := congrArg List.length hdata
  rw [length_ofData, hsize'] at hlength
  by_cases hfit' : kMetaLength + (8 + kHashSize * 16 + (bytes child).length) < 2 ^ 32
  · rw [if_pos (hsize' ▸ hfit'), create_eq (by omega), hdata, hsize', if_pos hfit']
  · rw [if_neg (hsize' ▸ hfit'), create, if_neg]
    omega

theorem layout_congr {count' : ℕ} (h : leBytes 8 count = leBytes 8 count') :
    layout count hashes last = layout count' hashes last := by
  rw [layout, layout, h]

theorem elemsOf_lt (c : Bytes) : elemsOf c < 2 ^ 64 := by
  have hnum : numElem c < 2 ^ 64 := by
    have hlt := leNat_lt (dataBytes c 0 8)
    rwa [length_dataBytes] at hlt
  unfold elemsOf
  split
  · decide
  · decide
  · exact hnum

/-- The count that `setChildAtIndex` computes on 64 bits is the sum of the counts. -/
theorem leBytes_newElems {c : Bytes} {count' : ℕ} (hcount : numElem c = count % 2 ^ 64)
    (hsum : (count' + elemsOf oChild) % 2 ^ 64 = (count + elemsOf child) % 2 ^ 64) :
    leBytes 8 (newElems c child oChild) = leBytes 8 count' := by
  have hold := elemsOf_lt oChild
  apply leBytes_congr
  rw [newElems, hcount]
  omega

/-! ### Encoding -/

/-- `MPTFullNode::Encode` of sixteen children and a last one. -/
theorem encode_eq {children : List Bytes} (hlen : children.length = 16) (node : Bytes) :
    encode H (children ++ [node]) =
      if (layout ((children ++ [node]).map elemsOf).sum (children.map (hash H)) (bytes node)).length
        < 2 ^ 32
      then .ok (layout ((children ++ [node]).map elemsOf).sum (children.map (hash H)) (bytes node))
      else .error .oversize := by
  have hlast : (children ++ [node]).getD 16 [] = node := by
    rw [List.getD_eq_getElem?_getD, ← hlen, List.getElem?_concat_length]
    rfl
  have hblocks : ((children ++ [node]).take 16).flatMap (MPTHashNode.encode H) =
      (children.map (hash H)).flatMap MPTHashNode.ofHash := by
    rw [List.take_left' hlen, List.flatMap_map]
    rfl
  have hbytes : (bytes node).length = numBytes node := length_readBytes ..
  rw [encode, if_neg (by rw [List.length_append, hlen, List.length_singleton]; omega)]
  simp only [hlast, hblocks]
  rw [create_eq, List.append_assoc]
  · rfl
  · simp only [List.length_append, length_leBytes, length_hashes, List.length_map, hlen, hbytes]
    omega

/-- The sixteen children before the last one. -/
theorem exists_last {children : List Bytes} (hlen : children.length = 17) :
    ∃ kids node, children = kids ++ [node] ∧ kids.length = 16 := by
  refine ⟨children.dropLast, children.getLast (by rintro rfl; simp at hlen), ?_, ?_⟩
  · rw [List.dropLast_append_getLast]
  · rw [List.length_dropLast, hlen]

/-- **Replacing a child in place** is encoding the children again, with the same size limit. -/
theorem setChildAtIndex_encode_eq {children : List Bytes} (child : Bytes) (hlen : children.length = 17) {node : Bytes}
    (hnode : encode H children = .ok node) (hi : children[i]? = some oChild) :
    setChildAtIndex H node i child oChild = encode H (children.set i child) := by
  obtain ⟨kids, last, rfl, hkids⟩ := exists_last hlen
  rw [encode_eq hkids] at hnode
  split_ifs at hnode with hfit
  cases hnode
  have hlt : i < 17 := by
    rw [← hlen]
    exact (List.getElem?_eq_some_iff.mp hi).1
  -- the sum of the counts before and after
  have hsum : (((kids ++ [last]).set i child).map elemsOf).sum + elemsOf oChild =
      ((kids ++ [last]).map elemsOf).sum + elemsOf child := by
    obtain ⟨hlt, heq⟩ := List.getElem?_eq_some_iff.mp hi
    have hsplit := List.take_append_drop i (kids ++ [last])
    rw [List.drop_eq_getElem_cons hlt, heq] at hsplit
    rw [List.set_eq_take_append_cons_drop, if_pos hlt]
    conv_rhs => rw [← hsplit]
    simp only [List.map_append, List.map_cons, List.sum_append, List.sum_cons]
    omega
  have hcount := leBytes_newElems (numElem_layout ((kids ++ [last]).map elemsOf).sum
    (kids.map (hash H)) (bytes last)) (congrArg (· % 2 ^ 64) hsum)
  by_cases h16 : i = 16
  · subst h16
    rw [← hkids, List.getElem?_concat_length, Option.some.injEq] at hi
    subst hi
    have hset : (kids ++ [last]).set 16 child = kids ++ [child] := by
      rw [List.set_append, if_neg (by omega), hkids]
      rfl
    have hsize : (bytes last).length = numBytes last := length_readBytes ..
    rw [setChildAtIndex_last _ _ (by rw [List.length_map, hkids]) (by rw [numBytes_bytes, hsize]) hfit,
      layout_congr hcount, hset, encode_eq hkids]
  · have hlt' : i < kids.length := by omega
    rw [List.getElem?_append_left hlt'] at hi
    obtain ⟨_, heq⟩ := List.getElem?_eq_some_iff.mp hi
    have hsplit := List.take_append_drop i kids
    rw [List.drop_eq_getElem_cons hlt', heq] at hsplit
    have hset : kids.set i child = kids.take i ++ child :: kids.drop (i + 1) := by
      rw [List.set_eq_take_append_cons_drop, if_pos hlt']
    have hlength : ((kids.take i).map (hash H)).length = i := by
      rw [List.length_map, List.length_take]
      omega
    have hmap : kids.map (hash H) = (kids.take i).map (hash H) ++ hash H oChild ::
        (kids.drop (i + 1)).map (hash H) := by
      conv_lhs => rw [← hsplit]
      rw [List.map_append, List.map_cons]
    have hmap' : (kids.set i child).map (hash H) = (kids.take i).map (hash H) ++ hash H child ::
        (kids.drop (i + 1)).map (hash H) := by
      rw [hset, List.map_append, List.map_cons]
    have hlen16 : (kids.map (hash H)).length = 16 := by rw [List.length_map, hkids]
    rw [List.set_append, if_pos hlt'] at hcount ⊢
    rw [encode_eq (by rw [List.length_set, hkids]), hmap']
    rw [hmap] at hlen16 hfit hcount ⊢
    have hrun := setChildAtIndex_hash (H := H) child oChild hlen16 hfit
    rw [hlength, layout_congr hcount] at hrun
    rw [hrun, if_pos]
    rw [length_layout] at hfit ⊢
    rw [List.length_append, List.length_cons] at hfit ⊢
    exact hfit

/-- A child of an encoded node: the last one itself, and the hash nodes of the others. -/
theorem getChildAtIndex_encode {children : List Bytes} (hlen : children.length = 17) {node : Bytes}
    (hnode : encode H children = .ok node) {j : ℕ} {c : Bytes} (hj : children[j]? = some c) :
    ∃ p, getChildAtIndex node j = .ok p ∧
      bytes p = if j = 16 then bytes c else MPTHashNode.encode H c := by
  obtain ⟨kids, last, rfl, hkids⟩ := exists_last hlen
  rw [encode_eq hkids] at hnode
  split_ifs at hnode with hfit
  cases hnode
  have hlt := (List.getElem?_eq_some_iff.mp hj).1
  by_cases h16 : j = 16
  · subst h16
    rw [← hkids, List.getElem?_concat_length, Option.some.injEq] at hj
    subst hj
    refine ⟨_, getChildAtIndex_last _ _ (by rw [List.length_map, hkids]), ?_⟩
    rw [if_pos rfl, bytes_bytes]
  · have hlt' : j < kids.length := by omega
    rw [List.getElem?_append_left hlt'] at hj
    obtain ⟨_, heq⟩ := List.getElem?_eq_some_iff.mp hj
    have hsplit := List.take_append_drop j kids
    rw [List.drop_eq_getElem_cons hlt', heq] at hsplit
    have hmap : kids.map (hash H) = (kids.take j).map (hash H) ++ hash H c ::
        (kids.drop (j + 1)).map (hash H) := by
      conv_lhs => rw [← hsplit]
      rw [List.map_append, List.map_cons]
    have hlength : ((kids.take j).map (hash H)).length = j := by
      rw [List.length_map, List.length_take]
      omega
    have hchild := getChildAtIndex_hash ((kids ++ [last]).map elemsOf).sum
      ((kids.take j).map (hash H)) (hash H c) ((kids.drop (j + 1)).map (hash H)) (bytes last) (by omega)
    rw [hlength, ← hmap] at hchild
    refine ⟨_, hchild, ?_⟩
    rw [if_neg h16, bytes_ofHash]
    rfl

/-- **`setChildAtIndex` is `Encode` of the children with one replaced**, and its children are found
there. -/
theorem setChildAtIndex_encode (H : Bytes → Hash) (children : List Bytes)
    (hlen : children.length = 17) (node : Bytes) (hnode : encode H children = .ok node) (i : ℕ)
    (child oChild : Bytes) (hi : children[i]? = some oChild) :
    setChildAtIndex H node i child oChild = encode H (children.set i child) ∧
      ∀ node', setChildAtIndex H node i child oChild = .ok node' →
        ∀ j c, (children.set i child)[j]? = some c →
          ∃ p, getChildAtIndex node' j = .ok p ∧
            bytes p = if j = 16 then bytes c else MPTHashNode.encode H c := by
  have heq := setChildAtIndex_encode_eq child hlen hnode hi
  refine ⟨heq, ?_⟩
  intro node' hnode' j c hj
  apply getChildAtIndex_encode _ (heq ▸ hnode') hj
  rw [List.length_set, hlen]

/-- Seventeen nil nodes, of which the last is replaced by a value. -/
theorem setChildAtIndex_encode_nil : ∃ node,
    encode (fun _ => Hash.fromBase32 []) (List.replicate 17 MPTNilNode.encode) = .ok node ∧
      setChildAtIndex (fun _ => Hash.fromBase32 []) node 16 (ofData .kMPTValue [7]) MPTNilNode.encode =
        encode (fun _ => Hash.fromBase32 [])
          ((List.replicate 17 MPTNilNode.encode).set 16 (ofData .kMPTValue [7])) :=
  ⟨layout 0 (List.replicate 16 (Hash.fromBase32 [])) MPTNilNode.encode, by decide +kernel,
    (setChildAtIndex_encode _ _ (by decide) _ (by decide +kernel) 16 _ _ (by decide)).1⟩

end LedgerDatabase.Ledgerdb.MPTFullNode
