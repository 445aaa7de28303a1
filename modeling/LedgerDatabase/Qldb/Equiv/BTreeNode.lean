import LedgerDatabase.Common.Equiv.Slice
import LedgerDatabase.Common.Equiv.StdMap
import LedgerDatabase.Qldb.BTreeNode
import LedgerDatabase.Qldb.Equiv.Qlnode

/-!
# Nodes of the B+ tree are read back as they were written

A leaf gives back its entries and an inner node its keys and numbers (`ofChunk_encode`).  Encoding
fails only for the size of the chunk, the level, or the number of elements (`encode_of_lt`).  In an
inner node `BinarySearch` finds the number of keys below the one it looks for
(`binarySearch_eq`), and the loop of `Insert` over a leaf is an assignment to a map
(`insertEntry_eq`).
-/

namespace LedgerDatabase.Qldb

open Chunk

/-! ### Names -/

/-- A name determines the level and the id. -/
@[simp]
theorem nodeId_inj {pre : Bytes} {m n : ℕ} {x y : Bytes} :
    nodeId pre m x = nodeId pre n y ↔ m = n ∧ x = y := by
  constructor
  · intro h
    simp only [nodeId, List.append_assoc, List.append_cancel_left_eq] at h
    -- both are a decimal number, a bar, and the id
    have hbar : ∀ (k : ℕ) (id : Bytes), (toDecimal k ++ (str "|" ++ id)).takeWhile isDigit
        = toDecimal k := by
      intro k id
      rw [List.takeWhile_append_of_pos fun b hb => isDigit_of_mem_toDecimal hb]
      exact List.append_nil _
    have hlevel : toDecimal m = toDecimal n := by rw [← hbar m x, h, hbar]
    rw [hlevel] at h
    exact ⟨toDecimal_inj.mp hlevel, List.append_cancel_left (List.append_cancel_left h)⟩
  · rintro ⟨rfl, rfl⟩
    rfl

theorem nodeId_ne_rootId (pre : Bytes) (n : ℕ) (x : Bytes) : nodeId pre n x ≠ rootId pre := by
  intro h
  simp only [nodeId, rootId, List.append_assoc, List.append_cancel_left_eq] at h
  obtain ⟨d, ds, hds⟩ := List.exists_cons_of_ne_nil (toDecimal_ne_nil n)
  have hd : isDigit d := isDigit_of_mem_toDecimal (n := n) (hds ▸ List.mem_cons_self)
  rw [hds] at h
  rw [(List.cons.inj h).1] at hd
  exact absurd hd (by decide)

@[simp]
theorem bytes_createChunk {type : ChunkType} {capacity : ℕ} {data c : Bytes}
    (h : createChunk type capacity data = .ok c) : bytes c = c := by
  rw [createChunk] at h
  split_ifs at h with hsize
  obtain rfl := Except.ok.inj h
  have hbytes : bytes (ofByteData type.toByte data ++ []) = ofByteData type.toByte data :=
    bytes_ofByteData (hsize.1 ▸ hsize.2)
  rwa [List.append_nil] at hbytes

theorem chunkType_createChunk {type : ChunkType} {capacity : ℕ} {data c : Bytes}
    (h : createChunk type capacity data = .ok c) : chunkType c = type := by
  rw [createChunk] at h
  split_ifs at h
  obtain rfl := Except.ok.inj h
  have htype := @chunkType_ofByteData type data []
  rwa [List.append_nil] at htype

/-! ### Leaves -/

namespace QLBTreeMap

/-- The bytes of the entries of a leaf. -/
def size (entries : List (Bytes × Bytes)) : ℕ :=
  (entries.map fun e => 4 * 2 + e.1.length + e.2.length).sum

variable {level : ℕ} {entries : List (Bytes × Bytes)} {next c : Bytes}

theorem length_encodeEntry (e : Bytes × Bytes) :
    (encodeEntry e).length = 4 * 2 + e.1.length + e.2.length := by
  simp only [encodeEntry, List.length_append, length_leBytes]

theorem length_flatMap_encodeEntry (entries : List (Bytes × Bytes)) :
    (entries.flatMap encodeEntry).length = size entries := by
  rw [List.length_flatMap, size]
  simp only [length_encodeEntry]

/-- The data of a leaf. -/
def dataOf (level : ℕ) (entries : List (Bytes × Bytes)) (next : Bytes) : Bytes :=
  leBytes 8 entries.length ++ (leBytes 4 level ++ (leBytes 4 entries.length ++
    (entries.flatMap encodeEntry ++ (leBytes 4 next.length ++ next))))

theorem length_dataOf :
    (dataOf level entries next).length = 8 + 4 * 2 + size entries + (4 + next.length) := by
  simp only [dataOf, List.length_append, length_leBytes, length_flatMap_encodeEntry]
  omega

theorem encode_eq (level : ℕ) (entries : List (Bytes × Bytes)) (next : Bytes) :
    encode level entries next = if level < 2 ^ 32 then
      createChunk .kMap (dataOf level entries next).length (dataOf level entries next)
      else .error .oversize := by
  have hdata : leBytes 8 entries.length ++ leBytes 4 level ++ leBytes 4 entries.length ++
      entries.flatMap encodeEntry ++ leBytes 4 next.length ++ next = dataOf level entries next := by
    simp only [dataOf, List.append_assoc]
  rw [encode, hdata, length_dataOf, size]

theorem encode_eq_ok_iff : encode level entries next = .ok c ↔
    level < 2 ^ 32 ∧ kMetaLength + (dataOf level entries next).length < 2 ^ 32 ∧
      c = ofByteData ChunkType.kMap.toByte (dataOf level entries next) := by
  rw [encode_eq]
  split_ifs with hlevel
  · rw [createChunk_eq_ok_iff rfl]
    exact ⟨fun h => ⟨hlevel, h⟩, fun h => h.2⟩
  · exact iff_of_false (by simp) fun h => hlevel h.1

theorem encode_error {e : Fault} (h : encode level entries next = .error e) : e = .oversize := by
  rw [encode_eq] at h
  split_ifs at h
  · exact createChunk_error h
  · exact (Except.error.inj h).symm

/-- The loop finds the entries, and what follows them. -/
theorem entriesAt_of_dataFrom {rest : Bytes} : ∀ (entries : List (Bytes × Bytes)) (off : ℕ),
    (∀ e ∈ entries, 4 * 2 + e.1.length + e.2.length < 2 ^ 32) →
      dataFrom c off = entries.flatMap encodeEntry ++ rest →
      ∃ last, entriesAt c entries.length off = (entries, last) ∧ dataFrom c last = rest
  | [], off, _, h => ⟨off, rfl, h⟩
  | (k, v) :: entries, off, hsize, h => by
    have he := hsize (k, v) List.mem_cons_self
    simp only at he
    rw [List.flatMap_cons, List.append_assoc] at h
    have hend := dataFrom_step h _ (length_encodeEntry (k, v))
    simp only [encodeEntry, List.append_assoc] at h hend
    have h4 := dataFrom_step h 4 (length_leBytes ..)
    have h8 := dataFrom_step h4 4 (length_leBytes ..)
    have hval := dataFrom_step h8 k.length rfl
    have hn : dataNat c off 4 = 4 * 2 + k.length + v.length := by
      rw [dataNat_of_dataFrom h]
      exact Nat.mod_eq_of_lt he
    have hk : dataNat c (off + 4) 4 = k.length := by
      rw [dataNat_of_dataFrom h4]
      exact Nat.mod_eq_of_lt (by omega)
    have hv : subSize (subSize (4 * 2 + k.length + v.length) k.length) (4 * 2) = v.length := by
      have hkey : subSize (4 * 2 + k.length + v.length) k.length = 4 * 2 + v.length := by
        rw [subSize, if_pos (by omega)]
        omega
      rw [hkey, subSize, if_pos (by omega)]
      omega
    obtain ⟨last, hlast, hrest⟩ := entriesAt_of_dataFrom entries _
      (fun e he => hsize e (List.mem_cons_of_mem _ he)) hend
    refine ⟨last, ?_, hrest⟩
    rw [List.length_cons, entriesAt, hn, hk, hv]
    simp only [hlast]
    rw [show off + 8 = off + 4 + 4 from rfl, dataBytes_of_dataFrom h8 rfl,
      dataBytes_of_dataFrom hval rfl]

theorem size_le_of_mem {e : Bytes × Bytes} (he : e ∈ entries) :
    4 * 2 + e.1.length + e.2.length ≤ size entries :=
  List.le_sum_of_mem (List.mem_map_of_mem he)

theorem length_le_size (entries : List (Bytes × Bytes)) : entries.length ≤ size entries := by
  rw [size, ← List.length_map (f := fun e : Bytes × Bytes => 4 * 2 + e.1.length + e.2.length)]
  apply List.length_le_sum_of_one_le
  intro n hn
  obtain ⟨e, -, rfl⟩ := List.mem_map.mp hn
  omega

section

variable (h : encode level entries next = .ok c)
include h

theorem dataFrom_encode : dataFrom c 0 = dataOf level entries next := by
  obtain ⟨-, -, rfl⟩ := encode_eq_ok_iff.mp h
  rw [dataFrom_ofByteData' _ (Nat.zero_le _), List.drop_zero]

theorem size_lt_of_encode : size entries + next.length < 2 ^ 32 := by
  have hsize := (encode_eq_ok_iff.mp h).2.1
  rw [length_dataOf, kMetaLength] at hsize
  omega

theorem numElements_encode : numElements c = entries.length := by
  have h0 := dataFrom_encode h
  have hsize := size_lt_of_encode h
  have hlen := length_le_size entries
  rw [numElements, dataNat_of_dataFrom h0]
  exact Nat.mod_eq_of_lt (by omega)

theorem levelOf_encode : levelOf c = level := by
  have h8 := dataFrom_step (dataFrom_encode h) 8 (length_leBytes ..)
  rw [levelOf, ← Nat.zero_add 8, dataNat_of_dataFrom h8]
  exact Nat.mod_eq_of_lt (encode_eq_ok_iff.mp h).1

/-- **A leaf gives back its entries.** -/
theorem ofChunk_encode :
    ofChunk c = ⟨entries.map Prod.fst, entries.map Prod.snd, next⟩ := by
  have hsize := size_lt_of_encode h
  have hlen := length_le_size entries
  have h8 := dataFrom_step (dataFrom_encode h) 8 (length_leBytes ..)
  have h12 := dataFrom_step h8 4 (length_leBytes ..)
  have h16 := dataFrom_step h12 4 (length_leBytes ..)
  simp only [Nat.zero_add, Nat.reduceAdd] at h12 h16
  have hnum : dataNat c 12 4 = entries.length := by
    rw [dataNat_of_dataFrom h12]
    exact Nat.mod_eq_of_lt (by omega)
  obtain ⟨last, hlast, hrest⟩ := entriesAt_of_dataFrom entries 16
    (fun e he => by have := size_le_of_mem he; omega) h16
  have hnext := dataFrom_step hrest 4 (length_leBytes ..)
  rw [← List.append_nil next] at hnext
  have hbytes : dataNat c last 4 = next.length := by
    rw [dataNat_of_dataFrom hrest]
    exact Nat.mod_eq_of_lt (by omega)
  rw [ofChunk, hnum]
  simp only [hlast, hbytes]
  rw [dataBytes_of_dataFrom hnext rfl]

theorem entries_ofChunk_encode : (ofChunk c).entries = entries := by
  rw [ofChunk_encode h, QLBTreeMap.entries]
  exact (List.zip_of_prod rfl rfl).symm

theorem createChunk_of_encode :
    createChunk .kMap (dataOf level entries next).length (dataOf level entries next) = .ok c := by
  have hlevel := (encode_eq_ok_iff.mp h).1
  rwa [encode_eq, if_pos hlevel] at h

theorem chunkType_encode : chunkType c = .kMap := chunkType_createChunk (createChunk_of_encode h)

theorem bytes_encode : bytes c = c := bytes_createChunk (createChunk_of_encode h)

end

/-- The map without entries is a leaf. -/
theorem encode_nil : encode 0 [] [] = .ok emptyMap := by decide

/-! ### The loop of `Insert` -/

theorem insertEntry_true (key value : Bytes) : ∀ {entries : List (Bytes × Bytes)},
    (∀ e ∈ entries, key ≠ e.1) → insertEntry key value true entries = entries
  | [], _ => rfl
  | (k, v) :: rest, h => by
    rw [insertEntry, if_neg (h (k, v) List.mem_cons_self)]
    simp only [Bool.not_true, Bool.false_and, Bool.true_or, Bool.false_eq_true, if_false,
      List.nil_append]
    rw [insertEntry_true key value fun e he => h e (List.mem_cons_of_mem _ he)]

/-- **The loop of `Insert`** over a leaf assigns the value to the key. -/
theorem insertEntry_eq (key value : Bytes) : ∀ {entries : StdMap Bytes}, entries.Ordered →
    insertEntry key value false entries = entries.assign key value
  | [], _ => rfl
  | (k, v) :: rest, h => by
    obtain ⟨hhead, htail⟩ := List.pairwise_cons.mp h
    rw [insertEntry, StdMap.assign]
    simp only [Bool.not_false, Bool.true_and, Bool.false_or, decide_eq_true_eq]
    by_cases heq : key = k
    · subst heq
      have hrest : ∀ e ∈ rest, key ≠ e.1 := by
        intro e he hkey
        have hlt := hhead e he
        simp only [← hkey] at hlt
        exact List.lt_irrefl _ hlt
      rw [if_pos rfl, if_pos rfl, if_neg (List.lt_irrefl _), insertEntry_true _ _ hrest]
      rfl
    · rw [if_neg heq, if_neg heq]
      by_cases hlt : key < k
      · have hrest : ∀ e ∈ rest, key ≠ e.1 := by
          rintro e he rfl
          exact List.lt_irrefl _ (List.lt_trans hlt (hhead e he))
        rw [if_pos hlt, if_pos hlt, decide_eq_true hlt, insertEntry_true _ _ hrest]
        rfl
      · rw [if_neg hlt, if_neg hlt, decide_eq_false hlt, insertEntry_eq key value htail]
        rfl

end QLBTreeMap

/-! ### Inner nodes -/

namespace QLBTreeMeta

/-- The bytes of the keys of an inner node with their numbers. -/
def size (keys : List Bytes) : ℕ := (keys.map fun key => 4 + key.length + 8).sum

/-- An entry of an inner node. -/
def encodeKid (e : Bytes × ℕ) : Bytes := leBytes 4 e.1.length ++ e.1 ++ leBytes 8 e.2

variable {level last : ℕ} {kids : List (Bytes × ℕ)} {c : Bytes}

theorem length_encodeKid (e : Bytes × ℕ) : (encodeKid e).length = 4 + e.1.length + 8 := by
  simp only [encodeKid, List.length_append, length_leBytes]

theorem length_flatMap_encodeKid (kids : List (Bytes × ℕ)) :
    (kids.flatMap encodeKid).length = size (kids.map Prod.fst) := by
  rw [List.length_flatMap, size, List.map_map]
  simp only [length_encodeKid, Function.comp_def]

/-- The data of an inner node. -/
def dataOf (level : ℕ) (kids : List (Bytes × ℕ)) (last : ℕ) : Bytes :=
  leBytes 8 ((kids.map Prod.snd).sum + last) ++ (leBytes 4 level ++ (leBytes 4 kids.length ++
    (kids.flatMap encodeKid ++ leBytes 8 last)))

theorem length_dataOf :
    (dataOf level kids last).length = 8 + 4 * 2 + size (kids.map Prod.fst) + 8 := by
  simp only [dataOf, List.length_append, length_leBytes, length_flatMap_encodeKid]
  omega

theorem encode_eq (level : ℕ) (kids : List (Bytes × ℕ)) (last : ℕ) :
    encode level (kids.map Prod.fst) (kids.map Prod.snd ++ [last]) =
      if level < 2 ^ 32 ∧ (kids.map Prod.snd).sum + last < 2 ^ 64 then
        createChunk .kMeta (dataOf level kids last).length (dataOf level kids last)
      else .error .oversize := by
  have hzip : (kids.map Prod.fst).zip (kids.map Prod.snd ++ [last]) = kids := by
    have happend : (kids.map Prod.fst ++ []).zip (kids.map Prod.snd ++ [last]) =
        (kids.map Prod.fst).zip (kids.map Prod.snd) ++ [].zip [last] :=
      List.zip_append (by rw [List.length_map, List.length_map])
    rw [List.append_nil, List.zip_nil_left, List.append_nil] at happend
    exact happend.trans (List.zip_of_prod rfl rfl).symm
  have hdata : leBytes 8 (kids.map Prod.snd ++ [last]).sum ++ leBytes 4 level ++
      leBytes 4 (kids.map Prod.fst).length ++
      ((kids.map Prod.fst).zip (kids.map Prod.snd ++ [last])).flatMap
        (fun e => leBytes 4 e.1.length ++ e.1 ++ leBytes 8 e.2) ++
      leBytes 8 ((kids.map Prod.snd ++ [last]).getLastD 0) = dataOf level kids last := by
    rw [hzip, dataOf, List.sum_append, List.sum_singleton, List.length_map, List.getLastD_concat]
    simp only [List.append_assoc]
    rfl
  rw [encode, hdata, length_dataOf, size, List.sum_append, List.sum_singleton]

theorem encode_eq_ok_iff : encode level (kids.map Prod.fst) (kids.map Prod.snd ++ [last]) = .ok c ↔
    (level < 2 ^ 32 ∧ (kids.map Prod.snd).sum + last < 2 ^ 64) ∧
      kMetaLength + (dataOf level kids last).length < 2 ^ 32 ∧
      c = ofByteData ChunkType.kMeta.toByte (dataOf level kids last) := by
  rw [encode_eq]
  split_ifs with hbound
  · rw [createChunk_eq_ok_iff rfl]
    exact ⟨fun h => ⟨hbound, h⟩, fun h => h.2⟩
  · exact iff_of_false (by simp) fun h => hbound h.1

/-- Encoding fails for a number that does not fit its field. -/
theorem encode_error {keys : List Bytes} {numElems : List ℕ} {e : Fault}
    (h : encode level keys numElems = .error e) : e = .oversize := by
  rw [encode] at h
  split_ifs at h
  · exact createChunk_error h
  · exact (Except.error.inj h).symm

/-- The loop finds the entries, and what follows them. -/
theorem entriesAt_of_dataFrom {rest : Bytes} : ∀ (kids : List (Bytes × ℕ)) (off : ℕ),
    (∀ e ∈ kids, e.1.length < 2 ^ 32 ∧ e.2 < 2 ^ 64) →
      dataFrom c off = kids.flatMap encodeKid ++ rest →
      ∃ last, entriesAt c kids.length off = (kids, last) ∧ dataFrom c last = rest
  | [], off, _, h => ⟨off, rfl, h⟩
  | (k, n) :: kids, off, hsize, h => by
    obtain ⟨hkey, hn⟩ := hsize (k, n) List.mem_cons_self
    rw [List.flatMap_cons, encodeKid] at h
    simp only [List.append_assoc] at h
    have h4 := dataFrom_step h 4 (length_leBytes ..)
    have hnum := dataFrom_step h4 k.length rfl
    have hend := dataFrom_step hnum 8 (length_leBytes ..)
    have hk : dataNat c off 4 = k.length := by
      rw [dataNat_of_dataFrom h]
      exact Nat.mod_eq_of_lt hkey
    have hcount : dataNat c (off + 4 + k.length) 8 = n := by
      rw [dataNat_of_dataFrom hnum]
      exact Nat.mod_eq_of_lt hn
    obtain ⟨last, hlast, hrest⟩ := entriesAt_of_dataFrom kids _
      (fun e he => hsize e (List.mem_cons_of_mem _ he)) hend
    refine ⟨last, ?_, hrest⟩
    rw [List.length_cons, entriesAt, hk]
    simp only [hlast, hcount]
    rw [dataBytes_of_dataFrom h4 rfl]

section

variable (h : encode level (kids.map Prod.fst) (kids.map Prod.snd ++ [last]) = .ok c)
include h

theorem dataFrom_encode : dataFrom c 0 = dataOf level kids last := by
  obtain ⟨-, -, rfl⟩ := encode_eq_ok_iff.mp h
  rw [dataFrom_ofByteData' _ (Nat.zero_le _), List.drop_zero]

theorem createChunk_of_encode :
    createChunk .kMeta (dataOf level kids last).length (dataOf level kids last) = .ok c := by
  have hbound := (encode_eq_ok_iff.mp h).1
  rwa [encode_eq, if_pos hbound] at h

theorem chunkType_encode : chunkType c = .kMeta := chunkType_createChunk (createChunk_of_encode h)

theorem bytes_encode : bytes c = c := bytes_createChunk (createChunk_of_encode h)

theorem numElements_encode : numElements c = (kids.map Prod.snd).sum + last := by
  rw [numElements, dataNat_of_dataFrom (dataFrom_encode h)]
  exact Nat.mod_eq_of_lt (encode_eq_ok_iff.mp h).1.2

theorem levelOf_encode : levelOf c = level := by
  have h8 := dataFrom_step (dataFrom_encode h) 8 (length_leBytes ..)
  rw [levelOf, ← Nat.zero_add 8, dataNat_of_dataFrom h8]
  exact Nat.mod_eq_of_lt (encode_eq_ok_iff.mp h).1.1

theorem size_lt_of_encode : size (kids.map Prod.fst) < 2 ^ 32 := by
  have hsize := (encode_eq_ok_iff.mp h).2.1
  rw [length_dataOf, kMetaLength] at hsize
  omega

/-- **An inner node gives back its keys and numbers.** -/
theorem ofChunk_encode :
    ofChunk c = ⟨level, kids.map Prod.fst, kids.map Prod.snd ++ [last]⟩ := by
  have hbound := (encode_eq_ok_iff.mp h).1.2
  have hsize := size_lt_of_encode h
  have hmem : ∀ e ∈ kids, 4 + e.1.length + 8 ≤ size (kids.map Prod.fst) := fun e he =>
    List.le_sum_of_mem (List.mem_map_of_mem (List.mem_map_of_mem he))
  have hlen : kids.length ≤ size (kids.map Prod.fst) := by
    rw [← List.length_map (f := Prod.fst), size,
      ← List.length_map (f := fun key : Bytes => 4 + key.length + 8)]
    apply List.length_le_sum_of_one_le
    intro n hn
    obtain ⟨key, -, rfl⟩ := List.mem_map.mp hn
    omega
  have h8 := dataFrom_step (dataFrom_encode h) 8 (length_leBytes ..)
  have h12 := dataFrom_step h8 4 (length_leBytes ..)
  have h16 := dataFrom_step h12 4 (length_leBytes ..)
  simp only [Nat.zero_add, Nat.reduceAdd] at h12 h16
  have hnum : dataNat c 12 4 = kids.length := by
    rw [dataNat_of_dataFrom h12]
    exact Nat.mod_eq_of_lt (by omega)
  obtain ⟨off, hoff, hrest⟩ := entriesAt_of_dataFrom kids 16 (fun e he => by
    have hle := hmem e he
    have hle' := List.le_sum_of_mem (List.mem_map_of_mem (f := Prod.snd) he)
    constructor <;> omega) h16
  rw [← List.append_nil (leBytes 8 last)] at hrest
  have hlast : dataNat c off 8 = last := by
    rw [dataNat_of_dataFrom hrest]
    exact Nat.mod_eq_of_lt (by omega)
  rw [ofChunk, hnum, levelOf_encode h]
  simp only [hoff, hlast]

end

/-! ### `BinarySearch` -/

/-- The number of keys below `key`. -/
def rank (keys : List Bytes) (key : Bytes) : ℕ :=
  (keys.takeWhile fun k => decide (k < key)).length

variable {keys : List Bytes} {key : Bytes}

theorem rank_le : rank keys key ≤ keys.length := (List.takeWhile_prefix _).length_le

/-- Of sorted keys exactly the first ones are smaller. -/
theorem lt_rank_iff (h : keys.Pairwise (· < ·)) {i : ℕ} {k : Bytes} (hk : keys[i]? = some k) :
    i < rank keys key ↔ k < key := by
  induction keys generalizing i with
  | nil => cases hk
  | cons a keys ih =>
    obtain ⟨hhead, htail⟩ := List.pairwise_cons.mp h
    by_cases ha : a < key
    · have hcons : rank (a :: keys) key = rank keys key + 1 := by
        simp [rank, ha]
      rw [hcons]
      cases i with
      | zero =>
        obtain rfl := Option.some.inj hk
        exact iff_of_true (Nat.succ_pos _) ha
      | succ i => exact Nat.succ_lt_succ_iff.trans (ih htail hk)
    · have hzero : rank (a :: keys) key = 0 := by
        simp [rank, ha]
      rw [hzero]
      refine iff_of_false (Nat.not_lt_zero i) fun hlt => ha ?_
      cases i with
      | zero =>
        obtain rfl := Option.some.inj hk
        exact hlt
      | succ i => exact List.lt_trans (hhead k (List.mem_of_getElem? hk)) hlt

theorem rank_eq_countP (h : keys.Pairwise (· < ·)) :
    rank keys key = keys.countP fun k => decide (k < key) := by
  induction keys with
  | nil => rfl
  | cons a keys ih =>
    obtain ⟨hhead, htail⟩ := List.pairwise_cons.mp h
    by_cases ha : a < key
    · have hcons : rank (a :: keys) key = rank keys key + 1 := by
        simp [rank, ha]
      rw [hcons, ih htail, List.countP_cons_of_pos (by simpa using ha)]
    · have hnone : (a :: keys).countP (fun k => decide (k < key)) = 0 := by
        rw [List.countP_eq_zero]
        intro k hk hlt
        rcases List.mem_cons.mp hk with rfl | hk
        · exact ha (of_decide_eq_true hlt)
        · exact ha (List.lt_trans (hhead k hk) (of_decide_eq_true hlt))
      rw [hnone]
      simp [rank, ha]

/-- The loop at the end goes on to the same place from anywhere before it. -/
theorem scan_eq {m : QLBTreeMeta} (h : m.keys.Pairwise (· < ·)) (hsize : m.numEntries < 2 ^ 30) :
    ∀ (fuel start : ℕ), start ≤ rank m.keys key → rank m.keys key - start < fuel →
      m.scan key fuel start = .ok (rank m.keys key : ℤ)
  | 0, _, _, hfuel => absurd hfuel (Nat.not_lt_zero _)
  | fuel + 1, start, hstart, hfuel => by
    have hrank : rank m.keys key ≤ m.numEntries := rank_le
    have hint : toInt m.numEntries = m.numEntries := toInt_of_lt (by omega)
    rw [scan, hint]
    split_ifs with hlt
    · have hin : start < m.keys.length := Int.ofNat_lt.mp hlt
      have hsmaller : start < rank m.keys key ↔ m.keys[start] < key :=
        lt_rank_iff h (List.getElem?_eq_getElem hin)
      rw [toSize_natCast (by omega)]
      simp only [at?_of_lt hin, ok_bind, Slice.gt_iff]
      split_ifs with hgt
      · -- the key is smaller, and its index lies below the rank
        have hnext : start < rank m.keys key := hsmaller.mpr hgt
        rw [addInt_of_lt (by omega) (by omega)]
        exact scan_eq h hsize fuel (start + 1) hnext (by omega)
      · have hge : ¬ start < rank m.keys key := fun hnext => hgt (hsmaller.mp hnext)
        rw [Nat.le_antisymm hstart (Nat.not_lt.mp hge)]
        rfl
    · have hge : m.numEntries ≤ start := Int.ofNat_le.mp (Int.not_lt.mp hlt)
      rw [Nat.le_antisymm hstart (Nat.le_trans hrank hge)]
      rfl

/-- The key is at its rank when it is one of the keys. -/
theorem rank_of_getElem (h : keys.Pairwise (· < ·)) {i : ℕ} (hi : i < keys.length) :
    rank keys keys[i] = i := by
  have hself : ¬ i < rank keys keys[i] := by
    rw [lt_rank_iff h (List.getElem?_eq_getElem hi)]
    exact List.lt_irrefl _
  apply Nat.le_antisymm (Nat.not_lt.mp hself)
  by_contra hlow
  have hlow : rank keys keys[i] < i := Nat.not_le.mp hlow
  have hrank : rank keys keys[i] < keys.length := Nat.lt_trans hlow hi
  have hfirst : ¬ keys[rank keys keys[i]] < keys[i] := by
    rw [← lt_rank_iff h (List.getElem?_eq_getElem hrank)]
    exact Nat.lt_irrefl _
  exact hfirst (List.pairwise_iff_getElem.mp h _ _ hrank hi hlow)

/-- The keys in front of `start` are smaller in every call, and nothing is said of those from `stop`
on: the pivot that a step to the left leaves out may be the only larger key. -/
theorem binarySearchAux_eq {m : QLBTreeMeta} (h : m.keys.Pairwise (· < ·))
    (hsize : m.numEntries < 2 ^ 30) :
    ∀ (fuel start : ℕ) (stop : ℤ), stop ≤ m.numEntries → start ≤ rank m.keys key →
      (stop - start).toNat < fuel → m.binarySearchAux key fuel start stop = .ok (rank m.keys key)
  | 0, _, _, _, _, hfuel => absurd hfuel (Nat.not_lt_zero _)
  | fuel + 1, start, stop, hstop, hstart, hfuel => by
    have hrank : rank m.keys key ≤ m.numEntries := rank_le
    have hint : toInt m.numEntries = m.numEntries := toInt_of_lt (by omega)
    rw [binarySearchAux, hint]
    by_cases hle : stop ≤ start
    · have hstart' : ¬ (m.numEntries : ℤ) < start := by omega
      have hscan : m.scan key (m.numEntries + 1) start = .ok (rank m.keys key : ℤ) :=
        scan_eq h hsize _ _ hstart (by omega)
      simp only [if_pos hle, if_neg hstart', hscan, ok_bind]
      rw [toSize_natCast (by omega)]
      rfl
    · rw [if_neg hle]
      obtain ⟨pivot, hpivot⟩ : ∃ pivot : ℕ, (stop + start).tdiv 2 = pivot := by
        apply Int.eq_ofNat_of_zero_le
        exact Int.tdiv_nonneg (by omega) (by decide)
      have hhalf : (stop + start) / 2 = pivot := by
        rw [← hpivot, Int.tdiv_eq_ediv_of_nonneg (by omega)]
      have hlow : start ≤ pivot := by omega
      have hin : pivot < m.keys.length := by
        have : stop ≤ m.keys.length := hstop
        omega
      have hiff : pivot < rank m.keys key ↔ m.keys[pivot] < key :=
        lt_rank_iff h (List.getElem?_eq_getElem hin)
      simp only [addInt_of_lt (show -2 ^ 31 ≤ stop + start by omega)
        (show stop + start < 2 ^ 31 by omega), ok_bind, hpivot,
        toSize_natCast (show pivot < 2 ^ 64 by omega), at?_of_lt hin, Slice.eq_iff, Slice.lt_iff]
      split_ifs with heq hlt
      · rw [heq, rank_of_getElem h hin]
        rfl
      · rw [addInt_of_lt (by omega) (by omega)]
        exact binarySearchAux_eq h hsize fuel start _ (by omega) hstart (by omega)
      · have hgt := StdMap.lt_of_not_lt_of_ne hlt heq
        rw [addInt_of_lt (by omega) (by omega)]
        exact binarySearchAux_eq h hsize fuel (pivot + 1) stop hstop (hiff.mpr hgt) (by omega)

/-- **`BinarySearch`** finds the number of smaller keys. -/
theorem binarySearch_eq {m : QLBTreeMeta} (h : m.keys.Pairwise (· < ·))
    (hsize : m.numEntries < 2 ^ 30) (key : Bytes) :
    m.binarySearch key = .ok (rank m.keys key) := by
  rw [binarySearch, toInt_of_lt (by omega)]
  exact binarySearchAux_eq h hsize _ 0 _ le_rfl (Nat.zero_le _) (by omega)

/-! The entries of a node lie in its chunk, whose size has 32 bits, so that no index leaves `int`. -/

@[simp]
theorem length_entriesAt (c : Bytes) : ∀ n off : ℕ, (entriesAt c n off).1.length = n
  | 0, _ => rfl
  | n + 1, off => by
    rw [entriesAt, List.length_cons, length_entriesAt c n]

/-- Memory behind the last byte reads as zero. -/
theorem lt_of_dataNat_ne_zero {c : Bytes} {off n : ℕ} (h : dataNat c off n ≠ 0) :
    kMetaLength + off < c.length := by
  by_contra hle
  apply h
  have hzeros : ∀ k : ℕ, leNat (List.replicate k 0) = 0 := by
    intro k
    induction k with
    | zero => rfl
    | succ k ih =>
      rw [List.replicate_succ, leNat, ih]
      rfl
  rw [dataNat, dataBytes, readBytes, List.drop_eq_nil_of_le (Nat.not_lt.mp hle), List.take_nil,
    List.nil_append, hzeros]

/-- An entry whose key is not empty takes 12 bytes besides the key, the first of them in memory. -/
theorem entriesAt_bound {c : Bytes} : ∀ {n off : ℕ},
    (∀ e ∈ (entriesAt c n off).1, e.1 ≠ []) → n = 0 ∨ 12 * n + off < c.length + 12
  | 0, _, _ => Or.inl rfl
  | n + 1, off, h => by
    rw [entriesAt] at h
    obtain ⟨hhead, htail⟩ := List.forall_mem_cons.mp h
    have hkey : dataNat c off 4 ≠ 0 := by
      intro hzero
      apply hhead
      rw [hzero]
      exact List.length_eq_zero_iff.mp (length_dataBytes ..)
    have hoff := lt_of_dataNat_ne_zero hkey
    rw [kMetaLength] at hoff
    rcases entriesAt_bound htail with rfl | hrest
    · exact Or.inr (by omega)
    · exact Or.inr (by omega)

theorem numEntries_lt {c : Bytes} (hlen : c.length < 2 ^ 32)
    (h : (ofChunk c).keys.Pairwise (· < ·)) : (ofChunk c).numEntries < 2 ^ 30 := by
  have hkeys : (ofChunk c).keys = (entriesAt c (dataNat c 12 4) 16).1.map Prod.fst := rfl
  have hcount : (ofChunk c).numEntries = dataNat c 12 4 := by
    rw [numEntries, hkeys, List.length_map, length_entriesAt]
  rw [hcount]
  rw [hkeys] at h
  generalize dataNat c 12 4 = n at h
  cases n with
  | zero => decide
  | succ n =>
    rw [entriesAt, List.map_cons, List.pairwise_cons] at h
    -- only the first key can be empty
    have hne : ∀ e ∈ (entriesAt c n (16 + 4 + dataNat c 16 4 + 8)).1, e.1 ≠ [] := by
      intro e he hnil
      have hlt := h.1 e.1 (List.mem_map_of_mem he)
      rw [hnil] at hlt
      exact List.not_lt_nil _ hlt
    rcases entriesAt_bound hne with rfl | hbound
    · decide
    · omega

/-- **`BinarySearch` of a node with increasing keys**: the call returns, so that no index leaves the
keys and no number leaves `int`, and its value is the number of smaller keys. -/
theorem binarySearch_eq_countP (c : Bytes) (h : (ofChunk (bytes c)).keys.Pairwise (· < ·))
    (key : Bytes) :
    (ofChunk (bytes c)).binarySearch key =
      .ok ((ofChunk (bytes c)).keys.countP fun k => decide (k < key)) := by
  rw [binarySearch_eq h (numEntries_lt (length_bytes_lt c) h), rank_eq_countP h]

/-- The keys `b`, `d` and `f`, of which two are smaller than `e`. -/
theorem binarySearch_between : ∃ c, encode 1 [str "b", str "d", str "f"] [1, 1, 1, 0] = .ok c ∧
    (ofChunk (bytes c)).keys = [str "b", str "d", str "f"] ∧
    (ofChunk (bytes c)).binarySearch (str "e") = .ok 2 := by
  refine ⟨_, rfl, by decide +kernel, ?_⟩
  rw [binarySearch_eq_countP _ (by decide +kernel)]
  decide +kernel

end QLBTreeMeta

end LedgerDatabase.Qldb
