import LedgerDatabase.Ledgerdb.Equiv.Mpt.Get
import LedgerDatabase.Library.PutLog

/-!
# `Trie::Insert`

A trie under construction has some nodes in the store and the others in the delta (`Covered`).
`insert_makes`: from the chunk of a covered tree `t`, `Insert` makes the chunk of
`t.insert k v`, which is covered by the delta it returns, or fails because a node of that tree does
not fit its 32-bit size (`Makes`).

Chunks are found by their hashes, so the results are about hash functions without collisions on a
set `S` that contains all chunks involved (`Chunks`).
-/

namespace LedgerDatabase.Ledgerdb.Mpt

open Chunk

/-- All chunks of a tree are in `S`. -/
def Chunks (H : Bytes → Hash) (S : Set Bytes) (t : Tree) : Prop :=
  t.All fun t => isValue t = false → enc H t ∈ S

/-- A delta holds chunks of `S` under their hashes. -/
def DeltaOk (H : Bytes → Hash) (S : Set Bytes) (delta : Delta) : Prop :=
  ∀ e ∈ delta, e.1 = H e.2 ∧ e.2 ∈ S

/-- Every node is in the delta, or known with all nodes below it. -/
def Covered (H : Bytes → Hash) (know : Query → Option (Option Bytes)) (delta : Delta) : Tree → Prop
  | .nil => Known H know .nil
  | .value _ => True
  | .short key child => Known H know (.short key child) ∨
      delta.lookup (H (enc H (.short key child))) = some (enc H (.short key child)) ∧
        Covered H know delta child
  | .full kids => Known H know (.full kids) ∨
      delta.lookup (H (enc H (.full kids))) = some (enc H (.full kids)) ∧
        ∀ i, Covered H know delta (kids i)

/-- The entries of a delta are kept. -/
def Extends (delta delta' : Delta) : Prop :=
  ∀ h c, delta.lookup h = some c → delta'.lookup h = some c

/-- What an operation on tries comes to: the chunk of `t'` with a delta that covers it, or the
failure of a tree that does not fit. -/
def Makes (H : Bytes → Hash) (S : Set Bytes) (know : Query → Option (Option Bytes))
    (delta : Delta) (t' : Tree) (p : Reads (Bytes × Delta)) : Prop :=
  (¬ Fits t' ∧ p.runIn know = some (.error .oversize)) ∨
    ∃ delta', Fits t' ∧ p.runIn know = some (.ok (enc H t', delta')) ∧ DeltaOk H S delta' ∧
      Extends delta delta' ∧ Covered H know delta' t'

section

variable {H : Bytes → Hash} {S : Set Bytes} {know : Query → Option (Option Bytes)}
  {delta delta' : Delta} {t : Tree}

/-! ### Covered trees -/

theorem Chunks.node (h : Chunks H S t) (hv : isValue t = false) : enc H t ∈ S := by
  cases t <;> first | exact h hv | exact h.1 hv

theorem fits_nil : Fits .nil := show nodeSize .nil < 2 ^ 32 by decide

theorem Extends.refl (delta : Delta) : Extends delta delta := fun _ _ h => h

theorem Extends.trans {delta'' : Delta} (h : Extends delta delta') (h' : Extends delta' delta'') :
    Extends delta delta'' := fun k c hk => h' k c (h k c hk)

theorem Known.covered (h : Known H know t) (delta : Delta) : Covered H know delta t := by
  cases t with
  | nil => exact h
  | value v => trivial
  | short key child => exact Or.inl h
  | full kids => exact Or.inl h

theorem Covered.child {key : List (Fin 17)} (h : Covered H know delta (.short key t)) :
    Covered H know delta t := by
  rcases h with h | h
  · exact Known.covered h.2 delta
  · exact h.2

theorem Covered.kid {kids : Fin 17 → Tree} (h : Covered H know delta (.full kids)) (i : Fin 17) :
    Covered H know delta (kids i) := by
  rcases h with h | h
  · exact Known.covered (h.2 i) delta
  · exact h.2 i

theorem Covered.mono (hext : Extends delta delta') (h : Covered H know delta t) :
    Covered H know delta' t := by
  induction t with
  | nil => exact h
  | value v => trivial
  | short key child ih =>
    rcases h with h | ⟨h, hchild⟩
    · exact Or.inl h
    · exact Or.inr ⟨hext _ _ h, ih hchild⟩
  | full kids ih =>
    rcases h with h | ⟨h, hkids⟩
    · exact Or.inl h
    · exact Or.inr ⟨hext _ _ h, fun i => ih i (hkids i)⟩

/-- Without collisions, a chunk of `S` is found in the delta as it is. -/
theorem DeltaOk.lookup_eq (hinj : Set.InjOn H S) (h : DeltaOk H S delta) {b c : Bytes} (hb : b ∈ S)
    (hc : delta.lookup (H b) = some c) : c = b := by
  obtain ⟨hh, hS⟩ := h _ (PutLog.mem_of_lookup hc)
  exact (hinj hb hS hh).symm

/-- **`GetHashNodeChild`** finds every node of a covered tree. -/
theorem getHashNodeChild_runIn (hinj : Set.InjOn H S) (hdelta : DeltaOk H S delta)
    (hcov : Covered H know delta t) (hchunk : Chunks H S t) (hv : isValue t = false)
    (junk : Bytes) :
    (Trie.getHashNodeChild delta (MPTHashNode.ofHash (H (enc H t)) ++ junk)).runIn know
      = some (.ok (enc H t)) := by
  rw [Trie.getHashNodeChild, type_ofHash, if_neg (by simp), childHash_ofHash, MPTDelta.getChunk]
  cases hlook : delta.lookup (H (enc H t)) with
  | some c =>
    rw [hdelta.lookup_eq hinj (hchunk.node hv) hlook]
    rfl
  | none =>
    have hknown : Known H know t := by
      cases t with
      | nil => exact hcov
      | value v => exact absurd hv (by simp [isValue])
      | short key child => exact hcov.resolve_right fun h => by simp [h.1] at hlook
      | full kids => exact hcov.resolve_right fun h => by simp [h.1] at hlook
    simp only
    rw [Ask.runIn_bind_ok know _ (readHash_runIn hknown hv)]
    cases t <;> rfl

/-! ### New nodes -/

/-- A new chunk is entered under its hash. -/
theorem createChunk_spec (hinj : Set.InjOn H S) (hdelta : DeltaOk H S delta)
    (hsize : nodeSize t < 2 ^ 32) (hmem : enc H t ∈ S) {delta' : Delta}
    (h : MPTDelta.createChunk delta (Chunk.hash H (enc H t)) (enc H t) = delta') :
    DeltaOk H S delta' ∧ Extends delta delta' ∧ delta'.lookup (H (enc H t)) = some (enc H t) := by
  rw [MPTDelta.createChunk, hash_enc hsize] at h
  cases hlook : delta.lookup (H (enc H t)) with
  | some c =>
    rw [hlook, Option.isSome_some, if_pos rfl] at h
    subst h
    rw [hdelta.lookup_eq hinj hmem hlook] at hlook
    exact ⟨hdelta, Extends.refl _, hlook⟩
  | none =>
    rw [hlook, Option.isSome_none, if_neg Bool.false_ne_true] at h
    subst h
    refine ⟨?_, ?_, by simp⟩
    · intro e he
      rcases List.mem_cons.mp he with rfl | he
      · exact ⟨rfl, hmem⟩
      · exact hdelta e he
    · intro h c hc
      rw [List.lookup_cons]
      split
      · rename_i heq
        rw [eq_of_beq heq, hlook] at hc
        cases hc
      · exact hc

/-- A new chunk is entered and read back. -/
theorem createAndGet_spec (hinj : Set.InjOn H S) (hdelta : DeltaOk H S delta)
    (hsize : nodeSize t < 2 ^ 32) (hmem : enc H t ∈ S) :
    ∃ delta', MPTDelta.createAndGet H delta (enc H t) = .ok (enc H t, delta') ∧
      DeltaOk H S delta' ∧ Extends delta delta' ∧ delta'.lookup (H (enc H t)) = some (enc H t) := by
  obtain ⟨hok, hext, hlook⟩ := createChunk_spec hinj hdelta hsize hmem rfl
  refine ⟨_, ?_, hok, hext, hlook⟩
  simp only [MPTDelta.createAndGet, MPTDelta.getChunk]
  rw [hash_enc hsize] at hlook ⊢
  rw [hlook]

/-- The last step of every operation: the chunk of the new root is made and entered. -/
theorem makes_root (hinj : Set.InjOn H S) {x : Except Fault Bytes} {t' : Tree}
    (hx : x = if nodeSize t' < 2 ^ 32 then .ok (enc H t') else .error .oversize)
    (hfits : nodeSize t' < 2 ^ 32 → Fits t') (hmem : enc H t' ∈ S) (hdelta' : DeltaOk H S delta')
    (hext : Extends delta delta')
    (hcov : ∀ d, Extends delta' d → d.lookup (H (enc H t')) = some (enc H t') → Covered H know d t') :
    Makes H S know delta t'
      (Ask.ofExcept x >>= fun c => Ask.ofExcept (MPTDelta.createAndGet H delta' c)) := by
  by_cases hsize : nodeSize t' < 2 ^ 32
  · rw [if_pos hsize] at hx
    obtain ⟨d, hcreate, hok, hext', hlook⟩ := createAndGet_spec hinj hdelta' hsize hmem
    refine Or.inr ⟨d, hfits hsize, ?_, hok, hext.trans hext', hcov d hext' hlook⟩
    rw [Ask.runIn_ofExcept_bind_ok know _ hx, Ask.runIn_ofExcept, hcreate]
  · rw [if_neg hsize] at hx
    exact Or.inl ⟨fun h => hsize h.node, Ask.runIn_ofExcept_bind_error know _ hx⟩

/-- A short node over a covered child. -/
theorem makes_short (hinj : Set.InjOn H S) {key : List (Fin 17)} {child : Tree}
    (hfits : Fits child) (hmem : enc H (.short key child) ∈ S) (hdelta' : DeltaOk H S delta')
    (hext : Extends delta delta') (hcov : Covered H know delta' child) :
    Makes H S know delta (.short key child)
      (Ask.ofExcept (MPTShortNode.encode H (nibbles key) (enc H child)) >>= fun c =>
        Ask.ofExcept (MPTDelta.createAndGet H delta' c)) :=
  makes_root hinj (encode_short hfits.node) (fun h => ⟨h, hfits⟩) hmem hdelta' hext
    fun _ hd hlook => Or.inr ⟨hlook, hcov.mono hd⟩

/-- Adding a key below nothing. -/
theorem makes_hang (hinj : Set.InjOn H S) {key : List (Fin 17)} {child : Tree} (hfits : Fits child)
    (hmem : Chunks H S (RadixTree.hang key child)) (hdelta : DeltaOk H S delta)
    (hcov : Covered H know delta child) (fuel : ℕ) :
    Makes H S know delta (RadixTree.hang key child)
      (Trie.insert H (fuel + 1) MPTNilNode.encode (nibbles key) (enc H child) delta) := by
  rw [Trie.insert, length_nibbles]
  unfold RadixTree.hang at hmem ⊢
  by_cases hkey : key = []
  · rw [if_pos hkey] at hmem ⊢
    rw [if_pos (by rw [hkey]; rfl)]
    exact Or.inr ⟨delta, hfits, rfl, hdelta, Extends.refl _, hcov⟩
  · rw [if_neg hkey] at hmem ⊢
    rw [if_neg (mt List.length_eq_zero_iff.mp hkey)]
    exact makes_short hinj hfits (hmem.1 rfl) hdelta (Extends.refl _) hcov

/-- An operation that goes on after making a child. -/
theorem Makes.bind {t' child : Tree} {p : Reads (Bytes × Delta)}
    {f : Bytes × Delta → Reads (Bytes × Delta)} (h : Makes H S know delta child p)
    (hfits : Fits t' → Fits child)
    (hf : ∀ d, Fits child → DeltaOk H S d → Extends delta d → Covered H know d child →
      Makes H S know delta t' (f (enc H child, d))) :
    Makes H S know delta t' (p >>= f) := by
  rcases h with ⟨hno, herr⟩ | ⟨d, hchild, hok, hdelta, hext, hcov⟩
  · exact Or.inl ⟨fun h => hno (hfits h), Ask.runIn_bind_error know f herr⟩
  · have := hf d hchild hdelta hext hcov
    unfold Makes at this ⊢
    rwa [Ask.runIn_bind_ok know f hok]

/-- A step that asks for something known. -/
theorem Makes.of_runIn {α : Type} {t' : Tree} {p : Reads α} {a : α} {f : α → Reads (Bytes × Delta)}
    (h : p.runIn know = some (.ok a)) (hf : Makes H S know delta t' (f a)) :
    Makes H S know delta t' (p >>= f) := by
  unfold Makes at hf ⊢
  rwa [Ask.runIn_bind_ok know f h]

/-- A computation that returns. -/
theorem Makes.of_ok {α : Type} {t' : Tree} {x : Except Fault α} {a : α}
    {f : α → Reads (Bytes × Delta)} (h : x = .ok a) (hf : Makes H S know delta t' (f a)) :
    Makes H S know delta t' (Ask.ofExcept x >>= f) :=
  .of_runIn (by rw [Ask.runIn_ofExcept, h]) hf

/-! ### `Insert` -/

/-- Insertion into the child of a short node, whether it is stored in it or not. -/
theorem makes_insert_ref (hinj : Set.InjOn H S) (hdelta : DeltaOk H S delta) {child t' : Tree}
    (hcov : Covered H know delta child) (hchunk : Chunks H S child) {key value : Bytes} {fuel : ℕ}
    (hkey : isValue child = false → key ≠ [])
    (h : ∀ n, fuel ≤ n → Makes H S know delta t' (Trie.insert H n (enc H child) key value delta)) :
    Makes H S know delta t' (Trie.insert H (fuel + 1) (ref H child) key value delta) := by
  unfold ref
  cases hv : isValue child with
  | true => exact h _ (by omega)
  | false =>
    have hresolve := getHashNodeChild_runIn hinj hdelta hcov hchunk hv []
    have htype := type_ofHash (H (enc H child)) []
    rw [List.append_nil] at hresolve htype
    rw [if_neg Bool.false_ne_true, Trie.insert, if_neg (mt List.length_eq_zero_iff.mp (hkey hv)),
      htype]
    exact .of_runIn hresolve (h _ le_rfl)

/-- The child of a short node that is taken apart. -/
theorem childChunk_runIn (hinj : Set.InjOn H S) (hdelta : DeltaOk H S delta)
    {key : List (Fin 17)} {child : Tree} (hsize : nodeSize (.short key child) < 2 ^ 32)
    (hcov : Covered H know delta child) (hchunk : Chunks H S child) :
    (Trie.childChunk delta (enc H (.short key child))).runIn know = some (.ok (enc H child)) := by
  simp only [Trie.childChunk, childNode_enc hsize]
  unfold ref
  cases hv : isValue child with
  | true =>
    have hkind : kind child ≠ .kMPTHash := by cases child <;> simp [kind]
    rw [if_pos rfl, type_enc, if_neg hkind]
    rfl
  | false =>
    have hresolve := getHashNodeChild_runIn hinj hdelta hcov hchunk hv []
    have htype := type_ofHash (H (enc H child)) []
    rw [List.append_nil] at hresolve htype
    rw [if_neg Bool.false_ne_true, if_pos htype, hresolve]

/-- The child of a full node. -/
theorem oriChild_runIn (hinj : Set.InjOn H S) (hdelta : DeltaOk H S delta) {kids : Fin 17 → Tree}
    {i : Fin 17} (hcov : Covered H know delta (kids i)) (hchunk : Chunks H S (kids i))
    (hv : i ≠ 16 → isValue (kids i) = false) :
    (Trie.oriChild delta (enc H (.full kids)) i).runIn know = some (.ok (enc H (kids i))) := by
  obtain ⟨c, hc, hlast, hhash⟩ := getChildAtIndex_cases (H := H) kids i
  rw [Trie.oriChild, Ask.runIn_ofExcept_bind_ok know _ hc]
  by_cases hi : i = 16
  · rw [hlast hi, if_neg (by rw [hi]; simp)]
    rfl
  · obtain ⟨junk, rfl⟩ := hhash hi
    rw [if_pos (show (i : ℕ) ≠ 16 from fun h => hi (Fin.ext h))]
    exact getHashNodeChild_runIn hinj hdelta hcov hchunk (hv hi) junk

/-- The branch of a split, built in a vector of nil nodes. -/
theorem setBranch_fork (o : Fin 17) (ko : List (Fin 17)) (child : Tree) (u : Fin 17)
    (ku : List (Fin 17)) (v : Bytes) :
    ∃ branch, Trie.setBranch (List.replicate 17 MPTNilNode.encode) o
        (enc H (RadixTree.hang ko child)) = .ok branch ∧
      Trie.setBranch branch u (enc H (RadixTree.hang ku (.value v)))
        = .ok (kidChunks H (Function.update (Function.update (fun _ => .nil) o
          (RadixTree.hang ko child)) u (RadixTree.hang ku (.value v)))) := by
  refine ⟨_, by rw [Trie.setBranch, if_pos (by simp)], ?_⟩
  rw [Trie.setBranch, if_pos (by simp)]
  congr 1
  refine List.ext_getElem (by simp [kidChunks]) fun n h1 h2 => ?_
  simp only [kidChunks, List.getElem_map, List.getElem_finRange, List.getElem_set,
    List.getElem_replicate, Function.update_apply, Fin.ext_iff, Fin.val_cast]
  by_cases hu : (u : ℕ) = n
  · rw [if_pos hu, if_pos hu.symm]
  · rw [if_neg hu, if_neg (Ne.symm hu)]
    by_cases ho : (o : ℕ) = n
    · rw [if_pos ho, if_pos ho.symm]
    · rw [if_neg ho, if_neg (Ne.symm ho)]
      rfl

section Insert

variable {P : Set (List (Fin 17))} {Q : Bytes → Prop} {v : Bytes} {k : List (Fin 17)} {fuel : ℕ}

/-- The root over a new branch. -/
theorem makes_splitRoot (hinj : Set.InjOn H S) {d : Delta} (hd : DeltaOk H S d)
    (hext : Extends delta d) {kids : Fin 17 → Tree} (hfits : ∀ i, Fits (kids i))
    (hcov : ∀ i, Covered H know d (kids i)) {p : List (Fin 17)}
    (hchunk : Chunks H S (RadixTree.hang p (.full kids))) {key : Bytes}
    (hkey : key.take p.length = nibbles p) :
    Makes H S know delta (RadixTree.hang p (.full kids))
      (Ask.ofExcept (MPTFullNode.encode H (kidChunks H kids)) >>= fun b =>
        Trie.splitRoot H d key b p.length) := by
  have hencode := encode_full (H := H) fun i => (hfits i).node
  unfold RadixTree.hang at hchunk ⊢
  by_cases hp : p = []
  · subst hp
    rw [if_pos rfl] at hchunk ⊢
    exact makes_root hinj hencode (fun h => ⟨h, hfits⟩) (hchunk.node rfl) hd hext
      fun _ hd' hlook => Or.inr ⟨hlook, fun i => (hcov i).mono hd'⟩
  · rw [if_neg hp] at hchunk ⊢
    by_cases hsize : nodeSize (.full kids) < 2 ^ 32
    · rw [if_pos hsize] at hencode
      refine .of_ok hencode ?_
      rw [Trie.splitRoot, if_neg (mt List.length_eq_zero_iff.mp hp), hkey]
      obtain ⟨hok, hext', hlook⟩ := createChunk_spec hinj hd hsize (hchunk.2.1 rfl) rfl
      exact makes_short hinj ⟨hsize, hfits⟩ (hchunk.1 rfl) hok (hext.trans hext')
        (Or.inr ⟨hlook, fun i => (hcov i).mono hext'⟩)
    · rw [if_neg hsize] at hencode
      exact Or.inl ⟨fun h => hsize h.2.1, Ask.runIn_ofExcept_bind_error know _ hencode⟩

theorem drop_succ_append (p rest : List (Fin 17)) (i : Fin 17) :
    (p ++ i :: rest).drop (p.length + 1) = rest := by
  rw [← List.drop_drop, List.drop_left, List.drop_one, List.tail_cons]

/-- The split of a short node. -/
theorem makes_fork (hinj : Set.InjOn H S) (hdelta : DeltaOk H S delta) {p ko ku : List (Fin 17)}
    {o u : Fin 17} {child : Tree} (hv : Fits (.value v)) (hou : o ≠ u)
    (hm : RadixTree.prefixLen (p ++ u :: ku) (p ++ o :: ko) = p.length)
    (hfits : Fits (.short (p ++ o :: ko) child)) (hcov : Covered H know delta child)
    (hchunk : Chunks H S child) (hnil : Known H know .nil)
    (hnew : Chunks H S (RadixTree.hang p (RadixTree.fork o ko child u ku v))) :
    Makes H S know delta (RadixTree.hang p (RadixTree.fork o ko child u ku v))
      (Trie.insert H (fuel + 2) (enc H (.short (p ++ o :: ko) child)) (nibbles (p ++ u :: ku))
        (enc H (.value v)) delta) := by
  set kids : Fin 17 → Tree := Function.update (Function.update (fun _ => .nil) o
    (RadixTree.hang ko child)) u (RadixTree.hang ku (.value v)) with hkids
  have hfork : RadixTree.fork o ko child u ku v = .full kids := rfl
  have hkidO : kids o = RadixTree.hang ko child := by
    rw [hkids, Function.update_of_ne hou, Function.update_self]
  have hkidU : kids u = RadixTree.hang ku (.value v) := by rw [hkids, Function.update_self]
  have hkid : ∀ {q : Tree → Prop}, q .nil → q (kids o) → q (kids u) → ∀ i, q (kids i) := by
    intro q hn ho hu i
    by_cases hiu : i = u
    · rwa [hiu]
    by_cases hio : i = o
    · rwa [hio]
    rwa [hkids, Function.update_of_ne hiu, Function.update_of_ne hio]
  rw [hfork] at hnew ⊢
  have hnew' : Chunks H S (.full kids) := by
    unfold RadixTree.hang at hnew
    split_ifs at hnew
    · exact hnew
    · exact hnew.2
  have hfull : Fits (RadixTree.hang p (.full kids)) → ∀ i, Fits (kids i) := by
    unfold RadixTree.hang
    split_ifs
    · exact fun h => h.2
    · exact fun h => h.2.2
  obtain ⟨branch, hbranch, hbranch'⟩ := setBranch_fork (H := H) o ko child u ku v
  rw [Trie.insert, if_neg (by simp), type_enc]
  simp only [kind, getKey_enc hfits.node, prefixLen_nibbles, hm, length_nibbles]
  rw [if_neg (by simp), charIndex_getD _ List.drop_left, charIndex_getD _ List.drop_left]
  refine .of_ok (substrFrom_nibbles (by simp)) (.of_ok (substrFrom_nibbles (by simp)) ?_)
  rw [drop_succ_append, drop_succ_append]
  refine .of_runIn (childChunk_runIn hinj hdelta hfits.node hcov hchunk) ?_
  refine (makes_hang hinj hfits.2 (hkidO ▸ hnew'.2 o) hdelta hcov fuel).bind
    (fun h => hkidO ▸ hfull h o) fun d hfitsO hd hext hcovO => ?_
  refine .of_ok hbranch ?_
  -- the second child extends the delta of the first
  have hsecond : Makes H S know d _ _ :=
    makes_hang hinj hv (hkidU ▸ hnew'.2 u) hd trivial fuel
  rcases hsecond with ⟨hno, herr⟩ | ⟨d', hfitsU, hok, hd', hext', hcovU⟩
  · exact Or.inl ⟨fun h => hno (hkidU ▸ hfull h u), Ask.runIn_bind_error know _ herr⟩
  · refine .of_runIn hok (.of_ok hbranch' ?_)
    refine makes_splitRoot hinj hd' (hext.trans hext')
      (hkid (q := Fits) fits_nil (hkidO ▸ hfitsO) (hkidU ▸ hfitsU))
      (hkid (q := Covered H know d') hnil (hkidO ▸ hcovO.mono hext') (hkidU ▸ hcovU)) hnew ?_
    rw [← nibbles_take, List.take_left]

/-- The root over a replaced child of a full node. -/
theorem makes_setChild (hinj : Set.InjOn H S) {d : Delta} (hd : DeltaOk H S d)
    (hext : Extends delta d) {kids : Fin 17 → Tree} {i : Fin 17} {child' : Tree}
    (hfits : Fits (.full kids)) (hchild : Fits child') (hcov : Covered H know delta (.full kids))
    (hcov' : Covered H know d child')
    (hchunk : enc H (.full (Function.update kids i child')) ∈ S) :
    Makes H S know delta (.full (Function.update kids i child'))
      (Ask.ofExcept (MPTFullNode.setChildAtIndex H (enc H (.full kids)) i (enc H child')
        (enc H (kids i))) >>= fun c => Ask.ofExcept (MPTDelta.createAndGet H d c)) := by
  have hkid : ∀ {q : Tree → Prop}, q child' → (∀ j, q (kids j)) →
      ∀ j, q (Function.update kids i child' j) := by
    intro q hc hk j
    by_cases hj : j = i
    · rwa [hj, Function.update_self]
    · rw [Function.update_of_ne hj]
      exact hk j
  exact makes_root hinj (setChildAtIndex_enc i hfits.node hchild.node)
    (fun h => ⟨h, hkid (q := Fits) hchild hfits.2⟩) hchunk hd hext
    fun d' hd' hlook => Or.inr ⟨hlook, hkid (q := Covered H know d') (hcov'.mono hd')
      fun j => (hcov.kid j).mono (hext.trans hd')⟩

/-- **`Insert`** makes the tree with the new value. -/
theorem insert_makes (hinj : Set.InjOn H S) (hP : IsAntichain (· <+: ·) P) (hT : Tails P)
    (hnil : Known H know .nil) (hv : Fits (.value v)) (hwf : t.WF Q P) (hk : k ∈ P)
    (hfits : Fits t) (hchunk : Chunks H S t) (hnew : Chunks H S (t.insert k v))
    (hdelta : DeltaOk H S delta) (hcov : Covered H know delta t)
    (hfuel : 2 * k.length + 1 ≤ fuel) :
    Makes H S know delta (t.insert k v)
      (Trie.insert H fuel (enc H t) (nibbles k) (enc H (.value v)) delta) := by
  induction t generalizing P k fuel with
  | nil =>
    obtain ⟨fuel, rfl⟩ := Nat.exists_eq_add_of_le' (by omega : 1 ≤ fuel)
    exact makes_hang hinj hv hnew hdelta trivial fuel
  | value w =>
    obtain rfl := RadixTree.eq_nil_of_nil_mem hP hwf.1 hk
    obtain ⟨fuel, rfl⟩ := Nat.exists_eq_add_of_le' (by omega : 1 ≤ fuel)
    exact Or.inr ⟨delta, hv, rfl, hdelta, Extends.refl _, trivial⟩
  | short key child ih =>
    obtain ⟨hne, hnilP, hex, hclosed, hchild⟩ := hwf
    have hkne : k ≠ [] := fun h => hnilP (h ▸ hk)
    have hkpos := List.length_pos_iff.mpr hkne
    by_cases hpre : key <+: k
    · -- the whole key matches
      have hrest := RadixTree.drop_mem_after hk hpre
      have hle := hpre.length_le
      have hkeypos := List.length_pos_iff.mpr hne
      rw [RadixTree.insert_short_below hpre] at hnew ⊢
      obtain ⟨fuel, rfl⟩ := Nat.exists_eq_add_of_le' (by omega : 2 ≤ fuel)
      rw [Trie.insert, if_neg (by rw [length_nibbles]; omega), type_enc]
      simp only [kind, getKey_enc hfits.node, childNode_enc hfits.node, prefixLen_nibbles,
        (RadixTree.prefixLen_eq_length_iff k key).mpr hpre, length_nibbles, if_true]
      refine .of_ok (substrFrom_nibbles hle) ?_
      refine (makes_insert_ref hinj hdelta hcov.child hchunk.2 (fun hval => ?_) fun n hn =>
        ih (RadixTree.antichain_after hP key) (hT.after key) hchild hrest hfits.2 hchunk.2 hnew.2
          hcov.child (by rw [List.length_drop]; omega)).bind (fun h => h.2) ?_
      · -- a branch below the key has no value of its own
        intro hnibbles
        have hrest0 : k.drop key.length = [] :=
          List.length_eq_zero_iff.mp (by rw [← length_nibbles, hnibbles, List.length_nil])
        rw [hrest0] at hrest
        cases child with
        | nil => exact hclosed
        | value w => simp [isValue] at hval
        | short key' child' => exact hclosed
        | full kids => exact hchild.1 hrest
      · intro d hfits' hd hext hcov'
        exact makes_short hinj hfits' (hnew.1 rfl) hd hext hcov'
    · obtain ⟨p, o, ko, u, ku, rfl, rfl, hou, hm⟩ :=
        RadixTree.exists_fork hpre (RadixTree.not_prefix_of_exists hP hex hk hpre)
      rw [RadixTree.insert_short_of_fork hm] at hnew ⊢
      obtain ⟨fuel, rfl⟩ := Nat.exists_eq_add_of_le' (by omega : 2 ≤ fuel)
      exact makes_fork hinj hdelta hv hou hm hfits hcov.child hchunk.2 hnil hnew
  | full kids ih =>
    have hwf' := hwf
    obtain ⟨hnilP, hex, hkids⟩ := hwf
    rcases k with _ | ⟨i, k⟩
    · exact absurd hk hnilP
    obtain ⟨fuel, rfl⟩ := Nat.exists_eq_add_of_le' (by omega : 1 ≤ fuel)
    rw [List.length_cons] at hfuel
    have hchild' : Chunks H S ((kids i).insert k v) := by
      have := hnew.2 i
      rwa [Function.update_self] at this
    rw [Trie.insert, if_neg (by simp), type_enc]
    simp only [kind]
    rw [charIndex_getD (k := i :: k) 0 rfl]
    refine .of_runIn (oriChild_runIn hinj hdelta (hcov.kid i) (hchunk.2 i)
      (isValue_kid hT hwf')) (.of_ok (substrFrom_nibbles (by simp)) ?_)
    refine (ih i (RadixTree.antichain_after hP _) (hT.after _) (hkids i) hk (hfits.2 i)
      (hchunk.2 i) hchild' (hcov.kid i) (by omega)).bind (fun h => ?_) ?_
    · have := h.2 i
      rwa [Function.update_self] at this
    · intro d hfits' hd hext hcov'
      exact makes_setChild hinj hd hext hfits hfits' hcov hcov' (hnew.1 rfl)

end Insert

end

end LedgerDatabase.Ledgerdb.Mpt
