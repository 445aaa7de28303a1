import LedgerDatabase.Common.Equiv.DB
import LedgerDatabase.Ledgerdb.Equiv.MerkleTree
import LedgerDatabase.Qldb.QLDB

/-!
# The stored Merkle trees of `qldb`

`nodes H l xs` are the byte strings that are hashed to level `l + 1` of the tree over `xs`, and a
store has the tree (`HasTree`) when it keeps each of them under its name.

* `calculateBlockHash_eq`: `calculateBlockHash` returns the root and writes the tree.
-/

namespace LedgerDatabase.Qldb

open Chunk PairTree
open Ledgerdb.MerkleTree
  (hashPair hashOne hashLevel hashLevel_succ lt_length_hashLevel hashLevel_height merkleRoot height)

variable (H : Bytes → Hash)

/-! ### Nodes -/

/-- The bytes of a node with the given children. -/
def nodeBytes (g : List Hash) : Bytes := g.flatMap Hash.bytes

theorem nodeBytes_one (a : Hash) : nodeBytes [a] = a.bytes := by
  rw [nodeBytes, List.flatMap_singleton]

theorem nodeBytes_two (a b : Hash) : nodeBytes [a, b] = a.bytes ++ b.bytes := by
  rw [nodeBytes, List.flatMap_cons, List.flatMap_singleton]

theorem length_nodeBytes (g : List Hash) : (nodeBytes g).length = kByteLength * g.length := by
  induction g with
  | nil => rfl
  | cons a g ih =>
    rw [nodeBytes, List.flatMap_cons, List.length_append, a.length_bytes, ← nodeBytes, ih,
      List.length_cons]
    ring

theorem nodeBytes_injective : Function.Injective nodeBytes := by
  intro g
  induction g with
  | nil =>
    intro g' h
    have hlen := congrArg List.length h
    rw [length_nodeBytes, length_nodeBytes, kByteLength, List.length_nil] at hlen
    exact (List.length_eq_zero_iff.mp (by omega)).symm
  | cons a g ih =>
    intro g' h
    cases g' with
    | nil =>
      have hlen := congrArg List.length h
      rw [length_nodeBytes, length_nodeBytes, kByteLength, List.length_nil, List.length_cons] at hlen
      omega
    | cons a' g' =>
      rw [nodeBytes, nodeBytes, List.flatMap_cons, List.flatMap_cons] at h
      obtain ⟨hhead, htail⟩ := List.append_inj h (by rw [a.length_bytes, a'.length_bytes])
      obtain rfl : a = a' := by
        cases a
        cases a'
        congr
      rw [ih htail]

theorem hashPair_eq (a b : Hash) : hashPair H a b = (H ∘ nodeBytes) [a, b] := by
  rw [hashPair, Function.comp, nodeBytes_two]

theorem hashOne_eq (a : Hash) : hashOne H a = (H ∘ nodeBytes) [a] := by
  rw [hashOne, Function.comp, nodeBytes_one]

/-- The nodes above level `l`. -/
def nodes (l : ℕ) (xs : List Hash) : List Bytes := (groups (hashLevel H l xs)).map nodeBytes

theorem hashLevel_succ_eq (l : ℕ) (xs : List Hash) :
    hashLevel H (l + 1) xs = (nodes H l xs).map H := by
  rw [hashLevel_succ, pairUp_eq_map_groups (hashPair_eq H) (hashOne_eq H), nodes, List.map_map]

/-- All nodes of a tree. -/
def treeNodes (xs : List Hash) : List Bytes := (List.range (height xs)).flatMap (nodes H · xs)

theorem length_of_mem_nodes {l : ℕ} {xs : List Hash} {s : Bytes} (h : s ∈ nodes H l xs) :
    s.length = 20 ∨ s.length = 40 := by
  obtain ⟨g, hg, rfl⟩ := List.mem_map.mp h
  rw [length_nodeBytes, kByteLength]
  rcases mem_groups_length hg with h | h <;> rw [h]
  · exact Or.inl rfl
  · exact Or.inr rfl

theorem mem_treeNodes {l : ℕ} {xs : List Hash} {s : Bytes} (hl : l < height xs)
    (h : s ∈ nodes H l xs) : s ∈ treeNodes H xs :=
  List.mem_flatMap.mpr ⟨l, List.mem_range.mpr hl, h⟩

/-- **A level determines the leaves** when the hash function has no collision among the nodes. -/
theorem eq_of_hashLevel_eq {S : Set Bytes} (hinj : Set.InjOn H S) {L : ℕ} {xs ys : List Hash}
    (hxs : ∀ l < L, ∀ s ∈ nodes H l xs, s ∈ S) (hys : ∀ l < L, ∀ s ∈ nodes H l ys, s ∈ S)
    (h : hashLevel H L xs = hashLevel H L ys) : xs = ys := by
  apply level_injOn (S := {g | nodeBytes g ∈ S}) (hashPair_eq H) (hashOne_eq H) _ _ _ h
  · intro g hg g' hg' heq
    exact nodeBytes_injective (hinj hg hg' heq)
  · exact fun l hl g hg => hxs l hl _ (List.mem_map_of_mem hg)
  · exact fun l hl g hg => hys l hl _ (List.mem_map_of_mem hg)

/-! ### Names of nodes -/

/-- The store has the tree over `xs`. -/
def HasTree (nodeKey : (level i : ℕ) → Bytes) (xs : List Hash) (db : DB) : Prop :=
  ∀ l < height xs, ∀ i s, (nodes H l xs)[i]? = some s → db.getString (nodeKey (l + 1) i) = some s

/-- The writes of one level. -/
def levelPuts (nodeKey : (level i : ℕ) → Bytes) (l : ℕ) (xs : List Hash) : List (Bytes × Bytes) :=
  (nodes H l xs).mapIdx fun i s => (nodeKey (l + 1) i, s)

/-- The writes of a tree, level by level. -/
def treePuts (nodeKey : (level i : ℕ) → Bytes) (l n : ℕ) (xs : List Hash) : List (Bytes × Bytes) :=
  (List.range' l n).flatMap fun l => levelPuts H nodeKey l xs

variable {H}

theorem mem_levelPuts {nodeKey : (level i : ℕ) → Bytes} {l : ℕ} {xs : List Hash}
    {w : Bytes × Bytes} : w ∈ levelPuts H nodeKey l xs ↔
      ∃ i s, (nodes H l xs)[i]? = some s ∧ w = (nodeKey (l + 1) i, s) := by
  rw [levelPuts, List.mem_mapIdx]
  constructor
  · rintro ⟨i, hi, rfl⟩
    exact ⟨i, _, List.getElem?_eq_getElem hi, rfl⟩
  · rintro ⟨i, s, hs, rfl⟩
    obtain ⟨hi, rfl⟩ := List.getElem?_eq_some_iff.mp hs
    exact ⟨i, hi, rfl⟩

theorem mem_treePuts {nodeKey : (level i : ℕ) → Bytes} {l n : ℕ} {xs : List Hash}
    {w : Bytes × Bytes} : w ∈ treePuts H nodeKey l n xs ↔
      ∃ l', l ≤ l' ∧ l' < l + n ∧ ∃ i s, (nodes H l' xs)[i]? = some s ∧
        w = (nodeKey (l' + 1) i, s) := by
  rw [treePuts, List.mem_flatMap]
  simp only [List.mem_range'_1, mem_levelPuts, and_assoc]

/-- Nodes have names of their own. -/
theorem nodup_treePuts {nodeKey : (level i : ℕ) → Bytes}
    (hkey : ∀ l i l' i', nodeKey l i = nodeKey l' i' → l = l' ∧ i = i') (l n : ℕ)
    (xs : List Hash) : ((treePuts H nodeKey l n xs).map Prod.fst).Nodup := by
  rw [treePuts, List.map_flatMap, List.nodup_flatMap]
  constructor
  · intro l' _
    rw [levelPuts, List.nodup_iff_getElem?_ne_getElem?]
    intro i i' hlt hi' heq
    rw [List.length_map, List.length_mapIdx] at hi'
    simp only [List.getElem?_map, List.getElem?_mapIdx, List.getElem?_eq_getElem hi',
      List.getElem?_eq_getElem (hlt.trans hi'), Option.map_some, Option.some.injEq] at heq
    exact absurd (hkey _ _ _ _ heq).2 (Nat.ne_of_lt hlt)
  · apply List.Pairwise.imp _ List.nodup_range'
    intro l₁ l₂ hne
    rw [Function.onFun, List.disjoint_left]
    intro key h₁ h₂
    obtain ⟨w₁, hw₁, rfl⟩ := List.mem_map.mp h₁
    obtain ⟨w₂, hw₂, heq⟩ := List.mem_map.mp h₂
    obtain ⟨i₁, s₁, -, rfl⟩ := mem_levelPuts.mp hw₁
    obtain ⟨i₂, s₂, -, rfl⟩ := mem_levelPuts.mp hw₂
    have := (hkey _ _ _ _ heq).1
    omega

/-! ### `calculateBlockHash` -/

variable (H)

/-- One level of a block's tree. -/
theorem blockLevel_eq (name : Bytes) (seqno level : ℕ) : ∀ (xs : List Hash) (i : ℕ) (db : DB),
    QLDB.blockLevel H name seqno level i xs db
      = (pairUp (hashPair H) (hashOne H) xs, db.putStrings
        (((groups xs).map nodeBytes).mapIdx fun j s =>
          (QLDB.blockNodeKey name seqno level (i + j), s)))
  | [], _, _ => rfl
  | [a], i, db => by
    simp only [QLDB.blockLevel, pairUp, groups, List.map_singleton, List.mapIdx_singleton,
      nodeBytes_one, Nat.add_zero]
    rfl
  | a :: b :: xs, i, db => by
    have hshift : (fun j (s : Bytes) => (QLDB.blockNodeKey name seqno level (i + 1 + j), s))
        = fun j s => (QLDB.blockNodeKey name seqno level (i + (j + 1)), s) := by
      funext j s
      rw [Nat.add_assoc, Nat.add_comm 1 j]
    simp only [QLDB.blockLevel, pairUp, groups, List.map_cons, List.mapIdx_cons, nodeBytes_two,
      blockLevel_eq name seqno level xs, Nat.add_zero, hshift]
    rfl

theorem blockLevel_hashLevel (name : Bytes) (seqno l : ℕ) (xs : List Hash) (db : DB) :
    QLDB.blockLevel H name seqno (l + 1) 0 (hashLevel H l xs) db
      = (hashLevel H (l + 1) xs, db.putStrings (levelPuts H (QLDB.blockNodeKey name seqno) l xs)) := by
  rw [blockLevel_eq, hashLevel_succ, levelPuts, nodes]
  simp only [Nat.zero_add]

/-- From level `l` on, the loop writes the rest of the tree and ends at its root. -/
theorem blockLevels_eq (name : Bytes) (seqno : ℕ) {xs : List Hash} (hne : xs ≠ []) :
    ∀ (fuel l : ℕ) (db : DB), l ≤ height xs → (hashLevel H l xs).length ≤ fuel →
      QLDB.blockLevels H name seqno fuel l (hashLevel H l xs) db
        = .ok (merkleRoot H xs, db.putStrings
          (treePuts H (QLDB.blockNodeKey name seqno) l (height xs - l) xs)) := by
  intro fuel
  induction fuel with
  | zero =>
    intro l db _ hfuel
    have hpos := (lt_length_hashLevel H l 0 xs).mpr (by
      rw [Nat.zero_mul]
      exact List.length_pos_iff.mpr hne)
    omega
  | succ fuel ih =>
    intro l db hl hfuel
    rcases Nat.eq_or_lt_of_le hl with rfl | hlt
    · rw [QLDB.blockLevels, hashLevel_height H hne, Nat.sub_self]
      rfl
    · -- below the height there are at least two nodes
      have htwo : 1 < (hashLevel H l xs).length := by
        rw [lt_length_hashLevel, Nat.one_mul]
        exact two_pow_lt_of_lt_clog hlt
      have hlen : (hashLevel H (l + 1) xs).length ≤ fuel := by
        rw [hashLevel_succ, length_pairUp]
        omega
      have hputs : treePuts H (QLDB.blockNodeKey name seqno) l (height xs - l) xs
          = levelPuts H (QLDB.blockNodeKey name seqno) l xs ++
            treePuts H (QLDB.blockNodeKey name seqno) (l + 1) (height xs - (l + 1)) xs := by
        rw [treePuts, show height xs - l = height xs - (l + 1) + 1 by omega, List.range'_succ,
          List.flatMap_cons, treePuts]
      rw [QLDB.blockLevels, if_pos (by omega)]
      simp only [blockLevel_hashLevel]
      rw [ih (l + 1) _ hlt hlen, hputs, DB.putStrings_append]

/-- **`calculateBlockHash`** returns the root and writes the tree. -/
theorem calculateBlockHash_eq (name : Bytes) (seqno : ℕ) {xs : List Hash} (hne : xs ≠ []) (db : DB) :
    QLDB.calculateBlockHash H xs name seqno db
      = .ok (merkleRoot H xs, db.putStrings
        (treePuts H (QLDB.blockNodeKey name seqno) 0 (height xs) xs)) :=
  blockLevels_eq H name seqno hne xs.length 0 db (Nat.zero_le _) le_rfl

end LedgerDatabase.Qldb
