import LedgerDatabase.Common.Equiv.DB
import LedgerDatabase.Ledgerdb.Equiv.Skiplist.Record
import LedgerDatabase.Sqlledger.Equiv.MerkleTree

/-!
# Proofs from the one-shot tree

`Build` stores every level of the tree and nothing else (`Levels`).  So a node has no right neighbour
exactly if there is no record for it, and `GetProof` climbs from every leaf to the root
(`getProof_build`).
-/

namespace LedgerDatabase.Sqlledger.MerkleTree

open PairTree
open Ledgerdb.MerkleTree
  (hashPair hashOne hashLevel hashLevel_succ hashLevel_height lt_length_hashLevel merkleRoot height
    climb_last climb_left climb_right hashABC)

variable {H : Bytes → Hash} {db : DB} {mtid : Bytes} {xs hs : List Hash} {l : ℕ}

/-! ### One level -/

theorem nodeKey_inj {l l' i i' : ℕ} (h : nodeKey mtid l i = nodeKey mtid l' i') :
    l = l' ∧ i = i' := by
  obtain ⟨hlevel, hi⟩ := Ledgerdb.append_bar_inj (Ledgerdb.noBar_toDecimal i)
    (Ledgerdb.noBar_toDecimal i') h
  obtain ⟨-, hl⟩ := Ledgerdb.append_bar_inj (Ledgerdb.noBar_toDecimal l)
    (Ledgerdb.noBar_toDecimal l') hlevel
  exact ⟨toDecimal_injective hl, toDecimal_injective hi⟩

/-- The writes of a level, from index `i` on. -/
def levelPuts (mtid : Bytes) (l i : ℕ) (hs : List Hash) : List (Bytes × Bytes) :=
  hs.mapIdx fun j h => (nodeKey mtid l (i + j), h.toBase32)

theorem levelPuts_cons (mtid : Bytes) (l i : ℕ) (h : Hash) (hs : List Hash) :
    levelPuts mtid l i (h :: hs) =
      (nodeKey mtid l i, h.toBase32) :: levelPuts mtid l (i + 1) hs := by
  rw [levelPuts, List.mapIdx_cons, levelPuts]
  congr 2
  funext j
  rw [Nat.add_assoc, Nat.add_comm 1 j]

theorem putLeaves_snd (mtid : Bytes) : ∀ (leaves : List Bytes) (i : ℕ) (db : DB),
    (putLeaves H mtid i leaves db).2 = db.putStrings (levelPuts mtid 0 i (leaves.map H))
  | [], _, _ => rfl
  | leaf :: leaves, i, db => by
    simp only [putLeaves, List.map_cons, levelPuts_cons, putLeaves_snd mtid leaves]
    rfl

theorem parents_snd (mtid : Bytes) (l : ℕ) : ∀ (hs : List Hash) (i : ℕ) (db : DB),
    (parents H mtid l (2 * i) hs db).2 =
      db.putStrings (levelPuts mtid (l + 1) i (pairUp (hashPair H) (hashOne H) hs))
  | [], _, _ => rfl
  | [h], i, db => by
    rw [parents, pairUp, levelPuts_cons, Nat.mul_div_cancel_left i Nat.two_pos]
    rfl
  | h :: h' :: rest, i, db => by
    simp only [parents, pairUp, levelPuts_cons, Nat.mul_div_cancel_left i Nat.two_pos]
    rw [show 2 * i + 2 = 2 * (i + 1) by ring, parents_snd mtid l rest (i + 1)]
    rfl

theorem mem_levelPuts {i : ℕ} {w : Bytes × Bytes} :
    w ∈ levelPuts mtid l i hs ↔ ∃ j h, hs[j]? = some h ∧ w = (nodeKey mtid l (i + j), h.toBase32) := by
  rw [levelPuts, List.mem_mapIdx]
  constructor
  · rintro ⟨j, hj, rfl⟩
    exact ⟨j, _, List.getElem?_eq_getElem hj, rfl⟩
  · rintro ⟨j, h, hj, rfl⟩
    obtain ⟨hlt, rfl⟩ := List.getElem?_eq_some_iff.mp hj
    exact ⟨j, hlt, rfl⟩

theorem nodup_levelPuts (mtid : Bytes) (l : ℕ) : ∀ (hs : List Hash) (i : ℕ),
    ((levelPuts mtid l i hs).map Prod.fst).Nodup
  | [], _ => List.nodup_nil
  | h :: hs, i => by
    rw [levelPuts_cons, List.map_cons, List.nodup_cons]
    refine ⟨fun hmem => ?_, nodup_levelPuts mtid l hs (i + 1)⟩
    obtain ⟨w, hw, hkey⟩ := List.mem_map.mp hmem
    obtain ⟨j, h', -, rfl⟩ := mem_levelPuts.mp hw
    have := (nodeKey_inj hkey).2
    omega

/-- A level that was written. -/
theorem getString_levelPuts_self (db : DB) (hs : List Hash) (l j : ℕ)
    (hnone : db.getString (nodeKey mtid l j) = none) :
    (db.putStrings (levelPuts mtid l 0 hs)).getString (nodeKey mtid l j) =
      hs[j]?.map Hash.toBase32 := by
  cases hj : hs[j]? with
  | some h =>
    apply DB.getString_putStrings_of_mem _ _ (nodup_levelPuts mtid l hs 0)
    exact mem_levelPuts.mpr ⟨j, h, hj, by rw [Nat.zero_add]⟩
  | none =>
    rw [DB.getString_putStrings_of_not_mem, hnone]
    · rfl
    · intro hmem
      obtain ⟨w, hw, hkey⟩ := List.mem_map.mp hmem
      obtain ⟨k, h, hk, rfl⟩ := mem_levelPuts.mp hw
      have hjk := (nodeKey_inj hkey).2
      rw [Nat.zero_add] at hjk
      rw [hjk, hj] at hk
      cases hk

/-- Other levels are as before. -/
theorem getString_levelPuts_of_ne (db : DB) (hs : List Hash) {l l' : ℕ} (hne : l' ≠ l) (j : ℕ) :
    (db.putStrings (levelPuts mtid l 0 hs)).getString (nodeKey mtid l' j) =
      db.getString (nodeKey mtid l' j) := by
  apply DB.getString_putStrings_of_not_mem
  intro hmem
  obtain ⟨w, hw, hkey⟩ := List.mem_map.mp hmem
  obtain ⟨k, h, -, rfl⟩ := mem_levelPuts.mp hw
  exact hne (nodeKey_inj hkey).1.symm

/-! ### All levels -/

/-- The store has the levels up to `l` of the tree over `xs`, and no nodes of other levels. -/
def Levels (H : Bytes → Hash) (mtid : Bytes) (xs : List Hash) (l : ℕ) (db : DB) : Prop :=
  ∀ l' j, db.getString (nodeKey mtid l' j) =
    if l' ≤ l then (hashLevel H l' xs)[j]?.map Hash.toBase32 else none

/-- One more level. -/
theorem Levels.succ (h : Levels H mtid xs l db) :
    Levels H mtid xs (l + 1) (parents H mtid l 0 (hashLevel H l xs) db).2 := by
  intro l' j
  rw [show 0 = 2 * 0 from rfl, parents_snd, ← hashLevel_succ]
  by_cases hl : l' = l + 1
  · subst hl
    rw [if_pos le_rfl, getString_levelPuts_self]
    rw [h, if_neg (Nat.not_succ_le_self l)]
  · rw [getString_levelPuts_of_ne _ _ hl, h]
    refine if_congr ?_ rfl rfl
    omega

/-- **`Build` stores the tree.** -/
theorem build_levels (hempty : ∀ key, mtid ++ str "|" <+: key → db.getString key = none)
    {leaves : List Bytes} (hne : leaves ≠ []) :
    ∃ db', build H db mtid leaves
        = .ok (some (toDecimal (height (leaves.map H)), (merkleRoot H (leaves.map H)).toBase32), db') ∧
      Levels H mtid (leaves.map H) (height (leaves.map H)) db' := by
  have hfresh (l j : ℕ) : db.getString (nodeKey mtid l j) = none := by
    apply hempty
    rw [nodeKey, List.append_assoc, List.append_assoc]
    exact List.prefix_append _ _
  have hleaves : Levels H mtid (leaves.map H) 0 (putLeaves H mtid 0 leaves db).2 := by
    intro l j
    rw [putLeaves_snd]
    by_cases hl : l = 0
    · subst hl
      rw [if_pos le_rfl, getString_levelPuts_self _ _ _ _ (hfresh 0 j)]
      rfl
    · rw [getString_levelPuts_of_ne _ _ hl, hfresh, if_neg (by omega)]
  exact build_keeps H db mtid hne (fun l db h => h.succ) hleaves

/-! ### What `Build` writes -/

variable {db' : DB} {leaves : List Bytes}

/-- The store answers alike, except for nodes of the tree. -/
def AgreesOff (mtid : Bytes) (db db' : DB) : Prop :=
  ∀ y, (∀ l i, y ≠ nodeKey mtid l i) → db'.getString y = db.getString y

theorem agreesOff_levelPuts (db : DB) (l i : ℕ) (hs : List Hash) :
    AgreesOff mtid db (db.putStrings (levelPuts mtid l i hs)) := by
  intro y hy
  apply DB.getString_putStrings_of_not_mem
  intro hmem
  obtain ⟨w, hw, rfl⟩ := List.mem_map.mp hmem
  obtain ⟨j, h, -, rfl⟩ := mem_levelPuts.mp hw
  exact hy l (i + j) rfl

theorem agreesOff_levels : ∀ {fuel l : ℕ} {hs : List Hash} {db : DB} {r : ℕ × List Hash × DB},
    levels H mtid fuel l hs db = .ok r → AgreesOff mtid db r.2.2
  | 0, _, _, _, _, h => nomatch h
  | fuel + 1, l, hs, db, r, h => by
    rw [levels] at h
    split_ifs at h with hlen
    · intro y hy
      have hparents := parents_snd (H := H) mtid l hs 0 db
      rw [Nat.mul_zero] at hparents
      rw [agreesOff_levels h y hy, hparents, agreesOff_levelPuts db (l + 1) 0 _ y hy]
    · rw [← Except.ok.inj h]
      exact fun _ _ => rfl

/-- **`Build` writes nodes of its tree only.** -/
theorem agreesOff_build {r : Option (Bytes × Bytes)} (h : build H db mtid leaves = .ok (r, db')) :
    AgreesOff mtid db db' := by
  rw [build] at h
  split_ifs at h with hlen
  · obtain ⟨-, rfl⟩ := Prod.mk.inj (Except.ok.inj h)
    exact fun _ _ => rfl
  · simp only [bind_eq_ok_iff] at h
    obtain ⟨⟨level, hs, db₁⟩, hlevels, rootHash, -, h⟩ := h
    obtain ⟨-, rfl⟩ := Prod.mk.inj (Except.ok.inj h)
    intro y hy
    rw [agreesOff_levels hlevels y hy, putLeaves_snd, agreesOff_levelPuts db 0 0 _ y hy]

/-! ### `GetProof` -/

/-- **One round**: the sibling of a node leads to its parent. -/
theorem Levels.sibling {v : Hash} {ptr : ℕ} (h : Levels H mtid xs (height xs) db)
    (hl : l ≤ height xs) (hv : (hashLevel H l xs)[ptr]? = some v) :
    (hashLevel H (l + 1) xs)[ptr / 2]? =
      some (Ledgerdb.Proof.climb H v (sibling db mtid l ptr).1 (sibling db mtid l ptr).2) := by
  have hlt := (List.getElem?_eq_some_iff.mp hv).1
  rw [MerkleTree.sibling]
  by_cases heven : ptr % 2 = 0
  · rw [if_pos heven, h, if_pos hl]
    cases hw : (hashLevel H l xs)[ptr + 1]? with
    | none => exact climb_last hv heven (List.getElem?_eq_none_iff.mp hw)
    | some w => exact climb_right hv heven hw
  · have hw : (hashLevel H l xs)[ptr - 1]? = some (hashLevel H l xs)[ptr - 1] :=
      List.getElem?_eq_getElem (by omega)
    rw [if_neg heven, h, if_pos hl, hw]
    exact climb_left hv (by omega) hw

/-- The rounds from a node of level `l` on end at the root. -/
theorem Levels.siblings (h : Levels H mtid xs (height xs) db) (hne : xs ≠ []) :
    ∀ (rounds l ptr : ℕ) (v : Hash), l + rounds = height xs → (hashLevel H l xs)[ptr]? = some v →
      Ledgerdb.Proof.climbAll H v ((siblings db mtid rounds l ptr).map (·.1))
        ((siblings db mtid rounds l ptr).map (·.2)) = .ok (merkleRoot H xs) := by
  intro rounds
  induction rounds with
  | zero =>
    intro l ptr v hl hv
    rw [show l = height xs by omega, hashLevel_height H hne, List.getElem?_singleton] at hv
    split_ifs at hv
    rw [← Option.some.inj hv]
    rfl
  | succ rounds ih =>
    intro l ptr v hl hv
    exact ih (l + 1) (ptr / 2) _ (by omega) (h.sibling (by omega) hv)

/-- **Every leaf has a proof** that ends at the root hash. -/
theorem getProof_build (H : Bytes → Hash) (db : DB) (mtid : Bytes) (leaves : List Bytes)
    (hempty : ∀ key, mtid ++ str "|" <+: key → db.getString key = none) (hne : leaves ≠ []) :
    ∃ top rootHash db' level, build H db mtid leaves = .ok (some (top, rootHash), db') ∧
      stoi top = .ok level ∧ ∀ seq leaf, leaves[seq]? = some leaf →
        (getProof db' mtid level seq).digest = rootHash ∧
        Proof.verify H { getProof db' mtid level seq with value := leaf } = .ok true := by
  have hxs : leaves.map H ≠ [] := by simpa using hne
  obtain ⟨db', hbuild, htree⟩ := build_levels (H := H) hempty hne
  refine ⟨_, _, db', _, hbuild, stoi_toDecimal _, fun seq leaf hleaf => ?_⟩
  have hdigest : (getProof db' mtid (height (leaves.map H)) seq).digest =
      (merkleRoot H (leaves.map H)).toBase32 := by
    have hroot := htree (height (leaves.map H)) 0
    rw [if_pos le_rfl, hashLevel_height H hxs] at hroot
    have hkey : mtid ++ str "|" ++ toDecimalInt (height (leaves.map H)) ++ str "|0" =
        nodeKey mtid (height (leaves.map H)) 0 := by
      rw [toDecimalInt_of_nonneg (Int.natCast_nonneg _), Int.toNat_natCast, nodeKey,
        List.append_assoc _ (str "|") (toDecimal 0)]
      rfl
    rw [getProof]
    simp only [hkey, hroot]
    rfl
  refine ⟨hdigest, ?_⟩
  have hclimb := htree.siblings hxs (height (leaves.map H)) 0 seq (H leaf) (Nat.zero_add _)
    (by
      show (leaves.map H)[seq]? = some (H leaf)
      rw [List.getElem?_map, hleaf]
      rfl)
  rw [getProof] at hdigest
  simp only at hdigest
  rw [Proof.verify, getProof]
  simp only [Int.toNat_natCast, hclimb, ok_bind]
  rw [hdigest, Hash.fromBase32_toBase32, beq_self_eq_true]
  rfl

/-- Three leaves: the last one has no sibling. -/
theorem getProof_build_three :
    ∃ top rootHash db' level,
      build hashABC {} (str "7") [str "a", str "b", str "c"] = .ok (some (top, rootHash), db') ∧
        stoi top = .ok level ∧ ∀ seq leaf, [str "a", str "b", str "c"][seq]? = some leaf →
          (getProof db' (str "7") level seq).digest = rootHash ∧
          Proof.verify hashABC { getProof db' (str "7") level seq with value := leaf } = .ok true :=
  getProof_build hashABC {} (str "7") [str "a", str "b", str "c"] (fun _ _ => rfl) (by simp)

end LedgerDatabase.Sqlledger.MerkleTree
