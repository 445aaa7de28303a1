import LedgerDatabase.Ledgerdb.Equiv.MerkleProof
import LedgerDatabase.Sqlledger.MerkleTree

/-!
# The incremental tree is the one-shot tree

`build_spec`: `build` returns the root of the tree over the hashes of all leaves.  The commits of
`ledgerdb` return the root over the leaves so far (`updates_spec`), however these were cut into
batches, so both ledgers compute the same root (`rootHash_updates_eq_build`).
-/

namespace LedgerDatabase.Sqlledger.MerkleTree

open PairTree
open Ledgerdb.MerkleTree
  (hashPair hashOne hashLevel hashLevel_succ hashLevel_height merkleRoot height updates
    updates_spec leavesAfter hasFinal_zero rootOf hashABC)

variable (H : Bytes → Hash)

/-! ### `build` -/

theorem putLeaves_fst (mtid : Bytes) : ∀ (leaves : List Bytes) (i : ℕ) (db : DB),
    (putLeaves H mtid i leaves db).1 = leaves.map H
  | [], _, _ => rfl
  | leaf :: leaves, i, db => by
    simp only [putLeaves, List.map_cons, putLeaves_fst mtid leaves]

theorem parents_fst (mtid : Bytes) (level : ℕ) : ∀ (hs : List Hash) (i : ℕ) (db : DB),
    (parents H mtid level i hs db).1 = pairUp (hashPair H) (hashOne H) hs
  | [], _, _ => rfl
  | [_], _, _ => rfl
  | h :: h' :: rest, i, db => by
    simp only [parents, pairUp, parents_fst mtid level rest]

/-- From level `l` on, the loop ends at the root, with what every level keeps. -/
theorem levels_spec (mtid : Bytes) {xs : List Hash} (hne : xs ≠ []) {P : ℕ → DB → Prop}
    (hP : ∀ l db, P l db → P (l + 1) (parents H mtid l 0 (hashLevel H l xs) db).2) :
    ∀ (fuel l : ℕ) (db : DB), P l db → l ≤ height xs → (hashLevel H l xs).length ≤ fuel →
      ∃ db', levels H mtid fuel l (hashLevel H l xs) db
          = .ok (height xs, [merkleRoot H xs], db') ∧ P (height xs) db' := by
  intro fuel
  induction fuel with
  | zero =>
    intro l db _ _ hfuel
    have hpos := (Ledgerdb.MerkleTree.lt_length_hashLevel H l 0 xs).mpr (by
      rw [Nat.zero_mul]
      exact List.length_pos_iff.mpr hne)
    omega
  | succ fuel ih =>
    intro l db hdb hl hfuel
    rcases Nat.eq_or_lt_of_le hl with rfl | hlt
    · refine ⟨db, ?_, hdb⟩
      rw [levels, hashLevel_height H hne]
      rfl
    · -- below the height there are at least two nodes
      have htwo : 1 < (hashLevel H l xs).length := by
        rw [Ledgerdb.MerkleTree.lt_length_hashLevel, Nat.one_mul]
        exact two_pow_lt_of_lt_clog hlt
      have hup := parents_fst H mtid l (hashLevel H l xs) 0 db
      rw [← hashLevel_succ] at hup
      have hlen : (hashLevel H (l + 1) xs).length ≤ fuel := by
        rw [hashLevel_succ, length_pairUp]
        omega
      obtain ⟨db', hrec, hdb'⟩ :=
        ih (l + 1) (parents H mtid l 0 (hashLevel H l xs) db).2 (hP l db hdb) hlt hlen
      refine ⟨db', ?_, hdb'⟩
      simp only [levels, if_pos htwo, hup, hrec]

/-- `build` returns the root and ends with what every level keeps. -/
theorem build_keeps (db : DB) (mtid : Bytes) {leaves : List Bytes} (hne : leaves ≠ [])
    {P : ℕ → DB → Prop}
    (hP : ∀ l db, P l db → P (l + 1) (parents H mtid l 0 (hashLevel H l (leaves.map H)) db).2)
    (hleaves : P 0 (putLeaves H mtid 0 leaves db).2) :
    ∃ db', build H db mtid leaves
        = .ok (some (toDecimal (height (leaves.map H)), (merkleRoot H (leaves.map H)).toBase32),
          db') ∧ P (height (leaves.map H)) db' := by
  have hxs : leaves.map H ≠ [] := by simpa using hne
  have hput := putLeaves_fst H mtid leaves 0 db
  obtain ⟨db', hlevels, hdb'⟩ := levels_spec H mtid hxs hP (leaves.map H).length 0
    (putLeaves H mtid 0 leaves db).2 hleaves (by omega) le_rfl
  refine ⟨db', ?_, hdb'⟩
  rw [build, if_neg (by simpa using hne)]
  have hlevels' : levels H mtid (leaves.map H).length 0 (leaves.map H)
      (putLeaves H mtid 0 leaves db).2 = _ := hlevels
  simp only [hput, hlevels', bind, Except.bind, at?, List.getElem?_cons_zero, pure, Except.pure]

/-- **`build` returns the root** of the tree over the hashes of the leaves. -/
theorem build_spec (db : DB) (mtid : Bytes) {leaves : List Bytes} (hne : leaves ≠ []) :
    ∃ db', build H db mtid leaves
      = .ok (some (toDecimal (height (leaves.map H)), (merkleRoot H (leaves.map H)).toBase32),
        db') := by
  obtain ⟨db', hbuild, -⟩ := build_keeps H db mtid hne (P := fun _ _ => True)
    (fun _ _ _ => trivial) trivial
  exact ⟨db', hbuild⟩

/-! ### Batches -/

/-- **The batching does not matter**: however a list of blocks is cut into non-empty batches, the
last commit returns the root hash that `build` computes in one go from the whole list. -/
theorem rootHash_updates_eq_build (blocks : List Bytes) (hblocks : blocks ≠ [])
    (batches : List (List Bytes)) (hne : ∀ b ∈ batches, b ≠ [])
    (hflat : batches.flatten = blocks) (db : DB) (mtid : Bytes) :
    ∃ commits last db' top rootHash db'',
      updates H 0 0 (batches.map (·.map H)) {} = .ok (commits, db') ∧
      commits.getLast? = some last ∧
      build H db mtid blocks = .ok (some (top, rootHash), db'') ∧
      last.root.rootHash = rootHash := by
  obtain ⟨commits, db', hrun, hlen, hcommits, -⟩ := updates_spec (H := H) (batches.map (·.map H))
    [] 0 {} (by simpa using hne) (fun new => hasFinal_zero H _ _)
  obtain ⟨db'', hbuild⟩ := build_spec H db mtid hblocks
  have hpos : 0 < batches.length := by
    rw [List.length_pos_iff]
    rintro rfl
    exact hblocks hflat.symm
  rw [List.length_map] at hlen hcommits
  obtain ⟨hlast, -⟩ := hcommits (batches.length - 1) (by omega)
  -- the last commit has seen all leaves
  have hall : leavesAfter [] (batches.map (·.map H)) (batches.length - 1) = blocks.map H := by
    rw [leavesAfter, Nat.sub_add_cancel hpos, List.take_of_length_le (by simp), List.nil_append,
      ← hflat, List.map_flatten]
  rw [hall] at hlast
  exact ⟨commits, _, db', _, _, db'', hrun, by rw [List.getLast?_eq_getElem?, hlen, hlast], hbuild,
    rfl⟩

/-- Three blocks, committed as one and two. -/
theorem rootHash_updates_eq_build_one_two :
    [[str "a"], [str "b", str "c"]].flatten = [str "a", str "b", str "c"] ∧
      ∃ commits last db' top rootHash db'',
        updates hashABC 0 0 ([[str "a"], [str "b", str "c"]].map (·.map hashABC)) {}
          = .ok (commits, db') ∧
        commits.getLast? = some last ∧
        build hashABC {} (str "mt") [str "a", str "b", str "c"]
          = .ok (some (top, rootHash), db'') ∧
        last.root.rootHash = rootHash :=
  ⟨rfl, rootHash_updates_eq_build hashABC [str "a", str "b", str "c"] (by simp)
    [[str "a"], [str "b", str "c"]] (by simp) rfl {} (str "mt")⟩

end LedgerDatabase.Sqlledger.MerkleTree
