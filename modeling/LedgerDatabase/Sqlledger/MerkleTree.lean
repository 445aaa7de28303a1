import LedgerDatabase.Ledgerdb.MerkleTree

/-!
# The one-shot Merkle tree of `sqlledger`

`build` is `sqlledger::MerkleTree::Build`: the whole tree over a list of leaves, stored under
`<mtid>|<level>|<index>`.  `getProof` collects the siblings of a leaf.  It does not know the number of
leaves, so a node without a sibling is one whose sibling has no record.
-/

namespace LedgerDatabase.Sqlledger

/-- `Proof`: the sibling on each level from the leaf up, `""` where there is none, and `0` where
the sibling is on the left. -/
structure Proof where
  digest : Bytes := []
  value : Bytes := []
  proof : List Bytes := []
  pos : List ℕ := []
  deriving DecidableEq, Repr

/-- `Proof::Verify`, which hashes the value and then climbs like the proofs of `ledgerdb`. -/
def Proof.verify (H : Bytes → Hash) (p : Proof) : Except Fault Bool := do
  let calcHash ← Ledgerdb.Proof.climbAll H (H p.value) p.proof p.pos
  return calcHash == Hash.fromBase32 p.digest

namespace MerkleTree

open Ledgerdb.MerkleTree (hashPair hashOne)

variable (H : Bytes → Hash)

/-- `mtid + "|" + level + "|" + index`. -/
def nodeKey (mtid : Bytes) (level index : ℕ) : Bytes :=
  mtid ++ str "|" ++ toDecimal level ++ str "|" ++ toDecimal index

/-- The loop that hashes and stores the leaves, from index `i` on. -/
def putLeaves (mtid : Bytes) : (i : ℕ) → List Bytes → DB → List Hash × DB
  | _, [], db => ([], db)
  | i, leaf :: leaves, db =>
    let (hashes, db) :=
      putLeaves mtid (i + 1) leaves (db.putString (nodeKey mtid 0 i) (H leaf).toBase32)
    (H leaf :: hashes, db)

/-- The loop over a level, from index `i` on. -/
def parents (mtid : Bytes) (level : ℕ) : (i : ℕ) → List Hash → DB → List Hash × DB
  | _, [], db => ([], db)
  | i, [h], db =>
    ([hashOne H h], db.putString (nodeKey mtid (level + 1) (i / 2)) (hashOne H h).toBase32)
  | i, h :: h' :: rest, db =>
    let (parentHashes, db) := parents mtid level (i + 2) rest
      (db.putString (nodeKey mtid (level + 1) (i / 2)) (hashPair H h h').toBase32)
    (hashPair H h h' :: parentHashes, db)

/-- The loop over the levels; a level is at least halved in each of at most `fuel` rounds. -/
def levels (mtid : Bytes) :
    (fuel level : ℕ) → List Hash → DB → Except Fault (ℕ × List Hash × DB)
  | 0, _, _, _ => .error .diverges
  | fuel + 1, level, levelHashes, db =>
    if 1 < levelHashes.length then
      let (parentHashes, db) := parents H mtid level 0 levelHashes db
      levels mtid fuel (level + 1) parentHashes db
    else .ok (level, levelHashes, db)

/-- `MerkleTree::Build`: the top level and the root hash, left unset for no leaves. -/
def build (db : DB) (mtid : Bytes) (leaves : List Bytes) :
    Except Fault (Option (Bytes × Bytes) × DB) :=
  if leaves.length = 0 then .ok (none, db)
  else do
    let (levelHashes, db) := putLeaves H mtid 0 leaves db
    let (level, levelHashes, db) ← levels H mtid levelHashes.length 0 levelHashes db
    let rootHash ← at? levelHashes 0
    return (some (toDecimal level, rootHash.toBase32), db)

/-! ### `GetProof` -/

/-- One round of the loop over the levels: the sibling of node `ptr` and its side. -/
def sibling (db : DB) (mtid : Bytes) (i ptr : ℕ) : Bytes × ℕ :=
  if ptr % 2 = 0 then ((db.getString (nodeKey mtid i (ptr + 1))).getD [], 1)
  else ((db.getString (nodeKey mtid i (ptr - 1))).getD [], 0)

/-- The loop over the levels, with `rounds` of them left. -/
def siblings (db : DB) (mtid : Bytes) : (rounds i ptr : ℕ) → List (Bytes × ℕ)
  | 0, _, _ => []
  | rounds + 1, i, ptr => sibling db mtid i ptr :: siblings db mtid rounds (i + 1) (ptr / 2)

/-- `MerkleTree::GetProof`. -/
def getProof (db : DB) (mtid : Bytes) (level : ℤ) (seq : ℕ) : Proof :=
  let steps := siblings db mtid level.toNat 0 seq
  let res := (db.getString (mtid ++ str "|" ++ toDecimalInt level ++ str "|0")).getD []
  { digest := res, proof := steps.map (·.1), pos := steps.map (·.2) }

end MerkleTree

end LedgerDatabase.Sqlledger
