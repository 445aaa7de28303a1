import LedgerDatabase.Common.DB

/-!
# The append-only Merkle tree of `ledgerdb`

`update` and `getProof` are `MerkleTree::update` and `MerkleTree::getProof`, `Proof.verify` is
`Proof::Verify`.  Node `seq` of level `level` is stored under `mt<level>-<seq>`; a node whose
subtree is not full yet carries the commit that computed it as well, `mt<level>-<seq>-<commit>`.
-/

namespace LedgerDatabase.Ledgerdb

/-- `Proof`: the sibling on each level from the leaf up, `""` where there is none, and `0` where
the sibling is on the left. -/
structure Proof where
  digest : Bytes
  value : Bytes
  proof : List Bytes
  pos : List ℕ
  deriving DecidableEq, Repr

namespace MerkleTree

variable (H : Bytes → Hash)

/-! ### Keys and parents -/

/-- `"mt" + level + "-" + seq`. -/
def nodeKey (level seq : ℕ) : Bytes := str "mt" ++ toDecimal level ++ str "-" ++ toDecimal seq

/-- The key with `"-" + commit_seq` appended. -/
def withCommit (key commitSeq : Bytes) : Bytes := key ++ str "-" ++ commitSeq

/-- The parent of two nodes: the hash of both values, 40 bytes. -/
def hashPair (a b : Hash) : Hash := H (a.bytes ++ b.bytes)

/-- The parent of a node without a right neighbour: the hash of its value, 20 bytes. -/
def hashOne (a : Hash) : Hash := H a.bytes

/-! ### `MerkleTree::update` -/

/-- The loop that stores the leaves. -/
def putLeaves (db : DB) (startingBlockSeq : ℕ) : List Bytes → DB
  | [] => db
  | leaf :: leaves =>
    putLeaves (db.putString (nodeKey 0 startingBlockSeq) leaf) (startingBlockSeq + 1) leaves

/-- The loop over a level, from index `i` on: it stores the parents and returns their hashes with
the new value of `complete`. -/
def parents (level levelStartingSeq : ℕ) (commitSeq : Bytes) :
    (i : ℕ) → List Hash → (complete : Bool) → DB → List Hash × Bool × DB
  | _, [], complete, db => ([], complete, db)
  | i, [h], _, db =>
    let key := withCommit (nodeKey (level + 1) ((levelStartingSeq + i) / 2)) commitSeq
    ([hashOne H h], false, db.putString key (hashOne H h).toBase32)
  | i, h :: h' :: rest, complete, db =>
    let key := nodeKey (level + 1) ((levelStartingSeq + i) / 2)
    -- `i + 1 == level_hashes.size() - 1` holds when nothing follows the pair
    let key := if rest.isEmpty && !complete then withCommit key commitSeq else key
    let (parentHashes, complete, db) := parents level levelStartingSeq commitSeq (i + 2) rest
      complete (db.putString key (hashPair H h h').toBase32)
    (hashPair H h h' :: parentHashes, complete, db)

/-- `start > 1 ? (start - 1) % 2 == 1 : true`. -/
def prevCompleteAt (start : ℕ) : Bool := if 1 < start then (start - 1) % 2 == 1 else true

/-- The key under which the node before the first one of a level is looked up. -/
def prevKey (level levelStartingSeq : ℕ) (prevComplete : Bool) (prevCommitSeq : Bytes) : Bytes :=
  let key := nodeKey level (levelStartingSeq - 1)
  if 0 < level && !prevComplete then withCommit key prevCommitSeq else key

/-- "load previous hash when needed": a level starts at an even sequence number. -/
def loadPrev (db : DB) (prevCommitSeq : Bytes) (level levelStartingSeq : ℕ) (prevComplete : Bool)
    (levelHashes : List Hash) : ℕ × Bool × List Hash :=
  if levelStartingSeq % 2 = 1 then
    let prevHash :=
      (db.getString (prevKey level levelStartingSeq prevComplete prevCommitSeq)).getD []
    (levelStartingSeq - 1, prevCompleteAt (levelStartingSeq - 1),
      Hash.fromBase32 prevHash :: levelHashes)
  else (levelStartingSeq, prevComplete, levelHashes)

/-- The loop over the levels.  It ends after at most `fuel` rounds: the first sequence number is
halved and the hashes are paired up in each. -/
def levels (prevCommitSeq commitSeq : Bytes) :
    (fuel level levelStartingSeq : ℕ) → (prevComplete complete : Bool) → List Hash → DB →
      Except Fault (ℕ × Bool × List Hash × DB)
  | 0, _, _, _, _, _, _ => .error .diverges
  | fuel + 1, level, levelStartingSeq, prevComplete, complete, levelHashes, db =>
    if 1 < levelHashes.length || 0 < levelStartingSeq then
      let (levelStartingSeq, prevComplete, levelHashes) :=
        loadPrev db prevCommitSeq level levelStartingSeq prevComplete levelHashes
      let (parentHashes, complete, db) :=
        parents H level levelStartingSeq commitSeq 0 levelHashes complete db
      levels prevCommitSeq commitSeq fuel (level + 1) (levelStartingSeq / 2) prevComplete complete
        parentHashes db
    else .ok (level, complete, levelHashes, db)

/-- What `update` hands back through its pointers. -/
structure Root where
  rootKey : Bytes
  rootHash : Bytes
  deriving DecidableEq, Repr

/-- The `prev_commit_seq` with which commit `c` is made. -/
def prevCommitSeq (c : ℕ) : Bytes := if c = 0 then [] else toDecimal (c - 1)

/-- The number of the commit that follows `prev_commit_seq`. -/
def nextCommitSeq (prevCommitSeq : Bytes) : Except Fault Bytes :=
  if prevCommitSeq.length = 0 then .ok (str "0")
  else do return toDecimal ((← stoul prevCommitSeq) + 1)

/-- `MerkleTree::update`. -/
def update (db : DB) (startingBlockSeq : ℕ) (leafBlockHashes : List Bytes)
    (prevCommitSeq : Bytes) : Except Fault (Root × DB) := do
  let levelHashes := leafBlockHashes.map Hash.fromBase32
  let db := putLeaves db startingBlockSeq leafBlockHashes
  let commitSeq ← nextCommitSeq prevCommitSeq
  let (level, complete, levelHashes, db) ← levels H prevCommitSeq commitSeq
    (startingBlockSeq + levelHashes.length + 1) 0 startingBlockSeq
    (prevCompleteAt startingBlockSeq) true levelHashes db
  let rootHash ← at? levelHashes 0
  let key := str "mt" ++ toDecimal level ++ str "-0"
  return (⟨if complete then key else withCommit key commitSeq, rootHash.toBase32⟩, db)

/-! ### `MerkleTree::getProof` -/

/-- One round of the loop over the levels: the sibling of node `ptr` on level `i` and its side. -/
def sibling (commitSeq : Bytes) (i ptr last : ℕ) (complete : Bool) : Reads (Bytes × ℕ) :=
  if ptr % 2 = 0 then
    if ptr = last then return ([], 1)
    else do
      let key := nodeKey i (ptr + 1)
      let key := if ptr + 1 == last && 0 < i && !complete then withCommit key commitSeq else key
      return (← readString key, 1)
  else do return (← readString (nodeKey i (ptr - 1)), 0)

/-- The loop over the levels, with `rounds` of them left. -/
def siblings (commitSeq : Bytes) :
    (rounds i ptr last : ℕ) → (complete : Bool) → Reads (List (Bytes × ℕ))
  | 0, _, _, _, _ => return []
  | rounds + 1, i, ptr, last, complete => do
    let s ← sibling commitSeq i ptr last complete
    let rest ← siblings commitSeq rounds (i + 1) (ptr / 2) (last / 2)
      (complete && last / 2 % 2 == 1)
    return s :: rest

/-- `MerkleTree::getProof`. -/
def getProof (commitSeq rootKey : Bytes) (tip seq : ℕ) : Reads Proof := do
  let digest ← readString rootKey
  let value ← readString (nodeKey 0 seq)
  let delim := find rootKey 45
  let text ← Ask.ofExcept (substr rootKey 2 (subSize delim 2))
  let level ← Ask.ofExcept (stoi text)
  let steps ← siblings commitSeq level.toNat 0 seq tip (tip % 2 == 1)
  return { digest, value, proof := steps.map (·.1), pos := steps.map (·.2) }

end MerkleTree

/-! ### `Proof::Verify` -/

namespace Proof

variable (H : Bytes → Hash)

/-- The hash after one sibling: on the left for position `0`, else on the right, or absent. -/
def climb (calcHash : Hash) (sibling : Bytes) (pos : ℕ) : Hash :=
  if pos = 0 then MerkleTree.hashPair H (Hash.fromBase32 sibling) calcHash
  else if 0 < sibling.length then MerkleTree.hashPair H calcHash (Hash.fromBase32 sibling)
  else MerkleTree.hashOne H calcHash

/-- The loop over the siblings; `pos` is indexed along with them. -/
def climbAll : Hash → List Bytes → List ℕ → Except Fault Hash
  | calcHash, [], _ => .ok calcHash
  | _, _ :: _, [] => .error .outOfRange
  | calcHash, s :: siblings, p :: pos => climbAll (climb H calcHash s p) siblings pos

/-- `Proof::Verify`. -/
def verify (p : Proof) : Except Fault Bool := do
  let calcHash ← climbAll H (Hash.fromBase32 p.value) p.proof p.pos
  return calcHash == Hash.fromBase32 p.digest

end Proof

end LedgerDatabase.Ledgerdb
