import LedgerDatabase.Ledgerdb.MerkleTree
import LedgerDatabase.Ledgerdb.Mpt.Trie
import LedgerDatabase.Ledgerdb.Skiplist
import LedgerDatabase.Ledgerdb.Types

/-!
# `LedgerDB`

`set` is a call of `Set`, and `buildTree` is one round of the loop of the thread `buildTree`, in
which `try_pop` succeeds `n` times.  `getProofs` and `getAudit` only read the store, so they are
programs of `Reads`.
-/

namespace LedgerDatabase.Ledgerdb

variable (H : Bytes → Hash)

/-- `Tree_Block`. -/
structure TreeBlock where
  blkSeq : ℕ
  mptKs : List Bytes
  mptTs : Bytes
  deriving DecidableEq, Repr

/-- `Auditor`. -/
structure Auditor where
  digest : Bytes
  commitSeq : ℕ
  firstBlockSeq : ℕ
  commits : List Bytes
  blocks : List Bytes
  mptproofs : List MPTProof
  deriving DecidableEq

/-- `LedgerDB`. -/
structure LedgerDB where
  db : DB := {}
  nextBlockSeq : ℕ := 0
  commitSeq : ℕ := 0
  /-- `tree_queue_`, oldest first. -/
  treeQueue : List TreeBlock := []
  skiplistHead : StdMap ℤ := []
  deriving DecidableEq

namespace LedgerDB

/-- The key of a block. -/
def ledgerKey (blkSeq : ℕ) : Bytes := str "ledger-" ++ toDecimal blkSeq

/-- The key of a commit entry. -/
def commitKey (commitSeq : Bytes) : Bytes := str "commit" ++ commitSeq

/-! ### `Set` -/

/-- The loop of `Set` over the keys; `values` is indexed along with them.  `coins` are the random
numbers for the keys. -/
def setKeys (timestamp : ℕ) (blkSeqStr : Bytes) :
    List Bytes → List Bytes → List (List Bool) → DB → StdMap ℤ → Except Fault (DB × StdMap ℤ)
  | [], _, _, db, heads => .ok (db, heads)
  | _ :: _, [], _, _, _ => .error .outOfRange
  | key :: keys, val :: vals, coins, db, heads => do
    let db ← SkipList.insert db (str "skiplist_" ++ key) (toLong timestamp)
      (blkSeqStr ++ str "@" ++ val) coins.head?.toList.flatten
    setKeys timestamp blkSeqStr keys vals coins.tail db (heads.assign key (toLong timestamp))

/-- `LedgerDB::Set`: the state afterwards and the number that is returned. -/
def set (s : LedgerDB) (keys values : List Bytes) (timestamp : ℕ) (coins : List (List Bool)) :
    Except Fault (LedgerDB × ℕ) :=
  if keys.length = 0 then .ok (s, 1)
  else do
    let blkSeq := s.nextBlockSeq
    let blkVal ← BlockData.toBytes ⟨keys, values⟩
    let db := s.db.putString (ledgerKey blkSeq) blkVal
    let (db, heads) ← setKeys timestamp (toDecimal blkSeq) keys values coins db s.skiplistHead
    return ({ s with
      db
      nextBlockSeq := blkSeq + 1
      treeQueue := s.treeQueue ++ [⟨blkSeq, keys, toDecimal timestamp⟩]
      skiplistHead := heads }, blkSeq)

/-! ### `buildTree` -/

/-- The leaf of a block: the hash of what is stored for it. -/
def leafHash (db : DB) (blk : TreeBlock) : Hash :=
  H ((db.getString (ledgerKey blk.blkSeq)).getD [])

/-- `mpt_blks` after some blocks: the timestamp of the last block for every key. -/
def mptBlks (blks : List TreeBlock) : StdMap Bytes :=
  blks.foldl (fun m blk => blk.mptKs.foldl (fun m key => m.assign key blk.mptTs) m) []

/-- The previous commit entry: the root of its trie and the digest that the next one names. -/
def prevCommit (db : DB) (commitSeq : ℕ) : Except Fault (Option Hash × Bytes) :=
  if commitSeq > 0 then do
    let commitInfo := (db.getString (commitKey (toDecimal (commitSeq - 1)))).getD []
    let prev ← CommitInfo.ofString commitInfo
    return (some (Hash.fromBase32 prev.mptroot), (Hash.fromBase32 commitInfo).toBase32)
  else return (none, [])

/-- "update MPT": the root of the new trie. -/
def updateMpt (db : DB) (mptRoot : Option Hash) (mptKs mptVs : List Bytes) :
    Except Fault (Hash × DB) :=
  match mptRoot with
  | none => do
    let (result, db) := db.reads (Trie.ofKeys H mptKs mptVs)
    let (root, puts) ← result
    let db := db.putHashes puts
    -- the constructor opens the new trie
    let (node, db) := db.reads (Trie.setNodeForHash H root)
    return (Chunk.hash H (← node), db)
  | some root => do
    let (result, db) := db.reads (Trie.setBatch H root mptKs mptVs)
    let (newRoot, puts) ← result
    return (newRoot, db.putHashes puts)

/-- The part of a round after the blocks `blks` have been popped. -/
def commitBlocks (db : DB) (commitSeq : ℕ) (first last : TreeBlock) (blks : List TreeBlock) :
    Except Fault DB := do
  let mtNewHashes := blks.map fun blk => (leafHash H db blk).toBase32
  let mpt := mptBlks blks
  let (root, db) ← MerkleTree.update H db first.blkSeq mtNewHashes
    (MerkleTree.prevCommitSeq commitSeq)
  let (mptRoot, prevDigest) ← prevCommit db commitSeq
  let (newmptroot, db) ← updateMpt H db mptRoot (mpt.map (·.1)) (mpt.map (·.2))
  let commitEntry := CommitInfo.toBytes
    { commitSeq, prevDigest, tipBlock := last.blkSeq, mtroot := root.rootHash
      mtrootkey := root.rootKey, mptroot := newmptroot.toBase32 }
  let db := db.putString (commitKey (toDecimal commitSeq)) commitEntry
  let newdigest := DigestInfo.toBytes
    { commitSeq, tipBlock := last.blkSeq, digest := (H commitEntry).toBase32 }
  return db.putString (str "digest") newdigest

/-- A round of `LedgerDB::buildTree` that pops `n` blocks, or all when there are fewer. -/
def buildTree (s : LedgerDB) (n : ℕ) : Except Fault LedgerDB :=
  match s.treeQueue.take n with
  | [] => .ok s
  | first :: blks => do
    let db ← commitBlocks H s.db s.commitSeq first (blks.getLastD first) (first :: blks)
    return { s with db, commitSeq := s.commitSeq + 1, treeQueue := s.treeQueue.drop n }

/-! ### `GetValues`, `GetRange` and `GetVersions` -/

/-- A value that is read, with its timestamp and its block. -/
structure Found where
  timestamp : ℕ
  block : ℕ
  val : Bytes
  deriving DecidableEq, Repr

/-- The block and the value in a record `{block}@{value}`. -/
def parseValue (timestamp : ℤ) (value : Bytes) : Except Fault Found := do
  let res := splitBy value 64
  return { timestamp := (timestamp % 2 ^ 64).toNat, block := ← stoul (← at? res 0)
           val := ← at? res 1 }

/-- A round of the loop of `GetValues`; `operator[]` enters a missing key with `0`. -/
def getValue (s : LedgerDB) (key : Bytes) : Except Fault (Found × LedgerDB) := do
  let searchKey := (s.skiplistHead.lookup key).getD 0
  let s := { s with skiplistHead := s.skiplistHead.assign key searchKey }
  let node ← SkipList.find s.db (str "skiplist_" ++ key) searchKey
  if node.length = 0 then return (⟨0, 0, []⟩, s)
  else
    let skipnode ← SkipNode.ofString node
    return (← parseValue searchKey skipnode.value, s)

/-- `LedgerDB::GetValues`. -/
def getValues : (keys : List Bytes) → LedgerDB → Except Fault (List Found × LedgerDB)
  | [], s => .ok ([], s)
  | key :: keys, s => do
    let (found, s) ← s.getValue key
    let (values, s) ← getValues keys s
    return (found :: values, s)

/-- The loop of `GetRange` from `it` on.  Two iterators are equal when their rests are equally
long. -/
def rangeLoop (db : DB) (toIt : StdMap ℤ) : StdMap ℤ → StdMap Found → Except Fault (StdMap Found)
  | [], values => .ok values
  | (key, searchKey) :: it, values =>
    if it.length + 1 = toIt.length then .ok values
    else do
      let node ← SkipList.find db (str "skiplist_" ++ key) searchKey
      let skipnode ← SkipNode.ofString node
      rangeLoop db toIt it (values.emplace key (← parseValue searchKey skipnode.value))

/-- `LedgerDB::GetRange`, into a new map. -/
def getRange (s : LedgerDB) (start stop : Bytes) : Except Fault (StdMap Found) :=
  rangeLoop s.db (s.skiplistHead.upperBound stop) (s.skiplistHead.lowerBound start) []

/-- The versions in the records of a scan. -/
def parseVersions : List Bytes → Except Fault (List Found)
  | [] => .ok []
  | node :: nodes => do
    let skipnode ← SkipNode.ofString node
    let found ← parseValue skipnode.key skipnode.value
    return found :: (← parseVersions nodes)

/-- The loop of `LedgerDB::GetVersions`: the newest versions of every key. -/
def getVersions (s : LedgerDB) (nversions : ℤ) : (keys : List Bytes) →
    Except Fault (List (List Found))
  | [] => .ok []
  | key :: keys => do
    let nodes ← SkipList.scan s.db (str "skiplist_" ++ key) nversions
    let vs ← parseVersions nodes
    return vs :: (← getVersions s nversions keys)

/-- `LedgerDB::GetVersions` with its `size_t` argument, which `scan` takes as an `int`. -/
def getNVersions (s : LedgerDB) (nversions : UInt64) (keys : List Bytes) :
    Except Fault (List (List Found)) :=
  s.getVersions (toInt nversions.toNat) keys

/-! ### `GetRootDigest` and `GetProofs` -/

/-- `LedgerDB::GetRootDigest`: `*blk_seq` and `*root_digest`. -/
def getRootDigest : Reads (ℕ × Bytes) := do
  let digestinfo ← readString (str "digest")
  if digestinfo.length = 0 then return (0, [])
  else
    let digest ← Ask.ofExcept (DigestInfo.ofString digestinfo)
    return (digest.tipBlock, digest.digest)

/-- What `GetProofs` returns. -/
structure Proofs where
  mtProofs : List Proof
  mptProofs : List MPTProof
  rootDigest : Bytes
  blkSeq : ℕ
  mptDigest : Bytes
  deriving DecidableEq

/-- The Merkle proof of a round of `GetProofs`; there is none when the block stays the same. -/
def mtProofFor (commitSeq mtRootKey : Bytes) (tip current blk : ℕ) : Reads (List Proof) :=
  if blk ≠ current then do return [← MerkleTree.getProof commitSeq mtRootKey tip blk]
  else return []

/-- The loop of `GetProofs`; `keyBlkSeqs` is indexed along with the keys. -/
def proofLoop (commitSeq mtRootKey : Bytes) (tip : ℕ) (mpt : Bytes) :
    List Bytes → List ℕ → (current : ℕ) → Reads (List Proof × List MPTProof)
  | [], _, _ => return ([], [])
  | _ :: _, [], _ => .fail .outOfRange
  | key :: keys, blk :: blks, current => do
    let mtProof ← mtProofFor commitSeq mtRootKey tip current blk
    let mptProof ← Trie.getProof mpt key
    let (mtProofs, mptProofs) ← proofLoop commitSeq mtRootKey tip mpt keys blks blk
    return (mtProof ++ mtProofs, mptProof :: mptProofs)

/-- The commit that the digest names: the text of its number and its entry. -/
def latestCommit : Reads (Bytes × CommitInfo) := do
  let digest ← readString (str "digest")
  let dinfo ← Ask.ofExcept (DigestInfo.ofString digest)
  let commitSeq := toDecimal dinfo.commitSeq
  let commit ← readString (commitKey commitSeq)
  let cinfo ← Ask.ofExcept (CommitInfo.ofString commit)
  return (commitSeq, cinfo)

/-- `LedgerDB::GetProofs`. -/
def getProofs (keys : List Bytes) (keyBlkSeqs : List ℕ) : Reads Proofs := do
  let (commitSeq, cinfo) ← latestCommit
  let mpt ← Trie.setNodeForHash H (Hash.fromBase32 cinfo.mptroot)
  let (mtProofs, mptProofs) ←
    proofLoop commitSeq cinfo.mtrootkey cinfo.tipBlock mpt keys keyBlkSeqs 0
  return { mtProofs, mptProofs, rootDigest := cinfo.mtroot, blkSeq := cinfo.tipBlock
           mptDigest := cinfo.mptroot }

/-! ### `GetAudit` -/

/-- The entries under some keys. -/
def readAll : List Bytes → Reads (List Bytes)
  | [] => return []
  | key :: keys => do
    let val ← readString key
    return val :: (← readAll keys)

/-- The loop over the keys of a block. -/
def auditKeys (mpt : Bytes) : List Bytes → Reads (List MPTProof)
  | [] => return []
  | key :: keys => do
    let proof ← Trie.getProof mpt key
    return proof :: (← auditKeys mpt keys)

/-- The loop over the blocks of a commit. -/
def auditBlocks (mpt : Bytes) : List ℕ → Reads (List Bytes × List MPTProof)
  | [] => return ([], [])
  | i :: is => do
    let blockdata ← readString (ledgerKey i)
    let binfo ← Ask.ofExcept (BlockData.ofString blockdata)
    let proofs ← auditKeys mpt binfo.keys
    let (blocks, mptproofs) ← auditBlocks mpt is
    return (blockdata :: blocks, proofs ++ mptproofs)

/-- The first block of a commit. -/
def firstBlockOf (seq : ℕ) : Reads ℕ :=
  if seq > 0 then do
    let prevCommit ← readString (commitKey (toDecimal (seq - 1)))
    let prev ← Ask.ofExcept (CommitInfo.ofString prevCommit)
    return prev.tipBlock + 1
  else return 0

/-- `LedgerDB::GetAudit`.  The commits are read up to number `tip_block`. -/
def getAudit (seq : ℕ) : Reads Auditor := do
  let digest ← readString (str "digest")
  let dinfo ← Ask.ofExcept (DigestInfo.ofString digest)
  let commits ← readAll ((List.range' seq (dinfo.tipBlock + 1 - seq)).map
    fun i => commitKey (toDecimal i))
  let cinfo ← Ask.ofExcept (CommitInfo.ofString (commits.head?.getD []))
  let firstBlockSeq ← firstBlockOf seq
  let mpt ← Trie.setNodeForHash H (Hash.fromBase32 cinfo.mptroot)
  let (blocks, mptproofs) ← auditBlocks mpt
    (List.range' firstBlockSeq (cinfo.tipBlock + 1 - firstBlockSeq))
  return { digest := dinfo.digest, commitSeq := cinfo.commitSeq, firstBlockSeq, commits, blocks
           mptproofs }

end LedgerDB

/-! ### `Auditor::Audit` -/

namespace Auditor

/-- What the loop over the commits keeps of the oldest one. -/
structure Oldest where
  mtroot : Bytes := []
  mptroot : Bytes := []
  prevCommitSeq : Bytes := []
  deriving DecidableEq

/-- The loop over the commits, newest first; `none` when a commit does not have the target hash. -/
def walkCommits : (target : Bytes) → List Bytes → Oldest → Except Fault (Option Oldest)
  | _, [], oldest => return some oldest
  | target, c :: commits, _ =>
    if (H c).toBase32 ≠ target then return none
    else do
      let cinfo ← CommitInfo.ofString c
      walkCommits cinfo.prevDigest commits
        { mtroot := cinfo.mtroot, mptroot := cinfo.mptroot
          prevCommitSeq := MerkleTree.prevCommitSeq cinfo.commitSeq }

/-- The loop over the keys of a block: the result and the number of the next proof. -/
def auditKeys (mptproofs : List MPTProof) (mptHash : Hash) :
    List Bytes → (res : Bool) → (cnt : ℕ) → Except Fault (Bool × ℕ)
  | [], res, cnt => return (res, cnt)
  | _ :: keys, true, cnt => auditKeys mptproofs mptHash keys true (cnt + 1)
  | key :: keys, false, cnt => do
    let proof ← at? mptproofs cnt
    auditKeys mptproofs mptHash keys (← proof.verifyProof H mptHash key) (cnt + 1)

/-- The loop over the blocks. -/
def auditBlocks (mptproofs : List MPTProof) (mptHash : Hash) :
    List Bytes → (res : Bool) → (cnt : ℕ) → Except Fault Bool
  | [], res, _ => return res
  | block :: blocks, res, cnt => do
    let binfo ← BlockData.ofString block
    let (res, cnt) ← auditKeys H mptproofs mptHash binfo.keys res cnt
    auditBlocks mptproofs mptHash blocks res cnt

/-- `Auditor::Audit`: the result, and the store of the auditor afterwards. -/
def audit (a : Auditor) (db : DB) : Except Fault (Bool × DB) := do
  match ← walkCommits H a.digest a.commits.reverse {} with
  | none => return (false, db)
  | some oldest =>
    let mtNewHashes := a.blocks.map fun block => (H block).toBase32
    let (root, db) ← MerkleTree.update H db a.firstBlockSeq mtNewHashes oldest.prevCommitSeq
    let res := root.rootHash == oldest.mtroot
    let res ← auditBlocks H a.mptproofs (H oldest.mptroot) a.blocks res 0
    return (res, db)

end Auditor

end LedgerDatabase.Ledgerdb
