import LedgerDatabase.Distributed.OCCStore
import LedgerDatabase.Ledgerdb.LedgerDB

/-!
# `VersionedKVStore`

The `LEDGERDB` build.  `GetProof`: the server asks the ledger for the proofs of the requested keys
and enters them in its reply.  `kvStore` are the calls of `OCCStore`.
-/

namespace LedgerDatabase.Distributed

open Ledgerdb

/-- The `std::map` of a request: the keys asked for under every block, in the order of the
blocks. -/
structure KeyMap where
  entries : List (ℕ × List Bytes)
  sorted : entries.Pairwise fun e e' => e.1 < e'.1

namespace VersionedKVStore

variable (H : Bytes → Hash)

/-- `ks`. -/
def flatKeys (keys : KeyMap) : List Bytes := keys.entries.flatMap (·.2)

/-- `blks`: the block of every key. -/
def flatBlocks (keys : KeyMap) : List ℕ := keys.entries.flatMap fun e => e.2.map fun _ => e.1

/-- The entry of a reply for a Merkle proof and a trie proof. -/
def proofEntry (mtproof : Proof) (mptproof : MPTProof) : Except Fault LedgerDBProof :=
  -- `pos` is indexed along with the siblings
  if mtproof.pos.length < mtproof.proof.length then .error .outOfRange
  else .ok {
    val := mtproof.value
    hash := mtproof.digest
    proof := mtproof.proof
    mtPos := (mtproof.pos.take mtproof.proof.length).map Int32.ofNat
    mptvalue := mptproof.value
    mptChunks := mptproof.map.map (·.1)
    mptPos := mptproof.map.map fun e => Int32.ofNat e.2 }

/-- The loop over the Merkle proofs; the trie proofs are indexed along with them. -/
def fillProofs : List Proof → List MPTProof → Except Fault (List LedgerDBProof)
  | [], _ => .ok []
  | _ :: _, [] => .error .outOfRange
  | mtproof :: mtproofs, mptproof :: mptproofs => do
    let p ← proofEntry mtproof mptproof
    return p :: (← fillProofs mtproofs mptproofs)

/-- `VersionedKVStore::GetProof`: the fields of the reply that it sets. -/
def getProof (keys : KeyMap) : Reads Reply := do
  let proofs ← LedgerDB.getProofs H (flatKeys keys) (flatBlocks keys)
  let proof ← Ask.ofExcept (fillProofs proofs.mtProofs proofs.mptProofs)
  return {
    digest := { block := Int64.ofNat proofs.blkSeq, hash := proofs.rootDigest
                mptHash := proofs.mptDigest }
    proof }

/-! ### Reading and writing -/

/-- The ledger of a shard, with the random numbers of the next calls of `Set`. -/
structure LedgerStore where
  ldb : LedgerDB := {}
  rand : List (List (List Bool)) := []
  deriving DecidableEq

/-- `VersionedKVStore::GetDigest`. -/
def getDigest (s : LedgerStore) : Except Fault (ℕ × Bytes) :=
  (s.ldb.db.reads LedgerDB.getRootDigest).1

/-- `VersionedKVStore::BatchGet`. -/
def batchGet (keys : List Bytes) (reply : TxnReply) (s : LedgerStore) :
    Except Fault (TxnReply × LedgerStore) := do
  let (values, ldb) ← LedgerDB.getValues keys s.ldb
  return ({ reply with
    values := reply.values ++ (keys.zip values).map fun e => ⟨e.1, e.2.val, e.2.block⟩
    timestamps := reply.timestamps ++ values.map (·.timestamp) }, { s with ldb })

/-- `VersionedKVStore::GetNVersions`; the number of versions of the first key goes for all. -/
def getNVersions (verKeys : List (Bytes × ℕ)) (reply : TxnReply) (s : LedgerStore) :
    Except Fault (TxnReply × LedgerStore) := do
  let keys := verKeys.map (·.1)
  let n := (← at? verKeys 0).2
  let values ← s.ldb.getVersions (Int32.ofNat n).toInt keys
  return ({ reply with
    values := reply.values ++
      (keys.zip values).flatMap fun e => e.2.map fun res => ⟨e.1, res.val, res.block⟩ }, s)

/-- `VersionedKVStore::put`.  The entries of all keys are set in one `KV`. -/
def put (keys values : List Bytes) (timestamp : ℕ) (reply : Option TxnReply) (s : LedgerStore) :
    Except Fault (Option TxnReply × LedgerStore) := do
  let (ldb, estimateBlocks) ← s.ldb.set keys values timestamp s.rand.head?.toList.flatten
  let kv : KV := (keys.zip values).foldl (fun _ e => ⟨e.1, e.2, estimateBlocks⟩) ⟨[], [], 0⟩
  return (reply.map fun reply => { reply with values := reply.values ++ [kv] },
    { ldb, rand := s.rand.tail })

/-- The `VersionedKVStore` of the `LEDGERDB` build. -/
def kvStore : KVStore LedgerStore := { getDigest, batchGet, getNVersions, put }

end VersionedKVStore

end LedgerDatabase.Distributed
