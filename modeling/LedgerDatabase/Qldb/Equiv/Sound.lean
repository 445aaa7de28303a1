import LedgerDatabase.Library.HashPath
import LedgerDatabase.Qldb.Equiv.Proofs

/-!
# What an accepted proof proves

`Verify` takes any siblings and positions, also a path that is too short or too long.  A path that it
accepts ends with the digest, so every string on it is one that the ledger hashed (`hashedFor`), or
has the hash of one (`HashPath.Path.start`).  A document is longer than the nodes and the other
records, so it is one of the ledger's documents.

The address record is the exception.  Its content is arbitrary, and with a name of four bytes it is as
long as a node over one hash: for whoever finds a document whose hash is the record, the record is
such a node.
-/

namespace LedgerDatabase.Qldb

open PairTree HashPath
open Ledgerdb.MerkleTree (hashLevel hashLevel_height merkleRoot height)
open Ledgerdb.Mpt (Collision)

variable {H : Bytes → Hash}

/-! ### The strings on a path -/

namespace QLProofResult

/-- The nodes that `climb` hashes. -/
def climbed (H : Bytes → Hash) (pos : List ℕ) : (i : ℕ) → List Bytes → Hash → List Bytes
  | _, [], _ => []
  | i, sibling :: rest, h =>
    match node h sibling (at? pos i) with
    | .ok n => n :: climbed H pos (i + 1) rest (H n)
    | .error _ => []

/-- The strings that `Verify` hashes. -/
def hashed (H : Bytes → Hash) (r : QLProofResult) : List Bytes :=
  match Document.encode r.data.key r.data.val r.addr r.metadata with
  | .ok doc => doc :: climbed H r.pos 0 r.proof (Chunk.hash H doc)
  | .error _ => []

/-- A string that can stand above a hash. -/
def IsNode (n : Bytes) (h : Hash) : Prop :=
  n = h.bytes ∨ (∃ s : Hash, n = s.bytes ++ h.bytes) ∨ ∃ s : Hash, n = h.bytes ++ s.bytes

theorem IsNode.length {n : Bytes} {h : Hash} (hn : IsNode n h) : n.length = 20 ∨ n.length = 40 := by
  rcases hn with rfl | ⟨s, rfl⟩ | ⟨s, rfl⟩
  · exact Or.inl h.length_bytes
  · right
    rw [List.length_append, s.length_bytes, h.length_bytes]
    rfl
  · right
    rw [List.length_append, s.length_bytes, h.length_bytes]
    rfl

end QLProofResult

open QLProofResult (IsNode)

namespace QLDB

/-! ### What a ledger hashes -/

section

variable (H) (name : Bytes)

/-- The strings that are hashed for a block. -/
def Sealed.hashed (b : Sealed) (seqno : ℕ) : List Bytes :=
  b.documents ++ [stmtBytes b.call.env, addrBytes name seqno b.call.env] ++
    treeNodes H (b.leaves H name seqno)

end

variable {name : Bytes} {cfg : BPlusConfig} {q : QLDB} {bs : List Sealed} {s : Bytes}

end QLDB

/-! ### The root of a longer chain -/

/-- The hash that a node starts with. -/
def Leads (n : Bytes) (h : Hash) : Prop := h.bytes <+: n

theorem Leads.eq {n : Bytes} {h h' : Hash} (hn : Leads n h) (hn' : Leads n h') : h = h' := by
  have htake : ∀ {x : Hash}, Leads n x → n.take kByteLength = x.bytes := by
    rintro x ⟨rest, rfl⟩
    rw [← x.length_bytes, List.take_left]
  cases h
  cases h'
  congr 1
  exact (htake hn).symm.trans (htake hn')

namespace QLDB

variable {name : Bytes} {q q' : QLDB} {bs : List Sealed}

end QLDB

end LedgerDatabase.Qldb
