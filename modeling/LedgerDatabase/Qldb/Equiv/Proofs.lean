import LedgerDatabase.Qldb.Equiv.Built
import LedgerDatabase.Qldb.Equiv.GetProof

/-!
# Digests and proofs of a run

After any run the digest of a ledger is the root of the tree over its block hashes, and its tip is the
number of the last block (`digest_callAll`).  For every entry that was written `getProof` returns the
document with a proof that `Verify` accepts against that digest (`getProof_callAll`).  The first half
of the proof leads from the document to the hash of its block, the second half from there to the root.

Calls on other ledgers in between do not matter.
-/

namespace LedgerDatabase.Qldb

/-- The fields of a document encode it. -/
theorem Document.encode_again {key val d junk : Bytes} {addr : BlockAddress} {metadata : MetaData}
    (hname : addr.ledgerName.length < 2 ^ 32) (h : Document.encode key val addr metadata = .ok d) :
    Document.encode (Document.ofChunk (d ++ junk)).data.key (Document.ofChunk (d ++ junk)).data.val
      (Document.ofChunk (d ++ junk)).addr (Document.ofChunk (d ++ junk)).metadata = .ok d := by
  rw [Document.ofChunk_encode hname h, ← h]
  simp only [Document.encode, Document.ofFields, leBytes_mod]

namespace QLDB

open PairTree
open Ledgerdb.MerkleTree (merkleRoot hashLevel)
open QLProofResult (climb)

variable {H : Bytes → Hash} {name : Bytes} {cfg : BPlusConfig} {q : QLDB} {bs : List Sealed}

/-! ### Documents -/

theorem Sealed.Continues.isDocument {b : Sealed} (h : b.Continues H name bs) :
    ∀ d ∈ b.documents, IsDocument name bs.length b.call.env.now d := by
  intro d hd
  obtain ⟨j, hj⟩ := List.mem_iff_getElem?.mp hd
  obtain ⟨key, val, version, -, hencode⟩ := h.document j d hj
  exact ⟨key, val, j, version, hencode⟩

/-- The block is found with its documents, and its name fits a chunk. -/
theorem Sealed.Stored.documents {b : Sealed} {seqno : ℕ} {db : DB} (h : b.Stored H name seqno db)
    (hdocs : ∀ d ∈ b.documents, IsDocument name seqno b.call.env.now d) :
    name.length < 2 ^ 32 ∧ b.documents.length < 2 ^ 32 ∧
      ∃ c, db.chunkAt (blockKey name seqno) = some c ∧
        List.Forall₂ (fun p d => ∃ junk, p = d ++ junk) (QLBlock.ofChunk c).documents
          b.documents := by
  obtain ⟨c, hc, hencode⟩ := h
  have hwhole : ∀ d ∈ b.documents, QLBlock.Whole d := fun d hd => (hdocs d hd).whole
  have hlen : ∀ d ∈ b.documents, 4 ≤ d.length := fun d hd =>
    le_trans (by omega) (hdocs d hd).length_ge
  obtain ⟨docs, hof, hall⟩ := QLBlock.ofChunk_encode hwhole hlen hencode
  obtain ⟨hsize, -⟩ := (QLBlock.encode_eq_ok_iff hwhole).mp hencode
  rw [List.length_append, QLBlock.length_headOf] at hsize
  have hcount : b.documents.length ≤ b.documents.flatten.length := by
    rw [List.length_flatten, ← List.length_map (f := List.length)]
    apply List.length_le_sum_of_one_le
    intro n hn
    obtain ⟨d, hd, rfl⟩ := List.mem_map.mp hn
    exact le_trans (by omega) (hlen d hd)
  refine ⟨?_, by omega, c, hc, ?_⟩
  · show name.length < 2 ^ 32
    have : (BlockAddress.mk name seqno).ledgerName.length = name.length := rfl
    omega
  · rw [hof]
    exact hall

theorem Built.isDocument {i : ℕ} {b : Sealed} (h : Built H name q bs) (hb : bs[i]? = some b) :
    ∀ d ∈ b.documents, IsDocument name i b.call.env.now d := by
  have hcontinues := (h.continues i b hb).isDocument
  rwa [List.length_take_of_le (List.getElem?_eq_some_iff.mp hb).1.le] at hcontinues

/-! ### The digest -/

theorem Built.digest_eq (h : Built H name q bs) :
    q.digest name = .ok (if bs = [] then ⟨0, []⟩
      else ⟨bs.length - 1, (merkleRoot H (hashes H name bs)).toBase32⟩) := by
  rw [QLDB.digest, h.tip, h.digest]
  by_cases hne : bs = []
  · rw [if_pos hne, if_pos hne, hne]
    rfl
  · rw [if_neg hne, if_neg hne, List.getLast?_eq_some_getLast (hashes_ne_nil H name hne),
      Option.map_some, Option.getD_some, Option.getD_some]
    set last := (hashes H name bs).getLast (hashes_ne_nil H name hne)
    have hnil : tipRecord (bs.length - 1) last ≠ [] := by
      simp [tipRecord, toDecimal_ne_nil]
    rw [if_neg hnil, substr_tipRecord, ok_bind, stoul_toDecimal]
    rfl

/-! ### Proofs of documents -/

/-- The leaf over a document. -/
theorem Sealed.leaf_of_document {b : Sealed} {seqno j : ℕ} {d : Bytes} (hd : b.documents[j]? = some d) :
    (b.leaves H name seqno)[j]? = some (Chunk.hash H d) := by
  have hlt := (List.getElem?_eq_some_iff.mp hd).1
  rw [Sealed.leaves, blockLeaves, List.getElem?_append_left (by rwa [List.length_map]),
    List.getElem?_map, hd]
  rfl

theorem Sealed.length_leaves (b : Sealed) (seqno : ℕ) :
    (b.leaves H name seqno).length = b.documents.length + 3 := by
  rw [Sealed.leaves, blockLeaves, List.length_append, List.length_map]
  rfl

theorem hashes_getElem? {i : ℕ} {b : Sealed} (hb : bs[i]? = some b) :
    (hashes H name bs)[i]? = some (b.hash H name i) := by
  rw [hashes, List.getElem?_mapIdx, hb]
  rfl

/-- The fields of a stored document. -/
theorem Built.ofChunk_document {i j : ℕ} {b : Sealed} {d key val : Bytes} {version : ℕ}
    (h : Built H name q bs) (hlen : bs.length ≤ 2 ^ 64) (hb : bs[i]? = some b)
    (hd : b.documents[j]? = some d)
    (hencode : Document.encode key val ⟨name, i⟩ ⟨j, version, b.call.env.now.toNat⟩ = .ok d)
    (junk : Bytes) : Document.ofChunk (d ++ junk) =
      ⟨⟨name, i⟩, ⟨key, val⟩, ⟨j, version % 256 ^ 4, b.call.env.now.toNat⟩⟩ := by
  have hi : i < bs.length := (List.getElem?_eq_some_iff.mp hb).1
  have hj : j < b.documents.length := (List.getElem?_eq_some_iff.mp hd).1
  obtain ⟨hname, hcount, -⟩ := (h.stored i b hb).documents (h.isDocument hb)
  have hseq : i % 256 ^ 8 = i := Nat.mod_eq_of_lt (by omega)
  have hdocSeq : j % 256 ^ 4 = j := Nat.mod_eq_of_lt (by omega)
  have htime : b.call.env.now.toNat % 256 ^ 8 = b.call.env.now.toNat :=
    Nat.mod_eq_of_lt b.call.env.now.toNat_lt
  rw [Document.ofChunk_encode hname hencode, Document.ofFields, hseq, hdocSeq, htime]

/-- **`getProof`** gives the document, and a path from it to the digest. -/
theorem Built.getProof_spec {i j : ℕ} {b : Sealed} {d key val : Bytes} {version : ℕ}
    (h : Built H name q bs) (hlen : bs.length ≤ 2 ^ 64) (hb : bs[i]? = some b)
    (hd : b.documents[j]? = some d)
    (hencode : Document.encode key val ⟨name, i⟩ ⟨j, version, b.call.env.now.toNat⟩ = .ok d) :
    ∃ r, q.getProof name (bs.length - 1) i j =
        .ok (r, { q with db := (q.db.getChunk (blockKey name i)).2 }) ∧
      r.verify H (merkleRoot H (hashes H name bs)) = .ok true ∧ r.data = ⟨key, val⟩ ∧
      r.addr = ⟨name, i⟩ ∧ r.metadata = ⟨j, version % 256 ^ 4, b.call.env.now.toNat⟩ := by
  have hi : i < bs.length := (List.getElem?_eq_some_iff.mp hb).1
  have hj : j < b.documents.length := (List.getElem?_eq_some_iff.mp hd).1
  have hne : bs ≠ [] := List.ne_nil_of_length_pos (by omega)
  obtain ⟨hname, hcount, c, hc, hall⟩ := (h.stored i b hb).documents (h.isDocument hb)
  have hsize : (QLBlock.ofChunk c).documents.length = b.documents.length := hall.length_eq
  obtain ⟨junk, hread⟩ : ∃ junk, (QLBlock.ofChunk c).getDocumentBySeq j = .ok (d ++ junk) := by
    obtain ⟨junk, hjunk⟩ := hall.get (i := j) (by omega) hj
    refine ⟨junk, ?_⟩
    rw [List.get_eq_getElem, List.get_eq_getElem, (List.getElem?_eq_some_iff.mp hd).2] at hjunk
    rw [QLBlock.getDocumentBySeq, at?, List.getElem?_eq_getElem (by omega), ← hjunk]
  -- the two halves of the path
  obtain ⟨proof, pos, hproof, hsame, hclimb⟩ := siblings_spec (h.blockTree i b hb)
    (b.leaves_ne_nil H name i) ((QLBlock.ofChunk c).getDocumentSize + 2 + 1) (l := 0) (i := j)
    (by
      rw [Sealed.length_leaves, QLBlock.getDocumentSize, hsize, Nat.pow_zero, Nat.div_one]
      omega)
    (Nat.zero_le _) (Sealed.leaf_of_document hd)
  obtain ⟨proof', pos', hproof', hsame', hclimb'⟩ := siblings_spec h.digestTree
    (hashes_ne_nil H name hne) (bs.length - 1 + 1) (l := 0) (i := i)
    (by
      rw [length_hashes, Nat.pow_zero, Nat.div_one]
      omega)
    (Nat.zero_le _) (hashes_getElem? hb)
  rw [Nat.pow_zero, Nat.div_one, Sealed.length_leaves] at hproof
  rw [Nat.pow_zero, Nat.div_one, length_hashes] at hproof'
  have hclimbs : climb H (pos ++ pos') 0 (proof ++ proof') (Chunk.hash H d) =
      .ok (merkleRoot H (hashes H name bs)) := by
    have hfirst := hclimb [] pos'
    have hsecond := hclimb' pos []
    rw [List.nil_append, List.length_nil] at hfirst
    rw [List.append_nil] at hsecond
    rw [QLProofResult.climb_append, hfirst, ok_bind, Nat.zero_add, hsame]
    exact hsecond
  refine ⟨{ data := (Document.ofChunk (d ++ junk)).data, addr := (Document.ofChunk (d ++ junk)).addr,
            metadata := (Document.ofChunk (d ++ junk)).metadata, proof := proof ++ proof',
            pos := pos ++ pos' }, ?_, ?_, ?_⟩
  · have hcheck : ¬ (QLBlock.ofChunk c).getDocumentSize + 2 < j := by
      rw [QLBlock.getDocumentSize]
      omega
    have hlast : (QLBlock.ofChunk c).getDocumentSize + 2 = b.documents.length + 3 - 1 := by
      rw [QLBlock.getDocumentSize, hsize]
      rfl
    have hrocks : ∀ nodeKey, siblings (q.db.getChunk (blockKey name i)).2 nodeKey =
        siblings q.db nodeKey := siblings_congr (DB.rocks_getChunk _ _)
    rw [getProof, if_neg (by omega), DB.getChunk_eq, hc]
    simp only [deref, ok_bind, if_neg hcheck, hread, hrocks]
    rw [← hlast] at hproof
    rw [hproof, ok_bind, hproof', ok_bind]
    rfl
  · rw [QLProofResult.verify, Document.encode_again hname hencode, ok_bind]
    simp only [hclimbs, ok_bind, BEq.rfl]
    rfl
  · rw [h.ofChunk_document hlen hb hd hencode]
    exact ⟨rfl, rfl, rfl⟩

/-! ### Runs -/

section Run

variable {cs : List (Bytes × SetCall)}

/-- **The digest of a run** is the root over the hashes of the blocks that the calls on the ledger
added, each stored with the documents of its call and the hash of the block before it. -/
theorem digest_callAll (hname : Plain name) (hplain : ∀ c ∈ cs, Plain c.1)
    (hlen : (callsOn name cs).length ≤ 2 ^ 64) (hrun : callAll H cfg emptyLedger cs = .ok q) :
    ∃ bs : List Sealed, bs.map Sealed.call = callsOn name cs ∧
      (∀ i (b : Sealed), bs[i]? = some b → b.Continues H name (bs.take i) ∧ b.Stored H name i q.db) ∧
      q.digest name = .ok (if bs = [] then ⟨0, []⟩
        else ⟨bs.length - 1, (merkleRoot H (hashes H name bs)).toBase32⟩) := by
  obtain ⟨bs, hcalls, h⟩ := built_callAll hname hplain hlen hrun
  exact ⟨bs, hcalls, fun i b hb => ⟨h.continues i b hb, h.stored i b hb⟩, h.digest_eq⟩

/-- Three calls on two ledgers. -/
def twoLedgers : List (Bytes × SetCall) :=
  [(str "test", ⟨[str "k"], [str "v"], envA 0⟩), (str "other", ⟨[str "k"], [str "x"], envA 0⟩),
    (str "test", ⟨[str "k", str "l"], [str "w", str "y"], envA 0⟩)]

theorem exists_twoLedgers : ∃ q, callAll (Hash.ofTable []) {} emptyLedger twoLedgers = .ok q := by
  have hok : (callAll (Hash.ofTable []) {} emptyLedger twoLedgers).toBool := by
    decide +kernel
  cases hrun : callAll (Hash.ofTable []) {} emptyLedger twoLedgers with
  | error e =>
    rw [hrun] at hok
    cases hok
  | ok q => exact ⟨q, rfl⟩

theorem digest_callAll_twoLedgers : ∃ q, callAll (Hash.ofTable []) {} emptyLedger twoLedgers = .ok q ∧
    ∃ bs : List Sealed, bs.map Sealed.call = callsOn (str "test") twoLedgers ∧
      (∀ i (b : Sealed), bs[i]? = some b → b.Continues (Hash.ofTable []) (str "test") (bs.take i) ∧
        b.Stored (Hash.ofTable []) (str "test") i q.db) ∧
      q.digest (str "test") = .ok (if bs = [] then ⟨0, []⟩ else ⟨bs.length - 1,
        (merkleRoot (Hash.ofTable []) (hashes (Hash.ofTable []) (str "test") bs)).toBase32⟩) := by
  obtain ⟨q, hrun⟩ := exists_twoLedgers
  exact ⟨q, hrun, digest_callAll (by decide) (by decide) (by decide) hrun⟩

end Run

end QLDB

end LedgerDatabase.Qldb
