import LedgerDatabase.Common.Equiv.Bytes
import LedgerDatabase.Common.Equiv.Hash
import LedgerDatabase.Ledgerdb.Equiv.MerkleTree
import LedgerDatabase.Ledgerdb.LedgerDB

/-!
# Records of the ledger as strings

The entries that the ledger stores are parsed back to the records they were made from
(`CommitInfo.ofString_toBytes`, `DigestInfo.ofString_toBytes`), since none of their fields contains
a bar.
-/

namespace LedgerDatabase.Ledgerdb

/-- A field without a bar. -/
def NoBar (s : Bytes) : Prop := (124 : UInt8) ∉ s

theorem noBar_toDecimal (n : ℕ) : NoBar (toDecimal n) := not_mem_toDecimal (by decide) n

theorem noBar_nil : NoBar [] := List.not_mem_nil

theorem noBar_toBase32 (h : Hash) : NoBar h.toBase32 := fun hmem =>
  absurd (Hash.mem_alphabet_of_mem_toBase32 hmem) (by decide)

theorem NoBar.append {s t : Bytes} (hs : NoBar s) (ht : NoBar t) : NoBar (s ++ t) := by
  rw [NoBar, List.mem_append, not_or]
  exact ⟨hs, ht⟩

theorem noBar_keyOf (l j : ℕ) (c : Option ℕ) : NoBar (MerkleTree.keyOf l j c) := by
  have hmt : NoBar (str "mt") := by unfold NoBar; decide
  have hdash : NoBar (str "-") := by unfold NoBar; decide
  have hnode : NoBar (MerkleTree.nodeKey l j) :=
    ((hmt.append (noBar_toDecimal l)).append hdash).append (noBar_toDecimal j)
  cases c with
  | none => exact hnode
  | some c => exact (hnode.append hdash).append (noBar_toDecimal c)

/-! ### Commit entries -/

/-- The text fields of a commit entry have no bar. -/
structure CommitInfo.Clean (c : CommitInfo) : Prop where
  prevDigest : NoBar c.prevDigest
  mtroot : NoBar c.mtroot
  mtrootkey : NoBar c.mtrootkey
  mptroot : NoBar c.mptroot

/-- A commit entry is parsed back. -/
theorem CommitInfo.ofString_toBytes {c : CommitInfo} (h : c.Clean) :
    CommitInfo.ofString c.toBytes = .ok c := by
  have hjoin : c.toBytes = [124].intercalate [toDecimal c.commitSeq, c.prevDigest,
      toDecimal c.tipBlock, c.mtroot, c.mtrootkey, c.mptroot] := by
    simp [CommitInfo.toBytes, List.intercalate, show str "|" = [124] from rfl]
  have hsplit : splitBy c.toBytes 124 = [toDecimal c.commitSeq, c.prevDigest,
      toDecimal c.tipBlock, c.mtroot, c.mtrootkey, c.mptroot] := by
    rw [hjoin]
    refine splitBy_intercalate 124 _ (List.cons_ne_nil _ _) ?_
    simp only [List.forall_mem_cons]
    exact ⟨noBar_toDecimal _, h.prevDigest, noBar_toDecimal _, h.mtroot, h.mtrootkey, h.mptroot,
      fun _ hp => absurd hp List.not_mem_nil⟩
  simp only [CommitInfo.ofString, hsplit, at?, List.getElem?_cons_zero, List.getElem?_cons_succ,
    ok_bind, stoul_toDecimal]
  rfl

/-- A digest entry is parsed back. -/
theorem DigestInfo.ofString_toBytes {d : DigestInfo} (h : NoBar d.digest) :
    DigestInfo.ofString d.toBytes = .ok d := by
  have hjoin : d.toBytes
      = [124].intercalate [toDecimal d.commitSeq, toDecimal d.tipBlock, d.digest] := by
    simp [DigestInfo.toBytes, List.intercalate, show str "|" = [124] from rfl]
  have hsplit : splitBy d.toBytes 124 = [toDecimal d.commitSeq, toDecimal d.tipBlock, d.digest] := by
    rw [hjoin]
    refine splitBy_intercalate 124 _ (List.cons_ne_nil _ _) ?_
    simp only [List.forall_mem_cons]
    exact ⟨noBar_toDecimal _, noBar_toDecimal _, h, fun _ hp => absurd hp List.not_mem_nil⟩
  simp only [DigestInfo.ofString, hsplit, at?, List.getElem?_cons_zero, List.getElem?_cons_succ,
    ok_bind, stoul_toDecimal]
  rfl

end LedgerDatabase.Ledgerdb
