import LedgerDatabase.Ledgerdb.Equiv.Types
import LedgerDatabase.Ledgerdb.Skiplist
import LedgerDatabase.Library.SkipChain

/-!
# Records of skip lists

A node is parsed back from its record when its value contains no bar (`SkipNode.ofString_toBytes`).
The name of a record determines the prefix, also when prefixes contain bars, since what follows the
last bar does not contain one (`nodeKey_inj`).
-/

namespace LedgerDatabase

/-! ### Signed numbers -/

theorem toDecimalInt_of_nonneg {z : ℤ} (h : 0 ≤ z) : toDecimalInt z = toDecimal z.toNat := by
  rw [toDecimalInt, if_neg (by omega)]

theorem toDecimalInt_of_neg {z : ℤ} (h : z < 0) : toDecimalInt z = 45 :: toDecimal z.natAbs := by
  rw [toDecimalInt, if_pos h]

theorem scanNumber_neg (n : ℕ) : scanNumber (45 :: toDecimal n) = .ok (true, n) := by
  have htake : (toDecimal n).takeWhile isDigit = toDecimal n :=
    List.takeWhile_eq_self_iff.mpr fun b hb => isDigit_of_mem_toDecimal hb
  rw [scanNumber, List.dropWhile_cons_of_neg (by decide), splitSign]
  simp only [htake, toDecimal_ne_nil, digitsValue_toDecimal, ↓reduceIte]

theorem stol_toDecimalInt (z : ℤ) : stol (toDecimalInt z) = .ok z := by
  rcases lt_or_ge z 0 with h | h
  · rw [toDecimalInt_of_neg h, stol, stoi, scanNumber_neg]
    change Except.ok (-(z.natAbs : ℤ)) = _
    congr 1
    omega
  · rw [toDecimalInt_of_nonneg h, stol, stoi_toDecimal]
    congr 1
    omega

theorem toDecimalInt_injective : Function.Injective toDecimalInt := by
  intro z z' h
  have hz := stol_toDecimalInt z
  rw [h, stol_toDecimalInt] at hz
  exact (Except.ok.inj hz).symm

namespace Ledgerdb

open SkipChain (Node)

theorem noBar_toDecimalInt (z : ℤ) : NoBar (toDecimalInt z) := by
  rcases lt_or_ge z 0 with h | h
  · rw [toDecimalInt_of_neg h, NoBar, List.mem_cons, not_or]
    exact ⟨by decide, noBar_toDecimal _⟩
  · rw [toDecimalInt_of_nonneg h]
    exact noBar_toDecimal _

/-- What follows the last bar does not decide on what is before it. -/
theorem append_bar_inj {s s' t t' : Bytes} (ht : NoBar t) (ht' : NoBar t')
    (h : s ++ str "|" ++ t = s' ++ str "|" ++ t') : s = s' ∧ t = t' := by
  have hbar : str "|" = [124] := rfl
  rw [hbar, List.append_assoc, List.append_assoc] at h
  have hlast (s t : Bytes) (ht : NoBar t) : splitBy (s ++ ([124] ++ t)) 124 = splitBy s 124 ++ [t] := by
    have hone : splitBy t 124 = [t] := by
      have := splitBy_intercalate 124 [t] (List.cons_ne_nil _ _)
        (fun p hp => by rwa [List.mem_singleton.mp hp])
      rwa [List.intercalate_singleton] at this
    rw [List.singleton_append, splitBy_append, hone]
  have hsplit : splitBy s 124 ++ [t] = splitBy s' 124 ++ [t'] := by
    rw [← hlast s t ht, ← hlast s' t' ht', h]
  obtain ⟨-, hone⟩ := List.append_inj' hsplit rfl
  obtain rfl := (List.cons.inj hone).1
  exact ⟨List.append_cancel_right h, rfl⟩

namespace SkipNode

theorem cut_append {s : Bytes} (hs : NoBar s) (t : Bytes) : cut (s ++ 124 :: t) = (s, t) := by
  have hmem : (124 : UInt8) ∈ s ++ 124 :: t := by simp
  have hidx : (s ++ 124 :: t).idxOf 124 = s.length := by
    rw [List.idxOf_append_of_notMem hs, List.idxOf_cons_self, Nat.add_zero]
  rw [cut, if_pos hmem, LedgerDatabase.find, if_pos hmem, hidx]
  simp

/-- The links of a record. -/
theorem links_eq (f : ℤ) (fs : List ℤ) :
    ((f :: fs).flatMap fun ptr => str "|" ++ toDecimalInt ptr) =
      124 :: [124].intercalate ((f :: fs).map toDecimalInt) := by
  induction fs generalizing f with
  | nil => simp [show str "|" = [124] from rfl, List.intercalate]
  | cons g fs ih =>
    rw [List.flatMap_cons, ih g]
    simp [show str "|" = [124] from rfl, List.intercalate]

theorem mapM_stol (fs : List ℤ) : (fs.map toDecimalInt).mapM stol = .ok fs := by
  induction fs with
  | nil => rfl
  | cons f fs ih =>
    rw [List.map_cons, List.mapM_cons, stol_toDecimalInt, ih]
    rfl

/-- **A record is parsed back** when its value contains no bar. -/
theorem ofString_toBytes {n : SkipNode} (hval : NoBar n.value) (hne : n.forward ≠ []) :
    ofString n.toBytes = .ok n := by
  obtain ⟨key, value, forward⟩ := n
  obtain ⟨f, fs, rfl⟩ := List.exists_cons_of_ne_nil hne
  have hbytes : toBytes ⟨key, value, f :: fs⟩ =
      toDecimalInt key ++ 124 :: (value ++ 124 :: [124].intercalate ((f :: fs).map toDecimalInt)) := by
    rw [toBytes, links_eq]
    simp [show str "|" = [124] from rfl]
  have hlinks : splitBy ([124].intercalate ((f :: fs).map toDecimalInt)) 124 =
      (f :: fs).map toDecimalInt := by
    refine splitBy_intercalate 124 _ (by simp) fun p hp => ?_
    obtain ⟨z, -, rfl⟩ := List.mem_map.mp hp
    exact noBar_toDecimalInt z
  rw [hbytes, ofString, cut_append (noBar_toDecimalInt key)]
  simp only [stol_toDecimalInt, ok_bind, cut_append hval, hlinks, mapM_stol]
  rfl

theorem toBytes_ne_nil (n : SkipNode) : n.toBytes ≠ [] := by
  simp [toBytes, show str "|" = [124] from rfl]

end SkipNode

namespace SkipList

/-! ### Names -/

/-- The record of the head. -/
def headKey (pre : Bytes) : Bytes := pre ++ str "|head"

theorem headKey_eq (pre : Bytes) : headKey pre = pre ++ str "|" ++ str "head" := by
  rw [headKey, List.append_assoc]
  rfl

theorem noBar_head : NoBar (str "head") := by
  unfold NoBar
  decide

theorem nodeKey_inj {pre pre' : Bytes} {k k' : ℤ} (h : nodeKey pre k = nodeKey pre' k') :
    pre = pre' ∧ k = k' := by
  obtain ⟨hpre, hk⟩ := append_bar_inj (noBar_toDecimalInt k) (noBar_toDecimalInt k') h
  exact ⟨hpre, toDecimalInt_injective hk⟩

theorem headKey_inj {pre pre' : Bytes} (h : headKey pre = headKey pre') : pre = pre' :=
  List.append_cancel_right h

theorem nodeKey_ne_headKey (pre pre' : Bytes) (k : ℤ) : nodeKey pre k ≠ headKey pre' := by
  intro h
  rw [headKey_eq] at h
  obtain ⟨-, hk⟩ := append_bar_inj (noBar_toDecimalInt k) noBar_head h
  have hstol := stol_toDecimalInt k
  rw [hk] at hstol
  cases hstol

/-! ### Nodes of chains -/

/-- The link of level `i` into a chain. -/
def link (i : ℕ) (ns : List (Node ℤ Bytes)) : ℤ := (SkipChain.next i ns).getD (-1)

/-- The node as it is stored, in front of the chain `ns`. -/
def record (n : Node ℤ Bytes) (ns : List (Node ℤ Bytes)) : SkipNode where
  key := n.key
  value := n.val
  forward := (List.range n.level).map fun i => link i ns

/-- A node whose record can be read. -/
structure Clean (n : Node ℤ Bytes) : Prop where
  val : NoBar n.val
  level : 0 < n.level

theorem ofString_record {n : Node ℤ Bytes} (h : Clean n) (ns : List (Node ℤ Bytes)) :
    SkipNode.ofString (record n ns).toBytes = .ok (record n ns) := by
  refine SkipNode.ofString_toBytes h.val fun hnil => ?_
  rw [record, List.map_eq_nil_iff, List.range_eq_nil] at hnil
  exact h.level.ne' hnil

theorem at?_forward {n : Node ℤ Bytes} {i : ℕ} (hi : i < n.level) (ns : List (Node ℤ Bytes)) :
    at? (record n ns).forward i = .ok (link i ns) := by
  rw [record, at?_of_lt (by simpa using hi)]
  simp

end SkipList

end Ledgerdb

end LedgerDatabase
