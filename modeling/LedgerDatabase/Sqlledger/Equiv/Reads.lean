import LedgerDatabase.Ledgerdb.Equiv.Reads
import LedgerDatabase.Sqlledger.Equiv.History

/-!
# When `GetDigest` and `getAudit` return

The digest names the last block that is finished, and every finished block can be parsed
(`Readable`).  Until the first block is finished there is no digest, and both functions read past the
end of its fields.  `reads_return_iff` puts this beside what holds of the functions of `LedgerDB`.
-/

namespace LedgerDatabase.Sqlledger

open Ledgerdb (NoBar noBar_toDecimal noBar_toBase32)
open MerkleTree (nodeKey)
open Qldb.QLBTree (IsName)
open SQLLedger

variable {H : Bytes → Hash} {cfg : Qldb.BPlusConfig} {t t' : Threads} {a : Step}

/-- The number of blocks that are finished. -/
def built (t : Threads) : ℕ :=
  match t.updating with
  | .sleeping => t.ledger.blockSeq
  | .building newBlkSeq .. => newBlkSeq

/-! ### Records of blocks -/

/-- A stored block has three fields, the last of which is a number. -/
def IsBlock (v : Option Bytes) : Prop :=
  ∃ block prevHash rootHash level, v = some block ∧
    splitBy block 124 = [prevHash, rootHash, toDecimal level]

/-- The stored digest when `n` blocks are finished. -/
def IsDigest (v : Option Bytes) : ℕ → Prop
  | 0 => v = none
  | n + 1 => ∃ digest hash, v = some digest ∧ splitBy digest 124 = [hash, toDecimal n]

/-- The names of the digest and the blocks. -/
def IsSummary (y : Bytes) : Prop := y = str "digest" ∨ ∃ seq, y = blockKey seq

theorem mem_of_at? {α : Type} {v : List α} {i : ℕ} {x : α} (h : at? v i = .ok x) : x ∈ v := by
  rw [at?] at h
  split at h
  · rename_i y hy
    rw [← Except.ok.inj h]
    exact List.mem_of_getElem? hy
  · cases h

theorem splitBy_pair {x y : Bytes} (hx : NoBar x) (hy : NoBar y) :
    splitBy (x ++ str "|" ++ y) 124 = [x, y] := by
  have hjoin : x ++ str "|" ++ y = [124].intercalate [x, y] := by
    simp [List.intercalate, show str "|" = [124] from rfl]
  rw [hjoin]
  apply splitBy_intercalate 124 _ (List.cons_ne_nil _ _)
  simp only [List.forall_mem_cons]
  exact ⟨hx, hy, fun _ hp => absurd hp List.not_mem_nil⟩

theorem splitBy_fields {x y z : Bytes} (hx : NoBar x) (hy : NoBar y) (hz : NoBar z) :
    splitBy (x ++ str "|" ++ y ++ str "|" ++ z) 124 = [x, y, z] := by
  have hjoin : x ++ str "|" ++ y ++ str "|" ++ z = x ++ 124 :: (y ++ str "|" ++ z) := by
    simp [show str "|" = [124] from rfl]
  have hone : splitBy x 124 = [x] := List.splitOn_eq_singleton hx
  rw [hjoin, splitBy_append, splitBy_pair hy hz, hone]
  rfl

theorem blockKey_inj {m n : ℕ} : blockKey m = blockKey n ↔ m = n := by
  rw [blockKey, blockKey, List.append_cancel_left_eq, toDecimal_inj]

theorem digest_ne_blockKey (n : ℕ) : str "digest" ≠ blockKey n := by
  intro h
  have hhead := congrArg List.head? h
  exact absurd hhead (show some 100 ≠ some (98 : UInt8) by decide)

namespace IsSummary

variable {y : Bytes}

theorem noBar (h : IsSummary y) : NoBar y := by
  rcases h with rfl | ⟨seq, rfl⟩
  · rw [NoBar]
    decide
  · rw [NoBar, blockKey, List.mem_append, not_or]
    exact ⟨by decide, noBar_toDecimal seq⟩

theorem head (h : IsSummary y) : y.head? = some 100 ∨ y.head? = some 98 := by
  rcases h with rfl | ⟨seq, rfl⟩
  · exact Or.inl rfl
  · exact Or.inr rfl

theorem ne_histKey (h : IsSummary y) (key : Bytes) (seq : ℕ) : y ≠ histKey key seq := by
  rintro rfl
  apply h.noBar
  rw [histKey, histPrefix]
  exact List.mem_append_left _ (List.mem_append_right _ (by decide))

theorem ne_nodeKey (h : IsSummary y) (mtid : Bytes) (l i : ℕ) : y ≠ nodeKey mtid l i := by
  rintro rfl
  apply h.noBar
  rw [nodeKey]
  exact List.mem_append_left _ (List.mem_append_right _ (by decide))

theorem ne_of_head {c : UInt8} {x : Bytes} (h : IsSummary y) (hx : x.head? = some c)
    (hc : c ≠ 100 ∧ c ≠ 98) : y ≠ x := by
  rintro rfl
  rcases h.head with hy | hy
  · exact hc.1 (Option.some.inj (hx.symm.trans hy))
  · exact hc.2 (Option.some.inj (hx.symm.trans hy))

theorem ne_txnKey (h : IsSummary y) (tid : ℕ) : y ≠ txnKey tid :=
  h.ne_of_head (c := 116) rfl (by decide)

theorem not_isName (h : IsSummary y) : ¬ IsName (str "COMMITTED_") y := by
  rintro (hroot | ⟨n, x, hnode⟩)
  · exact h.ne_of_head (c := 67) rfl (by decide) hroot
  · exact h.ne_of_head (c := 67) rfl (by decide) hnode

end IsSummary

/-! ### The invariant -/

/-- A block that is being built is the last one that was cut, and it is not empty. -/
def Underway (blockSeq : ℕ) : Updating → Prop
  | .sleeping => True
  | .building newBlkSeq _ left leaves => newBlkSeq + 1 = blockSeq ∧ (left ≠ [] ∨ leaves ≠ [])

/-- The log has an index record for each block that is cut.  The finished blocks are stored, and the
digest names the last of them. -/
structure Readable (t : Threads) : Prop where
  pre : t.ledger.indexed.pre = str "COMMITTED_"
  index : t.ledger.logger.idx.map IndexEntry.block = List.range t.ledger.blockSeq
  underway : Underway t.ledger.blockSeq t.updating
  block : ∀ i < built t, IsBlock (t.ledger.db.getString (blockKey i))
  fresh : ∀ i, built t ≤ i → t.ledger.db.getString (blockKey i) = none
  digest : IsDigest (t.ledger.db.getString (str "digest")) (built t)

namespace Readable

theorem start : Readable start where
  pre := rfl
  index := rfl
  underway := trivial
  block _ hi := absurd hi (Nat.not_lt_zero _)
  fresh _ _ := rfl
  digest := rfl

/-- A step that finishes no block and writes no record of one. -/
theorem keeps (h : Readable t) (hpre : t'.ledger.indexed.pre = t.ledger.indexed.pre)
    (hindex : t'.ledger.logger.idx.map IndexEntry.block = List.range t'.ledger.blockSeq)
    (hunderway : Underway t'.ledger.blockSeq t'.updating) (hbuilt : built t' = built t)
    (hget : ∀ y, IsSummary y → t'.ledger.db.getString y = t.ledger.db.getString y) :
    Readable t' := by
  have hblock : ∀ i, t'.ledger.db.getString (blockKey i) = t.ledger.db.getString (blockKey i) :=
    fun i => hget _ (Or.inr ⟨i, rfl⟩)
  constructor
  · exact hpre.trans h.pre
  · exact hindex
  · exact hunderway
  · intro i hi
    rw [hblock]
    exact h.block i (hbuilt ▸ hi)
  · intro i hi
    rw [hblock]
    exact h.fresh i (hbuilt ▸ hi)
  · rw [hget _ (Or.inl rfl), hbuilt]
    exact h.digest

/-- **A block is finished.** -/
theorem buildBlock {b i : ℕ} {leaves : List Bytes} {s : SQLLedger} (h : Readable t)
    (hbuilding : t.updating = .building b i [] leaves)
    (hbuild : t.ledger.buildBlock H b leaves = .ok s) :
    Readable { t with ledger := s, updating := .sleeping } := by
  have hunder := h.underway
  rw [hbuilding] at hunder
  obtain ⟨hb, hleaves⟩ := hunder
  have hbuilt : built t = b := by rw [built, hbuilding]
  rw [SQLLedger.buildBlock] at hbuild
  obtain ⟨⟨built', db⟩, htree, hbuild⟩ := bind_eq_ok_iff.mp hbuild
  obtain ⟨prevHash, hprev, hbuild⟩ := bind_eq_ok_iff.mp hbuild
  obtain rfl := Except.ok.inj hbuild
  -- the tree has a root, since the block has a transaction
  obtain ⟨db', hspec⟩ := MerkleTree.build_spec H t.ledger.db (blockKey b)
    (hleaves.resolve_left fun hne => hne rfl)
  rw [htree] at hspec
  obtain ⟨rfl, -⟩ := Prod.mk.inj (Except.ok.inj hspec)
  set root := (Ledgerdb.MerkleTree.merkleRoot H (leaves.map H)).toBase32
  set level := Ledgerdb.MerkleTree.height (leaves.map H)
  have hsame : ∀ y, IsSummary y → db.getString y = t.ledger.db.getString y := fun y hy =>
    MerkleTree.agreesOff_build htree y fun l i => hy.ne_nodeKey _ l i
  set newblock := prevHash ++ str "|" ++ root ++ str "|" ++ toDecimal level
  set digest := (H newblock).toBase32 ++ str "|" ++ toDecimal b
  have hget : ∀ y, IsSummary y → ((db.putString (blockKey b) newblock).putString (str "digest")
      digest).getString y = if y = str "digest" then some digest
        else if y = blockKey b then some newblock else t.ledger.db.getString y := fun y hy => by
    rw [DB.getString_putString, DB.getString_putString, hsame y hy]
  have hnewblock : splitBy newblock 124 = [prevHash, root, toDecimal level] :=
    splitBy_fields (not_mem_of_mem_splitBy (mem_of_at? hprev)) (noBar_toBase32 _) (noBar_toDecimal _)
  have hdigest : splitBy digest 124 = [(H newblock).toBase32, toDecimal b] :=
    splitBy_pair (noBar_toBase32 _) (noBar_toDecimal _)
  constructor
  · exact h.pre
  · exact h.index
  · trivial
  · intro j hj
    have hne := (digest_ne_blockKey j).symm
    show IsBlock (DB.getString _ _)
    rw [hget _ (Or.inr ⟨j, rfl⟩), if_neg hne]
    by_cases hjb : j = b
    · rw [if_pos (congrArg blockKey hjb)]
      exact ⟨newblock, prevHash, root, level, rfl, hnewblock⟩
    · rw [if_neg fun heq => hjb (blockKey_inj.mp heq)]
      have hj' : j < t.ledger.blockSeq := hj
      exact h.block j (by omega)
  · intro j hj
    have hj' : t.ledger.blockSeq ≤ j := hj
    show DB.getString _ _ = none
    rw [hget _ (Or.inr ⟨j, rfl⟩), if_neg (digest_ne_blockKey j).symm,
      if_neg fun heq => by have := blockKey_inj.mp heq; omega]
    exact h.fresh j (by omega)
  · show IsDigest (DB.getString _ _) t.ledger.blockSeq
    rw [hget _ (Or.inl rfl), if_pos rfl, ← hb]
    exact ⟨digest, _, rfl, hdigest⟩

/-- **Every step** leaves the finished blocks readable. -/
theorem step (h : Readable t) (hstep : Sqlledger.step H cfg t a = some t') : Readable t' := by
  cases stepped_of_step hstep with
  | beginSet hidle hdocs => exact h.keeps rfl h.index h.underway rfl fun _ _ => rfl
  | putDocument hstoring =>
    refine h.keeps rfl h.index h.underway rfl fun y hy => ?_
    exact (DB.getString_putString ..).trans (if_neg (hy.ne_histKey _ _))
  | setIndexed hstoring hset =>
    obtain ⟨hpre, hagree⟩ := Qldb.QLBTree.agreeOff_set hset
    refine h.keeps hpre h.index h.underway rfl fun y hy => ?_
    apply hagree.getString
    rw [h.pre]
    exact hy.not_isName
  | appendLog hlogging hchunk => exact h.keeps rfl h.index h.underway rfl fun _ _ => rfl
  | endSet hadvancing => exact h.keeps rfl h.index h.underway rfl fun _ _ => rfl
  | cutBlock hsleeping hbuffer =>
    refine h.keeps rfl ?_ ⟨rfl, Or.inl hbuffer⟩ ?_ fun _ _ => rfl
    · show (t.ledger.logger.idx ++ [_]).map IndexEntry.block = _
      rw [List.map_append, h.index, List.range_succ]
      rfl
    · simp only [built, hsleeping]
  | buildTxn hbuilding hbuild =>
    have hunder := h.underway
    rw [hbuilding] at hunder
    rw [buildTxn] at hbuild
    obtain ⟨⟨built', db⟩, htree, hbuild⟩ := bind_eq_ok_iff.mp hbuild
    obtain rfl := Except.ok.inj hbuild
    refine h.keeps rfl h.index ⟨hunder.1, Or.inr (by simp)⟩ (by simp only [built, hbuilding])
      fun y hy => ?_
    exact (DB.getString_putString ..).trans ((if_neg (hy.ne_txnKey _)).trans
      (MerkleTree.agreesOff_build htree y fun l i => hy.ne_nodeKey _ l i))
  | buildBlock hbuilding hbuild => exact h.buildBlock hbuilding hbuild

/-- **In a run** the finished blocks stay readable. -/
theorem runs {steps : List Step}
    (hrun : Run.runs (Sqlledger.step H cfg) Sqlledger.start steps = some t) : Readable t :=
  Run.runs_inv start (fun _ _ _ h hstep => h.step hstep) hrun

end Readable

/-! ### `GetDigest` -/

variable {s : SQLLedger} {n : ℕ}

/-- Before a block is finished, the digest has one field only. -/
theorem splitBy_digest_of_none {v : Option Bytes} (h : IsDigest v 0) :
    splitBy (v.getD []) 124 = [[]] := by
  obtain rfl : v = none := h
  rfl

theorem getDigest_zero (h : IsDigest (s.db.getString (str "digest")) 0) :
    s.getDigest = .error .outOfRange := by
  simp only [getDigest, splitBy_digest_of_none h, at?, List.getElem?_cons_zero,
    List.getElem?_cons_succ, List.getElem?_nil, ok_bind, error_bind]

theorem getDigest_succ (h : IsDigest (s.db.getString (str "digest")) (n + 1)) :
    ∃ hash, s.getDigest = .ok (n, hash) := by
  obtain ⟨digest, hash, hdigest, hsplit⟩ := h
  refine ⟨hash, ?_⟩
  simp only [getDigest, hdigest, Option.getD_some, hsplit, at?, List.getElem?_cons_zero,
    List.getElem?_cons_succ, ok_bind, stoul_toDecimal]
  rfl

/-- **`GetDigest` returns** exactly when a block is finished. -/
theorem exists_getDigest (h : IsDigest (s.db.getString (str "digest")) n) :
    (∃ r, s.getDigest = .ok r) ↔ 0 < n := by
  cases n with
  | zero =>
    rw [getDigest_zero h]
    constructor
    · rintro ⟨r, hr⟩
      cases hr
    · exact fun hlt => absurd hlt (Nat.lt_irrefl 0)
  | succ n =>
    obtain ⟨hash, hr⟩ := getDigest_succ h
    exact ⟨fun _ => Nat.succ_pos n, fun _ => ⟨_, hr⟩⟩

/-! ### `getAudit` -/

/-- Only the first block is parsed. -/
theorem auditBlocks_ok {db : DB} {blockAddr : ℕ} (h : IsBlock (db.getString (blockKey blockAddr))) :
    ∀ is : List ℕ, ∃ blks, auditBlocks db blockAddr is = .ok blks
  | [] => ⟨[], rfl⟩
  | i :: is => by
    obtain ⟨blks, hrest⟩ := auditBlocks_ok h is
    by_cases hi : i = blockAddr
    · obtain ⟨block, prevHash, rootHash, level, hblock, hsplit⟩ := h
      refine ⟨block :: blks, ?_⟩
      simp only [auditBlocks, hrest, hi, hblock, Option.getD_some, hsplit, at?,
        List.getElem?_cons_zero, List.getElem?_cons_succ, ok_bind, stoul_toDecimal]
      rfl
    · exact ⟨_, by rw [auditBlocks]; simp only [if_neg hi, hrest]; rfl⟩

/-- A block that is not stored has one field only. -/
theorem auditBlocks_error {db : DB} {blockAddr : ℕ} (h : db.getString (blockKey blockAddr) = none) :
    ∀ {is : List ℕ}, blockAddr ∈ is → auditBlocks db blockAddr is = .error .outOfRange
  | [], hmem => absurd hmem List.not_mem_nil
  | i :: is, hmem => by
    rw [auditBlocks]
    by_cases hi : i = blockAddr
    · rw [hi, h]
      simp only [if_true]
      rfl
    · rcases List.mem_cons.mp hmem with rfl | hmem
      · exact absurd rfl hi
      · simp only [if_neg hi, auditBlocks_error h hmem]
        rfl

/-- The number of the last of `n` finished blocks, as `getAudit` compares it with the others. -/
def auditTip (n : ℕ) : ℕ := (toInt (n - 1) % 2 ^ 64).toNat

/-- The arguments for which `getAudit` returns, when `n` of `blockSeq` blocks are finished. -/
def Auditable (n blockSeq seq : ℕ) : Prop :=
  0 < n ∧ seq % 2 ^ 59 < blockSeq ∧ auditTip n + 1 ≠ 2 ^ 64 ∧
    (seq % 2 ^ 59 ≤ auditTip n → seq % 2 ^ 59 < n)

namespace Readable

theorem length_idx (h : Readable t) : t.ledger.logger.idx.length = t.ledger.blockSeq := by
  rw [← List.length_map, h.index, List.length_range]

theorem read_ok (h : Readable t) {seq : ℕ} (hseq : seq < t.ledger.blockSeq) :
    ∃ txns, t.ledger.logger.read seq = .ok (txns, seq) := by
  have hlt : seq < t.ledger.logger.idx.length := by rwa [h.length_idx]
  have hblock : (t.ledger.logger.idx[seq]).block = seq := by
    have hget : (t.ledger.logger.idx.map IndexEntry.block)[seq]? = some seq := by
      rw [h.index, List.getElem?_range hseq]
    rw [List.getElem?_map, List.getElem?_eq_getElem hlt] at hget
    exact Option.some.inj hget
  rw [Logger.read, at?_of_lt hlt, ok_bind, hblock]
  exact ⟨_, rfl⟩

theorem read_error (h : Readable t) {seq : ℕ} (hseq : t.ledger.blockSeq ≤ seq) :
    t.ledger.logger.read seq = .error .outOfRange := by
  rw [Logger.read, at?, List.getElem?_eq_none (by rwa [h.length_idx])]
  rfl

/-- What is left when the log has the block and the digest names a finished one: the blocks. -/
theorem getAudit_succ (h : Readable t) (hbuilt : built t = n + 1) {seq : ℕ}
    (hseq : seq % 2 ^ 59 < t.ledger.blockSeq) (htip : auditTip (n + 1) + 1 ≠ 2 ^ 64) :
    ∃ txns digest, t.ledger.getAudit seq = (do
      let blks ← auditBlocks t.ledger.db (seq % 2 ^ 59)
        (List.range' (seq % 2 ^ 59) (auditTip (n + 1) + 1 - seq % 2 ^ 59))
      return { blks, txns, digest, blockSeq := seq % 2 ^ 59 }) := by
  have hdig := h.digest
  rw [hbuilt] at hdig
  obtain ⟨digest, hash, hdigest, hsplit⟩ := hdig
  obtain ⟨txns, hread⟩ := h.read_ok hseq
  refine ⟨txns, hash, ?_⟩
  rw [getAudit, hread, ok_bind]
  rw [auditTip, Nat.add_sub_cancel] at htip ⊢
  simp only [hdigest, Option.getD_some, hsplit, at?, List.getElem?_cons_zero,
    List.getElem?_cons_succ, ok_bind, stoul_toDecimal, if_neg htip]

/-- **`getAudit` returns** exactly for these. -/
theorem exists_getAudit (h : Readable t) (seq : ℕ) :
    (∃ a, t.ledger.getAudit seq = .ok a) ↔ Auditable (built t) t.ledger.blockSeq seq := by
  have herror : ∀ {e : Fault}, t.ledger.getAudit seq = .error e →
      ¬ ∃ a, t.ledger.getAudit seq = .ok a := by
    rintro e he ⟨a, ha⟩
    rw [he] at ha
    cases ha
  rw [Auditable]
  rcases Nat.lt_or_ge (seq % 2 ^ 59) t.ledger.blockSeq with hseq | hseq
  swap
  · apply iff_of_false (herror (e := .outOfRange) _) fun hcond =>
      absurd hcond.2.1 (Nat.not_lt.mpr hseq)
    rw [getAudit, h.read_error hseq, error_bind]
  obtain ⟨txns, hread⟩ := h.read_ok hseq
  cases hbuilt : built t with
  | zero =>
    have hdig := h.digest
    rw [hbuilt] at hdig
    apply iff_of_false (herror (e := .outOfRange) _) fun hcond => Nat.lt_irrefl 0 hcond.1
    rw [getAudit, hread, ok_bind]
    simp only [splitBy_digest_of_none hdig, at?, List.getElem?_cons_zero,
      List.getElem?_cons_succ, List.getElem?_nil, ok_bind, error_bind]
  | succ n =>
    by_cases htip : auditTip (n + 1) + 1 = 2 ^ 64
    · apply iff_of_false (herror (e := .diverges) _) fun hcond => hcond.2.2.1 htip
      have hdig := h.digest
      rw [hbuilt] at hdig
      obtain ⟨digest, hash, hdigest, hsplit⟩ := hdig
      rw [getAudit, hread, ok_bind]
      rw [auditTip, Nat.add_sub_cancel] at htip
      simp only [hdigest, Option.getD_some, hsplit, at?, List.getElem?_cons_zero,
        List.getElem?_cons_succ, ok_bind, stoul_toDecimal, if_pos htip]
      rfl
    · obtain ⟨txns', digest, heq⟩ := h.getAudit_succ hbuilt hseq htip
      rw [heq]
      by_cases hle : seq % 2 ^ 59 ≤ auditTip (n + 1)
      · by_cases hlt : seq % 2 ^ 59 < n + 1
        · obtain ⟨blks, hblks⟩ := auditBlocks_ok (h.block _ (hbuilt ▸ hlt))
            (List.range' (seq % 2 ^ 59) (auditTip (n + 1) + 1 - seq % 2 ^ 59))
          rw [hblks]
          exact iff_of_true ⟨_, rfl⟩ ⟨Nat.succ_pos n, hseq, htip, fun _ => hlt⟩
        · have hmem : seq % 2 ^ 59 ∈
              List.range' (seq % 2 ^ 59) (auditTip (n + 1) + 1 - seq % 2 ^ 59) := by
            rw [List.mem_range'_1]
            omega
          rw [auditBlocks_error (h.fresh _ (hbuilt ▸ Nat.not_lt.mp hlt)) hmem, error_bind]
          apply iff_of_false _ fun hcond => hlt (hcond.2.2.2 hle)
          rintro ⟨a, ha⟩
          cases ha
      · -- the block comes after those that the digest covers
        rw [Nat.sub_eq_zero_of_le (Nat.not_le.mp hle)]
        exact iff_of_true ⟨_, rfl⟩ ⟨Nat.succ_pos n, hseq, htip, fun hcond => absurd hcond hle⟩

end Readable

/-! ### Both ledgers -/

section

open Ledgerdb.LedgerDB (AsciiSteps runChunks TextKey World Act getProofs HashOk hashOne wholeStep)

/-- **The functions that read return** in every reachable state for these arguments, and outside of
them they do not: `GetProofs` for ASCII keys with a block each, once there is a commit, `GetAudit`
for the number of a commit, `GetDigest` once a block is finished, and `getAudit` for auditable
blocks. -/
theorem reads_return_iff (H : Bytes → Hash) (cfg : Qldb.BPlusConfig)
    (script : List Ledgerdb.LedgerDB.Step) (hascii : AsciiSteps script)
    (hinj : Set.InjOn H {c | c ∈ runChunks H script})
    (htext : ∀ c ∈ runChunks H script, ¬ TextKey (H c).bytes) (w : World)
    (hreach : Relation.ReflTransGen (Act H) { todo := script } w) (steps : List Step) (t : Threads)
    (hrun : Run.runs (step H cfg) start steps = some t) :
    (∀ keys blks, (∀ k ∈ keys, Ledgerdb.Mpt.Ascii k) →
      ((∃ p, (w.ledger.db.reads (getProofs H keys blks)).1 = .ok p) ↔
        0 < w.ledger.commitSeq ∧ keys.length ≤ blks.length)) ∧
    (∀ seq, (seq < w.ledger.commitSeq →
        ∃ a, (w.ledger.db.reads (Ledgerdb.LedgerDB.getAudit H seq)).1 = .ok a) ∧
      (w.writes = [] → w.ledger.commitSeq ≤ seq →
        (w.ledger.db.reads (Ledgerdb.LedgerDB.getAudit H seq)).1 = .error .invalidArgument)) ∧
    ((∃ r, t.ledger.getDigest = .ok r) ↔ 0 < built t) ∧
    (∀ seq, (∃ a, t.ledger.getAudit seq = .ok a) ↔ Auditable (built t) t.ledger.blockSeq seq) := by
  have hH : HashOk H {c | c ∈ runChunks H script} := ⟨hinj, htext, List.mem_cons_self⟩
  have hchunks := @Ledgerdb.LedgerDB.chunks_of_runChunks H script
  have hreadable := Readable.runs hrun
  refine ⟨?_, ?_, ?_, ?_⟩
  · intro keys blks hkeys
    exact Ledgerdb.LedgerDB.exists_getProofs hH hascii hchunks hreach hkeys blks
  · intro seq
    constructor
    · exact Ledgerdb.LedgerDB.exists_getAudit hH hascii hchunks hreach
    · exact fun hwrites hseq =>
        Ledgerdb.LedgerDB.getAudit_error hH hascii hchunks hreach hwrites hseq
  · exact exists_getDigest hreadable.digest
  · exact hreadable.exists_getAudit

/-- With one commit and one block both audits and the digest are there. -/
theorem reads_return_iff_oneBlock :
    AsciiSteps Ledgerdb.LedgerDB.oneBlock ∧ ∃ (w : World) (t : Threads),
      Relation.ReflTransGen (Act hashOne) { todo := Ledgerdb.LedgerDB.oneBlock } w ∧
      Run.runs (step hashOne {}) start oneBlock = some t ∧
      (∃ p, (w.ledger.db.reads (getProofs hashOne [str "a"] [1])).1 = .ok p) ∧
      (∃ a, (w.ledger.db.reads (Ledgerdb.LedgerDB.getAudit hashOne 0)).1 = .ok a) ∧
      (∃ r, t.ledger.getDigest = .ok r) ∧ ∃ a, t.ledger.getAudit 0 = .ok a := by
  refine ⟨Ledgerdb.LedgerDB.ascii_oneBlock, ?_⟩
  have hworld : (Ledgerdb.LedgerDB.oneBlock.foldlM (wholeStep hashOne) {}).toOption.any
      (fun s => decide (0 < s.commitSeq)) = true := by decide +kernel
  rcases hsteps : Ledgerdb.LedgerDB.oneBlock.foldlM (wholeStep hashOne) {} with e | s
  · rw [hsteps] at hworld
    cases hworld
  rw [hsteps] at hworld
  have hpos : 0 < s.commitSeq := of_decide_eq_true hworld
  have hthreads : (Run.runs (step hashOne {}) start oneBlock).any
      (fun t => built t == 1 && t.ledger.blockSeq == 1) = true := by decide +kernel
  rcases hrun : Run.runs (step hashOne {}) start oneBlock with _ | t
  · rw [hrun] at hthreads
    cases hthreads
  rw [hrun] at hthreads
  obtain ⟨hbuilt, hseq⟩ := Bool.and_eq_true_iff.mp hthreads
  have hbuilt : built t = 1 := beq_iff_eq.mp hbuilt
  have hseq : t.ledger.blockSeq = 1 := beq_iff_eq.mp hseq
  have hreach := Ledgerdb.LedgerDB.reach_wholeSteps hashOne hsteps
  obtain ⟨hproofs, haudit, hdigest, haudit'⟩ := reads_return_iff hashOne {} _
    Ledgerdb.LedgerDB.ascii_oneBlock Ledgerdb.LedgerDB.hashOk_oneBlock.inj
    Ledgerdb.LedgerDB.hashOk_oneBlock.text _ hreach oneBlock t hrun
  refine ⟨_, t, hreach, rfl, ?_, ?_, ?_, ?_⟩
  · refine (hproofs [str "a"] [1] ?_).mpr ⟨hpos, Nat.le_refl 1⟩
    intro k hk
    rw [List.mem_singleton.mp hk]
    unfold Ledgerdb.Mpt.Ascii
    decide +kernel
  · exact (haudit 0).1 hpos
  · exact hdigest.mpr (by omega)
  · refine (haudit' 0).mpr ?_
    rw [hbuilt, hseq]
    exact ⟨by decide, by decide, by decide, fun _ => by decide⟩

/-- On a new store all four functions fail. -/
theorem reads_fail_at_start :
    Relation.ReflTransGen (Act hashOne) { todo := [] } { todo := [] } ∧
      (DB.reads (getProofs hashOne [str "a"] [1]) {}).1
        = .error .invalidArgument ∧
      (DB.reads (Ledgerdb.LedgerDB.getAudit hashOne 0) {}).1
        = .error .invalidArgument ∧
      Run.runs (step hashOne {}) start [] = some start ∧
      start.ledger.getDigest = .error .outOfRange ∧ start.ledger.getAudit 0 = .error .outOfRange :=
  ⟨.refl, rfl, rfl, rfl, rfl, rfl⟩

end

end LedgerDatabase.Sqlledger
