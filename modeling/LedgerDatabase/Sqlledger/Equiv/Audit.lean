import LedgerDatabase.Qldb.Equiv.Merkle
import LedgerDatabase.Sqlledger.Equiv.BlockChain

/-!
# The audit of a block

The auditor takes the transactions of a block from the log and builds their trees again.  `Set` logs
the number before that of the transaction, and the documents and the entry of a transaction have its
number in them, so the auditor never gets the entries of the block.  `not_audit`: in a run in which no
block is cut in the middle of a call of `Set` no audit returns `true`, unless two strings have the same
hash.
-/

namespace LedgerDatabase.Sqlledger

open Frames (stream)
open Ledgerdb (NoBar noBar_toDecimal)
open Ledgerdb.MerkleTree (hashLevel hashLevel_height merkleRoot height)
open Ledgerdb.Mpt (Collision injOn_of_not_collision)
open Qldb (treeNodes mem_treeNodes eq_of_hashLevel_eq)
open SQLLedger

variable {H : Bytes → Hash} {cfg : Qldb.BPlusConfig} {t : Threads} {taken : List Block}

/-! ### Roots -/

/-- What is hashed for the tree over some leaves. -/
def hashed (H : Bytes → Hash) (leaves : List Bytes) : List Bytes :=
  leaves ++ treeNodes H (leaves.map H)

theorem hashLevel_add (l k : ℕ) (xs : List Hash) :
    hashLevel H l (hashLevel H k xs) = hashLevel H (l + k) xs :=
  (Function.iterate_add_apply ..).symm

/-- **Of two trees with the same root** the leaves of the lower one are a level of the other one. -/
theorem eq_hashLevel_of_merkleRoot_eq {S : Set Bytes} (hinj : Set.InjOn H S) {xs ys : List Hash}
    (hxs : ∀ s ∈ treeNodes H xs, s ∈ S) (hys : ∀ s ∈ treeNodes H ys, s ∈ S) (hne : xs ≠ [])
    (hne' : ys ≠ []) (hle : height xs ≤ height ys) (h : merkleRoot H xs = merkleRoot H ys) :
    xs = hashLevel H (height ys - height xs) ys := by
  apply eq_of_hashLevel_eq H hinj (L := height xs)
  · exact fun l hl s hs => hxs s (mem_treeNodes H hl hs)
  · intro l hl s hs
    rw [Qldb.nodes, hashLevel_add] at hs
    exact hys s (mem_treeNodes H (l := l + (height ys - height xs)) (by omega) hs)
  · rw [hashLevel_add, Nat.add_sub_cancel' hle, hashLevel_height H hne, hashLevel_height H hne', h]

/-- So they are the leaves of the other one, or inner nodes of it. -/
theorem leaves_of_merkleRoot_eq {S : Set Bytes} (hinj : Set.InjOn H S) {leaves leaves' : List Bytes}
    (hS : ∀ s ∈ hashed H leaves, s ∈ S) (hS' : ∀ s ∈ hashed H leaves', s ∈ S)
    (hne : leaves ≠ []) (hne' : leaves' ≠ [])
    (hle : height (leaves.map H) ≤ height (leaves'.map H))
    (h : merkleRoot H (leaves.map H) = merkleRoot H (leaves'.map H)) :
    (height (leaves.map H) = height (leaves'.map H) ∧ leaves = leaves') ∨
      height (leaves.map H) < height (leaves'.map H) ∧
        ∀ s ∈ leaves, s ∈ treeNodes H (leaves'.map H) := by
  have hlevel := eq_hashLevel_of_merkleRoot_eq hinj
    (fun s hs => hS s (List.mem_append_right _ hs)) (fun s hs => hS' s (List.mem_append_right _ hs))
    (by simpa using hne) (by simpa using hne') hle h
  have hmem : ∀ s ∈ leaves, s ∈ S := fun s hs => hS s (List.mem_append_left _ hs)
  cases hk : height (leaves'.map H) - height (leaves.map H) with
  | zero =>
    rw [hk] at hlevel
    left
    refine ⟨by omega, PairTree.eq_of_map_eq hinj hmem ?_ hlevel⟩
    exact fun s hs => hS' s (List.mem_append_left _ hs)
  | succ k =>
    rw [hk, Qldb.hashLevel_succ_eq] at hlevel
    have hnode : ∀ s ∈ Qldb.nodes H k (leaves'.map H), s ∈ treeNodes H (leaves'.map H) :=
      fun s hs => mem_treeNodes H (by omega) hs
    right
    refine ⟨by omega, ?_⟩
    rw [PairTree.eq_of_map_eq hinj hmem
      (fun s hs => hS' s (List.mem_append_right _ (hnode s hs))) hlevel]
    exact hnode

/-- **Trees of one size with the same root** have the same leaves. -/
theorem eq_of_merkleRoot_eq {S : Set Bytes} (hinj : Set.InjOn H S) {leaves leaves' : List Bytes}
    (hS : ∀ s ∈ hashed H leaves, s ∈ S) (hS' : ∀ s ∈ hashed H leaves', s ∈ S)
    (hne : leaves ≠ []) (hlen : leaves.length = leaves'.length)
    (h : merkleRoot H (leaves.map H) = merkleRoot H (leaves'.map H)) : leaves = leaves' := by
  have hne' : leaves' ≠ [] := by
    rintro rfl
    exact hne (List.length_eq_zero_iff.mp hlen)
  have hheight : height (leaves.map H) = height (leaves'.map H) := by
    rw [height, height, List.length_map, List.length_map, hlen]
  rcases leaves_of_merkleRoot_eq hinj hS hS' hne hne' hheight.le h with ⟨-, heq⟩ | ⟨hlt, -⟩
  · exact heq
  · exact absurd hheight hlt.ne

/-! ### Entries -/

theorem noBar_txnKey (tid : ℕ) : NoBar (txnKey tid) := by
  rw [NoBar, txnKey, List.mem_append, not_or]
  exact ⟨by decide, noBar_toDecimal tid⟩

theorem txnKey_inj {m n : ℕ} : txnKey m = txnKey n ↔ m = n := by
  rw [txnKey, txnKey, List.append_cancel_left_eq, toDecimal_inj]

theorem splitBy_txnEntry (b i : ℕ) (txn : Txn) : splitBy (txnEntry H b i txn) 124 =
    [txnKey txn.1, toDecimal b, toDecimal i, (rootOf H txn.2).2, (rootOf H txn.2).1] := by
  have hjoin : txnEntry H b i txn = txnKey txn.1 ++ 124 :: (toDecimal b ++ 124 :: (toDecimal i ++
      str "|" ++ (rootOf H txn.2).2 ++ str "|" ++ (rootOf H txn.2).1)) := by
    simp [txnEntry, show str "|" = [124] from rfl]
  have hone {x : Bytes} (hx : NoBar x) : splitBy x 124 = [x] := List.splitOn_eq_singleton hx
  rw [hjoin, splitBy_append, splitBy_append,
    splitBy_fields (noBar_toDecimal i) (noBar_rootOf _).2 (noBar_rootOf _).1, hone (noBar_txnKey _),
    hone (noBar_toDecimal b)]
  rfl

/-- An entry has the number of its transaction. -/
theorem fst_of_txnEntry_eq {b i b' i' : ℕ} {txn txn' : Txn}
    (h : txnEntry H b i txn = txnEntry H b' i' txn') : txn.1 = txn'.1 := by
  have hsplit := congrArg (splitBy · 124) h
  simp only [splitBy_txnEntry] at hsplit
  exact txnKey_inj.mp (List.cons.inj hsplit).1

/-! ### What the auditor builds -/

/-- The transaction that the auditor makes from an entry of the log. -/
def auditedTxn (b : ℕ) (e : TxnEntry) : Txn := (e.txnid.toNat, Auditor.documents b e)

theorem buildTxns_eq {b : ℕ} : ∀ {j : ℕ} {ts : List TxnEntry} {db : DB} {r : List Bytes × DB},
    Auditor.buildTxns H b j ts db = .ok r →
      r.1 = (ts.map (auditedTxn b)).mapIdx fun i => txnEntry H b (j + i)
  | _, [], _, _, h => by
    rw [← Except.ok.inj h]
    rfl
  | j, e :: ts, db, r, h => by
    rw [Auditor.buildTxns] at h
    obtain ⟨⟨built, db₁⟩, htree, h⟩ := bind_eq_ok_iff.mp h
    simp only [builtOrEmpty_build htree] at h
    obtain ⟨⟨buffer, db₂⟩, hrest, h⟩ := bind_eq_ok_iff.mp h
    have hbuffer : buffer = _ := buildTxns_eq hrest
    rw [← Except.ok.inj h, List.map_cons, List.mapIdx_cons, hbuffer]
    simp only [Nat.add_zero, Nat.add_right_comm, Nat.add_assoc]
    rfl

/-- The root that the walk over the blocks ends with is that of the oldest one. -/
theorem root_of_walkBlocks {blks : List Bytes} : ∀ {target root r : Bytes},
    Auditor.walkBlocks H target root blks = .ok (some r) →
      (blks = [] ∧ r = root) ∨ ∃ blk, blks.getLast? = some blk ∧ at? (splitBy blk 124) 1 = .ok r := by
  induction blks with
  | nil =>
    intro target root r h
    exact Or.inl ⟨rfl, (Option.some.inj (Except.ok.inj h)).symm⟩
  | cons blk blks ih =>
    intro target root r h
    rw [Auditor.walkBlocks] at h
    split_ifs at h with htarget
    · cases Except.ok.inj h
    · obtain ⟨target', -, h⟩ := bind_eq_ok_iff.mp h
      obtain ⟨root', hroot, h⟩ := bind_eq_ok_iff.mp h
      right
      rcases ih h with ⟨rfl, rfl⟩ | ⟨last, hlast, hr⟩
      · exact ⟨blk, rfl, hroot⟩
      · refine ⟨last, ?_, hr⟩
        rw [List.getLast?_cons, hlast]
        rfl

/-- What `true` says: the root that the log gives is that of the walk. -/
theorem of_audit {a : Auditor} {db db' : DB} {n : ℕ} (h : a.audit H db = .ok (true, n, db')) :
    ∃ root ts, Auditor.walkBlocks H a.digest [] a.blks.reverse = .ok (some root) ∧
      TxnEntry.parseTxnEntries a.txns = .ok ts ∧
      root = (rootOf H (txnEntries H (a.blockSeq, ts.map (auditedTxn a.blockSeq)))).2 := by
  rw [Auditor.audit] at h
  obtain ⟨walk, hwalk, h⟩ := bind_eq_ok_iff.mp h
  cases walk with
  | none => cases h
  | some root =>
    obtain ⟨ts, hts, h⟩ := bind_eq_ok_iff.mp h
    obtain ⟨⟨buffer, db₁⟩, hbuffer, h⟩ := bind_eq_ok_iff.mp h
    obtain ⟨⟨built, db₂⟩, htree, h⟩ := bind_eq_ok_iff.mp h
    simp only [builtOrEmpty_build htree] at h
    have hleaves : buffer = txnEntries H (a.blockSeq, ts.map (auditedTxn a.blockSeq)) := by
      have heq : buffer = _ := buildTxns_eq hbuffer
      simp only [Nat.zero_add] at heq
      exact heq
    have hroot := (Prod.mk.inj (Except.ok.inj h)).1
    rw [beq_iff_eq, hleaves] at hroot
    exact ⟨root, ts, hwalk, hts, hroot.symm⟩

/-! ### What `getAudit` collects -/

theorem auditBlocks_eq {db : DB} {b : ℕ} : ∀ {is : List ℕ} {blks : List Bytes},
    auditBlocks db b is = .ok blks → blks = is.map fun i => (db.getString (blockKey i)).getD []
  | [], _, h => (Except.ok.inj h).symm
  | i :: is, blks, h => by
    have hcons {rest : List Bytes} (hrest : auditBlocks db b is = .ok rest)
        (h : (db.getString (blockKey i)).getD [] :: rest = blks) :
        blks = (i :: is).map fun i => (db.getString (blockKey i)).getD [] := by
      rw [← h, List.map_cons, auditBlocks_eq hrest]
    rw [auditBlocks] at h
    by_cases hi : i = b
    · simp only [if_pos hi, bind_eq_ok_iff] at h
      obtain ⟨_, -, _, -, _, -, rest, hrest, h⟩ := h
      exact hcons hrest (Except.ok.inj h)
    · simp only [if_neg hi, bind_eq_ok_iff] at h
      obtain ⟨rest, hrest, h⟩ := h
      exact hcons hrest (Except.ok.inj h)

theorem forall₂_mem_left {α β : Type} {R : α → β → Prop} {as : List α} {bs : List β} {a : α}
    (h : List.Forall₂ R as bs) (ha : a ∈ as) : ∃ b ∈ bs, R a b := by
  induction h with
  | nil => exact absurd ha List.not_mem_nil
  | cons hab _ ih =>
    rcases List.mem_cons.mp ha with rfl | ha
    · exact ⟨_, List.mem_cons_self, hab⟩
    · obtain ⟨b, hb, hR⟩ := ih ha
      exact ⟨b, List.mem_cons_of_mem _ hb, hR⟩

/-- The log that an audit gets has the entries of a block. -/
theorem LogInv.of_read {s : Threads × List Block} (h : LogInv s) {seq addr : ℕ} {txns : Bytes}
    (hread : s.1.ledger.logger.read seq = .ok (txns, addr)) :
    ∃ b ∈ s.2, b.1 = addr ∧ ∃ ts, TxnEntry.parseTxnEntries txns = .ok ts ∧
      List.Forall₂ (Logged b.1) ts b.2 := by
  obtain ⟨done, pending, hagree, hreached⟩ := h
  obtain ⟨l, data, hl, hlog⟩ := hreached.holds
  rw [hlog, Logger.read] at hread
  obtain ⟨e, he, hread⟩ := bind_eq_ok_iff.mp hread
  obtain ⟨rfl, rfl⟩ := Prod.mk.inj (Except.ok.inj hread)
  obtain ⟨d, hd, hnames⟩ := forall₂_mem_left hl.names (mem_of_at? he)
  obtain ⟨b, hb, hagree⟩ := forall₂_mem_left hagree hd
  refine ⟨b, hb, hagree.block.symm.trans hnames.1.symm, d.2, ?_, hagree.records⟩
  exact parse_of_names (hnames.append data) hagree.fits

/-- **What `getAudit` collects**: the log of a block and the blocks from it on. -/
theorem of_getAudit {s : SQLLedger} {seq : ℕ} {a : Auditor} (h : s.getAudit seq = .ok a) :
    s.logger.read (seq % 2 ^ 59) = .ok (a.txns, a.blockSeq) ∧
      ∃ n, a.blks = (List.range' a.blockSeq n).map fun i => (s.db.getString (blockKey i)).getD [] := by
  rw [getAudit] at h
  obtain ⟨⟨txns, addr⟩, hread, h⟩ := bind_eq_ok_iff.mp h
  obtain ⟨digest, -, h⟩ := bind_eq_ok_iff.mp h
  obtain ⟨field, -, h⟩ := bind_eq_ok_iff.mp h
  obtain ⟨tip, -, h⟩ := bind_eq_ok_iff.mp h
  simp only at h
  split_ifs at h with htip
  · cases h
  · obtain ⟨blks, hblks, h⟩ := bind_eq_ok_iff.mp h
    obtain rfl := Except.ok.inj h
    exact ⟨hread, _, auditBlocks_eq hblks⟩

/-! ### Runs -/

theorem length_txnEntries (b : Block) : (txnEntries H b).length = b.2.length := by
  rw [txnEntries, List.length_mapIdx]

/-- The number in the log is never that of the transaction. -/
theorem Logged.txnid_ne {b : ℕ} {e : TxnEntry} {txn : Txn} (h : Logged b e txn) :
    txn.1 ≠ e.txnid.toNat := by
  have hnumber : e.txnid.toNat = subSize txn.1 1 % 2 ^ 64 := by
    rw [h.2]
    rfl
  rw [hnumber, subSize]
  split_ifs <;> omega

/-- The entries of the auditor are not those of the block. -/
theorem entries_ne {b : Block} {ts : List TxnEntry} (hne : b.2 ≠ [])
    (hlogged : List.Forall₂ (Logged b.1) ts b.2) :
    txnEntries H b ≠ txnEntries H (b.1, ts.map (auditedTxn b.1)) := by
  intro heq
  obtain ⟨b, txns⟩ := b
  rw [txnEntries, txnEntries] at heq
  simp only at hne hlogged heq
  cases hlogged with
  | nil => exact hne rfl
  | cons hfirst hrest =>
    rw [List.map_cons, List.mapIdx_cons, List.mapIdx_cons] at heq
    exact hfirst.txnid_ne (fst_of_txnEntry_eq (List.cons.inj heq).1)

/-- The record of a finished block has the root over its entries. -/
theorem Recorded.splitBy_record {s : Threads × List Block} (h : Recorded H s) {b : Block}
    (hb : b ∈ s.2) {r : Bytes} (hr : s.1.ledger.db.getString (blockKey b.1) = some r) :
    ∃ prevHash, splitBy r 124 =
      [prevHash, (rootOf H (txnEntries H b)).2, (rootOf H (txnEntries H b)).1] := by
  have hlt : b.1 < built s.1 := by
    by_contra hge
    rw [h.readable.fresh _ (Nat.not_lt.mp hge)] at hr
    cases hr
  have hget : (s.2.take (built s.1))[b.1]? = some b := by
    rw [List.getElem?_take_of_lt hlt]
    exact h.getElem?_taken hb
  have hrecord := h.record _ _ (getElem?_chain hget)
  rw [hr] at hrecord
  rw [Option.some.inj hrecord]
  exact ⟨_, splitBy_blockRecord (noBar_lastHash _) b⟩

/-- **No audit returns `true`** in a run in which no block is cut in the middle of a call of `Set`,
unless two strings that are hashed for the block and by the auditor have the same hash. -/
theorem not_audit {steps : List Step}
    (hrun : Run.runs (observed H cfg) (start, []) steps = some (t, taken))
    (hquiet : Run.Along (observed H cfg) Quiet (start, []) steps) {seq : ℕ} {a : Auditor}
    (hget : t.ledger.getAudit seq = .ok a) :
    ∃ b ∈ taken, ∃ ts, b.1 = a.blockSeq ∧ TxnEntry.parseTxnEntries a.txns = .ok ts ∧
      ts.length = b.2.length ∧ ∀ db n db', a.audit H db = .ok (true, n, db') →
        Collision H (hashed H (txnEntries H b) ++
          hashed H (txnEntries H (a.blockSeq, ts.map (auditedTxn a.blockSeq)))) := by
  have hrecorded := Recorded.runs hrun
  have hlog := Run.runs_induction_along (motive := fun _ s => LogInv s) logInv_start
    (fun _ _ _ _ _ hs hquiet hstep => hs.step hquiet hstep) hquiet hrun
  obtain ⟨hread, k, hblks⟩ := of_getAudit hget
  obtain ⟨b, hb, hnumber, ts, hts, hlogged⟩ := hlog.of_read hread
  refine ⟨b, hb, ts, hnumber, hts, hlogged.length_eq, fun db n db' haudit => ?_⟩
  obtain ⟨root, ts', hwalk, hts', hroot⟩ := of_audit haudit
  obtain rfl : ts = ts' := Except.ok.inj (hts.symm.trans hts')
  rw [← hnumber] at hblks hroot ⊢
  have hne : b.2 ≠ [] := hrecorded.nonempty b hb
  have hentries : txnEntries H b ≠ [] := by
    rw [← List.length_pos_iff, length_txnEntries]
    exact List.length_pos_iff.mpr hne
  have hlen : (txnEntries H b).length =
      (txnEntries H (b.1, ts.map (auditedTxn b.1))).length := by
    rw [length_txnEntries, length_txnEntries, List.length_map, hlogged.length_eq]
  have hentries' : txnEntries H (b.1, ts.map (auditedTxn b.1)) ≠ [] := by
    rw [← List.length_pos_iff, ← hlen]
    exact List.length_pos_iff.mpr hentries
  rw [rootOf, if_neg hentries'] at hroot
  -- the walk ends with the root of the block
  have hfield : root = (merkleRoot H ((txnEntries H b).map H)).toBase32 := by
    rcases root_of_walkBlocks hwalk with ⟨-, hnil⟩ | ⟨blk, hlast, hblk⟩
    · have hlength := congrArg List.length (hnil.symm.trans hroot)
      rw [Hash.length_toBase32] at hlength
      cases hlength
    · rw [List.getLast?_reverse, hblks] at hlast
      cases k with
      | zero => cases hlast
      | succ k =>
        rw [List.range'_succ, List.map_cons, List.head?_cons] at hlast
        obtain rfl := Option.some.inj hlast
        cases hr : t.ledger.db.getString (blockKey b.1) with
        | none =>
          rw [hr] at hblk
          cases hblk
        | some r =>
          obtain ⟨prevHash, hsplit⟩ := hrecorded.splitBy_record hb hr
          rw [hr, Option.getD_some, hsplit, rootOf, if_neg hentries] at hblk
          exact (Except.ok.inj hblk).symm
  by_contra hcol
  apply entries_ne (H := H) hne hlogged
  apply eq_of_merkleRoot_eq (injOn_of_not_collision hcol) _ _ hentries hlen
  · exact Hash.toBase32_injective (hfield.symm.trans hroot)
  · exact fun s hs => List.mem_append_left _ hs
  · exact fun s hs => List.mem_append_right _ hs

/-- A hash function that keeps the first bytes. -/
def firstBytes (data : Bytes) : Hash := ⟨leBytes kByteLength (leNat data), length_leBytes ..⟩

theorem not_audit_oneBlock : ∃ t taken a,
    Run.runs (observed firstBytes {}) (start, []) oneBlock = some (t, taken) ∧
      t.ledger.getAudit 0 = .ok a ∧
      ∃ b ∈ taken, ∃ ts, b.1 = a.blockSeq ∧ TxnEntry.parseTxnEntries a.txns = .ok ts ∧
        ts.length = b.2.length ∧ ∀ db n db', a.audit firstBytes db = .ok (true, n, db') →
          Collision firstBytes (hashed firstBytes (txnEntries firstBytes b) ++
            hashed firstBytes (txnEntries firstBytes (a.blockSeq, ts.map (auditedTxn a.blockSeq)))) := by
  have hrun : (Run.runs (observed firstBytes {}) (start, []) oneBlock).any (fun s =>
      (s.1.ledger.getAudit 0).toOption.isSome) = true := by
    decide +kernel
  have hquiet : Run.Along (observed firstBytes {}) Quiet (start, []) oneBlock := by decide +kernel
  obtain ⟨⟨t, taken⟩, hs, haudit⟩ := (Option.any_eq_true _ _).mp hrun
  obtain ⟨a, ha⟩ := Option.isSome_iff_exists.mp haudit
  exact ⟨t, taken, a, hs, eq_ok_of_toOption ha, not_audit hs hquiet (eq_ok_of_toOption ha)⟩

/-- The only block of an honest run does not pass its audit. -/
theorem audit_fails : ∃ t taken a,
    Run.runs (observed firstBytes {}) (start, []) oneBlock = some (t, taken) ∧
      Run.Along (observed firstBytes {}) Quiet (start, []) oneBlock ∧
      t.ledger.getAudit 0 = .ok a ∧
      (a.audit firstBytes {}).toOption.map (fun r => (r.1, r.2.1)) = some (false, 1) := by
  have hrun : (Run.runs (observed firstBytes {}) (start, []) oneBlock).any (fun s =>
      (s.1.ledger.getAudit 0).toOption.any fun a =>
        (a.audit firstBytes {}).toOption.map (fun r => (r.1, r.2.1)) = some (false, 1)) = true := by
    decide +kernel
  have hquiet : Run.Along (observed firstBytes {}) Quiet (start, []) oneBlock := by decide +kernel
  obtain ⟨⟨t, taken⟩, hs, haudit⟩ := (Option.any_eq_true _ _).mp hrun
  obtain ⟨a, ha, hfalse⟩ := (Option.any_eq_true _ _).mp haudit
  exact ⟨t, taken, a, hs, hquiet, eq_ok_of_toOption ha, of_decide_eq_true hfalse⟩

end LedgerDatabase.Sqlledger
