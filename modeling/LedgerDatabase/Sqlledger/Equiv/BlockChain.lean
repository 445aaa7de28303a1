import LedgerDatabase.Ledgerdb.Equiv.Mpt.VerifyProof
import LedgerDatabase.Sqlledger.Equiv.LogSegments
import LedgerDatabase.Sqlledger.Equiv.Reads

/-!
# The chain of blocks

What `updateLedger` stores depends on the transactions that it has taken only (`chain`), and the digest
names the last record of the chain (`Recorded`).  A record has the hash of the one before it as its
first field, and block 0 has an empty one, which is not the Base32 string of a hash (`Linked`).  So
`BlockProof::Verify` accepts the suffixes of the chain, and no other lists unless two records have
the same hash (`verify_iff_suffix`).
-/

namespace LedgerDatabase.Sqlledger

open Ledgerdb (NoBar noBar_toDecimal noBar_toBase32)
open Ledgerdb.MerkleTree (merkleRoot height)
open Ledgerdb.Mpt (Collision injOn_of_not_collision)
open MerkleTree (nodeKey)
open SQLLedger

/-- A transaction: its number and its documents. -/
abbrev Txn := ℕ × List Bytes

/-- A block: its number and its transactions. -/
abbrev Block := ℕ × List Txn

variable (H : Bytes → Hash)

/-! ### Records -/

/-- The level and the root hash of the tree over some leaves, which are empty for no leaves. -/
def rootOf (leaves : List Bytes) : Bytes × Bytes :=
  if leaves = [] then ([], [])
  else (toDecimal (height (leaves.map H)), (merkleRoot H (leaves.map H)).toBase32)

/-- The entry for a transaction in a block. -/
def txnEntry (b i : ℕ) (txn : Txn) : Bytes :=
  txnKey txn.1 ++ str "|" ++ toDecimal b ++ str "|" ++ toDecimal i ++ str "|" ++
    (rootOf H txn.2).2 ++ str "|" ++ (rootOf H txn.2).1

/-- The entries for the transactions of a block. -/
def txnEntries (b : Block) : List Bytes := b.2.mapIdx (txnEntry H b.1)

/-- The record of a block. -/
def blockRecord (prevHash : Bytes) (b : Block) : Bytes :=
  prevHash ++ str "|" ++ (rootOf H (txnEntries H b)).2 ++ str "|" ++ (rootOf H (txnEntries H b)).1

/-- The hash of the last record. -/
def lastHash (records : List Bytes) : Bytes :=
  match records.getLast? with
  | none => []
  | some r => (H r).toBase32

/-- The records of some blocks. -/
def chain (blocks : List Block) : List Bytes :=
  blocks.foldl (fun records b => records ++ [blockRecord H (lastHash H records) b]) []

/-- The digest after some blocks. -/
def digestOf (blocks : List Block) : Option Bytes :=
  if blocks = [] then none
  else some (lastHash H (chain H blocks) ++ str "|" ++ toDecimal (blocks.length - 1))

variable {H : Bytes → Hash} {cfg : Qldb.BPlusConfig} {t t' : Threads} {a : Step}

@[simp]
theorem chain_nil : chain H [] = [] := rfl

theorem chain_concat (blocks : List Block) (b : Block) :
    chain H (blocks ++ [b]) = chain H blocks ++ [blockRecord H (lastHash H (chain H blocks)) b] := by
  rw [chain, List.foldl_append]
  rfl

@[simp]
theorem lastHash_concat (records : List Bytes) (r : Bytes) :
    lastHash H (records ++ [r]) = (H r).toBase32 := by
  rw [lastHash, List.getLast?_concat]

@[simp]
theorem length_chain (blocks : List Block) : (chain H blocks).length = blocks.length := by
  induction blocks using List.reverseRecOn with
  | nil => rfl
  | append_singleton blocks b ih =>
    rw [chain_concat, List.length_append, ih, List.length_append]
    rfl

theorem chain_prefix {blocks blocks' : List Block} (h : blocks <+: blocks') :
    chain H blocks <+: chain H blocks' := by
  obtain ⟨rest, rfl⟩ := h
  induction rest using List.reverseRecOn with
  | nil =>
    rw [List.append_nil]
  | append_singleton rest b ih =>
    rw [← List.append_assoc, chain_concat]
    exact ih.trans (List.prefix_append _ _)

/-- The record of a block in the chain. -/
theorem getElem?_chain {blocks : List Block} {i : ℕ} {b : Block} (h : blocks[i]? = some b) :
    (chain H blocks)[i]? = some (blockRecord H (lastHash H (chain H (blocks.take i))) b) := by
  have hlt : i < blocks.length := (List.getElem?_eq_some_iff.mp h).1
  have htake : blocks.take (i + 1) = blocks.take i ++ [b] := by
    rw [List.take_add_one, h]
    rfl
  have hlen : (chain H (blocks.take i)).length = i := by
    rw [length_chain, List.length_take_of_le hlt.le]
  obtain ⟨rest, hrest⟩ := chain_prefix (H := H) (List.take_prefix (i + 1) blocks)
  rw [← hrest, htake, chain_concat, List.append_assoc, List.getElem?_append_right hlen.le, hlen,
    Nat.sub_self]
  rfl

theorem noBar_lastHash (records : List Bytes) : NoBar (lastHash H records) := by
  rw [lastHash]
  split
  · exact List.not_mem_nil
  · exact noBar_toBase32 _

theorem noBar_rootOf (leaves : List Bytes) :
    NoBar (rootOf H leaves).1 ∧ NoBar (rootOf H leaves).2 := by
  rw [rootOf]
  split_ifs
  · exact ⟨List.not_mem_nil, List.not_mem_nil⟩
  · exact ⟨noBar_toDecimal _, noBar_toBase32 _⟩

theorem splitBy_blockRecord {prevHash : Bytes} (hprev : NoBar prevHash) (b : Block) :
    splitBy (blockRecord H prevHash b) 124 =
      [prevHash, (rootOf H (txnEntries H b)).2, (rootOf H (txnEntries H b)).1] :=
  splitBy_fields hprev (noBar_rootOf _).2 (noBar_rootOf _).1

theorem txnEntries_concat (b : ℕ) (txns : List Txn) (txn : Txn) :
    txnEntries H (b, txns ++ [txn]) = txnEntries H (b, txns) ++ [txnEntry H b txns.length txn] := by
  rw [txnEntries, List.mapIdx_append]
  simp [txnEntries]

/-! ### What is stored -/

variable {s s' : SQLLedger} {db' : DB}

/-- **`Build`** leaves the level and the root of the tree over the leaves. -/
theorem builtOrEmpty_build {db : DB} {mtid : Bytes} {leaves : List Bytes}
    {r : Option (Bytes × Bytes)} (h : MerkleTree.build H db mtid leaves = .ok (r, db')) :
    builtOrEmpty r = rootOf H leaves := by
  rw [rootOf]
  split_ifs with hnil
  · subst hnil
    obtain ⟨rfl, -⟩ := Prod.mk.inj (Except.ok.inj h)
    rfl
  · obtain ⟨db'', hspec⟩ := MerkleTree.build_spec H db mtid hnil
    rw [h] at hspec
    obtain ⟨rfl, -⟩ := Prod.mk.inj (Except.ok.inj hspec)
    rfl

/-- A round of the loop over the transactions stores the entry of the transaction and nodes of its
tree. -/
theorem buildTxn_spec {b i : ℕ} {txn : Txn} {r : Bytes × SQLLedger}
    (h : s.buildTxn H b i txn = .ok r) : r.1 = txnEntry H b i txn ∧
      ∃ db, MerkleTree.AgreesOff (txnKey txn.1) s.db db ∧
        r.2 = { s with db := db.putString (txnKey txn.1) (txnEntry H b i txn) } := by
  rw [buildTxn] at h
  obtain ⟨⟨built, db⟩, htree, h⟩ := bind_eq_ok_iff.mp h
  simp only [builtOrEmpty_build htree] at h
  obtain rfl := Except.ok.inj h
  exact ⟨rfl, db, MerkleTree.agreesOff_build htree, rfl⟩

/-- **The rest of a round** stores the record of the block and the digest. -/
theorem buildBlock_spec {blocks : List Block} {b : Block}
    (hdigest : s.db.getString (str "digest") = digestOf H blocks) (hb : b.1 = blocks.length)
    (h : s.buildBlock H b.1 (txnEntries H b) = .ok s') :
    ∃ db record digest, MerkleTree.AgreesOff (blockKey b.1) s.db db ∧
      chain H (blocks ++ [b]) = chain H blocks ++ [record] ∧
      digestOf H (blocks ++ [b]) = some digest ∧
      s' = { s with db := (db.putString (blockKey b.1) record).putString (str "digest") digest } := by
  rw [SQLLedger.buildBlock] at h
  obtain ⟨⟨built, db⟩, htree, h⟩ := bind_eq_ok_iff.mp h
  simp only [builtOrEmpty_build htree] at h
  obtain ⟨prevHash, hprev, h⟩ := bind_eq_ok_iff.mp h
  have hsame : db.getString (str "digest") = digestOf H blocks := by
    rw [← hdigest]
    apply MerkleTree.agreesOff_build htree
    exact fun l i => IsSummary.ne_nodeKey (Or.inl rfl) _ l i
  -- the first field of the digest is the hash of the last record
  have hlast : prevHash = lastHash H (chain H blocks) := by
    simp only [hsame] at hprev
    rw [digestOf] at hprev
    split_ifs at hprev with hnil
    · subst hnil
      exact (Except.ok.inj hprev).symm
    · rw [Option.getD_some, splitBy_pair (noBar_lastHash _) (noBar_toDecimal _)] at hprev
      exact (Except.ok.inj hprev).symm
  refine ⟨db, blockRecord H (lastHash H (chain H blocks)) b, _, MerkleTree.agreesOff_build htree,
    chain_concat _ _, if_neg (by simp), ?_⟩
  rw [← Except.ok.inj h, chain_concat, lastHash_concat, List.length_append, List.length_singleton,
    Nat.add_sub_cancel, ← hb, hlast]
  rfl

/-! ### The invariant -/

/-- The block that is being built was taken last, and it has the entries of its first transactions. -/
def Entered (H : Bytes → Hash) (taken : List Block) : Updating → Prop
  | .sleeping => True
  | .building b i left leaves => ∃ done, taken[b]? = some (b, done ++ left) ∧ i = done.length ∧
      leaves = txnEntries H (b, done)

/-- The finished blocks are stored as the records of a chain, and the digest names the last of
them. -/
structure Recorded (H : Bytes → Hash) (s : Threads × List Block) : Prop where
  readable : Readable s.1
  numbers : s.2.map Prod.fst = List.range s.1.ledger.blockSeq
  nonempty : ∀ b ∈ s.2, b.2 ≠ []
  entered : Entered H s.2 s.1.updating
  record : ∀ i r, (chain H (s.2.take (built s.1)))[i]? = some r →
    s.1.ledger.db.getString (blockKey i) = some r
  digest : s.1.ledger.db.getString (str "digest") = digestOf H (s.2.take (built s.1))

theorem built_le (h : Readable t) : built t ≤ t.ledger.blockSeq := by
  have hunder := h.underway
  rw [built]
  cases hup : t.updating with
  | sleeping => exact Nat.le_refl _
  | building b i left leaves =>
    rw [hup] at hunder
    have hb := hunder.1
    show b ≤ _
    omega

/-- What a step that finishes no block keeps of the records of blocks. -/
theorem Readable.getString_eq (h : Readable t) (hstep : Sqlledger.step H cfg t a = some t')
    (ha : a ≠ .buildBlock) {y : Bytes} (hy : IsSummary y) :
    t'.ledger.db.getString y = t.ledger.db.getString y := by
  cases stepped_of_step hstep with
  | beginSet hidle hdocs => rfl
  | putDocument hstoring =>
    exact (DB.getString_putString ..).trans (if_neg (hy.ne_histKey _ _))
  | setIndexed hstoring hset =>
    apply (Qldb.QLBTree.agreeOff_set hset).2.getString
    rw [h.pre]
    exact hy.not_isName
  | appendLog hlogging hchunk => rfl
  | endSet hadvancing => rfl
  | cutBlock hsleeping hbuffer => rfl
  | buildTxn hbuilding hbuild =>
    obtain ⟨-, db, hagree, hr⟩ := buildTxn_spec hbuild
    simp only [hr]
    rw [DB.getString_putString, if_neg (hy.ne_txnKey _)]
    exact hagree y fun l i => hy.ne_nodeKey _ l i
  | buildBlock hbuilding hbuild => exact absurd rfl ha

namespace Recorded

variable {s s' : Threads × List Block}

theorem start : Recorded H (start, []) where
  readable := Readable.start
  numbers := rfl
  nonempty _ hb := absurd hb List.not_mem_nil
  entered := trivial
  record _ _ hr := nomatch hr
  digest := rfl

theorem length_taken (h : Recorded H s) : s.2.length = s.1.ledger.blockSeq := by
  rw [← List.length_map, h.numbers, List.length_range]

/-- A block has the place of its number. -/
theorem getElem?_taken (h : Recorded H s) {b : Block} (hb : b ∈ s.2) : s.2[b.1]? = some b := by
  obtain ⟨i, hi⟩ := List.mem_iff_getElem?.mp hb
  have hnumber : (s.2.map Prod.fst)[i]? = some b.1 := by
    rw [List.getElem?_map, hi]
    rfl
  rw [h.numbers, List.getElem?_eq_some_iff] at hnumber
  obtain ⟨hlt, heq⟩ := hnumber
  rw [List.getElem_range] at heq
  rwa [← heq]

/-- A step that finishes no block. -/
theorem keeps (h : Recorded H s) (hstep : observed H cfg s a = some s') (ha : a ≠ .buildBlock)
    (hnumbers : s'.2.map Prod.fst = List.range s'.1.ledger.blockSeq)
    (hnonempty : ∀ b ∈ s'.2, b.2 ≠ []) (hentered : Entered H s'.2 s'.1.updating)
    (hbuilt : built s'.1 = built s.1) : Recorded H s' := by
  obtain ⟨hstep, htaken⟩ := Run.observe_eq_some.mp hstep
  have hfinished : s'.2.take (built s'.1) = s.2.take (built s.1) := by
    have hle := built_le h.readable
    rw [← h.length_taken] at hle
    rw [hbuilt, htaken, List.take_append_of_le_length hle]
  have hget : ∀ y, IsSummary y → s'.1.ledger.db.getString y = s.1.ledger.db.getString y :=
    fun y hy => h.readable.getString_eq hstep ha hy
  constructor
  · exact h.readable.step hstep
  · exact hnumbers
  · exact hnonempty
  · exact hentered
  · intro i r hr
    rw [hfinished] at hr
    rw [hget _ (Or.inr ⟨i, rfl⟩)]
    exact h.record i r hr
  · rw [hget _ (Or.inl rfl), hfinished]
    exact h.digest

/-- **A block is finished.** -/
theorem buildBlock {taken : List Block} {b i : ℕ} {leaves : List Bytes} {l : SQLLedger}
    (h : Recorded H (t, taken)) (hbuilding : t.updating = .building b i [] leaves)
    (hbuild : t.ledger.buildBlock H b leaves = .ok l) :
    Recorded H ({ t with ledger := l, updating := .sleeping }, taken) := by
  have hentered : Entered H taken t.updating := h.entered
  rw [hbuilding] at hentered
  obtain ⟨done, hget, -, rfl⟩ := hentered
  rw [List.append_nil] at hget
  have hbuilt : built t = b := by rw [built, hbuilding]
  have hunder : Underway t.ledger.blockSeq t.updating := h.readable.underway
  rw [hbuilding] at hunder
  have hseq : b + 1 = t.ledger.blockSeq := hunder.1
  have hlen : taken.length = b + 1 := h.length_taken.trans hseq.symm
  have htake : taken.take (b + 1) = taken.take b ++ [(b, done)] := by
    rw [List.take_add_one, hget]
    rfl
  have hfinished : (taken.take b).length = b := by
    rw [List.length_take]
    omega
  have hdigest : t.ledger.db.getString (str "digest") = digestOf H (taken.take (built t)) := h.digest
  have hrecord : ∀ i r, (chain H (taken.take (built t)))[i]? = some r →
      t.ledger.db.getString (blockKey i) = some r := h.record
  rw [hbuilt] at hdigest hrecord
  obtain ⟨db, record, digest, hagree, hchain, hnew, rfl⟩ :=
    buildBlock_spec (b := (b, done)) hdigest hfinished.symm hbuild
  rw [← htake] at hchain hnew
  constructor
  · exact h.readable.buildBlock hbuilding hbuild
  · exact h.numbers
  · exact h.nonempty
  · trivial
  · intro j r hr
    replace hr : (chain H (taken.take t.ledger.blockSeq))[j]? = some r := hr
    rw [← hseq, hchain] at hr
    show DB.getString _ _ = _
    rw [DB.getString_putString, if_neg (digest_ne_blockKey j).symm, DB.getString_putString]
    have hlen' : (chain H (taken.take b)).length = b := (length_chain _).trans hfinished
    rcases Nat.lt_or_ge j b with hlt | hge
    · rw [if_neg fun heq => hlt.ne (blockKey_inj.mp heq),
        hagree _ fun l i => IsSummary.ne_nodeKey (Or.inr ⟨j, rfl⟩) _ l i]
      apply hrecord
      rwa [List.getElem?_append_left (by rwa [hlen'])] at hr
    · rw [List.getElem?_append_right (by rwa [hlen']), hlen', List.getElem?_singleton] at hr
      split_ifs at hr with hj
      obtain rfl : j = b := by omega
      rw [if_pos rfl]
      exact hr
  · show _ = digestOf H (taken.take t.ledger.blockSeq)
    rw [← hseq, hnew]
    exact (DB.getString_putString ..).trans (if_pos rfl)

/-- **Every step** keeps the records. -/
theorem step (h : Recorded H s) (hstep : observed H cfg s a = some s') : Recorded H s' := by
  obtain ⟨t, taken⟩ := s
  obtain ⟨t', taken'⟩ := s'
  have hobserved := hstep
  obtain ⟨hstep, htaken⟩ := Run.observe_eq_some.mp hstep
  simp only at hstep htaken
  -- only `cutBlock` takes something from the buffer
  have hsame (hnil : takenBy t a = []) : taken' = taken := by
    rw [htaken, hnil, List.append_nil]
  cases stepped_of_step hstep with
  | beginSet hidle hdocs =>
    obtain rfl := hsame rfl
    exact h.keeps hobserved (by simp) h.numbers h.nonempty h.entered rfl
  | putDocument hstoring =>
    obtain rfl := hsame rfl
    exact h.keeps hobserved (by simp) h.numbers h.nonempty h.entered rfl
  | setIndexed hstoring hset =>
    obtain rfl := hsame rfl
    exact h.keeps hobserved (by simp) h.numbers h.nonempty h.entered rfl
  | appendLog hlogging hchunk =>
    obtain rfl := hsame rfl
    exact h.keeps hobserved (by simp) h.numbers h.nonempty h.entered rfl
  | endSet hadvancing =>
    obtain rfl := hsame rfl
    exact h.keeps hobserved (by simp) h.numbers h.nonempty h.entered rfl
  | cutBlock hsleeping hbuffer =>
    have htaken : taken' = taken ++ [(t.ledger.blockSeq, t.ledger.buffer)] := htaken
    subst htaken
    apply h.keeps hobserved (by simp)
    · rw [List.map_append, h.numbers]
      exact List.range_succ.symm
    · intro b hb
      rcases List.mem_append.mp hb with hb | hb
      · exact h.nonempty b hb
      · rw [List.mem_singleton.mp hb]
        exact hbuffer
    · refine ⟨[], ?_, rfl, rfl⟩
      have hlen : taken.length = t.ledger.blockSeq := h.length_taken
      rw [← hlen, List.getElem?_concat_length]
      rfl
    · simp only [built, hsleeping]
  | @buildTxn b i txn left leaves r hbuilding hbuild =>
    obtain rfl := hsame rfl
    obtain ⟨hentry, db, -, hr⟩ := buildTxn_spec hbuild
    have hentered := h.entered
    rw [hbuilding] at hentered
    obtain ⟨done, hget, rfl, rfl⟩ := hentered
    apply h.keeps hobserved (by simp)
    · rw [hr]
      exact h.numbers
    · exact h.nonempty
    · refine ⟨done ++ [txn], ?_, ?_, ?_⟩
      · rw [hget, List.append_assoc]
        rfl
      · rw [List.length_append]
        rfl
      · rw [txnEntries_concat, hentry]
    · simp only [built, hbuilding]
  | buildBlock hbuilding hbuild =>
    obtain rfl := hsame rfl
    exact h.buildBlock hbuilding hbuild

/-- **In a run** the finished blocks are stored as a chain. -/
theorem runs {steps : List Step} (hrun : Run.runs (observed H cfg) (Sqlledger.start, []) steps = some s) :
    Recorded H s :=
  Run.runs_inv start (fun _ _ _ h hstep => h.step hstep) hrun

end Recorded

/-! ### `BlockProof::Verify` -/

/-- Records, newest first, with the hash of each as the first field of the next one.  The first field
of the oldest is empty. -/
def Linked (H : Bytes → Hash) : Bytes → List Bytes → Prop
  | target, [] => target = []
  | target, r :: older => target = (H r).toBase32 ∧
      ∃ prevHash root level, splitBy r 124 = [prevHash, root, level] ∧ Linked H prevHash older

theorem linked_chain (blocks : List Block) :
    Linked H (lastHash H (chain H blocks)) (chain H blocks).reverse := by
  induction blocks using List.reverseRecOn with
  | nil => rfl
  | append_singleton blocks b ih =>
    rw [chain_concat, List.reverse_concat, lastHash_concat]
    exact ⟨rfl, _, _, _, splitBy_blockRecord (noBar_lastHash _) b, ih⟩

/-- **The newest records** are accepted, and the root is that of the oldest of them. -/
theorem verifyLoop_prefix {blks : List Bytes} : ∀ {target : Bytes} (blkMtRoot : Bytes)
    {records : List Bytes}, Linked H target records → blks <+: records →
      ∃ root, BlockProof.verifyLoop H target blkMtRoot blks = .ok (true, root) ∧
        ∀ r ∈ blks.getLast?, at? (splitBy r 124) 1 = .ok root := by
  induction blks with
  | nil => exact fun _ _ _ _ => ⟨_, rfl, fun r hr => absurd hr (by simp)⟩
  | cons r blks ih =>
    rintro target blkMtRoot records hlinked ⟨rest, rfl⟩
    obtain ⟨htarget, prevHash, root, level, hsplit, hlinked⟩ := hlinked
    obtain ⟨root', hloop, hlast⟩ := ih root hlinked (List.prefix_append _ _)
    have hstep : BlockProof.verifyLoop H target blkMtRoot (r :: blks) =
        BlockProof.verifyLoop H prevHash root blks := by
      rw [BlockProof.verifyLoop, if_neg (not_not_intro htarget.symm), hsplit]
      rfl
    refine ⟨root', hstep.trans hloop, ?_⟩
    intro x hx
    cases blks with
    | nil =>
      obtain rfl : r = x := Option.some.inj hx
      obtain ⟨-, rfl⟩ := Prod.mk.inj (Except.ok.inj hloop)
      rw [hsplit]
      rfl
    | cons r' blks =>
      rw [List.getLast?_cons_cons] at hx
      exact hlast x hx

/-- **What is accepted** is the newest records, if no hash is that of two strings. -/
theorem prefix_of_verifyLoop {blks : List Bytes} : ∀ {target blkMtRoot root : Bytes}
    {records : List Bytes}, Linked H target records → Set.InjOn H {c | c ∈ blks ++ records} →
      BlockProof.verifyLoop H target blkMtRoot blks = .ok (true, root) → blks <+: records := by
  induction blks with
  | nil => exact fun _ _ _ => List.nil_prefix
  | cons r blks ih =>
    intro target blkMtRoot root records hlinked hinj hloop
    rw [BlockProof.verifyLoop] at hloop
    split_ifs at hloop with htarget
    · cases hloop
    rw [not_ne_iff] at htarget
    cases records with
    | nil =>
      -- the target behind the last block is empty
      have hlen := congrArg List.length (htarget.trans hlinked)
      rw [Hash.length_toBase32] at hlen
      cases hlen
    | cons r' records =>
      obtain ⟨htarget', prevHash, root', level, hsplit, hlinked⟩ := hlinked
      obtain rfl : r = r' := by
        apply hinj
        · exact List.mem_append_left _ List.mem_cons_self
        · exact List.mem_append_right _ List.mem_cons_self
        · exact Hash.toBase32_injective (htarget.trans htarget')
      rw [hsplit] at hloop
      rw [List.cons_prefix_cons]
      refine ⟨rfl, ih hlinked (hinj.mono ?_) hloop⟩
      intro c hc
      rcases List.mem_append.mp hc with hc | hc
      · exact List.mem_append_left _ (List.mem_cons_of_mem _ hc)
      · exact List.mem_append_right _ (List.mem_cons_of_mem _ hc)

/-- The digest names the last of the finished blocks. -/
theorem Recorded.of_getDigest {s : Threads × List Block} {tip : ℕ} {hash : Bytes}
    (h : Recorded H s) (hdigest : s.1.ledger.getDigest = .ok (tip, hash)) :
    built s.1 = tip + 1 ∧ hash = lastHash H (chain H (s.2.take (tip + 1))) := by
  have hle := built_le h.readable
  rw [← h.length_taken] at hle
  have hlen : (s.2.take (built s.1)).length = built s.1 := List.length_take_of_le hle
  have hstored := h.digest
  rw [digestOf] at hstored
  split_ifs at hstored with hnil
  · -- before the first block is finished the digest has one field
    rw [getDigest, hstored] at hdigest
    cases hdigest
  · have hpos : 0 < built s.1 := by
      rw [← hlen]
      exact List.length_pos_iff.mpr hnil
    simp only [getDigest, hstored, Option.getD_some, splitBy_pair (noBar_lastHash _)
      (noBar_toDecimal _), at?, List.getElem?_cons_zero, List.getElem?_cons_succ, ok_bind,
      stoul_toDecimal, hlen] at hdigest
    obtain ⟨htip, hhash⟩ := Prod.mk.inj (Except.ok.inj hdigest)
    have hbuilt : built s.1 = tip + 1 := by omega
    rw [← hhash, hbuilt]
    exact ⟨rfl, rfl⟩

/-- **`BlockProof::Verify`** accepts the suffixes of the chain up to the digest, and nothing else
unless two strings have the same hash.  For the suffix from a block on it leaves the root of the tree
over the transactions of that block. -/
theorem verify_iff_suffix {steps : List Step} {t : Threads} {taken : List Block} {tip : ℕ}
    {hash : Bytes} (hrun : Run.runs (observed H cfg) (start, []) steps = some (t, taken))
    (hdigest : t.ledger.getDigest = .ok (tip, hash)) :
    (∀ i ≤ tip, ∃ r, (chain H (taken.take (tip + 1)))[i]? = some r ∧
      t.ledger.db.getString (blockKey i) = some r) ∧
    (∀ blks blkMtRoot, ((∃ root, BlockProof.verify H ⟨blks⟩ hash blkMtRoot = .ok (true, root)) ↔
        blks <:+ chain H (taken.take (tip + 1))) ∨
      Collision H (blks ++ chain H (taken.take (tip + 1)))) ∧
    ∀ b ∈ taken, b.1 ≤ tip → ∀ blkMtRoot,
      BlockProof.verify H ⟨(chain H (taken.take (tip + 1))).drop b.1⟩ hash blkMtRoot =
        .ok (true, (merkleRoot H ((txnEntries H b).map H)).toBase32) := by
  have h := Recorded.runs hrun
  obtain ⟨hbuilt, hhash⟩ := h.of_getDigest hdigest
  subst hhash
  simp only at hbuilt
  set blocks := taken.take (tip + 1) with hblocks
  have hlen : blocks.length = tip + 1 := by
    have hle := built_le h.readable
    rw [← h.length_taken, hbuilt] at hle
    exact List.length_take_of_le hle
  have hlinked := linked_chain (H := H) blocks
  refine ⟨?_, ?_, ?_⟩
  · intro i hi
    have hlt : i < (chain H blocks).length := by
      rw [length_chain, hlen]
      omega
    refine ⟨_, List.getElem?_eq_getElem hlt, h.record i _ ?_⟩
    simp only [hbuilt, ← hblocks]
    exact List.getElem?_eq_getElem hlt
  · intro blks blkMtRoot
    by_cases hcol : Collision H (blks ++ chain H blocks)
    · exact Or.inr hcol
    left
    rw [← List.reverse_prefix]
    constructor
    · rintro ⟨root, hroot⟩
      apply prefix_of_verifyLoop hlinked _ hroot
      convert injOn_of_not_collision hcol using 1
      ext c
      simp
    · intro hpre
      obtain ⟨root, hroot, -⟩ := verifyLoop_prefix blkMtRoot hlinked hpre
      exact ⟨root, hroot⟩
  · intro b hb htip blkMtRoot
    have hget : taken[b.1]? = some b := h.getElem?_taken hb
    have hrecord := getElem?_chain (H := H) (show blocks[b.1]? = some b by
      rw [hblocks, List.getElem?_take_of_lt (Nat.lt_succ_of_le htip), hget])
    have hpre : ((chain H blocks).drop b.1).reverse <+: (chain H blocks).reverse := by
      rw [List.reverse_prefix]
      exact List.drop_suffix _ _
    obtain ⟨root, hroot, hlast⟩ := verifyLoop_prefix blkMtRoot hlinked hpre
    rw [BlockProof.verify, hroot]
    have hfield := hlast _ (by
      rw [List.getLast?_reverse, List.head?_drop, hrecord]
      rfl)
    rw [splitBy_blockRecord (noBar_lastHash _)] at hfield
    obtain rfl := Except.ok.inj hfield
    have hne : txnEntries H b ≠ [] := by
      rw [txnEntries, Ne, List.mapIdx_eq_nil_iff]
      exact h.nonempty b hb
    rw [rootOf, if_neg hne]

theorem verify_iff_suffix_oneBlock : ∃ s hash,
    Run.runs (observed (Hash.ofTable []) {}) (start, []) oneBlock = some s ∧
      s.1.ledger.getDigest = .ok (0, hash) ∧ (chain (Hash.ofTable []) s.2).length = 1 ∧
      ∃ root, BlockProof.verify (Hash.ofTable []) ⟨chain (Hash.ofTable []) (s.2.take 1)⟩ hash [] =
        .ok (true, root) := by
  have hrun : (Run.runs (observed (Hash.ofTable []) {}) (start, []) oneBlock).any (fun s =>
      s.2.map Prod.fst = [0] ∧ s.1.ledger.getDigest.toOption.map Prod.fst = some 0) = true := by
    decide +kernel
  obtain ⟨s, hs, hcheck⟩ := (Option.any_eq_true _ _).mp hrun
  obtain ⟨hnumbers, htip⟩ := of_decide_eq_true hcheck
  obtain ⟨⟨tip, hash⟩, hdigest, rfl⟩ := Option.map_eq_some_iff.mp htip
  obtain ⟨b, hb, hzero⟩ := List.map_eq_singleton_iff.mp hnumbers
  obtain ⟨-, -, hroot⟩ := verify_iff_suffix hs (eq_ok_of_toOption hdigest)
  have hverify := hroot b (by rw [hb]; exact List.mem_singleton_self b) hzero.le []
  rw [hzero, List.drop_zero] at hverify
  exact ⟨s, hash, hs, eq_ok_of_toOption hdigest, by rw [hb]; rfl, _, hverify⟩

end LedgerDatabase.Sqlledger
