import LedgerDatabase.Ledgerdb.Equiv.MerkleProof
import LedgerDatabase.Ledgerdb.Equiv.Plan

/-!
# The invariant of a ledger

`Inv H S p vals s`: the ledger `s` has done what the plan `p` says, and `vals` are the blocks stored
so far.  For every commit there is `CommitOk`: its Merkle tree and its trie are in the store, and
its entry names their roots.

`set_inv` and `buildTree_inv`: a call of `Set` and a round of `buildTree` keep the invariant, and a
round can only fail when a tree does not fit.  `run_inv` puts the steps together.
-/

namespace LedgerDatabase.Ledgerdb.LedgerDB

open Mpt MerkleTree

/-- The leaves of the Merkle tree after some batches. -/
def leavesOf (H : Bytes → Hash) (vals : List Bytes) (batches : List (List TreeBlock)) : List Hash :=
  (vals.take batches.flatten.length).map H

/-- The entry of commit `c`, made after the given batches. -/
structure InfoOk (H : Bytes → Hash) (vals : List Bytes) (batches : List (List TreeBlock)) (c : ℕ)
    (info : CommitInfo) : Prop where
  clean : info.Clean
  commitSeq : info.commitSeq = c
  tipBlock : info.tipBlock + 1 = batches.flatten.length
  mtroot : info.mtroot = (rootOf H (leavesOf H vals batches) c).rootHash
  mtrootkey : info.mtrootkey = (rootOf H (leavesOf H vals batches) c).rootKey
  mptroot : info.mptroot = (H (enc H (treeOf batches))).toBase32

/-- Commit `c`, made after the given batches, is in the store. -/
structure CommitOk (H : Bytes → Hash) (S : Set Bytes) (vals : List Bytes)
    (batches : List (List TreeBlock)) (c : ℕ) (db : DB) : Prop where
  merkle : Committed H (leavesOf H vals batches) c db
  stored : Stored H S db (treeOf batches)
  entry : ∃ info, db.getString (commitKey (toDecimal c)) = some info.toBytes ∧
    InfoOk H vals batches c info

/-- The digest entry names commit `c`. -/
def DigestOk (H : Bytes → Hash) (batches : List (List TreeBlock)) (c : ℕ) (db : DB) : Prop :=
  ∃ d : DigestInfo, db.getString (str "digest") = some d.toBytes ∧ NoBar d.digest ∧
    d.commitSeq = c ∧ d.tipBlock + 1 = batches.flatten.length ∧
    ∃ e, db.getString (commitKey (toDecimal c)) = some e ∧ d.digest = (H e).toBase32

/-- The ledger has done what the plan says. -/
structure Inv (H : Bytes → Hash) (S : Set Bytes) (p : Plan) (vals : List Bytes) (s : LedgerDB) :
    Prop where
  next : s.nextBlockSeq = p.count
  queue : s.treeQueue = p.queue
  commitSeq : s.commitSeq = p.batches.length
  length_vals : vals.length = p.count
  ledger : ∀ i v, vals[i]? = some v → s.db.getString (ledgerKey i) = some v
  store : StoreOk H S s.db
  commits : ∀ c < p.batches.length, CommitOk H S vals (p.batches.take (c + 1)) c s.db
  fresh : ∀ c, p.batches.length ≤ c → s.db.getString (commitKey (toDecimal c)) = none
  digest : ∀ c, c + 1 = p.batches.length → DigestOk H p.batches c s.db

section

variable {H : Bytes → Hash} {S : Set Bytes} {p : Plan} {vals : List Bytes} {s : LedgerDB}

/-! ### What writes leave as it is -/

theorem length_leavesOf {batches : List (List TreeBlock)} (h : batches.flatten.length ≤ vals.length) :
    (leavesOf H vals batches).length = batches.flatten.length := by
  rw [leavesOf, List.length_map, List.length_take, Nat.min_eq_left h]

/-- The blocks of the commits are among those stored. -/
theorem Plan.Ok.length_le (h : p.Ok) : p.batches.flatten.length + p.queue.length = p.count := by
  have := congrArg List.length h.numbered
  rwa [List.length_map, List.length_append, List.length_range] at this

theorem length_flatten_take_le (batches : List (List TreeBlock)) (c : ℕ) :
    (batches.take c).flatten.length ≤ batches.flatten.length := by
  conv_rhs => rw [← List.take_append_drop c batches, List.flatten_append, List.length_append]
  omega

/-- Commits stay when others are made. -/
theorem CommitOk.log (hH : HashOk H S) {batches : List (List TreeBlock)} {c c' count n : ℕ}
    {db : DB} {ws : List (Bytes × Bytes)} (h : CommitOk H S vals batches c db)
    (hws : ∀ w ∈ ws, Write H S count n c' w) (hvals : batches.flatten.length ≤ vals.length)
    (hn : batches.flatten.length ≤ n) (hc : c ≠ c') :
    CommitOk H S vals batches c { db with rocks := ws ++ db.rocks } := by
  constructor
  · apply h.merkle.log
    intro w hw l j v hv
    exact (hws w hw).ne_storeKey hH (by rwa [length_leavesOf hvals]) hc hv
  · exact h.stored.mono (List.subset_append_right _ _)
  · obtain ⟨info, hget, hok⟩ := h.entry
    refine ⟨info, ?_, hok⟩
    rwa [getString_log fun w hw => (hws w hw).ne_commitKey hH hc]

/-- A commit is a matter of the records only. -/
theorem CommitOk.congr {batches : List (List TreeBlock)} {c : ℕ} {db db' : DB}
    (h : CommitOk H S vals batches c db') (hget : ∀ k, db.getString k = db'.getString k)
    (hsub : db'.rocks ⊆ db.rocks) : CommitOk H S vals batches c db := by
  refine ⟨fun l j v hl hv => ?_, h.stored.mono hsub, ?_⟩
  · rw [hget]
    exact h.merkle l j v hl hv
  · obtain ⟨info, hinfo, hok⟩ := h.entry
    exact ⟨info, by rw [hget]; exact hinfo, hok⟩

/-- A digest is a matter of the records only. -/
theorem DigestOk.congr {batches : List (List TreeBlock)} {c : ℕ} {db db' : DB}
    (h : DigestOk H batches c db') (hdigest : db.getString (str "digest") = db'.getString (str "digest"))
    (hentry : db.getString (commitKey (toDecimal c)) = db'.getString (commitKey (toDecimal c))) :
    DigestOk H batches c db := by
  obtain ⟨d, hd, hbar, hseq, htip, e, he, hdig⟩ := h
  exact ⟨d, hdigest.trans hd, hbar, hseq, htip, e, hentry.trans he, hdig⟩

/-- The invariant on another store with the same records. -/
theorem Inv.congr (h : Inv H S p vals s) {db : DB} (hget : ∀ k, db.getString k = s.db.getString k)
    (hsub : s.db.rocks ⊆ db.rocks) (hok : StoreOk H S db) : Inv H S p vals { s with db := db } where
  next := h.next
  queue := h.queue
  commitSeq := h.commitSeq
  length_vals := h.length_vals
  ledger i v hv := (hget _).trans (h.ledger i v hv)
  store := hok
  commits c hc := (h.commits c hc).congr hget hsub
  fresh c hc := (hget _).trans (h.fresh c hc)
  digest c hc := (h.digest c hc).congr (hget _) (hget _)

/-- A commit does not depend on blocks that are stored later. -/
theorem CommitOk.vals_append {batches : List (List TreeBlock)} {c : ℕ} {db : DB}
    (h : CommitOk H S vals batches c db) (hvals : batches.flatten.length ≤ vals.length)
    (v : Bytes) : CommitOk H S (vals ++ [v]) batches c db := by
  have hleaves : leavesOf H (vals ++ [v]) batches = leavesOf H vals batches := by
    rw [leavesOf, leavesOf, List.take_append_of_le_length hvals]
  obtain ⟨info, hget, hok⟩ := h.entry
  refine ⟨by rw [hleaves]; exact h.merkle, h.stored, info, hget, hok.clean, hok.commitSeq,
    hok.tipBlock, ?_, ?_, hok.mptroot⟩
  · rw [hleaves]
    exact hok.mtroot
  · rw [hleaves]
    exact hok.mtrootkey

/-! ### `Set` -/

/-- The skip lists of a call are written to their own records. -/
theorem setKeys_adds {timestamp : ℕ} {blkSeqStr : Bytes} : ∀ {keys values : List Bytes}
    {coins : List (List Bool)} {db db' : DB} {heads heads' : StdMap ℤ},
    setKeys timestamp blkSeqStr keys values coins db heads = .ok (db', heads') →
    SkipList.Adds (str "skiplist_") db db'
  | [], _, _, db, db', heads, heads', h => by
    obtain ⟨rfl, -⟩ := Prod.mk.inj (Except.ok.inj h)
    exact SkipList.Adds.refl _ _
  | _ :: _, [], _, _, _, _, _, h => by cases h
  | key :: keys, val :: values, coins, db, db', heads, heads', h => by
    rw [setKeys] at h
    obtain ⟨db₁, hinsert, h⟩ := bind_eq_ok_iff.mp h
    obtain ⟨ws, hws, hpre⟩ := SkipList.insert_adds hinsert
    have hadds : SkipList.Adds (str "skiplist_") db db₁ :=
      ⟨ws, hws, fun w hw => (List.prefix_append _ _).trans (hpre w hw)⟩
    exact hadds.trans (setKeys_adds h)

/-- What a call of `Set` does. -/
theorem set_cases {keys values : List Bytes} {timestamp : ℕ} {coins : List (List Bool)}
    {s' : LedgerDB} {r : ℕ} (h : s.set keys values timestamp coins = .ok (s', r)) :
    (keys.length = 0 ∧ s' = s) ∨ (keys.length ≠ 0 ∧ ∃ blkVal ws heads,
      BlockData.toBytes ⟨keys, values⟩ = .ok blkVal ∧ (∀ w ∈ ws, str "skiplist_" <+: w.1) ∧
      s' = { s with
        db := { s.db with rocks := ws ++ [(ledgerKey s.nextBlockSeq, blkVal)] ++ s.db.rocks }
        nextBlockSeq := s.nextBlockSeq + 1
        treeQueue := s.treeQueue ++ [⟨s.nextBlockSeq, keys, toDecimal timestamp⟩]
        skiplistHead := heads }) := by
  rw [set] at h
  split_ifs at h with hlen
  · obtain ⟨rfl, -⟩ := Prod.mk.inj (Except.ok.inj h)
    exact Or.inl ⟨hlen, rfl⟩
  · simp only at h
    obtain ⟨blkVal, hval, h⟩ := bind_eq_ok_iff.mp h
    obtain ⟨⟨db', heads⟩, hkeys, h⟩ := bind_eq_ok_iff.mp h
    obtain ⟨rfl, -⟩ := Prod.mk.inj (Except.ok.inj h)
    obtain ⟨ws, hws, hpre⟩ := setKeys_adds hkeys
    refine Or.inr ⟨hlen, blkVal, ws, heads, hval, hpre, ?_⟩
    simp only [hws, DB.putString, List.append_assoc, List.singleton_append]

/-- The plan with another block. -/
def Plan.addBlock (p : Plan) (keys : List Bytes) (ts : Bytes) : Plan :=
  { p with count := p.count + 1, queue := p.queue ++ [⟨p.count, keys, ts⟩] }

/-- A ledger with another block. -/
def addBlock (s : LedgerDB) (ws : List (Bytes × Bytes)) (blkVal : Bytes) (keys : List Bytes)
    (ts : Bytes) (heads : StdMap ℤ) : LedgerDB :=
  { s with
    db := { s.db with rocks := ws ++ [(ledgerKey s.nextBlockSeq, blkVal)] ++ s.db.rocks }
    nextBlockSeq := s.nextBlockSeq + 1
    treeQueue := s.treeQueue ++ [⟨s.nextBlockSeq, keys, ts⟩]
    skiplistHead := heads }

/-- The writes of a call do not touch other records. -/
theorem getString_addBlock {ws : List (Bytes × Bytes)} {blkVal : Bytes} {i : ℕ} {db : DB}
    (hpre : ∀ w ∈ ws, str "skiplist_" <+: w.1) {k : Bytes} (hs : k.head? ≠ some 115)
    (hl : k ≠ ledgerKey i) :
    DB.getString { db with rocks := ws ++ [(ledgerKey i, blkVal)] ++ db.rocks } k
      = db.getString k := by
  apply getString_log
  intro w hw
  rcases List.mem_append.mp hw with hw | hw
  · intro heq
    exact hs (heq ▸ head?_skiplist (hpre w hw))
  · rw [List.mem_singleton.mp hw]
    exact fun heq => hl heq.symm

/-- The writes of a call. -/
theorem write_addBlock {ws : List (Bytes × Bytes)} {blkVal : Bytes} {i n c : ℕ}
    (hpre : ∀ w ∈ ws, str "skiplist_" <+: w.1) :
    ∀ w ∈ ws ++ [(ledgerKey i, blkVal)], Write H S i n c w := by
  intro w hw
  rcases List.mem_append.mp hw with hw | hw
  · exact .skiplist (hpre w hw)
  · refine .ledger i le_rfl ?_
    rw [List.mem_singleton.mp hw]

/-- **Another block** keeps the invariant. -/
theorem Inv.addBlock (hH : HashOk H S) (hp : p.Ok) (h : Inv H S p vals s)
    {ws : List (Bytes × Bytes)} (hpre : ∀ w ∈ ws, str "skiplist_" <+: w.1) (blkVal : Bytes)
    (keys : List Bytes) (ts : Bytes) (heads : StdMap ℤ) :
    Inv H S (p.addBlock keys ts) (vals ++ [blkVal]) (s.addBlock ws blkVal keys ts heads) := by
  have hlenle : ∀ c, (p.batches.take c).flatten.length ≤ vals.length := fun c => by
    have h1 := length_flatten_take_le p.batches c
    have h2 := hp.length_le
    have h3 := h.length_vals
    omega
  have hkeep : ∀ k : Bytes, k.head? ≠ some 115 → k ≠ ledgerKey s.nextBlockSeq →
      (s.addBlock ws blkVal keys ts heads).db.getString k = s.db.getString k :=
    fun k hs hl => getString_addBlock hpre hs hl
  refine
    { next := by simp only [LedgerDB.addBlock, Plan.addBlock, h.next]
      queue := by simp only [LedgerDB.addBlock, Plan.addBlock, h.queue, h.next]
      commitSeq := h.commitSeq
      length_vals := by
        simp only [Plan.addBlock, List.length_append, List.length_singleton, h.length_vals]
      ledger := ?_, store := ?_, commits := ?_, fresh := ?_, digest := ?_ }
  · intro i v hv
    by_cases hi : i < vals.length
    · rw [List.getElem?_append_left hi] at hv
      rw [← h.ledger i v hv]
      apply hkeep _ (by rw [head?_ledgerKey]; decide)
      intro heq
      have := ledgerKey_inj heq
      rw [h.next, ← h.length_vals] at this
      omega
    · obtain rfl : i = vals.length := by
        have := (List.getElem?_eq_some_iff.mp hv).1
        rw [List.length_append, List.length_singleton] at this
        omega
      rw [List.getElem?_concat_length, Option.some_inj] at hv
      subst hv
      have hnew : ∀ w ∈ ws, w.1 ≠ ledgerKey s.nextBlockSeq := fun w hw =>
        ne_of_head? (head?_skiplist (hpre w hw)) (head?_ledgerKey _) (by decide)
      rw [h.length_vals, ← h.next]
      simp only [LedgerDB.addBlock, DB.getString, List.append_assoc]
      refine (PutLog.lookup_append_of_not_mem fun u hu => hnew _ hu rfl).trans ?_
      exact List.lookup_cons_self
  · exact storeOk_log hH h.store fun w hw =>
      (write_addBlock (n := 0) (c := 0) hpre w hw).chunk_or_text
  · intro c hc
    exact ((h.commits c hc).log hH (write_addBlock hpre) (hlenle _) (length_flatten_take_le _ _)
      (Nat.ne_of_lt hc)).vals_append (hlenle _) blkVal
  · intro c hc
    rw [← h.fresh c hc]
    exact hkeep _ (by rw [head?_commitKey]; decide)
      (ne_of_head? (head?_commitKey _) (head?_ledgerKey _) (by decide))
  · intro c hc
    apply (h.digest c hc).congr
    · exact hkeep _ (by decide) (ne_of_head? head?_digest (head?_ledgerKey _) (by decide))
    · exact hkeep _ (by rw [head?_commitKey]; decide)
        (ne_of_head? (head?_commitKey _) (head?_ledgerKey _) (by decide))

/-- **A call of `Set`** keeps the invariant. -/
theorem set_inv (hH : HashOk H S) (hp : p.Ok) (h : Inv H S p vals s) {keys values : List Bytes}
    {timestamp : ℕ} {coins : List (List Bool)} {s' : LedgerDB} {r : ℕ}
    (hset : s.set keys values timestamp coins = .ok (s', r)) :
    ∃ vals', Inv H S (p.step (.set keys values timestamp coins)) vals' s' ∧
      (vals' = vals ∨ keys.length ≠ 0 ∧ ∃ blkVal, BlockData.toBytes ⟨keys, values⟩ = .ok blkVal ∧
        vals' = vals ++ [blkVal]) := by
  rcases set_cases hset with ⟨hlen, rfl⟩ | ⟨hlen, blkVal, ws, heads, hval, hpre, rfl⟩
  · rw [Plan.step, if_pos hlen]
    exact ⟨vals, h, Or.inl rfl⟩
  · rw [Plan.step, if_neg hlen]
    exact ⟨_, h.addBlock hH hp hpre blkVal keys _ heads, Or.inr ⟨hlen, blkVal, hval, rfl⟩⟩

/-! ### A round of `buildTree` -/

/-- The writes of `Commit` in the log. -/
def chunkLog (puts : List (Hash × Bytes)) : List (Bytes × Bytes) :=
  (puts.map fun e => (e.1.bytes, e.2)).reverse

theorem chunkWrite_of_mem {puts : List (Hash × Bytes)} (h : PutsOk H S puts) :
    ∀ w ∈ chunkLog puts, ChunkWrite H S w := by
  intro w hw
  obtain ⟨e, he, rfl⟩ := List.mem_map.mp (List.mem_reverse.mp hw)
  obtain ⟨hhash, hS, hne⟩ := h e he
  exact ⟨e.2, hS, hne, by rw [hhash]⟩

/-- **"update MPT"**: the trie of the previous commit with the keys of the batch. -/
theorem updateMpt_spec (hH : HashOk H S) {db : DB} {t : Tree} {mptRoot : Option Hash}
    (hok : StoreOk H S db) (hst : Stored H S db t)
    (hroot : mptRoot = some (H (enc H t)) ∨ mptRoot = none ∧ t = .nil)
    {kvs : List (Bytes × Bytes)} (hascii : ∀ e ∈ kvs, Ascii e.1)
    (hchunks : ∀ s ∈ setTrace t kvs, Chunks H S s) :
    (updateMpt H db mptRoot (kvs.map (·.1)) (kvs.map (·.2)) = .error .oversize ∧
      ∃ s ∈ setTrace t kvs, ¬ Fits s) ∨
    ∃ puts db', updateMpt H db mptRoot (kvs.map (·.1)) (kvs.map (·.2))
        = .ok (H (enc H (setAll t kvs)), db') ∧ PutsOk H S puts ∧
      db'.rocks = chunkLog puts ++ db.rocks ∧ StoreOk H S db' ∧ Stored H S db' (setAll t kvs) := by
  have hstep : ((db.reads (Trie.setBatch H (H (enc H t)) (kvs.map (·.1)) (kvs.map (·.2)))).1
        = .error .oversize ∧ ∃ s ∈ setTrace t kvs, ¬ Fits s) ∨
      ∃ puts db', db.reads (Trie.setBatch H (H (enc H t)) (kvs.map (·.1)) (kvs.map (·.2)))
          = (.ok (H (enc H (setAll t kvs)), puts), db') ∧ PutsOk H S puts ∧
        db'.rocks = db.rocks ∧ StoreOk H S db' ∧
        Stored H S (db'.putHashes puts) (setAll t kvs) :=
    (Op.setBatch kvs).step hH.inj hok hH.nil hst
      (fun k hk => by obtain ⟨e, he, rfl⟩ := List.mem_map.mp hk; exact hascii e he) hchunks
  rcases hstep with ⟨herr, hno⟩ | ⟨puts, db', hreads, hputs, hrocks, hok', hnew⟩
  · refine Or.inl ⟨?_, hno⟩
    rcases hroot with rfl | ⟨rfl, rfl⟩
    · simp only [updateMpt, herr, error_bind]
    · simp only [updateMpt, Trie.ofKeys, hash_nil, herr, error_bind]
  have hok'' := hok'.putHashes hH.inj hputs
  have hlog : (db'.putHashes puts).rocks = chunkLog puts ++ db.rocks := by
    rw [(rocks_putHashes puts db').1, hrocks, chunkLog]
  rcases hroot with rfl | ⟨rfl, rfl⟩
  · refine Or.inr ⟨puts, db'.putHashes puts, ?_, hputs, hlog, hok'', hnew⟩
    simp only [updateMpt, hreads, ok_bind]
    rfl
  · -- the constructor reads the root that was just written
    have hopen := (hnew.version hok'' hH.nil).open_runIn hH.inj hH.nil
    obtain ⟨hnode, hok₃, hrocks₃⟩ := hok''.reads_of_runIn hH.inj hopen
    refine Or.inr ⟨puts, ((db'.putHashes puts).reads (Trie.setNodeForHash H
      (H (enc H (setAll .nil kvs))))).2, ?_, hputs, hrocks₃.trans hlog, hok₃, ?_⟩
    · simp only [updateMpt, Trie.ofKeys, hash_nil, hreads, ok_bind, hnode]
      rw [hash_enc hnew.good.fits.node]
      rfl
    · exact hnew.mono (by rw [hrocks₃]; exact List.Subset.refl _)

/-- The blocks that a round takes follow those of the commits. -/
theorem Plan.Ok.numbered_take (hp : p.Ok) (n : ℕ) :
    (p.queue.take n).map (·.blkSeq)
      = List.range' p.batches.flatten.length (p.queue.take n).length := by
  have hqueue : p.queue.map (·.blkSeq) = List.range' p.batches.flatten.length p.queue.length := by
    have hnum := congrArg (List.drop p.batches.flatten.length) hp.numbered
    rw [List.map_append, List.drop_left' (List.length_map _), List.range_eq_range',
      List.drop_range', ← hp.length_le, Nat.add_sub_cancel_left] at hnum
    rw [hnum]
    congr 1
    omega
  rw [List.map_take, hqueue]
  apply List.ext_getElem
  · simp
  · intro i hi hi'
    simp

/-- The leaves of a batch. -/
theorem map_leafHash {db : DB} (hledger : ∀ i v, vals[i]? = some v →
    db.getString (ledgerKey i) = some v) {b : List TreeBlock} {m : ℕ}
    (hnum : b.map (·.blkSeq) = List.range' m b.length) (hle : m + b.length ≤ vals.length) :
    b.map (leafHash H db) = ((vals.drop m).take b.length).map H := by
  have hmap : b.map (leafHash H db)
      = (List.range' m b.length).map fun i => H ((db.getString (ledgerKey i)).getD []) := by
    rw [← hnum, List.map_map]
    rfl
  rw [hmap]
  apply List.ext_getElem
  · simp only [List.length_map, List.length_range', List.length_take, List.length_drop]
    omega
  · intro i hi hi'
    have hlt : m + i < vals.length := by
      rw [List.length_map, List.length_range'] at hi
      omega
    have hget := hledger (m + i) vals[m + i] (List.getElem?_eq_getElem hlt)
    simp only [List.getElem_map, List.getElem_range', Nat.one_mul, hget, Option.getD_some,
      List.getElem_take, List.getElem_drop]

theorem leavesOf_append {db : DB} (hledger : ∀ i v, vals[i]? = some v →
    db.getString (ledgerKey i) = some v) {batches : List (List TreeBlock)} {b : List TreeBlock}
    (hnum : b.map (·.blkSeq) = List.range' batches.flatten.length b.length)
    (hle : batches.flatten.length + b.length ≤ vals.length) :
    leavesOf H vals (batches ++ [b]) = leavesOf H vals batches ++ b.map (leafHash H db) := by
  rw [map_leafHash hledger hnum hle, leavesOf, leavesOf, List.flatten_append, List.flatten_singleton,
    List.length_append, List.take_add, List.map_append]

/-- The digest that the next commit names as the previous one: the previous entry itself is
decoded. -/
def prevDigestOf (prevEntry : Option Bytes) : Bytes :=
  match prevEntry with
  | some e => (Hash.fromBase32 e).toBase32
  | none => []

theorem noBar_prevDigestOf (prevEntry : Option Bytes) : NoBar (prevDigestOf prevEntry) := by
  cases prevEntry with
  | none => exact noBar_nil
  | some e => exact noBar_toBase32 _

/-- The entry before commit `c`. -/
def prevEntry (db : DB) (c : ℕ) : Option Bytes :=
  if c = 0 then none else db.getString (commitKey (toDecimal (c - 1)))

/-- The outcome of a round that makes commit `c`: nodes and chunks, then the entry, then the
digest. -/
structure RoundOk (H : Bytes → Hash) (S : Set Bytes) (vals : List Bytes)
    (batches : List (List TreeBlock)) (b : List TreeBlock) (db db' : DB) : Prop where
  store : StoreOk H S db'
  commit : CommitOk H S vals (batches ++ [b]) batches.length db'
  digest : DigestOk H (batches ++ [b]) batches.length db'
  log : ∃ ws info d, db'.rocks = (str "digest", d) ::
      (commitKey (toDecimal batches.length), CommitInfo.toBytes info) :: ws ++ db.rocks ∧
    info.prevDigest = prevDigestOf (prevEntry db batches.length) ∧
    ∀ w ∈ ws, ChunkWrite H S w ∨
      NodeWrite H (leavesOf H vals (batches ++ [b])) batches.flatten.length batches.length w

/-- The Merkle tree of the last commit is there to be extended. -/
theorem Inv.hasFinal (h : Inv H S p vals s) (new : List Hash) :
    HasFinal H (leavesOf H vals p.batches ++ new) (leavesOf H vals p.batches).length s.db := by
  rcases Nat.eq_zero_or_pos p.batches.length with hzero | hpos
  · rw [List.length_eq_zero_iff.mp hzero]
    exact hasFinal_zero H _ _
  · have hlast := (h.commits (p.batches.length - 1) (by omega)).merkle
    rw [Nat.sub_add_cancel hpos, List.take_length] at hlast
    exact hlast.hasFinal H new

/-- The trie of the last commit is there to be extended. -/
theorem Inv.stored_last (hH : HashOk H S) (h : Inv H S p vals s) :
    Stored H S s.db (treeOf p.batches) := by
  rcases Nat.eq_zero_or_pos p.batches.length with hzero | hpos
  · rw [List.length_eq_zero_iff.mp hzero]
    exact ⟨trivial, ⟨fits_nil, fun _ => hH.nil, fun kids hk => by cases hk⟩, held_nil⟩
  · have hlast := (h.commits (p.batches.length - 1) (by omega)).stored
    rwa [Nat.sub_add_cancel hpos, List.take_length] at hlast

/-- The previous commit as a round reads it, behind new nodes of the Merkle tree. -/
theorem Inv.prevCommit_eq (h : Inv H S p vals s) {db : DB}
    (hentry : ∀ c < p.batches.length,
      db.getString (commitKey (toDecimal c)) = s.db.getString (commitKey (toDecimal c))) :
    ∃ mptRoot, prevCommit db p.batches.length
        = .ok (mptRoot, prevDigestOf (prevEntry s.db p.batches.length)) ∧
      (mptRoot = some (H (enc H (treeOf p.batches))) ∨
        mptRoot = none ∧ treeOf p.batches = .nil) := by
  rcases Nat.eq_zero_or_pos p.batches.length with hzero | hpos
  · refine ⟨none, ?_, Or.inr ⟨rfl, by rw [List.length_eq_zero_iff.mp hzero]; rfl⟩⟩
    rw [prevCommit, if_neg (by omega), prevEntry, if_pos hzero]
    rfl
  · obtain ⟨info, hget, hinfo⟩ := (h.commits (p.batches.length - 1) (by omega)).entry
    rw [Nat.sub_add_cancel hpos, List.take_length] at hinfo
    refine ⟨some (H (enc H (treeOf p.batches))), ?_, Or.inl rfl⟩
    rw [prevCommit, if_pos hpos, hentry _ (by omega), prevEntry, if_neg (by omega), hget]
    simp only [Option.getD_some, CommitInfo.ofString_toBytes hinfo.clean, ok_bind, hinfo.mptroot,
      Hash.fromBase32_toBase32]
    rfl

/-- The end of a round: the entry and the digest are written behind the nodes and chunks. -/
theorem roundOk_finish (hH : HashOk H S) {batches : List (List TreeBlock)} {b : List TreeBlock}
    {db db₁ db₂ : DB} {ws : List (Bytes × Bytes)} {puts : List (Hash × Bytes)} {info : CommitInfo}
    (hws : ∀ w ∈ ws, NodeWrite H (leavesOf H vals (batches ++ [b])) batches.flatten.length
      batches.length w) (hdb₁ : db₁.rocks = ws ++ db.rocks)
    (hmerkle : Committed H (leavesOf H vals (batches ++ [b])) batches.length db₁)
    (hputs : PutsOk H S puts) (hdb₂ : db₂.rocks = chunkLog puts ++ db₁.rocks)
    (hok : StoreOk H S db₂) (hst : Stored H S db₂ (treeOf (batches ++ [b])))
    (hinfo : InfoOk H vals (batches ++ [b]) batches.length info)
    (hprev : info.prevDigest = prevDigestOf (prevEntry db batches.length)) :
    RoundOk H S vals batches b db
      ((db₂.putString (commitKey (toDecimal batches.length)) info.toBytes).putString (str "digest")
        (DigestInfo.toBytes ⟨batches.length, info.tipBlock, (H info.toBytes).toBase32⟩)) := by
  set d : DigestInfo := ⟨batches.length, info.tipBlock, (H info.toBytes).toBase32⟩ with hd
  have hlog : ((db₂.putString (commitKey (toDecimal batches.length)) info.toBytes).putString
      (str "digest") d.toBytes).rocks = [(str "digest", d.toBytes),
        (commitKey (toDecimal batches.length), info.toBytes)] ++ chunkLog puts ++ db₁.rocks := by
    show _ :: _ :: db₂.rocks = _
    rw [hdb₂]
    rfl
  have hentry : DB.getString ((db₂.putString (commitKey (toDecimal batches.length))
      info.toBytes).putString (str "digest") d.toBytes) (commitKey (toDecimal batches.length))
      = some info.toBytes := by
    have hne : commitKey (toDecimal batches.length) ≠ str "digest" :=
      ne_of_head? (head?_commitKey _) head?_digest (by decide)
    simp only [DB.getString, DB.putString, StdMap.lookup_cons_ite, if_neg hne, if_true]
  refine ⟨?_, ⟨?_, ?_, info, hentry, hinfo⟩, ?_, ?_⟩
  · refine storeOk_log hH hok fun w (hw : w ∈ [_, _]) => ?_
    rcases List.mem_cons.mp hw with rfl | hw
    · exact Or.inr .digest
    · rw [List.mem_singleton.mp hw]
      exact Or.inr (.commit _)
  · intro l j v hl hv
    rw [← hmerkle l j v hl hv, DB.getString, hlog]
    -- neither chunks nor the two records stand under keys of nodes
    refine PutLog.lookup_append_of_not_mem fun u hu => ?_
    rcases List.mem_append.mp hu with hu | hu
    · rcases List.mem_cons.mp hu with heq | hu
      · exact ne_of_head? (head?_keyOf l j _) head?_digest (by decide) (Prod.mk.inj heq).1
      · exact ne_of_head? (head?_keyOf l j _) (head?_commitKey _) (by decide)
          (Prod.mk.inj (List.mem_singleton.mp hu)).1
    · exact (chunkWrite_of_mem hputs _ hu).ne_text hH (.merkle l j _) rfl
  · apply hst.mono
    intro w hw
    exact List.mem_cons_of_mem _ (List.mem_cons_of_mem _ hw)
  · exact ⟨d, List.lookup_cons_self, noBar_toBase32 _, rfl, hinfo.tipBlock, info.toBytes, hentry, rfl⟩
  · refine ⟨chunkLog puts ++ ws, info, d.toBytes, ?_, hprev, ?_⟩
    · rw [hlog, hdb₁]
      simp
    · intro w hw
      rcases List.mem_append.mp hw with hw | hw
      · exact Or.inl (chunkWrite_of_mem hputs w hw)
      · exact Or.inr (hws w hw)

/-- **The work of a round**: it makes the next commit, or a tree does not fit. -/
theorem commitBlocks_spec (hH : HashOk H S) (hp : p.Ok) (h : Inv H S p vals s)
    {first : TreeBlock} {blks : List TreeBlock} {n : ℕ} (hb : p.queue.take n = first :: blks)
    (hascii : ∀ blk ∈ first :: blks, ∀ k ∈ blk.mptKs, Ascii k)
    (hchunks : ∀ t ∈ setTrace (treeOf p.batches) (mptBlks (first :: blks)), Chunks H S t) :
    (commitBlocks H s.db p.batches.length first (blks.getLastD first) (first :: blks)
        = .error .oversize ∧
      ∃ t ∈ setTrace (treeOf p.batches) (mptBlks (first :: blks)), ¬ Fits t) ∨
    ∃ db', commitBlocks H s.db p.batches.length first (blks.getLastD first) (first :: blks) = .ok db' ∧
      RoundOk H S vals p.batches (first :: blks) s.db db' := by
  set b := first :: blks with hbdef
  have hnum : b.map (·.blkSeq) = List.range' p.batches.flatten.length b.length := by
    have := hp.numbered_take n
    rwa [hb] at this
  have hle : p.batches.flatten.length + b.length ≤ vals.length := by
    have h1 := hp.length_le
    have h2 := congrArg List.length hb
    have h3 := h.length_vals
    rw [List.length_take] at h2
    omega
  have hlen : (leavesOf H vals p.batches).length = p.batches.flatten.length :=
    length_leavesOf (by omega)
  have hfirst : first.blkSeq = (leavesOf H vals p.batches).length := by
    rw [hlen]
    rw [hbdef, List.map_cons, List.length_cons, List.range'_succ] at hnum
    exact (List.cons.inj hnum).1
  have hlast : (blks.getLastD first).blkSeq + 1 = p.batches.flatten.length + b.length := by
    have hmap := congrArg List.getLast? hnum
    rw [List.getLast?_map, hbdef, List.getLast?_cons, List.length_cons, List.getLast?_range'] at hmap
    have hseq : (blks.getLast?.getD first).blkSeq = p.batches.flatten.length + blks.length := by
      simpa using hmap
    rw [List.getLastD_eq_getLast?, hseq, hbdef, List.length_cons]
    omega
  have hleaves := leavesOf_append (H := H) h.ledger hnum hle
  -- the Merkle tree
  obtain ⟨ws, hupdate, hws⟩ := update_spec H (show b.map (leafHash H s.db) ≠ [] by simp [hbdef])
    p.batches.length (h.hasFinal _)
  rw [← hleaves] at hupdate hws
  rw [hlen] at hws
  set db₁ : DB := { s.db with rocks := ws ++ s.db.rocks } with hdb₁
  have hnode : ∀ w ∈ ws, Write H S vals.length p.batches.flatten.length p.batches.length w :=
    fun w hw => .node _ (hws.sound w hw)
  have hok₁ : StoreOk H S db₁ := storeOk_log hH h.store fun w hw => (hnode w hw).chunk_or_text
  have hmerkle₁ : Committed H (leavesOf H vals (p.batches ++ [b])) p.batches.length db₁ := by
    have hfinal := h.hasFinal (b.map (leafHash H s.db))
    rw [← hleaves, hlen] at hfinal
    apply committed_append H hfinal hws
    rw [hleaves, List.length_append, hlen]
    omega
  have hst₁ : Stored H S db₁ (treeOf p.batches) :=
    (h.stored_last hH).mono (List.subset_append_right _ _)
  -- the previous commit
  obtain ⟨mptRoot, hprev, hroot⟩ := @Inv.prevCommit_eq _ _ _ _ _ h db₁ fun c hc =>
    getString_log fun w hw => (hnode w hw).ne_commitKey hH (Nat.ne_of_lt hc)
  have hupdate' : update H s.db first.blkSeq (b.map fun blk => (leafHash H s.db blk).toBase32)
      (prevCommitSeq p.batches.length)
      = .ok (rootOf H (leavesOf H vals (p.batches ++ [b])) p.batches.length, db₁) := by
    rw [hfirst, ← hupdate, List.map_map]
    rfl
  -- the trie
  rcases updateMpt_spec hH hok₁ hst₁ hroot (ascii_mptBlks hascii) hchunks with
    ⟨herr, hno⟩ | ⟨puts, db₂, hmpt, hputs, hrocks, hok₂, hst₂⟩
  · refine Or.inl ⟨?_, hno⟩
    simp only [commitBlocks, hupdate', hprev, herr, ok_bind, error_bind]
  have htree : treeOf (p.batches ++ [b]) = setAll (treeOf p.batches) (mptBlks b) :=
    treeOf_append _ _
  refine Or.inr ⟨_, by simp only [commitBlocks, hupdate', hprev, hmpt, ok_bind]; rfl,
    roundOk_finish hH hws.sound rfl hmerkle₁ hputs hrocks hok₂ (by rwa [htree]) ?_ rfl⟩
  exact
    { clean := ⟨noBar_prevDigestOf _, noBar_toBase32 _, noBar_keyOf _ _ _, noBar_toBase32 _⟩
      commitSeq := rfl
      tipBlock := by
        simp only [List.flatten_append, List.flatten_singleton, List.length_append]
        exact hlast
      mtroot := rfl
      mtrootkey := rfl
      mptroot := by simp only [htree] }

/-- **A round of `buildTree`** keeps the invariant, or a tree does not fit. -/
theorem buildTree_inv (hH : HashOk H S) (hp : p.Ok) (h : Inv H S p vals s) (n : ℕ)
    (hascii : ∀ blk ∈ p.queue, ∀ k ∈ blk.mptKs, Ascii k)
    (hchunks : ∀ t ∈ setTrace (treeOf p.batches) (mptBlks (p.queue.take n)), Chunks H S t) :
    (s.buildTree H n = .error .oversize ∧
      ∃ t ∈ setTrace (treeOf p.batches) (mptBlks (p.queue.take n)), ¬ Fits t) ∨
    ∃ s', s.buildTree H n = .ok s' ∧ Inv H S (p.step (.build n)) vals s' ∧
      (p.queue.take n ≠ [] → RoundOk H S vals p.batches (p.queue.take n) s.db s'.db) := by
  rw [buildTree, h.queue, Plan.step]
  rcases hb : p.queue.take n with _ | ⟨first, blks⟩
  · rw [if_pos rfl]
    exact Or.inr ⟨s, rfl, h, fun hne => absurd rfl hne⟩
  rw [if_neg (List.cons_ne_nil _ _)]
  rw [hb] at hchunks
  have hsub : ∀ blk ∈ first :: blks, blk ∈ p.queue := fun blk hblk =>
    List.mem_of_mem_take (hb ▸ hblk)
  simp only [h.commitSeq]
  rcases commitBlocks_spec hH hp h hb (fun blk hblk => hascii blk (hsub blk hblk)) hchunks with
    ⟨herr, hno⟩ | ⟨db', hok, hround⟩
  · exact Or.inl ⟨by rw [herr, error_bind], hno⟩
  refine Or.inr ⟨_, by rw [hok, ok_bind]; rfl, ?_, fun _ => hround⟩
  obtain ⟨ws, info, d, hlog, -, hws⟩ := hround.log
  have hdb : db'.rocks = ((str "digest", d) ::
      (commitKey (toDecimal p.batches.length), info.toBytes) :: ws) ++ s.db.rocks := hlog
  have hwrites : ∀ w ∈ (str "digest", d) ::
      (commitKey (toDecimal p.batches.length), info.toBytes) :: ws,
      Write H S vals.length p.batches.flatten.length p.batches.length w := by
    intro w hw
    rcases List.mem_cons.mp hw with rfl | hw
    · exact .digest rfl
    rcases List.mem_cons.mp hw with rfl | hw
    · exact .commit rfl
    · exact (hws w hw).elim .chunk (.node _)
  have hget : ∀ k, (∀ w ∈ (str "digest", d) ::
      (commitKey (toDecimal p.batches.length), info.toBytes) :: ws, w.1 ≠ k) →
      db'.getString k = s.db.getString k := by
    intro k hk
    rw [← @getString_log s.db _ _ hk]
    exact congrArg (List.lookup k) hdb
  have hlenle : ∀ c, (p.batches.take c).flatten.length ≤ vals.length := fun c => by
    have h1 := length_flatten_take_le p.batches c
    have h2 := hp.length_le
    have h3 := h.length_vals
    omega
  refine
    { next := h.next
      queue := rfl
      commitSeq := by simp only [List.length_append, List.length_singleton]
      length_vals := h.length_vals
      ledger := ?_, store := hround.store, commits := ?_, fresh := ?_, digest := ?_ }
  · intro i v hv
    rw [← h.ledger i v hv]
    have hi : i < vals.length := (List.getElem?_eq_some_iff.mp hv).1
    exact hget _ fun w hw => (hwrites w hw).ne_ledgerKey hH hi
  · intro c hc
    simp only [List.length_append, List.length_singleton] at hc
    rcases Nat.lt_succ_iff_lt_or_eq.mp hc with hc | rfl
    · have hcommit := (h.commits c hc).log hH hwrites (hlenle _) (length_flatten_take_le _ _)
        (Nat.ne_of_lt hc)
      simp only
      rw [List.take_append_of_le_length (by omega)]
      exact hcommit.congr (fun k => congrArg (List.lookup k) hdb) (by rw [hdb]; exact List.Subset.refl _)
    · simp only
      rw [List.take_of_length_le (by simp)]
      exact hround.commit
  · intro c hc
    simp only [List.length_append, List.length_singleton] at hc
    rw [← h.fresh c (by omega)]
    exact hget _ fun w hw => (hwrites w hw).ne_commitKey hH (by omega)
  · intro c hc
    simp only [List.length_append, List.length_singleton, Nat.add_right_cancel_iff] at hc
    rw [hc]
    exact hround.digest

end

end LedgerDatabase.Ledgerdb.LedgerDB
