import LedgerDatabase.Ledgerdb.Equiv.GetAudit
import LedgerDatabase.Ledgerdb.Equiv.Interleaving

/-!
# When `GetProofs` and `GetAudit` return

Between any two writes of the other threads the commits that a reader finds are complete (`Served`),
so both functions return as soon as there is a commit, for all requests that do not go behind the
last commit or the end of the list of blocks.  Before the first commit there is no digest, and both
throw.
-/

namespace LedgerDatabase.Ledgerdb.LedgerDB

open Mpt MerkleTree

variable {H : Bytes → Hash} {S : Set Bytes} {vals : List Bytes} {batches : List (List TreeBlock)}
  {db : DB} {c : ℕ}

/-! ### What is missing -/

theorem ofString_digest_nil : DigestInfo.ofString [] = .error .invalidArgument := rfl

theorem ofString_commit_nil : CommitInfo.ofString [] = .error .invalidArgument := rfl

/-- Without a digest nothing is returned. -/
theorem getProofs_error (h : db.getString (str "digest") = none) (keys : List Bytes)
    (blks : List ℕ) : (getProofs H keys blks).run db.view = .error .invalidArgument := by
  rw [getProofs_eq]
  show Ask.run _
    (Ask.ofExcept (DigestInfo.ofString ((db.getString (str "digest")).getD [])) >>= _) = _
  rw [h, Option.getD_none, ofString_digest_nil]
  rfl

/-- The loop needs a block for every key. -/
theorem proofLoop_run_ok {view : Query → Option Bytes} {commitSeq mtRootKey mpt : Bytes} {tip : ℕ} :
    ∀ {keys : List Bytes} {blks : List ℕ} {current : ℕ} {r : List Proof × List MPTProof},
      (proofLoop commitSeq mtRootKey tip mpt keys blks current).run view = .ok r →
      keys.length ≤ blks.length
  | [], _, _, _, _ => Nat.zero_le _
  | _ :: _, [], _, _, h => by cases h
  | key :: keys, b :: blks, current, r, h => by
    rw [proofLoop, Ask.run_bind] at h
    obtain ⟨mt, -, h⟩ := bind_eq_ok_iff.mp h
    rw [Ask.run_bind] at h
    obtain ⟨p, -, h⟩ := bind_eq_ok_iff.mp h
    rw [Ask.run_bind] at h
    obtain ⟨rest, hrest, -⟩ := bind_eq_ok_iff.mp h
    exact Nat.succ_le_succ (proofLoop_run_ok hrest)

theorem getProofs_run_ok {keys : List Bytes} {blks : List ℕ} {p : Proofs}
    (h : (getProofs H keys blks).run db.view = .ok p) : keys.length ≤ blks.length := by
  rw [getProofs, Ask.run_bind] at h
  obtain ⟨⟨commitSeq, cinfo⟩, -, h⟩ := bind_eq_ok_iff.mp h
  simp only [Ask.run_bind] at h
  obtain ⟨mpt, -, h⟩ := bind_eq_ok_iff.mp h
  obtain ⟨r, hloop, -⟩ := bind_eq_ok_iff.mp h
  exact proofLoop_run_ok hloop

/-! ### What is served -/

/-- **`GetProofs` returns** on requests for ASCII keys, each with a block. -/
theorem Served.getProofs_runIn (hH : HashOk H S) (h : Served H S vals batches db)
    (hc : 0 < batches.length) {keys : List Bytes} {blks : List ℕ} (hkeys : ∀ k ∈ keys, Ascii k)
    (hlen : keys.length ≤ blks.length) :
    ∃ proofs, (getProofs H keys blks).runIn (knowStore H S db) = some (.ok proofs) := by
  obtain ⟨info, hknows⟩ := h.knows hH (Nat.sub_lt hc Nat.one_pos)
  obtain ⟨proofs, hproofs⟩ := hknows.proofsOf_runIn hH.inj hH.nil hkeys (fun b _ => by
    rw [hknows.info.mtrootkey]
    exact getProof_returns (fun k => ⟨_, rfl⟩) _ _ _ _) hlen
  exact ⟨proofs, (h.digest _ (Nat.sub_add_cancel hc)).getProofs_runIn hproofs⟩

section

variable {p : Plan} {s : LedgerDB} {ws : List (Bytes × Bytes)}

/-- The round under way writes no block. -/
theorem Mid.getString_ledgerKey (hH : HashOk H S) (h : Mid H S p vals s ws) (i : ℕ) :
    (settle s ws).db.getString (ledgerKey i) = s.db.getString (ledgerKey i) := by
  rw [settle]
  split_ifs with hws
  · rfl
  · obtain ⟨front, d, rfl, hround⟩ := h.shape.resolve_left hws
    apply getString_log
    intro w hw
    rcases List.mem_append.mp (List.mem_reverse.mp hw) with hw | hw
    · exact ((hround w hw).apart hH).2.1 i
    · rw [List.mem_singleton.mp hw]
      exact ne_of_head? head?_digest (head?_ledgerKey i) (by decide)

/-- **Between two writes** the rounds that have ended are served. -/
theorem Mid.served (hH : HashOk H S) (hp : p.Ok) (h : Mid H S p vals s ws) :
    Served H S vals (p.batches.take s.commitSeq) s.db := by
  have hlen : (p.batches.take s.commitSeq).length = s.commitSeq := by
    rw [List.length_take, Nat.min_eq_left h.commitSeq_le]
  constructor
  · exact fun b hb => hp.nonempty b (List.mem_of_mem_take hb)
  · have h1 := length_flatten_take_le p.batches s.commitSeq
    have h2 := hp.length_le
    have h3 := h.length_vals
    omega
  · intro i v hv
    rw [← h.getString_ledgerKey hH]
    exact h.final.ledger i v hv
  · exact h.store
  · intro c hc
    rw [hlen] at hc
    rw [List.take_take, Nat.min_eq_left hc]
    exact h.commits c hc
  · intro c hc
    rw [hlen] at hc
    exact h.digest c hc

end

/-! ### Reachable worlds -/

/-- Before the first commit there is no digest, and the blocks are as `Set` stores them. -/
structure Recorded (w : World) : Prop where
  digest : w.ledger.commitSeq = 0 → w.ledger.db.getString (str "digest") = none
  blocks : ∀ i v, w.ledger.db.getString (ledgerKey i) = some v → BlockVal v

theorem recorded_start (script : List Step) : Recorded { todo := script } where
  digest _ := rfl
  blocks _ _ hv := nomatch hv

/-- **One step of the other threads.** -/
theorem Recorded.act (hH : HashOk H S) {script done : List Step} (hascii : AsciiSteps script)
    {w w' : World} (h : Recorded w) (hat : At H S script done vals w) (hact : Act H w w') :
    Recorded w' := by
  obtain ⟨hscript, hmid⟩ := hat
  cases hact with
  | @set s s' ws keys values timestamp coins todo r hset =>
    rcases set_cases hset with ⟨-, rfl⟩ | ⟨hlen, blkVal, new, heads, hval, hpre, rfl⟩
    · exact ⟨h.digest, h.blocks⟩
    constructor
    · intro hseq
      rw [← h.digest hseq]
      exact getString_addBlock hpre (by decide)
        (ne_of_head? head?_digest (head?_ledgerKey _) (by decide))
    · intro i v hv
      have hnew : ∀ u, (ledgerKey i, u) ∉ new := fun u hu =>
        ne_of_head? (head?_skiplist (hpre _ hu)) (head?_ledgerKey i) (by decide) rfl
      rw [List.append_assoc] at hv
      have hv : (((ledgerKey s.nextBlockSeq, blkVal) :: s.db.rocks).lookup (ledgerKey i)) = some v :=
        (PutLog.lookup_append_of_not_mem hnew).symm.trans hv
      rw [StdMap.lookup_cons_ite] at hv
      split_ifs at hv
      · obtain rfl := Option.some.inj hv
        refine ⟨keys, values, hlen, hascii keys values timestamp coins ?_, hval⟩
        rw [hscript]
        exact List.mem_append_right _ List.mem_cons_self
      · exact h.blocks i v hv
  | start hbuild => exact ⟨h.digest, h.blocks⟩
  | @write s w ws todo =>
    obtain ⟨front, d, hfront, hround⟩ := hmid.shape.resolve_left (List.cons_ne_nil _ _)
    have hget : ∀ k, w.1 ≠ k → DB.getString { s.db with rocks := w :: s.db.rocks } k
        = s.db.getString k := fun k hk =>
      (StdMap.lookup_cons_ite _ _).trans (if_neg (Ne.symm hk))
    cases front with
    | nil =>
      -- the digest ends the round
      obtain ⟨rfl, rfl⟩ := List.cons.inj hfront
      constructor
      · intro hseq
        exact absurd hseq (Nat.succ_ne_zero _)
      · intro i v hv
        apply h.blocks i v
        rwa [hget _ (ne_of_head? head?_digest (head?_ledgerKey i) (by decide))] at hv
    | cons w' front =>
      obtain ⟨rfl, rfl⟩ := List.cons.inj hfront
      obtain ⟨-, hledger, hdigest⟩ := (hround w List.mem_cons_self).apart hH
      constructor
      · intro hseq
        have hne : front ++ [(str "digest", d)] ≠ [] :=
          List.append_ne_nil_of_right_ne_nil _ (List.cons_ne_nil _ _)
        have hseq' : s.commitSeq = 0 := (if_neg hne).symm.trans hseq
        exact (hget _ hdigest).trans (h.digest hseq')
      · intro i v hv
        apply h.blocks i v
        rwa [hget _ (hledger i)] at hv
  | @read s ws todo x hx =>
    obtain ⟨-, hrocks⟩ := StoreOk.getHash_present hH hmid.store hx
    have hget : ∀ k, DB.getString (s.db.getHash x).2 k = s.db.getString k := fun k =>
      congrArg (List.lookup k) hrocks
    constructor
    · exact fun hseq => (hget _).trans (h.digest hseq)
    · intro i v hv
      exact h.blocks i v ((hget _).symm.trans hv)

/-- What a reader can rely on in a reachable world. -/
theorem served_of_reach (hH : HashOk H S) {script : List Step} (hascii : AsciiSteps script)
    (hchunks : ∀ t ∈ batchTrees .nil (plan script).batches, Chunks H S t) {w : World}
    (hreach : Relation.ReflTransGen (Act H) { todo := script } w) :
    Recorded w ∧ ∃ done vals, At H S script done vals w := by
  induction hreach with
  | refl => exact ⟨recorded_start script, [], [], rfl, .of_inv inv_empty⟩
  | tail _ hact ih =>
    obtain ⟨hrec, done, vals, hat⟩ := ih
    obtain ⟨done', vals', hat', -⟩ := act_at hH hascii hchunks hat hact
    exact ⟨hrec.act hH hascii hat hact, done', vals', hat'⟩

/-! ### `GetProofs` and `GetAudit` -/

section

variable {script : List Step} {w : World}

/-- **`GetProofs` returns** on ASCII keys exactly when there is a commit and a block for each key. -/
theorem exists_getProofs (hH : HashOk H S) (hascii : AsciiSteps script)
    (hchunks : ∀ t ∈ batchTrees .nil (plan script).batches, Chunks H S t)
    (hreach : Relation.ReflTransGen (Act H) { todo := script } w) {keys : List Bytes}
    (hkeys : ∀ k ∈ keys, Ascii k) (blks : List ℕ) :
    (∃ p, (w.ledger.db.reads (getProofs H keys blks)).1 = .ok p) ↔
      0 < w.ledger.commitSeq ∧ keys.length ≤ blks.length := by
  obtain ⟨hrec, done, vals, -, hmid⟩ := served_of_reach hH hascii hchunks hreach
  have hserved := hmid.served hH (plan_ok done)
  constructor
  · rintro ⟨p, hp⟩
    rw [reads_fst] at hp
    refine ⟨?_, getProofs_run_ok hp⟩
    by_contra hzero
    rw [getProofs_error (hrec.digest (by omega))] at hp
    cases hp
  · rintro ⟨hpos, hlen⟩
    have hcommits : 0 < ((plan done).batches.take w.ledger.commitSeq).length := by
      rwa [List.length_take, Nat.min_eq_left hmid.commitSeq_le]
    obtain ⟨p, hp⟩ := hserved.getProofs_runIn hH hcommits hkeys hlen
    exact ⟨p, (hserved.store.reads_of_runIn hH.inj hp).1⟩

/-- **`GetAudit` returns** for every commit. -/
theorem exists_getAudit (hH : HashOk H S) (hascii : AsciiSteps script)
    (hchunks : ∀ t ∈ batchTrees .nil (plan script).batches, Chunks H S t)
    (hreach : Relation.ReflTransGen (Act H) { todo := script } w) {seq : ℕ}
    (hseq : seq < w.ledger.commitSeq) :
    ∃ a, (w.ledger.db.reads (getAudit H seq)).1 = .ok a := by
  obtain ⟨hrec, done, vals, -, hmid⟩ := served_of_reach hH hascii hchunks hreach
  have hserved := hmid.served hH (plan_ok done)
  have hvals : ∀ v ∈ vals, BlockVal v := by
    intro v hv
    obtain ⟨i, hi⟩ := List.getElem?_of_mem hv
    exact hrec.blocks i v (hserved.ledger i v hi)
  have hlen : seq < ((plan done).batches.take w.ledger.commitSeq).length := by
    rwa [List.length_take, Nat.min_eq_left hmid.commitSeq_le]
  obtain ⟨a, ha, -⟩ := hserved.getAudit_runIn hH hvals hlen
  exact ⟨a, (hserved.store.reads_of_runIn hH.inj ha).1⟩

/-- `GetAudit` throws when there is no entry under the number. -/
theorem getAudit_runIn_error {seq : ℕ} (hentry : db.getString (commitKey (toDecimal seq)) = none)
    (hdigest : db.getString (str "digest") = none ∨ ∃ c, DigestOk H batches c db) :
    (getAudit H seq).runIn (knowStore H S db) = some (.error .invalidArgument) := by
  rcases hdigest with hnone | ⟨c, d, hd, hbar, -⟩
  · have hread : (readString (str "digest")).runIn (knowStore H S db) = some (.ok []) :=
      Ask.runIn_query_bind _ _ (show knowStore H S db (.string _) = some none from
        congrArg some hnone)
    rw [getAudit, Ask.runIn_bind_ok _ _ hread,
      Ask.runIn_ofExcept_bind_error _ _ ofString_digest_nil]
  · have hread : (readString (str "digest")).runIn (knowStore H S db) = some (.ok d.toBytes) :=
      readString_runIn (congrArg some hd)
    have hall := readAll_runIn (H := H) (S := S) db
      ((List.range' seq (d.tipBlock + 1 - seq)).map fun i => commitKey (toDecimal i))
    have hhead : ((((List.range' seq (d.tipBlock + 1 - seq)).map
        fun i => commitKey (toDecimal i)).map
          fun k => (db.getString k).getD []).head?.getD []) = [] := by
      cases d.tipBlock + 1 - seq with
      | zero => rfl
      | succ n =>
        rw [List.range'_succ]
        show (db.getString (commitKey (toDecimal seq))).getD [] = []
        rw [hentry, Option.getD_none]
    rw [getAudit, Ask.runIn_bind_ok _ _ hread,
      Ask.runIn_ofExcept_bind_ok _ _ (DigestInfo.ofString_toBytes hbar), Ask.runIn_bind_ok _ _ hall,
      hhead, Ask.runIn_ofExcept_bind_error _ _ ofString_commit_nil]

/-- Behind the last commit there is no entry, unless a round is writing it. -/
theorem getAudit_error (hH : HashOk H S) (hascii : AsciiSteps script)
    (hchunks : ∀ t ∈ batchTrees .nil (plan script).batches, Chunks H S t)
    (hreach : Relation.ReflTransGen (Act H) { todo := script } w) (hwrites : w.writes = []) {seq : ℕ}
    (hseq : w.ledger.commitSeq ≤ seq) :
    (w.ledger.db.reads (getAudit H seq)).1 = .error .invalidArgument := by
  obtain ⟨hrec, done, vals, -, hmid⟩ := served_of_reach hH hascii hchunks hreach
  rw [hwrites] at hmid
  have hinv := hmid.inv
  have hentry := hinv.fresh seq (hinv.commitSeq ▸ hseq)
  have hdigest : w.ledger.db.getString (str "digest") = none ∨
      ∃ c, DigestOk H (plan done).batches c w.ledger.db := by
    rcases Nat.eq_zero_or_pos w.ledger.commitSeq with hzero | hpos
    · exact Or.inl (hrec.digest hzero)
    · exact Or.inr ⟨_, hinv.digest _ (hinv.commitSeq ▸ Nat.sub_add_cancel hpos)⟩
  exact (hmid.store.reads_of_runIn hH.inj (getAudit_runIn_error hentry hdigest)).1

end

end LedgerDatabase.Ledgerdb.LedgerDB
