import LedgerDatabase.Ledgerdb.Equiv.Run

/-!
# The commits of a ledger

`run_inv`: after any run the ledger has done what the plan says.  `run_commits`: so its commits are
numbered without gaps, each covers the blocks after the one before it, and the roots in its entry
are those of the Merkle tree and of the trie over all blocks up to its tip.
-/

namespace LedgerDatabase.Ledgerdb.LedgerDB

open Mpt MerkleTree

/-! ### The blocks of a run -/

/-- The blocks of the calls of `Set`, from number `i` on. -/
def blocksFrom (i : ℕ) : List Step → List TreeBlock
  | [] => []
  | .set keys _ timestamp _ :: steps =>
    if keys.length = 0 then blocksFrom i steps
    else ⟨i, keys, toDecimal timestamp⟩ :: blocksFrom (i + 1) steps
  | .build _ :: steps => blocksFrom i steps

/-- The blocks of the calls of `Set`. -/
def blocksOf (steps : List Step) : List TreeBlock := blocksFrom 0 steps

theorem blocks_foldl : ∀ (steps : List Step) (p : Plan),
    (steps.foldl Plan.step p).batches.flatten ++ (steps.foldl Plan.step p).queue
      = p.batches.flatten ++ p.queue ++ blocksFrom p.count steps
  | [], p => by simp [blocksFrom]
  | .set keys values timestamp coins :: steps, p => by
    rw [List.foldl_cons, blocks_foldl steps, blocksFrom, Plan.step]
    split_ifs with h
    · rfl
    · simp
  | .build n :: steps, p => by
    rw [List.foldl_cons, blocks_foldl steps, blocksFrom, Plan.step]
    split_ifs with h
    · rfl
    · simp only [List.flatten_append, List.flatten_singleton, List.append_assoc,
        List.take_append_drop]

/-- Every block is in the queue or has been taken by one round. -/
theorem batches_append_queue (steps : List Step) :
    (plan steps).batches.flatten ++ (plan steps).queue = blocksOf steps :=
  (blocks_foldl steps {}).trans (by simp [blocksOf])

/-! ### Runs -/

section

variable {H : Bytes → Hash} {S : Set Bytes}

theorem inv_empty : Inv H S {} [] {} where
  next := rfl
  queue := rfl
  commitSeq := rfl
  length_vals := rfl
  ledger i v hv := by simp at hv
  store := ⟨by simp, by simp⟩
  commits c hc := absurd hc (Nat.not_lt_zero c)
  fresh c _ := rfl
  digest c hc := by simp at hc

/-- The trees of a round are among those of the run. -/
theorem chunks_setTrace {steps : List Step} {n : ℕ}
    (hchunks : ∀ t ∈ batchTrees .nil (plan (steps ++ [.build n])).batches, Chunks H S t) :
    ∀ t ∈ setTrace (treeOf (plan steps).batches) (mptBlks ((plan steps).queue.take n)),
      Chunks H S t := by
  intro t ht
  by_cases hnil : (plan steps).queue.take n = []
  · rw [hnil] at ht
    exact absurd ht List.not_mem_nil
  · apply hchunks t
    rw [plan_append, Plan.step, if_neg hnil]
    simp only [batchTrees_append]
    exact List.mem_append_right _ ht

/-- A step of a run that keeps the invariant, or fails: a call of `Set`, or a tree that does not
fit. -/
theorem exec_inv (hH : HashOk H S) {steps : List Step} {st : Step} (hascii : AsciiSteps steps)
    (hchunks : ∀ t ∈ batchTrees .nil (plan (steps ++ [st])).batches, Chunks H S t)
    {vals : List Bytes} {s : LedgerDB} (h : Inv H S (plan steps) vals s) :
    (∃ s' vals', st.exec H s = .ok s' ∧ Inv H S (plan (steps ++ [st])) vals' s') ∨
    ∃ e, st.exec H s = .error e ∧ ((∃ keys values ts coins, st = .set keys values ts coins) ∨
      e = .oversize ∧ ∃ t ∈ batchTrees .nil (plan (steps ++ [st])).batches, ¬ Fits t) := by
  rw [plan_append] at hchunks ⊢
  have hp := plan_ok steps
  cases st with
  | set keys values timestamp coins =>
    cases hset : s.set keys values timestamp coins with
    | error e =>
      refine Or.inr ⟨e, ?_, Or.inl ⟨keys, values, timestamp, coins, rfl⟩⟩
      rw [Step.exec, hset, error_bind]
    | ok r =>
      obtain ⟨vals', hinv, -⟩ := set_inv hH hp h hset
      refine Or.inl ⟨r.1, vals', ?_, hinv⟩
      rw [Step.exec, hset, ok_bind]
      rfl
  | build n =>
    rw [Step.exec]
    rw [Plan.step] at hchunks ⊢
    by_cases hnil : (plan steps).queue.take n = []
    · rw [if_pos hnil]
      refine Or.inl ⟨s, vals, ?_, h⟩
      rw [buildTree, h.queue, hnil]
    · rw [if_neg hnil] at hchunks ⊢
      simp only [batchTrees_append] at hchunks ⊢
      rcases buildTree_inv hH hp h n
        (fun blk hblk => ascii_plan hascii blk (List.mem_append_right _ hblk))
        (fun t ht => hchunks t (List.mem_append_right _ ht)) with
        ⟨herr, t, ht, hno⟩ | ⟨s', hok, hinv, -⟩
      · exact Or.inr ⟨.oversize, herr, Or.inr ⟨rfl, t, List.mem_append_right _ ht, hno⟩⟩
      · rw [Plan.step, if_neg hnil] at hinv
        exact Or.inl ⟨s', vals, hok, hinv⟩

/-- **The invariant of a run**, or the step at which it fails. -/
theorem run_inv (hH : HashOk H S) (steps : List Step) (hascii : AsciiSteps steps)
    (hchunks : ∀ t ∈ batchTrees .nil (plan steps).batches, Chunks H S t) :
    (∃ s vals, run H steps = .ok s ∧ Inv H S (plan steps) vals s) ∨
    ∃ pre st post s e, steps = pre ++ st :: post ∧ run H pre = .ok s ∧ st.exec H s = .error e ∧
      ((∃ keys values ts coins, st = .set keys values ts coins) ∨
        e = .oversize ∧ ∃ t ∈ batchTrees .nil (plan steps).batches, ¬ Fits t) := by
  induction steps using List.reverseRecOn with
  | nil => exact Or.inl ⟨{}, [], rfl, inv_empty⟩
  | append_singleton steps st ih =>
    have hascii' : AsciiSteps steps := fun keys values ts coins hmem =>
      hascii keys values ts coins (List.mem_append_left _ hmem)
    have hsub := batchTrees_subset steps st
    rcases ih hascii' (fun t ht => hchunks t (hsub ht)) with
      ⟨s, vals, hrun, hinv⟩ | ⟨pre, st', post, s, e, rfl, hrun, herr, hwhy⟩
    · rcases exec_inv hH hascii' hchunks hinv with ⟨s', vals', hexec, hinv'⟩ | ⟨e, herr, hwhy⟩
      · exact Or.inl ⟨s', vals', by rw [run_append, hrun, ok_bind, hexec], hinv'⟩
      · exact Or.inr ⟨steps, st, [], s, e, rfl, hrun, herr, hwhy⟩
    · refine Or.inr ⟨pre, st', post ++ [st], s, e, by simp, hrun, herr, ?_⟩
      exact hwhy.imp_right fun ⟨he, t, ht, hno⟩ => ⟨he, t, hsub ht, hno⟩

/-- A run that fails at a step. -/
theorem run_eq_error {pre post : List Step} {st : Step} {s : LedgerDB} {e : Fault}
    (hpre : run H pre = .ok s) (herr : st.exec H s = .error e) :
    run H (pre ++ st :: post) = .error e := by
  rw [run, List.foldlM_append]
  change (run H pre >>= fun s => _) = _
  rw [hpre, ok_bind, List.foldlM_cons, herr, error_bind]

/-- The invariant of a run that returns. -/
theorem inv_of_run (hH : HashOk H S) {steps : List Step} (hascii : AsciiSteps steps)
    (hchunks : ∀ t ∈ batchTrees .nil (plan steps).batches, Chunks H S t) {s : LedgerDB}
    (hrun : run H steps = .ok s) : ∃ vals, Inv H S (plan steps) vals s := by
  rcases run_inv hH steps hascii hchunks with
    ⟨s', vals, hrun', hinv⟩ | ⟨pre, st, post, s', e, rfl, hpre, herr, -⟩
  · obtain rfl := Except.ok.inj (hrun.symm.trans hrun')
    exact ⟨vals, hinv⟩
  · rw [run_eq_error hpre herr] at hrun
    cases hrun

theorem chunks_of_runChunks {steps : List Step} :
    ∀ t ∈ batchTrees .nil (plan steps).batches, Chunks H {c | c ∈ runChunks H steps} t :=
  fun t ht => chunks_of_chunkList fun _ hc =>
    List.mem_cons_of_mem _ (List.mem_flatMap.mpr ⟨t, ht, hc⟩)

end

/-! ### The commits -/

/-- The stored blocks `0, …, tip` as leaves. -/
def storedLeaves (H : Bytes → Hash) (db : DB) (tip : ℕ) : List Hash :=
  (List.range (tip + 1)).map fun i => H ((db.getString (ledgerKey i)).getD [])

/-- Commit `c` is right: its rounds have taken the blocks up to its tip, and its roots are those of
the Merkle tree over these blocks and of a trie with their timestamps. -/
def CommitRight (H : Bytes → Hash) (steps : List Step) (db : DB) (c : ℕ) : Prop :=
  ∃ e info t, db.getString (commitKey (toDecimal c)) = some e ∧ CommitInfo.ofString e = .ok info ∧
    info.commitSeq = c ∧
    info.tipBlock < (blocksOf steps).length ∧
    ((plan steps).batches.take (c + 1)).flatten = (blocksOf steps).take (info.tipBlock + 1) ∧
    info.mtroot = (merkleRoot H (storedLeaves H db info.tipBlock)).toBase32 ∧
    info.mptroot = (H (enc H t)).toBase32 ∧
    (∀ k, Ascii k → t.get (hexKey k) = lastTs ((blocksOf steps).take (info.tipBlock + 1)) k) ∧
    ∀ k, Ascii k → (db.reads (Trie.get H (Hash.fromBase32 info.mptroot) k)).1
      = .ok ((lastTs ((blocksOf steps).take (info.tipBlock + 1)) k).getD [])

section

variable {H : Bytes → Hash} {S : Set Bytes}

theorem leavesOf_eq_storedLeaves {vals : List Bytes} {db : DB} {batches : List (List TreeBlock)}
    {tip : ℕ} (hledger : ∀ i v, vals[i]? = some v → db.getString (ledgerKey i) = some v)
    (htip : tip + 1 = batches.flatten.length) (hle : batches.flatten.length ≤ vals.length) :
    leavesOf H vals batches = storedLeaves H db tip := by
  rw [leavesOf, storedLeaves, ← htip]
  apply List.ext_getElem
  · simp only [List.length_map, List.length_take, List.length_range]
    omega
  · intro i hi hi'
    rw [List.length_map, List.length_range] at hi'
    have hget := hledger i vals[i] (List.getElem?_eq_getElem (by omega))
    simp only [List.getElem_map, List.getElem_take, List.getElem_range, hget, Option.getD_some]

/-- The commits of a ledger in the state that the plan says. -/
theorem Inv.commitRight (hH : HashOk H S) {steps : List Step} (hascii : AsciiSteps steps)
    {vals : List Bytes} {s : LedgerDB} (h : Inv H S (plan steps) vals s) {c : ℕ}
    (hc : c < s.commitSeq) : CommitRight H steps s.db c := by
  have hp := plan_ok steps
  rw [h.commitSeq] at hc
  have hcommit := h.commits c hc
  obtain ⟨info, hget, hinfo⟩ := hcommit.entry
  have hle := length_flatten_take_le (plan steps).batches (c + 1)
  have hcount := hp.length_le
  have hlen := congrArg List.length (batches_append_queue steps)
  rw [List.length_append] at hlen
  -- the batches up to the commit are the first blocks
  have hblocks : ((plan steps).batches.take (c + 1)).flatten
      = (blocksOf steps).take (info.tipBlock + 1) := by
    have hsplit : (plan steps).batches.flatten = ((plan steps).batches.take (c + 1)).flatten ++
        ((plan steps).batches.drop (c + 1)).flatten := by
      rw [← List.flatten_append, List.take_append_drop]
    rw [hinfo.tipBlock, ← batches_append_queue steps, hsplit, List.append_assoc, List.take_left]
  have hall : ∀ blk ∈ ((plan steps).batches.take (c + 1)).flatten, ∀ k ∈ blk.mptKs, Ascii k := by
    intro blk hblk
    apply ascii_plan hascii
    apply List.mem_append_left
    rw [← List.take_append_drop (c + 1) (plan steps).batches, List.flatten_append]
    exact List.mem_append_left _ hblk
  have hholds := holds_treeOf hall
  rw [hblocks] at hholds
  refine ⟨_, info, _, hget, CommitInfo.ofString_toBytes hinfo.clean, hinfo.commitSeq, ?_, hblocks,
    ?_, hinfo.mptroot, hholds, ?_⟩
  · have := hinfo.tipBlock
    omega
  · rw [hinfo.mtroot, rootOf, leavesOf_eq_storedLeaves h.ledger hinfo.tipBlock]
    rw [h.length_vals]
    omega
  · intro k hk
    rw [hinfo.mptroot, Hash.fromBase32_toBase32,
      (h.store.reads_of_runIn hH.inj (hcommit.stored.get_runIn hH.inj h.store hH.nil hk)).1,
      hholds k hk]

/-- **The commits of every run** are right, and numbered without gaps.  A run that does not return
fails in a call of `Set`, or because a trie does not fit. -/
theorem run_commits (H : Bytes → Hash) (steps : List Step) (hascii : AsciiSteps steps)
    (hinj : Set.InjOn H {c | c ∈ runChunks H steps})
    (htext : ∀ c ∈ runChunks H steps, ¬ TextKey (H c).bytes) :
    (∃ s, run H steps = .ok s ∧ s.treeQueue = (plan steps).queue ∧
      (plan steps).batches.flatten ++ s.treeQueue = blocksOf steps ∧
      s.commitSeq = (plan steps).batches.length ∧
      (∀ c < s.commitSeq, CommitRight H steps s.db c) ∧
      ∀ c, s.commitSeq ≤ c → s.db.getString (commitKey (toDecimal c)) = none) ∨
    ∃ pre st post s e, steps = pre ++ st :: post ∧ run H pre = .ok s ∧ st.exec H s = .error e ∧
      ((∃ keys values ts coins, st = .set keys values ts coins) ∨
        e = .oversize ∧ ∃ t ∈ batchTrees .nil (plan steps).batches, ¬ Fits t) := by
  have hH : HashOk H {c | c ∈ runChunks H steps} := ⟨hinj, htext, List.mem_cons_self⟩
  refine (run_inv hH steps hascii chunks_of_runChunks).imp_left ?_
  rintro ⟨s, vals, hrun, hinv⟩
  refine ⟨s, hrun, hinv.queue, ?_, hinv.commitSeq, fun c hc => hinv.commitRight hH hascii hc, ?_⟩
  · rw [hinv.queue, batches_append_queue]
  · intro c hc
    exact hinv.fresh c (by rwa [← hinv.commitSeq])

end

/-- BLAKE2b on the blocks, nodes and entries of a ledger with one block that sets `a` to `x` at
time 5. -/
def hashOne : Bytes → Hash := Hash.ofTable
  [([5, 0, 0, 0, 4], "OU62L3IC44LMMXS3ZENWNLMC264F6BD5"),
    ([26, 0, 0, 0, 1, 1, 0, 0, 0, 0, 0, 0, 0, 3, 0, 0, 0, 6, 1, 16, 6, 0, 0, 0, 3, 53],
      "B6HUVBFPX6CJ4S4SYZ6NJKNDUKKGIHI2"),
    (str "/a|x", "X4SANMECKTOTXE74676UDIEQIMRHPODJ"),
    (str "0||0|X4SANMECKTOTXE74676UDIEQIMRHPODJ|mt0-0|B6HUVBFPX6CJ4S4SYZ6NJKNDUKKGIHI2",
      "BBUTWX254ZMXREQHEZVDEB5K4FPMLFZS")]

/-- One block and one round. -/
def oneBlock : List Step := [.set [str "a"] [str "x"] 5 [], .build 1]

theorem ascii_oneBlock : AsciiSteps oneBlock := by
  intro keys values ts coins hmem k hk
  simp only [oneBlock, List.mem_cons, List.not_mem_nil, or_false, Step.set.injEq, reduceCtorEq] at hmem
  obtain ⟨rfl, -⟩ := hmem
  rw [List.mem_singleton.mp hk]
  unfold Ascii
  decide +kernel

theorem TextKey.head? {k : Bytes} (h : TextKey k) :
    k.head? ∈ ([some 108, some 99, some 100, some 109, some 115] : List (Option UInt8)) := by
  cases h with
  | ledger i => simp [head?_ledgerKey]
  | commit c => simp [head?_commitKey]
  | digest => simp [head?_digest]
  | merkle l j c => simp [head?_keyOf]
  | skiplist h => simp [head?_skiplist h]

theorem hashOk_oneBlock : HashOk hashOne {c | c ∈ runChunks hashOne oneBlock} := by
  refine ⟨?_, ?_, List.mem_cons_self⟩
  · have h : ∀ c ∈ runChunks hashOne oneBlock, ∀ c' ∈ runChunks hashOne oneBlock,
      hashOne c = hashOne c' → c = c' := by decide +kernel
    exact fun c hc c' hc' => h c hc c' hc'
  · have h : ∀ c ∈ runChunks hashOne oneBlock, (hashOne c).bytes.head? ∉
      ([some 108, some 99, some 100, some 109, some 115] : List (Option UInt8)) := by
      decide +kernel
    exact fun c hc htext => h c hc htext.head?

/-- The round makes commit 0. -/
theorem run_commits_oneBlock :
    AsciiSteps oneBlock ∧ Set.InjOn hashOne {c | c ∈ runChunks hashOne oneBlock} ∧
      (∀ c ∈ runChunks hashOne oneBlock, ¬ TextKey (hashOne c).bytes) ∧
      ∃ s, run hashOne oneBlock = .ok s ∧ s.commitSeq = 1 ∧ CommitRight hashOne oneBlock s.db 0 := by
  refine ⟨ascii_oneBlock, hashOk_oneBlock.inj, hashOk_oneBlock.text, ?_⟩
  have hok : (run hashOne oneBlock).isOk = true := by decide +kernel
  rcases run_commits hashOne oneBlock ascii_oneBlock hashOk_oneBlock.inj hashOk_oneBlock.text with
    ⟨s, hrun, -, -, hcommits, hright, -⟩ | ⟨pre, st, post, s, e, hsteps, hpre, herr, -⟩
  · refine ⟨s, hrun, hcommits, hright 0 ?_⟩
    rw [hcommits]
    decide
  · rw [hsteps, run_eq_error hpre herr] at hok
    cases hok

end LedgerDatabase.Ledgerdb.LedgerDB
