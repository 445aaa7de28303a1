import LedgerDatabase.Ledgerdb.Equiv.Records

/-!
# What a run of the ledger should commit

A run is a list of calls of `Set` and of rounds of `buildTree` (`Step`, `run`).  `plan` says which
blocks each round takes from the queue, without looking at the store; the tree and the leaves of a
commit follow from the batches up to it (`treeOf`, `leavesOf`).

`holds_treeOf`: the trie of a commit holds, for every key in the blocks so far, the timestamp of the
last block that wrote it.
-/

namespace LedgerDatabase.Ledgerdb.LedgerDB

open Mpt

/-! ### Runs -/

/-- A call of `Set`, or a round of `buildTree` that takes at most `n` blocks. -/
inductive Step
  | set (keys values : List Bytes) (timestamp : ℕ) (coins : List (List Bool))
  | build (n : ℕ)

/-- One step. -/
def Step.exec (H : Bytes → Hash) (s : LedgerDB) : Step → Except Fault LedgerDB
  | .set keys values timestamp coins => do return (← s.set keys values timestamp coins).1
  | .build n => s.buildTree H n

/-- The steps in order, from an empty ledger. -/
def run (H : Bytes → Hash) (steps : List Step) : Except Fault LedgerDB :=
  steps.foldlM (Step.exec H) {}

theorem run_append (H : Bytes → Hash) (steps : List Step) (st : Step) :
    run H (steps ++ [st]) = run H steps >>= fun s => st.exec H s := by
  rw [run, List.foldlM_append]
  congr 1
  funext s
  exact bind_pure _

/-! ### The plan of a run -/

/-- The blocks written so far: those still in the queue, and those that rounds have taken. -/
structure Plan where
  count : ℕ := 0
  queue : List TreeBlock := []
  batches : List (List TreeBlock) := []
  deriving DecidableEq

/-- One step of the plan. -/
def Plan.step (p : Plan) : Step → Plan
  | .set keys _ timestamp _ =>
    if keys.length = 0 then p
    else { p with
      count := p.count + 1
      queue := p.queue ++ [⟨p.count, keys, toDecimal timestamp⟩] }
  | .build n =>
    if p.queue.take n = [] then p
    else { p with queue := p.queue.drop n, batches := p.batches ++ [p.queue.take n] }

/-- The plan of a run. -/
def plan (steps : List Step) : Plan := steps.foldl Plan.step {}

theorem plan_append (steps : List Step) (st : Step) :
    plan (steps ++ [st]) = (plan steps).step st := by
  rw [plan, List.foldl_append]
  rfl

/-- The blocks are numbered in the order of their calls, and no batch is empty. -/
structure Plan.Ok (p : Plan) : Prop where
  numbered : (p.batches.flatten ++ p.queue).map (·.blkSeq) = List.range p.count
  nonempty : ∀ b ∈ p.batches, b ≠ []

theorem Plan.Ok.step {p : Plan} (h : p.Ok) (st : Step) : (p.step st).Ok := by
  cases st with
  | set keys values timestamp coins =>
    rw [Plan.step]
    split_ifs
    · exact h
    · refine ⟨?_, h.nonempty⟩
      simp only
      rw [← List.append_assoc, List.map_append, h.numbered, List.range_succ]
      rfl
  | build n =>
    rw [Plan.step]
    split_ifs with hnil
    · exact h
    · constructor
      · simp only [List.flatten_append, List.flatten_singleton, List.append_assoc,
          List.take_append_drop]
        exact h.numbered
      · intro b hb
        rcases List.mem_append.mp hb with hb | hb
        · exact h.nonempty b hb
        · rw [List.mem_singleton.mp hb]
          exact hnil

theorem plan_ok (steps : List Step) : (plan steps).Ok := by
  induction steps using List.reverseRecOn with
  | nil => exact ⟨rfl, fun b hb => absurd hb List.not_mem_nil⟩
  | append_singleton steps st ih =>
    rw [plan_append]
    exact ih.step st

/-- The keys of the calls of `Set` have bytes below 0x80. -/
def AsciiSteps (steps : List Step) : Prop :=
  ∀ keys values timestamp coins, Step.set keys values timestamp coins ∈ steps →
    ∀ k ∈ keys, Ascii k

theorem ascii_plan {steps : List Step} (h : AsciiSteps steps) :
    ∀ blk ∈ (plan steps).batches.flatten ++ (plan steps).queue, ∀ k ∈ blk.mptKs, Ascii k := by
  induction steps using List.reverseRecOn with
  | nil => exact fun blk hblk => absurd hblk List.not_mem_nil
  | append_singleton steps st ih =>
    have hold := ih fun keys values ts coins hmem => h keys values ts coins
      (List.mem_append_left _ hmem)
    rw [plan_append]
    cases st with
    | set keys values timestamp coins =>
      rw [Plan.step]
      split_ifs
      · exact hold
      · simp only
        rw [← List.append_assoc]
        intro blk hblk
        rcases List.mem_append.mp hblk with hblk | hblk
        · exact hold blk hblk
        · rw [List.mem_singleton.mp hblk]
          exact h keys values timestamp coins (List.mem_append_right _ (List.mem_singleton_self _))
    | build n =>
      rw [Plan.step]
      split_ifs
      · exact hold
      · simp only [List.flatten_append, List.flatten_singleton, List.append_assoc,
          List.take_append_drop]
        exact hold

/-! ### Trees -/

/-- The trie after some batches. -/
def treeOf (batches : List (List TreeBlock)) : Tree :=
  batches.foldl (fun t b => setAll t (mptBlks b)) .nil

/-- The trees that rounds build on the way. -/
def batchTrees : Tree → List (List TreeBlock) → List Tree
  | _, [] => []
  | t, b :: bs => setTrace t (mptBlks b) ++ batchTrees (setAll t (mptBlks b)) bs

/-- The chunks that a run hashes. -/
def runChunks (H : Bytes → Hash) (steps : List Step) : List Bytes :=
  enc H .nil :: (batchTrees .nil (plan steps).batches).flatMap (chunkList H)

theorem treeOf_append (batches : List (List TreeBlock)) (b : List TreeBlock) :
    treeOf (batches ++ [b]) = setAll (treeOf batches) (mptBlks b) := by
  rw [treeOf, List.foldl_append]
  rfl

theorem batchTrees_append (b : List TreeBlock) : ∀ (batches : List (List TreeBlock)) (t : Tree),
    batchTrees t (batches ++ [b])
      = batchTrees t batches ++
        setTrace (batches.foldl (fun t b => setAll t (mptBlks b)) t) (mptBlks b)
  | [], t => by simp [batchTrees]
  | b' :: batches, t => by
    rw [List.cons_append, batchTrees, batchTrees, batchTrees_append b batches, List.append_assoc]
    rfl

/-- The trees of a run are among those of a longer one. -/
theorem batchTrees_subset (steps : List Step) (st : Step) :
    batchTrees .nil (plan steps).batches ⊆ batchTrees .nil (plan (steps ++ [st])).batches := by
  rw [plan_append]
  cases st with
  | set keys values timestamp coins =>
    rw [Plan.step]
    split_ifs <;> exact List.Subset.refl _
  | build n =>
    rw [Plan.step]
    split_ifs
    · exact List.Subset.refl _
    · rw [batchTrees_append]
      exact List.subset_append_left _ _

theorem batchTrees_subset_append (steps steps' : List Step) :
    batchTrees .nil (plan steps).batches ⊆ batchTrees .nil (plan (steps ++ steps')).batches := by
  induction steps' using List.reverseRecOn with
  | nil =>
    rw [List.append_nil]
    exact List.Subset.refl _
  | append_singleton steps' st ih =>
    rw [← List.append_assoc]
    exact List.Subset.trans ih (batchTrees_subset _ st)

/-! ### What the tries hold -/

/-- The timestamp of the last block that wrote a key. -/
def lastTs (blks : List TreeBlock) (key : Bytes) : Option Bytes :=
  (blks.reverse.find? fun blk => key ∈ blk.mptKs).map (·.mptTs)

theorem lastTs_append (blks blks' : List TreeBlock) (key : Bytes) :
    lastTs (blks ++ blks') key = (lastTs blks' key).or (lastTs blks key) := by
  rw [lastTs, List.reverse_append, List.find?_append, Option.map_or]
  rfl

theorem lastTs_singleton (blk : TreeBlock) (key : Bytes) :
    lastTs [blk] key = if key ∈ blk.mptKs then some blk.mptTs else none := by
  rw [lastTs, List.reverse_singleton, List.find?_singleton]
  by_cases h : key ∈ blk.mptKs <;> simp [h]

theorem lookup_assignAll (ts : Bytes) (key : Bytes) : ∀ (ks : List Bytes) (m : StdMap Bytes),
    (ks.foldl (fun m k => m.assign k ts) m).lookup key
      = if key ∈ ks then some ts else m.lookup key
  | [], m => by simp
  | k :: ks, m => by
    rw [List.foldl_cons, lookup_assignAll ts key ks, StdMap.lookup_assign]
    by_cases hks : key ∈ ks
    · simp [hks]
    · by_cases hk : key = k <;> simp [hks, hk]

theorem lookup_mptBlks (blks : List TreeBlock) (key : Bytes) :
    (mptBlks blks).lookup key = lastTs blks key := by
  induction blks using List.reverseRecOn with
  | nil => rfl
  | append_singleton blks blk ih =>
    rw [mptBlks, List.foldl_append, List.foldl_cons, List.foldl_nil, lookup_assignAll,
      lastTs_append, lastTs_singleton, ← ih]
    by_cases h : key ∈ blk.mptKs <;> simp [h, mptBlks]

theorem ordered_mptBlks (blks : List TreeBlock) : (mptBlks blks).Ordered := by
  have hkeys : ∀ (ts : Bytes) (ks : List Bytes) (m : StdMap Bytes), m.Ordered →
      (ks.foldl (fun m k => m.assign k ts) m).Ordered := by
    intro ts ks
    induction ks with
    | nil => exact fun m h => h
    | cons k ks ih => exact fun m h => ih _ (h.assign k ts)
  induction blks using List.reverseRecOn with
  | nil => exact StdMap.ordered_nil
  | append_singleton blks blk ih =>
    rw [mptBlks, List.foldl_append]
    exact hkeys _ _ _ ih

theorem ascii_mptBlks {blks : List TreeBlock} (h : ∀ blk ∈ blks, ∀ k ∈ blk.mptKs, Ascii k) :
    ∀ e ∈ mptBlks blks, Ascii e.1 := by
  intro e he
  obtain ⟨ts, hts⟩ := PutLog.lookup_isSome_of_mem (k := e.1) (v := e.2) he
  rw [lookup_mptBlks, lastTs, Option.map_eq_some_iff] at hts
  obtain ⟨blk, hfind, -⟩ := hts
  have hmem := List.mem_reverse.mp (List.mem_of_find?_eq_some hfind)
  exact h blk hmem e.1 (by simpa using List.find?_some hfind)

/-- Setting the entries of a map, each key once. -/
theorem foldl_update_eq : ∀ (kvs : StdMap Bytes) (m : Bytes → Option Bytes),
    (kvs.map (·.1)).Nodup → ∀ k : Bytes,
      kvs.foldl (fun (m : Bytes → Option Bytes) e => Function.update m e.1 (some e.2)) m k
        = (kvs.lookup k).or (m k)
  | [], m, _, k => by simp
  | (key, val) :: kvs, m, hnodup, k => by
    rw [List.map_cons, List.nodup_cons] at hnodup
    rw [List.foldl_cons, foldl_update_eq kvs _ hnodup.2, StdMap.lookup_cons_ite]
    by_cases hk : k = key
    · subst hk
      have hnone : kvs.lookup k = none := by
        apply PutLog.lookup_eq_none_of_not_mem
        exact fun v hv => hnodup.1 (List.mem_map.mpr ⟨(k, v), hv, rfl⟩)
      simp [hnone]
    · simp [hk]

/-- The tries of a run are tries over encoded keys. -/
theorem wf_treeOf {batches : List (List TreeBlock)}
    (h : ∀ blk ∈ batches.flatten, ∀ k ∈ blk.mptKs, Ascii k) :
    (treeOf batches).WF (fun _ => True) terminated := by
  induction batches using List.reverseRecOn with
  | nil => trivial
  | append_singleton batches b ih =>
    rw [treeOf_append]
    have hold := ih fun blk hblk => h blk (by simp [hblk])
    have hb : ∀ e ∈ mptBlks b, Ascii e.1 := ascii_mptBlks fun blk hblk => h blk (by simp [hblk])
    exact (wf_setTrace antichain_terminated (mptBlks b)
      (fun e he => ⟨hexKey_mem_terminated (hb e he), trivial⟩) hold).1

/-- **The trie of a commit** holds the timestamp of the last block that wrote a key. -/
theorem holds_treeOf {batches : List (List TreeBlock)}
    (h : ∀ blk ∈ batches.flatten, ∀ k ∈ blk.mptKs, Ascii k) :
    Holds (treeOf batches) (lastTs batches.flatten) := by
  induction batches using List.reverseRecOn with
  | nil => exact fun k _ => rfl
  | append_singleton batches b ih =>
    have hold : ∀ blk ∈ batches.flatten, ∀ k ∈ blk.mptKs, Ascii k := fun blk hblk =>
      h blk (by simp [hblk])
    have hb : ∀ e ∈ mptBlks b, Ascii e.1 := ascii_mptBlks fun blk hblk => h blk (by simp [hblk])
    rw [treeOf_append]
    have hall := holds_setAll (mptBlks b) hb (wf_treeOf hold) (ih hold)
    intro k hk
    rw [hall k hk, foldl_update_eq _ _ (ordered_mptBlks b).nodup, lookup_mptBlks,
      List.flatten_append, lastTs_append, List.flatten_singleton]

end LedgerDatabase.Ledgerdb.LedgerDB
