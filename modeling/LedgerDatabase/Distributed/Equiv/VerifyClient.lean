import LedgerDatabase.Distributed.Equiv.UnverifiedKeys
import LedgerDatabase.Distributed.VerifyClient

/-!
# The verification client: no key is dropped

A merge adds its triples to `verifymap` (`has_merge`) and a round removes the blocks that were kept
(`has_eraseBlocks`), with all the keys that they have by then.  A key is dropped unverified exactly
when it was merged into a kept block after the copy had been made (`no_key_dropped_iff`).
-/

namespace LedgerDatabase.Distributed

open Run SortedMap

/-! ### `verifymap` -/

namespace VerifyMap

variable {m : VerifyMap} {blocks : SortedMap ℕ KeySet} {shard block : ℕ} {key : Bytes}

/-- The key waits under the block of the shard. -/
def Has (m : VerifyMap) (shard block : ℕ) (key : Bytes) : Prop :=
  m.At shard fun blocks => blocks.At block fun set => key ∈ set.keys

theorem mem_snapshot : (shard, block, key) ∈ m.snapshot.triples ↔ m.Has shard block key := by
  rw [UnverifiedKeys.mem_triples, UnverifiedKeys.Has, snapshot, at_mapVal]
  exact at_congr fun blocks => at_mapVal

theorem mem_emplaceKeys (keys : List Bytes) (set : KeySet) :
    key ∈ (emplaceKeys keys set).keys ↔ key ∈ set.keys ∨ key ∈ keys := by
  rw [emplaceKeys, foldl_iff_or (P := fun set : KeySet => key ∈ set.keys) (R := (key = ·))
    fun set k => mem_keys_emplace]
  simp

theorem at_mergeBlock (b : ℕ × List Bytes) :
    ((mergeBlock blocks b).At block fun set => key ∈ set.keys) ↔
      (blocks.At block fun set => key ∈ set.keys) ∨ block = b.1 ∧ key ∈ b.2 := by
  rw [mergeBlock]
  cases hl : blocks.lookup b.1 with
  | some set =>
    simp only [at_assign, mem_emplaceKeys]
    by_cases hb : block = b.1
    · subst hb
      simp [at_of_mem (lookup_eq_some.mp hl)]
    · simp [hb]
  | none =>
    simp only [emplace_of_lookup _ hl, at_assign, mem_emplaceKeys]
    by_cases hb : block = b.1
    · subst hb
      simp [not_at_of_lookup hl, keys]
    · simp [hb]

/-- Copying the blocks of a transaction does what merging them into an empty map does. -/
theorem foldl_copyBlock (bs : List (ℕ × List Bytes)) (hbs : bs.Pairwise fun e e' => e.1 < e'.1)
    (hnew : ∀ b ∈ bs, b.1 ∉ blocks.keys) : bs.foldl copyBlock blocks = bs.foldl mergeBlock blocks := by
  induction bs generalizing blocks with
  | nil => rfl
  | cons b bs ih =>
    obtain ⟨hb, hbs⟩ := List.pairwise_cons.mp hbs
    have hl : blocks.lookup b.1 = none := lookup_eq_none.mpr (hnew b List.mem_cons_self)
    have hone : mergeBlock blocks b = copyBlock blocks b := by
      rw [mergeBlock, hl, copyBlock]
    rw [List.foldl_cons, List.foldl_cons, hone]
    refine ih hbs fun b' hb' => ?_
    rw [copyBlock, mem_keys_emplace, not_or]
    exact ⟨hnew b' (List.mem_cons_of_mem _ hb'), (hb b' hb').ne'⟩

theorem has_mergeShard (e : ℕ × SortedMap ℕ (List Bytes)) :
    (mergeShard m e).Has shard block key ↔
      m.Has shard block key ∨ shard = e.1 ∧ e.2.At block fun ks => key ∈ ks := by
  have hfold : ∀ blocks : SortedMap ℕ KeySet,
      ((e.2.entries.foldl mergeBlock blocks).At block fun set => key ∈ set.keys) ↔
        (blocks.At block fun set => key ∈ set.keys) ∨ e.2.At block fun ks => key ∈ ks := by
    intro blocks
    rw [foldl_iff_or (P := fun blocks : SortedMap ℕ KeySet =>
      blocks.At block fun set => key ∈ set.keys) fun blocks b => at_mergeBlock b]
    apply or_congr_right
    constructor
    · rintro ⟨⟨_, ks⟩, hb, rfl, hk⟩
      exact ⟨ks, hb, hk⟩
    · rintro ⟨ks, hb, hk⟩
      exact ⟨(block, ks), hb, rfl, hk⟩
  rw [mergeShard, Has, Has]
  cases hl : m.lookup e.1 with
  | some blocks =>
    simp only [at_assign, hfold]
    by_cases hs : shard = e.1
    · subst hs
      simp [at_of_mem (lookup_eq_some.mp hl)]
    · simp [hs]
  | none =>
    simp only [emplace_of_lookup _ hl, at_assign]
    rw [foldl_copyBlock _ e.2.sorted (by simp [keys]), hfold]
    by_cases hs : shard = e.1
    · subst hs
      simp [not_at_of_lookup hl]
    · simp [hs]

/-- A merge adds the keys of the transaction. -/
theorem has_merge (keys : UnverifiedKeys) :
    (m.merge keys).Has shard block key ↔ m.Has shard block key ∨ keys.Has shard block key := by
  rw [merge, foldl_iff_or (P := fun m : VerifyMap => m.Has shard block key)
    fun m e => has_mergeShard e]
  apply or_congr_right
  constructor
  · rintro ⟨⟨_, blocks⟩, he, rfl, hb⟩
    exact ⟨blocks, he, hb⟩
  · rintro ⟨blocks, he, hb⟩
    exact ⟨(shard, blocks), he, rfl, hb⟩

theorem has_eraseShard (e : ℕ × SortedMap ℕ (List Bytes)) :
    (eraseShard m e).Has shard block key ↔
      m.Has shard block key ∧ ¬ (shard = e.1 ∧ ∃ b ∈ e.2.entries, block = b.1) := by
  -- what is left of the blocks of the shard
  have hfold : ((e.2.entries.foldl (fun blocks b => blocks.erase b.1)
      ((m.lookup e.1).getD .empty)).At block fun set => key ∈ set.keys) ↔
        m.Has e.1 block key ∧ ¬ ∃ b ∈ e.2.entries, block = b.1 := by
    rw [foldl_iff_and (P := fun blocks : SortedMap ℕ KeySet =>
      blocks.At block fun set => key ∈ set.keys) (R := fun b => ¬ block = b.1)
      fun blocks b => by rw [at_erase, and_comm]]
    refine and_congr ?_ (by push Not; rfl)
    cases hl : m.lookup e.1 with
    | some blocks =>
      exact (at_of_mem (P := fun blocks : SortedMap ℕ KeySet =>
        blocks.At block fun set => key ∈ set.keys) (lookup_eq_some.mp hl)).symm
    | none => exact iff_of_false (not_at_empty _ _) (not_at_of_lookup hl)
  unfold eraseShard
  dsimp only
  by_cases hs : shard = e.1
  · subst hs
    simp only [true_and, ← hfold]
    split_ifs with hempty
    · have hnil := List.eq_nil_of_length_eq_zero hempty
      refine iff_of_false (fun h => (at_erase.mp h).1 rfl) ?_
      rintro ⟨set, hset, _⟩
      rw [mem_def, hnil] at hset
      exact List.not_mem_nil hset
    · simp [Has, at_assign]
  · split_ifs with hempty
    · simp [Has, at_erase, hs]
    · simp [Has, at_assign, hs]

/-- The end of a round removes the blocks that were kept. -/
theorem has_eraseBlocks (kept : UnverifiedKeys) :
    (m.eraseBlocks kept).Has shard block key ↔
      m.Has shard block key ∧ ¬ kept.hasBlock shard block = true := by
  rw [eraseBlocks, foldl_iff_and (P := fun m : VerifyMap => m.Has shard block key)
    fun m e => has_eraseShard e, UnverifiedKeys.hasBlock_iff]
  push Not
  rfl

end VerifyMap

/-! ### Runs -/

namespace VerifyClient

open VerifyMap

/-- Every merged triple still waits, or it was in a copy of which `Client::Verify` has kept its
block. -/
def NoKeyDropped (c : VerifyClient) : Prop :=
  ∀ t ∈ c.merged, t ∈ c.verifymap.snapshot.triples ∨ t ∈ c.verified

instance (c : VerifyClient) : Decidable (NoKeyDropped c) :=
  inferInstanceAs (Decidable (∀ t ∈ c.merged, _))

/-- When a round erases a block, every key that then waits under it was in the copy of the round,
or an earlier round has verified it. -/
def ErasesCopied (c : VerifyClient) : Label → Prop
  | .erase =>
    match c.round with
    | .erasing snapshot kept =>
      ∀ t ∈ c.verifymap.snapshot.triples, kept.hasBlock t.1 t.2.1 = true →
        t ∈ snapshot.triples ∨ t ∈ c.verified
    | _ => True
  | _ => True

/-- What holds whether keys are dropped or not. -/
structure Inv (c : VerifyClient) : Prop where
  merged : ∀ t ∈ c.verifymap.snapshot.triples, t ∈ c.merged
  verified : ∀ snapshot kept, c.round = .erasing snapshot kept → ∀ t ∈ snapshot.triples,
    kept.hasBlock t.1 t.2.1 = true → t ∈ c.verified

theorem inv_init : Inv {} where
  merged t ht := by simp [VerifyMap.snapshot, mapVal, UnverifiedKeys.triples, SortedMap.empty] at ht
  verified _ _ h := nomatch h

theorem mem_merge (c : VerifyClient) (keys : UnverifiedKeys) (t : Triple) :
    t ∈ (c.verifymap.merge keys).snapshot.triples ↔
      t ∈ c.verifymap.snapshot.triples ∨ t ∈ keys.triples := by
  rw [mem_snapshot, has_merge, mem_snapshot, UnverifiedKeys.mem_triples]

theorem mem_eraseBlocks (c : VerifyClient) (kept : UnverifiedKeys) (t : Triple) :
    t ∈ (c.verifymap.eraseBlocks kept).snapshot.triples ↔
      t ∈ c.verifymap.snapshot.triples ∧ ¬ kept.hasBlock t.1 t.2.1 = true := by
  rw [mem_snapshot, has_eraseBlocks, mem_snapshot]

/-- The steps, with the states in which they can be taken. -/
theorem step_cases {c c' : VerifyClient} {l : Label} (h : step c l = some c') :
    (∃ keys, l = .merge keys ∧
      c' = { c with verifymap := c.verifymap.merge keys, merged := c.merged ++ keys.triples }) ∨
    (l = .snapshot ∧
      (c' = c ∨ c' = { c with round := .verifying c.verifymap.snapshot })) ∨
    (∃ answers snapshot, l = .verify answers ∧ c.round = .verifying snapshot ∧
      c' = { c with
        round := .erasing snapshot (snapshot.verify answers)
        verified := c.verified ++
          snapshot.triples.filter fun t => (snapshot.verify answers).hasBlock t.1 t.2.1 }) ∨
    (∃ snapshot kept, l = .erase ∧ c.round = .erasing snapshot kept ∧
      c' = { c with round := .sleeping, verifymap := c.verifymap.eraseBlocks kept }) := by
  cases l with
  | merge keys => exact Or.inl ⟨keys, rfl, (Option.some.inj h).symm⟩
  | snapshot =>
    refine Or.inr (Or.inl ⟨rfl, ?_⟩)
    rw [step] at h
    split at h
    · split_ifs at h
      · exact Or.inl (Option.some.inj h).symm
      · exact Or.inr (Option.some.inj h).symm
    · exact nomatch h
  | verify answers =>
    refine Or.inr (Or.inr (Or.inl ?_))
    rw [step] at h
    split at h
    · rename_i snapshot hround
      exact ⟨answers, snapshot, rfl, hround, (Option.some.inj h).symm⟩
    · exact nomatch h
  | erase =>
    refine Or.inr (Or.inr (Or.inr ?_))
    rw [step] at h
    split at h
    · rename_i snapshot kept hround
      exact ⟨snapshot, kept, rfl, hround, (Option.some.inj h).symm⟩
    · exact nomatch h

theorem Inv.step {c c' : VerifyClient} {l : Label} (hc : Inv c) (h : step c l = some c') :
    Inv c' := by
  rcases step_cases h with ⟨keys, rfl, rfl⟩ | ⟨rfl, rfl | rfl⟩ | ⟨answers, snapshot, rfl, hr, rfl⟩ |
    ⟨snapshot, kept, rfl, hr, rfl⟩
  · refine ⟨fun t ht => ?_, hc.verified⟩
    apply List.mem_append.mpr
    exact ((mem_merge c keys t).mp ht).imp_left (hc.merged t)
  · exact hc
  · exact ⟨hc.merged, fun _ _ h => nomatch h⟩
  · refine ⟨hc.merged, fun _ _ heq t ht hblock => ?_⟩
    obtain ⟨rfl, rfl⟩ := VerifyRound.erasing.inj heq
    exact List.mem_append_right _ (List.mem_filter.mpr ⟨ht, hblock⟩)
  · refine ⟨fun t ht => hc.merged t ((mem_eraseBlocks c kept t).mp ht).1, fun _ _ h => nomatch h⟩

/-- Only the end of a round can drop a key. -/
theorem noKeyDropped_step {c c' : VerifyClient} {l : Label} (hc : Inv c) (h : step c l = some c')
    (hnone : NoKeyDropped c) : NoKeyDropped c' ↔ ErasesCopied c l := by
  rcases step_cases h with ⟨keys, rfl, rfl⟩ | ⟨rfl, rfl | rfl⟩ | ⟨answers, snapshot, rfl, hr, rfl⟩ |
    ⟨snapshot, kept, rfl, hr, rfl⟩
  · refine iff_of_true (fun t ht => ?_) trivial
    rw [mem_merge]
    rcases List.mem_append.mp ht with ht | ht
    · exact (hnone t ht).imp_left Or.inl
    · exact Or.inl (Or.inr ht)
  · exact iff_of_true hnone trivial
  · exact iff_of_true hnone trivial
  · exact iff_of_true (fun t ht => (hnone t ht).imp_right (List.mem_append_left _)) trivial
  · simp only [ErasesCopied, hr, NoKeyDropped, mem_eraseBlocks]
    constructor
    · intro h t ht hblock
      rcases h t (hc.merged t ht) with ⟨_, hkept⟩ | hv
      · exact absurd hblock hkept
      · exact Or.inr hv
    · intro h t ht
      rcases hnone t ht with hwait | hv
      · by_cases hblock : kept.hasBlock t.1 t.2.1 = true
        · refine Or.inr ?_
          rcases h t hwait hblock with hcopy | hv
          · exact hc.verified snapshot kept hr t hcopy hblock
          · exact hv
        · exact Or.inl ⟨hwait, hblock⟩
      · exact Or.inr hv

theorem inv_runs {labels : List Label} {c : VerifyClient} (h : runs step {} labels = some c) :
    Inv c := runs_inv inv_init (fun _ _ _ hs => hs.step) h

/-- **No key is dropped unverified** in any state of a run, if and only if no round of it erases a
key that was merged after the copy. -/
theorem no_key_dropped_iff {labels : List Label} {c : VerifyClient}
    (h : runs step {} labels = some c) :
    (∀ pre c', pre <+: labels → runs step {} pre = some c' → NoKeyDropped c') ↔
      Along step ErasesCopied {} labels :=
  along_iff (fun _ ht => nomatch ht)
    (fun _ _ _ _ hs hstep hnone => noKeyDropped_step (inv_runs hs) hstep hnone) h

/-- A round between two transactions that report keys of one block. -/
theorem no_key_dropped_round :
    (∀ pre c', pre <+: [.merge (UnverifiedKeys.addKey 0 1 (str "a") .empty), .snapshot,
        .verify [true], .erase, .merge (UnverifiedKeys.addKey 0 1 (str "b") .empty)] →
      runs step {} pre = some c' → NoKeyDropped c') ↔
      Along step ErasesCopied {} [.merge (UnverifiedKeys.addKey 0 1 (str "a") .empty), .snapshot,
        .verify [true], .erase, .merge (UnverifiedKeys.addKey 0 1 (str "b") .empty)] :=
  no_key_dropped_iff rfl

/-- A transaction reports another key of a block while the block is being verified. -/
theorem key_dropped : ∃ c, runs step {} [.merge (UnverifiedKeys.addKey 0 1 (str "a") .empty),
    .snapshot, .merge (UnverifiedKeys.addKey 0 1 (str "b") .empty), .verify [true], .erase] = some c ∧
      ¬ NoKeyDropped c := by
  refine ⟨_, rfl, ?_⟩
  decide

end VerifyClient

end LedgerDatabase.Distributed
