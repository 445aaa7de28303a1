import LedgerDatabase.Distributed.UnverifiedKeys

/-!
# Keys that wait for verification

Which keys stand under a block (`Has`), as a list of triples and after the grouping loop.
-/

namespace LedgerDatabase.Distributed.UnverifiedKeys

open SortedMap

variable {keys : UnverifiedKeys} {shard block : ℕ} {key : Bytes}

/-- The key stands under the block of the shard. -/
def Has (keys : UnverifiedKeys) (shard block : ℕ) (key : Bytes) : Prop :=
  keys.At shard fun blocks => blocks.At block fun ks => key ∈ ks

theorem mem_triples : (shard, block, key) ∈ keys.triples ↔ keys.Has shard block key := by
  simp only [triples, Has, At, List.mem_flatMap, List.mem_map, Prod.mk.injEq, Prod.exists]
  constructor
  · rintro ⟨s, blocks, hs, b, ks, hb, k, hk, rfl, rfl, rfl⟩
    exact ⟨blocks, hs, ks, hb, hk⟩
  · rintro ⟨blocks, hs, ks, hb, hk⟩
    exact ⟨_, blocks, hs, _, ks, hb, _, hk, rfl, rfl, rfl⟩

instance (keys : UnverifiedKeys) (shard block : ℕ) (key : Bytes) :
    Decidable (keys.Has shard block key) :=
  decidable_of_iff _ mem_triples

theorem hasBlock_iff : keys.hasBlock shard block = true ↔
    ∃ e ∈ keys.entries, shard = e.1 ∧ ∃ b ∈ e.2.entries, block = b.1 := by
  simp only [hasBlock, List.any_eq_true, Bool.and_eq_true, decide_eq_true_eq]

/-- A round of the grouping loop adds its key. -/
theorem has_addKey {s b : ℕ} {k : Bytes} : (keys.addKey s b k).Has shard block key ↔
    keys.Has shard block key ∨ shard = s ∧ block = b ∧ key = k := by
  cases hs : keys.lookup s with
  | some blocks =>
    have hat := at_of_mem (P := fun blocks : SortedMap ℕ (List Bytes) =>
      blocks.At block fun ks => key ∈ ks) (lookup_eq_some.mp hs)
    cases hb : blocks.lookup b with
    | some ks =>
      have hadd : keys.addKey s b k = keys.assign s (blocks.assign b (ks ++ [k])) := by
        simp only [addKey, hs, hb]
      rw [hadd, Has, at_assign, at_assign, List.mem_append, List.mem_singleton]
      have hks := at_of_mem (P := fun ks : List Bytes => key ∈ ks) (lookup_eq_some.mp hb)
      by_cases hshard : shard = s
      · subst hshard
        rw [Has, hat]
        by_cases hblock : block = b
        · subst hblock
          simp [hks]
        · simp [hblock]
      · simp [hshard, Has]
    | none =>
      have hadd : keys.addKey s b k = keys.assign s (blocks.assign b [k]) := by
        simp only [addKey, hs, hb, emplace_of_lookup _ hb]
      rw [hadd, Has, at_assign, at_assign, List.mem_singleton]
      by_cases hshard : shard = s
      · subst hshard
        rw [Has, hat]
        by_cases hblock : block = b
        · subst hblock
          simp [not_at_of_lookup hb]
        · simp [hblock]
      · simp [hshard, Has]
  | none =>
    have hempty : (SortedMap.empty : SortedMap ℕ (List Bytes)).lookup b = none := rfl
    have hadd : keys.addKey s b k = keys.assign s (SortedMap.empty.assign b [k]) := by
      simp only [addKey, hs, emplace_of_lookup _ hs, emplace_of_lookup _ hempty]
    rw [hadd, Has, at_assign, at_assign, List.mem_singleton]
    by_cases hshard : shard = s
    · subst hshard
      simp [Has, not_at_of_lookup hs]
    · simp [hshard, Has]

end LedgerDatabase.Distributed.UnverifiedKeys
