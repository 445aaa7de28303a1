import LedgerDatabase.Distributed.Equiv.UnverifiedKeys
import LedgerDatabase.Distributed.Verification

/-!
# `Client::Verify`

The requests of a call are the keys of the blocks that the shards have reported, cut into pieces
(`verify_submits`).  Since the blocks of a shard are asked for in their order, the first refused one
is followed by refused ones only (`blocks_eq`).
-/

namespace LedgerDatabase.Distributed.Verification

variable {client : ShardClient} {shard : ℕ}

/-! ### One block -/

theorem triples_block {b : ℕ} (hready : client.ready b = true) (keys : List Bytes) :
    (block client shard b keys).1.flatMap VerifyRequest.triples = keys.map fun k => (shard, b, k) := by
  fun_induction block client shard b keys with
  | case1 keys hlong _ rest ih =>
    rw [List.flatMap_cons, ih, VerifyRequest.triples, ← List.map_append, List.take_append_drop]
  | case2 keys hlong hnot => exact absurd hready hnot
  | case3 keys hshort => simp [VerifyRequest.triples]
  | case4 keys hshort hnot => exact absurd hready hnot

theorem of_mem_block {b : ℕ} {keys : List Bytes} {r : VerifyRequest}
    (hr : r ∈ (block client shard b keys).1) :
    r.shard = shard ∧ r.block = b ∧ r.keys.length ≤ 10000 := by
  fun_induction block client shard b keys with
  | case1 keys hlong _ rest ih =>
    rcases List.mem_cons.mp hr with rfl | hr
    · exact ⟨rfl, rfl, List.length_take_le ..⟩
    · exact ih hr
  | case2 keys => exact absurd hr List.not_mem_nil
  | case3 keys hshort =>
    rw [List.mem_singleton] at hr
    subst hr
    exact ⟨rfl, rfl, Nat.le_of_not_lt hshort⟩
  | case4 keys => exact absurd hr List.not_mem_nil

/-- A block that is asked for keeps some of its keys. -/
theorem block_ready (shard : ℕ) {b : ℕ} (hready : client.ready b = true) (keys : List Bytes) :
    (block client shard b keys).1 ≠ [] ∧ ∃ left, (block client shard b keys).2 = some left := by
  fun_induction block client shard b keys with
  | case1 keys hlong _ rest ih => exact ⟨List.cons_ne_nil _ _, ih.2⟩
  | case2 keys hlong hnot => exact absurd hready hnot
  | case3 keys => exact ⟨List.cons_ne_nil _ _, keys, rfl⟩
  | case4 keys hshort hnot => exact absurd hready hnot

theorem block_not_ready {b : ℕ} (hready : client.ready b = false) (keys : List Bytes) :
    block client shard b keys = ([], none) := by
  rw [block]
  simp [hready]

/-! ### The blocks of a shard -/

theorem ready_iff {b : ℕ} : client.ready b = true ↔ b ≤ client.tipBlock := by
  simp [ShardClient.ready]

theorem blocks_false (bs : List (ℕ × List Bytes)) : blocks client shard false bs = ([], []) := by
  induction bs with
  | nil => rfl
  | cons b bs ih => rw [blocks, ih]

/-- The loop takes the blocks that are ready, and stops at the first one that is not. -/
theorem blocks_eq (client : ShardClient) (shard : ℕ) (bs : List (ℕ × List Bytes)) (hbs : bs.Pairwise fun e e' => e.1 < e'.1) :
    (blocks client shard true bs).1 =
      (bs.filter fun b => client.ready b.1).flatMap (fun b => (block client shard b.1 b.2).1) ∧
    (blocks client shard true bs).2.map (·.1) =
      (bs.filter fun b => client.ready b.1).map (·.1) := by
  induction bs with
  | nil => exact ⟨rfl, rfl⟩
  | cons b bs ih =>
    rw [List.pairwise_cons] at hbs
    cases hready : client.ready b.1 with
    | true =>
      obtain ⟨left, hleft⟩ := (block_ready shard hready b.2).2
      obtain ⟨ih₁, ih₂⟩ := ih hbs.2
      have hblock : block client shard b.1 b.2 = ((block client shard b.1 b.2).1, some left) := by
        rw [← hleft]
      have hcons : (b :: bs).filter (fun b => client.ready b.1) =
          b :: bs.filter fun b => client.ready b.1 := by
        rw [List.filter_cons, if_pos hready]
      rw [hcons, List.flatMap_cons, List.map_cons, ← ih₁, ← ih₂, blocks]
      split
      case h_1 heq => simp [heq] at hleft
      case h_2 heq => exact ⟨by rw [heq], rfl⟩
    | false =>
      have hlate : ∀ e ∈ bs, ¬ client.ready e.1 = true := by
        intro e he
        have hlt := hbs.1 e he
        have hb : ¬ b.1 ≤ client.tipBlock := by rw [← ready_iff, hready]; decide
        rw [ready_iff]
        omega
      have hnone : bs.filter (fun b => client.ready b.1) = [] := List.filter_eq_nil_iff.mpr hlate
      have hfilter : (b :: bs).filter (fun b => client.ready b.1) = [] := by
        rw [List.filter_cons, if_neg (by rw [hready]; decide), hnone]
      rw [hfilter, blocks, block_not_ready hready]
      simp [blocks_false]

/-! ### All shards -/

variable (clients : ℕ → ShardClient)

/-- The requests for a shard. -/
def requestsFor (e : ℕ × SortedMap ℕ (List Bytes)) : List VerifyRequest :=
  (blocks (clients e.1) e.1 true e.2.entries).1

theorem shards_requests (es : List (ℕ × SortedMap ℕ (List Bytes))) :
    (shards clients es).1 = es.flatMap (requestsFor clients) := by
  induction es with
  | nil => rfl
  | cons e es ih =>
    rw [List.flatMap_cons, shards]
    simp only [ih]
    rfl

theorem triples_requestsFor (e : ℕ × SortedMap ℕ (List Bytes)) :
    (requestsFor clients e).flatMap VerifyRequest.triples =
      (e.2.entries.flatMap fun b => b.2.map fun k => (e.1, b.1, k)).filter
        fun t => t.2.1 ≤ (clients t.1).tipBlock := by
  rw [requestsFor, (blocks_eq _ _ e.2.entries e.2.sorted).1]
  induction e.2.entries with
  | nil => rfl
  | cons b bs ih =>
    rw [List.flatMap_cons, List.filter_append, ← ih]
    cases hready : (clients e.1).ready b.1 with
    | true =>
      have hall : (b.2.map fun k => (e.1, b.1, k)).filter
          (fun t : Triple => t.2.1 ≤ (clients t.1).tipBlock) = b.2.map fun k => (e.1, b.1, k) := by
        rw [List.filter_eq_self]
        intro t ht
        obtain ⟨k, -, rfl⟩ := List.mem_map.mp ht
        exact decide_eq_true (ready_iff.mp hready)
      rw [List.filter_cons, if_pos hready, List.flatMap_cons, List.flatMap_append,
        triples_block hready, hall]
    | false =>
      have hnone : (b.2.map fun k => (e.1, b.1, k)).filter
          (fun t : Triple => t.2.1 ≤ (clients t.1).tipBlock) = [] := by
        rw [List.filter_eq_nil_iff]
        intro t ht
        obtain ⟨k, -, rfl⟩ := List.mem_map.mp ht
        have hnot : ¬ b.1 ≤ (clients e.1).tipBlock := by rw [← ready_iff, hready]; decide
        simpa using hnot
      rw [List.filter_cons, if_neg (by rw [hready]; decide), hnone, List.nil_append]

/-- A block is asked for when the map has it and the shard has reported it. -/
theorem mem_requestsFor {e : ℕ × SortedMap ℕ (List Bytes)} {s b : ℕ} :
    (∃ r ∈ requestsFor clients e, r.shard = s ∧ r.block = b) ↔
      s = e.1 ∧ b ≤ (clients e.1).tipBlock ∧ ∃ x ∈ e.2.entries, b = x.1 := by
  rw [requestsFor, (blocks_eq _ _ e.2.entries e.2.sorted).1]
  constructor
  · rintro ⟨r, hr, rfl, rfl⟩
    obtain ⟨x, hx, hr⟩ := List.mem_flatMap.mp hr
    obtain ⟨hx, hready⟩ := List.mem_filter.mp hx
    obtain ⟨hshard, hblock, -⟩ := of_mem_block hr
    rw [hblock]
    exact ⟨hshard, ready_iff.mp hready, x, hx, rfl⟩
  · rintro ⟨rfl, hle, x, hx, rfl⟩
    have hready := ready_iff.mpr hle
    obtain ⟨r, hr⟩ := List.exists_mem_of_ne_nil _ (block_ready e.1 hready x.2).1
    obtain ⟨hshard, hblock, -⟩ := of_mem_block hr
    exact ⟨r, List.mem_flatMap.mpr ⟨x, List.mem_filter.mpr ⟨hx, hready⟩, hr⟩, hshard, hblock⟩

/-- Which blocks are left. -/
theorem mem_shards {es : List (ℕ × SortedMap ℕ (List Bytes))} {s b : ℕ} :
    (∃ e ∈ (shards clients es).2, s = e.1 ∧ ∃ x ∈ e.2.entries, b = x.1) ↔
      ∃ e ∈ es, s = e.1 ∧ b ≤ (clients e.1).tipBlock ∧ ∃ x ∈ e.2.entries, b = x.1 := by
  induction es with
  | nil => simp [shards]
  | cons e es ih =>
    have hkept : (∃ x ∈ (blocks (clients e.1) e.1 true e.2.entries).2, b = x.1) ↔
        b ≤ (clients e.1).tipBlock ∧ ∃ x ∈ e.2.entries, b = x.1 := by
      have hmem := congrArg (b ∈ ·) (blocks_eq (clients e.1) e.1
        e.2.entries e.2.sorted).2
      simp only [List.mem_map, List.mem_filter, ready_iff] at hmem
      constructor
      · rintro ⟨x, hx, rfl⟩
        obtain ⟨y, ⟨hy, hle⟩, heq⟩ := hmem.mp ⟨x, hx, rfl⟩
        exact ⟨heq ▸ hle, y, hy, heq.symm⟩
      · rintro ⟨hle, x, hx, rfl⟩
        obtain ⟨y, hy, heq⟩ := hmem.mpr ⟨x, ⟨hx, hle⟩, rfl⟩
        exact ⟨y, hy, heq.symm⟩
    rw [List.exists_mem_cons_iff, ← ih, ← hkept, shards]
    dsimp only
    by_cases hnil : (e.2.ofSublist _ (keys_blocks (clients e.1) e.1 true e.2.entries)).entries.length = 0
    · rw [if_pos hnil]
      have hempty : (blocks (clients e.1) e.1 true e.2.entries).2 = [] :=
        List.length_eq_zero_iff.mp hnil
      simp [hempty]
    · rw [if_neg hnil, List.exists_mem_cons_iff]
      rfl

/-! ### The answers to the calls -/

/-- What is left of a block depends on the answers to its calls only. -/
theorem exists_verifyBlock (client : ShardClient) (shard b : ℕ) (keys : List Bytes) :
    ∃ answers : List Bool, ∀ rest, UnverifiedKeys.verifyBlock (answers ++ rest) keys =
      ((block client shard b keys).2, rest) := by
  fun_induction block client shard b keys with
  | case1 keys hlong _ _ ih =>
    obtain ⟨answers, ih⟩ := ih
    refine ⟨true :: answers, fun rest => ?_⟩
    rw [List.cons_append, UnverifiedKeys.verifyBlock, if_pos hlong, ih]
  | case2 keys => exact ⟨[false], fun rest => rfl⟩
  | case3 keys hshort =>
    refine ⟨[true], fun rest => ?_⟩
    rw [List.cons_append, List.nil_append, UnverifiedKeys.verifyBlock, if_neg hshort]
  | case4 keys => exact ⟨[false], fun rest => rfl⟩

theorem verifyBlocks_false (bs : List (ℕ × List Bytes)) (answers : List Bool) :
    UnverifiedKeys.verifyBlocks false bs answers = ([], answers) := by
  induction bs with
  | nil => rfl
  | cons b bs ih => rw [UnverifiedKeys.verifyBlocks, ih]

theorem exists_verifyBlocks (client : ShardClient) (shard : ℕ) (bs : List (ℕ × List Bytes)) :
    ∃ answers : List Bool, ∀ rest, UnverifiedKeys.verifyBlocks true bs (answers ++ rest) =
      ((blocks client shard true bs).2, rest) := by
  induction bs with
  | nil => exact ⟨[], fun rest => rfl⟩
  | cons b bs ih =>
    obtain ⟨answers, hb⟩ := exists_verifyBlock client shard b.1 b.2
    obtain ⟨answers', ih⟩ := ih
    rw [blocks]
    split
    case h_1 heq =>
      rw [heq] at hb
      exact ⟨answers, fun rest => by rw [UnverifiedKeys.verifyBlocks, hb]; simp [verifyBlocks_false,
        blocks_false]⟩
    case h_2 heq =>
      rw [heq] at hb
      refine ⟨answers ++ answers', fun rest => ?_⟩
      rw [List.append_assoc, UnverifiedKeys.verifyBlocks, hb]
      simp [ih]

/-- The map that is left is the one that some answers of the shards leave. -/
theorem exists_verify (keys : UnverifiedKeys) :
    ∃ answers, (submit clients keys).keys = keys.verify answers := by
  have hshards : ∀ es : List (ℕ × SortedMap ℕ (List Bytes)), ∃ answers : List Bool,
      UnverifiedKeys.verifyShards es answers = (shards clients es).2 := by
    intro es
    induction es with
    | nil => exact ⟨[], rfl⟩
    | cons e es ih =>
      obtain ⟨answers, hblocks⟩ := exists_verifyBlocks (clients e.1) e.1 e.2.entries
      obtain ⟨answers', ih⟩ := ih
      refine ⟨answers ++ answers', ?_⟩
      rw [UnverifiedKeys.verifyShards, shards]
      simp only [hblocks, ih]
  obtain ⟨answers, h⟩ := hshards keys.entries
  exact ⟨answers, SortedMap.ext h.symm⟩

/-- **`Client::Verify` partitions its input**: the lists that it submits contain, in order, the keys
of the blocks up to the last one that their shard has reported, and no list has more than 10000
keys; the blocks that it leaves in the map are those that it has asked for. -/
theorem verify_submits (keys : UnverifiedKeys) :
    ((submit clients keys).requests.flatMap VerifyRequest.triples =
      keys.triples.filter fun t => t.2.1 ≤ (clients t.1).tipBlock) ∧
    (∀ r ∈ (submit clients keys).requests, r.keys.length ≤ 10000) ∧
    (∀ shard block, (submit clients keys).keys.hasBlock shard block = true ↔
      ∃ r ∈ (submit clients keys).requests, r.shard = shard ∧ r.block = block) ∧
    ∀ shard block, (submit clients keys).keys.hasBlock shard block = true ↔
      keys.hasBlock shard block = true ∧ block ≤ (clients shard).tipBlock := by
  have hblocks : ∀ s b, (submit clients keys).keys.hasBlock s b = true ↔
      ∃ e ∈ keys.entries, s = e.1 ∧ b ≤ (clients e.1).tipBlock ∧ ∃ x ∈ e.2.entries, b = x.1 := by
    intro s b
    rw [UnverifiedKeys.hasBlock_iff]
    exact mem_shards clients
  refine ⟨?_, ?_, ?_, ?_⟩
  · rw [submit, shards_requests, List.flatMap_assoc, UnverifiedKeys.triples]
    induction keys.entries with
    | nil => rfl
    | cons e es ih => rw [List.flatMap_cons, List.flatMap_cons, List.filter_append, ih,
        triples_requestsFor]
  · intro r hr
    rw [submit, shards_requests, List.mem_flatMap] at hr
    obtain ⟨e, -, hr⟩ := hr
    rw [requestsFor, (blocks_eq _ _ e.2.entries e.2.sorted).1] at hr
    obtain ⟨b, -, hr⟩ := List.mem_flatMap.mp hr
    exact (of_mem_block hr).2.2
  · intro s b
    rw [hblocks, submit, shards_requests]
    simp only [List.mem_flatMap]
    constructor
    · rintro ⟨e, he, h⟩
      obtain ⟨r, hr, hsb⟩ := (mem_requestsFor clients).mpr h
      exact ⟨r, ⟨e, he, hr⟩, hsb⟩
    · rintro ⟨r, ⟨e, he, hr⟩, hsb⟩
      exact ⟨e, he, (mem_requestsFor clients).mp ⟨r, hr, hsb⟩⟩
  · intro s b
    rw [hblocks, UnverifiedKeys.hasBlock_iff]
    constructor
    · rintro ⟨e, he, rfl, hle, h⟩
      exact ⟨⟨e, he, rfl, h⟩, hle⟩
    · rintro ⟨⟨e, he, rfl, h⟩, hle⟩
      exact ⟨e, he, rfl, hle, h⟩

end LedgerDatabase.Distributed.Verification
