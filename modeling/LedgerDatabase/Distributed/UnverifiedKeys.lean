import LedgerDatabase.Common.Bytes
import LedgerDatabase.Library.SortedMap

/-!
# Keys that wait for verification

The `std::map<int, std::map<uint64_t, std::vector<std::string>>>` with which `Client::Commit`
reports what a transaction has touched, by shard and block, and `Client::Verify`, which asks every
shard for the proofs.
-/

namespace LedgerDatabase.Distributed

instance : IsStrictTotalOrder Bytes (· < ·) where
  trichotomous a b := Std.Trichotomous.trichotomous a b
  irrefl := List.lt_irrefl
  trans _ _ _ := List.lt_trans

/-- The keys by shard and block. -/
abbrev UnverifiedKeys := SortedMap ℕ (SortedMap ℕ (List Bytes))

/-- A key of a block of a shard. -/
abbrev Triple := ℕ × ℕ × Bytes

namespace UnverifiedKeys

/-- The keys with their shards and blocks. -/
def triples (keys : UnverifiedKeys) : List Triple :=
  keys.entries.flatMap fun e => e.2.entries.flatMap fun b => b.2.map fun k => (e.1, b.1, k)

/-- The block stands in the map, with or without keys. -/
def hasBlock (keys : UnverifiedKeys) (shard block : ℕ) : Bool :=
  keys.entries.any fun e => shard = e.1 && e.2.entries.any fun b => block = b.1

/-! ### The grouping loop of `Client::Commit` and `Client::BatchGet` -/

/-- A round of the loop over the keys of a promise. -/
def addKey (shard block : ℕ) (key : Bytes) (keys : UnverifiedKeys) : UnverifiedKeys :=
  match keys.lookup shard with
  | some blocks =>
    match blocks.lookup block with
    | some ks => keys.assign shard (blocks.assign block (ks ++ [key]))
    | none => keys.assign shard (blocks.emplace block [key])
  | none => keys.emplace shard (SortedMap.empty.emplace block [key])

/-! ### `Client::Verify`

`answers` are the results of the calls `bclient[..]->Verify(..)`, one after the other: a call is
refused when the block is past the last one that the shard has reported. -/

/-- The calls for one block: the keys left in the list after the pieces of 10000 have been asked
for, or `none` when a call is refused; and the results of the later calls. -/
def verifyBlock : (answers : List Bool) → (keys : List Bytes) → Option (List Bytes) × List Bool
  | [], _ => (none, [])
  | false :: answers, _ => (none, answers)
  | true :: answers, keys =>
    if keys.length > 10000 then verifyBlock answers (keys.drop 10000) else (some keys, answers)

/-- The loop over the blocks of a shard: after the first refused block all are erased. -/
def verifyBlocks : (verifiable : Bool) → List (ℕ × List Bytes) → (answers : List Bool) →
    List (ℕ × List Bytes) × List Bool
  | _, [], answers => ([], answers)
  | false, _ :: blocks, answers => verifyBlocks false blocks answers
  | true, (block, keys) :: blocks, answers =>
    match verifyBlock answers keys with
    | (none, answers) => verifyBlocks false blocks answers
    | (some keys, answers) =>
      let (blocks, answers) := verifyBlocks true blocks answers
      ((block, keys) :: blocks, answers)

theorem keys_verifyBlocks (verifiable : Bool) (blocks : List (ℕ × List Bytes))
    (answers : List Bool) :
    ((verifyBlocks verifiable blocks answers).1.map (·.1)).Sublist (blocks.map (·.1)) := by
  induction blocks generalizing verifiable answers with
  | nil => cases verifiable <;> exact List.Sublist.refl _
  | cons b blocks ih =>
    cases verifiable with
    | false => exact (ih false answers).cons _
    | true =>
      rw [verifyBlocks]
      split
      · exact (ih false _).cons _
      · exact (ih true _).cons_cons _

/-- The loop over the shards; one without blocks is erased. -/
def verifyShards : List (ℕ × SortedMap ℕ (List Bytes)) → (answers : List Bool) →
    List (ℕ × SortedMap ℕ (List Bytes))
  | [], _ => []
  | (shard, blocks) :: shards, answers =>
    let kept := verifyBlocks true blocks.entries answers
    let blocks := blocks.ofSublist kept.1 (keys_verifyBlocks true blocks.entries answers)
    let shards := verifyShards shards kept.2
    if blocks.entries.length = 0 then shards else (shard, blocks) :: shards

theorem keys_verifyShards (shards : List (ℕ × SortedMap ℕ (List Bytes))) (answers : List Bool) :
    ((verifyShards shards answers).map (·.1)).Sublist (shards.map (·.1)) := by
  induction shards generalizing answers with
  | nil => exact List.Sublist.refl _
  | cons e shards ih =>
    rw [verifyShards]
    split
    · exact (ih _).cons _
    · exact (ih _).cons_cons _

/-- `Client::Verify`: what is left of `keys`, which are the blocks that were asked for. -/
def verify (keys : UnverifiedKeys) (answers : List Bool) : UnverifiedKeys :=
  keys.ofSublist (verifyShards keys.entries answers) (keys_verifyShards keys.entries answers)

end UnverifiedKeys

end LedgerDatabase.Distributed
