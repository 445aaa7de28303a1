import LedgerDatabase.Distributed.UnverifiedKeys
import LedgerDatabase.Library.Run

/-!
# The verification client

`txnThread` merges the keys that a transaction reports into `verifymap`; `verifyThread` goes in
rounds: it copies `verifymap`, has the copy verified, and erases the blocks that `Client::Verify`
has kept.  The critical sections of the two threads are interleaved in any order.

`merged` and `verified` record what has happened; no step reads them.
-/

namespace LedgerDatabase.Distributed

/-- A `std::set<std::string>`. -/
abbrev KeySet := SortedMap Bytes Unit

/-- The type of `verifymap`. -/
abbrev VerifyMap := SortedMap ℕ (SortedMap ℕ KeySet)

namespace VerifyMap

/-- The set with more keys. -/
def emplaceKeys (keys : List Bytes) (set : KeySet) : KeySet :=
  keys.foldl (fun set k => set.emplace k ()) set

/-! ### `txnThread` -/

/-- A round of the loop over the blocks of a shard that `verifymap` has. -/
def mergeBlock (blocks : SortedMap ℕ KeySet) (b : ℕ × List Bytes) : SortedMap ℕ KeySet :=
  match blocks.lookup b.1 with
  | some set => blocks.assign b.1 (emplaceKeys b.2 set)
  | none => blocks.emplace b.1 (emplaceKeys b.2 .empty)

/-- A round of the loop over the blocks of another shard. -/
def copyBlock (blocks : SortedMap ℕ KeySet) (b : ℕ × List Bytes) : SortedMap ℕ KeySet :=
  blocks.emplace b.1 (emplaceKeys b.2 .empty)

/-- A round of the loop over the shards. -/
def mergeShard (m : VerifyMap) (e : ℕ × SortedMap ℕ (List Bytes)) : VerifyMap :=
  match m.lookup e.1 with
  | some blocks => m.assign e.1 (e.2.entries.foldl mergeBlock blocks)
  | none => m.emplace e.1 (e.2.entries.foldl copyBlock .empty)

/-- The critical section of `txnThread`. -/
def merge (keys : UnverifiedKeys) (m : VerifyMap) : VerifyMap := keys.entries.foldl mergeShard m

/-! ### `verifyThread` -/

/-- The copy of `verifymap`, with vectors in place of the sets. -/
def snapshot (m : VerifyMap) : UnverifiedKeys :=
  m.mapVal fun blocks => blocks.mapVal fun set => set.keys

/-- A round of the loop over the shards after `Verify`. -/
def eraseShard (m : VerifyMap) (e : ℕ × SortedMap ℕ (List Bytes)) : VerifyMap :=
  -- `operator[]` enters an empty map for a missing shard
  let blocks := (m.lookup e.1).getD .empty
  let blocks := e.2.entries.foldl (fun blocks b => blocks.erase b.1) blocks
  if blocks.entries.length = 0 then m.erase e.1 else m.assign e.1 blocks

/-- The last critical section of a round. -/
def eraseBlocks (kept : UnverifiedKeys) (m : VerifyMap) : VerifyMap :=
  kept.entries.foldl eraseShard m

end VerifyMap

/-- Where `verifyThread` is. -/
inductive VerifyRound
  | sleeping
  /-- It has copied `verifymap`. -/
  | verifying (snapshot : UnverifiedKeys)
  /-- `Client::Verify` has returned and has left the blocks `kept` in the copy. -/
  | erasing (snapshot kept : UnverifiedKeys)
  deriving DecidableEq

/-- The state that the threads share. -/
structure VerifyClient where
  verifymap : VerifyMap := .empty
  round : VerifyRound := .sleeping
  /-- The triples that have been merged. -/
  merged : List Triple := []
  /-- The triples of the copies whose blocks `Client::Verify` has kept. -/
  verified : List Triple := []
  deriving DecidableEq

namespace VerifyClient

/-- A critical section, or the call of `Client::Verify`. -/
inductive Label
  | merge (keys : UnverifiedKeys)
  | snapshot
  | verify (answers : List Bool)
  | erase

/-- The step with a label, if it can be taken. -/
def step (c : VerifyClient) : Label → Option VerifyClient
  | .merge keys =>
    some { c with verifymap := c.verifymap.merge keys, merged := c.merged ++ keys.triples }
  | .snapshot =>
    match c.round with
    | .sleeping =>
      if c.verifymap.entries.length = 0 then some c
      else some { c with round := .verifying c.verifymap.snapshot }
    | _ => none
  | .verify answers =>
    match c.round with
    | .verifying snapshot =>
      let kept := snapshot.verify answers
      some { c with
        round := .erasing snapshot kept
        verified := c.verified ++ snapshot.triples.filter fun t => kept.hasBlock t.1 t.2.1 }
    | _ => none
  | .erase =>
    match c.round with
    | .erasing _ kept => some { c with round := .sleeping, verifymap := c.verifymap.eraseBlocks kept }
    | _ => none

end VerifyClient

end LedgerDatabase.Distributed
