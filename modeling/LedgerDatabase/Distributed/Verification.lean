import LedgerDatabase.Distributed.ShardClient
import LedgerDatabase.Distributed.UnverifiedKeys

/-!
# `Client::Verify`

The requests that `Client::Verify` sends to the shards and what it leaves of the map of its caller.
The last block that a shard has reported is read again for every call; here it stays the same until
the function returns.  The build `AMZQLDB` has none of the loops.
-/

namespace LedgerDatabase.Distributed

/-- A call of `BufferClient::Verify` that sends a request. -/
structure VerifyRequest where
  shard : ℕ
  block : ℕ
  keys : List Bytes
  deriving DecidableEq, Repr

/-- The keys that the request asks for. -/
def VerifyRequest.triples (r : VerifyRequest) : List Triple := r.keys.map fun k => (r.shard, r.block, k)

/-- The test in `ShardClient::GetProof`: whether it sends the request. -/
def ShardClient.ready (client : ShardClient) (block : ℕ) : Bool := !(client.tipBlock < block)

/-- `Client::Verify` before it waits: the requests, whose promises are in the list `promises`, and
the map. -/
structure Verification where
  requests : List VerifyRequest
  keys : UnverifiedKeys
  deriving DecidableEq

namespace Verification

variable (client : ShardClient) (shard : ℕ)

/-- The `while` loop over the keys of a block and the call after it: the requests, and what is left
of the list of keys unless a call is refused. -/
def block (block : ℕ) (keys : List Bytes) : List VerifyRequest × Option (List Bytes) :=
  if keys.length > 10000 then
    if client.ready block then
      let rest := Verification.block block (keys.drop 10000)
      (⟨shard, block, keys.take 10000⟩ :: rest.1, rest.2)
    else ([], none)
  else if client.ready block then ([⟨shard, block, keys⟩], some keys)
  else ([], none)
termination_by keys.length
decreasing_by simp only [List.length_drop]; omega

/-- The loop over the blocks of a shard. -/
def blocks : (verifiable : Bool) → List (ℕ × List Bytes) → List VerifyRequest × List (ℕ × List Bytes)
  | _, [] => ([], [])
  | false, _ :: bs => blocks false bs
  | true, b :: bs =>
    match block client shard b.1 b.2 with
    | (requests, none) =>
      let rest := blocks false bs
      (requests ++ rest.1, rest.2)
    | (requests, some keys) =>
      let rest := blocks true bs
      (requests ++ rest.1, (b.1, keys) :: rest.2)

theorem keys_blocks (verifiable : Bool) (bs : List (ℕ × List Bytes)) :
    ((blocks client shard verifiable bs).2.map (·.1)).Sublist (bs.map (·.1)) := by
  induction bs generalizing verifiable with
  | nil => cases verifiable <;> exact List.Sublist.refl _
  | cons b bs ih =>
    cases verifiable with
    | false => exact (ih false).cons _
    | true =>
      rw [blocks]
      split
      · exact (ih false).cons _
      · exact (ih true).cons_cons _

variable (clients : ℕ → ShardClient)

/-- The loop over the shards; one without blocks is erased. -/
def shards : List (ℕ × SortedMap ℕ (List Bytes)) →
    List VerifyRequest × List (ℕ × SortedMap ℕ (List Bytes))
  | [] => ([], [])
  | (shard, bs) :: rest =>
    let kept := blocks (clients shard) shard true bs.entries
    let bs := bs.ofSublist kept.2 (keys_blocks (clients shard) shard true bs.entries)
    let rest := shards rest
    (kept.1 ++ rest.1, if bs.entries.length = 0 then rest.2 else (shard, bs) :: rest.2)

theorem keys_shards (es : List (ℕ × SortedMap ℕ (List Bytes))) :
    ((shards clients es).2.map (·.1)).Sublist (es.map (·.1)) := by
  induction es with
  | nil => exact List.Sublist.refl _
  | cons e es ih =>
    rw [shards]
    dsimp only
    split
    · exact ih.cons _
    · exact ih.cons_cons _

/-- `Client::Verify` up to the loop over the promises. -/
def submit (keys : UnverifiedKeys) : Verification where
  requests := (shards clients keys.entries).1
  keys := keys.ofSublist (shards clients keys.entries).2 (keys_shards clients keys.entries)

/-- `Client::Verify`, whose promises are completed with these replies: the result, the requests and
the map. -/
def verify (promises : List (Int32 × VerifyStatus)) (keys : UnverifiedKeys) : Bool × Verification :=
  (promises.all fun p => p.1 = 0 ∧ p.2 = .pass, submit clients keys)

end Verification

end LedgerDatabase.Distributed
