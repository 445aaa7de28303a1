import LedgerDatabase.Common.Calls
import LedgerDatabase.Common.Equiv.DB
import LedgerDatabase.Common.Equiv.Hash
import LedgerDatabase.Library.Memo

/-!
# What the calls of the store return

RocksDB always answers what was last put (`rocks_afterCalls`), and so does
`Get(const std::string&, std::string*)`.  The two caches are cells over it: `cache_` is never
emptied, and `m_cache_` only by `Put(const std::string&, const Chunk&)`.  So the store looks like a
map exactly as long as no record changes between two readings of it through the same cell
(`get_eq_lastPut_iff`).
-/

namespace LedgerDatabase.DB

open Call

variable {stored : List (Bytes × Bytes)} {calls : List Call} {call : Call}

theorem afterCalls_concat (db : DB) :
    db.afterCalls (calls ++ [call]) = (call.exec (db.afterCalls calls)).2 := by
  rw [afterCalls, List.foldl_concat, ← afterCalls]

theorem lastPut_concat (key : Bytes) :
    lastPut stored (calls ++ [call]) key =
      if call.key = key then call.val.or (lastPut stored calls key)
      else lastPut stored calls key := by
  rw [lastPut, List.foldl_concat, ← lastPut]

/-! ### One call -/

theorem rocks_exec (db : DB) (key : Bytes) :
    (call.exec db).2.rocks.lookup key =
      if call.key = key then call.val.or (db.rocks.lookup key) else db.rocks.lookup key := by
  have hput (k v : Bytes) : List.lookup key ((k, v) :: db.rocks) =
      if k = key then (some v).or (db.rocks.lookup key) else db.rocks.lookup key := by
    rw [StdMap.lookup_cons_ite, Option.some_or]
    exact if_congr eq_comm rfl rfl
  cases call with
  | putHash k chunk => exact hput _ _
  | putChunk k chunk => exact hput _ _
  | putString k v => exact hput _ _
  | getHash k =>
    rw [exec, getHash]
    cases db.cache.lookup k.toBase32 <;> simp [val]
  | getChunk k => simp [exec, val]
  | getString k => simp [exec, val]

/-- `cache_` enters what `Get(const Hash&)` finds and keeps it. -/
theorem cache_exec (db : DB) (key : Hash) :
    (call.exec db).2.cache.lookup key.toBase32 =
      (db.cache.lookup key.toBase32).or
        (if call = .getHash key then some (db.rocks.lookup key.bytes) else none) := by
  cases call with
  | putHash k chunk | putChunk k chunk | putString k v => simp [exec, putHash, putChunk, putString]
  | getString k => simp [exec]
  | getChunk k =>
    rw [exec, DB.getChunk]
    cases db.mCache.lookup k <;> simp
  | getHash k =>
    rw [exec, DB.getHash]
    by_cases hk : k = key
    · rw [hk, if_pos rfl]
      cases h : db.cache.lookup key.toBase32 with
      | some c => simp only [h, Option.some_or]
      | none => simp only [StdMap.lookup_cons_ite, if_pos, Option.none_or]
    · rw [if_neg (by simpa using hk), Option.or_none]
      cases h : db.cache.lookup k.toBase32 with
      | some c => rfl
      | none =>
        have hne : key.toBase32 ≠ k.toBase32 := fun heq => hk (Hash.toBase32_inj.mp heq).symm
        simp only [StdMap.lookup_cons_ite, if_neg hne]

/-- `m_cache_` enters what `Get(const std::string&)` finds, and `Put(const std::string&, const
Chunk&)` erases it. -/
theorem mCache_exec (db : DB) (key : Bytes) :
    (call.exec db).2.mCache.lookup key =
      if call.PutsChunk key then none
      else (db.mCache.lookup key).or
        (if call = .getChunk key then some (db.rocks.lookup key) else none) := by
  cases call with
  | putHash k chunk | putString k v => simp [exec, putHash, putString, PutsChunk]
  | getString k => simp [exec, PutsChunk]
  | putChunk k chunk =>
    show List.lookup key (db.mCache.filter fun e => e.1 != k) = _
    rw [lookup_filter_ne]
    by_cases hk : key = k
    · have hputs : PutsChunk key (.putChunk k chunk) := hk.symm
      rw [if_pos hk, if_pos hputs]
    · have hputs : ¬ PutsChunk key (.putChunk k chunk) := fun h => hk (show k = key from h).symm
      rw [if_neg hk, if_neg hputs, if_neg (by simp), Option.or_none]
  | getHash k =>
    rw [exec, DB.getHash, if_neg (show ¬ PutsChunk key _ from id)]
    cases db.cache.lookup k.toBase32 <;> simp
  | getChunk k =>
    rw [exec, DB.getChunk, if_neg (show ¬ PutsChunk key _ from id)]
    by_cases hk : k = key
    · rw [hk, if_pos rfl]
      cases h : db.mCache.lookup key with
      | some c => simp only [h, Option.some_or]
      | none => simp only [StdMap.lookup_cons_ite, if_pos, Option.none_or]
    · rw [if_neg (by simpa using hk), Option.or_none]
      cases h : db.mCache.lookup k with
      | some c => rfl
      | none => simp only [StdMap.lookup_cons_ite, if_neg (Ne.symm hk)]

/-! ### All calls -/

theorem rocks_afterCalls (key : Bytes) :
    ((opened stored).afterCalls calls).rocks.lookup key = lastPut stored calls key := by
  induction calls using List.reverseRecOn with
  | nil => rfl
  | append_singleton calls call ih =>
    rw [afterCalls_concat, rocks_exec, ih, lastPut_concat]

/-- The cell of `cache_` for a hash. -/
def cacheMemo (stored : List (Bytes × Bytes)) (key : Hash) : Memo Call (Option Bytes) where
  fills call := call = .getHash key
  drops _ := False
  val calls := lastPut stored calls key.bytes
  not_drops _ _ := id

/-- The cell of `m_cache_` for a name. -/
def mCacheMemo (stored : List (Bytes × Bytes)) (key : Bytes) : Memo Call (Option Bytes) where
  fills call := call = .getChunk key
  drops call := call.PutsChunk key
  val calls := lastPut stored calls key
  not_drops call h := by
    rw [h]
    exact id

theorem cache_holds (stored : List (Bytes × Bytes)) (key : Hash) :
    (cacheMemo stored key).Holds
      fun calls => ((opened stored).afterCalls calls).cache.lookup key.toBase32 where
  nil := rfl
  drop _ _ h := h.elim
  fill calls call h := by
    change call = .getHash key at h
    rw [afterCalls_concat, cache_exec, if_pos h, rocks_afterCalls]
    cases List.lookup key.toBase32 _ <;> rfl
  keep calls call _ h := by
    change ¬ call = .getHash key at h
    rw [afterCalls_concat, cache_exec, if_neg h, Option.or_none]

theorem mCache_holds (stored : List (Bytes × Bytes)) (key : Bytes) :
    (mCacheMemo stored key).Holds
      fun calls => ((opened stored).afterCalls calls).mCache.lookup key where
  nil := rfl
  drop calls call h := by
    change call.PutsChunk key at h
    rw [afterCalls_concat, mCache_exec, if_pos h]
  fill calls call h := by
    have hdrop : ¬ call.PutsChunk key := (mCacheMemo stored key).not_drops call h
    change call = .getChunk key at h
    rw [afterCalls_concat, mCache_exec, if_neg hdrop, if_pos h, rocks_afterCalls]
    cases List.lookup key _ <;> rfl
  keep calls call hdrop h := by
    change ¬ call.PutsChunk key at hdrop
    change ¬ call = .getChunk key at h
    rw [afterCalls_concat, mCache_exec, if_neg hdrop, if_neg h, Option.or_none]

theorem returned_getHash (key : Hash) :
    returned (opened stored) calls (.getHash key) =
      (((opened stored).afterCalls calls).cache.lookup key.toBase32).getD
        (lastPut stored calls key.bytes) := by
  rw [returned, exec, DB.getHash, ← rocks_afterCalls]
  cases List.lookup key.toBase32 _ <;> rfl

theorem returned_getChunk (key : Bytes) :
    returned (opened stored) calls (.getChunk key) =
      (((opened stored).afterCalls calls).mCache.lookup key).getD (lastPut stored calls key) := by
  rw [returned, exec, ← chunkAt, chunkAt_eq, rocks_afterCalls]

theorem returned_getString (key : Bytes) :
    returned (opened stored) calls (.getString key) = lastPut stored calls key := by
  rw [returned, exec, DB.getString, rocks_afterCalls]

/-! ### Read your writes -/

/-- No record changes between two readings through the same cache, where `Put(const std::string&,
const Chunk&)` starts `m_cache_` afresh. -/
structure Steady (stored : List (Bytes × Bytes)) (calls : List Call) : Prop where
  hash : ∀ (key : Hash) pre mid post,
    calls = pre ++ .getHash key :: (mid ++ .getHash key :: post) →
      lastPut stored (pre ++ .getHash key :: mid) key.bytes = lastPut stored pre key.bytes
  chunk : ∀ (key : Bytes) pre mid post,
    calls = pre ++ .getChunk key :: (mid ++ .getChunk key :: post) →
      (∀ call ∈ mid, ¬ call.PutsChunk key) →
      lastPut stored (pre ++ .getChunk key :: mid) key = lastPut stored pre key

/-- **Every `Get` returns the bytes last put under its key** exactly if no record changes between
two readings of it through the same cache. -/
theorem get_eq_lastPut_iff (stored : List (Bytes × Bytes)) (calls : List Call) :
    (∀ pre call post, calls = pre ++ call :: post → call.IsGet →
      returned (opened stored) pre call = lastPut stored pre call.key) ↔ Steady stored calls := by
  have hhash (key : Hash) := (cache_holds stored key).transparent_iff calls
  have hchunk (key : Bytes) := (mCache_holds stored key).transparent_iff calls
  constructor
  · intro h
    constructor
    · intro key pre mid post hcalls
      refine (hhash key).mp ?_ pre _ mid _ post hcalls rfl rfl fun _ _ => id
      rintro pre' _ post' hcalls' rfl
      exact (returned_getHash key).symm.trans (h pre' _ post' hcalls' rfl)
    · intro key pre mid post hcalls hmid
      refine (hchunk key).mp ?_ pre _ mid _ post hcalls rfl rfl hmid
      rintro pre' _ post' hcalls' rfl
      exact (returned_getChunk key).symm.trans (h pre' _ post' hcalls' rfl)
  · intro h pre call post hcalls hget
    cases call with
    | putHash key chunk | putChunk key chunk | putString key val => cases hget
    | getString key => exact returned_getString key
    | getHash key =>
      rw [returned_getHash]
      refine (hhash key).mpr ?_ pre _ post hcalls rfl
      rintro pre' _ mid' _ post' hcalls' rfl rfl -
      exact h.hash key pre' mid' post' hcalls'
    | getChunk key =>
      rw [returned_getChunk]
      refine (hchunk key).mpr ?_ pre _ post hcalls rfl
      rintro pre' _ mid' _ post' hcalls' rfl rfl hmid'
      exact h.chunk key pre' mid' post' hcalls' hmid'

/-- A hash that was asked for before its chunk was put stays missing. -/
theorem miss_remembered :
    ¬ ∀ pre call post,
      [Call.getHash ⟨List.replicate 20 0, rfl⟩,
        .putHash ⟨List.replicate 20 0, rfl⟩ (Chunk.ofData .kMPTValue [7]),
        .getHash ⟨List.replicate 20 0, rfl⟩] = pre ++ call :: post → call.IsGet →
      returned (opened []) pre call = lastPut [] pre call.key := by
  intro h
  have hlast := h [_, _] _ [] rfl rfl
  revert hlast
  decide

end LedgerDatabase.DB
