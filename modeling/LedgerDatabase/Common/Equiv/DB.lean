import LedgerDatabase.Common.DB
import LedgerDatabase.Common.Equiv.StdMap
import LedgerDatabase.Library.PutLog

/-!
# What the store answers by name

`chunkAt` is the chunk that `Get(const std::string&)` returns: from the cache, and from RocksDB when
the cache has no entry.  Reading enters into the cache what it returns, so it changes no later answer
(`chunkAt_getChunk`), whatever the cache holds.  A write changes the answers for its own key only.
-/

namespace LedgerDatabase.DB

/-- What `Get(const std::string&)` returns. -/
def chunkAt (db : DB) (key : Bytes) : Option Bytes := (db.getChunk key).1

theorem chunkAt_eq (db : DB) (key : Bytes) :
    db.chunkAt key = (db.mCache.lookup key).getD (db.rocks.lookup key) := by
  unfold chunkAt getChunk
  cases db.mCache.lookup key <;> rfl

theorem getChunk_eq (db : DB) (key : Bytes) : db.getChunk key = (db.chunkAt key, (db.getChunk key).2) :=
  rfl

@[simp]
theorem rocks_getChunk (db : DB) (key : Bytes) : (db.getChunk key).2.rocks = db.rocks := by
  unfold getChunk
  cases db.mCache.lookup key <;> rfl

@[simp]
theorem getString_getChunk (db : DB) (key : Bytes) :
    (db.getChunk key).2.getString = db.getString := by
  funext key'
  rw [getString, rocks_getChunk, getString]

/-- Reading changes no answer. -/
@[simp]
theorem chunkAt_getChunk (db : DB) (key : Bytes) : (db.getChunk key).2.chunkAt = db.chunkAt := by
  funext key'
  rw [chunkAt_eq, rocks_getChunk, chunkAt_eq, getChunk]
  cases h : db.mCache.lookup key with
  | some c => rfl
  | none =>
    simp only [StdMap.lookup_cons_ite]
    by_cases hkey : key' = key
    · rw [if_pos hkey, hkey, h]
      rfl
    · rw [if_neg hkey]

/-! ### Writing a chunk -/

theorem lookup_filter_ne {V : Type} (m : List (Bytes × V)) (key key' : Bytes) :
    (m.filter fun e => e.1 != key).lookup key' = if key' = key then none else m.lookup key' := by
  induction m with
  | nil => simp
  | cons e m ih =>
    rw [List.filter_cons]
    by_cases he : e.1 = key
    · rw [if_neg (by simp [he]), ih, StdMap.lookup_cons_ite, he]
      by_cases hkey : key' = key
      · rw [if_pos hkey, if_pos hkey]
      · rw [if_neg hkey, if_neg hkey, if_neg hkey]
    · rw [if_pos (by simpa using he), StdMap.lookup_cons_ite, StdMap.lookup_cons_ite, ih]
      by_cases hkey : key' = e.1
      · rw [if_pos hkey, if_pos hkey, if_neg (by rwa [hkey])]
      · rw [if_neg hkey, if_neg hkey]

theorem chunkAt_putChunk (db : DB) (key chunk key' : Bytes) :
    (db.putChunk key chunk).chunkAt key' = if key' = key then some chunk else db.chunkAt key' := by
  rw [chunkAt_eq, chunkAt_eq, putChunk]
  simp only [lookup_filter_ne, StdMap.lookup_cons_ite]
  by_cases hkey : key' = key
  · rw [if_pos hkey, if_pos hkey, if_pos hkey]
    rfl
  · rw [if_neg hkey, if_neg hkey, if_neg hkey]

theorem getString_putChunk (db : DB) (key chunk key' : Bytes) :
    (db.putChunk key chunk).getString key' = if key' = key then some chunk else db.getString key' :=
  StdMap.lookup_cons_ite _ _

/-! ### Writing strings -/

theorem getString_putString (db : DB) (key val key' : Bytes) :
    (db.putString key val).getString key' = if key' = key then some val else db.getString key' :=
  StdMap.lookup_cons_ite _ _

/-- A string is not seen by those who read chunks under another name. -/
theorem chunkAt_putString_of_ne (db : DB) {key key' : Bytes} (val : Bytes) (h : key' ≠ key) :
    (db.putString key val).chunkAt key' = db.chunkAt key' := by
  rw [chunkAt_eq, chunkAt_eq, putString]
  simp only [StdMap.lookup_cons_ite, if_neg h]

/-- Several calls of `Put(const std::string&, const std::string&)`, in order. -/
def putStrings (db : DB) (puts : List (Bytes × Bytes)) : DB :=
  puts.foldl (fun db w => db.putString w.1 w.2) db

theorem putStrings_append (db : DB) (puts puts' : List (Bytes × Bytes)) :
    db.putStrings (puts ++ puts') = (db.putStrings puts).putStrings puts' :=
  List.foldl_append

theorem getString_putStrings_of_not_mem (puts : List (Bytes × Bytes)) : ∀ (db : DB) {key : Bytes},
    key ∉ puts.map Prod.fst → (db.putStrings puts).getString key = db.getString key := by
  induction puts with
  | nil => exact fun db _ _ => rfl
  | cons w puts ih =>
    intro db key h
    rw [List.map_cons, List.mem_cons, not_or] at h
    show ((db.putString w.1 w.2).putStrings puts).getString key = _
    rw [ih _ h.2, getString_putString, if_neg h.1]

theorem getString_putStrings_of_mem (puts : List (Bytes × Bytes)) : ∀ (db : DB) {key val : Bytes},
    (puts.map Prod.fst).Nodup → (key, val) ∈ puts →
      (db.putStrings puts).getString key = some val := by
  induction puts with
  | nil => exact fun db _ _ _ h => absurd h List.not_mem_nil
  | cons w puts ih =>
    intro db key val hnodup h
    rw [List.map_cons, List.nodup_cons] at hnodup
    show ((db.putString w.1 w.2).putStrings puts).getString key = _
    rcases List.mem_cons.mp h with rfl | h
    · rw [getString_putStrings_of_not_mem puts _ hnodup.1, getString_putString, if_pos rfl]
    · exact ih _ hnodup.2 h

theorem chunkAt_putStrings_of_not_mem (puts : List (Bytes × Bytes)) : ∀ (db : DB) {key : Bytes},
    key ∉ puts.map Prod.fst → (db.putStrings puts).chunkAt key = db.chunkAt key := by
  induction puts with
  | nil => exact fun db _ _ => rfl
  | cons w puts ih =>
    intro db key h
    rw [List.map_cons, List.mem_cons, not_or] at h
    show ((db.putString w.1 w.2).putStrings puts).chunkAt key = _
    rw [ih _ h.2, chunkAt_putString_of_ne _ _ h.1]

end LedgerDatabase.DB
