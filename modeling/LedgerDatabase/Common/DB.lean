import LedgerDatabase.Common.Hash
import LedgerDatabase.Library.Ask

/-!
# The store

`DB` is the class `DB`: the RocksDB instance `db_` behind it and the two in-memory caches.  Chunks
are stored under the twenty raw bytes of their hash, in the same key space as the textual records.
`Get(Hash)` answers from `cache_` and enters what it read there, an empty chunk (here `none`)
when there was nothing to read; `Put(Hash, Chunk)` leaves `cache_` as it is.

Code that only reads is written as a program over the queries `Query`, so that its reads can be
interleaved with the writes of another thread.
-/

namespace LedgerDatabase

/-- The class `DB`.  The lists are searched from the front. -/
structure DB where
  /-- The writes to `db_`, newest first. -/
  rocks : List (Bytes × Bytes) := []
  /-- `cache_`, by the base32 form of the hash. -/
  cache : List (Bytes × Option Bytes) := []
  /-- `m_cache_`, by the key. -/
  mCache : List (Bytes × Option Bytes) := []
  deriving DecidableEq

namespace DB

/-! ### Writing -/

/-- `Put(const std::string&, const std::string&)`. -/
def putString (db : DB) (key val : Bytes) : DB := { db with rocks := (key, val) :: db.rocks }

/-- `Put(const Hash&, const Chunk&)`. -/
def putHash (db : DB) (key : Hash) (chunk : Bytes) : DB :=
  { db with rocks := (key.bytes, chunk) :: db.rocks }

/-- `Put(const std::string&, const Chunk&)`, which also forgets the cached chunk. -/
def putChunk (db : DB) (key chunk : Bytes) : DB :=
  { db with
    rocks := (key, chunk) :: db.rocks
    mCache := db.mCache.filter fun e => e.1 != key }

/-- Several calls of `Put(const Hash&, const Chunk&)`, in order. -/
def putHashes (db : DB) (puts : List (Hash × Bytes)) : DB :=
  puts.foldl (fun db e => db.putHash e.1 e.2) db

/-! ### Reading -/

/-- `Get(const std::string&, std::string*)`. -/
def getString (db : DB) (key : Bytes) : Option Bytes := db.rocks.lookup key

/-- `Get(const Hash&)`. -/
def getHash (db : DB) (key : Hash) : Option Bytes × DB :=
  match db.cache.lookup key.toBase32 with
  | some chunk => (chunk, db)
  | none =>
    let chunk := db.rocks.lookup key.bytes
    (chunk, { db with cache := (key.toBase32, chunk) :: db.cache })

/-- `Get(const std::string&)`. -/
def getChunk (db : DB) (key : Bytes) : Option Bytes × DB :=
  match db.mCache.lookup key with
  | some chunk => (chunk, db)
  | none =>
    let chunk := db.rocks.lookup key
    (chunk, { db with mCache := (key, chunk) :: db.mCache })

end DB

/-! ### Programs that read -/

/-- A read of the store. -/
inductive Query
  /-- `Get(const std::string&, std::string*)`. -/
  | string (key : Bytes)
  /-- `Get(const Hash&)`. -/
  | hash (key : Hash)
  deriving DecidableEq

/-- Code that only reads the store. -/
abbrev Reads (α : Type) := Ask Query (Option Bytes) Fault α

/-- Reading into a fresh `std::string`, which stays empty when the key is missing. -/
def readString (key : Bytes) : Reads Bytes := do
  let val ← Ask.query (.string key)
  return val.getD []

/-- Reading a chunk; `none` is the empty chunk. -/
def readHash (key : Hash) : Reads (Option Bytes) := Ask.query (.hash key)

namespace DB

/-- How the store answers a read. -/
def answer : Query → DB → Option Bytes × DB
  | .string key, db => (db.getString key, db)
  | .hash key, db => db.getHash key

/-- What a read returns now. -/
def view (db : DB) (q : Query) : Option Bytes := (answer q db).1

/-- Running code that only reads. -/
def reads {α : Type} (p : Reads α) (db : DB) : Except Fault α × DB := p.exec answer db

end DB

end LedgerDatabase
