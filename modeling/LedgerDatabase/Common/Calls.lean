import LedgerDatabase.Common.DB
import LedgerDatabase.Common.Chunk

/-!
# Calls of the store

The six operations of the class `DB` as one type of calls, and the abstract store that they should
look like from outside: `lastPut` is what was last put under a key, with no caches.
-/

namespace LedgerDatabase.DB

/-- A call of `DB`. -/
inductive Call
  /-- `Put(const Hash&, const Chunk&)`. -/
  | putHash (key : Hash) (chunk : Bytes)
  /-- `Put(const std::string&, const Chunk&)`. -/
  | putChunk (key chunk : Bytes)
  /-- `Put(const std::string&, const std::string&)`. -/
  | putString (key val : Bytes)
  /-- `Get(const Hash&)`. -/
  | getHash (key : Hash)
  /-- `Get(const std::string&)`. -/
  | getChunk (key : Bytes)
  /-- `Get(const std::string&, std::string*)`. -/
  | getString (key : Bytes)
  deriving DecidableEq

namespace Call

/-- The store after a call, and what the call returns; a `Put` returns no bytes.  Of a chunk, the
`numBytes()` bytes from its head on are stored. -/
def exec (db : DB) : Call → Option Bytes × DB
  | putHash key chunk => (none, db.putHash key (Chunk.bytes chunk))
  | putChunk key chunk => (none, db.putChunk key (Chunk.bytes chunk))
  | putString key val => (none, db.putString key val)
  | getHash key => db.getHash key
  | getChunk key => db.getChunk key
  | getString key => (db.getString key, db)

/-- The key of the record that a call reads or writes. -/
def key : Call → Bytes
  | putHash key _ => key.bytes
  | putChunk key _ => key
  | putString key _ => key
  | getHash key => key.bytes
  | getChunk key => key
  | getString key => key

/-- The bytes that a call puts. -/
def val : Call → Option Bytes
  | putHash _ chunk => some (Chunk.bytes chunk)
  | putChunk _ chunk => some (Chunk.bytes chunk)
  | putString _ val => some val
  | getHash _ => none
  | getChunk _ => none
  | getString _ => none

/-- The call is a `Get`. -/
def IsGet (call : Call) : Prop := call.val = none

instance (call : Call) : Decidable call.IsGet := inferInstanceAs (Decidable (_ = none))

/-- The call is `Put(const std::string&, const Chunk&)` under `key`. -/
def PutsChunk (key : Bytes) : Call → Prop
  | putChunk key' _ => key' = key
  | _ => False

instance (key : Bytes) : (call : Call) → Decidable (call.PutsChunk key)
  | putChunk _ _ => inferInstanceAs (Decidable (_ = _))
  | putHash _ _ | putString _ _ | getHash _ | getChunk _ | getString _ => .isFalse id

end Call

/-- The store after some calls. -/
def afterCalls (db : DB) (calls : List Call) : DB := calls.foldl (fun db call => (call.exec db).2) db

/-- What `call` returns after the calls before it. -/
def returned (db : DB) (before : List Call) (call : Call) : Option Bytes :=
  (call.exec (db.afterCalls before)).1

/-- A store that has just been opened on the records of `stored`. -/
def opened (stored : List (Bytes × Bytes)) : DB := { rocks := stored }

/-- The bytes that were last put under `key`, or that were stored before if none were. -/
def lastPut (stored : List (Bytes × Bytes)) (calls : List Call) (key : Bytes) : Option Bytes :=
  calls.foldl (fun last call => if call.key = key then call.val.or last else last)
    (stored.lookup key)

end LedgerDatabase.DB
