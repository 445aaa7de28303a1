import LedgerDatabase.Distributed.System
import LedgerDatabase.Distributed.VersionStore

/-!
# Clients and shards of the `LEDGERDB` build

Every shard has a ledger, whose thread `buildTree` runs between the requests.
-/

namespace LedgerDatabase.Distributed

open Ledgerdb VersionedKVStore

/-- Servers with stored procedures. -/
def ledgerDeployment (nshards : ℕ) (mode : Mode) (order : HashOrder) : Deployment LedgerStore :=
  { nshards, mode, storedProcedure := true, order, kv := kvStore }

/-- A step of the system, or a round of `buildTree` at a shard. -/
inductive LedgerLabel
  | system (l : Label)
  | build (shard n : ℕ)

namespace System

variable (H : Bytes → Hash) (d : Deployment LedgerStore)

/-- A shard with another ledger. -/
def setLedger (sys : System LedgerStore) (shard : ℕ) (ldb : LedgerDB) : System LedgerStore :=
  let store := sys.shards shard
  sys.setShard shard { store with store := { store.store with ldb } }

/-- The step with a label. -/
def ledgerStep (sys : System LedgerStore) : LedgerLabel → Option (System LedgerStore)
  | .system l => step d sys l
  | .build shard n =>
    match (sys.shards shard).store.ldb.buildTree H n with
    | .error _ => none
    | .ok ldb => some (sys.setLedger shard ldb)

end System

namespace Session

/-- The keys with which `Commit` returns; the answer to the commit is the second one. -/
def report (session : Session) (keys : UnverifiedKeys) : UnverifiedKeys :=
  session.client.report (fun p => (session.replies p)[1]?.getD {}) keys

end Session

end LedgerDatabase.Distributed
