import LedgerDatabase.Distributed.Proto
import LedgerDatabase.Distributed.Transaction

/-!
# `strongstore::OCCStore`

The store of a shard with its table of prepared transactions.  It keeps its data in a
`VersionedKVStore`, which is a different program in every build; `KVStore` lists what `OCCStore`
calls.
-/

namespace LedgerDatabase.Distributed

/-- The answers of a shard to the requests of a transaction: `REPLY_OK`, `REPLY_FAIL` and the
codes that a client makes up itself. -/
inductive ReplyStatus
  | ok
  | fail
  | retry
  | abstain
  | timeout
  | networkFailure
  deriving DecidableEq, Repr

/-- `Reply.KV`. -/
structure KV where
  key : Bytes
  val : Bytes
  estimateBlock : ℕ
  deriving DecidableEq, Repr

/-- `Reply`, with the fields of the answers to `BATCH_GET`, `PREPARE`, `COMMIT` and `ABORT`. -/
structure TxnReply where
  status : ReplyStatus := .ok
  timestamp : Option ℕ := none
  digest : ℕ × Bytes := (0, [])
  values : List KV := []
  timestamps : List ℕ := []
  deriving DecidableEq, Repr

/-- `VersionedKVStore` of some build.  A call fills fields of a reply. -/
structure KVStore (S : Type) where
  getDigest : S → Except Fault (ℕ × Bytes)
  batchGet : List Bytes → TxnReply → S → Except Fault (TxnReply × S)
  getNVersions : List (Bytes × ℕ) → TxnReply → S → Except Fault (TxnReply × S)
  /-- `put`; without a reply it is called with `nullptr`. -/
  put : List Bytes → List Bytes → ℕ → Option TxnReply → S → Except Fault (Option TxnReply × S)

/-- `OCCStore`: `prepared` holds the transactions by their number. -/
structure OCCStore (S : Type) where
  store : S
  prepared : List (ℕ × Transaction) := []

/-- The call `store.put(keys, vals, timestamp, ..)`. -/
structure PutCall where
  keys : List Bytes
  vals : List Bytes
  timestamp : ℕ
  deriving DecidableEq, Repr

namespace OCCStore

variable {S : Type} (o : HashOrder) (kv : KVStore S)

/-- `OCCStore::getPreparedWrites`. -/
def getPreparedWrites (s : OCCStore S) : List Bytes :=
  s.prepared.flatMap fun t => t.2.writeSet.map (·.1)

/-- `OCCStore::getPreparedReadWrites`. -/
def getPreparedReadWrites (s : OCCStore S) : List Bytes :=
  s.prepared.flatMap fun t => t.2.writeSet.map (·.1) ++ t.2.readSet.map (·.1)

/-- `OCCStore::Abort`. -/
def abort (id : ℕ) (s : OCCStore S) : OCCStore S :=
  { s with prepared := s.prepared.filter fun t => t.1 ≠ id }

/-- `OCCStore::Prepare`. -/
def prepare (id : ℕ) (txn : Transaction) (s : OCCStore S) : ReplyStatus × OCCStore S :=
  if (s.prepared.lookup id).isSome then (.ok, s)
  else if txn.readSet.any fun read => s.getPreparedWrites.contains read.1 then (.fail, s.abort id)
  else if txn.writeSet.any fun write => s.getPreparedReadWrites.contains write.1 then
    (.fail, s.abort id)
  else (.ok, { s with prepared := (id, txn) :: s.prepared })

/-- `OCCStore::BatchGet`. -/
def batchGet (keys : List Bytes) (s : OCCStore S) : Except Fault (TxnReply × OCCStore S) := do
  let digest ← kv.getDigest s.store
  let (reply, store) ← kv.batchGet keys { digest } s.store
  return (reply, { s with store })

/-- `OCCStore::Commit` of a transaction that was written by its client: the reply, the store
afterwards and the call of `put`. -/
def commit (id timestamp : ℕ) (s : OCCStore S) :
    Except Fault (TxnReply × OCCStore S × PutCall) := do
  -- `operator[]` makes an empty transaction for an unknown number
  let txn := (s.prepared.lookup id).getD {}
  let digest ← kv.getDigest s.store
  let writes := o.order txn.writeSet
  let call : PutCall := ⟨writes.map (·.1), writes.map (·.2), timestamp⟩
  let (_, store) ← kv.put call.keys call.vals timestamp none s.store
  return ({ digest }, { s with store }.abort id, call)

/-- The reads of a transaction with `ver_keys`. -/
def readKeys (keys : List Bytes) (reply : TxnReply) (store : S) : Except Fault (TxnReply × S) :=
  if keys.length > 0 then kv.batchGet keys reply store else .ok (reply, store)

/-- The versions that a transaction with `ver_keys` asks for. -/
def readVersions (verKeys : List (Bytes × ℕ)) (reply : TxnReply) (store : S) :
    Except Fault (TxnReply × S) :=
  if verKeys.length > 0 then kv.getNVersions verKeys reply store else .ok (reply, store)

/-- The writes of a transaction with `ver_keys`. -/
def putWrites (call : PutCall) (reply : TxnReply) (store : S) : Except Fault (TxnReply × S) :=
  if call.keys.length > 0 then do
    let (reply', store) ← kv.put call.keys call.vals call.timestamp (some reply) store
    return (reply'.getD reply, store)
  else .ok (reply, store)

/-- `OCCStore::Commit` with `ver_keys`, which also does the reads of the transaction. -/
def commitReads (id timestamp : ℕ) (verKeys : List (Bytes × ℕ)) (s : OCCStore S) :
    Except Fault (TxnReply × OCCStore S × PutCall) :=
  match s.prepared.lookup id with
  | none => .error .assertion
  | some txn => do
    let digest ← kv.getDigest s.store
    let (reply, store) ← readKeys kv ((o.order txn.readSet).map (·.1)) { digest } s.store
    let (reply, store) ← readVersions kv verKeys reply store
    let writes := o.order txn.writeSet
    let call : PutCall := ⟨writes.map (·.1), writes.map (·.2), timestamp⟩
    let (reply, store) ← putWrites kv call reply store
    return (reply, { s with store }.abort id, call)

/-- The calls that reach the table of prepared transactions. -/
inductive Call
  | prepare (id : ℕ) (txn : Transaction)
  | abort (id : ℕ)
  | commit (id timestamp : ℕ)
  | commitReads (id timestamp : ℕ) (verKeys : List (Bytes × ℕ))

/-- The store after a call; a `Commit` that does not return ends the program. -/
def step (s : OCCStore S) : Call → Option (OCCStore S)
  | .prepare id txn => some (s.prepare id txn).2
  | .abort id => some (s.abort id)
  | .commit id timestamp =>
    match s.commit o kv id timestamp with
    | .ok (_, s, _) => some s
    | .error _ => none
  | .commitReads id timestamp verKeys =>
    match s.commitReads o kv id timestamp verKeys with
    | .ok (_, s, _) => some s
    | .error _ => none

end OCCStore

end LedgerDatabase.Distributed
