import LedgerDatabase.Common.Bytes

/-!
# Transactions

`Transaction` and the message that carries one.  A `std::unordered_map` is the list of its entries
in the order of their insertion; the order in which it is iterated is not specified, and a
`HashOrder` is any such order.
-/

namespace LedgerDatabase.Distributed

/-- `Timestamp`. -/
structure Timestamp where
  timestamp : ℕ := 0
  id : ℕ := 0
  deriving DecidableEq, Repr

/-- A `std::unordered_map<std::string, V>`. -/
abbrev UnorderedMap (V : Type) := List (Bytes × V)

namespace UnorderedMap

variable {V : Type}

/-- `m[key] = val`. -/
def assign (key : Bytes) (val : V) : UnorderedMap V → UnorderedMap V
  | [] => [(key, val)]
  | (k, v) :: m => if k = key then (key, val) :: m else (k, v) :: assign key val m

/-- `m.find(key) != m.end()`. -/
def contains (m : UnorderedMap V) (key : Bytes) : Bool := m.any fun e => e.1 == key

end UnorderedMap

/-- The order in which hash tables are iterated. -/
structure HashOrder where
  order : {V : Type} → UnorderedMap V → List (Bytes × V)
  perm : ∀ {V : Type} (m : UnorderedMap V), (order m).Perm m

/-- Iteration in the order of insertion. -/
def HashOrder.insertion : HashOrder := ⟨fun m => m, fun m => .refl m⟩

/-- `TransactionMessage`. -/
structure TransactionMessage where
  readset : List (Bytes × Timestamp) := []
  writeset : List (Bytes × Bytes) := []
  deriving DecidableEq

/-- `Transaction`. -/
structure Transaction where
  readSet : UnorderedMap Timestamp := []
  writeSet : UnorderedMap Bytes := []
  deriving DecidableEq, Repr

namespace Transaction

/-- `Transaction::addReadSet`. -/
def addReadSet (key : Bytes) (readTime : Timestamp) (txn : Transaction) : Transaction :=
  { txn with readSet := txn.readSet.assign key readTime }

/-- `Transaction::addWriteSet`. -/
def addWriteSet (key value : Bytes) (txn : Transaction) : Transaction :=
  { txn with writeSet := txn.writeSet.assign key value }

/-- `Transaction::serialize`. -/
def serialize (o : HashOrder) (txn : Transaction) : TransactionMessage where
  readset := o.order txn.readSet
  writeset := o.order txn.writeSet

/-- `Transaction(const TransactionMessage&)`. -/
def ofMessage (msg : TransactionMessage) : Transaction where
  readSet := msg.readset.foldl (fun m e => m.assign e.1 e.2) []
  writeSet := msg.writeset.foldl (fun m e => m.assign e.1 e.2) []

end Transaction

end LedgerDatabase.Distributed
