import LedgerDatabase.Common.Bytes

/-!
# Maps by strings

A `std::map<std::string, V>` is the list of its entries in the order of their keys, which is the
order in which the source iterates over it.
-/

namespace LedgerDatabase

/-- A `std::map<std::string, V>`. -/
abbrev StdMap (V : Type) := List (Bytes × V)

namespace StdMap

variable {V : Type}

/-- `m[key] = val`. -/
def assign (key : Bytes) (val : V) : StdMap V → StdMap V
  | [] => [(key, val)]
  | (k, v) :: m =>
    if key = k then (key, val) :: m
    else if key < k then (key, val) :: (k, v) :: m
    else (k, v) :: assign key val m

/-- `m.emplace(key, val)`: an entry that is there stays. -/
def emplace (key : Bytes) (val : V) (m : StdMap V) : StdMap V :=
  if (m.lookup key).isSome then m else m.assign key val

/-- `m.lower_bound(key)`, as the rest of the map from there on. -/
def lowerBound (key : Bytes) (m : StdMap V) : StdMap V := m.dropWhile fun e => e.1 < key

/-- `m.upper_bound(key)`, as the rest of the map from there on. -/
def upperBound (key : Bytes) (m : StdMap V) : StdMap V := m.dropWhile fun e => e.1 ≤ key

end StdMap

end LedgerDatabase
