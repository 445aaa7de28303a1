import LedgerDatabase.Common.Bytes

/-!
# The replies of a shard

The messages of `strong-proto.proto` that carry the proofs of the `LEDGERDB` build.  A field that
was not set reads as its default.
-/

namespace LedgerDatabase.Distributed

/-- `Reply.Digest`. -/
structure Digest where
  block : Int64 := 0
  hash : Bytes := []
  mptHash : Bytes := []
  deriving DecidableEq

/-- `LedgerDBProof`. -/
structure LedgerDBProof where
  val : Bytes := []
  hash : Bytes := []
  proof : List Bytes := []
  mtPos : List Int32 := []
  mptvalue : Bytes := []
  mptChunks : List Bytes := []
  mptPos : List Int32 := []
  deriving DecidableEq

/-- `Reply`, with the fields that the `LEDGERDB` build reads from the answer to `VERIFY_GET`. -/
structure Reply where
  status : Int32 := 0
  digest : Digest := {}
  proof : List LedgerDBProof := []
  deriving DecidableEq

/-- The conversion of an `int32` to `size_t`. -/
def sizeOfInt32 (n : Int32) : ℕ := (n.toInt % 2 ^ 64).toNat

/-- The conversion of an `int64` to `uint64_t`. -/
def sizeOfInt64 (n : Int64) : ℕ := (n.toInt % 2 ^ 64).toNat

end LedgerDatabase.Distributed
