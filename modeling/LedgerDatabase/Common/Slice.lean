import LedgerDatabase.Common.Bytes

/-!
# Comparing byte strings

A `Slice` is a pointer and a length, and here the bytes it points to.  Its comparisons call
`std::memcmp`, which takes bytes as unsigned, on the common length and look at the lengths only when
the bytes agree.
-/

namespace LedgerDatabase

/-- `std::memcmp` on the first `n` bytes: negative, zero or positive as the first two bytes that
differ are ordered.  No caller asks for more bytes than either string has. -/
def memcmp : Bytes → Bytes → (n : ℕ) → ℤ
  | a :: s, b :: t, n + 1 => if a = b then memcmp s t n else (a.toNat : ℤ) - b.toNat
  | _, _, _ => 0

namespace Slice

/-- `operator<`. -/
def lt (s t : Bytes) : Bool :=
  let minLen := min s.length t.length
  let cmp := memcmp s t minLen
  if cmp ≠ 0 then cmp < 0 else s.length < t.length

/-- `operator>`. -/
def gt (s t : Bytes) : Bool :=
  let minLen := min s.length t.length
  let cmp := memcmp s t minLen
  if cmp ≠ 0 then cmp > 0 else s.length > t.length

/-- `operator==`. -/
def eq (s t : Bytes) : Bool :=
  if s.length ≠ t.length then false else memcmp s t s.length = 0

end Slice

end LedgerDatabase
