import Mathlib

/-!
# Byte strings, decimal numbers and splitting

A `std::string` of the source is a list of bytes.  `toDecimal` is `std::to_string` of an unsigned
number, `stoul` and `stoi` read a number back (with the white space, sign and trailing text that
the library functions accept), `splitBy` is `Utils::splitBy`, and `leBytes`/`leNat` are the
little-endian integers that `memcpy` writes into a chunk.

The source's 64-bit counters are natural numbers here: no run is long enough to wrap one.
-/

namespace LedgerDatabase

/-- A `std::string`, or the bytes behind a pointer. -/
abbrev Bytes := List UInt8

/-- The comparison of strings decides equality. -/
instance : LawfulBEq Bytes := List.instLawfulBEq

/-- How a call can fail to return: an exception of the standard library, or an access that the
source leaves undefined. -/
inductive Fault
  /-- `std::invalid_argument`: a number was expected and no digit was found. -/
  | invalidArgument
  /-- An index outside a vector, a string or a parsed field list. -/
  | outOfRange
  /-- A chunk whose bytes do not fit its 32-bit size. -/
  | oversize
  /-- A chunk without a head was dereferenced. -/
  | nullChunk
  /-- A loop over stored pointers that does not come to an end. -/
  | diverges
  /-- An `ASSERT` that fails. -/
  | assertion
  /-- A `Panic`. -/
  | panic
  /-- A pointer or an iterator to nothing is dereferenced. -/
  | dangling
  /-- A number that does not fit an `int`. -/
  | overflow
  deriving DecidableEq, Repr

/-- The bytes of an ASCII literal. -/
def str (s : String) : Bytes := s.toList.map Char.toUInt8

/-- `std::to_string` of an unsigned number. -/
def toDecimal (n : ℕ) : Bytes := (Nat.toDigits 10 n).map Char.toUInt8

/-- `std::to_string` of a signed number. -/
def toDecimalInt (n : ℤ) : Bytes := if n < 0 then 45 :: toDecimal n.natAbs else toDecimal n.toNat

/-- The conversion of a `uint64_t` to `long`. -/
def toLong (n : ℕ) : ℤ := if n % 2 ^ 64 < 2 ^ 63 then n % 2 ^ 64 else n % 2 ^ 64 - 2 ^ 64

/-- The conversion of an unsigned number to `int`. -/
def toInt (n : ℕ) : ℤ := if n % 2 ^ 32 < 2 ^ 31 then n % 2 ^ 32 else n % 2 ^ 32 - 2 ^ 32

/-- The conversion of an `int` to `size_t`. -/
def toSize (n : ℤ) : ℕ := (n % 2 ^ 64).toNat

/-- `a + b` on `int`, where the source leaves an overflow undefined. -/
def addInt (a b : ℤ) : Except Fault ℤ :=
  if -2 ^ 31 ≤ a + b ∧ a + b < 2 ^ 31 then .ok (a + b) else .error .overflow

/-! ### Reading numbers -/

/-- `std::isspace` in the C locale. -/
def isSpace (b : UInt8) : Bool := b == 32 || (9 ≤ b && b ≤ 13)

/-- `std::isdigit`. -/
def isDigit (b : UInt8) : Bool := 48 ≤ b && b ≤ 57

/-- The value of a run of decimal digits, most significant first. -/
def digitsValue (ds : Bytes) : ℕ := ds.foldl (fun acc d => 10 * acc + (d.toNat - 48)) 0

/-- The optional sign in front of a number: whether it is negative, and what follows it. -/
def splitSign : Bytes → Bool × Bytes
  | 45 :: rest => (true, rest)
  | 43 :: rest => (false, rest)
  | s => (false, s)

/-- The scan that `std::stoul` and `std::stoi` share: white space, a sign, then the longest run of
digits.  Text after the digits is ignored. -/
def scanNumber (s : Bytes) : Except Fault (Bool × ℕ) :=
  let (neg, rest) := splitSign (s.dropWhile isSpace)
  let ds := rest.takeWhile isDigit
  if ds = [] then .error .invalidArgument else .ok (neg, digitsValue ds)

/-- `std::stoul`: a negative number is taken modulo `2^64`. -/
def stoul (s : Bytes) : Except Fault ℕ := do
  let (neg, n) ← scanNumber s
  return if neg then (2 ^ 64 - n % 2 ^ 64) % 2 ^ 64 else n

/-- `std::stoi`. -/
def stoi (s : Bytes) : Except Fault ℤ := do
  let (neg, n) ← scanNumber s
  return if neg then -(n : ℤ) else n

/-- `std::stol`. -/
def stol (s : Bytes) : Except Fault ℤ := stoi s

/-! ### Searching and cutting -/

/-- `std::string::npos`. -/
def npos : ℕ := 2 ^ 64 - 1

/-- `a - b` on `size_t`. -/
def subSize (a b : ℕ) : ℕ := if b ≤ a then a - b else a + 2 ^ 64 - b

/-- `std::string::find` of one character. -/
def find (s : Bytes) (c : UInt8) : ℕ := if c ∈ s then s.idxOf c else npos

/-- `std::string::substr(pos, len)`, which throws when `pos` is past the end. -/
def substr (s : Bytes) (pos len : ℕ) : Except Fault Bytes :=
  if s.length < pos then .error .outOfRange else .ok ((s.drop pos).take len)

/-- `std::string::substr(pos)`. -/
def substrFrom (s : Bytes) (pos : ℕ) : Except Fault Bytes :=
  if s.length < pos then .error .outOfRange else .ok (s.drop pos)

/-- `Utils::splitBy`: the loop over `getline` yields the pieces between the delimiters, empty ones
and the one after the last delimiter included. -/
def splitBy (s : Bytes) (delim : UInt8) : List Bytes := s.splitOn delim

/-- `v[i]` of a `std::vector`. -/
def at? {α : Type*} (v : List α) (i : ℕ) : Except Fault α :=
  match v[i]? with
  | some a => .ok a
  | none => .error .outOfRange

/-! ### Little-endian integers -/

/-- The `w` low bytes of `n`, least significant first. -/
def leBytes : ℕ → ℕ → Bytes
  | 0, _ => []
  | w + 1, n => UInt8.ofNat n :: leBytes w (n / 256)

/-- The number with the given little-endian bytes. -/
def leNat : Bytes → ℕ
  | [] => 0
  | b :: bs => b.toNat + 256 * leNat bs

end LedgerDatabase
