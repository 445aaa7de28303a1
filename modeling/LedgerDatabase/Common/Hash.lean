import LedgerDatabase.Common.Bytes

/-!
# Hashes and their base32 form

`Hash` is the source's `Hash` with a value: exactly `kByteLength` bytes.  `toBase32` and
`fromBase32` are `Hash::ToBase32` and `Hash::FromBase32`: groups of five bytes against groups of
eight characters of the alphabet `A`–`Z`, `2`–`7`, both cut from one 64-bit number.  A character
outside the alphabet makes `std::string::find` return `npos`, which is added like any other index,
modulo `2^64`.

`Hash::ComputeFrom` is BLAKE2b cut to twenty bytes, from a library outside the repository; the
development takes it as a parameter `H : Bytes → Hash`.
-/

namespace LedgerDatabase

/-- `Hash::kByteLength`. -/
def kByteLength : ℕ := 20

/-- `Hash::kBase32Length`. -/
def kBase32Length : ℕ := 32

/-- A hash value. -/
structure Hash where
  /-- The bytes behind `value()`. -/
  bytes : Bytes
  /-- There are exactly `kByteLength` of them. -/
  length_bytes : bytes.length = kByteLength
  deriving DecidableEq

namespace Hash

/-- `base32alphabet`, and the string `test` that is searched when decoding. -/
def alphabet : Bytes := str "ABCDEFGHIJKLMNOPQRSTUVWXYZ234567"

/-! ### Encoding -/

/-- `tmp` after the shifts over the five bytes at position `i`. -/
def groupValue (bs : Bytes) (i : ℕ) : ℕ :=
  (List.range 5).foldl (fun tmp j => (tmp <<< 8 + (bs.getD (i + j) 0).toNat) % 2 ^ 64) 0

/-- The last `n` of the eight rounds that cut a group into characters, where `n` is `8 - j`: the
shift picks a digit and the mask keeps the lower ones.  Behind the alphabet there is nothing to
read, and no digit of a group gets there. -/
def charsFrom : (n tmp : ℕ) → Bytes
  | 0, _ => []
  | n + 1, tmp =>
    alphabet.getD ((tmp >>> (5 * n)) % 2 ^ 8) 0 :: charsFrom n (tmp &&& (1 <<< (5 * n) - 1))

/-- The eight characters of a group. -/
def groupChars (tmp : ℕ) : Bytes := charsFrom 8 tmp

/-- `Hash::ToBase32` of a hash with a value. -/
def toBase32 (h : Hash) : Bytes :=
  groupChars (groupValue h.bytes 0) ++ groupChars (groupValue h.bytes 5) ++
    groupChars (groupValue h.bytes 10) ++ groupChars (groupValue h.bytes 15)

/-! ### Decoding -/

/-- `tmp` after the eight characters at position `i`.  Position `size()` of a string is its final
zero byte; the source leaves reads behind it undefined, and they are zero bytes here as well. -/
def charsValue (s : Bytes) (i : ℕ) : ℕ :=
  (List.range 8).foldl (fun tmp j => (tmp <<< 5 + find alphabet (s.getD (i + j) 0)) % 2 ^ 64) 0

/-- The first `n` bytes of a group, of which each round writes the last one that is missing. -/
def bytesUpTo : (n tmp : ℕ) → Bytes
  | 0, _ => []
  | n + 1, tmp => bytesUpTo n (tmp >>> 8) ++ [UInt8.ofNat (tmp &&& (1 <<< 8 - 1))]

/-- The five bytes of a group, most significant first. -/
def groupBytes (tmp : ℕ) : Bytes := bytesUpTo 5 tmp

@[simp]
theorem length_bytesUpTo (n tmp : ℕ) : (bytesUpTo n tmp).length = n := by
  induction n generalizing tmp with
  | zero => rfl
  | succ n ih => rw [bytesUpTo, List.length_append, ih, List.length_singleton]

@[simp]
theorem length_groupBytes (tmp : ℕ) : (groupBytes tmp).length = 5 := length_bytesUpTo ..

/-- `Hash::FromBase32`: the first `kBase32Length` characters are decoded. -/
def fromBase32 (s : Bytes) : Hash where
  bytes := groupBytes (charsValue s 0) ++ groupBytes (charsValue s 8) ++
    groupBytes (charsValue s 16) ++ groupBytes (charsValue s 24)
  length_bytes := by simp [kByteLength]

/-! ### Tables -/

/-- A hash function given by finitely many values in base32, zero elsewhere.  Results about an
arbitrary hash function are instantiated with tables of values of BLAKE2b. -/
def ofTable (table : List (Bytes × String)) (data : Bytes) : Hash :=
  fromBase32 (str ((table.lookup data).getD "AAAAAAAAAAAAAAAAAAAAAAAAAAAAAAAA"))

end Hash

end LedgerDatabase
