import LedgerDatabase.Common.Chunk
import LedgerDatabase.Common.Equiv.Bytes

/-!
# Reading chunks back

A chunk made by `ofData` is read back as it was written, also through a pointer with further bytes
`junk` behind the chunk.
-/

namespace LedgerDatabase

theorem leBytes_mod (w n : ℕ) : leBytes w (n % 256 ^ w) = leBytes w n := by
  induction w generalizing n with
  | zero => rfl
  | succ w ih =>
    have hdiv : n % 256 ^ (w + 1) / 256 = n / 256 % 256 ^ w := by
      rw [Nat.pow_succ, Nat.mul_comm, Nat.mod_mul_right_div_self]
    have hmod : n % 256 ^ (w + 1) % 256 = n % 256 :=
      Nat.mod_mod_of_dvd _ (Nat.dvd_mul_left 256 (256 ^ w))
    have hbyte : UInt8.ofNat (n % 256 ^ (w + 1)) = UInt8.ofNat n := by
      rw [← UInt8.toNat_inj, UInt8.toNat_ofNat', UInt8.toNat_ofNat']
      exact hmod
    rw [leBytes, leBytes, hdiv, ih, hbyte]

/-- Numbers that agree modulo `256 ^ w` have the same `w` bytes. -/
theorem leBytes_congr {w m n : ℕ} (h : m % 256 ^ w = n % 256 ^ w) : leBytes w m = leBytes w n := by
  rw [← leBytes_mod w m, h, leBytes_mod]

theorem readBytes_of_le {c : Bytes} {off n : ℕ} (h : off + n ≤ c.length) :
    readBytes c off n = (c.drop off).take n := by
  rw [readBytes, show n - (c.length - off) = 0 by omega, List.replicate_zero, List.append_nil]

theorem take_readBytes (c : Bytes) (off : ℕ) {k n : ℕ} (h : k ≤ n) :
    (readBytes c off n).take k = readBytes c off k := by
  rw [readBytes, readBytes, List.take_append, List.take_take, Nat.min_eq_left h, List.length_take,
    List.length_drop, List.take_replicate]
  congr 2
  omega

/-- Reading again from what was read. -/
theorem readBytes_readBytes (c : Bytes) {k n : ℕ} (h : k ≤ n) :
    readBytes (readBytes c 0 n) 0 k = readBytes c 0 k := by
  rw [readBytes_of_le (by rw [length_readBytes]; omega), List.drop_zero, take_readBytes c 0 h]

theorem leBytes_leNat (bs : Bytes) : leBytes bs.length (leNat bs) = bs := by
  induction bs with
  | nil => rfl
  | cons b bs ih =>
    have hdiv : (b.toNat + 256 * leNat bs) / 256 = leNat bs := by
      have := b.toNat_lt
      omega
    have hbyte : UInt8.ofNat (b.toNat + 256 * leNat bs) = b := by
      rw [← UInt8.toNat_inj, UInt8.toNat_ofNat']
      have := b.toNat_lt
      omega
    rw [leNat, List.length_cons, leBytes, hdiv, ih, hbyte]

theorem leNat_lt (bs : Bytes) : leNat bs < 256 ^ bs.length := by
  rw [← leBytes_leNat bs, leNat_leBytes, length_leBytes]
  exact Nat.mod_lt _ (Nat.pow_pos (by decide))

namespace Chunk

/-- The bytes of a chunk announce the same size; of fewer than four bytes only zeros are cut off. -/
theorem numBytes_bytes (c : Bytes) : numBytes (bytes c) = numBytes c := by
  rcases Nat.lt_or_ge (numBytes c) 4 with hlt | hge
  · have hhead : readBytes c 0 4 = leBytes 4 (numBytes c) := by
      have := leBytes_leNat (readBytes c 0 4)
      rw [length_readBytes] at this
      exact this.symm
    have hbytes : bytes c = (leBytes 4 (numBytes c)).take (numBytes c) := by
      rw [← hhead, take_readBytes c 0 hlt.le, bytes]
    rw [hbytes]
    generalize numBytes c = n at hlt
    interval_cases n <;> rfl
  · rw [numBytes, bytes, readBytes_readBytes c hge, numBytes]

theorem length_bytes_lt (c : Bytes) : (bytes c).length < 2 ^ 32 := by
  rw [bytes, length_readBytes]
  have hlt := leNat_lt (readBytes c 0 4)
  rw [length_readBytes] at hlt
  exact hlt

theorem bytes_bytes (c : Bytes) : bytes (bytes c) = bytes c := by
  rw [bytes, numBytes_bytes, bytes, readBytes_readBytes c le_rfl]

variable {b : UInt8} {ty : ChunkType} {data junk : Bytes}

/-! ### Chunks of any type -/

@[simp]
theorem length_ofByteData : (ofByteData b data).length = kMetaLength + data.length := by
  simp only [ofByteData, List.length_append, length_leBytes, List.length_cons, kMetaLength]
  omega

theorem numBytes_ofByteData (h : kMetaLength + data.length < 2 ^ 32) :
    numBytes (ofByteData b data ++ junk) = kMetaLength + data.length := by
  have hlen : (ofByteData b data ++ junk).length = kMetaLength + data.length + junk.length := by
    rw [List.length_append, length_ofByteData]
  rw [numBytes, readBytes_of_le (by rw [hlen, kMetaLength]; omega), List.drop_zero, ofByteData,
    List.append_assoc, List.take_left' (length_leBytes ..), leNat_leBytes]
  exact Nat.mod_eq_of_lt h

theorem bytes_ofByteData (h : kMetaLength + data.length < 2 ^ 32) :
    bytes (ofByteData b data ++ junk) = ofByteData b data := by
  rw [bytes, numBytes_ofByteData h,
    readBytes_of_le (by rw [List.length_append, length_ofByteData]; omega), List.drop_zero,
    List.take_left' length_ofByteData]

theorem drop_ofByteData (off : ℕ) :
    (ofByteData b data ++ junk).drop (kMetaLength + off) = (data ++ junk).drop off := by
  have hmeta : kMetaLength = (leBytes 4 (kMetaLength + data.length)).length + 1 := by
    rw [length_leBytes]
    rfl
  have hdrop : (ofByteData b data ++ junk).drop kMetaLength = data ++ junk := by
    rw [hmeta, ← List.drop_drop, ofByteData, List.append_assoc, List.drop_left, List.cons_append,
      List.drop_one, List.tail_cons]
  rw [← List.drop_drop, hdrop]

theorem dataBytes_ofByteData {off n : ℕ} (h : off + n ≤ data.length) :
    dataBytes (ofByteData b data ++ junk) off n = (data.drop off).take n := by
  rw [dataBytes, readBytes_of_le (by rw [List.length_append, length_ofByteData]; omega),
    drop_ofByteData, List.drop_append_of_le_length (by omega), List.take_append_of_le_length]
  rw [List.length_drop]
  omega

theorem dataFrom_ofByteData {off : ℕ} (h : off ≤ data.length) :
    dataFrom (ofByteData b data ++ junk) off = data.drop off ++ junk := by
  rw [dataFrom, drop_ofByteData, List.drop_append_of_le_length h]

theorem getD_four_ofByteData : (ofByteData b data ++ junk).getD 4 0 = b := by
  rw [ofByteData, List.append_assoc, List.getD_eq_getElem?_getD,
    List.getElem?_append_right (by simp)]
  simp

/-! ### Reading on -/

section

variable {chunk field rest : Bytes} {off n w v : ℕ}

/-- A field is read as it stands at its offset. -/
theorem dataBytes_of_dataFrom (h : dataFrom chunk off = field ++ rest) (hn : field.length = n) :
    dataBytes chunk off n = field := by
  have hlen : field.length + rest.length = chunk.length - (kMetaLength + off) := by
    rw [← List.length_append, ← h, dataFrom, List.length_drop]
  rw [dataFrom] at h
  rw [dataBytes, readBytes, h, ← hn, List.take_left]
  rw [show field.length - (chunk.length - (kMetaLength + off)) = 0 by omega, List.replicate_zero,
    List.append_nil]

/-- A number is read back from its bytes. -/
theorem leNat_dataBytes (h : dataFrom chunk off = leBytes w v ++ rest) (hv : v < 256 ^ w) :
    leNat (dataBytes chunk off w) = v := by
  rw [dataBytes_of_dataFrom h (length_leBytes ..), leNat_leBytes]
  exact Nat.mod_eq_of_lt hv

/-- What stands behind a field. -/
theorem dataFrom_step (h : dataFrom chunk off = field ++ rest) (n : ℕ) (hn : field.length = n) :
    dataFrom chunk (off + n) = rest := by
  have hdrop : dataFrom chunk (off + n) = (dataFrom chunk off).drop n := by
    rw [dataFrom, dataFrom, List.drop_drop, Nat.add_assoc]
  rw [hdrop, h, ← hn, List.drop_left]

end

/-! ### Chunks of the trie -/

@[simp]
theorem length_ofData : (ofData ty data).length = kMetaLength + data.length :=
  length_ofByteData

/-- Data of the announced length is refused only for its size. -/
theorem create_eq {capacity : ℕ} (h : data.length = capacity) : create ty capacity data
    = if (ofData ty data).length < 2 ^ 32 then .ok (ofData ty data) else .error .oversize := by
  rw [create, length_ofData, h]
  simp only [true_and]

theorem numBytes_ofData (h : kMetaLength + data.length < 2 ^ 32) :
    numBytes (ofData ty data ++ junk) = kMetaLength + data.length :=
  numBytes_ofByteData h

theorem bytes_ofData (h : kMetaLength + data.length < 2 ^ 32) :
    bytes (ofData ty data ++ junk) = ofData ty data :=
  bytes_ofByteData h

theorem dataBytes_ofData {off n : ℕ} (h : off + n ≤ data.length) :
    dataBytes (ofData ty data ++ junk) off n = (data.drop off).take n :=
  dataBytes_ofByteData h

theorem dataFrom_ofData {off : ℕ} (h : off ≤ data.length) :
    dataFrom (ofData ty data ++ junk) off = data.drop off ++ junk :=
  dataFrom_ofByteData h

@[simp]
theorem type_ofData : type (ofData ty data ++ junk) = ty := by
  have hget : (ofData ty data ++ junk).getD 4 0 = ty.toByte := getD_four_ofByteData
  rw [type, hget]
  cases ty <;> rfl

/-! ### The chunk alone -/

theorem numBytes_ofData' (h : kMetaLength + data.length < 2 ^ 32) :
    numBytes (ofData ty data) = kMetaLength + data.length := by
  simpa using (numBytes_ofData h : numBytes (ofData ty data ++ []) = _)

theorem bytes_ofData' (h : kMetaLength + data.length < 2 ^ 32) :
    bytes (ofData ty data) = ofData ty data := by
  simpa using (bytes_ofData h : bytes (ofData ty data ++ []) = _)

theorem dataBytes_ofData' {off n : ℕ} (h : off + n ≤ data.length) :
    dataBytes (ofData ty data) off n = (data.drop off).take n := by
  simpa using (dataBytes_ofData h : dataBytes (ofData ty data ++ []) off n = _)

theorem dataFrom_ofData' {off : ℕ} (h : off ≤ data.length) :
    dataFrom (ofData ty data) off = data.drop off := by
  simpa using (dataFrom_ofData h : dataFrom (ofData ty data ++ []) off = _)

@[simp]
theorem type_ofData' : type (ofData ty data) = ty := by
  simpa using (type_ofData : type (ofData ty data ++ []) = _)

end Chunk

end LedgerDatabase
