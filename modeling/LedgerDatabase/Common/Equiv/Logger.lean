import LedgerDatabase.Common.Equiv.Chunk
import LedgerDatabase.Common.Logger

/-!
# The log is read back as it was written

`decodes_next`: the entries of transactions, one after the other, are taken apart again.  A record
of the index names the entries of the transactions since the record before (`Logger.Names`), so that
the transactions of a block are read back together with its number (`Logger.parse_read`).
-/

namespace LedgerDatabase

/-! ### Entries -/

namespace TxnEntry

variable {keys vals : List Bytes} {entries memory rest : Bytes} {off : ℕ}

theorem encodeEntries_cons {key val : Bytes} (h : encodeEntries keys vals = .ok entries) :
    encodeEntries (key :: keys) (val :: vals) =
      .ok (leBytes 4 key.length ++ key ++ leBytes 4 val.length ++ val ++ entries) := by
  rw [encodeEntries, h]
  rfl

/-- Keys with as many values are encoded. -/
theorem exists_encodeEntries (h : vals.length = keys.length) :
    ∃ entries, encodeEntries keys vals = .ok entries := by
  induction keys generalizing vals with
  | nil => exact ⟨[], by rw [encodeEntries]⟩
  | cons key keys ih =>
    cases vals with
    | nil => exact absurd h (by simp)
    | cons val vals =>
      obtain ⟨entries, hentries⟩ := ih (Nat.succ.inj h)
      exact ⟨_, encodeEntries_cons hentries⟩

/-- The keys and values are read back. -/
theorem parseEntries_of_dataFrom (hlen : vals.length = keys.length)
    (hentries : encodeEntries keys vals = .ok entries) (hsize : entries.length < 2 ^ 32)
    (h : Chunk.dataFrom memory off = entries ++ rest) :
    parseEntries memory keys.length off = (keys.zip vals, off + entries.length) := by
  induction keys generalizing vals entries off with
  | nil =>
    rw [encodeEntries] at hentries
    cases hentries
    rfl
  | cons key keys ih =>
    cases vals with
    | nil => exact absurd hlen (by simp)
    | cons val vals =>
      have hlen' : vals.length = keys.length := Nat.succ.inj hlen
      obtain ⟨entries', hentries'⟩ := exists_encodeEntries hlen'
      rw [encodeEntries_cons hentries'] at hentries
      cases hentries
      simp only [List.length_append, length_leBytes] at hsize
      simp only [List.append_assoc] at h
      have hkeySize := Chunk.leNat_dataBytes h (by omega)
      have h₁ := Chunk.dataFrom_step h 4 (length_leBytes ..)
      have hkey := Chunk.dataBytes_of_dataFrom h₁ rfl
      have h₂ := Chunk.dataFrom_step h₁ _ rfl
      have hvalSize := Chunk.leNat_dataBytes h₂ (by omega)
      have h₃ := Chunk.dataFrom_step h₂ 4 (length_leBytes ..)
      have hval := Chunk.dataBytes_of_dataFrom h₃ rfl
      have h₄ := Chunk.dataFrom_step h₃ _ rfl
      rw [List.length_cons, parseEntries, hkeySize, hkey, hvalSize, hval,
        ih hlen' hentries' (by omega) h₄]
      simp only [List.zip_cons_cons, List.length_append, length_leBytes, Prod.mk.injEq, true_and]
      omega

/-- The bytes that an entry takes in the log. -/
def numBytes (t : TxnEntry) : ℕ :=
  Chunk.kMetaLength + (4 + kByteLength + 2 * 8 +
    ((t.keys.zip t.vals).map fun e => 2 * 4 + e.1.length + e.2.length).sum)

theorem length_encodeEntries (hlen : vals.length = keys.length)
    (hentries : encodeEntries keys vals = .ok entries) :
    entries.length = ((keys.zip vals).map fun e => 2 * 4 + e.1.length + e.2.length).sum := by
  induction keys generalizing vals entries with
  | nil =>
    rw [encodeEntries] at hentries
    cases hentries
    rfl
  | cons key keys ih =>
    cases vals with
    | nil => exact absurd hlen (by simp)
    | cons val vals =>
      have hlen' : vals.length = keys.length := Nat.succ.inj hlen
      obtain ⟨entries', hentries'⟩ := exists_encodeEntries hlen'
      rw [encodeEntries_cons hentries'] at hentries
      cases hentries
      simp only [List.zip_cons_cons, List.map_cons, List.sum_cons, List.length_append,
        length_leBytes, ih hlen' hentries']
      omega

/-- The chunk of a transaction. -/
def chunk (t : TxnEntry) : Bytes :=
  match encode t.time.toNat t.keys t.vals t.signature t.txnid.toNat with
  | .ok chunk => chunk
  | .error _ => []

variable {t : TxnEntry}

theorem encode_eq (h : t.numBytes < 2 ^ 32) : ∃ entries,
    encodeEntries t.keys t.vals = .ok entries ∧
      t.numBytes = Chunk.kMetaLength + (4 + kByteLength + 2 * 8 + entries.length) ∧
      encode t.time.toNat t.keys t.vals t.signature t.txnid.toNat = .ok t.chunk ∧
      t.chunk = Chunk.ofByteData kTxnLog (leBytes 4 t.keys.length ++ entries ++ t.signature.bytes ++
        leBytes 8 t.time.toNat ++ leBytes 8 t.txnid.toNat) := by
  obtain ⟨entries, hentries⟩ := exists_encodeEntries t.length_vals
  have hlen := length_encodeEntries t.length_vals hentries
  have hsize : t.numBytes = Chunk.kMetaLength + (4 + kByteLength + 2 * 8 + entries.length) := by
    rw [numBytes, hlen]
  have hencode : encode t.time.toNat t.keys t.vals t.signature t.txnid.toNat =
      .ok (Chunk.ofByteData kTxnLog (leBytes 4 t.keys.length ++ entries ++ t.signature.bytes ++
        leBytes 8 t.time.toNat ++ leBytes 8 t.txnid.toNat)) := by
    rw [encode, hentries, ok_bind]
    exact if_pos (hsize ▸ h)
  have hchunk : t.chunk = Chunk.ofByteData kTxnLog (leBytes 4 t.keys.length ++ entries ++
      t.signature.bytes ++ leBytes 8 t.time.toNat ++ leBytes 8 t.txnid.toNat) := by
    rw [chunk, hencode]
  exact ⟨entries, hentries, hsize, hchunk ▸ hencode, hchunk⟩

theorem length_chunk (h : t.numBytes < 2 ^ 32) : t.chunk.length = t.numBytes := by
  obtain ⟨entries, -, hsize, -, hchunk⟩ := encode_eq h
  rw [hchunk, hsize, Chunk.length_ofByteData]
  simp only [List.length_append, length_leBytes, t.signature.length_bytes]
  omega

theorem numBytes_chunk (h : t.numBytes < 2 ^ 32) (rest : Bytes) :
    Chunk.numBytes (t.chunk ++ rest) = t.numBytes := by
  have hlen := length_chunk h
  obtain ⟨entries, -, hsize, -, hchunk⟩ := encode_eq h
  rw [hchunk, Chunk.length_ofByteData] at hlen
  rw [hchunk, Chunk.numBytes_ofByteData (hlen ▸ h), hlen]

theorem bytes_chunk (h : t.numBytes < 2 ^ 32) : Chunk.bytes t.chunk = t.chunk := by
  have hnum := numBytes_chunk h []
  rw [List.append_nil] at hnum
  rw [Chunk.bytes, hnum, readBytes_of_le (by rw [length_chunk h]; omega), List.drop_zero,
    ← length_chunk h, List.take_length]

/-- **A transaction is read back** from its chunk, whatever follows it in memory. -/
theorem parse_chunk (h : t.numBytes < 2 ^ 32) (rest : Bytes) : parse (t.chunk ++ rest) = t := by
  obtain ⟨entries, hentries, hsize, -, hchunk⟩ := encode_eq h
  have hsize' : entries.length < 2 ^ 32 := by omega
  have hkeys : t.keys.length ≤ entries.length := by
    rw [length_encodeEntries t.length_vals hentries]
    have hle : t.keys.length = ((t.keys.zip t.vals).map fun e : Bytes × Bytes => 1).sum := by
      rw [List.map_const', List.sum_replicate, List.length_zip, t.length_vals, Nat.min_self]
      simp
    rw [hle]
    apply List.sum_le_sum
    intro e _
    omega
  have hdata : Chunk.dataFrom (t.chunk ++ rest) 0 = leBytes 4 t.keys.length ++ (entries ++
      (t.signature.bytes ++ (leBytes 8 t.time.toNat ++ (leBytes 8 t.txnid.toNat ++ rest)))) := by
    rw [hchunk, Chunk.dataFrom_ofByteData (Nat.zero_le _), List.drop_zero]
    simp only [List.append_assoc]
  have hnum := Chunk.leNat_dataBytes hdata (by omega)
  have h₁ := Chunk.dataFrom_step hdata 4 (length_leBytes ..)
  have hparse := parseEntries_of_dataFrom t.length_vals hentries hsize' h₁
  have h₂ := Chunk.dataFrom_step h₁ _ rfl
  have hsig := Chunk.dataBytes_of_dataFrom h₂ t.signature.length_bytes
  have h₃ := Chunk.dataFrom_step h₂ _ t.signature.length_bytes
  have htime := Chunk.leNat_dataBytes h₃ (by have := t.time.toNat_lt; omega)
  have h₄ := Chunk.dataFrom_step h₃ 8 (length_leBytes ..)
  have htxnid := Chunk.leNat_dataBytes h₄ (by have := t.txnid.toNat_lt; omega)
  rw [Nat.zero_add] at hparse hsig htime htxnid
  simp only [parse, hnum, hparse, hsig, htime, htxnid, UInt64.ofNat_toNat,
    List.map_fst_zip (Nat.le_of_eq t.length_vals.symm), List.map_snd_zip (Nat.le_of_eq t.length_vals)]

theorem chunk_ne_nil (h : t.numBytes < 2 ^ 32) : t.chunk ≠ [] := by
  intro hnil
  have hlen := length_chunk h
  rw [hnil, numBytes, Chunk.kMetaLength, List.length_nil] at hlen
  omega

/-- The entries in the log are taken apart again. -/
theorem decodes_next : Frames.Decodes next chunk fun t => t.numBytes < 2 ^ 32 where
  nil := rfl
  ne_nil _ := chunk_ne_nil
  whole t h rest := by
    rw [next, if_neg, parse_chunk h, numBytes_chunk h, ← length_chunk h, List.drop_left]
    intro hnil
    exact chunk_ne_nil h (List.append_eq_nil_iff.mp hnil).1

theorem parseTxnEntries_stream {ts : List TxnEntry} (h : ∀ t ∈ ts, t.numBytes < 2 ^ 32) :
    parseTxnEntries (Frames.stream chunk ts) = .ok ts := by
  rw [parseTxnEntries, decodes_next.drain_stream _ h]
  rfl

end TxnEntry

/-! ### The log and its index -/

namespace Logger

open Frames (stream)

/-- What the calls say: the number of each block and the transactions since the block before, which
are `pending` at the beginning. -/
def blocks (pending : List TxnEntry) : List Call → List (ℕ × List TxnEntry)
  | [] => []
  | .txn t :: calls => blocks (pending ++ [t]) calls
  | .index block :: calls => (block, pending) :: blocks [] calls

/-- A record of the index names the entries of a block. -/
def Names (wal : Bytes) (e : IndexEntry) (b : ℕ × List TxnEntry) : Prop :=
  e.block = b.1 ∧ ∃ pre post, wal = pre ++ (stream TxnEntry.chunk b.2 ++ post) ∧
    e.start = pre.length ∧ e.stop = pre.length + (stream TxnEntry.chunk b.2).length

theorem Names.append {wal : Bytes} {e : IndexEntry} {b : ℕ × List TxnEntry} (h : Names wal e b)
    (data : Bytes) : Names (wal ++ data) e b := by
  obtain ⟨hblock, pre, post, rfl, hstart, hstop⟩ := h
  refine ⟨hblock, pre, post ++ data, ?_, hstart, hstop⟩
  simp only [List.append_assoc]

/-- What the calls so far have left: the blocks `done` are in the index, and the transactions
`pending` are behind them in the log. -/
structure Holds (l : Logger) (done : List (ℕ × List TxnEntry)) (pending : List TxnEntry) :
    Prop where
  names : List.Forall₂ (Names l.wal) l.idx done
  pending : ∃ pre, l.wal = pre ++ stream TxnEntry.chunk pending ∧ l.start = pre.length
  stop : l.stop = l.wal.length

variable {l : Logger} {done : List (ℕ × List TxnEntry)} {pending : List TxnEntry}

/-- A transaction is logged, and the end of the log is moved past it. -/
theorem Holds.log_advance (h : l.Holds done pending) {t : TxnEntry} (ht : t.numBytes < 2 ^ 32) :
    ((l.log (Chunk.bytes t.chunk)).advance (Chunk.numBytes t.chunk)).Holds done
      (pending ++ [t]) := by
  constructor
  · exact h.names.imp fun _ _ hn => hn.append _
  · obtain ⟨pre, hwal, hstart⟩ := h.pending
    refine ⟨pre, ?_, hstart⟩
    show l.wal ++ Chunk.bytes t.chunk = _
    rw [hwal, TxnEntry.bytes_chunk ht, Frames.stream_append, Frames.stream_singleton,
      List.append_assoc]
  · have hnum := TxnEntry.numBytes_chunk ht []
    rw [List.append_nil] at hnum
    show l.stop + Chunk.numBytes t.chunk = (l.wal ++ Chunk.bytes t.chunk).length
    rw [h.stop, hnum, TxnEntry.bytes_chunk ht, List.length_append, TxnEntry.length_chunk ht]

theorem Holds.txn (h : l.Holds done pending) {t : TxnEntry} (ht : t.numBytes < 2 ^ 32) :
    ∃ l', l.call (.txn t) = .ok l' ∧ l'.Holds done (pending ++ [t]) := by
  obtain ⟨-, -, -, hencode, -⟩ := TxnEntry.encode_eq ht
  refine ⟨(l.log (Chunk.bytes t.chunk)).advance (Chunk.numBytes t.chunk), ?_, h.log_advance ht⟩
  rw [call, hencode]
  rfl

theorem Holds.index (h : l.Holds done pending) (block : ℕ) :
    (l.index block).Holds (done ++ [(block, pending)]) [] := by
  obtain ⟨pre, hwal, hstart⟩ := h.pending
  refine ⟨?_, ⟨l.wal, (List.append_nil _).symm, h.stop⟩, h.stop⟩
  apply List.rel_append h.names
  refine List.Forall₂.cons ⟨rfl, pre, [], ?_, hstart, ?_⟩ List.Forall₂.nil
  · rw [List.append_nil]
    exact hwal
  · show l.stop = _
    rw [h.stop, hwal, List.length_append]

/-- The run of some calls. -/
theorem Holds.foldlM {calls : List Call} (h : l.Holds done pending)
    (hcalls : ∀ t, .txn t ∈ calls → t.numBytes < 2 ^ 32) :
    ∃ l', calls.foldlM call l = .ok l' ∧ ∃ pending', l'.Holds (done ++ blocks pending calls) pending' := by
  induction calls generalizing l done pending with
  | nil => exact ⟨l, rfl, pending, by rwa [blocks, List.append_nil]⟩
  | cons c calls ih =>
    have hrest : ∀ t, .txn t ∈ calls → t.numBytes < 2 ^ 32 :=
      fun t ht => hcalls t (List.mem_cons_of_mem _ ht)
    rw [List.foldlM_cons]
    cases c with
    | txn t =>
      obtain ⟨l', hcall, hl'⟩ := h.txn (hcalls t List.mem_cons_self)
      rw [hcall, ok_bind]
      exact ih hl' hrest
    | index block =>
      obtain ⟨l', hrun, pending', hl'⟩ := ih (h.index block) hrest
      refine ⟨l', hrun, pending', ?_⟩
      rwa [List.append_assoc] at hl'

theorem Names.read {e : IndexEntry} {b : ℕ × List TxnEntry} (h : Names l.wal e b) {i : ℕ}
    (hi : l.idx[i]? = some e) : l.read i = .ok (stream TxnEntry.chunk b.2, b.1) := by
  obtain ⟨hblock, pre, post, hwal, hstart, hstop⟩ := h
  have hat : at? l.idx i = .ok e := by rw [at?, hi]
  have hlen := congrArg List.length hwal
  rw [List.length_append, List.length_append] at hlen
  rw [Logger.read, hat, ok_bind, readBytes_of_le (by omega), hwal, hstart, hstop,
    Nat.add_sub_cancel_left, List.drop_left, List.take_left, hblock]
  rfl

end Logger

end LedgerDatabase
