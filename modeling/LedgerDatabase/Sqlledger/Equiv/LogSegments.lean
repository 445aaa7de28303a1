import LedgerDatabase.Common.Equiv.Logger
import LedgerDatabase.Sqlledger.Equiv.Run

/-!
# The log and the blocks

`Set` enters a transaction into the buffer first, and moves the end of the log past it in a critical
section of its own.  When a block is cut in between, the transaction is in the block and its log entry
is in the segment of the next one (`logAgrees_iff`).

The numbers in the log are one less than those of the transactions, so an entry of the log is compared
with a transaction by its documents (`Records`).
-/

namespace LedgerDatabase.Sqlledger

open Frames (stream)
open SQLLedger

variable {H : Bytes → Hash} {cfg : Qldb.BPlusConfig} {t t' : Threads} {a : Step}

/-! ### Transactions and their entries -/

/-- The entry of the log has what the documents of the transaction are made from. -/
def Records (block : ℕ) (e : TxnEntry) (txn : ℕ × List Bytes) : Prop :=
  ∃ now, e.time = .ofNat now ∧ documents block txn.1 now 0 e.keys e.vals = .ok txn.2

/-- The entry for a transaction as `Set` logs it, with the number before that of the transaction. -/
def Logged (block : ℕ) (e : TxnEntry) (txn : ℕ × List Bytes) : Prop :=
  Records block e txn ∧ e.txnid = .ofNat (subSize txn.1 1)

/-- The segment of the log that an index record names has the transactions of a block. -/
def Segment (wal : Bytes) (e : IndexEntry) (b : ℕ × List (ℕ × List Bytes)) : Prop :=
  e.block = b.1 ∧ ∃ ts, TxnEntry.parseTxnEntries (readBytes wal e.start (e.stop - e.start)) = .ok ts ∧
    List.Forall₂ (Records b.1) ts b.2

/-- The log agrees with the blocks that have been cut. -/
def LogAgrees (l : Logger) (taken : List (ℕ × List (ℕ × List Bytes))) : Prop :=
  List.Forall₂ (Segment l.wal) l.idx taken

/-- What `updateLedger` takes from the buffer in a step: the block and its transactions. -/
def takenBy (t : Threads) : Step → List (ℕ × List (ℕ × List Bytes))
  | .cutBlock => [(t.ledger.blockSeq, t.ledger.buffer)]
  | _ => []

/-- Documents need a value for each key, and no others are used. -/
theorem documents_take {block tid now : ℕ} : ∀ {i : ℕ} {keys vals docs : List Bytes},
    documents block tid now i keys vals = .ok docs →
      keys.length ≤ vals.length ∧
        documents block tid now i keys (vals.take keys.length) = .ok docs
  | _, [], _, _, h => ⟨Nat.zero_le _, h⟩
  | _, _ :: _, [], _, h => nomatch h
  | i, key :: keys, val :: vals, docs, h => by
    rw [documents] at h
    obtain ⟨docs', hdocs, h⟩ := bind_eq_ok_iff.mp h
    obtain ⟨hlen, htake⟩ := documents_take hdocs
    refine ⟨Nat.succ_le_succ hlen, ?_⟩
    rw [List.length_cons, List.take_succ_cons, documents, htake]
    exact h

theorem encodeEntries_take : ∀ {keys vals : List Bytes} {entries : Bytes},
    TxnEntry.encodeEntries keys vals = .ok entries →
      TxnEntry.encodeEntries keys (vals.take keys.length) = .ok entries
  | [], _, _, h => h
  | _ :: _, [], _, h => nomatch h
  | key :: keys, val :: vals, entries, h => by
    rw [TxnEntry.encodeEntries] at h
    obtain ⟨rest, hrest, h⟩ := bind_eq_ok_iff.mp h
    rw [List.length_cons, List.take_succ_cons, TxnEntry.encodeEntries, encodeEntries_take hrest]
    exact h

/-- **What `Set` logs** is the chunk of an entry with the keys and values of the transaction. -/
theorem exists_entry {keys vals docs : List Bytes} {block tid now n : ℕ} {sig : Hash} {chunk : Bytes}
    (hdocs : documents block tid now 0 keys vals = .ok docs)
    (h : TxnEntry.encode now keys vals sig n = .ok chunk) :
    ∃ e : TxnEntry, e.numBytes < 2 ^ 32 ∧ e.chunk = chunk ∧ Records block e (tid, docs) ∧
      e.txnid = .ofNat n := by
  obtain ⟨hlen, htake⟩ := documents_take hdocs
  obtain ⟨entries, hentries, h⟩ := bind_eq_ok_iff.mp h
  have hentries := encodeEntries_take hentries
  have hvals : (vals.take keys.length).length = keys.length := List.length_take_of_le hlen
  set e : TxnEntry := ⟨keys, vals.take keys.length, sig, .ofNat now, .ofNat n, hvals⟩
  simp only at h
  split_ifs at h with hsize
  obtain rfl := Except.ok.inj h
  have hbytes : e.numBytes = Chunk.kMetaLength + (4 + kByteLength + 2 * 8 + entries.length) := by
    rw [TxnEntry.numBytes, TxnEntry.length_encodeEntries hvals hentries]
  have hfits : e.numBytes < 2 ^ 32 := hbytes ▸ hsize
  refine ⟨e, hfits, ?_, ⟨now, rfl, htake⟩, rfl⟩
  obtain ⟨entries', hentries', -, -, hchunk⟩ := TxnEntry.encode_eq hfits
  obtain rfl := Except.ok.inj (hentries.symm.trans hentries')
  have htime : leBytes 8 e.time.toNat = leBytes 8 now := leBytes_mod 8 now
  have htxnid : leBytes 8 e.txnid.toNat = leBytes 8 n := leBytes_mod 8 n
  rw [hchunk, htime, htxnid]

/-! ### The invariant -/

/-- The blocks of the log and those that were taken from the buffer. -/
structure Agree (b : ℕ × List TxnEntry) (taken : ℕ × List (ℕ × List Bytes)) : Prop where
  block : b.1 = taken.1
  fits : ∀ e ∈ b.2, e.numBytes < 2 ^ 32
  records : List.Forall₂ (Logged taken.1) b.2 taken.2

/-- The finished calls of `Set` since the last block, as the log and the buffer have them. -/
structure Finished (block tid : ℕ) (pending : List TxnEntry) (buffer : List (ℕ × List Bytes)) :
    Prop where
  fits : ∀ e ∈ pending, e.numBytes < 2 ^ 32
  records : List.Forall₂ (Logged block) pending buffer
  below : ∀ txn ∈ buffer, txn.1 < tid

/-- Where the log and the buffer are in a call of `Set`: the buffer has its transaction already. -/
def Reached (t : Threads) (done : List (ℕ × List TxnEntry)) (pending : List TxnEntry) : Prop :=
  let l := t.ledger.logger
  let seq := t.ledger.blockSeq
  let tid := t.ledger.tid
  match t.setting with
  | .idle => l.Holds done pending ∧ Finished seq tid pending t.ledger.buffer
  | .storing keys vals now _ docs _ => l.Holds done pending ∧
      ∃ buffer, t.ledger.buffer = buffer ++ [(tid, docs)] ∧ Finished seq tid pending buffer ∧
        documents seq tid now 0 keys vals = .ok docs
  | .logging keys vals now _ => l.Holds done pending ∧
      ∃ buffer docs, t.ledger.buffer = buffer ++ [(tid, docs)] ∧ Finished seq tid pending buffer ∧
        documents seq tid now 0 keys vals = .ok docs
  | .advancing size _ => ∃ l₀ : Logger, l₀.Holds done pending ∧
      ∃ buffer docs e, t.ledger.buffer = buffer ++ [(tid, docs)] ∧
        Finished seq tid pending buffer ∧ e.numBytes < 2 ^ 32 ∧ Logged seq e (tid, docs) ∧
        l = l₀.log (Chunk.bytes e.chunk) ∧ size = Chunk.numBytes e.chunk

/-- The log agrees with the blocks, and is behind the buffer by the call under way. -/
def LogInv (s : Threads × List (ℕ × List (ℕ × List Bytes))) : Prop :=
  ∃ done pending, List.Forall₂ Agree done s.2 ∧ Reached s.1 done pending

theorem Finished.concat {block tid : ℕ} {pending : List TxnEntry} {buffer : List (ℕ × List Bytes)}
    {docs : List Bytes} {e : TxnEntry} (h : Finished block tid pending buffer)
    (hfits : e.numBytes < 2 ^ 32) (hrec : Logged block e (tid, docs)) :
    Finished block (tid + 1) (pending ++ [e]) (buffer ++ [(tid, docs)]) := by
  constructor
  · intro e' he'
    rcases List.mem_append.mp he' with he' | he'
    · exact h.fits e' he'
    · rwa [List.mem_singleton.mp he']
  · exact List.rel_append h.records (List.Forall₂.cons hrec List.Forall₂.nil)
  · intro txn htxn
    rcases List.mem_append.mp htxn with htxn | htxn
    · exact Nat.lt_succ_of_lt (h.below txn htxn)
    · rw [List.mem_singleton.mp htxn]
      exact Nat.lt_succ_self tid

/-- The block of a log that holds some blocks is read back. -/
theorem parse_of_names {wal : Bytes} {e : IndexEntry} {b : ℕ × List TxnEntry}
    (h : Logger.Names wal e b) (hfits : ∀ t ∈ b.2, t.numBytes < 2 ^ 32) :
    TxnEntry.parseTxnEntries (readBytes wal e.start (e.stop - e.start)) = .ok b.2 := by
  obtain ⟨-, pre, post, hwal, hstart, hstop⟩ := h
  have hlen := congrArg List.length hwal
  rw [List.length_append, List.length_append] at hlen
  rw [readBytes_of_le (by omega), hwal, hstart, hstop, Nat.add_sub_cancel_left, List.drop_left,
    List.take_left]
  exact TxnEntry.parseTxnEntries_stream hfits

theorem segment_of_names {wal : Bytes} {e : IndexEntry} {b : ℕ × List TxnEntry}
    {taken : ℕ × List (ℕ × List Bytes)} (h : Logger.Names wal e b) (hagree : Agree b taken) :
    Segment wal e taken :=
  ⟨h.1.trans hagree.block, b.2, parse_of_names h hagree.fits, hagree.records.imp fun _ _ => And.left⟩

theorem segments_of_names {wal : Bytes} {idx : List IndexEntry} {done : List (ℕ × List TxnEntry)}
    {taken : List (ℕ × List (ℕ × List Bytes))} (h : List.Forall₂ (Logger.Names wal) idx done)
    (hagree : List.Forall₂ Agree done taken) : List.Forall₂ (Segment wal) idx taken := by
  induction h generalizing taken with
  | nil =>
    cases hagree
    exact List.Forall₂.nil
  | @cons e b idx done hnames _ ih =>
    cases hagree with
    | cons hb hrest => exact List.Forall₂.cons (segment_of_names hnames hb) (ih hrest)

/-- The log of a call holds what it held before, whatever is appended behind. -/
theorem Reached.holds {done : List (ℕ × List TxnEntry)} {pending : List TxnEntry}
    (h : Reached t done pending) : ∃ (l : Logger) (data : Bytes), l.Holds done pending ∧
      t.ledger.logger = l.log data := by
  have hnil : t.ledger.logger = t.ledger.logger.log [] := by
    rw [Logger.log, List.append_nil]
  rw [Reached] at h
  split at h
  · exact ⟨_, [], h.1, hnil⟩
  · exact ⟨_, [], h.1, hnil⟩
  · exact ⟨_, [], h.1, hnil⟩
  · obtain ⟨l, hl, -, -, e, -, -, -, -, hlog, -⟩ := h
    exact ⟨l, _, hl, hlog⟩

theorem LogInv.logAgrees {s : Threads × List (ℕ × List (ℕ × List Bytes))} (h : LogInv s) :
    LogAgrees s.1.ledger.logger s.2 := by
  obtain ⟨done, pending, hagree, hreached⟩ := h
  obtain ⟨l, data, hl, hlog⟩ := hreached.holds
  rw [LogAgrees, hlog]
  exact segments_of_names (hl.names.imp fun _ _ hn => hn.append data) hagree

theorem logInv_start : LogInv (start, []) :=
  ⟨[], [], List.Forall₂.nil, ⟨List.Forall₂.nil, ⟨[], rfl, rfl⟩, rfl⟩,
    fun _ he => absurd he List.not_mem_nil, List.Forall₂.nil, fun _ ht => absurd ht List.not_mem_nil⟩

/-! ### Steps -/

/-- No block is cut in the middle of a call of `Set`. -/
def Quiet (s : Threads × List (ℕ × List (ℕ × List Bytes))) (a : Step) : Prop :=
  a = .cutBlock → s.1.setting = .idle

instance (s : Threads × List (ℕ × List (ℕ × List Bytes))) (a : Step) : Decidable (Quiet s a) :=
  inferInstanceAs (Decidable (_ → _))

/-- The system with a record of what `updateLedger` has taken from the buffer. -/
abbrev observed (H : Bytes → Hash) (cfg : Qldb.BPlusConfig) :=
  Run.observe (step H cfg) takenBy

/-- Nothing but the log, the buffer and the counters matters. -/
theorem Reached.congr {done : List (ℕ × List TxnEntry)} {pending : List TxnEntry}
    (h : Reached t done pending) (hsetting : t'.setting = t.setting)
    (hlogger : t'.ledger.logger = t.ledger.logger) (hseq : t'.ledger.blockSeq = t.ledger.blockSeq)
    (htid : t'.ledger.tid = t.ledger.tid) (hbuffer : t'.ledger.buffer = t.ledger.buffer) :
    Reached t' done pending := by
  rw [Reached, hsetting, hlogger, hseq, htid, hbuffer]
  exact h

theorem ledger_of_buildTxn {s : SQLLedger} {b i : ℕ} {txn : ℕ × List Bytes} {r : Bytes × SQLLedger}
    (h : s.buildTxn H b i txn = .ok r) : ∃ db, r.2 = { s with db } := by
  obtain ⟨⟨built, db⟩, -, h⟩ := bind_eq_ok_iff.mp h
  obtain rfl := Except.ok.inj h
  exact ⟨_, rfl⟩

theorem ledger_of_buildBlock {s s' : SQLLedger} {b : ℕ} {leaves : List Bytes}
    (h : s.buildBlock H b leaves = .ok s') : ∃ db, s' = { s with db } := by
  obtain ⟨⟨built, db⟩, -, h⟩ := bind_eq_ok_iff.mp h
  obtain ⟨prevHash, -, h⟩ := bind_eq_ok_iff.mp h
  obtain rfl := Except.ok.inj h
  exact ⟨_, rfl⟩

/-- **A step at which no block is cut too early.** -/
theorem LogInv.step {s s' : Threads × List (ℕ × List (ℕ × List Bytes))} (h : LogInv s)
    (hquiet : Quiet s a) (hstep : observed H cfg s a = some s') : LogInv s' := by
  obtain ⟨t, taken⟩ := s
  obtain ⟨t', taken'⟩ := s'
  obtain ⟨hstep, htaken⟩ := Run.observe_eq_some.mp hstep
  obtain ⟨done, pending, hagree, hreached⟩ := h
  simp only at hstep htaken hagree hreached
  -- only `cutBlock` takes something from the buffer
  have hkeep : takenBy t a = [] → List.Forall₂ Agree done taken' := by
    intro hnil
    rw [htaken, hnil, List.append_nil]
    exact hagree
  cases stepped_of_step hstep with
  | beginSet hidle hdocs =>
    rw [Reached, hidle] at hreached
    obtain ⟨hl, hfin⟩ := hreached
    exact ⟨done, pending, hkeep rfl, hl, _, emplace_concat hfin.below, hfin, hdocs⟩
  | putDocument hstoring =>
    rw [Reached, hstoring] at hreached
    exact ⟨done, pending, hkeep rfl, hreached⟩
  | setIndexed hstoring hset =>
    rw [Reached, hstoring] at hreached
    obtain ⟨hl, buffer, hbuffer, hfin, hdocs⟩ := hreached
    exact ⟨done, pending, hkeep rfl, hl, buffer, _, hbuffer, hfin, hdocs⟩
  | appendLog hlogging hchunk =>
    rw [Reached, hlogging] at hreached
    obtain ⟨hl, buffer, docs, hbuffer, hfin, hdocs⟩ := hreached
    obtain ⟨e, hfits, rfl, hrecords⟩ := exists_entry hdocs hchunk
    exact ⟨done, pending, hkeep rfl, _, hl, buffer, docs, e, hbuffer, hfin, hfits, hrecords, rfl, rfl⟩
  | endSet hadvancing =>
    rw [Reached, hadvancing] at hreached
    obtain ⟨l₀, hl, buffer, docs, e, hbuffer, hfin, hfits, hrecords, hlog, rfl⟩ := hreached
    refine ⟨done, pending ++ [e], hkeep rfl, ?_, ?_⟩
    · show (t.ledger.logger.advance _).Holds done (pending ++ [e])
      rw [hlog]
      exact hl.log_advance hfits
    · show Finished t.ledger.blockSeq (t.ledger.tid + 1) (pending ++ [e]) t.ledger.buffer
      rw [hbuffer]
      exact hfin.concat hfits hrecords
  | cutBlock hsleeping hbuffer =>
    have hidle : t.setting = .idle := hquiet rfl
    rw [Reached, hidle] at hreached
    obtain ⟨hl, hfin⟩ := hreached
    refine ⟨done ++ [(t.ledger.blockSeq, pending)], [], ?_, ?_⟩
    · rw [htaken]
      apply List.rel_append hagree
      exact List.Forall₂.cons ⟨rfl, hfin.fits, hfin.records⟩ List.Forall₂.nil
    · rw [Reached]
      simp only [hidle]
      refine ⟨hl.index _, ?_, List.Forall₂.nil, ?_⟩
      · exact fun _ he => absurd he List.not_mem_nil
      · exact fun _ ht => absurd ht List.not_mem_nil
  | buildTxn hbuilding hbuild =>
    obtain ⟨db, hledger⟩ := ledger_of_buildTxn hbuild
    refine ⟨done, pending, hkeep rfl, hreached.congr rfl ?_ ?_ ?_ ?_⟩ <;> rw [hledger]
  | buildBlock hbuilding hbuild =>
    obtain ⟨db, hledger⟩ := ledger_of_buildBlock hbuild
    refine ⟨done, pending, hkeep rfl, hreached.congr rfl ?_ ?_ ?_ ?_⟩ <;> rw [hledger]

/-- In a call of `Set` the buffer is one transaction ahead of the log. -/
theorem Reached.length_buffer {done : List (ℕ × List TxnEntry)} {pending : List TxnEntry}
    (h : Reached t done pending) (hbusy : t.setting ≠ .idle) :
    (∀ e ∈ pending, e.numBytes < 2 ^ 32) ∧ t.ledger.buffer.length = pending.length + 1 := by
  have hahead : ∀ {buffer : List (ℕ × List Bytes)} {docs : List Bytes},
      t.ledger.buffer = buffer ++ [(t.ledger.tid, docs)] →
      Finished t.ledger.blockSeq t.ledger.tid pending buffer →
      (∀ e ∈ pending, e.numBytes < 2 ^ 32) ∧ t.ledger.buffer.length = pending.length + 1 := by
    intro buffer docs hbuffer hfin
    rw [hbuffer, List.length_append, List.length_singleton, hfin.records.length_eq]
    exact ⟨hfin.fits, rfl⟩
  rw [Reached] at h
  split at h
  · rename_i hidle
    exact absurd hidle hbusy
  · obtain ⟨-, buffer, hbuffer, hfin, -⟩ := h
    exact hahead hbuffer hfin
  · obtain ⟨-, buffer, docs, hbuffer, hfin, -⟩ := h
    exact hahead hbuffer hfin
  · obtain ⟨-, -, buffer, docs, e, hbuffer, hfin, -⟩ := h
    exact hahead hbuffer hfin

theorem forall₂_last {α β : Type} {R : α → β → Prop} {as : List α} {bs : List β} {a : α} {b : β}
    (h : List.Forall₂ R (as ++ [a]) (bs ++ [b])) : R a b := by
  rw [← List.forall₂_reverse_iff, List.reverse_concat, List.reverse_concat] at h
  exact (List.forall₂_cons.mp h).1

/-- **A block that is cut in a call of `Set`** has a transaction more than its segment. -/
theorem LogInv.not_logAgrees {s s' : Threads × List (ℕ × List (ℕ × List Bytes))} (h : LogInv s)
    (hbusy : ¬ Quiet s a) (hstep : observed H cfg s a = some s') :
    ¬ LogAgrees s'.1.ledger.logger s'.2 := by
  obtain ⟨t, taken⟩ := s
  obtain ⟨t', taken'⟩ := s'
  obtain ⟨hcut, hset⟩ : a = .cutBlock ∧ t.setting ≠ .idle := Classical.not_imp.mp hbusy
  subst hcut
  obtain ⟨hstep, htaken⟩ := Run.observe_eq_some.mp hstep
  obtain ⟨done, pending, hagree, hreached⟩ := h
  simp only at hstep htaken hagree hreached
  cases stepped_of_step hstep with
  | cutBlock hsleeping hbuffer =>
    obtain ⟨hfits, hlen⟩ := hreached.length_buffer hset
    obtain ⟨l, data, hl, hlog⟩ := hreached.holds
    intro hagrees
    rw [LogAgrees, htaken] at hagrees
    simp only [hlog] at hagrees
    -- the last record of the index names the transactions in front of the call
    have hnames := forall₂_last (hl.index t.ledger.blockSeq).names
    have hparse := parse_of_names (hnames.append data) hfits
    obtain ⟨-, ts, hts, hrecords⟩ := forall₂_last hagrees
    have hpending : ts = pending := Except.ok.inj (hts.symm.trans hparse)
    have hlen' : ts.length = t.ledger.buffer.length := hrecords.length_eq
    rw [hpending] at hlen'
    omega

/-- **The log agrees with the blocks** in all states of a run exactly when no block is cut in the
middle of a call of `Set`. -/
theorem logAgrees_iff (steps : List Step) (s : Threads × List (ℕ × List (ℕ × List Bytes)))
    (h : Run.runs (observed H cfg) (start, []) steps = some s) :
    (∀ pre s', pre <+: steps → Run.runs (observed H cfg) (start, []) pre = some s' →
        LogAgrees s'.1.ledger.logger s'.2) ↔
      Run.Along (observed H cfg) Quiet (start, []) steps :=
  Run.along_iff_of_inv (Q := fun s => LogAgrees s.1.ledger.logger s.2) logInv_start
    (fun _ hs => hs.logAgrees) (fun _ _ _ hs hquiet hstep => hs.step hquiet hstep)
    (fun _ _ _ hs hbusy hstep => hs.not_logAgrees hbusy hstep) h

/-- A call of `Set`, and the block behind it. -/
def setAndCut : List Step :=
  [.beginSet [str "k"] [str "v"] 5, .putDocument, .setIndexed, .appendLog, .endSet, .cutBlock]

theorem logAgrees_iff_setAndCut :
    ∃ s, Run.runs (observed (fun _ => Hash.fromBase32 []) {}) (start, []) setAndCut = some s ∧
      s.2.length = 1 ∧ LogAgrees s.1.ledger.logger s.2 := by
  have hrun : (Run.runs (observed (fun _ => Hash.fromBase32 []) {}) (start, []) setAndCut).any
      (fun s => s.2.length = 1) = true := by decide +kernel
  have halong : Run.Along (observed (fun _ => Hash.fromBase32 []) {}) Quiet (start, []) setAndCut := by
    decide +kernel
  obtain ⟨s, hs, hlen⟩ := (Option.any_eq_true _ _).mp hrun
  exact ⟨s, hs, of_decide_eq_true hlen,
    (logAgrees_iff setAndCut s hs).mpr halong _ s (List.prefix_refl _) hs⟩

/-- The block has the transaction of a call that has not reached the log. -/
theorem not_logAgrees_cut :
    ∃ s, Run.runs (observed (fun _ => Hash.fromBase32 []) {}) (start, [])
        [.beginSet [str "k"] [str "v"] 5, .cutBlock] = some s ∧
      ¬ LogAgrees s.1.ledger.logger s.2 := by
  have hrun : (Run.runs (observed (fun _ => Hash.fromBase32 []) {}) (start, [])
      [.beginSet [str "k"] [str "v"] 5, .cutBlock]).any (fun s =>
        s.1.ledger.logger.idx = [⟨0, 0, 0, 0⟩] ∧ s.2.map (fun b => b.2.length) = [1]) = true := by
    decide +kernel
  obtain ⟨s, hs, hcheck⟩ := (Option.any_eq_true _ _).mp hrun
  obtain ⟨hidx, hlen⟩ := of_decide_eq_true hcheck
  refine ⟨s, hs, fun hagrees => ?_⟩
  obtain ⟨b, hb, htaken⟩ : ∃ b, b.2.length = 1 ∧ s.2 = [b] := by
    obtain ⟨b, htaken, hone⟩ := List.map_eq_singleton_iff.mp hlen
    exact ⟨b, hone, htaken⟩
  rw [LogAgrees, hidx, htaken] at hagrees
  obtain ⟨⟨-, ts, hts, hrecords⟩, -⟩ := List.forall₂_cons.mp hagrees
  have hnil : readBytes s.1.ledger.logger.wal 0 0 = [] :=
    List.length_eq_zero_iff.mp (length_readBytes ..)
  rw [Nat.sub_self, hnil] at hts
  obtain rfl : [] = ts := Except.ok.inj hts
  have hlen' := hrecords.length_eq
  rw [hb] at hlen'
  cases hlen'

end LedgerDatabase.Sqlledger
