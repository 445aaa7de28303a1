import LedgerDatabase.Common.Equiv.Bytes
import LedgerDatabase.Sqlledger.SQLLedger

/-!
# Runs of `SQLLedger`

`Stepped` says once what each step of the two threads does (`stepped_of_step`); the invariants of the
other modules are by cases on it.
-/

namespace LedgerDatabase.Sqlledger

open SQLLedger

variable {H : Bytes → Hash} {cfg : Qldb.BPlusConfig} {t t' : Threads} {a : Step}

/-- A ledger on a new store. -/
def emptyLedger : SQLLedger where
  db := { mCache := [(str "COMMITTED_ROOT", none)] }
  indexed := ⟨str "COMMITTED_", Qldb.QLBTreeMap.emptyMap⟩

example : ofDB {} = .ok emptyLedger := by decide +kernel

/-- The threads of a new ledger. -/
def start : Threads := ⟨emptyLedger, .idle, .sleeping⟩

theorem eq_ok_of_toOption {α : Type} {x : Except Fault α} {a : α} (h : x.toOption = some a) :
    x = .ok a := by
  cases x with
  | error e => cases h
  | ok b => rw [Option.some.inj h]

/-- What a step does. -/
inductive Stepped (H : Bytes → Hash) (cfg : Qldb.BPlusConfig) (t : Threads) : Step → Threads → Prop
  | beginSet {keys vals docs : List Bytes} {now : ℕ} (hidle : t.setting = .idle)
      (hdocs : documents t.ledger.blockSeq t.ledger.tid now 0 keys vals = .ok docs) :
      Stepped H cfg t (.beginSet keys vals now)
        { t with
          ledger := { t.ledger with buffer := emplace t.ledger.tid docs t.ledger.buffer }
          setting := .storing keys vals now t.ledger.blockSeq docs (keys.zip docs) }
  | putDocument {keys vals docs : List Bytes} {now b : ℕ} {e : Bytes × Bytes}
      {left : List (Bytes × Bytes)} (hstoring : t.setting = .storing keys vals now b docs (e :: left)) :
      Stepped H cfg t .putDocument
        { t with
          ledger := t.ledger.putDocument b e
          setting := .storing keys vals now b docs left }
  | setIndexed {keys vals docs : List Bytes} {now b : ℕ} {r : Bool × Qldb.QLBTree × DB}
      (hstoring : t.setting = .storing keys vals now b docs [])
      (hset : t.ledger.indexed.set cfg (keys.zip docs) t.ledger.db = .ok r) :
      Stepped H cfg t .setIndexed
        { t with
          ledger := { t.ledger with indexed := r.2.1, db := r.2.2 }
          setting := .logging keys vals now b }
  | appendLog {keys vals : List Bytes} {now b : ℕ} {chunk : Bytes}
      (hlogging : t.setting = .logging keys vals now b)
      (hchunk : TxnEntry.encode now keys vals (H (str "0")) (subSize t.ledger.tid 1) = .ok chunk) :
      Stepped H cfg t .appendLog
        { t with
          ledger := { t.ledger with logger := t.ledger.logger.log (Chunk.bytes chunk) }
          setting := .advancing (Chunk.numBytes chunk) b }
  | endSet {size b : ℕ} (hadvancing : t.setting = .advancing size b) :
      Stepped H cfg t .endSet { t with ledger := t.ledger.endSet size, setting := .idle }
  | cutBlock (hsleeping : t.updating = .sleeping) (hbuffer : t.ledger.buffer ≠ []) :
      Stepped H cfg t .cutBlock
        { t with
          ledger := { t.ledger with
            blockSeq := t.ledger.blockSeq + 1
            buffer := []
            logger := t.ledger.logger.index t.ledger.blockSeq }
          updating := .building t.ledger.blockSeq 0 t.ledger.buffer [] }
  | buildTxn {b i : ℕ} {txn : ℕ × List Bytes} {left : List (ℕ × List Bytes)} {leaves : List Bytes}
      {r : Bytes × SQLLedger} (hbuilding : t.updating = .building b i (txn :: left) leaves)
      (hbuild : t.ledger.buildTxn H b i txn = .ok r) :
      Stepped H cfg t .buildTxn
        { t with ledger := r.2, updating := .building b (i + 1) left (leaves ++ [r.1]) }
  | buildBlock {b i : ℕ} {leaves : List Bytes} {s : SQLLedger}
      (hbuilding : t.updating = .building b i [] leaves)
      (hbuild : t.ledger.buildBlock H b leaves = .ok s) :
      Stepped H cfg t .buildBlock { t with ledger := s, updating := .sleeping }

/-- **Every step** is one of these. -/
theorem stepped_of_step (h : step H cfg t a = some t') : Stepped H cfg t a t' := by
  cases a with
  | beginSet keys vals now =>
    rw [step] at h
    split_ifs at h with hidle
    obtain ⟨r, hbegin, h⟩ := Option.bind_eq_some_iff.mp h
    obtain rfl := Option.some.inj h
    obtain ⟨docs, hdocs, hok⟩ := bind_eq_ok_iff.mp (eq_ok_of_toOption hbegin)
    obtain rfl := Except.ok.inj hok
    exact Stepped.beginSet hidle hdocs
  | putDocument =>
    rw [step] at h
    split at h
    · rename_i hstoring
      obtain rfl := Option.some.inj h
      exact Stepped.putDocument hstoring
    · cases h
  | setIndexed =>
    rw [step] at h
    split at h
    · rename_i hstoring
      obtain ⟨s, hindexed, h⟩ := Option.bind_eq_some_iff.mp h
      obtain rfl := Option.some.inj h
      obtain ⟨r, hset, hok⟩ := bind_eq_ok_iff.mp (eq_ok_of_toOption hindexed)
      obtain rfl := Except.ok.inj hok
      exact Stepped.setIndexed hstoring hset
    · cases h
  | appendLog =>
    rw [step] at h
    split at h
    · rename_i hlogging
      obtain ⟨r, hlog, h⟩ := Option.bind_eq_some_iff.mp h
      obtain rfl := Option.some.inj h
      obtain ⟨chunk, hchunk, hok⟩ := bind_eq_ok_iff.mp (eq_ok_of_toOption hlog)
      obtain rfl := Except.ok.inj hok
      exact Stepped.appendLog hlogging hchunk
    · cases h
  | endSet =>
    rw [step] at h
    split at h
    · rename_i hadvancing
      obtain rfl := Option.some.inj h
      exact Stepped.endSet hadvancing
    · cases h
  | cutBlock =>
    rw [step] at h
    split_ifs at h with hcut
    obtain rfl := Option.some.inj h
    exact Stepped.cutBlock hcut.1 hcut.2
  | buildTxn =>
    rw [step] at h
    split at h
    · rename_i hbuilding
      obtain ⟨r, hbuild, h⟩ := Option.bind_eq_some_iff.mp h
      obtain rfl := Option.some.inj h
      exact Stepped.buildTxn hbuilding (eq_ok_of_toOption hbuild)
    · cases h
  | buildBlock =>
    rw [step] at h
    split at h
    · rename_i hbuilding
      obtain ⟨s, hbuild, h⟩ := Option.bind_eq_some_iff.mp h
      obtain rfl := Option.some.inj h
      exact Stepped.buildBlock hbuilding (eq_ok_of_toOption hbuild)
    · cases h

/-! ### The buffer -/

/-- A number behind all others is entered at the end. -/
theorem emplace_concat {tid : ℕ} {docs : List Bytes} {buffer : List (ℕ × List Bytes)}
    (h : ∀ e ∈ buffer, e.1 < tid) : emplace tid docs buffer = buffer ++ [(tid, docs)] := by
  induction buffer with
  | nil => rfl
  | cons e buffer ih =>
    have he := h e List.mem_cons_self
    rw [emplace, if_neg he.ne', if_neg (Nat.lt_asymm he),
      ih fun e' he' => h e' (List.mem_cons_of_mem _ he'), List.cons_append]

end LedgerDatabase.Sqlledger
