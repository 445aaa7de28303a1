import LedgerDatabase.Common.Equiv.Bytes
import LedgerDatabase.Distributed.Vr.Log

/-!
# Installing entries in a log

`RemoveAfter` cuts a log, `Append` adds an entry (`removeAfter_eq`, `append_eq`), and the first loop
of `Install` cuts it at the first entry of another view (`diverge_eq`).  So a log that takes over
the entries of another replica keeps its own ones up to the first divergence and has the other's
from there on (`install_eq`, `install_after_removeAfter`).

`LastOpnum` of an empty log is `start - 1`, which is no `uint64_t` when the numbers start at zero,
and neither is the number behind the largest one.  An assertion of `RemoveAfter` fails in both cases
(`not_install_takes_over`); no replica gets there, since `VRReplica` numbers from one.
-/

namespace LedgerDatabase.Distributed.Vr

namespace Log

variable {log : Log} {op : ℕ}

/-- The entries have consecutive numbers. -/
def Consecutive (first : ℕ) (entries : List LogEntry) : Prop :=
  entries.map (·.viewstamp.opnum) = List.range' first entries.length

theorem consecutive_nil (first : ℕ) : Consecutive first [] := rfl

theorem consecutive_cons {first : ℕ} {e : LogEntry} {entries : List LogEntry} :
    Consecutive first (e :: entries) ↔
      e.viewstamp.opnum = first ∧ Consecutive (first + 1) entries := by
  rw [Consecutive, Consecutive, List.map_cons, List.length_cons, List.range'_succ, List.cons.injEq]

theorem Consecutive.getElem {first : ℕ} {entries : List LogEntry} (h : Consecutive first entries)
    {i : ℕ} (hi : i < entries.length) : entries[i].viewstamp.opnum = first + i := by
  have hmap : (entries.map (·.viewstamp.opnum))[i]? = some (entries[i].viewstamp.opnum) := by
    rw [List.getElem?_map, List.getElem?_eq_getElem hi]
    rfl
  rw [h, List.getElem?_range' hi, Nat.one_mul] at hmap
  exact (Option.some.inj hmap).symm

theorem Consecutive.take {first : ℕ} {entries : List LogEntry} (h : Consecutive first entries)
    (n : ℕ) : Consecutive first (entries.take n) := by
  rw [Consecutive, List.map_take, h, List.length_take]
  rcases Nat.le_total n entries.length with hle | hle
  · rw [List.take_range'_of_length_ge hle, Nat.min_eq_left hle]
  · rw [List.take_range'_of_length_le hle, Nat.min_eq_right hle]

theorem Consecutive.drop {first : ℕ} {entries : List LogEntry} (h : Consecutive first entries)
    (n : ℕ) : Consecutive (first + n) (entries.drop n) := by
  rw [Consecutive, List.map_drop, h, List.drop_range', List.length_drop, Nat.mul_one]

theorem Consecutive.append {first : ℕ} {entries entries' : List LogEntry}
    (h : Consecutive first entries) (h' : Consecutive (first + entries.length) entries') :
    Consecutive first (entries ++ entries') := by
  rw [Consecutive, List.map_append, h, h', List.length_append, ← List.range'_append_1]

theorem Consecutive.mem_le {first : ℕ} {entries : List LogEntry} (h : Consecutive first entries)
    {e : LogEntry} (he : e ∈ entries) : e.viewstamp.opnum < first + entries.length := by
  obtain ⟨i, hi, rfl⟩ := List.mem_iff_getElem.mp he
  rw [h.getElem hi]
  omega

/-- The entries have consecutive numbers from `start` on, and there is a last number. -/
structure Numbered (log : Log) : Prop where
  consecutive : Consecutive log.start log.entries
  start : 1 ≤ log.start ∨ log.entries ≠ []

theorem Numbered.lastOpnum_add_one (h : log.Numbered) :
    log.lastOpnum + 1 = log.start + log.entries.length := by
  rw [lastOpnum, lastViewstamp, List.getLast?_eq_getElem?]
  cases hlast : log.entries[log.entries.length - 1]? with
  | none =>
    have hle := List.getElem?_eq_none_iff.mp hlast
    have hnil : log.entries = [] := List.length_eq_zero_iff.mp (by omega)
    have hone := h.start.resolve_right fun hne => hne hnil
    simp only [subSize, if_pos hone, hnil, List.length_nil]
    omega
  | some e =>
    obtain ⟨hi, rfl⟩ := List.getElem?_eq_some_iff.mp hlast
    simp only [h.consecutive.getElem hi]
    omega

/-- **`Find`** gives the entry with the number. -/
theorem find_eq (h : Consecutive log.start log.entries) (hop : log.start ≤ op) :
    log.find op = .ok log.entries[op - log.start]? := by
  unfold find
  by_cases hnil : log.entries = []
  · rw [if_pos hnil, hnil]
    rfl
  · have hpos : 0 < log.entries.length := List.length_pos_iff.mpr hnil
    rw [if_neg hnil, if_neg (Nat.not_lt.mpr hop)]
    split_ifs with hgt
    · rw [List.getElem?_eq_none (by omega)]
    · have hi : op - log.start < log.entries.length := by omega
      simp only [at?_of_lt hi, ok_bind]
      rw [if_pos (by rw [h.getElem hi]; omega), List.getElem?_eq_getElem hi]
      rfl

/-- **`RemoveAfter`** keeps the entries with smaller numbers. -/
theorem removeAfter_eq (h : log.Numbered) (hop : log.start ≤ op) :
    log.removeAfter op = .ok { log with entries := log.entries.take (op - log.start) } := by
  have hlast := h.lastOpnum_add_one
  unfold removeAfter
  by_cases hgt : op > log.lastOpnum
  · rw [if_pos hgt, List.take_of_length_le (by omega)]
  · have hin : op - log.start < log.entries.length := by omega
    have hsub : subSize op log.start = op - log.start := if_pos hop
    rw [if_neg hgt, hsub, if_neg (not_not.mpr hin)]
    apply if_pos
    -- the last number of the entries that are left, also when there are none
    rw [lastOpnum, lastViewstamp, List.getLast?_eq_getElem?]
    by_cases hzero : op - log.start = 0
    · have heq : op = log.start := by omega
      simp [heq]
    · have hlen : (log.entries.take (op - log.start)).length = op - log.start := by
        rw [List.length_take, Nat.min_eq_left hin.le]
      have hi : op - log.start - 1 < (log.entries.take (op - log.start)).length := by omega
      simp only [hlen, List.getElem?_eq_getElem hi, (h.consecutive.take _).getElem hi, subSize,
        if_pos (show 1 ≤ op by omega)]
      omega

/-- **`Append`** of the next number. -/
theorem append_eq (h : Consecutive log.start log.entries) {vs : Viewstamp} {request : Request}
    {state : LogEntryState} (hvs : vs.opnum = log.start + log.entries.length)
    (hlt : log.start + log.entries.length < 2 ^ 64) :
    log.append vs request state =
      .ok { log with entries := log.entries ++ [⟨vs, state, request⟩] } := by
  have hnext : vs.opnum =
      if log.entries = [] then log.start else (log.lastOpnum + 1) % 2 ^ 64 := by
    split_ifs with hnil
    · rw [hvs, hnil, List.length_nil, Nat.add_zero]
    · rw [Numbered.lastOpnum_add_one ⟨h, Or.inr hnil⟩, Nat.mod_eq_of_lt hlt, hvs]
  have hcons : Consecutive log.start (log.entries ++ [⟨vs, state, request⟩]) :=
    h.append (consecutive_cons.mpr ⟨hvs, consecutive_nil _⟩)
  have hfind : Log.find vs.opnum { log with entries := log.entries ++ [⟨vs, state, request⟩] } =
      .ok (some ⟨vs, state, request⟩) := by
    rw [find_eq hcons (hvs ▸ Nat.le_add_right _ _)]
    simp [hvs]
  unfold append
  rw [if_pos hnext]
  simp only [hfind, ok_bind]
  rfl

/-- An entry as `Install` appends it. -/
def asPrepared (e : LogEntry) : LogEntry := { e with state := .prepared }

/-- The second loop of `Install`. -/
theorem appendAll_eq : ∀ {entries : List LogEntry} {log : Log},
    Consecutive log.start log.entries → Consecutive (log.start + log.entries.length) entries →
    log.start + log.entries.length + entries.length ≤ 2 ^ 64 →
    log.appendAll entries = .ok { log with entries := log.entries ++ entries.map asPrepared }
  | [], log, _, _, _ => by
    rw [List.map_nil, List.append_nil]
    rfl
  | it :: rest, log, h, hentries, hlt => by
    obtain ⟨hit, hrest⟩ := consecutive_cons.mp hentries
    rw [List.length_cons] at hlt
    have hnext : Consecutive log.start (log.entries ++ [asPrepared it]) :=
      h.append (consecutive_cons.mpr ⟨hit, consecutive_nil _⟩)
    have hlen : (log.entries ++ [asPrepared it]).length = log.entries.length + 1 :=
      List.length_append
    rw [appendAll, append_eq h hit (by omega)]
    simp only [ok_bind]
    rw [← asPrepared, appendAll_eq hnext (by rwa [hlen]) (by simp only [hlen]; omega)]
    simp only [List.append_assoc, List.map_cons, List.singleton_append]

/-- The number of entries in front of the first divergence. -/
def agree : (own entries : List LogEntry) → ℕ
  | old :: own, it :: rest =>
    if it.viewstamp.view ≠ old.viewstamp.view then 0 else agree own rest + 1
  | _, _ => 0

theorem agree_le_right : ∀ own entries : List LogEntry, agree own entries ≤ entries.length
  | [], _ => Nat.zero_le _
  | _ :: _, [] => le_rfl
  | old :: own, it :: rest => by
    rw [agree, List.length_cons]
    split_ifs
    · exact Nat.zero_le _
    · exact Nat.succ_le_succ (agree_le_right own rest)

theorem agree_le_left : ∀ own entries : List LogEntry, agree own entries ≤ own.length
  | [], _ => Nat.zero_le _
  | _ :: _, [] => Nat.zero_le _
  | old :: own, it :: rest => by
    rw [agree, List.length_cons]
    split_ifs
    · exact Nat.zero_le _
    · exact Nat.succ_le_succ (agree_le_left own rest)

/-- Where the log and entries from the number `first` on diverge. -/
def divergence (log : Log) (first : ℕ) (entries : List LogEntry) : ℕ :=
  agree (log.entries.drop (first - log.start)) entries

/-- The first loop of `Install`, on a log that does not go on behind the entries. -/
theorem diverge_eq : ∀ {entries : List LogEntry} {first : ℕ}, log.Numbered → log.start ≤ first →
    Consecutive first entries → log.entries.length ≤ first - log.start + entries.length →
    log.diverge entries =
      .ok ({ log with
              entries := log.entries.take (first - log.start + log.divergence first entries) },
        entries.drop (log.divergence first entries))
  | [], first, h, hfirst, _, hlen => by
    have hzero : log.divergence first [] = 0 := Nat.le_zero.mp (agree_le_right _ _)
    rw [List.length_nil, Nat.add_zero] at hlen
    rw [hzero, Nat.add_zero, diverge, List.take_of_length_le hlen]
    rfl
  | it :: rest, first, h, hfirst, hentries, hlen => by
    obtain ⟨hit, hrest⟩ := consecutive_cons.mp hentries
    rw [diverge, hit, find_eq h.consecutive hfirst]
    cases hold : log.entries[first - log.start]? with
    | none =>
      have hle := List.getElem?_eq_none_iff.mp hold
      have hzero : log.divergence first (it :: rest) = 0 := by
        rw [divergence, List.drop_of_length_le hle, agree]
        exact fun _ _ _ _ h => nomatch h
      rw [hzero, Nat.add_zero, List.take_of_length_le hle]
      rfl
    | some old =>
      obtain ⟨hi, hget⟩ := List.getElem?_eq_some_iff.mp hold
      have hnext : first + 1 - log.start = first - log.start + 1 := Nat.sub_add_comm hfirst
      have hdrop : log.entries.drop (first - log.start) =
          old :: log.entries.drop (first + 1 - log.start) := by
        rw [List.drop_eq_getElem_cons hi, hget, hnext]
      have hdiv : log.divergence first (it :: rest) =
          if it.viewstamp.view ≠ old.viewstamp.view then 0 else log.divergence (first + 1) rest + 1 := by
        rw [divergence, hdrop, agree, divergence]
      simp only [ok_bind, hdiv]
      split_ifs with hview
      · rw [removeAfter_eq h hfirst]
        rfl
      · rw [List.length_cons] at hlen
        rw [diverge_eq h (Nat.le_succ_of_le hfirst) hrest (by omega), List.drop_succ_cons, hnext,
          Nat.add_assoc, Nat.add_comm 1]

/-- **`Install`** keeps the entries up to the divergence and appends the others. -/
theorem install_eq {entries : List LogEntry} {first : ℕ} (h : log.Numbered)
    (hfirst : log.start ≤ first) (hentries : Consecutive first entries)
    (hhigh : first - log.start ≤ log.entries.length)
    (hlen : log.entries.length ≤ first - log.start + entries.length)
    (hlt : first + entries.length ≤ 2 ^ 64) :
    log.install entries = .ok { log with
      entries := log.entries.take (first - log.start + log.divergence first entries) ++
        (entries.drop (log.divergence first entries)).map asPrepared } := by
  have hleft : log.divergence first entries ≤ log.entries.length - (first - log.start) := by
    rw [← List.length_drop]
    exact agree_le_left _ _
  have hright : log.divergence first entries ≤ entries.length := agree_le_right _ _
  have hkept : (log.entries.take (first - log.start + log.divergence first entries)).length =
      first - log.start + log.divergence first entries := by
    rw [List.length_take]
    omega
  have hrest := hentries.drop (log.divergence first entries)
  rw [install, diverge_eq h hfirst hentries hlen]
  simp only [ok_bind]
  apply appendAll_eq (h.consecutive.take _)
  · rw [hkept, show log.start + (first - log.start + log.divergence first entries) =
      first + log.divergence first entries by omega]
    exact hrest
  · dsimp only
    rw [hkept, List.length_drop]
    omega

/-! ### Taking over the entries of another replica -/

theorem viewstamps_agree {own entries : List LogEntry} {first : ℕ} (hown : Consecutive first own)
    (hentries : Consecutive first entries) :
    (own.take (agree own entries)).map (·.viewstamp) =
      (entries.take (agree own entries)).map (·.viewstamp) := by
  induction own generalizing entries first with
  | nil => rfl
  | cons old own ih =>
    cases entries with
    | nil => rfl
    | cons it rest =>
      obtain ⟨hold, hown⟩ := consecutive_cons.mp hown
      obtain ⟨hit, hrest⟩ := consecutive_cons.mp hentries
      rw [agree]
      split_ifs with hview
      · rfl
      · have hvs : old.viewstamp = it.viewstamp := by
          rw [Viewstamp.mk.injEq]
          exact ⟨(not_not.mp hview).symm, hold.trans hit.symm⟩
        rw [List.take_succ_cons, List.take_succ_cons, List.map_cons, List.map_cons, hvs,
          ih hown hrest]

/-- Entries that agree lie in front of the first divergence. -/
theorem le_agree {own entries : List LogEntry} {n : ℕ}
    (h : (own.take n).map (·.viewstamp) = (entries.take n).map (·.viewstamp)) :
    min n own.length ≤ agree own entries := by
  induction n generalizing own entries with
  | zero => simp
  | succ n ih =>
    cases own with
    | nil => simp
    | cons old own =>
      cases entries with
      | nil => cases h
      | cons it rest =>
        rw [List.take_succ_cons, List.take_succ_cons, List.map_cons, List.map_cons,
          List.cons.injEq] at h
        have hview : ¬ it.viewstamp.view ≠ old.viewstamp.view := not_not.mpr (h.1 ▸ rfl)
        rw [agree, if_neg hview, List.length_cons, Nat.add_min_add_right]
        exact Nat.succ_le_succ (ih h.2)

/-- Equal viewstamps carry equal requests. -/
theorem requests_agree {own entries : List LogEntry}
    (h : own.map (·.viewstamp) = entries.map (·.viewstamp))
    (hreq : ∀ e ∈ own, ∀ e' ∈ entries, e.viewstamp = e'.viewstamp → e.request = e'.request) :
    own.map (fun e => (e.viewstamp, e.request)) =
      entries.map (fun e => (e.viewstamp, e.request)) := by
  induction own generalizing entries with
  | nil =>
    rw [List.map_nil, eq_comm, List.map_eq_nil_iff] at h
    rw [h]
  | cons old own ih =>
    cases entries with
    | nil => cases h
    | cons it rest =>
      rw [List.map_cons, List.map_cons, List.cons.injEq] at h
      have hrest := ih h.2 fun e he e' he' =>
        hreq e (List.mem_cons_of_mem _ he) e' (List.mem_cons_of_mem _ he')
      have hhead := hreq old List.mem_cons_self it List.mem_cons_self h.1
      rw [List.map_cons, List.map_cons, h.1, hhead, hrest]

theorem Consecutive.map_asPrepared {first : ℕ} {entries : List LogEntry}
    (h : Consecutive first entries) : Consecutive first (entries.map asPrepared) := by
  rw [Consecutive, List.map_map, List.length_map]
  exact h

/-- A log has taken over entries that begin at the number `first`: below `first` and in front of the
first divergence it is what it was, with the states of the entries, and from `first` on it has the
viewstamps and requests of the other replica, up to the last of them. -/
structure TakenOver (log : Log) (first : ℕ) (entries : List LogEntry) (last : LogEntry)
    (log' : Log) : Prop where
  start : log'.start = log.start
  consecutive : Consecutive log'.start log'.entries
  below : log'.entries.take (first - log.start) = log.entries.take (first - log.start)
  last : log'.lastOpnum = last.viewstamp.opnum
  agrees : (log'.entries.drop (first - log.start)).map (fun e => (e.viewstamp, e.request)) =
    entries.map fun e => (e.viewstamp, e.request)
  kept : ∀ n ≤ entries.length,
    ((log.entries.drop (first - log.start)).take n).map (·.viewstamp) =
        (entries.take n).map (·.viewstamp) →
      log'.entries.take (first - log.start + n) = log.entries.take (first - log.start + n)

theorem Consecutive.getLast {first : ℕ} {entries : List LogEntry} (h : Consecutive first entries)
    {last : LogEntry} (hlast : entries.getLast? = some last) :
    last.viewstamp.opnum + 1 = first + entries.length := by
  rw [List.getLast?_eq_getElem?] at hlast
  obtain ⟨hi, rfl⟩ := List.getElem?_eq_some_iff.mp hlast
  rw [h.getElem hi]
  omega

/-- What a log and `n` entries of the other replica from index `k` on make. -/
theorem takenOver_of_entries {first d : ℕ} {entries : List LogEntry} {last : LogEntry}
    (h : Consecutive log.start log.entries) (hentries : Consecutive first entries)
    (hlast : entries.getLast? = some last) (hfirst : log.start ≤ first)
    (hreq : ∀ e ∈ log.entries, ∀ e' ∈ entries, e.viewstamp = e'.viewstamp → e.request = e'.request)
    (hd : d = agree ((log.entries.drop (first - log.start)).take entries.length) entries)
    (hhigh : first - log.start ≤ log.entries.length) :
    TakenOver log first entries last { log with
      entries := log.entries.take (first - log.start + d) ++ (entries.drop d).map asPrepared } := by
  have hright : d ≤ entries.length := hd ▸ agree_le_right _ _
  have hleft : d ≤ log.entries.length - (first - log.start) := by
    have hle := agree_le_left ((log.entries.drop (first - log.start)).take entries.length) entries
    rw [← hd, List.length_take, List.length_drop] at hle
    omega
  have hkept : (log.entries.take (first - log.start + d)).length = first - log.start + d := by
    rw [List.length_take]
    omega
  have hconsecutive : Consecutive log.start
      (log.entries.take (first - log.start + d) ++ (entries.drop d).map asPrepared) := by
    apply (h.take _).append
    rw [hkept, show log.start + (first - log.start + d) = first + d by omega]
    exact (hentries.drop d).map_asPrepared
  have hbehind := hentries.getLast hlast
  have hpos : 0 < entries.length := List.length_pos_iff.mpr fun hnil => by simp [hnil] at hlast
  constructor
  case start => rfl
  case consecutive => exact hconsecutive
  case below =>
    rw [List.take_append_of_le_length (by omega), List.take_take, Nat.min_eq_left (by omega)]
  case last =>
    have hlen : (log.entries.take (first - log.start + d) ++
        (entries.drop d).map asPrepared).length = first - log.start + entries.length := by
      rw [List.length_append, hkept, List.length_map, List.length_drop]
      omega
    have hnumbered : Numbered { log with
        entries := log.entries.take (first - log.start + d) ++ (entries.drop d).map asPrepared } :=
      ⟨hconsecutive, Or.inr (List.length_pos_iff.mp (by rw [hlen]; omega))⟩
    have hnext := hnumbered.lastOpnum_add_one
    dsimp only at hnext
    rw [hlen] at hnext
    omega
  case agrees =>
    have hown : (log.entries.take (first - log.start + d)).drop (first - log.start) =
        ((log.entries.drop (first - log.start)).take entries.length).take d := by
      rw [List.drop_take, Nat.add_sub_cancel_left, List.take_take, Nat.min_eq_left hright]
    have hagree : (((log.entries.drop (first - log.start)).take entries.length).take d).map
        (·.viewstamp) = (entries.take d).map (·.viewstamp) := by
      rw [hd]
      apply viewstamps_agree _ hentries
      have hdrop := (h.drop (first - log.start)).take entries.length
      rwa [Nat.add_sub_cancel' hfirst] at hdrop
    have hrequests := requests_agree hagree fun e he e' he' =>
      hreq e (List.mem_of_mem_drop (List.mem_of_mem_take (List.mem_of_mem_take he))) e'
        (List.mem_of_mem_take he')
    rw [List.drop_append_of_le_length (by omega), hown, List.map_append, hrequests, List.map_map]
    conv_rhs => rw [← List.take_append_drop d entries, List.map_append]
    rfl
  case kept =>
    intro n hn hvs
    have hlen := congrArg List.length hvs
    rw [List.length_map, List.length_map, List.length_take, List.length_take, List.length_drop,
      Nat.min_eq_left hn] at hlen
    have hcut : ((log.entries.drop (first - log.start)).take entries.length).take n =
        (log.entries.drop (first - log.start)).take n := by
      rw [List.take_take, Nat.min_eq_left hn]
    have hvs' : (((log.entries.drop (first - log.start)).take entries.length).take n).map
        (·.viewstamp) = (entries.take n).map (·.viewstamp) := by
      rw [hcut, hvs]
    have hle := le_agree hvs'
    rw [← hd, List.length_take, List.length_drop] at hle
    rw [List.take_append_of_le_length (by omega), List.take_take, Nat.min_eq_left (by omega)]

/-- **Installing the entries of another replica** in a log that is cut behind the last of them, when
there is a number in front of the first entry and one behind the last. -/
theorem install_takes_over {first : ℕ} {entries : List LogEntry} {last : LogEntry}
    (h : Consecutive log.start log.entries) (hentries : Consecutive first entries)
    (hlast : entries.getLast? = some last) (hlow : log.start ≤ first)
    (hhigh : first ≤ log.lastOpnum + 1)
    (hreq : ∀ e ∈ log.entries, ∀ e' ∈ entries, e.viewstamp = e'.viewstamp → e.request = e'.request)
    (hstart : 1 ≤ log.start ∨ log.entries ≠ []) (hlt : last.viewstamp.opnum + 1 < 2 ^ 64) :
    ∃ cut log', log.removeAfter ((last.viewstamp.opnum + 1) % 2 ^ 64) = .ok cut ∧
      cut.install entries = .ok log' ∧ TakenOver log first entries last log' := by
  have hnumbered : log.Numbered := ⟨h, hstart⟩
  have hbehind := hentries.getLast hlast
  have hnext := hnumbered.lastOpnum_add_one
  have hpos : 0 < entries.length := List.length_pos_iff.mpr fun hnil => by simp [hnil] at hlast
  rw [Nat.mod_eq_of_lt hlt, hbehind]
  have hcut := removeAfter_eq hnumbered (show log.start ≤ first + entries.length by omega)
  have hlen : (log.entries.take (first + entries.length - log.start)).length =
      min (first - log.start + entries.length) log.entries.length := by
    rw [List.length_take]
    congr 1
    omega
  have hcutNumbered : Numbered { log with
      entries := log.entries.take (first + entries.length - log.start) } := by
    refine ⟨h.take _, hstart.imp_right fun hne => List.length_pos_iff.mp ?_⟩
    have := List.length_pos_iff.mpr hne
    dsimp only
    omega
  have hinstall := install_eq hcutNumbered hlow hentries (by dsimp only; omega)
    (by dsimp only; omega) (by omega)
  refine ⟨_, _, hcut, hinstall, ?_⟩
  -- the cut leaves what can agree with the entries
  have hown : (log.entries.take (first + entries.length - log.start)).drop (first - log.start) =
      (log.entries.drop (first - log.start)).take entries.length := by
    rw [List.drop_take]
    congr 1
    omega
  have hdivergence : divergence { log with
        entries := log.entries.take (first + entries.length - log.start) } first entries =
      agree ((log.entries.drop (first - log.start)).take entries.length) entries := by
    rw [divergence, hown]
  have hright := agree_le_right ((log.entries.drop (first - log.start)).take entries.length) entries
  dsimp only
  rw [hdivergence, List.take_take, Nat.min_eq_left (by omega)]
  exact takenOver_of_entries h hentries hlast hlow hreq rfl (by omega)

/-- Two replicas diverge at the third entry, which one of them has got in a later view. -/
theorem install_takes_over_later_view :
    ∃ cut log',
      Log.removeAfter 4 { entries := [⟨⟨0, 1⟩, .committed, ⟨[1], 7, 1⟩⟩,
        ⟨⟨0, 2⟩, .committed, ⟨[2], 7, 2⟩⟩, ⟨⟨0, 3⟩, .prepared, ⟨[3], 7, 3⟩⟩,
        ⟨⟨0, 4⟩, .prepared, ⟨[4], 7, 4⟩⟩] } = .ok cut ∧
      cut.install [⟨⟨0, 2⟩, .prepared, ⟨[2], 7, 2⟩⟩, ⟨⟨1, 3⟩, .prepared, ⟨[5], 8, 1⟩⟩] =
        .ok log' ∧ log'.lastOpnum = 3 := by
  obtain ⟨cut, log', hcut, hinstall, hlog⟩ :=
    @install_takes_over { entries := [⟨⟨0, 1⟩, .committed, ⟨[1], 7, 1⟩⟩,
      ⟨⟨0, 2⟩, .committed, ⟨[2], 7, 2⟩⟩, ⟨⟨0, 3⟩, .prepared, ⟨[3], 7, 3⟩⟩,
      ⟨⟨0, 4⟩, .prepared, ⟨[4], 7, 4⟩⟩] } 2
      [⟨⟨0, 2⟩, .prepared, ⟨[2], 7, 2⟩⟩, ⟨⟨1, 3⟩, .prepared, ⟨[5], 8, 1⟩⟩] _ rfl rfl rfl
      (by decide) (by decide) (by decide) (by decide) (by decide)
  exact ⟨cut, log', hcut, hinstall, hlog.last⟩

/-- Without a number in front of the first entry, or one behind the last, an assertion of
`RemoveAfter` fails on the empty log. -/
theorem not_install_takes_over :
    (∃ (log : Log) (first : ℕ) (entries : List LogEntry) (last : LogEntry),
      Consecutive log.start log.entries ∧ Consecutive first entries ∧
      entries.getLast? = some last ∧ log.start ≤ first ∧ first ≤ (log.lastOpnum + 1) % 2 ^ 64 ∧
      (∀ e ∈ log.entries, ∀ e' ∈ entries, e.viewstamp = e'.viewstamp → e.request = e'.request) ∧
      last.viewstamp.opnum + 1 < 2 ^ 64 ∧
      log.removeAfter ((last.viewstamp.opnum + 1) % 2 ^ 64) = .error .assertion) ∧
    ∃ (log : Log) (first : ℕ) (entries : List LogEntry) (last : LogEntry),
      Consecutive log.start log.entries ∧ Consecutive first entries ∧
      entries.getLast? = some last ∧ log.start ≤ first ∧ first ≤ (log.lastOpnum + 1) % 2 ^ 64 ∧
      (∀ e ∈ log.entries, ∀ e' ∈ entries, e.viewstamp = e'.viewstamp → e.request = e'.request) ∧
      1 ≤ log.start ∧ last.viewstamp.opnum < 2 ^ 64 ∧
      log.removeAfter ((last.viewstamp.opnum + 1) % 2 ^ 64) = .error .assertion := by
  constructor
  · refine ⟨{ start := 0 }, 0, [⟨⟨0, 0⟩, .prepared, ⟨[], 1, 1⟩⟩], _, rfl, rfl, rfl, ?_⟩
    decide
  · refine ⟨{ start := 2 ^ 64 - 1 }, 2 ^ 64 - 1, [⟨⟨0, 2 ^ 64 - 1⟩, .prepared, ⟨[], 1, 1⟩⟩], _, rfl,
      rfl, rfl, ?_⟩
    decide

end Log

end LedgerDatabase.Distributed.Vr
