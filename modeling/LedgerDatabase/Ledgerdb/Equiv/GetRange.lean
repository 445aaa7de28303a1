import LedgerDatabase.Ledgerdb.Equiv.Versions

/-!
# Ranges of keys

`GetRange` walks from the lower bound of `start` to the upper bound of `end`.  When `end` is less than
`start` and a key lies between them, the walk begins behind its end and goes on to the end of the map.
So a range is exact except then (`getRange_iff`).
-/

namespace LedgerDatabase.Ledgerdb.LedgerDB

open SkipList (IsNode)

variable {s : LedgerDB} {db : DB} {heads : StdMap ℤ} {ws : List Version} {w : Version}
  {cs : List SetCall} {start stop key : Bytes}

/-! ### The walk -/

/-- An entry of the result: the last write of a key. -/
def LastWrite (ws : List Version) (e : Bytes × Found) : Prop :=
  ∃ w ∈ (writesOf e.1 ws).getLast?, w.found = e.2

/-- The walk passes the entries of `mid` and stops behind them. -/
theorem Holds.rangeLoop_eq (h : Holds db heads ws) {toIt mid rest : StdMap ℤ}
    (hsub : (mid ++ rest).Sublist heads) (hstop : rest = [] ∨ rest.length = toIt.length)
    (hmid : toIt.length ≤ rest.length ∨ (mid ++ rest).length < toIt.length)
    {values : StdMap Found} (hvalues : ∀ e ∈ values, ∀ e' ∈ mid, e.1 < e'.1) :
    ∃ out, LedgerDB.rangeLoop db toIt (mid ++ rest) values = .ok (values ++ out) ∧
      out.map Prod.fst = mid.map Prod.fst ∧ ∀ e ∈ out, LastWrite ws e := by
  induction mid generalizing values with
  | nil =>
    refine ⟨[], ?_, rfl, fun e he => absurd he List.not_mem_nil⟩
    rw [List.nil_append, List.append_nil]
    cases rest with
    | nil => rfl
    | cons e rest =>
      have hlen : rest.length + 1 = toIt.length := hstop.resolve_left (List.cons_ne_nil _ _)
      rw [LedgerDB.rangeLoop, if_pos hlen]
  | cons e mid ih =>
    obtain ⟨key, searchKey⟩ := e
    have hne : ¬ (mid ++ rest).length + 1 = toIt.length := by
      simp only [List.length_append, List.length_cons] at hmid ⊢
      omega
    have he : (key, searchKey) ∈ heads := hsub.subset (by simp)
    obtain ⟨w, hw, hkey⟩ := h.exists_last he
    obtain ⟨-, hplain, x, hfind, hx⟩ := h.find_last hw
    obtain ⟨node, hparse, hnode, hvalue⟩ := parse_isNode hx hplain
    rw [hnode, hkey] at hvalue
    rw [hkey, listKey] at hfind
    have hordered : StdMap.Ordered (((key, searchKey) :: mid) ++ rest) := h.ordered.sublist hsub
    have hmids := (List.pairwise_cons.mp (StdMap.ordered_append.mp hordered).1).1
    have hvalues' : ∀ e ∈ values ++ [(key, w.found)], ∀ e' ∈ mid, e.1 < e'.1 := by
      intro e he e' he'
      rcases List.mem_append.mp he with he | he
      · exact hvalues e he e' (List.mem_cons_of_mem _ he')
      · rw [List.mem_singleton.mp he]
        exact hmids e' he'
    obtain ⟨out, hrun, hkeys, hout⟩ := ih ((List.sublist_cons_self _ _).trans hsub)
      (hmid.imp_right fun hlt => Nat.lt_of_succ_lt hlt) hvalues'
    refine ⟨(key, w.found) :: out, ?_, by rw [List.map_cons, List.map_cons, hkeys], ?_⟩
    · rw [List.cons_append, LedgerDB.rangeLoop, if_neg hne]
      simp only [hfind, ok_bind, hparse, hvalue]
      rw [StdMap.emplace_concat fun e he => hvalues e he _ List.mem_cons_self, hrun]
      simp
    · intro e he
      rcases List.mem_cons.mp he with rfl | he
      · exact ⟨w, hw, rfl⟩
      · exact hout e he

/-! ### What is returned -/

/-- The written keys between `start` and `stop`, each with its last write. -/
def Exact (ws : List Version) (start stop : Bytes) (m : StdMap Found) : Prop :=
  m.Ordered ∧ ∀ key f, (key, f) ∈ m ↔ start ≤ key ∧ key ≤ stop ∧ LastWrite ws (key, f)

/-- `GetRange` returns exactly these. -/
def RangeExact (s : LedgerDB) (ws : List Version) (start stop : Bytes) : Prop :=
  ∃ m, s.getRange start stop = .ok m ∧ Exact ws start stop m

/-- A written key lies between the end and the start of the range, and another one is not before the
start. -/
def Overrun (ws : List Version) (start stop : Bytes) : Prop :=
  (∃ w ∈ ws, stop < w.key ∧ w.key < start) ∧ ∃ w ∈ ws, start ≤ w.key

/-- The keys of `skiplist_head_` are the written ones. -/
theorem Holds.mem_keys (h : Holds db heads ws) :
    (∃ e ∈ heads, e.1 = key) ↔ ∃ w ∈ ws, w.key = key := by
  constructor
  · rintro ⟨e, he, rfl⟩
    obtain ⟨w, hw, -⟩ := h.exists_last he
    obtain ⟨hmem, hkey⟩ := mem_writesOf.mp (List.mem_of_getLast? hw)
    exact ⟨w, hmem, hkey⟩
  · rintro ⟨w, hw, rfl⟩
    have hne : writesOf w.key ws ≠ [] := List.ne_nil_of_mem (mem_writesOf.mpr ⟨hw, rfl⟩)
    have hlookup := h.last w.key
    rw [List.getLast?_eq_getLast_of_ne_nil hne] at hlookup
    exact ⟨_, PutLog.mem_of_lookup hlookup, rfl⟩

/-- A result whose keys are those of the range is exact. -/
theorem Holds.exact (h : Holds db heads ws) {mid : StdMap ℤ} {out : StdMap Found}
    (hsub : mid.Sublist heads)
    (hmid : ∀ e ∈ heads, e ∈ mid ↔ start ≤ e.1 ∧ e.1 ≤ stop)
    (hkeys : out.map Prod.fst = mid.map Prod.fst) (hout : ∀ e ∈ out, LastWrite ws e) :
    Exact ws start stop out := by
  constructor
  · have hordered : (mid.map Prod.fst).Pairwise (· < ·) := List.pairwise_map.mpr (h.ordered.sublist hsub)
    rw [← hkeys, List.pairwise_map] at hordered
    exact hordered
  · intro key f
    constructor
    · intro hf
      have hkey : key ∈ mid.map Prod.fst := by
        rw [← hkeys]
        exact List.mem_map_of_mem (f := Prod.fst) hf
      obtain ⟨e, he, rfl⟩ := List.mem_map.mp hkey
      obtain ⟨hstart, hstop⟩ := (hmid e (hsub.subset he)).mp he
      exact ⟨hstart, hstop, hout _ hf⟩
    · rintro ⟨hstart, hstop, w, hw, rfl⟩
      obtain ⟨hmem, hkey⟩ := mem_writesOf.mp (List.mem_of_getLast? hw)
      obtain ⟨e, he, rfl⟩ := h.mem_keys.mpr ⟨w, hmem, hkey⟩
      have hkey : e.1 ∈ out.map Prod.fst := by
        rw [hkeys]
        exact List.mem_map_of_mem ((hmid e he).mpr ⟨hstart, hstop⟩)
      obtain ⟨e', he', heq⟩ := List.mem_map.mp hkey
      obtain ⟨w', hw', hfound⟩ := hout e' he'
      rw [heq] at hw'
      obtain rfl := Option.mem_unique hw hw'
      rw [show (e.1, w.found) = e' from Prod.ext heq.symm hfound]
      exact he'

theorem Holds.getRange_eq (h : Holds s.db s.skiplistHead ws) {mid rest : StdMap ℤ}
    (hlower : s.skiplistHead.lowerBound start = mid ++ rest)
    (hstop : rest = [] ∨ rest.length = (s.skiplistHead.upperBound stop).length)
    (hmid : (s.skiplistHead.upperBound stop).length ≤ rest.length ∨
      (mid ++ rest).length < (s.skiplistHead.upperBound stop).length) :
    mid.Sublist s.skiplistHead ∧ ∃ out, s.getRange start stop = .ok out ∧
      out.map Prod.fst = mid.map Prod.fst ∧ ∀ e ∈ out, LastWrite ws e := by
  have hsub : (mid ++ rest).Sublist s.skiplistHead := by
    rw [← hlower]
    exact List.dropWhile_sublist _
  obtain ⟨out, hrun, hkeys, hout⟩ :=
    h.rangeLoop_eq hsub hstop hmid fun e he => absurd he List.not_mem_nil
  refine ⟨(List.sublist_append_left mid rest).trans hsub, out, ?_, hkeys, hout⟩
  rw [LedgerDB.getRange, hlower, hrun, List.nil_append]

/-- A range in order. -/
theorem Holds.rangeExact_of_le (h : Holds s.db s.skiplistHead ws) (hle : start ≤ stop) :
    RangeExact s ws start stop := by
  have hbehind : (s.skiplistHead.lowerBound start).dropWhile (fun e => decide (e.1 ≤ stop)) =
      s.skiplistHead.upperBound stop := by
    have hlower : (s.skiplistHead.lowerBound start).Ordered :=
      h.ordered.sublist (List.dropWhile_sublist _)
    rw [StdMap.dropWhile_eq_filter (hlower.pairwise_le stop), StdMap.lowerBound_eq_filter h.ordered,
      StdMap.upperBound_eq_filter h.ordered, List.filter_filter]
    refine List.filter_congr fun e _ => ?_
    by_cases hstop : e.1 ≤ stop
    · simp [hstop]
    · have hstart : ¬ e.1 < start := fun hlt => hstop (List.le_trans (List.le_of_lt hlt) hle)
      simp [hstop, hstart]
  have hsplit := List.takeWhile_append_dropWhile (p := fun e => decide (e.1 ≤ stop))
    (l := s.skiplistHead.lowerBound start)
  rw [hbehind] at hsplit
  obtain ⟨hsub, out, hget, hkeys, hout⟩ :=
    h.getRange_eq hsplit.symm (Or.inr rfl) (Or.inl le_rfl)
  refine ⟨out, hget, h.exact hsub (fun e he => ?_) hkeys hout⟩
  have hlower : (s.skiplistHead.lowerBound start).Ordered :=
    h.ordered.sublist (List.dropWhile_sublist _)
  rw [StdMap.takeWhile_eq_filter (hlower.pairwise_le stop), StdMap.lowerBound_eq_filter h.ordered]
  simp only [List.mem_filter, he, true_and, decide_eq_true_eq, Bool.not_eq_true', decide_eq_false_iff_not,
    List.not_lt]

/-- An inverted range that is not overrun. -/
theorem Holds.rangeExact_of_lt (h : Holds s.db s.skiplistHead ws) (hlt : stop < start)
    (hover : ¬ Overrun ws start stop) : RangeExact s ws start stop := by
  have hstop : s.skiplistHead.lowerBound start = [] ∨
      (s.skiplistHead.lowerBound start).length = (s.skiplistHead.upperBound stop).length := by
    by_cases hnil : s.skiplistHead.lowerBound start = []
    · exact Or.inl hnil
    · right
      rw [StdMap.lowerBound_eq_filter h.ordered, StdMap.upperBound_eq_filter h.ordered]
      congr 1
      refine List.filter_congr fun e he => ?_
      obtain ⟨e', he'⟩ := List.exists_mem_of_ne_nil _ hnil
      rw [StdMap.lowerBound_eq_filter h.ordered, List.mem_filter] at he'
      obtain ⟨w', hw', hkey'⟩ := h.mem_keys.mp ⟨e', he'.1, rfl⟩
      have hstart : start ≤ w'.key := by
        rw [hkey']
        simpa using he'.2
      obtain ⟨w, hw, hkey⟩ := h.mem_keys.mp ⟨e, he, rfl⟩
      by_cases hle : e.1 ≤ stop
      · have hlt' : e.1 < start := List.lt_of_le_of_lt hle hlt
        simp [hle, hlt']
      · have hge : ¬ e.1 < start := fun hlt' =>
          hover ⟨⟨w, hw, by rw [hkey]; exact List.not_le.mp hle, by rw [hkey]; exact hlt'⟩,
            w', hw', hstart⟩
        simp [hle, hge]
  have hlower : s.skiplistHead.lowerBound start = [] ++ s.skiplistHead.lowerBound start := rfl
  obtain ⟨hsub, out, hget, hkeys, hout⟩ := h.getRange_eq hlower hstop (by
      rw [List.nil_append]
      rcases hstop with hnil | hlen
      · rw [hnil, List.length_nil]
        omega
      · omega)
  refine ⟨out, hget, h.exact hsub (fun e he => ?_) hkeys hout⟩
  have hempty : ¬ (start ≤ e.1 ∧ e.1 ≤ stop) := fun ⟨hs, he⟩ =>
    List.not_lt.mpr (List.le_trans hs he) hlt
  simp [hempty]

/-- An overrun range is not exact. -/
theorem Holds.not_rangeExact (h : Holds s.db s.skiplistHead ws) (hover : Overrun ws start stop) :
    ¬ RangeExact s ws start stop := by
  obtain ⟨⟨w, hw, hwstop, hwstart⟩, w', hw', hstart⟩ := hover
  obtain ⟨e, he, hkey⟩ := h.mem_keys.mpr ⟨w, hw, rfl⟩
  obtain ⟨e', he', hkey'⟩ := h.mem_keys.mpr ⟨w', hw', rfl⟩
  have hlt : stop < start := List.lt_trans hwstop hwstart
  have hlower := StdMap.lowerBound_eq_filter h.ordered start
  have hmem : e' ∈ s.skiplistHead.lowerBound start := by
    rw [hlower, List.mem_filter]
    refine ⟨he', ?_⟩
    rw [hkey']
    simpa using hstart
  -- the walk starts behind its end
  have hlen : (s.skiplistHead.lowerBound start).length < (s.skiplistHead.upperBound stop).length := by
    have hfilter : s.skiplistHead.lowerBound start =
        (s.skiplistHead.upperBound stop).filter fun e => !decide (e.1 < start) := by
      rw [hlower, StdMap.upperBound_eq_filter h.ordered, List.filter_filter]
      refine List.filter_congr fun e _ => ?_
      by_cases hge : e.1 < start
      · simp [hge]
      · have hnot : ¬ e.1 ≤ stop := fun hle => hge (List.lt_of_le_of_lt hle hlt)
        simp [hge, hnot]
    rw [hfilter, List.length_filter_lt_length_iff_exists]
    refine ⟨e, ?_, ?_⟩
    · rw [StdMap.upperBound_eq_filter h.ordered, List.mem_filter]
      refine ⟨he, ?_⟩
      rw [hkey]
      simpa using hwstop
    · rw [hkey]
      simpa using hwstart
  have hlower : s.skiplistHead.lowerBound start = s.skiplistHead.lowerBound start ++ [] :=
    (List.append_nil _).symm
  obtain ⟨hsub, out, hget, hkeys, hout⟩ := h.getRange_eq hlower (Or.inl rfl)
    (Or.inr (by rwa [List.append_nil]))
  rintro ⟨m, hget', -, hexact⟩
  rw [hget] at hget'
  obtain rfl := Except.ok.inj hget'
  have hout' : e'.1 ∈ out.map Prod.fst := by
    rw [hkeys]
    exact List.mem_map_of_mem hmem
  obtain ⟨o, ho, -⟩ := List.mem_map.mp hout'
  obtain ⟨hs, he, -⟩ := (hexact o.1 o.2).mp ho
  exact List.not_lt.mpr (List.le_trans hs he) hlt

/-- **Ranges are exact** unless a key lies between the end and the start of an inverted range and
another one behind it. -/
theorem getRange_iff (h : SetCalls cs) (hclean : ∀ c ∈ cs, c.Clean) (start stop : Bytes) :
    ∃ s, setAll {} cs = .ok s ∧
      (RangeExact s (written cs).writes start stop ↔ ¬ Overrun (written cs).writes start stop) := by
  obtain ⟨s, hrun, hs⟩ := h.state hclean
  refine ⟨s, hrun, fun hexact hover => hs.holds.not_rangeExact hover hexact, fun hover => ?_⟩
  by_cases hle : start ≤ stop
  · exact hs.holds.rangeExact_of_le hle
  · exact hs.holds.rangeExact_of_lt (List.not_le.mp hle) hover

/-- Three keys; one is written again with an older timestamp. -/
def rangeCalls : List SetCall :=
  [⟨[str "b", str "d"], [str "1", str "2"], 7, []⟩, ⟨[str "c", str "b"], [str "3", str "4"], 5, []⟩]

theorem getRange_inverted :
    ∃ s, setAll {} rangeCalls = .ok s ∧
      RangeExact s (written rangeCalls).writes (str "d") (str "c") := by
  have hplain : ∀ c ∈ rangeCalls, ∀ e ∈ c.keys.zip c.values,
      (124 : UInt8) ∉ e.2 ∧ (64 : UInt8) ∉ e.2 := by decide
  have hcalls : SetCalls rangeCalls := ⟨by decide, by decide⟩
  obtain ⟨s, hrun, hiff⟩ := getRange_iff hcalls
    (fun c hc e he => ⟨(hplain c hc e he).1, (hplain c hc e he).2⟩) (str "d") (str "c")
  refine ⟨s, hrun, hiff.mpr ?_⟩
  rintro ⟨hbetween, -⟩
  revert hbetween
  decide

/-- From `d` down to `a`: the loop goes on behind `d`. -/
theorem inverted_range_overrun :
    ∃ s, setAll {} rangeCalls = .ok s ∧
      s.getRange (str "d") (str "a") = .ok [(str "d", ⟨7, 0, str "2"⟩)] ∧
      ¬ RangeExact s (written rangeCalls).writes (str "d") (str "a") := by
  have hread : ((setAll {} rangeCalls).bind fun s => s.getRange (str "d") (str "a")) =
      .ok [(str "d", ⟨7, 0, str "2"⟩)] := by decide +kernel
  cases hrun : setAll {} rangeCalls with
  | error e =>
    rw [hrun] at hread
    cases hread
  | ok s =>
    rw [hrun] at hread
    refine ⟨s, rfl, hread, ?_⟩
    rintro ⟨m, hget, -, hexact⟩
    obtain rfl := Except.ok.inj (hget.symm.trans hread)
    obtain ⟨-, hstop, -⟩ := (hexact (str "d") ⟨7, 0, str "2"⟩).mp (by decide)
    exact absurd hstop (by decide)

end LedgerDatabase.Ledgerdb.LedgerDB
