import LedgerDatabase.Ledgerdb.Equiv.Records
import LedgerDatabase.Ledgerdb.Equiv.Skiplist.Map

/-!
# Reading what was written

A value is stored as `{block}@{value}` between the bars of a skip list record.  What is read has
neither an `@` nor a bar in it, so it can only be what was written when that is true of the value.
When it is true of all values of a run, `GetValues` returns the last write of a key, and the entries
of `GetVersions` and `GetRange` are writes (`readYourWrites_iff`).

The invariant is that the skip list of every key holds its writes and that `skiplist_head_` names the
last one (`Holds`).
-/

namespace LedgerDatabase.Ledgerdb.LedgerDB

open SkipList (Agree IsNode Reached Rep records readRecord headKey nodeKey Frame)
open SkipChain (Node)

/-! ### Runs -/

/-- A call of `Set`. -/
structure SetCall where
  keys : List Bytes
  values : List Bytes
  timestamp : UInt64
  coins : List (List Bool)

/-- The call on a ledger. -/
def SetCall.run (s : LedgerDB) (c : SetCall) : Except Fault LedgerDB := do
  let (s, _) ← s.set c.keys c.values c.timestamp.toNat c.coins
  return s

/-- One call after the other. -/
def setAll (s : LedgerDB) (cs : List SetCall) : Except Fault LedgerDB := cs.foldlM SetCall.run s

/-- What a call writes for one key. -/
structure Version where
  key : Bytes
  timestamp : UInt64
  block : ℕ
  val : Bytes
  deriving DecidableEq

/-- The write as it should be read. -/
def Version.found (w : Version) : Found := ⟨w.timestamp.toNat, w.block, w.val⟩

/-- The writes of a call that makes the block `blk`. -/
def SetCall.writes (blk : ℕ) (c : SetCall) : List Version :=
  (c.keys.zip c.values).map fun e => ⟨e.1, c.timestamp, blk, e.2⟩

/-- The blocks and the writes of some calls. -/
structure Written where
  blocks : ℕ := 0
  writes : List Version := []

/-- A call without keys makes no block. -/
def Written.set (w : Written) (c : SetCall) : Written :=
  if c.keys.length = 0 then w else ⟨w.blocks + 1, w.writes ++ c.writes w.blocks⟩

/-- What was written by some calls. -/
def written (cs : List SetCall) : Written := cs.foldl Written.set {}

/-- The writes of a key. -/
def writesOf (key : Bytes) (ws : List Version) : List Version := ws.filter fun w => w.key = key

/-- The ledger returns what was written. -/
structure ReadsWrites (s : LedgerDB) (ws : List Version) : Prop where
  values : ∀ key, ∀ w ∈ (writesOf key ws).getLast?, ∃ s', s.getValues [key] = .ok ([w.found], s')
  versions : ∀ (n : ℤ) keys, ∃ vss, s.getVersions n keys = .ok vss ∧
    List.Forall₂ (fun key vs => ∀ f ∈ vs, ∃ w ∈ writesOf key ws, w.found = f) keys vss
  range : ∀ start stop, ∃ m, s.getRange start stop = .ok m ∧
    ∀ e ∈ m, ∃ w ∈ writesOf e.1 ws, w.found = e.2

/-- After each of the calls the ledger returns what was written. -/
def ReadYourWrites (cs : List SetCall) : Prop :=
  ∀ pre, pre <+: cs → ∃ s, setAll {} pre = .ok s ∧ ReadsWrites s (written pre).writes

/-- Calls with a value for every key, and different timestamps for the writes of a key. -/
structure SetCalls (cs : List SetCall) : Prop where
  values : ∀ c ∈ cs, c.keys.length ≤ c.values.length
  distinct : ((written cs).writes.map fun w => (w.key, w.timestamp)).Nodup

/-- A value without the characters that separate fields. -/
structure Plain (val : Bytes) : Prop where
  noBar : NoBar val
  noAt : (64 : UInt8) ∉ val

/-- The values that a call writes can be stored. -/
def SetCall.Clean (c : SetCall) : Prop := ∀ e ∈ c.keys.zip c.values, Plain e.2

variable {s s' : LedgerDB} {db db' : DB} {heads : StdMap ℤ} {ws : List Version} {w : Version}
  {cs : List SetCall} {c : SetCall} {key : Bytes}

/-! ### Values -/

/-- The entry of the skip list for a write. -/
def Version.entry (w : Version) : ℤ × Bytes :=
  (toLong w.timestamp.toNat, toDecimal w.block ++ str "@" ++ w.val)

theorem toLong_toNat (t : UInt64) : (toLong t.toNat % 2 ^ 64).toNat = t.toNat := by
  have hlt := t.toNat_lt
  rw [toLong]
  split_ifs <;> omega

theorem toLong_injective : Function.Injective fun t : UInt64 => toLong t.toNat := by
  intro t t' h
  have h' := toLong_toNat t
  rw [show toLong t.toNat = toLong t'.toNat from h, toLong_toNat] at h'
  exact UInt64.toNat_inj.mp h'.symm

/-- A plain value is read as it was written. -/
theorem parseValue_entry (h : Plain w.val) : parseValue w.entry.1 w.entry.2 = .ok w.found := by
  have hblk : splitBy (toDecimal w.block) 64 = [toDecimal w.block] :=
    List.splitOn_eq_singleton (not_mem_toDecimal (by decide) _)
  have hsplit : splitBy w.entry.2 64 = [toDecimal w.block, w.val] := by
    rw [Version.entry, show str "@" = [64] from rfl, List.append_assoc, List.singleton_append,
      splitBy_append, hblk]
    exact congrArg _ (List.splitOn_eq_singleton h.noAt)
  rw [parseValue, hsplit]
  simp only [at?, List.getElem?_cons_zero, List.getElem?_cons_succ, ok_bind, stoul_toDecimal]
  rw [Version.entry, toLong_toNat]
  rfl

theorem noBar_entry (h : Plain w.val) : NoBar w.entry.2 :=
  ((noBar_toDecimal _).append (by unfold NoBar; decide)).append h.noBar

/-- The value of a record that is parsed has no bar. -/
theorem noBar_ofString {x : Bytes} {node : SkipNode} (h : SkipNode.ofString x = .ok node) :
    NoBar node.value := by
  have hcut (r : Bytes) : NoBar (SkipNode.cut r).1 := by
    rw [SkipNode.cut]
    split_ifs with hbar
    · intro hmem
      rw [LedgerDatabase.find, if_pos hbar] at hmem
      exact absurd ((List.mem_take_iff_idxOf_lt hbar).mp hmem) (lt_irrefl _)
    · exact hbar
  unfold SkipNode.ofString at h
  simp only at h
  obtain ⟨key, -, h⟩ := bind_eq_ok_iff.mp h
  obtain ⟨forward, -, h⟩ := bind_eq_ok_iff.mp h
  obtain rfl := Except.ok.inj h
  exact hcut _

/-- What is read is plain. -/
theorem plain_parseValue {timestamp : ℤ} {value : Bytes} {f : Found} (hv : NoBar value)
    (h : parseValue timestamp value = .ok f) : Plain f.val := by
  unfold parseValue at h
  simp only at h
  obtain ⟨blk, -, h⟩ := bind_eq_ok_iff.mp h
  obtain ⟨block, -, h⟩ := bind_eq_ok_iff.mp h
  obtain ⟨val, hval, h⟩ := bind_eq_ok_iff.mp h
  obtain rfl := Except.ok.inj h
  have hmem : val ∈ splitBy value 64 := by
    unfold at? at hval
    split at hval
    · obtain rfl := Except.ok.inj hval
      exact List.mem_of_getElem? ‹_›
    · cases hval
  exact ⟨fun hbar => hv (subset_of_mem_splitBy hmem hbar), not_mem_of_mem_splitBy hmem⟩

/-- `GetValues` only returns plain values. -/
theorem plain_getValue {f : Found} (h : s.getValue key = .ok (f, s')) : Plain f.val := by
  unfold getValue at h
  simp only at h
  obtain ⟨node, -, h⟩ := bind_eq_ok_iff.mp h
  split_ifs at h
  · obtain ⟨rfl, -⟩ := Prod.mk.inj (Except.ok.inj h)
    exact ⟨noBar_nil, List.not_mem_nil⟩
  · obtain ⟨skipnode, hparse, h⟩ := bind_eq_ok_iff.mp h
    obtain ⟨found, hfound, h⟩ := bind_eq_ok_iff.mp h
    obtain ⟨rfl, -⟩ := Prod.mk.inj (Except.ok.inj h)
    exact plain_parseValue (noBar_ofString hparse) hfound

/-! ### The invariant -/

/-- The name of the skip list of a key. -/
def listKey (key : Bytes) : Bytes := str "skiplist_" ++ key

/-- The skip lists hold some writes, and `skiplist_head_` has the last one of each key. -/
structure Holds (db : DB) (heads : StdMap ℤ) (ws : List Version) : Prop where
  lists : ∀ key, SkipList.Lists db (listKey key) ((writesOf key ws).map Version.entry)
  last : ∀ key, heads.lookup key = (writesOf key ws).getLast?.map fun w => w.entry.1
  ordered : heads.Ordered
  plain : ∀ w ∈ ws, Plain w.val

theorem mem_writesOf : w ∈ writesOf key ws ↔ w ∈ ws ∧ w.key = key := by
  simp [writesOf]

theorem writesOf_append (key : Bytes) (ws ws' : List Version) :
    writesOf key (ws ++ ws') = writesOf key ws ++ writesOf key ws' := List.filter_append ..

theorem writesOf_concat_self (ws : List Version) (w : Version) :
    writesOf w.key (ws ++ [w]) = writesOf w.key ws ++ [w] := by
  simp [writesOf]

theorem writesOf_concat_of_ne (h : w.key ≠ key) : writesOf key (ws ++ [w]) = writesOf key ws := by
  simp [writesOf, h]

theorem holds_empty : Holds {} [] [] where
  lists _ := SkipList.Lists.empty rfl ⟨rfl, fun _ => rfl⟩
  last _ := rfl
  ordered := StdMap.ordered_nil
  plain _ hw := absurd hw List.not_mem_nil

theorem listKey_injective : Function.Injective listKey := fun _ _ h => List.append_cancel_left h

theorem prefix_headKey (key : Bytes) : str "skiplist_" <+: headKey (listKey key) := by
  rw [headKey, listKey, List.append_assoc]
  exact List.prefix_append _ _

theorem prefix_listNode (key : Bytes) (k : ℤ) : str "skiplist_" <+: nodeKey (listKey key) k :=
  (List.prefix_append _ key).trans (SkipList.prefix_nodeKey _ k)

/-- Records that are not in a skip list do not matter. -/
theorem Holds.congr (h : Holds db heads ws)
    (hget : ∀ k, str "skiplist_" <+: k → db'.getString k = db.getString k) :
    Holds db' heads ws := by
  have hread (k : Bytes) (hk : str "skiplist_" <+: k) : readRecord db' k = readRecord db k := by
    rw [readRecord, readRecord, hget k hk]
  refine ⟨fun key => (h.lists key).agree ?_, h.last, h.ordered, h.plain⟩
  exact ⟨hread _ (prefix_headKey key), fun k => hread _ (prefix_listNode key k)⟩

/-- **One write.** -/
theorem Holds.write (h : Holds db heads ws) (hw : Plain w.val) (coins : List Bool)
    (hnew : (w.key, w.timestamp) ∉ ws.map fun w => (w.key, w.timestamp)) :
    ∃ db', SkipList.insert db (listKey w.key) w.entry.1 w.entry.2 coins = .ok db' ∧
      Holds db' (heads.assign w.key w.entry.1) (ws ++ [w]) := by
  have hfresh : w.entry.1 ∉ ((writesOf w.key ws).map Version.entry).map Prod.fst := by
    intro hmem
    rw [List.map_map] at hmem
    obtain ⟨w', hw', heq⟩ := List.mem_map.mp hmem
    obtain ⟨hmem', hkey⟩ := mem_writesOf.mp hw'
    refine hnew (List.mem_map.mpr ⟨w', hmem', ?_⟩)
    rw [hkey, toLong_injective heq]
  obtain ⟨db', hrun, hlist, hf⟩ := (h.lists w.key).insert coins hfresh (noBar_entry hw)
  refine ⟨db', hrun, ?_, fun key => ?_, h.ordered.assign _ _, fun w' hw' => ?_⟩
  · intro key
    by_cases hkey : w.key = key
    · subst hkey
      rw [writesOf_concat_self, List.map_append]
      exact hlist
    · rw [writesOf_concat_of_ne hkey]
      exact (h.lists key).agree (hf.agree fun heq => hkey (listKey_injective heq).symm)
  · rw [StdMap.lookup_assign]
    by_cases hkey : w.key = key
    · subst hkey
      rw [if_pos rfl, writesOf_concat_self, List.getLast?_concat]
      rfl
    · rw [if_neg (Ne.symm hkey), writesOf_concat_of_ne hkey, h.last]
  · rcases List.mem_append.mp hw' with hw' | hw'
    · exact h.plain w' hw'
    · rwa [List.mem_singleton.mp hw']

/-- The loop of `Set`. -/
theorem Holds.setKeys {timestamp : UInt64} {blk : ℕ} {keys values : List Bytes}
    {coins : List (List Bool)} (h : Holds db heads ws) (hlen : keys.length ≤ values.length)
    (hplain : ∀ e ∈ keys.zip values, Plain e.2)
    (hdistinct : ((ws ++ SetCall.writes blk ⟨keys, values, timestamp, coins⟩).map
      fun w => (w.key, w.timestamp)).Nodup) :
    ∃ db' heads', LedgerDB.setKeys timestamp.toNat (toDecimal blk) keys values coins db heads =
        .ok (db', heads') ∧
      Holds db' heads' (ws ++ SetCall.writes blk ⟨keys, values, timestamp, coins⟩) := by
  induction keys generalizing db heads ws values coins with
  | nil =>
    refine ⟨db, heads, rfl, ?_⟩
    rw [SetCall.writes, List.zip_nil_left, List.map_nil, List.append_nil]
    exact h
  | cons key keys ih =>
    cases values with
    | nil => cases hlen
    | cons val values =>
      have hcons (coins' : List (List Bool)) :
          ws ++ SetCall.writes blk ⟨key :: keys, val :: values, timestamp, coins⟩ =
            (ws ++ [⟨key, timestamp, blk, val⟩]) ++
              SetCall.writes blk ⟨keys, values, timestamp, coins'⟩ := by
        simp [SetCall.writes]
      rw [hcons coins.tail] at hdistinct ⊢
      have hnew : (key, timestamp) ∉ ws.map fun w => (w.key, w.timestamp) := by
        rw [List.map_append, List.map_append, List.nodup_append, List.nodup_append] at hdistinct
        intro hmem
        exact hdistinct.1.2.2 _ hmem (key, timestamp) (by simp) rfl
      obtain ⟨db₁, hrun, h₁⟩ := h.write (w := ⟨key, timestamp, blk, val⟩)
        (hplain (key, val) (by simp)) coins.head?.toList.flatten hnew
      obtain ⟨db', heads', hkeys, h'⟩ := ih h₁ (by simpa using hlen)
        (fun e he => hplain e (by simp [he])) hdistinct
      refine ⟨db', heads', ?_, h'⟩
      rw [LedgerDB.setKeys]
      simp only [Version.entry, listKey] at hrun hkeys
      rw [hrun]
      exact hkeys

/-! ### `Set` -/

/-- The state after some calls. -/
structure State (s : LedgerDB) (w : Written) : Prop where
  next : s.nextBlockSeq = w.blocks
  holds : Holds s.db s.skiplistHead w.writes

theorem join_ok : ∀ (keys values : List Bytes), keys.length ≤ values.length →
    ∃ res, BlockData.join keys values = .ok res
  | [], _, _ => ⟨[], rfl⟩
  | _ :: _, [], h => by cases h
  | key :: keys, val :: values, h => by
    obtain ⟨res, hres⟩ := join_ok keys values (by simpa using h)
    rw [BlockData.join, hres]
    exact ⟨_, rfl⟩

/-- A block with keys can be stored. -/
theorem toBytes_ok {keys values : List Bytes} (hne : keys.length ≠ 0)
    (hlen : keys.length ≤ values.length) : ∃ blkVal, BlockData.toBytes ⟨keys, values⟩ = .ok blkVal := by
  cases keys with
  | nil => exact absurd rfl hne
  | cons key keys =>
    cases values with
    | nil => cases hlen
    | cons val values =>
      obtain ⟨res, hres⟩ := join_ok keys values (by simpa using hlen)
      refine ⟨str "/" ++ key ++ str "|" ++ val ++ res, ?_⟩
      have hslash : ¬ (str "/" ++ key ++ str "|" ++ val ++ res).length < 1 := by
        simp [show str "/" = [47] from rfl]
      rw [BlockData.toBytes, BlockData.join, hres]
      simp only [ok_bind, substrFrom]
      rfl

theorem State.set {w : Written} (h : State s w) (hlen : c.keys.length ≤ c.values.length)
    (hclean : c.Clean) (hdistinct : ((w.set c).writes.map fun w => (w.key, w.timestamp)).Nodup) :
    ∃ s', c.run s = .ok s' ∧ State s' (w.set c) := by
  rw [SetCall.run, LedgerDB.set]
  by_cases hkeys : c.keys.length = 0
  · rw [if_pos hkeys]
    refine ⟨s, rfl, ?_⟩
    rw [Written.set, if_pos hkeys]
    exact h
  · rw [if_neg hkeys]
    rw [Written.set, if_neg hkeys] at hdistinct ⊢
    obtain ⟨blkVal, hblk⟩ := toBytes_ok hkeys hlen
    have hput : Holds (s.db.putString (ledgerKey s.nextBlockSeq) blkVal) s.skiplistHead w.writes := by
      refine h.holds.congr fun k hk => ?_
      rw [DB.getString_putString, if_neg]
      exact ne_of_head? (head?_skiplist hk) (head?_ledgerKey _) (by decide)
    rw [← h.next] at hdistinct ⊢
    obtain ⟨db', heads', hrun, hholds⟩ := hput.setKeys hlen hclean hdistinct
    simp only [hblk, ok_bind, hrun]
    exact ⟨_, rfl, rfl, hholds⟩

/-! ### Reads -/

/-- A record of a write is parsed. -/
theorem parse_isNode {x : Bytes} (hx : IsNode x w.entry) (hw : Plain w.val) :
    ∃ node, SkipNode.ofString x = .ok node ∧ node.key = w.entry.1 ∧
      parseValue node.key node.value = .ok w.found := by
  obtain ⟨node, hparse, hentry⟩ := hx
  obtain ⟨hkey, hvalue⟩ := Prod.mk.inj (hentry.trans (Prod.mk.eta (p := w.entry)).symm)
  refine ⟨node, hparse, hkey, ?_⟩
  rw [hkey, hvalue, parseValue_entry hw]

theorem ne_nil_of_isNode {x : Bytes} {e : ℤ × Bytes} (hx : IsNode x e) : ¬ x.length = 0 := by
  obtain ⟨node, hparse, -⟩ := hx
  rintro hlen
  rw [List.length_eq_zero_iff.mp hlen] at hparse
  cases hparse

/-- The search for the last write of a key. -/
theorem Holds.find_last (h : Holds db heads ws) (hw : w ∈ (writesOf key ws).getLast?) :
    heads.lookup key = some w.entry.1 ∧ Plain w.val ∧
      ∃ x, SkipList.find db (listKey key) w.entry.1 = .ok x ∧ IsNode x w.entry := by
  rw [Option.mem_def] at hw
  refine ⟨by rw [h.last, hw]; rfl, ?_, (h.lists key).find_last ?_⟩
  · exact h.plain w (mem_writesOf.mp (List.mem_of_getLast? hw)).1
  · rw [List.getLast?_map, hw]
    rfl

theorem Holds.getValues (h : Holds s.db s.skiplistHead ws) (hw : w ∈ (writesOf key ws).getLast?) :
    ∃ s', s.getValues [key] = .ok ([w.found], s') := by
  obtain ⟨hhead, hplain, x, hfind, hx⟩ := h.find_last hw
  obtain ⟨node, hparse, hkey, hvalue⟩ := parse_isNode hx hplain
  rw [hkey] at hvalue
  rw [listKey] at hfind
  simp only [LedgerDB.getValues, getValue, hhead, Option.getD_some, hfind, ok_bind,
    if_neg (ne_nil_of_isNode hx), hparse, hvalue]
  exact ⟨_, rfl⟩

theorem exists_of_forall₂ {xs : List Bytes} {es : List (ℤ × Bytes)} (h : List.Forall₂ IsNode xs es)
    {x : Bytes} (hx : x ∈ xs) : ∃ e ∈ es, IsNode x e := by
  induction h with
  | nil => cases hx
  | cons hhead _ ih =>
    rcases List.mem_cons.mp hx with rfl | hx
    · exact ⟨_, List.mem_cons_self, hhead⟩
    · obtain ⟨e, he, hnode⟩ := ih hx
      exact ⟨e, List.mem_cons_of_mem _ he, hnode⟩

/-- `scan` returns some of the entries of a list. -/
theorem scan_isNode {pre : Bytes} {es : List (ℤ × Bytes)} (hl : SkipList.Lists db pre es) (n : ℤ) :
    ∃ xs, SkipList.scan db pre n = .ok xs ∧ ∀ x ∈ xs, ∃ e ∈ es, IsNode x e := by
  cases hl with
  | empty hes hempty =>
    exact ⟨[], SkipList.scan_of_empty hempty.head n, fun x hx => absurd hx List.not_mem_nil⟩
  | chain h ns hr hperm hlast =>
    refine ⟨_, hr.scan_records n, fun x hx => ?_⟩
    obtain ⟨e, he, hnode⟩ := exists_of_forall₂ (SkipList.forall₂_records hr.clean)
      (List.mem_of_mem_take hx)
    exact ⟨e, hperm.mem_iff.mp he, hnode⟩

theorem Holds.parseVersions (h : Holds db heads ws) {xs : List Bytes}
    (hxs : ∀ x ∈ xs, ∃ e ∈ (writesOf key ws).map Version.entry, IsNode x e) :
    ∃ vs, LedgerDB.parseVersions xs = .ok vs ∧ ∀ f ∈ vs, ∃ w ∈ writesOf key ws, w.found = f := by
  induction xs with
  | nil => exact ⟨[], rfl, fun f hf => absurd hf List.not_mem_nil⟩
  | cons x xs ih =>
    obtain ⟨vs, hvs, hall⟩ := ih fun x hx => hxs x (List.mem_cons_of_mem _ hx)
    obtain ⟨e, he, hx⟩ := hxs x List.mem_cons_self
    obtain ⟨w, hw, rfl⟩ := List.mem_map.mp he
    obtain ⟨node, hparse, -, hvalue⟩ := parse_isNode hx (h.plain w (mem_writesOf.mp hw).1)
    refine ⟨w.found :: vs, ?_, fun f hf => ?_⟩
    · simp only [LedgerDB.parseVersions, hparse, ok_bind, hvalue, hvs]
      rfl
    · rcases List.mem_cons.mp hf with rfl | hf
      · exact ⟨w, hw, rfl⟩
      · exact hall f hf

theorem Holds.getVersions (h : Holds s.db s.skiplistHead ws) (n : ℤ) (keys : List Bytes) :
    ∃ vss, s.getVersions n keys = .ok vss ∧
      List.Forall₂ (fun key vs => ∀ f ∈ vs, ∃ w ∈ writesOf key ws, w.found = f) keys vss := by
  induction keys with
  | nil => exact ⟨[], rfl, List.Forall₂.nil⟩
  | cons key keys ih =>
    obtain ⟨vss, hvss, hall⟩ := ih
    obtain ⟨xs, hscan, hxs⟩ := scan_isNode (h.lists key) n
    obtain ⟨vs, hvs, hw⟩ := h.parseVersions hxs
    rw [listKey] at hscan
    refine ⟨vs :: vss, ?_, List.Forall₂.cons hw hall⟩
    simp only [LedgerDB.getVersions, hscan, ok_bind, hvs, hvss]
    rfl

/-- The keys of `skiplist_head_` were written. -/
theorem Holds.exists_last (h : Holds db heads ws) {e : Bytes × ℤ} (he : e ∈ heads) :
    ∃ w ∈ (writesOf e.1 ws).getLast?, w.entry.1 = e.2 := by
  have hlookup : heads.lookup e.1 = some e.2 := StdMap.lookup_of_mem h.ordered he
  rw [h.last] at hlookup
  obtain ⟨w, hw, heq⟩ := Option.map_eq_some_iff.mp hlookup
  exact ⟨w, hw, heq⟩

theorem Holds.rangeLoop (h : Holds db heads ws) (toIt it : StdMap ℤ) (hit : ∀ e ∈ it, e ∈ heads)
    {values : StdMap Found} (hvalues : ∀ e ∈ values, ∃ w ∈ writesOf e.1 ws, w.found = e.2) :
    ∃ m, LedgerDB.rangeLoop db toIt it values = .ok m ∧
      ∀ e ∈ m, ∃ w ∈ writesOf e.1 ws, w.found = e.2 := by
  induction it generalizing values with
  | nil => exact ⟨values, rfl, hvalues⟩
  | cons e it ih =>
    obtain ⟨key, searchKey⟩ := e
    rw [LedgerDB.rangeLoop]
    split_ifs
    · exact ⟨values, rfl, hvalues⟩
    · obtain ⟨w, hw, hkey⟩ := h.exists_last (hit (key, searchKey) List.mem_cons_self)
      obtain ⟨-, hplain, x, hfind, hx⟩ := h.find_last hw
      obtain ⟨node, hparse, hnode, hvalue⟩ := parse_isNode hx hplain
      rw [hnode, hkey] at hvalue
      rw [hkey, listKey] at hfind
      simp only [hfind, ok_bind, hparse, hvalue]
      apply ih fun e he => hit e (List.mem_cons_of_mem _ he)
      intro e he
      rcases StdMap.mem_emplace he with rfl | he
      · exact ⟨w, List.mem_of_getLast? hw, rfl⟩
      · exact hvalues e he

theorem Holds.readsWrites (h : Holds s.db s.skiplistHead ws) : ReadsWrites s ws where
  values _ _ hw := h.getValues hw
  versions n keys := h.getVersions n keys
  range _ _ := h.rangeLoop _ _ (fun _ he => (List.dropWhile_sublist _).subset he)
    fun _ he => absurd he List.not_mem_nil

/-! ### Runs of calls -/

theorem written_concat (cs : List SetCall) (c : SetCall) :
    written (cs ++ [c]) = (written cs).set c := by
  rw [written, List.foldl_append]
  rfl

theorem setAll_concat (cs : List SetCall) (c : SetCall) :
    setAll {} (cs ++ [c]) = setAll {} cs >>= c.run := by
  rw [setAll, List.foldlM_append]
  congr 1
  ext1 s
  rw [List.foldlM_cons]
  cases c.run s <;> rfl

theorem SetCalls.init (h : SetCalls (cs ++ [c])) : SetCalls cs where
  values c' hc' := h.values c' (List.mem_append_left _ hc')
  distinct := by
    have hdistinct := h.distinct
    rw [written_concat, Written.set] at hdistinct
    split_ifs at hdistinct
    · exact hdistinct
    · exact hdistinct.sublist ((List.sublist_append_left _ _).map _)

theorem SetCalls.of_prefix {pre : List SetCall} (h : SetCalls cs) (hpre : pre <+: cs) :
    SetCalls pre := by
  obtain ⟨rest, rfl⟩ := hpre
  induction rest using List.reverseRecOn with
  | nil => rwa [List.append_nil] at h
  | append_singleton rest c ih =>
    rw [← List.append_assoc] at h
    exact ih h.init

/-- Plain values keep the invariant. -/
theorem SetCalls.state (h : SetCalls cs) (hclean : ∀ c ∈ cs, c.Clean) :
    ∃ s, setAll {} cs = .ok s ∧ State s (written cs) := by
  induction cs using List.reverseRecOn with
  | nil => exact ⟨{}, rfl, rfl, holds_empty⟩
  | append_singleton cs c ih =>
    obtain ⟨s, hrun, hs⟩ := ih h.init fun c' hc' => hclean c' (List.mem_append_left _ hc')
    have hc : c ∈ cs ++ [c] := List.mem_append_right _ (List.mem_singleton_self c)
    have hdistinct := h.distinct
    rw [written_concat] at hdistinct ⊢
    obtain ⟨s', hstep, hs'⟩ := hs.set (h.values c hc) (hclean c hc) hdistinct
    refine ⟨s', ?_, hs'⟩
    rw [setAll_concat, hrun]
    exact hstep

/-- The last write of a key in a call is the only one. -/
theorem getLast?_writesOf {blk : ℕ}
    (hdistinct : ((ws ++ c.writes blk).map fun w => (w.key, w.timestamp)).Nodup)
    (hw : w ∈ c.writes blk) : (writesOf w.key (ws ++ c.writes blk)).getLast? = some w := by
  rw [List.map_append, List.nodup_append] at hdistinct
  have hmem : w ∈ writesOf w.key (c.writes blk) := mem_writesOf.mpr ⟨hw, rfl⟩
  rw [writesOf_append, List.getLast?_append_of_ne_nil _ (List.ne_nil_of_mem hmem),
    List.getLast?_eq_getLast_of_ne_nil (List.ne_nil_of_mem hmem)]
  obtain ⟨hlast, hkey⟩ := mem_writesOf.mp (List.getLast_mem (List.ne_nil_of_mem hmem))
  have htime (w : Version) (hw : w ∈ c.writes blk) : w.timestamp = c.timestamp := by
    obtain ⟨e, -, rfl⟩ := List.mem_map.mp hw
    rfl
  congr 1
  apply List.inj_on_of_nodup_map hdistinct.2.1 hlast hw
  rw [hkey, htime _ hlast, htime _ hw]

/-- A call after which the ledger returns what was written had plain values. -/
theorem clean_of_readsWrites {w : Written}
    (hdistinct : ((w.set c).writes.map fun w => (w.key, w.timestamp)).Nodup)
    (hreads : ReadsWrites s (w.set c).writes) : c.Clean := by
  intro e he
  by_cases hkeys : c.keys.length = 0
  · rw [List.length_eq_zero_iff.mp hkeys, List.zip_nil_left] at he
    cases he
  · rw [Written.set, if_neg hkeys] at hdistinct hreads
    have hw : (⟨e.1, c.timestamp, w.blocks, e.2⟩ : Version) ∈ c.writes w.blocks :=
      List.mem_map_of_mem he
    obtain ⟨s', hget⟩ := hreads.values e.1 _ (getLast?_writesOf hdistinct hw)
    rw [LedgerDB.getValues] at hget
    obtain ⟨⟨f, s₁⟩, hvalue, hget⟩ := bind_eq_ok_iff.mp hget
    obtain ⟨⟨fs, s₂⟩, -, hget⟩ := bind_eq_ok_iff.mp hget
    obtain ⟨hf, -⟩ := Prod.mk.inj (Except.ok.inj hget)
    have hplain := plain_getValue hvalue
    rw [(List.cons.inj hf).1] at hplain
    exact hplain

/-- **The ledger returns what was written** exactly if no value contains an `@` or a bar. -/
theorem readYourWrites_iff (h : SetCalls cs) : ReadYourWrites cs ↔ ∀ c ∈ cs, c.Clean := by
  constructor
  · intro hreads
    induction cs using List.reverseRecOn with
    | nil => exact fun c hc => absurd hc List.not_mem_nil
    | append_singleton cs c ih =>
      have hinit := ih h.init fun pre hpre => hreads pre (hpre.trans (List.prefix_append _ _))
      obtain ⟨s, -, hs⟩ := hreads _ (List.prefix_refl _)
      have hdistinct := h.distinct
      rw [written_concat] at hdistinct hs
      intro c' hc'
      rcases List.mem_append.mp hc' with hc' | hc'
      · exact hinit c' hc'
      · rw [List.mem_singleton.mp hc']
        exact clean_of_readsWrites hdistinct hs
  · intro hclean pre hpre
    obtain ⟨s, hrun, hs⟩ := (h.of_prefix hpre).state fun c hc => hclean c (hpre.subset hc)
    exact ⟨s, hrun, hs.holds.readsWrites⟩

/-- A value with an `@`. -/
def mailCalls : List SetCall := [⟨[str "k"], [str "a@b"], 5, []⟩]

/-- A key that is written twice, the second time with an older timestamp. -/
def twoCalls : List SetCall :=
  [⟨[str "k|1"], [str "a"], 7, []⟩, ⟨[str "j", str "k|1"], [str "b", []], 5, []⟩]

theorem readYourWrites_two : ReadYourWrites twoCalls := by
  refine (readYourWrites_iff ⟨by decide, by decide⟩).mpr ?_
  have hplain : ∀ c ∈ twoCalls, ∀ e ∈ c.keys.zip c.values,
      (124 : UInt8) ∉ e.2 ∧ (64 : UInt8) ∉ e.2 := by decide
  intro c hc e he
  exact ⟨(hplain c hc e he).1, (hplain c hc e he).2⟩

/-- The text after the second `@` is lost. -/
theorem mail_truncated : SetCalls mailCalls ∧ ¬ ReadYourWrites mailCalls := by
  refine ⟨⟨by decide, by decide⟩, fun hreads => ?_⟩
  obtain ⟨s, hrun, hs⟩ := hreads mailCalls (List.prefix_refl _)
  obtain ⟨s', hget⟩ := hs.values (str "k") ⟨str "k", 5, 0, str "a@b"⟩ (by decide)
  have hread : ((setAll {} mailCalls).bind fun s => s.getValues [str "k"]).map (·.1) =
      .ok [⟨5, 0, str "a"⟩] := by decide +kernel
  rw [hrun] at hread
  change (s.getValues [str "k"]).map (·.1) = _ at hread
  rw [hget] at hread
  have hval := congrArg Found.val (List.cons.inj (Except.ok.inj hread)).1
  exact absurd hval (by decide)

end LedgerDatabase.Ledgerdb.LedgerDB
