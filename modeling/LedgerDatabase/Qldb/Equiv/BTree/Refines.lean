import LedgerDatabase.Qldb.Equiv.BTree.Range

/-!
# The B+ tree refines a map

Calls of one tree, and of others that are made later on the same store, leave a tree with the last
value of every key that was set (`refines_map`).
-/

namespace LedgerDatabase.Qldb.QLBTree

open DB (WritesIn)

variable {pre : Bytes} {es : StdMap Bytes} {db : DB} {cfg : BPlusConfig} {t : QLBTree}
  {batch : List (Bytes × Bytes)}

/-! ### Calls -/

/-- A call of the tree, or another tree on the same store. -/
inductive Op
  | set (batch : List (Bytes × Bytes))
  | get (key : Bytes)
  | range (start stop : Bytes)
  /-- `QLBTree(db, prefix)`. -/
  | reopen
  /-- `QLBTree(db, prefix)` with a new `DB`, the caches of which are empty. -/
  | restart
  deriving DecidableEq, Repr

/-- The tree and its store after a call. -/
def act (cfg : BPlusConfig) (s : QLBTree × DB) : Op → Except Fault (QLBTree × DB)
  | .set batch => (s.1.set cfg batch s.2).map Prod.snd
  | .get key => (s.1.get key s.2).map fun r => (s.1, r.2)
  | .range start stop => (s.1.range start stop s.2).map fun r => (s.1, r.2)
  | .reopen => ofDB s.2 s.1.pre
  | .restart => ofDB { rocks := s.2.rocks } s.1.pre

/-- The keys that a call sets, with their values. -/
def Op.puts : Op → List (Bytes × Bytes)
  | .set batch => batch
  | _ => []

/-- The last value that was set for a key. -/
def lastValue (puts : List (Bytes × Bytes)) (key : Bytes) : Option Bytes := puts.reverse.lookup key

/-! ### Entries -/

theorem lookup_assignAll_lastValue (k : Bytes) :
    (assignAll es batch).lookup k = (lastValue batch k).or (es.lookup k) := by
  induction batch generalizing es with
  | nil => rfl
  | cons e batch ih =>
    rw [assignAll_cons, ih, StdMap.lookup_assign, lastValue, lastValue, List.reverse_cons,
      List.lookup_append, Option.or_assoc, StdMap.lookup_cons_ite]
    congr 1
    split_ifs <;> rfl

theorem length_assignAll :
    (assignAll [] batch).length = (batch.map Prod.fst).toFinset.card := by
  have hord : (assignAll [] batch).Ordered := ordered_assignAll StdMap.ordered_nil
  have hkeys : (batch.map Prod.fst).toFinset = ((assignAll [] batch).map Prod.fst).toFinset := by
    ext k
    rw [List.mem_toFinset, List.mem_toFinset, mem_keys_assignAll]
    simp
  rw [hkeys, List.toFinset_card_of_nodup hord.nodup, List.length_map]

/-! ### Steps -/

/-- The tree has the entries, and its store would give them to another `DB` as well. -/
structure Holds (pre : Bytes) (es : StdMap Bytes) (s : QLBTree × DB) : Prop where
  pre : s.1.pre = pre
  represents : Represents s.1 s.2 es
  coherent : ∀ y, s.2.chunkAt y = s.2.getString y

theorem Holds.sameAnswers {s : QLBTree × DB} {db' : DB} (h : Holds pre es s)
    (hsame : s.2.SameAnswers db') : Holds pre es (s.1, db') := by
  refine ⟨h.pre, h.represents.sameAnswers hsame, fun y => ?_⟩
  rw [hsame.chunkAt, hsame.getString]
  exact h.coherent y

/-- **Another tree** on the same store is the same one. -/
theorem Represents.ofDB (h : Represents t db es) :
    ∃ db', QLBTree.ofDB db t.pre = .ok (t, db') ∧ db.SameAnswers db' := by
  obtain ⟨n, hnode⟩ := h.node
  refine ⟨_, ?_, DB.SameAnswers.getChunk db (rootId t.pre)⟩
  rcases h.stored with hroot | ⟨hnone, hempty⟩
  · unfold QLBTree.ofDB
    rw [DB.getChunk_eq, hroot]
    simp only [createFromChunk_node hnode, ok_bind]
    rfl
  · unfold QLBTree.ofDB
    rw [DB.getChunk_eq, hnone]
    simp only [pure_bind, ← hempty]
    rfl

/-- **A call** sets its keys, and keeps all others. -/
theorem Holds.act {s : QLBTree × DB} (h : Holds pre es s) (a : Op) (ha : NoInfi a.puts) :
    Outcome (· = Fault.oversize) (Holds pre (assignAll es a.puts)) (act cfg s a) := by
  cases a with
  | set batch =>
    show Outcome _ _ ((s.1.set cfg batch s.2).map Prod.snd)
    have hset : Outcome _ _ (s.1.set cfg batch s.2) := h.represents.set ha
    cases hrun : s.1.set cfg batch s.2 with
    | error e =>
      rw [hrun] at hset
      exact hset
    | ok r =>
      rw [hrun] at hset
      obtain ⟨-, hpre, hrep, hwrites⟩ := hset
      exact ⟨hpre.trans h.pre, hrep, fun y => hwrites.coherent y (h.coherent y)⟩
  | get key =>
    obtain ⟨db', hget, hsame⟩ := h.represents.get key
    rw [QLBTree.act, hget]
    exact h.sameAnswers hsame
  | range start stop =>
    obtain ⟨result, db', hrange, hsame, -⟩ := h.represents.range start stop
    rw [QLBTree.act, hrange]
    exact h.sameAnswers hsame
  | reopen =>
    obtain ⟨db', hopen, hsame⟩ := h.represents.ofDB
    rw [QLBTree.act, hopen]
    exact h.sameAnswers hsame
  | restart =>
    have hchunk : ∀ y, ({ rocks := s.2.rocks } : DB).chunkAt y = s.2.chunkAt y := fun y => by
      rw [h.coherent, DB.chunkAt_eq]
      rfl
    have hrep : Represents s.1 { rocks := s.2.rocks } es := h.represents.congr fun y _ => hchunk y
    obtain ⟨db', hopen, hsame⟩ := hrep.ofDB
    rw [QLBTree.act, hopen]
    have hcoh : Holds pre es (s.1, { rocks := s.2.rocks }) :=
      ⟨h.pre, hrep, fun y => (hchunk y).trans (h.coherent y)⟩
    exact hcoh.sameAnswers hsame

/-- **Calls** set their keys one after the other. -/
theorem Holds.foldlM_act {ops : List Op} (hops : ∀ a ∈ ops, NoInfi a.puts) :
    ∀ {es : StdMap Bytes} {s : QLBTree × DB}, Holds pre es s →
      Outcome (· = Fault.oversize) (Holds pre (assignAll es (ops.flatMap Op.puts)))
        (ops.foldlM (QLBTree.act cfg) s) := by
  induction ops with
  | nil => exact fun h => h
  | cons a ops ih =>
    intro es s h
    rw [List.foldlM_cons, List.flatMap_cons, assignAll, List.foldl_append]
    apply (h.act a (hops a List.mem_cons_self)).bind
    intro s' hs'
    exact ih (fun b hb => hops b (List.mem_cons_of_mem a hb)) hs'

/-- **The tree is an ordered map**: after calls on a new prefix, `Get` returns the last value that
was set, `Range` the entries between its two keys, and `numElements` counts the keys. -/
theorem refines_map (pre : Bytes) (rocks : List (Bytes × Bytes)) (ops : List Op)
    (hnew : rocks.lookup (rootId pre) = none) (hops : ∀ a ∈ ops, NoInfi a.puts) :
    Outcome (· = Fault.oversize)
      (fun s =>
        (∀ k, ∃ db', s.1.get k s.2 = .ok (lastValue (ops.flatMap Op.puts) k, db')) ∧
        (∀ a b, ∃ result db', s.1.range a b s.2 = .ok (result, db') ∧ result.Ordered ∧
          ∀ k, result.lookup k =
            if ¬ k < a ∧ ¬ b < k then lastValue (ops.flatMap Op.puts) k else none) ∧
        s.1.numElements = ((ops.flatMap Op.puts).map Prod.fst).toFinset.card)
      (ofDB { rocks } pre >>= fun s => ops.foldlM (act cfg) s) := by
  have hnone : ({ rocks } : DB).chunkAt (rootId pre) = none := hnew
  obtain ⟨db₁, hof, hsame, hempty⟩ := represents_new pre hnone
  have hholds : Holds pre [] (⟨pre, QLBTreeMap.emptyMap⟩, db₁) := by
    refine ⟨rfl, hempty, fun y => ?_⟩
    rw [hsame.chunkAt, hsame.getString]
    rfl
  rw [hof, ok_bind]
  apply (hholds.foldlM_act hops).mono
  intro s hs
  have hlookup : ∀ k, (assignAll [] (ops.flatMap Op.puts)).lookup k =
      lastValue (ops.flatMap Op.puts) k := fun k => by
    rw [lookup_assignAll_lastValue]
    exact Option.or_none
  refine ⟨fun k => ?_, fun a b => ?_, ?_⟩
  · obtain ⟨db', hget, -⟩ := hs.represents.get k
    rw [hlookup] at hget
    exact ⟨db', hget⟩
  · obtain ⟨result, db', hrange, -, hord, hres⟩ := hs.represents.range a b
    simp only [hlookup] at hres
    exact ⟨result, db', hrange, hord, hres⟩
  · rw [hs.represents.numElements]
    exact length_assignAll

/-- A key is set twice, and a new `DB` opens the tree. -/
theorem refines_map_restart :
    ∃ s, (ofDB {} (str "T") >>= fun s => [Op.set [(str "a", str "1"), (str "b", str "2"),
        (str "a", str "3")], .restart].foldlM (act { fanout := 1, leafFanout := 1 }) s) = .ok s ∧
      (∃ db', s.1.get (str "a") s.2 = .ok (some (str "3"), db')) ∧ s.1.numElements = 2 := by
  have hspec : Outcome _ _ (ofDB {} (str "T") >>= fun s => [Op.set [(str "a", str "1"),
      (str "b", str "2"), (str "a", str "3")], .restart].foldlM
        (act { fanout := 1, leafFanout := 1 }) s) :=
    refines_map (str "T") [] _ rfl (by unfold NoInfi; decide)
  have hok : (ofDB {} (str "T") >>= fun s => [Op.set [(str "a", str "1"), (str "b", str "2"),
      (str "a", str "3")], .restart].foldlM (act { fanout := 1, leafFanout := 1 }) s).toBool := by
    decide +kernel
  cases hrun : ofDB {} (str "T") >>= fun s => [Op.set [(str "a", str "1"), (str "b", str "2"),
      (str "a", str "3")], .restart].foldlM (act { fanout := 1, leafFanout := 1 }) s with
  | error e =>
    rw [hrun] at hok
    cases hok
  | ok s =>
    obtain ⟨hget, -, hnum⟩ := hspec.of_ok hrun
    exact ⟨s, rfl, hget (str "a"), hnum⟩

end LedgerDatabase.Qldb.QLBTree
