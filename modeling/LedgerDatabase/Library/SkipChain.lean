import Mathlib.Data.List.TakeWhile
import Mathlib.Tactic.Common

/-!
# Chains with levels

The nodes of a skip list as the list in which the links of level zero connect them.  A node of
level `l` takes part in the lists of all levels below `l`, so the link of level `i` goes to the next
node with a greater level (`next`).

A new node belongs behind the nodes that are to be passed.  `Passable` is what the order of the nodes
is needed for: the nodes to be passed stand in front of all others, so that a search may skip nodes
on any level.
-/

namespace SkipChain

/-- A node. -/
structure Node (K V : Type*) where
  key : K
  val : V
  level : ℕ
  deriving DecidableEq

variable {K V : Type*} {i j : ℕ} {a b ns : List (Node K V)} {n new : Node K V} {k : K}

/-- The key behind a link of level `i` into the chain `ns`. -/
def next (i : ℕ) (ns : List (Node K V)) : Option K := (ns.find? fun n => i < n.level).map (·.key)

@[simp]
theorem next_nil : next i ([] : List (Node K V)) = none := rfl

theorem next_eq_none : next i ns = none ↔ ∀ n ∈ ns, n.level ≤ i := by
  simp [next]

/-- A link skips the nodes of lower levels. -/
theorem next_eq_some :
    next i ns = some k ↔ ∃ a n b, ns = a ++ n :: b ∧ (∀ m ∈ a, m.level ≤ i) ∧ i < n.level ∧ n.key = k := by
  rw [next, Option.map_eq_some_iff]
  constructor
  · rintro ⟨n, hn, rfl⟩
    obtain ⟨hlevel, a, b, hns, ha⟩ := List.find?_eq_some_iff_append.mp hn
    exact ⟨a, n, b, hns, by simpa using ha, by simpa using hlevel, rfl⟩
  · rintro ⟨a, n, b, hns, ha, hlevel, rfl⟩
    refine ⟨n, List.find?_eq_some_iff_append.mpr ⟨by simpa using hlevel, a, b, hns, ?_⟩, rfl⟩
    simpa using ha

/-- A link that ends in the first part does not see the second one. -/
theorem next_append_of_mem (hn : n ∈ a) (hlevel : i < n.level) : next i (a ++ b) = next i a := by
  rw [next, next, List.find?_append]
  cases hfind : a.find? fun n => decide (i < n.level) with
  | some m => rfl
  | none =>
    have := List.find?_eq_none.mp hfind n hn
    simp [hlevel] at this

/-- A link that finds nothing in the first part goes on in the second one. -/
theorem next_append_of_forall (ha : ∀ n ∈ a, n.level ≤ i) : next i (a ++ b) = next i b := by
  have hfind : (a.find? fun n => decide (i < n.level)) = none := by
    simpa using ha
  rw [next, next, List.find?_append, hfind, Option.none_or]

theorem next_cons_of_lt (hlevel : i < n.level) : next i (n :: ns) = some n.key := by
  simp [next, hlevel]

theorem next_cons_of_le (hlevel : n.level ≤ i) : next i (n :: ns) = next i ns := by
  simp [next, hlevel]

/-- A new node in the second part is not seen by a link that ends before it. -/
theorem next_insert_of_mem (hn : n ∈ a) (hlevel : i < n.level) :
    next i (a ++ new :: b) = next i (a ++ b) := by
  rw [next_append_of_mem hn hlevel, next_append_of_mem hn hlevel]

/-- A new node is not seen on the levels that it does not take part in. -/
theorem next_insert_of_le (hlevel : new.level ≤ i) : next i (a ++ new :: b) = next i (a ++ b) := by
  by_cases ha : ∀ n ∈ a, n.level ≤ i
  · rw [next_append_of_forall ha, next_append_of_forall ha, next_cons_of_le hlevel]
  · push Not at ha
    obtain ⟨n, hn, hlt⟩ := ha
    exact next_insert_of_mem hn hlt

/-- The predecessor of a new node on a level. -/
theorem next_insert_of_forall (ha : ∀ n ∈ a, n.level ≤ i) (hlevel : i < new.level) :
    next i (a ++ new :: b) = some new.key := by
  rw [next_append_of_forall ha, next_cons_of_lt hlevel]

/-! ### Searches -/

/-- Every node that is to be passed has only such nodes before it. -/
def Passable (pass : K → Prop) (ns : List (Node K V)) : Prop :=
  ns.Pairwise fun m n => pass n.key → pass m.key

variable {pass : K → Prop} [DecidablePred pass]

/-- The nodes that a search passes. -/
def passed (pass : K → Prop) [DecidablePred pass] (ns : List (Node K V)) : List (Node K V) :=
  ns.takeWhile fun n => pass n.key

/-- The nodes where it stops. -/
def stopped (pass : K → Prop) [DecidablePred pass] (ns : List (Node K V)) : List (Node K V) :=
  ns.dropWhile fun n => pass n.key

theorem passed_append_stopped (pass : K → Prop) [DecidablePred pass] (ns : List (Node K V)) :
    passed pass ns ++ stopped pass ns = ns := List.takeWhile_append_dropWhile

theorem pass_of_mem_passed (h : n ∈ passed pass ns) : pass n.key := by
  simpa using List.mem_takeWhile_imp h

omit [DecidablePred pass] in
theorem Passable.tail (h : Passable pass (n :: ns)) : Passable pass ns :=
  (List.pairwise_cons.mp h).2

theorem not_pass_of_mem_stopped (h : Passable pass ns) (hn : n ∈ stopped pass ns) :
    ¬ pass n.key := by
  induction ns with
  | nil => cases hn
  | cons m ns ih =>
    rw [stopped, List.dropWhile_cons] at hn
    by_cases hm : pass m.key
    · rw [if_pos (by simpa using hm)] at hn
      exact ih h.tail hn
    · rw [if_neg (by simpa using hm)] at hn
      rcases List.mem_cons.mp hn with rfl | hn
      · exact hm
      · exact fun hpass => hm ((List.pairwise_cons.mp h).1 n hn hpass)

/-- Where a search stops is determined by what it has passed. -/
theorem stopped_append (ha : ∀ n ∈ a, pass n.key) (hb : ∀ n ∈ b.head?, ¬ pass n.key) :
    stopped pass (a ++ b) = b := by
  rw [stopped, List.dropWhile_append_of_pos fun n hn => by simpa using ha n hn]
  cases b with
  | nil => rfl
  | cons n b => exact List.dropWhile_cons_of_neg (by simpa using hb n rfl)

/-- The chain with a new node behind those that are to be passed. -/
def insert (pass : K → Prop) [DecidablePred pass] (new : Node K V) (ns : List (Node K V)) :
    List (Node K V) :=
  passed pass ns ++ new :: stopped pass ns

theorem perm_insert (pass : K → Prop) [DecidablePred pass] (new : Node K V) (ns : List (Node K V)) :
    (insert pass new ns).Perm (new :: ns) := by
  have h : (passed pass ns ++ new :: stopped pass ns).Perm (new :: (passed pass ns ++ stopped pass ns)) :=
    List.perm_middle
  rwa [passed_append_stopped] at h

end SkipChain
