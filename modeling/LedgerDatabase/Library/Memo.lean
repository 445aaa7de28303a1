import Mathlib.Data.List.Induction
import Mathlib.Tactic.Common

/-!
# Cells that remember an answer

A cell stands in front of something whose value `val` depends on the events so far.  An event that
`fills` it reads the cell, and enters the value of that moment when the cell is empty; an event that
`drops` it empties it.  Such a cell shows the right value at every reading exactly if the value is
the same at any two readings with no emptying in between (`transparent_iff`).
-/

/-- Which events read a cell, which empty it, and the value that is to be read. -/
structure Memo (α β : Type*) where
  fills : α → Prop
  drops : α → Prop
  val : List α → β
  not_drops : ∀ a, fills a → ¬ drops a

namespace Memo

variable {α β : Type*}

/-- `cell` is the content of the cell after a list of events. -/
structure Holds (m : Memo α β) (cell : List α → Option β) : Prop where
  nil : cell [] = none
  drop : ∀ l a, m.drops a → cell (l ++ [a]) = none
  fill : ∀ l a, m.fills a → cell (l ++ [a]) = some ((cell l).getD (m.val l))
  keep : ∀ l a, ¬ m.drops a → ¬ m.fills a → cell (l ++ [a]) = cell l

variable {m : Memo α β} {cell : List α → Option β}

/-- What a cell holds was the value at an event that read it, and nothing emptied it since. -/
theorem Holds.eq_some (h : m.Holds cell) {l : List α} {b : β} (hb : cell l = some b) :
    ∃ pre a mid, l = pre ++ a :: mid ∧ m.fills a ∧ (∀ x ∈ mid, ¬ m.drops x) ∧ b = m.val pre := by
  induction l using List.reverseRecOn with
  | nil => rw [h.nil] at hb; cases hb
  | append_singleton l a ih =>
    by_cases hdrop : m.drops a
    · rw [h.drop l a hdrop] at hb
      cases hb
    have hold : cell l = some b → ∃ pre a' mid, l ++ [a] = pre ++ a' :: mid ∧ m.fills a' ∧
        (∀ x ∈ mid, ¬ m.drops x) ∧ b = m.val pre := by
      intro hl
      obtain ⟨pre, a', mid, rfl, hfill, hmid, hval⟩ := ih hl
      refine ⟨pre, a', mid ++ [a], by simp, hfill, ?_, hval⟩
      intro x hx
      rcases List.mem_append.mp hx with hx | hx
      · exact hmid x hx
      · rwa [List.mem_singleton.mp hx]
    by_cases hfill : m.fills a
    · rw [h.fill l a hfill] at hb
      cases hl : cell l with
      | none =>
        rw [hl] at hb
        exact ⟨l, a, [], rfl, hfill, by simp, (Option.some.inj hb).symm⟩
      | some b' =>
        rw [hl] at hb
        exact hold (hl.trans hb)
    · rw [h.keep l a hdrop hfill] at hb
      exact hold hb

/-- A full cell keeps its content until it is emptied. -/
theorem Holds.of_not_drops (h : m.Holds cell) {l mid : List α} {b : β} (hl : cell l = some b)
    (hmid : ∀ x ∈ mid, ¬ m.drops x) : cell (l ++ mid) = some b := by
  induction mid using List.reverseRecOn with
  | nil => rwa [List.append_nil]
  | append_singleton mid a ih =>
    have hcell := ih fun x hx => hmid x (List.mem_append_left _ hx)
    have hdrop : ¬ m.drops a := hmid a (by simp)
    rw [← List.append_assoc]
    by_cases hfill : m.fills a
    · rw [h.fill _ a hfill, hcell]
      rfl
    · rw [h.keep _ a hdrop hfill, hcell]

/-- **A cell is transparent** exactly if the value is the same at any two readings with no emptying
in between. -/
theorem Holds.transparent_iff (h : m.Holds cell) (l : List α) :
    (∀ pre a post, l = pre ++ a :: post → m.fills a → (cell pre).getD (m.val pre) = m.val pre) ↔
      ∀ pre a mid a' post, l = pre ++ a :: (mid ++ a' :: post) → m.fills a → m.fills a' →
        (∀ x ∈ mid, ¬ m.drops x) → m.val (pre ++ a :: mid) = m.val pre := by
  constructor
  · intro hright pre a mid a' post hl hfill hfill' hmid
    have hfirst := hright pre a _ hl hfill
    -- the second reading still finds what the first one returned
    have hcell : cell (pre ++ a :: mid) = some (m.val pre) := by
      have := h.of_not_drops (h.fill pre a hfill) hmid
      rwa [hfirst, List.append_assoc] at this
    have hsecond := hright (pre ++ a :: mid) a' post (by simp [hl]) hfill'
    rw [hcell] at hsecond
    exact hsecond.symm
  · intro hsteady pre a post hl hfill
    cases hcell : cell pre with
    | none => rfl
    | some b =>
      obtain ⟨pre', a', mid, rfl, hfill', hmid, hval⟩ := h.eq_some hcell
      have := hsteady pre' a' mid a post (by simp [hl]) hfill' hfill hmid
      rw [Option.getD_some, hval, this]

end Memo
