import Mathlib.Data.List.Induction
import Mathlib.Tactic.Common

/-!
# Runs of a transition system

A system is a partial function `step` from a state and a label to the next state; `runs step s
labels` is the state after all the labels.  An invariant is shown by `runs_induction`: it holds of
the first state and every step keeps it, where the step may use that it is taken in a reachable
state.
-/

namespace Run

variable {σ ℓ : Type*} (step : σ → ℓ → Option σ)

/-- The state after the steps `labels`, if all of them can be taken. -/
def runs (s : σ) : List ℓ → Option σ
  | [] => some s
  | l :: labels => (step s l).bind fun s' => runs s' labels

variable {step}

@[simp]
theorem runs_nil (s : σ) : runs step s [] = some s := rfl

theorem runs_append (s : σ) (labels labels' : List ℓ) :
    runs step s (labels ++ labels') = (runs step s labels).bind fun s' => runs step s' labels' := by
  induction labels generalizing s with
  | nil => rfl
  | cons l labels ih =>
    rw [List.cons_append, runs, runs, Option.bind_assoc]
    congr 1
    ext1 s'
    exact ih s'

theorem runs_concat (s : σ) (labels : List ℓ) (l : ℓ) :
    runs step s (labels ++ [l]) = (runs step s labels).bind fun s' => step s' l := by
  rw [runs_append]
  congr 1
  ext1 s'
  rw [runs]
  cases step s' l <;> rfl

/-- A run with a last step is a run up to the state in which that step is taken. -/
theorem runs_concat_eq_some {s s' : σ} {labels : List ℓ} {l : ℓ} :
    runs step s (labels ++ [l]) = some s' ↔
      ∃ s₁, runs step s labels = some s₁ ∧ step s₁ l = some s' := by
  rw [runs_concat, Option.bind_eq_some_iff]

/-- **Induction over a run**, from its first to its last step. -/
theorem runs_induction {s₀ : σ} {motive : List ℓ → σ → Prop} (nil : motive [] s₀)
    (concat : ∀ labels l s s', runs step s₀ labels = some s → motive labels s →
      step s l = some s' → motive (labels ++ [l]) s')
    {labels : List ℓ} {s : σ} (h : runs step s₀ labels = some s) : motive labels s := by
  induction labels using List.reverseRecOn generalizing s with
  | nil =>
    obtain rfl := Option.some.inj h
    exact nil
  | append_singleton labels l ih =>
    obtain ⟨s₁, h₁, hstep⟩ := runs_concat_eq_some.mp h
    exact concat labels l s₁ s h₁ (ih h₁) hstep

/-- An invariant that every step keeps holds after every run. -/
theorem runs_inv {s₀ : σ} {P : σ → Prop} (h₀ : P s₀)
    (hstep : ∀ s l s', P s → step s l = some s' → P s') {labels : List ℓ} {s : σ}
    (h : runs step s₀ labels = some s) : P s :=
  runs_induction (motive := fun _ s => P s) h₀ (fun _ l s s' _ hs => hstep s l s' hs) h

/-- The steps before a given one form a run of their own. -/
theorem runs_split {s₀ s : σ} {labels : List ℓ} (h : runs step s₀ labels = some s) {i : ℕ} {l : ℓ}
    (hl : labels[i]? = some l) :
    ∃ s₁ s₂, runs step s₀ (labels.take i) = some s₁ ∧ step s₁ l = some s₂ ∧
      runs step s₂ (labels.drop (i + 1)) = some s := by
  obtain ⟨hi, hget⟩ := List.getElem?_eq_some_iff.mp hl
  have hcut : labels = labels.take i ++ l :: labels.drop (i + 1) := by
    rw [← hget, List.getElem_cons_drop, List.take_append_drop]
  rw [hcut, runs_append, Option.bind_eq_some_iff] at h
  obtain ⟨s₁, h₁, hrest⟩ := h
  rw [runs, Option.bind_eq_some_iff] at hrest
  obtain ⟨s₂, hstep, hrest⟩ := hrest
  exact ⟨s₁, s₂, h₁, hstep, hrest⟩

/-! ### Runs with a record -/

/-- The system that also keeps a list of what its steps put out. -/
def observe {β : Type*} (step : σ → ℓ → Option σ) (out : σ → ℓ → List β) (s : σ × List β) (l : ℓ) :
    Option (σ × List β) :=
  (step s.1 l).map fun s' => (s', s.2 ++ out s.1 l)

theorem observe_eq_some {β : Type*} {out : σ → ℓ → List β} {s s' : σ × List β} {l : ℓ} :
    observe step out s l = some s' ↔ step s.1 l = some s'.1 ∧ s'.2 = s.2 ++ out s.1 l := by
  rw [observe, Option.map_eq_some_iff]
  constructor
  · rintro ⟨t, hstep, rfl⟩
    exact ⟨hstep, rfl⟩
  · rintro ⟨hstep, hout⟩
    exact ⟨s'.1, hstep, Prod.ext rfl hout.symm⟩

/-! ### Conditions on the steps -/

/-- Every step of a run is taken in a state where the condition `P` holds of it. -/
def Along (step : σ → ℓ → Option σ) (P : σ → ℓ → Prop) (s : σ) : List ℓ → Prop
  | [] => True
  | l :: labels => P s l ∧ ∀ s' ∈ step s l, Along step P s' labels

instance Along.decidable {P : σ → ℓ → Prop} [∀ s l, Decidable (P s l)] (s : σ) :
    ∀ labels : List ℓ, Decidable (Along step P s labels)
  | [] => .isTrue trivial
  | l :: labels =>
    have : ∀ s', Decidable (Along step P s' labels) := fun s' => Along.decidable s' labels
    inferInstanceAs (Decidable (P s l ∧ ∀ s' ∈ step s l, Along step P s' labels))

theorem along_concat {P : σ → ℓ → Prop} {s : σ} {labels : List ℓ} {l : ℓ} :
    Along step P s (labels ++ [l]) ↔
      Along step P s labels ∧ ∀ s' ∈ runs step s labels, P s' l := by
  induction labels generalizing s with
  | nil => simp [Along]
  | cons l' labels ih =>
    rw [List.cons_append, Along, Along, runs]
    cases hstep : step s l' with
    | none => simp
    | some s' => simp [ih, and_assoc]

theorem Along.of_prefix {P : σ → ℓ → Prop} {s : σ} {labels pre : List ℓ}
    (h : Along step P s labels) (hpre : pre <+: labels) : Along step P s pre := by
  induction pre generalizing s labels with
  | nil => trivial
  | cons l pre ih =>
    obtain ⟨rest, rfl⟩ := hpre
    exact ⟨h.1, fun s' hs' => ih (h.2 s' hs') (List.prefix_append _ _)⟩

/-- **Induction over a run** whose steps meet a condition. -/
theorem runs_induction_along {s₀ : σ} {P : σ → ℓ → Prop} {motive : List ℓ → σ → Prop}
    (nil : motive [] s₀)
    (concat : ∀ labels l s s', runs step s₀ labels = some s → motive labels s → P s l →
      step s l = some s' → motive (labels ++ [l]) s')
    {labels : List ℓ} {s : σ} (hP : Along step P s₀ labels) (h : runs step s₀ labels = some s) :
    motive labels s := by
  induction labels using List.reverseRecOn generalizing s with
  | nil =>
    obtain rfl := Option.some.inj h
    exact nil
  | append_singleton labels l ih =>
    obtain ⟨s₁, h₁, hstep⟩ := runs_concat_eq_some.mp h
    obtain ⟨hlabels, hl⟩ := along_concat.mp hP
    exact concat labels l s₁ s h₁ (ih hlabels h₁) (hl s₁ h₁) hstep

/-- When every step from a good reachable state leads to a good state exactly if the condition
holds of it, then all states of a run are good exactly if the condition holds of all its steps. -/
theorem along_iff {s₀ : σ} {P : σ → ℓ → Prop} {Q : σ → Prop} (h₀ : Q s₀)
    (hstep : ∀ labels l s s', runs step s₀ labels = some s → step s l = some s' → Q s →
      (Q s' ↔ P s l))
    {labels : List ℓ} {s : σ} (h : runs step s₀ labels = some s) :
    (∀ pre s', pre <+: labels → runs step s₀ pre = some s' → Q s') ↔
      Along step P s₀ labels := by
  induction labels using List.reverseRecOn generalizing s with
  | nil =>
    refine iff_of_true (fun pre s' hpre hs' => ?_) trivial
    rw [List.prefix_nil.mp hpre] at hs'
    exact Option.some.inj hs' ▸ h₀
  | append_singleton labels l ih =>
    obtain ⟨s₁, h₁, hs⟩ := runs_concat_eq_some.mp h
    rw [along_concat, ← ih h₁, h₁]
    constructor
    · intro hQ
      refine ⟨fun pre s' hpre => hQ pre s' (hpre.trans (List.prefix_append _ _)), ?_⟩
      intro s₂ hs₂
      obtain rfl := Option.some.inj hs₂
      have hQ₁ := hQ labels s₁ (List.prefix_append _ _) h₁
      exact (hstep labels l s₁ s h₁ hs hQ₁).mp (hQ _ s (List.prefix_refl _) h)
    · rintro ⟨hQ, hP⟩ pre s' hpre hs'
      rcases List.prefix_concat_iff.mp hpre with rfl | hpre
      · have hQ₁ := hQ labels _ (List.prefix_refl _) h₁
        rw [h] at hs'
        obtain rfl := Option.some.inj hs'
        exact (hstep labels l _ _ h₁ hs hQ₁).mpr (hP s₁ rfl)
      · exact hQ pre s' hpre hs'

/-- When an invariant is kept by the steps that meet a condition, and other steps lead out of the
good states, then all states of a run are good exactly if the condition holds of all its steps. -/
theorem along_iff_of_inv {s₀ : σ} {P : σ → ℓ → Prop} {Inv Q : σ → Prop} (h₀ : Inv s₀)
    (hgood : ∀ s, Inv s → Q s) (hinv : ∀ s l s', Inv s → P s l → step s l = some s' → Inv s')
    (hbad : ∀ s l s', Inv s → ¬ P s l → step s l = some s' → ¬ Q s')
    {labels : List ℓ} {s : σ} (h : runs step s₀ labels = some s) :
    (∀ pre s', pre <+: labels → runs step s₀ pre = some s' → Q s') ↔
      Along step P s₀ labels := by
  have hreach {labels : List ℓ} {s : σ} (hP : Along step P s₀ labels)
      (h : runs step s₀ labels = some s) : Inv s :=
    runs_induction_along (motive := fun _ s => Inv s) h₀
      (fun _ l s s' _ hs hl hstep => hinv s l s' hs hl hstep) hP h
  constructor
  · intro hQ
    induction labels using List.reverseRecOn generalizing s with
    | nil => trivial
    | append_singleton labels l ih =>
      obtain ⟨s₁, h₁, hs⟩ := runs_concat_eq_some.mp h
      have hlabels := ih h₁ fun pre s' hpre => hQ pre s' (hpre.trans (List.prefix_append _ _))
      refine along_concat.mpr ⟨hlabels, fun s₂ hs₂ => ?_⟩
      obtain rfl := Option.some.inj (h₁.symm.trans hs₂)
      by_contra hl
      exact hbad s₁ l s (hreach hlabels h₁) hl hs (hQ _ s (List.prefix_refl _) h)
  · intro hP pre s' hpre hs'
    exact hgood s' (hreach (hP.of_prefix hpre) hs')

end Run
