import Mathlib.Logic.Relation

/-!
# Programs that ask a store

`Ask Q R ε α` is a program that asks queries `q : Q`, continues with the answers in `R`, and
returns an `α` or fails with an `ε`.  One program has several meanings:

* `run view`: every query is answered by the fixed function `view`;
* `exec step`: answering a query changes a state, as a cache does;
* `Runs step env`: the same, while other parties change the state between the queries.

`runIn know` runs a program on partial knowledge: it has a result only when every query the
program asks is in the domain of `know`.  This is the frame rule of the development: a result
established from the known answers is the result under each of the meanings above, for as long as
the store keeps giving those answers (`run_eq_of_runIn`, `exec_of_runIn`, `runs_of_runIn`).
`Runs.inv` is the rule for what holds whatever the answers are.
-/

/-- A program that asks queries `Q`, gets answers `R`, and returns an `α` or fails. -/
inductive Ask (Q R ε α : Type)
  /-- Return a value. -/
  | done (a : α)
  /-- Fail. -/
  | fail (e : ε)
  /-- Ask `q` and continue with the answer. -/
  | ask (q : Q) (next : R → Ask Q R ε α)

namespace Ask

variable {Q R ε α β σ : Type}

/-- Sequencing. -/
def bind : Ask Q R ε α → (α → Ask Q R ε β) → Ask Q R ε β
  | done a, f => f a
  | fail e, _ => fail e
  | ask q next, f => ask q fun r => (next r).bind f

instance : Monad (Ask Q R ε) where
  pure := done
  bind := bind

/-- Ask one query. -/
def query (q : Q) : Ask Q R ε R := ask q done

/-- A computation that asks nothing. -/
def ofExcept : Except ε α → Ask Q R ε α
  | .ok a => done a
  | .error e => fail e

/-- The meaning under fixed answers. -/
def run (view : Q → R) : Ask Q R ε α → Except ε α
  | done a => .ok a
  | fail e => .error e
  | ask q next => (next (view q)).run view

/-- The result that the answers in `know` determine, if they determine one. -/
def runIn (know : Q → Option R) : Ask Q R ε α → Option (Except ε α)
  | done a => some (.ok a)
  | fail e => some (.error e)
  | ask q next =>
    match know q with
    | some r => (next r).runIn know
    | none => none

/-- The meaning when answering changes a state. -/
def exec (step : Q → σ → R × σ) : Ask Q R ε α → σ → Except ε α × σ
  | done a, s => (.ok a, s)
  | fail e, s => (.error e, s)
  | ask q next, s => (next (step q s).1).exec step (step q s).2

/-- The meaning when the environment may change the state before every query: the result, and the
state at the end. -/
inductive Runs (step : Q → σ → R × σ) (env : σ → σ → Prop) :
    Ask Q R ε α → σ → Except ε α → σ → Prop
  /-- The program has returned. -/
  | done (a : α) (s : σ) : Runs step env (done a) s (.ok a) s
  /-- The program has failed. -/
  | fail (e : ε) (s : σ) : Runs step env (fail e) s (.error e) s
  /-- The next query is answered in the current state. -/
  | ask {q : Q} {next : R → Ask Q R ε α} {s s' : σ} {r : Except ε α} :
    Runs step env (next (step q s).1) (step q s).2 r s' → Runs step env (ask q next) s r s'
  /-- The environment takes a step. -/
  | env {p : Ask Q R ε α} {s s₁ s' : σ} {r : Except ε α} :
    env s s₁ → Runs step env p s₁ r s' → Runs step env p s r s'

/-! ### Fixed answers -/

section Run

variable (view : Q → R)

@[simp] theorem run_pure (a : α) : (pure a : Ask Q R ε α).run view = .ok a := rfl

@[simp] theorem run_fail (e : ε) : (fail e : Ask Q R ε α).run view = .error e := rfl

@[simp] theorem run_query (q : Q) : (query q : Ask Q R ε R).run view = .ok (view q) := rfl

theorem run_ofExcept (x : Except ε α) : (ofExcept x : Ask Q R ε α).run view = x := by
  cases x <;> rfl

theorem run_bind (p : Ask Q R ε α) (f : α → Ask Q R ε β) :
    (p >>= f).run view = p.run view >>= fun a => (f a).run view := by
  induction p with
  | done a => rfl
  | fail e => rfl
  | ask q next ih => exact ih (view q)

/-- When answering a query does not change later answers, a run has the result under the answers
at its start. -/
theorem exec_fst_eq_run {step : Q → σ → R × σ}
    (hstep : ∀ q q' s, (step q (step q' s).2).1 = (step q s).1) (p : Ask Q R ε α) (s : σ) :
    (p.exec step s).1 = p.run fun q => (step q s).1 := by
  induction p generalizing s with
  | done a => rfl
  | fail e => rfl
  | ask q next ih =>
    rw [exec, ih, run]
    congr 1
    funext q'
    exact hstep q' q s

end Run

/-! ### Partial knowledge -/

section RunIn

variable (know : Q → Option R)

@[simp] theorem runIn_pure (a : α) : (pure a : Ask Q R ε α).runIn know = some (.ok a) := rfl

@[simp] theorem runIn_fail (e : ε) : (fail e : Ask Q R ε α).runIn know = some (.error e) := rfl

theorem runIn_ofExcept (x : Except ε α) :
    (ofExcept x : Ask Q R ε α).runIn know = some x := by
  cases x <;> rfl

theorem runIn_query {q : Q} {r : R} (h : know q = some r) :
    (query q : Ask Q R ε R).runIn know = some (.ok r) := by
  simp [query, runIn, h]

/-- A program that is known to return `a` hands `a` to what follows it. -/
theorem runIn_bind_ok {p : Ask Q R ε α} {a : α} (f : α → Ask Q R ε β)
    (h : p.runIn know = some (.ok a)) : (p >>= f).runIn know = (f a).runIn know := by
  induction p with
  | done a' => simp only [runIn, Option.some.injEq, Except.ok.injEq] at h; rw [h]; rfl
  | fail e => simp [runIn] at h
  | ask q next ih =>
    change (ask q fun r => (next r).bind f).runIn know = _
    simp only [runIn] at h ⊢
    cases hq : know q with
    | none => simp [hq] at h
    | some r => rw [hq] at h; exact ih r h

/-- A program that is known to fail skips what follows it. -/
theorem runIn_bind_error {p : Ask Q R ε α} {e : ε} (f : α → Ask Q R ε β)
    (h : p.runIn know = some (.error e)) : (p >>= f).runIn know = some (.error e) := by
  induction p with
  | done a' => simp [runIn] at h
  | fail e' =>
    simp only [runIn, Option.some.injEq, Except.error.injEq] at h
    rw [h]
    rfl
  | ask q next ih =>
    change (ask q fun r => (next r).bind f).runIn know = _
    simp only [runIn] at h ⊢
    cases hq : know q with
    | none => simp [hq] at h
    | some r => rw [hq] at h; exact ih r h

/-- A computation without queries that returns. -/
theorem runIn_ofExcept_bind_ok {x : Except ε α} {a : α} (f : α → Ask Q R ε β) (h : x = .ok a) :
    (ofExcept x >>= f).runIn know = (f a).runIn know := by
  rw [h]
  rfl

/-- A computation without queries that fails. -/
theorem runIn_ofExcept_bind_error {x : Except ε α} {e : ε} (f : α → Ask Q R ε β)
    (h : x = .error e) : (ofExcept x >>= f).runIn know = some (.error e) := by
  rw [h]
  rfl

theorem runIn_query_bind {q : Q} {r : R} (f : R → Ask Q R ε β) (h : know q = some r) :
    (query q >>= f).runIn know = (f r).runIn know :=
  runIn_bind_ok know f (runIn_query know h)

variable {know}

/-- A known result is the result under every answer function that agrees with the knowledge. -/
theorem run_eq_of_runIn {view : Q → R} (hview : ∀ q r, know q = some r → view q = r)
    {p : Ask Q R ε α} {x : Except ε α} (h : p.runIn know = some x) : p.run view = x := by
  induction p with
  | done a => simpa [runIn, run] using h
  | fail e => simpa [runIn, run] using h
  | ask q next ih =>
    simp only [runIn] at h
    cases hq : know q with
    | none => simp [hq] at h
    | some r =>
      rw [hq] at h
      rw [run, hview q r hq]
      exact ih r h

/-- A known result is the result of a run whose answers change the state, when an invariant
`good` of the state guarantees the known answers. -/
theorem exec_of_runIn {step : Q → σ → R × σ} (good : σ → Prop)
    (hstep : ∀ q r s, know q = some r → good s → (step q s).1 = r ∧ good (step q s).2)
    {p : Ask Q R ε α} {x : Except ε α} {s : σ} (h : p.runIn know = some x) (hs : good s) :
    (p.exec step s).1 = x ∧ good (p.exec step s).2 := by
  induction p generalizing s with
  | done a => exact ⟨by simpa [runIn, exec] using h, hs⟩
  | fail e => exact ⟨by simpa [runIn, exec] using h, hs⟩
  | ask q next ih =>
    simp only [runIn] at h
    cases hq : know q with
    | none => simp [hq] at h
    | some r =>
      rw [hq] at h
      obtain ⟨hans, hgood⟩ := hstep q r s hq hs
      rw [exec, hans]
      exact ih r h hgood

end RunIn

/-! ### Interleavings -/

section Runs

variable {step : Q → σ → R × σ} {env : σ → σ → Prop} {p : Ask Q R ε α} {s s' : σ}

/-- A program that asks nothing. -/
theorem Runs.pure_inv {a : α} {r : Except ε α} (h : Runs step env (pure a) s r s') : r = .ok a := by
  generalize hp : (pure a : Ask Q R ε α) = p at h
  induction h with
  | done a' s => cases hp; rfl
  | fail e s => cases hp
  | ask _ _ => cases hp
  | env _ _ ih => exact ih hp

theorem Runs.fail_inv {e : ε} {r : Except ε α} (h : Runs step env (.fail e) s r s') :
    r = .error e := by
  generalize hp : (Ask.fail e : Ask Q R ε α) = p at h
  induction h with
  | done a s => cases hp
  | fail e' s => cases hp; rfl
  | ask _ _ => cases hp
  | env _ _ ih => exact ih hp

/-- A run without steps of the environment. -/
theorem runs_exec (p : Ask Q R ε α) (s : σ) :
    Runs step env p s (p.exec step s).1 (p.exec step s).2 := by
  induction p generalizing s with
  | done a => exact .done a s
  | fail e => exact .fail e s
  | ask q next ih => exact .ask (ih _ _)

/-- Fixed answers, as a run that nobody disturbs. -/
theorem runs_run (view : Q → R) (p : Ask Q R ε α) :
    Runs (fun q (u : Unit) => (view q, u)) (fun _ _ => False) p () (p.run view) () := by
  induction p with
  | done a => exact .done a ()
  | fail e => exact .fail e ()
  | ask q next ih => exact .ask (ih (view q))

theorem Runs.eq_run {view : Q → R} {r : Except ε α} {u u' : Unit}
    (h : Runs (fun q (u : Unit) => (view q, u)) (fun _ _ => False) p u r u') : r = p.run view := by
  induction h with
  | done a u => rfl
  | fail e u => rfl
  | ask _ ih => exact ih
  | env he => exact he.elim

/-- A run that starts with a query answers it after some steps of the environment. -/
theorem Runs.ask_inv {q : Q} {next : R → Ask Q R ε α} {r : Except ε α}
    (h : Runs step env (.ask q next) s r s') :
    ∃ s₁, Relation.ReflTransGen env s s₁ ∧
      Runs step env (next (step q s₁).1) (step q s₁).2 r s' := by
  generalize hp : Ask.ask q next = p at h
  induction h with
  | done a s => cases hp
  | fail e s => cases hp
  | ask hnext _ =>
    obtain ⟨rfl, rfl⟩ := Ask.ask.inj hp
    exact ⟨_, .refl, hnext⟩
  | env he _ ih =>
    obtain ⟨s₁, hs₁, hr⟩ := ih hp
    exact ⟨s₁, .head he hs₁, hr⟩

/-- A run of two programs in sequence. -/
theorem Runs.bind_inv {f : α → Ask Q R ε β} {r : Except ε β}
    (h : Runs step env (p >>= f) s r s') :
    (∃ a s₁, Runs step env p s (.ok a) s₁ ∧ Runs step env (f a) s₁ r s') ∨
      ∃ e, r = .error e ∧ Runs step env p s (.error e) s' := by
  generalize hb : p >>= f = b at h
  induction h generalizing p with
  | done a s =>
    cases p with
    | done a' => exact Or.inl ⟨a', s, .done a' s, by change f a' = _ at hb; rw [hb]; exact .done a s⟩
    | fail e => cases hb
    | ask q next => cases hb
  | fail e s =>
    cases p with
    | done a' => exact Or.inl ⟨a', s, .done a' s, by change f a' = _ at hb; rw [hb]; exact .fail e s⟩
    | fail e' => cases hb; exact Or.inr ⟨e, rfl, .fail e s⟩
    | ask q next => cases hb
  | @ask q next s s' r hrun ih =>
    cases p with
    | done a' => exact Or.inl ⟨a', s, .done a' s, by change f a' = _ at hb; rw [hb]; exact .ask hrun⟩
    | fail e' => cases hb
    | ask q' next' =>
      change Ask.ask q' (fun r => (next' r).bind f) = Ask.ask q next at hb
      obtain ⟨rfl, rfl⟩ := Ask.ask.inj hb
      rcases ih (p := next' _) rfl with ⟨a, s₁, h₁, h₂⟩ | ⟨e, rfl, h₁⟩
      · exact Or.inl ⟨a, s₁, .ask h₁, h₂⟩
      · exact Or.inr ⟨e, rfl, .ask h₁⟩
  | env he _ ih =>
    rcases ih hb with ⟨a, s₁, h₁, h₂⟩ | ⟨e, rfl, h₁⟩
    · exact Or.inl ⟨a, s₁, .env he h₁, h₂⟩
    · exact Or.inr ⟨e, rfl, .env he h₁⟩

/-- All queries of a program, whatever the answers, are in `D`. -/
def Asks (D : Q → Prop) : Ask Q R ε α → Prop
  | done _ => True
  | fail _ => True
  | ask q next => D q ∧ ∀ r, (next r).Asks D

theorem Asks.bind {D : Q → Prop} {f : α → Ask Q R ε β} (h : p.Asks D) (hf : ∀ a, (f a).Asks D) :
    (p >>= f).Asks D := by
  induction p with
  | done a => exact hf a
  | fail e => trivial
  | ask q next ih => exact ⟨h.1, fun r => ih r (h.2 r)⟩

theorem asks_ofExcept (D : Q → Prop) (x : Except ε α) : (ofExcept x : Ask Q R ε α).Asks D := by
  cases x <;> trivial

/-- An invariant is kept by every interleaving. -/
theorem Runs.inv {r : Except ε α} (D : Q → Prop) (good : σ → Prop)
    (hstep : ∀ q s, D q → good s → good (step q s).2) (henv : ∀ s s', env s s' → good s → good s')
    (hp : p.Asks D) (h : Runs step env p s r s') (hs : good s) : good s' := by
  induction h with
  | done a s => exact hs
  | fail e s => exact hs
  | ask _ ih => exact ih (hp.2 _) (hstep _ _ hp.1 hs)
  | env he _ ih => exact ih hp (henv _ _ he hs)

theorem Runs.inv_pure {a : α} {r : Except ε α} (good : σ → Prop)
    (henv : ∀ s s', env s s' → good s → good s') (h : Runs step env (pure a) s r s') (hs : good s) :
    good s' := by
  have hasks : (pure a : Ask Q R ε α).Asks fun _ => False := trivial
  exact h.inv _ good (fun _ _ hD => hD.elim) henv hasks hs

/-- A known result is the result of every interleaving with an environment that keeps the known
answers. -/
theorem runs_of_runIn {know : Q → Option R} (good : σ → Prop)
    (hstep : ∀ q r s, know q = some r → good s → (step q s).1 = r ∧ good (step q s).2)
    (henv : ∀ s s', env s s' → good s → good s') {x y : Except ε α} (h : p.runIn know = some x)
    (hs : good s) (hr : Runs step env p s y s') : y = x ∧ good s' := by
  induction hr with
  | done a s => exact ⟨by simpa [runIn] using h, hs⟩
  | fail e s => exact ⟨by simpa [runIn] using h, hs⟩
  | @ask q next s s' r' _ ih =>
    simp only [runIn] at h
    cases hq : know q with
    | none => simp [hq] at h
    | some r =>
      rw [hq] at h
      obtain ⟨hans, hgood⟩ := hstep q r s hq hs
      exact ih (by rw [hans]; exact h) hgood
  | env he _ ih => exact ih h (henv _ _ he hs)

/-- A program whose result is known hands it to what follows it, in a good state. -/
theorem runs_bind_of_runIn {know : Q → Option R} (good : σ → Prop)
    (hstep : ∀ q r s, know q = some r → good s → (step q s).1 = r ∧ good (step q s).2)
    (henv : ∀ s s', env s s' → good s → good s') {a : α} {f : α → Ask Q R ε β} {r : Except ε β}
    (h : p.runIn know = some (.ok a)) (hs : good s) (hr : Runs step env (p >>= f) s r s') :
    ∃ s₁, good s₁ ∧ Runs step env (f a) s₁ r s' := by
  rcases hr.bind_inv with ⟨a', s₁, h₁, h₂⟩ | ⟨e, -, h₁⟩
  · obtain ⟨heq, hgood⟩ := runs_of_runIn good hstep henv h hs h₁
    obtain rfl := Except.ok.inj heq
    exact ⟨s₁, hgood, h₂⟩
  · cases (runs_of_runIn good hstep henv h hs h₁).1

end Runs

end Ask
