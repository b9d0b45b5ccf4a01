import Mathlib

namespace Lts

/-!
# Lib — labelled transition systems given by an executable step function

A system is a partial step function `step : σ → α → Option (σ × β)`: in state `s` the action `a`
leads to the state `s'` and emits the label `l` iff `step s a = some (s', l)`.

* `Run step ok s₀ h s` — a run from `s₀` to `s` all of whose steps are allowed by `ok`; `h` is its
  history, the emitted labels with the newest one first.
* `Run.invariant` — the induction every safety proof goes through: what holds of the empty history
  and is kept by each allowed step holds of every run.
* `traced`, `logged` — the same system with labels that record the states around each step, with its
  label or its action.
* `exec` — the run of an explicit list of actions, for evaluating a schedule.
-/

/-! ### Numerals that name the threads of an explicit schedule -/

instance neZero_one : NeZero 1 := ⟨by decide⟩

instance neZero_two : NeZero 2 := ⟨by decide⟩

instance neZero_three : NeZero 3 := ⟨by decide⟩

/-! ### Runs -/

variable {σ α β : Type*} {step : σ → α → Option (σ × β)} {ok ok' : σ → β → σ → Prop}

/-- A run of `step` whose every step is allowed by `ok`, with its history (newest label first). -/
inductive Run (step : σ → α → Option (σ × β)) (ok : σ → β → σ → Prop) (s₀ : σ) :
    List β → σ → Prop
  | nil : Run step ok s₀ [] s₀
  | snoc {h : List β} {s s' : σ} {a : α} {l : β} :
      Run step ok s₀ h s → step s a = some (s', l) → ok s l s' → Run step ok s₀ (l :: h) s'

namespace Run

/-- **Invariant rule.** A property of history and state that holds at the start and is kept by
    every allowed step holds of every run. -/
theorem invariant {s₀ : σ} {I : List β → σ → Prop} (h₀ : I [] s₀)
    (hstep : ∀ h s a s' l, I h s → step s a = some (s', l) → ok s l s' → I (l :: h) s')
    {h : List β} {s : σ} (hr : Run step ok s₀ h s) : I h s := by
  induction hr with
  | nil => exact h₀
  | snoc hr hs hok ih => exact hstep _ _ _ _ _ ih hs hok

/-- The invariant rule for a property of the state alone. -/
theorem state_invariant {s₀ : σ} {I : σ → Prop} (h₀ : I s₀)
    (hstep : ∀ s a s' l, I s → step s a = some (s', l) → ok s l s' → I s')
    {h : List β} {s : σ} (hr : Run step ok s₀ h s) : I s :=
  hr.invariant (I := fun _ => I) h₀ (fun _ s a s' l hI hs hok => hstep s a s' l hI hs hok)

/-- Allowing more steps keeps a run. -/
theorem mono (hok : ∀ s l s', ok s l s' → ok' s l s') {s₀ s : σ} {h : List β}
    (hr : Run step ok s₀ h s) : Run step ok' s₀ h s := by
  induction hr with
  | nil => exact .nil
  | snoc _ hs ha ih => exact ih.snoc hs (hok _ _ _ ha)

/-- Runs compose; the later history stands in front. -/
theorem trans {s₀ s₁ s₂ : σ} {h₁ h₂ : List β} (h01 : Run step ok s₀ h₁ s₁)
    (h12 : Run step ok s₁ h₂ s₂) : Run step ok s₀ (h₂ ++ h₁) s₂ := by
  induction h12 with
  | nil => exact h01
  | snoc _ hs ha ih => exact ih.snoc hs ha

end Run

/-! ### Traces -/

/-- A step with the states around it. -/
structure Trans (σ β : Type*) where
  before : σ
  label : β
  after : σ

/-- The system whose labels record the states around each step. -/
def traced (step : σ → α → Option (σ × β)) (s : σ) (a : α) : Option (σ × Trans σ β) :=
  (step s a).map fun x => (x.1, ⟨s, x.2, x.1⟩)

/-- A traced step is a step with its states. -/
theorem traced_eq_some {s s' : σ} {a : α} {x : Trans σ β} :
    traced step s a = some (s', x) ↔ ∃ l, step s a = some (s', l) ∧ x = ⟨s, l, s'⟩ := by
  unfold traced
  constructor
  · intro h
    obtain ⟨⟨s₁, l⟩, hs, he⟩ := Option.map_eq_some_iff.mp h
    cases he
    exact ⟨l, hs, rfl⟩
  · rintro ⟨l, hs, rfl⟩
    rw [hs]
    rfl

/-- The system whose labels record the action of each step and the states around it. -/
def logged (step : σ → α → Option (σ × β)) (s : σ) (a : α) : Option (σ × Trans σ α) :=
  (step s a).map fun x => (x.1, ⟨s, a, x.1⟩)

/-- A logged step is a step with its states and its action. -/
theorem logged_eq_some {s s' : σ} {a : α} {x : Trans σ α} :
    logged step s a = some (s', x) ↔ ∃ l, step s a = some (s', l) ∧ x = ⟨s, a, s'⟩ := by
  unfold logged
  constructor
  · intro h
    obtain ⟨⟨s₁, l⟩, hs, he⟩ := Option.map_eq_some_iff.mp h
    cases he
    exact ⟨l, hs, rfl⟩
  · rintro ⟨l, hs, rfl⟩
    rw [hs]
    rfl

/-- The state and the history (newest label first) after running the actions of a list in order,
    if each of them is enabled and allowed. -/
def exec (step : σ → α → Option (σ × β)) (ok : σ → β → σ → Prop)
    [∀ s l s', Decidable (ok s l s')] : σ → List β → List α → Option (σ × List β)
  | s, h, [] => some (s, h)
  | s, h, a :: as =>
    match step s a with
    | none => none
    | some (s', l) => if ok s l s' then exec step ok s' (l :: h) as else none

/-- An evaluated schedule is a run. -/
theorem run_of_exec [∀ s l s', Decidable (ok s l s')] {s₀ s s' : σ} {h h' : List β} {as : List α}
    (hr : Run step ok s₀ h s) (he : exec step ok s h as = some (s', h')) :
    Run step ok s₀ h' s' := by
  induction as generalizing s h with
  | nil =>
    simp only [exec, Option.some.injEq, Prod.mk.injEq] at he
    obtain ⟨rfl, rfl⟩ := he
    exact hr
  | cons a as ih =>
    simp only [exec] at he
    split at he
    · cases he
    · rename_i t l hs
      split at he
      · rename_i hok
        exact ih (hr.snoc hs hok) he
      · cases he

section Exec

variable (step : σ → α → Option (σ × β)) (ok : σ → β → σ → Prop)

/-- What an evaluated schedule satisfies, with its history, is reached by a run. -/
theorem exists_history_of_exec [∀ s l s', Decidable (ok s l s')] (s₀ : σ) (as : List α)
    {P : List β → σ → Prop} [∀ h s, Decidable (P h s)]
    (he : (exec step ok s₀ [] as).any (fun x => decide (P x.2 x.1)) = true) :
    ∃ h s, Run step ok s₀ h s ∧ P h s := by
  rw [Option.any_eq_true] at he
  obtain ⟨⟨s, h⟩, hx, hP⟩ := he
  exact ⟨h, s, run_of_exec .nil hx, of_decide_eq_true hP⟩

/-- What an evaluated schedule satisfies is reached by a run. -/
theorem exists_run_of_exec [∀ s l s', Decidable (ok s l s')] (s₀ : σ) (as : List α)
    {P : σ → Prop} [DecidablePred P]
    (he : (exec step ok s₀ [] as).any (fun x => decide (P x.1)) = true) :
    ∃ h s, Run step ok s₀ h s ∧ P s :=
  exists_history_of_exec step ok s₀ as (P := fun _ => P) he

/-- What an evaluated step and the schedule after it satisfy. -/
theorem exists_step_run_of_exec [∀ s l s', Decidable (ok s l s')] {s : σ} {a : α} (as : List α)
    {Q : σ → β → Prop} [∀ s l, Decidable (Q s l)] {P : List β → σ → Prop} [∀ h s, Decidable (P h s)]
    (he : (step s a).any (fun x => decide (Q x.1 x.2) &&
      (exec step ok x.1 [] as).any (fun y => decide (P y.2 y.1))) = true) :
    ∃ s' l h s'', step s a = some (s', l) ∧ Q s' l ∧ Run step ok s' h s'' ∧ P h s'' := by
  rw [Option.any_eq_true] at he
  obtain ⟨⟨s', l⟩, hs, hx⟩ := he
  obtain ⟨hQ, hy⟩ := Bool.and_eq_true_iff.mp hx
  obtain ⟨h, s'', hr, hP⟩ := exists_history_of_exec step ok s' as hy
  exact ⟨s', l, h, s'', hs, of_decide_eq_true hQ, hr, hP⟩

end Exec

/-- Where an evaluated schedule leads. -/
def reach (step : σ → α → Option (σ × β)) (ok : σ → β → σ → Prop)
    [∀ s l s', Decidable (ok s l s')] (s₀ : σ) (as : List α) : σ × List β :=
  (exec step ok s₀ [] as).getD (s₀, [])

/-- A schedule that can be evaluated reaches its state. -/
theorem run_reach [∀ s l s', Decidable (ok s l s')] {s₀ : σ} {as : List α}
    (he : (exec step ok s₀ [] as).isSome = true) :
    Run step ok s₀ (reach step ok s₀ as).2 (reach step ok s₀ as).1 := by
  obtain ⟨x, hx⟩ := Option.isSome_iff_exists.mp he
  have hreach : reach step ok s₀ as = x := by rw [reach, hx]; rfl
  rw [hreach]
  exact run_of_exec .nil hx

end Lts
