import Mathlib
import Ntsync.Lib.Lts

namespace Lts

/-!
# Lib — counting steps against a measure

How often a step of one kind happens between two points of a run, when each of them uses up a measure
and the steps of another kind may give some of it back.

* `since starts h` — the labels of the history `h` after the last one of kind `starts`;
* `Run.amortized` — the rule: as long as an episode is `active`, a step of kind `own` takes one from
  the measure, and a step of kind `help` adds at most `k`; so the own steps of the episode are bounded
  by the measure it began with and `k` for each help.
-/

variable {σ α β : Type*}

/-- The part of a history after the last label of kind `starts` (newest first). -/
def since (starts : β → Bool) (h : List β) : List β := h.takeWhile fun l => !starts l

/-- At a start the count begins anew. -/
theorem since_start {starts : β → Bool} {l : β} (h : List β) (hl : starts l = true) :
    since starts (l :: h) = [] := by
  rw [since, List.takeWhile_cons, hl]
  rfl

/-- Between starts the history grows. -/
theorem since_later {starts : β → Bool} {l : β} (h : List β) (hl : starts l = false) :
    since starts (l :: h) = l :: since starts h := by
  rw [since, List.takeWhile_cons, hl]
  rfl

variable {step : σ → α → Option (σ × β)} {ok : σ → β → σ → Prop}

/-- **The amortized bound.** -/
theorem Run.amortized {s₀ : σ} (active : σ → Prop) (starts own help : β → Bool) (measure : σ → Nat)
    (cap k : Nat) (h₀ : ¬ active s₀)
    (hstart : ∀ h s a s' l, Run step ok s₀ h s → step s a = some (s', l) → ok s l s' → active s' →
      starts l = true → measure s' ≤ cap)
    (hlater : ∀ h s a s' l, Run step ok s₀ h s → step s a = some (s', l) → ok s l s' → active s' →
      starts l = false → active s ∧
        measure s' + (if own l then 1 else 0) ≤ measure s + if help l then k else 0)
    {h : List β} {s : σ} (hr : Run step ok s₀ h s) (ha : active s) :
    measure s + (since starts h).countP own ≤ cap + k * (since starts h).countP help := by
  induction hr with
  | nil => exact absurd ha h₀
  | @snoc h s s' a l hr hs hok ih =>
    cases hl : starts l with
    | true =>
      rw [since_start h hl]
      exact hstart h s a s' l hr hs hok ha hl
    | false =>
      obtain ⟨hact, hle⟩ := hlater h s a s' l hr hs hok ha hl
      have hih := ih hact
      rw [since_later h hl, List.countP_cons, List.countP_cons, Nat.mul_add]
      have hk : k * (if help l then 1 else 0) = if help l then k else 0 := by
        split
        · exact Nat.mul_one k
        · rfl
      rw [hk]
      omega

end Lts
