import Mathlib.Data.Nat.Notation

/-! # Worklists

The entries of a list are processed in turn, and each may put further ones in front
of the rest. A quantity that every entry lowers bounds the number of rounds, so with
that much fuel the list runs empty, and what every round preserves holds at the end.
-/

namespace PostgresLib.Foundations

universe u v
variable {α : Type u} {σ : Type v} {step : α → σ → List α × σ}

/-- Process the entries, at most as many as there is fuel. -/
def drain (step : α → σ → List α × σ) : ℕ → List α → σ → Option σ
  | _, [], s => some s
  | 0, _ :: _, _ => none
  | fuel + 1, a :: as, s => drain step fuel ((step a s).1 ++ as) (step a s).2

@[simp] theorem drain_nil (fuel : ℕ) (s : σ) : drain step fuel [] s = some s := by
  cases fuel <;> rfl

/-- The invariant of the rounds holds when the list is empty, and that comes before the fuel is
used up. -/
theorem drain_of_invariant {I : List α → σ → Prop} {μ : σ → ℕ}
    (hstep : ∀ a as s, I (a :: as) s →
      I ((step a s).1 ++ as) (step a s).2 ∧ μ (step a s).2 < μ s)
    {fuel : ℕ} {as : List α} {s : σ} (h : I as s) (hfuel : μ s ≤ fuel) :
    ∃ s', drain step fuel as s = some s' ∧ I [] s' := by
  induction fuel generalizing as s with
  | zero =>
    cases as with
    | nil => exact ⟨s, rfl, h⟩
    | cons a as =>
      have hless := (hstep a as s h).2
      omega
  | succ fuel ih =>
    cases as with
    | nil => exact ⟨s, rfl, h⟩
    | cons a as =>
      rcases hstep a as s h with ⟨hnext, hless⟩
      exact ih hnext (by omega)

end PostgresLib.Foundations
