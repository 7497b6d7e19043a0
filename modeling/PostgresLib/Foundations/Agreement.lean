/-! # Computations that agree

Two computations that may fail agree when they fail with the same error, or succeed
with related results. Agreement is kept by sequencing, and so by running through a
list.
-/

namespace PostgresLib.Foundations

universe u v w x y
variable {ε : Type u} {α : Type v} {β : Type v} {γ : Type v} {δ : Type v} {ι : Type w}

/-- The same failure, or related results. -/
def Agree (R : α → β → Prop) : Except ε α → Except ε β → Prop
  | .ok a, .ok b => R a b
  | .error e, .error e' => e = e'
  | _, _ => False

namespace Agree

variable {R : α → β → Prop} {S : γ → δ → Prop} {x : Except ε α} {y : Except ε β}

theorem ok {a : α} {b : β} (h : R a b) : Agree R (.ok a : Except ε α) (.ok b) := h

theorem error (e : ε) : Agree R (.error e) (.error e) := rfl

theorem mono {R' : α → β → Prop} (himp : ∀ a b, x = .ok a → y = .ok b → R a b → R' a b)
    (h : Agree R x y) : Agree R' x y := by
  cases x <;> cases y
  case ok.ok => exact himp _ _ rfl rfl h
  all_goals exact h

/-- When one of two that agree succeeds, so does the other. -/
theorem exists_ok {a : α} (h : Agree R (.ok a) y) : ∃ b, y = .ok b ∧ R a b := by
  cases y with
  | error e => exact absurd h id
  | ok b => exact ⟨b, rfl, h⟩

theorem bind {f : α → Except ε γ} {g : β → Except ε δ} (h : Agree R x y)
    (hnext : ∀ a b, x = .ok a → y = .ok b → R a b → Agree S (f a) (g b)) :
    Agree S (x >>= f) (y >>= g) := by
  cases x <;> cases y
  case ok.ok => exact hnext _ _ rfl rfl h
  case error.error => exact h
  all_goals exact absurd h id

/-- What every step keeps, a run keeps. -/
theorem foldlM {f : α → ι → Except ε α} {g : β → ι → Except ε β}
    (hstep : ∀ a b i, R a b → Agree R (f a i) (g b i)) (l : List ι) {a : α} {b : β} (h : R a b) :
    Agree R (l.foldlM f a) (l.foldlM g b) := by
  induction l generalizing a b with
  | nil => exact h
  | cons i l ih =>
    rw [List.foldlM_cons, List.foldlM_cons]
    exact (hstep a b i h).bind fun a' b' _ _ h' => ih h'

end Agree
end PostgresLib.Foundations
