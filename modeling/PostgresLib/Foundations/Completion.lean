import PostgresLib.Foundations.TransitionSystem
import Mathlib.Order.Basic

/-! # Runs that come to an end

When every step lowers a quantity, a run has no more steps than the quantity says,
and whatever order they come in, the run ends in a state in which no step is
possible. What holds of every such state is then reached without any assumption on
the scheduler. Where some steps may fail to happen although they are possible, it has
to hold of every state in which none of the others is.
-/

namespace PostgresLib.Foundations

universe u
variable {σ : Type u}

namespace TransitionSystem

variable (T : TransitionSystem σ)

inductive Steps (s : σ) : ℕ → σ → Prop
  | refl : Steps s 0 s
  | tail {n : ℕ} {s₁ s₂ : σ} (h : Steps s n s₁) (hs : T.step s₁ s₂) : Steps s (n + 1) s₂

def Quiet (s : σ) : Prop := ∀ s', ¬ T.step s s'

/-- Every run has at most so many steps, and one after which none of the sure steps is possible has
reached the goal. -/
structure CompletesBy (sure : TransitionSystem σ) (s : σ) (bound : ℕ) (goal : σ → Prop) :
    Prop where
  bounded : ∀ n s', T.Steps s n s' → n ≤ bound
  ends : ∀ s', T.Run s s' → sure.Quiet s' → goal s'

/-- Every run has at most so many steps, and one that cannot go on has reached the goal. -/
abbrev Completes (s : σ) (bound : ℕ) (goal : σ → Prop) : Prop := T.CompletesBy T s bound goal

variable {T} {sure : TransitionSystem σ} {s s' : σ} {n : ℕ}

theorem Steps.run (h : T.Steps s n s') : T.Run s s' := by
  induction h with
  | refl => exact .refl
  | tail _ hs ih => exact ih.tail hs

theorem Run.exists_steps (h : T.Run s s') : ∃ n, T.Steps s n s' := by
  induction h with
  | refl => exact ⟨0, .refl⟩
  | tail _ hs ih =>
    rcases ih with ⟨n, hn⟩
    exact ⟨n + 1, hn.tail hs⟩

variable {I : σ → Prop} {μ : σ → ℕ} {bound : ℕ} {goal : σ → Prop}

/-- The steps of a run are paid for by the quantity that each of them lowers. -/
theorem Steps.paid (hstep : ∀ s s', I s → T.step s s' → I s' ∧ μ s' < μ s) (hs : I s)
    (h : T.Steps s n s') : I s' ∧ n + μ s' ≤ μ s := by
  induction h with
  | refl => exact ⟨hs, Nat.le_of_eq (Nat.zero_add _)⟩
  | tail _ hlast ih =>
    rcases ih with ⟨hI, hpaid⟩
    rcases hstep _ _ hI hlast with ⟨hI', hless⟩
    refine ⟨hI', ?_⟩
    omega

theorem CompletesBy.of_measure (hstep : ∀ s s', I s → T.step s s' → I s' ∧ μ s' < μ s)
    (hquiet : ∀ s, I s → sure.Quiet s → goal s) (hs : I s) :
    T.CompletesBy sure s (μ s) goal where
  bounded n s' h := by
    have hpaid := (h.paid hstep hs).2
    omega
  ends s' h hend := by
    rcases h.exists_steps with ⟨n, hn⟩
    exact hquiet s' (hn.paid hstep hs).1 hend

/-- A run that is as long as possible cannot go on. -/
theorem CompletesBy.exists_end (h : T.CompletesBy sure s bound goal)
    (hsure : ∀ s s', sure.step s s' → T.step s s') :
    ∃ s', T.Run s s' ∧ T.Quiet s' ∧ goal s' := by
  by_contra hnone
  have hlonger : ∀ n, ∃ s', T.Steps s n s' := by
    intro n
    induction n with
    | zero => exact ⟨s, .refl⟩
    | succ n ih =>
      rcases ih with ⟨s₁, hn⟩
      by_cases hquiet : T.Quiet s₁
      · have hstuck : sure.Quiet s₁ := fun s₂ hs => hquiet s₂ (hsure s₁ s₂ hs)
        exact absurd ⟨s₁, hn.run, hquiet, h.ends s₁ hn.run hstuck⟩ hnone
      · rcases not_forall_not.mp hquiet with ⟨s₂, hs⟩
        exact ⟨s₂, hn.tail hs⟩
  rcases hlonger (bound + 1) with ⟨s', hs'⟩
  have hle := h.bounded _ _ hs'
  omega

variable (T)

/-- Whatever else happens, only so many steps of a kind are taken, and until the goal is reached
there is one to take: it is reached when these steps are not put off for ever. -/
structure Ensures (P : σ → σ → Prop) (s : σ) (bound : ℕ) (goal : σ → Prop) : Prop where
  bounded : ∀ n s', T.Counted P s s' n → n ≤ bound
  ready : ∀ s', T.Run s s' → goal s' ∨ ∃ s'', T.step s' s'' ∧ P s' s''

variable {T} {P : σ → σ → Prop}

/-- Steps of the kind lower the quantity, and the others do not raise it. -/
theorem Ensures.of_measure (hstep : ∀ s s', I s → T.step s s' → I s')
    (hhit : ∀ s s', I s → T.step s s' → P s s' → μ s' < μ s)
    (hskip : ∀ s s', I s → T.step s s' → ¬ P s s' → μ s' ≤ μ s)
    (hready : ∀ s, I s → goal s ∨ ∃ s', T.step s s' ∧ P s s') (hs : I s) :
    T.Ensures P s (μ s) goal where
  bounded n s' h := by
    have hpaid : I s' ∧ n + μ s' ≤ μ s := by
      induction h with
      | refl => exact ⟨hs, Nat.le_of_eq (Nat.zero_add _)⟩
      | hit _ hlast hP ih =>
        have hless := hhit _ _ ih.1 hlast hP
        exact ⟨hstep _ _ ih.1 hlast, by omega⟩
      | skip _ hlast hP ih =>
        have hle := hskip _ _ ih.1 hlast hP
        exact ⟨hstep _ _ ih.1 hlast, by omega⟩
    omega
  ready s' h := hready s' (h.preserves (fun _ _ hlast hI => hstep _ _ hI hlast) hs)

end TransitionSystem
end PostgresLib.Foundations
