import PostgresLib.Foundations.TransitionSystem

/-! # Simulations that leave choices open

A closer model is simulated by a wider one when each of its steps can be followed by
a run. Where the wider model decides earlier than the closer one, the relation takes
the decisions that are still open as a parameter: every choice that is possible after
a step comes from one that was possible before it.
-/

namespace PostgresLib.Foundations

universe u v w
variable {σ : Type u} {τ : Type v} {κ : Type w}

/-- The states of one system are followed in another, whatever choices are open. -/
structure Simulates (T : TransitionSystem σ) (A : TransitionSystem τ) (opens : σ → κ → Prop)
    (shows : κ → σ → τ → Prop) : Prop where
  init : ∀ s k, T.init s → opens s k → ∃ a, A.Reachable a ∧ shows k s a
  step : ∀ s s' k', T.Reachable s → T.step s s' → opens s' k' →
    ∃ k, opens s k ∧ ∀ a, A.Reachable a → shows k s a → ∃ a', A.Run a a' ∧ shows k' s' a'

/-- Every reachable state is shown by a reachable one, for every choice that is open in it. -/
theorem Simulates.reachable {T : TransitionSystem σ} {A : TransitionSystem τ}
    {opens : σ → κ → Prop} {shows : κ → σ → τ → Prop} (hsim : Simulates T A opens shows) {s : σ}
    (h : T.Reachable s) {k : κ} (hk : opens s k) : ∃ a, A.Reachable a ∧ shows k s a := by
  have hall : ∀ k, opens s k → ∃ a, A.Reachable a ∧ shows k s a := by
    apply h.induct
    · exact fun s hinit k => hsim.init s k hinit
    · intro s s' hs ih hstep k' hk'
      rcases hsim.step s s' k' hs hstep hk' with ⟨k, hk, hfollow⟩
      rcases ih k hk with ⟨a, ha, hshows⟩
      rcases hfollow a ha hshows with ⟨a', hrun, hshows'⟩
      exact ⟨a', ha.run hrun, hshows'⟩
  exact hall k hk

end PostgresLib.Foundations
