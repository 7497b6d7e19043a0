import Mathlib.Logic.Relation
import Mathlib.Data.Nat.Notation

/-! # Runs and invariants of a transition relation

A system is a set of initial states and a one-step relation. Reachability is
the reflexive transitive closure of the step, an invariant is an inductive
predicate, and a guarded system keeps only the steps that meet a condition.
Nothing here depends on what the states are.
-/

namespace PostgresLib.Foundations

universe u
variable {σ : Type u}

/-- Initial states and the one-step relation. -/
structure TransitionSystem (σ : Type u) where
  init : σ → Prop
  step : σ → σ → Prop

namespace TransitionSystem

variable (T : TransitionSystem σ)

abbrev Run : σ → σ → Prop := Relation.ReflTransGen T.step

/-- The states some finite run from an initial state ends in. -/
def Reachable (s : σ) : Prop := ∃ s₀, T.init s₀ ∧ T.Run s₀ s

variable {T}

theorem Reachable.of_init {s : σ} (h : T.init s) : T.Reachable s :=
  ⟨s, h, Relation.ReflTransGen.refl⟩

theorem Reachable.next {s s' : σ} (h : T.Reachable s) (hs : T.step s s') : T.Reachable s' := by
  obtain ⟨s₀, h₀, hrun⟩ := h
  exact ⟨s₀, h₀, hrun.tail hs⟩

theorem Reachable.run {s s' : σ} (h : T.Reachable s) (hs : T.Run s s') : T.Reachable s' := by
  obtain ⟨s₀, h₀, hrun⟩ := h
  exact ⟨s₀, h₀, hrun.trans hs⟩

/-- An inductive predicate holds in every reachable state. The step case may use that the state
it starts from is reachable, and so every invariant proved before. -/
theorem Reachable.induct {P : σ → Prop} (hinit : ∀ s, T.init s → P s)
    (hstep : ∀ s s', T.Reachable s → P s → T.step s s' → P s') {s : σ}
    (h : T.Reachable s) : P s := by
  obtain ⟨s₀, h₀, hrun⟩ := h
  induction hrun with
  | refl => exact hinit s₀ h₀
  | tail hab hbc ih => exact hstep _ _ ⟨s₀, h₀, hab⟩ ih hbc

theorem Run.preserves {P : σ → Prop} (hstep : ∀ s s', T.step s s' → P s → P s')
    {s s' : σ} (h : T.Run s s') (hs : P s) : P s' := by
  induction h with
  | refl => exact hs
  | tail _ hbc ih => exact hstep _ _ hbc ih

variable (T)

/-- The system whose runs are those in which every step meets the condition. -/
def guarded (ok : σ → σ → Prop) : TransitionSystem σ where
  init := T.init
  step s s' := T.step s s' ∧ ok s s'

variable {T}

theorem Run.of_guarded {ok : σ → σ → Prop} {s s' : σ} (h : (T.guarded ok).Run s s') :
    T.Run s s' :=
  Relation.ReflTransGen.mono (fun _ _ hs => hs.1) _ _ h

theorem Reachable.of_guarded {ok : σ → σ → Prop} {s : σ} (h : (T.guarded ok).Reachable s) :
    T.Reachable s := by
  obtain ⟨s₀, h₀, hrun⟩ := h
  exact ⟨s₀, h₀, Run.of_guarded hrun⟩

theorem Reachable.guarded_mono {ok ok' : σ → σ → Prop} (hok : ∀ s s', ok s s' → ok' s s') {s : σ}
    (h : (T.guarded ok).Reachable s) : (T.guarded ok').Reachable s := by
  rcases h with ⟨s₀, h₀, hrun⟩
  exact ⟨s₀, h₀, Relation.ReflTransGen.mono (fun _ _ hs => ⟨hs.1, hok _ _ hs.2⟩) _ _ hrun⟩

/-- A run that meets a condition meets, one after the other, two that follow from it. -/
theorem Reachable.guarded_twice {ok ok₁ ok₂ : σ → σ → Prop} (h₁ : ∀ s s', ok s s' → ok₁ s s')
    (h₂ : ∀ s s', ok s s' → ok₂ s s') {s : σ} (h : (T.guarded ok).Reachable s) :
    ((T.guarded ok₁).guarded ok₂).Reachable s := by
  rcases h with ⟨s₀, h₀, hrun⟩
  refine ⟨s₀, h₀, Relation.ReflTransGen.mono ?_ _ _ hrun⟩
  exact fun _ _ hs => ⟨⟨hs.1, h₁ _ _ hs.2⟩, h₂ _ _ hs.2⟩

/-- When the condition says of every step from a state with the property whether the property is
kept, the runs that meet it have the property in every state, and it stays exact for the next
step. -/
theorem Reachable.guarded_exact {ok : σ → σ → Prop} {P : σ → Prop} (hinit : ∀ s, T.init s → P s)
    (hstep : ∀ s s', T.Reachable s → P s → T.step s s' → (P s' ↔ ok s s')) {s : σ}
    (h : (T.guarded ok).Reachable s) : P s ∧ ∀ s', T.step s s' → (P s' ↔ ok s s') := by
  have hs : P s := by
    apply h.induct
    · exact hinit
    · intro s₁ s₂ hreach hP hnext
      exact (hstep s₁ s₂ hreach.of_guarded hP hnext.1).mpr hnext.2
  exact ⟨hs, fun s' hnext => hstep s s' h.of_guarded hs hnext⟩

/-- A defect that no initial state has, that a step brings exactly when it breaks the condition and
that no step takes away: the states that runs within the condition reach are those without it. -/
theorem Reachable.guarded_iff {ok : σ → σ → Prop} {Bad : σ → Prop} (hinit : ∀ s, T.init s → ¬ Bad s)
    (hstep : ∀ s s', T.Reachable s → T.step s s' → ¬ Bad s → (¬ Bad s' ↔ ok s s'))
    (hkept : ∀ s s', T.Reachable s → T.step s s' → Bad s → Bad s') {s : σ} (h : T.Reachable s) :
    (T.guarded ok).Reachable s ↔ ¬ Bad s := by
  constructor
  · intro hguarded
    exact (hguarded.guarded_exact hinit fun s s' hreach hs hnext => hstep s s' hreach hnext hs).1
  · apply h.induct
    · exact fun s hs _ => .of_init hs
    · intro s s' hreach ih hnext hgood
      have hbefore : ¬ Bad s := fun hbad => hgood (hkept s s' hreach hnext hbad)
      exact (ih hbefore).next ⟨hnext, (hstep s s' hreach hnext hbefore).mp hgood⟩

variable (T)

/-- The system with a record that every step updates. -/
def recorded {α : Type u} (a : α) (record : σ → σ → α → α) : TransitionSystem (σ × α) where
  init c := T.init c.1 ∧ c.2 = a
  step c c' := T.step c.1 c'.1 ∧ c'.2 = record c.1 c'.1 c.2

variable {T}

theorem Reachable.of_recorded {α : Type u} {a : α} {record : σ → σ → α → α} {c : σ × α}
    (h : (T.recorded a record).Reachable c) : T.Reachable c.1 := by
  apply h.induct
  · exact fun c hc => .of_init hc.1
  · exact fun c c' _ hc hstep => hc.next hstep.1

/-- A step makes its record. -/
theorem Reachable.next_recorded {α : Type u} {a b : α} {record : σ → σ → α → α}
    {ok : σ × α → σ × α → Prop} {s s' : σ} (h : ((T.recorded a record).guarded ok).Reachable (s, b))
    (hs : T.step s s') (hok : ok (s, b) (s', record s s' b)) :
    ((T.recorded a record).guarded ok).Reachable (s', record s s' b) :=
  h.next ⟨⟨hs, rfl⟩, hok⟩

variable (T)

/-- A run in which exactly so many steps are of a kind. -/
inductive Counted (P : σ → σ → Prop) (s : σ) : σ → ℕ → Prop
  | refl : Counted P s s 0
  | hit {s₁ s₂ : σ} {n : ℕ} (h : Counted P s s₁ n) (hs : T.step s₁ s₂) (hP : P s₁ s₂) :
      Counted P s s₂ (n + 1)
  | skip {s₁ s₂ : σ} {n : ℕ} (h : Counted P s s₁ n) (hs : T.step s₁ s₂) (hP : ¬ P s₁ s₂) :
      Counted P s s₂ n

variable {T} {P : σ → σ → Prop} {s s' : σ} {n : ℕ}

theorem Counted.run (h : T.Counted P s s' n) : T.Run s s' := by
  induction h with
  | refl => exact .refl
  | hit _ hs _ ih => exact ih.tail hs
  | skip _ hs _ ih => exact ih.tail hs

theorem Run.exists_counted (P : σ → σ → Prop) (h : T.Run s s') : ∃ n, T.Counted P s s' n := by
  induction h with
  | refl => exact ⟨0, .refl⟩
  | @tail s₁ s₂ _ hs ih =>
    rcases ih with ⟨n, hn⟩
    by_cases hP : P s₁ s₂
    · exact ⟨n + 1, hn.hit hs hP⟩
    · exact ⟨n, hn.skip hs hP⟩

/-- A number that every count of a run has to be is its count. -/
theorem Run.counted_iff (h : T.Run s s') {m : ℕ} (hm : ∀ n, T.Counted P s s' n → n = m) (n : ℕ) :
    T.Counted P s s' n ↔ n = m := by
  constructor
  · exact hm n
  · rintro rfl
    rcases h.exists_counted P with ⟨k, hk⟩
    exact hm k hk ▸ hk

/-- When the steps of the kind, and no others, move one quantity up by one against another, the
number of these steps is what the first has gained on the second. -/
theorem Counted.balance {f g : σ → ℕ}
    (hhit : ∀ s₁ s₂, T.Run s s₁ → T.step s₁ s₂ → P s₁ s₂ → f s₂ + g s₁ = f s₁ + g s₂ + 1)
    (hskip : ∀ s₁ s₂, T.Run s s₁ → T.step s₁ s₂ → ¬ P s₁ s₂ → f s₂ + g s₁ = f s₁ + g s₂)
    (h : T.Counted P s s' n) : f s' + g s = f s + g s' + n := by
  induction h with
  | refl => rfl
  | hit h hs hP ih =>
    have hstep := hhit _ _ h.run hs hP
    omega
  | skip h hs hP ih =>
    have hstep := hskip _ _ h.run hs hP
    omega

end TransitionSystem
end PostgresLib.Foundations
