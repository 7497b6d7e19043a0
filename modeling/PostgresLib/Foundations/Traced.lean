import Mathlib.Data.List.Basic

/-! # Computations that record events

A computation starts in a state and ends with a result, the events it recorded
and a state; without a result it ran out of fuel, and its events are those up to
there. Two kinds of statements compose along the program text: relations between
the first state, the events and the last state, and relations between the result
and the events.
-/

namespace PostgresLib.Foundations

universe u
variable {σ ε : Type u} {α β : Type u}

structure Ending (σ ε α : Type u) where
  result : Option α
  events : List ε
  state : σ

/-- A computation over states `σ` with events `ε`. -/
def Traced (σ ε α : Type u) : Type u := σ → Ending σ ε α

namespace Traced

def value (a : α) : Traced σ ε α := fun s => ⟨some a, [], s⟩

/-- Run one computation and then, if it has a result, the next. -/
def andThen (m : Traced σ ε α) (f : α → Traced σ ε β) : Traced σ ε β := fun s =>
  match (m s).result with
  | some a =>
    ⟨(f a (m s).state).result, (m s).events ++ (f a (m s).state).events, (f a (m s).state).state⟩
  | none => ⟨none, (m s).events, (m s).state⟩

instance : Monad (Traced σ ε) where
  pure := value
  bind := andThen

def outOfFuel : Traced σ ε α := fun s => ⟨none, [], s⟩

/-- A relation that holds of no events at all and of consecutive events when it holds of both
parts. -/
structure Compositional (P : σ → List ε → σ → Prop) : Prop where
  nil : ∀ s, P s [] s
  append : ∀ s es s' es' s'', P s es s' → P s' es' s'' → P s (es ++ es') s''

/-- From every state, the events and the last state are in the relation. -/
structure Follows (P : σ → List ε → σ → Prop) (m : Traced σ ε α) : Prop where
  run : ∀ s, P s (m s).events (m s).state

section Follows

variable {P : σ → List ε → σ → Prop}

theorem Follows.pure (hP : Compositional P) (a : α) : Follows P (Pure.pure a : Traced σ ε α) :=
  ⟨fun s => hP.nil s⟩

theorem Follows.outOfFuel (hP : Compositional P) : Follows P (outOfFuel : Traced σ ε α) :=
  ⟨fun s => hP.nil s⟩

theorem Follows.bind {m : Traced σ ε α} {f : α → Traced σ ε β} (hP : Compositional P)
    (hm : Follows P m) (hf : ∀ a, Follows P (f a)) : Follows P (m >>= f) := by
  constructor
  intro s
  change P s (andThen m f s).events (andThen m f s).state
  unfold andThen
  cases (m s).result with
  | none => exact hm.run s
  | some a => exact hP.append _ _ _ _ _ (hm.run s) ((hf a).run _)

theorem Follows.ite {p : Prop} [Decidable p] {m m' : Traced σ ε α} (hm : Follows P m)
    (hm' : Follows P m') : Follows P (if p then m else m') := by
  split_ifs
  · exact hm
  · exact hm'

end Follows

/-- From every state, the result and the events are in the relation. -/
structure Emits (m : Traced σ ε α) (R : Option α → List ε → Prop) : Prop where
  run : ∀ s, R (m s).result (m s).events

section Emits

variable {R R' : Option α → List ε → Prop} {Q : Option β → List ε → Prop}

theorem Emits.mono {m : Traced σ ε α} (hm : Emits m R) (h : ∀ r es, R r es → R' r es) :
    Emits m R' :=
  ⟨fun s => h _ _ (hm.run s)⟩

theorem Follows.emits {m : Traced σ ε α} {p : List ε → Prop}
    (h : Follows (fun _ es _ => p es) m) : Emits m fun _ es => p es :=
  ⟨h.run⟩

theorem Emits.pure {a : α} (h : R (some a) []) : Emits (Pure.pure a : Traced σ ε α) R :=
  ⟨fun _ => h⟩

theorem Emits.outOfFuel (h : R none []) : Emits (outOfFuel : Traced σ ε α) R :=
  ⟨fun _ => h⟩

theorem Emits.bind {m : Traced σ ε α} {f : α → Traced σ ε β} (hm : Emits m R)
    (hnone : ∀ es, R none es → Q none es)
    (hf : ∀ a es, R (some a) es → Emits (f a) fun r es' => Q r (es ++ es')) :
    Emits (m >>= f) Q := by
  constructor
  intro s
  change Q (andThen m f s).result (andThen m f s).events
  have hs := hm.run s
  unfold andThen
  cases hr : (m s).result with
  | none =>
    rw [hr] at hs
    exact hnone _ hs
  | some a =>
    rw [hr] at hs
    exact (hf a _ hs).run _

end Emits

/-- From a state that meets the precondition, a result comes with a state that meets the
postcondition. -/
structure Triple (P : σ → Prop) (m : Traced σ ε α) (Q : α → σ → Prop) : Prop where
  run : ∀ s a, P s → (m s).result = some a → Q a (m s).state

section Triple

variable {P : σ → Prop} {Q : α → σ → Prop} {R : β → σ → Prop}

theorem Triple.mono {m : Traced σ ε α} {P' : σ → Prop} {Q' : α → σ → Prop} (hm : Triple P m Q)
    (hP : ∀ s, P' s → P s) (hQ : ∀ a s, Q a s → Q' a s) : Triple P' m Q' :=
  ⟨fun s a hs ha => hQ _ _ (hm.run s a (hP s hs) ha)⟩

theorem Triple.of_pure {m : Traced σ ε α} {p : Prop} (hp : ∀ s, P s → p) (h : p → Triple P m Q) :
    Triple P m Q :=
  ⟨fun s a hs ha => (h (hp s hs)).run s a hs ha⟩

theorem Triple.true (m : Traced σ ε α) : Triple P m fun _ _ => True := ⟨fun _ _ _ _ => trivial⟩

theorem Triple.pure {a : α} (h : ∀ s, P s → Q a s) : Triple P (Pure.pure a : Traced σ ε α) Q := by
  constructor
  intro s a' hs ha
  cases ha
  exact h s hs

theorem Triple.outOfFuel : Triple P (outOfFuel : Traced σ ε α) Q := ⟨nofun⟩

theorem Triple.bind {m : Traced σ ε α} {f : α → Traced σ ε β} (hm : Triple P m Q)
    (hf : ∀ a, Triple (Q a) (f a) R) : Triple P (m >>= f) R := by
  constructor
  intro s b hs hb
  change (andThen m f s).result = some b at hb
  change R b (andThen m f s).state
  unfold andThen at *
  cases hr : (m s).result with
  | none =>
    rw [hr] at hb
    cases hb
  | some a =>
    rw [hr] at hb
    exact (hf a).run _ b (hm.run s a hs hr) hb

theorem Triple.ite {p : Prop} [Decidable p] {m m' : Traced σ ε α} (hm : Triple P m Q)
    (hm' : Triple P m' Q) : Triple P (if p then m else m') Q := by
  split_ifs
  · exact hm
  · exact hm'

theorem Follows.triple {m : Traced σ ε α} {F : σ → List ε → σ → Prop} (h : Follows F m)
    (hP : ∀ s es s', F s es s' → P s → P s') : Triple P m fun _ => P :=
  ⟨fun s _ hs _ => hP _ _ _ (h.run s) hs⟩

end Triple

/-- From this state the computation has this result, in that state. -/
structure Ends (m : Traced σ ε α) (s : σ) (a : α) (s' : σ) : Prop where
  result : (m s).result = some a
  state : (m s).state = s'

/-- From this state the computation has no result. -/
def Exhausts (m : Traced σ ε α) (s : σ) : Prop := (m s).result = none

section Ends

variable {m : Traced σ ε α} {f : α → Traced σ ε β} {s s' s'' : σ} {a : α} {b : β}

theorem Ends.pure : Ends (Pure.pure a : Traced σ ε α) s a s := ⟨rfl, rfl⟩

theorem Ends.andThen_eq (h : Ends m s a s') :
    ((m >>= f) s).result = (f a s').result ∧ ((m >>= f) s).state = (f a s').state := by
  change (andThen m f s).result = _ ∧ (andThen m f s).state = _
  rw [andThen, h.result, h.state]
  exact ⟨rfl, rfl⟩

theorem Ends.bind (hm : Ends m s a s') (hf : Ends (f a) s' b s'') : Ends (m >>= f) s b s'' where
  result := hm.andThen_eq.1.trans hf.result
  state := hm.andThen_eq.2.trans hf.state

theorem Exhausts.outOfFuel : Exhausts (outOfFuel : Traced σ ε α) s := rfl

theorem Exhausts.bind (hm : Exhausts m s) : Exhausts (m >>= f) s := by
  change (andThen m f s).result = none
  rw [andThen, hm]

theorem Ends.bind_exhausts (hm : Ends m s a s') (hf : Exhausts (f a) s') :
    Exhausts (m >>= f) s := hm.andThen_eq.1.trans hf

end Ends

/-- From a state that meets the precondition, the last state meets the postcondition, also when the
fuel runs out before. -/
structure Leads (P : σ → Prop) (m : Traced σ ε α) (Q : σ → Prop) : Prop where
  run : ∀ s, P s → Q (m s).state

section Leads

variable {P Q : σ → Prop}

theorem Leads.pure {a : α} (h : ∀ s, P s → Q s) : Leads P (Pure.pure a : Traced σ ε α) Q := ⟨h⟩

theorem Leads.outOfFuel (h : ∀ s, P s → Q s) : Leads P (outOfFuel : Traced σ ε α) Q := ⟨h⟩

theorem Leads.ite {p : Prop} [Decidable p] {m m' : Traced σ ε α}
    (hm : p → Leads P m Q) (hm' : ¬ p → Leads P m' Q) : Leads P (if p then m else m') Q := by
  split_ifs with h
  · exact hm h
  · exact hm' h

theorem Leads.mono_left {m : Traced σ ε α} {P' : σ → Prop} (hP : ∀ s, P' s → P s)
    (hm : Leads P m Q) : Leads P' m Q :=
  ⟨fun s hs => hm.run s (hP s hs)⟩

end Leads

/-- With enough fuel the computation has this result, in that state, and more fuel changes neither.
-/
def Concludes (m : ℕ → Traced σ ε α) (s : σ) (a : α) (s' : σ) : Prop :=
  ∃ enough, ∀ fuel, enough ≤ fuel → Ends (m fuel) s a s'

section Concludes

variable {m : ℕ → Traced σ ε α} {f : ℕ → α → Traced σ ε β} {s s' s'' : σ} {a : α} {b : β}

theorem Ends.concludes {m : Traced σ ε α} (h : Ends m s a s') :
    Concludes (fun _ => m) s a s' :=
  ⟨0, fun _ _ => h⟩

theorem Concludes.bind (hm : Concludes m s a s') (hf : Concludes (fun fuel => f fuel a) s' b s'') :
    Concludes (fun fuel => m fuel >>= f fuel) s b s'' := by
  rcases hm with ⟨k, hm⟩
  rcases hf with ⟨k', hf⟩
  refine ⟨max k k', fun fuel hfuel => ?_⟩
  rcases Nat.max_le.mp hfuel with ⟨hk, hk'⟩
  exact (hm fuel hk).bind (hf fuel hk')

/-- A round of a loop uses one unit of fuel. -/
theorem Concludes.of_succ (h : Concludes (fun fuel => m (fuel + 1)) s a s') :
    Concludes m s a s' := by
  rcases h with ⟨k, h⟩
  refine ⟨k + 1, fun fuel hfuel => ?_⟩
  cases fuel with
  | zero => cases hfuel
  | succ fuel => exact h fuel (Nat.le_of_succ_le_succ hfuel)

end Concludes

/-- With enough fuel the computation has a result. -/
def Halts (m : ℕ → Traced σ ε α) (s : σ) : Prop := ∃ a s', Concludes m s a s'

section Halts

variable {m m' : ℕ → Traced σ ε α} {f : ℕ → α → Traced σ ε β} {s s' : σ} {a : α}

theorem Halts.pure : Halts (fun _ => (Pure.pure a : Traced σ ε α)) s :=
  ⟨a, s, Ends.pure.concludes⟩

theorem Concludes.bind_halts (hm : Concludes m s a s') (hf : Halts (fun fuel => f fuel a) s') :
    Halts (fun fuel => m fuel >>= f fuel) s := by
  rcases hf with ⟨b, s'', hf⟩
  exact ⟨b, s'', hm.bind hf⟩

theorem Halts.bind (hm : Halts m s) (hf : ∀ a s', Halts (fun fuel => f fuel a) s') :
    Halts (fun fuel => m fuel >>= f fuel) s := by
  rcases hm with ⟨a, s', hm⟩
  exact hm.bind_halts (hf a s')

theorem Halts.ite {p : Prop} [Decidable p] (hm : p → Halts m s) (hm' : ¬ p → Halts m' s) :
    Halts (fun fuel => if p then m fuel else m' fuel) s := by
  by_cases h : p
  · simpa only [if_pos h] using hm h
  · simpa only [if_neg h] using hm' h

theorem Halts.of_succ (h : Halts (fun fuel => m (fuel + 1)) s) : Halts m s := by
  rcases h with ⟨a, s', h⟩
  exact ⟨a, s', h.of_succ⟩

end Halts

/-- A computation over a wider state does what another one does on a part of it, up to what the
results show. -/
structure Refines {τ : Type u} (view : τ → σ) (f : α → β) (m' : Traced τ ε α) (m : Traced σ ε β) :
    Prop where
  result : ∀ s, (m' s).result.map f = (m (view s)).result
  events : ∀ s, (m' s).events = (m (view s)).events
  state : ∀ s, view (m' s).state = (m (view s)).state

section Refines

variable {τ γ δ : Type u} {view : τ → σ} {f : α → β} {g : γ → δ} {m' : Traced τ ε α}
  {m : Traced σ ε β} {k' : α → Traced τ ε γ} {k : β → Traced σ ε δ}

theorem Refines.pure {a : α} : Refines view f (Pure.pure a) (Pure.pure (f a) : Traced σ ε β) :=
  ⟨fun _ => rfl, fun _ => rfl, fun _ => rfl⟩

theorem Refines.outOfFuel :
    Refines view f (Traced.outOfFuel : Traced τ ε α) (Traced.outOfFuel : Traced σ ε β) :=
  ⟨fun _ => rfl, fun _ => rfl, fun _ => rfl⟩

theorem Refines.bind (hm : Refines view f m' m) (hk : ∀ a, Refines view g (k' a) (k (f a))) :
    Refines view g (m' >>= k') (m >>= k) := by
  have hall : ∀ s, ((m' >>= k') s).result.map g = ((m >>= k) (view s)).result ∧
      ((m' >>= k') s).events = ((m >>= k) (view s)).events ∧
      view ((m' >>= k') s).state = ((m >>= k) (view s)).state := by
    intro s
    change (andThen m' k' s).result.map g = (andThen m k (view s)).result ∧
      (andThen m' k' s).events = (andThen m k (view s)).events ∧
      view (andThen m' k' s).state = (andThen m k (view s)).state
    have hresult := hm.result s
    unfold andThen
    cases hr : (m' s).result with
    | none =>
      rw [hr, Option.map_none] at hresult
      simp only [← hresult]
      exact ⟨rfl, hm.events s, hm.state s⟩
    | some a =>
      rw [hr, Option.map_some] at hresult
      simp only [← hresult, ← hm.state s, hm.events s]
      exact ⟨(hk a).result _, by rw [(hk a).events], (hk a).state _⟩
  exact ⟨fun s => (hall s).1, fun s => (hall s).2.1, fun s => (hall s).2.2⟩

/-- What is not seen of a computation. -/
theorem Refines.silent (hm : ∀ s, ∃ a, (m' s).result = some a ∧ (m' s).events = [] ∧
      view (m' s).state = view s) {n : Traced σ ε δ} (hk : ∀ a, Refines view g (k' a) n) :
    Refines view g (m' >>= k') n := by
  have hall : ∀ s, ((m' >>= k') s).result.map g = (n (view s)).result ∧
      ((m' >>= k') s).events = (n (view s)).events ∧
      view ((m' >>= k') s).state = (n (view s)).state := by
    intro s
    change (andThen m' k' s).result.map g = (n (view s)).result ∧
      (andThen m' k' s).events = (n (view s)).events ∧
      view (andThen m' k' s).state = (n (view s)).state
    rcases hm s with ⟨a, hresult, hevents, hstate⟩
    unfold andThen
    simp only [hresult, hevents, List.nil_append, ← hstate]
    exact ⟨(hk a).result _, (hk a).events _, (hk a).state _⟩
  exact ⟨fun s => (hall s).1, fun s => (hall s).2.1, fun s => (hall s).2.2⟩

theorem Refines.ite {p : Prop} [Decidable p] {n' : Traced τ ε α} {n : Traced σ ε β}
    (hm : Refines view f m' m) (hn : Refines view f n' n) :
    Refines view f (if p then m' else n') (if p then m else n) := by
  split_ifs
  · exact hm
  · exact hn

end Refines

end Traced
end PostgresLib.Foundations
