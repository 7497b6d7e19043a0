import PostgresLib.Foundations.Traced

/-! # Computations that a monitor watches

A monitor reads the events of a computation one after the other and either goes on or
refuses one. What it has seen is its state, and a computation is watched when no event
of it is refused. The rules follow the program text, as those for triples do.
-/

namespace PostgresLib.Foundations

universe u
variable {σ ε α β μ : Type u}

/-- The monitor after some events, unless it has refused one. -/
def follow (next : μ → ε → Option μ) : μ → List ε → Option μ
  | g, [] => some g
  | g, e :: es => (next g e).bind fun g' => follow next g' es

variable {next : μ → ε → Option μ} {g g' g'' : μ} {es es' : List ε}

@[simp] theorem follow_nil : follow next g [] = some g := rfl

theorem follow_cons {e : ε} (h : next g e = some g') :
    follow next g (e :: es) = follow next g' es := by
  rw [follow, h]
  rfl

theorem follow_append (h : follow next g es = some g') :
    follow next g (es ++ es') = follow next g' es' := by
  induction es generalizing g with
  | nil =>
    cases h
    rfl
  | cons e es ih =>
    rcases Option.bind_eq_some_iff.mp h with ⟨g₁, hnext, hrest⟩
    rw [List.cons_append, follow_cons hnext]
    exact ih hrest

/-- From this state of the monitor, no event of the computation is refused, and its result is in
the relation to what the monitor has seen then. -/
structure Watched (next : μ → ε → Option μ) (g : μ) (m : Traced σ ε α)
    (R : Option α → μ → Prop) : Prop where
  run : ∀ s, ∃ g', follow next g (m s).events = some g' ∧ R (m s).result g'

variable {R R' : Option α → μ → Prop} {Q : Option β → μ → Prop}

theorem Watched.mono {m : Traced σ ε α} (hm : Watched next g m R) (h : ∀ r g', R r g' → R' r g') :
    Watched next g m R' := by
  constructor
  intro s
  rcases hm.run s with ⟨g', hfollow, hR⟩
  exact ⟨g', hfollow, h _ _ hR⟩

theorem Watched.pure {a : α} (h : R (some a) g) :
    Watched next g (Pure.pure a : Traced σ ε α) R :=
  ⟨fun _ => ⟨g, rfl, h⟩⟩

theorem Watched.outOfFuel (h : R none g) : Watched next g (Traced.outOfFuel : Traced σ ε α) R :=
  ⟨fun _ => ⟨g, rfl, h⟩⟩

theorem Watched.ite {p : Prop} [Decidable p] {m m' : Traced σ ε α} (hm : p → Watched next g m R)
    (hm' : ¬ p → Watched next g m' R) : Watched next g (if p then m else m') R := by
  split_ifs with h
  · exact hm h
  · exact hm' h

theorem Watched.bind {m : Traced σ ε α} {f : α → Traced σ ε β} (hm : Watched next g m R)
    (hnone : ∀ g', R none g' → Q none g')
    (hf : ∀ a g', R (some a) g' → Watched next g' (f a) Q) : Watched next g (m >>= f) Q := by
  constructor
  intro s
  change ∃ g', follow next g (Traced.andThen m f s).events = some g' ∧
    Q (Traced.andThen m f s).result g'
  rcases hm.run s with ⟨g', hfollow, hR⟩
  unfold Traced.andThen
  cases hr : (m s).result with
  | none =>
    rw [hr] at hR
    exact ⟨g', hfollow, hnone g' hR⟩
  | some a =>
    rw [hr] at hR
    rcases (hf a g' hR).run (m s).state with ⟨g'', hfollow', hQ⟩
    exact ⟨g'', (follow_append hfollow).trans hfollow', hQ⟩

end PostgresLib.Foundations
