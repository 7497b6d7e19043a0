import PostgresLib.Foundations.TransitionSystem
import Mathlib.Algebra.BigOperators.Group.List.Basic
import Mathlib.Data.List.Basic
import Mathlib.Tactic.Ring

/-! # Interleavings of identical threads over a shared state

A configuration is a shared state and the list of the threads' local states.
One step lets a single thread act, or starts a new thread. Quantities that are
sums of one weight for each thread and a part of the shared state change by
what the acting thread changes, whatever the other threads are.
-/

namespace PostgresLib.Foundations

universe u v
variable {σ : Type u} {τ : Type v}

/-- The sum of one weight for each thread. -/
def total (w : τ → ℕ) (ts : List τ) : ℕ := (ts.map w).sum

@[simp] theorem total_nil (w : τ → ℕ) : total w [] = 0 := rfl

@[simp] theorem total_cons (w : τ → ℕ) (t : τ) (ts : List τ) :
    total w (t :: ts) = w t + total w ts := by
  simp [total]

@[simp] theorem total_append (w : τ → ℕ) (ts us : List τ) :
    total w (ts ++ us) = total w ts + total w us := by
  simp [total]

@[simp] theorem total_replicate (w : τ → ℕ) (n : ℕ) (t : τ) :
    total w (List.replicate n t) = n * w t := by
  simp [total]

theorem total_mono {w w' : τ → ℕ} (h : ∀ t, w t ≤ w' t) (ts : List τ) :
    total w ts ≤ total w' ts := by
  induction ts with
  | nil => simp
  | cons t ts ih =>
    have ht := h t
    simp only [total_cons]
    omega

theorem total_pos {w : τ → ℕ} {ts : List τ} : 0 < total w ts ↔ ∃ t ∈ ts, 0 < w t := by
  rw [total, List.sum_pos_iff_exists_pos_nat]
  simp

theorem total_eq_zero {w : τ → ℕ} {ts : List τ} (h : ∀ t ∈ ts, w t = 0) : total w ts = 0 := by
  apply Nat.eq_zero_of_not_pos
  rw [total_pos]
  rintro ⟨t, ht, hpos⟩
  exact Nat.ne_of_gt hpos (h t ht)

theorem total_le_length {w : τ → ℕ} (h : ∀ t, w t ≤ 1) (ts : List τ) : total w ts ≤ ts.length := by
  induction ts with
  | nil => exact Nat.le_refl _
  | cons t ts ih =>
    have ht := h t
    rw [total_cons, List.length_cons]
    omega

/-- A change of one entry changes the sum by its weight. -/
theorem total_modify {w : τ → ℕ} {ts : List τ} {i : ℕ} {t : τ} (f : τ → τ) (h : ts[i]? = some t) :
    total w (ts.modify i f) + w t = total w ts + w (f t) := by
  induction ts generalizing i with
  | nil => cases h
  | cons u ts ih =>
    cases i with
    | zero =>
      cases h
      simp only [List.modify_zero_cons, total_cons]
      omega
    | succ i =>
      have htail := ih h
      simp only [List.modify_succ_cons, total_cons]
      omega

theorem total_set {w : τ → ℕ} {ts : List τ} {i : ℕ} {t : τ} (t' : τ) (h : ts[i]? = some t) :
    total w (ts.set i t') + w t = total w ts + w t' := by
  rw [List.set_eq_modify]
  exact total_modify _ h

/-- A shared state and the local states of the threads that run over it. -/
structure Config (σ : Type u) (τ : Type v) where
  shared : σ
  threads : List τ

/-- One thread acts on the shared state, or a thread is started. Whether it may be started can
depend on the threads there are. -/
inductive Interleave (act : σ → τ → σ → τ → Prop) (spawn : σ → List τ → σ → τ → Prop) :
    Config σ τ → Config σ τ → Prop
  | act {sh sh' : σ} {t t' : τ} (pre post : List τ) (h : act sh t sh' t') :
      Interleave act spawn ⟨sh, pre ++ t :: post⟩ ⟨sh', pre ++ t' :: post⟩
  | spawn {sh sh' : σ} {t : τ} (ts : List τ) (h : spawn sh ts sh' t) :
      Interleave act spawn ⟨sh, ts⟩ ⟨sh', ts ++ [t]⟩

/-- A quantity of the configuration: a part of the shared state plus a weight for each thread. -/
def Config.potential (f : σ → ℕ) (w : τ → ℕ) (c : Config σ τ) : ℕ :=
  f c.shared + total w c.threads

variable {act : σ → τ → σ → τ → Prop} {spawn : σ → List τ → σ → τ → Prop}

/-- With a single thread, it acts or another one is started. -/
theorem Interleave.of_single {sh : σ} {t : τ} {c' : Config σ τ}
    (h : Interleave act spawn ⟨sh, [t]⟩ c') :
    (∃ sh' t', act sh t sh' t' ∧ c' = ⟨sh', [t']⟩) ∨
      ∃ sh' t', spawn sh [t] sh' t' ∧ c' = ⟨sh', [t, t']⟩ := by
  generalize hc : (⟨sh, [t]⟩ : Config σ τ) = c at h
  cases h with
  | @act sh₁ sh' t₁ t' pre post h =>
    left
    injection hc with hshared hthreads
    obtain ⟨rfl, htail⟩ | ⟨pre', rfl, htail⟩ := List.cons_eq_append_iff.mp hthreads
    · injection htail with ht hpost
      subst hshared ht hpost
      exact ⟨sh', t', h, rfl⟩
    · simp at htail
  | @spawn sh₁ sh' t' ts h =>
    right
    injection hc with hshared hthreads
    subst hshared hthreads
    exact ⟨sh', t', h, rfl⟩

/-- When every acting and every starting thread keeps the quantity level with a second part of the
shared state, so does every step. -/
theorem Interleave.balance {f g : σ → ℕ} {w : τ → ℕ}
    (hact : ∀ sh t sh' t', act sh t sh' t' → f sh' + w t' + g sh = f sh + w t + g sh')
    (hspawn : ∀ sh ts sh' t, spawn sh ts sh' t → f sh' + w t + g sh = f sh + g sh')
    {c c' : Config σ τ} (h : Interleave act spawn c c') :
    c'.potential f w + g c.shared = c.potential f w + g c'.shared := by
  cases h with
  | act pre post h =>
    have hw := hact _ _ _ _ h
    simp only [Config.potential, total_append, total_cons]
    omega
  | spawn ts h =>
    have hw := hspawn _ _ _ _ h
    simp only [Config.potential, total_append, total_cons, total_nil]
    omega

/-- What each acting and each starting thread takes away, a step takes away. -/
theorem Interleave.lowers {f : σ → ℕ} {w : τ → ℕ} (k : ℕ)
    (hact : ∀ sh t sh' t', act sh t sh' t' → f sh' + w t' + k ≤ f sh + w t)
    (hspawn : ∀ sh ts sh' t, spawn sh ts sh' t → f sh' + w t + k ≤ f sh)
    {c c' : Config σ τ} (h : Interleave act spawn c c') :
    c'.potential f w + k ≤ c.potential f w := by
  cases h with
  | act pre post h =>
    have hw := hact _ _ _ _ h
    simp only [Config.potential, total_append, total_cons]
    omega
  | spawn ts h =>
    have hw := hspawn _ _ _ _ h
    simp only [Config.potential, total_append, total_cons, total_nil]
    omega

/-- Every act and every start of one kind is one of the other. -/
theorem Interleave.mono {act' : σ → τ → σ → τ → Prop} {spawn' : σ → List τ → σ → τ → Prop}
    (hact : ∀ sh t sh' t', act sh t sh' t' → act' sh t sh' t')
    (hspawn : ∀ sh ts sh' t, spawn sh ts sh' t → spawn' sh ts sh' t) {c c' : Config σ τ}
    (h : Interleave act spawn c c') : Interleave act' spawn' c c' := by
  cases h with
  | act pre post h => exact .act pre post (hact _ _ _ _ h)
  | spawn ts h => exact .spawn ts (hspawn _ _ _ _ h)

end PostgresLib.Foundations
