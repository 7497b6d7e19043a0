import PostgresLib.Pool.SizeBound
import PostgresLib.Pool.Warmup

/-! # Idle connections and the permits that make them visible

An `acquire` call that waits sees an idle connection only when it is granted a
permit. Whoever makes the queue non-empty still has a permit to give, and while
the queue is not empty permits only move between the semaphore and threads that
will give them back. So an idle connection is never hidden from a waiter, as long
as the semaphore can count its permits.
-/

namespace PostgresLib.Pool

open Foundations

variable {κ : Type} {cfg : PoolConfig}

namespace Thread

/-- `acquire` between its permit and its second look at the queue or the return of the permit, the
releaser between its push and its permit, and `fill_pool` with a permit. -/
def inTransit : Thread κ → Bool
  | acquireRetest | acquireGiveBack _ => true
  | releasePermit => true
  | fillGranted | fillCreate | fillFailed | fillPush _ | fillRelease _ => true
  | _ => false

/-- The permits in transit with a thread. -/
def transit (t : Thread κ) : ℕ := t.inTransit.toNat

theorem transit_pos {t : Thread κ} : 0 < t.transit ↔ t.inTransit = true := by
  unfold transit
  cases t.inTransit <;> decide

end Thread

/-- While a connection is idle, a permit is in the semaphore or in transit. -/
def Visible (c : Config (Shared κ) (Thread κ)) : Prop :=
  c.shared.connections ≠ [] → 0 < c.potential Shared.capacity Thread.transit

/-- The thread that makes the queue non-empty has a permit to give, and while the queue is not empty
no permit gets lost. -/
theorem transit_act {s s' : Shared κ} {t t' : Thread κ} (h : Act cfg s t s' t')
    (hidle : s'.connections ≠ []) :
    0 < t'.transit ∨
      s.connections ≠ [] ∧ s.capacity + t.transit ≤ s'.capacity + t'.transit := by
  cases h with
  | fillPush | releasePush | fillTryAcquire | fillCallFactory | fillCreated | fillNotCreated
  | acquireGranted | acquireReturned => exact .inl Nat.one_pos
  | acquireCallFactory h | acquireNoneIdle h => exact absurd h hidle
  | acquireIdle h =>
    right
    rw [h]
    exact ⟨List.cons_ne_nil _ _, Nat.le_refl _⟩
  | fillRelease isFull =>
    right
    cases isFull <;> exact ⟨hidle, Nat.le_refl _⟩
  | _ =>
    right
    refine ⟨hidle, ?_⟩
    simp [Thread.transit, Thread.inTransit]

theorem visible_step {c c' : Config (Shared κ) (Thread κ)} (h : (system cfg).step c c')
    (hc : Visible c) : Visible c' := by
  intro hidle
  cases h with
  | act pre post h =>
    simp only [Config.potential, total_append, total_cons]
    rcases transit_act h hidle with hpos | ⟨hold, hle⟩
    · omega
    · have hpos := hc hold
      simp only [Config.potential, total_append, total_cons] at hpos
      omega
  | spawn ts h =>
    cases h with
    | acquire | destroy | release =>
      have hpos := hc hidle
      rw [Config.potential] at hpos ⊢
      rw [total_append, ← Nat.add_assoc]
      exact Nat.add_pos_left hpos _

theorem visible_start : Visible (start (κ := κ) cfg) := by
  unfold start
  split_ifs <;> exact fun hidle => absurd rfl hidle

theorem Visible.reachable {c : Config (Shared κ) (Thread κ)} (h : (system cfg).Reachable c) :
    Visible c := by
  apply h.induct
  · rintro s rfl
    exact visible_start
  · exact fun s s' _ hs hstep => visible_step hstep hs

/-- A waiter that no thread in transit disturbs takes the idle connection. -/
theorem waiter_served {s : Shared κ} {pre post : List (Thread κ)} {n : ℕ} {conn : κ} {rest : List κ}
    (hpermit : s.capacity = n + 1) (hcounter : 0 < counter s.capacity)
    (hidle : s.connections = conn :: rest) :
    (countedRuns cfg).Run ⟨s, pre ++ .acquireWait :: post⟩
      ⟨{ s with connections := rest, unpaid := s.unpaid + 1 },
        pre ++ .acquireWrap conn :: post⟩ := by
  have h₁ : (countedRuns cfg).Run ⟨s, pre ++ .acquireWait :: post⟩ _ :=
    .single ⟨.act pre post (.acquireGranted hpermit), fun _ => hcounter⟩
  have h₂ := h₁.tail ⟨.act pre post (.acquireReturned hidle), fun h => absurd h (lt_irrefl _)⟩
  have h₃ := h₂.tail ⟨.act pre post (.acquireGiveBack conn),
    fun h => absurd h (Nat.lt_asymm (Nat.lt_succ_self _))⟩
  rw [← hpermit] at h₃
  exact h₃

/-- As long as the semaphore can count its permits: in every reachable state with an idle connection
it has a permit or a thread is in transit, and in the first case nothing keeps a waiter from the
idle connection. -/
theorem permit_or_transit (cfg : PoolConfig) (c : Config (Shared κ) (Thread κ))
    (h : (countedRuns cfg).Reachable c) :
    c.shared.capacity ≤ cfg.bound + c.shared.unpaid ∧
    (c.shared.capacity ≤ maxPermits →
      (c.shared.connections ≠ [] →
        0 < counter c.shared.capacity ∨ ∃ t ∈ c.threads, t.inTransit = true) ∧
      ∀ pre post conn rest, c.threads = pre ++ .acquireWait :: post →
        c.shared.connections = conn :: rest → (∀ t ∈ c.threads, t.inTransit = false) →
        0 < counter c.shared.capacity ∧
          (countedRuns cfg).Run c
            ⟨{ c.shared with connections := rest, unpaid := c.shared.unpaid + 1 },
              pre ++ .acquireWrap conn :: post⟩) := by
  refine ⟨capacity_le h.of_guarded, fun hmax => ?_⟩
  have hvisible : c.shared.connections ≠ [] →
      0 < counter c.shared.capacity ∨ ∃ t ∈ c.threads, t.inTransit = true := by
    intro hidle
    have hsomewhere := Visible.reachable h.of_guarded hidle
    rcases Nat.add_pos_iff_pos_or_pos.mp hsomewhere with hpermit | htransit
    · exact .inl (counter_pos hpermit hmax)
    · rcases total_pos.mp htransit with ⟨t, ht, hpos⟩
      exact .inr ⟨t, ht, Thread.transit_pos.mp hpos⟩
  refine ⟨hvisible, ?_⟩
  intro pre post conn rest hthreads hidle hnone
  have hcounter : 0 < counter c.shared.capacity := by
    rcases hvisible (by rw [hidle]; exact List.cons_ne_nil _ _) with hpermit | ⟨t, ht, htransit⟩
    · exact hpermit
    · rw [hnone t ht] at htransit
      cases htransit
  have hpermit : c.shared.capacity ≠ 0 := by
    intro hzero
    rw [hzero] at hcounter
    exact absurd hcounter (by decide)
  obtain ⟨n, hn⟩ := Nat.exists_eq_succ_of_ne_zero hpermit
  refine ⟨hcounter, ?_⟩
  obtain ⟨s, threads⟩ := c
  cases hthreads
  exact waiter_served hn hcounter hidle

/-- A connection that comes back while a call waits. -/
theorem lazyOne_waited :
    (countedRuns lazyOne).Reachable
      ⟨lazyState 1 [7] [] 0, [.returned, .acquireWait, .returned]⟩ := by
  have hkeeps {c c' : Config (Shared ℕ) (Thread ℕ)} (h : ¬ c'.shared.capacity < c.shared.capacity) :
      CountsPermits c c' := fun hless => absurd hless h
  have h₀ : (countedRuns lazyOne).Reachable ⟨lazyState 1 [] [] 0, []⟩ := .of_init rfl
  have h₁ := h₀.next ⟨.spawn [] .acquire, hkeeps (by decide)⟩
  have h₂ := h₁.next ⟨.act [] [] (.acquireNoneIdle rfl), hkeeps (by decide)⟩
  have h₃ := h₂.next ⟨.act [] [] .acquireInTime, hkeeps (by decide)⟩
  have h₄ : (countedRuns lazyOne).Reachable ⟨lazyState 0 [] [] 0, [.acquireRetest]⟩ :=
    h₃.next ⟨.act [] [] (.acquireGranted rfl), fun _ => by decide⟩
  have h₅ := h₄.next ⟨.act [] [] (.acquireCallFactory rfl), hkeeps (by decide)⟩
  have h₆ := h₅.next ⟨.act [] [] (.acquireCreated 7), hkeeps (by decide)⟩
  have h₇ := h₆.next ⟨.act [] [] (.acquireWrap 7), hkeeps (by decide)⟩
  -- the connection is in use when a second call comes, and then returns
  have h₈ := h₇.next ⟨.spawn _ .acquire, hkeeps (by decide)⟩
  have h₉ := h₈.next ⟨.act [_] [] (.acquireNoneIdle rfl), hkeeps (by decide)⟩
  have h₁₀ : (countedRuns lazyOne).Reachable ⟨lazyState 0 [] [7] 0, [.returned, .acquireWait]⟩ :=
    h₉.next ⟨.act [_] [] .acquireInTime, hkeeps (by decide)⟩
  have h₁₁ := h₁₀.next ⟨.spawn _ (release_begins 7), hkeeps (by decide)⟩
  have h₁₂ := h₁₁.next ⟨.act [_, _] [] (.releasePush 7), hkeeps (by decide)⟩
  exact h₁₂.next ⟨.act [_, _] [] .releasePermit, hkeeps (by decide)⟩

theorem permit_lazyOne_waited :
    0 < counter (lazyState 1 [7] [] 0).capacity ∧
      (countedRuns lazyOne).Run ⟨lazyState 1 [7] [] 0, [.returned, .acquireWait, .returned]⟩
        ⟨lazyState 1 [] [] 1, [.returned, .acquireWrap 7, .returned]⟩ :=
  ((permit_or_transit lazyOne _ lazyOne_waited).2 (by decide)).2 [.returned] [.returned] 7 [] rfl
    rfl (by decide)

/-- A pool whose counter has wrapped hides its idle connection. -/
theorem hidden_by_wrapped_counter :
    ¬ ∀ (cfg : PoolConfig) (c : Config (Shared ℕ) (Thread ℕ)), (countedRuns cfg).Reachable c →
      c.shared.connections ≠ [] →
        0 < counter c.shared.capacity ∨ ∃ t ∈ c.threads, t.inTransit = true := by
  intro hall
  have hreach := eagerHuge_warmed.guarded_mono fun _ _ h => h.counts
  have hsomewhere := hall eagerHuge _ hreach (List.cons_ne_nil _ _)
  exact absurd hsomewhere (by decide)

end PostgresLib.Pool
