import PostgresLib.Client.StopSignal
import PostgresLib.Foundations.ThreadPool

/-! # No wake-up is lost

A thread that queues something notifies after it has given the mutex up, and a worker
blocks in the step in which it gives the mutex up. So a blocked query worker with a
request in the queue has a notification coming, and as long as a callback worker is
blocked, each queued task has a worker that is on its way to it or a notification
that is still to be sent. A worker that runs a callback does not count as on its way.
-/

namespace PostgresLib.Client.StopSignal

open Foundations

def QueryWorker.holding : QueryWorker → ℕ
  | waiting phase => phase.holdsMutex.toNat
  | _ => 0

/-- 1 for a worker that has queued a task and not notified yet. -/
def QueryWorker.notifies : QueryWorker → ℕ
  | notifying _ => 1
  | _ => 0

def CallbackState.holding : CallbackState → ℕ
  | waiting phase => phase.holdsMutex.toNat
  | _ => 0

/-- 1 for a callback worker that will look at the queue before it does anything else. -/
def CallbackState.coming : CallbackState → ℕ
  | waiting .testing | waiting .notified | waiting .passed => 1
  | _ => 0

/-- The callback workers that will look at the queue before they do anything else. -/
def Signals.coming (s : Signals) : ℕ := total (fun w => w.state.coming) s.callbackWorkers

/-- Who holds a mutex, who sleeps and who is woken. -/
structure Woken (s : Signals) : Prop where
  mutex : s.worker.holding = s.mutex.toNat
  refusedWorker : s.worker = .waiting .refused → s.requests = 0
  owed : s.worker = .waiting .blocked → 0 < s.requests → 0 < s.owedNotifications
  callbackMutex : total (fun w => w.state.holding) s.callbackWorkers = s.callbackMutex.toNat
  refused : ∀ w ∈ s.callbackWorkers, w.state = .waiting .refused → s.callbackQueue = 0
  queue : ∀ w ∈ s.callbackWorkers, w.state = .waiting .blocked →
    s.callbackQueue ≤ s.coming + s.worker.notifies

@[simp] theorem QueryWorker.holding_resume (pending : Option ℕ) : (resume pending).holding = 0 := by
  cases pending <;> rfl

@[simp] theorem QueryWorker.notifies_resume (pending : Option ℕ) :
    (resume pending).notifies = 0 := by
  cases pending <;> rfl

theorem QueryWorker.resume_ne_waiting (pending : Option ℕ) (phase : WaitPhase) :
    resume pending ≠ waiting phase := by
  cases pending <;> exact nofun

@[simp] theorem QueryWorker.holding_notify (w : QueryWorker) : w.notify.holding = w.holding := by
  cases w with
  | waiting phase => cases phase <;> rfl
  | _ => rfl

@[simp] theorem QueryWorker.notifies_notify (w : QueryWorker) : w.notify.notifies = w.notifies := by
  cases w <;> rfl

theorem QueryWorker.notify_eq_refused {w : QueryWorker} :
    w.notify = waiting .refused ↔ w = waiting .refused := by
  cases w with
  | waiting phase => cases phase <;> simp [notify, WaitPhase.notify]
  | _ => simp [notify]

theorem QueryWorker.notify_ne_blocked (w : QueryWorker) : w.notify ≠ waiting .blocked := by
  cases w with
  | waiting phase => cases phase <;> simp [notify, WaitPhase.notify]
  | _ => simp [notify]

@[simp] theorem CallbackWorker.holding_notify (w : CallbackWorker) :
    w.notify.state.holding = w.state.holding := by
  rcases w with ⟨stop, state⟩
  cases state with
  | waiting phase => cases phase <;> rfl
  | _ => rfl

theorem CallbackWorker.notify_eq_refused {w : CallbackWorker} :
    w.notify.state = .waiting .refused ↔ w.state = .waiting .refused := by
  rcases w with ⟨stop, state⟩
  cases state with
  | waiting phase => cases phase <;> simp [notify, WaitPhase.notify]
  | _ => simp [notify]

theorem CallbackWorker.notify_ne_blocked (w : CallbackWorker) :
    w.notify.state ≠ .waiting .blocked := by
  rcases w with ⟨stop, state⟩
  cases state with
  | waiting phase => cases phase <;> simp [notify, WaitPhase.notify]
  | _ => simp [notify]

/-- What one step of a wait does to the mutex and to the places of the thread. -/
theorem wait_holding {predicate held held' : Bool} {phase phase' : WaitPhase}
    (h : WaitPhase.Step predicate held phase held' phase') :
    phase'.holdsMutex.toNat + held.toNat = phase.holdsMutex.toNat + held'.toNat := by
  cases h <;> rfl

theorem wait_refused {predicate held held' : Bool} {phase phase' : WaitPhase}
    (h : WaitPhase.Step predicate held phase held' phase') (heq : phase' = .refused) :
    predicate = false := by
  cases h with
  | refuse hfalse => exact hfalse
  | _ => cases heq

theorem wait_blocked {predicate held held' : Bool} {phase phase' : WaitPhase}
    (h : WaitPhase.Step predicate held phase held' phase') (heq : phase' = .blocked) :
    phase = .refused := by
  cases h with
  | block => rfl
  | _ => cases heq

theorem eq_zero_of_predicate {stop : Bool} {n : ℕ} (h : (stop || decide (0 < n)) = false) :
    n = 0 := by
  simpa using (Bool.or_eq_false_iff.mp h).2

variable {s s' : Signals}

theorem woken_call (h : CallStep s s') (hs : Woken s) : Woken s' := by
  cases h with
  | push hmutex =>
    refine { hs with
      refusedWorker := fun hw => ?_
      owed := fun _ _ => Nat.succ_pos _ }
    have hheld := hs.mutex
    rw [hw, hmutex] at hheld
    cases hheld
  | notifyOne =>
    exact { hs with
      mutex := by rw [QueryWorker.holding_notify, hs.mutex]
      refusedWorker := fun hw => hs.refusedWorker (QueryWorker.notify_eq_refused.mp hw)
      owed := fun hw => absurd hw s.worker.notify_ne_blocked
      queue := fun w hw hblocked => by
        rw [QueryWorker.notifies_notify]
        exact hs.queue w hw hblocked }

/-- The worker goes on to something that is no wait. -/
theorem Woken.move (hs : Woken s) {worker : QueryWorker} {held : Bool} (requests : ℕ)
    (hheld : worker.holding = held.toNat) (hleaves : ∀ phase, worker ≠ .waiting phase)
    (hnotifies : worker.notifies = s.worker.notifies) :
    Woken { s with worker := worker, requests := requests, mutex := held } :=
  { hs with
    mutex := hheld
    refusedWorker := fun hw => absurd hw (hleaves _)
    owed := fun hw => absurd hw (hleaves _)
    queue := fun w hw hblocked => by
      rw [hnotifies]
      exact hs.queue w hw hblocked }

/-- While the mutex is free, no callback worker stands between its predicate and its block. -/
theorem Woken.not_refused (hs : Woken s) (hfree : s.callbackMutex = false) {w : CallbackWorker}
    (hw : w ∈ s.callbackWorkers) : w.state ≠ .waiting .refused := by
  intro hrefused
  have hpos : 0 < total (fun w : CallbackWorker => w.state.holding) s.callbackWorkers :=
    total_pos.mpr ⟨w, hw, by rw [hrefused]; exact Nat.one_pos⟩
  rw [hs.callbackMutex, hfree] at hpos
  exact Nat.lt_irrefl 0 hpos

theorem woken_worker (h : WorkerStep s s') (hs : Woken s) : Woken s' := by
  have hheld := hs.mutex
  cases h with
  | leave hw | deliver hw | deliverPosted hw | drainOne hw | drainPosted hw | drained hw
  | seeIdle hw =>
    rw [hw] at hheld
    exact hs.move s.requests hheld nofun (by rw [hw]; rfl)
  | drain hw | takeNone hw | take hw => exact hs.move _ rfl nofun (by rw [hw]; rfl)
  | @overflow pending hw =>
    rw [hw] at hheld
    exact hs.move s.requests (by rw [QueryWorker.holding_resume]; exact hheld)
      (QueryWorker.resume_ne_waiting pending) (by rw [hw, QueryWorker.notifies_resume]; rfl)
  | lock hw =>
    exact { hs with
      mutex := rfl
      refusedWorker := nofun
      owed := nofun
      queue := fun w hmem hblocked => by
        have hqueue := hs.queue w hmem hblocked
        rw [hw] at hqueue
        exact hqueue }
  | @wait phase phase' held hw h =>
    rw [hw] at hheld
    have hchange := wait_holding h
    have hqueue : ∀ w ∈ s.callbackWorkers, w.state = .waiting .blocked →
        s.callbackQueue ≤ s.coming + 0 := by
      intro w hmem hblocked
      have hold := hs.queue w hmem hblocked
      rw [hw] at hold
      exact hold
    refine { hs with
      mutex := by
        simp only [QueryWorker.holding] at hheld ⊢
        omega
      refusedWorker := fun hrefused => ?_
      owed := fun hblocked hpos => ?_
      queue := hqueue }
    · injection hrefused with hphase
      exact eq_zero_of_predicate (wait_refused h hphase)
    · injection hblocked with hphase
      rw [wait_blocked h hphase] at hw
      exact absurd (hs.refusedWorker hw) (Nat.pos_iff_ne_zero.mp hpos)
  | @pushTask pending hw hfree =>
    rw [hw] at hheld
    exact { hs with
      mutex := hheld
      refusedWorker := nofun
      owed := nofun
      refused := fun w hmem hrefused => absurd hrefused (hs.not_refused hfree hmem)
      queue := fun w hmem hblocked => by
        have hqueue := hs.queue w hmem hblocked
        rw [hw] at hqueue
        exact Nat.succ_le_succ hqueue }
  | @notifyOne pending front back w hw h hb =>
    rw [hw] at hheld
    have hstate : w.notify.state = .waiting .notified := by
      rw [CallbackWorker.notify, hb]
      rfl
    have hcallback := hs.callbackMutex
    have hqueue := hs.queue w (by rw [h]; simp) hb
    rw [h] at hcallback
    rw [hw, Signals.coming, h] at hqueue
    simp only [total_append, total_cons, hb, CallbackState.coming, QueryWorker.notifies] at hqueue
    exact {
      mutex := by rw [QueryWorker.holding_resume]; exact hheld
      refusedWorker := fun heq => absurd heq (QueryWorker.resume_ne_waiting pending _)
      owed := fun heq => absurd heq (QueryWorker.resume_ne_waiting pending _)
      callbackMutex := by
        rw [← hcallback]
        simp only [total_append, total_cons, CallbackWorker.holding_notify]
      refused := by
        intro u hu hrefused
        rcases List.mem_append.mp hu with hu | hu
        · exact hs.refused u (by rw [h]; exact List.mem_append_left _ hu) hrefused
        · rcases List.mem_cons.mp hu with rfl | hu
          · rw [hstate] at hrefused
            cases hrefused
          · exact hs.refused u
              (by rw [h]; exact List.mem_append_right _ (List.mem_cons_of_mem _ hu)) hrefused
      queue := by
        intro u _ _
        simp only [Signals.coming, total_append, total_cons, hstate, CallbackState.coming,
          QueryWorker.notifies_resume]
        omega }
  | @notifyNobody pending hw hnone =>
    rw [hw] at hheld
    exact { hs with
      mutex := by rw [QueryWorker.holding_resume]; exact hheld
      refusedWorker := fun heq => absurd heq (QueryWorker.resume_ne_waiting pending _)
      owed := fun heq => absurd heq (QueryWorker.resume_ne_waiting pending _)
      queue := fun w hmem hblocked => absurd hblocked (hnone w hmem) }

/-- What a step of a callback worker does to the mutex, to the queue and to the places that
matter. -/
structure Moves (held : Bool) (queue : ℕ) (state : CallbackState) (held' : Bool) (queue' : ℕ)
    (state' : CallbackState) : Prop where
  holding : state'.holding + held.toNat = state.holding + held'.toNat
  shrinks : queue' ≤ queue
  served : queue' + state.coming ≤ queue + state'.coming ∨ queue' = 0
  refused : state' = .waiting .refused → queue' = 0
  blocked : state' = .waiting .blocked → state = .waiting .refused

theorem CallbackStep.moves {stop held held' : Bool} {queue queue' idle idle' : ℕ}
    {state state' : CallbackState}
    (h : CallbackStep stop held queue idle state held' queue' idle' state') :
    Moves held queue state held' queue' state' := by
  cases h with
  | lock =>
    exact ⟨rfl, le_rfl, .inl (Nat.le_succ _), nofun, nofun⟩
  | wait h =>
    have hholding := wait_holding h
    cases h with
    | pass => exact ⟨hholding, le_rfl, .inl le_rfl, nofun, nofun⟩
    | refuse hfalse =>
      have hempty := eq_zero_of_predicate hfalse
      exact ⟨hholding, le_rfl, .inr hempty, fun _ => hempty, nofun⟩
    | block => exact ⟨hholding, le_rfl, .inl le_rfl, nofun, fun _ => rfl⟩
    | wake => exact ⟨hholding, le_rfl, .inl (Nat.le_succ _), nofun, nofun⟩
    | retake => exact ⟨hholding, le_rfl, .inl le_rfl, nofun, nofun⟩
  | leave => exact ⟨rfl, le_rfl, .inr rfl, nofun, nofun⟩
  | take => exact ⟨rfl, Nat.le_succ _, .inl le_rfl, nofun, nofun⟩
  | run => exact ⟨rfl, le_rfl, .inl le_rfl, nofun, nofun⟩

theorem woken_callback {front back : List CallbackWorker} {w : CallbackWorker} {held : Bool}
    {queue : ℕ} {state : CallbackState} (hs : Woken s)
    (hw : s.callbackWorkers = front ++ w :: back)
    (h : Moves s.callbackMutex s.callbackQueue w.state held queue state) (idle : ℕ) :
    Woken
      { s with
        callbackMutex := held
        callbackQueue := queue
        idleCallbackWorkers := idle
        callbackWorkers := front ++ { w with state := state } :: back } := by
  have hholding := hs.callbackMutex
  have hchange := h.holding
  have hshrinks := h.shrinks
  rw [hw] at hholding
  simp only [total_append, total_cons] at hholding
  have hothers : ∀ u ∈ front ++ { w with state := state } :: back,
      u ∈ s.callbackWorkers ∨ u.state = state := by
    intro u hu
    rw [hw]
    simp only [List.mem_append, List.mem_cons] at hu ⊢
    rcases hu with hu | rfl | hu
    · exact .inl (.inl hu)
    · exact .inr rfl
    · exact .inl (.inr (.inr hu))
  exact { hs with
    callbackMutex := by
      simp only [total_append, total_cons]
      omega
    refused := fun u hu hrefused => by
      rcases hothers u hu with hold | heq
      · have hempty := hs.refused u hold hrefused
        exact Nat.le_zero.mp (hempty ▸ hshrinks)
      · exact h.refused (heq.symm.trans hrefused)
    queue := fun u hu hblocked => by
      rcases hothers u hu with hold | heq
      · have hqueue := hs.queue u hold hblocked
        simp only [Signals.coming, hw, total_append, total_cons] at hqueue ⊢
        rcases h.served with hserved | hempty
        · omega
        · omega
      · have hempty := hs.refused w (by rw [hw]; simp) (h.blocked (heq.symm.trans hblocked))
        exact (hempty ▸ hshrinks).trans (Nat.zero_le _) }

/-- The workers stay where they are, or sleeping ones wake. -/
theorem Woken.relabel (hs : Woken s) {f : CallbackWorker → CallbackWorker}
    (hholding : ∀ w, (f w).state.holding = w.state.holding)
    (hrefused : ∀ w, (f w).state = .waiting .refused → w.state = .waiting .refused)
    (hblocked : ∀ w, (f w).state ≠ .waiting .blocked) (destructor : Destructor) :
    Woken { s with destructor := destructor, callbackWorkers := s.callbackWorkers.map f } :=
  { hs with
    callbackMutex := by
      rw [← hs.callbackMutex, total, total, List.map_map]
      exact congrArg List.sum (List.map_congr_left fun w _ => hholding w)
    refused := fun u hu heq => by
      rcases List.mem_map.mp hu with ⟨w, hw, rfl⟩
      exact hs.refused w hw (hrefused w heq)
    queue := fun u hu heq => by
      rcases List.mem_map.mp hu with ⟨w, hw, rfl⟩
      exact absurd heq (hblocked w) }

theorem total_state (f : CallbackState → ℕ) (workers : List CallbackWorker) :
    total (fun w => f w.state) workers = ((workers.map (·.state)).map f).sum := by
  rw [total, List.map_map]
  rfl

/-- The stop state of a worker's thread does not matter. -/
theorem Woken.of_states (hs : Woken s) {workers : List CallbackWorker}
    (heq : workers.map (·.state) = s.callbackWorkers.map (·.state)) (destructor : Destructor) :
    Woken { s with destructor := destructor, callbackWorkers := workers } := by
  have hmem (w : CallbackWorker) (hw : w ∈ workers) :
      ∃ u ∈ s.callbackWorkers, u.state = w.state := by
    have hstate := List.mem_map_of_mem hw (f := (·.state))
    rw [heq] at hstate
    exact List.mem_map.mp hstate
  exact { hs with
    callbackMutex := by
      rw [total_state, heq, ← total_state, hs.callbackMutex]
    refused := fun w hw hrefused => by
      rcases hmem w hw with ⟨u, hu, hstate⟩
      exact hs.refused u hu (hstate.trans hrefused)
    queue := fun w hw hblocked => by
      rcases hmem w hw with ⟨u, hu, hstate⟩
      have hqueue := hs.queue u hu (hstate.trans hblocked)
      rw [Signals.coming, total_state, ← heq, ← total_state] at hqueue
      exact hqueue }

theorem woken_destructor (h : DestructorStep s s') (hs : Woken s) : Woken s' := by
  cases h with
  | requestStop | joinWorker | joinOverflow | joinCallback | finish => exact { hs with }
  | notifyAll =>
    exact { hs with
      mutex := by rw [QueryWorker.holding_notify, hs.mutex]
      refusedWorker := fun hw => hs.refusedWorker (QueryWorker.notify_eq_refused.mp hw)
      owed := fun hw => absurd hw s.worker.notify_ne_blocked
      queue := fun w hw hblocked => by
        rw [QueryWorker.notifies_notify]
        exact hs.queue w hw hblocked }
  | @requestCallbackStop front back w h hw =>
    exact hs.of_states (by rw [hw, List.map_append, List.map_append]; rfl) _
  | notifyAllCallbacks =>
    exact hs.relabel CallbackWorker.holding_notify
      (fun w => CallbackWorker.notify_eq_refused.mp) CallbackWorker.notify_ne_blocked _

theorem woken_of_reachable {callbackThreads : ℕ} (h : (system callbackThreads).Reachable s) :
    Woken s := by
  apply h.induct
  · rintro s rfl
    have hworkers : ∀ w ∈ (Signals.connected callbackThreads).callbackWorkers,
        w.state = .locking := fun w hw => by rw [(List.mem_replicate.mp hw).2]
    exact {
      mutex := rfl
      refusedWorker := nofun
      owed := nofun
      callbackMutex := by
        rw [Signals.connected, total_replicate]
        exact Nat.mul_zero _
      refused := fun w hw heq => nomatch (hworkers w hw).symm.trans heq
      queue := fun w hw heq => nomatch (hworkers w hw).symm.trans heq }
  · intro s s' _ hs hstep
    cases hstep with
    | call h => exact woken_call h hs
    | worker h => exact woken_worker h hs
    | callback hw h => exact woken_callback hs hw h.moves _
    | destructor h => exact woken_destructor h hs

/-- A sleeping query worker is owed a notification for the requests in its queue; while a callback
worker sleeps, the queued tasks are no more than the workers on their way to the queue and the
notification that is still to be sent. -/
def NoLostWakeup (s : Signals) : Prop :=
  (s.worker = .waiting .blocked → 0 < s.requests → 0 < s.owedNotifications) ∧
    ∀ w ∈ s.callbackWorkers, w.state = .waiting .blocked →
      s.callbackQueue ≤ s.coming + s.worker.notifies

theorem noLostWakeup_of_reachable {callbackThreads : ℕ}
    (h : (system callbackThreads).Reachable s) : NoLostWakeup s :=
  ⟨(woken_of_reachable h).owed, (woken_of_reachable h).queue⟩

/-- The worker has queued a task and is about to notify a sleeping callback worker. -/
def taskQueued : Signals :=
  { Signals.connected 0 with
    worker := .notifying none
    callbackQueue := 1
    idleCallbackWorkers := 1
    callbackWorkers := [⟨false, .waiting .blocked⟩] }

theorem step_only {w : CallbackWorker} {held : Bool} {queue idle : ℕ} {state : CallbackState}
    (hw : s.callbackWorkers = [w])
    (h : CallbackStep w.stopRequested s.callbackMutex s.callbackQueue s.idleCallbackWorkers
      w.state held queue idle state) :
    Step s
      { s with
        callbackMutex := held
        callbackQueue := queue
        idleCallbackWorkers := idle
        callbackWorkers := [{ w with state := state }] } :=
  @Step.callback s [] [] w held queue idle state hw h

theorem taskQueued_reachable : (system 1).Reachable taskQueued := by
  have h₀ : (system 1).Reachable (Signals.connected 1) := .of_init rfl
  have h₁ := h₀.next (step_only rfl .lock)
  have h₂ := h₁.next (step_only rfl (.wait (.refuse rfl)))
  have h₃ := h₂.next (step_only rfl (.wait .block))
  have h₄ := h₃.next (.call (.push rfl nofun))
  have h₅ := h₄.next (.call (.notifyOne Nat.one_pos))
  have h₆ := h₅.next (.worker (.lock rfl rfl rfl))
  have h₇ := h₆.next (.worker (.wait rfl (.pass rfl)))
  have h₈ := h₇.next (.worker (.take rfl rfl Nat.one_pos))
  have h₉ := h₈.next (.worker (.deliverPosted rfl))
  have h₁₀ := h₉.next (.worker (.seeIdle rfl nofun))
  exact h₁₀.next (.worker (.pushTask rfl rfl))

theorem noLostWakeup_taskQueued : NoLostWakeup taskQueued :=
  noLostWakeup_of_reachable taskQueued_reachable

end PostgresLib.Client.StopSignal
