import PostgresLib.Client.Shutdown
import PostgresLib.Client.Fifo

/-! # Requests that come after the worker has stopped

User callbacks run until the destructor has joined their threads, and may call the
client all the while. Nothing refuses a request once the worker has swapped the
queue out or returned: it stays in the queue, and whoever waits for its future
waits forever.
-/

namespace PostgresLib.Client

open Foundations Connection PostgresClient
open Transaction (query)

variable {σ ρ : Type} {lib : Libpq σ Submission ρ} {heartbeatEnabled : Bool} {callbackThreads : ℕ}
  {s s' : PostgresClient σ ρ}

/-- The stop is caught, and a request that comes after it comes while the worker is in its wait. -/
structure RequestsCaught (s s' : PostgresClient σ ρ) : Prop extends StopCaught s s' where
  call : s.stopRequested = true → s'.pushed ≠ s.pushed → s.worker.inWait = true

theorem RequestsCaught.of_caught (h : StopCaught s s') (hpushed : s'.pushed = s.pushed) :
    RequestsCaught s s' :=
  { h with call := fun _ hne => absurd hpushed hne }

def answeringRuns (lib : Libpq σ Submission ρ) (heartbeatEnabled : Bool) (callbackThreads : ℕ) :
    TransitionSystem (PostgresClient σ ρ) :=
  (system lib heartbeatEnabled callbackThreads).guarded RequestsCaught

/-- With a stop requested, the worker tests its loop next and leaves requests behind. -/
def RequestMissed (s : PostgresClient σ ρ) : Prop := Missed (fun _ => true) s

/-- A request that comes after the stop is missed, exactly if the worker is not in its wait. -/
theorem requestMissed_push (hfree : s.worker.holdsMutex = false)
    {r : Request} {transactions : ℕ → Transaction.State} :
    RequestMissed ({ s with transactions := transactions }.push r) ↔
      s.stopRequested = true ∧ s.worker.inWait = false := by
  constructor
  · exact fun hmissed => ⟨hmissed.1, hmissed.2.1⟩
  · rintro ⟨hstop, hwait⟩
    refine ⟨hstop, hwait, ?_⟩
    have htakes : s.worker.takes = 0 := by
      cases hw : s.worker <;> first | rfl | (rw [hw] at hfree; cases hfree)
    simp [push, htakes]

/-- When the stop comes, the worker misses requests exactly if the queue holds more than the worker
takes and the worker is not in its wait. -/
theorem requestMissed_stop :
    ¬ RequestMissed { s with
        destructor := .joiningWorker, stopRequested := true, pushedBeforeStop := s.pushed } ↔
      s.worker.inWait = true ∨ s.requests.length ≤ s.worker.takes := by
  simp only [RequestMissed, Missed, List.countP_true, true_and, not_and, not_lt]
  cases s.worker.inWait <;> simp

theorem requestMissed_step (hreach : (system lib heartbeatEnabled callbackThreads).Reachable s)
    (h : Step lib heartbeatEnabled callbackThreads s s') :
    (RequestMissed s → RequestMissed s') ∧
      (¬ RequestMissed s → (¬ RequestMissed s' ↔ RequestsCaught s s')) := by
  have hrecorded := stopRecorded_of_reachable hreach
  cases h with
  | connect hw h =>
    have hrunning := hrecorded.running h
    exact ⟨fun hmissed => absurd hmissed (not_missed_of_running hrunning), fun _ => iff_of_true
      (not_missed_of_running hrunning) (.of_caught (.of_running hrunning hrunning) rfl)⟩
  | call h =>
    obtain ⟨transactions, detail, direct, origin, rfl, haccepts, -⟩ := h.eq_push
    rw [requestMissed_push haccepts.1]
    refine ⟨fun hmissed => ⟨hmissed.1, hmissed.2.1⟩, fun _ => ?_⟩
    constructor
    · intro hnot
      refine { StopCaught.of_unmoved rfl rfl with call := fun hstop _ => ?_ }
      simpa using fun hwait => hnot ⟨hstop, hwait⟩
    · rintro hok ⟨hstop, hwait⟩
      have hpushed : ({ s with transactions := transactions }.push
          (s.next detail direct origin)).pushed ≠ s.pushed := by simp [push]
      rw [hok.call hstop hpushed] at hwait
      cases hwait
  | worker h =>
    have hstop : s'.stopRequested = s.stopRequested := by cases h <;> rfl
    rcases missed_worker (fun _ => true) (fun _ _ _ _ => rfl) h with ⟨hkept, hexact⟩
    refine ⟨hkept, fun hnot => (hexact hnot).trans ⟨fun hbeat => ?_, fun hok => hok.beat⟩⟩
    refine .of_caught ⟨fun hfalse htrue => ?_, hbeat⟩ h.pushed_eq
    exact absurd (hfalse.symm.trans (hstop.symm.trans htrue)) Bool.false_ne_true
  | callback h =>
    have hiff : RequestMissed s' ↔ RequestMissed s := by cases h <;> exact Iff.rfl
    have hcaught : StopCaught s s' := by cases h <;> exact .of_unmoved rfl rfl
    have hpushed : s'.pushed = s.pushed := by cases h <;> rfl
    exact ⟨hiff.mpr, fun hnot =>
      iff_of_true (fun hmissed => hnot (hiff.mp hmissed)) (.of_caught hcaught hpushed)⟩
  | destructor h =>
    cases h with
    | stopWorker h =>
      have hrunning := hrecorded.running h
      refine ⟨fun hmissed => absurd hmissed (not_missed_of_running hrunning), fun _ => ?_⟩
      rw [requestMissed_stop]
      constructor
      · intro hcaught
        exact .of_caught ⟨fun _ _ => hcaught, fun hstop => by simp [hrunning] at hstop⟩ rfl
      · exact fun hok => hok.stop hrunning rfl
    | joinWorker | joinOverflow | stopCallbacks | joinCallbacks =>
      exact ⟨id, fun hnot => iff_of_true hnot (.of_caught (.of_unmoved rfl rfl) rfl)⟩

theorem answeringRuns_iff (h : (system lib heartbeatEnabled callbackThreads).Reachable s) :
    (answeringRuns lib heartbeatEnabled callbackThreads).Reachable s ↔ ¬ RequestMissed s := by
  apply TransitionSystem.Reachable.guarded_iff _ _ _ h
  · rintro s ⟨connection, rfl⟩ hmissed
    cases hmissed.1
  · exact fun s s' hreach hstep hnot => (requestMissed_step hreach hstep).2 hnot
  · exact fun s s' hreach hstep hmissed => (requestMissed_step hreach hstep).1 hmissed

/-- The worker executes what it has taken, and takes what is in the queue when it has the mutex. -/
theorem WorkerStep.executes (h : WorkerStep lib heartbeatEnabled s s') :
    ∀ r ∈ s'.executed ++ s'.worker.holds,
      r ∈ s.executed ++ s.worker.holds ∨ s.worker = .taking ∧ r ∈ s.requests := by
  intro r hr
  cases h with
  | take hw hqueue =>
    rcases List.mem_append.mp hr with hold | hnew
    · exact .inl (List.mem_append_left _ hold)
    · rw [List.mem_singleton.mp hnew, hqueue]
      exact .inr ⟨hw, List.mem_cons_self⟩
  | execute hw | hang hw =>
    rw [executed_execute] at hr
    rw [hw]
    rcases List.mem_append.mp hr with hexecuted | hheld
    · exact .inl hexecuted
    · cases hheld
  | ping hw | hangBeat hw =>
    rw [executed_execute] at hr
    rcases List.mem_append.mp hr with hexecuted | hheld
    · exact .inl (List.mem_append_left _ (by simpa [Submission.request?] using hexecuted))
    · cases hheld
  | overflow | pushTask =>
    rw [Worker.holds_resume, List.append_nil] at hr
    exact .inl (List.mem_append_left _ hr)
  | _ =>
    rcases List.mem_append.mp hr with hexecuted | hheld
    · exact .inl (List.mem_append_left _ hexecuted)
    · cases hheld

/-- Once a stop is requested, what is executed was pushed before it. -/
def ExecutesEarly (s : PostgresClient σ ρ) : Prop :=
  s.stopRequested = true → ∀ r ∈ s.executed ++ s.worker.holds, r ∈ s.pushedBeforeStop

theorem executesEarly_step (hreach : (system lib heartbeatEnabled callbackThreads).Reachable s)
    (hs : ExecutesEarly s) (h : Step lib heartbeatEnabled callbackThreads s s') :
    ExecutesEarly s' := by
  intro hstop r hr
  cases h with
  | connect hw =>
    rcases List.mem_append.mp hr with hexecuted | hheld
    · exact hs hstop r (List.mem_append_left _ hexecuted)
    · cases hheld
  | call h =>
    obtain ⟨transactions, detail, direct, origin, rfl, -, -⟩ := h.eq_push
    exact hs hstop r hr
  | worker h =>
    have hbefore : s'.pushedBeforeStop = s.pushedBeforeStop := by cases h <;> rfl
    have hsame : s'.stopRequested = s.stopRequested := by cases h <;> rfl
    rw [hsame] at hstop
    rw [hbefore]
    rcases h.executes r hr with hold | ⟨hw, hqueued⟩
    · exact hs hstop r hold
    · exact queuedBeforeStop_of_reachable hreach hstop (.inr hw) r hqueued
  | callback h => cases h <;> exact hs hstop r hr
  | destructor h =>
    cases h with
    | stopWorker =>
      rcases List.mem_append.mp hr with hexecuted | hheld
      · exact (sequenced_of_reachable hreach).1.subset hexecuted
      · refine mem_owes hreach ?_
        cases hw : s.worker <;> rw [hw] at hheld <;> first | exact hheld | cases hheld
    | joinWorker | joinOverflow | stopCallbacks | joinCallbacks => exact hs hstop r hr

theorem executesEarly_of_reachable
    (h : (system lib heartbeatEnabled callbackThreads).Reachable s) : ExecutesEarly s := by
  apply h.induct
  · rintro s ⟨connection, rfl⟩
    exact nofun
  · exact fun s s' hreach hs hstep => executesEarly_step hreach hs hstep

/-- The answer to a request that came after the stop is the error of the drain. -/
theorem refused_of_late (h : (system lib heartbeatEnabled callbackThreads).Reachable s)
    (hstop : s.stopRequested = true) {r : Request} (hr : r ∈ s.pushed)
    (hlate : r ∉ s.pushedBeforeStop) {task : Task ρ} (htask : task ∈ s.answered)
    (hid : task.id = r.id) : task.outcome = .error workerStopped := by
  rcases (refusesUnexecuted_of_reachable h).answered task htask with
    ⟨x, hx, r', hr', hid', -⟩ | ⟨-, hrefused, -⟩
  · -- it would have been executed, and so pushed before the stop
    have hexecuted : r' ∈ s.executed := List.mem_filterMap.mpr ⟨x, hx, by rw [hr']; rfl⟩
    have heq : r' = r :=
      eq_of_id_eq h ((sequenced_of_reachable h).1.subset hexecuted) hr (hid'.trans hid)
    have hearly := executesEarly_of_reachable h hstop r' (List.mem_append_left _ hexecuted)
    exact absurd (heq ▸ hearly) hlate
  · exact hrefused

/-- The queue is empty, every request that was ever made has had one of its callbacks invoked or
handed to `PostCallback`, once, and one that came after the stop with an error. -/
structure AllAnswered (s : PostgresClient σ ρ) : Prop where
  emptied : s.requests = []
  once : ∀ r ∈ s.pushed, s.answered.countP (·.id = r.id) = 1
  refused : ∀ r ∈ s.pushed, r ∉ s.pushedBeforeStop → ⟨r.id, .error workerStopped⟩ ∈ s.answered

theorem allAnswered_of_emptied (h : (system lib heartbeatEnabled callbackThreads).Reachable s)
    (hexited : s.worker = .exited) (hempty : s.requests = []) : AllAnswered s := by
  have hstop : s.stopRequested = true :=
    (stopRecorded_of_reachable h).stopped (by rw [hexited]; rfl)
  have honce : ∀ r ∈ s.pushed, s.answered.countP (·.id = r.id) = 1 := by
    refine fun r hr => answered_once h hr ?_ ?_
    · rw [hexited]
      exact List.not_mem_nil
    · rw [hempty]
      exact List.not_mem_nil
  refine ⟨hempty, honce, fun r hr hlate => ?_⟩
  have hpos : 0 < s.answered.countP (·.id = r.id) := by
    rw [honce r hr]
    exact Nat.one_pos
  rcases List.countP_pos_iff.mp hpos with ⟨⟨id, outcome⟩, htask, hid⟩
  obtain rfl : id = r.id := by simpa using hid
  obtain rfl : outcome = .error workerStopped := refused_of_late h hstop hr hlate htask rfl
  exact htask

/-- When `QueryWorker` has returned, all requests have been answered, those that came after the stop
with an error, exactly if the stop was caught and every request that came after it came while the
worker was in its wait. -/
theorem answered_iff_caught (h : (system lib heartbeatEnabled callbackThreads).Reachable s)
    (hexited : s.worker = .exited) :
    AllAnswered s ↔ (answeringRuns lib heartbeatEnabled callbackThreads).Reachable s := by
  have hstop : s.stopRequested = true :=
    (stopRecorded_of_reachable h).stopped (by rw [hexited]; rfl)
  rw [answeringRuns_iff h]
  constructor
  · rintro hall ⟨-, -, hcount⟩
    rw [hall.emptied] at hcount
    exact Nat.not_lt_zero _ hcount
  · intro hnot
    apply allAnswered_of_emptied h hexited
    by_contra hne
    refine hnot ⟨hstop, by rw [hexited]; rfl, ?_⟩
    rw [hexited, List.countP_true]
    exact List.length_pos_of_ne_nil hne

/-- A client whose worker was waiting when the stop came, and a request after it. -/
def lateInWait : PostgresClient (Server Submission) Submission :=
  { start (Server.fresh []) with
    stopRequested := true
    worker := .exited
    destructor := .joiningWorker
    pushed := [plainRequest 0 "SELECT 1", plainRequest 1 "SELECT 2"]
    pushedBeforeStop := [plainRequest 0 "SELECT 1"]
    answered := [⟨0, .error workerStopped⟩, ⟨1, .error workerStopped⟩]
    invoked := [⟨0, .error workerStopped⟩, ⟨1, .error workerStopped⟩] }

theorem lateInWait_caught : (answeringRuns server false 0).Reachable lateInWait := by
  have hkeeps {s s' : PostgresClient (Server Submission) Submission}
      (h : s'.stopRequested = s.stopRequested) (hw : s'.worker ≠ .heartbeat)
      (hpushed : s'.pushed = s.pushed) : RequestsCaught s s' :=
    .of_caught ⟨fun hfalse htrue =>
      absurd (hfalse.symm.trans (h.symm.trans htrue)) Bool.false_ne_true,
      fun _ _ hw' => absurd hw' hw⟩ hpushed
  have h₀ : (answeringRuns server false 0).Reachable (start (Server.fresh [])) := .of_init ⟨_, rfl⟩
  have h₁ := h₀.next ⟨.connect rfl rfl, hkeeps rfl nofun rfl⟩
  have h₂ := h₁.next ⟨.worker (.lock rfl rfl), hkeeps rfl nofun rfl⟩
  have h₃ := h₂.next ⟨.worker (.wait rfl), hkeeps rfl nofun rfl⟩
  have h₄ := h₃.next ⟨.call (.execute (.ofQuery (query "SELECT 1") 0) ⟨rfl, nofun⟩),
    ⟨.of_unmoved rfl rfl, nofun⟩⟩
  have h₅ := h₄.next ⟨.destructor (.stopWorker rfl nofun), ⟨fun _ _ => .inl rfl, nofun⟩, nofun⟩
  have h₆ := h₅.next ⟨.call (.execute (.ofQuery (query "SELECT 2") 0) ⟨rfl, nofun⟩),
    ⟨.of_unmoved rfl rfl, fun _ _ => rfl⟩⟩
  have h₇ := h₆.next ⟨.worker (.wake rfl (.inl rfl)), hkeeps rfl nofun rfl⟩
  have h₈ := h₇.next ⟨.worker (.drain rfl rfl), hkeeps rfl nofun rfl⟩
  have h₉ := h₈.next ⟨.worker (.drainOne rfl rfl), hkeeps rfl nofun rfl⟩
  have h₁₀ := h₉.next ⟨.worker (.drainOne rfl rfl), hkeeps rfl nofun rfl⟩
  exact h₁₀.next ⟨.worker (.drained rfl), hkeeps rfl nofun rfl⟩

theorem answered_lateInWait : AllAnswered lateInWait :=
  (answered_iff_caught lateInWait_caught.of_guarded rfl).mpr lateInWait_caught

def asyncRequest : Request := ⟨0, .ofQuery (query "SELECT 1") 0, false, .client⟩

def executingAsync : PostgresClient (Server Submission) Submission :=
  { start (Server.fresh []) with
    worker := .executing asyncRequest
    pushed := [asyncRequest] }

def callbackRunning : PostgresClient (Server Submission) Submission :=
  { ((executingAsync.execute server ⟨.request asyncRequest, Server.fresh [], 3⟩
      (.delivering asyncRequest (.ok (.request asyncRequest)))).post
        ⟨0, .ok (.request asyncRequest)⟩ none) with
    worker := .loopTest
    overflowThreads := [.running ⟨0, .ok (.request asyncRequest)⟩] }

theorem callbackRunning_reachable : plainRuns.Reachable callbackRunning := by
  have h₀ : plainRuns.Reachable (start (Server.fresh [])) := .of_init ⟨_, rfl⟩
  have h₁ := h₀.next (.connect rfl rfl)
  have h₂ := h₁.next (.call (.executeAsync (.ofQuery (query "SELECT 1") 0) ⟨rfl, nofun⟩))
  have h₃ : plainRuns.Reachable executingAsync := h₂.run (taken rfl rfl rfl)
  have h₄ := h₃.next (.worker (.execute rfl 3 (server_result _ 0 [])))
  have h₅ := h₄.next (.worker (.deliverPosted rfl rfl))
  have h₆ := h₅.next (.worker (.overflow rfl rfl))
  exact h₆

/-- A callback that calls `execute` while the destructor waits for its thread: the worker has
returned, the request stays in the queue, and nobody answers it. -/
theorem request_after_worker :
    ¬ ∀ s : PostgresClient (Server Submission) Submission, plainRuns.Reachable s →
      s.worker = .exited → AllAnswered s := by
  have h₁ := callbackRunning_reachable.next (.destructor (.stopWorker rfl nofun))
  have h₂ := h₁.next (.worker (.leave rfl rfl))
  have h₃ := h₂.next (.destructor (.joinWorker rfl rfl))
  have h₄ := h₃.next (.call (.execute (.ofQuery (query "SELECT 2") 0) ⟨rfl, nofun⟩))
  intro hall
  have hlast := (hall _ h₄ rfl).emptied
  cases hlast

end PostgresLib.Client
