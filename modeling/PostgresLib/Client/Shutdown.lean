import PostgresLib.Client.Requests
import PostgresLib.Connection.Server

/-! # What a stop leaves unanswered

The queue is drained where the worker sees the stop after a wait. The test of its
loop also sees the stop, and returns at once: a request that is in the queue then
is answered by nobody. So everything depends on where the worker is when the stop
comes.
-/

namespace PostgresLib.Client

open Foundations Connection PostgresClient
open Transaction (query)

variable {σ ρ : Type} {lib : Libpq σ Submission ρ} {heartbeatEnabled : Bool} {callbackThreads : ℕ}
  {s s' : PostgresClient σ ρ}

/-- The worker stops only when it sees the stop. -/
theorem WorkerStep.stops (h : WorkerStep lib heartbeatEnabled s s')
    (hstopped : s'.worker.stopped = true) : s.worker.stopped = true ∨ s.stopRequested = true := by
  cases h with
  | leave hw h => exact .inr h
  | drain hw h => exact .inr h
  | overflow hw | pushTask hw =>
    rw [Worker.stopped_resume] at hstopped
    rw [hw]
    exact .inl hstopped
  | seeIdle hw | deliverPosted hw | drainOne hw | drainPosted hw | drained hw =>
    rw [hw]
    exact .inl hstopped
  | _ => cases hstopped

structure StopRecorded (s : PostgresClient σ ρ) : Prop where
  running : s.destructor = .uncalled → s.stopRequested = false
  seen : ∀ r ∈ s.pushedBeforeStop, r ∈ s.pushed
  stopped : s.worker.stopped = true → s.stopRequested = true

theorem stopRecorded_worker (h : WorkerStep lib heartbeatEnabled s s') (hs : StopRecorded s) :
    StopRecorded s' := by
  have hstopped : s'.worker.stopped = true → s.stopRequested = true := by
    intro hstopped
    rcases h.stops hstopped with h | h
    · exact hs.stopped h
    · exact h
  cases h <;> exact ⟨hs.running, hs.seen, hstopped⟩

theorem stopRecorded_step (h : Step lib heartbeatEnabled callbackThreads s s')
    (hs : StopRecorded s) : StopRecorded s' := by
  cases h with
  | connect hw => exact ⟨hs.running, hs.seen, nofun⟩
  | call h =>
    obtain ⟨transactions, detail, direct, origin, rfl, -, -⟩ := h.eq_push
    exact ⟨hs.running, fun r hr => List.mem_append_left _ (hs.seen r hr), hs.stopped⟩
  | worker h => exact stopRecorded_worker h hs
  | callback h => cases h <;> exact ⟨hs.running, hs.seen, hs.stopped⟩
  | destructor h =>
    cases h with
    | stopWorker h => exact ⟨nofun, fun r hr => hr, fun _ => rfl⟩
    | joinWorker h | joinOverflow h | stopCallbacks h | joinCallbacks h =>
      exact ⟨nofun, hs.seen, hs.stopped⟩

theorem stopRecorded_of_reachable (h : (system lib heartbeatEnabled callbackThreads).Reachable s) :
    StopRecorded s := by
  apply h.induct
  · rintro s ⟨connection, rfl⟩
    exact ⟨fun _ => rfl, nofun, nofun⟩
  · exact fun s s' _ hs hstep => stopRecorded_step hstep hs

theorem requests_subset (h : (system lib heartbeatEnabled callbackThreads).Reachable s) :
    s.requests ⊆ s.pushed := by
  rcases placed_of_reachable h with ⟨finished, -, hplaces⟩
  rw [← hplaces]
  exact fun r hr => List.mem_append_right _ (List.mem_append_right _ hr)

namespace Worker

/-- The worker has tested its loop and not yet tested the stop after its wait. -/
def inWait : Worker ρ → Bool
  | locked | waiting | woken => true
  | _ => false

/-- The requests that the worker takes before it tests its loop again. -/
def takes : Worker ρ → ℕ
  | taking => 1
  | _ => 0

@[simp] theorem inWait_resume (pending : Option (List Request)) :
    (resume pending : Worker ρ).inWait = false := by
  cases pending <;> rfl

@[simp] theorem takes_resume (pending : Option (List Request)) :
    (resume pending : Worker ρ).takes = 0 := by
  cases pending <;> rfl

end Worker

/-- A stop comes while the worker is in its wait, or while the queue holds no more than the worker
takes before it tests its loop again; and no heartbeat begins between the two tests when the stop
has come and the queue is not empty. -/
structure StopCaught (s s' : PostgresClient σ ρ) : Prop where
  stop : s.stopRequested = false → s'.stopRequested = true →
    s.worker.inWait = true ∨ s.requests.length ≤ s.worker.takes
  beat : s.stopRequested = true → s.worker = .locked → s'.worker = .heartbeat → s.requests = []

theorem StopCaught.of_running (hs : s.stopRequested = false) (hs' : s'.stopRequested = false) :
    StopCaught s s' where
  stop _ hstop := absurd (hs'.symm.trans hstop) Bool.false_ne_true
  beat hstop := absurd (hs.symm.trans hstop) Bool.false_ne_true

theorem StopCaught.of_unmoved (hstop : s'.stopRequested = s.stopRequested)
    (hworker : s'.worker = s.worker) : StopCaught s s' where
  stop hfalse htrue := absurd (hfalse.symm.trans (hstop.symm.trans htrue)) Bool.false_ne_true
  beat _ hw hw' := by
    rw [hworker, hw] at hw'
    cases hw'

/-- The runs in which the stop comes at such a time. -/
def caughtRuns (lib : Libpq σ Submission ρ) (heartbeatEnabled : Bool) (callbackThreads : ℕ) :
    TransitionSystem (PostgresClient σ ρ) :=
  (system lib heartbeatEnabled callbackThreads).guarded StopCaught

/-- With a stop requested, the worker tests its loop next and leaves requests of a kind behind. -/
def Missed (kind : Request → Bool) (s : PostgresClient σ ρ) : Prop :=
  s.stopRequested = true ∧ s.worker.inWait = false ∧ s.worker.takes < s.requests.countP kind

/-- While a stop comes between two tests of a worker with the mutex, nothing is pushed. -/
def QueuedBeforeStop (s : PostgresClient σ ρ) : Prop :=
  s.stopRequested = true → s.worker = .locked ∨ s.worker = .taking →
    ∀ r ∈ s.requests, r ∈ s.pushedBeforeStop

theorem queuedBeforeStop_step (hreach : (system lib heartbeatEnabled callbackThreads).Reachable s)
    (hs : QueuedBeforeStop s) (h : Step lib heartbeatEnabled callbackThreads s s') :
    QueuedBeforeStop s' := by
  intro hstop hw'
  cases h with
  | connect => simp at hw'
  | call h =>
    obtain ⟨transactions, detail, direct, origin, rfl, haccepts, -⟩ := h.eq_push
    have hfree : s.worker.holdsMutex = false := haccepts.1
    rcases hw' with hw | hw <;> simp [push] at hw <;> rw [hw] at hfree <;> cases hfree
  | worker h =>
    cases h with
    | lock hw h | goOn hw h => exact absurd (h.symm.trans hstop) Bool.false_ne_true
    | @overflow task pending | @pushTask task pending =>
      cases pending <;> simp [Worker.resume] at hw'
    | _ => simp [execute, invoke, post] at hw'
  | callback h => cases h <;> exact hs hstop hw'
  | destructor h =>
    cases h with
    | stopWorker => exact fun r hr => requests_subset hreach hr
    | joinWorker | joinOverflow | stopCallbacks | joinCallbacks => exact hs hstop hw'

theorem queuedBeforeStop_of_reachable
    (h : (system lib heartbeatEnabled callbackThreads).Reachable s) : QueuedBeforeStop s := by
  apply h.induct
  · rintro s ⟨connection, rfl⟩
    exact nofun
  · exact fun s s' hreach hs hstep => queuedBeforeStop_step hreach hs hstep

section Missed

variable {kind : Request → Bool}

theorem not_missed_of_running (h : s.stopRequested = false) : ¬ Missed kind s :=
  fun hmissed => absurd (h.symm.trans hmissed.1) Bool.false_ne_true

/-- A step of the worker that neither begins a wait nor ends one, and leaves the queue alone. -/
theorem missed_same (hstop : s'.stopRequested = s.stopRequested)
    (hrequests : s'.requests = s.requests) (hwait : s.worker.inWait = false)
    (hwait' : s'.worker.inWait = false) (htakes : s'.worker.takes = s.worker.takes) :
    (Missed kind s → Missed kind s') ∧
      (¬ Missed kind s → (¬ Missed kind s' ↔
        (s.stopRequested = true → s.worker = .locked → s'.worker = .heartbeat →
          s.requests = []))) := by
  have hiff : Missed kind s' ↔ Missed kind s := by
    rw [Missed, Missed, hstop, hrequests, hwait, hwait', htakes]
  refine ⟨hiff.mpr, fun hnot => iff_of_true (fun hmissed => hnot (hiff.mp hmissed)) ?_⟩
  intro _ hw
  rw [hw] at hwait
  cases hwait

variable (kind) in
/-- Once the worker misses requests it goes on to miss them; and it comes to miss some only by a
heartbeat between the tests, when the queue holds requests of the kind only. -/
theorem missed_worker (hkind : s.stopRequested = true → s.worker = .locked ∨ s.worker = .taking →
      ∀ r ∈ s.requests, kind r = true)
    (h : WorkerStep lib heartbeatEnabled s s') :
    (Missed kind s → Missed kind s') ∧
      (¬ Missed kind s → (¬ Missed kind s' ↔
        (s.stopRequested = true → s.worker = .locked → s'.worker = .heartbeat →
          s.requests = []))) := by
  cases h with
  | leave hw | ping hw | execute hw | hangBeat hw | hang hw | deliver hw | deliverPosted hw
  | drainOne hw | drainPosted hw | drained hw | seeIdle hw =>
    exact missed_same rfl rfl (by rw [hw]; rfl) rfl (by rw [hw]; rfl)
  | @overflow task pending hw | @pushTask task pending hw =>
    exact missed_same rfl rfl (by rw [hw]; rfl) (Worker.inWait_resume pending)
      (by rw [hw]; exact Worker.takes_resume pending)
  | lock hw h | goOn hw h =>
    refine ⟨fun hmissed => absurd hmissed (not_missed_of_running h), fun _ => ?_⟩
    exact iff_of_true (not_missed_of_running h) (by simp [hw])
  | beat hw =>
    refine ⟨fun hmissed => ?_, fun _ => ⟨fun hnot hstop _ _ => ?_, fun hempty hmissed => ?_⟩⟩
    · rw [Missed, hw] at hmissed
      cases hmissed.2.1
    · have hzero : s.requests.countP kind = 0 := by
        by_contra hpos
        exact hnot ⟨hstop, rfl, Nat.pos_of_ne_zero hpos⟩
      rw [List.countP_eq_zero] at hzero
      refine List.eq_nil_iff_forall_not_mem.mpr fun r hr => hzero r hr ?_
      exact hkind hstop (.inl hw) r hr
    · have hcount : 0 < s.requests.countP kind := hmissed.2.2
      rw [hempty hmissed.1 hw rfl] at hcount
      exact Nat.lt_irrefl 0 hcount
  | wait hw | wake hw | timeOut hw =>
    refine ⟨fun hmissed => ?_, fun _ => iff_of_true ?_ (by simp)⟩
    · rw [Missed, hw] at hmissed
      cases hmissed.2.1
    · exact fun hmissed => absurd hmissed.2.1 (by simp [Worker.inWait])
  | drain hw =>
    refine ⟨fun hmissed => ?_, fun _ => iff_of_true ?_ (by simp)⟩
    · rw [Missed, hw] at hmissed
      cases hmissed.2.1
    · exact fun hmissed => absurd hmissed.2.2 (by simp)
  | takeNone hw h =>
    refine ⟨fun hmissed => ?_, fun _ => iff_of_true ?_ (by simp)⟩
    · have hcount := hmissed.2.2
      rw [h] at hcount
      exact absurd hcount (Nat.not_lt_zero _)
    · intro hmissed
      have hcount : 0 < s.requests.countP kind := hmissed.2.2
      rw [h] at hcount
      exact Nat.lt_irrefl 0 hcount
  | @take r rest hw h =>
    constructor
    · intro hmissed
      have hcount := hmissed.2.2
      rw [h, hw, List.countP_cons] at hcount
      refine ⟨hmissed.1, rfl, ?_⟩
      simp only [Worker.takes] at hcount ⊢
      split_ifs at hcount <;> omega
    · intro hnot
      refine iff_of_true (fun hmissed => hnot ⟨hmissed.1, by rw [hw]; rfl, ?_⟩) (by simp)
      have hr : kind r = true :=
        hkind hmissed.1 (.inr hw) r (by rw [h]; exact List.mem_cons_self)
      have hcount : 0 < rest.countP kind := hmissed.2.2
      rw [h, hw, List.countP_cons_of_pos hr]
      exact Nat.succ_lt_succ hcount

end Missed

/-- The worker misses requests that were pushed before the stop. -/
def StopMissed (s : PostgresClient σ ρ) : Prop := Missed (fun r => r ∈ s.pushedBeforeStop) s

/-- A request that is pushed after the stop has a number that none before the stop has. -/
theorem next_not_before (hreach : (system lib heartbeatEnabled callbackThreads).Reachable s)
    (detail : Wire.PgParamDetail) (direct : Bool) (origin : Origin) :
    s.next detail direct origin ∉ s.pushedBeforeStop := by
  intro hmem
  have hid := List.mem_map_of_mem ((stopRecorded_of_reachable hreach).seen _ hmem)
    (f := Request.id)
  rw [numbered_of_reachable hreach] at hid
  exact Nat.lt_irrefl _ (List.mem_range.mp hid)

/-- When a stop comes the worker misses it, exactly if the queue holds more than the worker takes
and the worker is not in its wait. -/
theorem stopMissed_stop (hreach : (system lib heartbeatEnabled callbackThreads).Reachable s) :
    ¬ StopMissed { s with
        destructor := .joiningWorker, stopRequested := true, pushedBeforeStop := s.pushed } ↔
      s.worker.inWait = true ∨ s.requests.length ≤ s.worker.takes := by
  have hall : s.requests.countP (fun r => r ∈ s.pushed) = s.requests.length :=
    List.countP_eq_length.mpr fun r hr => by simpa using requests_subset hreach hr
  simp only [StopMissed, Missed, hall, true_and, not_and, not_lt]
  cases s.worker.inWait <;> simp

theorem stopMissed_step (hreach : (system lib heartbeatEnabled callbackThreads).Reachable s)
    (h : Step lib heartbeatEnabled callbackThreads s s') :
    (StopMissed s → StopMissed s') ∧ (¬ StopMissed s → (¬ StopMissed s' ↔ StopCaught s s')) := by
  have hrecorded := stopRecorded_of_reachable hreach
  cases h with
  | connect hw h =>
    have hrunning := hrecorded.running h
    exact ⟨fun hmissed => absurd hmissed (not_missed_of_running hrunning), fun _ =>
      iff_of_true (not_missed_of_running hrunning) (.of_running hrunning hrunning)⟩
  | call h =>
    obtain ⟨transactions, detail, direct, origin, rfl, -, -⟩ := h.eq_push
    have hsame : (s.requests ++ [s.next detail direct origin]).countP
        (fun r => r ∈ s.pushedBeforeStop) =
          s.requests.countP fun r => r ∈ s.pushedBeforeStop := by
      have hnew := next_not_before hreach detail direct origin
      rw [List.countP_append, List.countP_singleton, if_neg (by simpa using hnew), Nat.add_zero]
    have hiff : StopMissed ({ s with transactions := transactions }.push
        (s.next detail direct origin)) ↔ StopMissed s :=
      and_congr Iff.rfl (and_congr Iff.rfl (iff_of_eq (congrArg (s.worker.takes < ·) hsame)))
    exact ⟨hiff.mpr, fun hnot =>
      iff_of_true (fun hmissed => hnot (hiff.mp hmissed)) (.of_unmoved rfl rfl)⟩
  | worker h =>
    have hbefore : s'.pushedBeforeStop = s.pushedBeforeStop := by cases h <;> rfl
    have hstop : s'.stopRequested = s.stopRequested := by cases h <;> rfl
    rcases missed_worker (fun r => r ∈ s.pushedBeforeStop)
      (fun hstop hw r hr => by simpa using queuedBeforeStop_of_reachable hreach hstop hw r hr) h
      with ⟨hkept, hexact⟩
    rw [StopMissed, StopMissed, hbefore]
    refine ⟨hkept, fun hnot => (hexact hnot).trans ⟨fun hbeat => ⟨?_, hbeat⟩, fun hok => hok.beat⟩⟩
    intro hfalse htrue
    exact absurd (hfalse.symm.trans (hstop.symm.trans htrue)) Bool.false_ne_true
  | callback h =>
    have hiff : StopMissed s' ↔ StopMissed s := by cases h <;> exact Iff.rfl
    have hcaught : StopCaught s s' := by cases h <;> exact .of_unmoved rfl rfl
    exact ⟨hiff.mpr, fun hnot => iff_of_true (fun hmissed => hnot (hiff.mp hmissed)) hcaught⟩
  | destructor h =>
    cases h with
    | stopWorker h =>
      have hrunning := hrecorded.running h
      refine ⟨fun hmissed => absurd hmissed (not_missed_of_running hrunning), fun _ => ?_⟩
      rw [stopMissed_stop hreach]
      constructor
      · exact fun hcaught => ⟨fun _ _ => hcaught, fun hstop => by simp [hrunning] at hstop⟩
      · exact fun hok => hok.stop hrunning rfl
    | joinWorker | joinOverflow | stopCallbacks | joinCallbacks =>
      exact ⟨id, fun hnot => iff_of_true hnot (.of_unmoved rfl rfl)⟩

theorem caughtRuns_iff (h : (system lib heartbeatEnabled callbackThreads).Reachable s) :
    (caughtRuns lib heartbeatEnabled callbackThreads).Reachable s ↔ ¬ StopMissed s := by
  apply TransitionSystem.Reachable.guarded_iff _ _ _ h
  · rintro s ⟨connection, rfl⟩ hmissed
    cases hmissed.1
  · exact fun s s' hreach hstep hnot => (stopMissed_step hreach hstep).2 hnot
  · exact fun s s' hreach hstep hmissed => (stopMissed_step hreach hstep).1 hmissed

/-- When `QueryWorker` has returned, every request that was pushed before the stop has had one of
its callbacks invoked or handed to `PostCallback`, once, and is not in the queue, exactly if the
stop came while the worker was in its wait or the queue held nothing that the worker would leave. -/
theorem completed_iff_caught (h : (system lib heartbeatEnabled callbackThreads).Reachable s)
    (hexited : s.worker = .exited) :
    (∀ r ∈ s.pushedBeforeStop, s.answered.countP (·.id = r.id) = 1 ∧ r ∉ s.requests) ↔
      (caughtRuns lib heartbeatEnabled callbackThreads).Reachable s := by
  have hrecorded := stopRecorded_of_reachable h
  have hstop : s.stopRequested = true := hrecorded.stopped (by rw [hexited]; rfl)
  rw [caughtRuns_iff h]
  constructor
  · rintro hcompleted ⟨-, -, hcount⟩
    rcases List.countP_pos_iff.mp (Nat.zero_lt_of_lt hcount) with ⟨r, hr, hbefore⟩
    exact (hcompleted r (by simpa using hbefore)).2 hr
  · intro hnot r hr
    have hqueued : r ∉ s.requests := by
      intro hmem
      refine hnot ⟨hstop, by rw [hexited]; rfl, ?_⟩
      rw [hexited]
      exact List.countP_pos_iff.mpr ⟨r, hmem, by simpa using hr⟩
    have howed : r ∉ s.worker.owes := by
      rw [hexited]
      exact List.not_mem_nil
    exact ⟨answered_once h (hrecorded.seen r hr) howed hqueued, hqueued⟩

/-- A request for the text of a query, made by `execute`. -/
def plainRequest (id : ℕ) (text : String) : Request := ⟨id, .ofQuery (query text) 0, true, .client⟩

/-- The runs of a client without heartbeat and callback workers on a server that is always up. -/
abbrev plainRuns : TransitionSystem (PostgresClient (Server Submission) Submission) :=
  system server false 0

/-- A client whose worker was waiting when a request and then the stop came. -/
def stoppedInWait : PostgresClient (Server Submission) Submission :=
  { start (Server.fresh []) with
    stopRequested := true
    worker := .exited
    destructor := .joiningWorker
    pushed := [plainRequest 0 "SELECT 1"]
    pushedBeforeStop := [plainRequest 0 "SELECT 1"]
    answered := [⟨0, .error workerStopped⟩]
    invoked := [⟨0, .error workerStopped⟩] }

theorem stoppedInWait_caught : (caughtRuns server false 0).Reachable stoppedInWait := by
  have h₀ : (caughtRuns server false 0).Reachable (start (Server.fresh [])) := .of_init ⟨_, rfl⟩
  have h₁ := h₀.next ⟨.connect rfl rfl, .of_running rfl rfl⟩
  have h₂ := h₁.next ⟨.worker (.lock rfl rfl), .of_running rfl rfl⟩
  have h₃ := h₂.next ⟨.worker (.wait rfl), .of_running rfl rfl⟩
  have h₄ := h₃.next ⟨.call (.execute (.ofQuery (query "SELECT 1") 0) ⟨rfl, nofun⟩),
    .of_running rfl rfl⟩
  -- the stop comes while the worker waits
  have h₅ := h₄.next ⟨.destructor (.stopWorker rfl nofun), fun _ _ => .inl rfl, nofun⟩
  have h₆ := h₅.next ⟨.worker (.wake rfl (.inl rfl)), nofun, nofun⟩
  have h₇ := h₆.next ⟨.worker (.drain rfl rfl), nofun, nofun⟩
  have h₈ := h₇.next ⟨.worker (.drainOne rfl rfl), nofun, nofun⟩
  exact h₈.next ⟨.worker (.drained rfl), nofun, nofun⟩

theorem completed_stoppedInWait :
    stoppedInWait.answered.countP (·.id = 0) = 1 ∧
      plainRequest 0 "SELECT 1" ∉ stoppedInWait.requests :=
  (completed_iff_caught stoppedInWait_caught.of_guarded rfl).mpr stoppedInWait_caught _
    (List.mem_singleton_self _)

/-- A request that is pushed while another is executed, before a stop that comes in the execution,
stays in the queue. -/
theorem request_left_after_stop :
    ¬ ∀ s : PostgresClient (Server Submission) Submission, plainRuns.Reachable s →
      s.worker = .exited →
      ∀ r ∈ s.pushedBeforeStop, s.answered.countP (·.id = r.id) = 1 ∧ r ∉ s.requests := by
  have h₀ : plainRuns.Reachable (start (Server.fresh [])) := .of_init ⟨_, rfl⟩
  have h₁ := h₀.next (.connect rfl rfl)
  have h₂ := h₁.next (.call (.execute (.ofQuery (query "SELECT 1") 0) ⟨rfl, nofun⟩))
  have h₃ := h₂.run (taken rfl rfl rfl)
  -- the worker executes the first request
  have h₄ := h₃.next (.call (.execute (.ofQuery (query "SELECT 2") 0) ⟨rfl, nofun⟩))
  have h₅ := h₄.next (.destructor (.stopWorker rfl nofun))
  have h₆ := h₅.next (.worker (.execute rfl 3 (server_result _ 0 [])))
  have h₇ := h₆.next (.worker (.deliver rfl rfl))
  have h₈ := h₇.next (.worker (.leave rfl rfl))
  intro hall
  have hlast := hall _ h₈ rfl (plainRequest 1 "SELECT 2") (.tail _ (.head _))
  exact hlast.2 (.head _)

end PostgresLib.Client
