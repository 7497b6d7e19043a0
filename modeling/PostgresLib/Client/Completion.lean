import PostgresLib.Client.CallbackQueue
import PostgresLib.Connection.Returning
import PostgresLib.Foundations.Completion
import PostgresLib.Foundations.ThreadPool

/-! # The client gets its work done

Left to its own threads, the client has a bounded number of steps to take: every
step of the worker, of a callback thread or of a destructor that was called lowers
what is left to do. Where nothing more can happen every callback has been invoked;
before the stop this is the callback of every request, and after it the destructor
has returned, unless a thread that it joins was blocked and has missed the stop. No
order of the steps has to be assumed, only that executions and callbacks return, and
that what a callback holds is destroyed, without waiting for the client. Heartbeats,
which the clock makes, and new calls start the count again.
-/

namespace PostgresLib.Client

open Foundations Connection PostgresClient

variable {σ ρ : Type} {lib : Libpq σ Submission ρ} {heartbeatEnabled : Bool} {callbackThreads : ℕ}
  {s s' : PostgresClient σ ρ}

def Returns (lib : Libpq σ Submission ρ) : Prop :=
  ∀ submission connection, ∃ fuel outcome,
    (Execution.ending lib ⟨submission, connection, fuel⟩).result = some outcome

/-- Every execution returns when reconnects have a clock and the other side gets on. -/
theorem returns_of_responsive {clock : σ → ℤ} {longest : ℤ} {left : σ → ℕ}
    (hclock : Clocked lib clock longest) (hlib : Responsive lib left) : Returns lib := by
  intro submission connection
  rcases executeAttempts_halts hclock hlib submission 5000 2 1 connection with
    ⟨outcome, s', enough, hends⟩
  exact ⟨enough, outcome, (hends enough (Nat.le_refl _)).result⟩

def Worker.isHung : Worker ρ → Bool
  | hung _ => true
  | _ => false

/-- A step of the client's own threads that is not due to the clock and in which every execution
returns. The destructor goes on once it has been called. -/
inductive Progress (lib : Libpq σ Submission ρ) : PostgresClient σ ρ → PostgresClient σ ρ → Prop
  | worker {s s' : PostgresClient σ ρ} (h : WorkerStep lib false s s')
      (hreturns : s'.worker.isHung = false) : Progress lib s s'
  | callback {s s' : PostgresClient σ ρ} (h : CallbackStep s s') : Progress lib s s'
  | destructor {s s' : PostgresClient σ ρ} (h : DestructorStep s s')
      (hcalled : s.destructor ≠ .uncalled) : Progress lib s s'

/-- A state of a connected client whose worker is in no execution that never returns. -/
structure Connected (lib : Libpq σ Submission ρ) (heartbeatEnabled : Bool) (callbackThreads : ℕ)
    (s : PostgresClient σ ρ) : Prop where
  reachable : (system lib heartbeatEnabled callbackThreads).Reachable s
  started : s.worker ≠ .unstarted
  returns : s.worker.isHung = false

/-- What a connected client does on its own. -/
def progress (lib : Libpq σ Submission ρ) (heartbeatEnabled : Bool) (callbackThreads : ℕ) :
    TransitionSystem (PostgresClient σ ρ) where
  init := Connected lib heartbeatEnabled callbackThreads
  step := Progress lib

/-- A blocked thread that has nothing to do sees that it is to stop. -/
def WokenByStop (s s' : PostgresClient σ ρ) : Prop :=
  s.worker = .waiting ∧ s.requests = [] ∧ s'.worker = .woken ∨
    s'.idleCallbackWorkers < s.idleCallbackWorkers ∧ s.callbackQueue = []

/-- What it does even when the notification of a stop is lost. -/
def sureProgress (lib : Libpq σ Submission ρ) (heartbeatEnabled : Bool) (callbackThreads : ℕ) :
    TransitionSystem (PostgresClient σ ρ) :=
  (progress lib heartbeatEnabled callbackThreads).guarded fun s s' => ¬ WokenByStop s s'

/-! ## What is left to do -/

/-- A bound for the steps of the worker after `PostCallback`. -/
def Worker.workAfter : Option (List Request) → ℕ
  | none => 5
  | some pending => 1 + 15 * pending.length

/-- A bound for the steps of the worker, apart from the queue. A worker that was woken for nothing
goes round the loop once more. -/
def PostgresClient.workerWork (s : PostgresClient σ ρ) : ℕ :=
  match s.worker with
  | .unstarted | .exited | .hung _ => 0
  | .loopTest => 5
  | .locked => 4
  | .heartbeat => 6
  | .waiting => 3
  | .woken => if s.requests.isEmpty && !s.stopRequested then 7 else 2
  | .taking => if s.requests.isEmpty then 6 else 1
  | .executing _ => 15
  | .delivering _ _ => 14
  | .draining pending => 1 + 15 * pending.length
  | .posting _ pending => 8 + Worker.workAfter pending
  | .pushing _ pending => 7 + Worker.workAfter pending

/-- A bound for the steps of a callback worker, apart from the queue. -/
def CallbackWorker.work : CallbackWorker ρ → ℕ
  | running _ => 3
  | announcing => 2
  | waiting => 1
  | exited => 0

def Destructor.work : Destructor → ℕ
  | uncalled => 0
  | joiningWorker => 4
  | joiningOverflow => 3
  | stoppingCallbacks => 2
  | joiningCallbacks => 1
  | finished => 0

/-- A bound for the steps of the client that are left. -/
def PostgresClient.work (s : PostgresClient σ ρ) : ℕ :=
  20 * s.requests.length + s.workerWork + 4 * s.callbackQueue.length +
    total CallbackWorker.work s.callbackWorkers +
    (s.overflowThreads.flatMap OverflowThread.runs).length + s.destructor.work

@[simp] theorem Worker.isHung_resume (pending : Option (List Request)) :
    (resume pending : Worker ρ).isHung = false := by
  cases pending <;> rfl

theorem workerWork_resume {pending : Option (List Request)} (hw : s.worker = .resume pending) :
    s.workerWork = Worker.workAfter pending := by
  unfold workerWork
  rw [hw]
  cases pending <;> rfl

theorem length_runs_overflow (threads : List (OverflowThread ρ)) (task : Task ρ) :
    ((threads.filter (fun o => !o.isDone) ++ [OverflowThread.running task]).flatMap
      OverflowThread.runs).length = (threads.flatMap OverflowThread.runs).length + 1 := by
  rw [List.flatMap_append, flatMap_runs_reap, List.length_append]
  rfl

theorem work_worker (h : WorkerStep lib false s s') (hreturns : s'.worker.isHung = false) :
    s'.work < s.work := by
  cases h with
  | beat _ h | timeOut _ h => cases h
  | hang | hangBeat => cases hreturns
  | @overflow task pending hw =>
    have hrest := workerWork_resume (s := { s with
      worker := .resume pending
      overflowThreads := s.overflowThreads.filter (fun o => !o.isDone) ++ [.running task] }) rfl
    have hbefore : s.workerWork = 8 + Worker.workAfter pending := by rw [workerWork, hw]
    simp only [work, hrest, hbefore, length_runs_overflow]
    omega
  | @pushTask task pending hw =>
    have hrest := workerWork_resume (s := { s with
      worker := .resume pending
      callbackQueue := s.callbackQueue ++ [task] }) rfl
    have hbefore : s.workerWork = 7 + Worker.workAfter pending := by rw [workerWork, hw]
    simp only [work, hrest, hbefore, List.length_append, List.length_singleton]
    omega
  | wake hw h =>
    have hidle : (s.requests.isEmpty && !s.stopRequested) = false := by
      rcases h with h | h
      · simp [h]
      · simp [List.isEmpty_iff, h]
    simp only [work, workerWork, hw, hidle]
    simp
  | drain hw h =>
    simp only [work, workerWork, hw, h, List.length_nil]
    simp
    omega
  | goOn hw h =>
    simp only [work, workerWork, hw, h]
    cases s.requests <;> simp
  | takeNone hw h => simp [work, workerWork, hw, h]
  | take hw h =>
    simp only [work, workerWork, hw, h, List.length_cons]
    simp
    omega
  | leave hw | lock hw | ping hw | wait hw | execute hw | deliver hw | deliverPosted hw
  | drainOne hw | drainPosted hw | drained hw | seeIdle hw =>
    simp only [work, workerWork, hw, PostgresClient.execute, invoke, post, Worker.workAfter,
      List.length_cons]
    omega

theorem work_callback (h : CallbackStep s s') : s'.work < s.work := by
  cases h with
  | announce h | leave h | run h =>
    simp only [work, workerWork, h, total_append, total_cons, CallbackWorker.work]
    omega
  | take h hqueue =>
    simp only [work, workerWork, h, hqueue, total_append, total_cons, CallbackWorker.work,
      List.length_cons]
    omega
  | runOverflow h =>
    simp only [work, workerWork, h, List.flatMap_append, List.flatMap_cons, List.length_append,
      OverflowThread.runs, List.length_cons, List.length_nil]
    omega

theorem work_destructor (h : DestructorStep s s') (hcalled : s.destructor ≠ .uncalled) :
    s'.work < s.work := by
  cases h with
  | stopWorker h => exact absurd h hcalled
  | joinWorker h | stopCallbacks h | joinCallbacks h =>
    simp only [work, workerWork, h, Destructor.work]
    omega
  | joinOverflow h hdone =>
    simp only [work, workerWork, h, flatMap_runs_done hdone, Destructor.work]
    simp

/-- Every step on the client's own leaves less to do. -/
theorem Progress.work_lt (h : Progress lib s s') : s'.work < s.work := by
  cases h with
  | worker h hreturns => exact work_worker h hreturns
  | callback h => exact work_callback h
  | destructor h hcalled => exact work_destructor h hcalled

/-! ## Where nothing more happens -/

structure Stopping (s : PostgresClient σ ρ) : Prop where
  worker : s.destructor ≠ .uncalled → s.stopRequested = true
  callbacks : s.destructor = .joiningCallbacks → s.callbackStop = true

theorem stopping_step (h : Step lib heartbeatEnabled callbackThreads s s') (hs : Stopping s) :
    Stopping s' := by
  cases h with
  | connect => exact { hs with }
  | call h =>
    rcases h.eq_push with ⟨transactions, detail, direct, origin, rfl, -, -⟩
    exact { hs with }
  | worker h => cases h <;> exact ⟨hs.worker, hs.callbacks⟩
  | callback h => cases h <;> exact ⟨hs.worker, hs.callbacks⟩
  | destructor h =>
    cases h with
    | stopWorker => exact ⟨fun _ => rfl, nofun⟩
    | joinWorker h | joinOverflow h | joinCallbacks h =>
      exact ⟨fun _ => hs.worker (by rw [h]; nofun), nofun⟩
    | stopCallbacks h => exact ⟨fun _ => hs.worker (by rw [h]; nofun), fun _ => rfl⟩

theorem stopping_of_reachable (h : (system lib heartbeatEnabled callbackThreads).Reachable s) :
    Stopping s := by
  apply h.induct
  · rintro s ⟨connection, rfl⟩
    exact ⟨fun hcalled => absurd rfl hcalled, nofun⟩
  · exact fun s s' _ hs hstep => stopping_step hstep hs

/-- Without the clock a step of the worker is one of the client's. -/
theorem WorkerStep.of_clockless (h : WorkerStep lib false s s') :
    WorkerStep lib heartbeatEnabled s s' := by
  cases h with
  | beat _ h | timeOut _ h => cases h
  | leave hw h => exact .leave hw h
  | lock hw h => exact .lock hw h
  | ping hw fuel h => exact .ping hw fuel h
  | wait hw => exact .wait hw
  | wake hw h => exact .wake hw h
  | drain hw h => exact .drain hw h
  | goOn hw h => exact .goOn hw h
  | takeNone hw h => exact .takeNone hw h
  | take hw h => exact .take hw h
  | execute hw fuel h => exact .execute hw fuel h
  | hangBeat hw fuel h => exact .hangBeat hw fuel h
  | hang hw fuel h => exact .hang hw fuel h
  | deliver hw h => exact .deliver hw h
  | deliverPosted hw h => exact .deliverPosted hw h
  | drainOne hw h => exact .drainOne hw h
  | drainPosted hw h => exact .drainPosted hw h
  | drained hw => exact .drained hw
  | overflow hw h => exact .overflow hw h
  | seeIdle hw h => exact .seeIdle hw h
  | pushTask hw => exact .pushTask hw

theorem Progress.step (h : Progress lib s s') :
    Step lib heartbeatEnabled callbackThreads s s' := by
  cases h with
  | worker h => exact .worker h.of_clockless
  | callback h => exact .callback h
  | destructor h => exact .destructor h

theorem Connected.progress (hs : Connected lib heartbeatEnabled callbackThreads s)
    (h : Progress lib s s') : Connected lib heartbeatEnabled callbackThreads s' := by
  refine ⟨hs.reachable.next h.step, ?_, ?_⟩
  · cases h with
    | worker h => exact h.started
    | callback h => cases h <;> exact hs.started
    | destructor h => cases h <;> exact hs.started
  · cases h with
    | worker h hreturns => exact hreturns
    | callback h => cases h <;> exact hs.returns
    | destructor h => cases h <;> exact hs.returns

theorem WorkerStep.not_wokenByStop (h : WorkerStep lib false s s')
    (hs : s.worker ≠ .waiting ∨ s.requests ≠ []) : ¬ WokenByStop s s' := by
  rintro (⟨hw, hqueue, -⟩ | ⟨hless, -⟩)
  · exact hs.elim (absurd hw) (absurd hqueue)
  · have hsame : s'.idleCallbackWorkers = s.idleCallbackWorkers := by cases h <;> rfl
    exact absurd hless (Nat.not_lt.mpr (Nat.le_of_eq hsame.symm))

/-- A step that leaves the worker where it is, and takes no waiting callback worker from an empty
queue. -/
theorem not_wokenByStop (hworker : s'.worker = s.worker)
    (hidle : s.callbackQueue ≠ [] ∨ s.idleCallbackWorkers ≤ s'.idleCallbackWorkers) :
    ¬ WokenByStop s s' := by
  rintro (⟨hw, -, hw'⟩ | ⟨hless, hqueue⟩)
  · cases hw.symm.trans (hworker.symm.trans hw')
  · exact hidle.elim (absurd hqueue) (absurd hless ∘ Nat.not_lt.mpr)

section Quiet

variable (hs : Connected lib heartbeatEnabled callbackThreads s)
  (hquiet : (sureProgress lib heartbeatEnabled callbackThreads).Quiet s)
include hs hquiet

/-- A worker that cannot go on has returned, or waits in an empty queue. -/
theorem quiet_worker (hlib : Returns lib) :
    s.worker = .exited ∨ s.worker = .waiting ∧ s.requests = [] := by
  have hstuck : (s.worker ≠ .waiting ∨ s.requests ≠ []) →
      ∀ s', WorkerStep lib false s s' → s'.worker.isHung = true := by
    intro hbusy s' h
    by_contra hreturns
    exact hquiet s' ⟨.worker h (by simpa using hreturns), h.not_wokenByStop hbusy⟩
  by_cases hwaiting : s.worker = .waiting
  · refine .inr ⟨hwaiting, ?_⟩
    by_contra hqueued
    exact nomatch hstuck (.inr hqueued) _ (.wake hwaiting (.inr hqueued))
  have hstuck := hstuck (.inl hwaiting)
  cases hw : s.worker with
  | unstarted => exact absurd hw hs.started
  | hung submission =>
    have hreturns := hs.returns
    rw [hw] at hreturns
    cases hreturns
  | exited => exact .inl rfl
  | waiting => exact absurd hw hwaiting
  | loopTest =>
    cases hstop : s.stopRequested with
    | true => exact nomatch hstuck _ (.leave hw hstop)
    | false => exact nomatch hstuck _ (.lock hw hstop)
  | locked => exact nomatch hstuck _ (.wait hw)
  | heartbeat =>
    rcases hlib .heartbeat s.connection with ⟨fuel, outcome, h⟩
    exact nomatch hstuck _ (.ping hw fuel h)
  | woken =>
    cases hstop : s.stopRequested with
    | true => exact nomatch hstuck _ (.drain hw hstop)
    | false => exact nomatch hstuck _ (.goOn hw hstop)
  | taking =>
    cases hqueue : s.requests with
    | nil => exact nomatch hstuck _ (.takeNone hw hqueue)
    | cons r rest => exact nomatch hstuck _ (.take hw hqueue)
  | executing r =>
    rcases hlib (.request r) s.connection with ⟨fuel, outcome, h⟩
    exact nomatch hstuck _ (.execute hw fuel h)
  | delivering r outcome =>
    cases hdirect : r.directCallback with
    | true => exact nomatch hstuck _ (.deliver hw hdirect)
    | false => exact nomatch hstuck _ (.deliverPosted hw hdirect)
  | draining pending =>
    cases pending with
    | nil => exact nomatch hstuck _ (.drained hw)
    | cons r rest =>
      cases hdirect : r.directCallback with
      | true => exact nomatch hstuck _ (.drainOne hw hdirect)
      | false => exact nomatch hstuck _ (.drainPosted hw hdirect)
  | posting task pending =>
    by_cases hidle : s.idleCallbackWorkers = 0
    · have hhung := hstuck _ (.overflow hw hidle)
      exact nomatch (Worker.isHung_resume pending).symm.trans hhung
    · exact nomatch hstuck _ (.seeIdle hw hidle)
  | pushing task pending =>
    have hhung := hstuck _ (.pushTask hw)
    exact nomatch (Worker.isHung_resume pending).symm.trans hhung

omit hs

theorem quiet_callback (h : CallbackStep s s')
    (hidle : s.callbackQueue ≠ [] ∨ s.idleCallbackWorkers ≤ s'.idleCallbackWorkers) : False := by
  have hworker : s'.worker = s.worker := by cases h <;> rfl
  exact hquiet s' ⟨.callback h, not_wokenByStop hworker hidle⟩

theorem quiet_overflow : ∀ o ∈ s.overflowThreads, o.isDone = true := by
  intro o ho
  cases o with
  | done => rfl
  | running task =>
    rcases List.append_of_mem ho with ⟨front, back, h⟩
    exact (quiet_callback hquiet (.runOverflow h) (.inr (Nat.le_refl _))).elim

/-- A callback worker that cannot go on has returned, or waits in an empty queue. -/
theorem quiet_callbackWorkers {w : CallbackWorker ρ} (hw : w ∈ s.callbackWorkers) :
    w = .exited ∨ w = .waiting ∧ s.callbackQueue = [] := by
  rcases List.append_of_mem hw with ⟨front, back, h⟩
  cases w with
  | exited => exact .inl rfl
  | announcing => exact (quiet_callback hquiet (.announce h) (.inr (Nat.le_succ _))).elim
  | running task => exact (quiet_callback hquiet (.run h) (.inr (Nat.le_refl _))).elim
  | waiting =>
    refine .inr ⟨rfl, ?_⟩
    by_contra hne
    rcases List.exists_cons_of_ne_nil hne with ⟨task, rest, hqueue⟩
    exact quiet_callback hquiet (.take h hqueue) (.inl hne)

include hs

theorem quiet_callbackQueue : s.callbackQueue = [] := by
  have hcloses := closesInOrder_of_reachable hs.reachable
  by_cases hnil : s.callbackWorkers = []
  · exact (hcloses.manned hnil).1
  · rcases List.exists_mem_of_ne_nil _ hnil with ⟨w, hw⟩
    rcases quiet_callbackWorkers hquiet hw with rfl | ⟨-, hqueue⟩
    · exact (hcloses.returned hw).2
    · exact hqueue

/-- Every callback that the worker has handed over has been invoked. -/
theorem quiet_inPool (hlib : Returns lib) : s.inPool = 0 := by
  have hposts : s.worker.posts = [] := by
    rcases quiet_worker hs hquiet hlib with hw | ⟨hw, -⟩
    · rw [hw]
      rfl
    · rw [hw]
      rfl
  have hruns : s.callbackWorkers.flatMap CallbackWorker.runs = [] := by
    apply List.flatMap_eq_nil_iff.mpr
    intro w hw
    rcases quiet_callbackWorkers hquiet hw with rfl | ⟨rfl, -⟩
    · rfl
    · rfl
  rw [inPool, hposts, quiet_callbackQueue hs hquiet, hruns,
    flatMap_runs_done (quiet_overflow hquiet)]
  rfl

end Quiet

/-- The destructor joins a thread that is blocked and has nothing to do: when the stop was requested
its notification has not reached it. -/
inductive StopUnheard (s : PostgresClient σ ρ) : Prop
  | worker (hd : s.destructor = .joiningWorker) (hw : s.worker = .waiting)
      (hqueue : s.requests = [])
  | callbackWorker (hd : s.destructor = .joiningCallbacks) (hw : .waiting ∈ s.callbackWorkers)
      (hqueue : s.callbackQueue = [])

/-- A destructor that cannot go on has returned, or joins such a thread. -/
theorem quiet_destructor (hlib : Returns lib)
    (hs : Connected lib heartbeatEnabled callbackThreads s)
    (hquiet : (sureProgress lib heartbeatEnabled callbackThreads).Quiet s)
    (hcalled : s.destructor ≠ .uncalled) : s.destructor = .finished ∨ StopUnheard s := by
  have hstuck : ∀ s', DestructorStep s s' → False := by
    intro s' h
    have hworker : s'.worker = s.worker := by cases h <;> rfl
    have hidle : s.idleCallbackWorkers ≤ s'.idleCallbackWorkers := by
      cases h <;> exact Nat.le_refl _
    exact hquiet s' ⟨.destructor h hcalled, not_wokenByStop hworker (.inr hidle)⟩
  cases hd : s.destructor with
  | uncalled => exact absurd hd hcalled
  | finished => exact .inl rfl
  | joiningWorker =>
    rcases quiet_worker hs hquiet hlib with hw | ⟨hw, hqueue⟩
    · exact absurd (.joinWorker hd hw) (hstuck _)
    · exact .inr (.worker hd hw hqueue)
  | joiningOverflow => exact absurd (.joinOverflow hd (quiet_overflow hquiet)) (hstuck _)
  | stoppingCallbacks => exact absurd (.stopCallbacks hd) (hstuck _)
  | joiningCallbacks =>
    by_cases hwaiting : .waiting ∈ s.callbackWorkers
    · exact .inr (.callbackWorker hd hwaiting (quiet_callbackQueue hs hquiet))
    · refine absurd (.joinCallbacks hd fun w hw => ?_) (hstuck _)
      rcases quiet_callbackWorkers hquiet hw with hexited | ⟨rfl, -⟩
      · exact hexited
      · exact absurd hw hwaiting

/-- All callbacks that were handed over have been invoked; before the destructor is called every
request has had its callback invoked, once, and otherwise the destructor has returned, or waits for
a thread that has missed the stop. -/
structure Settled (s : PostgresClient σ ρ) : Prop where
  invoked : s.invoked.Perm s.answered
  answered : s.destructor = .uncalled → ∀ r ∈ s.pushed, s.invoked.countP (·.id = r.id) = 1
  destroyed : s.destructor ≠ .uncalled → s.destructor = .finished ∨ StopUnheard s

theorem settled_of_quiet (hlib : Returns lib)
    (hs : Connected lib heartbeatEnabled callbackThreads s)
    (hquiet : (sureProgress lib heartbeatEnabled callbackThreads).Quiet s) : Settled s := by
  have hinvoked : s.invoked.Perm s.answered := by
    have haccounted := accounted_of_reachable hs.reachable
    rw [Accounted, quiet_inPool hs hquiet hlib, add_zero, Multiset.coe_eq_coe] at haccounted
    exact haccounted
  refine ⟨hinvoked, ?_, quiet_destructor hlib hs hquiet⟩
  intro huncalled r hr
  have hrunning := (stopRecorded_of_reachable hs.reachable).running huncalled
  rw [hinvoked.countP_eq]
  rcases quiet_worker hs hquiet hlib with hw | ⟨hw, hqueue⟩
  · have hstopped := (stopRecorded_of_reachable hs.reachable).stopped (by rw [hw]; rfl)
    rw [hrunning] at hstopped
    cases hstopped
  · apply answered_once hs.reachable hr
    · rw [hw]
      exact List.not_mem_nil
    · rw [hqueue]
      exact List.not_mem_nil

theorem server_returns : Returns server := by
  rintro submission ⟨inFlight, read, session, statuses⟩
  refine ⟨3, .ok submission, ?_⟩
  cases inFlight <;> cases read <;> rcases statuses with _ | ⟨_ | _, _ | ⟨_ | _, statuses⟩⟩ <;> rfl

end PostgresLib.Client
