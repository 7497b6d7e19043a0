import PostgresLib.Foundations.TransitionSystem
import PostgresLib.Foundations.WaitProtocol
import Mathlib.Data.List.Basic

/-! # The stop signals of the destructor

A closer view of the two condition variables of a client without heartbeat: a worker
evaluates its predicate and blocks in two steps, and `request_stop`, `notify_all` and
`notify_one` are steps that take no mutex. What is queued is counted; what it says
does not matter here. The destructor wakes a worker that is blocked, and misses one
that is between its predicate and its block.
-/

namespace PostgresLib.Client.StopSignal

open Foundations

/-- Where `QueryWorker` is. A task that it posts while it drains comes with the number of requests
that are still to be drained. -/
inductive QueryWorker where
  | loopTest
  | waiting (phase : WaitPhase)
  | executing
  | draining (pending : ℕ)
  | posting (pending : Option ℕ)
  | pushing (pending : Option ℕ)
  | notifying (pending : Option ℕ)
  | exited
  deriving DecidableEq

/-- Where the worker goes on after `PostCallback`. -/
def QueryWorker.resume : Option ℕ → QueryWorker
  | none => loopTest
  | some pending => draining pending

inductive CallbackState where
  | locking
  | waiting (phase : WaitPhase)
  | running
  | exited
  deriving DecidableEq

/-- A callback worker with the stop state of its own thread. -/
structure CallbackWorker where
  stopRequested : Bool
  state : CallbackState
  deriving DecidableEq

/-- Where the destructor is: how many callback workers it has requested to stop, or joined. -/
inductive Destructor where
  | uncalled
  | stopRequested
  | joiningWorker
  | joiningOverflow
  | stoppingCallbacks (requested : ℕ)
  | joiningCallbacks (joined : ℕ)
  | finished
  deriving DecidableEq

/-- The mutexes, the queues, the calls of `notify_one` on `m_cv` that are still to come, and the
threads. -/
structure Signals where
  mutex : Bool
  requests : ℕ
  owedNotifications : ℕ
  stopRequested : Bool
  worker : QueryWorker
  callbackMutex : Bool
  callbackQueue : ℕ
  idleCallbackWorkers : ℕ
  callbackWorkers : List CallbackWorker
  destructor : Destructor
  deriving DecidableEq

def Signals.connected (callbackThreads : ℕ) : Signals where
  mutex := false
  requests := 0
  owedNotifications := 0
  stopRequested := false
  worker := .loopTest
  callbackMutex := false
  callbackQueue := 0
  idleCallbackWorkers := 0
  callbackWorkers := List.replicate callbackThreads ⟨false, .locking⟩
  destructor := .uncalled

/-- What `notify_one` or `notify_all` on `m_cv` does, where only the worker waits. -/
def QueryWorker.notify : QueryWorker → QueryWorker
  | waiting phase => waiting phase.notify
  | worker => worker

/-- What a notification does to a callback worker that it reaches. -/
def CallbackWorker.notify (w : CallbackWorker) : CallbackWorker :=
  match w.state with
  | .waiting phase => { w with state := .waiting phase.notify }
  | _ => w

/-- `SendToWorker` and `EnqueueAsync`, which notify after they have given the mutex up. -/
inductive CallStep : Signals → Signals → Prop
  | push {s} (h : s.mutex = false) (hd : s.destructor ≠ .finished) :
      CallStep s
        { s with requests := s.requests + 1, owedNotifications := s.owedNotifications + 1 }
  | notifyOne {s} (h : 0 < s.owedNotifications) :
      CallStep s
        { s with owedNotifications := s.owedNotifications - 1, worker := s.worker.notify }

inductive WorkerStep : Signals → Signals → Prop
  | leave {s} (hw : s.worker = .loopTest) (h : s.stopRequested = true) :
      WorkerStep s { s with worker := .exited }
  | lock {s} (hw : s.worker = .loopTest) (h : s.stopRequested = false) (hm : s.mutex = false) :
      WorkerStep s { s with worker := .waiting .testing, mutex := true }
  | wait {s} {phase phase' : WaitPhase} {held : Bool} (hw : s.worker = .waiting phase)
      (h : WaitPhase.Step (s.stopRequested || decide (0 < s.requests)) s.mutex phase held phase') :
      WorkerStep s { s with worker := .waiting phase', mutex := held }
  | drain {s} (hw : s.worker = .waiting .passed) (h : s.stopRequested = true) :
      WorkerStep s { s with worker := .draining s.requests, requests := 0, mutex := false }
  | takeNone {s} (hw : s.worker = .waiting .passed) (h : s.stopRequested = false)
      (hr : s.requests = 0) :
      WorkerStep s { s with worker := .loopTest, mutex := false }
  | take {s} (hw : s.worker = .waiting .passed) (h : s.stopRequested = false)
      (hr : 0 < s.requests) :
      WorkerStep s { s with worker := .executing, requests := s.requests - 1, mutex := false }
  | deliver {s} (hw : s.worker = .executing) : WorkerStep s { s with worker := .loopTest }
  | deliverPosted {s} (hw : s.worker = .executing) : WorkerStep s { s with worker := .posting none }
  | drainOne {s} {pending : ℕ} (hw : s.worker = .draining (pending + 1)) :
      WorkerStep s { s with worker := .draining pending }
  | drainPosted {s} {pending : ℕ} (hw : s.worker = .draining (pending + 1)) :
      WorkerStep s { s with worker := .posting (some pending) }
  | drained {s} (hw : s.worker = .draining 0) : WorkerStep s { s with worker := .exited }
  | overflow {s} {pending : Option ℕ} (hw : s.worker = .posting pending)
      (h : s.idleCallbackWorkers = 0) : WorkerStep s { s with worker := .resume pending }
  | seeIdle {s} {pending : Option ℕ} (hw : s.worker = .posting pending)
      (h : s.idleCallbackWorkers ≠ 0) : WorkerStep s { s with worker := .pushing pending }
  | pushTask {s} {pending : Option ℕ} (hw : s.worker = .pushing pending)
      (hm : s.callbackMutex = false) :
      WorkerStep s
        { s with worker := .notifying pending, callbackQueue := s.callbackQueue + 1 }
  | notifyOne {s} {pending : Option ℕ} {front back : List CallbackWorker} {w : CallbackWorker}
      (hw : s.worker = .notifying pending) (h : s.callbackWorkers = front ++ w :: back)
      (hb : w.state = .waiting .blocked) :
      WorkerStep s
        { s with worker := .resume pending, callbackWorkers := front ++ w.notify :: back }
  | notifyNobody {s} {pending : Option ℕ} (hw : s.worker = .notifying pending)
      (h : ∀ w ∈ s.callbackWorkers, w.state ≠ .waiting .blocked) :
      WorkerStep s { s with worker := .resume pending }

/-- A step of a `CallbackWorker`, with the stop state of its thread: the mutex, the queue, the idle
counter and where the worker is. -/
inductive CallbackStep (stop : Bool) :
    Bool → ℕ → ℕ → CallbackState → Bool → ℕ → ℕ → CallbackState → Prop
  | lock {queue idle : ℕ} :
      CallbackStep stop false queue idle .locking true queue (idle + 1) (.waiting .testing)
  | wait {held held' : Bool} {queue idle : ℕ} {phase phase' : WaitPhase}
      (h : WaitPhase.Step (stop || decide (0 < queue)) held phase held' phase') :
      CallbackStep stop held queue idle (.waiting phase) held' queue idle (.waiting phase')
  | leave {idle : ℕ} : CallbackStep stop true 0 idle (.waiting .passed) false 0 (idle - 1) .exited
  | take {queue idle : ℕ} :
      CallbackStep stop true (queue + 1) idle (.waiting .passed) false queue (idle - 1) .running
  | run {held : Bool} {queue idle : ℕ} :
      CallbackStep stop held queue idle .running held queue idle .locking

inductive DestructorStep : Signals → Signals → Prop
  | requestStop {s} (h : s.destructor = .uncalled) :
      DestructorStep s { s with destructor := .stopRequested, stopRequested := true }
  | notifyAll {s} (h : s.destructor = .stopRequested) :
      DestructorStep s { s with destructor := .joiningWorker, worker := s.worker.notify }
  | joinWorker {s} (h : s.destructor = .joiningWorker) (hw : s.worker = .exited) :
      DestructorStep s { s with destructor := .joiningOverflow }
  | joinOverflow {s} (h : s.destructor = .joiningOverflow) :
      DestructorStep s { s with destructor := .stoppingCallbacks 0 }
  | requestCallbackStop {s} {front back : List CallbackWorker} {w : CallbackWorker}
      (h : s.destructor = .stoppingCallbacks front.length)
      (hw : s.callbackWorkers = front ++ w :: back) :
      DestructorStep s
        { s with
          destructor := .stoppingCallbacks (front.length + 1)
          callbackWorkers := front ++ { w with stopRequested := true } :: back }
  | notifyAllCallbacks {s} (h : s.destructor = .stoppingCallbacks s.callbackWorkers.length) :
      DestructorStep s
        { s with
          destructor := .joiningCallbacks 0
          callbackWorkers := s.callbackWorkers.map CallbackWorker.notify }
  | joinCallback {s} {front back : List CallbackWorker} {w : CallbackWorker}
      (h : s.destructor = .joiningCallbacks front.length)
      (hw : s.callbackWorkers = front ++ w :: back) (hexited : w.state = .exited) :
      DestructorStep s { s with destructor := .joiningCallbacks (front.length + 1) }
  | finish {s} (h : s.destructor = .joiningCallbacks s.callbackWorkers.length) :
      DestructorStep s { s with destructor := .finished }

inductive Step : Signals → Signals → Prop
  | call {s s'} (h : CallStep s s') : Step s s'
  | worker {s s'} (h : WorkerStep s s') : Step s s'
  | callback {s} {front back : List CallbackWorker} {w : CallbackWorker} {held : Bool}
      {queue idle : ℕ} {state : CallbackState} (hw : s.callbackWorkers = front ++ w :: back)
      (h : CallbackStep w.stopRequested s.callbackMutex s.callbackQueue s.idleCallbackWorkers
        w.state held queue idle state) :
      Step s
        { s with
          callbackMutex := held
          callbackQueue := queue
          idleCallbackWorkers := idle
          callbackWorkers := front ++ { w with state := state } :: back }
  | destructor {s s'} (h : DestructorStep s s') : Step s s'

def system (callbackThreads : ℕ) : TransitionSystem Signals where
  init s := s = Signals.connected callbackThreads
  step := Step

/-- The worker does not block before it evaluates its predicate again. -/
def QueryWorker.awake : QueryWorker → Bool
  | waiting phase => phase.awake
  | _ => true

/-- The callback worker does not block before it evaluates its predicate again. -/
def CallbackWorker.awake (w : CallbackWorker) : Bool :=
  match w.state with
  | .waiting phase => phase.awake
  | _ => true

@[simp] theorem QueryWorker.awake_resume (pending : Option ℕ) : (resume pending).awake = true := by
  cases pending <;> rfl

theorem QueryWorker.awake_notify {w : QueryWorker} (h : w.awake = true ∨ w ≠ waiting .refused) :
    w.notify.awake = true := by
  cases w with
  | waiting phase =>
    rcases h with h | h
    · exact WaitPhase.awake_notify_of_awake h
    · exact WaitPhase.awake_notify fun hr => h (by rw [hr])
  | _ => rfl

theorem CallbackWorker.awake_notify {w : CallbackWorker}
    (h : w.awake = true ∨ w.state ≠ .waiting .refused) : w.notify.awake = true := by
  obtain ⟨stop, state⟩ := w
  cases state with
  | waiting phase =>
    rcases h with h | h
    · exact WaitPhase.awake_notify_of_awake h
    · exact WaitPhase.awake_notify fun hr => h (by rw [hr])
  | _ => rfl

theorem CallbackWorker.stopRequested_notify (w : CallbackWorker) :
    w.notify.stopRequested = w.stopRequested := by
  obtain ⟨stop, state⟩ := w
  cases state <;> rfl

/-- With the stop requested, a worker that is awake stays awake. -/
theorem WorkerStep.awake {s s' : Signals} (h : WorkerStep s s') (hstop : s.stopRequested = true)
    (hawake : s.worker.awake = true) : s'.worker.awake = true := by
  cases h with
  | wait hw h =>
    rw [hw] at hawake
    exact h.awake (by rw [hstop]; rfl) hawake
  | overflow | notifyOne | notifyNobody => exact QueryWorker.awake_resume _
  | _ => rfl

/-- So does a callback worker. -/
theorem CallbackStep.awake {stop held held' : Bool} {queue queue' idle idle' : ℕ}
    {state state' : CallbackState}
    (h : CallbackStep stop held queue idle state held' queue' idle' state') (hstop : stop = true)
    (hawake : CallbackWorker.awake ⟨stop, state⟩ = true) :
    CallbackWorker.awake ⟨stop, state'⟩ = true := by
  cases h with
  | wait h => exact h.awake (by rw [hstop]; rfl) hawake
  | _ => rfl

def Destructor.workerNotified : Destructor → Bool
  | uncalled | stopRequested => false
  | _ => true

def Destructor.callbacksNotified : Destructor → Bool
  | joiningCallbacks _ | finished => true
  | _ => false

/-- The number of callback workers that the destructor has requested to stop. -/
def Signals.requested (s : Signals) : ℕ :=
  match s.destructor with
  | .stoppingCallbacks k => k
  | .joiningCallbacks _ | .finished => s.callbackWorkers.length
  | _ => 0

/-- At a `notify_all` of the destructor no worker of that condition variable stands between its
predicate and its block. -/
structure Heeded (s s' : Signals) : Prop where
  worker : s.destructor = .stopRequested → s'.destructor = .joiningWorker →
    s.worker ≠ .waiting .refused
  callbacks : s.destructor.callbacksNotified = false → s'.destructor.callbacksNotified = true →
    ∀ w ∈ s.callbackWorkers, w.state ≠ .waiting .refused

def heededRuns (callbackThreads : ℕ) : TransitionSystem Signals :=
  (system callbackThreads).guarded Heeded

/-- What has been requested to stop is so, and what has been notified is awake. -/
structure Signalled (s : Signals) : Prop where
  stopped : s.destructor ≠ .uncalled → s.stopRequested = true
  worker : s.destructor.workerNotified = true → s.worker.awake = true
  requested : ∀ stop ∈ (s.callbackWorkers.map (·.stopRequested)).take s.requested, stop = true
  callbacks : s.destructor.callbacksNotified = true → ∀ w ∈ s.callbackWorkers, w.awake = true

variable {s s' : Signals}

theorem signalled_call (h : CallStep s s') (hs : Signalled s) : Signalled s' := by
  cases h with
  | push => exact ⟨hs.stopped, hs.worker, hs.requested, hs.callbacks⟩
  | notifyOne =>
    refine ⟨hs.stopped, fun hd => ?_, hs.requested, hs.callbacks⟩
    exact QueryWorker.awake_notify (.inl (hs.worker hd))

theorem Signalled.stop_of_notified (hs : Signalled s) (hd : s.destructor.callbacksNotified = true) :
    ∀ w ∈ s.callbackWorkers, w.stopRequested = true := by
  have hall : s.requested = s.callbackWorkers.length := by
    unfold Signals.requested
    cases h : s.destructor <;> simp_all [Destructor.callbacksNotified]
  intro w hw
  apply hs.requested
  rw [hall, List.take_of_length_le (by simp)]
  exact List.mem_map_of_mem hw

/-- One callback worker moves, and keeps its stop state. -/
theorem Signalled.move (hs : Signalled s) {front back : List CallbackWorker}
    {w : CallbackWorker} (hw : s.callbackWorkers = front ++ w :: back) (w' : CallbackWorker)
    (hstop : w'.stopRequested = w.stopRequested)
    (hawake : w.stopRequested = true → w.awake = true → w'.awake = true) (held : Bool)
    (queue idle : ℕ) :
    Signalled
      { s with
        callbackMutex := held
        callbackQueue := queue
        idleCallbackWorkers := idle
        callbackWorkers := front ++ w' :: back } where
  stopped := hs.stopped
  worker := hs.worker
  requested := by
    have hflags : (front ++ w' :: back).map (·.stopRequested) =
        s.callbackWorkers.map (·.stopRequested) := by
      rw [hw]
      simp [hstop]
    have hlen : (front ++ w' :: back).length = s.callbackWorkers.length := by
      rw [hw]
      simp
    have hcount := hs.requested
    simp only [Signals.requested, hflags, hlen] at hcount ⊢
    exact hcount
  callbacks := by
    intro hd u hu
    rcases List.mem_append.mp hu with hu | hu
    · exact hs.callbacks hd u (by rw [hw]; exact List.mem_append_left _ hu)
    · rcases List.mem_cons.mp hu with rfl | hu
      · have hmem : w ∈ s.callbackWorkers := by
          rw [hw]
          simp
        exact hawake (hs.stop_of_notified hd w hmem) (hs.callbacks hd w hmem)
      · exact hs.callbacks hd u
          (by rw [hw]; exact List.mem_append_right _ (List.mem_cons_of_mem _ hu))

theorem signalled_worker (h : WorkerStep s s') (hs : Signalled s) : Signalled s' := by
  have hawake : s.destructor.workerNotified = true → s'.worker.awake = true := by
    intro hd
    have hcalled : s.destructor ≠ .uncalled := by
      intro hu
      rw [hu] at hd
      cases hd
    exact h.awake (hs.stopped hcalled) (hs.worker hd)
  cases h with
  | @notifyOne _ _ _ w hw h hb =>
    have hmove := hs.move h w.notify w.stopRequested_notify
      (fun _ ha => CallbackWorker.awake_notify (.inl ha)) s.callbackMutex s.callbackQueue
      s.idleCallbackWorkers
    exact ⟨hs.stopped, hawake, hmove.requested, hmove.callbacks⟩
  | _ => exact ⟨hs.stopped, hawake, hs.requested, hs.callbacks⟩

theorem signalled_destructor (h : DestructorStep s s') (hs : Signalled s) (hheeded : Heeded s s') :
    Signalled s' := by
  cases h with
  | requestStop h => exact ⟨fun _ => rfl, nofun, nofun, nofun⟩
  | notifyAll h =>
    refine ⟨fun _ => hs.stopped (by simp [h]), fun _ => ?_, nofun, nofun⟩
    exact QueryWorker.awake_notify (.inr (hheeded.worker h rfl))
  | joinWorker h =>
    exact ⟨fun _ => hs.stopped (by simp [h]), fun _ => hs.worker (by rw [h]; rfl), nofun, nofun⟩
  | joinOverflow h =>
    refine ⟨fun _ => hs.stopped (by simp [h]), fun _ => hs.worker (by rw [h]; rfl), ?_, nofun⟩
    simp [Signals.requested]
  | @requestCallbackStop front back w h hw =>
    refine ⟨fun _ => hs.stopped (by simp [h]), fun _ => hs.worker (by rw [h]; rfl), ?_, nofun⟩
    have hold := hs.requested
    simp only [Signals.requested, h, hw, List.map_append, List.map_cons] at hold ⊢
    rw [List.take_left' (by simp)] at hold
    have htake : (front.map (·.stopRequested) ++ true :: back.map (·.stopRequested)).take
        (front.length + 1) = front.map (·.stopRequested) ++ [true] := by
      rw [List.take_append, List.take_of_length_le (by simp)]
      simp
    intro stop hmem
    rw [htake] at hmem
    rcases List.mem_append.mp hmem with hf | hlast
    · exact hold stop hf
    · exact List.mem_singleton.mp hlast
  | notifyAllCallbacks h =>
    refine ⟨fun _ => hs.stopped (by simp [h]), fun _ => hs.worker (by rw [h]; rfl), ?_, ?_⟩
    · have hold := hs.requested
      have hflags : (s.callbackWorkers.map CallbackWorker.notify).map (·.stopRequested) =
          s.callbackWorkers.map (·.stopRequested) := by
        simp [Function.comp_def, CallbackWorker.stopRequested_notify]
      simp only [Signals.requested, h, hflags, List.length_map] at hold ⊢
      exact hold
    · intro _ w hw
      obtain ⟨u, hu, rfl⟩ := List.mem_map.mp hw
      exact CallbackWorker.awake_notify (.inr (hheeded.callbacks (by rw [h]; rfl) rfl u hu))
  | joinCallback h | finish h =>
    refine ⟨fun _ => hs.stopped (by simp [h]), fun _ => hs.worker (by rw [h]; rfl), ?_, ?_⟩
    · have hold := hs.requested
      simp only [Signals.requested, h] at hold ⊢
      exact hold
    · exact fun _ => hs.callbacks (by rw [h]; rfl)

theorem signalled_step (h : Step s s') (hs : Signalled s) (hheeded : Heeded s s') :
    Signalled s' := by
  cases h with
  | call h => exact signalled_call h hs
  | worker h => exact signalled_worker h hs
  | @callback front back w held queue idle state hw h =>
    exact hs.move hw ⟨w.stopRequested, state⟩ rfl (fun hstop => h.awake hstop) _ _ _
  | destructor h => exact signalled_destructor h hs hheeded

theorem signalled_of_heededRuns {callbackThreads : ℕ}
    (h : (heededRuns callbackThreads).Reachable s) : Signalled s := by
  apply h.induct
  · rintro s rfl
    exact ⟨fun hd => absurd rfl hd, nofun, nofun, nofun⟩
  · exact fun s s' _ hs hstep => signalled_step hstep.1 hs hstep.2

/-- While the destructor joins the worker, the worker is not blocked; while it joins the callback
workers, none of them is. -/
def NoLostStop (s : Signals) : Prop :=
  (s.destructor = .joiningWorker → s.worker ≠ .waiting .blocked) ∧
    ∀ joined, s.destructor = .joiningCallbacks joined →
      ∀ w ∈ s.callbackWorkers, w.state ≠ .waiting .blocked

/-- No stop signal is lost in a run in which every `notify_all` is heeded. -/
theorem noLostStop_of_heededRuns {callbackThreads : ℕ}
    (h : (heededRuns callbackThreads).Reachable s) : NoLostStop s := by
  have hs := signalled_of_heededRuns h
  constructor
  · intro hd hblocked
    have hawake := hs.worker (by rw [hd]; rfl)
    rw [hblocked] at hawake
    cases hawake
  · intro joined hd w hw hblocked
    have hawake := hs.callbacks (by rw [hd]; rfl) w hw
    rw [CallbackWorker.awake, hblocked] at hawake
    cases hawake

/-- The destructor joins a worker that was blocked when it was notified. -/
def notifiedWorker : Signals :=
  { Signals.connected 0 with
    stopRequested := true
    worker := .waiting .notified
    destructor := .joiningWorker }

theorem notifiedWorker_reachable : (heededRuns 0).Reachable notifiedWorker := by
  have h₀ : (heededRuns 0).Reachable (Signals.connected 0) := .of_init rfl
  have h₁ := h₀.next ⟨.worker (.lock rfl rfl rfl), nofun, nofun⟩
  have h₂ := h₁.next ⟨.worker (.wait rfl (.refuse rfl)), nofun, nofun⟩
  have h₃ := h₂.next ⟨.worker (.wait rfl .block), nofun, nofun⟩
  have h₄ := h₃.next ⟨.destructor (.requestStop rfl), nofun, nofun⟩
  have h₅ := h₄.next ⟨.destructor (.notifyAll rfl), fun _ _ => nofun, nofun⟩
  exact h₅

theorem noLostStop_notifiedWorker : NoLostStop notifiedWorker :=
  noLostStop_of_heededRuns notifiedWorker_reachable

/-- The stop and the notification come after the worker has found its predicate false and before
it blocks: it is never woken, and nobody owes it a notification. -/
theorem stop_lost_before_block :
    ¬ ∀ (callbackThreads : ℕ) (s : Signals), (system callbackThreads).Reachable s →
      s.destructor = .joiningWorker →
        ¬ (s.worker = .waiting .blocked ∧ s.owedNotifications = 0) := by
  have h₀ : (system 0).Reachable (Signals.connected 0) := .of_init rfl
  have h₁ := h₀.next (.worker (.lock rfl rfl rfl))
  have h₂ := h₁.next (.worker (.wait rfl (.refuse rfl)))
  have h₃ := h₂.next (.destructor (.requestStop rfl))
  have h₄ := h₃.next (.destructor (.notifyAll rfl))
  have h₅ := h₄.next (.worker (.wait rfl .block))
  intro hall
  exact hall 0 _ h₅ rfl ⟨rfl, rfl⟩

end PostgresLib.Client.StopSignal
