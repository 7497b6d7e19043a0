import PostgresLib.Client.LateRequests
import PostgresLib.Client.Fifo

/-! # The callback queue and its idle workers

The idle counter is the number of callback workers that wait. `PostCallback` tests
it against zero and not against the tasks already queued, so the queue can grow
beyond it, unless another callback worker announces itself between the test and the
push. Every posted task is run all the same: the queue is not empty only while
a callback worker is there to empty it, and callback workers return only after the
worker has.
-/

namespace PostgresLib.Client

open Foundations Connection PostgresClient
open Transaction (query)

variable {σ ρ : Type} {lib : Libpq σ Submission ρ} {heartbeatEnabled : Bool} {callbackThreads : ℕ}
  {s s' : PostgresClient σ ρ}

namespace CallbackWorker

def isWaiting : CallbackWorker ρ → Bool
  | waiting => true
  | _ => false

end CallbackWorker

namespace PostgresClient

/-- The number of callback workers that wait for a task. -/
def waitingCallbacks (s : PostgresClient σ ρ) : ℕ := s.callbackWorkers.countP (·.isWaiting)

end PostgresClient

/-- The counter is the number it stands for. -/
structure IdleCounted (s : PostgresClient σ ρ) : Prop where
  counted : s.idleCallbackWorkers = s.waitingCallbacks
  unstarted : s.worker = .unstarted → s.callbackWorkers = []

theorem idleCounted_step (h : Step lib heartbeatEnabled callbackThreads s s')
    (hs : IdleCounted s) : IdleCounted s' := by
  have hcounted := hs.counted
  refine ⟨?_, unstarted_step h hs.unstarted⟩
  unfold waitingCallbacks at *
  cases h with
  | connect hw =>
    rw [hs.unstarted hw] at hcounted
    have hnone : (CallbackWorker.announcing : CallbackWorker ρ).isWaiting = false := rfl
    rw [List.countP_replicate, hnone]
    exact hcounted
  | call h =>
    obtain ⟨transactions, detail, direct, origin, rfl, -, -⟩ := h.eq_push
    exact hcounted
  | worker h => cases h <;> exact hcounted
  | callback h =>
    cases h with
    | announce h | take h | leave h | run h =>
      simp only [h, List.countP_append, List.countP_cons, CallbackWorker.isWaiting] at hcounted ⊢
      simp only [Bool.false_eq_true, if_false, if_true] at hcounted ⊢
      omega
    | runOverflow => exact hcounted
  | destructor h => cases h <;> exact hcounted

theorem idleCounted_of_reachable (h : (system lib heartbeatEnabled callbackThreads).Reachable s) :
    IdleCounted s := by
  apply h.induct
  · rintro s ⟨connection, rfl⟩
    exact ⟨rfl, fun _ => rfl⟩
  · exact fun s s' _ hs hstep => idleCounted_step hstep hs

/-- The worker has seen an idle callback worker and is about to queue a task. -/
def Worker.isPushing : Worker ρ → Bool
  | pushing _ _ => true
  | _ => false

@[simp] theorem Worker.isPushing_resume (pending : Option (List Request)) :
    (resume pending : Worker ρ).isPushing = false := by
  cases pending <;> rfl

def Destructor.workerJoined : Destructor → Bool
  | uncalled | joiningWorker => false
  | _ => true

def Destructor.overflowJoined : Destructor → Bool
  | uncalled | joiningWorker | joiningOverflow => false
  | _ => true

theorem Destructor.workerJoined_of_overflowJoined {d : Destructor} (h : d.overflowJoined = true) :
    d.workerJoined = true := by
  cases d <;> first | rfl | cases h

/-- What the destructor has joined has returned, callback workers return after the worker and from
an empty queue only, and somebody is there to take what is queued. -/
structure ClosesInOrder (s : PostgresClient σ ρ) : Prop where
  joined : s.destructor.workerJoined = true → s.worker = .exited
  reaped : s.destructor.overflowJoined = true → s.overflowThreads = []
  stopped : s.callbackStop = true → s.destructor.workerJoined = true
  returned : .exited ∈ s.callbackWorkers → s.callbackStop = true ∧ s.callbackQueue = []
  manned : s.callbackWorkers = [] → s.callbackQueue = [] ∧ s.worker.isPushing = false
  finished : s.destructor = .finished → ∀ w ∈ s.callbackWorkers, w = .exited

theorem WorkerStep.not_exited (h : WorkerStep lib heartbeatEnabled s s') : s.worker ≠ .exited := by
  intro hexited
  cases h <;> simp_all

theorem closesInOrder_worker (h : WorkerStep lib heartbeatEnabled s s') (hs : ClosesInOrder s)
    (hidle : IdleCounted s) : ClosesInOrder s' := by
  -- while the worker runs, nothing is joined and the callback workers are not stopped
  have hopen : s.destructor.workerJoined = false := by
    by_contra hjoined
    exact h.not_exited (hs.joined (by simpa using hjoined))
  have hdestructor : s'.destructor = s.destructor := by cases h <;> rfl
  have hstop : s'.callbackStop = s.callbackStop := by cases h <;> rfl
  have hworkers : s'.callbackWorkers = s.callbackWorkers := by cases h <;> rfl
  have hrunning : s'.callbackStop = false := by
    by_contra hstopped
    rw [hstop] at hstopped
    simpa [hopen] using hs.stopped (by simpa using hstopped)
  have hnone : .exited ∉ s.callbackWorkers := by
    intro hmem
    have hstopped := (hs.returned hmem).1
    rw [← hstop, hrunning] at hstopped
    cases hstopped
  exact {
    joined := by
      intro hjoined
      rw [hdestructor, hopen] at hjoined
      cases hjoined
    reaped := by
      intro hjoined
      have := Destructor.workerJoined_of_overflowJoined hjoined
      rw [hdestructor, hopen] at this
      cases this
    stopped := by
      intro hstopped
      rw [hrunning] at hstopped
      cases hstopped
    returned := fun hmem => absurd (hworkers ▸ hmem) hnone
    manned := by
      intro hnil
      rw [hworkers] at hnil
      obtain ⟨hqueue, hpushing⟩ := hs.manned hnil
      cases h with
      | pushTask hw =>
        rw [hw] at hpushing
        cases hpushing
      | seeIdle hw h =>
        have hcounted := hidle.counted
        rw [waitingCallbacks, hnil] at hcounted
        exact absurd hcounted h
      | overflow hw => exact ⟨hqueue, Worker.isPushing_resume _⟩
      | _ => exact ⟨hqueue, rfl⟩
    finished := by
      intro hfinished
      rw [← hdestructor, hfinished] at hopen
      cases hopen }

/-- A callback worker goes on from where it does not return. -/
theorem ClosesInOrder.move (hs : ClosesInOrder s) {front back : List (CallbackWorker ρ)}
    {w : CallbackWorker ρ} (h : s.callbackWorkers = front ++ w :: back) (hw : w ≠ .exited)
    (w' : CallbackWorker ρ) (hw' : w' = .exited → s.callbackStop = true ∧ s.callbackQueue = [])
    (n : ℕ) (queue : List (Task ρ)) (hqueue : s.callbackQueue = [] → queue = [])
    (ran : List (Task ρ)) :
    ClosesInOrder
      { s with
        callbackWorkers := front ++ w' :: back
        idleCallbackWorkers := n
        callbackQueue := queue
        invoked := ran } where
  joined := hs.joined
  reaped := hs.reaped
  stopped := hs.stopped
  returned := by
    intro hmem
    have hold : s.callbackStop = true ∧ s.callbackQueue = [] := by
      rcases List.mem_append.mp hmem with hf | hb
      · exact hs.returned (by rw [h]; exact List.mem_append_left _ hf)
      · rcases List.mem_cons.mp hb with heq | hb
        · exact hw' heq.symm
        · exact hs.returned (by rw [h]; exact List.mem_append_right _ (List.mem_cons_of_mem _ hb))
    exact ⟨hold.1, hqueue hold.2⟩
  manned := by
    intro hnil
    simp at hnil
  finished := by
    intro hfinished
    have hexited := hs.finished hfinished w (by rw [h]; simp)
    exact absurd hexited hw

theorem closesInOrder_callback (h : CallbackStep s s') (hs : ClosesInOrder s) :
    ClosesInOrder s' := by
  cases h with
  | announce h => exact hs.move h nofun .waiting nofun _ _ id _
  | take h hqueue =>
    exact hs.move h nofun (.running _) nofun _ _ (fun hnil => by simp [hqueue] at hnil) _
  | leave h hstop hqueue => exact hs.move h nofun .exited (fun _ => ⟨hstop, hqueue⟩) _ _ id _
  | run h => exact hs.move h nofun .announcing nofun _ _ id _
  | runOverflow h =>
    refine ⟨hs.joined, ?_, hs.stopped, hs.returned, hs.manned, hs.finished⟩
    intro hjoined
    have hnil := hs.reaped hjoined
    rw [h] at hnil
    simp at hnil

theorem closesInOrder_destructor (h : DestructorStep s s') (hs : ClosesInOrder s) :
    ClosesInOrder s' := by
  have hstopped : s.destructor.workerJoined = false → s.callbackStop = false := by
    intro hopen
    by_contra hstop
    have hjoined := hs.stopped (by simpa using hstop)
    rw [hopen] at hjoined
    cases hjoined
  cases h with
  | stopWorker h =>
    refine ⟨nofun, nofun, fun hstop => ?_, hs.returned, hs.manned, nofun⟩
    rw [hstopped (by rw [h]; rfl)] at hstop
    cases hstop
  | joinWorker h hw =>
    exact ⟨fun _ => hw, nofun, fun _ => rfl, hs.returned, hs.manned, nofun⟩
  | joinOverflow h =>
    have hjoined : s.destructor.workerJoined = true := by rw [h]; rfl
    exact ⟨fun _ => hs.joined hjoined, fun _ => rfl, fun _ => rfl, hs.returned, hs.manned, nofun⟩
  | stopCallbacks h =>
    have hjoined : s.destructor.workerJoined = true := by rw [h]; rfl
    have hreaped : s.destructor.overflowJoined = true := by rw [h]; rfl
    exact ⟨fun _ => hs.joined hjoined, fun _ => hs.reaped hreaped, fun _ => rfl,
      fun hmem => ⟨rfl, (hs.returned hmem).2⟩, hs.manned, nofun⟩
  | joinCallbacks h hexited =>
    have hjoined : s.destructor.workerJoined = true := by rw [h]; rfl
    have hreaped : s.destructor.overflowJoined = true := by rw [h]; rfl
    exact ⟨fun _ => hs.joined hjoined, fun _ => hs.reaped hreaped, fun _ => rfl, hs.returned,
      hs.manned, fun _ => hexited⟩

theorem closesInOrder_step (h : Step lib heartbeatEnabled callbackThreads s s')
    (hs : ClosesInOrder s) (hidle : IdleCounted s) : ClosesInOrder s' := by
  cases h with
  | connect hw h =>
    have hnil := hidle.unstarted hw
    refine ⟨?_, ?_, hs.stopped, ?_, fun _ => ⟨(hs.manned hnil).1, rfl⟩, ?_⟩
    · rw [h]
      exact nofun
    · rw [h]
      exact nofun
    · intro hmem
      cases List.eq_of_mem_replicate hmem
    · rw [h]
      exact nofun
  | call h =>
    obtain ⟨transactions, detail, direct, origin, rfl, -, -⟩ := h.eq_push
    exact ⟨hs.joined, hs.reaped, hs.stopped, hs.returned, hs.manned, hs.finished⟩
  | worker h => exact closesInOrder_worker h hs hidle
  | callback h => exact closesInOrder_callback h hs
  | destructor h => exact closesInOrder_destructor h hs

theorem closesInOrder_of_reachable
    (h : (system lib heartbeatEnabled callbackThreads).Reachable s) : ClosesInOrder s := by
  apply h.induct
  · rintro s ⟨connection, rfl⟩
    exact ⟨nofun, nofun, nofun, nofun, fun _ => ⟨rfl, rfl⟩, nofun⟩
  · exact fun s s' hreach hs hstep => closesInOrder_step hstep hs (idleCounted_of_reachable hreach)

/-- Whether every callback worker that `PostCallback` counted at its test had a task queued
already, and no other has announced itself since. -/
def overtaken (s s' : PostgresClient σ ρ) (late : Bool) : Bool :=
  if s.worker.isPushing = false ∧ s'.worker.isPushing = true then
    decide (s.callbackQueue ≠ [] ∧ s.idleCallbackWorkers ≤ s.callbackQueue.length)
  else
    late && decide (s'.idleCallbackWorkers ≤ s.idleCallbackWorkers)

/-- The runs of a client, with what the last test of `PostCallback` overlooks. -/
def testedRuns (lib : Libpq σ Submission ρ) (heartbeatEnabled : Bool) (callbackThreads : ℕ) :
    TransitionSystem (PostgresClient σ ρ × Bool) :=
  (system lib heartbeatEnabled callbackThreads).recorded false overtaken

/-- Nothing is queued for callback workers that all have a task already. -/
def QueuesForFree (c c' : PostgresClient σ ρ × Bool) : Prop :=
  c.1.callbackQueue.length < c'.1.callbackQueue.length → c.2 = false

/-- The runs in which every task is queued for a worker of its own. -/
def servedRuns (lib : Libpq σ Submission ρ) (heartbeatEnabled : Bool) (callbackThreads : ℕ) :
    TransitionSystem (PostgresClient σ ρ × Bool) :=
  (testedRuns lib heartbeatEnabled callbackThreads).guarded QueuesForFree

/-- A task about to be queued comes too late when as many are queued as callback workers wait. -/
def ReadLate (c : PostgresClient σ ρ × Bool) : Prop :=
  c.1.worker.isPushing = true →
    (c.2 = true ↔ c.1.callbackQueue.length = c.1.idleCallbackWorkers)

/-- No more tasks are queued than callback workers wait. -/
structure Served (c : PostgresClient σ ρ × Bool) : Prop where
  queued : c.1.callbackQueue.length ≤ c.1.idleCallbackWorkers
  late : ReadLate c

/-- What a step does: the queue stays within the counter exactly if the condition is met, and
`PostCallback` is known to be late either way. -/
structure ServedBy (c c' : PostgresClient σ ρ × Bool) : Prop where
  queued : c'.1.callbackQueue.length ≤ c'.1.idleCallbackWorkers ↔ QueuesForFree c c'
  late : ReadLate c'

theorem ServedBy.served_iff {c c' : PostgresClient σ ρ × Bool} (h : ServedBy c c') :
    Served c' ↔ QueuesForFree c c' :=
  ⟨fun hs => h.queued.mp hs.queued, fun hfree => ⟨h.queued.mpr hfree, h.late⟩⟩

/-- A queue that gets no longer. -/
theorem QueuesForFree.of_le {c c' : PostgresClient σ ρ × Bool}
    (h : c'.1.callbackQueue.length ≤ c.1.callbackQueue.length) : QueuesForFree c c' :=
  fun hless => absurd hless (Nat.not_lt.mpr h)

section Served

variable {c : PostgresClient σ ρ × Bool} (hs : Served c)
include hs

/-- A step that neither tests the counter nor touches the queue or the counter. -/
theorem Served.same (hqueue : s'.callbackQueue = c.1.callbackQueue)
    (hidle : s'.idleCallbackWorkers = c.1.idleCallbackWorkers)
    (hworker : s'.worker.isPushing = true → c.1.worker.isPushing = true) :
    ServedBy c (s', overtaken c.1 s' c.2) := by
  refine ⟨iff_of_true ?_ (.of_le ?_), fun hpushing => ?_⟩
  · rw [hqueue, hidle]
    exact hs.queued
  · exact Nat.le_of_eq (congrArg List.length hqueue)
  · rw [overtaken, if_neg (by simp [hworker hpushing]), hidle, hqueue]
    simpa using hs.late (hworker hpushing)

theorem served_worker (h : WorkerStep lib heartbeatEnabled c.1 s') :
    ServedBy c (s', overtaken c.1 s' c.2) := by
  cases h with
  | @seeIdle task pending hw hidle =>
    refine ⟨iff_of_true hs.queued (.of_le (Nat.le_refl _)), fun _ => ?_⟩
    have hpushing : c.1.worker.isPushing = false := by rw [hw]; rfl
    rw [overtaken, if_pos ⟨hpushing, rfl⟩, decide_eq_true_iff]
    constructor
    · exact fun hall => Nat.le_antisymm hs.queued hall.2
    · -- the test found the counter above zero, so equally many tasks are some
      intro heq
      refine ⟨fun hnil => hidle ?_, Nat.le_of_eq heq.symm⟩
      rw [hnil] at heq
      exact heq.symm
  | @pushTask task pending hw =>
    have hlate := hs.late (by rw [hw]; rfl)
    have hqueued := hs.queued
    refine ⟨?_, fun hpushing => ?_⟩
    · simp only [QueuesForFree, List.length_append, List.length_singleton, Nat.lt_add_one,
        forall_const]
      rw [← Bool.not_eq_true, hlate]
      omega
    · rw [Worker.isPushing_resume] at hpushing
      cases hpushing
  | overflow => exact hs.same rfl rfl (by simp)
  | _ => exact hs.same rfl rfl nofun

theorem served_callback (hcloses : ClosesInOrder c.1) (h : CallbackStep c.1 s') :
    ServedBy c (s', overtaken c.1 s' c.2) := by
  have hworker : s'.worker = c.1.worker := by cases h <;> rfl
  have hread : s'.worker.isPushing = true → overtaken c.1 s' c.2 =
      (c.2 && decide (s'.idleCallbackWorkers ≤ c.1.idleCallbackWorkers)) := by
    intro hpushing
    rw [hworker] at hpushing
    rw [overtaken, if_neg (by simp [hpushing])]
  have hqueued := hs.queued
  cases h with
  | announce h =>
    refine ⟨iff_of_true (Nat.le_succ_of_le hqueued) (.of_le (Nat.le_refl _)), fun hpushing => ?_⟩
    rw [hread hpushing]
    constructor
    · simp
    · intro heq
      dsimp only at heq
      omega
  | @take _ _ task rest h hqueue =>
    rw [hqueue, List.length_cons] at hqueued
    refine ⟨iff_of_true (Nat.le_sub_of_add_le hqueued) (.of_le ?_), fun hpushing => ?_⟩
    · rw [hqueue]
      exact Nat.le_succ _
    · rw [hread hpushing]
      have hlate := hs.late hpushing
      rw [hqueue, List.length_cons] at hlate
      simp only [Nat.sub_le, decide_true, Bool.and_true, hlate]
      omega
  | leave h hstop hqueue =>
    refine ⟨iff_of_true (by simp [hqueue]) (.of_le (Nat.le_refl _)), fun hpushing => ?_⟩
    have hexited := hcloses.joined (hcloses.stopped hstop)
    rw [hexited] at hpushing
    cases hpushing
  | run | runOverflow => exact hs.same rfl rfl id

theorem served_step (hcloses : ClosesInOrder c.1)
    (h : Step lib heartbeatEnabled callbackThreads c.1 s') :
    ServedBy c (s', overtaken c.1 s' c.2) := by
  cases h with
  | connect => exact hs.same rfl rfl nofun
  | call h =>
    obtain ⟨transactions, detail, direct, origin, rfl, -, -⟩ := h.eq_push
    exact hs.same rfl rfl id
  | worker h => exact served_worker hs h
  | callback h => exact served_callback hs hcloses h
  | destructor h => cases h <;> exact hs.same rfl rfl id

end Served

/-- In such a run at most as many tasks are queued as callback workers wait, which the idle counter
counts; and the next step leaves it so exactly if it meets the condition. -/
theorem queue_le_idle_of_servedRuns {c : PostgresClient σ ρ × Bool}
    (h : (servedRuns lib heartbeatEnabled callbackThreads).Reachable c) :
    c.1.callbackQueue.length ≤ c.1.idleCallbackWorkers ∧
      c.1.idleCallbackWorkers = c.1.waitingCallbacks ∧
      ∀ c', (testedRuns lib heartbeatEnabled callbackThreads).step c c' →
        (c'.1.callbackQueue.length ≤ c'.1.idleCallbackWorkers ↔ QueuesForFree c c') := by
  have hstep : ∀ c c', (testedRuns lib heartbeatEnabled callbackThreads).Reachable c → Served c →
      (testedRuns lib heartbeatEnabled callbackThreads).step c c' → ServedBy c c' := by
    rintro c ⟨s', late⟩ hreach hs ⟨hnext, hlate⟩
    obtain rfl : late = overtaken c.1 s' c.2 := hlate
    exact served_step hs (closesInOrder_of_reachable hreach.of_recorded) hnext
  have hserved : Served c := by
    refine (h.guarded_exact ?_ fun c c' hreach hs hnext =>
      (hstep c c' hreach hs hnext).served_iff).1
    rintro ⟨s, late⟩ ⟨⟨connection, rfl⟩, rfl⟩
    exact ⟨Nat.le_refl _, nofun⟩
  have hcounted := (idleCounted_of_reachable h.of_guarded.of_recorded).counted
  exact ⟨hserved.queued, hcounted, fun c' hnext => (hstep c c' h.of_guarded hserved hnext).queued⟩

/-- The callback of an asynchronous request, handed to `PostCallback`. -/
def PostgresClient.Posted (s : PostgresClient σ ρ) (task : Task ρ) : Prop :=
  task ∈ s.answered ∧ ∃ r ∈ s.pushed, r.id = task.id ∧ r.directCallback = false

section Reachable

variable (h : (system lib heartbeatEnabled callbackThreads).Reachable s)
include h

theorem queue_of_finished (hfinished : s.destructor = .finished) : s.callbackQueue = [] := by
  have hs := closesInOrder_of_reachable h
  by_cases hnil : s.callbackWorkers = []
  · exact (hs.manned hnil).1
  · obtain ⟨w, hw⟩ := List.exists_mem_of_ne_nil _ hnil
    exact (hs.returned (hs.finished hfinished w hw ▸ hw)).2

theorem inPool_of_finished (hfinished : s.destructor = .finished) : s.inPool = 0 := by
  have hs := closesInOrder_of_reachable h
  have hworker : s.worker = .exited := hs.joined (by rw [hfinished]; rfl)
  have hoverflow : s.overflowThreads = [] := hs.reaped (by rw [hfinished]; rfl)
  have hqueue := queue_of_finished h hfinished
  have hruns : s.callbackWorkers.flatMap CallbackWorker.runs = [] := by
    apply List.flatMap_eq_nil_iff.mpr
    intro w hw
    rw [hs.finished hfinished w hw]
    rfl
  rw [inPool, hworker, hqueue, hruns, hoverflow]
  rfl

/-- The worker invokes the callbacks of direct requests only. -/
theorem WorkerStep.invokes (hstep : WorkerStep lib heartbeatEnabled s s') :
    s'.invoked = s.invoked ∨ ∃ r ∈ s.pushed, r.directCallback = true ∧
      ∃ task : Task ρ, task.id = r.id ∧ s'.invoked = s.invoked ++ [task] := by
  cases hstep with
  | @deliver r outcome hw hdirect =>
    right
    exact ⟨r, mem_owes h (by rw [hw]; exact List.mem_singleton_self r), hdirect, _, rfl, rfl⟩
  | @drainOne r rest hw hdirect =>
    right
    exact ⟨r, mem_owes h (by rw [hw]; exact List.mem_cons_self), hdirect, _, rfl, rfl⟩
  | _ => exact .inl rfl

/-- When the destructor has joined all threads, the callback queue is empty and every task handed
to `PostCallback` has been run, once; and only a callback worker or an overflow thread ever runs
one. -/
theorem posted_runs_once :
    (s.destructor = .finished →
      s.callbackQueue = [] ∧
        ∀ task, s.Posted task → task ∈ s.invoked ∧ s.invoked.countP (·.id = task.id) = 1) ∧
    ∀ s', Step lib heartbeatEnabled callbackThreads s s' →
      ∀ task, s'.Posted task → task ∈ s'.invoked → task ∉ s.invoked → CallbackStep s s' := by
  constructor
  · intro hfinished
    have hpool := inPool_of_finished h hfinished
    have haccounted := accounted_of_reachable h
    rw [Accounted, hpool, add_zero, Multiset.coe_eq_coe] at haccounted
    constructor
    · exact queue_of_finished h hfinished
    · rintro task ⟨hanswered, -⟩
      have hmem := haccounted.mem_iff.mpr hanswered
      refine ⟨hmem, ?_⟩
      have hcount := List.count_eq_one_of_mem (nodup_invoked h) (List.mem_map_of_mem hmem)
      rw [List.count, List.countP_map] at hcount
      rw [← hcount]
      apply List.countP_congr
      intro other _
      simp
  · intro s' hstep task hposted hmem hnew
    have hnodup := nodup_pushed (h.next hstep)
    cases hstep with
    | connect => exact absurd hmem hnew
    | call hcall =>
      obtain ⟨transactions, detail, direct, origin, rfl, -, -⟩ := hcall.eq_push
      exact absurd hmem hnew
    | worker hworker =>
      rcases WorkerStep.invokes h hworker with heq | ⟨r, hr, hdirect, task', hid, heq⟩
      · exact absurd (heq ▸ hmem) hnew
      · rw [heq] at hmem
        obtain rfl : task = task' := by
          rcases List.mem_append.mp hmem with hold | hlast
          · exact absurd hold hnew
          · exact List.mem_singleton.mp hlast
        obtain ⟨-, r', hr', hid', hdirect'⟩ := hposted
        rw [hworker.pushed_eq] at hr' hnodup
        have hsame := List.inj_on_of_nodup_map hnodup hr hr' (hid.symm.trans hid'.symm)
        rw [hsame, hdirect'] at hdirect
        cases hdirect
    | callback hcallback => exact hcallback
    | destructor hdestructor =>
      cases hdestructor <;> exact absurd hmem hnew

end Reachable

/-- That client when the destructor has joined all its threads. -/
def allJoined : PostgresClient (Server Submission) Submission :=
  { callbackRunning with
    stopRequested := true
    worker := .exited
    overflowThreads := []
    callbackStop := true
    destructor := .finished
    pushedBeforeStop := [asyncRequest]
    invoked := [⟨0, .ok (.request asyncRequest)⟩] }

theorem allJoined_reachable : plainRuns.Reachable allJoined := by
  have h₁ := callbackRunning_reachable.next (.destructor (.stopWorker rfl nofun))
  have h₂ := h₁.next (.worker (.leave rfl rfl))
  have h₃ := h₂.next (.callback (@CallbackStep.runOverflow _ _ _ [] [] _ rfl))
  have h₄ := h₃.next (.destructor (.joinWorker rfl rfl))
  have h₅ := h₄.next (.destructor (.joinOverflow rfl (by simp [OverflowThread.isDone])))
  have h₆ := h₅.next (.destructor (.stopCallbacks rfl))
  have h₇ := h₆.next (.destructor (.joinCallbacks rfl nofun))
  exact h₇

theorem posted_allJoined :
    (⟨0, .ok (.request asyncRequest)⟩ : Task Submission) ∈ allJoined.invoked ∧
      allJoined.invoked.countP (·.id = 0) = 1 :=
  ((posted_runs_once allJoined_reachable).1 rfl).2 ⟨0, .ok (.request asyncRequest)⟩
    ⟨.head _, asyncRequest, .head _, rfl, rfl⟩

abbrev oneCallbackRuns : TransitionSystem (PostgresClient (Server Submission) Submission) :=
  system server false 1

def secondAsync : Request := ⟨1, .ofQuery (query "SELECT 1") 0, false, .client⟩

/-- A client whose worker drains two asynchronous requests while its callback worker waits. -/
def drainingTwo : PostgresClient (Server Submission) Submission :=
  { start (Server.fresh []) with
    stopRequested := true
    worker := .draining [asyncRequest, secondAsync]
    idleCallbackWorkers := 1
    callbackWorkers := [.waiting]
    destructor := .joiningWorker
    pushed := [asyncRequest, secondAsync]
    pushedBeforeStop := [asyncRequest, secondAsync] }

theorem drainingTwo_reachable :
    (servedRuns server false 1).Reachable (drainingTwo, false) := by
  have h₀ : (servedRuns server false 1).Reachable (start (Server.fresh []), false) :=
    .of_init ⟨⟨_, rfl⟩, rfl⟩
  have h₁ := h₀.next_recorded (.connect rfl rfl) (.of_le (Nat.le_refl _))
  have h₂ := h₁.next_recorded (.callback (@CallbackStep.announce _ _ _ [] [] rfl))
    (.of_le (Nat.le_refl _))
  have h₃ := h₂.next_recorded (.call (.executeAsync (.ofQuery (query "SELECT 1") 0) ⟨rfl, nofun⟩))
    (.of_le (Nat.le_refl _))
  have h₄ := h₃.next_recorded (.call (.executeAsync (.ofQuery (query "SELECT 1") 0) ⟨rfl, nofun⟩))
    (.of_le (Nat.le_refl _))
  have h₅ := h₄.next_recorded (.worker (.lock rfl rfl)) (.of_le (Nat.le_refl _))
  have h₆ := h₅.next_recorded (.worker (.wait rfl)) (.of_le (Nat.le_refl _))
  have h₇ := h₆.next_recorded (.destructor (.stopWorker rfl nofun)) (.of_le (Nat.le_refl _))
  have h₈ := h₇.next_recorded (.worker (.wake rfl (.inl rfl))) (.of_le (Nat.le_refl _))
  have h₉ := h₈.next_recorded (.worker (.drain rfl rfl)) (.of_le (Nat.le_refl _))
  exact h₉

def firstQueued : PostgresClient (Server Submission) Submission :=
  { drainingTwo with
    worker := .draining [secondAsync]
    callbackQueue := [⟨0, .error workerStopped⟩]
    answered := [⟨0, .error workerStopped⟩] }

theorem firstQueued_reachable : (servedRuns server false 1).Reachable (firstQueued, false) := by
  have h₁ := drainingTwo_reachable.next_recorded (.worker (.drainPosted rfl rfl))
    (.of_le (Nat.le_refl _))
  have h₂ := h₁.next_recorded (.worker (.seeIdle rfl nofun)) (.of_le (Nat.le_refl _))
  have h₃ := h₂.next_recorded (.worker (.pushTask rfl)) fun _ => rfl
  exact h₃

theorem queue_firstQueued :
    firstQueued.callbackQueue.length ≤ firstQueued.idleCallbackWorkers ∧
      firstQueued.idleCallbackWorkers = firstQueued.waitingCallbacks ∧
      ∀ c', (testedRuns server false 1).step (firstQueued, false) c' →
        (c'.1.callbackQueue.length ≤ c'.1.idleCallbackWorkers ↔
          QueuesForFree (firstQueued, false) c') :=
  queue_le_idle_of_servedRuns firstQueued_reachable

/-- The second task is queued behind the first while one callback worker waits. -/
theorem two_queued_for_one :
    ¬ ∀ s : PostgresClient (Server Submission) Submission, oneCallbackRuns.Reachable s →
      s.callbackQueue.length ≤ s.idleCallbackWorkers := by
  have h₁ := firstQueued_reachable.of_guarded.of_recorded.next (.worker (.drainPosted rfl rfl))
  have h₂ := h₁.next (.worker (.seeIdle rfl nofun))
  have h₃ := h₂.next (.worker (.pushTask rfl))
  intro hall
  have hlast := hall _ h₃
  exact absurd hlast (by decide)

end PostgresLib.Client
