import PostgresLib.Client.Requests
import PostgresLib.Connection.Server
import Mathlib.Algebra.Order.Group.Multiset
import Mathlib.Tactic.Abel

/-! # The order of executions and the outcome of a request

A callback that is answered is invoked by the worker, or is a task that the worker
posts, that is queued, or that a callback thread runs. Its outcome is that of an
execution of its request, or the error of the drain.
-/

namespace PostgresLib.Client

open Foundations Connection PostgresClient
open Transaction (query)

variable {σ ρ : Type}

def Worker.posts : Worker ρ → List (Task ρ)
  | posting task _ | pushing task _ => [task]
  | _ => []

@[simp] theorem Worker.posts_resume (pending : Option (List Request)) :
    (resume pending : Worker ρ).posts = [] := by
  cases pending <;> rfl

def CallbackWorker.runs : CallbackWorker ρ → List (Task ρ)
  | running task => [task]
  | _ => []

def OverflowThread.runs : OverflowThread ρ → List (Task ρ)
  | running task => [task]
  | done => []

theorem flatMap_runs_reap (threads : List (OverflowThread ρ)) :
    (threads.filter fun o => !o.isDone).flatMap OverflowThread.runs =
      threads.flatMap OverflowThread.runs := by
  induction threads with
  | nil => rfl
  | cons o threads ih =>
    cases o with
    | running task =>
      rw [List.filter_cons_of_pos rfl, List.flatMap_cons, List.flatMap_cons, ih]
    | done =>
      rw [List.filter_cons_of_neg Bool.false_ne_true, List.flatMap_cons, ih]
      rfl

theorem flatMap_runs_done {threads : List (OverflowThread ρ)} (h : ∀ o ∈ threads, o.isDone = true) :
    threads.flatMap OverflowThread.runs = [] := by
  apply List.flatMap_eq_nil_iff.mpr
  intro o ho
  cases o with
  | running task => exact absurd (h _ ho) Bool.false_ne_true
  | done => rfl

namespace PostgresClient

/-- The tasks that were handed to `PostCallback` and have not run. -/
def inPool (s : PostgresClient σ ρ) : Multiset (Task ρ) :=
  s.worker.posts + s.callbackQueue + s.callbackWorkers.flatMap CallbackWorker.runs +
    s.overflowThreads.flatMap OverflowThread.runs

/-- Every answered callback was invoked or is on its way, once. -/
def Accounted (s : PostgresClient σ ρ) : Prop :=
  (s.invoked : Multiset (Task ρ)) + s.inPool = s.answered

/-- The outcome is that of an execution of the request. -/
def FromExecution (lib : Libpq σ Submission ρ) (s : PostgresClient σ ρ) (task : Task ρ) : Prop :=
  ∃ x ∈ s.executions, ∃ r, x.submission = .request r ∧ r.id = task.id ∧
    (x.ending lib).result = some task.outcome

/-- The outcome is that of an execution, or the error of the drain. -/
def Justified (lib : Libpq σ Submission ρ) (s : PostgresClient σ ρ) (task : Task ρ) : Prop :=
  s.FromExecution lib task ∨ task.outcome = .error workerStopped

end PostgresClient

variable {lib : Libpq σ Submission ρ} {heartbeatEnabled : Bool} {callbackThreads : ℕ}
  {s s' : PostgresClient σ ρ}

theorem accounted_worker (h : WorkerStep lib heartbeatEnabled s s') (hs : s.Accounted) :
    s'.Accounted := by
  unfold Accounted inPool at *
  cases h with
  | deliver hw | drainOne hw =>
    simp only [hw, Worker.posts, invoke, ← Multiset.coe_add] at hs ⊢
    rw [← hs]
    abel
  | deliverPosted hw | drainPosted hw =>
    simp only [hw, Worker.posts, post, ← Multiset.coe_add, Multiset.coe_nil] at hs ⊢
    rw [← hs]
    abel
  | overflow hw =>
    simp only [hw, Worker.posts_resume, List.flatMap_append, flatMap_runs_reap,
      ← Multiset.coe_add] at hs ⊢
    rw [← hs]
    simp only [Worker.posts, List.flatMap_singleton, OverflowThread.runs, Multiset.coe_nil]
    abel
  | pushTask hw =>
    simp only [hw, Worker.posts_resume, ← Multiset.coe_add] at hs ⊢
    rw [← hs]
    simp only [Worker.posts, Multiset.coe_nil]
    abel
  | ping hw | hangBeat hw | execute hw | hang hw =>
    simpa [hw, Worker.posts, PostgresClient.execute] using hs
  | leave hw | lock hw | beat hw | wait hw | wake hw | timeOut hw | drain hw | goOn hw | takeNone hw
  | take hw | drained hw | seeIdle hw =>
    simpa [hw, Worker.posts] using hs

theorem accounted_callback (h : CallbackStep s s') (hs : s.Accounted) : s'.Accounted := by
  unfold Accounted inPool at *
  cases h with
  | announce h =>
    simpa [h, CallbackWorker.runs] using hs
  | take h hqueue =>
    simp only [h, hqueue, List.flatMap_append, List.flatMap_cons, CallbackWorker.runs,
      ← Multiset.coe_add, Multiset.coe_nil, ← Multiset.cons_coe, ← Multiset.singleton_add] at hs ⊢
    rw [← hs]
    abel
  | leave h =>
    simpa [h, CallbackWorker.runs] using hs
  | run h =>
    simp only [h, List.flatMap_append, List.flatMap_cons, CallbackWorker.runs,
      ← Multiset.coe_add, Multiset.coe_nil] at hs ⊢
    rw [← hs]
    abel
  | runOverflow h =>
    simp only [h, List.flatMap_append, List.flatMap_cons, OverflowThread.runs,
      ← Multiset.coe_add, Multiset.coe_nil] at hs ⊢
    rw [← hs]
    abel

theorem accounted_step (h : Step lib heartbeatEnabled callbackThreads s s') (hs : s.Accounted)
    (hstarted : s.worker = .unstarted → s.callbackWorkers = []) : s'.Accounted := by
  cases h with
  | connect hw =>
    unfold Accounted inPool at *
    have hnone (n : ℕ) : (List.replicate n (CallbackWorker.announcing : CallbackWorker ρ)).flatMap
        CallbackWorker.runs = [] := by
      simp [List.flatMap_eq_nil_iff, CallbackWorker.runs]
    simpa [hw, hstarted hw, hnone, Worker.posts] using hs
  | call h =>
    obtain ⟨transactions, detail, direct, origin, rfl, -, -⟩ := h.eq_push
    exact hs
  | worker h => exact accounted_worker h hs
  | callback h => exact accounted_callback h hs
  | destructor h =>
    cases h with
    | joinOverflow h hdone =>
      unfold Accounted inPool at *
      simpa [flatMap_runs_done hdone] using hs
    | stopWorker | joinWorker | stopCallbacks | joinCallbacks => exact hs

theorem WorkerStep.started (h : WorkerStep lib heartbeatEnabled s s') : s'.worker ≠ .unstarted := by
  intro hstart
  cases h with
  | @overflow task pending | @pushTask task pending => cases pending <;> cases hstart
  | _ => cases hstart

theorem unstarted_step (h : Step lib heartbeatEnabled callbackThreads s s')
    (hs : s.worker = .unstarted → s.callbackWorkers = []) :
    s'.worker = .unstarted → s'.callbackWorkers = [] := by
  cases h with
  | connect => exact nofun
  | call h =>
    obtain ⟨transactions, detail, direct, origin, rfl, -, -⟩ := h.eq_push
    exact hs
  | worker h => exact fun hw => absurd hw h.started
  | callback h =>
    intro hw
    cases h with
    | announce h | take h | leave h | run h =>
      have hnil := hs hw
      rw [h] at hnil
      simp at hnil
    | runOverflow => exact hs hw
  | destructor h => cases h <;> exact hs

theorem accounted_of_reachable (h : (system lib heartbeatEnabled callbackThreads).Reachable s) :
    s.Accounted := by
  have hboth : s.Accounted ∧ (s.worker = .unstarted → s.callbackWorkers = []) := by
    apply h.induct
    · rintro s ⟨connection, rfl⟩
      exact ⟨rfl, fun _ => rfl⟩
    · exact fun s s' _ hs hstep =>
        ⟨accounted_step hstep hs.1 hs.2, unstarted_step hstep hs.2⟩
  exact hboth.1

theorem PostgresClient.FromExecution.execute {task : Task ρ} (h : s.FromExecution lib task)
    (x : Execution σ) (worker : Worker ρ) : (s.execute lib x worker).FromExecution lib task := by
  obtain ⟨y, hy, hrest⟩ := h
  exact ⟨y, List.mem_append_left _ hy, hrest⟩

/-- What is answered, and what the worker is about to deliver, is justified. -/
structure AllJustified (lib : Libpq σ Submission ρ) (s : PostgresClient σ ρ) : Prop where
  answered : ∀ task ∈ s.answered, s.Justified lib task
  delivering : ∀ r outcome, s.worker = .delivering r outcome → s.FromExecution lib ⟨r.id, outcome⟩

theorem AllJustified.append (hs : AllJustified lib s) {task : Task ρ} (h : s.Justified lib task) :
    ∀ task' ∈ s.answered ++ [task], s.Justified lib task' := by
  intro task' hmem
  rcases List.mem_append.mp hmem with hold | hnew
  · exact hs.answered task' hold
  · rw [List.mem_singleton.mp hnew]
    exact h

theorem allJustified_worker (h : WorkerStep lib heartbeatEnabled s s') (hs : AllJustified lib s) :
    AllJustified lib s' := by
  cases h with
  | ping hw | hangBeat hw | hang hw =>
    constructor
    · intro task hmem
      exact (hs.answered task hmem).imp (fun h => h.execute _ _) id
    · intro r outcome hw'
      cases hw'
  | @execute r hw fuel outcome h =>
    constructor
    · intro task hmem
      exact (hs.answered task hmem).imp (fun h => h.execute _ _) id
    · intro r' outcome' hw'
      cases hw'
      exact ⟨_, List.mem_append_right _ (List.mem_singleton_self _), r, rfl, rfl, h⟩
  | deliver hw | deliverPosted hw =>
    constructor
    · exact hs.append (.inl (hs.delivering _ _ hw))
    · intro r outcome hw'
      cases hw'
  | drainOne hw | drainPosted hw =>
    constructor
    · exact hs.append (.inr rfl)
    · intro r outcome hw'
      cases hw'
  | @overflow task pending | @pushTask task pending =>
    refine ⟨hs.answered, fun r outcome hw => ?_⟩
    cases pending <;> cases hw
  | _ =>
    refine ⟨hs.answered, ?_⟩
    intro r outcome hw'
    cases hw'

theorem allJustified_step (h : Step lib heartbeatEnabled callbackThreads s s')
    (hs : AllJustified lib s) : AllJustified lib s' := by
  cases h with
  | connect => exact ⟨hs.answered, nofun⟩
  | call h =>
    obtain ⟨transactions, detail, direct, origin, rfl, -, -⟩ := h.eq_push
    exact ⟨hs.answered, hs.delivering⟩
  | worker h => exact allJustified_worker h hs
  | callback h => cases h <;> exact ⟨hs.answered, hs.delivering⟩
  | destructor h => cases h <;> exact ⟨hs.answered, hs.delivering⟩

section Reachable

variable (h : (system lib heartbeatEnabled callbackThreads).Reachable s)
include h

theorem allJustified_of_reachable : AllJustified lib s := by
  apply h.induct
  · rintro s ⟨connection, rfl⟩
    exact ⟨nofun, nofun⟩
  · exact fun s s' _ hs hstep => allJustified_step hstep hs

theorem justified_of_reachable : ∀ task ∈ s.answered, s.Justified lib task :=
  (allJustified_of_reachable h).answered

theorem invoked_le_answered : (s.invoked : Multiset (Task ρ)) ≤ s.answered := by
  rw [← accounted_of_reachable h]
  exact Multiset.le_add_right _ _

theorem nodup_invoked : (s.invoked.map (·.id)).Nodup := by
  have hle := Multiset.map_le_map (f := Task.id) (invoked_le_answered h)
  simp only [Multiset.map_coe] at hle
  exact Multiset.nodup_of_le hle (nodup_answered h)

theorem justified_invoked : ∀ task ∈ s.invoked, s.Justified lib task :=
  fun task hmem => justified_of_reachable h task (Multiset.mem_of_le (invoked_le_answered h) hmem)

/-- Requests are handed to `ExecuteWithRetry` in the order of their pushes, each once and none
skipped, and at most one callback of a request is invoked, once: `on_success` with a result of its
execution, or `on_error` with an error of its execution or of the drain. -/
theorem fifo_and_one_outcome :
    s.executed <+: s.pushed ∧ (s.pushed.map (·.id)).Nodup ∧ (s.invoked.map (·.id)).Nodup ∧
      ∀ task ∈ s.invoked, s.FromExecution lib task ∨ task.outcome = .error workerStopped :=
  ⟨(sequenced_of_reachable h).1, nodup_pushed h, nodup_invoked h, justified_invoked h⟩

end Reachable

/-- A request that the drain answers, or is to answer, is not executed. -/
structure RefusesUnexecuted (lib : Libpq σ Submission ρ) (s : PostgresClient σ ρ) : Prop where
  pending : s.worker.stopped = true → ∀ r ∈ s.worker.owes, r ∉ s.executed
  answered : ∀ task ∈ s.answered, s.FromExecution lib task ∨
    s.worker.stopped = true ∧ task.outcome = .error workerStopped ∧
      ∀ r ∈ s.executed, r.id ≠ task.id

/-- A step that executes nothing and answers nothing. -/
theorem RefusesUnexecuted.move (hs : RefusesUnexecuted lib s)
    (hexecutions : s'.executions = s.executions) (hanswered : s'.answered = s.answered)
    (hstopped : s.worker.stopped = true → s'.worker.stopped = true)
    (hpending : s'.worker.stopped = true → ∀ r ∈ s'.worker.owes, r ∉ s.executed) :
    RefusesUnexecuted lib s' where
  pending := by
    rw [executed, hexecutions]
    exact hpending
  answered := by
    rw [hanswered, executed, hexecutions]
    intro task htask
    rcases hs.answered task htask with ⟨x, hx, hrest⟩ | ⟨hold, hrest⟩
    · exact .inl ⟨x, hexecutions ▸ hx, hrest⟩
    · exact .inr ⟨hstopped hold, hrest⟩

/-- A step of a worker that has not stopped and does not stop. -/
theorem RefusesUnexecuted.goOn (hs : RefusesUnexecuted lib s)
    (hexecutions : s'.executions = s.executions) (hanswered : s'.answered = s.answered)
    (hrunning : s.worker.stopped = false) (hrunning' : s'.worker.stopped = false) :
    RefusesUnexecuted lib s' :=
  hs.move hexecutions hanswered
    (fun hstopped => absurd (hrunning.symm.trans hstopped) Bool.false_ne_true)
    fun hstopped => absurd (hrunning'.symm.trans hstopped) Bool.false_ne_true

/-- While the worker has not stopped, every answer is from an execution. -/
theorem RefusesUnexecuted.execute (hs : RefusesUnexecuted lib s) (x : Execution σ)
    (worker : Worker ρ) (hrunning : s.worker.stopped = false) (hrunning' : worker.stopped = false) :
    RefusesUnexecuted lib (s.execute lib x worker) where
  pending hstopped := absurd (hrunning'.symm.trans hstopped) Bool.false_ne_true
  answered task htask := by
    rcases hs.answered task htask with hfrom | ⟨hstopped, -⟩
    · exact .inl (hfrom.execute x worker)
    · exact absurd (hrunning.symm.trans hstopped) Bool.false_ne_true

section Reachable

variable (h : (system lib heartbeatEnabled callbackThreads).Reachable s)
include h

theorem mem_owes {r : Request} (hr : r ∈ s.worker.owes) : r ∈ s.pushed := by
  obtain ⟨finished, -, hplaces⟩ := placed_of_reachable h
  rw [← hplaces]
  exact List.mem_append_right _ (List.mem_append_left _ hr)

theorem eq_of_id_eq {r r' : Request} (hr : r ∈ s.pushed) (hr' : r' ∈ s.pushed)
    (hid : r.id = r'.id) : r = r' :=
  List.inj_on_of_nodup_map (nodup_pushed h) hr hr' hid

theorem refusesUnexecuted_drain (hs : RefusesUnexecuted lib s) {r : Request} {rest : List Request}
    (hw : s.worker = .draining (r :: rest)) (worker : Worker ρ) (howes : worker.owes = rest)
    (hstopped : worker.stopped = true) :
    RefusesUnexecuted lib
      { s with worker := worker, answered := s.answered ++ [⟨r.id, .error workerStopped⟩] } where
  pending _ q hq := by
    refine hs.pending (by rw [hw]; rfl) q ?_
    rw [hw]
    exact List.mem_cons_of_mem r (howes ▸ hq)
  answered task htask := by
    rcases List.mem_append.mp htask with hold | hnew
    · exact (hs.answered task hold).imp id fun hrefused => ⟨hstopped, hrefused.2⟩
    · rw [List.mem_singleton.mp hnew]
      have howed : r ∈ s.worker.owes := by
        rw [hw]
        exact List.mem_cons_self
      refine .inr ⟨hstopped, rfl, fun q hq hid => ?_⟩
      have heq := eq_of_id_eq h ((sequenced_of_reachable h).1.subset hq) (mem_owes h howed) hid
      exact hs.pending (by rw [hw]; rfl) r howed (heq ▸ hq)

theorem refusesUnexecuted_worker (hstep : WorkerStep lib heartbeatEnabled s s')
    (hs : RefusesUnexecuted lib s) : RefusesUnexecuted lib s' := by
  cases hstep with
  | leave hw | drained hw =>
    exact hs.move rfl rfl (fun _ => rfl) fun _ r hr => absurd hr List.not_mem_nil
  | lock hw | beat hw | wait hw | wake hw | timeOut hw | goOn hw | takeNone hw | take hw =>
    exact hs.goOn rfl rfl (by rw [hw]; rfl) rfl
  | drain hw =>
    refine hs.move rfl rfl (fun _ => rfl) fun _ r hr hexecuted => ?_
    have hplaces := (sequenced_of_reachable h).2 (by rw [hw]; rfl)
    have hnodup := (nodup_pushed h).of_map
    rw [← hplaces, List.nodup_append] at hnodup
    exact hnodup.2.2 r hexecuted r (List.mem_append_right _ hr) rfl
  | ping hw | hangBeat hw | execute hw | hang hw => exact hs.execute _ _ (by rw [hw]; rfl) rfl
  | deliver hw | deliverPosted hw =>
    refine ⟨fun hstopped => absurd hstopped Bool.false_ne_true, fun task htask => ?_⟩
    rcases List.mem_append.mp htask with hold | hnew
    · rcases hs.answered task hold with hfrom | ⟨hstopped, -⟩
      · exact .inl hfrom
      · rw [hw] at hstopped
        cases hstopped
    · rw [List.mem_singleton.mp hnew]
      exact .inl ((allJustified_of_reachable h).delivering _ _ hw)
  | @drainOne r rest hw =>
    have hdrained := refusesUnexecuted_drain h hs hw (.draining rest) rfl rfl
    exact ⟨hdrained.pending, hdrained.answered⟩
  | @drainPosted r rest hw =>
    exact refusesUnexecuted_drain h hs hw (.posting ⟨r.id, .error workerStopped⟩ (some rest))
      rfl rfl
  | @overflow task pending hw | @pushTask task pending hw =>
    have hpending := hs.pending
    rw [hw] at hpending
    refine hs.move rfl rfl ?_ ?_
    · rw [hw, Worker.stopped_resume]
      exact id
    · rw [Worker.stopped_resume, Worker.owes_resume]
      exact hpending
  | seeIdle hw =>
    have hpending := hs.pending
    rw [hw] at hpending
    exact hs.move rfl rfl (by simp [hw, Worker.stopped]) hpending

end Reachable

theorem refusesUnexecuted_of_reachable
    (h : (system lib heartbeatEnabled callbackThreads).Reachable s) : RefusesUnexecuted lib s := by
  apply h.induct
  · rintro s ⟨connection, rfl⟩
    exact ⟨nofun, nofun⟩
  · intro s s' hreach hs hstep
    cases hstep with
    | connect hw => exact hs.goOn rfl rfl (by rw [hw]; rfl) rfl
    | call h =>
      obtain ⟨transactions, detail, direct, origin, rfl, -, -⟩ := h.eq_push
      exact ⟨hs.pending, hs.answered⟩
    | worker h => exact refusesUnexecuted_worker hreach h hs
    | callback h => cases h <;> exact ⟨hs.pending, hs.answered⟩
    | destructor h => cases h <;> exact ⟨hs.pending, hs.answered⟩

def firstRequest : Request := ⟨0, .ofQuery (query "SELECT 1") 0, true, .client⟩

def executingOne : PostgresClient (Server Submission) Submission :=
  { start (Server.fresh []) with
    worker := .executing firstRequest
    pushed := [firstRequest] }

/-- That client when the request has been answered with its result. -/
def servedOne : PostgresClient (Server Submission) Submission :=
  (executingOne.execute server ⟨.request firstRequest, Server.fresh [], 3⟩
    (.delivering firstRequest (.ok (.request firstRequest)))).invoke
      ⟨0, .ok (.request firstRequest)⟩ .loopTest

theorem executingOne_reachable : (system server false 0).Reachable executingOne := by
  have h₀ : (system server false 0).Reachable (start (Server.fresh [])) := .of_init ⟨_, rfl⟩
  have h₁ := h₀.next (.connect rfl rfl)
  have h₂ := h₁.next (.call (.execute (.ofQuery (query "SELECT 1") 0) ⟨rfl, nofun⟩))
  exact h₂.run (taken rfl rfl rfl)

theorem servedOne_reachable : (system server false 0).Reachable servedOne := by
  have h₁ := executingOne_reachable.next (.worker (.execute rfl 3 (server_result _ 0 [])))
  have h₂ := h₁.next (.worker (.deliver rfl rfl))
  exact h₂

theorem fifo_servedOne :
    servedOne.executed <+: servedOne.pushed ∧ (servedOne.pushed.map (·.id)).Nodup ∧
      (servedOne.invoked.map (·.id)).Nodup ∧
      ∀ task ∈ servedOne.invoked,
        servedOne.FromExecution server task ∨ task.outcome = .error workerStopped :=
  fifo_and_one_outcome servedOne_reachable

end PostgresLib.Client
