import PostgresLib.Client.Model
import Mathlib.Data.List.Nodup

/-! # Where a request is

A request is pushed once and is then in exactly one place: in the queue, with the
worker, or answered. The places are in the order of the pushes.
-/

namespace PostgresLib.Client

open Foundations Connection

variable {σ ρ : Type}

namespace Worker

/-- The requests that the worker has taken from the queue and not answered. -/
def owes : Worker ρ → List Request
  | executing r | delivering r _ => [r]
  | hung submission => submission.request?.toList
  | draining pending => pending
  | posting _ pending | pushing _ pending => pending.getD []
  | _ => []

/-- The request that the worker has taken and not handed to `ExecuteWithRetry`. -/
def holds : Worker ρ → List Request
  | executing r => [r]
  | _ => []

/-- The worker drains, or has returned. -/
def stopped : Worker ρ → Bool
  | draining _ | exited => true
  | posting _ pending | pushing _ pending => pending.isSome
  | _ => false

@[simp] theorem owes_resume (pending : Option (List Request)) :
    (resume pending : Worker ρ).owes = pending.getD [] := by
  cases pending <;> rfl

@[simp] theorem holds_resume (pending : Option (List Request)) :
    (resume pending : Worker ρ).holds = [] := by
  cases pending <;> rfl

@[simp] theorem stopped_resume (pending : Option (List Request)) :
    (resume pending : Worker ρ).stopped = pending.isSome := by
  cases pending <;> rfl

end Worker

namespace PostgresClient

/-- The requests that were handed to `ExecuteWithRetry`, in that order. -/
def executed (s : PostgresClient σ ρ) : List Request :=
  s.executions.filterMap (·.submission.request?)

def Numbered (s : PostgresClient σ ρ) : Prop :=
  s.pushed.map (·.id) = List.range s.pushed.length

/-- Answered, with the worker, in the queue. -/
def Placed (s : PostgresClient σ ρ) : Prop :=
  ∃ finished : List Request, finished.map (·.id) = s.answered.map (·.id) ∧
    finished ++ (s.worker.owes ++ s.requests) = s.pushed

/-- Until the worker drains, nothing is lost between the executions and the queue. -/
def Sequenced (s : PostgresClient σ ρ) : Prop :=
  s.executed <+: s.pushed ∧
    (s.worker.stopped = false → s.executed ++ (s.worker.holds ++ s.requests) = s.pushed)

end PostgresClient

open PostgresClient

/-- Every call pushes one new request; one on a transaction is made when it is callable. -/
theorem Call.eq_push {s s' : PostgresClient σ ρ} (h : Call s s') :
    ∃ transactions detail direct origin,
      s' = { s with transactions := transactions }.push (s.next detail direct origin) ∧
      s.Accepts ∧ ∀ t, origin = .transaction t → ∃ op, s.Callable t op := by
  cases h with
  | execute detail h => exact ⟨_, _, _, _, rfl, h, nofun⟩
  | executeAsync detail h => exact ⟨_, _, _, _, rfl, h, nofun⟩
  | createTransaction h => exact ⟨_, _, _, _, rfl, h, nofun⟩
  | onTransaction t op h hcallable =>
    refine ⟨_, _, _, _, rfl, h, ?_⟩
    intro t' ht'
    cases ht'
    exact ⟨op, hcallable⟩

variable {lib : Libpq σ Submission ρ} {heartbeatEnabled : Bool} {callbackThreads : ℕ}
  {s s' : PostgresClient σ ρ}

/-- What is pushed, and what had been pushed when the stop was requested, the worker and the
callback threads leave alone. -/
theorem WorkerStep.pushed_eq (h : WorkerStep lib heartbeatEnabled s s') : s'.pushed = s.pushed := by
  cases h <;> rfl

theorem numbered_step (h : Step lib heartbeatEnabled callbackThreads s s') (hs : s.Numbered) :
    s'.Numbered := by
  unfold Numbered at *
  cases h with
  | connect => exact hs
  | call h =>
    obtain ⟨transactions, detail, direct, origin, rfl, -, -⟩ := h.eq_push
    simp [push, next, hs, List.range_succ]
  | worker h => rwa [h.pushed_eq]
  | callback h => cases h <;> exact hs
  | destructor h => cases h <;> exact hs

theorem placed_worker (h : WorkerStep lib heartbeatEnabled s s') (hs : s.Placed) : s'.Placed := by
  obtain ⟨finished, hids, hplaces⟩ := hs
  cases h with
  | leave hw | lock hw | beat hw | wait hw | wake hw | timeOut hw | drain hw | goOn hw | takeNone hw
  | drained hw | seeIdle hw =>
    exact ⟨finished, hids, by simpa [hw, Worker.owes] using hplaces⟩
  | overflow hw | pushTask hw =>
    rw [hw] at hplaces
    refine ⟨finished, hids, ?_⟩
    simp only [Worker.owes_resume]
    exact hplaces
  | take hw h => exact ⟨finished, hids, by simpa [hw, h, Worker.owes] using hplaces⟩
  | ping hw | hangBeat hw | execute hw | hang hw =>
    refine ⟨finished, hids, ?_⟩
    simpa [hw, Worker.owes, Submission.request?, execute] using hplaces
  | @deliver r _ hw | @drainOne r _ hw =>
    refine ⟨finished ++ [r], by simp [invoke, hids], ?_⟩
    simpa [hw, Worker.owes, invoke] using hplaces
  | @deliverPosted r _ hw | @drainPosted r _ hw =>
    refine ⟨finished ++ [r], by simp [post, hids], ?_⟩
    simpa [hw, Worker.owes, post] using hplaces

theorem placed_step (h : Step lib heartbeatEnabled callbackThreads s s') (hs : s.Placed) :
    s'.Placed := by
  cases h with
  | connect hw =>
    obtain ⟨finished, hids, hplaces⟩ := hs
    exact ⟨finished, hids, by simpa [hw, Worker.owes] using hplaces⟩
  | call h =>
    obtain ⟨transactions, detail, direct, origin, rfl, -, -⟩ := h.eq_push
    obtain ⟨finished, hids, hplaces⟩ := hs
    exact ⟨finished, hids, by simp only [push, ← hplaces, List.append_assoc]⟩
  | worker h => exact placed_worker h hs
  | callback h => cases h <;> exact hs
  | destructor h => cases h <;> exact hs

theorem executed_execute (s : PostgresClient σ ρ) (x : Execution σ) (worker : Worker ρ) :
    (s.execute lib x worker).executed = s.executed ++ x.submission.request?.toList := by
  cases h : x.submission <;> simp [executed, execute, h, Submission.request?]

theorem sequenced_worker (h : WorkerStep lib heartbeatEnabled s s') (hs : s.Sequenced) :
    s'.Sequenced := by
  obtain ⟨hinit, hplaces⟩ := hs
  cases h with
  | leave hw | drain hw | drained hw => exact ⟨hinit, nofun⟩
  | lock hw | beat hw | wait hw | wake hw | timeOut hw | goOn hw | takeNone hw =>
    refine ⟨hinit, fun _ => ?_⟩
    simpa [hw, executed, Worker.holds, Worker.stopped] using hplaces
  | take hw h =>
    refine ⟨hinit, fun _ => ?_⟩
    simpa [hw, h, executed, Worker.holds, Worker.stopped] using hplaces
  | ping hw | hangBeat hw =>
    unfold Sequenced
    rw [executed_execute]
    refine ⟨by simpa [execute, Submission.request?] using hinit, fun _ => ?_⟩
    simpa [hw, execute, Submission.request?, Worker.holds, Worker.stopped] using hplaces
  | execute hw | hang hw =>
    have hall := hplaces (by rw [hw]; rfl)
    rw [hw] at hall
    unfold Sequenced
    rw [executed_execute]
    constructor
    · simp only [execute, ← hall, Submission.request?, Worker.holds, Option.toList]
      rw [← List.append_assoc]
      exact List.prefix_append _ _
    · intro _
      simpa [execute, Submission.request?, Worker.holds] using hall
  | deliver hw | drainOne hw | deliverPosted hw | drainPosted hw | seeIdle hw =>
    refine ⟨hinit, fun hstopped => ?_⟩
    rw [hw] at hplaces
    exact hplaces hstopped
  | overflow hw | pushTask hw =>
    refine ⟨hinit, fun hstopped => ?_⟩
    rw [Worker.stopped_resume] at hstopped
    rw [hw] at hplaces
    rw [Worker.holds_resume]
    exact hplaces hstopped

theorem sequenced_step (h : Step lib heartbeatEnabled callbackThreads s s') (hs : s.Sequenced) :
    s'.Sequenced := by
  cases h with
  | connect hw =>
    refine ⟨hs.1, fun _ => ?_⟩
    simpa [hw, executed, Worker.holds] using hs.2 (by rw [hw]; rfl)
  | call h =>
    obtain ⟨transactions, detail, direct, origin, rfl, -, -⟩ := h.eq_push
    constructor
    · exact hs.1.trans (List.prefix_append _ _)
    · intro hstopped
      simp only [push, executed, ← hs.2 hstopped, List.append_assoc]
  | worker h => exact sequenced_worker h hs
  | callback h => cases h <;> exact hs
  | destructor h => cases h <;> exact hs

theorem taken {r : Request} {rest : List Request} (hw : s.worker = .loopTest)
    (hstop : s.stopRequested = false) (hr : s.requests = r :: rest) :
    (system lib heartbeatEnabled callbackThreads).Run s
      { s with worker := .executing r, requests := rest } := by
  have hqueued : s.requests ≠ [] := by
    rw [hr]
    exact List.cons_ne_nil _ _
  have h₁ : (system lib heartbeatEnabled callbackThreads).Run s _ :=
    .single (.worker (.lock hw hstop))
  have h₂ := h₁.tail (.worker (.wait rfl))
  have h₃ := h₂.tail (.worker (.wake rfl (.inr hqueued)))
  have h₄ := h₃.tail (.worker (.goOn rfl hstop))
  exact h₄.tail (.worker (.take rfl hr))

section Reachable

variable (h : (system lib heartbeatEnabled callbackThreads).Reachable s)
include h

theorem numbered_of_reachable : s.Numbered := by
  apply h.induct
  · rintro s ⟨connection, rfl⟩
    rfl
  · exact fun s s' _ hs hstep => numbered_step hstep hs

theorem placed_of_reachable : s.Placed := by
  apply h.induct
  · rintro s ⟨connection, rfl⟩
    exact ⟨[], rfl, rfl⟩
  · exact fun s s' _ hs hstep => placed_step hstep hs

theorem sequenced_of_reachable : s.Sequenced := by
  apply h.induct
  · rintro s ⟨connection, rfl⟩
    exact ⟨List.prefix_rfl, fun _ => rfl⟩
  · exact fun s s' _ hs hstep => sequenced_step hstep hs

theorem nodup_pushed : (s.pushed.map (·.id)).Nodup := by
  rw [numbered_of_reachable h]
  exact List.nodup_range

theorem nodup_answered : (s.answered.map (·.id)).Nodup := by
  obtain ⟨finished, hids, hplaces⟩ := placed_of_reachable h
  have hnodup := nodup_pushed h
  rw [← hplaces, List.map_append, hids] at hnodup
  exact (List.nodup_append.mp hnodup).1

/-- A request that is neither with the worker nor in the queue is answered, once. -/
theorem answered_once {r : Request} (hr : r ∈ s.pushed) (howed : r ∉ s.worker.owes)
    (hqueued : r ∉ s.requests) : s.answered.countP (·.id = r.id) = 1 := by
  obtain ⟨finished, hids, hplaces⟩ := placed_of_reachable h
  have hfinished : r ∈ finished := by
    rw [← hplaces] at hr
    simpa [howed, hqueued] using hr
  have hmem : r.id ∈ s.answered.map (·.id) := hids ▸ List.mem_map_of_mem hfinished
  have hcount := List.count_eq_one_of_mem (nodup_answered h) hmem
  rw [List.count, List.countP_map] at hcount
  rw [← hcount]
  apply List.countP_congr
  intro task _
  simp

end Reachable

end PostgresLib.Client
