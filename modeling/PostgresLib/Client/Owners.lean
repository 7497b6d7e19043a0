import PostgresLib.Client.Ownership
import PostgresLib.Client.CallbackQueue

/-! # Where the callbacks of a request go

A step of the client moves callbacks from one place to the next. What it does to the
number of owners among the callbacks that may still be called is one equation for
each kind of step: only the worker takes callbacks away, and only the one that it
does not use.
-/

namespace PostgresLib.Client


open Foundations Connection PostgresClient OwnedClient
open Transaction (Op State query)

variable {σ ρ : Type} {lib : Libpq σ Submission ρ} {heartbeatEnabled : Bool} {callbackThreads : ℕ}
  {captures : Captures} {t : ℕ}

@[simp] theorem ownersIn_nil : captures.ownersIn t [] = 0 := rfl

@[simp] theorem ownersIn_append (a b : List Callback) :
    captures.ownersIn t (a ++ b) = captures.ownersIn t a + captures.ownersIn t b := by
  simp [Captures.ownersIn]

theorem ownersIn_cons (c : Callback) (l : List Callback) :
    captures.ownersIn t (c :: l) = captures.ownersIn t [c] + captures.ownersIn t l :=
  ownersIn_append [c] l

theorem ownersIn_pos {l : List Callback} :
    0 < captures.ownersIn t l ↔ ∃ c ∈ l, t ∈ captures c := by
  rw [Captures.ownersIn, List.count_pos_iff, List.mem_flatMap]

/-- The callbacks of a request that has captured nothing own nothing. -/
theorem ownersIn_eq_zero {r : Request} (h : captures.ofRequest r = []) {l : List Callback}
    (hl : ∀ c ∈ l, c ∈ r.callbacks) : captures.ownersIn t l = 0 := by
  by_contra hpos
  rcases ownersIn_pos.mp (Nat.pos_of_ne_zero hpos) with ⟨c, hc, ht⟩
  have hmem : t ∈ captures.ofRequest r := List.mem_flatMap.mpr ⟨c, hl c hc, ht⟩
  rw [h] at hmem
  cases hmem

theorem Task.used_mem {task : Task ρ} {r : Request} (h : r.id = task.id) :
    task.used ∈ r.callbacks := by
  unfold Task.used Request.callbacks
  rw [h]
  cases task.outcome <;> simp

theorem Task.unused_mem {task : Task ρ} {r : Request} (h : r.id = task.id) :
    task.unused ∈ r.callbacks := by
  unfold Task.unused Request.callbacks
  rw [h]
  cases task.outcome <;> simp

namespace Worker

@[simp] theorem intact_resume (pending : Option (List Request)) :
    (resume pending : Worker ρ).intact = [] := by
  cases pending <;> rfl

@[simp] theorem undrained_resume (pending : Option (List Request)) :
    (resume pending : Worker ρ).undrained = pending.getD [] := by
  cases pending <;> rfl

theorem intact_subset (w : Worker ρ) : w.intact ⊆ w.owes := by
  intro r hr
  cases w with
  | executing | delivering => exact hr
  | hung submission =>
    cases submission with
    | heartbeat => cases hr
    | request r => exact hr
  | _ => cases hr

theorem undrained_subset (w : Worker ρ) : w.undrained ⊆ w.owes := by
  intro r hr
  cases w with
  | draining | posting | pushing => exact hr
  | _ => cases hr

end Worker

section Client

variable {s s' : PostgresClient σ ρ}

section Frame

variable {drained : List Request}

/-- The worker keeps in its frame what it does not use until the frame ends. -/
theorem WorkerStep.frame_kept (h : WorkerStep lib heartbeatEnabled s s')
    (hframe : s.worker.frame drained ≠ []) :
    s'.worker.frame drained = s.worker.frame drained ∨ s'.worker.frame drained = [] := by
  cases h with
  | @seeIdle task pending hw =>
    rw [hw]
    cases pending <;> exact .inl rfl
  | @overflow task pending hw | @pushTask task pending hw =>
    rw [hw]
    cases pending with
    | none => exact .inr rfl
    | some pending => exact .inl rfl
  | drainOne hw | drainPosted hw =>
    rw [hw]
    exact .inl rfl
  | drained hw => exact .inr rfl
  | leave hw | lock hw | beat hw | ping hw | wait hw | wake hw | timeOut hw | drain hw | goOn hw
  | takeNone hw | take hw | execute hw | hangBeat hw | hang hw | deliver hw | deliverPosted hw =>
    rw [hw] at hframe
    exact absurd rfl hframe

/-- Outside of the drain it settles which callback it does not use when it posts the other one. -/
theorem WorkerStep.frame_settled (h : WorkerStep lib heartbeatEnabled s s')
    (hdrain : ¬ (s.worker = .woken ∧ s.stopRequested = true))
    (hframe : s.worker.frame drained = []) (hframe' : s'.worker.frame drained ≠ []) :
    ∃ r outcome, s.worker = .delivering r outcome ∧ r.directCallback = false ∧
      s' = s.post ⟨r.id, outcome⟩ none := by
  cases h with
  | deliverPosted hw h => exact ⟨_, _, hw, h, rfl⟩
  | drain hw h => exact absurd ⟨hw, h⟩ hdrain
  | @seeIdle task pending hw =>
    rw [hw] at hframe
    cases pending with
    | none => cases hframe
    | some pending => exact absurd hframe hframe'
  | @overflow task pending hw | @pushTask task pending hw =>
    rw [hw] at hframe
    cases pending with
    | none => cases hframe
    | some pending => exact absurd hframe hframe'
  | drainOne hw | drainPosted hw =>
    rw [hw] at hframe
    exact absurd hframe hframe'
  | _ => exact absurd rfl hframe'

end Frame

theorem ownersIn_callable (s : PostgresClient σ ρ) :
    captures.ownersIn t s.callable =
      captures.ownersIn t (s.worker.intact.flatMap Request.callbacks) +
      captures.ownersIn t (s.requests.flatMap Request.callbacks) +
      captures.ownersIn t (s.worker.undrained.map fun r => .onError r.id) +
      captures.ownersIn t (s.worker.posts.map Task.used) +
      captures.ownersIn t (s.callbackQueue.map Task.used) +
      captures.ownersIn t ((s.callbackWorkers.flatMap CallbackWorker.runs).map Task.used) +
      captures.ownersIn t ((s.overflowThreads.flatMap OverflowThread.runs).map Task.used) := by
  simp only [callable, tasks, List.flatMap_append, List.map_append, ownersIn_append]
  omega

/-- Once the worker has settled which callbacks it does not use, it hands on the others and calls
none that owns something. -/
theorem ownersIn_callable_worker (h : WorkerStep lib heartbeatEnabled s s')
    (hdirect : ∀ r ∈ s.worker.owes, r.directCallback = true → captures.ofRequest r = [])
    {drained : List Request} (hframe : s.worker.frame drained ≠ []) :
    captures.ownersIn t s'.callable = captures.ownersIn t s.callable := by
  rw [ownersIn_callable, ownersIn_callable]
  cases h with
  | seeIdle hw =>
    rw [hw]
    rfl
  | @overflow task pending hw =>
    rw [hw]
    simp only [Worker.intact_resume, Worker.undrained_resume, Worker.posts_resume,
      List.flatMap_append, List.map_append, ownersIn_append, flatMap_runs_reap]
    simp [Worker.intact, Worker.undrained, Worker.posts, OverflowThread.runs]
    omega
  | @pushTask task pending hw =>
    rw [hw]
    simp only [Worker.intact_resume, Worker.undrained_resume, Worker.posts_resume,
      List.map_append, ownersIn_append]
    simp [Worker.intact, Worker.undrained, Worker.posts]
    omega
  | @drainOne r rest hw h =>
    have hnone : captures.ownersIn t [.onError r.id] = 0 := by
      apply ownersIn_eq_zero (hdirect r (by rw [hw]; exact List.mem_cons_self) h)
      simp [Request.callbacks]
    rw [hw]
    simp only [Worker.intact, Worker.undrained, Worker.posts, invoke, List.map_cons]
    rw [ownersIn_cons (.onError r.id), hnone, zero_add]
  | @drainPosted r rest hw h =>
    rw [hw]
    simp only [Worker.intact, Worker.undrained, Worker.posts, post, List.map_cons, List.map_nil,
      Option.getD_some]
    rw [ownersIn_cons (.onError r.id), ownersIn_nil]
    simp only [Task.used]
    omega
  | drained hw =>
    rw [hw]
    rfl
  | leave hw | lock hw | beat hw | ping hw | wait hw | wake hw | timeOut hw | drain hw | goOn hw
  | takeNone hw | take hw | execute hw | hangBeat hw | hang hw | deliver hw | deliverPosted hw =>
    rw [hw] at hframe
    exact absurd rfl hframe

/-- A callback thread takes over what the callback that it has run owned. -/
theorem ownersIn_callable_callback (h : CallbackStep s s') :
    captures.ownersIn t s'.callable +
        captures.ownersIn t ((s'.invoked.drop s.invoked.length).map Task.used) =
      captures.ownersIn t s.callable := by
  rw [ownersIn_callable, ownersIn_callable]
  cases h with
  | announce h | leave h =>
    rw [h]
    simp [CallbackWorker.runs]
  | @take front back task rest h hqueue =>
    rw [h, hqueue]
    simp only [List.flatMap_append, List.flatMap_cons, CallbackWorker.runs, List.map_append,
      List.map_cons, List.map_nil, List.nil_append, List.drop_length, ownersIn_append]
    rw [ownersIn_cons task.used (rest.map Task.used), ownersIn_nil]
    omega
  | run h =>
    rw [h, List.drop_left]
    simp only [List.flatMap_append, List.flatMap_cons, CallbackWorker.runs, List.map_append,
      List.nil_append, ownersIn_append]
    omega
  | runOverflow h =>
    rw [h, List.drop_left]
    simp only [List.flatMap_append, List.flatMap_cons, OverflowThread.runs, List.map_append,
      List.nil_append, ownersIn_append]
    omega

/-- The callback that is posted stays callable, the other one does not. -/
theorem ownersIn_callable_settled {r : Request} {outcome : Except SqlError ρ}
    (hw : s.worker = .delivering r outcome) :
    captures.ownersIn t s.callable =
      captures.ownersIn t (s.post ⟨r.id, outcome⟩ none).callable +
        captures.ownersIn t [(⟨r.id, outcome⟩ : Task ρ).unused] := by
  rw [ownersIn_callable, ownersIn_callable, hw]
  simp only [Worker.intact, Worker.undrained, Worker.posts, post, List.flatMap_cons,
    List.flatMap_nil, List.map_cons, List.map_nil, Option.getD_none, List.append_nil, ownersIn_nil,
    Request.callbacks]
  rw [ownersIn_cons (.onSuccess r.id) [.onError r.id]]
  cases outcome with
  | ok result =>
    simp only [Task.used, Task.unused]
    omega
  | error e =>
    simp only [Task.used, Task.unused]
    omega

theorem ownersIn_callbacks (requests : List Request) :
    captures.ownersIn t (requests.flatMap Request.callbacks) =
      captures.ownersIn t (requests.map fun r => .onError r.id) +
        captures.ownersIn t (requests.map fun r => .onSuccess r.id) := by
  induction requests with
  | nil => rfl
  | cons r requests ih =>
    rw [List.flatMap_cons, ownersIn_append, ih, List.map_cons, List.map_cons,
      ownersIn_cons (.onError r.id), ownersIn_cons (.onSuccess r.id) (requests.map _),
      Request.callbacks, ownersIn_cons (.onSuccess r.id)]
    omega

/-- In the drain `on_error` of every request stays callable. -/
theorem ownersIn_callable_drain (hw : s.worker = .woken) :
    captures.ownersIn t s.callable =
      captures.ownersIn t
        { s with worker := .draining s.requests, requests := [] }.callable +
        captures.ownersIn t (s.requests.map fun r => .onSuccess r.id) := by
  rw [ownersIn_callable, ownersIn_callable, hw, ownersIn_callbacks s.requests]
  simp only [Worker.intact, Worker.undrained, Worker.posts, List.flatMap_nil, List.map_nil,
    ownersIn_nil]
  omega

theorem ownersIn_callable_connect (hw : s.worker = .unstarted) (hnone : s.callbackWorkers = []) :
    captures.ownersIn t
        { s with
          worker := .loopTest
          callbackWorkers := List.replicate callbackThreads .announcing }.callable =
      captures.ownersIn t s.callable := by
  have hruns : (List.replicate callbackThreads (.announcing : CallbackWorker ρ)).flatMap
      CallbackWorker.runs = [] := by
    apply List.flatMap_eq_nil_iff.mpr
    intro w hmem
    rw [List.eq_of_mem_replicate hmem]
    rfl
  rw [ownersIn_callable, ownersIn_callable, hw, hnone, hruns]
  rfl

theorem ownersIn_callable_push (transactions : ℕ → State) (r : Request) :
    captures.ownersIn t s.callable ≤
      captures.ownersIn t ({ s with transactions := transactions }.push r).callable := by
  rw [ownersIn_callable, ownersIn_callable]
  simp only [push, List.flatMap_append, ownersIn_append]
  omega

theorem ownersIn_callable_call (h : Call s s') :
    captures.ownersIn t s.callable ≤ captures.ownersIn t s'.callable := by
  obtain ⟨transactions, detail, direct, origin, rfl, -, -⟩ := h.eq_push
  exact ownersIn_callable_push transactions _

theorem ownersIn_callable_destructor (h : DestructorStep s s') :
    captures.ownersIn t s'.callable = captures.ownersIn t s.callable := by
  cases h with
  | joinOverflow h hdone =>
    rw [ownersIn_callable, ownersIn_callable, flatMap_runs_done hdone]
    rfl
  | _ => rfl

section Reachable

variable (h : (system lib heartbeatEnabled callbackThreads).Reachable s)
include h

theorem pushed_of_answered {task : Task ρ} (htask : task ∈ s.answered) :
    ∃ r ∈ s.pushed, r.id = task.id := by
  obtain ⟨finished, hids, hplaces⟩ := placed_of_reachable h
  have hmem : task.id ∈ finished.map (·.id) := hids ▸ List.mem_map_of_mem htask
  obtain ⟨r, hr, hid⟩ := List.mem_map.mp hmem
  exact ⟨r, hplaces ▸ List.mem_append_left _ hr, hid⟩

theorem pushed_of_queued {r : Request} (hr : r ∈ s.requests) : r ∈ s.pushed := by
  obtain ⟨finished, -, hplaces⟩ := placed_of_reachable h
  rw [← hplaces]
  exact List.mem_append_right _ (List.mem_append_right _ hr)

theorem answered_of_tasks {task : Task ρ} (htask : task ∈ s.tasks) : task ∈ s.answered := by
  have hpool : task ∈ s.inPool := by
    simpa only [tasks, inPool, Multiset.mem_add, Multiset.mem_coe, List.mem_append] using htask
  have haccounted : (s.invoked : Multiset (Task ρ)) + s.inPool = s.answered :=
    accounted_of_reachable h
  rw [← Multiset.mem_coe, ← haccounted]
  exact Multiset.mem_add.mpr (.inr hpool)

/-- A callback that may still be called is one of a request. -/
theorem pushed_of_callable {c : Callback} (hc : c ∈ s.callable) :
    ∃ r ∈ s.pushed, c ∈ r.callbacks := by
  rcases List.mem_append.mp hc with hc | hc
  · rcases List.mem_append.mp hc with hc | hc
    · rcases List.mem_flatMap.mp hc with ⟨r, hr, hc⟩
      rcases List.mem_append.mp hr with hr | hr
      · exact ⟨r, mem_owes h (s.worker.intact_subset hr), hc⟩
      · exact ⟨r, pushed_of_queued h hr, hc⟩
    · rcases List.mem_map.mp hc with ⟨r, hr, rfl⟩
      exact ⟨r, mem_owes h (s.worker.undrained_subset hr), by simp [Request.callbacks]⟩
  · rcases List.mem_map.mp hc with ⟨task, htask, rfl⟩
    rcases pushed_of_answered h (answered_of_tasks h htask) with ⟨r, hr, hid⟩
    exact ⟨r, hr, Task.used_mem hid⟩

/-- So is a callback that the worker will destroy. -/
theorem pushed_of_frame {drained : List Request} (hdrained : drained ⊆ s.pushed) {c : Callback}
    (hc : c ∈ s.worker.frame drained) : ∃ r ∈ s.pushed, c ∈ r.callbacks := by
  have hposted : ∀ task ∈ s.worker.posts, ∃ r ∈ s.pushed, task.unused ∈ r.callbacks := by
    intro task htask
    have hmem : task ∈ s.tasks := by
      simp only [tasks, List.mem_append]
      exact .inl (.inl (.inl htask))
    rcases pushed_of_answered h (answered_of_tasks h hmem) with ⟨r, hr, hid⟩
    exact ⟨r, hr, Task.unused_mem hid⟩
  have hcleared : ∀ c ∈ drained.map (fun r => Callback.onSuccess r.id),
      ∃ r ∈ s.pushed, c ∈ r.callbacks := by
    intro c hc
    rcases List.mem_map.mp hc with ⟨r, hr, rfl⟩
    exact ⟨r, hdrained hr, by simp [Request.callbacks]⟩
  cases hw : s.worker with
  | draining pending =>
    rw [hw] at hc
    exact hcleared c hc
  | posting task pending | pushing task pending =>
    rw [hw] at hc hposted
    cases pending with
    | none =>
      cases List.mem_singleton.mp hc
      exact hposted task (List.mem_singleton_self task)
    | some pending => exact hcleared c hc
  | _ =>
    rw [hw] at hc
    cases hc

end Reachable

theorem PostgresClient.Callable.mono {op : Op} (h : s.Callable t op)
    (hpushed : s.pushed ⊆ s'.pushed) (hanswered : s.answered ⊆ s'.answered) : s'.Callable t op := by
  obtain ⟨r, hr, hid, horigin, hresult⟩ := h
  refine ⟨r, hpushed hr, hid, horigin, ?_⟩
  rcases hresult with ⟨result, hresult⟩ | ⟨hop, e, herror⟩
  · exact .inl ⟨result, hanswered hresult⟩
  · exact .inr ⟨hop, e, hanswered herror⟩

theorem Step.answered_subset (h : Step lib heartbeatEnabled callbackThreads s s') :
    s.answered ⊆ s'.answered := by
  cases h with
  | connect => exact List.Subset.refl _
  | call h =>
    obtain ⟨transactions, detail, direct, origin, rfl, -, -⟩ := h.eq_push
    exact List.Subset.refl _
  | worker h =>
    cases h with
    | deliver | deliverPosted | drainOne | drainPosted => exact List.subset_append_left _ _
    | _ => exact List.Subset.refl _
  | callback h => cases h <;> exact List.Subset.refl _
  | destructor h => cases h <;> exact List.Subset.refl _

end Client

end PostgresLib.Client
