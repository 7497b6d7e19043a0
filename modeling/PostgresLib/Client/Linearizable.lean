import PostgresLib.Client.Fifo
import PostgresLib.Client.Shutdown
import PostgresLib.Foundations.Linearizability

/-! # The client as one connection that is used by one request at a time

Seen from outside, a request is invoked when it is pushed and returns when its
callback is invoked, and the destructor is a call as well. Whatever the threads do,
the requests return what a connection would have answered that executes them one after
the other, in an order that real time agrees with. A request takes effect when it is
executed, or when the drain answers it, and the destructor when it requests the stop.
Only then may requests be refused, and no more than one is executed.
-/

namespace PostgresLib.Client

open Foundations Connection PostgresClient

variable {σ ρ : Type} (lib : Libpq σ Submission ρ) (heartbeatEnabled : Bool)

inductive ClientOp where
  | request (r : Request)
  | destroy

/-- Requests have numbers, and the destructor is called once. -/
def ClientOp.id : ClientOp → Option ℕ
  | request r => some r.id
  | destroy => none

def ClientOp.request? : ClientOp → Option Request
  | request r => some r
  | destroy => none

inductive Reply (ρ : Type) where
  | answer (outcome : Except SqlError ρ)
  | destroyed

/-- The calls on a client, and those that have taken effect. -/
abbrev ClientEvent (ρ : Type) := CallEvent (Option ℕ) ClientOp (Reply ρ)

abbrev ClientCall (ρ : Type) := Completed (Option ℕ) ClientOp (Reply ρ)

/-- A connection serves until it is to be destroyed; then it has executed once more, or refused. -/
inductive Phase where
  | serving
  | stopping
  | closed
  | drained

namespace Phase

def executed : Phase → Option Phase
  | serving => some serving
  | stopping => some closed
  | closed | drained => none

def refused : Phase → Option Phase
  | stopping | drained => some drained
  | serving | closed => none

end Phase

/-- A call on a connection that executes one request at a time. -/
inductive SequentialCall : σ × Phase → ClientOp → Reply ρ → σ × Phase → Prop
  | execute {c : σ} {phase phase' : Phase} {r : Request} {outcome : Except SqlError ρ} (fuel : ℕ)
      (h : (Execution.ending lib ⟨.request r, c, fuel⟩).result = some outcome)
      (hphase : phase.executed = some phase') :
      SequentialCall (c, phase) (.request r) (.answer outcome)
        ((Execution.ending lib ⟨.request r, c, fuel⟩).state, phase')
  | refuse {c : σ} {phase phase' : Phase} {r : Request} (hphase : phase.refused = some phase') :
      SequentialCall (c, phase) (.request r) (.answer (.error workerStopped)) (c, phase')
  | destroy {c : σ} : SequentialCall (c, .serving) .destroy .destroyed (c, .stopping)

inductive SequentialBeat : σ × Phase → σ × Phase → Prop
  | beat {c : σ} {phase phase' : Phase} {outcome : Except SqlError ρ} (fuel : ℕ)
      (henabled : heartbeatEnabled = true)
      (h : (Execution.ending lib ⟨.heartbeat, c, fuel⟩).result = some outcome)
      (hphase : phase.executed = some phase') :
      SequentialBeat (c, phase) ((Execution.ending lib ⟨.heartbeat, c, fuel⟩).state, phase')

/-- A connection that executes one request at a time. -/
def sequentialConnection : SequentialObject (σ × Phase) ClientOp (Reply ρ) where
  call := SequentialCall lib
  silent := SequentialBeat lib heartbeatEnabled

def observe (s s' : PostgresClient σ ρ) : List (ClientEvent ρ) :=
  (s'.pushed.drop s.pushed.length).map (fun r => .invoke (some r.id) (.request r)) ++
    (s'.invoked.drop s.invoked.length).map (fun task =>
      .ret (some task.id) (.answer task.outcome)) ++
    (if s.destructor = .uncalled ∧ s'.destructor ≠ .uncalled then
      [.invoke none .destroy] else []) ++
    if s.destructor ≠ .finished ∧ s'.destructor = .finished then [.ret none .destroyed] else []

namespace Worker

/-- The requests that the worker has taken and that have not taken effect. -/
def pending : Worker ρ → List Request
  | executing r => [r]
  | hung submission => submission.request?.toList
  | draining pending => pending
  | posting _ pending | pushing _ pending => pending.getD []
  | _ => []

/-- The worker comes to the test of its loop without an execution, or has returned. -/
def closes : Worker ρ → Bool
  | loopTest | delivering _ _ | exited => true
  | posting _ pending | pushing _ pending => pending.isNone
  | _ => false

@[simp] theorem pending_resume (pending : Option (List Request)) :
    (resume pending : Worker ρ).pending = pending.getD [] := by
  cases pending <;> rfl

@[simp] theorem closes_resume (pending : Option (List Request)) :
    (resume pending : Worker ρ).closes = pending.isNone := by
  cases pending <;> rfl

theorem resume_ne_delivering (pending : Option (List Request)) (r : Request)
    (outcome : Except SqlError ρ) : resume pending ≠ delivering r outcome := by
  cases pending <;> exact nofun

theorem resume_ne_heartbeat (pending : Option (List Request)) :
    (resume pending : Worker ρ) ≠ heartbeat := by
  cases pending <;> exact nofun

/-- What is over once a stop is requested stays over. -/
def Follows (w w' : Worker ρ) : Prop :=
  (w.closes = true → w'.closes = true) ∧ (w.stopped = true → w'.stopped = true)

theorem follows_resume {w : Worker ρ} {pending : Option (List Request)}
    (hcloses : w.closes = pending.isNone) (hstopped : w.stopped = pending.isSome) :
    w.Follows (resume pending) := by
  simp [Follows, hcloses, hstopped]

end Worker

section Observe

variable {s s' : PostgresClient σ ρ}

theorem observe_of_eq (hpushed : s'.pushed = s.pushed) (hinvoked : s'.invoked = s.invoked)
    (hdestructor : s'.destructor = s.destructor) : observe s s' = [] := by
  simp [observe, hpushed, hinvoked, hdestructor]

theorem observe_of_push {r : Request} (hpushed : s'.pushed = s.pushed ++ [r])
    (hinvoked : s'.invoked = s.invoked) (hdestructor : s'.destructor = s.destructor) :
    observe s s' = [.invoke (some r.id) (.request r)] := by
  simp [observe, hpushed, hinvoked, hdestructor]

theorem observe_of_invoke {task : Task ρ} (hpushed : s'.pushed = s.pushed)
    (hinvoked : s'.invoked = s.invoked ++ [task]) (hdestructor : s'.destructor = s.destructor) :
    observe s s' = [.ret (some task.id) (.answer task.outcome)] := by
  simp [observe, hpushed, hinvoked, hdestructor]

end Observe

/-- The phase of the connection agrees with the stop and the worker. -/
def Phase.Fits (s : PostgresClient σ ρ) : Phase → Prop
  | serving => s.stopRequested = false
  | stopping => s.stopRequested = true
  | closed => s.stopRequested = true ∧ s.worker.closes = true
  | drained => s.stopRequested = true ∧ s.worker.stopped = true

namespace Phase

variable {s s' : PostgresClient σ ρ} {phase : Phase}

theorem Fits.move (h : phase.Fits s) (hstop : s'.stopRequested = s.stopRequested)
    (hfollows : s.stopRequested = true → s.worker.Follows s'.worker) : phase.Fits s' := by
  cases phase with
  | serving => exact hstop.trans h
  | stopping => exact hstop.trans h
  | closed => exact ⟨hstop.trans h.1, (hfollows h.1).1 h.2⟩
  | drained => exact ⟨hstop.trans h.1, (hfollows h.1).2 h.2⟩

theorem Fits.execute (h : phase.Fits s) (s' : PostgresClient σ ρ)
    (hcloses : s.worker.closes = false) (hstopped : s.worker.stopped = false)
    (hstop : s'.stopRequested = s.stopRequested) (hcloses' : s'.worker.closes = true) :
    ∃ phase', phase.executed = some phase' ∧ phase'.Fits s' := by
  cases phase with
  | serving => exact ⟨serving, rfl, hstop.trans h⟩
  | stopping => exact ⟨closed, rfl, hstop.trans h, hcloses'⟩
  | closed => exact absurd (hcloses.symm.trans h.2) Bool.false_ne_true
  | drained => exact absurd (hstopped.symm.trans h.2) Bool.false_ne_true

theorem Fits.refuse (h : phase.Fits s) (s' : PostgresClient σ ρ) (hcloses : s.worker.closes = false)
    (hstopped : s.stopRequested = true) (hstop : s'.stopRequested = s.stopRequested)
    (hstopped' : s'.worker.stopped = true) :
    ∃ phase', phase.refused = some phase' ∧ phase'.Fits s' := by
  cases phase with
  | serving => exact absurd (h.symm.trans hstopped) Bool.false_ne_true
  | stopping => exact ⟨drained, rfl, hstop.trans h, hstopped'⟩
  | closed => exact absurd (hcloses.symm.trans h.2) Bool.false_ne_true
  | drained => exact ⟨drained, rfl, hstop.trans h.1, hstopped'⟩

end Phase

/-- How the state, the history, the calls that have taken effect and the connection belong
together. -/
structure Explains (s : PostgresClient σ ρ) (h : List (ClientEvent ρ)) (l : List (ClientCall ρ))
    (c : σ × Phase) : Prop where
  places : l.filterMap (·.op.request?) ++ (s.worker.pending ++ s.requests) = s.pushed
  ids : ∀ x ∈ l, x.op.id = x.id
  requested : ∀ r ∈ s.pushed, .invoke (some r.id) (.request r) ∈ h
  numbered : ∀ n, some n ∈ invocations h → n < s.pushed.length
  called : none ∈ invocations h → s.destructor ≠ .uncalled
  returned : ∀ n, some n ∈ returns h → n ∈ s.invoked.map (·.id)
  finished : none ∈ returns h → s.destructor = .finished
  answers : ∀ task ∈ s.answered, ∃ x ∈ l, x.id = some task.id ∧ x.result = .answer task.outcome
  delivering : ∀ r outcome, s.worker = .delivering r outcome →
    ∃ x ∈ l, x.id = some r.id ∧ x.result = .answer outcome
  destroyed : s.destructor ≠ .uncalled → ∃ x ∈ l, x.id = none ∧ x.result = .destroyed
  beats : s.worker = .heartbeat → heartbeatEnabled = true
  phase : c.2.Fits s
  connection : (∀ submission, s.worker ≠ .hung submission) → c.1 = s.connection

variable {lib heartbeatEnabled} {callbackThreads : ℕ} {s s' : PostgresClient σ ρ}
  {h : List (ClientEvent ρ)} {l : List (ClientCall ρ)} {c c₀ : σ × Phase}

theorem exists_append {x : ClientCall ρ} {p : ClientCall ρ → Prop} (hl : ∃ y ∈ l, p y) :
    ∃ y ∈ l ++ [x], p y := by
  rcases hl with ⟨y, hy, hp⟩
  exact ⟨y, List.mem_append_left _ hy, hp⟩

theorem exists_last {x : ClientCall ρ} {p : ClientCall ρ → Prop} (hp : p x) :
    ∃ y ∈ l ++ [x], p y :=
  ⟨x, List.mem_append_right _ (List.mem_singleton_self x), hp⟩

theorem forall_append_singleton {α : Type} {xs : List α} {y : α} {p : α → Prop}
    (hxs : ∀ x ∈ xs, p x) (hy : p y) : ∀ x ∈ xs ++ [y], p x := by
  intro x hx
  rcases List.mem_append.mp hx with hx | hx
  · exact hxs x hx
  · rwa [List.mem_singleton.mp hx]

namespace Explains

theorem move (hR : Explains heartbeatEnabled s h l c) (worker : Worker ρ) (requests : List Request)
    (hpending : worker.pending ++ requests = s.worker.pending ++ s.requests)
    (hfollows : s.stopRequested = true → s.worker.Follows worker)
    (hdelivering : ∀ r outcome, worker ≠ .delivering r outcome)
    (hbeats : worker = .heartbeat → heartbeatEnabled = true)
    (hhung : ∀ submission, s.worker ≠ .hung submission) :
    Explains heartbeatEnabled { s with worker := worker, requests := requests } h l c :=
  { hR with
    places := by rw [hpending, hR.places]
    delivering := fun r outcome hw => absurd hw (hdelivering r outcome)
    beats := hbeats
    phase := hR.phase.move rfl hfollows
    connection := fun _ => hR.connection hhung }

theorem mem_ids (hR : Explains heartbeatEnabled s h l c) {n : ℕ}
    (hn : some n ∈ l.map Completed.id) :
    n ∈ (l.filterMap (·.op.request?)).map Request.id := by
  rcases List.mem_map.mp hn with ⟨x, hx, hid⟩
  rw [← hR.ids x hx] at hid
  rw [List.map_filterMap]
  refine List.mem_filterMap.mpr ⟨x, hx, ?_⟩
  cases hop : x.op with
  | request r =>
    rw [hop] at hid
    simpa [ClientOp.request?, ClientOp.id] using hid
  | destroy =>
    rw [hop] at hid
    cases hid

variable (hreach : (system lib heartbeatEnabled callbackThreads).Reachable s)
include hreach

/-- The first request that the worker has taken takes effect. -/
theorem takeEffect (hR : Explains heartbeatEnabled s h l c)
    (hl : (sequentialConnection lib heartbeatEnabled).Linearizes c₀ h l c) {r : Request}
    {rest : List Request} (hpending : s.worker.pending = r :: rest) {outcome : Except SqlError ρ}
    {c' : σ × Phase} (hcall : SequentialCall lib c (.request r) (.answer outcome) c') :
    (sequentialConnection lib heartbeatEnabled).Linearizes c₀ h
      (l ++ [⟨some r.id, .request r, .answer outcome⟩]) c' := by
  have hplaces := hR.places
  rw [hpending, List.cons_append] at hplaces
  have hmem : r ∈ s.pushed := by
    rw [← hplaces]
    simp
  have hnodup := nodup_pushed hreach
  rw [← hplaces, List.map_append, List.map_cons] at hnodup
  have honce : some r.id ∉ l.map Completed.id := fun hr =>
    (List.nodup_append.mp hnodup).2.2 _ (hR.mem_ids hr) _ List.mem_cons_self rfl
  exact hl.takeEffect (hR.requested r hmem) honce hcall

omit hreach in
/-- A call that has taken effect, and has not returned, returns. -/
theorem ret (hR : Explains heartbeatEnabled s h l c)
    (hl : (sequentialConnection lib heartbeatEnabled).Linearizes c₀ h l c) {task : Task ρ}
    (hcall : ∃ x ∈ l, x.id = some task.id ∧ x.result = .answer task.outcome)
    (hnew : task.id ∉ s.invoked.map (·.id)) :
    (sequentialConnection lib heartbeatEnabled).Linearizes c₀
      (h ++ [.ret (some task.id) (.answer task.outcome)]) l c := by
  rcases hcall with ⟨x, hx, hid, hresult⟩
  rw [← hid, ← hresult]
  exact hl.ret hx fun hmem => hnew (hR.returned _ (hid ▸ hmem))

omit hreach in
theorem invoked (hR : Explains heartbeatEnabled s h l c) (task : Task ρ) :
    Explains heartbeatEnabled { s with invoked := s.invoked ++ [task] }
      (h ++ [.ret (some task.id) (.answer task.outcome)]) l c :=
  { hR with
    requested := fun r hr => List.mem_append_left _ (hR.requested r hr)
    numbered := by simpa using hR.numbered
    called := by simpa using hR.called
    returned := by
      intro n hn
      rw [returns_ret] at hn
      rw [List.map_append]
      rcases List.mem_append.mp hn with hn | hn
      · exact List.mem_append_left _ (hR.returned n hn)
      · exact List.mem_append_right _ (by simpa using hn)
    finished := by simpa using hR.finished }

/-- The callback of a request that has taken effect is invoked. -/
theorem callback (hR : Explains heartbeatEnabled s h l c)
    (hl : (sequentialConnection lib heartbeatEnabled).Linearizes c₀ h l c) {task : Task ρ}
    (htask : task ∈ s.inPool) (hnew : task.id ∉ s.invoked.map (·.id)) :
    (sequentialConnection lib heartbeatEnabled).Linearizes c₀
      (h ++ [.ret (some task.id) (.answer task.outcome)]) l c := by
  have hmem : task ∈ s.answered := by
    rw [← Multiset.mem_coe, ← accounted_of_reachable hreach]
    exact Multiset.mem_add.mpr (.inr htask)
  exact hR.ret hl (hR.answers task hmem) hnew

end Explains

theorem not_invoked (hreach : (system lib heartbeatEnabled callbackThreads).Reachable s')
    {task : Task ρ} (hinvoked : s'.invoked = s.invoked ++ [task]) :
    task.id ∉ s.invoked.map (·.id) := by
  have hnodup := nodup_invoked hreach
  rw [hinvoked, List.map_append, List.nodup_append] at hnodup
  exact fun hmem => hnodup.2.2 _ hmem _ (List.mem_singleton_self _) rfl

/-- The history of a run up to this state is explained. -/
def Explained (lib : Libpq σ Submission ρ) (heartbeatEnabled : Bool) (c₀ : σ × Phase)
    (s : PostgresClient σ ρ) (h : List (ClientEvent ρ)) : Prop :=
  ∃ l c, Explains heartbeatEnabled s h l c ∧
    (sequentialConnection lib heartbeatEnabled).Linearizes c₀ h l c

theorem Explained.of_unseen (hpushed : s'.pushed = s.pushed) (hinvoked : s'.invoked = s.invoked)
    (hdestructor : s'.destructor = s.destructor)
    (hs : Explained lib heartbeatEnabled c₀ s' h) :
    Explained lib heartbeatEnabled c₀ s' (h ++ observe s s') := by
  rwa [observe_of_eq hpushed hinvoked hdestructor, List.append_nil]

theorem Explained.of_seen {e : ClientEvent ρ} (he : observe s s' = [e])
    (hs : Explained lib heartbeatEnabled c₀ s' (h ++ [e])) :
    Explained lib heartbeatEnabled c₀ s' (h ++ observe s s') := by
  rwa [he]

/-- A step of the worker that is not seen, executes nothing and answers nothing. -/
theorem explained_quiet {worker : Worker ρ} {requests : List Request}
    (hs : Explained lib heartbeatEnabled c₀ s h)
    (hpending : worker.pending ++ requests = s.worker.pending ++ s.requests)
    (hfollows : s.stopRequested = true → s.worker.Follows worker)
    (hdelivering : ∀ r outcome, worker ≠ .delivering r outcome)
    (hbeats : worker = .heartbeat → heartbeatEnabled = true)
    (hhung : ∀ submission, s.worker ≠ .hung submission) :
    Explained lib heartbeatEnabled c₀ { s with worker := worker, requests := requests }
      (h ++ observe s { s with worker := worker, requests := requests }) := by
  rcases hs with ⟨l, c, hR, hl⟩
  exact .of_unseen rfl rfl rfl
    ⟨l, c, hR.move _ _ hpending hfollows hdelivering hbeats hhung, hl⟩

theorem explained_execution (hreach : (system lib heartbeatEnabled callbackThreads).Reachable s)
    (hs : Explained lib heartbeatEnabled c₀ s h) {r : Request} (hw : s.worker = .executing r)
    {fuel : ℕ} {outcome : Except SqlError ρ}
    (houtcome : (Execution.ending lib ⟨.request r, s.connection, fuel⟩).result = some outcome) :
    Explained lib heartbeatEnabled c₀
      (s.execute lib ⟨.request r, s.connection, fuel⟩ (.delivering r outcome)) h := by
  rcases hs with ⟨l, ⟨c, phase⟩, hR, hl⟩
  obtain rfl : c = s.connection := hR.connection (by simp [hw])
  rcases hR.phase.execute
    (s.execute lib ⟨.request r, s.connection, fuel⟩ (.delivering r outcome))
    (by rw [hw]; rfl) (by rw [hw]; rfl) rfl rfl with ⟨phase', hphase, hfits⟩
  have hplaces := hR.places
  rw [hw] at hplaces
  refine ⟨_, _, ?_, hR.takeEffect hreach hl (by rw [hw]; rfl) (.execute fuel houtcome hphase)⟩
  exact { hR with
    places := by
      rw [List.filterMap_append, List.append_assoc]
      exact hplaces
    ids := forall_append_singleton hR.ids rfl
    answers := fun task htask => exists_append (hR.answers task htask)
    delivering := fun r' outcome' hw' => by
      cases hw'
      exact exists_last ⟨rfl, rfl⟩
    destroyed := fun hcalled => exists_append (hR.destroyed hcalled)
    beats := nofun
    phase := hfits
    connection := fun _ => rfl }

theorem explained_beat (hs : Explained lib heartbeatEnabled c₀ s h) (hw : s.worker = .heartbeat)
    {fuel : ℕ} {outcome : Except SqlError ρ}
    (houtcome : (Execution.ending lib ⟨.heartbeat, s.connection, fuel⟩).result = some outcome) :
    Explained lib heartbeatEnabled c₀
      (s.execute lib ⟨.heartbeat, s.connection, fuel⟩ .loopTest) h := by
  rcases hs with ⟨l, ⟨c, phase⟩, hR, hl⟩
  obtain rfl : c = s.connection := hR.connection (by simp [hw])
  rcases hR.phase.execute (s.execute lib ⟨.heartbeat, s.connection, fuel⟩ .loopTest)
    (by rw [hw]; rfl) (by rw [hw]; rfl) rfl rfl with ⟨phase', hphase, hfits⟩
  refine ⟨l, _, ?_, hl.silent (.beat fuel (hR.beats hw) houtcome hphase)⟩
  exact { hR with
    places := by
      have hplaces := hR.places
      rwa [hw] at hplaces
    delivering := nofun
    beats := nofun
    phase := hfits
    connection := fun _ => rfl }

theorem explained_refusal (hreach : (system lib heartbeatEnabled callbackThreads).Reachable s)
    (hs : Explained lib heartbeatEnabled c₀ s h) {r : Request} {rest : List Request}
    (hw : s.worker = .draining (r :: rest)) (worker : Worker ρ)
    (hpending : worker.pending = rest) (hstopped : worker.stopped = true)
    (hdelivering : ∀ r outcome, worker ≠ .delivering r outcome) (hbeats : worker ≠ .heartbeat) :
    Explained lib heartbeatEnabled c₀
      { s with worker := worker, answered := s.answered ++ [⟨r.id, .error workerStopped⟩] } h := by
  rcases hs with ⟨l, ⟨c, phase⟩, hR, hl⟩
  have hstop := (stopRecorded_of_reachable hreach).stopped (by rw [hw]; rfl)
  rcases hR.phase.refuse { s with worker := worker } (by rw [hw]; rfl) hstop rfl
    hstopped with ⟨phase', hphase, hfits⟩
  have hplaces := hR.places
  rw [hw] at hplaces
  refine ⟨_, _, ?_, hR.takeEffect hreach hl (by rw [hw]; rfl) (.refuse hphase)⟩
  exact { hR with
    places := by
      rw [List.filterMap_append, List.append_assoc, hpending]
      exact hplaces
    ids := forall_append_singleton hR.ids rfl
    answers := forall_append_singleton (fun task htask => exists_append (hR.answers task htask))
      (exists_last ⟨rfl, rfl⟩)
    delivering := fun r outcome heq => absurd heq (hdelivering r outcome)
    destroyed := fun hcalled => exists_append (hR.destroyed hcalled)
    beats := fun heq => absurd heq hbeats
    phase := hfits
    connection := fun _ => hR.connection (by simp [hw]) }

/-- A callback is invoked that is not the worker's to answer any more. -/
theorem Explained.invoked (hs : Explained lib heartbeatEnabled c₀ s h) {task : Task ρ}
    (hanswered : task ∈ s.answered) (hnew : task.id ∉ s.invoked.map (·.id)) :
    Explained lib heartbeatEnabled c₀ { s with invoked := s.invoked ++ [task] }
      (h ++ [.ret (some task.id) (.answer task.outcome)]) := by
  rcases hs with ⟨l, c, hR, hl⟩
  exact ⟨l, c, hR.invoked task, hR.ret hl (hR.answers task hanswered) hnew⟩

/-- The worker has an answer for a request that it has executed. -/
theorem explained_delivery (hs : Explained lib heartbeatEnabled c₀ s h) {r : Request}
    {outcome : Except SqlError ρ} (hw : s.worker = .delivering r outcome) (worker : Worker ρ)
    (hpending : worker.pending = []) (hcloses : worker.closes = true)
    (hdelivering : ∀ r outcome, worker ≠ .delivering r outcome) (hbeats : worker ≠ .heartbeat) :
    Explained lib heartbeatEnabled c₀
      { s with worker := worker, answered := s.answered ++ [⟨r.id, outcome⟩] } h := by
  rcases hs with ⟨l, c, hR, hl⟩
  have hmove := hR.move worker s.requests (by rw [hw, hpending]; rfl)
    (fun _ => ⟨fun _ => hcloses, by simp [hw, Worker.stopped]⟩) hdelivering
    (fun heq => absurd heq hbeats) (by simp [hw])
  exact ⟨l, c, { hmove with
    answers := forall_append_singleton hR.answers (hR.delivering r outcome hw) }, hl⟩

theorem explained_worker (hreach : (system lib heartbeatEnabled callbackThreads).Reachable s)
    (hstep : WorkerStep lib heartbeatEnabled s s')
    (hs : Explained lib heartbeatEnabled c₀ s h) :
    Explained lib heartbeatEnabled c₀ s' (h ++ observe s s') := by
  have hnext := hreach.next (.worker hstep)
  cases hstep with
  | leave hw | wait hw | wake hw | timeOut hw | takeNone hw | drained hw =>
    exact explained_quiet hs (by rw [hw]; rfl)
      (fun _ => by simp [Worker.Follows, hw, Worker.closes, Worker.stopped])
      (by simp) (by simp) (by simp [hw])
  | lock hw hrunning | goOn hw hrunning =>
    exact explained_quiet hs (by rw [hw]; rfl) (fun hstop => by simp [hrunning] at hstop)
      (by simp) (by simp) (by simp [hw])
  | beat hw henabled =>
    exact explained_quiet hs (by rw [hw]; rfl)
      (fun _ => by simp [Worker.Follows, hw, Worker.closes, Worker.stopped])
      (by simp) (fun _ => henabled) (by simp [hw])
  | drain hw =>
    exact explained_quiet hs (by rw [hw]; exact List.append_nil _)
      (fun _ => by simp [Worker.Follows, hw, Worker.closes, Worker.stopped])
      (by simp) (by simp) (by simp [hw])
  | take hw hqueue =>
    exact explained_quiet hs (by rw [hw, hqueue]; rfl)
      (fun _ => by simp [Worker.Follows, hw, Worker.closes, Worker.stopped])
      (by simp) (by simp) (by simp [hw])
  | seeIdle hw =>
    exact explained_quiet hs (by rw [hw]; rfl)
      (fun _ => by simp [Worker.Follows, hw, Worker.closes, Worker.stopped])
      (by simp) (by simp) (by simp [hw])
  | @overflow task pending hw | @pushTask task pending hw =>
    rcases hs with ⟨l, c, hR, hl⟩
    have hmove := hR.move (.resume pending) s.requests (by rw [hw, Worker.pending_resume]; rfl)
      (fun _ => Worker.follows_resume (by rw [hw]; rfl) (by rw [hw]; rfl))
      (Worker.resume_ne_delivering pending)
      (fun heq => absurd heq (Worker.resume_ne_heartbeat pending)) (by simp [hw])
    exact .of_unseen rfl rfl rfl ⟨l, c, { hmove with }, hl⟩
  | hangBeat hw =>
    rcases hs with ⟨l, c, hR, hl⟩
    have hmove := hR.move (.hung .heartbeat) s.requests (by rw [hw]; rfl)
      (fun _ => by simp [Worker.Follows, hw, Worker.closes, Worker.stopped]) (by simp) (by simp)
      (by simp [hw])
    exact .of_unseen rfl rfl rfl
      ⟨l, c, { hmove with connection := fun hhung => absurd rfl (hhung _) }, hl⟩
  | @hang r hw =>
    rcases hs with ⟨l, c, hR, hl⟩
    have hmove := hR.move (.hung (.request r)) s.requests (by rw [hw]; rfl)
      (fun _ => by simp [Worker.Follows, hw, Worker.closes, Worker.stopped]) (by simp) (by simp)
      (by simp [hw])
    exact .of_unseen rfl rfl rfl
      ⟨l, c, { hmove with connection := fun hhung => absurd rfl (hhung _) }, hl⟩
  | ping hw fuel houtcome => exact .of_unseen rfl rfl rfl (explained_beat hs hw houtcome)
  | execute hw fuel houtcome =>
    exact .of_unseen rfl rfl rfl (explained_execution hreach hs hw houtcome)
  | deliver hw =>
    have hdelivery := explained_delivery hs hw .loopTest rfl rfl (by simp) (by simp)
    exact .of_seen (observe_of_invoke rfl rfl rfl)
      (hdelivery.invoked (by simp) (not_invoked hnext rfl))
  | @deliverPosted r outcome hw =>
    exact .of_unseen rfl rfl rfl
      (explained_delivery hs hw (.posting ⟨r.id, outcome⟩ none) rfl rfl (by simp) (by simp))
  | @drainOne r rest hw =>
    have hrefusal := explained_refusal hreach hs hw (.draining rest) rfl rfl (by simp) (by simp)
    exact .of_seen (observe_of_invoke rfl rfl rfl)
      (hrefusal.invoked (by simp) (not_invoked hnext rfl))
  | @drainPosted r rest hw =>
    exact .of_unseen rfl rfl rfl (explained_refusal hreach hs hw
      (.posting ⟨r.id, .error workerStopped⟩ (some rest)) rfl rfl (by simp) (by simp))

theorem mem_inPool_callback {front back : List (CallbackWorker ρ)} {task : Task ρ}
    (hworkers : s.callbackWorkers = front ++ .running task :: back) : task ∈ s.inPool := by
  simp [inPool, hworkers, CallbackWorker.runs]

theorem mem_inPool_overflow {front back : List (OverflowThread ρ)} {task : Task ρ}
    (hthreads : s.overflowThreads = front ++ .running task :: back) : task ∈ s.inPool := by
  simp [inPool, hthreads, OverflowThread.runs]

theorem explained_callback (hreach : (system lib heartbeatEnabled callbackThreads).Reachable s)
    (hstep : CallbackStep s s') (hs : Explained lib heartbeatEnabled c₀ s h) :
    Explained lib heartbeatEnabled c₀ s' (h ++ observe s s') := by
  have hnext := hreach.next (.callback hstep)
  rcases hs with ⟨l, c, hR, hl⟩
  cases hstep with
  | announce | take | leave => exact .of_unseen rfl rfl rfl ⟨l, c, { hR with }, hl⟩
  | @run front back task hworkers =>
    have hcallback := hR.callback hreach hl (mem_inPool_callback hworkers) (not_invoked hnext rfl)
    have hinvoked := hR.invoked task
    exact .of_seen (observe_of_invoke rfl rfl rfl) ⟨l, c, { hinvoked with }, hcallback⟩
  | @runOverflow front back task hthreads =>
    have hcallback := hR.callback hreach hl (mem_inPool_overflow hthreads) (not_invoked hnext rfl)
    have hinvoked := hR.invoked task
    exact .of_seen (observe_of_invoke rfl rfl rfl) ⟨l, c, { hinvoked with }, hcallback⟩

theorem explained_call (hstep : Call s s') (hs : Explained lib heartbeatEnabled c₀ s h) :
    Explained lib heartbeatEnabled c₀ s' (h ++ observe s s') := by
  rcases hs with ⟨l, c, hR, hl⟩
  rcases hstep.eq_push with ⟨transactions, detail, direct, origin, rfl, -, -⟩
  have hnew : some s.pushed.length ∉ invocations h :=
    fun hmem => Nat.lt_irrefl _ (hR.numbered _ hmem)
  refine .of_seen (observe_of_push rfl rfl rfl) ⟨l, c, ?_, hl.invoke hnew⟩
  exact { hR with
    places := by
      simp only [push, ← hR.places, List.append_assoc]
    requested := forall_append_singleton
      (fun r hr => List.mem_append_left _ (hR.requested r hr))
      (List.mem_append_right _ (List.mem_singleton_self _))
    numbered := by
      intro n hn
      rw [invocations_invoke] at hn
      simp only [push, List.length_append, List.length_singleton]
      rcases List.mem_append.mp hn with hn | hn
      · exact Nat.lt_succ_of_lt (hR.numbered n hn)
      · rw [Option.some.inj (List.mem_singleton.mp hn)]
        exact Nat.lt_succ_self _
    called := by simpa [push] using hR.called
    returned := by simpa [push] using hR.returned
    finished := by simpa [push] using hR.finished }

theorem explained_stop (hreach : (system lib heartbeatEnabled callbackThreads).Reachable s)
    (hs : Explained lib heartbeatEnabled c₀ s h) (hd : s.destructor = .uncalled) :
    Explained lib heartbeatEnabled c₀
      { s with destructor := .joiningWorker, stopRequested := true, pushedBeforeStop := s.pushed }
      (h ++ [.invoke none .destroy]) := by
  rcases hs with ⟨l, ⟨c, phase⟩, hR, hl⟩
  have hrunning := (stopRecorded_of_reachable hreach).running hd
  have hserving : phase = .serving := by
    cases phase with
    | serving => rfl
    | stopping => exact absurd (hrunning.symm.trans hR.phase) Bool.false_ne_true
    | closed | drained => exact absurd (hrunning.symm.trans hR.phase.1) Bool.false_ne_true
  subst hserving
  have hnew : none ∉ invocations h := fun hmem => hR.called hmem hd
  have honce : none ∉ l.map Completed.id := by
    intro hmem
    rcases List.mem_map.mp hmem with ⟨x, hx, hid⟩
    exact hnew (hid ▸ mem_invocations_of_mem (hl.invoked x hx))
  refine ⟨l ++ [⟨none, .destroy, .destroyed⟩], (c, .stopping), ?_,
    (hl.invoke hnew).takeEffect (c := ⟨none, .destroy, .destroyed⟩) (by simp) honce .destroy⟩
  exact { hR with
    places := by
      rw [List.filterMap_append, List.append_assoc]
      exact hR.places
    ids := forall_append_singleton hR.ids rfl
    requested := fun r hr => List.mem_append_left _ (hR.requested r hr)
    numbered := by simpa using hR.numbered
    called := nofun
    returned := by simpa using hR.returned
    finished := by
      intro hmem
      rw [returns_invoke] at hmem
      cases hd.symm.trans (hR.finished hmem)
    answers := fun task htask => exists_append (hR.answers task htask)
    delivering := fun r outcome hw => exists_append (hR.delivering r outcome hw)
    destroyed := fun _ => exists_last ⟨rfl, rfl⟩
    phase := rfl }

theorem Explains.destructor (hR : Explains heartbeatEnabled s h l c)
    (hcalled : s.destructor ≠ .uncalled) (d : Destructor) (hd : d ≠ .uncalled)
    (hfinished : none ∈ returns h → d = .finished) (overflowThreads : List (OverflowThread ρ))
    (callbackStop : Bool) :
    Explains heartbeatEnabled
      { s with destructor := d, overflowThreads := overflowThreads, callbackStop := callbackStop }
      h l c :=
  { hR with
    called := fun _ => hd
    finished := hfinished
    destroyed := fun _ => hR.destroyed hcalled }

theorem Explains.finish (hR : Explains heartbeatEnabled s h l c) (hd : s.destructor = .finished) :
    Explains heartbeatEnabled s (h ++ [.ret none .destroyed]) l c :=
  { hR with
    requested := fun r hr => List.mem_append_left _ (hR.requested r hr)
    numbered := by simpa using hR.numbered
    called := by simpa using hR.called
    returned := by simpa using hR.returned
    finished := fun _ => hd }

theorem Explained.goOn (hs : Explained lib heartbeatEnabled c₀ s h)
    (hcalled : s.destructor ≠ .uncalled) (hopen : s.destructor ≠ .finished) (d : Destructor)
    (hd : d ≠ .uncalled) (hd' : d ≠ .finished) (overflowThreads : List (OverflowThread ρ))
    (callbackStop : Bool) :
    Explained lib heartbeatEnabled c₀
      { s with destructor := d, overflowThreads := overflowThreads, callbackStop := callbackStop }
      (h ++ observe s { s with
        destructor := d, overflowThreads := overflowThreads, callbackStop := callbackStop }) := by
  rcases hs with ⟨l, c, hR, hl⟩
  have hquiet : observe s { s with
      destructor := d, overflowThreads := overflowThreads, callbackStop := callbackStop } = [] := by
    simp [observe, hcalled, hd']
  rw [hquiet, List.append_nil]
  exact ⟨l, c, hR.destructor hcalled d hd (fun hmem => absurd (hR.finished hmem) hopen) _ _, hl⟩

theorem explained_destructor (hreach : (system lib heartbeatEnabled callbackThreads).Reachable s)
    (hstep : DestructorStep s s') (hs : Explained lib heartbeatEnabled c₀ s h) :
    Explained lib heartbeatEnabled c₀ s' (h ++ observe s s') := by
  cases hstep with
  | stopWorker hd hw =>
    exact .of_seen (by simp [observe, hd]) (explained_stop hreach hs hd)
  | joinWorker hd =>
    exact hs.goOn (by simp [hd]) (by simp [hd]) .joiningOverflow nofun nofun _ _
  | joinOverflow hd =>
    exact hs.goOn (by simp [hd]) (by simp [hd]) .stoppingCallbacks nofun nofun _ _
  | stopCallbacks hd =>
    exact hs.goOn (by simp [hd]) (by simp [hd]) .joiningCallbacks nofun nofun _ _
  | joinCallbacks hd =>
    rcases hs with ⟨l, c, hR, hl⟩
    have hcalled : s.destructor ≠ .uncalled := by
      rw [hd]
      exact nofun
    have hnone : none ∉ returns h := fun hmem => by cases hd.symm.trans (hR.finished hmem)
    have hrest := hR.destructor hcalled .finished nofun (fun _ => rfl) s.overflowThreads
      s.callbackStop
    rcases hR.destroyed hcalled with ⟨x, hx, hid, hresult⟩
    have hret := hl.ret hx (hid.symm ▸ hnone)
    rw [hid, hresult] at hret
    exact .of_seen (by simp [observe, hd]) ⟨l, c, hrest.finish rfl, hret⟩

theorem explained_step (hreach : (system lib heartbeatEnabled callbackThreads).Reachable s)
    (hstep : Step lib heartbeatEnabled callbackThreads s s')
    (hs : Explained lib heartbeatEnabled c₀ s h) :
    Explained lib heartbeatEnabled c₀ s' (h ++ observe s s') := by
  cases hstep with
  | connect hw =>
    rcases hs with ⟨l, c, hR, hl⟩
    have hmove := hR.move .loopTest s.requests (by rw [hw]; rfl)
      (fun _ => by simp [Worker.Follows, hw, Worker.closes, Worker.stopped]) (by simp) (by simp)
      (by simp [hw])
    exact .of_unseen rfl rfl rfl ⟨l, c, { hmove with }, hl⟩
  | call hcall => exact explained_call hcall hs
  | worker hworker => exact explained_worker hreach hworker hs
  | callback hcallback => exact explained_callback hreach hcallback hs
  | destructor hdestructor => exact explained_destructor hreach hdestructor hs

theorem explains_start (connection : σ) :
    Explains heartbeatEnabled (start connection : PostgresClient σ ρ) [] []
      (connection, .serving) where
  places := rfl
  ids := nofun
  requested := nofun
  numbered := nofun
  called := nofun
  returned := nofun
  finished := nofun
  answers := nofun
  delivering := nofun
  destroyed := fun hcalled => absurd rfl hcalled
  beats := nofun
  phase := rfl
  connection _ := rfl

/-- Every history of a client is one of a connection that executes one request at a time, and
refuses requests only when its destructor was called and it has executed nothing since then. -/
theorem linearizable (connection : σ)
    (hrun : (system lib heartbeatEnabled callbackThreads).Observed observe (start connection) h s) :
    (sequentialConnection lib heartbeatEnabled).Linearizable (connection, .serving) h := by
  have hexplained : Explained lib heartbeatEnabled (connection, .serving) s h := by
    refine hrun.linearizes (explains_start connection) ?_
    intro s₁ s₂ h l c hrun hstep hR hl
    exact explained_step ⟨_, ⟨connection, rfl⟩, hrun⟩ hstep ⟨l, c, hR, hl⟩
  rcases hexplained with ⟨l, c, -, hl⟩
  exact ⟨l, c, hl⟩

/-- The history of a client that has served one request and is then destroyed. -/
theorem linearizable_servedOne :
    (sequentialConnection (ρ := Submission) server false).Linearizable (Server.fresh [], .serving)
      [.invoke (some 0) (.request firstRequest),
        .ret (some 0) (.answer (.ok (.request firstRequest))), .invoke none .destroy] := by
  have h₀ : (system server false 0).Observed observe (start (Server.fresh [])) [] _ := .refl
  have h₁ := h₀.tail (.connect rfl rfl)
  have h₂ := h₁.tail (.call (.execute (.ofQuery (Transaction.query "SELECT 1") 0) ⟨rfl, nofun⟩))
  have h₃ := h₂.tail (.worker (.lock rfl rfl))
  have h₄ := h₃.tail (.worker (.wait rfl))
  have h₅ := h₄.tail (.worker (.wake rfl (.inr (List.cons_ne_nil _ _))))
  have h₆ := h₅.tail (.worker (.goOn rfl rfl))
  have h₇ := h₆.tail (.worker (.take rfl rfl))
  have h₈ := h₇.tail (.worker (.execute rfl 3 (server_result _ 0 [])))
  have h₉ := h₈.tail (.worker (.deliver rfl rfl))
  have h₁₀ := h₉.tail (.destructor (.stopWorker rfl nofun))
  exact linearizable (Server.fresh []) h₁₀

end PostgresLib.Client
