import PostgresLib.Client.LateRequests
import PostgresLib.Client.Fifo

/-! # Who owns a transaction, and which thread lets go of it

A transaction is shared by the variables of the application and of running callbacks,
and by callbacks that have captured it. A callback lives in a request in the queue, in
the worker's local request, among the requests the worker drains, or in a posted task.
The worker moves out the callback it uses and destroys the other one itself; a posted
task is destroyed by the thread that ran it. Whoever lets go of the last owner of an
active transaction runs its destructor, which waits for the worker. An overflow thread
that does so after it has reported that it is done can be waited for by the worker in
turn, which joins such threads in `PostCallback`; these joins are not modelled.
-/

namespace PostgresLib.Client

open Foundations Connection PostgresClient
open Transaction (Op State query)

variable {σ ρ : Type}

inductive Callback where
  | onSuccess (id : ℕ)
  | onError (id : ℕ)
  deriving DecidableEq

def Task.used (task : Task ρ) : Callback :=
  match task.outcome with
  | .ok _ => .onSuccess task.id
  | .error _ => .onError task.id

def Task.unused (task : Task ρ) : Callback :=
  match task.outcome with
  | .ok _ => .onError task.id
  | .error _ => .onSuccess task.id

def Request.callbacks (r : Request) : List Callback := [.onSuccess r.id, .onError r.id]

namespace Worker

/-- The request in the worker's local variable, when the worker has moved neither callback out. -/
def intact : Worker ρ → List Request
  | executing r | delivering r _ | hung (.request r) => [r]
  | _ => []

/-- The requests whose `on_error` the worker has still to take out of the drained queue. -/
def undrained : Worker ρ → List Request
  | draining pending => pending
  | posting _ pending | pushing _ pending => pending.getD []
  | _ => []

/-- The callbacks in the worker's frame that it does not use: the other one of the request it
answers, or `on_success` of each drained request. -/
def frame (drained : List Request) : Worker ρ → List Callback
  | posting task none | pushing task none => [task.unused]
  | draining _ | posting _ (some _) | pushing _ (some _) => drained.map fun r => .onSuccess r.id
  | _ => []

end Worker

namespace PostgresClient

/-- The tasks that were posted and have not run. -/
def tasks (s : PostgresClient σ ρ) : List (Task ρ) :=
  s.worker.posts ++ s.callbackQueue ++ s.callbackWorkers.flatMap CallbackWorker.runs ++
    s.overflowThreads.flatMap OverflowThread.runs

def callable (s : PostgresClient σ ρ) : List Callback :=
  (s.worker.intact ++ s.requests).flatMap Request.callbacks ++
    s.worker.undrained.map (fun r => .onError r.id) ++ s.tasks.map Task.used

end PostgresClient

/-- Which transactions a callback has captured is given in advance. -/
abbrev Captures := Callback → List ℕ

/-- The owners that the callbacks of a request have captured. -/
def Captures.ofRequest (captures : Captures) (r : Request) : List ℕ := r.callbacks.flatMap captures

/-- The number of owners of a transaction among callbacks. -/
def Captures.ownersIn (captures : Captures) (t : ℕ) (callbacks : List Callback) : ℕ :=
  (callbacks.flatMap captures).count t

/-- A client with the owners of its transactions: those that `create_transaction` has returned, how
many variables outside of callbacks own each, the requests the worker swapped out for the drain,
the owners that the worker is letting go of, and the transaction whose destructor it is in. -/
structure OwnedClient (σ ρ : Type) where
  client : PostgresClient σ ρ
  returned : List ℕ
  handles : ℕ → ℕ
  drained : List Request
  releasing : List ℕ
  waitsFor : Option ℕ

namespace OwnedClient

variable (captures : Captures) (s : OwnedClient σ ρ)

/-- The owners that the worker will let go of. -/
def doomed : List ℕ := (s.client.worker.frame s.drained).flatMap captures ++ s.releasing

/-- The number of owners of a transaction that the worker will not let go of. -/
def outside (t : ℕ) : ℕ := s.handles t + captures.ownersIn t s.client.callable

def owners (t : ℕ) : ℕ := s.outside captures t + (s.doomed captures).count t

def Active (t : ℕ) : Prop := s.client.transactions t = .active

def start (connection : σ) : OwnedClient σ ρ where
  client := PostgresClient.start connection
  returned := []
  handles _ := 0
  drained := []
  releasing := []
  waitsFor := none

/-- The request that the destructor of a transaction makes. -/
def rollbackRequest (t : ℕ) : Request :=
  s.client.next (commandDetail .destroy) (isDirect .destroy) (.transaction t)

/-- The thread that lets go of the last owner marks the transaction and sends `ROLLBACK`. -/
def destroy (t : ℕ) : PostgresClient σ ρ :=
  { s.client with
    transactions := Function.update s.client.transactions t (stateAfter .destroy) }.push
      (s.rollbackRequest t)

/-- Where the worker goes on, and what it lets go of when its frame ends. -/
def afterWorker (client : PostgresClient σ ρ) : OwnedClient σ ρ :=
  { s with
    client := client
    releasing :=
      if client.worker.frame s.drained = [] then
        (s.client.worker.frame s.drained).flatMap captures
      else [] }

/-- A callback thread has run a task: it destroys the callback, and lets go of what the callback
owned like of its own variables. -/
def afterCallback (client : PostgresClient σ ρ) : OwnedClient σ ρ :=
  { s with
    client := client
    handles := fun t => s.handles t +
      captures.ownersIn t ((client.invoked.drop s.client.invoked.length).map Task.used) }

end OwnedClient

open OwnedClient

variable (lib : Libpq σ Submission ρ) (heartbeatEnabled : Bool) (callbackThreads : ℕ)
  (captures : Captures)

inductive OwnedStep : OwnedClient σ ρ → OwnedClient σ ρ → Prop
  | connect {s} (hw : s.client.worker = .unstarted) (h : s.client.destructor = .uncalled) :
      OwnedStep s
        { s with
          client :=
            { s.client with
              worker := .loopTest
              callbackWorkers := List.replicate callbackThreads .announcing } }
  -- a call on a transaction is made through an owner, or by `create_transaction` after its `BEGIN`
  -- has failed; the callbacks of a promise own nothing, those of a user copies of owners
  | call {s client} (r : Request) (h : Call s.client client)
      (hpushed : client.pushed = s.client.pushed ++ [r])
      (howner : ∀ t, r.origin = .transaction t →
        0 < s.outside captures t ∨ ∃ e, ⟨t, .error e⟩ ∈ s.client.answered)
      (hdirect : r.directCallback = true → captures.ofRequest r = [])
      (hcaptured : ∀ t ∈ captures.ofRequest r, 0 < s.outside captures t) :
      OwnedStep s { s with client := client }
  | obtain {s} (t : ℕ) (hnew : t ∉ s.returned) {r : Request} {result : ρ} (hr : r ∈ s.client.pushed)
      (hid : r.id = t) (horigin : r.origin = .creation) (h : ⟨t, .ok result⟩ ∈ s.client.answered) :
      OwnedStep s
        { s with
          returned := t :: s.returned
          handles := Function.update s.handles t (s.handles t + 1) }
  | copy {s} (t : ℕ) (h : 0 < s.outside captures t) :
      OwnedStep s { s with handles := Function.update s.handles t (s.handles t + 1) }
  | drop {s} (t : ℕ) (h : 0 < s.handles t) (hkept : 1 < s.owners captures t ∨ ¬ s.Active t) :
      OwnedStep s { s with handles := Function.update s.handles t (s.handles t - 1) }
  | dropLast {s} (t : ℕ) (h : 0 < s.handles t) (hlast : s.owners captures t = 1)
      (hactive : s.Active t) (haccepts : s.client.Accepts)
      (hdirect : captures.ofRequest (s.rollbackRequest t) = []) :
      OwnedStep s
        { s with
          client := s.destroy t
          handles := Function.update s.handles t (s.handles t - 1) }
  | worker {s client} (hfree : s.releasing = []) (hruns : s.waitsFor = none)
      (h : WorkerStep lib heartbeatEnabled s.client client)
      (hdrain : ¬ (s.client.worker = .woken ∧ s.client.stopRequested = true)) :
      OwnedStep s (s.afterWorker captures client)
  | drain {s} (hfree : s.releasing = []) (hruns : s.waitsFor = none)
      (hw : s.client.worker = .woken) (h : s.client.stopRequested = true) :
      OwnedStep s
        { s with
          client := { s.client with worker := .draining s.client.requests, requests := [] }
          drained := s.client.requests }
  | release {s} (t : ℕ) {rest : List ℕ} (h : s.releasing = t :: rest) (hruns : s.waitsFor = none)
      (hkept : 1 < s.owners captures t ∨ ¬ s.Active t) : OwnedStep s { s with releasing := rest }
  | releaseLast {s} (t : ℕ) {rest : List ℕ} (h : s.releasing = t :: rest)
      (hruns : s.waitsFor = none)
      (hlast : s.owners captures t = 1) (hactive : s.Active t) (haccepts : s.client.Accepts)
      (hdirect : captures.ofRequest (s.rollbackRequest t) = []) :
      OwnedStep s { s with client := s.destroy t, releasing := rest, waitsFor := some t }
  | callback {s client} (h : CallbackStep s.client client) :
      OwnedStep s (s.afterCallback captures client)
  -- the worker's thread ends after its frame
  | destructor {s client} (h : DestructorStep s.client client)
      (hjoin : client.destructor = .joiningOverflow → s.releasing = [] ∧ s.waitsFor = none) :
      OwnedStep s { s with client := client }

def ownedSystem : TransitionSystem (OwnedClient σ ρ) where
  init s := ∃ connection, s = OwnedClient.start connection
  step := OwnedStep lib heartbeatEnabled callbackThreads captures

end PostgresLib.Client
