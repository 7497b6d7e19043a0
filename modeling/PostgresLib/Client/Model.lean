import PostgresLib.Connection.Execution
import PostgresLib.Foundations.TransitionSystem
import PostgresLib.Transaction.Model

/-! # A connected client and its threads

The state is what the members of `postgres_client` hold, where each of its threads
is, and the history of the run. `QueryWorker` hands a request to `ExecuteWithRetry`
in one step, which only touches the connection; everything else takes a step for
each critical section and for each test of a flag. The joins of overflow threads that
are done take no time: in the code `PostCallback` waits there until the thread has
destroyed its closure as well, and when this runs the destructor of a transaction, it
waits for an answer that only the waiting worker could give.
-/

namespace PostgresLib.Client

open Foundations Connection Wire
open Transaction (Op State query)

/-- The call that makes a request: on the client, `create_transaction`, or on the transaction
whose `BEGIN` has the given identity. -/
inductive Origin where
  | client
  | creation
  | transaction (t : ℕ)
  deriving DecidableEq

/-- `query_request`. The identity stands for its two callbacks. -/
structure Request where
  id : ℕ
  detail : PgParamDetail
  directCallback : Bool
  origin : Origin
  deriving DecidableEq

/-- What the worker hands to `ExecuteWithRetry`. -/
inductive Submission where
  | heartbeat
  | request (r : Request)
  deriving DecidableEq

def Submission.detail : Submission → PgParamDetail
  | heartbeat => .ofQuery (query "SELECT 1") 0
  | request r => r.detail

/-- The request of a submission, if it is not a heartbeat. -/
def Submission.request? : Submission → Option Request
  | heartbeat => none
  | request r => some r

/-- A callback of a request with its argument: `on_success` with a result, or `on_error`. -/
structure Task (ρ : Type) where
  id : ℕ
  outcome : Except SqlError ρ

/-- Where `QueryWorker` is. A posted task comes with the requests that are still to be drained, when
it is posted by the drain. -/
inductive Worker (ρ : Type) where
  | unstarted
  | loopTest
  | locked
  | heartbeat
  | waiting
  | woken
  | taking
  | executing (r : Request)
  | delivering (r : Request) (outcome : Except SqlError ρ)
  | draining (pending : List Request)
  | posting (task : Task ρ) (pending : Option (List Request))
  | pushing (task : Task ρ) (pending : Option (List Request))
  | exited
  | hung (submission : Submission)

namespace Worker

variable {ρ : Type}

def holdsMutex : Worker ρ → Bool
  | locked | woken | taking => true
  | _ => false

/-- Where the worker goes on after `PostCallback`. -/
def resume : Option (List Request) → Worker ρ
  | none => loopTest
  | some pending => draining pending

end Worker

inductive CallbackWorker (ρ : Type) where
  | announcing
  | waiting
  | running (task : Task ρ)
  | exited

/-- `overflow_callback_thread`: its task, until it is done. -/
inductive OverflowThread (ρ : Type) where
  | running (task : Task ρ)
  | done

/-- `done->load()`. -/
def OverflowThread.isDone {ρ : Type} : OverflowThread ρ → Bool
  | done => true
  | running _ => false

inductive Destructor where
  | uncalled
  | joiningWorker
  | joiningOverflow
  | stoppingCallbacks
  | joiningCallbacks
  | finished
  deriving DecidableEq

/-- A call of `ExecuteWithRetry` by the worker, from the state of the connection, with the fuel it
is given. -/
structure Execution (σ : Type) where
  submission : Submission
  start : σ
  fuel : ℕ

/-- How an execution ends; the worker reconnects with a timeout of 5000 milliseconds. -/
def Execution.ending {σ ρ : Type} (lib : Libpq σ Submission ρ) (x : Execution σ) :
    Ending σ (Event σ Submission ρ) (Except SqlError ρ) :=
  executeWithRetry lib x.submission 5000 x.fuel x.start

/-- The members of a client, its threads, and the history: what was pushed, what had been pushed
when the stop was requested, the executions, the callbacks that were invoked or handed to
`PostCallback`, and those that were invoked. -/
structure PostgresClient (σ ρ : Type) where
  requests : List Request
  stopRequested : Bool
  worker : Worker ρ
  connection : σ
  idleCallbackWorkers : ℕ
  callbackQueue : List (Task ρ)
  overflowThreads : List (OverflowThread ρ)
  callbackStop : Bool
  callbackWorkers : List (CallbackWorker ρ)
  destructor : Destructor
  transactions : ℕ → State
  pushed : List Request
  pushedBeforeStop : List Request
  executions : List (Execution σ)
  answered : List (Task ρ)
  invoked : List (Task ρ)

variable {σ ρ : Type}

namespace PostgresClient

/-- A client before `connect`, with the connection that it will have. -/
def start (connection : σ) : PostgresClient σ ρ where
  requests := []
  stopRequested := false
  worker := .unstarted
  connection := connection
  idleCallbackWorkers := 0
  callbackQueue := []
  overflowThreads := []
  callbackStop := false
  callbackWorkers := []
  destructor := .uncalled
  transactions _ := .active
  pushed := []
  pushedBeforeStop := []
  executions := []
  answered := []
  invoked := []

/-- The request that the next call pushes. -/
def next (s : PostgresClient σ ρ) (detail : PgParamDetail) (direct : Bool) (origin : Origin) :
    Request where
  id := s.pushed.length
  detail := detail
  directCallback := direct
  origin := origin

/-- `m_requests.emplace_back`. -/
def push (s : PostgresClient σ ρ) (r : Request) : PostgresClient σ ρ :=
  { s with requests := s.requests ++ [r], pushed := s.pushed ++ [r] }

/-- The mutex is free, and the client is not destroyed. -/
def Accepts (s : PostgresClient σ ρ) : Prop :=
  s.worker.holdsMutex = false ∧ s.destructor ≠ .finished

/-- The `BEGIN` of the transaction was answered. `create_transaction` returns the transaction when
it succeeded; otherwise only the destructor of the transaction is called. -/
def Callable (s : PostgresClient σ ρ) (t : ℕ) (op : Op) : Prop :=
  ∃ r ∈ s.pushed, r.id = t ∧ r.origin = .creation ∧
    ((∃ result, ⟨t, .ok result⟩ ∈ s.answered) ∨
      op = .destroy ∧ ∃ e, ⟨t, .error e⟩ ∈ s.answered)

/-- `m_state` after a call on a transaction that is active. -/
def stateAfter (op : Op) : State := if op.isStatement then .active else op.endState

/-- What a call on a transaction enqueues. -/
def commandDetail (op : Op) : PgParamDetail :=
  match op.command with
  | .statement detail | .terminator detail => detail

/-- `execute`, `commit`, `rollback` and the destructor wait for a future, and `execute_async` does
not. -/
def isDirect : Op → Bool
  | .executeAsync _ => false
  | _ => true

def execute (lib : Libpq σ Submission ρ) (s : PostgresClient σ ρ) (x : Execution σ)
    (worker : Worker ρ) : PostgresClient σ ρ :=
  { s with
    worker := worker
    connection := (x.ending lib).state
    executions := s.executions ++ [x] }

/-- The worker invokes a callback itself. -/
def invoke (s : PostgresClient σ ρ) (task : Task ρ) (worker : Worker ρ) : PostgresClient σ ρ :=
  { s with
    worker := worker
    answered := s.answered ++ [task]
    invoked := s.invoked ++ [task] }

def post (s : PostgresClient σ ρ) (task : Task ρ) (pending : Option (List Request)) :
    PostgresClient σ ρ :=
  { s with worker := .posting task pending, answered := s.answered ++ [task] }

end PostgresClient

open PostgresClient

/-- A call of a thread that uses the client. A call on a transaction that is not active enqueues
nothing. -/
inductive Call : PostgresClient σ ρ → PostgresClient σ ρ → Prop
  | execute {s} (detail : PgParamDetail) (h : s.Accepts) :
      Call s (s.push (s.next detail true .client))
  | executeAsync {s} (detail : PgParamDetail) (h : s.Accepts) :
      Call s (s.push (s.next detail false .client))
  | createTransaction {s} (h : s.Accepts) :
      Call s (s.push (s.next (.ofQuery (query "BEGIN") 0) true .creation))
  | onTransaction {s} (t : ℕ) (op : Op) (h : s.Accepts) (hcallable : s.Callable t op)
      (hactive : s.transactions t = .active) :
      Call s
        ({ s with transactions := Function.update s.transactions t (stateAfter op) }.push
          (s.next (commandDetail op) (isDirect op) (.transaction t)))

/-- The error that requests are answered with when the worker stops. -/
def workerStopped : SqlError := .shuttingDown "worker thread stopped"

variable (lib : Libpq σ Submission ρ) (heartbeatEnabled : Bool)

inductive WorkerStep : PostgresClient σ ρ → PostgresClient σ ρ → Prop
  | leave {s} (hw : s.worker = .loopTest) (h : s.stopRequested = true) :
      WorkerStep s { s with worker := .exited }
  | lock {s} (hw : s.worker = .loopTest) (h : s.stopRequested = false) :
      WorkerStep s { s with worker := .locked }
  | beat {s} (hw : s.worker = .locked) (h : heartbeatEnabled = true) :
      WorkerStep s { s with worker := .heartbeat }
  | ping {s} (hw : s.worker = .heartbeat) (fuel : ℕ) {outcome : Except SqlError ρ}
      (h : (Execution.ending lib ⟨.heartbeat, s.connection, fuel⟩).result = some outcome) :
      WorkerStep s (s.execute lib ⟨.heartbeat, s.connection, fuel⟩ .loopTest)
  | wait {s} (hw : s.worker = .locked) : WorkerStep s { s with worker := .waiting }
  | wake {s} (hw : s.worker = .waiting) (h : s.stopRequested = true ∨ s.requests ≠ []) :
      WorkerStep s { s with worker := .woken }
  | timeOut {s} (hw : s.worker = .waiting) (h : heartbeatEnabled = true) :
      WorkerStep s { s with worker := .woken }
  | drain {s} (hw : s.worker = .woken) (h : s.stopRequested = true) :
      WorkerStep s { s with worker := .draining s.requests, requests := [] }
  | goOn {s} (hw : s.worker = .woken) (h : s.stopRequested = false) :
      WorkerStep s { s with worker := .taking }
  | takeNone {s} (hw : s.worker = .taking) (h : s.requests = []) :
      WorkerStep s { s with worker := .loopTest }
  | take {s} {r : Request} {rest : List Request} (hw : s.worker = .taking)
      (h : s.requests = r :: rest) :
      WorkerStep s { s with worker := .executing r, requests := rest }
  | execute {s} {r : Request} (hw : s.worker = .executing r) (fuel : ℕ)
      {outcome : Except SqlError ρ}
      (h : (Execution.ending lib ⟨.request r, s.connection, fuel⟩).result = some outcome) :
      WorkerStep s (s.execute lib ⟨.request r, s.connection, fuel⟩ (.delivering r outcome))
  -- what was done before the fuel ran out was done, and the worker never comes back
  | hangBeat {s} (hw : s.worker = .heartbeat) (fuel : ℕ)
      (h : (Execution.ending lib ⟨.heartbeat, s.connection, fuel⟩).result = none) :
      WorkerStep s (s.execute lib ⟨.heartbeat, s.connection, fuel⟩ (.hung .heartbeat))
  | hang {s} {r : Request} (hw : s.worker = .executing r) (fuel : ℕ)
      (h : (Execution.ending lib ⟨.request r, s.connection, fuel⟩).result = none) :
      WorkerStep s (s.execute lib ⟨.request r, s.connection, fuel⟩ (.hung (.request r)))
  | deliver {s} {r : Request} {outcome : Except SqlError ρ}
      (hw : s.worker = .delivering r outcome) (h : r.directCallback = true) :
      WorkerStep s (s.invoke ⟨r.id, outcome⟩ .loopTest)
  | deliverPosted {s} {r : Request} {outcome : Except SqlError ρ}
      (hw : s.worker = .delivering r outcome) (h : r.directCallback = false) :
      WorkerStep s (s.post ⟨r.id, outcome⟩ none)
  | drainOne {s} {r : Request} {rest : List Request} (hw : s.worker = .draining (r :: rest))
      (h : r.directCallback = true) :
      WorkerStep s (s.invoke ⟨r.id, .error workerStopped⟩ (.draining rest))
  | drainPosted {s} {r : Request} {rest : List Request} (hw : s.worker = .draining (r :: rest))
      (h : r.directCallback = false) :
      WorkerStep s (s.post ⟨r.id, .error workerStopped⟩ (some rest))
  | drained {s} (hw : s.worker = .draining []) : WorkerStep s { s with worker := .exited }
  | overflow {s} {task : Task ρ} {pending : Option (List Request)}
      (hw : s.worker = .posting task pending) (h : s.idleCallbackWorkers = 0) :
      WorkerStep s
        { s with
          worker := .resume pending
          overflowThreads := s.overflowThreads.filter (fun o => !o.isDone) ++ [.running task] }
  | seeIdle {s} {task : Task ρ} {pending : Option (List Request)}
      (hw : s.worker = .posting task pending) (h : s.idleCallbackWorkers ≠ 0) :
      WorkerStep s { s with worker := .pushing task pending }
  | pushTask {s} {task : Task ρ} {pending : Option (List Request)}
      (hw : s.worker = .pushing task pending) :
      WorkerStep s
        { s with worker := .resume pending, callbackQueue := s.callbackQueue ++ [task] }

inductive CallbackStep : PostgresClient σ ρ → PostgresClient σ ρ → Prop
  | announce {s} {front back : List (CallbackWorker ρ)}
      (h : s.callbackWorkers = front ++ .announcing :: back) :
      CallbackStep s
        { s with
          callbackWorkers := front ++ .waiting :: back
          idleCallbackWorkers := s.idleCallbackWorkers + 1 }
  | take {s} {front back : List (CallbackWorker ρ)} {task : Task ρ} {rest : List (Task ρ)}
      (h : s.callbackWorkers = front ++ .waiting :: back)
      (hqueue : s.callbackQueue = task :: rest) :
      CallbackStep s
        { s with
          callbackWorkers := front ++ .running task :: back
          idleCallbackWorkers := s.idleCallbackWorkers - 1
          callbackQueue := rest }
  | leave {s} {front back : List (CallbackWorker ρ)}
      (h : s.callbackWorkers = front ++ .waiting :: back) (hstop : s.callbackStop = true)
      (hqueue : s.callbackQueue = []) :
      CallbackStep s
        { s with
          callbackWorkers := front ++ .exited :: back
          idleCallbackWorkers := s.idleCallbackWorkers - 1 }
  | run {s} {front back : List (CallbackWorker ρ)} {task : Task ρ}
      (h : s.callbackWorkers = front ++ .running task :: back) :
      CallbackStep s
        { s with
          callbackWorkers := front ++ .announcing :: back
          invoked := s.invoked ++ [task] }
  | runOverflow {s} {front back : List (OverflowThread ρ)} {task : Task ρ}
      (h : s.overflowThreads = front ++ .running task :: back) :
      CallbackStep s
        { s with
          overflowThreads := front ++ .done :: back
          invoked := s.invoked ++ [task] }

inductive DestructorStep : PostgresClient σ ρ → PostgresClient σ ρ → Prop
  | stopWorker {s} (h : s.destructor = .uncalled) (hw : s.worker ≠ .unstarted) :
      DestructorStep s
        { s with
          destructor := .joiningWorker
          stopRequested := true
          pushedBeforeStop := s.pushed }
  | joinWorker {s} (h : s.destructor = .joiningWorker) (hw : s.worker = .exited) :
      DestructorStep s { s with destructor := .joiningOverflow }
  | joinOverflow {s} (h : s.destructor = .joiningOverflow)
      (hdone : ∀ o ∈ s.overflowThreads, o.isDone = true) :
      DestructorStep s { s with destructor := .stoppingCallbacks, overflowThreads := [] }
  | stopCallbacks {s} (h : s.destructor = .stoppingCallbacks) :
      DestructorStep s { s with destructor := .joiningCallbacks, callbackStop := true }
  | joinCallbacks {s} (h : s.destructor = .joiningCallbacks)
      (hexited : ∀ w ∈ s.callbackWorkers, w = .exited) :
      DestructorStep s { s with destructor := .finished }

variable (callbackThreads : ℕ)

inductive Step : PostgresClient σ ρ → PostgresClient σ ρ → Prop
  | connect {s} (hw : s.worker = .unstarted) (h : s.destructor = .uncalled) :
      Step s
        { s with
          worker := .loopTest
          callbackWorkers := List.replicate callbackThreads .announcing }
  | call {s s'} (h : Call s s') : Step s s'
  | worker {s s'} (h : WorkerStep lib heartbeatEnabled s s') : Step s s'
  | callback {s s'} (h : CallbackStep s s') : Step s s'
  | destructor {s s'} (h : DestructorStep s s') : Step s s'

def system : TransitionSystem (PostgresClient σ ρ) where
  init s := ∃ connection, s = PostgresClient.start connection
  step := Step lib heartbeatEnabled callbackThreads

end PostgresLib.Client
