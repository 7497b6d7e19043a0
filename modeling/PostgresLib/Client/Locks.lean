import PostgresLib.Foundations.LockOrder

/-! # The mutexes of a client and of its transactions

What the functions of a client and of a transaction do with mutexes, with the members
that threads share, and with threads. `m_requests`, `m_cb_queue`, `m_overflow_cb_threads`
and `m_state` of a transaction are only accessed under their mutex. `m_executor` is not:
it is read again after the mutex is given up, and the move constructor writes it meanwhile.
A callback that the application passes may call the client and its transactions; it does
not connect or destroy the client it was passed to. Waits for a future, for the server and
for time are pauses, in which a thread holds no mutex.
-/

namespace PostgresLib.Client.Locks

open Foundations LockOrder

/-- `m_mutex` of a transaction, and `m_mutex`, `m_temp_cb_mutex` and `m_cb_mutex` of the client. -/
inductive Mutex where
  | transaction (t : ℕ)
  | requests
  | overflow
  | callbacks
  deriving DecidableEq

inductive Member where
  | state (t : ℕ)
  | executor (t : ℕ)
  | requests
  | overflowThreads
  | callbackQueue
  deriving DecidableEq

/-- The mutex under which every access to a member is made. -/
def guard : Member → Option Mutex
  | .state t => some (.transaction t)
  | .executor _ => none
  | .requests => some .requests
  | .overflowThreads => some .overflow
  | .callbackQueue => some .callbacks

/-- The kinds of threads, and of the code that they run. -/
inductive Code where
  | application
  | queryWorker
  | callbackWorker
  | overflowThread
  | userCallback
  deriving DecidableEq

/-- One way through a function. -/
abbrev Path := List (Op Mutex Member Code)

/-! ## The functions -/

/-- A scope with a lock. -/
def locked (m : Mutex) (body : Path) : Path := .lock m :: body ++ ([.unlock m] : Path)

def sendToWorker : Path := locked .requests [.access .requests]

def enqueueAsync : Path := locked .requests [.access .requests]

namespace Transaction

/-- A call through `m_executor`, which is read first. -/
def throughExecutor (t : ℕ) (call : Path) : Path := .access (.executor t) :: call

def execute (t : ℕ) (active : Bool) : Path :=
  locked (.transaction t)
    (.access (.state t) :: if active then throughExecutor t sendToWorker else [])

/-- `transaction::execute_async`, which calls `on_error` itself. -/
def executeAsync (t : ℕ) (active : Bool) : Path :=
  if active then locked (.transaction t) (.access (.state t) :: throughExecutor t enqueueAsync)
  else locked (.transaction t) [.access (.state t)] ++ ([.outside .userCallback] : Path)

/-- The end of `commit`, `rollback` and the destructor: the command is sent without the mutex, and
its answer awaited. -/
def finish (t : ℕ) : Path := throughExecutor t sendToWorker ++ ([.pause] : Path)

/-- What `commit` and `rollback` have in common. -/
def settle (t : ℕ) (active : Bool) : Path :=
  locked (.transaction t) [.access (.state t)] ++ if active then finish t else []

def commit (t : ℕ) (active : Bool) : Path := settle t active

def rollback (t : ℕ) (active : Bool) : Path := settle t active

/-- `~transaction`, which under the mutex also tests whether the transaction was moved from. -/
def destroy (t : ℕ) (active : Bool) : Path :=
  locked (.transaction t) [.access (.state t), .access (.executor t)] ++
    if active then finish t else []

def moveConstruct (other : ℕ) : Path :=
  locked (.transaction other) [.access (.executor other), .access (.state other)]

end Transaction

/-- `create_transaction`, which destroys the transaction when `BEGIN` fails. -/
def createTransaction (t : ℕ) (begun : Bool) : Path :=
  Transaction.execute t true ++ ([.pause] : Path) ++
    if begun then [] else Transaction.destroy t true

/-- `PostCallback`, called by the query worker: it queues the task, or starts a thread for it and
joins the overflow threads that are done. -/
def postCallback (idle : Bool) (done : ℕ) : Path :=
  if idle then locked .callbacks [.access .callbackQueue]
  else .start .overflowThread :: locked .overflow (.access .overflowThreads ::
    (List.replicate done (.join .overflowThread) : Path) ++ ([.access .overflowThreads] : Path))

/-- The wait of `QueryWorker`. -/
def awaitRequest : Path :=
  locked .requests [.access .requests, .wait .requests, .access .requests]

/-- One round of `QueryWorker`. What the application's callbacks capture is destroyed at its end. -/
inductive QueryWorkerRound : Path → Prop
  | none : QueryWorkerRound awaitRequest
  | heartbeat : QueryWorkerRound [.lock .requests, .unlock .requests, .pause]
  | direct : QueryWorkerRound (awaitRequest ++ ([.pause, .outside .userCallback] : Path))
  | posted (idle : Bool) (done : ℕ) :
      QueryWorkerRound
        (awaitRequest ++ ([.pause] : Path) ++ postCallback idle done ++
          ([.outside .userCallback] : Path))
  | drained {posts : List Path} (h : ∀ f ∈ posts, ∃ idle done, f = postCallback idle done) :
      QueryWorkerRound (awaitRequest ++ posts.flatten ++ ([.outside .userCallback] : Path))

def callbackWorkerRound (task : Bool) : Path :=
  locked .callbacks [.access .callbackQueue, .wait .callbacks, .access .callbackQueue] ++
    if task then ([.outside .userCallback] : Path) else []

/-- `connect`. A thread that is assigned to is joined. -/
def connect (connected again : Bool) (callbackThreads : ℕ) : Path :=
  .pause :: if connected then
    .start .queryWorker :: (if again then ([.join .queryWorker] : Path) else []) ++
      (List.replicate callbackThreads (.start .callbackWorker) : Path)
  else []

/-- `~postgres_client`, with the members that are destroyed after its body. -/
def destroyClient (overflowThreads callbackThreads : ℕ) : Path :=
  .join .queryWorker :: locked .overflow (.access .overflowThreads ::
      (List.replicate overflowThreads (.join .overflowThread) : Path)) ++
    (List.replicate callbackThreads (.join .callbackWorker) : Path) ++
    ([.outside .userCallback] : Path)

/-- What a callback may call, and with it the application. -/
inductive ClientCall : Path → Prop
  | execute : ClientCall sendToWorker
  | executeAsync : ClientCall enqueueAsync
  | createTransaction (t : ℕ) (begun : Bool) : ClientCall (createTransaction t begun)
  | transactionExecute (t : ℕ) (active : Bool) : ClientCall (Transaction.execute t active)
  | transactionExecuteAsync (t : ℕ) (active : Bool) :
      ClientCall (Transaction.executeAsync t active)
  | commit (t : ℕ) (active : Bool) : ClientCall (Transaction.commit t active)
  | rollback (t : ℕ) (active : Bool) : ClientCall (Transaction.rollback t active)
  | destroy (t : ℕ) (active : Bool) : ClientCall (Transaction.destroy t active)
  | moveConstruct (t : ℕ) : ClientCall (Transaction.moveConstruct t)
  | getResult : ClientCall [.pause]

inductive Calls : Code → Path → Prop
  | callback {f : Path} (h : ClientCall f) : Calls .userCallback f
  | application {f : Path} (h : ClientCall f) : Calls .application f
  | connect (connected again : Bool) (callbackThreads : ℕ) :
      Calls .application (connect connected again callbackThreads)
  | destroyClient (overflowThreads callbackThreads : ℕ) :
      Calls .application (destroyClient overflowThreads callbackThreads)
  | queryWorker {f : Path} (h : QueryWorkerRound f) : Calls .queryWorker f
  | callbackWorker (task : Bool) : Calls .callbackWorker (callbackWorkerRound task)

def threads : Program Mutex Member Code where
  guard := guard
  calls := Calls
  body
    | .overflowThread => [.outside .userCallback]
    | k => [.outside k]
  enters k := k = .application

/-! ## The order -/

/-- The query worker is joined before anything is locked; the overflow threads are joined under
`m_temp_cb_mutex`, so that nothing that they run may take it; and a transaction's mutex comes
before the client's. -/
def order : Order Mutex Code where
  mutex
    | .overflow => 2
    | .transaction _ => 4
    | .requests | .callbacks => 5
  thread
    | .queryWorker => 1
    | .callbackWorker | .overflowThread => 3
    | .application | .userCallback => 0
  floor
    | .application => 1
    | .queryWorker => 2
    | .callbackWorker | .overflowThread | .userCallback => 4
  top := 5
  mutex_le m := by cases m <;> simp
  thread_le k := by cases k <;> decide

theorem keeps_sendToWorker : order.Keeps guard 4 [] sendToWorker := by
  simp [sendToWorker, locked, guard, order]

theorem keeps_finish (t : ℕ) : order.Keeps guard 4 [] (Transaction.finish t) := by
  have hsend : order.Keeps guard 4 [] (Transaction.throughExecutor t sendToWorker) :=
    ⟨nofun, keeps_sendToWorker⟩
  exact hsend.append (by simp)

theorem keeps_settle (t : ℕ) (active : Bool) :
    order.Keeps guard 4 [] (Transaction.settle t active) := by
  have hlocked : order.Keeps guard 4 [] (locked (.transaction t) [.access (.state t)]) := by
    simp [locked, guard, order]
  cases active with
  | false => exact hlocked
  | true => exact hlocked.append (keeps_finish t)

theorem keeps_destroy (t : ℕ) (active : Bool) :
    order.Keeps guard 4 [] (Transaction.destroy t active) := by
  have hlocked : order.Keeps guard 4 []
      (locked (.transaction t) [.access (.state t), .access (.executor t)]) := by
    simp [locked, guard, order]
  cases active with
  | false => exact hlocked
  | true => exact hlocked.append (keeps_finish t)

theorem keeps_execute (t : ℕ) (active : Bool) :
    order.Keeps guard 4 [] (Transaction.execute t active) := by
  cases active <;>
    simp [Transaction.execute, Transaction.throughExecutor, sendToWorker, locked, guard, order]

theorem keeps_createTransaction (t : ℕ) (begun : Bool) :
    order.Keeps guard 4 [] (createTransaction t begun) := by
  have hbegin : order.Keeps guard 4 [] (Transaction.execute t true ++ ([.pause] : Path)) :=
    (keeps_execute t true).append (by simp)
  cases begun with
  | true => simpa [createTransaction] using hbegin
  | false => exact hbegin.append (keeps_destroy t true)

theorem keeps_clientCall {f : Path} (h : ClientCall f) : order.Keeps guard 4 [] f := by
  cases h with
  | execute | executeAsync => exact keeps_sendToWorker
  | createTransaction t begun => exact keeps_createTransaction t begun
  | transactionExecute t active => exact keeps_execute t active
  | transactionExecuteAsync t active =>
    cases active <;>
      simp [Transaction.executeAsync, Transaction.throughExecutor, enqueueAsync, locked, guard,
        order]
  | commit t active | rollback t active => exact keeps_settle t active
  | destroy t active => exact keeps_destroy t active
  | moveConstruct t => simp [Transaction.moveConstruct, locked, guard, order]
  | getResult => simp

theorem guard_overflowThreads (m : Mutex) (h : guard .overflowThreads = some m) :
    m ∈ [Mutex.overflow] := by
  cases h
  exact List.mem_cons_self

theorem keeps_postCallback (idle : Bool) (done : ℕ) :
    order.Keeps guard 2 [] (postCallback idle done) := by
  cases idle with
  | true => simp [postCallback, locked, guard, order]
  | false =>
    have hjoins : order.Keeps guard 2 [.overflow]
        ((List.replicate done (.join .overflowThread) : Path) ++
          ([.access .overflowThreads, .unlock .overflow] : Path)) :=
      .joins done (by decide) (by decide) ⟨guard_overflowThreads, [], rfl, rfl⟩
    simp only [postCallback, if_neg Bool.false_ne_true, locked, List.cons_append,
      List.append_assoc, List.nil_append]
    exact ⟨by decide, nofun, guard_overflowThreads, hjoins⟩

theorem keeps_awaitRequest : order.Keeps guard 2 [] awaitRequest := by
  simp [awaitRequest, locked, guard, order]

theorem keeps_queryWorkerRound {f : Path} (h : QueryWorkerRound f) :
    order.Keeps guard 2 [] f := by
  have hreleased : order.Keeps guard 2 [] ([.outside .userCallback] : Path) := by
    simp [order]
  cases h with
  | none => exact keeps_awaitRequest
  | heartbeat => simp [order]
  | direct => exact keeps_awaitRequest.append ⟨rfl, hreleased⟩
  | posted idle done =>
    have hpause : order.Keeps guard 2 [] ([.pause] : Path) := by simp
    exact ((keeps_awaitRequest.append hpause).append (keeps_postCallback idle done)).append
      hreleased
  | drained h =>
    refine (keeps_awaitRequest.append (.flatten ?_)).append hreleased
    intro f hf
    rcases h f hf with ⟨idle, done, rfl⟩
    exact keeps_postCallback idle done

theorem keeps_callbackWorkerRound (task : Bool) :
    order.Keeps guard 4 [] (callbackWorkerRound task) := by
  cases task <;> simp [callbackWorkerRound, locked, guard, order]

theorem keeps_connect (connected again : Bool) (callbackThreads : ℕ) :
    order.Keeps guard 1 [] (connect connected again callbackThreads) := by
  have hstarts : order.Keeps guard 1 []
      (List.replicate callbackThreads (.start .callbackWorker) ++ []) :=
    .starts _ _ rfl
  rw [List.append_nil] at hstarts
  cases connected with
  | false => simp [connect]
  | true =>
    cases again with
    | false => exact ⟨rfl, hstarts⟩
    | true => exact ⟨rfl, by decide, nofun, hstarts⟩

theorem keeps_destroyClient (overflowThreads callbackThreads : ℕ) :
    order.Keeps guard 1 [] (destroyClient overflowThreads callbackThreads) := by
  have hworkers : order.Keeps guard 1 []
      ((List.replicate callbackThreads (.join .callbackWorker) : Path) ++
        ([.outside .userCallback] : Path)) :=
    .joins _ (by decide) nofun (by simp [order])
  have hoverflow : order.Keeps guard 1 [.overflow]
      ((List.replicate overflowThreads (.join .overflowThread) : Path) ++ .unlock .overflow ::
        ((List.replicate callbackThreads (.join .callbackWorker) : Path) ++
          ([.outside .userCallback] : Path))) :=
    .joins _ (by decide) (by decide) ⟨[], rfl, hworkers⟩
  simp only [destroyClient, locked, List.cons_append, List.append_assoc, List.nil_append]
  exact ⟨by decide, nofun, by decide, nofun, guard_overflowThreads, hoverflow⟩

/-- Every function takes its mutexes and joins its threads in the order. -/
theorem admits_threads : order.Admits threads where
  calls k f h := by
    cases h with
    | callback h => exact keeps_clientCall h
    | application h => exact (keeps_clientCall h).lower (by decide)
    | connect connected again n => exact keeps_connect connected again n
    | destroyClient n m => exact keeps_destroyClient n m
    | queryWorker h => exact keeps_queryWorkerRound h
    | callbackWorker task => exact keeps_callbackWorkerRound task
  body k := by
    cases k <;> simp [threads, order]

/-- The threads of an application, of its client and of the transactions access `m_requests`,
`m_cb_queue`, `m_overflow_cb_threads` and `m_state` one at a time, and never wait for each other's
mutexes and ends in a circle. -/
theorem orderly_of_reachable {ts : List (Thread Mutex Member Code)}
    (h : threads.system.Reachable ts) : Orderly threads ts :=
  admits_threads.orderly h

/-- One thread sends a statement of a transaction while another one rolls it back. -/
theorem orderly_twoCallers : ∃ ts, WaitsFor ts 1 0 ∧ Orderly threads ts := by
  have hopen : threads.enters .application := rfl
  have h₀ : threads.system.Reachable [] := .of_init rfl
  have h₁ := h₀.next ⟨0, .enter rfl hopen⟩
  have h₂ := h₁.next ⟨1, .enter rfl hopen⟩
  have h₃ := h₂.next ⟨0, .act rfl (.call (.application (.transactionExecute 0 true)))⟩
  have h₄ := h₃.next ⟨1, .act rfl (.call (.application (.rollback 0 true)))⟩
  have h₅ := h₄.next ⟨0, .act rfl (.lock (by simp [threads, Program.thread]))⟩
  exact ⟨_, .mutex rfl rfl List.mem_cons_self, orderly_of_reachable h₅⟩

def Unprotected (ts : List (Thread Mutex Member Code)) (x : Member) : Prop :=
  ∃ (i j : ℕ) (t u : Thread Mutex Member Code) (todo todo' : Path), i ≠ j ∧
    ts[i]? = some t ∧ ts[j]? = some u ∧ t.todo = .access x :: todo ∧ u.todo = .access x :: todo'

/-- A transaction's `m_executor` is read by the thread that ends the transaction while another one
moves it. -/
theorem executor_unprotected (t : ℕ) :
    ∃ ts, threads.system.Reachable ts ∧ Unprotected ts (.executor t) := by
  have hopen : threads.enters .application := rfl
  have h₀ : threads.system.Reachable [] := .of_init rfl
  have h₁ := h₀.next ⟨0, .enter rfl hopen⟩
  have h₂ := h₁.next ⟨1, .enter rfl hopen⟩
  have h₃ := h₂.next ⟨0, .act rfl (.call (.application (.commit t true)))⟩
  have h₄ := h₃.next ⟨1, .act rfl (.call (.application (.moveConstruct t)))⟩
  have h₅ := h₄.next ⟨0, .act rfl (.lock (by simp [threads, Program.thread]))⟩
  have h₆ := h₅.next ⟨0, .act rfl .access⟩
  have h₇ := h₆.next ⟨0, .act rfl .unlock⟩
  have h₈ := h₇.next ⟨1, .act rfl (.lock (by simp [threads, Program.thread]))⟩
  exact ⟨_, h₈, 0, 1, _, _, _, _, by decide, rfl, rfl, rfl, rfl⟩

end PostgresLib.Client.Locks
