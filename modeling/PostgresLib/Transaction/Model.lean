import PostgresLib.Connection.SqlError
import PostgresLib.Foundations.ThreadPool
import PostgresLib.Wire.Values

/-! # Transaction objects and the calls on them

A transaction is the object `create_transaction` makes and the objects that move
constructions take it over into. A thread is a call on one of them. What a call
does while it holds the mutex of its object is one step; `commit`, `rollback` and
the destructor enqueue their command in a step of its own, after the mutex.
-/

namespace PostgresLib.Transaction

open Foundations Connection Wire

inductive State where
  | active | commit | rollback
  deriving DecidableEq

/-- A transaction object: `m_state`, whether `m_executor` is not null, and where the object is in
its life. -/
structure Object where
  state : State
  executor : Bool
  moving : Bool
  closing : Bool
  destroyed : Bool
  deriving DecidableEq

namespace Object

/-- An object as a constructor leaves it. -/
def constructed (state : State) (executor : Bool) : Object where
  state := state
  executor := executor
  moving := false
  closing := false
  destroyed := false

end Object

inductive Op where
  | execute (detail : PgParamDetail)
  | executeAsync (detail : PgParamDetail)
  | commit
  | rollback
  | destroy
  deriving DecidableEq

inductive Command where
  | statement (detail : PgParamDetail)
  | terminator (detail : PgParamDetail)
  deriving DecidableEq

def query (text : String) : Bytes := text.toUTF8.toList

namespace Op

/-- `execute` and `execute_async`. -/
def isStatement : Op → Bool
  | execute _ | executeAsync _ => true
  | _ => false

def endState : Op → State
  | commit => .commit
  | _ => .rollback

def command : Op → Command
  | execute detail | executeAsync detail => .statement detail
  | commit => .terminator (.ofQuery (query "COMMIT") 0)
  | rollback | destroy => .terminator (.ofQuery (query "ROLLBACK") 0)

end Op

namespace Command

def isTerminator : Command → Bool
  | terminator _ => true
  | statement _ => false

end Command

/-- A command in the executor's queue, with the call that enqueued it. -/
structure Entry where
  call : ℕ
  command : Command
  deriving DecidableEq

inductive Creation where
  | pending | returned | dropped
  deriving DecidableEq

/-- All objects of the transaction, the commands the executor's queue has received, the calls that
found the state not active, and the answers they were given. -/
structure Shared where
  creation : Creation
  objects : List Object
  queue : List Entry
  refused : List ℕ
  answers : List (ℕ × SqlError)
  nextCall : ℕ

/-- Where a call is: about to take the mutex, about to enqueue, waiting for its future, about to
call `on_error`, or about to take the mutex of the object it moves from. -/
inductive Thread where
  | creating
  | beginning
  | start (i call : ℕ) (op : Op)
  | sending (i call : ℕ) (op : Op)
  | waiting (i call : ℕ) (op : Op)
  | answering (i call : ℕ)
  | moving (i : ℕ)
  | returned
  deriving DecidableEq

def Thread.object : Thread → Option ℕ
  | creating | beginning => some 0
  | start i _ _ | sending i _ _ | waiting i _ _ | answering i _ | moving i => some i
  | returned => none

/-- `execute("BEGIN")`, with which `create_transaction` starts. -/
def beginEntry : Entry := ⟨0, (Op.execute (.ofQuery (query "BEGIN") 0)).command⟩

namespace Shared

def setObject (s : Shared) (i : ℕ) (o : Object) : Shared := { s with objects := s.objects.set i o }

def enqueue (s : Shared) (e : Entry) : Shared := { s with queue := s.queue ++ [e] }

def refuse (s : Shared) (call : ℕ) : Shared := { s with refused := s.refused ++ [call] }

def answer (s : Shared) (call : ℕ) (e : SqlError) : Shared :=
  { s with answers := s.answers ++ [(call, e)] }

def takeCall (s : Shared) : Shared := { s with nextCall := s.nextCall + 1 }

end Shared

inductive Act : Shared → Thread → Shared → Thread → Prop
  | create {s} : Act s .creating (s.enqueue beginEntry) .beginning
  | created {s} : Act s .beginning { s with creation := .returned } .returned
  | notCreated {s} : Act s .beginning { s with creation := .dropped } .returned
  | execute {s i call op o} (ho : s.objects[i]? = some o) (hop : op.isStatement = true)
      (hstate : o.state = .active) (hexecutor : o.executor = true) :
      Act s (.start i call op) (s.enqueue ⟨call, op.command⟩) .returned
  -- a call through the null `m_executor`: undefined, and nothing is enqueued
  | executeNull {s i call op o} (ho : s.objects[i]? = some o) (hop : op.isStatement = true)
      (hstate : o.state = .active) (hexecutor : o.executor = false) :
      Act s (.start i call op) s .returned
  | refuse {s i call detail o} (ho : s.objects[i]? = some o) (hstate : o.state ≠ .active) :
      Act s (.start i call (.execute detail))
        ((s.refuse call).answer call .transactionRolledBack) .returned
  | refuseAsync {s i call detail o} (ho : s.objects[i]? = some o) (hstate : o.state ≠ .active) :
      Act s (.start i call (.executeAsync detail)) (s.refuse call) (.answering i call)
  | onError {s i call} :
      Act s (.answering i call) (s.answer call .transactionRolledBack) .returned
  | leave {s i call op o} (ho : s.objects[i]? = some o) (hop : op = .commit ∨ op = .rollback)
      (hstate : o.state ≠ .active) : Act s (.start i call op) s .returned
  | terminate {s i call op o} (ho : s.objects[i]? = some o) (hop : op = .commit ∨ op = .rollback)
      (hstate : o.state = .active) :
      Act s (.start i call op) (s.setObject i { o with state := op.endState }) (.sending i call op)
  | rollBack {s i call o} (ho : s.objects[i]? = some o)
      (hstate : o.state = .active ∧ o.executor = true) :
      Act s (.start i call .destroy) (s.setObject i { o with state := .rollback })
        (.sending i call .destroy)
  | destroyOnly {s i call o} (ho : s.objects[i]? = some o)
      (hstate : ¬ (o.state = .active ∧ o.executor = true)) :
      Act s (.start i call .destroy) (s.setObject i { o with destroyed := true }) .returned
  | send {s i call op o} (ho : s.objects[i]? = some o) (hexecutor : o.executor = true) :
      Act s (.sending i call op) (s.enqueue ⟨call, op.command⟩) (.waiting i call op)
  -- again a call through the null `m_executor`
  | sendNull {s i call op o} (ho : s.objects[i]? = some o) (hexecutor : o.executor = false) :
      Act s (.sending i call op) s .returned
  | answered {s i call op} (hop : op ≠ .destroy) : Act s (.waiting i call op) s .returned
  | destroyed {s i call o} (ho : s.objects[i]? = some o) :
      Act s (.waiting i call .destroy) (s.setObject i { o with destroyed := true }) .returned
  | move {s i o} (ho : s.objects[i]? = some o) :
      Act s (.moving i)
        { s with objects := s.objects.set i { o with executor := false } ++
          [Object.constructed o.state o.executor] } .returned

/-- A call begins. After a move construction the source is only destroyed, and an object is
destroyed when all other calls on it have returned. -/
inductive Spawn : Shared → List Thread → Shared → Thread → Prop
  | call {s ts i op o} (hcreated : s.creation = .returned) (ho : s.objects[i]? = some o)
      (hsource : o.executor = true) (hopen : o.closing = false) (hop : op ≠ .destroy) :
      Spawn s ts s.takeCall (.start i s.nextCall op)
  | move {s ts i o} (hcreated : s.creation = .returned) (ho : s.objects[i]? = some o)
      (hsource : o.executor = true) (hopen : o.closing = false) (honce : o.moving = false) :
      Spawn s ts (s.setObject i { o with moving := true }) (.moving i)
  | destroy {s ts i o} (hcreated : s.creation ≠ .pending) (ho : s.objects[i]? = some o)
      (hopen : o.closing = false) (hidle : ∀ t ∈ ts, t.object ≠ some i) :
      Spawn s ts (s.setObject i { o with closing := true }).takeCall
        (.start i s.nextCall .destroy)

/-- `create_transaction` has constructed the object and is about to execute `BEGIN`. -/
def start : Config Shared Thread where
  shared :=
    { creation := .pending
      objects := [Object.constructed .active true]
      queue := []
      refused := []
      answers := []
      nextCall := 1 }
  threads := [.creating]

def system : TransitionSystem (Config Shared Thread) where
  init c := c = start
  step := Interleave Act Spawn

/-- The number of `COMMIT` and `ROLLBACK` commands that were enqueued. -/
def terminators (queue : List Entry) : ℕ := queue.countP fun e => e.command.isTerminator

def answersOf (s : Shared) (call : ℕ) : List (ℕ × SqlError) :=
  s.answers.filter fun a => a.1 = call

/-- What holds of a transaction at any time after `create_transaction` has returned it. -/
structure Protocol (c : Config Shared Thread) : Prop where
  beginFirst : c.shared.queue.head? = some beginEntry
  atMostOne : terminators c.shared.queue ≤ 1
  exactlyOne : (∀ o ∈ c.shared.objects, o.destroyed = true) → terminators c.shared.queue = 1
  statementsFirst : ∃ statements ends, c.shared.queue = statements ++ ends ∧
    (∀ e ∈ statements, e.command.isTerminator = false) ∧
    ∀ e ∈ ends, e.command.isTerminator = true
  refusedSilent : ∀ call ∈ c.shared.refused, ∀ e ∈ c.shared.queue, e.call ≠ call
  refusedAnswered : ∀ call ∈ c.shared.refused,
    answersOf c.shared call = [(call, .transactionRolledBack)] ∨
      answersOf c.shared call = [] ∧ ∃ i, .answering i call ∈ c.threads

/-- An object that is not active stays as it is. -/
def StateKept (s s' : Shared) : Prop :=
  ∀ (i : ℕ) (o : Object), s.objects[i]? = some o → o.state ≠ .active →
    ∃ o', s'.objects[i]? = some o' ∧ o'.state = o.state

/-- A call on object `i` that will still use `m_executor`. -/
def Thread.NeedsExecutor (s : Shared) (i : ℕ) : Thread → Prop
  | start j _ op => j = i ∧ op ≠ .destroy ∧ ∃ o, s.objects[i]? = some o ∧ o.state = .active
  | sending j _ _ => j = i
  | _ => False

def TakesExecutor (s s' : Shared) (i : ℕ) : Prop :=
  ∃ o o' : Object, s.objects[i]? = some o ∧ s'.objects[i]? = some o' ∧
    o.executor = true ∧ o'.executor = false

/-- The runs in which a move construction takes the executor only when no call needs it. -/
def settledRuns : TransitionSystem (Config Shared Thread) :=
  system.guarded fun c c' => ∀ i, TakesExecutor c.shared c'.shared i →
    ∀ t ∈ c.threads, ¬ t.NeedsExecutor c.shared i

end PostgresLib.Transaction
