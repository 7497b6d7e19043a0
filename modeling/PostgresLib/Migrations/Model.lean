import PostgresLib.Client.Linearizable
import PostgresLib.Connection.ErrorTexts
import PostgresLib.SqlParser.Splitter
import PostgresLib.Wire.Encoding

/-! # Migrations

`Migrate` reads a file, takes a client from the pool and executes the statements of the
file one after the other; it waits for the result of each and stops at the first error.
Here it is one more thread beside those that use the client, whatever these do.
-/

namespace PostgresLib.Migrations

open Foundations Connection Client Wire
open Pool (ConnectionError)
open SqlParser (parseStatements)
open Transaction (query)

/-- Where `Migrate` is: before it has opened the file, with the statements before `acquire`, with
those that are still to be executed, waiting for the result of a request, or back. -/
inductive Phase where
  | opening
  | acquiring (statements : List (List Char))
  | executing (rest : List (List Char))
  | waiting (id : ℕ) (rest : List (List Char))
  | returned (error : MigrationError)

/-- What `client->execute(stmt)` enqueues. -/
def statementDetail (stmt : List Char) : PgParamDetail :=
  .ofQuery (query (String.ofList stmt)) 0

theorem makePgParamBuffer_statement (native : Endian) (stmt : List Char) :
    makePgParamBuffer native (query (String.ofList stmt)) [] = .ok (statementDetail stmt) := rfl

/-- The client, where `Migrate` is, and the identities of the requests it has made. -/
structure Migration (σ ρ : Type) where
  client : PostgresClient σ ρ
  phase : Phase
  sent : List ℕ

/-- The statements of the file; none when it cannot be opened. -/
def statements (file : Option (List Char)) : List (List Char) := (file.map parseStatements).getD []

def fileError : SqlError := .sqlFileError "Failed to open sql file"

variable {σ ρ : Type} (lib : Libpq σ Submission ρ) (heartbeatEnabled : Bool) (callbackThreads : ℕ)
  (file : Option (List Char))

/-- A step of `Migrate`, or of anything else on the client. -/
inductive Step : Migration σ ρ → Migration σ ρ → Prop
  | other {m c'} (h : Client.Step lib heartbeatEnabled callbackThreads m.client c') :
      Step m { m with client := c' }
  | openFailed {m} (h : m.phase = .opening) (hfile : file = none) :
      Step m { m with phase := .returned (.ofSql fileError) }
  | parse {m} {sql : List Char} (h : m.phase = .opening) (hfile : file = some sql) :
      Step m { m with phase := .acquiring (parseStatements sql) }
  | notAcquired {m} {stmts : List (List Char)} (h : m.phase = .acquiring stmts)
      (e : ConnectionError) : Step m { m with phase := .returned (.ofConnection e) }
  | acquired {m} {stmts : List (List Char)} (h : m.phase = .acquiring stmts) :
      Step m { m with phase := .executing stmts }
  | execute {m} {stmt : List Char} {rest : List (List Char)}
      (h : m.phase = .executing (stmt :: rest)) (haccepts : m.client.Accepts) :
      Step m
        { client := m.client.push (m.client.next (statementDetail stmt) true .client)
          phase := .waiting m.client.pushed.length rest
          sent := m.sent ++ [m.client.pushed.length] }
  | succeeded {m} {id : ℕ} {rest : List (List Char)} {result : ρ}
      (h : m.phase = .waiting id rest) (hanswer : ⟨id, .ok result⟩ ∈ m.client.invoked) :
      Step m { m with phase := .executing rest }
  | failed {m} {id : ℕ} {rest : List (List Char)} {e : SqlError}
      (h : m.phase = .waiting id rest) (hanswer : ⟨id, .error e⟩ ∈ m.client.invoked) :
      Step m { m with phase := .returned (.ofSql e) }
  | done {m} (h : m.phase = .executing []) : Step m { m with phase := .returned .none }

/-- `Migrate` is called in any state of a client. -/
def system : TransitionSystem (Migration σ ρ) where
  init m := (Client.system lib heartbeatEnabled callbackThreads).Reachable m.client ∧
    m.phase = .opening ∧ m.sent = []
  step := Step lib heartbeatEnabled callbackThreads file

/-- The requests of the migration, executed or not. -/
def Migration.requests (m : Migration σ ρ) : List Request :=
  m.client.pushed.filter fun r => r.id ∈ m.sent

/-- The requests of the migration that were executed, in that order. -/
def Migration.executed (m : Migration σ ρ) : List Request :=
  m.client.executed.filter fun r => r.id ∈ m.sent

def Ended (c : PostgresClient σ ρ) (r : Request) (outcome : Except SqlError ρ) : Prop :=
  ∃ x ∈ c.executions, x.submission = .request r ∧ (x.ending lib).result = some outcome

structure AllSucceeded (m : Migration σ ρ) : Prop where
  executed : m.executed.map (·.detail) = (statements file).map statementDetail
  succeeded : ∀ r ∈ m.executed, ∃ result, Ended lib m.client r (.ok result)

/-- The last request was the first that did not succeed: its execution failed, or the worker stopped
before it was executed. -/
structure FailedFirst (m : Migration σ ρ) (r : Request) (e : SqlError) : Prop where
  last : m.requests.getLast? = some r
  before : ∀ q ∈ m.requests.dropLast, ∃ result, Ended lib m.client q (.ok result)
  error : Ended lib m.client r (.error e) ∨
    r ∉ m.client.executed ∧ m.client.stopRequested = true ∧ e = workerStopped

/-- What holds of a migration at any time. The statements that were executed are the first ones of
the file, in its order; all but the last of them have succeeded. Unless the pool refuses it a client
it returns without an error exactly when the file was opened and all its statements were executed
and succeeded. It returns with an error of the pool before it has made any request, with that of the
file when this cannot be opened, and otherwise with that of the first statement that failed. -/
structure Migrated (m : Migration σ ρ) : Prop where
  inOrder : m.executed.map (·.detail) <+: (statements file).map statementDetail
  succeeded : ∀ r ∈ m.executed.dropLast, ∃ result, Ended lib m.client r (.ok result)
  complete : ∀ error, m.phase = .returned error → (∀ e, error ≠ .ofConnection e) →
    (error = .none ↔ file.isSome ∧ AllSucceeded lib file m)
  refused : ∀ e, m.phase = .returned (.ofConnection e) → file.isSome ∧ m.requests = []
  failed : ∀ e, m.phase = .returned (.ofSql e) →
    (file = none ∧ e = fileError ∧ m.requests = []) ∨
      file.isSome ∧ ∃ r, FailedFirst lib m r e

end PostgresLib.Migrations
