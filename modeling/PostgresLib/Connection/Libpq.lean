import PostgresLib.Connection.SqlError
import PostgresLib.Foundations.Traced
import Mathlib.Data.Int.Notation

/-! # The interface of libpq and of the socket

The client library and the operating system are a parameter: a state and, for
each call the program makes, an answer and a next state. A statement is handed
over as a value of any type, and so are results.
-/

namespace PostgresLib.Connection

open Foundations

/-- `PostgresPollingStatusType`. -/
inductive PollingStatus where
  | failed | reading | writing | ok | active
  deriving DecidableEq

/-- `ExecStatusType`. -/
inductive ExecStatus where
  | emptyQuery | commandOk | tuplesOk | copyOut | copyIn | badResponse | nonfatalError
  | fatalError | copyBoth | singleTuple | pipelineSync | pipelineAborted
  deriving DecidableEq

inductive PollEvents where
  | none | input | output
  deriving DecidableEq

/-- What `poll` returns, and whether it sets one of `POLLERR`, `POLLHUP` and `POLLNVAL`. -/
structure PollAnswer where
  result : ℤ
  failed : Bool
  deriving DecidableEq

/-- The calls on the connection, on its socket and on the steady clock. -/
inductive PqCall (δ : Type) where
  | status
  | socket
  | sendQueryParams (statement : δ)
  | errorMessage
  | flush
  | poll (socket : ℤ) (events : PollEvents) (timeout : ℤ)
  | consumeInput
  | isBusy
  | getResult
  | resetStart
  | resetPoll
  | setnonblocking
  | now

/-- The type of the answer to a call; the clock counts nanoseconds. -/
abbrev PqCall.Answer {δ : Type} (ρ : Type) : PqCall δ → Type
  | status => Bool
  | socket => ℤ
  | sendQueryParams _ => ℤ
  | errorMessage => String
  | flush => ℤ
  | poll _ _ _ => PollAnswer
  | consumeInput => ℤ
  | isBusy => Bool
  | getResult => Option ρ
  | resetStart => Bool
  | resetPoll => PollingStatus
  | setnonblocking => ℤ
  | now => ℤ

/-- A behaviour of libpq, the socket and the clock. -/
structure Libpq (σ δ ρ : Type) where
  call : (c : PqCall δ) → σ → c.Answer ρ × σ
  resultStatus : ρ → ExecStatus
  resultErrorMessage : ρ → String

/-- A call that was made, its answer, and the states around it. -/
structure Event (σ δ ρ : Type) where
  call : PqCall δ
  answer : call.Answer ρ
  before : σ
  after : σ

variable {σ δ ρ : Type}

abbrev Pq (σ δ ρ : Type) := Traced σ (Event σ δ ρ)

variable (lib : Libpq σ δ ρ)

def perform (c : PqCall δ) : Pq σ δ ρ (c.Answer ρ) := fun s =>
  ⟨some (lib.call c s).1, [⟨c, (lib.call c s).1, s, (lib.call c s).2⟩], (lib.call c s).2⟩

/-- `PQstatus(conn) == CONNECTION_OK`. -/
def pqStatusOk : Pq σ δ ρ Bool := perform lib .status

def pqSocket : Pq σ δ ρ ℤ := perform lib .socket

def pqSendQueryParams (statement : δ) : Pq σ δ ρ ℤ := perform lib (.sendQueryParams statement)

def pqErrorMessage : Pq σ δ ρ String := perform lib .errorMessage

def pqFlush : Pq σ δ ρ ℤ := perform lib .flush

def poll (socket : ℤ) (events : PollEvents) (timeout : ℤ) : Pq σ δ ρ PollAnswer :=
  perform lib (.poll socket events timeout)

def pqConsumeInput : Pq σ δ ρ ℤ := perform lib .consumeInput

def pqIsBusy : Pq σ δ ρ Bool := perform lib .isBusy

def pqGetResult : Pq σ δ ρ (Option ρ) := perform lib .getResult

def pqResetStart : Pq σ δ ρ Bool := perform lib .resetStart

def pqResetPoll : Pq σ δ ρ PollingStatus := perform lib .resetPoll

def pqSetnonblocking : Pq σ δ ρ ℤ := perform lib .setnonblocking

/-- `std::chrono::steady_clock::now()`. -/
def steadyNow : Pq σ δ ρ ℤ := perform lib .now

/-- Events that happen one after the other, from one state to another. -/
def Chain : σ → List (Event σ δ ρ) → σ → Prop
  | s, [], s' => s' = s
  | s, e :: es, s' => e.before = s ∧ lib.call e.call s = (e.answer, e.after) ∧ Chain e.after es s'

theorem chain_append {s s'' : σ} {es es' : List (Event σ δ ρ)} :
    Chain lib s (es ++ es') s'' ↔ ∃ s', Chain lib s es s' ∧ Chain lib s' es' s'' := by
  induction es generalizing s with
  | nil => simp [Chain]
  | cons e es ih =>
    simp only [List.cons_append, Chain, ih]
    constructor
    · rintro ⟨hbefore, hcall, s', hes, hes'⟩
      exact ⟨s', ⟨hbefore, hcall, hes⟩, hes'⟩
    · rintro ⟨s', ⟨hbefore, hcall, hes⟩, hes'⟩
      exact ⟨hbefore, hcall, s', hes, hes'⟩

theorem chain_compositional : Traced.Compositional (Chain lib) where
  nil _ := rfl
  append _ _ s' _ _ h h' := (chain_append lib).mpr ⟨s', h, h'⟩

theorem chain_perform (c : PqCall δ) : Traced.Follows (Chain lib) (perform lib c) :=
  ⟨fun _ => ⟨rfl, rfl, rfl⟩⟩

/-- A call always has an answer, so only what follows it has to be looked at. -/
theorem emits_perform_bind {α : Type} {c : PqCall δ} {f : c.Answer ρ → Pq σ δ ρ α}
    {Q : Option α → List (Event σ δ ρ) → Prop}
    (h : ∀ a before after, Traced.Emits (f a) fun r es => Q r (⟨c, a, before, after⟩ :: es)) :
    Traced.Emits (perform lib c >>= f) Q :=
  ⟨fun s => (h (lib.call c s).1 s (lib.call c s).2).run _⟩

end PostgresLib.Connection
