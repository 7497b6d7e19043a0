import PostgresLib.Connection.Libpq

/-! # The execution of one statement, as the source computes it

Every loop takes fuel for its rounds; a computation that runs out of it has no
result. The connection pointer of a connected client is never null.
-/

namespace PostgresLib.Connection

open Foundations Traced

variable {σ δ ρ : Type} (lib : Libpq σ δ ρ)

def isConnected : Pq σ δ ρ Bool := pqStatusOk lib

/-- The events `AttemptReconnect` polls for. -/
def reconnectEvents : PollingStatus → PollEvents
  | .reading => .input
  | .writing => .output
  | _ => .none

/-- The loop of `AttemptReconnect`. On a steady clock `remaining` is at most the timeout, and the
5000 milliseconds of the callers fit the `int` that it is cast to. -/
def reconnectLoop (deadline : ℤ) : ℕ → Pq σ δ ρ (Option SqlError)
  | 0 => outOfFuel
  | fuel + 1 => do
    let now ← steadyNow lib
    if deadline ≤ now then return some (.failedToReconnect "timeout")
    else do
      let st ← pqResetPoll lib
      if st = .ok then do
        let nonblocking ← pqSetnonblocking lib
        if nonblocking ≠ 0 then do
          let err ← pqErrorMessage lib
          return some (.failedToReconnect err)
        else return none
      else if st = .failed then return some (.failedToReconnect "PQresetPoll failed")
      else do
        let sock ← pqSocket lib
        if sock < 0 then return some (.failedToReconnect "PQsocket failed")
        else do
          let remaining := (deadline - now).tdiv 1000000
          let pfd ← poll lib sock (reconnectEvents st) remaining
          if pfd.result ≤ 0 then return some (.failedToReconnect "poll failed")
          else if pfd.failed then return some (.failedToReconnect "socket error")
          else reconnectLoop deadline fuel

/-- `AttemptReconnect`, with the timeout in milliseconds. -/
def attemptReconnect (timeout : ℤ) (fuel : ℕ) : Pq σ δ ρ (Option SqlError) := do
  let started ← pqResetStart lib
  if !started then return some (.failedToReconnect "PQresetStart failed")
  else do
    let now ← steadyNow lib
    reconnectLoop lib (now + timeout * 1000000) fuel

def checkForPollOut (socket : ℤ) : ℕ → Pq σ δ ρ (Except SqlError Unit)
  | 0 => outOfFuel
  | fuel + 1 => do
    let flush ← pqFlush lib
    if flush < 0 then return .error (.socketFailed "failed to flush socket")
    else if flush = 0 then return .ok ()
    else do
      let pfd ← poll lib socket .output 5000
      if pfd.result < 0 then return .error (.socketFailed "Pollout event failed")
      else if pfd.result = 0 then return .error (.socketFailed "socket timed out")
      else if pfd.failed then return .error (.socketFailed "Socket failed")
      else checkForPollOut socket fuel

def checkForPollIn (socket : ℤ) : ℕ → Pq σ δ ρ (Except SqlError Unit)
  | 0 => outOfFuel
  | fuel + 1 => do
    let pfd ← poll lib socket .input 5000
    if pfd.result < 0 then return .error (.socketFailed "failed to poll socket")
    else if pfd.result = 0 then return .error (.socketFailed "socket timed out")
    else do
      let consumed ← pqConsumeInput lib
      if consumed = 0 then do
        let err ← pqErrorMessage lib
        return .error (.badConnection err)
      else do
        let busy ← pqIsBusy lib
        if busy then checkForPollIn socket fuel
        else return .ok ()

/-- The inner loop of `ConsumeResult`: read the results after an error. -/
def drainResults : ℕ → Pq σ δ ρ Unit
  | 0 => outOfFuel
  | fuel + 1 => do
    let r ← pqGetResult lib
    match r with
    | some _ => drainResults fuel
    | none => return ()

/-- `ConsumeResult`, with the result kept so far. -/
def consumeResult (result : Option ρ) : ℕ → Pq σ δ ρ (Except SqlError ρ)
  | 0 => outOfFuel
  | fuel + 1 => do
    let r ← pqGetResult lib
    match r with
    | some r =>
      if lib.resultStatus r = .tuplesOk ∨ lib.resultStatus r = .commandOk then
        consumeResult (some (result.getD r)) fuel
      else do
        drainResults lib fuel
        return .error (.queryFailed (lib.resultErrorMessage r))
    | none =>
      match result with
      | none => return .error (.queryFailed "no results received")
      | some result => return .ok result

/-- `ExecuteQuery`, once the statement was accepted. -/
def awaitResult (socket : ℤ) (fuel : ℕ) : Pq σ δ ρ (Except SqlError ρ) := do
  let pollOut ← checkForPollOut lib socket fuel
  match pollOut with
  | .error e => return .error e
  | .ok () => do
    let pollIn ← checkForPollIn lib socket fuel
    match pollIn with
    | .error e => return .error e
    | .ok () => consumeResult lib none fuel

def executeQuery (statement : δ) (fuel : ℕ) : Pq σ δ ρ (Except SqlError ρ) := do
  let sock ← pqSocket lib
  if sock < 0 then return .error (.socketFailed "failed to get socket")
  else do
    let ok ← pqSendQueryParams lib statement
    if ok = 0 then do
      let msg ← pqErrorMessage lib
      return .error (.badConnection msg)
    else awaitResult lib sock fuel

/-- The reconnect before an attempt, when the connection looks lost. -/
def reconnectIfLost (timeout : ℤ) (fuel : ℕ) : Pq σ δ ρ (Option SqlError) := do
  let connected ← isConnected lib
  if connected then return none else attemptReconnect lib timeout fuel

/-- The loop of `ExecuteWithRetry`: the attempts that are left, and the number of the next. -/
def executeAttempts (statement : δ) (timeout : ℤ) (fuel : ℕ) :
    ℕ → ℕ → Pq σ δ ρ (Except SqlError ρ)
  | 0, _ => return .error (.queryFailed "unreachable")
  | left + 1, attempts => do
    let lost ← reconnectIfLost lib timeout fuel
    match lost with
    | some e => return .error e
    | none => do
      let res ← executeQuery lib statement fuel
      match res with
      | .ok r => return .ok r
      | .error err =>
        if err.type = .badConnection ∧ attempts = 1 then do
          let lost ← attemptReconnect lib timeout fuel
          match lost with
          | some e => return .error e
          | none => executeAttempts statement timeout fuel left (attempts + 1)
        else return .error err

def executeWithRetry (statement : δ) (timeout : ℤ) (fuel : ℕ) : Pq σ δ ρ (Except SqlError ρ) :=
  executeAttempts lib statement timeout fuel 2 1

/-! ## What an execution follows -/

def PqCall.Reconnects : PqCall δ → Prop
  | resetStart | resetPoll | setnonblocking | errorMessage | socket | poll _ _ _ | now => True
  | _ => False

/-- The calls `CheckForPollOut` and `CheckForPollIn` make. -/
def PqCall.Waits : PqCall δ → Prop
  | flush | poll _ _ _ | consumeInput | isBusy | errorMessage => True
  | _ => False

def PqCall.Executes (statement : δ) : PqCall δ → Prop
  | sendQueryParams d => d = statement
  | _ => True

theorem PqCall.Reconnects.executes {statement : δ} {c : PqCall δ} (h : c.Reconnects) :
    c.Executes statement := by
  cases c with
  | sendQueryParams d => cases h
  | _ => trivial

theorem PqCall.Waits.executes {statement : δ} {c : PqCall δ} (h : c.Waits) :
    c.Executes statement := by
  cases c with
  | sendQueryParams d => cases h
  | _ => trivial

section Follows

variable {P : σ → List (Event σ δ ρ) → σ → Prop} (hP : Compositional P)
include hP

theorem reconnectLoop_follows (hcall : ∀ c : PqCall δ, c.Reconnects → Follows P (perform lib c))
    (deadline : ℤ) (fuel : ℕ) : Follows P (reconnectLoop lib deadline fuel) := by
  induction fuel with
  | zero => exact .outOfFuel hP
  | succ fuel ih =>
    apply Follows.bind hP (hcall .now trivial)
    intro now
    apply Follows.ite (.pure hP _)
    apply Follows.bind hP (hcall .resetPoll trivial)
    intro st
    apply Follows.ite
    · apply Follows.bind hP (hcall .setnonblocking trivial)
      intro nonblocking
      apply Follows.ite _ (.pure hP _)
      exact Follows.bind hP (hcall .errorMessage trivial) fun _ => .pure hP _
    · apply Follows.ite (.pure hP _)
      apply Follows.bind hP (hcall .socket trivial)
      intro sock
      apply Follows.ite (.pure hP _)
      apply Follows.bind hP (hcall (.poll _ _ _) trivial)
      intro pfd
      exact Follows.ite (.pure hP _) (Follows.ite (.pure hP _) ih)

theorem attemptReconnect_follows (hcall : ∀ c : PqCall δ, c.Reconnects → Follows P (perform lib c))
    (timeout : ℤ) (fuel : ℕ) : Follows P (attemptReconnect lib timeout fuel) := by
  apply Follows.bind hP (hcall .resetStart trivial)
  intro started
  apply Follows.ite (.pure hP _)
  apply Follows.bind hP (hcall .now trivial)
  intro now
  exact reconnectLoop_follows lib hP hcall _ fuel

theorem reconnectIfLost_follows {timeout : ℤ} {fuel : ℕ} (hstatus : Follows P (perform lib .status))
    (hreconnect : Follows P (attemptReconnect lib timeout fuel)) :
    Follows P (reconnectIfLost lib timeout fuel) := by
  apply Follows.bind hP hstatus
  intro connected
  exact Follows.ite (.pure hP _) hreconnect

theorem drainResults_follows (hcall : Follows P (perform lib .getResult)) (fuel : ℕ) :
    Follows P (drainResults lib fuel) := by
  induction fuel with
  | zero => exact .outOfFuel hP
  | succ fuel ih =>
    apply Follows.bind hP hcall
    intro r
    cases r with
    | some r => exact ih
    | none => exact .pure hP _

theorem consumeResult_follows (hcall : Follows P (perform lib .getResult)) (result : Option ρ)
    (fuel : ℕ) : Follows P (consumeResult lib result fuel) := by
  induction fuel generalizing result with
  | zero => exact .outOfFuel hP
  | succ fuel ih =>
    apply Follows.bind hP hcall
    intro r
    cases r with
    | some r =>
      apply Follows.ite (ih _)
      exact Follows.bind hP (drainResults_follows lib hP hcall fuel) fun _ => .pure hP _
    | none =>
      cases result with
      | none => exact .pure hP _
      | some result => exact .pure hP _

theorem checkForPollOut_follows (hcall : ∀ c : PqCall δ, c.Waits → Follows P (perform lib c))
    (socket : ℤ) (fuel : ℕ) : Follows P (checkForPollOut lib socket fuel) := by
  induction fuel with
  | zero => exact .outOfFuel hP
  | succ fuel ih =>
    apply Follows.bind hP (hcall .flush trivial)
    intro flush
    apply Follows.ite (.pure hP _)
    apply Follows.ite (.pure hP _)
    apply Follows.bind hP (hcall (.poll _ _ _) trivial)
    intro pfd
    apply Follows.ite (.pure hP _)
    apply Follows.ite (.pure hP _)
    exact Follows.ite (.pure hP _) ih

theorem checkForPollIn_follows (hcall : ∀ c : PqCall δ, c.Waits → Follows P (perform lib c))
    (socket : ℤ) (fuel : ℕ) : Follows P (checkForPollIn lib socket fuel) := by
  induction fuel with
  | zero => exact .outOfFuel hP
  | succ fuel ih =>
    apply Follows.bind hP (hcall (.poll _ _ _) trivial)
    intro pfd
    apply Follows.ite (.pure hP _)
    apply Follows.ite (.pure hP _)
    apply Follows.bind hP (hcall .consumeInput trivial)
    intro consumed
    apply Follows.ite
    · exact Follows.bind hP (hcall .errorMessage trivial) fun _ => .pure hP _
    · apply Follows.bind hP (hcall .isBusy trivial)
      intro busy
      exact Follows.ite ih (.pure hP _)

theorem awaitResult_follows (hcall : ∀ c : PqCall δ, c.Waits → Follows P (perform lib c))
    (hresult : Follows P (perform lib .getResult)) (socket : ℤ) (fuel : ℕ) :
    Follows P (awaitResult lib socket fuel) := by
  apply Follows.bind hP (checkForPollOut_follows lib hP hcall _ _)
  intro pollOut
  cases pollOut with
  | error e => exact .pure hP _
  | ok u =>
    apply Follows.bind hP (checkForPollIn_follows lib hP hcall _ _)
    intro pollIn
    cases pollIn with
    | error e => exact .pure hP _
    | ok u => exact consumeResult_follows lib hP hresult none fuel

variable {statement : δ}
  (hcall : ∀ c : PqCall δ, c.Executes statement → Follows P (perform lib c))
include hcall

theorem executeQuery_follows (fuel : ℕ) : Follows P (executeQuery lib statement fuel) := by
  apply Follows.bind hP (hcall .socket trivial)
  intro sock
  apply Follows.ite (.pure hP _)
  apply Follows.bind hP (hcall (.sendQueryParams statement) rfl)
  intro ok
  apply Follows.ite
  · exact Follows.bind hP (hcall .errorMessage trivial) fun _ => .pure hP _
  · exact awaitResult_follows lib hP (fun c hc => hcall c hc.executes)
      (hcall .getResult trivial) _ _

theorem executeAttempts_follows (timeout : ℤ) (fuel left attempts : ℕ) :
    Follows P (executeAttempts lib statement timeout fuel left attempts) := by
  have hreconnect : Follows P (attemptReconnect lib timeout fuel) :=
    attemptReconnect_follows lib hP (fun c hc => hcall c hc.executes) _ _
  induction left generalizing attempts with
  | zero => exact .pure hP _
  | succ left ih =>
    apply Follows.bind hP (reconnectIfLost_follows lib hP (hcall .status trivial) hreconnect)
    intro lost
    cases lost with
    | some e => exact .pure hP _
    | none =>
      apply Follows.bind hP (executeQuery_follows lib hP hcall fuel)
      intro res
      cases res with
      | ok r => exact .pure hP _
      | error err =>
        apply Follows.ite _ (.pure hP _)
        apply Follows.bind hP hreconnect
        intro lost
        cases lost with
        | some e => exact .pure hP _
        | none => exact ih _

/-- What every call of the statement's execution follows, the whole execution follows. -/
theorem executeWithRetry_follows (timeout : ℤ) (fuel : ℕ) :
    Follows P (executeWithRetry lib statement timeout fuel) :=
  executeAttempts_follows lib hP hcall timeout fuel 2 1

end Follows

end PostgresLib.Connection
