import PostgresLib.Connection.Attribution
import PostgresLib.Connection.Sessions

/-! # A server whose connection is lost at chosen tests

It answers every statement with one result, which names the statement. What
`PQstatus` finds is given in advance; a reset always succeeds.
-/

namespace PostgresLib.Connection

variable {δ : Type}

/-- The statement in flight, whether its result was read, the number of the session, and what the
next tests of `PQstatus` find; after these the connection is up. -/
structure Server (δ : Type) where
  inFlight : Option δ
  read : Bool
  session : ℕ
  statuses : List Bool
  deriving DecidableEq

def Server.fresh (statuses : List Bool) : Server δ where
  inFlight := none
  read := false
  session := 0
  statuses := statuses

def server : Libpq (Server δ) δ δ where
  call
    | .status, s => (s.statuses.headD true, { s with statuses := s.statuses.tail })
    | .socket, s => (3, s)
    | .sendQueryParams d, s =>
      if s.inFlight.isNone then (1, { s with inFlight := some d, read := false }) else (0, s)
    | .errorMessage, s => ("another command is already in progress", s)
    | .flush, s => (0, s)
    | .poll _ _ _, s => (⟨1, false⟩, s)
    | .consumeInput, s => (1, s)
    | .isBusy, s => (false, s)
    | .getResult, s =>
      match s.inFlight, s.read with
      | some d, false => (some d, { s with read := true })
      | _, _ => (none, { s with inFlight := none, read := false })
    | .resetStart, s => (true, { s with inFlight := none, read := false })
    | .resetPoll, s => (.ok, { s with session := s.session + 1 })
    | .setnonblocking, s => (0, s)
    | .now, s => (0, s)
  resultStatus _ := .tuplesOk
  resultErrorMessage _ := ""

theorem server_attribution : Attribution (server : Libpq (Server δ) δ δ) Server.inFlight id where
  accepted d s h := by
    cases hs : s.inFlight with
    | none => simp [server, hs]
    | some d' => simp [server, hs] at h
  refused d s h := by
    cases hs : s.inFlight with
    | none => simp [server, hs] at h
    | some d' => simp [server, hs]
  result s r h := by
    cases hs : s.inFlight <;> cases hread : s.read <;> simp_all [server]
  keeps c s h := by
    cases c with
    | sendQueryParams d => cases h
    | getResult => cases h
    | resetStart => cases h
    | resetPoll => cases h
    | _ => rfl

theorem server_sessionNumbers : SessionNumbers (server : Libpq (Server δ) δ δ) Server.session where
  replaced s _ := Nat.lt_succ_self s.session
  pending s h := absurd rfl h
  kept c s h := by
    cases c with
    | sendQueryParams d => cases hs : s.inFlight <;> simp [server, hs]
    | getResult => cases hs : s.inFlight <;> cases hread : s.read <;> simp [server, hs, hread]
    | resetPoll => exact absurd rfl h
    | _ => rfl

/-- A statement that is sent on an idle connection is answered. -/
theorem server_result (d : δ) (n : ℕ) (statuses : List Bool) :
    (executeWithRetry server d 5000 3 ⟨none, false, n, statuses⟩).result = some (.ok d) := by
  cases statuses with
  | nil => rfl
  | cons up statuses => cases up <;> rfl

theorem server_state (d : δ) (n : ℕ) (up : Bool) (statuses : List Bool) :
    (executeWithRetry server d 5000 3 ⟨none, false, n, up :: statuses⟩).state =
      ⟨none, false, if up then n else n + 1, statuses⟩ := by
  cases up <;> rfl

end PostgresLib.Connection
