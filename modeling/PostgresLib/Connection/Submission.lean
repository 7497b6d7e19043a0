import PostgresLib.Connection.Execution
import Mathlib.Data.Int.Basic

/-! # How often a statement is submitted

Three kinds of answers matter: a send that libpq accepts, a flush that completes,
and input that cannot be read. The trace of an execution, restricted to these, is
one of finitely many lists, whatever libpq and the socket do.
-/

namespace PostgresLib.Connection

open Foundations Traced

variable {σ δ ρ : Type}

inductive Mark where
  | accepted | flushed | inputFailed
  deriving DecidableEq

def mark : (c : PqCall δ) → c.Answer ρ → Option Mark
  | .sendQueryParams _, ok => if ok = 0 then none else some .accepted
  | .flush, flush => if flush = 0 then some .flushed else none
  | .consumeInput, consumed => if consumed = 0 then some .inputFailed else none
  | _, _ => none

def marks (es : List (Event σ δ ρ)) : List Mark := es.filterMap fun e => mark e.call e.answer

@[simp] theorem marks_nil : marks ([] : List (Event σ δ ρ)) = [] := rfl

@[simp] theorem marks_append (es es' : List (Event σ δ ρ)) :
    marks (es ++ es') = marks es ++ marks es' :=
  List.filterMap_append

theorem marks_cons (e : Event σ δ ρ) (es : List (Event σ δ ρ)) :
    marks (e :: es) = (mark e.call e.answer).toList ++ marks es := by
  unfold marks
  cases h : mark e.call e.answer with
  | none => exact List.filterMap_cons_none h
  | some m => exact List.filterMap_cons_some h

@[simp] theorem marks_send (d : δ) (ok : ℤ) (s s' : σ) (es : List (Event σ δ ρ)) :
    marks (⟨.sendQueryParams d, ok, s, s'⟩ :: es) =
      if ok = 0 then marks es else .accepted :: marks es := by
  rw [marks_cons, mark]
  split_ifs <;> rfl

@[simp] theorem marks_flush (flush : ℤ) (s s' : σ) (es : List (Event σ δ ρ)) :
    marks (⟨.flush, flush, s, s'⟩ :: es) =
      if flush = 0 then .flushed :: marks es else marks es := by
  rw [marks_cons, mark]
  split_ifs <;> rfl

@[simp] theorem marks_consumeInput (consumed : ℤ) (s s' : σ) (es : List (Event σ δ ρ)) :
    marks (⟨.consumeInput, consumed, s, s'⟩ :: es) =
      if consumed = 0 then .inputFailed :: marks es else marks es := by
  rw [marks_cons, mark]
  split_ifs <;> rfl

theorem marks_other {e : Event σ δ ρ} (h : mark e.call e.answer = none)
    (es : List (Event σ δ ρ)) : marks (e :: es) = marks es := by
  rw [marks_cons, h]
  rfl

@[simp] theorem marks_poll (socket : ℤ) (events : PollEvents) (timeout : ℤ) (pfd : PollAnswer)
    (s s' : σ) (es : List (Event σ δ ρ)) :
    marks (⟨.poll socket events timeout, pfd, s, s'⟩ :: es) = marks es :=
  marks_other rfl es

@[simp] theorem marks_errorMessage (err : String) (s s' : σ) (es : List (Event σ δ ρ)) :
    marks (⟨.errorMessage, err, s, s'⟩ :: es) = marks es :=
  marks_other rfl es

@[simp] theorem marks_isBusy (busy : Bool) (s s' : σ) (es : List (Event σ δ ρ)) :
    marks (⟨.isBusy, busy, s, s'⟩ :: es) = marks es :=
  marks_other rfl es

@[simp] theorem marks_getResult (r : Option ρ) (s s' : σ) (es : List (Event σ δ ρ)) :
    marks (⟨.getResult, r, s, s'⟩ :: es) = marks es :=
  marks_other rfl es

@[simp] theorem marks_socket (sock : ℤ) (s s' : σ) (es : List (Event σ δ ρ)) :
    marks (⟨.socket, sock, s, s'⟩ :: es) = marks es :=
  marks_other rfl es

def Silent (_ : σ) (es : List (Event σ δ ρ)) (_ : σ) : Prop := marks es = []

theorem silent_compositional : Compositional (Silent : σ → List (Event σ δ ρ) → σ → Prop) where
  nil _ := rfl
  append s es s' es' s'' h h' := by
    unfold Silent at *
    rw [marks_append, h, h', List.append_nil]

variable (lib : Libpq σ δ ρ)

theorem perform_silent {c : PqCall δ} (h : ∀ a : c.Answer ρ, mark c a = none) :
    Follows Silent (perform lib c) :=
  ⟨fun _ => marks_other (h _) []⟩

theorem attemptReconnect_silent (timeout : ℤ) (fuel : ℕ) :
    Follows Silent (attemptReconnect lib timeout fuel) := by
  apply attemptReconnect_follows lib silent_compositional
  intro c hc
  apply perform_silent
  cases c with
  | sendQueryParams d => cases hc
  | flush => cases hc
  | consumeInput => cases hc
  | _ => exact fun _ => rfl

theorem reconnectIfLost_silent (timeout : ℤ) (fuel : ℕ) :
    Follows Silent (reconnectIfLost lib timeout fuel) :=
  reconnectIfLost_follows lib silent_compositional (perform_silent lib fun _ => rfl)
    (attemptReconnect_silent lib timeout fuel)

/-- The answer on which `ExecuteWithRetry` tries again. -/
def BadConnection {α : Type} : Option (Except SqlError α) → Prop
  | some (.error e) => e.type = .badConnection
  | _ => False

theorem not_badConnection_socketFailed {α : Type} (message : String) :
    ¬ BadConnection (some (.error (.socketFailed message) : Except SqlError α)) := nofun

theorem not_badConnection_queryFailed {α : Type} (message : String) :
    ¬ BadConnection (some (.error (.queryFailed message) : Except SqlError α)) := nofun

/-- `CheckForPollOut` succeeds exactly with a completed flush, and never asks for a retry. -/
theorem checkForPollOut_marks (socket : ℤ) (fuel : ℕ) :
    Emits (checkForPollOut lib socket fuel) fun r es => ¬ BadConnection r ∧
      (r = some (.ok ()) ∧ marks es = [.flushed] ∨ r ≠ some (.ok ()) ∧ marks es = []) := by
  induction fuel with
  | zero => exact .outOfFuel ⟨id, .inr ⟨nofun, rfl⟩⟩
  | succ fuel ih =>
    apply emits_perform_bind
    intro flush before after
    simp only [marks_flush]
    by_cases hzero : flush = 0
    · subst hzero
      simp only [reduceIte]
      exact .pure ⟨id, .inl ⟨rfl, rfl⟩⟩
    · simp only [if_neg hzero]
      split_ifs
      · exact .pure ⟨not_badConnection_socketFailed _, .inr ⟨nofun, rfl⟩⟩
      · apply emits_perform_bind
        intro pfd before after
        simp only [marks_poll]
        split_ifs
        · exact .pure ⟨not_badConnection_socketFailed _, .inr ⟨nofun, rfl⟩⟩
        · exact .pure ⟨not_badConnection_socketFailed _, .inr ⟨nofun, rfl⟩⟩
        · exact .pure ⟨not_badConnection_socketFailed _, .inr ⟨nofun, rfl⟩⟩
        · exact ih

/-- `CheckForPollIn` asks for a retry exactly when input cannot be read. -/
theorem checkForPollIn_marks (socket : ℤ) (fuel : ℕ) :
    Emits (checkForPollIn lib socket fuel) fun r es =>
      BadConnection r ∧ marks es = [.inputFailed] ∨ ¬ BadConnection r ∧ marks es = [] := by
  induction fuel with
  | zero => exact .outOfFuel (.inr ⟨id, rfl⟩)
  | succ fuel ih =>
    apply emits_perform_bind
    intro pfd before after
    simp only [marks_poll]
    split_ifs
    · exact .pure (.inr ⟨not_badConnection_socketFailed _, rfl⟩)
    · exact .pure (.inr ⟨not_badConnection_socketFailed _, rfl⟩)
    · apply emits_perform_bind
      intro consumed before after
      simp only [marks_consumeInput]
      split_ifs
      · apply emits_perform_bind
        intro err before after
        simp only [marks_errorMessage]
        exact .pure (.inl ⟨rfl, rfl⟩)
      · apply emits_perform_bind
        intro busy before after
        simp only [marks_isBusy]
        split_ifs
        · exact ih
        · exact .pure (.inr ⟨id, rfl⟩)

theorem drainResults_silent (fuel : ℕ) : Follows Silent (drainResults lib fuel) :=
  drainResults_follows lib silent_compositional (perform_silent lib fun _ => rfl) fuel

theorem consumeResult_marks (result : Option ρ) (fuel : ℕ) :
    Emits (consumeResult lib result fuel) fun r es => ¬ BadConnection r ∧ marks es = [] := by
  induction fuel generalizing result with
  | zero => exact .outOfFuel ⟨id, rfl⟩
  | succ fuel ih =>
    apply emits_perform_bind
    intro r before after
    simp only [marks_getResult]
    cases r with
    | some r =>
      dsimp only
      split_ifs
      · exact ih _
      · apply (drainResults_silent lib fuel).emits.bind
        · exact fun es hes => ⟨id, hes⟩
        · intro _ es hes
          exact .pure ⟨not_badConnection_queryFailed _, by rw [marks_append, hes]; rfl⟩
    | none =>
      cases result with
      | none => exact .pure ⟨not_badConnection_queryFailed _, rfl⟩
      | some result => exact .pure ⟨id, rfl⟩

/-- The marks of an attempt after an accepted send, by whether it asks for a retry. -/
theorem awaitResult_marks (socket : ℤ) (fuel : ℕ) :
    Emits (awaitResult lib socket fuel) fun r es =>
      BadConnection r ∧ marks es = [.flushed, .inputFailed] ∨
      ¬ BadConnection r ∧ (marks es = [] ∨ marks es = [.flushed]) := by
  apply (checkForPollOut_marks lib socket fuel).bind
  · rintro es ⟨-, ⟨h, -⟩ | ⟨-, hes⟩⟩
    · cases h
    · exact .inr ⟨id, .inl hes⟩
  rintro pollOut es ⟨hpollOut, hes⟩
  cases pollOut with
  | error e =>
    rcases hes with ⟨h, -⟩ | ⟨-, hes⟩
    · cases h
    · exact .pure (.inr ⟨hpollOut, .inl (by simp [hes])⟩)
  | ok u =>
    rcases hes with ⟨-, hes⟩ | ⟨h, -⟩
    · apply (checkForPollIn_marks lib socket fuel).bind
      · rintro es' (⟨h, -⟩ | ⟨-, hes'⟩)
        · cases h
        · exact .inr ⟨id, .inr (by simp [hes, hes'])⟩
      intro pollIn es' hes'
      cases pollIn with
      | error e =>
        rcases hes' with ⟨h, hes'⟩ | ⟨h, hes'⟩
        · exact .pure (.inl ⟨h, by simp [hes, hes']⟩)
        · exact .pure (.inr ⟨h, .inr (by simp [hes, hes'])⟩)
      | ok u =>
        rcases hes' with ⟨h, -⟩ | ⟨-, hes'⟩
        · cases h
        · apply (consumeResult_marks lib none fuel).mono
          rintro r es'' ⟨h, hes''⟩
          exact .inr ⟨h, .inr (by simp [hes, hes', hes''])⟩
    · exact absurd rfl h

/-- The marks of an attempt, by whether it asks for a retry: it does when nothing was accepted, or
when input could not be read. -/
theorem executeQuery_marks (statement : δ) (fuel : ℕ) :
    Emits (executeQuery lib statement fuel) fun r es =>
      BadConnection r ∧ marks es ∈ [[], [.accepted, .flushed, .inputFailed]] ∨
      ¬ BadConnection r ∧ marks es ∈ [[], [.accepted], [.accepted, .flushed]] := by
  apply emits_perform_bind
  intro sock before after
  simp only [marks_socket]
  split_ifs
  · exact .pure (.inr ⟨not_badConnection_socketFailed _, by simp⟩)
  apply emits_perform_bind
  intro ok before after
  simp only [marks_send]
  split_ifs
  · apply emits_perform_bind
    intro msg before after
    simp only [marks_errorMessage]
    exact .pure (.inl ⟨rfl, by simp⟩)
  · apply (awaitResult_marks lib sock fuel).mono
    rintro r es (⟨h, hes⟩ | ⟨h, hes | hes⟩)
    · exact .inl ⟨h, by simp [hes]⟩
    · exact .inr ⟨h, by simp [hes]⟩
    · exact .inr ⟨h, by simp [hes]⟩

/-- The marks the remaining attempts can leave: one that asks for a retry may be followed by the
marks of the others. -/
def attemptMarks : ℕ → List (List Mark)
  | 0 => [[]]
  | left + 1 =>
    [[], [.accepted], [.accepted, .flushed], [.accepted, .flushed, .inputFailed]] ++
      attemptMarks left ++ (attemptMarks left).map ([.accepted, .flushed, .inputFailed] ++ ·)

theorem nil_mem_attemptMarks (left : ℕ) : [] ∈ attemptMarks left := by
  cases left with
  | zero => exact List.mem_singleton_self _
  | succ left => simp [attemptMarks]

theorem mem_attemptMarks_of_final {l : List Mark} (left : ℕ)
    (h : l ∈ [[], [.accepted], [.accepted, .flushed]]) : l ∈ attemptMarks (left + 1) := by
  simp only [List.mem_cons, List.not_mem_nil, or_false] at h
  rcases h with rfl | rfl | rfl <;> simp [attemptMarks]

theorem append_mem_attemptMarks {l l' : List Mark} {left : ℕ}
    (h : l ∈ [[], [.accepted, .flushed, .inputFailed]]) (h' : l' ∈ attemptMarks left) :
    l ++ l' ∈ attemptMarks (left + 1) := by
  simp only [List.mem_cons, List.not_mem_nil, or_false] at h
  rcases h with rfl | rfl <;> simp [attemptMarks, h']

theorem executeAttempts_marks (statement : δ) (timeout : ℤ) (fuel left attempts : ℕ) :
    Emits (executeAttempts lib statement timeout fuel left attempts) fun _ es =>
      marks es ∈ attemptMarks left := by
  induction left generalizing attempts with
  | zero => exact .pure (nil_mem_attemptMarks 0)
  | succ left ih =>
    apply (reconnectIfLost_silent lib timeout fuel).emits.bind
    · intro es hes
      rw [hes]
      exact nil_mem_attemptMarks _
    intro lost es hes
    simp only [marks_append, hes, List.nil_append]
    cases lost with
    | some e => exact .pure (nil_mem_attemptMarks _)
    | none =>
      apply (executeQuery_marks lib statement fuel).bind
      · rintro es' (⟨h, -⟩ | ⟨-, hes'⟩)
        · cases h
        · exact mem_attemptMarks_of_final left hes'
      intro res es' hes'
      simp only [marks_append]
      cases res with
      | ok r =>
        rcases hes' with ⟨h, -⟩ | ⟨-, hes'⟩
        · cases h
        · apply Emits.pure
          rw [marks_nil, List.append_nil]
          exact mem_attemptMarks_of_final left hes'
      | error err =>
        dsimp only
        rcases hes' with ⟨hbad, hes'⟩ | ⟨hgood, hes'⟩
        · have hstop : marks es' ++ [] ∈ attemptMarks (left + 1) :=
            append_mem_attemptMarks hes' (nil_mem_attemptMarks left)
          split_ifs
          · apply (attemptReconnect_silent lib timeout fuel).emits.bind
            · intro es'' hes''
              rwa [hes'']
            intro lost es'' hes''
            simp only [marks_append, hes'', List.nil_append]
            cases lost with
            | some e => exact .pure hstop
            | none => exact (ih _).mono fun _ _ h => append_mem_attemptMarks hes' h
          · exact .pure hstop
        · rw [if_neg fun h => hgood h.1]
          apply Emits.pure
          rw [marks_nil, List.append_nil]
          exact mem_attemptMarks_of_final left hes'

/-- A send that was accepted and flushed is followed by another one that is accepted. -/
def SubmittedAgain (es : List (Event σ δ ρ)) : Prop :=
  List.Sublist [.accepted, .flushed, .accepted] (marks es)

/-- Input could not be read, and after that a send was accepted. -/
def AcceptedAfterInputFailure (es : List (Event σ δ ρ)) : Prop :=
  List.Sublist [.inputFailed, .accepted] (marks es)

/-- Every call of the list makes part of the execution of the statement. -/
def OfStatement (statement : δ) (_ : σ) (es : List (Event σ δ ρ)) (_ : σ) : Prop :=
  ∀ e ∈ es, e.call.Executes statement

theorem ofStatement_compositional (statement : δ) :
    Compositional (OfStatement statement : σ → List (Event σ δ ρ) → σ → Prop) where
  nil _ := nofun
  append _ _ _ _ _ h h' := fun e he => (List.mem_append.mp he).elim (h e) (h' e)

theorem executeWithRetry_ofStatement (statement : δ) (timeout : ℤ) (fuel : ℕ) :
    Follows (OfStatement statement) (executeWithRetry lib statement timeout fuel) := by
  apply executeWithRetry_follows lib (ofStatement_compositional statement)
  intro c hc
  constructor
  intro s e he
  rw [List.mem_singleton.mp he]
  exact hc

/-- `ExecuteWithRetry` sends no statement but its own, and it submits that one again after a flush
exactly when a send is accepted after `PQconsumeInput` failed. -/
theorem submitted_once_iff (statement : δ) (timeout : ℤ) (fuel : ℕ) (s : σ) :
    (∀ e ∈ (executeWithRetry lib statement timeout fuel s).events, ∀ d,
      e.call = .sendQueryParams d → d = statement) ∧
    (¬ SubmittedAgain (executeWithRetry lib statement timeout fuel s).events ↔
      ¬ AcceptedAfterInputFailure (executeWithRetry lib statement timeout fuel s).events) := by
  constructor
  · intro e he d hd
    have hexecutes := (executeWithRetry_ofStatement lib statement timeout fuel).run s e he
    rw [hd] at hexecutes
    exact hexecutes
  · have hmarks : ∀ l ∈ attemptMarks 2, ¬ List.Sublist [.accepted, .flushed, .accepted] l ↔
        ¬ List.Sublist [.inputFailed, .accepted] l := by decide
    exact hmarks _ ((executeAttempts_marks lib statement timeout fuel 2 1).run s)

/-- A server that closes the session after it has received the statement, and answers in the next
one. The state tells whether the session is the next one, and whether its result was read. -/
def closesOnce : Libpq (Bool × Bool) String Unit where
  call
    | .status, s => (true, s)
    | .socket, s => (3, s)
    | .sendQueryParams _, s => (1, s)
    | .errorMessage, s => ("server closed the connection unexpectedly", s)
    | .flush, s => (0, s)
    | .poll _ _ _, s => (⟨1, false⟩, s)
    | .consumeInput, s => (if s.1 then 1 else 0, s)
    | .isBusy, s => (false, s)
    | .getResult, s => if s.2 then (none, s) else (some (), s.1, true)
    | .resetStart, s => (true, s)
    | .resetPoll, s => (.ok, true, s.2)
    | .setnonblocking, s => (0, s)
    | .now, s => (0, s)
  resultStatus _ := .commandOk
  resultErrorMessage _ := ""

/-- The statement is accepted and flushed in both sessions, and the request succeeds. -/
theorem submitted_twice_by_closesOnce :
    SubmittedAgain (executeWithRetry closesOnce "INSERT INTO t VALUES (1)" 5000 2
      (false, false)).events ∧
    (executeWithRetry closesOnce "INSERT INTO t VALUES (1)" 5000 2 (false, false)).result =
      some (.ok ()) := by
  unfold SubmittedAgain
  decide

end PostgresLib.Connection
