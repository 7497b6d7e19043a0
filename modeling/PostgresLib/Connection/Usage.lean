import PostgresLib.Connection.Execution
import PostgresLib.Foundations.Monitor
import Mathlib.Algebra.Order.Ring.Int

/-! # How an execution uses libpq

A connection may only be used in certain ways: a statement is sent when the connection
is up, flushed when it was accepted, and so on, and only a few statements and resets
belong to one execution. A monitor that sees the calls and their answers says what may
come next; it refuses none of the calls of an execution.
-/

namespace PostgresLib.Connection

open Foundations Traced

variable {σ δ ρ : Type}

/-- What may be done with the connection: to test it, to send a statement, to send what was
accepted, to receive, and to collect the results until there are none. A reset is begun when the
connection is down or has refused something, and goes on with waits for what it asks for. -/
inductive Stage where
  | untested
  | down
  | up
  | sending
  | blocked
  | receiving
  | readable
  | consumed
  | collecting
  | collected
  | refused
  | resetting
  | awaiting (events : PollEvents)
  | established
  | ended
  deriving DecidableEq

/-- What a reset asks for. -/
def Stage.afterReset : PollingStatus → Stage
  | .ok => established
  | .failed => ended
  | .reading => awaiting .input
  | .writing => awaiting .output
  | .active => awaiting .none

/-- The stage, the socket of the connection when it is known, and how many statements may still be
sent and how many resets begun. -/
structure Usage where
  stage : Stage
  socket : Option ℤ
  sends : ℕ
  resets : ℕ
  deriving DecidableEq

namespace Usage

/-- A wait is for the socket of the connection and for a known time. -/
def wait (u : Usage) (socket timeout : ℤ) (pfd : PollAnswer) (ready : Stage) : Option Usage :=
  if u.socket = some socket ∧ 0 ≤ socket ∧ 0 ≤ timeout then
    some { u with stage := if 0 < pfd.result then ready else .ended }
  else none

/-- A reset, which makes the socket unknown. -/
def reset (u : Usage) (started : Bool) : Option Usage :=
  match u.resets with
  | 0 => none
  | n + 1 =>
    some { u with stage := if started then .resetting else .ended, socket := none, resets := n }

def next (u : Usage) : (c : PqCall δ) → c.Answer ρ → Option Usage
  | .now, _ => some u
  | .errorMessage, _ => some u
  | .socket, (sock : ℤ) => some { u with socket := some sock }
  | .status, (ok : Bool) =>
    if u.stage = .untested ∨ u.stage = .up then
      some { u with stage := if ok then .up else .down }
    else none
  | .resetStart, (started : Bool) =>
    if u.stage = .down ∨ u.stage = .refused then u.reset started else none
  | .resetPoll, (st : PollingStatus) =>
    if u.stage = .resetting then
      some { u with stage := .afterReset st, socket := none }
    else none
  | .setnonblocking, (n : ℤ) =>
    if u.stage = .established then some { u with stage := if n = 0 then .up else .ended } else none
  | .sendQueryParams _, (ok : ℤ) =>
    match u.stage, u.sends with
    | .up, n + 1 => some { u with stage := if ok = 0 then .refused else .sending, sends := n }
    | _, _ => none
  | .flush, (n : ℤ) =>
    if u.stage = .sending then
      some { u with stage := if n < 0 then .ended else if n = 0 then .receiving else .blocked }
    else none
  | .poll socket events timeout, (pfd : PollAnswer) =>
    match u.stage, events with
    | .blocked, .output => u.wait socket timeout pfd (if pfd.failed then .ended else .sending)
    | .receiving, .input => u.wait socket timeout pfd .readable
    | .awaiting events', events =>
      if events' = events then u.wait socket timeout pfd (if pfd.failed then .ended else .resetting)
      else none
    | _, _ => none
  | .consumeInput, (n : ℤ) =>
    if u.stage = .readable then some { u with stage := if n = 0 then .refused else .consumed }
    else none
  | .isBusy, (busy : Bool) =>
    if u.stage = .consumed then some { u with stage := if busy then .receiving else .collecting }
    else none
  | .getResult, (r : Option ρ) =>
    if u.stage = .collecting then
      some { u with stage := if r.isSome then .collecting else .collected }
    else none

def nextEvent (u : Usage) (e : Event σ δ ρ) : Option Usage := u.next e.call e.answer

/-- An execution begins with a test; two statements may be sent and three resets begun. -/
def start : Usage where
  stage := .untested
  socket := none
  sends := 2
  resets := 3

end Usage

variable (lib : Libpq σ δ ρ)

theorem watched_perform_bind {α : Type} {c : PqCall δ} {f : c.Answer ρ → Pq σ δ ρ α} {u : Usage}
    {Q : Option α → Usage → Prop}
    (h : ∀ a, ∃ u', u.next c a = some u' ∧ Watched Usage.nextEvent u' (f a) Q) :
    Watched Usage.nextEvent u (perform lib c >>= f) Q := by
  constructor
  intro s
  rcases h (lib.call c s).1 with ⟨u', hnext, hf⟩
  rcases hf.run (lib.call c s).2 with ⟨u'', hfollow, hQ⟩
  exact ⟨u'', (follow_cons hnext).trans hfollow, hQ⟩

variable {sends resets : ℕ} {sock : Option ℤ}

/-- A wait that succeeds goes on, and another one ends the execution. -/
theorem Usage.wait_eq {u : Usage} {socket timeout : ℤ} {pfd : PollAnswer} {ready : Stage}
    (hsocket : u.socket = some socket) (hopen : 0 ≤ socket) (htimeout : 0 ≤ timeout) :
    u.wait socket timeout pfd ready =
      some { u with stage := if 0 < pfd.result then ready else .ended } :=
  if_pos ⟨hsocket, hopen, htimeout⟩

/-- In a reset the socket is awaited for what the reset asked for. -/
theorem next_awaiting {st : PollingStatus} (hok : st ≠ .ok) (hfailed : st ≠ .failed) {socket : ℤ}
    (hopen : 0 ≤ socket) {timeout : ℤ} (htimeout : 0 ≤ timeout) (pfd : PollAnswer) :
    Usage.next (δ := δ) (ρ := ρ) ⟨.afterReset st, some socket, sends, resets⟩
      (.poll socket (reconnectEvents st) timeout) pfd =
    some ⟨if 0 < pfd.result then if pfd.failed then .ended else .resetting else .ended, some socket,
      sends, resets⟩ := by
  cases st with
  | ok => exact absurd rfl hok
  | failed => exact absurd rfl hfailed
  | _ => exact Usage.wait_eq rfl hopen htimeout

/-- What a reconnect returns: an error of its own type, or nothing when the connection is in the
expected use. -/
def Reconnects (good : Usage → Prop) : Option (Option SqlError) → Usage → Prop
  | none, _ => True
  | some none, u => good u
  | some (some e), _ => e.type = .reconnectFailed

/-- What is returned for a statement: a result or an error of some type, and in which use the
connection is then. -/
def Reports {α : Type} (good : Usage → Prop) (bad : SqlErrorType → Usage → Prop) :
    Option (Except SqlError α) → Usage → Prop
  | none, _ => True
  | some (.ok _), u => good u
  | some (.error e), u => bad e.type u

theorem reconnectLoop_watched (deadline : ℤ) (fuel : ℕ) :
    Watched Usage.nextEvent ⟨.resetting, sock, sends, resets⟩ (reconnectLoop lib deadline fuel)
      (Reconnects (· = ⟨.up, none, sends, resets⟩)) := by
  induction fuel generalizing sock with
  | zero => exact .outOfFuel trivial
  | succ fuel ih =>
    apply watched_perform_bind
    intro now
    refine ⟨_, rfl, ?_⟩
    apply Watched.ite
    · exact fun _ => .pure rfl
    intro hbefore
    have hnonneg : 0 ≤ (deadline - now).tdiv 1000000 := Int.tdiv_nonneg (by omega) (by decide)
    apply watched_perform_bind
    intro st
    refine ⟨_, rfl, ?_⟩
    apply Watched.ite
    · rintro rfl
      apply watched_perform_bind
      intro nonblocking
      refine ⟨_, rfl, ?_⟩
      apply Watched.ite
      · intro _
        apply watched_perform_bind
        exact fun _ => ⟨_, rfl, .pure rfl⟩
      · intro hzero
        rw [if_pos (not_not.mp hzero)]
        exact .pure rfl
    intro hok
    apply Watched.ite
    · exact fun _ => .pure rfl
    intro hfailed
    apply watched_perform_bind
    intro sock
    refine ⟨_, rfl, ?_⟩
    apply Watched.ite
    · exact fun _ => .pure rfl
    intro hsock
    apply watched_perform_bind
    intro pfd
    refine ⟨_, next_awaiting hok hfailed (not_lt.mp hsock) hnonneg pfd, ?_⟩
    apply Watched.ite
    · exact fun _ => .pure rfl
    intro hresult
    rw [if_pos (not_le.mp hresult)]
    apply Watched.ite
    · exact fun _ => .pure rfl
    intro herror
    rw [if_neg herror]
    exact ih

theorem attemptReconnect_watched {stage : Stage} (hstage : stage = .down ∨ stage = .refused)
    (timeout : ℤ) (fuel : ℕ) :
    Watched Usage.nextEvent ⟨stage, sock, sends, resets + 1⟩ (attemptReconnect lib timeout fuel)
      (Reconnects (· = ⟨.up, none, sends, resets⟩)) := by
  apply watched_perform_bind
  intro started
  refine ⟨_, if_pos hstage, ?_⟩
  apply Watched.ite
  · exact fun _ => .pure rfl
  intro hstarted
  rw [Bool.not_eq_true', Bool.not_eq_false] at hstarted
  subst hstarted
  apply watched_perform_bind
  intro now
  exact ⟨_, rfl, reconnectLoop_watched lib _ fuel⟩

/-- Before an attempt the connection is tested, and reset when it is down. -/
theorem reconnectIfLost_watched {stage : Stage} (hstage : stage = .untested ∨ stage = .up)
    (timeout : ℤ) (fuel : ℕ) :
    Watched Usage.nextEvent ⟨stage, sock, sends, resets + 1⟩ (reconnectIfLost lib timeout fuel)
      (Reconnects fun u => ∃ sock' resets', resets ≤ resets' ∧
        u = ⟨.up, sock', sends, resets'⟩) := by
  apply watched_perform_bind
  intro connected
  refine ⟨_, if_pos hstage, ?_⟩
  apply Watched.ite
  · rintro rfl
    exact .pure ⟨sock, resets + 1, Nat.le_succ _, rfl⟩
  · intro hlost
    rw [if_neg hlost]
    apply (attemptReconnect_watched lib (.inl rfl) timeout fuel).mono
    intro r u h
    rcases r with _ | _ | e
    · exact trivial
    · exact ⟨none, resets, Nat.le_refl _, h⟩
    · exact h

theorem checkForPollOut_watched {socket : ℤ} (hopen : 0 ≤ socket) (fuel : ℕ) :
    Watched Usage.nextEvent ⟨.sending, some socket, sends, resets⟩ (checkForPollOut lib socket fuel)
      (Reports (· = ⟨.receiving, some socket, sends, resets⟩) fun t _ => t = .socketFailed) := by
  induction fuel with
  | zero => exact .outOfFuel trivial
  | succ fuel ih =>
    apply watched_perform_bind
    intro flush
    refine ⟨_, rfl, ?_⟩
    apply Watched.ite
    · exact fun _ => .pure rfl
    intro hnonneg
    rw [if_neg hnonneg]
    apply Watched.ite
    · intro hzero
      rw [if_pos hzero]
      exact .pure rfl
    intro hmore
    rw [if_neg hmore]
    apply watched_perform_bind
    intro pfd
    refine ⟨_, Usage.wait_eq rfl hopen (by decide), ?_⟩
    apply Watched.ite
    · exact fun _ => .pure rfl
    intro hresult
    apply Watched.ite
    · exact fun _ => .pure rfl
    intro htime
    rw [if_pos (lt_of_le_of_ne (not_lt.mp hresult) (Ne.symm htime))]
    apply Watched.ite
    · exact fun _ => .pure rfl
    intro herror
    rw [if_neg herror]
    exact ih

theorem checkForPollIn_watched {socket : ℤ} (hopen : 0 ≤ socket) (fuel : ℕ) :
    Watched Usage.nextEvent ⟨.receiving, some socket, sends, resets⟩
      (checkForPollIn lib socket fuel)
      (Reports (· = ⟨.collecting, some socket, sends, resets⟩) fun t u => t = .socketFailed ∨
        t = .badConnection ∧ u = ⟨.refused, some socket, sends, resets⟩) := by
  induction fuel with
  | zero => exact .outOfFuel trivial
  | succ fuel ih =>
    apply watched_perform_bind
    intro pfd
    refine ⟨_, Usage.wait_eq rfl hopen (by decide), ?_⟩
    apply Watched.ite
    · exact fun _ => .pure (.inl rfl)
    intro hresult
    apply Watched.ite
    · exact fun _ => .pure (.inl rfl)
    intro htime
    rw [if_pos (lt_of_le_of_ne (not_lt.mp hresult) (Ne.symm htime))]
    apply watched_perform_bind
    intro consumed
    refine ⟨_, rfl, ?_⟩
    apply Watched.ite
    · intro hzero
      rw [if_pos hzero]
      apply watched_perform_bind
      exact fun _ => ⟨_, rfl, .pure (.inr ⟨rfl, rfl⟩)⟩
    intro hread
    rw [if_neg hread]
    apply watched_perform_bind
    intro busy
    refine ⟨_, rfl, ?_⟩
    apply Watched.ite
    · rintro rfl
      exact ih
    · intro hidle
      rw [if_neg hidle]
      exact .pure rfl

theorem drainResults_watched (fuel : ℕ) :
    Watched Usage.nextEvent ⟨.collecting, sock, sends, resets⟩ (drainResults lib fuel)
      fun r u => r = some () → u.stage = .collected := by
  induction fuel with
  | zero => exact .outOfFuel nofun
  | succ fuel ih =>
    apply watched_perform_bind
    intro r
    cases r with
    | some r => exact ⟨_, rfl, ih⟩
    | none => exact ⟨_, rfl, .pure fun _ => rfl⟩

theorem consumeResult_watched (result : Option ρ) (fuel : ℕ) :
    Watched Usage.nextEvent ⟨.collecting, sock, sends, resets⟩ (consumeResult lib result fuel)
      (Reports (·.stage = .collected) fun t u => t = .queryFailed ∧ u.stage = .collected) := by
  induction fuel generalizing result with
  | zero => exact .outOfFuel trivial
  | succ fuel ih =>
    apply watched_perform_bind
    intro r
    cases r with
    | some r =>
      refine ⟨_, rfl, ?_⟩
      apply Watched.ite
      · exact fun _ => ih _
      intro _
      apply (drainResults_watched lib fuel).bind
      · exact fun _ _ => trivial
      · exact fun _ u h => .pure ⟨rfl, h rfl⟩
    | none =>
      refine ⟨_, rfl, ?_⟩
      cases result with
      | none => exact .pure ⟨rfl, rfl⟩
      | some result => exact .pure rfl

/-- The error of an attempt tells how far it came. -/
theorem executeQuery_watched (statement : δ) (fuel : ℕ) :
    Watched Usage.nextEvent ⟨.up, sock, sends + 1, resets⟩ (executeQuery lib statement fuel)
      (Reports (·.stage = .collected) fun t u => t = .socketFailed ∨
        (t = .badConnection ∧ ∃ sock', u = ⟨.refused, sock', sends, resets⟩) ∨
        t = .queryFailed ∧ u.stage = .collected) := by
  apply watched_perform_bind
  intro socket
  refine ⟨_, rfl, ?_⟩
  apply Watched.ite
  · exact fun _ => .pure (.inl rfl)
  intro hopen
  apply watched_perform_bind
  intro ok
  refine ⟨_, rfl, ?_⟩
  apply Watched.ite
  · intro hzero
    rw [if_pos hzero]
    apply watched_perform_bind
    exact fun _ => ⟨_, rfl, .pure (.inr (.inl ⟨rfl, _, rfl⟩))⟩
  intro haccepted
  rw [if_neg haccepted]
  apply (checkForPollOut_watched lib (not_lt.mp hopen) fuel).bind
  · exact fun _ _ => trivial
  intro pollOut u hout
  cases pollOut with
  | error e => exact .pure (.inl hout)
  | ok _ =>
    cases hout
    apply (checkForPollIn_watched lib (not_lt.mp hopen) fuel).bind
    · exact fun _ _ => trivial
    intro pollIn u hin
    cases pollIn with
    | error e =>
      rcases hin with hsocket | ⟨hbad, hu⟩
      · exact .pure (.inl hsocket)
      · exact .pure (.inr (.inl ⟨hbad, _, hu⟩))
    | ok _ =>
      cases hin
      apply (consumeResult_watched lib none fuel).mono
      intro r u h
      rcases r with _ | e | r
      · exact trivial
      · exact .inr (.inr h)
      · exact h

/-- What an execution returns tells what became of it: a result, or an error of the statement, only
when all results were read; `BadConnection` only when the statement was sent twice and the
connection refused it; and otherwise an error of the socket or of a reconnect. -/
def Answers {α : Type} : Option (Except SqlError α) → Usage → Prop :=
  Reports (·.stage = .collected) fun t u => t = .socketFailed ∨ t = .reconnectFailed ∨
    (t = .badConnection ∧ u.stage = .refused ∧ u.sends = 0) ∨
    t = .queryFailed ∧ u.stage = .collected

/-- The second attempt is the last. -/
theorem lastAttempt_watched {stage : Stage} (hstage : stage = .untested ∨ stage = .up)
    (statement : δ) (timeout : ℤ) (fuel left : ℕ) :
    Watched Usage.nextEvent ⟨stage, sock, 1, resets + 1⟩
      (executeAttempts lib statement timeout fuel (left + 1) 2) Answers := by
  apply (reconnectIfLost_watched lib hstage timeout fuel).bind
  · exact fun _ _ => trivial
  intro lost u hlost
  cases lost with
  | some e => exact .pure (.inr (.inl hlost))
  | none =>
    rcases hlost with ⟨sock', resets', -, rfl⟩
    apply (executeQuery_watched lib statement fuel).bind
    · exact fun _ _ => trivial
    intro res u hres
    cases res with
    | ok r => exact .pure hres
    | error err =>
      apply Watched.ite
      · exact fun h => absurd h.2 (by decide)
      intro _
      apply Watched.pure
      rcases hres with hsocket | ⟨hbad, sock', rfl⟩ | hquery
      · exact .inl hsocket
      · exact .inr (.inr (.inl ⟨hbad, rfl, rfl⟩))
      · exact .inr (.inr (.inr hquery))

/-- No execution uses the connection in a way in which it may not be used. -/
theorem executeWithRetry_watched (statement : δ) (timeout : ℤ) (fuel : ℕ) :
    Watched Usage.nextEvent .start (executeWithRetry lib statement timeout fuel) Answers := by
  apply (reconnectIfLost_watched lib (.inl rfl) timeout fuel).bind
  · exact fun _ _ => trivial
  intro lost u hlost
  cases lost with
  | some e => exact .pure (.inr (.inl hlost))
  | none =>
    rcases hlost with ⟨sock', resets', hresets, rfl⟩
    obtain ⟨k, rfl⟩ : ∃ k, resets' = k + 2 := ⟨resets' - 2, by omega⟩
    apply (executeQuery_watched lib statement fuel).bind
    · exact fun _ _ => trivial
    intro res u hres
    cases res with
    | ok r => exact .pure hres
    | error err =>
      apply Watched.ite
      · rintro ⟨hbad, -⟩
        have hrefused : ∃ sock', u = ⟨.refused, sock', 1, k + 2⟩ := by
          rcases hres with h | ⟨-, hrefused⟩ | ⟨h, -⟩
          · rw [hbad] at h
            cases h
          · exact hrefused
          · rw [hbad] at h
            cases h
        rcases hrefused with ⟨sock', rfl⟩
        apply (attemptReconnect_watched lib (.inr rfl) timeout fuel).bind
        · exact fun _ _ => trivial
        intro lost u hlost
        cases lost with
        | some e => exact .pure (.inr (.inl hlost))
        | none =>
          cases hlost
          exact lastAttempt_watched lib (.inr rfl) statement timeout fuel 0
      · intro hfinal
        apply Watched.pure
        rcases hres with hsocket | ⟨hbad, -⟩ | hquery
        · exact .inl hsocket
        · exact absurd ⟨hbad, rfl⟩ hfinal
        · exact .inr (.inr (.inr hquery))

/-- Whatever libpq, the socket and the clock answer, the calls of an execution are allowed ones:
two statements are sent and three resets begun at most, each in its place, every wait is for the
connection's own socket and for a known time, and what is returned tells how far they came. -/
theorem executeWithRetry_uses (statement : δ) (timeout : ℤ) (fuel : ℕ) (s : σ) :
    ∃ u, follow Usage.nextEvent .start (executeWithRetry lib statement timeout fuel s).events =
        some u ∧
      Answers (executeWithRetry lib statement timeout fuel s).result u :=
  (executeWithRetry_watched lib statement timeout fuel).run s

end PostgresLib.Connection
