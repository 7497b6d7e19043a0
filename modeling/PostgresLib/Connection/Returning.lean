import PostgresLib.Connection.Collecting
import PostgresLib.Connection.Deadlines
import PostgresLib.Connection.Server

/-! # An execution returns

The loops of an execution end for different reasons: a reconnect has a deadline, and
the others wait for the other side. When that gets on with each of its answers, every
execution returns, after a number of rounds that only depends on where it starts.
-/

namespace PostgresLib.Connection

open Foundations Traced

variable {σ δ ρ : Type}

/-- The other side gets on whenever the socket is ready. When it has room after a flush that was not
complete, less is left to be sent; when input was read that does not complete a result, less is left
to be received; and with each result there are fewer of them left, which is not so in a COPY. A wait
that runs out of time or fails need not change anything. -/
structure Responsive (lib : Libpq σ δ ρ) (left : σ → ℕ) : Prop where
  sends : ∀ s socket, 0 < (lib.call .flush s).1 →
    0 < (lib.call (.poll socket .output 5000) (lib.call .flush s).2).1.result →
    (lib.call (.poll socket .output 5000) (lib.call .flush s).2).1.failed = false →
    left (lib.call (.poll socket .output 5000) (lib.call .flush s).2).2 < left s
  receives : ∀ s socket, 0 < (lib.call (.poll socket .input 5000) s).1.result →
    (lib.call .consumeInput (lib.call (.poll socket .input 5000) s).2).1 ≠ 0 →
    (lib.call .isBusy (lib.call .consumeInput (lib.call (.poll socket .input 5000) s).2).2).1 =
        true →
      left (lib.call .isBusy (lib.call .consumeInput
        (lib.call (.poll socket .input 5000) s).2).2).2 < left s
  answers : ∀ s r, (lib.call .getResult s).1 = some r → left (lib.call .getResult s).2 < left s

variable {lib : Libpq σ δ ρ} {clock : σ → ℤ} {longest : ℤ} {left : σ → ℕ}

theorem halts_perform_bind {α : Type} {c : PqCall δ} {f : ℕ → c.Answer ρ → Pq σ δ ρ α} {s : σ}
    (h : Halts (fun fuel => f fuel (lib.call c s).1) (lib.call c s).2) :
    Halts (fun fuel => perform lib c >>= f fuel) s :=
  (perform_ends c s rfl).concludes.bind_halts h

/-- A reconnect that goes on meets its deadline. -/
theorem reconnectLoop_halts (hlib : Clocked lib clock longest) (deadline : ℤ) (s : σ) :
    Halts (reconnectLoop lib deadline) s := by
  have hrounds : ∀ (k : ℕ) s, deadline ≤ clock s + k → Halts (reconnectLoop lib deadline) s := by
    intro k
    induction k with
    | zero =>
      intro s hs
      apply Halts.of_succ
      apply halts_perform_bind
      apply Halts.ite (fun _ => .pure)
      intro hbefore
      have hnow := (hlib.now s).1
      exact absurd (hs.trans (by simpa using hnow)) hbefore
    | succ k ih =>
      intro s hs
      apply Halts.of_succ
      apply halts_perform_bind
      apply Halts.ite (fun _ => .pure)
      intro _
      apply halts_perform_bind
      apply Halts.ite
      · intro _
        apply halts_perform_bind
        apply Halts.ite _ (fun _ => .pure)
        exact fun _ => halts_perform_bind .pure
      intro _
      apply Halts.ite (fun _ => .pure)
      intro _
      apply halts_perform_bind
      apply Halts.ite (fun _ => .pure)
      intro _
      apply halts_perform_bind
      apply Halts.ite (fun _ => .pure)
      intro _
      apply Halts.ite (fun _ => .pure)
      intro _
      apply ih
      -- three calls and a wait have passed
      have hnow := hlib.forward .now s
      have hreset := hlib.forward .resetPoll (lib.call .now s).2
      have hsocket := hlib.forward .socket (lib.call .resetPoll (lib.call .now s).2).2
      refine hs.trans ?_
      have hpoll := hlib.passes
        (lib.call .socket (lib.call .resetPoll (lib.call .now s).2).2).1
        (reconnectEvents (lib.call .resetPoll (lib.call .now s).2).1)
        ((deadline - (lib.call .now s).1).tdiv 1000000)
        (lib.call .socket (lib.call .resetPoll (lib.call .now s).2).2).2
      push_cast
      linarith
  exact hrounds (deadline - clock s).toNat s (by omega)

theorem attemptReconnect_halts (hlib : Clocked lib clock longest) (timeout : ℤ) (s : σ) :
    Halts (attemptReconnect lib timeout) s := by
  apply halts_perform_bind
  apply Halts.ite (fun _ => .pure)
  intro _
  apply halts_perform_bind
  exact reconnectLoop_halts hlib _ _

/-- A reconnect returns, and it lasts no longer than its timeout and a few calls. -/
theorem reconnects_inTime (hlib : Clocked lib clock longest) {timeout : ℤ} (htimeout : 0 ≤ timeout)
    (s : σ) : ∃ error s', Concludes (attemptReconnect lib timeout) s error s' ∧
      clock s' ≤ clock s + timeout * 1000000 + 7 * longest := by
  rcases attemptReconnect_halts hlib timeout s with ⟨error, s', enough, hends⟩
  refine ⟨error, s', ⟨enough, hends⟩, ?_⟩
  have hinTime := attemptReconnect_inTime hlib htimeout enough s
  rwa [(hends enough (le_refl _)).state] at hinTime

theorem reconnectIfLost_halts (hlib : Clocked lib clock longest) (timeout : ℤ) (s : σ) :
    Halts (reconnectIfLost lib timeout) s := by
  apply halts_perform_bind
  exact Halts.ite (fun _ => .pure) fun _ => attemptReconnect_halts hlib timeout _

section Waits

variable (hlib : Responsive lib left)
include hlib

theorem checkForPollOut_halts (socket : ℤ) (s : σ) : Halts (checkForPollOut lib socket) s := by
  induction hk : left s using Nat.strongRecOn generalizing s with
  | ind k ih =>
    subst hk
    apply Halts.of_succ
    apply halts_perform_bind
    apply Halts.ite (fun _ => .pure)
    intro hnonneg
    apply Halts.ite (fun _ => .pure)
    intro hzero
    apply halts_perform_bind
    apply Halts.ite (fun _ => .pure)
    intro hfailed
    apply Halts.ite (fun _ => .pure)
    intro htimedOut
    apply Halts.ite (fun _ => .pure)
    intro hrevents
    have hmore := lt_of_le_of_ne (not_lt.mp hnonneg) (Ne.symm hzero)
    have hready := lt_of_le_of_ne (not_lt.mp hfailed) (Ne.symm htimedOut)
    exact ih _ (hlib.sends s socket hmore hready (Bool.eq_false_iff.mpr hrevents)) _ rfl

theorem checkForPollIn_halts (socket : ℤ) (s : σ) : Halts (checkForPollIn lib socket) s := by
  induction hk : left s using Nat.strongRecOn generalizing s with
  | ind k ih =>
    subst hk
    apply Halts.of_succ
    apply halts_perform_bind
    apply Halts.ite (fun _ => .pure)
    intro hfailed
    apply Halts.ite (fun _ => .pure)
    intro htimedOut
    apply halts_perform_bind
    apply Halts.ite
    · exact fun _ => halts_perform_bind .pure
    intro hconsumed
    apply halts_perform_bind
    apply Halts.ite _ (fun _ => .pure)
    intro hbusy
    have hready := lt_of_le_of_ne (not_lt.mp hfailed) (Ne.symm htimedOut)
    exact ih _ (hlib.receives s socket hready hconsumed hbusy) _ rfl

theorem drainResults_halts (s : σ) : Halts (drainResults lib) s := by
  induction hk : left s using Nat.strongRecOn generalizing s with
  | ind k ih =>
    subst hk
    apply Halts.of_succ
    apply halts_perform_bind
    cases hr : (lib.call .getResult s).1 with
    | none => exact .pure
    | some r => exact ih _ (hlib.answers s r hr) _ rfl

theorem consumeResult_halts (result : Option ρ) (s : σ) : Halts (consumeResult lib result) s := by
  induction hk : left s using Nat.strongRecOn generalizing s result with
  | ind k ih =>
    subst hk
    apply Halts.of_succ
    apply halts_perform_bind
    cases hr : (lib.call .getResult s).1 with
    | none =>
      cases result with
      | none => exact .pure
      | some result => exact .pure
    | some r =>
      apply Halts.ite
      · exact fun _ => ih _ (hlib.answers s r hr) _ _ rfl
      · exact fun _ => (drainResults_halts hlib _).bind fun _ _ => .pure

theorem executeQuery_halts (statement : δ) (s : σ) : Halts (executeQuery lib statement) s := by
  apply halts_perform_bind
  apply Halts.ite (fun _ => .pure)
  intro _
  apply halts_perform_bind
  apply Halts.ite
  · exact fun _ => halts_perform_bind .pure
  intro _
  apply (checkForPollOut_halts hlib _ _).bind
  intro pollOut s'
  cases pollOut with
  | error e => exact .pure
  | ok u =>
    apply (checkForPollIn_halts hlib _ _).bind
    intro pollIn s''
    cases pollIn with
    | error e => exact .pure
    | ok u => exact consumeResult_halts hlib none s''

end Waits

theorem executeAttempts_halts (hclock : Clocked lib clock longest) (hlib : Responsive lib left)
    (statement : δ) (timeout : ℤ) (attemptsLeft attempts : ℕ) (s : σ) :
    Halts (fun fuel => executeAttempts lib statement timeout fuel attemptsLeft attempts) s := by
  induction attemptsLeft generalizing attempts s with
  | zero => exact .pure
  | succ attemptsLeft ih =>
    apply (reconnectIfLost_halts hclock timeout s).bind
    intro lost s'
    cases lost with
    | some e => exact .pure
    | none =>
      apply (executeQuery_halts hlib statement s').bind
      intro res s''
      cases res with
      | ok r => exact .pure
      | error err =>
        apply Halts.ite _ (fun _ => .pure)
        intro _
        apply (attemptReconnect_halts hclock timeout s'').bind
        intro lost s'''
        cases lost with
        | some e => exact .pure
        | none => exact ih _ s'''

/-- Every execution returns, and how it ends does not depend on the fuel. -/
theorem executeWithRetry_returns (hclock : Clocked lib clock longest)
    (hlib : Responsive lib left) (statement : δ) (timeout : ℤ) (s : σ) :
    ∃ outcome s', Concludes (executeWithRetry lib statement timeout) s outcome s' :=
  executeAttempts_halts hclock hlib statement timeout 2 1 s

/-- A clock next to a connection, on which every call takes a nanosecond. -/
def withClock (lib : Libpq σ δ ρ) : Libpq (σ × ℤ) δ ρ where
  call
    | .now, s => (s.2, (lib.call .now s.1).2, s.2 + 1)
    | c, s => ((lib.call c s.1).1, (lib.call c s.1).2, s.2 + 1)
  resultStatus := lib.resultStatus
  resultErrorMessage := lib.resultErrorMessage

theorem withClock_state (lib : Libpq σ δ ρ) (c : PqCall δ) (s : σ × ℤ) :
    ((withClock lib).call c s).2 = ((lib.call c s.1).2, s.2 + 1) := by
  cases c <;> rfl

theorem withClock_clocked (lib : Libpq σ δ ρ) : Clocked (withClock lib) Prod.snd 1 where
  forward c s := by
    rw [withClock_state]
    exact Int.le_add_one (le_refl _)
  now s := ⟨le_refl _, Int.le_add_one (le_refl _)⟩
  call c s _ := by rw [withClock_state]
  poll socket events timeout s h := by
    rw [withClock_state]
    simp only
    linarith
  passes socket events timeout s := by
    rw [withClock_state]
    exact Int.lt_succ s.2

def Server.owing (s : Server δ) : ℕ := if s.inFlight.isSome && !s.read then 1 else 0

theorem server_responsive : Responsive (withClock server : Libpq (Server δ × ℤ) δ δ)
    fun s => s.1.owing where
  sends s socket h := absurd h (lt_irrefl (0 : ℤ))
  receives s socket _ _ h := absurd h Bool.false_ne_true
  answers := by
    rintro ⟨⟨inFlight, read, session, statuses⟩, clock⟩ r h
    cases inFlight with
    | none => cases h
    | some d =>
      cases read with
      | true => cases h
      | false => exact Nat.zero_lt_one

theorem executeWithRetry_returns_server :
    ∃ outcome s', Concludes (executeWithRetry (withClock server) "SELECT 1" 5000)
      (Server.fresh [false, true], 0) outcome s' :=
  executeWithRetry_returns (withClock_clocked server) server_responsive "SELECT 1" 5000 _

/-- A reconnect that succeeds at once. -/
theorem reconnects_inTime_server :
    ∃ error s', Concludes (attemptReconnect (withClock (server (δ := String))) 5000)
      (Server.fresh [], 0) error s' ∧ s'.2 ≤ 0 + 5000 * 1000000 + 7 * 1 :=
  reconnects_inTime (withClock_clocked server) (by decide) _

end PostgresLib.Connection
