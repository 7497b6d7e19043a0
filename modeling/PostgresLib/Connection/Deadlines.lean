import PostgresLib.Connection.Execution
import Mathlib.Tactic.Linarith

/-! # The deadline of a reconnect

`AttemptReconnect` computes its deadline once and the time that is left before each
wait. The clock is a function of the state of the connection; a wait takes as long as
it is allowed to, and every call may take some time of its own.
-/

namespace PostgresLib.Connection

open Foundations Traced

variable {σ δ ρ : Type}

def PqCall.isPoll : PqCall δ → Bool
  | poll _ _ _ => true
  | _ => false

/-- Time goes on in every call. None but a wait takes longer than so many nanoseconds, and a wait
only by the time it may last. -/
structure Clocked (lib : Libpq σ δ ρ) (clock : σ → ℤ) (longest : ℤ) : Prop where
  forward : ∀ c s, clock s ≤ clock (lib.call c s).2
  now : ∀ s, clock s ≤ (lib.call .now s).1 ∧ (lib.call .now s).1 ≤ clock (lib.call .now s).2
  call : ∀ c s, c.isPoll = false → clock (lib.call c s).2 ≤ clock s + longest
  poll : ∀ socket events timeout s, 0 ≤ timeout →
    clock (lib.call (.poll socket events timeout) s).2 ≤ clock s + timeout * 1000000 + longest
  passes : ∀ socket events timeout s,
    clock s < clock (lib.call (.poll socket events timeout) s).2

variable {lib : Libpq σ δ ρ} {clock : σ → ℤ} {longest : ℤ}

/-- A call always has an answer, so only what it leads to and what follows has to be looked at. -/
theorem leads_perform_bind {α : Type} {c : PqCall δ} {f : c.Answer ρ → Pq σ δ ρ α} {P Q : σ → Prop}
    {R : c.Answer ρ → σ → Prop} (h : ∀ s, P s → R (lib.call c s).1 (lib.call c s).2)
    (hf : ∀ a, Leads (R a) (f a) Q) : Leads P (perform lib c >>= f) Q :=
  ⟨fun s hs => (hf _).run _ (h s hs)⟩

/-- A call that is no wait takes the clock on by one call at most. -/
theorem leads_call_bind {α : Type} (hlib : Clocked lib clock longest) {c : PqCall δ}
    (hc : c.isPoll = false) {f : c.Answer ρ → Pq σ δ ρ α} {bound : ℤ} {Q : σ → Prop}
    (hf : ∀ a, Leads (fun s => clock s ≤ bound + longest) (f a) Q) :
    Leads (fun s => clock s ≤ bound) (perform lib c >>= f) Q := by
  apply leads_perform_bind (R := fun _ s => clock s ≤ bound + longest) _ hf
  intro s hs
  have hcall := hlib.call c s hc
  linarith

theorem longest_nonneg (hlib : Clocked lib clock longest) (s : σ) : 0 ≤ longest := by
  have hforward := hlib.forward .now s
  have hcall := hlib.call .now s rfl
  linarith

/-- The milliseconds that are left are not more than the nanoseconds. -/
theorem tdiv_mul_le {left : ℤ} (h : 0 ≤ left) :
    0 ≤ left.tdiv 1000000 ∧ left.tdiv 1000000 * 1000000 ≤ left := by
  rw [Int.tdiv_eq_ediv_of_nonneg h]
  omega

/-- The loop goes on for a few calls after the deadline at most. -/
theorem reconnectLoop_leads (hlib : Clocked lib clock longest) (hlongest : 0 ≤ longest)
    (deadline : ℤ) (fuel : ℕ) :
    Leads (fun s => clock s ≤ deadline + 4 * longest) (reconnectLoop lib deadline fuel)
      fun s => clock s ≤ deadline + 5 * longest := by
  induction fuel with
  | zero => exact .outOfFuel fun s hs => by linarith
  | succ fuel ih =>
    apply leads_perform_bind (R := fun now s => clock s ≤ deadline + 5 * longest ∧
      clock s ≤ now + longest)
    · intro s hs
      have hcall := hlib.call .now s rfl
      have hnow := (hlib.now s).1
      exact ⟨by linarith, by linarith⟩
    intro now
    apply Leads.ite
    · exact fun _ => .pure fun s hs => hs.1
    intro hbefore
    have hwait := tdiv_mul_le (Int.sub_nonneg_of_le (Int.le_of_lt (Int.not_le.mp hbefore)))
    apply Leads.mono_left (P := fun s => clock s ≤ now + longest) (fun s hs => hs.2)
    apply leads_call_bind hlib rfl
    intro st
    apply Leads.ite
    · intro _
      apply leads_call_bind hlib rfl
      intro nonblocking
      apply Leads.ite
      · intro _
        apply leads_call_bind hlib rfl
        exact fun _ => .pure fun s hs => by linarith
      · exact fun _ => .pure fun s hs => by linarith
    intro _
    apply Leads.ite
    · exact fun _ => .pure fun s hs => by linarith
    intro _
    apply leads_call_bind hlib rfl
    intro sock
    apply Leads.ite
    · exact fun _ => .pure fun s hs => by linarith
    intro _
    apply leads_perform_bind (R := fun _ s => clock s ≤ deadline + 4 * longest)
    · intro s hs
      have hpoll := hlib.poll sock (reconnectEvents st) _ s hwait.1
      linarith [hwait.2]
    intro pfd
    apply Leads.ite
    · exact fun _ => .pure fun s hs => by linarith
    intro _
    apply Leads.ite
    · exact fun _ => .pure fun s hs => by linarith
    · exact fun _ => ih

/-- A reconnect lasts no longer than its timeout and a few calls, however it ends. -/
theorem attemptReconnect_inTime (hlib : Clocked lib clock longest) {timeout : ℤ}
    (htimeout : 0 ≤ timeout) (fuel : ℕ) (s : σ) :
    clock (attemptReconnect lib timeout fuel s).state ≤
      clock s + timeout * 1000000 + 7 * longest := by
  have hlongest := longest_nonneg hlib s
  have hleads : Leads (fun s' => clock s' ≤ clock s) (attemptReconnect lib timeout fuel)
      fun s' => clock s' ≤ clock s + timeout * 1000000 + 7 * longest := by
    apply leads_call_bind hlib rfl
    intro started
    apply Leads.ite
    · exact fun _ => .pure fun s' hs => by linarith
    intro _
    apply leads_perform_bind (R := fun now s' =>
      now ≤ clock s + 2 * longest ∧ clock s' ≤ now + longest)
    · intro s' hs
      have hcall := hlib.call .now s' rfl
      have hnow := hlib.now s'
      exact ⟨by linarith, by linarith⟩
    intro now
    constructor
    rintro s' ⟨hnow, hs⟩
    have hloop := (reconnectLoop_leads hlib hlongest (now + timeout * 1000000) fuel).run s'
      (by linarith)
    linarith
  exact hleads.run s (le_refl _)

end PostgresLib.Connection
