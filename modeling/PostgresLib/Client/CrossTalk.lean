import PostgresLib.Client.Fifo

/-! # The results that callbacks are given

A result goes from an execution to the callback of its request, and an execution
only returns what its own statement produced, whatever an earlier request has left
in flight.
-/

namespace PostgresLib.Client

open Foundations Connection PostgresClient

variable {σ ρ : Type} {lib : Libpq σ Submission ρ} {heartbeatEnabled : Bool} {callbackThreads : ℕ}
  {s : PostgresClient σ ρ} {inFlight : σ → Option Submission} {producedBy : ρ → Submission}

/-- The result of an execution was produced by the statement of its submission. -/
theorem ending_producedBy (hlib : Attribution lib inFlight producedBy) {x : Execution σ}
    {result : ρ}
    (h : (x.ending lib).result = some (.ok result)) : producedBy result = x.submission :=
  executeWithRetry_producedBy hlib h

/-- A result that `on_success` of a request is given was produced by that request's statement. -/
theorem result_of_own_request (hlib : Attribution lib inFlight producedBy)
    (h : (system lib heartbeatEnabled callbackThreads).Reachable s) :
    ∀ task ∈ s.invoked, ∀ result, task.outcome = .ok result →
      ∃ r ∈ s.pushed, r.id = task.id ∧ producedBy result = .request r := by
  intro task hmem result hresult
  rcases justified_invoked h task hmem with ⟨x, hx, r, hr, hid, hending⟩ | herror
  · rw [hresult] at hending
    have hexecuted : r ∈ s.executed := List.mem_filterMap.mpr ⟨x, hx, by rw [hr]; rfl⟩
    have hpushed : r ∈ s.pushed := (sequenced_of_reachable h).1.subset hexecuted
    exact ⟨r, hpushed, hid, (ending_producedBy hlib hending).trans hr⟩
  · rw [hresult] at herror
    cases herror

theorem result_of_own_request_servedOne :
    ∃ r ∈ servedOne.pushed, r.id = 0 ∧ id (Submission.request firstRequest) = .request r :=
  result_of_own_request server_attribution servedOne_reachable
    ⟨0, .ok (.request firstRequest)⟩ (List.mem_singleton_self _) _ rfl

end PostgresLib.Client
