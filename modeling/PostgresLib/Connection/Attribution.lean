import PostgresLib.Connection.Execution

/-! # Which statement a result belongs to

libpq has at most one command in flight, and its results are those of that command.
Several failures leave the command in flight, so what an attempt relies on is that
its own send was accepted.
-/

namespace PostgresLib.Connection

open Foundations Traced

variable {σ δ ρ : Type}

/-- The calls that neither start a command nor end one. -/
def PqCall.Keeps : PqCall δ → Prop
  | sendQueryParams _ | getResult | resetStart | resetPoll => False
  | _ => True

theorem PqCall.Waits.keeps {c : PqCall δ} (h : c.Waits) : c.Keeps := by
  cases c with
  | sendQueryParams d => cases h
  | getResult => cases h
  | resetStart => cases h
  | resetPoll => cases h
  | _ => trivial

/-- What libpq documents: a send is accepted only on an idle connection and makes it busy with that
statement, results belong to the statement in flight, and only the end of the results or a reset
makes the connection idle. -/
structure Attribution (lib : Libpq σ δ ρ) (inFlight : σ → Option δ) (producedBy : ρ → δ) :
    Prop where
  accepted : ∀ d s, (lib.call (.sendQueryParams d) s).1 ≠ 0 →
    inFlight s = none ∧ inFlight (lib.call (.sendQueryParams d) s).2 = some d
  refused : ∀ d s, (lib.call (.sendQueryParams d) s).1 = 0 →
    inFlight (lib.call (.sendQueryParams d) s).2 = inFlight s
  result : ∀ s r, (lib.call .getResult s).1 = some r →
    inFlight s = some (producedBy r) ∧ inFlight (lib.call .getResult s).2 = inFlight s
  keeps : ∀ c s, c.Keeps → inFlight (lib.call c s).2 = inFlight s

variable {lib : Libpq σ δ ρ} {inFlight : σ → Option δ} {producedBy : ρ → δ}

def SameCommand (inFlight : σ → Option δ) (s : σ) (_ : List (Event σ δ ρ)) (s' : σ) : Prop :=
  inFlight s' = inFlight s

theorem sameCommand_compositional :
    Compositional (SameCommand inFlight : σ → List (Event σ δ ρ) → σ → Prop) where
  nil _ := rfl
  append _ _ _ _ _ h h' := h'.trans h

/-- A result, if there is one, was produced by the statement. -/
def ProducedBy (producedBy : ρ → δ) (statement : δ) (res : Except SqlError ρ) (_ : σ) : Prop :=
  ∀ r, res = .ok r → producedBy r = statement

theorem triple_error (P : σ → Prop) (statement : δ) (e : SqlError) :
    Triple P (pure (.error e) : Pq σ δ ρ (Except SqlError ρ)) (ProducedBy producedBy statement) :=
  .pure fun _ _ => nofun

section Attribution

variable (hlib : Attribution lib inFlight producedBy)
include hlib

theorem perform_sameCommand {c : PqCall δ} (h : c.Keeps) :
    Follows (SameCommand inFlight) (perform lib c) :=
  ⟨fun s => hlib.keeps c s h⟩

theorem checkForPollOut_sameCommand (socket : ℤ) (fuel : ℕ) :
    Follows (SameCommand inFlight) (checkForPollOut lib socket fuel) :=
  checkForPollOut_follows lib sameCommand_compositional
    (fun _ hc => perform_sameCommand hlib hc.keeps) socket fuel

theorem checkForPollIn_sameCommand (socket : ℤ) (fuel : ℕ) :
    Follows (SameCommand inFlight) (checkForPollIn lib socket fuel) :=
  checkForPollIn_follows lib sameCommand_compositional
    (fun _ hc => perform_sameCommand hlib hc.keeps) socket fuel

theorem getResult_producedBy (statement : δ) :
    Triple (fun s => inFlight s = some statement) (pqGetResult lib)
      fun r s => ∀ r', r = some r' → producedBy r' = statement ∧ inFlight s = some statement := by
  constructor
  intro s r hs hr r' hr'
  cases hr
  obtain ⟨hbefore, hafter⟩ := hlib.result s r' hr'
  rw [hs] at hbefore
  exact ⟨(Option.some.inj hbefore).symm, hafter.trans hs⟩

theorem consumeResult_producedBy (statement : δ) (result : Option ρ) (fuel : ℕ)
    (hresult : ∀ r, result = some r → producedBy r = statement) :
    Triple (fun s => inFlight s = some statement) (consumeResult lib result fuel)
      (ProducedBy producedBy statement) := by
  induction fuel generalizing result with
  | zero => exact .outOfFuel
  | succ fuel ih =>
    apply Triple.bind (getResult_producedBy hlib statement)
    intro r
    cases r with
    | some r =>
      apply Triple.of_pure fun s hs => (hs r rfl).1
      intro hr
      apply Triple.ite
      · have hkept : ∀ r', some (result.getD r) = some r' → producedBy r' = statement := by
          intro r' hr'
          cases hr'
          cases result with
          | none => exact hr
          | some first => exact hresult first rfl
        exact (ih _ hkept).mono (fun s hs => (hs r rfl).2) fun _ _ h => h
      · exact Triple.bind (.true _) fun _ => triple_error _ _ _
    | none =>
      cases result with
      | none => exact triple_error _ _ _
      | some result =>
        apply Triple.pure
        intro s _ r hr
        cases hr
        exact hresult result rfl

theorem awaitResult_producedBy (statement : δ) (socket : ℤ) (fuel : ℕ) :
    Triple (fun s => inFlight s = some statement) (awaitResult lib socket fuel)
      (ProducedBy producedBy statement) := by
  have hkeeps {s s' : σ} {es : List (Event σ δ ρ)} (h : SameCommand inFlight s es s')
      (hs : inFlight s = some statement) : inFlight s' = some statement := h.trans hs
  apply Triple.bind ((checkForPollOut_sameCommand hlib socket fuel).triple fun _ _ _ => hkeeps)
  intro pollOut
  cases pollOut with
  | error e => exact triple_error _ _ _
  | ok u =>
    apply Triple.bind ((checkForPollIn_sameCommand hlib socket fuel).triple fun _ _ _ => hkeeps)
    intro pollIn
    cases pollIn with
    | error e => exact triple_error _ _ _
    | ok u => exact consumeResult_producedBy hlib statement none fuel nofun

/-- What an attempt answers was produced by its own statement, whatever was in flight before. -/
theorem executeQuery_producedBy (statement : δ) (fuel : ℕ) :
    Triple (fun _ => True) (executeQuery lib statement fuel) (ProducedBy producedBy statement) := by
  apply Triple.bind (.true _)
  intro sock
  apply Triple.ite (triple_error _ _ _)
  have hsend : Triple (fun _ => True) (pqSendQueryParams lib statement)
      fun ok s => ok ≠ 0 → inFlight s = some statement := by
    constructor
    intro s ok _ hok hne
    cases hok
    exact (hlib.accepted statement s hne).2
  apply Triple.bind hsend
  intro ok
  by_cases hok : ok = 0
  · rw [if_pos hok]
    exact Triple.bind (.true _) fun _ => triple_error _ _ _
  · rw [if_neg hok]
    exact (awaitResult_producedBy hlib statement sock fuel).mono (fun _ hs => hs hok) fun _ _ h => h

theorem executeAttempts_producedBy (statement : δ) (timeout : ℤ) (fuel left attempts : ℕ) :
    Triple (fun _ => True) (executeAttempts lib statement timeout fuel left attempts)
      (ProducedBy producedBy statement) := by
  induction left generalizing attempts with
  | zero => exact triple_error _ _ _
  | succ left ih =>
    apply Triple.bind (.true _)
    intro lost
    cases lost with
    | some e => exact triple_error _ _ _
    | none =>
      apply Triple.bind (executeQuery_producedBy hlib statement fuel)
      intro res
      cases res with
      | ok r => exact .pure fun s hs => hs
      | error err =>
        apply Triple.ite _ (triple_error _ _ _)
        apply Triple.bind (.true _)
        intro lost
        cases lost with
        | some e => exact triple_error _ _ _
        | none => exact ih _

theorem executeWithRetry_producedBy {statement : δ} {timeout : ℤ} {fuel : ℕ} {s : σ} {r : ρ}
    (h : (executeWithRetry lib statement timeout fuel s).result = some (.ok r)) :
    producedBy r = statement :=
  (executeAttempts_producedBy hlib statement timeout fuel 2 1).run s _ trivial h r rfl

end Attribution

end PostgresLib.Connection
