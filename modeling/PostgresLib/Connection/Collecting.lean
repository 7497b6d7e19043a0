import PostgresLib.Connection.Execution

/-! # Collecting the results of a command

`ConsumeResult` asks for results until there are none. For an ordinary command there
are finitely many; a COPY goes on until the caller ends it with calls the program
never makes.
-/

namespace PostgresLib.Connection

open Foundations Traced

variable {σ δ ρ : Type}

/-- What a connection has left of the command in progress: its results, and whether behind them
the command is over or a COPY waits for the caller. -/
inductive Phase (ρ : Type) where
  | idle
  | active (results : List ρ)
  | copying (results : List ρ)

/-- A COPY waits, or will when the results have been read. -/
def Phase.Copies : Phase ρ → Prop
  | copying _ => True
  | _ => False

/-- What libpq documents: the results of a command come one at a time, and then a null pointer,
with which the connection is idle; a COPY yields a result for it on every call. -/
structure ResultProtocol (lib : Libpq σ δ ρ) (phase : σ → Phase ρ) : Prop where
  idle : ∀ s, phase s = .idle →
    (lib.call .getResult s).1 = none ∧ phase (lib.call .getResult s).2 = .idle
  result : ∀ s r rs, phase s = .active (r :: rs) →
    (lib.call .getResult s).1 = some r ∧ phase (lib.call .getResult s).2 = .active rs
  finished : ∀ s, phase s = .active [] →
    (lib.call .getResult s).1 = none ∧ phase (lib.call .getResult s).2 = .idle
  beforeCopy : ∀ s r rs, phase s = .copying (r :: rs) →
    (lib.call .getResult s).1 = some r ∧ phase (lib.call .getResult s).2 = .copying rs
  copy : ∀ s, phase s = .copying [] → ∃ r, (lib.call .getResult s).1 = some r ∧
    (lib.resultStatus r = .copyIn ∨ lib.resultStatus r = .copyOut) ∧
    phase (lib.call .getResult s).2 = .copying []

variable (lib : Libpq σ δ ρ) (phase : σ → Phase ρ)

/-- `ConsumeResult` reaches its end, and the connection is idle there. -/
def Collects (s : σ) : Prop :=
  ∃ fuel res s', Ends (consumeResult lib none fuel) s res s' ∧ phase s' = .idle

variable {lib phase}

theorem perform_ends (c : PqCall δ) (s : σ) {a : c.Answer ρ} (h : (lib.call c s).1 = a) :
    Ends (perform lib c) s a (lib.call c s).2 :=
  ⟨congrArg some h, rfl⟩

section Protocol

variable (hlib : ResultProtocol lib phase)
include hlib

theorem drainResults_ends (rs : List ρ) {s : σ} (h : phase s = .active rs) :
    ∃ s', Ends (drainResults lib (rs.length + 1)) s () s' ∧ phase s' = .idle := by
  induction rs generalizing s with
  | nil =>
    rcases hlib.finished s h with ⟨hnull, hidle⟩
    exact ⟨_, (perform_ends .getResult s hnull).bind .pure, hidle⟩
  | cons r rs ih =>
    rcases hlib.result s r rs h with ⟨hsome, hnext⟩
    rcases ih hnext with ⟨s', hends, hidle⟩
    exact ⟨s', (perform_ends .getResult s hsome).bind hends, hidle⟩

/-- In a COPY it never comes to an end. -/
theorem drainResults_exhausts (fuel : ℕ) (rs : List ρ) {s : σ} (h : phase s = .copying rs) :
    Exhausts (drainResults lib fuel) s := by
  induction fuel generalizing rs s with
  | zero => exact .outOfFuel
  | succ fuel ih =>
    cases rs with
    | nil =>
      rcases hlib.copy s h with ⟨r, hsome, -, hnext⟩
      exact (perform_ends .getResult s hsome).bind_exhausts (ih [] hnext)
    | cons r rs =>
      rcases hlib.beforeCopy s r rs h with ⟨hsome, hnext⟩
      exact (perform_ends .getResult s hsome).bind_exhausts (ih rs hnext)

/-- The outer loop reads the results of an ordinary command, with the inner loop after an error. -/
theorem consumeResult_ends (rs : List ρ) (result : Option ρ) {s : σ} (h : phase s = .active rs) :
    ∃ res s', Ends (consumeResult lib result (rs.length + 1)) s res s' ∧ phase s' = .idle := by
  induction rs generalizing result s with
  | nil =>
    rcases hlib.finished s h with ⟨hnull, hidle⟩
    cases result with
    | none => exact ⟨_, _, (perform_ends .getResult s hnull).bind .pure, hidle⟩
    | some result => exact ⟨_, _, (perform_ends .getResult s hnull).bind .pure, hidle⟩
  | cons r rs ih =>
    rcases hlib.result s r rs h with ⟨hsome, hnext⟩
    by_cases hok : lib.resultStatus r = .tuplesOk ∨ lib.resultStatus r = .commandOk
    · rcases ih (some (result.getD r)) hnext with ⟨res, s', hends, hidle⟩
      refine ⟨res, s', (perform_ends .getResult s hsome).bind ?_, hidle⟩
      dsimp only
      rwa [if_pos hok]
    · rcases drainResults_ends hlib rs hnext with ⟨s', hends, hidle⟩
      refine ⟨.error (.queryFailed (lib.resultErrorMessage r)), s',
        (perform_ends .getResult s hsome).bind ?_, hidle⟩
      dsimp only
      rw [if_neg hok]
      exact hends.bind .pure

theorem consumeResult_exhausts (fuel : ℕ) (rs : List ρ) (result : Option ρ) {s : σ}
    (h : phase s = .copying rs) : Exhausts (consumeResult lib result fuel) s := by
  induction fuel generalizing rs result s with
  | zero => exact .outOfFuel
  | succ fuel ih =>
    have hround : ∃ r rs', (lib.call .getResult s).1 = some r ∧
        phase (lib.call .getResult s).2 = .copying rs' := by
      cases rs with
      | nil =>
        rcases hlib.copy s h with ⟨r, hsome, -, hnext⟩
        exact ⟨r, [], hsome, hnext⟩
      | cons r rs =>
        rcases hlib.beforeCopy s r rs h with ⟨hsome, hnext⟩
        exact ⟨r, rs, hsome, hnext⟩
    rcases hround with ⟨r, rs', hsome, hnext⟩
    apply (perform_ends .getResult s hsome).bind_exhausts
    dsimp only
    by_cases hok : lib.resultStatus r = .tuplesOk ∨ lib.resultStatus r = .commandOk
    · rw [if_pos hok]
      exact ih rs' _ hnext
    · rw [if_neg hok]
      exact (drainResults_exhausts hlib fuel rs' hnext).bind

/-- Collecting the results of a command comes to an end exactly when the command is no COPY that
waits for the caller. -/
theorem collects_iff (s : σ) : Collects lib phase s ↔ ¬ (phase s).Copies := by
  cases h : phase s with
  | idle =>
    rcases hlib.idle s h with ⟨hnull, hidle⟩
    have hends : Ends (consumeResult lib none 1) s (.error (.queryFailed "no results received"))
        (lib.call .getResult s).2 := (perform_ends .getResult s hnull).bind .pure
    exact iff_of_true ⟨1, _, _, hends, hidle⟩ id
  | active rs =>
    rcases consumeResult_ends hlib rs none h with ⟨res, s', hends, hidle⟩
    exact iff_of_true ⟨_, res, s', hends, hidle⟩ id
  | copying rs =>
    refine iff_of_false ?_ (fun hcopy => hcopy trivial)
    rintro ⟨fuel, res, s', hends, -⟩
    have hnone := consumeResult_exhausts hlib fuel rs none h
    rw [Exhausts, hends.result] at hnone
    cases hnone

end Protocol

/-- A server that replies to each statement with the results given for it. -/
def replying (reply : δ → Phase ExecStatus) : Libpq (Phase ExecStatus) δ ExecStatus where
  call
    | .status, s => (true, s)
    | .socket, s => (3, s)
    | .sendQueryParams d, _ => (1, reply d)
    | .errorMessage, s => ("", s)
    | .flush, s => (0, s)
    | .poll _ _ _, s => (⟨1, false⟩, s)
    | .consumeInput, s => (1, s)
    | .isBusy, s => (false, s)
    | .getResult, s =>
      match s with
      | .idle => (none, .idle)
      | .active [] => (none, .idle)
      | .active (r :: rs) => (some r, .active rs)
      | .copying [] => (some .copyIn, .copying [])
      | .copying (r :: rs) => (some r, .copying rs)
    | .resetStart, s => (true, s)
    | .resetPoll, _ => (.ok, .idle)
    | .setnonblocking, s => (0, s)
    | .now, s => (0, s)
  resultStatus := id
  resultErrorMessage _ := ""

theorem replying_protocol (reply : δ → Phase ExecStatus) :
    ResultProtocol (replying reply) id where
  idle s h := by
    cases h
    exact ⟨rfl, rfl⟩
  result s r rs h := by
    cases h
    exact ⟨rfl, rfl⟩
  finished s h := by
    cases h
    exact ⟨rfl, rfl⟩
  beforeCopy s r rs h := by
    cases h
    exact ⟨rfl, rfl⟩
  copy s h := by
    cases h
    exact ⟨.copyIn, rfl, .inl rfl, rfl⟩

/-- An insertion that is answered, and a COPY from the client. -/
def replyOf (statement : String) : Phase ExecStatus :=
  if statement = "COPY t FROM STDIN" then .copying [] else .active [.commandOk]

theorem collects_answered : Collects (replying replyOf) id (.active [.fatalError, .commandOk]) :=
  (collects_iff (replying_protocol replyOf) _).mpr id

/-- Executing a COPY from the client never returns. -/
theorem collects_copy :
    ResultProtocol (replying replyOf) id ∧ ¬ (∀ s, Collects (replying replyOf) id s) ∧
      ∀ fuel, Exhausts (executeQuery (replying replyOf) "COPY t FROM STDIN" fuel) .idle := by
  refine ⟨replying_protocol replyOf, fun h => ?_, fun fuel => ?_⟩
  · rcases h (.copying []) with ⟨fuel, res, s', hends, -⟩
    have hnone := consumeResult_exhausts (replying_protocol replyOf) fuel [] none
      (s := .copying []) rfl
    rw [Exhausts, hends.result] at hnone
    cases hnone
  · cases fuel with
    | zero => rfl
    | succ fuel =>
      exact consumeResult_exhausts (replying_protocol replyOf) (fuel + 1) [] none
        (s := .copying []) rfl

end PostgresLib.Connection
