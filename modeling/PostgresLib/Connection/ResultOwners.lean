import PostgresLib.Connection.Execution
import Mathlib.Data.List.Perm.Basic
import Mathlib.Data.List.Range

/-! # Who clears the results

`ConsumeResult` holds what libpq hands out in a `unique_pg_result`, or clears it as it
drains the connection. With the owners in view it does what it does without, and every
result is cleared once, except the one that is returned.
-/

namespace PostgresLib.Connection

open Foundations Traced

variable {σ δ ρ : Type} (lib : Libpq σ δ ρ)

/-- The connection, how many results it has handed out, and which of them were cleared. -/
structure Handed (σ : Type) where
  connection : σ
  handed : ℕ
  cleared : List ℕ

abbrev OwnedResult (ρ : Type) := ℕ × ρ

abbrev Owning (σ δ ρ : Type) := Traced (Handed σ) (Event σ δ ρ)

/-- `PQgetResult`. -/
def getOwned : Owning σ δ ρ (Option (OwnedResult ρ)) := fun s =>
  match lib.call .getResult s.connection with
  | (none, connection) =>
    ⟨some none, [⟨.getResult, none, s.connection, connection⟩], { s with connection := connection }⟩
  | (some r, connection) =>
    ⟨some (some (s.handed, r)), [⟨.getResult, some r, s.connection, connection⟩],
      { s with connection := connection, handed := s.handed + 1 }⟩

def pqClear (r : OwnedResult ρ) : Owning σ δ ρ Unit := fun s =>
  ⟨some (), [], { s with cleared := s.cleared ++ [r.1] }⟩

/-- The destructor of a `unique_pg_result`. -/
def destroyUnique : Option (OwnedResult ρ) → Owning σ δ ρ Unit
  | some r => pqClear r
  | none => pure ()

/-- The inner loop of `ConsumeResult`. -/
def drainOwned : ℕ → Owning σ δ ρ Unit
  | 0 => outOfFuel
  | fuel + 1 => do
    let r ← getOwned lib
    match r with
    | some r => do
      pqClear r
      drainOwned fuel
    | none => return ()

/-- `ConsumeResult`, with the result kept so far. -/
def consumeOwned (result : Option (OwnedResult ρ)) :
    ℕ → Owning σ δ ρ (Except SqlError (OwnedResult ρ))
  | 0 => outOfFuel
  | fuel + 1 => do
    let r ← getOwned lib
    match r with
    | some temp =>
      if lib.resultStatus temp.2 = .tuplesOk ∨ lib.resultStatus temp.2 = .commandOk then
        match result with
        | none => consumeOwned (some temp) fuel
        | some kept => do
          pqClear temp
          consumeOwned (some kept) fuel
      else do
        drainOwned lib fuel
        pqClear temp
        destroyUnique result
        return .error (.queryFailed (lib.resultErrorMessage temp.2))
    | none =>
      match result with
      | none => return .error (.queryFailed "no results received")
      | some result => return .ok result

/-! ## The owners change nothing -/

variable {lib}

theorem getOwned_refines :
    Refines Handed.connection (Option.map Prod.snd) (getOwned lib) (pqGetResult lib) := by
  have hall : ∀ s : Handed σ, (getOwned lib s).result.map (Option.map Prod.snd) =
        (pqGetResult lib s.connection).result ∧
      (getOwned lib s).events = (pqGetResult lib s.connection).events ∧
      (getOwned lib s).state.connection = (pqGetResult lib s.connection).state := by
    intro s
    unfold getOwned pqGetResult perform
    rcases lib.call .getResult s.connection with ⟨_ | r, connection⟩ <;> exact ⟨rfl, rfl, rfl⟩
  exact ⟨fun s => (hall s).1, fun s => (hall s).2.1, fun s => (hall s).2.2⟩

theorem pqClear_silent (r : OwnedResult ρ) (s : Handed σ) :
    ∃ a, (pqClear r s : Ending _ (Event σ δ ρ) _).result = some a ∧
      (pqClear r s : Ending _ (Event σ δ ρ) _).events = [] ∧
      (pqClear r s : Ending _ (Event σ δ ρ) _).state.connection = s.connection :=
  ⟨(), rfl, rfl, rfl⟩

theorem drainOwned_refines (fuel : ℕ) :
    Refines Handed.connection id (drainOwned lib fuel) (drainResults lib fuel) := by
  induction fuel with
  | zero => exact .outOfFuel
  | succ fuel ih =>
    apply getOwned_refines.bind
    intro r
    cases r with
    | none => exact .pure
    | some r => exact .silent (pqClear_silent r) fun _ => ih

theorem destroyUnique_refines {β : Type} {n : Pq σ δ ρ β} {α : Type} {f : α → β}
    {m : Owning σ δ ρ α} (result : Option (OwnedResult ρ)) (h : Refines Handed.connection f m n) :
    Refines Handed.connection f (destroyUnique result >>= fun _ => m) n := by
  cases result with
  | none => exact .silent (fun s => ⟨(), rfl, rfl, rfl⟩) fun _ => h
  | some r => exact .silent (pqClear_silent r) fun _ => h

theorem consumeOwned_refines (result : Option (OwnedResult ρ)) (fuel : ℕ) :
    Refines Handed.connection (Except.map Prod.snd) (consumeOwned lib result fuel)
      (consumeResult lib (result.map Prod.snd) fuel) := by
  induction fuel generalizing result with
  | zero => exact .outOfFuel
  | succ fuel ih =>
    apply getOwned_refines.bind
    intro r
    cases r with
    | none =>
      cases result with
      | none => exact .pure
      | some kept => exact .pure
    | some temp =>
      apply Refines.ite
      · cases result with
        | none => exact ih (some temp)
        | some kept => exact .silent (pqClear_silent temp) fun _ => ih (some kept)
      · apply (drainOwned_refines fuel).bind
        intro u
        exact .silent (pqClear_silent temp) fun _ => destroyUnique_refines result .pure

/-! ## Every result has one owner -/

/-- Every result that was handed out was cleared, or is among these, and only once. -/
def Owned (owned : List ℕ) (s : Handed σ) : Prop :=
  (s.cleared ++ owned).Perm (List.range s.handed)

def ownedBy (r : Option (OwnedResult ρ)) : List ℕ := r.toList.map Prod.fst

theorem getOwned_owned (owned : List ℕ) :
    Triple (Owned owned) (getOwned lib) fun r => Owned (owned ++ ownedBy r) := by
  constructor
  intro s r hs hr
  unfold getOwned at hr ⊢
  generalize lib.call .getResult s.connection = answer at hr ⊢
  rcases answer with ⟨_ | a, connection⟩
  · cases hr
    rw [ownedBy, Option.toList_none, List.map_nil, List.append_nil]
    exact hs
  · cases hr
    have hmore : (s.cleared ++ owned ++ [s.handed]).Perm (List.range s.handed ++ [s.handed]) :=
      List.Perm.append_right _ hs
    rw [← List.range_succ, List.append_assoc] at hmore
    exact hmore

theorem pqClear_owned (owned : List ℕ) (r : OwnedResult ρ) :
    Triple (Owned (owned ++ [r.1])) (pqClear r : Owning σ δ ρ Unit) fun _ => Owned owned := by
  constructor
  intro s u hs _
  have hmoved : (s.cleared ++ [r.1] ++ owned).Perm (s.cleared ++ (owned ++ [r.1])) := by
    rw [List.append_assoc]
    exact List.perm_append_comm.append_left _
  exact hmoved.trans hs

theorem destroyUnique_owned (r : Option (OwnedResult ρ)) :
    Triple (Owned (ownedBy r)) (destroyUnique r : Owning σ δ ρ Unit) fun _ => Owned [] := by
  cases r with
  | none => exact .pure fun s hs => hs
  | some r => exact pqClear_owned [] r

theorem drainOwned_owned (owned : List ℕ) (fuel : ℕ) :
    Triple (Owned owned) (drainOwned lib fuel) fun _ => Owned owned := by
  induction fuel with
  | zero => exact .outOfFuel
  | succ fuel ih =>
    apply (getOwned_owned owned).bind
    intro r
    cases r with
    | none =>
      apply Triple.pure
      intro s hs
      rwa [ownedBy, Option.toList_none, List.map_nil, List.append_nil] at hs
    | some r => exact (pqClear_owned owned r).bind fun _ => ih

theorem consumeOwned_owned (result : Option (OwnedResult ρ)) (fuel : ℕ) :
    Triple (Owned (ownedBy result)) (consumeOwned lib result fuel) fun outcome =>
      Owned (ownedBy outcome.toOption) := by
  induction fuel generalizing result with
  | zero => exact .outOfFuel
  | succ fuel ih =>
    apply (getOwned_owned (ownedBy result)).bind
    intro r
    cases r with
    | none =>
      cases result with
      | none => exact .pure fun s hs => hs
      | some kept =>
        apply Triple.pure
        intro s hs
        rwa [ownedBy, ownedBy, Option.toList_none, List.map_nil, List.append_nil] at hs
    | some temp =>
      apply Triple.ite
      · cases result with
        | none => exact ih (some temp)
        | some kept => exact (pqClear_owned _ temp).bind fun _ => ih (some kept)
      · apply (drainOwned_owned _ fuel).bind
        intro u
        apply (pqClear_owned _ temp).bind
        intro u'
        apply (destroyUnique_owned result).bind
        intro u''
        exact .pure fun s hs => hs

variable (lib) in
/-- `ConsumeResult` with its owners does what it does without them, and when it ends, every result
that libpq has handed out was cleared once, except the one that is returned. -/
theorem results_cleared (fuel : ℕ) (s : σ) :
    Refines Handed.connection (Except.map Prod.snd) (consumeOwned lib none fuel)
        (consumeResult lib none fuel) ∧
      ∀ outcome, (consumeOwned lib none fuel ⟨s, 0, []⟩).result = some outcome →
        ((consumeOwned lib none fuel ⟨s, 0, []⟩).state.cleared ++ ownedBy outcome.toOption).Perm
          (List.range (consumeOwned lib none fuel ⟨s, 0, []⟩).state.handed) :=
  ⟨consumeOwned_refines none fuel, fun outcome houtcome =>
    (consumeOwned_owned none fuel).run ⟨s, 0, []⟩ outcome (List.Perm.refl _) houtcome⟩

end PostgresLib.Connection
