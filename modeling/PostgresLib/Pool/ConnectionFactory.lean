import PostgresLib.Foundations.KeyedStore
import PostgresLib.Foundations.Separators
import PostgresLib.Pool.Model

/-! # The registry of connection factories

The pool asks a registry for new connections. A registry has one function for each
connection type, the one registered last, and a call runs it and nothing else. For a
type without a function the message of the error is put together in a buffer of 35
characters, which has room for names of at most three.
-/

namespace PostgresLib.Pool

open Foundations

/-- What cuts an evaluation off: a write outside of an array, a cast to a type the object does not
have, or an exception, which only registered functions throw. -/
inductive Abort where
  | outOfBounds | wrongType | exception
  deriving DecidableEq

/-- An evaluation that reads and changes a world outside of the registry. -/
abbrev Eval (ω α : Type) : Type := ExceptT Abort (StateM ω) α

/-- An object of a class derived from `IConnection`: its class and its address. -/
structure IConnection (τ : Type) where
  dynamicType : τ
  address : ℕ
  deriving DecidableEq

/-- `ConnectionResult`; a pointer is nothing when it is null. -/
abbrev ConnectionResult (τ : Type) : Type := Except ConnectionError (Option (IConnection τ))

/-- `CreateConnectionFn`. A call runs a copy of the function object, so that nothing but the world
outlasts it. -/
abbrev CreateConnectionFn (ω τ : Type) : Type := Eval ω (ConnectionResult τ)

def nul : Char := Char.ofNat 0

/-- What the language knows of the connection types: `type_info::name`, which ends before the first
zero, and which classes are derived from which. -/
structure TypeInfo (τ : Type) where
  name : τ → List Char
  nul_not_mem_name : ∀ T, nul ∉ name T
  isA : τ → τ → Bool

structure ConnectionFactory (ω τ : Type) where
  factories : KeyedStore τ (CreateConnectionFn ω τ)

variable {ω τ : Type} [DecidableEq τ]

/-- The closure `register_factory` stores, which hands on the pointer as one to `IConnection`. -/
def upcast (fn : CreateConnectionFn ω τ) : Eval ω (ConnectionResult τ) := do
  match ← fn with
  | .error e => return .error e
  | .ok typedPtr => return .ok typedPtr

def ConnectionFactory.registerFactory (f : ConnectionFactory ω τ) (T : τ)
    (fn : CreateConnectionFn ω τ) : ConnectionFactory ω τ where
  factories := f.factories.insert T (upcast fn)

def cString (buffer : List Char) : List Char := buffer.takeWhile (· ≠ nul)

/-- `char buffer[35] = "No factory registered for type "`. -/
def messageBuffer : List Char :=
  "No factory registered for type ".toList ++ List.replicate 4 nul

/-- `strcat`, which also copies the zero behind `src`. -/
def strcat (buffer src : List Char) : Eval ω (List Char) :=
  let length := (cString buffer).length + src.length
  if length < buffer.length then
    pure (cString buffer ++ src ++ nul :: buffer.drop (length + 1))
  else throw .outOfBounds

/-- `static_cast<T*>` of a pointer to `IConnection`. -/
def staticCast (types : TypeInfo τ) (T : τ) :
    Option (IConnection τ) → Eval ω (Option (IConnection τ))
  | none => pure none
  | some c => if types.isA c.dynamicType T then pure (some c) else throw .wrongType

def ConnectionFactory.createConnection (f : ConnectionFactory ω τ) (types : TypeInfo τ) (T : τ) :
    Eval ω (ConnectionResult τ) :=
  match f.factories.lookup T with
  | none => do
    let buffer ← strcat messageBuffer (types.name T)
    return .error ⟨.factoryNotRegistered, String.ofList (cString buffer)⟩
  | some factory => do
    match ← factory with
    | .error e => return .error e
    | .ok basePtr =>
      let typedPtr ← staticCast types T basePtr
      return .ok typedPtr

abbrev Registration (ω τ : Type) : Type := τ × CreateConnectionFn ω τ

def registered (history : List (Registration ω τ)) : ConnectionFactory ω τ :=
  history.foldl (fun f r => f.registerFactory r.1 r.2) { factories := ∅ }

section Run

variable {α β : Type}

/-- A computation behind one that ends with a value starts in the world that one left. -/
theorem bind_of_ok {m : Eval ω α} {w w' : ω} {a : α} (h : m w = (.ok a, w')) (f : α → Eval ω β) :
    (m >>= f) w = f a w' := by
  change (StateT.bind m (ExceptT.bindCont f)) w = f a w'
  rw [StateT.bind, h]
  rfl

/-- A computation behind one that is cut off does not run. -/
theorem bind_of_error {m : Eval ω α} {w w' : ω} {e : Abort} (h : m w = (.error e, w'))
    (f : α → Eval ω β) : (m >>= f) w = (.error e, w') := by
  change (StateT.bind m (ExceptT.bindCont f)) w = (.error e, w')
  rw [StateT.bind, h]
  rfl

end Run

omit [DecidableEq τ] in
theorem upcast_eq (fn : Eval ω (ConnectionResult τ)) : upcast fn = fn := by
  funext w
  rcases h : fn w with ⟨e | r, w'⟩
  · exact bind_of_error h _
  · rw [upcast, bind_of_ok h]
    cases r with
    | error => rfl
    | ok => rfl

theorem registered_factories (history : List (Registration ω τ)) :
    (registered history).factories = insertAll ∅ history := by
  have hfold (f : ConnectionFactory ω τ) : (history.foldl (fun f r => f.registerFactory r.1 r.2)
      f).factories = insertAll f.factories history := by
    induction history generalizing f with
    | nil => rfl
    | cons r history ih =>
      rw [List.foldl_cons, ih, insertAll_cons, ConnectionFactory.registerFactory, upcast_eq]
  exact hfold { factories := ∅ }

variable (types : TypeInfo τ) {T : τ} {f : ConnectionFactory ω τ}

/-- The outcome is no object of another class. -/
def ReturnsA (T : τ) (outcome : Except Abort (ConnectionResult τ)) : Prop :=
  ∀ c, outcome = .ok (.ok (some c)) → types.isA c.dynamicType T = true

/-- A call does what the function in the registry does, unless the cast fails. -/
theorem createConnection_eq_iff {fn : Eval ω (ConnectionResult τ)}
    (h : f.factories.lookup T = some fn) (w : ω) :
    f.createConnection types T w = fn w ↔ ReturnsA types T (fn w).1 := by
  rw [ConnectionFactory.createConnection, h]
  rcases hfn : fn w with ⟨e | e | ptr, w'⟩
  · exact iff_of_true (bind_of_error hfn _) fun c hc => nomatch hc
  · exact iff_of_true (bind_of_ok hfn _) fun c hc => nomatch hc
  · simp only [bind_of_ok hfn]
    cases ptr with
    | none => exact iff_of_true rfl fun c hc => nomatch hc
    | some c =>
      by_cases hc : types.isA c.dynamicType T = true
      · refine iff_of_true ?_ fun c' hc' => ?_
        · rw [staticCast, if_pos hc]
          rfl
        · cases hc'
          exact hc
      · refine iff_of_false (fun heq => ?_) fun hreturns => hc (hreturns c rfl)
        rw [staticCast, if_neg hc] at heq
        cases heq

def notRegistered (T : τ) : ConnectionError :=
  ⟨.factoryNotRegistered,
    String.ofList ("No factory registered for type ".toList ++ types.name T)⟩

/-- Names of at most three characters fit into the buffer. -/
theorem strcat_messageBuffer (name : List Char) (w : ω) :
    strcat messageBuffer name w =
      if name.length ≤ 3 then
        (.ok ("No factory registered for type ".toList ++ name ++
          nul :: messageBuffer.drop (31 + name.length + 1)), w)
      else (.error .outOfBounds, w) := by
  have htext : cString messageBuffer = "No factory registered for type ".toList := by decide
  have hlength : (cString messageBuffer).length = 31 := by decide
  have hcapacity : messageBuffer.length = 35 := by decide
  rw [strcat, hlength, hcapacity, htext]
  by_cases hname : name.length ≤ 3
  · rw [if_pos hname, if_pos (by omega)]
    rfl
  · rw [if_neg hname, if_neg (by omega)]
    rfl

/-- For a type without a function the call returns the error, or writes behind the buffer. -/
theorem createConnection_of_none (h : f.factories.lookup T = none) (w : ω) :
    f.createConnection types T w =
      if (types.name T).length ≤ 3 then (.ok (.error (notRegistered types T)), w)
      else (.error .outOfBounds, w) := by
  rw [ConnectionFactory.createConnection, h]
  have hbuffer := strcat_messageBuffer (types.name T) w
  by_cases hname : (types.name T).length ≤ 3
  · rw [if_pos hname] at hbuffer ⊢
    simp only [bind_of_ok hbuffer]
    have hnul : nul ∉ "No factory registered for type ".toList ++ types.name T := by
      rw [List.mem_append]
      rintro (htext | hmem)
      · exact absurd htext (by decide)
      · exact types.nul_not_mem_name T hmem
    change (Except.ok (Except.error _), w) = _
    rw [cString, ← beforeFirst, beforeFirst_append_cons hnul, notRegistered]
  · rw [if_neg hname] at hbuffer ⊢
    exact bind_of_error hbuffer _

/-- A call for the type runs the function registered last for it and returns what that returns;
registrations for other types do not matter, and without one for this type the call returns the
error that names it. -/
structure RunsLast (history : List (Registration ω τ)) (T : τ) (w : ω) : Prop where
  last : ∀ fn, Last T fn history → (registered history).createConnection types T w = fn w
  others : (registered (history.filter fun r => r.1 = T)).createConnection types T w =
    (registered history).createConnection types T w
  absent : Absent T history →
    (registered history).createConnection types T w = (.ok (.error (notRegistered types T)), w)

/-- This holds exactly when the function registered last for the type returns no object of another
class and, without any, the name of the type has at most three characters. -/
theorem runsLast_iff (history : List (Registration ω τ)) (T : τ) (w : ω) :
    RunsLast types history T w ↔
      (∀ fn, Last T fn history → ReturnsA types T (fn w).1) ∧
        (Absent T history → (types.name T).length ≤ 3) := by
  have hlast (fn : Eval ω (ConnectionResult τ)) (h : Last T fn history) :
      (registered history).createConnection types T w = fn w ↔ ReturnsA types T (fn w).1 := by
    apply createConnection_eq_iff
    rw [registered_factories, lookup_insertAll_of_last h]
  have hothers : (registered (history.filter fun r => r.1 = T)).createConnection types T w =
      (registered history).createConnection types T w := by
    rw [ConnectionFactory.createConnection, registered_factories, lookup_insertAll_filter,
      ← registered_factories]
    rfl
  have hnone (habsent : Absent T history) : (registered history).factories.lookup T = none := by
    rw [registered_factories, lookup_insertAll_of_absent habsent, AList.lookup_empty]
  constructor
  · intro h
    refine ⟨fun fn hfn => (hlast fn hfn).mp (h.last fn hfn), fun habsent => ?_⟩
    by_contra hname
    have herror := h.absent habsent
    rw [createConnection_of_none types (hnone habsent), if_neg hname] at herror
    cases herror
  · rintro ⟨hreturns, hname⟩
    refine ⟨fun fn hfn => (hlast fn hfn).mpr (hreturns fn hfn), hothers, fun habsent => ?_⟩
    rw [createConnection_of_none types (hnone habsent), if_pos (hname habsent)]

inductive TestConnection where
  | connA | connB
  deriving DecidableEq

def testTypes : TypeInfo TestConnection where
  name
    | .connA => "N12_GLOBAL__N_15ConnAE".toList
    | .connB => "N12_GLOBAL__N_15ConnBE".toList
  nul_not_mem_name T := by cases T <;> decide
  isA S T := decide (S = T)

/-- For a type that was never registered the message is written behind the end of the buffer. -/
theorem runsLast_fails :
    ¬ (∀ (types : TypeInfo TestConnection) (history : List (Registration Unit TestConnection))
      (T : TestConnection) (w : Unit), RunsLast types history T w) ∧
    (registered ([] : List (Registration Unit TestConnection))).createConnection testTypes .connA
      () = (.error .outOfBounds, ()) := by
  have hoverflow : (registered ([] : List (Registration Unit TestConnection))).createConnection
      testTypes .connA () = (.error .outOfBounds, ()) := by
    rw [createConnection_of_none testTypes rfl, if_neg (by decide)]
  refine ⟨fun h => ?_, hoverflow⟩
  have habsent := (h testTypes [] .connA ()).absent fun _ hmem => absurd hmem List.not_mem_nil
  rw [hoverflow] at habsent
  cases habsent

end PostgresLib.Pool
