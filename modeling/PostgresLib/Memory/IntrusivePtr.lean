import PostgresLib.Foundations.ThreadPool
import PostgresLib.Foundations.Worklist
import Mathlib.Logic.Function.Basic

/-! # Handles and the objects they count

Objects are numbered in the order of their creation and handles in the order of
their construction. A handle may be a member of an object, and is then destroyed
when the object is deleted. The counts are those of `std::atomic_uint32_t`.
-/

namespace PostgresLib.Memory

open Foundations

/-- `intrusive_ptr`: `m_ptr`, the object it is a member of, and whether it is alive. -/
structure IntrusivePtr where
  ptr : Option ℕ
  owner : Option ℕ
  live : Bool
  deriving DecidableEq

/-- Whether a handle is alive and points to the object. -/
def IntrusivePtr.refersTo (o : ℕ) (h : IntrusivePtr) : ℕ :=
  if h.live = true ∧ h.ptr = some o then 1 else 0

/-- The number of values of `m_ref_count`. -/
def countValues : ℕ := 2 ^ 32

/-- How many objects were created, `m_ref_count` of each, the deleted objects in the order of their
deletion, and all handles. -/
structure Heap where
  created : ℕ
  refCount : ℕ → ℕ
  deleted : List ℕ
  handles : List IntrusivePtr

namespace Heap

def increment (s : Heap) (o : ℕ) : Heap :=
  { s with refCount := Function.update s.refCount o ((s.refCount o + 1) % countValues) }

/-- `release`: whether the count was one, and the heap with the count one lower. -/
def release (s : Heap) (o : ℕ) : Bool × Heap :=
  (s.refCount o = 1,
    { s with
      refCount := Function.update s.refCount o
        ((s.refCount o + (countValues - 1)) % countValues) })

/-- `increment_ref` of a handle with the given `m_ptr`. -/
def incrementRef (s : Heap) : Option ℕ → Heap
  | some o => s.increment o
  | none => s

def ptr (s : Heap) (i : ℕ) : Option ℕ := s.handles[i]?.bind (·.ptr)

def setPtr (s : Heap) (i : ℕ) (p : Option ℕ) : Heap :=
  { s with handles := s.handles.modify i fun h => { h with ptr := p } }

def die (s : Heap) (i : ℕ) : Heap :=
  { s with handles := s.handles.modify i fun h => { h with live := false } }

/-- The handles that are members of an object, in the order in which they are destroyed. -/
def members (s : Heap) (o : ℕ) : List ℕ :=
  ((List.range s.handles.length).filter fun i =>
    s.handles[i]?.any fun h => h.live && h.owner = some o).reverse

/-- A handle lets go of its object. When that is deleted, its members are still to be destroyed. -/
def letGo (s : Heap) (i : ℕ) : List ℕ × Heap :=
  match s.ptr i with
  | none => ([], s)
  | some o =>
    -- the pointer is null before the members are destroyed, not after; none of them reads it
    let after := (s.release o).2.setPtr i none
    if (s.release o).1 then
      (after.members o, { after with deleted := after.deleted ++ [o] })
    else ([], after)

/-- The destructor of a member, up to the destructors of further members. -/
def destroyMember (i : ℕ) (s : Heap) : List ℕ × Heap := ((s.letGo i).1, (s.letGo i).2.die i)

/-- `decrement_ref`. The members of a deleted object are destroyed before those that were waiting;
no more handles can be destroyed than there are. -/
def decrementRef (s : Heap) (i : ℕ) : Option Heap :=
  drain destroyMember s.handles.length (s.letGo i).1 (s.letGo i).2

def construct (s : Heap) (owner p : Option ℕ) : Heap :=
  { s with handles := s.handles ++ [⟨p, owner, true⟩] }

def HasObject (s : Heap) (o : ℕ) : Prop := o < s.created ∧ o ∉ s.deleted

instance (s : Heap) (o : ℕ) : Decidable (s.HasObject o) := inferInstanceAs (Decidable (_ ∧ _))

def HasHandle (s : Heap) (i : ℕ) : Prop := ∃ h, s.handles[i]? = some h ∧ h.live = true

instance (s : Heap) (i : ℕ) : Decidable (s.HasHandle i) :=
  decidable_of_iff (s.handles[i]?.any (·.live) = true) (Option.any_eq_true _ _)

end Heap

/-- The creation of an object and what is done with handles. A handle is constructed as a member of
an object or not. `construct` with a pointer is `intrusive_ptr(T*)` and `intrusive_from_this`. -/
inductive Op where
  | create
  | construct (owner p : Option ℕ)
  | copyConstruct (owner : Option ℕ) (other : ℕ)
  | moveConstruct (owner : Option ℕ) (other : ℕ)
  | copyAssign (self other : ℕ)
  | moveAssign (self other : ℕ)
  | reset (self : ℕ) (p : Option ℕ)
  | destroy (self : ℕ)

namespace Op

def apply : Op → Heap → Option Heap
  | create, s =>
    some { s with created := s.created + 1, refCount := Function.update s.refCount s.created 0 }
  | construct owner p, s => some ((s.incrementRef p).construct owner p)
  | copyConstruct owner other, s =>
    some ((s.incrementRef (s.ptr other)).construct owner (s.ptr other))
  | moveConstruct owner other, s => some ((s.construct owner (s.ptr other)).setPtr other none)
  | copyAssign self other, s =>
    if self = other then some s
    else
      let newTemp := s.ptr other
      ((s.incrementRef newTemp).decrementRef self).map (·.setPtr self newTemp)
  -- `other` may have been destroyed when it is read; its destructor has left a null pointer
  | moveAssign self other, s =>
    if self = other then some s
    else (s.decrementRef self).map fun s => (s.setPtr self (s.ptr other)).setPtr other none
  | reset self p, s => ((s.incrementRef p).decrementRef self).map (·.setPtr self p)
  | destroy self, s => (s.decrementRef self).map (·.die self)

/-- The handles an operation is on are alive, and so are the objects it names. -/
def Legal (s : Heap) : Op → Prop
  | create => True
  | construct owner p => (∀ a ∈ owner, s.HasObject a) ∧ ∀ o ∈ p, s.HasObject o
  | copyConstruct owner other | moveConstruct owner other =>
    (∀ a ∈ owner, s.HasObject a) ∧ s.HasHandle other
  | copyAssign self other | moveAssign self other => s.HasHandle self ∧ s.HasHandle other
  | reset self p => s.HasHandle self ∧ ∀ o ∈ p, s.HasObject o
  | destroy self => s.HasHandle self

instance (s : Heap) (op : Op) : Decidable (op.Legal s) :=
  match op with
  | create => inferInstanceAs (Decidable True)
  | construct _ _ | copyConstruct _ _ | moveConstruct _ _ => inferInstanceAs (Decidable (_ ∧ _))
  | copyAssign _ _ | moveAssign _ _ | reset _ _ => inferInstanceAs (Decidable (_ ∧ _))
  | destroy self => inferInstanceAs (Decidable (s.HasHandle self))

def target (s : Heap) : Op → Option ℕ
  | construct _ _ | copyConstruct _ _ | moveConstruct _ _ => some s.handles.length
  | copyAssign self _ | moveAssign self _ | reset self _ => some self
  | create | destroy _ => none

/-- What the argument of an operation points to. -/
def argument (s : Heap) : Op → Option ℕ
  | construct _ p | reset _ p => p
  | copyConstruct _ other | moveConstruct _ other => s.ptr other
  | copyAssign _ other | moveAssign _ other => s.ptr other
  | create | destroy _ => none

end Op

namespace Heap

/-- The number of live handles that point to an object. -/
def refs (s : Heap) (o : ℕ) : ℕ := total (IntrusivePtr.refersTo o) s.handles

/-- A member of the first object points to the second. -/
def Edge (s : Heap) (a b : ℕ) : Prop :=
  ∃ h ∈ s.handles, h.live = true ∧ h.owner = some a ∧ h.ptr = some b

def Acyclic (s : Heap) : Prop := ∀ a, ¬ Relation.TransGen s.Edge a a

end Heap

def empty : Heap where
  created := 0
  refCount _ := 0
  deleted := []
  handles := []

/-- The runs that form no reference cycle and whose operations meet a condition. -/
def runs (cond : Op → Heap → Heap → Prop) : TransitionSystem Heap where
  init s := s = empty
  step s s' := ∃ op : Op, op.Legal s ∧ op.apply s = some s' ∧ s'.Acyclic ∧ cond op s s'

/-- The counts are right, no object is deleted twice, and no live handle points to a deleted
object. -/
structure Sound (s : Heap) : Prop where
  counted : ∀ o, s.HasObject o → s.refCount o = s.refs o
  once : s.deleted.Nodup
  safe : ∀ o ∈ s.deleted, s.refs o = 0

/-- An object is deleted when its last handle goes, for good, and the handle that was constructed or
assigned to points to what the argument pointed to. -/
structure StepSound (op : Op) (s s' : Heap) : Prop where
  deletes : ∀ o, s.HasObject o → (o ∈ s'.deleted ↔ 0 < s.refs o ∧ s'.refs o = 0)
  keeps : s.deleted <+: s'.deleted
  target : ∀ i, op.target s = some i → s'.HasHandle i ∧ s'.ptr i = op.argument s

/-- The objects that are deleted when a handle lets go of its object: all their handles are that one
or members of such objects. -/
inductive Doomed (s : Heap) (t : ℕ) : ℕ → Prop
  | intro {o : ℕ} (owner : ℕ → ℕ) (hrefs : 0 < s.refs o)
      (hmember : ∀ i h, s.handles[i]? = some h → h.live = true → h.ptr = some o → i ≠ t →
        h.owner = some (owner i))
      (hdoomed : ∀ i h, s.handles[i]? = some h → h.live = true → h.ptr = some o → i ≠ t →
        Doomed s t (owner i)) : Doomed s t o

/-- The source of a move assignment does not die with what the target lets go of. -/
def Op.SparesSource (s : Heap) : Op → Prop
  | moveAssign self other =>
    self = other ∨ ∀ h a, s.handles[other]? = some h → h.owner = some a → ¬ Doomed s self a
  | _ => True

/-- The condition under which the operations do what they should: the source of a move assignment is
spared, and no object gets more handles than can be counted. -/
def Meets (op : Op) (s s' : Heap) : Prop := op.SparesSource s ∧ ∀ o, s'.refs o < countValues

end PostgresLib.Memory
