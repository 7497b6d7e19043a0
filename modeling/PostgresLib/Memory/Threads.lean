import PostgresLib.Foundations.Completion
import PostgresLib.Foundations.Simulation
import PostgresLib.Memory.IntrusivePtr

/-! # Handles in many threads

The counts are atomic, so that each access to one is a step of its own and any two
threads may let go of an object at a time. Every other handle is either a variable of
one thread or kept where several threads can reach it, behind a lock of theirs. The
life of each object is followed in a model of one object.
-/

namespace PostgresLib.Memory

open Foundations

/-! ## The threads -/

/-- An access to an object that an operation on handles has still to make. `adopt` is the
`increment` by the first handle of a new object, and `moveFrom` reads and clears a member of an
object, which points to another. -/
inductive Access where
  | adopt (o : ℕ)
  | increment (o : ℕ)
  | release (o : ℕ)
  | delete (o : ℕ)
  | moveFrom (o pointee : ℕ)
  deriving DecidableEq

def Access.object : Access → ℕ
  | adopt o | increment o | release o | delete o | moveFrom o _ => o

/-- How many objects were created, `m_ref_count` of each, the deleted objects, and the handles that
threads share: the object that a handle is a member of, if any, and what it points to. -/
structure Objects where
  created : ℕ
  refCount : ℕ → ℕ
  deleted : List ℕ
  stored : List (Option ℕ × ℕ)

namespace Objects

def increment (sh : Objects) (o : ℕ) : Objects :=
  { sh with refCount := Function.update sh.refCount o ((sh.refCount o + 1) % countValues) }

/-- `release`: whether the count was one, and the objects with the count one lower. -/
def release (sh : Objects) (o : ℕ) : Bool × Objects :=
  (sh.refCount o = 1,
    { sh with
      refCount := Function.update sh.refCount o
        ((sh.refCount o + (countValues - 1)) % countValues) })

def create (sh : Objects) : Objects :=
  { sh with created := sh.created + 1, refCount := Function.update sh.refCount sh.created 0 }

/-- What the members of an object point to, in the order in which they are destroyed. -/
def members (sh : Objects) (o : ℕ) : List ℕ :=
  ((sh.stored.filter fun p => p.1 = some o).map Prod.snd).reverse

/-- `delete`, up to the destructors of the members. -/
def delete (sh : Objects) (o : ℕ) : Objects :=
  { sh with deleted := sh.deleted ++ [o], stored := sh.stored.filter fun p => p.1 ≠ some o }

/-- `m_ptr = other.m_ptr; other.m_ptr = nullptr` for a member of an object; somebody else may have
moved out of it. -/
def moveFrom (sh : Objects) (o pointee : ℕ) : Objects × List ℕ :=
  if (some o, pointee) ∈ sh.stored then
    ({ sh with stored := sh.stored.erase (some o, pointee) }, [pointee])
  else
    (sh, [])

/-- An access: the objects after it, what the handle points to that it completes, and what is to be
done next. -/
def access (sh : Objects) : Access → Objects × List ℕ × List Access
  | .adopt o | .increment o => (sh.increment o, [o], [])
  | .release o => ((sh.release o).2, [], if (sh.release o).1 then [.delete o] else [])
  | .delete o => (sh.delete o, [], (sh.members o).map .release)
  | .moveFrom o pointee => ((sh.moveFrom o pointee).1, (sh.moveFrom o pointee).2, [])

def Alive (sh : Objects) (o : ℕ) : Prop := o < sh.created ∧ o ∉ sh.deleted

end Objects

/-- What the variables of a thread point to, and the rest of the operation that it is in. -/
structure HandleThread where
  handles : List ℕ
  todo : List Access

/-- A thread makes the next access of its operation. -/
inductive Finish : Objects → HandleThread → Objects → HandleThread → Prop
  | access {sh : Objects} {hs : List ℕ} {x : Access} {rest : List Access} :
      Finish sh ⟨hs, x :: rest⟩ (sh.access x).1
        ⟨(sh.access x).2.1 ++ hs, (sh.access x).2.2 ++ rest⟩

/-- A thread begins an operation or goes on with one. The objects that a thread reaches the members
of are those its own handles point to. -/
inductive HandleAct : Objects → HandleThread → Objects → HandleThread → Prop
  | finish {sh sh' : Objects} {t t' : HandleThread} (h : Finish sh t sh' t') :
      HandleAct sh t sh' t'
  -- `make_intrusive`
  | create {sh : Objects} {hs : List ℕ} :
      HandleAct sh ⟨hs, []⟩ sh.create ⟨hs, [.adopt sh.created]⟩
  -- copy construction, `intrusive_from_this`, and an assignment to a null handle
  | copy {sh : Objects} {hs : List ℕ} {o : ℕ} (h : o ∈ hs) :
      HandleAct sh ⟨hs, []⟩ sh ⟨hs, [.increment o]⟩
  -- copy assignment and `reset` with a pointer: the new object is counted first
  | assign {sh : Objects} {front back : List ℕ} {old o : ℕ} (h : o ∈ front ++ old :: back) :
      HandleAct sh ⟨front ++ old :: back, []⟩ sh ⟨front ++ back, [.increment o, .release old]⟩
  -- move assignment from a member of an object: what the target held is let go of first, so the
  -- thread has to have another handle of the object whose member it reads after that
  | moveAssign {sh : Objects} {front back : List ℕ} {old o pointee : ℕ}
      (hstored : (some o, pointee) ∈ sh.stored) (h : o ∈ front ++ back) :
      HandleAct sh ⟨front ++ old :: back, []⟩ sh
        ⟨front ++ back, [.release old, .moveFrom o pointee]⟩
  -- the destructor, `reset` without a pointer, and what the target of another move assignment held,
  -- before the source is read
  | drop {sh : Objects} {front back : List ℕ} {old : ℕ} :
      HandleAct sh ⟨front ++ old :: back, []⟩ sh ⟨front ++ back, [.release old]⟩
  -- a move into a handle that is shared
  | store {sh : Objects} {front back : List ℕ} {o : ℕ} {owner : Option ℕ}
      (h : ∀ a ∈ owner, a ∈ front ++ o :: back) :
      HandleAct sh ⟨front ++ o :: back, []⟩ { sh with stored := sh.stored ++ [(owner, o)] }
        ⟨front ++ back, []⟩
  -- a move out of one
  | take {sh : Objects} {hs : List ℕ} {front back : List (Option ℕ × ℕ)} {o : ℕ}
      {owner : Option ℕ} (hstored : sh.stored = front ++ (owner, o) :: back)
      (h : ∀ a ∈ owner, a ∈ hs) :
      HandleAct sh ⟨hs, []⟩ { sh with stored := front ++ back } ⟨o :: hs, []⟩
  -- a copy of one, under the lock
  | load {sh : Objects} {hs : List ℕ} {o : ℕ} {owner : Option ℕ}
      (hstored : (owner, o) ∈ sh.stored) (h : ∀ a ∈ owner, a ∈ hs) :
      HandleAct sh ⟨hs, []⟩ (sh.increment o) ⟨o :: hs, []⟩

/-- A thread starts without handles; what it is given is moved out of a shared one. -/
inductive HandleSpawn : Objects → List HandleThread → Objects → HandleThread → Prop
  | start {sh : Objects} {ts : List HandleThread} : HandleSpawn sh ts sh ⟨[], []⟩

abbrev HandleConfig := Config Objects HandleThread

def handleThreads : TransitionSystem HandleConfig where
  init c := c = ⟨⟨0, fun _ => 0, [], []⟩, []⟩
  step := Interleave HandleAct HandleSpawn

def finishing : TransitionSystem HandleConfig where
  init := handleThreads.Reachable
  step := Interleave Finish fun _ _ _ _ => False

/-! ## What is counted -/

/-- The counted handles that a thread has of an object. -/
def HandleThread.held (o : ℕ) (t : HandleThread) : ℕ :=
  t.handles.count o + t.todo.count (.release o)

/-- The handles of an object, those under construction included. -/
def HandleThread.pointing (o : ℕ) (t : HandleThread) : ℕ :=
  t.held o + t.todo.count (.adopt o) + t.todo.count (.increment o)

def Objects.shares (sh : Objects) (o : ℕ) : ℕ := (sh.stored.map Prod.snd).count o

/-- The counted handles of an object. -/
def refs (c : HandleConfig) (o : ℕ) : ℕ := c.potential (·.shares o) (HandleThread.held o)

def pointing (c : HandleConfig) (o : ℕ) : ℕ :=
  c.potential (·.shares o) (HandleThread.pointing o)

/-- The runs in which no object has more handles than can be counted. -/
def countable : TransitionSystem HandleConfig :=
  handleThreads.guarded fun _ c' => ∀ o, pointing c' o < countValues

/-! ## The life of one object -/

/-- An object that nobody has, and one with so many more handles than one. -/
inductive Life where
  | unborn
  | fresh
  | live (n : ℕ)
  | dying
  | gone
  deriving DecidableEq

namespace Life

/-- The first handle, more and fewer of them, and the deletion when there are none. -/
inductive Step : Life → Life → Prop
  | create : Step unborn fresh
  | adopt : Step fresh (live 0)
  | copy (n : ℕ) : Step (live n) (live (n + 1))
  | drop (n : ℕ) : Step (live (n + 1)) (live n)
  | dropLast : Step (live 0) dying
  | delete : Step dying gone

def system : TransitionSystem Life where
  init l := l = unborn
  step := Step

def handles : Life → ℕ
  | live n => n + 1
  | _ => 0

def adopts : Life → ℕ
  | fresh => 1
  | _ => 0

def deletes : Life → ℕ
  | dying => 1
  | _ => 0

def deletions : Life → ℕ
  | gone => 1
  | _ => 0

end Life

structure Living (o : ℕ) (c : HandleConfig) (l : Life) : Prop where
  created : o < c.shared.created ↔ l ≠ .unborn
  counted : l ≠ .unborn → c.shared.refCount o = l.handles
  refs : refs c o = l.handles
  adopts : total (fun t => t.todo.count (.adopt o)) c.threads = l.adopts
  deletes : total (fun t => t.todo.count (.delete o)) c.threads = l.deletes
  deletions : c.shared.deleted.count o = l.deletions
  members : l = .unborn ∨ l = .gone → ∀ p ∈ c.shared.stored, p.1 ≠ some o

end PostgresLib.Memory
