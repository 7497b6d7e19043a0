import PostgresLib.Pool.SizeBound
import Mathlib.Data.List.Count
import Mathlib.Data.List.Perm.Basic

/-! # Connection managers

A connection that `acquire` hands out sits in a manager together with the pool's
releaser, and both move from manager to manager. The destructor passes the connection
to the releaser; the move assignment lets go of the connection it overwrites without.
-/

namespace PostgresLib.Pool

open Foundations

variable {κ : Type}

/-- `ConnectionManager`; the releaser is the one the pool made, or null. -/
structure ConnectionManager (κ : Type) where
  connection : Option κ
  releaser : Bool
  deriving DecidableEq

namespace ConnectionManager

/-- What `wrap_connection` constructs. -/
def wrap (c : κ) : ConnectionManager κ := ⟨some c, true⟩

@[simp] theorem wrap_connection (c : κ) : (wrap c).connection = some c := rfl

/-- What a move leaves behind. -/
def movedFrom : ConnectionManager κ := ⟨none, false⟩

/-- The move constructor: the new manager, and the other one after it. -/
def moveConstruct (other : ConnectionManager κ) : ConnectionManager κ × ConnectionManager κ :=
  (⟨other.connection, other.releaser⟩, movedFrom)

/-- The move assignment to another manager: both managers after it, and the connection that is
destroyed. -/
def moveAssign (self other : ConnectionManager κ) :
    ConnectionManager κ × ConnectionManager κ × Option κ :=
  (⟨other.connection, other.releaser⟩, movedFrom, self.connection)

/-- `release`: the connection that goes to the releaser, and the one that is destroyed. -/
def release (self : ConnectionManager κ) : Option κ × Option κ :=
  if self.connection.isSome ∧ self.releaser then (self.connection, none)
  else (none, self.connection)

@[simp] theorem release_wrap (c : κ) : (wrap c).release = (some c, none) := rfl

end ConnectionManager

/-- The pool, the managers in the order of their construction, and a record of the run: what the
factory has created, what `acquire` has handed out, what the releaser was passed, how many permits
it has released, and what was destroyed. -/
structure Managed (κ : Type) where
  pool : Config (Shared κ) (Thread κ)
  managers : List (Option (ConnectionManager κ))
  created : List κ
  loans : List κ
  returned : List κ
  permits : ℕ
  dropped : List κ

namespace Thread

/-- The connection a thread is about to hand out. -/
def wraps : Thread κ → List κ
  | acquireWrap c => [c]
  | _ => []

/-- The connection a thread has just got from the factory. -/
def produces : Thread κ → Thread κ → List κ
  | fillCreate, fillPush c => [c]
  | acquireCreate, acquireWrap c => [c]
  | _, _ => []

def releases : Thread κ → ℕ
  | releasePermit => 1
  | _ => 0

/-- A call of the releaser that has not given its permit back. -/
def releasing : Thread κ → ℕ
  | releasePush _ | releasePermit => 1
  | _ => 0

def holds : Thread κ → List κ
  | fillPush c | acquireGiveBack c | acquireWrap c | releasePush c => [c]
  | _ => []

def finished : Thread κ → Bool
  | returned | failed _ => true
  | _ => false

end Thread

namespace Managed

variable [DecidableEq κ]

/-- A thread of the pool takes a step; when it leaves `wrap_connection` there is one manager
more. -/
def acted (m : Managed κ) (s' : Shared κ) (t t' : Thread κ) (pre post : List (Thread κ)) :
    Managed κ :=
  { m with
    pool := ⟨s', pre ++ t' :: post⟩
    managers := m.managers ++ t.wraps.map fun c => some (.wrap c)
    created := m.created ++ t.produces t'
    loans := m.loans ++ t.wraps
    permits := m.permits + t.releases }

def called (m : Managed κ) : Managed κ :=
  { m with pool := ⟨m.pool.shared, m.pool.threads ++ [.acquireTest]⟩ }

def letGo (m : Managed κ) (c : Option κ) : Managed κ :=
  { m with
    pool := ⟨{ m.pool.shared with held := m.pool.shared.held.diff c.toList }, m.pool.threads⟩ }

def constructed (m : Managed κ) (i : ℕ) (x : ConnectionManager κ) : Managed κ :=
  { m with managers := m.managers.set i (some x.moveConstruct.2) ++ [some x.moveConstruct.1] }

def assigned (m : Managed κ) (i j : ℕ) (x y : ConnectionManager κ) : Managed κ :=
  { m.letGo (x.moveAssign y).2.2 with
    managers := (m.managers.set i (some (x.moveAssign y).1)).set j (some (x.moveAssign y).2.1)
    dropped := m.dropped ++ (x.moveAssign y).2.2.toList }

def destroyed (m : Managed κ) (i : ℕ) (x : ConnectionManager κ) : Managed κ :=
  { m.letGo x.connection with
    pool := ⟨(m.letGo x.connection).pool.shared,
      m.pool.threads ++ x.release.1.toList.map .releasePush⟩
    managers := m.managers.set i none
    returned := m.returned ++ x.release.1.toList
    dropped := m.dropped ++ x.release.2.toList }

end Managed

variable [DecidableEq κ] (cfg : PoolConfig)

/-- The steps of the clients, of their managers and of the pool's threads. -/
inductive ManagedStep : Managed κ → Managed κ → Prop
  | act {m s' t t'} (pre post : List (Thread κ)) (ht : m.pool.threads = pre ++ t :: post)
      (h : Act cfg m.pool.shared t s' t') : ManagedStep m (m.acted s' t t' pre post)
  | acquire {m} : ManagedStep m m.called
  | moveConstruct {m x} (i : ℕ) (hx : m.managers[i]? = some (some x)) :
      ManagedStep m (m.constructed i x)
  | selfAssign {m x} (i : ℕ) (hx : m.managers[i]? = some (some x)) : ManagedStep m m
  | moveAssign {m x y} (i j : ℕ) (hx : m.managers[i]? = some (some x))
      (hy : m.managers[j]? = some (some y)) (hij : i ≠ j) : ManagedStep m (m.assigned i j x y)
  | destroy {m x} (i : ℕ) (hx : m.managers[i]? = some (some x)) :
      ManagedStep m (m.destroyed i x)

def managedStart : Managed κ where
  pool := start cfg
  managers := []
  created := []
  loans := []
  returned := []
  permits := 0
  dropped := []

/-- All runs of a pool and the managers of its clients. -/
def managed : TransitionSystem (Managed κ) where
  init m := m = managedStart cfg
  step := ManagedStep cfg

/-- A manager that holds a connection is assigned to. -/
inductive Overwrites : Managed κ → Managed κ → Prop
  | moveAssign {m x y c} (i j : ℕ) (hx : m.managers[i]? = some (some x))
      (hy : m.managers[j]? = some (some y)) (hij : i ≠ j) (hc : x.connection = some c) :
      Overwrites m (m.assigned i j x y)

def contents : Option (ConnectionManager κ) → List κ
  | some x => x.connection.toList
  | none => []

omit [DecidableEq κ] in
@[simp] theorem contents_some (x : ConnectionManager κ) :
    contents (some x) = x.connection.toList := rfl

omit [DecidableEq κ] in
@[simp] theorem contents_none : contents (none : Option (ConnectionManager κ)) = [] := rfl

def inManagers (a : κ) (m : Managed κ) : ℕ :=
  total (fun x => (contents x).count a) m.managers

def inThreads (a : κ) (m : Managed κ) : ℕ :=
  total (fun t : Thread κ => t.holds.count a) m.pool.threads

/-- Where the connections are: those that were created are idle, with a thread, in a manager or
destroyed, and those that were handed out have come back, are in a manager or were destroyed. -/
structure Booked (m : Managed κ) : Prop where
  created : ∀ a, m.created.count a =
    m.pool.shared.connections.count a + inThreads a m + inManagers a m + m.dropped.count a
  loans : ∀ a, m.loans.count a = m.returned.count a + inManagers a m + m.dropped.count a
  held : ∀ a, m.pool.shared.held.count a = inManagers a m
  permits : m.permits + total Thread.releasing m.pool.threads = m.returned.length
  releaser : ∀ x, some x ∈ m.managers → x.connection ≠ none → x.releaser = true

theorem act_connections {s s' : Shared κ} {t t' : Thread κ} (h : Act cfg s t s' t') (a : κ) :
    s'.connections.count a + t'.holds.count a + t.wraps.count a =
        s.connections.count a + t.holds.count a + (t.produces t').count a ∧
      s'.held.count a = s.held.count a + t.wraps.count a := by
  cases h with
  | fillRelease isFull => cases isFull <;> simp [Thread.holds, Thread.wraps, Thread.produces]
  | acquireIdle h | acquireReturned h =>
    simp [Thread.holds, Thread.wraps, Thread.produces, h, List.count_cons]
  | _ =>
    simp [Thread.holds, Thread.wraps, Thread.produces, List.count_append, List.count_cons]

omit [DecidableEq κ] in
theorem act_permits {s s' : Shared κ} {t t' : Thread κ} (h : Act cfg s t s' t') :
    t.releases + t'.releasing = t.releasing := by
  cases h with
  | fillRelease isFull => cases isFull <;> rfl
  | _ => rfl

@[simp] theorem total_wrapped (a : κ) (cs : List κ) :
    total (fun x => (contents x).count a) (cs.map fun c => some (.wrap c)) = cs.count a := by
  induction cs with
  | nil => rfl
  | cons c cs ih =>
    rw [List.map_cons, total_cons, ih, List.count_cons, Nat.add_comm]
    simp [List.count_singleton]

omit [DecidableEq κ] in
@[simp] theorem total_releasePush (w : Thread κ → ℕ) (c : Option κ) :
    total w (c.toList.map .releasePush) = c.elim 0 fun c => w (.releasePush c) := by
  cases c <;> simp

omit [DecidableEq κ] in
/-- A manager that holds a connection and a releaser passes the one to the other. -/
theorem release_eq {x : ConnectionManager κ} (h : x.connection ≠ none → x.releaser = true) :
    x.release = (x.connection, none) := by
  unfold ConnectionManager.release
  cases hc : x.connection with
  | none => simp
  | some c =>
    have hreleaser : x.releaser = true := h (by simp [hc])
    simp [hreleaser]

theorem booked_start : Booked (managedStart (κ := κ) cfg) := by
  constructor <;> unfold managedStart start <;> split_ifs <;>
    simp [inThreads, inManagers, Thread.holds, Thread.releasing]

/-- A connection that leaves the managers is one of those they hold. -/
theorem count_letGo {m : Managed κ} {x : ConnectionManager κ} {i : ℕ} (hm : Booked m)
    (hx : m.managers[i]? = some (some x)) (a : κ) :
    (m.letGo x.connection).pool.shared.held.count a + x.connection.toList.count a =
      m.pool.shared.held.count a := by
  have hheld := hm.held a
  have hset := total_set (w := fun x => (contents x).count a) none hx
  simp only [contents_some, contents_none, List.count_nil] at hset
  simp only [inManagers] at hheld
  simp only [Managed.letGo, List.count_diff]
  omega

/-- When a manager lets go, what is held is what the other managers hold. -/
theorem held_letGo {m : Managed κ} {x : ConnectionManager κ} {i : ℕ} (hm : Booked m)
    (hx : m.managers[i]? = some (some x)) {a : κ} {n : ℕ}
    (hothers : n + x.connection.toList.count a = inManagers a m) :
    (m.letGo x.connection).pool.shared.held.count a = n := by
  have hheld := hm.held a
  have hleft := count_letGo hm hx a
  omega

theorem booked_act {m : Managed κ} {s' : Shared κ} {t t' : Thread κ} {pre post : List (Thread κ)}
    (hm : Booked m) (ht : m.pool.threads = pre ++ t :: post) (h : Act cfg m.pool.shared t s' t') :
    Booked (m.acted s' t t' pre post) := by
  have hbooks := act_connections cfg h
  constructor
  · intro a
    have hcreated := hm.created a
    have hact := hbooks a
    simp only [inThreads, inManagers, ht, total_append, total_cons] at hcreated
    simp only [Managed.acted, inThreads, inManagers, total_append, total_cons, total_wrapped,
      List.count_append]
    omega
  · intro a
    have hloans := hm.loans a
    simp only [inManagers] at hloans
    simp only [Managed.acted, inManagers, total_append, total_wrapped, List.count_append]
    omega
  · intro a
    have hheld := hm.held a
    have hact := hbooks a
    simp only [inManagers] at hheld
    simp only [Managed.acted, inManagers, total_append, total_wrapped]
    omega
  · have hpermits := hm.permits
    have hact := act_permits cfg h
    simp only [ht, total_append, total_cons] at hpermits
    simp only [Managed.acted, total_append, total_cons]
    omega
  · intro x hx hc
    rcases List.mem_append.mp hx with hold | hnew
    · exact hm.releaser x hold hc
    · rcases List.mem_map.mp hnew with ⟨c, -, hwrap⟩
      cases hwrap
      rfl

theorem booked_called {m : Managed κ} (hm : Booked m) : Booked m.called := by
  constructor
  · intro a
    have hcreated := hm.created a
    simpa [Managed.called, inThreads, inManagers, Thread.holds] using hcreated
  · exact hm.loans
  · exact hm.held
  · have hpermits := hm.permits
    simpa [Managed.called, Thread.releasing] using hpermits
  · exact hm.releaser

/-- What the managers hold does not change when one is constructed from another. -/
theorem inManagers_constructed {m : Managed κ} {x : ConnectionManager κ} {i : ℕ}
    (hx : m.managers[i]? = some (some x)) (a : κ) :
    inManagers a (m.constructed i x) = inManagers a m := by
  have hset := total_set (w := fun x => (contents x).count a) (some x.moveConstruct.2) hx
  simp only [ConnectionManager.moveConstruct, ConnectionManager.movedFrom, contents_some,
    Option.toList_none, List.count_nil] at hset
  simp only [inManagers, Managed.constructed, ConnectionManager.moveConstruct,
    ConnectionManager.movedFrom, total_append, total_cons, total_nil, contents_some]
  omega

theorem booked_constructed {m : Managed κ} {x : ConnectionManager κ} {i : ℕ} (hm : Booked m)
    (hx : m.managers[i]? = some (some x)) : Booked (m.constructed i x) := by
  have hsame := inManagers_constructed hx
  constructor
  · intro a
    rw [hsame]
    exact hm.created a
  · intro a
    rw [hsame]
    exact hm.loans a
  · intro a
    rw [hsame]
    exact hm.held a
  · exact hm.permits
  · intro z hz hc
    rcases List.mem_append.mp hz with hset | hnew
    · rcases List.mem_or_eq_of_mem_set hset with hold | hmoved
      · exact hm.releaser z hold hc
      · cases hmoved
        exact absurd rfl hc
    · rw [List.mem_singleton] at hnew
      cases hnew
      exact hm.releaser x (List.mem_of_getElem? hx) hc

theorem inManagers_assigned {m : Managed κ} {x y : ConnectionManager κ} {i j : ℕ}
    (hx : m.managers[i]? = some (some x)) (hy : m.managers[j]? = some (some y)) (hij : i ≠ j)
    (a : κ) :
    inManagers a (m.assigned i j x y) + x.connection.toList.count a = inManagers a m := by
  have hset := total_set (w := fun x => (contents x).count a) (some (x.moveAssign y).1) hx
  have hy' : (m.managers.set i (some (x.moveAssign y).1))[j]? = some (some y) := by
    rw [List.getElem?_set_ne hij, hy]
  have hset' := total_set (w := fun x => (contents x).count a) (some (x.moveAssign y).2.1) hy'
  simp only [ConnectionManager.moveAssign, ConnectionManager.movedFrom, contents_some,
    Option.toList_none, List.count_nil] at hset hset'
  simp only [inManagers, Managed.assigned, ConnectionManager.moveAssign,
    ConnectionManager.movedFrom]
  omega

theorem booked_assigned {m : Managed κ} {x y : ConnectionManager κ} {i j : ℕ} (hm : Booked m)
    (hx : m.managers[i]? = some (some x)) (hy : m.managers[j]? = some (some y)) (hij : i ≠ j) :
    Booked (m.assigned i j x y) := by
  have hin := inManagers_assigned hx hy hij
  have hdropped : (m.assigned i j x y).dropped = m.dropped ++ x.connection.toList := rfl
  constructor
  · intro a
    have hcreated := hm.created a
    have hless := hin a
    rw [hdropped, List.count_append]
    change m.created.count a = m.pool.shared.connections.count a + inThreads a m + _ + _
    omega
  · intro a
    have hloans := hm.loans a
    have hless := hin a
    rw [hdropped, List.count_append]
    change m.loans.count a = m.returned.count a + _ + _
    omega
  · exact fun a => held_letGo hm hx (hin a)
  · exact hm.permits
  · intro z hz hc
    rcases List.mem_or_eq_of_mem_set hz with hset | hmoved
    · rcases List.mem_or_eq_of_mem_set hset with hold | hassigned
      · exact hm.releaser z hold hc
      · cases hassigned
        exact hm.releaser y (List.mem_of_getElem? hy) hc
    · cases hmoved
      exact absurd rfl hc

theorem booked_destroyed {m : Managed κ} {x : ConnectionManager κ} {i : ℕ} (hm : Booked m)
    (hx : m.managers[i]? = some (some x)) : Booked (m.destroyed i x) := by
  have hrelease := release_eq (hm.releaser x (List.mem_of_getElem? hx))
  have hin (a : κ) : inManagers a (m.destroyed i x) + x.connection.toList.count a =
      inManagers a m := by
    have hset := total_set (w := fun x => (contents x).count a) none hx
    simp only [contents_some, contents_none, List.count_nil] at hset
    exact hset
  have hthreads (a : κ) : inThreads a (m.destroyed i x) =
      inThreads a m + x.connection.toList.count a := by
    simp only [inThreads, Managed.destroyed, hrelease, total_append, total_releasePush]
    cases x.connection <;> simp [Thread.holds]
  have hreturned : (m.destroyed i x).returned = m.returned ++ x.connection.toList := by
    simp only [Managed.destroyed, hrelease]
  have hdropped : (m.destroyed i x).dropped = m.dropped := by
    simp [Managed.destroyed, hrelease]
  constructor
  · intro a
    have hcreated := hm.created a
    have hless := hin a
    rw [hdropped, hthreads]
    change m.created.count a = m.pool.shared.connections.count a + _ + _ + _
    omega
  · intro a
    have hloans := hm.loans a
    have hless := hin a
    rw [hdropped, hreturned, List.count_append]
    change m.loans.count a = _
    omega
  · exact fun a => held_letGo hm hx (hin a)
  · have hpermits := hm.permits
    rw [hreturned, List.length_append]
    simp only [Managed.destroyed, hrelease, total_append, total_releasePush]
    cases x.connection <;> simp [Managed.letGo, Thread.releasing] <;> omega
  · intro z hz hc
    rcases List.mem_or_eq_of_mem_set hz with hold | hgone
    · exact hm.releaser z hold hc
    · cases hgone

theorem booked_step {m m' : Managed κ} (hm : Booked m) (h : ManagedStep cfg m m') :
    Booked m' := by
  cases h with
  | act pre post ht h => exact booked_act cfg hm ht h
  | acquire => exact booked_called hm
  | moveConstruct i hx => exact booked_constructed hm hx
  | selfAssign i hx => exact hm
  | moveAssign i j hx hy hij => exact booked_assigned hm hx hy hij
  | destroy i hx => exact booked_destroyed hm hx

theorem Booked.reachable {m : Managed κ} (h : (managed cfg).Reachable m) : Booked m := by
  apply h.induct
  · rintro m rfl
    exact booked_start cfg
  · exact fun m m' _ hm hstep => booked_step cfg hm hstep

/-- The steps that destroy a connection are the assignments that overwrite one. -/
theorem dropped_step {m m' : Managed κ} (hm : Booked m) (h : ManagedStep cfg m m')
    (hkeeps : ¬ Overwrites m m') : m'.dropped = m.dropped := by
  cases h with
  | @moveAssign x y i j hx hy hij =>
    cases hc : x.connection with
    | none => simp [Managed.assigned, ConnectionManager.moveAssign, hc]
    | some c => exact absurd (.moveAssign i j hx hy hij hc) hkeeps
  | @destroy x i hx =>
    have hrelease := release_eq (hm.releaser x (List.mem_of_getElem? hx))
    simp [Managed.destroyed, hrelease]
  | _ => rfl

theorem dropped_overwrite {m m' : Managed κ} (h : Overwrites m m') :
    m'.dropped.length = m.dropped.length + 1 := by
  cases h with
  | moveAssign i j hx hy hij hc => simp [Managed.assigned, ConnectionManager.moveAssign, hc]

theorem dropped_counted {m : Managed κ} {n : ℕ}
    (h : (managed cfg).Counted Overwrites (managedStart cfg) m n) : m.dropped.length = n := by
  have hbalance := h.balance (f := fun m => m.dropped.length) (g := fun _ => 0)
    (fun m m' _ _ hover => dropped_overwrite hover)
    (fun m m' hrun hstep hkeeps => by
      rw [dropped_step cfg (Booked.reachable cfg ⟨_, rfl, hrun⟩) hstep hkeeps])
  simpa [managedStart] using hbalance

theorem mem_held {m : Managed κ} {x : ConnectionManager κ} {i : ℕ} {c : κ} (hm : Booked m)
    (hx : m.managers[i]? = some (some x)) (hc : x.connection = some c) :
    c ∈ m.pool.shared.held := by
  have hleft := count_letGo hm hx c
  rw [hc] at hleft
  simp only [Option.toList_some, List.count_singleton_self] at hleft
  exact List.count_pos_iff.mp (by omega)

theorem length_letGo {m : Managed κ} {x : ConnectionManager κ} {i : ℕ} (hm : Booked m)
    (hx : m.managers[i]? = some (some x)) :
    (m.letGo x.connection).pool.shared.held.length + x.connection.toList.length =
      m.pool.shared.held.length := by
  cases hc : x.connection with
  | none => simp [Managed.letGo]
  | some c =>
    have hmem := mem_held hm hx hc
    have hpos := List.length_pos_of_mem hmem
    simp only [Managed.letGo, Option.toList_some, List.diff_cons, List.diff_nil,
      List.length_erase_of_mem hmem, List.length_singleton]
    omega

/-- As long as no manager that holds a connection is assigned to, the pool's own model allows every
step of the managers. -/
theorem pool_step {m m' : Managed κ} (hm : Booked m) (h : ManagedStep cfg m m')
    (hkeeps : ¬ Overwrites m m') :
    m'.pool = m.pool ∨ (system cfg).step m.pool m'.pool := by
  cases h with
  | @act s' t t' pre post ht h =>
    right
    have hstep : (system cfg).step ⟨m.pool.shared, pre ++ t :: post⟩ ⟨s', pre ++ t' :: post⟩ :=
      .act pre post h
    rw [← ht] at hstep
    exact hstep
  | acquire => exact .inr (.spawn m.pool.threads .acquire)
  | moveConstruct i hx | selfAssign i hx => exact .inl rfl
  | @moveAssign x y i j hx hy hij =>
    left
    cases hc : x.connection with
    | none => simp [Managed.assigned, Managed.letGo, ConnectionManager.moveAssign, hc]
    | some c => exact absurd (.moveAssign i j hx hy hij hc) hkeeps
  | @destroy x i hx =>
    have hrelease := release_eq (hm.releaser x (List.mem_of_getElem? hx))
    cases hc : x.connection with
    | none =>
      left
      simp [Managed.destroyed, Managed.letGo, hrelease, hc]
    | some c =>
      right
      rcases List.exists_erase_eq (mem_held hm hx hc) with ⟨front, back, -, hheld, herase⟩
      have hstep : (system cfg).step m.pool _ := .spawn m.pool.threads (.release hheld)
      simpa [Managed.destroyed, Managed.letGo, hrelease, hc, herase] using hstep

/-- In the runs without such an assignment the pool is in a state that its own model reaches. -/
theorem pool_reachable {m : Managed κ}
    (h : ((managed cfg).guarded fun m m' => ¬ Overwrites m m').Reachable m) :
    (system cfg).Reachable m.pool := by
  apply h.induct
  · rintro m rfl
    exact .of_init rfl
  · intro m m' hm hpool hstep
    rcases pool_step cfg (Booked.reachable cfg hm.of_guarded) hstep.1 hstep.2 with hsame | hnext
    · rw [hsame]
      exact hpool
    · exact hpool.next hnext

/-- What the semaphore was given against what the books of the pool account for. -/
theorem potential_step {m m' : Managed κ} (hm : Booked m) (h : ManagedStep cfg m m')
    (hkeeps : ¬ Overwrites m m') :
    m'.pool.shared.granted + m'.pool.shared.unpaid +
        m.pool.potential (fun s => s.capacity + s.held.length) Thread.owes =
      m.pool.shared.granted + m.pool.shared.unpaid +
        m'.pool.potential (fun s => s.capacity + s.held.length) Thread.owes := by
  rcases pool_step cfg hm h hkeeps with hsame | hstep
  · rw [hsame]
  · have hbalance := hstep.balance (f := fun s => s.capacity + s.held.length)
      (g := fun s => s.granted + s.unpaid) (w := Thread.owes) balance_act balance_spawn
    omega

theorem potential_overwrite {m m' : Managed κ} (hm : Booked m) (h : Overwrites m m') :
    m'.pool.shared.granted + m'.pool.shared.unpaid +
        m.pool.potential (fun s => s.capacity + s.held.length) Thread.owes =
      m.pool.shared.granted + m.pool.shared.unpaid +
        m'.pool.potential (fun s => s.capacity + s.held.length) Thread.owes + 1 := by
  cases h with
  | @moveAssign x y c i j hx hy hij hc =>
    have hlength := length_letGo hm hx
    simp only [hc, Option.toList_some, List.length_singleton] at hlength
    simp only [Managed.assigned, ConnectionManager.moveAssign, Config.potential, hc]
    change m.pool.shared.granted + m.pool.shared.unpaid + _ =
      m.pool.shared.granted + m.pool.shared.unpaid +
        (m.pool.shared.capacity + (m.letGo (some c)).pool.shared.held.length +
          total Thread.owes m.pool.threads) + 1
    omega

/-- Every assignment to a manager that holds a connection costs the pool a permit for good. -/
theorem permits_short {m : Managed κ} {n : ℕ}
    (h : (managed cfg).Counted Overwrites (managedStart cfg) m n) :
    m.pool.potential (fun s => s.capacity + s.held.length) Thread.owes + n =
      m.pool.shared.granted + m.pool.shared.unpaid := by
  have hbalance := h.balance (f := fun m => m.pool.shared.granted + m.pool.shared.unpaid)
    (g := fun m => m.pool.potential (fun s => s.capacity + s.held.length) Thread.owes)
    (fun m m' hrun _ hover => potential_overwrite (Booked.reachable cfg ⟨_, rfl, hrun⟩) hover)
    (fun m m' hrun hstep hkeeps =>
      potential_step cfg (Booked.reachable cfg ⟨_, rfl, hrun⟩) hstep hkeeps)
  have hstart : Balanced (managedStart (κ := κ) cfg).pool := balanced_start
  unfold Balanced at hstart
  omega

structure Ended (m : Managed κ) : Prop where
  managers : ∀ x ∈ m.managers, x = none
  releasers : ∀ t ∈ m.pool.threads, t.releasing = 0

/-- What was handed out was passed to the releaser once, with one permit each, and what was created
is idle or with a call that is under way. -/
structure CameBack (m : Managed κ) : Prop where
  returned : m.returned.Perm m.loans
  permits : m.permits = m.loans.length
  idle : (m.pool.shared.connections ++ m.pool.threads.flatMap Thread.holds).Perm m.created
  dropped : m.dropped = []

theorem Ended.inManagers {m : Managed κ} (h : Ended m) (a : κ) : inManagers a m = 0 := by
  by_contra hpos
  rcases total_pos.mp (Nat.pos_of_ne_zero hpos) with ⟨x, hx, hcount⟩
  rw [h.managers x hx] at hcount
  exact absurd hcount (by simp)

omit [DecidableEq κ] in
theorem Ended.releasing {m : Managed κ} (h : Ended m) :
    total Thread.releasing m.pool.threads = 0 := by
  by_contra hpos
  rcases total_pos.mp (Nat.pos_of_ne_zero hpos) with ⟨t, ht, hreleasing⟩
  exact absurd (h.releasers t ht) hreleasing.ne'

theorem cameBack_of_dropped {m : Managed κ} (hm : Booked m) (hended : Ended m)
    (hdropped : m.dropped = []) : CameBack m := by
  have hreturned : m.returned.Perm m.loans := by
    rw [List.perm_iff_count]
    intro a
    have hloans := hm.loans a
    simp [hended.inManagers, hdropped] at hloans
    exact hloans.symm
  constructor
  · exact hreturned
  · have hpermits := hm.permits
    rw [hended.releasing, Nat.add_zero] at hpermits
    rw [hpermits, hreturned.length_eq]
  · rw [List.perm_iff_count]
    intro a
    have hcreated := hm.created a
    simp [hended.inManagers, hdropped, inThreads, total] at hcreated
    rw [List.count_append, List.count_flatMap, hcreated]
    rfl
  · exact hdropped

/-- Once all managers are destroyed, everything has come back if and only if no manager that held a
connection was assigned to. -/
theorem cameBack_iff (cfg : PoolConfig) (m : Managed κ) (n : ℕ)
    (h : (managed cfg).Counted Overwrites (managedStart cfg) m n) (hended : Ended m) :
    CameBack m ↔ n = 0 := by
  have hm := Booked.reachable cfg ⟨_, rfl, h.run⟩
  have hcount := dropped_counted cfg h
  constructor
  · intro hback
    rw [← hcount, hback.dropped, List.length_nil]
  · rintro rfl
    exact cameBack_of_dropped hm hended (List.length_eq_zero_iff.mp hcount)

theorem keeps_of_dropped {m m' : Managed κ} (h : m'.dropped = m.dropped) :
    ¬ Overwrites m m' := by
  intro hover
  have hmore := dropped_overwrite hover
  rw [h] at hmore
  omega

variable {cfg}

/-- A call of `acquire` that finds no idle connection and a permit. -/
theorem counted_acquire {m₀ m : Managed κ} {k n : ℕ} (c : κ)
    (h : (managed cfg).Counted Overwrites m₀ m k) (hidle : m.pool.shared.connections = [])
    (hpermit : m.pool.shared.capacity = n + 1) :
    (managed cfg).Counted Overwrites m₀
      { m with
        pool := ⟨{ m.pool.shared with capacity := n, held := c :: m.pool.shared.held },
          m.pool.threads ++ [.returned]⟩
        managers := m.managers ++ [some (.wrap c)]
        created := m.created ++ [c]
        loans := m.loans ++ [c] } k := by
  have h₁ := h.skip .acquire (keeps_of_dropped rfl)
  have h₂ := h₁.skip (.act m.pool.threads [] rfl (.acquireNoneIdle hidle)) (keeps_of_dropped rfl)
  have h₃ := h₂.skip (.act m.pool.threads [] rfl .acquireInTime) (keeps_of_dropped rfl)
  have h₄ := h₃.skip (.act m.pool.threads [] rfl (.acquireGranted hpermit)) (keeps_of_dropped rfl)
  have h₅ := h₄.skip (.act m.pool.threads [] rfl (.acquireCallFactory hidle)) (keeps_of_dropped rfl)
  have h₆ := h₅.skip (.act m.pool.threads [] rfl (.acquireCreated c)) (keeps_of_dropped rfl)
  have h₇ := h₆.skip (.act m.pool.threads [] rfl (.acquireWrap c)) (keeps_of_dropped rfl)
  simpa [Managed.acted, Managed.called, Thread.wraps, Thread.produces, Thread.releases] using h₇

/-- The destruction of a manager that holds a connection, with the whole call of the releaser. -/
theorem counted_destroy {m₀ m : Managed κ} {k i : ℕ} {c : κ}
    (h : (managed cfg).Counted Overwrites m₀ m k) (hx : m.managers[i]? = some (some (.wrap c))) :
    (managed cfg).Counted Overwrites m₀
      { m with
        pool := ⟨{ m.pool.shared with
            connections := m.pool.shared.connections ++ [c]
            held := m.pool.shared.held.diff [c]
            capacity := m.pool.shared.capacity + 1 }, m.pool.threads ++ [.returned]⟩
        managers := m.managers.set i none
        returned := m.returned ++ [c]
        permits := m.permits + 1 } k := by
  have hdropped : (m.destroyed i (.wrap c)).dropped = m.dropped := by simp [Managed.destroyed]
  have h₁ := h.skip (.destroy i hx) (keeps_of_dropped hdropped)
  have h₂ := h₁.skip (.act m.pool.threads [] rfl (.releasePush c)) (keeps_of_dropped rfl)
  have h₃ := h₂.skip (.act m.pool.threads [] rfl .releasePermit) (keeps_of_dropped rfl)
  simpa [Managed.acted, Managed.destroyed, Managed.letGo, Thread.wraps, Thread.produces,
    Thread.releases] using h₃

def lazyTwo : PoolConfig := ⟨2, 0, false⟩

theorem counted_lazyTwo :
    (managed lazyTwo).Counted Overwrites (managedStart (κ := ℕ) lazyTwo) (managedStart lazyTwo) 0 :=
  .refl

/-- One client's managers: a moved one, and one that is assigned after it was moved from. -/
theorem cameBack_lazyTwo :
    ∃ m : Managed ℕ, m.loans = [7] ∧
      (managed lazyTwo).Counted Overwrites (managedStart lazyTwo) m 0 ∧ (CameBack m ↔ 0 = 0) := by
  have h₁ := counted_acquire (n := 1) 7 counted_lazyTwo rfl rfl
  have h₂ := h₁.skip (.moveConstruct 0 rfl) (keeps_of_dropped rfl)
  have h₃ := h₂.skip (.moveAssign 0 1 rfl rfl (by decide)) (keeps_of_dropped rfl)
  have h₄ := h₃.skip (.selfAssign 0 rfl) (keeps_of_dropped rfl)
  have h₅ := h₄.skip (.destroy 1 rfl) (keeps_of_dropped rfl)
  have h₆ := counted_destroy (i := 0) (c := 7) h₅ rfl
  exact ⟨_, rfl, h₆, cameBack_iff lazyTwo _ 0 h₆ ⟨by decide, by decide⟩⟩

/-- A client with two connections assigns one manager to the other. -/
theorem overwritten_is_lost :
    ¬ ∀ (cfg : PoolConfig) (m : Managed ℕ), (managed cfg).Reachable m → Ended m → CameBack m := by
  have h₁ := counted_acquire (n := 1) 7 counted_lazyTwo rfl rfl
  have h₂ := counted_acquire (n := 0) 8 h₁ rfl rfl
  have h₃ := h₂.hit (.moveAssign 0 1 rfl rfl (by decide)) (.moveAssign 0 1 rfl rfl (by decide) rfl)
  have h₄ := h₃.skip (.destroy 1 rfl) (keeps_of_dropped rfl)
  have h₅ := counted_destroy (i := 0) (c := 8) h₄ rfl
  intro hall
  have hback := hall lazyTwo _ ⟨_, rfl, h₅.run⟩ ⟨by decide, by decide⟩
  exact absurd hback.dropped (by decide)

end PostgresLib.Pool
