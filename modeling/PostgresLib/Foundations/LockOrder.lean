import PostgresLib.Foundations.TransitionSystem
import Mathlib.Order.Basic

/-! # An order on mutexes and joins

Threads run programs in which only what concerns other threads is left: scoped locks,
accesses to shared members, which a mutex guards or none does, waits on a condition
variable, starts and joins of threads, and places where any code of a kind runs, which
calls any of the functions of that kind. When every function takes mutexes and joins
threads in the order of a rank, accesses what a mutex guards under it, and runs other
code without a mutex, no threads wait for each other in a circle, and no two of them
access the same guarded member at once.
-/

namespace PostgresLib.Foundations.LockOrder

universe u v w
variable {μ : Type u} {ν : Type v} {κ : Type w}

/-- What a program does next. A thread that is to be joined is chosen when the program comes to it.
-/
inductive Op (μ : Type u) (ν : Type v) (κ : Type w) where
  | lock (m : μ)
  | unlock (m : μ)
  | access (x : ν)
  | wait (m : μ)
  | start (k : κ)
  | join (k : κ)
  | joining (k : κ) (i : ℕ)
  | pause
  | outside (k : κ)

/-- The mutex that guards a member, the functions that code of a kind calls, what a thread of a kind
runs, and which threads may begin without being started. -/
structure Program (μ : Type u) (ν : Type v) (κ : Type w) where
  guard : ν → Option μ
  calls : κ → List (Op μ ν κ) → Prop
  body : κ → List (Op μ ν κ)
  enters : κ → Prop

/-- A thread with the mutexes it holds, the last one first, and what it has still to do. -/
structure Thread (μ : Type u) (ν : Type v) (κ : Type w) where
  kind : κ
  held : List μ
  todo : List (Op μ ν κ)

def Program.thread (P : Program μ ν κ) (k : κ) : Thread μ ν κ := ⟨k, [], P.body k⟩

inductive Act (P : Program μ ν κ) (ts : List (Thread μ ν κ)) : Thread μ ν κ → Thread μ ν κ → Prop
  | lock {k : κ} {held : List μ} {m : μ} {todo : List (Op μ ν κ)} (h : ∀ t ∈ ts, m ∉ t.held) :
      Act P ts ⟨k, held, .lock m :: todo⟩ ⟨k, m :: held, todo⟩
  | unlock {k : κ} {held : List μ} {m : μ} {todo : List (Op μ ν κ)} :
      Act P ts ⟨k, m :: held, .unlock m :: todo⟩ ⟨k, held, todo⟩
  | access {k : κ} {held : List μ} {x : ν} {todo : List (Op μ ν κ)} :
      Act P ts ⟨k, held, .access x :: todo⟩ ⟨k, held, todo⟩
  -- the wait gives the mutex up, and tests again once it has it back
  | block {k : κ} {held : List μ} {m : μ} {todo : List (Op μ ν κ)} :
      Act P ts ⟨k, m :: held, .wait m :: todo⟩ ⟨k, held, .lock m :: .wait m :: todo⟩
  | pass {k : κ} {held : List μ} {m : μ} {todo : List (Op μ ν κ)} :
      Act P ts ⟨k, m :: held, .wait m :: todo⟩ ⟨k, m :: held, todo⟩
  | join {k k' : κ} {held : List μ} {todo : List (Op μ ν κ)} {i : ℕ} {t : Thread μ ν κ}
      (ht : ts[i]? = some t) (hk : t.kind = k') :
      Act P ts ⟨k, held, .join k' :: todo⟩ ⟨k, held, .joining k' i :: todo⟩
  | joinNone {k k' : κ} {held : List μ} {todo : List (Op μ ν κ)} :
      Act P ts ⟨k, held, .join k' :: todo⟩ ⟨k, held, todo⟩
  | joined {k k' : κ} {held : List μ} {todo : List (Op μ ν κ)} {i : ℕ}
      (h : ∀ t, ts[i]? = some t → t.kind = k' → t.todo = []) :
      Act P ts ⟨k, held, .joining k' i :: todo⟩ ⟨k, held, todo⟩
  | pause {k : κ} {held : List μ} {todo : List (Op μ ν κ)} :
      Act P ts ⟨k, held, .pause :: todo⟩ ⟨k, held, todo⟩
  | call {k k' : κ} {held : List μ} {todo f : List (Op μ ν κ)} (h : P.calls k' f) :
      Act P ts ⟨k, held, .outside k' :: todo⟩ ⟨k, held, f ++ .outside k' :: todo⟩
  | leave {k k' : κ} {held : List μ} {todo : List (Op μ ν κ)} :
      Act P ts ⟨k, held, .outside k' :: todo⟩ ⟨k, held, todo⟩

inductive Step (P : Program μ ν κ) (i : ℕ) : List (Thread μ ν κ) → List (Thread μ ν κ) → Prop
  | act {ts : List (Thread μ ν κ)} {t t' : Thread μ ν κ} (ht : ts[i]? = some t)
      (h : Act P ts t t') : Step P i ts (ts.set i t')
  | start {ts : List (Thread μ ν κ)} {k k' : κ} {held : List μ} {todo : List (Op μ ν κ)}
      (ht : ts[i]? = some ⟨k, held, .start k' :: todo⟩) :
      Step P i ts (ts.set i ⟨k, held, todo⟩ ++ [P.thread k'])
  | enter {ts : List (Thread μ ν κ)} {k : κ} (hi : i = ts.length) (h : P.enters k) :
      Step P i ts (ts ++ [P.thread k])

def Program.system (P : Program μ ν κ) : TransitionSystem (List (Thread μ ν κ)) where
  init ts := ts = []
  step ts ts' := ∃ i, Step P i ts ts'

/-- A thread waits for a mutex that another one holds, or for the end of one that it joins. -/
inductive WaitsFor (ts : List (Thread μ ν κ)) (i j : ℕ) : Prop
  | mutex {k : κ} {held : List μ} {m : μ} {todo : List (Op μ ν κ)} {u : Thread μ ν κ}
      (ht : ts[i]? = some ⟨k, held, .lock m :: todo⟩) (hu : ts[j]? = some u) (hm : m ∈ u.held)
  | thread {k k' : κ} {held : List μ} {todo : List (Op μ ν κ)} {u : Thread μ ν κ}
      (ht : ts[i]? = some ⟨k, held, .joining k' j :: todo⟩) (hu : ts[j]? = some u)
      (hk : u.kind = k') (hrunning : u.todo ≠ [])

/-! ## Programs that keep to an order -/

/-- The rank of each mutex and of the join of each kind of thread, and the least rank that code of
a kind may take. -/
structure Order (μ : Type u) (κ : Type w) where
  mutex : μ → ℕ
  thread : κ → ℕ
  floor : κ → ℕ
  top : ℕ
  mutex_le : ∀ m, mutex m ≤ top
  thread_le : ∀ k, thread k ≤ top

variable (O : Order μ κ) (guard : ν → Option μ)

/-- A program takes nothing below the floor and nothing out of order, accesses no guarded member
without its mutex, and runs other code without any. -/
@[simp]
def Order.Keeps (floor : ℕ) : List μ → List (Op μ ν κ) → Prop
  | held, [] => held = []
  | held, .lock m :: todo =>
    floor ≤ O.mutex m ∧ (∀ m' ∈ held, O.mutex m' < O.mutex m) ∧ Order.Keeps floor (m :: held) todo
  | held, .unlock m :: todo => ∃ rest, held = m :: rest ∧ Order.Keeps floor rest todo
  | held, .access x :: todo => (∀ m, guard x = some m → m ∈ held) ∧ Order.Keeps floor held todo
  | held, .wait m :: todo => ∃ rest, held = m :: rest ∧ floor ≤ O.mutex m ∧
    (∀ m' ∈ rest, O.mutex m' < O.mutex m) ∧ Order.Keeps floor held todo
  | held, .start _ :: todo => Order.Keeps floor held todo
  | held, .join k :: todo | held, .joining k _ :: todo =>
    floor ≤ O.thread k ∧ (∀ m ∈ held, O.mutex m < O.thread k) ∧ Order.Keeps floor held todo
  | held, .pause :: todo => held = [] ∧ Order.Keeps floor held todo
  | held, .outside k :: todo => held = [] ∧ floor ≤ O.floor k ∧ Order.Keeps floor held todo

/-- Every function keeps to the order above the floor of the code that calls it, and every thread
above its own rank. -/
structure Order.Admits (P : Program μ ν κ) : Prop where
  calls : ∀ k f, P.calls k f → O.Keeps P.guard (O.floor k) [] f
  body : ∀ k, O.Keeps P.guard (O.thread k + 1) [] (P.body k)

variable {O guard}

theorem Order.Keeps.lower {floor floor' : ℕ} (hle : floor' ≤ floor) {held : List μ}
    {todo : List (Op μ ν κ)} (h : O.Keeps guard floor held todo) :
    O.Keeps guard floor' held todo := by
  induction todo generalizing held with
  | nil => exact h
  | cons op todo ih =>
    cases op with
    | lock m => exact ⟨Nat.le_trans hle h.1, h.2.1, ih h.2.2⟩
    | unlock m =>
      rcases h with ⟨rest, hheld, h⟩
      exact ⟨rest, hheld, ih h⟩
    | access x => exact ⟨h.1, ih h.2⟩
    | wait m =>
      rcases h with ⟨rest, hheld, hfloor, hrest, h⟩
      exact ⟨rest, hheld, Nat.le_trans hle hfloor, hrest, ih h⟩
    | start k => exact ih h
    | join k => exact ⟨Nat.le_trans hle h.1, h.2.1, ih h.2.2⟩
    | joining k i => exact ⟨Nat.le_trans hle h.1, h.2.1, ih h.2.2⟩
    | pause => exact ⟨h.1, ih h.2⟩
    | outside k => exact ⟨h.1, Nat.le_trans hle h.2.1, ih h.2.2⟩

/-- A function is run to its end, and then what was to be done before. -/
theorem Order.Keeps.append {floor : ℕ} {held : List μ} {f todo : List (Op μ ν κ)}
    (hf : O.Keeps guard floor held f) (h : O.Keeps guard floor [] todo) :
    O.Keeps guard floor held (f ++ todo) := by
  induction f generalizing held with
  | nil =>
    cases show held = [] from hf
    exact h
  | cons op f ih =>
    cases op with
    | lock m => exact ⟨hf.1, hf.2.1, ih hf.2.2⟩
    | unlock m =>
      rcases hf with ⟨rest, hheld, hf⟩
      exact ⟨rest, hheld, ih hf⟩
    | access x => exact ⟨hf.1, ih hf.2⟩
    | wait m =>
      rcases hf with ⟨rest, hheld, hfloor, hrest, hf⟩
      exact ⟨rest, hheld, hfloor, hrest, ih hf⟩
    | start k => exact ih hf
    | join k => exact ⟨hf.1, hf.2.1, ih hf.2.2⟩
    | joining k i => exact ⟨hf.1, hf.2.1, ih hf.2.2⟩
    | pause => exact ⟨hf.1, ih hf.2⟩
    | outside k => exact ⟨hf.1, hf.2.1, ih hf.2.2⟩

/-- Functions are run one after the other. -/
theorem Order.Keeps.flatten {floor : ℕ} {fs : List (List (Op μ ν κ))}
    (h : ∀ f ∈ fs, O.Keeps guard floor [] f) : O.Keeps guard floor [] fs.flatten := by
  induction fs with
  | nil => exact rfl
  | cons f fs ih =>
    exact (h f List.mem_cons_self).append (ih fun g hg => h g (List.mem_cons_of_mem f hg))

/-- Any number of threads of a kind are joined. -/
theorem Order.Keeps.joins {floor : ℕ} {held : List μ} {k : κ} {todo : List (Op μ ν κ)} (n : ℕ)
    (hfloor : floor ≤ O.thread k) (hheld : ∀ m ∈ held, O.mutex m < O.thread k)
    (h : O.Keeps guard floor held todo) :
    O.Keeps guard floor held (List.replicate n (.join k) ++ todo) := by
  induction n with
  | zero => exact h
  | succ n ih => exact ⟨hfloor, hheld, ih⟩

/-- Any number of threads of a kind are started. -/
theorem Order.Keeps.starts {floor : ℕ} {held : List μ} {todo : List (Op μ ν κ)} (k : κ) (n : ℕ)
    (h : O.Keeps guard floor held todo) :
    O.Keeps guard floor held (List.replicate n (.start k) ++ todo) := by
  induction n with
  | zero => exact h
  | succ n ih => exact ih

/-! ## What holds at any moment -/

variable {P : Program μ ν κ} {ts ts' : List (Thread μ ν κ)}

/-- The thread keeps to the order above its own rank. -/
def Order.Minds (O : Order μ κ) (guard : ν → Option μ) (t : Thread μ ν κ) : Prop :=
  O.Keeps guard (O.thread t.kind + 1) t.held t.todo

/-- Every thread keeps to the order, and no mutex has two holders. -/
structure Order.Held (O : Order μ κ) (guard : ν → Option μ) (ts : List (Thread μ ν κ)) : Prop where
  minds : ∀ t ∈ ts, O.Minds guard t
  exclusive : ∀ (i j : ℕ) (t u : Thread μ ν κ) (m : μ), ts[i]? = some t → ts[j]? = some u →
    m ∈ t.held → m ∈ u.held → i = j

theorem minds_act (hP : O.Admits P) {t t' : Thread μ ν κ} (ht : O.Minds P.guard t)
    (h : Act P ts t t') :
    O.Minds P.guard t' ∧ ∀ m ∈ t'.held, m ∈ t.held ∨ ∀ u ∈ ts, m ∉ u.held := by
  cases h with
  | lock h =>
    refine ⟨ht.2.2, ?_⟩
    intro m hm
    rcases List.mem_cons.mp hm with rfl | hm
    · exact .inr h
    · exact .inl hm
  | unlock =>
    rcases ht with ⟨rest, hheld, ht⟩
    cases hheld
    exact ⟨ht, fun m hm => .inl (List.mem_cons_of_mem _ hm)⟩
  | access => exact ⟨ht.2, fun m hm => .inl hm⟩
  | block =>
    rcases ht with ⟨rest, hheld, hfloor, hrest, ht⟩
    cases hheld
    refine ⟨⟨hfloor, hrest, _, rfl, hfloor, hrest, ht⟩, ?_⟩
    exact fun m hm => .inl (List.mem_cons_of_mem _ hm)
  | pass =>
    rcases ht with ⟨rest, hheld, -, -, ht⟩
    exact ⟨ht, fun m hm => .inl hm⟩
  | join => exact ⟨ht, fun m hm => .inl hm⟩
  | joinNone => exact ⟨ht.2.2, fun m hm => .inl hm⟩
  | joined => exact ⟨ht.2.2, fun m hm => .inl hm⟩
  | pause => exact ⟨ht.2, fun m hm => .inl hm⟩
  | @call k k' held todo f hf =>
    rcases ht with ⟨hheld, hfloor, ht⟩
    refine ⟨?_, fun m hm => .inl hm⟩
    have hheld : held = [] := hheld
    subst hheld
    exact ((hP.calls k' f hf).lower hfloor).append ⟨rfl, hfloor, ht⟩
  | leave => exact ⟨ht.2.2, fun m hm => .inl hm⟩

/-- A thread that holds nothing new does not change who holds what. -/
theorem Order.Held.set (hts : O.Held P.guard ts) {i : ℕ} {t t' : Thread μ ν κ}
    (ht : ts[i]? = some t) (hminds : O.Minds P.guard t')
    (hnew : ∀ m ∈ t'.held, m ∈ t.held ∨ ∀ u ∈ ts, m ∉ u.held) :
    O.Held P.guard (ts.set i t') where
  minds := by
    intro u hu
    rcases List.mem_or_eq_of_mem_set hu with hold | rfl
    · exact hts.minds u hold
    · exact hminds
  exclusive := by
    have hlt : i < ts.length := (List.getElem?_eq_some_iff.mp ht).1
    -- a mutex that is held after the step was held by the same thread, or is new
    have hbefore : ∀ j u m, (ts.set i t')[j]? = some u → m ∈ u.held →
        (∃ u', ts[j]? = some u' ∧ m ∈ u'.held) ∨ j = i ∧ ∀ u ∈ ts, m ∉ u.held := by
      intro j u m hu hm
      by_cases hj : j = i
      · subst hj
        rw [List.getElem?_set_self hlt] at hu
        cases hu
        rcases hnew m hm with hold | hfree
        · exact .inl ⟨t, ht, hold⟩
        · exact .inr ⟨rfl, hfree⟩
      · rw [List.getElem?_set_ne (Ne.symm hj)] at hu
        exact .inl ⟨u, hu, hm⟩
    intro j k u v m hu hv hmu hmv
    rcases hbefore j u m hu hmu with ⟨u', hu', hmu'⟩ | ⟨hj, hfree⟩
    · rcases hbefore k v m hv hmv with ⟨v', hv', hmv'⟩ | ⟨-, hfree⟩
      · exact hts.exclusive j k u' v' m hu' hv' hmu' hmv'
      · exact absurd hmu' (hfree u' (List.mem_of_getElem? hu'))
    · rcases hbefore k v m hv hmv with ⟨v', hv', hmv'⟩ | ⟨hk, -⟩
      · exact absurd hmv' (hfree v' (List.mem_of_getElem? hv'))
      · rw [hj, hk]

theorem Order.Held.push (hP : O.Admits P) (hts : O.Held P.guard ts) (k : κ) :
    O.Held P.guard (ts ++ [P.thread k]) where
  minds := by
    intro u hu
    rcases List.mem_append.mp hu with hold | hnew
    · exact hts.minds u hold
    · cases List.mem_singleton.mp hnew
      exact hP.body k
  exclusive := by
    have hbefore : ∀ (j : ℕ) (u : Thread μ ν κ) (m : μ), (ts ++ [P.thread k])[j]? = some u →
        m ∈ u.held → ts[j]? = some u := by
      intro j u m hu hm
      by_cases hj : j < ts.length
      · rwa [List.getElem?_append_left hj] at hu
      · rw [List.getElem?_append_right (Nat.le_of_not_lt hj)] at hu
        cases List.mem_singleton.mp (List.mem_of_getElem? hu)
        cases hm
    intro i j t u m ht hu hmt hmu
    exact hts.exclusive i j t u m (hbefore i t m ht hmt) (hbefore j u m hu hmu) hmt hmu

theorem held_step (hP : O.Admits P) {i : ℕ} (hts : O.Held P.guard ts) (h : Step P i ts ts') :
    O.Held P.guard ts' := by
  cases h with
  | act ht h =>
    rcases minds_act hP (hts.minds _ (List.mem_of_getElem? ht)) h with ⟨hminds, hnew⟩
    exact hts.set ht hminds hnew
  | @start k k' held todo ht =>
    have hbefore := hts.minds _ (List.mem_of_getElem? ht)
    have hminds : O.Minds P.guard ⟨k, held, todo⟩ := hbefore
    exact (hts.set ht hminds fun m hm => .inl hm).push hP k'
  | enter hi h => exact hts.push hP _

theorem held_of_reachable (hP : O.Admits P) (h : P.system.Reachable ts) : O.Held P.guard ts := by
  apply h.induct
  · rintro ts rfl
    exact { minds := nofun, exclusive := nofun }
  · rintro ts ts' - hts ⟨i, h⟩
    exact held_step hP hts h

/-! ## Nobody waits in a circle -/

/-- The rank of what a thread waits for. -/
def Order.wanted (O : Order μ κ) (t : Thread μ ν κ) : Option ℕ :=
  match t.todo with
  | .lock m :: _ => some (O.mutex m)
  | .joining k _ :: _ => some (O.thread k)
  | _ => none

/-- A thread waits for less than the one that it waits for does. -/
theorem wanted_lt (hts : O.Held guard ts) {i j : ℕ} (h : WaitsFor ts i j)
    {t u : Thread μ ν κ} {n n' : ℕ} (ht : ts[i]? = some t) (hu : ts[j]? = some u)
    (hn : O.wanted t = some n) (hn' : O.wanted u = some n') : n < n' := by
  have hminds : O.Minds guard u := hts.minds u (List.mem_of_getElem? hu)
  rcases u with ⟨k, held, todo⟩
  -- what the other one waits for is above its rank and above what it holds
  have habove : O.thread k < n' ∧ ∀ m ∈ held, O.mutex m < n' := by
    rcases todo with _ | ⟨op, todo⟩
    · cases hn'
    · cases op with
      | lock m =>
        cases hn'
        exact ⟨hminds.1, hminds.2.1⟩
      | joining k' l =>
        cases hn'
        exact ⟨hminds.1, hminds.2.1⟩
      | _ => cases hn'
  cases h with
  | mutex ht' hu' hm =>
    rw [ht] at ht'
    rw [hu] at hu'
    cases ht'
    cases hu'
    cases hn
    exact habove.2 _ hm
  | thread ht' hu' hk hrunning =>
    rw [ht] at ht'
    rw [hu] at hu'
    cases ht'
    cases hu'
    cases hn
    cases hk
    exact habove.1

theorem exists_wanted {i j : ℕ} (h : WaitsFor ts i j) :
    ∃ t n, ts[i]? = some t ∧ O.wanted t = some n := by
  cases h with
  | mutex ht hu hm => exact ⟨_, _, ht, rfl⟩
  | thread ht hu hk hrunning => exact ⟨_, _, ht, rfl⟩

/-- Along a chain of waits the ranks rise. -/
theorem wanted_lt_of_chain (hts : O.Held guard ts) {i j : ℕ}
    (h : Relation.TransGen (WaitsFor ts) i j) {t u : Thread μ ν κ} {n n' : ℕ}
    (ht : ts[i]? = some t) (hu : ts[j]? = some u) (hn : O.wanted t = some n)
    (hn' : O.wanted u = some n') : n < n' := by
  induction h generalizing u n' with
  | single h => exact wanted_lt hts h ht hu hn hn'
  | tail _ hlast ih =>
    rcases exists_wanted (O := O) hlast with ⟨v, l, hv, hl⟩
    exact Nat.lt_trans (ih hv hl) (wanted_lt hts hlast hv hu hl hn')

/-- Nobody waits for itself, through whatever others. -/
theorem acyclic (hts : O.Held guard ts) (i : ℕ) : ¬ Relation.TransGen (WaitsFor ts) i i := by
  intro h
  rcases Relation.TransGen.head'_iff.mp h with ⟨j, hj, -⟩
  rcases exists_wanted (O := O) hj with ⟨t, n, ht, hn⟩
  exact absurd (wanted_lt_of_chain hts h ht ht hn hn) (Nat.lt_irrefl _)

theorem wanted_le (t : Thread μ ν κ) {n : ℕ} (hn : O.wanted t = some n) : n ≤ O.top := by
  rcases t with ⟨k, held, _ | ⟨op, todo⟩⟩
  · cases hn
  · cases op with
    | lock m =>
      cases hn
      exact O.mutex_le m
    | joining k' l =>
      cases hn
      exact O.thread_le k'
    | _ => cases hn

theorem running_of_waitsFor (hts : O.Held guard ts) {i j : ℕ} (h : WaitsFor ts i j) :
    ∃ u : Thread μ ν κ, ts[j]? = some u ∧ u.todo ≠ [] := by
  cases h with
  | @mutex k held m todo u ht hu hm =>
    refine ⟨u, hu, ?_⟩
    intro hfinished
    have hminds : O.Minds guard u := hts.minds u (List.mem_of_getElem? hu)
    rw [Order.Minds, hfinished] at hminds
    rw [show u.held = [] from hminds] at hm
    cases hm
  | thread ht hu hk hrunning => exact ⟨_, hu, hrunning⟩

/-- A thread that waits for nobody can go on. -/
theorem exists_step (P : Program μ ν κ) (hts : O.Held guard ts) {i : ℕ} {t : Thread μ ν κ}
    (ht : ts[i]? = some t) (hrunning : t.todo ≠ []) (hfree : ∀ j, ¬ WaitsFor ts i j) :
    ∃ ts', Step P i ts ts' := by
  have hminds : O.Minds guard t := hts.minds t (List.mem_of_getElem? ht)
  rcases t with ⟨k, held, _ | ⟨op, todo⟩⟩
  · exact absurd rfl hrunning
  · cases op with
    | lock m =>
      refine ⟨_, .act ht (.lock ?_)⟩
      intro u hu hm
      rcases List.mem_iff_getElem?.mp hu with ⟨j, hj⟩
      exact hfree j (.mutex ht hj hm)
    | unlock m =>
      rcases hminds with ⟨rest, hheld, -⟩
      cases hheld
      exact ⟨_, .act ht .unlock⟩
    | access x => exact ⟨_, .act ht .access⟩
    | wait m =>
      rcases hminds with ⟨rest, hheld, -⟩
      cases hheld
      exact ⟨_, .act ht .pass⟩
    | start k' => exact ⟨_, .start ht⟩
    | join k' => exact ⟨_, .act ht .joinNone⟩
    | joining k' j =>
      refine ⟨_, .act ht (.joined ?_)⟩
      intro u hu hk
      by_contra hnot
      exact hfree j (.thread ht hu hk hnot)
    | pause => exact ⟨_, .act ht .pause⟩
    | outside k' => exact ⟨_, .act ht .leave⟩

/-- Whoever has not finished can go on, or waits in the end for one that can. -/
theorem progress (P : Program μ ν κ) (hts : O.Held guard ts) {i : ℕ} {t : Thread μ ν κ}
    (ht : ts[i]? = some t) (hrunning : t.todo ≠ []) :
    ∃ j, Relation.ReflTransGen (WaitsFor ts) i j ∧ ∃ ts', Step P j ts ts' := by
  -- on what is left to the highest rank
  induction hleft : O.top - (O.wanted t).getD 0 using Nat.strongRecOn generalizing i t with
  | ind left ih =>
    by_cases hwaits : ∃ j, WaitsFor ts i j
    · rcases hwaits with ⟨j, hj⟩
      rcases exists_wanted (O := O) hj with ⟨t', n, ht', hn⟩
      rw [ht] at ht'
      cases ht'
      rcases running_of_waitsFor hts hj with ⟨u, hu, hrunning'⟩
      by_cases hfree : ∀ l, ¬ WaitsFor ts j l
      · exact ⟨j, .single hj, exists_step P hts hu hrunning' hfree⟩
      · rcases not_forall_not.mp hfree with ⟨l, hl⟩
        rcases exists_wanted (O := O) hl with ⟨u', n', hu', hn'⟩
        rw [hu] at hu'
        cases hu'
        have hless := wanted_lt hts hj ht hu hn hn'
        have hle := wanted_le u hn'
        rw [hn, Option.getD_some] at hleft
        have hdown : O.top - (O.wanted u).getD 0 < left := by
          rw [hn', Option.getD_some]
          omega
        rcases ih _ hdown hu hrunning' rfl with ⟨l', hchain, hstep⟩
        exact ⟨l', .head hj hchain, hstep⟩
    · exact ⟨i, .refl, exists_step P hts ht hrunning (not_exists.mp hwaits)⟩

/-- No two threads are about to access what one mutex guards; other code runs, and a thread pauses,
without a mutex; there is no circle of waits; and whoever has not finished can go on, or waits in
the end for one that can. -/
structure Orderly (P : Program μ ν κ) (ts : List (Thread μ ν κ)) : Prop where
  access : ∀ (i j : ℕ) (t u : Thread μ ν κ) (m : μ) (x y : ν) (todo todo' : List (Op μ ν κ)),
    ts[i]? = some t → ts[j]? = some u → P.guard x = some m → P.guard y = some m →
    t.todo = .access x :: todo → u.todo = .access y :: todo' → i = j
  outside : ∀ t ∈ ts, ∀ k todo, t.todo = .outside k :: todo → t.held = []
  pause : ∀ t ∈ ts, ∀ todo, t.todo = .pause :: todo → t.held = []
  acyclic : ∀ i, ¬ Relation.TransGen (WaitsFor ts) i i
  progress : ∀ (i : ℕ) (t : Thread μ ν κ), ts[i]? = some t → t.todo ≠ [] →
    ∃ j, Relation.ReflTransGen (WaitsFor ts) i j ∧ ∃ ts', Step P j ts ts'

theorem Order.Admits.orderly (hP : O.Admits P) (h : P.system.Reachable ts) : Orderly P ts where
  access := by
    intro i j t u m x y todo todo' ht hu hx hy htodo hutodo
    have hmindst : O.Minds P.guard t := (held_of_reachable hP h).minds t (List.mem_of_getElem? ht)
    have hmindsu : O.Minds P.guard u := (held_of_reachable hP h).minds u (List.mem_of_getElem? hu)
    rw [Order.Minds, htodo] at hmindst
    rw [Order.Minds, hutodo] at hmindsu
    have hmt : m ∈ t.held := hmindst.1 m hx
    have hmu : m ∈ u.held := hmindsu.1 m hy
    exact (held_of_reachable hP h).exclusive i j t u m ht hu hmt hmu
  outside := by
    intro t ht k todo htodo
    have hminds : O.Minds P.guard t := (held_of_reachable hP h).minds t ht
    rw [Order.Minds, htodo] at hminds
    exact hminds.1
  pause := by
    intro t ht todo htodo
    have hminds : O.Minds P.guard t := (held_of_reachable hP h).minds t ht
    rw [Order.Minds, htodo] at hminds
    exact hminds.1
  acyclic := acyclic (held_of_reachable hP h)
  progress i t := progress P (held_of_reachable hP h)

end PostgresLib.Foundations.LockOrder
