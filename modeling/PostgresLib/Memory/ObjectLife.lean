import PostgresLib.Memory.Threads
import Mathlib.Data.List.Count

/-! # One step of the threads in the life of one object

An access of an object is a step in its life, and every other step leaves it where it
is. For that a thread has to have a handle of the object whose count it raises.
-/

namespace PostgresLib.Memory

open Foundations

variable {o o' : ℕ} {sh sh' : Objects} {t t' : HandleThread} {pre post : List HandleThread}
  {l l' : Life}

/-! ## What an access changes -/

@[simp] theorem Objects.shares_increment : (sh.increment o).shares o' = sh.shares o' := rfl

@[simp] theorem Objects.shares_release : (sh.release o).2.shares o' = sh.shares o' := rfl

theorem Objects.refCount_increment_of_ne (h : o' ≠ o) :
    (sh.increment o).refCount o' = sh.refCount o' :=
  Function.update_of_ne h _ _

theorem Objects.refCount_increment {n : ℕ} (h : sh.refCount o = n) (hn : n + 1 < countValues) :
    (sh.increment o).refCount o = n + 1 := by
  have hcount : (sh.refCount o + 1) % countValues = n + 1 := by rw [h, Nat.mod_eq_of_lt hn]
  exact (Function.update_self _ _ _).trans hcount

theorem Objects.refCount_release_of_ne (h : o' ≠ o) :
    (sh.release o).2.refCount o' = sh.refCount o' :=
  Function.update_of_ne h _ _

theorem Objects.refCount_release {n : ℕ} (h : sh.refCount o = n + 1) (hn : n < countValues) :
    (sh.release o).2.refCount o = n := by
  have hshift : n + 1 + (countValues - 1) = n + countValues := by
    have hpos : 0 < countValues := by decide
    omega
  have hcount : (sh.refCount o + (countValues - 1)) % countValues = n := by
    rw [h, hshift, Nat.add_mod_right, Nat.mod_eq_of_lt hn]
  exact (Function.update_self _ _ _).trans hcount

variable (sh o o') in
/-- The handles that were members of a deleted object are waiting to be destroyed. -/
theorem Objects.shares_delete :
    (sh.delete o).shares o' + ((sh.members o).map Access.release).count (.release o') =
      sh.shares o' := by
  have hinjective : Function.Injective Access.release := fun _ _ h => Access.release.inj h
  rw [List.count_map_of_injective _ _ hinjective, Objects.members, List.count_reverse,
    Objects.shares, Objects.shares, Objects.delete]
  induction sh.stored with
  | nil => rfl
  | cons p ps ih =>
    by_cases hp : p.1 = some o
    · simp only [List.filter_cons, hp, ne_eq, not_true_eq_false, decide_false, decide_true,
        if_true, List.map_cons, List.count_cons, Bool.false_eq_true, if_false] at ih ⊢
      omega
    · simp only [List.filter_cons, hp, ne_eq, not_false_eq_true, decide_true, decide_false,
        if_true, List.map_cons, List.count_cons, Bool.false_eq_true, if_false] at ih ⊢
      omega

variable (sh o o') in
/-- What is moved out of a member is a handle of the thread. -/
theorem Objects.shares_moveFrom (pointee : ℕ) :
    (sh.moveFrom o pointee).1.shares o' + (sh.moveFrom o pointee).2.count o' = sh.shares o' := by
  unfold Objects.moveFrom
  split_ifs with hmem
  · have hperm := ((List.perm_cons_erase hmem).map Prod.snd).count_eq o'
    simp only [Objects.shares, List.map_cons, List.count_cons, List.count_nil] at hperm ⊢
    omega
  · rfl

theorem Objects.members_moveFrom {pointee : ℕ} {p : Option ℕ × ℕ}
    (hp : p ∈ (sh.moveFrom o pointee).1.stored) : p ∈ sh.stored := by
  unfold Objects.moveFrom at hp
  split_ifs at hp
  · exact List.mem_of_mem_erase hp
  · exact hp

theorem Objects.moveFrom_eq (pointee : ℕ) :
    (sh.moveFrom o pointee).1.created = sh.created ∧
      (sh.moveFrom o pointee).1.refCount = sh.refCount ∧
      (sh.moveFrom o pointee).1.deleted = sh.deleted := by
  unfold Objects.moveFrom
  split_ifs <;> exact ⟨rfl, rfl, rfl⟩

theorem Objects.members_delete {p : Option ℕ × ℕ} (hp : p ∈ (sh.delete o).stored) :
    p.1 ≠ some o ∧ p ∈ sh.stored := by
  rw [Objects.delete, List.mem_filter, decide_eq_true_iff] at hp
  exact ⟨hp.2, hp.1⟩

@[simp] theorem count_release_map {xs : List ℕ} :
    (xs.map Access.release).count (.adopt o) = 0 ∧ (xs.map Access.release).count (.delete o) = 0 ∧
      (xs.map Access.release).count (.increment o) = 0 := by
  simp [List.count_eq_zero]

/-! ## The quantities of one thread among others -/

theorem refs_focus : refs ⟨sh, pre ++ t :: post⟩ o =
    sh.shares o + t.held o +
      (total (HandleThread.held o) pre + total (HandleThread.held o) post) := by
  simp only [refs, Config.potential, total_append, total_cons]
  omega

/-- What the acting thread changes is what changes for the object. -/
theorem Living.act (h : Living o ⟨sh, pre ++ t :: post⟩ l)
    (hcreated : o < sh'.created ↔ l' ≠ .unborn)
    (hcounted : l' ≠ .unborn → sh'.refCount o = l'.handles)
    (hrefs : sh'.shares o + t'.held o + l.handles = sh.shares o + t.held o + l'.handles)
    (hadopts : t'.todo.count (.adopt o) + l.adopts = t.todo.count (.adopt o) + l'.adopts)
    (hdeletes : t'.todo.count (.delete o) + l.deletes = t.todo.count (.delete o) + l'.deletes)
    (hdeletions : sh'.deleted.count o + l.deletions = sh.deleted.count o + l'.deletions)
    (hmembers : l' = .unborn ∨ l' = .gone → ∀ p ∈ sh'.stored, p.1 ≠ some o) :
    Living o ⟨sh', pre ++ t' :: post⟩ l' where
  created := hcreated
  counted := hcounted
  refs := by
    have hold := h.refs
    rw [refs_focus] at hold ⊢
    omega
  adopts := by
    have hold := h.adopts
    simp only [total_append, total_cons] at hold ⊢
    omega
  deletes := by
    have hold := h.deletes
    simp only [total_append, total_cons] at hold ⊢
    omega
  deletions := by
    have hold := h.deletions
    simp only at hold ⊢
    omega
  members := hmembers

/-- A step that is not about the object leaves it where it is. -/
theorem Living.keep (h : Living o ⟨sh, pre ++ t :: post⟩ l)
    (hcreated : o < sh'.created ↔ o < sh.created) (hcounted : sh'.refCount o = sh.refCount o)
    (hrefs : sh'.shares o + t'.held o = sh.shares o + t.held o)
    (hadopts : t'.todo.count (.adopt o) = t.todo.count (.adopt o))
    (hdeletes : t'.todo.count (.delete o) = t.todo.count (.delete o))
    (hdeletions : sh'.deleted.count o = sh.deleted.count o)
    (hmembers : ∀ p ∈ sh'.stored, p ∈ sh.stored ∨ l ≠ .unborn ∧ l ≠ .gone ∨ p.1 ≠ some o) :
    Living o ⟨sh', pre ++ t' :: post⟩ l := by
  apply h.act (hcreated.trans h.created) (fun hl => hcounted.trans (h.counted hl))
    (by rw [hrefs]) (by rw [hadopts]) (by rw [hdeletes]) (by rw [hdeletions])
  intro hl p hp
  rcases hmembers p hp with hold | ⟨hunborn, hgone⟩ | hne
  · exact h.members hl p hold
  · exact absurd hl (not_or.mpr ⟨hunborn, hgone⟩)
  · exact hne

/-- A step of a thread that leaves the objects as they are. -/
theorem Living.same (h : Living o ⟨sh, pre ++ t :: post⟩ l) (hheld : t'.held o = t.held o)
    (hadopts : t'.todo.count (.adopt o) = t.todo.count (.adopt o))
    (hdeletes : t'.todo.count (.delete o) = t.todo.count (.delete o)) :
    Living o ⟨sh, pre ++ t' :: post⟩ l :=
  h.keep Iff.rfl rfl (by rw [hheld]) hadopts hdeletes rfl fun _ hp => .inl hp

/-- An object that a handle points to is alive, and has so many handles. -/
theorem Living.live (h : Living o ⟨sh, pre ++ t :: post⟩ l) (hheld : 0 < sh.shares o + t.held o) :
    ∃ n, l = .live n := by
  have hrefs := h.refs
  rw [refs_focus] at hrefs
  cases l with
  | live n => exact ⟨n, rfl⟩
  | _ =>
    simp only [Life.handles] at hrefs
    omega

theorem held_pos {hs : List ℕ} {todo : List Access} (h : o ∈ hs) :
    0 < (⟨hs, todo⟩ : HandleThread).held o := by
  have hcount := List.count_pos_iff.mpr h
  simp only [HandleThread.held]
  omega

theorem shares_pos {owner : Option ℕ} (h : (owner, o) ∈ sh.stored) : 0 < sh.shares o :=
  List.count_pos_iff.mpr (List.mem_map_of_mem h)

/-! ## One step and the life of one object -/

/-- A step in the life of an object, or none. -/
def Life.Proceeds (l l' : Life) : Prop := l' = l ∨ Life.Step l l'

theorem count_next {b : Bool} {x : Access} (h : x.object ≠ o) :
    (if b = true then [Access.delete o] else []).count x = 0 := by
  cases b with
  | false => rfl
  | true =>
    apply List.count_eq_zero.mpr
    intro hx
    exact h (congrArg Access.object (List.mem_singleton.mp hx))

/-- A move between handles is no step in the life of any object. -/
theorem Living.moveFrom {hs : List ℕ} {a pointee : ℕ} {rest : List Access}
    (h : Living o ⟨sh, pre ++ ⟨hs, .moveFrom a pointee :: rest⟩ :: post⟩ l) :
    Living o ⟨(sh.access (.moveFrom a pointee)).1,
      pre ++ ⟨(sh.access (.moveFrom a pointee)).2.1 ++ hs,
        (sh.access (.moveFrom a pointee)).2.2 ++ rest⟩ :: post⟩ l := by
  obtain ⟨hcreated, hcounted, hdeleted⟩ := sh.moveFrom_eq (o := a) pointee
  apply h.keep
  · rw [Objects.access, hcreated]
  · rw [Objects.access, hcounted]
  · have hshares := Objects.shares_moveFrom a o sh pointee
    simp only [Objects.access, HandleThread.held, List.nil_append, List.count_append,
      List.count_cons, reduceCtorEq, beq_iff_eq, if_false]
    omega
  · simp [Objects.access]
  · simp [Objects.access]
  · rw [Objects.access, hdeleted]
  · exact fun p hp => .inl (Objects.members_moveFrom hp)

/-- An access of one object is no step in the life of another. -/
theorem Living.other {hs : List ℕ} {x : Access} {rest : List Access}
    (h : Living o ⟨sh, pre ++ ⟨hs, x :: rest⟩ :: post⟩ l) (ho : x.object ≠ o) :
    Living o ⟨(sh.access x).1,
      pre ++ ⟨(sh.access x).2.1 ++ hs, (sh.access x).2.2 ++ rest⟩ :: post⟩ l := by
  cases x with
  | adopt a =>
    have ha : a ≠ o := ho
    apply h.keep
    · exact Iff.rfl
    · exact Objects.refCount_increment_of_ne ha.symm
    · simp [Objects.access, HandleThread.held, ha]
    · simp [Objects.access, ha]
    · simp [Objects.access]
    · rfl
    · exact fun p hp => .inl hp
  | increment a =>
    have ha : a ≠ o := ho
    apply h.keep
    · exact Iff.rfl
    · exact Objects.refCount_increment_of_ne ha.symm
    · simp [Objects.access, HandleThread.held, ha]
    · simp [Objects.access]
    · simp [Objects.access]
    · rfl
    · exact fun p hp => .inl hp
  | release a =>
    have ha : a ≠ o := ho
    apply h.keep
    · exact Iff.rfl
    · exact Objects.refCount_release_of_ne ha.symm
    · have hnext := count_next (b := (sh.release a).1) (x := .release o) ha.symm
      simp [Objects.access, HandleThread.held, hnext, ha]
    · have hnext := count_next (b := (sh.release a).1) (x := .adopt o) ha.symm
      simp [Objects.access, hnext]
    · have hnext := count_next (b := (sh.release a).1) (x := .delete o) ha.symm
      simp [Objects.access, hnext]
    · rfl
    · exact fun p hp => .inl hp
  | delete a =>
    have ha : a ≠ o := ho
    apply h.keep
    · exact Iff.rfl
    · rfl
    · have hshares := Objects.shares_delete a o sh
      simp only [Objects.access, HandleThread.held, List.nil_append, List.count_append,
        List.count_cons, reduceCtorEq, beq_iff_eq, if_false]
      omega
    · simp [Objects.access]
    · simp [Objects.access, ha]
    · simp [Objects.access, Objects.delete, List.count_append, ha]
    · exact fun p hp => .inl (Objects.members_delete hp).2
  | moveFrom a pointee => exact h.moveFrom

/-- A further handle, or the first one. -/
theorem Living.gain (h : Living o ⟨sh, pre ++ t :: post⟩ l) (hl : l = .fresh ∨ ∃ n, l = .live n)
    (hless : l.handles + 1 < countValues) (hheld : t'.held o = t.held o + 1)
    (hadopts : t'.todo.count (.adopt o) + l.adopts = t.todo.count (.adopt o))
    (hdeletes : t'.todo.count (.delete o) = t.todo.count (.delete o)) :
    Living o ⟨sh.increment o, pre ++ t' :: post⟩ (.live l.handles) := by
  have hborn : l ≠ .unborn := by
    rcases hl with rfl | ⟨n, rfl⟩ <;> exact nofun
  have hnone : l.deletes = 0 ∧ l.deletions = 0 := by
    rcases hl with rfl | ⟨n, rfl⟩ <;> exact ⟨rfl, rfl⟩
  apply h.act
  · exact iff_of_true (h.created.mpr hborn) nofun
  · exact fun _ => Objects.refCount_increment (h.counted hborn) hless
  · rw [Objects.shares_increment, hheld, Life.handles]
    omega
  · exact hadopts
  · rw [hdeletes, hnone.1]
    rfl
  · rw [hnone.2]
    rfl
  · exact fun hl => by rcases hl with hl | hl <;> cases hl

/-- One handle fewer. When it was the last, the object is to be deleted. -/
theorem Living.lose {hs : List ℕ} {rest : List Access} {n : ℕ}
    (h : Living o ⟨sh, pre ++ ⟨hs, .release o :: rest⟩ :: post⟩ (.live n))
    (hless : n < countValues) :
    ∃ l', Life.Step (.live n) l' ∧
      Living o ⟨(sh.access (.release o)).1,
        pre ++ ⟨(sh.access (.release o)).2.1 ++ hs, (sh.access (.release o)).2.2 ++ rest⟩ :: post⟩
        l' := by
  have hcounted : sh.refCount o = n + 1 := h.counted nofun
  have hlower := Objects.refCount_release hcounted hless
  have hborn : o < sh.created := h.created.mpr nofun
  cases n with
  | zero =>
    refine ⟨.dying, .dropLast, ?_⟩
    have hlast : (sh.release o).1 = true := decide_eq_true hcounted
    apply h.act
    · exact iff_of_true hborn nofun
    · exact fun _ => hlower
    · simp [Objects.access, hlast, HandleThread.held, Life.handles]
      omega
    · simp [Objects.access, hlast, Life.adopts]
    · simp [Objects.access, hlast, Life.deletes]
    · rfl
    · exact fun hl => by rcases hl with hl | hl <;> cases hl
  | succ n =>
    refine ⟨.live n, .drop n, ?_⟩
    have hmore : (sh.release o).1 = false :=
      decide_eq_false fun hone => Nat.succ_ne_zero n (Nat.succ.inj (hcounted.symm.trans hone))
    apply h.act
    · exact iff_of_true hborn nofun
    · exact fun _ => hlower
    · simp [Objects.access, hmore, HandleThread.held, Life.handles]
      omega
    · simp [Objects.access, hmore, Life.adopts]
    · simp [Objects.access, hmore, Life.deletes]
    · rfl
    · exact fun hl => by rcases hl with hl | hl <;> cases hl

theorem Living.delete {hs : List ℕ} {rest : List Access}
    (h : Living o ⟨sh, pre ++ ⟨hs, .delete o :: rest⟩ :: post⟩ .dying) :
    Living o ⟨(sh.access (.delete o)).1,
      pre ++ ⟨(sh.access (.delete o)).2.1 ++ hs, (sh.access (.delete o)).2.2 ++ rest⟩ :: post⟩
      .gone := by
  apply h.act
  · exact iff_of_true (h.created.mpr nofun) nofun
  · exact fun _ => h.counted nofun
  · have hshares := Objects.shares_delete o o sh
    simp only [Objects.access, HandleThread.held, List.nil_append, List.count_append,
      List.count_cons, reduceCtorEq, beq_iff_eq, if_false, Life.handles]
    omega
  · simp [Objects.access, Life.adopts]
  · simp [Objects.access, Life.deletes]
  · simp [Objects.access, Objects.delete, Life.deletions]
  · exact fun _ p hp => (Objects.members_delete hp).1

/-- An increment comes first in an operation, and its object has a handle of the thread; and so has
the object whose member is still to be read. -/
structure HandleThread.Sourced (t : HandleThread) : Prop where
  increments : ∀ x rest, t.todo = x :: rest →
    (∀ o, x = .increment o → 0 < t.held o) ∧ ∀ o, Access.increment o ∉ rest
  moves : ∀ o pointee, .moveFrom o pointee ∈ t.todo → o ∈ t.handles

theorem HandleThread.Sourced.nothing (hs : List ℕ) : (⟨hs, []⟩ : HandleThread).Sourced :=
  ⟨nofun, nofun⟩

/-- What an access entails is a deletion, or the destruction of members. -/
theorem Objects.entailed {x y : Access} (hy : y ∈ (sh.access x).2.2) :
    ∃ o, y = .delete o ∨ y = .release o := by
  cases x with
  | release a =>
    simp only [Objects.access] at hy
    split_ifs at hy
    · exact ⟨a, .inl (List.mem_singleton.mp hy)⟩
    · cases hy
  | delete a =>
    rcases List.mem_map.mp hy with ⟨o, -, heq⟩
    exact ⟨o, .inr heq.symm⟩
  | _ => cases hy

theorem sourced_finish (h : Finish sh t sh' t') (ht : t.Sourced) : t'.Sourced := by
  cases h with
  | @access hs x rest =>
    have hnone : ∀ o, Access.increment o ∉ (sh.access x).2.2 ++ rest := by
      intro o ho
      rcases List.mem_append.mp ho with ho | ho
      · rcases Objects.entailed ho with ⟨a, heq | heq⟩ <;> cases heq
      · exact (ht.increments x rest rfl).2 o ho
    constructor
    · intro y rest' heq
      rw [show (sh.access x).2.2 ++ rest = y :: rest' from heq] at hnone
      exact ⟨fun o ho => absurd (ho ▸ List.mem_cons_self) (hnone o),
        fun o ho => hnone o (List.mem_cons_of_mem _ ho)⟩
    · intro o pointee ho
      rcases List.mem_append.mp ho with ho | ho
      · rcases Objects.entailed ho with ⟨a, heq | heq⟩ <;> cases heq
      · exact List.mem_append_right _ (ht.moves o pointee (List.mem_cons_of_mem _ ho))

theorem sourced_act (h : HandleAct sh t sh' t') (ht : t.Sourced) : t'.Sourced := by
  cases h with
  | finish h => exact sourced_finish h ht
  | copy h =>
    refine ⟨?_, fun o pointee ho => by cases List.mem_singleton.mp ho⟩
    intro y rest heq
    cases heq
    exact ⟨fun o ho => by cases ho; exact held_pos h, nofun⟩
  | @assign front back old o h =>
    refine ⟨?_, fun o pointee ho => by simp at ho⟩
    intro y rest heq
    cases heq
    refine ⟨?_, fun o ho => by cases List.mem_singleton.mp ho⟩
    rintro _ ⟨⟩
    simp only [HandleThread.held, List.count_cons]
    have hcount := List.count_pos_iff.mpr h
    simp only [List.count_append, List.count_cons] at hcount ⊢
    simp only [beq_iff_eq, Access.release.injEq, reduceCtorEq, if_false, List.count_nil] at hcount ⊢
    omega
  | @moveAssign front back old o pointee hstored h =>
    constructor
    · intro y rest heq
      cases heq
      exact ⟨nofun, fun o ho => by cases List.mem_singleton.mp ho⟩
    · intro o' pointee' ho
      rcases List.mem_cons.mp ho with heq | ho
      · cases heq
      · cases List.mem_singleton.mp ho
        exact h
  | create =>
    refine ⟨?_, fun o pointee ho => by cases List.mem_singleton.mp ho⟩
    intro y rest heq
    cases heq
    exact ⟨nofun, nofun⟩
  | drop =>
    refine ⟨?_, fun o pointee ho => by cases List.mem_singleton.mp ho⟩
    intro y rest heq
    cases heq
    exact ⟨nofun, nofun⟩
  | store | take | load => exact .nothing _

theorem pointing_focus : pointing ⟨sh, pre ++ t :: post⟩ o = sh.shares o + t.pointing o +
    (total (HandleThread.pointing o) pre + total (HandleThread.pointing o) post) := by
  simp only [pointing, Config.potential, total_append, total_cons]
  omega

theorem refs_le_pointing (c : HandleConfig) : refs c o ≤ pointing c o := by
  apply Nat.add_le_add_left
  apply total_mono
  intro t
  rw [HandleThread.pointing]
  omega

/-- A thread that is about to count a further handle points to its object with it. -/
theorem refs_lt_pointing {hs : List ℕ} {rest : List Access} :
    refs ⟨sh, pre ++ ⟨hs, .increment o :: rest⟩ :: post⟩ o <
      pointing ⟨sh, pre ++ ⟨hs, .increment o :: rest⟩ :: post⟩ o := by
  have hmono : ∀ t : HandleThread, t.held o ≤ t.pointing o := by
    intro t
    rw [HandleThread.pointing]
    omega
  have hpre := total_mono hmono pre
  have hpost := total_mono hmono post
  rw [refs_focus, pointing_focus, HandleThread.pointing, List.count_cons_self]
  omega

theorem Living.fresh (h : Living o ⟨sh, pre ++ t :: post⟩ l) (ht : .adopt o ∈ t.todo) :
    l = .fresh := by
  have hadopts := h.adopts
  have hcount := List.count_pos_iff.mpr ht
  simp only [total_append, total_cons] at hadopts
  cases l with
  | fresh => rfl
  | _ =>
    simp only [Life.adopts] at hadopts
    omega

theorem Living.dying (h : Living o ⟨sh, pre ++ t :: post⟩ l) (ht : .delete o ∈ t.todo) :
    l = .dying := by
  have hdeletes := h.deletes
  have hcount := List.count_pos_iff.mpr ht
  simp only [total_append, total_cons] at hdeletes
  cases l with
  | dying => rfl
  | _ =>
    simp only [Life.deletes] at hdeletes
    omega

theorem Living.releasing {hs : List ℕ} {rest : List Access}
    (h : Living o ⟨sh, pre ++ ⟨hs, .release o :: rest⟩ :: post⟩ l) : ∃ n, l = .live n := by
  apply h.live
  simp only [HandleThread.held, List.count_cons_self]
  omega

/-- An access is a step in the life of its object. -/
theorem living_finish (hfinish : Finish sh t sh' t') (ht : t.Sourced)
    (h : Living o ⟨sh, pre ++ t :: post⟩ l)
    (hless : pointing ⟨sh, pre ++ t :: post⟩ o < countValues) :
    ∃ l', l.Proceeds l' ∧ Living o ⟨sh', pre ++ t' :: post⟩ l' := by
  cases hfinish with
  | @access hs x rest =>
    by_cases ho : x.object = o
    · subst ho
      cases x with
      | adopt a =>
        cases h.fresh List.mem_cons_self
        refine ⟨_, .inr .adopt, h.gain (.inl rfl) (by decide) ?_ ?_ ?_⟩
        · simp [Objects.access, HandleThread.held, Access.object]
          omega
        · simp [Objects.access, Life.adopts, Access.object]
        · simp [Objects.access]
      | increment a =>
        rcases h.live (Nat.add_pos_right _ ((ht.increments _ _ rfl).1 a rfl)) with ⟨n, rfl⟩
        have hmore : (Life.live n).handles <
            pointing ⟨sh, pre ++ ⟨hs, .increment a :: rest⟩ :: post⟩ a := by
          rw [← h.refs]
          exact refs_lt_pointing
        refine ⟨_, .inr (.copy n), h.gain (.inr ⟨n, rfl⟩) ?_ ?_ ?_ ?_⟩
        · exact Nat.lt_of_le_of_lt hmore hless
        · simp [Objects.access, HandleThread.held, Access.object]
          omega
        · simp [Objects.access, Life.adopts]
        · simp [Objects.access]
      | release a =>
        rcases h.releasing with ⟨n, rfl⟩
        have hmore : n < pointing ⟨sh, pre ++ ⟨hs, .release a :: rest⟩ :: post⟩ a :=
          Nat.lt_of_lt_of_le (Nat.lt_of_lt_of_eq (Nat.lt_succ_self n) h.refs.symm)
            (refs_le_pointing _)
        rcases h.lose (hmore.trans hless) with ⟨l', hstep, hl'⟩
        exact ⟨l', .inr hstep, hl'⟩
      | delete a =>
        cases h.dying List.mem_cons_self
        exact ⟨_, .inr .delete, h.delete⟩
      | moveFrom a pointee => exact ⟨l, .inl rfl, h.moveFrom⟩
    · exact ⟨l, .inl rfl, h.other ho⟩

/-- The object that comes next is created, and the others stay where they are. -/
theorem Living.create {hs : List ℕ} (h : Living o ⟨sh, pre ++ ⟨hs, []⟩ :: post⟩ l) :
    ∃ l', l.Proceeds l' ∧
      Living o ⟨sh.create, pre ++ ⟨hs, [.adopt sh.created]⟩ :: post⟩ l' := by
  by_cases ho : o = sh.created
  · subst ho
    have hunborn : l = .unborn := by
      by_contra hborn
      exact Nat.lt_irrefl _ (h.created.mpr hborn)
    subst hunborn
    refine ⟨.fresh, .inr .create, ?_⟩
    apply h.act
    · exact iff_of_true (Nat.lt_succ_self _) nofun
    · exact fun _ => Function.update_self _ _ _
    · rfl
    · simp [Life.adopts]
    · simp [Life.deletes]
    · rfl
    · exact fun hl => by rcases hl with hl | hl <;> cases hl
  · refine ⟨l, .inl rfl, ?_⟩
    apply h.keep
    · simp only [Objects.create]
      omega
    · exact Function.update_of_ne ho _ _
    · simp [HandleThread.held, Objects.shares, Objects.create]
    · simp [Ne.symm ho]
    · simp
    · rfl
    · exact fun p hp => .inl hp

/-- A step of a thread is a step in the life of an object, or none. -/
theorem living_act (hact : HandleAct sh t sh' t') (ht : t.Sourced)
    (h : Living o ⟨sh, pre ++ t :: post⟩ l)
    (hless : pointing ⟨sh, pre ++ t :: post⟩ o < countValues)
    (hless' : pointing ⟨sh', pre ++ t' :: post⟩ o < countValues) :
    ∃ l', l.Proceeds l' ∧ Living o ⟨sh', pre ++ t' :: post⟩ l' := by
  cases hact with
  | finish hfinish => exact living_finish hfinish ht h hless
  | create => exact h.create
  | copy hmem =>
    refine ⟨l, .inl rfl, h.same ?_ (by simp) (by simp)⟩
    simp [HandleThread.held]
  | assign | drop | moveAssign =>
    refine ⟨l, .inl rfl, h.same ?_ (by simp) (by simp)⟩
    simp only [HandleThread.held, List.count_append, List.count_cons, List.count_nil, beq_iff_eq,
      Access.release.injEq, reduceCtorEq, if_false]
    omega
  | @store front back a owner hreach =>
    refine ⟨l, .inl rfl, ?_⟩
    apply h.keep
    · exact Iff.rfl
    · rfl
    · simp only [HandleThread.held, Objects.shares, List.map_append, List.map_cons, List.map_nil,
        List.count_append, List.count_cons, List.count_nil, beq_iff_eq]
      omega
    · rfl
    · rfl
    · rfl
    · intro p hp
      rcases List.mem_append.mp hp with hp | hp
      · exact .inl hp
      · -- the thread has a handle of the object that the new handle is a member of
        rw [List.mem_singleton] at hp
        subst hp
        by_cases howner : owner = some o
        · rcases h.live (Nat.add_pos_right _ (held_pos (hreach o howner))) with ⟨n, rfl⟩
          exact .inr (.inl ⟨nofun, nofun⟩)
        · exact .inr (.inr howner)
  | @take hs front back a owner hstored hreach =>
    refine ⟨l, .inl rfl, ?_⟩
    apply h.keep
    · exact Iff.rfl
    · rfl
    · simp only [HandleThread.held, Objects.shares, hstored, List.map_append, List.map_cons,
        List.count_append, List.count_cons, List.count_nil, beq_iff_eq]
      omega
    · rfl
    · rfl
    · rfl
    · intro p hp
      rw [hstored]
      rcases List.mem_append.mp hp with hp | hp
      · exact .inl (List.mem_append_left _ hp)
      · exact .inl (List.mem_append_right _ (List.mem_cons_of_mem _ hp))
  | @load hs a owner hstored hreach =>
    by_cases ho : a = o
    · subst ho
      rcases h.live (Nat.add_pos_left (shares_pos hstored) _) with ⟨n, rfl⟩
      have hheld : (⟨a :: hs, []⟩ : HandleThread).held a =
          (⟨hs, []⟩ : HandleThread).held a + 1 := by
        simp [HandleThread.held]
      refine ⟨_, .inr (.copy n), h.gain (.inr ⟨n, rfl⟩) ?_ hheld rfl rfl⟩
      have hmore := (refs_le_pointing _).trans_lt hless'
      have hrefs := h.refs
      rw [refs_focus] at hmore hrefs
      rw [← hrefs]
      rw [Objects.shares_increment, hheld] at hmore
      omega
    · refine ⟨l, .inl rfl, ?_⟩
      apply h.keep
      · exact Iff.rfl
      · exact Objects.refCount_increment_of_ne (Ne.symm ho)
      · simp [HandleThread.held, ho]
      · rfl
      · rfl
      · rfl
      · exact fun p hp => .inl hp

theorem living_spawn {sh : Objects} {ts : List HandleThread} (h : Living o ⟨sh, ts⟩ l) :
    Living o ⟨sh, ts ++ [⟨[], []⟩]⟩ l :=
  { h with
    refs := by simpa [refs, Config.potential, HandleThread.held] using h.refs
    adopts := by simpa using h.adopts
    deletes := by simpa using h.deletes }

end PostgresLib.Memory
