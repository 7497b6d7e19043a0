import PostgresLib.Memory.Deletion

/-! # The runs in which the counts are right

Every operation leaves the counts right, deletes what has lost its last handle, and
points its target to what its argument pointed to, except for a move assignment
whose source dies with what the target lets go of: there the source is read when it
is gone.
-/

namespace PostgresLib.Memory

open Foundations

variable {s s₁ s' : Heap} {i j t : ℕ} {h : IntrusivePtr} {p owner : Option ℕ}

namespace Heap

theorem getElem?_construct (hi : s.handles[i]? = some h) :
    (s.construct owner p).handles[i]? = some h := by
  rw [construct, List.getElem?_append_left (List.getElem?_eq_some_iff.mp hi).1]
  exact hi

theorem getElem?_construct_length :
    (s.construct owner p).handles[s.handles.length]? = some ⟨p, owner, true⟩ := by
  simp [construct]

theorem getElem?_move {h' : IntrusivePtr} (hi : s.handles[i]? = some h)
    (hj : s.handles[j]? = some h') (hij : i ≠ j) :
    ((s.setPtr i (s.ptr j)).setPtr j none).handles[i]? = some { h with ptr := s.ptr j } := by
  have hj' : (s.setPtr i (s.ptr j)).handles[j]? = some h' := by
    rw [getElem?_setPtr hi, if_neg hij]
    exact hj
  rw [getElem?_setPtr hj', if_neg (Ne.symm hij), getElem?_setPtr hi, if_pos rfl]

end Heap

/-- No live handle is a member of one of these objects. -/
def NoMembers (deleted : List ℕ) (s : Heap) : Prop :=
  ∀ (i : ℕ) (h : IntrusivePtr) (a : ℕ), s.handles[i]? = some h → h.live = true →
    h.owner = some a → a ∉ deleted

structure Consistent (s : Heap) : Prop where
  counting : Counting none s
  countable : ∀ o, s.refs o < countValues
  members : NoMembers s.deleted s
  created : ∀ o ∈ s.deleted, o < s.created
  acyclic : s.Acyclic

namespace Consistent

theorem sound (hs : Consistent s) : Sound s := by
  constructor
  · intro o ho
    rw [hs.counting.counted o ho, points_none, Nat.add_zero]
    exact Nat.mod_eq_of_lt (hs.countable o)
  · exact hs.counting.once
  · intro o ho
    have hnone := hs.counting.safe o ho
    omega

theorem hasObject (hs : Consistent s) {o : ℕ} (hpos : 0 < s.refs o) : s.HasObject o :=
  hs.counting.hasObject (by omega)

/-- A live handle points to an object that is not deleted. -/
theorem hasObject_ptr (hs : Consistent s) (hi : s.HasHandle i) : ∀ o ∈ s.ptr i, s.HasObject o := by
  rcases hi with ⟨h, hi, hlive⟩
  intro o ho
  rw [Option.mem_def, Heap.ptr_of_getElem? hi] at ho
  exact hs.hasObject (Heap.refs_pos.mpr ⟨i, h, hi, hlive, ho⟩)

theorem increment (hs : Consistent s) (hp : ∀ o ∈ p, s.HasObject o) :
    Counting p (s.incrementRef p) := by
  cases p with
  | none => exact hs.counting
  | some o =>
    have ho : s.HasObject o := hp o rfl
    have hrefs (o' : ℕ) : (s.incrementRef (some o)).refs o' = s.refs o' := rfl
    constructor
    · intro o' ho'
      have hcount := hs.counting.counted o' ho'
      rw [points_none, Nat.add_zero] at hcount
      have hafter : (s.incrementRef (some o)).refCount o' =
          if o' = o then (s.refCount o + 1) % countValues else s.refCount o' := by
        simp [Heap.incrementRef, Heap.increment, Function.update_apply]
      rw [hafter, hrefs]
      split_ifs with heq
      · subst heq
        rw [points_self, hcount, Nat.mod_add_mod]
      · rw [points_of_ne (Ne.symm heq), hcount, Nat.add_zero]
    · intro o'
      have hbound := hs.countable o'
      have hone : points (some o) o' ≤ 1 := points_le
      rw [hrefs]
      omega
    · intro o' ho'
      have hnone := hs.counting.objects o' ho'
      have hne : o ≠ o' := by
        rintro rfl
        exact absurd ho.1 (Nat.not_lt.mpr ho')
      rw [hrefs, points_of_ne hne]
      exact hnone
    · intro o' ho'
      have hnone := hs.counting.safe o' ho'
      have hne : o ≠ o' := by
        rintro rfl
        exact ho.2 ho'
      rw [hrefs, points_of_ne hne]
      exact hnone
    · exact hs.counting.once

theorem cascade (hs : Consistent s) (hp : ∀ o ∈ p, s.HasObject o) (t : ℕ) :
    Cascade s t p [] (s.incrementRef p) := by
  cases p <;> exact .start (hs.increment hp) hs.members rfl rfl rfl

/-- A handle lets go while one more reference is counted. -/
theorem decrementRef (hs : Consistent s) (hp : ∀ o ∈ p, s.HasObject o) (ht : s.HasHandle t) :
    ∃ s₁, (s.incrementRef p).decrementRef t = some s₁ ∧ Cascade s t p [] s₁ ∧
      ∃ h, s₁.handles[t]? = some h ∧ h.live = true ∧ h.ptr = none := by
  rcases ht with ⟨h, ht, hlive⟩
  have ht' : (s.incrementRef p).handles[t]? = some h := by cases p <;> exact ht
  rcases (hs.cascade hp t).decrementRef ht' hlive with ⟨s₁, hrun, hc, hnull⟩
  have hspared := hc.spared ht hlive fun a ha => Doomed.not_owner hs.acyclic ht hlive ha
  rcases hspared with ⟨h', ht₁, hlive₁, -⟩
  rw [Heap.ptr_of_getElem? ht₁] at hnull
  exact ⟨s₁, hrun, hc, h', ht₁, hlive₁, hnull⟩

end Consistent

/-- What the end of an operation does: the counted reference is put in a handle. -/
structure Settles (p : Option ℕ) (s₁ s' : Heap) : Prop where
  created : s'.created = s₁.created
  refCount : s'.refCount = s₁.refCount
  deleted : s'.deleted = s₁.deleted
  refs : ∀ o, s'.refs o = s₁.refs o + points p o
  members : NoMembers s₁.deleted s'

namespace Settles

theorem consistent (hs : Consistent s) (hc : Cascade s t p [] s₁) (hsettles : Settles p s₁ s')
    (hacyclic : s'.Acyclic) (hbound : ∀ o, s'.refs o < countValues) : Consistent s' := by
  have hrefs (o : ℕ) : s'.refs o + points none o = s₁.refs o + points p o := by
    rw [points_none, Nat.add_zero, hsettles.refs]
  constructor
  · constructor
    · intro o ho
      rw [hrefs, hsettles.refCount]
      apply hc.counting.counted
      rw [Heap.HasObject, hsettles.created, hsettles.deleted] at ho
      exact ho
    · intro o
      rw [hrefs]
      exact hc.counting.bounded o
    · intro o ho
      rw [hrefs]
      exact hc.counting.objects o (hsettles.created ▸ ho)
    · intro o ho
      rw [hrefs]
      exact hc.counting.safe o (hsettles.deleted ▸ ho)
    · rw [hsettles.deleted]
      exact hc.counting.once
  · exact hbound
  · intro i h a hi hlive howner
    rw [hsettles.deleted]
    exact hsettles.members i h a hi hlive howner
  · intro o ho
    rw [hsettles.created, hc.since.created]
    rw [hsettles.deleted] at ho
    rcases hc.since.doomed o ho with hold | hdoomed
    · exact hs.created o hold
    · cases hdoomed with
      | intro owner hpos => exact (hs.hasObject hpos).1
  · exact hacyclic

/-- What is deleted has lost its last handle, and the other way round. -/
theorem deletes (hc : Cascade s t p [] s₁) (hsettles : Settles p s₁ s') {o : ℕ}
    (ho : s.HasObject o) : o ∈ s'.deleted ↔ 0 < s.refs o ∧ s'.refs o = 0 := by
  rw [hsettles.deleted, hsettles.refs]
  constructor
  · intro hdeleted
    refine ⟨?_, hc.counting.safe o hdeleted⟩
    rcases hc.since.doomed o hdeleted with hold | hdoomed
    · exact absurd hold ho.2
    · cases hdoomed with
      | intro owner hpos => exact hpos
  · rintro ⟨hpos, hnone⟩
    by_contra hkept
    have halive := hc.alive o hkept (by omega)
    omega

theorem stepSound {op : Op} (hc : Cascade s t p [] s₁) (hsettles : Settles p s₁ s')
    (htarget : ∀ i, op.target s = some i → s'.HasHandle i ∧ s'.ptr i = op.argument s) :
    StepSound op s s' := by
  constructor
  · exact fun o ho => hsettles.deletes hc ho
  · rw [hsettles.deleted]
    exact hc.since.keeps
  · exact htarget

end Settles

theorem Cascade.noMembers (hc : Cascade s t p [] s₁) : NoMembers s₁.deleted s₁ := by
  intro i h a hi hlive howner ha
  exact absurd (hc.waiting.orphans i h a hi hlive howner ha) nofun

namespace NoMembers

variable {deleted : List ℕ}

theorem setPtr (hs : NoMembers deleted s) (hi : s.handles[i]? = some h) :
    NoMembers deleted (s.setPtr i p) := by
  intro j h' a hj hlive howner
  rw [Heap.getElem?_setPtr hi] at hj
  split_ifs at hj with hij
  · cases hj
    exact hs i h a hi hlive howner
  · exact hs j h' a hj hlive howner

theorem die (hs : NoMembers deleted s) (hi : s.handles[i]? = some h) :
    NoMembers deleted (s.die i) := by
  intro j h' a hj hlive howner
  rw [Heap.getElem?_die hi] at hj
  split_ifs at hj with hij
  · cases hj
    cases hlive
  · exact hs j h' a hj hlive howner

theorem construct (hs : NoMembers deleted s) (howner : ∀ a ∈ owner, a ∉ deleted) :
    NoMembers deleted (s.construct owner p) := by
  intro j h' a hj hlive ha
  rcases List.mem_append.mp (List.mem_of_getElem? hj) with hold | hnew
  · rcases List.getElem?_of_mem hold with ⟨k, hk⟩
    exact hs k h' a hk hlive ha
  · rw [List.mem_singleton.mp hnew] at ha
    exact howner a ha

end NoMembers

namespace Settles

/-- The last assignment of `reset` and of the copy assignment. -/
theorem setPtr (hc : Cascade s t p [] s₁) (hi : s₁.handles[i]? = some h) (hlive : h.live = true)
    (hnull : h.ptr = none) : Settles p s₁ (s₁.setPtr i p) := by
  constructor
  · rfl
  · rfl
  · rfl
  · intro o
    have hrefs : (s₁.setPtr i p).refs o + points h.ptr o = s₁.refs o + points p o :=
      Heap.refs_setPtr hi hlive
    rw [hnull, points_none, Nat.add_zero] at hrefs
    exact hrefs
  · exact hc.noMembers.setPtr hi

theorem die (hc : Cascade s t none [] s₁) (hi : s₁.handles[i]? = some h) (hnull : h.ptr = none) :
    Settles none s₁ (s₁.die i) := by
  constructor
  · rfl
  · rfl
  · rfl
  · intro o
    rw [Heap.refs_die hi hnull, points_none, Nat.add_zero]
  · exact hc.noMembers.die hi

/-- The pointer goes from one live handle to another one, which is null. -/
theorem move {h' : IntrusivePtr} (hs : NoMembers s.deleted s) (hi : s.handles[i]? = some h)
    (hlive : h.live = true) (hnull : h.ptr = none) (hj : s.handles[j]? = some h')
    (hlive' : h'.live = true) (hij : i ≠ j) :
    Settles none s ((s.setPtr i (s.ptr j)).setPtr j none) := by
  have hj' : (s.setPtr i (s.ptr j)).handles[j]? = some h' := by
    rw [Heap.getElem?_setPtr hi, if_neg hij]
    exact hj
  constructor
  · rfl
  · rfl
  · rfl
  · intro o
    have hto : (s.setPtr i (s.ptr j)).refs o + points h.ptr o = s.refs o + points (s.ptr j) o :=
      Heap.refs_setPtr hi hlive
    have hfrom : ((s.setPtr i (s.ptr j)).setPtr j none).refs o + points h'.ptr o =
        (s.setPtr i (s.ptr j)).refs o + points none o := Heap.refs_setPtr hj' hlive'
    rw [hnull] at hto
    rw [Heap.ptr_of_getElem? hj] at hto hfrom ⊢
    rw [points_none] at hto hfrom ⊢
    omega
  · exact (hs.setPtr hi).setPtr hj'

theorem construct (hs : NoMembers s.deleted s) (howner : ∀ a ∈ owner, s.HasObject a) :
    Settles p s (s.construct owner p) := by
  constructor
  · rfl
  · rfl
  · rfl
  · intro o
    exact Heap.refs_construct owner
  · exact NoMembers.construct hs fun a ha => (howner a ha).2

theorem moveConstruct (hs : NoMembers s.deleted s) (howner : ∀ a ∈ owner, s.HasObject a)
    (hj : s.handles[j]? = some h) (hlive : h.live = true) :
    Settles none s ((s.construct owner (s.ptr j)).setPtr j none) := by
  have hj' : (s.construct owner (s.ptr j)).handles[j]? = some h := Heap.getElem?_construct hj
  constructor
  · rfl
  · rfl
  · rfl
  · intro o
    have hto : (s.construct owner (s.ptr j)).refs o = s.refs o + points (s.ptr j) o :=
      Heap.refs_construct owner
    have hfrom : ((s.construct owner (s.ptr j)).setPtr j none).refs o + points h.ptr o =
        (s.construct owner (s.ptr j)).refs o + points none o := Heap.refs_setPtr hj' hlive
    rw [Heap.ptr_of_getElem? hj] at hto hfrom ⊢
    rw [points_none] at hfrom ⊢
    omega
  · exact (NoMembers.construct hs fun a ha => (howner a ha).2).setPtr hj'

end Settles

/-- The operation comes to an end, and keeps the heap as it should be when it meets the
condition. -/
def Behaves (op : Op) (s : Heap) : Prop :=
  ∃ s', op.apply s = some s' ∧
    (s'.Acyclic → Meets op s s' → Consistent s' ∧ StepSound op s s')

namespace Consistent

theorem create (hs : Consistent s) : Behaves .create s := by
  refine ⟨_, rfl, fun hacyclic hmeets => ⟨?_, ?_⟩⟩
  · constructor
    · constructor
      · intro o ho
        by_cases hnew : o = s.created
        · have hnone := hs.counting.objects o hnew.ge
          change Function.update s.refCount s.created 0 o = (s.refs o + points none o) % _
          rw [hnone, hnew, Function.update_self]
          rfl
        · change Function.update s.refCount s.created 0 o = _
          rw [Function.update_of_ne hnew]
          have hlt : o < s.created + 1 := ho.1
          exact hs.counting.counted o ⟨by omega, ho.2⟩
      · exact hs.counting.bounded
      · exact fun o ho => hs.counting.objects o (Nat.le_of_succ_le ho)
      · exact hs.counting.safe
      · exact hs.counting.once
    · exact hs.countable
    · exact hs.members
    · exact fun o ho => Nat.lt_succ_of_lt (hs.created o ho)
    · exact hs.acyclic
  · constructor
    · intro o ho
      constructor
      · exact fun hold => absurd hold ho.2
      · rintro ⟨hpos, hnone⟩
        change s.refs o = 0 at hnone
        omega
    · exact List.prefix_rfl
    · exact nofun

theorem construct (hs : Consistent s) (howner : ∀ a ∈ owner, s.HasObject a)
    (hp : ∀ o ∈ p, s.HasObject o) {op : Op}
    (happly : op.apply s = some ((s.incrementRef p).construct owner p))
    (htarget : op.target s = some s.handles.length) (hargument : op.argument s = p) :
    Behaves op s := by
  have hc := hs.cascade hp 0
  have hsettles : Settles p (s.incrementRef p) ((s.incrementRef p).construct owner p) := by
    have howner' : ∀ a ∈ owner, (s.incrementRef p).HasObject a := by cases p <;> exact howner
    exact .construct hc.noMembers howner'
  have hlast : ((s.incrementRef p).construct owner p).handles[s.handles.length]? =
      some ⟨p, owner, true⟩ := by
    cases p <;> exact Heap.getElem?_construct_length
  refine ⟨_, happly, fun hacyclic hmeets => ⟨?_, ?_⟩⟩
  · exact hsettles.consistent hs hc hacyclic hmeets.2
  · apply hsettles.stepSound hc
    intro i hi
    rw [htarget] at hi
    cases hi
    rw [hargument]
    exact ⟨⟨_, hlast, rfl⟩, Heap.ptr_of_getElem? hlast⟩

theorem moveConstruct (hs : Consistent s) (howner : ∀ a ∈ owner, s.HasObject a)
    (hj : s.HasHandle j) : Behaves (.moveConstruct owner j) s := by
  rcases hj with ⟨h, hj, hlive⟩
  have hc := hs.cascade (p := none) nofun 0
  have hsettles := Settles.moveConstruct hs.members howner hj hlive
  have hlast : ((s.construct owner (s.ptr j)).setPtr j none).handles[s.handles.length]? =
      some ⟨s.ptr j, owner, true⟩ := by
    have hne : j ≠ s.handles.length := (List.getElem?_eq_some_iff.mp hj).1.ne
    rw [Heap.getElem?_setPtr (Heap.getElem?_construct hj), if_neg hne]
    exact Heap.getElem?_construct_length
  refine ⟨_, rfl, fun hacyclic hmeets => ⟨?_, ?_⟩⟩
  · exact hsettles.consistent hs hc hacyclic hmeets.2
  · apply hsettles.stepSound hc
    intro i hi
    cases hi
    exact ⟨⟨_, hlast, rfl⟩, Heap.ptr_of_getElem? hlast⟩

/-- The pointer is counted, the target lets go, and then it takes the pointer. -/
theorem assign (hs : Consistent s) (hi : s.HasHandle i) (hp : ∀ o ∈ p, s.HasObject o) {op : Op}
    (happly : op.apply s = ((s.incrementRef p).decrementRef i).map (·.setPtr i p))
    (htarget : op.target s = some i) (hargument : op.argument s = p) : Behaves op s := by
  rcases hs.decrementRef hp hi with ⟨s₁, hrun, hc, h, hi₁, hlive, hnull⟩
  have hsettles := Settles.setPtr hc hi₁ hlive hnull
  have hlast : (s₁.setPtr i p).handles[i]? = some { h with ptr := p } := by
    rw [Heap.getElem?_setPtr hi₁, if_pos rfl]
  refine ⟨s₁.setPtr i p, by rw [happly, hrun]; rfl, fun hacyclic hmeets => ⟨?_, ?_⟩⟩
  · exact hsettles.consistent hs hc hacyclic hmeets.2
  · apply hsettles.stepSound hc
    intro k hk
    rw [htarget] at hk
    cases hk
    rw [hargument]
    exact ⟨⟨_, hlast, hlive⟩, Heap.ptr_of_getElem? hlast⟩

theorem selfAssign (hs : Consistent s) (hi : s.HasHandle i) {op : Op}
    (happly : op.apply s = some s) (htarget : op.target s = some i)
    (hargument : op.argument s = s.ptr i) : Behaves op s := by
  have hc := hs.cascade (p := none) nofun 0
  have hsettles : Settles none s s := ⟨rfl, rfl, rfl, fun o => by simp, hs.members⟩
  refine ⟨s, happly, fun hacyclic hmeets => ⟨hs, ?_⟩⟩
  apply hsettles.stepSound hc
  intro k hk
  rw [htarget] at hk
  cases hk
  exact ⟨hi, hargument.symm⟩

/-- The target lets go first, and then the source is read. -/
theorem moveAssign_apply (hs : Consistent s) (hi : s.HasHandle i) (hij : i ≠ j) :
    ∃ s₁ h, (Op.moveAssign i j).apply s = some ((s₁.setPtr i (s₁.ptr j)).setPtr j none) ∧
      Cascade s i none [] s₁ ∧ s₁.handles[i]? = some h ∧ h.live = true ∧ h.ptr = none := by
  rcases hs.decrementRef (p := none) nofun hi with ⟨s₁, hrun, hc, h, hi₁, hlive, hnull⟩
  refine ⟨s₁, h, ?_, hc, hi₁, hlive, hnull⟩
  change (if i = j then some s else _) = _
  rw [if_neg hij]
  change s.decrementRef i = some s₁ at hrun
  rw [hrun]
  rfl

/-- A source that is spared still has its pointer when it is read. -/
theorem moveAssign (hs : Consistent s) (hi : s.HasHandle i) (hj : s.HasHandle j) (hij : i ≠ j) :
    Behaves (.moveAssign i j) s := by
  rcases hs.moveAssign_apply hi hij with ⟨s₁, h, happly, hc, hi₁, hlive, hnull⟩
  refine ⟨_, happly, fun hacyclic hmeets => ?_⟩
  rcases hj with ⟨h₀, hj₀, hlive₀⟩
  have hspared : ∀ a, h₀.owner = some a → ¬ Doomed s i a := by
    rcases hmeets.1 with heq | hspared
    · exact absurd heq hij
    · exact fun a ha => hspared h₀ a hj₀ ha
  rcases hc.spared hj₀ hlive₀ hspared with ⟨h', hj₁, hlive', -, hsame⟩
  have hptr : s₁.ptr j = s.ptr j := by
    rw [Heap.ptr_of_getElem? hj₁, Heap.ptr_of_getElem? hj₀]
    exact hsame (Ne.symm hij)
  have hsettles := Settles.move hc.noMembers hi₁ hlive hnull hj₁ hlive' hij
  have hlast := Heap.getElem?_move hi₁ hj₁ hij
  constructor
  · exact hsettles.consistent hs hc hacyclic hmeets.2
  · apply hsettles.stepSound hc
    intro k hk
    cases hk
    exact ⟨⟨_, hlast, hlive⟩, (Heap.ptr_of_getElem? hlast).trans hptr⟩

/-- A move assignment gives its target what the source pointed to exactly when the source is spared
or null. -/
theorem moveAssign_iff (hs : Consistent s) (hi : s.HasHandle i) (hj : s.HasHandle j)
    (hij : i ≠ j) :
    ∃ s', (Op.moveAssign i j).apply s = some s' ∧
      (s'.ptr i = s.ptr j ↔ (Op.moveAssign i j).SparesSource s ∨ s.ptr j = none) := by
  rcases hs.moveAssign_apply hi hij with ⟨s₁, h, happly, hc, hi₁, hlive, hnull⟩
  refine ⟨_, happly, ?_⟩
  rcases hj with ⟨h₀, hj₀, hlive₀⟩
  have hlt : j < s₁.handles.length := by
    rw [hc.since.length]
    exact (List.getElem?_eq_some_iff.mp hj₀).1
  have hj₁ : s₁.handles[j]? = some s₁.handles[j] := List.getElem?_eq_getElem hlt
  have hremains := hc.since.remains j _ h₀ hj₁ hj₀
  rw [Heap.ptr_of_getElem? (Heap.getElem?_move hi₁ hj₁ hij), Heap.ptr_of_getElem? hj₁,
    Heap.ptr_of_getElem? hj₀]
  constructor
  · intro hsame
    by_cases hnone : h₀.ptr = none
    · exact .inr hnone
    · left
      right
      intro h' a hj' ha hdoomed
      rw [hj₀] at hj'
      cases hj'
      have hdeleted : a ∈ s₁.deleted :=
        hc.deleted_of_doomed ((Heap.ptr_of_getElem? hi₁).trans hnull) hdoomed
      have hdead : s₁.handles[j].live = false := by
        by_contra hlive'
        rw [Bool.not_eq_false] at hlive'
        exact hc.noMembers j _ a hj₁ hlive' (hremains.owner.trans ha) hdeleted
      have hgone := (hc.since.gone j _ h₀ hj₁ hj₀ hlive₀ hdead).1
      exact hnone (hsame ▸ hgone)
  · rintro (hspares | hnone)
    · have hspared : ∀ a, h₀.owner = some a → ¬ Doomed s i a := by
        rcases hspares with heq | hspared
        · exact absurd heq hij
        · exact fun a ha => hspared h₀ a hj₀ ha
      rcases hc.spared hj₀ hlive₀ hspared with ⟨h', hj', -, -, hsame⟩
      rw [hj₁] at hj'
      cases hj'
      exact hsame (Ne.symm hij)
    · rcases hremains.ptr with hsame | hnull'
      · exact hsame
      · rw [hnull', hnone]

theorem destroy (hs : Consistent s) (hi : s.HasHandle i) : Behaves (.destroy i) s := by
  rcases hs.decrementRef (p := none) nofun hi with ⟨s₁, hrun, hc, h, hi₁, hlive, hnull⟩
  have happly : (Op.destroy i).apply s = some (s₁.die i) := by
    change (s.decrementRef i).map _ = _
    change s.decrementRef i = some s₁ at hrun
    rw [hrun]
    rfl
  have hsettles := Settles.die hc hi₁ hnull
  refine ⟨_, happly, fun hacyclic hmeets => ⟨?_, ?_⟩⟩
  · exact hsettles.consistent hs hc hacyclic hmeets.2
  · exact hsettles.stepSound hc nofun

/-- Every operation that may be called comes to an end and, when it meets the condition, does what
it should. -/
theorem behaves (hs : Consistent s) (op : Op) (hlegal : op.Legal s) : Behaves op s := by
  cases op with
  | create => exact hs.create
  | construct owner p => exact hs.construct hlegal.1 hlegal.2 rfl rfl rfl
  | copyConstruct owner other =>
    exact hs.construct hlegal.1 (hs.hasObject_ptr hlegal.2) rfl rfl rfl
  | moveConstruct owner other => exact hs.moveConstruct hlegal.1 hlegal.2
  | copyAssign self other =>
    by_cases hself : self = other
    · subst hself
      exact hs.selfAssign hlegal.1 (if_pos rfl) rfl rfl
    · exact hs.assign hlegal.1 (hs.hasObject_ptr hlegal.2) (if_neg hself) rfl rfl
  | moveAssign self other =>
    by_cases hself : self = other
    · subst hself
      exact hs.selfAssign hlegal.1 (if_pos rfl) rfl rfl
    · exact hs.moveAssign hlegal.1 hlegal.2 hself
  | reset self p => exact hs.assign hlegal.1 hlegal.2 rfl rfl rfl
  | destroy self => exact hs.destroy hlegal

theorem of_empty : Consistent empty := by
  constructor
  · constructor
    · exact fun o ho => absurd ho.1 (Nat.not_lt_zero o)
    · exact fun o => Nat.zero_le _
    · exact fun o _ => rfl
    · exact nofun
    · exact List.nodup_nil
  · exact fun o => (by decide : 0 < countValues)
  · exact nofun
  · exact nofun
  · intro a hcycle
    rcases Relation.TransGen.head'_iff.mp hcycle with ⟨b, ⟨h, hmem, -⟩, -⟩
    cases hmem

/-- In the runs whose operations meet the condition the heap is as it should be. -/
theorem reachable (h : (runs Meets).Reachable s) : Consistent s := by
  apply h.induct
  · rintro s rfl
    exact of_empty
  · rintro s s' - hs ⟨op, hlegal, happly, hacyclic, hmeets⟩
    rcases hs.behaves op hlegal with ⟨s'', happly', hbehaves⟩
    rw [happly] at happly'
    cases happly'
    exact (hbehaves hacyclic hmeets).1

end Consistent

/-- In every run whose operations meet the condition the counts are those of the live handles, what
is deleted is deleted once, with its last handle, and targets point where they should. -/
theorem counts_of_meets (h : (runs Meets).Reachable s) :
    Sound s ∧ ∀ op : Op, op.Legal s → ∃ s', op.apply s = some s' ∧
      (s'.Acyclic → Meets op s s' → Sound s' ∧ StepSound op s s') := by
  have hs := Consistent.reachable h
  refine ⟨hs.sound, fun op hlegal => ?_⟩
  rcases hs.behaves op hlegal with ⟨s', happly, hbehaves⟩
  refine ⟨s', happly, fun hacyclic hmeets => ?_⟩
  rcases hbehaves hacyclic hmeets with ⟨hs', hstep⟩
  exact ⟨hs'.sound, hstep⟩

theorem acyclic_of_lt
    (hlt : ∀ h ∈ s.handles, h.live = true → ∀ a ∈ h.owner, ∀ b ∈ h.ptr, a < b) : s.Acyclic := by
  have hedge : s.Edge ≤ (· < ·) := by
    rintro a b ⟨h, hmem, hlive, howner, hp⟩
    exact hlt h hmem hlive a howner b hp
  intro a hcycle
  exact absurd (Relation.transGen_minimal hedge a a hcycle) (Nat.lt_irrefl a)

theorem refs_lt (hlength : s.handles.length < countValues) (o : ℕ) : s.refs o < countValues := by
  have hle : s.refs o ≤ s.handles.length := by
    apply total_le_length
    intro h
    unfold IntrusivePtr.refersTo
    split_ifs <;> omega
  omega

theorem runs_mono {cond cond' : Op → Heap → Heap → Prop}
    (hcond : ∀ op s s', cond op s s' → cond' op s s') (h : (runs cond).Reachable s) :
    (runs cond').Reachable s := by
  apply h.induct
  · exact fun s hs => .of_init hs
  · rintro s s' - hs ⟨op, hlegal, happly, hacyclic, hmeets⟩
    exact hs.next ⟨op, hlegal, happly, hacyclic, hcond op s s' hmeets⟩

/-- A handle to the first object of a list of two; the second handle is a member of that object. -/
def linked : Heap where
  created := 2
  refCount := Function.update (Function.update (Function.update (Function.update (fun _ => 0)
    0 0) 0 1) 1 0) 1 1
  deleted := []
  handles := [⟨some 0, none, true⟩, ⟨some 1, some 0, true⟩]

theorem linked_reachable : (runs Meets).Reachable linked := by
  have h₀ : (runs Meets).Reachable empty := .of_init rfl
  have h₁ := h₀.next ⟨.create, trivial, rfl, acyclic_of_lt (by decide), trivial,
    refs_lt (by decide)⟩
  have h₂ := h₁.next ⟨.construct none (some 0), by decide, rfl, acyclic_of_lt (by decide), trivial,
    refs_lt (by decide)⟩
  have h₃ := h₂.next ⟨.create, trivial, rfl, acyclic_of_lt (by decide), trivial,
    refs_lt (by decide)⟩
  have h₄ := h₃.next ⟨.construct (some 0) (some 1), by decide, rfl, acyclic_of_lt (by decide),
    trivial, refs_lt (by decide)⟩
  exact h₄

/-- The list is shortened by a copy of its inner handle. -/
theorem counts_of_meets_linked :
    Sound linked ∧ ∀ op : Op, op.Legal linked → ∃ s', op.apply linked = some s' ∧
      (s'.Acyclic → Meets op linked s' → Sound s' ∧ StepSound op linked s') :=
  counts_of_meets linked_reachable

/-- `p = std::move(p->next)` reads the inner handle when it is gone, and leaves `p` null. -/
theorem moveAssign_from_member_fails :
    ¬ ∀ (op : Op) (s s' : Heap), (runs fun _ _ _ => True).Reachable s → op.Legal s →
      op.apply s = some s' → s'.Acyclic → StepSound op s s' := by
  intro hall
  have hreach := runs_mono (fun _ _ _ _ => trivial) linked_reachable
  have hstep := hall (.moveAssign 0 1) linked _ hreach (by decide) rfl (acyclic_of_lt (by decide))
  have htarget := (hstep.target 0 rfl).2
  exact absurd htarget (by decide)

end PostgresLib.Memory
