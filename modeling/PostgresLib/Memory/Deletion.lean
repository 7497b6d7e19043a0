import PostgresLib.Memory.IntrusivePtr
import Mathlib.Data.List.Nodup

/-! # What dies when a handle lets go

The last handle of an object takes the object with it, and the members of that die
in turn. While they do, the counts stay right: every handle that is still to be
destroyed is alive and counted. What dies is what is doomed before the first handle
lets go, and without a reference cycle that handle itself is not.
-/

namespace PostgresLib.Memory

open Foundations

variable {s s₀ : Heap} {i j o t : ℕ} {h h₀ : IntrusivePtr} {p : Option ℕ}

theorem getElem?_modify_of {α : Type} {xs : List α} {x : α} {f : α → α} (hi : xs[i]? = some x) :
    (xs.modify i f)[j]? = if i = j then some (f x) else xs[j]? := by
  split_ifs with hij
  · subst hij
    rw [List.getElem?_modify_eq, hi]
    rfl
  · rw [List.getElem?_modify_ne _ _ hij]

/-- What a pointer to the object counts for. -/
def points (p : Option ℕ) (o : ℕ) : ℕ := if p = some o then 1 else 0

@[simp] theorem points_none : points none o = 0 := by simp [points]

@[simp] theorem points_self : points (some o) o = 1 := by simp [points]

theorem points_of_ne {o' : ℕ} (ho : o' ≠ o) : points (some o') o = 0 := by simp [points, ho]

theorem points_le : points p o ≤ 1 := by
  unfold points
  split_ifs <;> omega

namespace IntrusivePtr

theorem refersTo_of_none (hp : h.ptr = none) : h.refersTo o = 0 := by simp [refersTo, hp]

theorem refersTo_of_dead (hlive : h.live = false) : h.refersTo o = 0 := by simp [refersTo, hlive]

theorem refersTo_of_live (hlive : h.live = true) :
    h.refersTo o = points h.ptr o := by simp [refersTo, points, hlive]

end IntrusivePtr

namespace Heap

theorem refs_pos :
    0 < s.refs o ↔
      ∃ (i : ℕ) (h : IntrusivePtr), s.handles[i]? = some h ∧ h.live = true ∧ h.ptr = some o := by
  unfold refs
  rw [total_pos]
  constructor
  · rintro ⟨h, hmem, hrefers⟩
    rcases List.getElem?_of_mem hmem with ⟨i, hi⟩
    unfold IntrusivePtr.refersTo at hrefers
    split_ifs at hrefers with hh
    · exact ⟨i, h, hi, hh⟩
    · omega
  · rintro ⟨i, h, hi, hlive, hp⟩
    exact ⟨h, List.mem_of_getElem? hi, by simp [IntrusivePtr.refersTo, hlive, hp]⟩

theorem ptr_of_getElem? (hi : s.handles[i]? = some h) : s.ptr i = h.ptr := by simp [ptr, hi]

theorem mem_members :
    i ∈ s.members o ↔
      ∃ h : IntrusivePtr, s.handles[i]? = some h ∧ h.live = true ∧ h.owner = some o := by
  simp only [members, List.mem_reverse, List.mem_filter, List.mem_range, Option.any_eq_true,
    Bool.and_eq_true, decide_eq_true_eq]
  constructor
  · rintro ⟨-, h, hh⟩
    exact ⟨h, hh⟩
  · rintro ⟨h, hi, hh⟩
    exact ⟨(List.getElem?_eq_some_iff.mp hi).1, h, hi, hh⟩

theorem nodup_members : (s.members o).Nodup := by
  rw [members, List.nodup_reverse]
  exact List.nodup_range.filter _

/-- What a handle counts for is taken away when its pointer is set to null. -/
theorem refs_setPtr (hi : s.handles[i]? = some h) (hlive : h.live = true) :
    (s.setPtr i p).refs o + points h.ptr o = s.refs o + points p o := by
  have htotal := total_modify (w := IntrusivePtr.refersTo o) (fun h => { h with ptr := p }) hi
  have hafter : IntrusivePtr.refersTo o { h with ptr := p } = points p o :=
    IntrusivePtr.refersTo_of_live hlive
  rw [IntrusivePtr.refersTo_of_live hlive, hafter] at htotal
  exact htotal

theorem refs_die (hi : s.handles[i]? = some h) (hp : h.ptr = none) :
    (s.die i).refs o = s.refs o := by
  have htotal := total_modify (w := IntrusivePtr.refersTo o) (fun h => { h with live := false }) hi
  have hafter : IntrusivePtr.refersTo o { h with live := false } = 0 :=
    IntrusivePtr.refersTo_of_dead rfl
  rw [IntrusivePtr.refersTo_of_none hp, hafter] at htotal
  exact htotal

theorem refs_construct (owner : Option ℕ) :
    (s.construct owner p).refs o = s.refs o + points p o := by
  simp [refs, construct, IntrusivePtr.refersTo_of_live]

/-- A handle that points to the object gives its reference back. -/
def released (s : Heap) (i o : ℕ) : Heap := (s.release o).2.setPtr i none

def delete (s : Heap) (o : ℕ) : Heap := { s with deleted := s.deleted ++ [o] }

theorem letGo_of_null (hp : s.ptr i = none) : s.letGo i = ([], s) := by simp [letGo, hp]

theorem letGo_of_last (hp : s.ptr i = some o) (hlast : s.refCount o = 1) :
    s.letGo i = ((s.released i o).members o, (s.released i o).delete o) := by
  simp [letGo, hp, release, hlast, released, delete]

theorem letGo_of_more (hp : s.ptr i = some o) (hmore : s.refCount o ≠ 1) :
    s.letGo i = ([], s.released i o) := by
  simp [letGo, hp, release, hmore, released]

theorem getElem?_setPtr (hi : s.handles[i]? = some h) :
    (s.setPtr i p).handles[j]? = if i = j then some { h with ptr := p } else s.handles[j]? :=
  getElem?_modify_of hi

theorem getElem?_released (hi : s.handles[i]? = some h) :
    (s.released i o).handles[j]? =
      if i = j then some { h with ptr := none } else s.handles[j]? :=
  getElem?_setPtr (s := (s.release o).2) hi

theorem refs_released (hi : s.handles[i]? = some h) (hlive : h.live = true)
    (hp : h.ptr = some o) (o' : ℕ) :
    (s.released i o).refs o' + points (some o) o' = s.refs o' := by
  have hrefs : ((s.release o).2.setPtr i none).refs o' + points h.ptr o' =
      s.refs o' + points none o' := refs_setPtr hi hlive
  rw [hp, points_none, Nat.add_zero] at hrefs
  exact hrefs

theorem refs_released_self (hi : s.handles[i]? = some h) (hlive : h.live = true)
    (hp : h.ptr = some o) : (s.released i o).refs o + 1 = s.refs o := by
  have hrefs := refs_released hi hlive hp o
  rw [points_self] at hrefs
  exact hrefs

theorem refs_released_of_ne {o' : ℕ} (hi : s.handles[i]? = some h) (hlive : h.live = true)
    (hp : h.ptr = some o) (hne : o' ≠ o) : (s.released i o).refs o' = s.refs o' := by
  have hrefs := refs_released hi hlive hp o'
  rw [points_of_ne (Ne.symm hne), Nat.add_zero] at hrefs
  exact hrefs

theorem refCount_released (o' : ℕ) :
    (s.released i o).refCount o' =
      if o' = o then (s.refCount o + (countValues - 1)) % countValues else s.refCount o' := by
  simp [released, setPtr, release, Function.update_apply]

end Heap

/-- The counts are those of the live handles and of a pointer that is counted and stands in no
handle yet. -/
structure Counting (p : Option ℕ) (s : Heap) : Prop where
  counted : ∀ o, s.HasObject o → s.refCount o = (s.refs o + points p o) % countValues
  bounded : ∀ o, s.refs o + points p o ≤ countValues
  objects : ∀ o, s.created ≤ o → s.refs o + points p o = 0
  safe : ∀ o ∈ s.deleted, s.refs o + points p o = 0
  once : s.deleted.Nodup

namespace Counting

theorem hasObject (hs : Counting p s) (hpos : 0 < s.refs o + points p o) : s.HasObject o := by
  constructor
  · by_contra hnew
    have hnone := hs.objects o (by omega)
    omega
  · intro hdeleted
    have hnone := hs.safe o hdeleted
    omega

/-- The count is one exactly when the last reference is left. -/
theorem refCount_eq_one (hs : Counting p s) (hpos : 0 < s.refs o + points p o) :
    s.refCount o = 1 ↔ s.refs o + points p o = 1 := by
  have hcount := hs.counted o (hs.hasObject hpos)
  have hbound := hs.bounded o
  unfold countValues at hcount hbound
  omega

/-- The counts stay right when a handle gives its reference back. -/
theorem released (hs : Counting p s) (hi : s.handles[i]? = some h) (hlive : h.live = true)
    (hp : h.ptr = some o) : Counting p (s.released i o) := by
  have hrefs := Heap.refs_released hi hlive hp
  have hless (o' : ℕ) : (s.released i o).refs o' ≤ s.refs o' := by
    have ho' := hrefs o'
    omega
  constructor
  · intro o' ho'
    have hcount := hs.counted o' ho'
    have ho := hrefs o'
    rw [Heap.refCount_released]
    split_ifs with heq
    · subst heq
      rw [points_self] at ho
      rw [hcount]
      unfold countValues
      omega
    · rw [points_of_ne (Ne.symm heq)] at ho
      rw [hcount, ← ho, Nat.add_zero]
  · intro o'
    have hbound := hs.bounded o'
    have hle := hless o'
    omega
  · intro o' ho'
    have hnone := hs.objects o' ho'
    have hle := hless o'
    omega
  · intro o' ho'
    have hnone := hs.safe o' ho'
    have hle := hless o'
    omega
  · exact hs.once

theorem delete (hs : Counting p s) (hnone : s.refs o + points p o = 0) (hnew : o ∉ s.deleted) :
    Counting p (s.delete o) := by
  constructor
  · intro o' ho'
    exact hs.counted o' ⟨ho'.1, fun hold => ho'.2 (List.mem_append_left _ hold)⟩
  · exact hs.bounded
  · exact hs.objects
  · intro o' ho'
    rcases List.mem_append.mp ho' with hold | hlast
    · exact hs.safe o' hold
    · rw [List.mem_singleton.mp hlast]
      exact hnone
  · have hdisjoint : List.Disjoint s.deleted [o] := by simpa using hnew
    exact hs.once.append (List.nodup_singleton o) hdisjoint

/-- The counts do not change when a handle that points nowhere dies. -/
theorem die (hs : Counting p s) (hi : s.handles[i]? = some h) (hp : h.ptr = none) :
    Counting p (s.die i) := by
  have hrefs (o : ℕ) : (s.die i).refs o = s.refs o := Heap.refs_die hi hp
  constructor
  · intro o ho
    rw [hrefs]
    exact hs.counted o ho
  · intro o
    rw [hrefs]
    exact hs.bounded o
  · intro o ho
    rw [hrefs]
    exact hs.objects o ho
  · intro o ho
    rw [hrefs]
    exact hs.safe o ho
  · exact hs.once

end Counting

/-- What a handle may have become: it is dead, or its pointer is null, unless it is untouched. -/
structure Remains (untouched : Prop) (h₀ h : IntrusivePtr) : Prop where
  owner : h.owner = h₀.owner
  live : h.live = true → h₀.live = true
  ptr : h.ptr = h₀.ptr ∨ h.ptr = none
  same : untouched → h.live = true → h.ptr = h₀.ptr

/-- What has happened since handle `t` let go: the handles that died are null and were members of
doomed objects, those that are left, but for `t` and those that are to be destroyed, point where
they did, and only what is doomed was deleted. -/
structure Since (s₀ : Heap) (t : ℕ) (pending : List ℕ) (s : Heap) : Prop where
  created : s.created = s₀.created
  keeps : s₀.deleted <+: s.deleted
  doomed : ∀ o ∈ s.deleted, o ∈ s₀.deleted ∨ Doomed s₀ t o
  length : s.handles.length = s₀.handles.length
  remains : ∀ (i : ℕ) (h h₀ : IntrusivePtr), s.handles[i]? = some h → s₀.handles[i]? = some h₀ →
    Remains (i ≠ t ∧ i ∉ pending) h₀ h
  gone : ∀ (i : ℕ) (h h₀ : IntrusivePtr), s.handles[i]? = some h → s₀.handles[i]? = some h₀ →
    h₀.live = true → h.live = false → h.ptr = none ∧ ∃ a, h₀.owner = some a ∧ Doomed s₀ t a

/-- The handles that are to be destroyed: the live members of deleted objects. -/
structure Waiting (s₀ : Heap) (t : ℕ) (pending : List ℕ) (s : Heap) : Prop where
  orphans : ∀ (i : ℕ) (h : IntrusivePtr) (a : ℕ), s.handles[i]? = some h → h.live = true →
    h.owner = some a → a ∈ s.deleted → i ∈ pending
  members : ∀ i ∈ pending, ∃ (h : IntrusivePtr) (a : ℕ), s.handles[i]? = some h ∧ h.live = true ∧
    h.owner = some a ∧ a ∈ s.deleted ∧ Doomed s₀ t a
  nodup : pending.Nodup

/-- The heap while the members of deleted objects are being destroyed. -/
structure Cascade (s₀ : Heap) (t : ℕ) (p : Option ℕ) (pending : List ℕ) (s : Heap) : Prop where
  counting : Counting p s
  since : Since s₀ t pending s
  waiting : Waiting s₀ t pending s
  alive : ∀ o, o ∉ s.deleted → 0 < s₀.refs o + points p o → 0 < s.refs o + points p o

variable {pending front back : List ℕ}

namespace Heap

/-- A handle that gives its reference back stays alive and where it is. -/
theorem getElem?_of_released {h' : IntrusivePtr} (hi : s.handles[i]? = some h)
    (hj : (s.released i o).handles[j]? = some h') :
    ∃ h'' : IntrusivePtr, s.handles[j]? = some h'' ∧ h'.live = h''.live ∧ h'.owner = h''.owner ∧
      (h'.ptr = h''.ptr ∨ h'.ptr = none) ∧ (i ≠ j → h'.ptr = h''.ptr) := by
  rw [getElem?_released hi] at hj
  split_ifs at hj with hij
  · subst hij
    cases hj
    exact ⟨h, hi, rfl, rfl, .inr rfl, fun hne => absurd rfl hne⟩
  · exact ⟨h', hj, rfl, rfl, .inl rfl, fun _ => rfl⟩

theorem getElem?_die (hi : s.handles[i]? = some h) :
    (s.die i).handles[j]? =
      if i = j then some { h with live := false } else s.handles[j]? :=
  getElem?_modify_of hi

end Heap

namespace Since

theorem released (hs : Since s₀ t pending s) (hi : s.handles[i]? = some h)
    (hmine : i = t ∨ i ∈ pending) : Since s₀ t pending (s.released i o) := by
  constructor
  · exact hs.created
  · exact hs.keeps
  · exact hs.doomed
  · rw [← hs.length]
    simp [Heap.released, Heap.setPtr, Heap.release]
  · intro j h' h₀ hj hj₀
    rcases Heap.getElem?_of_released hi hj with ⟨h'', hj'', hlive, howner, hptr, hsame⟩
    have hremains := hs.remains j h'' h₀ hj'' hj₀
    constructor
    · rw [howner]
      exact hremains.owner
    · rw [hlive]
      exact hremains.live
    · rcases hptr with hptr | hnull
      · rw [hptr]
        exact hremains.ptr
      · exact .inr hnull
    · intro huntouched hh
      have hne : i ≠ j := by
        rintro rfl
        rcases hmine with rfl | hpending
        · exact huntouched.1 rfl
        · exact huntouched.2 hpending
      rw [hsame hne]
      exact hremains.same huntouched (hlive ▸ hh)
  · intro j h' h₀ hj hj₀ hh₀ hdead
    rcases Heap.getElem?_of_released hi hj with ⟨h'', hj'', hlive, -, hptr, -⟩
    rcases hs.gone j h'' h₀ hj'' hj₀ hh₀ (hlive ▸ hdead) with ⟨hnull, howner⟩
    refine ⟨?_, howner⟩
    rcases hptr with hsame | hnone
    · rw [hsame]
      exact hnull
    · exact hnone

theorem delete (hs : Since s₀ t pending s) (hdoomed : Doomed s₀ t o) :
    Since s₀ t pending (s.delete o) := by
  constructor
  · exact hs.created
  · exact hs.keeps.trans (List.prefix_append _ _)
  · intro o' ho'
    rcases List.mem_append.mp ho' with hold | hlast
    · exact hs.doomed o' hold
    · rw [List.mem_singleton.mp hlast]
      exact .inr hdoomed
  · exact hs.length
  · exact hs.remains
  · exact hs.gone

theorem more (hs : Since s₀ t pending s) (ms : List ℕ) : Since s₀ t (ms ++ pending) s := by
  constructor
  · exact hs.created
  · exact hs.keeps
  · exact hs.doomed
  · exact hs.length
  · intro j h' h₀ hj hj₀
    have hremains := hs.remains j h' h₀ hj hj₀
    refine ⟨hremains.owner, hremains.live, hremains.ptr, ?_⟩
    rintro ⟨hne, hfree⟩
    exact hremains.same ⟨hne, fun hpending => hfree (List.mem_append_right _ hpending)⟩
  · exact hs.gone

theorem die (hs : Since s₀ t (front ++ i :: back) s) (hi : s.handles[i]? = some h)
    (hp : h.ptr = none) (howner : ∃ a, h.owner = some a ∧ Doomed s₀ t a) :
    Since s₀ t (front ++ back) (s.die i) := by
  constructor
  · exact hs.created
  · exact hs.keeps
  · exact hs.doomed
  · rw [← hs.length]
    simp [Heap.die]
  · intro j h' h₀ hj hj₀
    rw [Heap.getElem?_die hi] at hj
    split_ifs at hj with hij
    · subst hij
      cases hj
      have hremains := hs.remains i h h₀ hi hj₀
      exact ⟨hremains.owner, nofun, hremains.ptr, nofun⟩
    · have hremains := hs.remains j h' h₀ hj hj₀
      refine ⟨hremains.owner, hremains.live, hremains.ptr, ?_⟩
      rintro ⟨hne, hfree⟩
      have hfree' : j ∉ front ++ i :: back := by
        simp only [List.mem_append, List.mem_cons, not_or] at hfree ⊢
        exact ⟨hfree.1, Ne.symm hij, hfree.2⟩
      exact hremains.same ⟨hne, hfree'⟩
  · intro j h' h₀ hj hj₀ hh₀ hdead
    rw [Heap.getElem?_die hi] at hj
    split_ifs at hj with hij
    · subst hij
      cases hj
      rw [← (hs.remains i h h₀ hi hj₀).owner]
      exact ⟨hp, howner⟩
    · exact hs.gone j h' h₀ hj hj₀ hh₀ hdead

/-- An object that has lost all its handles was doomed. -/
theorem dooms (hs : Since s₀ t pending s)
    (hpending : ∀ j ∈ pending, ∃ (h : IntrusivePtr) (a : ℕ), s.handles[j]? = some h ∧
      h.owner = some a ∧ Doomed s₀ t a)
    (hrefs : 0 < s₀.refs o) (hnone : s.refs o = 0) : Doomed s₀ t o := by
  have howner (j : ℕ) (h₀ : IntrusivePtr) (hj₀ : s₀.handles[j]? = some h₀)
      (hh₀ : h₀.live = true) (hp : h₀.ptr = some o) (hne : j ≠ t) :
      ∃ a, h₀.owner = some a ∧ Doomed s₀ t a := by
    have hlt : j < s.handles.length := by
      rw [hs.length]
      exact (List.getElem?_eq_some_iff.mp hj₀).1
    have hj : s.handles[j]? = some s.handles[j] := List.getElem?_eq_getElem hlt
    have hremains := hs.remains j _ h₀ hj hj₀
    cases hlive : s.handles[j].live with
    | false => exact (hs.gone j _ h₀ hj hj₀ hh₀ hlive).2
    | true =>
      by_cases hmem : j ∈ pending
      · rcases hpending j hmem with ⟨h, a, hj', ha, hdoomed⟩
        rw [hj] at hj'
        cases hj'
        exact ⟨a, hremains.owner ▸ ha, hdoomed⟩
      · have hptr := hremains.same ⟨hne, hmem⟩ hlive
        have hpos : 0 < s.refs o := Heap.refs_pos.mpr ⟨j, _, hj, hlive, hptr.trans hp⟩
        omega
  refine .intro (fun j => (s₀.handles[j]?.bind (·.owner)).getD 0) hrefs ?_ ?_
  · intro j h₀ hj₀ hh₀ hp hne
    rcases howner j h₀ hj₀ hh₀ hp hne with ⟨a, ha, -⟩
    simp [hj₀, ha]
  · intro j h₀ hj₀ hh₀ hp hne
    rcases howner j h₀ hj₀ hh₀ hp hne with ⟨a, ha, hdoomed⟩
    simpa [hj₀, ha] using hdoomed

end Since

namespace Waiting

theorem released (hs : Waiting s₀ t pending s) (hi : s.handles[i]? = some h) :
    Waiting s₀ t pending (s.released i o) := by
  constructor
  · intro j h' a hj hlive howner ha
    rcases Heap.getElem?_of_released hi hj with ⟨h'', hj'', hlive', howner', -⟩
    exact hs.orphans j h'' a hj'' (hlive' ▸ hlive) (howner' ▸ howner) ha
  · intro j hj
    rcases hs.members j hj with ⟨h', a, hj', hlive, howner, ha, hdoomed⟩
    by_cases hij : i = j
    · subst hij
      rw [hi] at hj'
      cases hj'
      exact ⟨{ h with ptr := none }, a, by simp [Heap.getElem?_released hi], hlive, howner, ha,
        hdoomed⟩
    · exact ⟨h', a, by simp [Heap.getElem?_released hi, hij, hj'], hlive, howner, ha, hdoomed⟩
  · exact hs.nodup

/-- The members of an object that is deleted wait with the others. -/
theorem delete (hs : Waiting s₀ t pending s) (hnew : o ∉ s.deleted) (hdoomed : Doomed s₀ t o) :
    Waiting s₀ t (s.members o ++ pending) (s.delete o) := by
  constructor
  · intro j h' a hj hlive howner ha
    rcases List.mem_append.mp ha with hold | hlast
    · exact List.mem_append_right _ (hs.orphans j h' a hj hlive howner hold)
    · rw [List.mem_singleton.mp hlast] at howner
      exact List.mem_append_left _ (Heap.mem_members.mpr ⟨h', hj, hlive, howner⟩)
  · intro j hj
    rcases List.mem_append.mp hj with hmember | hpending
    · rcases Heap.mem_members.mp hmember with ⟨h', hj', hlive, howner⟩
      exact ⟨h', o, hj', hlive, howner, List.mem_append_right _ (.head _), hdoomed⟩
    · rcases hs.members j hpending with ⟨h', a, hj', hlive, howner, ha, hdoomed'⟩
      exact ⟨h', a, hj', hlive, howner, List.mem_append_left _ ha, hdoomed'⟩
  · refine Heap.nodup_members.append hs.nodup ?_
    intro j hmember hpending
    rcases Heap.mem_members.mp hmember with ⟨h', hj', -, howner⟩
    rcases hs.members j hpending with ⟨h'', a, hj'', -, howner', ha, -⟩
    rw [hj'] at hj''
    cases hj''
    rw [howner] at howner'
    cases howner'
    exact hnew ha

theorem die (hs : Waiting s₀ t (front ++ i :: back) s) (hi : s.handles[i]? = some h) :
    Waiting s₀ t (front ++ back) (s.die i) := by
  have hnodup : (i :: (front ++ back)).Nodup := List.perm_middle.nodup_iff.mp hs.nodup
  rw [List.nodup_cons] at hnodup
  constructor
  · intro j h' a hj hlive howner ha
    rw [Heap.getElem?_die hi] at hj
    split_ifs at hj with hij
    · cases hj
      cases hlive
    · have hmem := hs.orphans j h' a hj hlive howner ha
      simp only [List.mem_append, List.mem_cons] at hmem ⊢
      rcases hmem with hfront | heq | hback
      · exact .inl hfront
      · exact absurd heq.symm hij
      · exact .inr hback
  · intro j hj
    have hne : i ≠ j := by
      rintro rfl
      exact hnodup.1 hj
    have hmem : j ∈ front ++ i :: back := by
      simp only [List.mem_append, List.mem_cons] at hj ⊢
      rcases hj with hfront | hback
      · exact .inl hfront
      · exact .inr (.inr hback)
    rcases hs.members j hmem with ⟨h', a, hj', hh'⟩
    exact ⟨h', a, by simp [Heap.getElem?_die hi, hne, hj'], hh'⟩
  · exact hnodup.2

end Waiting

namespace Heap

theorem getElem?_letGo (hi : s.handles[i]? = some h) :
    (s.letGo i).2.handles[i]? = some { h with ptr := none } := by
  cases hp : h.ptr with
  | none =>
    rw [letGo_of_null ((ptr_of_getElem? hi).trans hp), hi, ← hp]
  | some o =>
    have hptr : s.ptr i = some o := (ptr_of_getElem? hi).trans hp
    by_cases hlast : s.refCount o = 1
    · rw [letGo_of_last hptr hlast]
      simp [delete, getElem?_released hi]
    · rw [letGo_of_more hptr hlast]
      simp [getElem?_released hi]

end Heap

namespace Since

/-- A handle that is left points to what it pointed to at first. -/
theorem refs_pos (hs : Since s₀ t pending s) (hi : s.handles[i]? = some h) (hlive : h.live = true)
    (hp : h.ptr = some o) : 0 < s₀.refs o := by
  have hlt : i < s₀.handles.length := by
    rw [← hs.length]
    exact (List.getElem?_eq_some_iff.mp hi).1
  have hremains := hs.remains i h _ hi (List.getElem?_eq_getElem hlt)
  refine Heap.refs_pos.mpr ⟨i, _, List.getElem?_eq_getElem hlt, hremains.live hlive, ?_⟩
  rcases hremains.ptr with hsame | hnull
  · rw [← hsame]
    exact hp
  · rw [hp] at hnull
    cases hnull

end Since

namespace Cascade

/-- A handle lets go of an object that others hold. -/
theorem released (hc : Cascade s₀ t p pending s) (hi : s.handles[i]? = some h)
    (hlive : h.live = true) (hp : h.ptr = some o) (hmine : i = t ∨ i ∈ pending)
    (hmore : s.refCount o ≠ 1) : Cascade s₀ t p pending (s.released i o) := by
  have hpos : 0 < s.refs o := Heap.refs_pos.mpr ⟨i, h, hi, hlive, hp⟩
  constructor
  · exact hc.counting.released hi hlive hp
  · exact hc.since.released hi hmine
  · exact hc.waiting.released hi
  · intro o' ho' hbefore
    have hafter := hc.alive o' ho' hbefore
    by_cases hne : o' = o
    · subst hne
      have hone := hc.counting.refCount_eq_one hafter
      have hself := Heap.refs_released_self hi hlive hp
      have hcount : s.refs o' + points p o' ≠ 1 := fun heq => hmore (hone.mpr heq)
      omega
    · rw [Heap.refs_released_of_ne hi hlive hp hne]
      exact hafter

/-- The last handle of an object lets go. -/
theorem deleted (hc : Cascade s₀ t p pending s) (hi : s.handles[i]? = some h)
    (hlive : h.live = true) (hp : h.ptr = some o) (hmine : i = t ∨ i ∈ pending)
    (hlast : s.refCount o = 1) :
    Cascade s₀ t p ((s.released i o).members o ++ pending) ((s.released i o).delete o) := by
  have hpos : 0 < s.refs o := Heap.refs_pos.mpr ⟨i, h, hi, hlive, hp⟩
  have hsince : Since s₀ t pending (s.released i o) := hc.since.released hi hmine
  have hwaiting : Waiting s₀ t pending (s.released i o) := hc.waiting.released hi
  have hself := Heap.refs_released_self hi hlive hp
  have hone := (hc.counting.refCount_eq_one (o := o) (by omega)).mp hlast
  have hnew : o ∉ s.deleted := (hc.counting.hasObject (by omega)).2
  have hdoomed : Doomed s₀ t o := by
    apply hsince.dooms ?_ (hc.since.refs_pos hi hlive hp) (by omega)
    intro j hj
    rcases hwaiting.members j hj with ⟨h', a, hj', -, howner, -, hdoomed⟩
    exact ⟨h', a, hj', howner, hdoomed⟩
  constructor
  · exact (hc.counting.released hi hlive hp).delete (by omega) hnew
  · exact (hsince.delete hdoomed).more _
  · exact hwaiting.delete hnew hdoomed
  · intro o' ho' hbefore
    have hne : o' ≠ o := by
      rintro rfl
      exact ho' (List.mem_append_right _ (.head _))
    have hafter := hc.alive o' (fun hold => ho' (List.mem_append_left _ hold)) hbefore
    change 0 < (s.released i o).refs o' + points p o'
    rw [Heap.refs_released_of_ne hi hlive hp hne]
    exact hafter

/-- A handle lets go, of an object that others hold or that is deleted. -/
theorem letGo (hc : Cascade s₀ t p pending s) (hi : s.handles[i]? = some h)
    (hlive : h.live = true) (hmine : i = t ∨ i ∈ pending) :
    Cascade s₀ t p ((s.letGo i).1 ++ pending) (s.letGo i).2 := by
  cases hp : h.ptr with
  | none =>
    rw [Heap.letGo_of_null ((Heap.ptr_of_getElem? hi).trans hp)]
    exact hc
  | some o =>
    have hptr : s.ptr i = some o := (Heap.ptr_of_getElem? hi).trans hp
    by_cases hlast : s.refCount o = 1
    · rw [Heap.letGo_of_last hptr hlast]
      exact hc.deleted hi hlive hp hmine hlast
    · rw [Heap.letGo_of_more hptr hlast]
      exact hc.released hi hlive hp hmine hlast

theorem destroyMember (hc : Cascade s₀ t p (i :: pending) s) :
    Cascade s₀ t p ((Heap.destroyMember i s).1 ++ pending) (Heap.destroyMember i s).2 := by
  rcases hc.waiting.members i (.head _) with ⟨h, a, hi, hlive, howner, -, hdoomed⟩
  have hgo := hc.letGo hi hlive (.inr (.head _))
  have hafter := Heap.getElem?_letGo hi
  constructor
  · exact hgo.counting.die hafter rfl
  · exact hgo.since.die hafter rfl ⟨a, howner, hdoomed⟩
  · exact hgo.waiting.die hafter
  · intro o ho hbefore
    have hrefs : (Heap.destroyMember i s).2.refs o = (s.letGo i).2.refs o :=
      Heap.refs_die hafter rfl
    rw [hrefs]
    exact hgo.alive o ho hbefore

end Cascade

namespace Heap

def liveHandles (s : Heap) : ℕ := total (fun h : IntrusivePtr => h.live.toNat) s.handles

theorem liveHandles_le : s.liveHandles ≤ s.handles.length := by
  apply total_le_length
  intro h
  exact Bool.toNat_le h.live

theorem liveHandles_letGo : (s.letGo i).2.liveHandles = s.liveHandles := by
  cases hp : s.ptr i with
  | none => rw [letGo_of_null hp]
  | some o =>
    have hreleased : (s.released i o).liveHandles = s.liveHandles := by
      cases hi : s.handles[i]? with
      | none => simp [ptr, hi] at hp
      | some h =>
        have htotal := total_modify (w := fun h : IntrusivePtr => h.live.toNat)
          (fun h => { h with ptr := none }) hi
        exact Nat.add_right_cancel htotal
    by_cases hlast : s.refCount o = 1
    · rw [letGo_of_last hp hlast]
      exact hreleased
    · rw [letGo_of_more hp hlast]
      exact hreleased

theorem liveHandles_destroyMember (hi : s.handles[i]? = some h) (hlive : h.live = true) :
    (destroyMember i s).2.liveHandles < s.liveHandles := by
  have htotal := total_modify (w := fun h : IntrusivePtr => h.live.toNat)
    (fun h => { h with live := false }) (getElem?_letGo hi)
  have hsame := liveHandles_letGo (s := s) (i := i)
  simp only [hlive, Bool.toNat_true, Bool.toNat_false] at htotal
  unfold liveHandles at hsame ⊢
  have hdie : (destroyMember i s).2.handles =
      (s.letGo i).2.handles.modify i fun h => { h with live := false } := rfl
  rw [hdie]
  omega

theorem ptr_setPtr_none (ht : s.ptr t = none) : (s.setPtr i none).ptr t = none := by
  by_cases hit : i = t
  · subst hit
    simp [ptr, setPtr]
  · simpa [ptr, setPtr, List.getElem?_modify_ne _ _ hit] using ht

theorem ptr_die : (s.die i).ptr t = s.ptr t := by
  by_cases hit : i = t
  · subst hit
    cases hi : s.handles[i]? <;> simp [ptr, die, hi]
  · simp [ptr, die, List.getElem?_modify_ne _ _ hit]

theorem ptr_letGo_of_null (ht : s.ptr t = none) : (s.letGo i).2.ptr t = none := by
  cases hp : s.ptr i with
  | none =>
    rw [letGo_of_null hp]
    exact ht
  | some o =>
    have hreleased : (s.released i o).ptr t = none := ptr_setPtr_none ht
    by_cases hlast : s.refCount o = 1
    · rw [letGo_of_last hp hlast]
      exact hreleased
    · rw [letGo_of_more hp hlast]
      exact hreleased

end Heap

/-- Before the first handle lets go, with one more reference counted. -/
theorem Cascade.start (hcounting : Counting p s)
    (horphans : ∀ (i : ℕ) (h : IntrusivePtr) (a : ℕ), s₀.handles[i]? = some h → h.live = true →
      h.owner = some a → a ∉ s₀.deleted)
    (hcreated : s.created = s₀.created) (hdeleted : s.deleted = s₀.deleted)
    (hhandles : s.handles = s₀.handles) : Cascade s₀ t p [] s := by
  constructor
  · exact hcounting
  · constructor
    · exact hcreated
    · exact hdeleted ▸ List.prefix_rfl
    · intro o ho
      exact .inl (hdeleted ▸ ho)
    · rw [hhandles]
    · intro i h h₀ hi hi₀
      rw [hhandles, hi₀] at hi
      cases hi
      exact ⟨rfl, id, .inl rfl, fun _ _ => rfl⟩
    · intro i h h₀ hi hi₀ hlive hdead
      rw [hhandles, hi₀] at hi
      cases hi
      rw [hlive] at hdead
      cases hdead
  · constructor
    · intro i h a hi hlive howner ha
      rw [hhandles] at hi
      exact absurd (hdeleted ▸ ha) (horphans i h a hi hlive howner)
    · exact nofun
    · exact List.nodup_nil
  · intro o _ hbefore
    have hrefs : s.refs o = s₀.refs o := by rw [Heap.refs, hhandles, Heap.refs]
    rw [hrefs]
    exact hbefore

/-- The fuel is enough, and when all members are destroyed the handle that let go is null. -/
theorem Cascade.decrementRef (hc : Cascade s₀ t p [] s) (ht : s.handles[t]? = some h)
    (hlive : h.live = true) :
    ∃ s', s.decrementRef t = some s' ∧ Cascade s₀ t p [] s' ∧ s'.ptr t = none := by
  have hgo := hc.letGo ht hlive (.inl rfl)
  rw [List.append_nil] at hgo
  have hnull : (s.letGo t).2.ptr t = none := by
    rw [Heap.ptr_of_getElem? (Heap.getElem?_letGo ht)]
  have hround (i : ℕ) (pending : List ℕ) (s : Heap)
      (hs : Cascade s₀ t p (i :: pending) s ∧ s.ptr t = none) :
      (Cascade s₀ t p ((Heap.destroyMember i s).1 ++ pending) (Heap.destroyMember i s).2 ∧
        (Heap.destroyMember i s).2.ptr t = none) ∧
        (Heap.destroyMember i s).2.liveHandles < s.liveHandles := by
    rcases hs.1.waiting.members i (.head _) with ⟨h, a, hi, hlive, -⟩
    refine ⟨⟨hs.1.destroyMember, ?_⟩, Heap.liveHandles_destroyMember hi hlive⟩
    exact Heap.ptr_die.trans (Heap.ptr_letGo_of_null hs.2)
  have hfuel : (s.letGo t).2.liveHandles ≤ s.handles.length := by
    rw [Heap.liveHandles_letGo]
    exact Heap.liveHandles_le
  exact drain_of_invariant (I := fun pending s => Cascade s₀ t p pending s ∧ s.ptr t = none)
    (μ := Heap.liveHandles) hround ⟨hgo, hnull⟩ hfuel

/-- What is doomed is reached from the object of the handle that lets go. -/
theorem Doomed.reached (hd : Doomed s t o) (ht : s.handles[t]? = some h) :
    ∃ b, h.ptr = some b ∧ Relation.ReflTransGen s.Edge b o := by
  induction hd with
  | @intro o owner hrefs hmember hdoomed ih =>
    rcases Heap.refs_pos.mp hrefs with ⟨i, h', hi, hlive, hp⟩
    by_cases hit : i = t
    · subst hit
      rw [ht] at hi
      cases hi
      exact ⟨o, hp, .refl⟩
    · rcases ih i h' hi hlive hp hit with ⟨b, hb, hpath⟩
      exact ⟨b, hb,
        hpath.tail ⟨h', List.mem_of_getElem? hi, hlive, hmember i h' hi hlive hp hit, hp⟩⟩

/-- Without a reference cycle a handle is not a member of what it takes with it. -/
theorem Doomed.not_owner {a : ℕ} (hacyclic : s.Acyclic) (ht : s.handles[t]? = some h)
    (hlive : h.live = true) (howner : h.owner = some a) : ¬ Doomed s t a := by
  intro hd
  rcases hd.reached ht with ⟨b, hb, hpath⟩
  have hedge : s.Edge a b := ⟨h, List.mem_of_getElem? ht, hlive, howner, hb⟩
  exact hacyclic a (Relation.TransGen.head' hedge hpath)

/-- A handle that is not a member of a doomed object is still there at the end. -/
theorem Cascade.spared (hc : Cascade s₀ t p [] s) (hi : s₀.handles[i]? = some h₀)
    (hlive : h₀.live = true) (hspared : ∀ a, h₀.owner = some a → ¬ Doomed s₀ t a) :
    ∃ h, s.handles[i]? = some h ∧ h.live = true ∧ h.owner = h₀.owner ∧
      (i ≠ t → h.ptr = h₀.ptr) := by
  have hlt : i < s.handles.length := by
    rw [hc.since.length]
    exact (List.getElem?_eq_some_iff.mp hi).1
  have hi' : s.handles[i]? = some s.handles[i] := List.getElem?_eq_getElem hlt
  have hremains := hc.since.remains i _ h₀ hi' hi
  have hlive' : s.handles[i].live = true := by
    by_contra hdead
    rw [Bool.not_eq_true] at hdead
    rcases hc.since.gone i _ h₀ hi' hi hlive hdead with ⟨-, a, ha, hdoomed⟩
    exact hspared a ha hdoomed
  exact ⟨_, hi', hlive', hremains.owner, fun hne => hremains.same ⟨hne, nofun⟩ hlive'⟩

/-- When nothing else is counted, what is doomed is deleted. -/
theorem Cascade.deleted_of_doomed (hc : Cascade s₀ t none [] s) (ht : s.ptr t = none)
    (hd : Doomed s₀ t o) : o ∈ s.deleted := by
  induction hd with
  | @intro o owner hrefs hmember hdoomed ih =>
    by_contra hkept
    have hpos := hc.alive o hkept (by omega)
    rw [points_none, Nat.add_zero] at hpos
    rcases Heap.refs_pos.mp hpos with ⟨i, h, hi, hlive, hp⟩
    have hne : i ≠ t := by
      rintro rfl
      rw [Heap.ptr_of_getElem? hi, hp] at ht
      cases ht
    have hlt : i < s₀.handles.length := by
      rw [← hc.since.length]
      exact (List.getElem?_eq_some_iff.mp hi).1
    have hi₀ : s₀.handles[i]? = some s₀.handles[i] := List.getElem?_eq_getElem hlt
    have hremains := hc.since.remains i h _ hi hi₀
    have hlive₀ := hremains.live hlive
    have hp₀ : s₀.handles[i].ptr = some o := by
      rw [← hremains.same ⟨hne, nofun⟩ hlive]
      exact hp
    have howner : h.owner = some (owner i) := by
      rw [hremains.owner]
      exact hmember i _ hi₀ hlive₀ hp₀ hne
    have hgone := ih i _ hi₀ hlive₀ hp₀ hne
    exact absurd (hc.waiting.orphans i h (owner i) hi hlive howner hgone) nofun

end PostgresLib.Memory
