import PostgresLib.Transaction.Model

/-! # What calls do to the objects they are on

The facts about objects and in-flight calls that the protocol rests on: exactly
one object has the executor, a call that is about to enqueue is on that object,
and an object is destroyed by its last call.
-/

namespace PostgresLib.Transaction

open Foundations

/-- What a step may do to the object at an index. -/
def EvolvesAt (s s' : Shared) (i : ℕ) : Prop :=
  ∀ o : Object, s.objects[i]? = some o → ∃ o' : Object, s'.objects[i]? = some o' ∧
    o'.closing = o.closing ∧ (o.state ≠ .active → o'.state = o.state) ∧
    (o'.executor = o.executor ∨ TakesExecutor s s' i)

theorem evolvesAt_refl (s : Shared) (i : ℕ) : EvolvesAt s s i :=
  fun o ho => ⟨o, ho, rfl, fun _ => rfl, .inl rfl⟩

theorem evolvesAt_setObject {s : Shared} {j : ℕ} {o o' : Object} (i : ℕ)
    (ho : s.objects[j]? = some o) (hclosing : i = j → o'.closing = o.closing)
    (hstate : o.state ≠ .active → o'.state = o.state) (hexecutor : o'.executor = o.executor) :
    EvolvesAt s (s.setObject j o') i := by
  intro p hp
  by_cases hij : i = j
  · subst hij
    have hlt : i < s.objects.length := (List.getElem?_eq_some_iff.mp ho).1
    rw [ho, Option.some.injEq] at hp
    subst hp
    exact ⟨o', by simp [Shared.setObject, hlt], hclosing rfl, hstate, .inl hexecutor⟩
  · refine ⟨p, ?_, rfl, fun _ => rfl, .inl rfl⟩
    rw [Shared.setObject, List.getElem?_set_ne (Ne.symm hij)]
    exact hp

theorem evolvesAt_move {s : Shared} {j : ℕ} {o : Object} (i : ℕ) (ho : s.objects[j]? = some o)
    (target : Object) :
    EvolvesAt s
      { s with objects := s.objects.set j { o with executor := false } ++ [target] } i := by
  intro p hp
  have hi : i < s.objects.length := (List.getElem?_eq_some_iff.mp hp).1
  have hget : (s.objects.set j { o with executor := false } ++ [target])[i]? =
      (s.objects.set j { o with executor := false })[i]? :=
    List.getElem?_append_left (by rwa [List.length_set])
  by_cases hij : i = j
  · subst hij
    rw [ho, Option.some.injEq] at hp
    subst hp
    rw [List.getElem?_set_self hi] at hget
    refine ⟨{ o with executor := false }, hget, rfl, fun _ => rfl, ?_⟩
    cases hexecutor : o.executor with
    | false => exact .inl rfl
    | true => exact .inr ⟨o, { o with executor := false }, ho, hget, hexecutor, rfl⟩
  · rw [List.getElem?_set_ne (Ne.symm hij), hp] at hget
    exact ⟨p, hget, rfl, fun _ => rfl, .inl rfl⟩

theorem Act.evolvesAt {s s' : Shared} {t t' : Thread} (h : Act s t s' t') (i : ℕ) :
    EvolvesAt s s' i := by
  cases h with
  | terminate ho hop hstate =>
    exact evolvesAt_setObject i ho (fun _ => rfl) (fun hne => absurd hstate hne) rfl
  | rollBack ho hstate =>
    exact evolvesAt_setObject i ho (fun _ => rfl) (fun hne => absurd hstate.1 hne) rfl
  | destroyOnly ho hstate => exact evolvesAt_setObject i ho (fun _ => rfl) (fun _ => rfl) rfl
  | destroyed ho => exact evolvesAt_setObject i ho (fun _ => rfl) (fun _ => rfl) rfl
  | move ho => exact evolvesAt_move i ho _
  | _ => exact evolvesAt_refl s i

theorem Spawn.evolvesAt {s s' : Shared} {ts : List Thread} {t : Thread} (h : Spawn s ts s' t)
    {u : Thread} (hu : u ∈ ts) {i : ℕ} (hi : u.object = some i) : EvolvesAt s s' i := by
  cases h with
  | call => exact evolvesAt_refl s i
  | move hcreated ho => exact evolvesAt_setObject i ho (fun _ => rfl) (fun _ => rfl) rfl
  | @destroy j o hcreated ho hopen hidle =>
    have hne : i ≠ j := by
      rintro rfl
      exact hidle u hu hi
    exact evolvesAt_setObject i ho (fun hij => absurd hij hne) (fun _ => rfl) rfl

/-- What is known of the object a call is on. -/
def Local (s : Shared) : Thread → Prop
  | .creating | .beginning => False
  | .start i _ op => ∃ o : Object, s.objects[i]? = some o ∧ o.closing = decide (op = .destroy) ∧
      (op ≠ .destroy → o.executor = true ∨ o.state ≠ .active)
  | .sending i _ op => ∃ o : Object, s.objects[i]? = some o ∧ o.closing = decide (op = .destroy) ∧
      o.executor = true ∧ o.state ≠ .active ∧ op.isStatement = false
  | .waiting i _ op => ∃ o : Object, s.objects[i]? = some o ∧ o.closing = decide (op = .destroy) ∧
      o.state ≠ .active
  | .answering i _ => ∃ o : Object, s.objects[i]? = some o ∧ o.closing = false
  | .moving i => ∃ o : Object, s.objects[i]? = some o ∧ o.closing = false
  | .returned => True

/-- The steps of other calls keep what is known, unless one takes the executor that is needed. -/
theorem Local.stable {s s' : Shared} {u : Thread} (hu : Local s u)
    (hevolves : ∀ i, u.object = some i → EvolvesAt s s' i)
    (hneeds : ∀ i, TakesExecutor s s' i → ¬ u.NeedsExecutor s i) : Local s' u := by
  cases u with
  | creating => exact hu
  | beginning => exact hu
  | returned => trivial
  | start i call op =>
    obtain ⟨o, ho, hclosing, hkeeps⟩ := hu
    obtain ⟨o', ho', hclosing', hstate', hexecutor'⟩ := hevolves i rfl o ho
    refine ⟨o', ho', hclosing'.trans hclosing, fun hop => ?_⟩
    by_cases hactive : o.state = .active
    · obtain hsame | htaken := hexecutor'
      · obtain hexecutor | hstate := hkeeps hop
        · exact .inl (hsame.trans hexecutor)
        · exact absurd hactive hstate
      · exact absurd ⟨rfl, hop, o, ho, hactive⟩ (hneeds i htaken)
    · exact .inr (hstate' hactive ▸ hactive)
  | sending i call op =>
    obtain ⟨o, ho, hclosing, hexecutor, hstate, hop⟩ := hu
    obtain ⟨o', ho', hclosing', hstate', hexecutor'⟩ := hevolves i rfl o ho
    refine ⟨o', ho', hclosing'.trans hclosing, ?_, hstate' hstate ▸ hstate, hop⟩
    obtain hsame | htaken := hexecutor'
    · exact hsame.trans hexecutor
    · exact absurd rfl (hneeds i htaken)
  | waiting i call op =>
    obtain ⟨o, ho, hclosing, hstate⟩ := hu
    obtain ⟨o', ho', hclosing', hstate', -⟩ := hevolves i rfl o ho
    exact ⟨o', ho', hclosing'.trans hclosing, hstate' hstate ▸ hstate⟩
  | answering i call =>
    obtain ⟨o, ho, hclosing⟩ := hu
    obtain ⟨o', ho', hclosing', -⟩ := hevolves i rfl o ho
    exact ⟨o', ho', hclosing'.trans hclosing⟩
  | moving i =>
    obtain ⟨o, ho, hclosing⟩ := hu
    obtain ⟨o', ho', hclosing', -⟩ := hevolves i rfl o ho
    exact ⟨o', ho', hclosing'.trans hclosing⟩

theorem getElem?_setObject_self {s : Shared} {i : ℕ} {o o' : Object} (ho : s.objects[i]? = some o) :
    (s.setObject i o').objects[i]? = some o' :=
  List.getElem?_set_self (List.getElem?_eq_some_iff.mp ho).1

theorem getElem?_setObject {s : Shared} {i j : ℕ} {o p : Object}
    (h : (s.setObject j o).objects[i]? = some p) :
    j = i ∧ p = o ∨ j ≠ i ∧ s.objects[i]? = some p := by
  by_cases hij : j = i
  · subst hij
    have hlt := (List.getElem?_eq_some_iff.mp h).1
    rw [Shared.setObject, List.length_set] at hlt
    rw [Shared.setObject, List.getElem?_set_self hlt, Option.some.injEq] at h
    exact .inl ⟨rfl, h.symm⟩
  · rw [Shared.setObject, List.getElem?_set_ne hij] at h
    exact .inr ⟨hij, h⟩

theorem Op.endState_ne_active (op : Op) : op.endState ≠ .active := by
  cases op <;> simp [endState]

/-- The step of a call establishes what is known at its next point. -/
theorem Act.local {s s' : Shared} {t t' : Thread} (h : Act s t s' t') (ht : Local s t) :
    Local s' t' := by
  cases h with
  | create => exact ht
  | refuseAsync ho hstate =>
    obtain ⟨o, ho, hclosing, -⟩ := ht
    exact ⟨o, ho, hclosing⟩
  | @terminate i call op o ho hop hstate =>
    obtain ⟨o₁, ho₁, hclosing, hkeeps⟩ := ht
    obtain rfl : o = o₁ := by rw [ho] at ho₁; exact Option.some.inj ho₁
    have hne : op ≠ .destroy := by rintro rfl; simp at hop
    refine ⟨_, getElem?_setObject_self ho, hclosing, ?_, op.endState_ne_active, ?_⟩
    · exact (hkeeps hne).resolve_right fun hn => hn hstate
    · obtain rfl | rfl := hop <;> rfl
  | rollBack ho hstate =>
    obtain ⟨o₁, ho₁, hclosing, -⟩ := ht
    rw [ho, Option.some.injEq] at ho₁
    subst ho₁
    exact ⟨_, getElem?_setObject_self ho, hclosing, hstate.2, by simp, rfl⟩
  | send ho hexecutor =>
    obtain ⟨o₁, ho₁, hclosing, -, hstate, -⟩ := ht
    exact ⟨o₁, ho₁, hclosing, hstate⟩
  | _ => trivial

/-- Calls that are about to enqueue their `COMMIT` or `ROLLBACK`. -/
def Thread.sends : Thread → ℕ
  | sending _ _ _ => 1
  | _ => 0

def Thread.on (i : ℕ) (t : Thread) : ℕ := if t.object = some i then 1 else 0

/-- One when the object is not active any more. -/
def Object.ended (o : Object) : ℕ := if o.state = .active then 0 else 1

def Owner (s : Shared) (k : ℕ) (o : Object) : Prop :=
  s.objects[k]? = some o ∧ o.executor = true ∧
    ∀ (j : ℕ) (p : Object), s.objects[j]? = some p → p.executor = true → j = k

theorem Owner.unique {s : Shared} {k j : ℕ} {o p : Object} (h : Owner s k o)
    (hp : s.objects[j]? = some p) (hexecutor : p.executor = true) : j = k ∧ p = o := by
  obtain rfl := h.2.2 j p hp hexecutor
  exact ⟨rfl, Option.some.inj (hp.symm.trans h.1)⟩

theorem Owner.setObject {s : Shared} {k i : ℕ} {o p u : Object} (h : Owner s k o)
    (hp : s.objects[i]? = some p) (hexecutor : u.executor = p.executor) :
    Owner (s.setObject i u) k (if i = k then u else o) := by
  have hi : i < s.objects.length := (List.getElem?_eq_some_iff.mp hp).1
  obtain ⟨hk, ho, hunique⟩ := h
  by_cases hik : i = k
  · subst hik
    rw [if_pos rfl]
    obtain rfl : p = o := Option.some.inj (hp.symm.trans hk)
    refine ⟨getElem?_setObject_self hp, hexecutor.trans ho, fun j q hq hexec => ?_⟩
    by_cases hij : i = j
    · exact hij.symm
    · rw [Shared.setObject, List.getElem?_set_ne hij] at hq
      exact hunique j q hq hexec
  · rw [if_neg hik]
    refine ⟨?_, ho, fun j q hq hexec => ?_⟩
    · rw [Shared.setObject, List.getElem?_set_ne hik]
      exact hk
    · by_cases hij : i = j
      · subst hij
        rw [getElem?_setObject_self hp, Option.some.injEq] at hq
        subst hq
        exact hunique i p hp (hexecutor ▸ hexec)
      · rw [Shared.setObject, List.getElem?_set_ne hij] at hq
        exact hunique j q hq hexec

/-- A move construction hands the executor on with the state. -/
theorem Owner.move {s : Shared} {k i : ℕ} {o p : Object} (h : Owner s k o)
    (hp : s.objects[i]? = some p) :
    ∃ k' o', o'.ended = o.ended ∧ Owner
      { s with objects := s.objects.set i { p with executor := false } ++
        [Object.constructed p.state p.executor] } k' o' := by
  have hi : i < s.objects.length := (List.getElem?_eq_some_iff.mp hp).1
  have hold (j : ℕ) (hj : j < s.objects.length) :
      (s.objects.set i { p with executor := false } ++
        [Object.constructed p.state p.executor])[j]? =
          (s.objects.set i { p with executor := false })[j]? :=
    List.getElem?_append_left (by rwa [List.length_set])
  have hnew : (s.objects.set i { p with executor := false } ++
      [Object.constructed p.state p.executor])[s.objects.length]? =
        some (Object.constructed p.state p.executor) := by
    rw [List.getElem?_append_right (by rw [List.length_set]), List.length_set, Nat.sub_self]
    rfl
  have hbound (j : ℕ) (q : Object) (hq : (s.objects.set i { p with executor := false } ++
      [Object.constructed p.state p.executor])[j]? = some q) : j ≤ s.objects.length := by
    have := (List.getElem?_eq_some_iff.mp hq).1
    rw [List.length_append, List.length_set, List.length_singleton] at this
    omega
  cases hexecutor : p.executor with
  | true =>
    obtain ⟨rfl, rfl⟩ := h.unique hp hexecutor
    rw [hexecutor] at hnew hold hbound
    refine ⟨s.objects.length, Object.constructed p.state true, rfl, hnew, rfl,
      fun j q hq hexec => ?_⟩
    by_contra hj
    have hlt : j < s.objects.length := lt_of_le_of_ne (hbound j q hq) hj
    simp only [hold j hlt] at hq
    by_cases hij : i = j
    · subst hij
      rw [List.getElem?_set_self hi, Option.some.injEq] at hq
      subst hq
      simp at hexec
    · rw [List.getElem?_set_ne hij] at hq
      exact hij (h.2.2 j q hq hexec).symm
  | false =>
    rw [hexecutor] at hnew hold hbound
    obtain ⟨hk, ho, hunique⟩ := h
    have hik : i ≠ k := by
      rintro rfl
      rw [hp, Option.some.injEq] at hk
      simp [← hk, hexecutor] at ho
    have hklt : k < s.objects.length := (List.getElem?_eq_some_iff.mp hk).1
    refine ⟨k, o, rfl, ?_, ho, fun j q hq hexec => ?_⟩
    · simp only [hold k hklt, List.getElem?_set_ne hik, hk]
    · have hj := hbound j q hq
      by_cases hlt : j < s.objects.length
      · simp only [hold j hlt] at hq
        by_cases hij : i = j
        · subst hij
          rw [List.getElem?_set_self hi, Option.some.injEq] at hq
          subst hq
          simp at hexec
        · rw [List.getElem?_set_ne hij] at hq
          exact hunique j q hq hexec
      · obtain rfl : j = s.objects.length := by omega
        simp only [hnew, Option.some.injEq] at hq
        subst hq
        simp [Object.constructed] at hexec

theorem Op.isTerminator_command {op : Op} (h : op.isStatement = false) :
    op.command.isTerminator = true := by
  cases op with
  | execute | executeAsync => cases h
  | commit | rollback | destroy => rfl

theorem Op.not_isTerminator_command {op : Op} (h : op.isStatement = true) :
    op.command.isTerminator = false := by
  cases op with
  | execute | executeAsync => rfl
  | commit | rollback | destroy => cases h

theorem terminators_append (queue : List Entry) (e : Entry) :
    terminators (queue ++ [e]) = terminators queue + if e.command.isTerminator then 1 else 0 := by
  simp [terminators, List.countP_cons]

/-- A call leaves the state it found active, sends its command once, and no other way changes
the number of commands sent or due. -/
theorem Act.owner {s s' : Shared} {t t' : Thread} (h : Act s t s' t') (ht : Local s t) {k : ℕ}
    {o : Object} (hk : Owner s k o) :
    ∃ k' o', Owner s' k' o' ∧ terminators s'.queue + t'.sends + o.ended =
      terminators s.queue + t.sends + o'.ended := by
  cases h with
  | create => exact absurd ht id
  | created => exact absurd ht id
  | notCreated => exact absurd ht id
  | execute ho hop hstate hexecutor =>
    refine ⟨k, o, hk, ?_⟩
    simp [Shared.enqueue, terminators_append, Op.not_isTerminator_command hop, Thread.sends]
  | @terminate i call op p ho hop hstate =>
    obtain ⟨p₁, hp₁, -, hkeeps⟩ := ht
    obtain rfl : p = p₁ := Option.some.inj (ho.symm.trans hp₁)
    have hne : op ≠ .destroy := by rintro rfl; simp at hop
    have hexecutor := (hkeeps hne).resolve_right fun hn => hn hstate
    obtain ⟨rfl, rfl⟩ := hk.unique ho hexecutor
    refine ⟨_, _, hk.setObject (u := { p with state := op.endState }) ho rfl, ?_⟩
    simp [Shared.setObject, Thread.sends, Object.ended, hstate, op.endState_ne_active]
  | @rollBack i call p ho hstate =>
    obtain ⟨rfl, rfl⟩ := hk.unique ho hstate.2
    refine ⟨_, _, hk.setObject (u := { p with state := .rollback }) ho rfl, ?_⟩
    simp [Shared.setObject, Thread.sends, Object.ended, hstate]
  | @destroyOnly i call p ho | @destroyed i call p ho =>
    refine ⟨_, _, hk.setObject (u := { p with destroyed := true }) ho rfl, ?_⟩
    split_ifs with hik
    · subst hik
      obtain rfl : p = o := Option.some.inj (ho.symm.trans hk.1)
      simp [Shared.setObject, Thread.sends, Object.ended]
    · simp [Shared.setObject, Thread.sends]
  | send ho hexecutor =>
    obtain ⟨-, -, -, -, -, hop⟩ := ht
    refine ⟨k, o, hk, ?_⟩
    simp [Shared.enqueue, terminators_append, Op.isTerminator_command hop, Thread.sends]
  | @sendNull i call op p ho hexecutor =>
    obtain ⟨p₁, hp₁, -, hexec, -⟩ := ht
    rw [ho, Option.some.injEq] at hp₁
    simp [← hp₁, hexecutor] at hexec
  | move ho =>
    obtain ⟨k', o', hended, hk'⟩ := hk.move ho
    exact ⟨k', o', hk', by simp [Thread.sends, hended]⟩
  | _ => exact ⟨k, o, hk, by simp [Shared.refuse, Shared.answer, Thread.sends]⟩

/-- An object whose destructor has been called is only ever destroyed, by that call. -/
theorem Act.closing_object {s s' : Shared} {t t' : Thread} (h : Act s t s' t') {i : ℕ}
    {o' : Object} (ho' : s'.objects[i]? = some o') (hclosing : o'.closing = true) :
    ∃ o : Object, s.objects[i]? = some o ∧ o.closing = true ∧
      (o'.destroyed = o.destroyed ∨
        t.object = some i ∧ o'.destroyed = true ∧ t' = .returned) := by
  cases h with
  | terminate ho | rollBack ho =>
    rcases getElem?_setObject ho' with ⟨rfl, rfl⟩ | ⟨-, hold⟩
    · exact ⟨_, ho, hclosing, .inl rfl⟩
    · exact ⟨o', hold, hclosing, .inl rfl⟩
  | destroyOnly ho | destroyed ho =>
    rcases getElem?_setObject ho' with ⟨rfl, rfl⟩ | ⟨-, hold⟩
    · exact ⟨_, ho, hclosing, .inr ⟨rfl, rfl, rfl⟩⟩
    · exact ⟨o', hold, hclosing, .inl rfl⟩
  | @move j o ho =>
    dsimp only at ho'
    rw [List.getElem?_append] at ho'
    split_ifs at ho' with hlt
    · rcases getElem?_setObject ho' with ⟨rfl, rfl⟩ | ⟨-, hold⟩
      · exact ⟨o, ho, hclosing, .inl rfl⟩
      · exact ⟨o', hold, hclosing, .inl rfl⟩
    · -- the new object is not being destroyed
      rw [List.getElem?_singleton] at ho'
      split_ifs at ho'
      cases ho'
      cases hclosing
  | _ => exact ⟨o', ho', hclosing, .inl rfl⟩

/-- A call leaves an object that is not being destroyed, or destroys it. -/
theorem Act.object_left {s s' : Shared} {t t' : Thread} (h : Act s t s' t') (ht : Local s t) :
    t'.object = t.object ∨ t' = .returned ∧ ∀ i, t.object = some i →
      ∃ o' : Object, s'.objects[i]? = some o' ∧ (o'.closing = false ∨ o'.destroyed = true) := by
  cases h with
  | create | refuseAsync | terminate | rollBack | send => exact .inl rfl
  | created | notCreated => exact absurd ht id
  | @execute i call op o ho hop | @executeNull i call op o ho hop | @leave i call op o ho hop =>
    right
    obtain ⟨p, hp, hclosing, -⟩ := ht
    have hne : op ≠ .destroy := by
      rintro rfl
      simp [Op.isStatement] at hop
    refine ⟨rfl, ?_⟩
    rintro i ⟨⟩
    exact ⟨p, hp, .inl (by rw [hclosing, decide_eq_false hne])⟩
  | refuse ho hstate =>
    right
    obtain ⟨p, hp, hclosing, -⟩ := ht
    refine ⟨rfl, ?_⟩
    rintro i ⟨⟩
    exact ⟨p, hp, .inl hclosing⟩
  | @answered i call op hop =>
    right
    obtain ⟨p, hp, hclosing, -⟩ := ht
    refine ⟨rfl, ?_⟩
    rintro i ⟨⟩
    exact ⟨p, hp, .inl (by rw [hclosing, decide_eq_false hop])⟩
  | onError =>
    right
    obtain ⟨p, hp, hclosing⟩ := ht
    refine ⟨rfl, ?_⟩
    rintro i ⟨⟩
    exact ⟨p, hp, .inl hclosing⟩
  | destroyOnly ho | destroyed ho =>
    right
    refine ⟨rfl, ?_⟩
    rintro i ⟨⟩
    exact ⟨_, getElem?_setObject_self ho, .inr rfl⟩
  | sendNull ho hexecutor =>
    obtain ⟨p, hp, -, hexec, -⟩ := ht
    rw [ho, Option.some.injEq] at hp
    rw [← hp, hexecutor] at hexec
    cases hexec
  | @move i o ho =>
    right
    obtain ⟨p, hp, hclosing⟩ := ht
    rw [ho, Option.some.injEq] at hp
    subst hp
    have hlt : i < s.objects.length := (List.getElem?_eq_some_iff.mp ho).1
    refine ⟨rfl, ?_⟩
    rintro i ⟨⟩
    refine ⟨{ o with executor := false }, ?_, .inl hclosing⟩
    rw [List.getElem?_append_left (by rwa [List.length_set]), List.getElem?_set_self hlt]

end PostgresLib.Transaction
