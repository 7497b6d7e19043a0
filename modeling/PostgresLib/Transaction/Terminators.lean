import PostgresLib.Transaction.Protocol

/-! # What holds of a transaction in every run

The protocol needs that no move construction takes the executor from under a call.
Without that a transaction may stay open, but it is never ended twice, and nothing
is enqueued after its end. Before `BEGIN` is answered there are no calls, and when
it failed the objects are only destroyed.
-/

namespace PostgresLib.Transaction

open Foundations Wire

/-- What `MakePgParamBuffer` or the constructor made of the command. -/
def Command.detail : Command → PgParamDetail
  | statement detail | terminator detail => detail

namespace Thread

/-- The number of a call on an object, and what it does. -/
def call? : Thread → Option (ℕ × Op)
  | start _ call op | sending _ call op | waiting _ call op => some (call, op)
  | _ => none

/-- Calls that are about to enqueue their `COMMIT` or `ROLLBACK` on one object. -/
def sendsOn (k : ℕ) : Thread → ℕ
  | sending i _ _ => if i = k then 1 else 0
  | _ => 0

theorem sendsOn_of_object_ne {k : ℕ} {t : Thread} (h : t.object ≠ some k) : t.sendsOn k = 0 := by
  cases t with
  | sending i call op => exact if_neg fun hi => h (congrArg some hi)
  | _ => rfl

end Thread

def Inside (s : Shared) (t : Thread) : Prop := ∀ i, t.object = some i → i < s.objects.length

/-- Only `commit`, `rollback` and the destructor enqueue after they have left the mutex. -/
def SendsTerminator (t : Thread) : Prop :=
  ∀ i call op, t = .sending i call op → op.isStatement = false

theorem Inside.of_getElem? {s : Shared} {t : Thread} {i : ℕ} {o : Object}
    (ht : t.object = some i) (ho : s.objects[i]? = some o) : Inside s t := by
  intro j hj
  rw [ht, Option.some.injEq] at hj
  exact hj ▸ (List.getElem?_eq_some_iff.mp ho).1

theorem Act.length_le {s s' : Shared} {t t' : Thread} (h : Act s t s' t') :
    s.objects.length ≤ s'.objects.length := by
  cases h with
  | terminate | rollBack | destroyOnly | destroyed => rw [Shared.setObject, List.length_set]
  | move => rw [List.length_append, List.length_set]; exact Nat.le_add_right _ _
  | _ => exact Nat.le_refl _

theorem Spawn.length_eq {s s' : Shared} {ts : List Thread} {t : Thread} (h : Spawn s ts s' t) :
    s'.objects.length = s.objects.length := by
  cases h with
  | call => rfl
  | move => rw [Shared.setObject, List.length_set]
  | destroy => simp only [Shared.takeCall, Shared.setObject, List.length_set]

/-- A call stays on its object until it returns. -/
theorem Act.inside {s s' : Shared} {t t' : Thread} (h : Act s t s' t') (ht : Inside s t) :
    Inside s' t' := by
  have hkept : t'.object = t.object ∨ t'.object = none := by
    cases h with
    | create | refuseAsync | terminate | rollBack | send => exact .inl rfl
    | _ => exact .inr rfl
  intro i hi
  obtain hsame | hnone := hkept
  · exact (ht i (hsame ▸ hi)).trans_le h.length_le
  · rw [hnone] at hi
    cases hi

theorem Spawn.inside {s s' : Shared} {ts : List Thread} {t : Thread} (h : Spawn s ts s' t) :
    Inside s' t := by
  rw [Inside, h.length_eq]
  cases h with
  | call hcreated ho | move hcreated ho | destroy hcreated ho => exact Inside.of_getElem? rfl ho

theorem Act.sendsTerminator {s s' : Shared} {t t' : Thread} (h : Act s t s' t') :
    SendsTerminator t' := by
  rintro i call op rfl
  cases h with
  | terminate ho hop =>
    obtain rfl | rfl := hop
    · rfl
    · rfl
  | rollBack => rfl

theorem Spawn.sendsTerminator {s s' : Shared} {ts : List Thread} {t : Thread}
    (h : Spawn s ts s' t) : SendsTerminator t := by
  rintro i call op rfl
  cases h

/-- The executor stays where it is, or goes to the object that is constructed. -/
theorem Owner.index_move {s : Shared} {k i k' : ℕ} {o p o' : Object} (h : Owner s k o)
    (h' : Owner { s with objects := s.objects.set i { p with executor := false } ++
      [Object.constructed p.state p.executor] } k' o') :
    k' = k ∨ k' = s.objects.length := by
  obtain ⟨hk', hexecutor, -⟩ := h'
  by_cases hlt : k' < s.objects.length
  · left
    have hget : (s.objects.set i { p with executor := false })[k']? = some o' := by
      rw [← hk']
      exact (List.getElem?_append_left (by rwa [List.length_set])).symm
    obtain ⟨-, rfl⟩ | ⟨-, hold⟩ := getElem?_setObject (s := s) hget
    · cases hexecutor
    · exact h.2.2 k' o' hold hexecutor
  · right
    have hbound := (List.getElem?_eq_some_iff.mp hk').1
    rw [List.length_append, List.length_set, List.length_singleton] at hbound
    omega

theorem total_sendsOn_eq_zero {s : Shared} {ts : List Thread} {k : ℕ} (hts : ∀ t ∈ ts, Inside s t)
    (hk : s.objects.length ≤ k) : total (Thread.sendsOn k) ts = 0 := by
  apply total_eq_zero
  intro t ht
  apply Thread.sendsOn_of_object_ne
  intro hobject
  have := hts t ht k hobject
  omega

theorem beginEntry_isTerminator : beginEntry.command.isTerminator = false := rfl

theorem Act.once {s s' : Shared} {t t' : Thread} (h : Act s t s' t') (ht : SendsTerminator t)
    {rest : List Thread} (hrest : ∀ u ∈ rest, Inside s u) {k : ℕ} {o : Object} (hk : Owner s k o)
    (hle : terminators s.queue + (t.sendsOn k + total (Thread.sendsOn k) rest) ≤ o.ended) :
    ∃ k' o', Owner s' k' o' ∧
      terminators s'.queue + (t'.sendsOn k' + total (Thread.sendsOn k') rest) ≤ o'.ended := by
  cases h with
  | create =>
    refine ⟨k, o, hk, ?_⟩
    simpa [Shared.enqueue, terminators_append, beginEntry_isTerminator, Thread.sendsOn] using hle
  | execute ho hop =>
    refine ⟨k, o, hk, ?_⟩
    simpa [Shared.enqueue, terminators_append, Op.not_isTerminator_command hop, Thread.sendsOn]
      using hle
  | @terminate i call op p ho hop hstate =>
    refine ⟨k, _, hk.setObject (u := { p with state := op.endState }) ho rfl, ?_⟩
    split_ifs with hik
    · subst hik
      obtain rfl : p = o := Option.some.inj (ho.symm.trans hk.1)
      simp only [Object.ended, hstate, op.endState_ne_active, if_true, if_false, Thread.sendsOn,
        Shared.setObject] at hle ⊢
      omega
    · simpa [Thread.sendsOn, hik, Shared.setObject] using hle
  | @rollBack i call p ho hstate =>
    refine ⟨k, _, hk.setObject (u := { p with state := .rollback }) ho rfl, ?_⟩
    split_ifs with hik
    · subst hik
      obtain rfl : p = o := Option.some.inj (ho.symm.trans hk.1)
      simp only [Object.ended, hstate.1, if_true, Thread.sendsOn] at hle
      simp only [Object.ended, reduceCtorEq, if_true, if_false, Thread.sendsOn, Shared.setObject]
      omega
    · simpa [Thread.sendsOn, hik, Shared.setObject] using hle
  | @destroyOnly i call p ho | @destroyed i call p ho =>
    refine ⟨k, _, hk.setObject (u := { p with destroyed := true }) ho rfl, ?_⟩
    split_ifs with hik
    · subst hik
      obtain rfl : p = o := Option.some.inj (ho.symm.trans hk.1)
      simpa [Thread.sendsOn, Shared.setObject, Object.ended] using hle
    · simpa [Thread.sendsOn, Shared.setObject] using hle
  | send ho hexecutor =>
    obtain ⟨rfl, rfl⟩ := hk.unique ho hexecutor
    refine ⟨_, _, hk, ?_⟩
    have hterminator := Op.isTerminator_command (ht _ _ _ rfl)
    simp only [Shared.enqueue, terminators_append, hterminator, if_true, Thread.sendsOn] at hle ⊢
    omega
  | sendNull =>
    refine ⟨k, o, hk, ?_⟩
    simp only [Thread.sendsOn] at hle ⊢
    omega
  | move ho =>
    obtain ⟨k', o', hended, hk'⟩ := hk.move ho
    refine ⟨k', o', hk', ?_⟩
    rw [hended]
    obtain rfl | rfl := hk.index_move hk'
    · simpa [Thread.sendsOn] using hle
    · rw [total_sendsOn_eq_zero hrest (Nat.le_refl _)]
      simp only [Thread.sendsOn]
      omega
  | _ => exact ⟨k, o, hk, by simpa [Shared.refuse, Shared.answer, Thread.sendsOn] using hle⟩

theorem Act.sorted_of_once {s s' : Shared} {t t' : Thread} (h : Act s t s' t')
    (ht : SendsTerminator t) (hcreated : t ≠ .creating) {k : ℕ} {o : Object} (hk : Owner s k o)
    (hnone : o.state = .active → terminators s.queue = 0) (hs : Sorted s.queue) :
    Sorted s'.queue := by
  cases h with
  | create => exact absurd rfl hcreated
  | execute ho hop hstate hexecutor =>
    obtain ⟨-, rfl⟩ := hk.unique ho hexecutor
    exact .of_statement (hnone hstate) (Op.not_isTerminator_command hop)
  | send => exact hs.terminator (Op.isTerminator_command (ht _ _ _ rfl))
  | _ => exact hs

def Destroys (t : Thread) : Prop := ∀ call op, t.call? = some (call, op) → op = .destroy

/-- What every step keeps once `BEGIN` has been answered. -/
structure Underway (c : Config Shared Thread) : Prop where
  answered : c.shared.creation ≠ .pending
  calls : ∀ t ∈ c.threads, t ≠ .creating ∧ t ≠ .beginning
  begun : c.shared.queue.head? = some beginEntry
  inside : ∀ t ∈ c.threads, Inside c.shared t
  sendsTerminator : ∀ t ∈ c.threads, SendsTerminator t
  once : ∃ k o, Owner c.shared k o ∧
    terminators c.shared.queue + total (Thread.sendsOn k) c.threads ≤ o.ended
  sorted : Sorted c.shared.queue
  dropped : c.shared.creation = .dropped → (∀ t ∈ c.threads, Destroys t) ∧
    ∀ e ∈ c.shared.queue.tail, e.command = Op.destroy.command

/-- An act of a call on an object leaves the creation alone. -/
theorem Act.creation_eq {s s' : Shared} {t t' : Thread} (h : Act s t s' t')
    (hbegun : t ≠ .beginning) : s'.creation = s.creation := by
  cases h with
  | created | notCreated => exact absurd rfl hbegun
  | _ => rfl

theorem Act.calls {s s' : Shared} {t t' : Thread} (h : Act s t s' t') (hcreated : t ≠ .creating) :
    t' ≠ .creating ∧ t' ≠ .beginning := by
  cases h with
  | create => exact absurd rfl hcreated
  | _ => exact ⟨nofun, nofun⟩

/-- A call goes on with what it was called for. -/
theorem Act.destroys {s s' : Shared} {t t' : Thread} (h : Act s t s' t') (ht : Destroys t) :
    Destroys t' := by
  intro call op hop
  cases h with
  | terminate | rollBack | send => exact ht call op hop
  | _ => cases hop

/-- What an act enqueues is the command of its call, on the object with the executor; this object is
active, or the call has ended it. -/
theorem Act.enqueues {s s' : Shared} {t t' : Thread} (h : Act s t s' t')
    (hcreated : t ≠ .creating) :
    s'.queue = s.queue ∨ ∃ i call op o, t.call? = some (call, op) ∧
      s' = s.enqueue ⟨call, op.command⟩ ∧ s.objects[i]? = some o ∧ o.executor = true ∧
      (op.isStatement = true ∧ o.state = .active ∨
        t = .sending i call op ∧ t' = .waiting i call op) := by
  cases h with
  | create => exact absurd rfl hcreated
  | execute ho hop hstate hexecutor =>
    exact .inr ⟨_, _, _, _, rfl, rfl, ho, hexecutor, .inl ⟨hop, hstate⟩⟩
  | send ho hexecutor => exact .inr ⟨_, _, _, _, rfl, rfl, ho, hexecutor, .inr ⟨rfl, rfl⟩⟩
  | _ => exact .inl rfl

theorem Underway.act {s s' : Shared} {t t' : Thread} {pre post : List Thread}
    (hs : Underway ⟨s, pre ++ t :: post⟩) (h : Act s t s' t') :
    Underway ⟨s', pre ++ t' :: post⟩ := by
  have hmem {u : Thread} (hu : u ∈ pre ++ t' :: post) : u = t' ∨ u ∈ pre ++ t :: post := by
    simp only [List.mem_append, List.mem_cons] at hu ⊢
    tauto
  have ht : t ∈ pre ++ t :: post := by simp
  obtain ⟨hcreated, hbegun⟩ := hs.calls t ht
  have hcreation := h.creation_eq hbegun
  obtain ⟨k, o, hk, hle⟩ := hs.once
  simp only [total_append, total_cons] at hle
  have hne : s.queue ≠ [] := by
    intro hnil
    have hbegun := hs.begun
    rw [hnil] at hbegun
    cases hbegun
  have hrest : ∀ u ∈ pre ++ post, Inside s u := by
    intro u hu
    apply hs.inside
    simp only [List.mem_append, List.mem_cons] at hu ⊢
    tauto
  exact {
    answered := by
      rw [hcreation]
      exact hs.answered
    calls := by
      intro u hu
      obtain rfl | hold := hmem hu
      · exact h.calls hcreated
      · exact hs.calls u hold
    begun := h.begun hs.begun
    inside := by
      intro u hu
      obtain rfl | hold := hmem hu
      · exact h.inside (hs.inside t ht)
      · exact fun i hi => (hs.inside u hold i hi).trans_le h.length_le
    sendsTerminator := by
      intro u hu
      obtain rfl | hold := hmem hu
      · exact h.sendsTerminator
      · exact hs.sendsTerminator u hold
    once := by
      obtain ⟨k', o', hk', hle'⟩ := h.once (hs.sendsTerminator t ht) hrest hk (by
        rw [total_append]
        omega)
      refine ⟨k', o', hk', ?_⟩
      rw [total_append] at hle'
      simp only [total_append, total_cons]
      omega
    sorted := by
      refine h.sorted_of_once (hs.sendsTerminator t ht) hcreated hk (fun hactive => ?_) hs.sorted
      rw [Object.ended, if_pos hactive] at hle
      omega
    dropped := by
      intro hdropped
      obtain ⟨hdestroys, hqueue⟩ := hs.dropped (hcreation ▸ hdropped)
      constructor
      · intro u hu
        obtain rfl | hold := hmem hu
        · exact h.destroys (hdestroys t ht)
        · exact hdestroys u hold
      · obtain hsame | ⟨i, call, op, p, hop, rfl, -⟩ := h.enqueues hcreated
        · rw [hsame]
          exact hqueue
        · intro e he
          rw [Shared.enqueue, List.tail_append_of_ne_nil hne] at he
          obtain hold | hnew := List.mem_append.mp he
          · exact hqueue e hold
          · rw [List.mem_singleton.mp hnew, hdestroys t ht call op hop] }

/-- Nothing is enqueued once the transaction has been ended. -/
theorem Underway.none_ended {s : Shared} {ts : List Thread} (hs : Underway ⟨s, ts⟩) {t : Thread}
    (ht : t ∈ ts) {i call : ℕ} {op : Op} {p : Object} (hp : s.objects[i]? = some p)
    (hexecutor : p.executor = true) (hdue : p.state = .active ∨ t = .sending i call op) :
    terminators s.queue = 0 := by
  obtain ⟨k, o, hk, hle⟩ := hs.once
  obtain ⟨rfl, rfl⟩ := hk.unique hp hexecutor
  dsimp only at hle
  obtain hactive | rfl := hdue
  · rw [Object.ended, if_pos hactive] at hle
    omega
  · have hpos : 0 < total (Thread.sendsOn i) ts :=
      total_pos.mpr ⟨_, ht, by simp [Thread.sendsOn]⟩
    have := p.ended_le
    omega

theorem Underway.spawn {s s' : Shared} {ts : List Thread} {t : Thread} (hs : Underway ⟨s, ts⟩)
    (h : Spawn s ts s' t) : Underway ⟨s', ts ++ [t]⟩ := by
  have hmem {u : Thread} (hu : u ∈ ts ++ [t]) : u = t ∨ u ∈ ts := by
    simpa [or_comm] using hu
  obtain ⟨k, o, hk, hle⟩ := hs.once
  obtain ⟨o', hk', hended, hqueue, -⟩ := h.owner hk
  have hcreation : s'.creation = s.creation := by cases h <;> rfl
  exact {
    answered := by
      rw [hcreation]
      exact hs.answered
    calls := by
      intro u hu
      obtain rfl | hold := hmem hu
      · cases h <;> exact ⟨nofun, nofun⟩
      · exact hs.calls u hold
    begun := by
      rw [hqueue]
      exact hs.begun
    inside := by
      intro u hu
      obtain rfl | hold := hmem hu
      · exact h.inside
      · exact fun i hi => (hs.inside u hold i hi).trans_eq h.length_eq.symm
    sendsTerminator := by
      intro u hu
      obtain rfl | hold := hmem hu
      · exact h.sendsTerminator
      · exact hs.sendsTerminator u hold
    once := by
      have hnone : t.sendsOn k = 0 := by cases h <;> rfl
      refine ⟨k, o', hk', ?_⟩
      simp only [total_append, total_cons, total_nil, hnone, hqueue, hended]
      exact hle
    sorted := by
      rw [hqueue]
      exact hs.sorted
    dropped := by
      intro hdropped
      rw [hcreation] at hdropped
      obtain ⟨hdestroys, hcommands⟩ := hs.dropped hdropped
      refine ⟨fun u hu => ?_, by rwa [hqueue]⟩
      obtain rfl | hold := hmem hu
      · intro call op hop
        cases h with
        | call hreturned => cases hdropped.symm.trans hreturned
        | move => cases hop
        | destroy => exact (Prod.ext_iff.mp (Option.some.inj hop)).2.symm
      · exact hdestroys u hold }

theorem underway_created {creation : Creation} (h : creation ≠ .pending) :
    Underway ⟨{ beginning.shared with creation := creation }, [.returned]⟩ where
  answered := h
  calls t ht := by
    rw [List.mem_singleton.mp ht]
    exact ⟨nofun, nofun⟩
  begun := rfl
  inside t ht := by
    rw [List.mem_singleton.mp ht]
    exact nofun
  sendsTerminator t ht := by
    rw [List.mem_singleton.mp ht]
    exact nofun
  once := ⟨0, _, owner_constructed _ rfl, Nat.le_refl _⟩
  sorted := .of_statement rfl beginEntry_isTerminator
  dropped _ := by
    constructor
    · intro t ht
      rw [List.mem_singleton.mp ht]
      exact nofun
    · exact nofun

theorem Underway.reachable {c : Config Shared Thread} (h : system.Reachable c) :
    c = start ∨ c = beginning ∨ Underway c := by
  apply h.induct
  · intro s hs
    exact .inl hs
  · intro s s' _ hs hstep
    obtain rfl | rfl | hs := hs
    · obtain ⟨sh', t', hact, rfl⟩ | ⟨sh', t', hspawn, rfl⟩ := Interleave.of_single hstep
      · cases hact
        exact .inr (.inl rfl)
      · cases hspawn <;> simp_all [start]
    · right
      right
      obtain ⟨sh', t', hact, rfl⟩ | ⟨sh', t', hspawn, rfl⟩ := Interleave.of_single hstep
      · cases hact with
        | created | notCreated => exact underway_created (by decide)
      · cases hspawn <;> simp_all [start, Shared.enqueue]
    · right
      right
      cases hstep with
      | act pre post hact => exact hs.act hact
      | spawn ts hspawn => exact hs.spawn hspawn

/-- A transaction enqueues statements, and then at most one command that ends it. -/
theorem ended_once {c : Config Shared Thread} (h : system.Reachable c) :
    ∃ statements ends, c.shared.queue = statements ++ ends ∧
      (∀ e ∈ statements, e.command.isTerminator = false) ∧
      (∀ e ∈ ends, e.command.isTerminator = true) ∧ ends.length ≤ 1 := by
  obtain rfl | rfl | hc := Underway.reachable h
  · exact ⟨[], [], rfl, nofun, nofun, Nat.zero_le _⟩
  · refine ⟨[beginEntry], [], rfl, ?_, nofun, Nat.zero_le _⟩
    intro e he
    rw [List.mem_singleton.mp he]
    rfl
  · obtain ⟨statements, ends, hqueue, hstatements, hends⟩ := hc.sorted
    refine ⟨statements, ends, hqueue, hstatements, hends, ?_⟩
    obtain ⟨k, o, -, hle⟩ := hc.once
    have hcount : ends.length = ends.countP fun e => e.command.isTerminator :=
      (List.countP_eq_length.mpr hends).symm
    have hall : ends.countP (fun e => e.command.isTerminator) ≤ terminators c.shared.queue := by
      rw [hqueue, terminators, List.countP_append]
      exact Nat.le_add_left _ _
    have := o.ended_le
    omega

theorem calls_nodup {c : Config Shared Thread} (h : system.Reachable c) :
    (c.shared.queue.map (·.call)).Nodup := by
  rw [List.nodup_iff_count]
  intro call
  have honce := RecordedOnce.reachable h call
  have hissued : issued call c.shared ≤ 1 := by
    unfold issued
    split_ifs <;> omega
  have hcount : (c.shared.queue.map (·.call)).count call =
      c.shared.queue.countP fun e => e.call = call := by
    rw [List.count, List.countP_map]
    apply List.countP_congr
    intro e _
    simp
  simp only [Config.potential, recorded] at honce
  omega

end PostgresLib.Transaction
