import PostgresLib.Transaction.Calls

/-! # The transaction protocol

In the runs in which a move construction takes the executor only when no call
needs it, the commands of a transaction form one `BEGIN`, statements, and one
`COMMIT` or `ROLLBACK` at the end. A move construction in the window between the
state change of a `commit` and its command breaks this.
-/

namespace PostgresLib.Transaction

open Foundations

/-- Statements come before commands that end the transaction. -/
def Sorted (queue : List Entry) : Prop :=
  ∃ statements ends, queue = statements ++ ends ∧
    (∀ e ∈ statements, e.command.isTerminator = false) ∧
    ∀ e ∈ ends, e.command.isTerminator = true

theorem Sorted.terminator {queue : List Entry} (h : Sorted queue) {e : Entry}
    (he : e.command.isTerminator = true) : Sorted (queue ++ [e]) := by
  obtain ⟨statements, ends, rfl, hstatements, hends⟩ := h
  refine ⟨statements, ends ++ [e], List.append_assoc _ _ _, hstatements, fun x hx => ?_⟩
  rw [List.mem_append, List.mem_singleton] at hx
  obtain hx | rfl := hx
  · exact hends x hx
  · exact he

theorem Sorted.of_statement {queue : List Entry} (hnone : terminators queue = 0) {e : Entry}
    (he : e.command.isTerminator = false) : Sorted (queue ++ [e]) := by
  refine ⟨queue ++ [e], [], (List.append_nil _).symm, fun x hx => ?_, by simp⟩
  rw [List.mem_append, List.mem_singleton] at hx
  obtain hx | rfl := hx
  · have hnot := List.countP_eq_zero.mp hnone x hx
    simpa using hnot
  · exact he

/-- What every step keeps once `BEGIN` has been answered. -/
structure Invariant (c : Config Shared Thread) : Prop where
  begun : c.shared.queue.head? = some beginEntry
  ended : ∃ k o, Owner c.shared k o ∧
    terminators c.shared.queue + total Thread.sends c.threads = o.ended
  locals : ∀ t ∈ c.threads, Local c.shared t
  closed : ∀ (i : ℕ) (o : Object), c.shared.objects[i]? = some o → o.closing = true →
    total (Thread.on i) c.threads + (if o.destroyed then 1 else 0) = 1
  retired : ∀ (i : ℕ) (o : Object), c.shared.objects[i]? = some o → o.destroyed = true →
    o.closing = true ∧ (o.executor = true → o.state ≠ .active)
  sorted : Sorted c.shared.queue

theorem Act.begun {s s' : Shared} {t t' : Thread} (h : Act s t s' t')
    (hs : s.queue.head? = some beginEntry) : s'.queue.head? = some beginEntry := by
  have hpush (e : Entry) : (s.enqueue e).queue.head? = some beginEntry := by
    rw [Shared.enqueue, List.head?_append, hs]
    rfl
  cases h with
  | create => exact hpush _
  | execute => exact hpush _
  | send => exact hpush _
  | _ => exact hs

theorem Act.sorted {s s' : Shared} {t t' : Thread} (h : Act s t s' t') (ht : Local s t) {k : ℕ}
    {o : Object} (hk : Owner s k o) (hnone : o.state = .active → terminators s.queue = 0)
    (hs : Sorted s.queue) : Sorted s'.queue := by
  cases h with
  | create => exact absurd ht id
  | execute ho hop hstate hexecutor =>
    obtain ⟨-, rfl⟩ := hk.unique ho hexecutor
    exact .of_statement (hnone hstate) (Op.not_isTerminator_command hop)
  | send =>
    obtain ⟨-, -, -, -, -, hop⟩ := ht
    exact hs.terminator (Op.isTerminator_command hop)
  | _ => exact hs

/-- A destroyed object was being destroyed, and has ended its transaction if it had one. -/
def Retired (s : Shared) : Prop :=
  ∀ (i : ℕ) (o : Object), s.objects[i]? = some o → o.destroyed = true →
    o.closing = true ∧ (o.executor = true → o.state ≠ .active)

theorem Act.retired {s s' : Shared} {t t' : Thread} (h : Act s t s' t') (ht : Local s t)
    (hs : Retired s) : Retired s' := by
  intro i o ho hdestroyed
  cases h with
  | @terminate j call op p hp hop hstate =>
    rcases getElem?_setObject ho with ⟨rfl, rfl⟩ | ⟨-, hold⟩
    · exact ⟨(hs j p hp hdestroyed).1, fun _ => op.endState_ne_active⟩
    · exact hs i o hold hdestroyed
  | @rollBack j call p hp hstate =>
    rcases getElem?_setObject ho with ⟨rfl, rfl⟩ | ⟨-, hold⟩
    · exact ⟨(hs j p hp hdestroyed).1, fun _ => State.noConfusion⟩
    · exact hs i o hold hdestroyed
  | @destroyOnly j call p hp hstate =>
    rcases getElem?_setObject ho with ⟨rfl, rfl⟩ | ⟨-, hold⟩
    · rcases ht with ⟨q, hq, hclosing, -⟩
      rw [hp, Option.some.injEq] at hq
      subst hq
      exact ⟨hclosing, fun hexecutor hactive => hstate ⟨hactive, hexecutor⟩⟩
    · exact hs i o hold hdestroyed
  | @destroyed j call p hp =>
    rcases getElem?_setObject ho with ⟨rfl, rfl⟩ | ⟨-, hold⟩
    · rcases ht with ⟨q, hq, hclosing, hstate⟩
      rw [hp, Option.some.injEq] at hq
      subst hq
      exact ⟨hclosing, fun _ => hstate⟩
    · exact hs i o hold hdestroyed
  | @move j p hp =>
    dsimp only at ho
    rw [List.getElem?_append] at ho
    split_ifs at ho with hlt
    · rcases getElem?_setObject ho with ⟨rfl, rfl⟩ | ⟨-, hold⟩
      · exact ⟨(hs j p hp hdestroyed).1, nofun⟩
      · exact hs i o hold hdestroyed
    · -- the new object is not destroyed
      rw [List.getElem?_singleton] at ho
      split_ifs at ho
      cases ho
      cases hdestroyed
  | _ => exact hs i o ho hdestroyed

theorem Spawn.local {s s' : Shared} {ts : List Thread} {t : Thread} (h : Spawn s ts s' t) :
    Local s' t := by
  cases h with
  | call hcreated ho hsource hopen hop =>
    exact ⟨_, ho, by rw [hopen, decide_eq_false hop], fun _ => .inl hsource⟩
  | move hcreated ho hsource hopen honce => exact ⟨_, getElem?_setObject_self ho, hopen⟩
  | destroy hcreated ho hopen hidle =>
    exact ⟨_, getElem?_setObject_self ho, by simp, fun hne => absurd rfl hne⟩

theorem Spawn.owner {s s' : Shared} {ts : List Thread} {t : Thread} (h : Spawn s ts s' t) {k : ℕ}
    {o : Object} (hk : Owner s k o) :
    ∃ o', Owner s' k o' ∧ o'.ended = o.ended ∧ s'.queue = s.queue ∧ t.sends = 0 := by
  cases h with
  | call => exact ⟨o, hk, rfl, rfl, rfl⟩
  | @move i p hcreated ho =>
    refine ⟨_, hk.setObject (u := { p with moving := true }) ho rfl, ?_, rfl, rfl⟩
    split_ifs with hik
    · subst hik
      obtain rfl : p = o := Option.some.inj (ho.symm.trans hk.1)
      rfl
    · rfl
  | @destroy i p hcreated ho =>
    refine ⟨_, hk.setObject (u := { p with closing := true }) ho rfl, ?_, rfl, rfl⟩
    split_ifs with hik
    · subst hik
      obtain rfl : p = o := Option.some.inj (ho.symm.trans hk.1)
      rfl
    · rfl

theorem Spawn.closed {s s' : Shared} {ts : List Thread} {t : Thread} (h : Spawn s ts s' t) (i : ℕ)
    (o' : Object) (ho' : s'.objects[i]? = some o') (hclosing : o'.closing = true) :
    (∃ o : Object, s.objects[i]? = some o ∧ o.closing = true ∧ o'.destroyed = o.destroyed ∧
      t.object ≠ some i) ∨
    (∃ o : Object, s.objects[i]? = some o ∧ o.closing = false ∧ o'.destroyed = o.destroyed ∧
      t.object = some i ∧ ∀ u ∈ ts, u.object ≠ some i) := by
  -- a call begins on an object that is not being destroyed
  have hne {j : ℕ} {o : Object} (ho : s.objects[j]? = some o) (hopen : o.closing = false)
      (hold : s.objects[i]? = some o') : some j ≠ some i := by
    rintro ⟨⟩
    rw [ho, Option.some.injEq] at hold
    rw [← hold, hopen] at hclosing
    cases hclosing
  cases h with
  | call hcreated ho hsource hopen =>
    exact .inl ⟨o', ho', hclosing, rfl, hne ho hopen ho'⟩
  | move hcreated ho hsource hopen =>
    rcases getElem?_setObject ho' with ⟨rfl, rfl⟩ | ⟨-, hold⟩
    · cases hopen.symm.trans hclosing
    · exact .inl ⟨o', hold, hclosing, rfl, hne ho hopen hold⟩
  | destroy hcreated ho hopen hidle =>
    rcases getElem?_setObject ho' with ⟨rfl, rfl⟩ | ⟨-, hold⟩
    · exact .inr ⟨_, ho, hopen, rfl, rfl, hidle⟩
    · exact .inl ⟨o', hold, hclosing, rfl, hne ho hopen hold⟩

theorem Spawn.retired {s s' : Shared} {ts : List Thread} {t : Thread} (h : Spawn s ts s' t)
    (hs : Retired s) : Retired s' := by
  intro i o ho hdestroyed
  cases h with
  | call => exact hs i o ho hdestroyed
  | @move j p hcreated hp hsource hopen =>
    rcases getElem?_setObject ho with ⟨rfl, rfl⟩ | ⟨-, hold⟩
    · exact hs j p hp hdestroyed
    · exact hs i o hold hdestroyed
  | @destroy j p hcreated hp hopen =>
    rcases getElem?_setObject ho with ⟨rfl, rfl⟩ | ⟨-, hold⟩
    · exact ⟨rfl, (hs j p hp hdestroyed).2⟩
    · exact hs i o hold hdestroyed

theorem total_on_eq_zero {ts : List Thread} {i : ℕ} (h : ∀ u ∈ ts, u.object ≠ some i) :
    total (Thread.on i) ts = 0 := by
  induction ts with
  | nil => rfl
  | cons t ts ih =>
    rw [total_cons, ih fun u hu => h u (List.mem_cons_of_mem _ hu), Thread.on,
      if_neg (h t List.mem_cons_self)]

theorem Invariant.act {s s' : Shared} {t t' : Thread} {pre post : List Thread}
    (hs : Invariant ⟨s, pre ++ t :: post⟩) (h : Act s t s' t')
    (hsettled : ∀ i, TakesExecutor s s' i →
      ∀ u ∈ pre ++ t :: post, ¬ u.NeedsExecutor s i) :
    Invariant ⟨s', pre ++ t' :: post⟩ := by
  have ht : Local s t := hs.locals t (by simp)
  obtain ⟨k, o, hk, hended⟩ := hs.ended
  simp only [total_append, total_cons] at hended
  have hreturn := h.object_left ht
  have hothers : ∀ u ∈ pre ++ t :: post, Local s' u := fun u hu =>
    (hs.locals u hu).stable (fun i _ => h.evolvesAt i) fun i hi => hsettled i hi u hu
  exact {
    begun := h.begun hs.begun
    ended := by
      obtain ⟨k', o', hk', hbalance⟩ := h.owner ht hk
      refine ⟨k', o', hk', ?_⟩
      simp only [total_append, total_cons]
      omega
    locals := by
      intro u hu
      simp only [List.mem_append, List.mem_cons] at hu hothers
      obtain hpre | rfl | hpost := hu
      · exact hothers u (.inl hpre)
      · exact h.local ht
      · exact hothers u (.inr (.inr hpost))
    closed := by
      intro i o' ho' hclosing
      obtain ⟨p, hp, hpclosing, hdestroyed⟩ := h.closing_object ho' hclosing
      have hcount := hs.closed i p hp hpclosing
      simp only [total_append, total_cons, Thread.on] at hcount ⊢
      obtain hsame | ⟨hon, hdone, rfl⟩ := hdestroyed
      · rw [hsame]
        obtain hobject | ⟨rfl, hleft⟩ := hreturn
        · rw [hobject]
          exact hcount
        · by_cases hon : t.object = some i
          · obtain ⟨q, hq, hqclosing | hqdestroyed⟩ := hleft i hon
            · rw [ho', Option.some.injEq] at hq
              rw [hq, hqclosing] at hclosing
              exact absurd hclosing (by simp)
            · rw [ho', Option.some.injEq] at hq
              rw [if_pos hon, if_pos (by rw [← hsame, hq, hqdestroyed])] at hcount
              omega
          · rw [if_neg hon] at hcount
            simpa [Thread.object] using hcount
      · rw [if_pos hon] at hcount
        simp only [Thread.object, hdone, reduceCtorEq, if_false, if_true]
        omega
    retired := h.retired ht hs.retired
    sorted := by
      refine h.sorted ht hk (fun hactive => ?_) hs.sorted
      rw [Object.ended, if_pos hactive] at hended
      omega }

theorem Invariant.spawn {s s' : Shared} {ts : List Thread} {t : Thread} (hs : Invariant ⟨s, ts⟩)
    (h : Spawn s ts s' t)
    (hsettled : ∀ i, TakesExecutor s s' i → ∀ u ∈ ts, ¬ u.NeedsExecutor s i) :
    Invariant ⟨s', ts ++ [t]⟩ := by
  obtain ⟨k, o, hk, hended⟩ := hs.ended
  obtain ⟨o', hk', hkept, hqueue, hsends⟩ := h.owner hk
  exact {
    begun := by
      rw [hqueue]
      exact hs.begun
    ended := by
      refine ⟨k, o', hk', ?_⟩
      rw [hkept, ← hended]
      simp only [total_append, total_cons, total_nil, hsends, hqueue]
      rfl
    locals := by
      intro u hu
      rw [List.mem_append, List.mem_singleton] at hu
      obtain hts | rfl := hu
      · exact (hs.locals u hts).stable (fun i hi => h.evolvesAt hts hi)
          fun i hi => hsettled i hi u hts
      · exact h.local
    closed := by
      intro i p hp hclosing
      simp only [total_append, total_cons, total_nil, Thread.on]
      obtain ⟨q, hq, hqclosing, hsame, hoff⟩ | ⟨q, hq, hqopen, hsame, hon, hidle⟩ :=
        h.closed i p hp hclosing
      · rw [if_neg hoff, hsame]
        exact hs.closed i q hq hqclosing
      · have hzero := total_on_eq_zero hidle
        have hlive : q.destroyed = false := by
          cases hd : q.destroyed with
          | false => rfl
          | true =>
            have := (hs.retired i q hq hd).1
            rw [hqopen] at this
            exact absurd this (by simp)
        rw [if_pos hon, hsame, hlive, hzero]
        rfl
    retired := h.retired hs.retired
    sorted := by
      rw [hqueue]
      exact hs.sorted }

/-- `BEGIN` has been enqueued and is not yet answered. -/
def beginning : Config Shared Thread := ⟨start.shared.enqueue beginEntry, [.beginning]⟩

theorem owner_constructed (s : Shared)
    (h : s.objects = [Object.constructed .active true]) :
    Owner s 0 (Object.constructed .active true) := by
  refine ⟨by rw [h]; rfl, rfl, fun j p hp _ => ?_⟩
  rw [h] at hp
  have := (List.getElem?_eq_some_iff.mp hp).1
  simpa using this

theorem invariant_created (creation : Creation) :
    Invariant ⟨{ beginning.shared with creation := creation }, [.returned]⟩ where
  begun := rfl
  ended := ⟨0, _, owner_constructed _ rfl, rfl⟩
  locals := by simp [Local]
  closed i o ho hclosing := by
    have hin : o ∈ [Object.constructed .active true] := List.mem_of_getElem? ho
    rw [List.mem_singleton] at hin
    simp [hin, Object.constructed] at hclosing
  retired i o ho hdestroyed := by
    have hin : o ∈ [Object.constructed .active true] := List.mem_of_getElem? ho
    rw [List.mem_singleton] at hin
    simp [hin, Object.constructed] at hdestroyed
  sorted := ⟨[beginEntry], [], rfl, by simp [beginEntry, Op.command, Command.isTerminator],
    by simp⟩

theorem Invariant.reachable {c : Config Shared Thread} (h : settledRuns.Reachable c) :
    c = start ∨ c = beginning ∨ Invariant c := by
  apply h.induct
  · intro s hs
    exact .inl hs
  · intro s s' _ hs hstep
    obtain ⟨hstep, hsettled⟩ := hstep
    obtain rfl | rfl | hs := hs
    · obtain ⟨sh', t', hact, rfl⟩ | ⟨sh', t', hspawn, rfl⟩ := Interleave.of_single hstep
      · cases hact
        exact .inr (.inl rfl)
      · cases hspawn <;> simp_all [start]
    · right
      right
      obtain ⟨sh', t', hact, rfl⟩ | ⟨sh', t', hspawn, rfl⟩ := Interleave.of_single hstep
      · cases hact <;> exact invariant_created _
      · cases hspawn <;> simp_all [start, Shared.enqueue]
    · right
      right
      cases hstep with
      | act pre post hact => exact hs.act hact hsettled
      | spawn ts hspawn => exact hs.spawn hspawn hsettled

theorem Object.ended_le (o : Object) : o.ended ≤ 1 := by
  unfold ended
  split_ifs <;> omega

theorem sends_le_on {s : Shared} {ts : List Thread} (hts : ∀ t ∈ ts, Local s t) {k : ℕ} {o : Object}
    (hk : Owner s k o) : total Thread.sends ts ≤ total (Thread.on k) ts := by
  induction ts with
  | nil => exact Nat.le_refl _
  | cons t ts ih =>
    have hrest := ih fun u hu => hts u (List.mem_cons_of_mem _ hu)
    have ht : t.sends ≤ t.on k := by
      cases t with
      | sending i call op =>
        obtain ⟨p, hp, -, hexecutor, -⟩ := hts _ List.mem_cons_self
        obtain ⟨rfl, -⟩ := hk.unique hp hexecutor
        simp [Thread.sends, Thread.on, Thread.object]
      | _ => exact Nat.zero_le _
    rw [total_cons, total_cons]
    omega

/-- With all objects destroyed, the transaction has been ended. -/
theorem Invariant.exactlyOne {c : Config Shared Thread} (hc : Invariant c)
    (hall : ∀ o ∈ c.shared.objects, o.destroyed = true) : terminators c.shared.queue = 1 := by
  obtain ⟨k, o, hk, hended⟩ := hc.ended
  have hdestroyed := hall o (List.mem_of_getElem? hk.1)
  obtain ⟨hclosing, hstate⟩ := hc.retired k o hk.1 hdestroyed
  have hcount := hc.closed k o hk.1 hclosing
  rw [if_pos hdestroyed] at hcount
  have hsends := sends_le_on hc.locals hk
  rw [Object.ended, if_neg (hstate hk.2.1)] at hended
  omega

theorem Invariant.protocol {c : Config Shared Thread} (hc : Invariant c)
    (h : system.Reachable c) : Protocol c where
  beginFirst := hc.begun
  atMostOne := by
    obtain ⟨k, o, -, hended⟩ := hc.ended
    have := o.ended_le
    omega
  exactlyOne := hc.exactlyOne
  statementsFirst := hc.sorted
  refusedSilent := refused_silent h
  refusedAnswered := refused_answered h

theorem StateKept.trans {s₁ s₂ s₃ : Shared} (h₁₂ : StateKept s₁ s₂) (h₂₃ : StateKept s₂ s₃) :
    StateKept s₁ s₃ := by
  intro i o ho hstate
  obtain ⟨o₂, ho₂, hstate₂⟩ := h₁₂ i o ho hstate
  obtain ⟨o₃, ho₃, hstate₃⟩ := h₂₃ i o₂ ho₂ (hstate₂ ▸ hstate)
  exact ⟨o₃, ho₃, hstate₃.trans hstate₂⟩

theorem stateKept_setObject {s : Shared} {j : ℕ} {p : Object} (p' : Object)
    (hp : s.objects[j]? = some p) (hstate : p'.state = p.state) :
    StateKept s (s.setObject j p') := by
  intro i o ho _
  by_cases hij : j = i
  · subst hij
    obtain rfl : p = o := Option.some.inj (hp.symm.trans ho)
    exact ⟨p', getElem?_setObject_self hp, hstate⟩
  · refine ⟨o, ?_, rfl⟩
    rw [Shared.setObject, List.getElem?_set_ne hij]
    exact ho

theorem stateKept_step {c c' : Config Shared Thread} (h : system.step c c') :
    StateKept c.shared c'.shared := by
  cases h with
  | act pre post h =>
    intro i o ho hstate
    obtain ⟨o', ho', -, hkept, -⟩ := h.evolvesAt i o ho
    exact ⟨o', ho', hkept hstate⟩
  | spawn ts h =>
    intro i o ho hstate
    cases h with
    | call => exact ⟨o, ho, rfl⟩
    | @move j p hcreated hp =>
      exact stateKept_setObject { p with moving := true } hp rfl i o ho hstate
    | @destroy j p hcreated hp =>
      exact stateKept_setObject { p with closing := true } hp rfl i o ho hstate

/-- Once an object is not active, its state never changes. -/
theorem stateKept_run {c c' : Config Shared Thread} (h : system.Run c c') :
    StateKept c.shared c'.shared := by
  induction h with
  | refl => exact fun i o ho _ => ⟨o, ho, rfl⟩
  | tail _ hstep ih => exact ih.trans (stateKept_step hstep)

/-- A transaction that `create_transaction` has returned keeps to the protocol when no move
construction takes the executor from under a call. -/
theorem protocol_of_settledRuns (c c' : Config Shared Thread) (h : settledRuns.Reachable c)
    (hcreated : c.shared.creation = .returned) (hrun : settledRuns.Run c c') :
    Protocol c ∧ StateKept c.shared c'.shared := by
  refine ⟨?_, stateKept_run (TransitionSystem.Run.of_guarded hrun)⟩
  obtain rfl | rfl | hc := Invariant.reachable h
  · simp [start] at hcreated
  · simp [beginning, start, Shared.enqueue] at hcreated
  · exact hc.protocol h.of_guarded

/-- A transaction that was created, with these objects, commands and number of calls. -/
def afterCreation (objects : List Object) (queue : List Entry) (nextCall : ℕ) : Shared where
  creation := .returned
  objects := objects
  queue := queue
  refused := []
  answers := []
  nextCall := nextCall

/-- A step that leaves the executors where they are is in a settled run. -/
theorem settled_of_map_eq {c c' : Config Shared Thread}
    (h : c'.shared.objects.map Object.executor = c.shared.objects.map Object.executor) :
    ∀ i, TakesExecutor c.shared c'.shared i →
      ∀ t ∈ c.threads, ¬ t.NeedsExecutor c.shared i := by
  rintro i ⟨o, o', ho, ho', htrue, hfalse⟩
  have hget := congrArg (fun l => l[i]?) h
  simp [ho, ho', htrue, hfalse] at hget

theorem commit_begins (ts : List Thread) :
    Spawn (afterCreation [⟨.active, true, false, false, false⟩] [beginEntry] 1) ts
      (afterCreation [⟨.active, true, false, false, false⟩] [beginEntry] 2) (.start 0 1 .commit) :=
  .call (o := ⟨.active, true, false, false, false⟩) rfl rfl rfl rfl nofun

theorem commit_terminates :
    Act (afterCreation [⟨.active, true, false, false, false⟩] [beginEntry] 2) (.start 0 1 .commit)
      (afterCreation [⟨.commit, true, false, false, false⟩] [beginEntry] 2)
      (.sending 0 1 .commit) :=
  .terminate (o := ⟨.active, true, false, false, false⟩) rfl (.inl rfl) rfl

theorem commit_moves :
    Act (afterCreation [⟨.commit, true, true, false, false⟩] [beginEntry] 2) (.moving 0)
      (afterCreation [⟨.commit, false, true, false, false⟩, ⟨.commit, true, false, false, false⟩]
        [beginEntry] 2) .returned :=
  .move (o := ⟨.commit, true, true, false, false⟩) rfl

theorem destroy_begins {objects : List Object} {queue : List Entry} {nextCall i : ℕ} {o : Object}
    (ts : List Thread) (ho : objects[i]? = some o) (hopen : o.closing = false)
    (hidle : ∀ t ∈ ts, t.object ≠ some i) :
    Spawn (afterCreation objects queue nextCall) ts
      (afterCreation (objects.set i { o with closing := true }) queue (nextCall + 1))
      (.start i nextCall .destroy) :=
  .destroy (by simp [afterCreation]) ho hopen hidle

theorem destroy_leaves {objects : List Object} {queue : List Entry} {nextCall i call : ℕ}
    {o : Object} (ho : objects[i]? = some o) (hstate : o.state ≠ .active) :
    Act (afterCreation objects queue nextCall) (.start i call .destroy)
      (afterCreation (objects.set i { o with destroyed := true }) queue nextCall) .returned :=
  .destroyOnly ho fun h => hstate h.1

theorem settledRuns_created : settledRuns.Reachable
    ⟨afterCreation [⟨.active, true, false, false, false⟩] [beginEntry] 1, [.returned]⟩ := by
  have h₀ : settledRuns.Reachable start := .of_init rfl
  have h₁ := h₀.next ⟨.act [] [] .create, settled_of_map_eq (by rfl)⟩
  exact h₁.next ⟨.act [] [] .created, settled_of_map_eq (by rfl)⟩

/-- A transaction that is created, committed and destroyed. -/
theorem protocol_committed :
    Protocol ⟨afterCreation [⟨.commit, true, false, true, true⟩]
      [beginEntry, ⟨1, Op.commit.command⟩] 3, [.returned, .returned, .returned]⟩ := by
  have h₁ := settledRuns_created.next
    ⟨.spawn _ (commit_begins _), settled_of_map_eq (by rfl)⟩
  have h₂ : settledRuns.Reachable ⟨afterCreation [⟨.commit, true, false, false, false⟩]
      [beginEntry] 2, [.returned, .sending 0 1 .commit]⟩ :=
    h₁.next ⟨.act [_] [] commit_terminates, settled_of_map_eq (by rfl)⟩
  have h₃ := h₂.next ⟨.act [_] [] (.send rfl rfl),
    settled_of_map_eq (by rfl)⟩
  have h₄ : settledRuns.Reachable ⟨afterCreation [⟨.commit, true, false, false, false⟩]
      [beginEntry, ⟨1, Op.commit.command⟩] 2, [.returned, .returned]⟩ :=
    h₃.next ⟨.act [_] [] (.answered (by simp)), settled_of_map_eq (by rfl)⟩
  have h₅ : settledRuns.Reachable ⟨afterCreation [⟨.commit, true, false, true, false⟩]
      [beginEntry, ⟨1, Op.commit.command⟩] 3, [.returned, .returned, .start 0 2 .destroy]⟩ :=
    h₄.next ⟨.spawn _ (destroy_begins (i := 0) [.returned, .returned]
      (o := ⟨.commit, true, false, false, false⟩) rfl rfl (by simp [Thread.object])),
      settled_of_map_eq (by rfl)⟩
  have h₆ : settledRuns.Reachable ⟨afterCreation [⟨.commit, true, false, true, true⟩]
      [beginEntry, ⟨1, Op.commit.command⟩] 3, [.returned, .returned, .returned]⟩ :=
    h₅.next ⟨.act [_, _] [] (destroy_leaves (o := ⟨.commit, true, false, true, false⟩)
      rfl (by simp)),
      settled_of_map_eq (by rfl)⟩
  exact (protocol_of_settledRuns _ _ h₆ rfl .refl).1

/-- A move construction between the state change of `commit` and its command leaves a transaction
that nobody ends. -/
theorem move_loses_commit :
    ¬ ∀ c, system.Reachable c → c.shared.creation = .returned → Protocol c := by
  have h₁ := settledRuns_created.of_guarded.next
    (.spawn _ (commit_begins _))
  have h₂ : system.Reachable ⟨afterCreation [⟨.commit, true, false, false, false⟩]
      [beginEntry] 2, [.returned, .sending 0 1 .commit]⟩ :=
    h₁.next (.act [_] [] commit_terminates)
  -- the move construction, in the window
  have h₃ := h₂.next (.spawn _ (.move (i := 0) rfl rfl rfl rfl rfl))
  have h₄ : system.Reachable ⟨afterCreation [⟨.commit, false, true, false, false⟩,
      ⟨.commit, true, false, false, false⟩] [beginEntry] 2,
      [.returned, .sending 0 1 .commit, .returned]⟩ :=
    h₃.next (.act [_, _] [] commit_moves)
  -- `commit` finds no executor
  have h₅ : system.Reachable ⟨afterCreation [⟨.commit, false, true, false, false⟩,
      ⟨.commit, true, false, false, false⟩] [beginEntry] 2, [.returned, .returned, .returned]⟩ :=
    h₄.next (.act [_] [_] (.sendNull rfl rfl))
  -- both objects are destroyed
  have h₆ : system.Reachable ⟨afterCreation [⟨.commit, false, true, true, false⟩,
      ⟨.commit, true, false, false, false⟩] [beginEntry] 3,
      [.returned, .returned, .returned, .start 0 2 .destroy]⟩ :=
    h₅.next (.spawn _ (destroy_begins (i := 0) [.returned, .returned, .returned]
      (o := ⟨.commit, false, true, false, false⟩) rfl rfl (by simp [Thread.object])))
  have h₇ : system.Reachable ⟨afterCreation [⟨.commit, false, true, true, true⟩,
      ⟨.commit, true, false, false, false⟩] [beginEntry] 3,
      [.returned, .returned, .returned, .returned]⟩ :=
    h₆.next (.act [_, _, _] [] (destroy_leaves (o := ⟨.commit, false, true, true, false⟩)
      rfl (by simp)))
  have h₈ : system.Reachable ⟨afterCreation [⟨.commit, false, true, true, true⟩,
      ⟨.commit, true, false, true, false⟩] [beginEntry] 4,
      [.returned, .returned, .returned, .returned, .start 1 3 .destroy]⟩ :=
    h₇.next (.spawn _ (destroy_begins (i := 1)
      [.returned, .returned, .returned, .returned]
      (o := ⟨.commit, true, false, false, false⟩) rfl rfl (by simp [Thread.object])))
  have h₉ : system.Reachable ⟨afterCreation [⟨.commit, false, true, true, true⟩,
      ⟨.commit, true, false, true, true⟩] [beginEntry] 4,
      [.returned, .returned, .returned, .returned, .returned]⟩ :=
    h₈.next (.act [_, _, _, _] [] (destroy_leaves (o := ⟨.commit, true, false, true, false⟩)
      rfl (by simp)))
  intro hall
  have hended := (hall _ h₉ rfl).exactlyOne (by simp [afterCreation])
  simp [afterCreation, terminators, beginEntry, Op.command, Command.isTerminator] at hended

end PostgresLib.Transaction
