import PostgresLib.Foundations.Completion
import PostgresLib.Pool.Managers
import PostgresLib.Pool.Warmup

/-! # The life of a pool, to the end of its threads

A pool lives as long as there are handles of it: those of the application, one in the
releaser of every manager, and those of the calls in progress. Its own threads have
none. They are joined by `wait_for_warmup` or by the destructor, which stops one after
the other and waits for it.
-/

namespace PostgresLib.Pool

open Foundations

variable {κ : Type} (cfg : PoolConfig)

/-- A thread of `m_threads`, and whether its stop was requested. -/
structure Filler (κ : Type) where
  thread : Thread κ
  stop : Bool

/-- A call of `wait_for_warmup`: it waits for the flag, and then for one thread after the other. -/
inductive WarmupWait where
  | none
  | waiting
  | joining (joined : ℕ)
  deriving DecidableEq

/-- The destructor, with the number of the threads that it has joined. -/
inductive PoolDestructor where
  | uncalled
  | stopping (joined : ℕ)
  | joining (joined : ℕ)
  | finished
  deriving DecidableEq

/-- The members of the pool, its threads, the calls of `acquire` and of releasers, the handles of
the application, and what the factory has created and what was destroyed of it. -/
structure Lifetime (κ : Type) where
  shared : Shared κ
  fillers : List (Filler κ)
  calls : List (Thread κ)
  handles : ℕ
  warmup : WarmupWait
  destructor : PoolDestructor
  created : List κ
  destroyed : List κ

/-- The handles of the pool: a manager has one, and so has a call in progress. -/
def Lifetime.refs (p : Lifetime κ) : ℕ :=
  p.handles + p.shared.held.length + p.calls.length + if p.warmup = .none then 0 else 1

/-- A thread of the pool takes a step. The flag that it reads is its own. -/
inductive FillerStep (stop : Bool) : Lifetime κ → Lifetime κ → Prop
  | act {p s' t t'} (front back : List (Filler κ)) (hf : p.fillers = front ++ ⟨t, stop⟩ :: back)
      (h : Act cfg { p.shared with stopRequested := stop } t s' t') :
      FillerStep stop p
        { p with
          shared := s'
          fillers := front ++ ⟨t', stop⟩ :: back
          created := p.created ++ t.produces t' }

inductive ClientStep : Lifetime κ → Lifetime κ → Prop
  | act {p s' t t'} (front back : List (Thread κ)) (hc : p.calls = front ++ t :: back)
      (h : Act cfg p.shared t s' t') :
      ClientStep p
        { p with
          shared := s'
          calls := front ++ t' :: back
          created := p.created ++ t.produces t' }
  | callEnds {p t} (front back : List (Thread κ)) (hc : p.calls = front ++ t :: back)
      (h : t.finished = true) : ClientStep p { p with calls := front ++ back }
  | acquire {p} (h : 0 < p.handles) : ClientStep p { p with calls := p.calls ++ [.acquireTest] }
  | copyHandle {p} (h : 0 < p.handles) : ClientStep p { p with handles := p.handles + 1 }
  | dropHandle {p} {n : ℕ} (h : p.handles = n + 1) : ClientStep p { p with handles := n }
  -- the destructor of a manager calls its releaser, and then lets go of it
  | destroyManager {p} {front back : List κ} {c : κ} (h : p.shared.held = front ++ c :: back) :
      ClientStep p
        { p with
          shared := { p.shared with held := front ++ back }
          calls := p.calls ++ [.releasePush c] }
  -- the move assignment to a manager does not
  | overwriteManager {p} {front back : List κ} {c : κ} (h : p.shared.held = front ++ c :: back) :
      ClientStep p
        { p with
          shared := { p.shared with held := front ++ back }
          destroyed := p.destroyed ++ [c] }
  | waitForWarmup {p} (h : 0 < p.handles) (hnone : p.warmup = .none) :
      ClientStep p { p with warmup := .waiting }
  | warmupReady {p} (h : p.warmup = .waiting) (hready : p.shared.poolReady = true) :
      ClientStep p { p with warmup := .joining 0 }
  | warmupJoin {p f} {i : ℕ} (h : p.warmup = .joining i) (hf : p.fillers[i]? = some f)
      (hfinished : f.thread.finished = true) : ClientStep p { p with warmup := .joining (i + 1) }
  | warmupClear {p} (h : p.warmup = .joining p.fillers.length) :
      ClientStep p { p with warmup := .none, fillers := [] }

/-- The destructor begins when the last handle is gone. -/
inductive PoolDestructorStep : Lifetime κ → Lifetime κ → Prop
  | delete {p} (h : p.destructor = .uncalled) (hrefs : p.refs = 0) :
      PoolDestructorStep p { p with destructor := .stopping 0 }
  | requestStop {p f} {i : ℕ} (h : p.destructor = .stopping i) (hf : p.fillers[i]? = some f) :
      PoolDestructorStep p
        { p with
          destructor := .joining i
          fillers := p.fillers.set i { f with stop := true } }
  | join {p f} {i : ℕ} (h : p.destructor = .joining i) (hf : p.fillers[i]? = some f)
      (hfinished : f.thread.finished = true) :
      PoolDestructorStep p { p with destructor := .stopping (i + 1) }
  -- the idle connections are destroyed with the queue
  | destroyMembers {p} (h : p.destructor = .stopping p.fillers.length) :
      PoolDestructorStep p
        { p with
          destructor := .finished
          shared := { p.shared with connections := [] }
          destroyed := p.destroyed ++ p.shared.connections }

inductive LifetimeStep : Lifetime κ → Lifetime κ → Prop
  | filler {p p'} (stop : Bool) (h : FillerStep cfg stop p p') : LifetimeStep p p'
  | client {p p'} (h : ClientStep cfg p p') : LifetimeStep p p'
  | destructor {p p'} (h : PoolDestructorStep p p') : LifetimeStep p p'

/-- What `make_intrusive` returns. -/
def Lifetime.born : Lifetime κ where
  shared := (start cfg).shared
  fillers := (start cfg).threads.map fun t => ⟨t, false⟩
  calls := []
  handles := 1
  warmup := .none
  destructor := .uncalled
  created := []
  destroyed := []

def lifetimes : TransitionSystem (Lifetime κ) where
  init p := p = .born cfg
  step := LifetimeStep cfg

/-- The destructor goes on, or a thread that it has told to stop. -/
def TearsDown (p p' : Lifetime κ) : Prop :=
  PoolDestructorStep p p' ∨ FillerStep cfg true p p'

/-! ## What the threads of the pool do -/

variable {cfg} {p p' : Lifetime κ} {s s' : Shared κ} {t t' : Thread κ}

/-- A thread of the pool goes on with `fill_pool` or has returned, and it hands nothing out. -/
theorem act_fills (h : Act cfg s t s' t') (ht : t.fills = true) :
    (t'.fills = true ∨ t' = .returned) ∧ s'.held = s.held ∧ t.finished = false := by
  cases h with
  | fillRelease isFull => cases isFull <;> exact ⟨by simp [Thread.fills], rfl, rfl⟩
  | acquireIdle | acquireNoneIdle | acquireLate | acquireInTime | acquireGranted => cases ht
  | acquireTimedOut | acquireReturned | acquireCallFactory | acquireGiveBack => cases ht
  | acquireCreated | acquireNotCreated | acquireReturnPermit | acquireWrap => cases ht
  | releasePush | releasePermit | destroy => cases ht
  | fillStopped | fillNoPermit | fillExpanded | fillGrow => exact ⟨.inr rfl, rfl, rfl⟩
  | _ => exact ⟨.inl rfl, rfl, rfl⟩

theorem not_act_of_finished (ht : t.finished = true) : ¬ Act cfg s t s' t' := by
  intro h
  cases h <;> cases ht

theorem map_stop_act {front back : List (Filler κ)} {stop : Bool} :
    (front ++ ⟨t', stop⟩ :: back).map Filler.stop =
      (front ++ ⟨t, stop⟩ :: back).map Filler.stop := by
  simp only [List.map_append, List.map_cons]

/-- The threads that were joined are not the one that acts. -/
theorem take_act {front back : List (Filler κ)} {stop : Bool} {i : ℕ} (ht : t.finished = false)
    (hjoined : ∀ f ∈ (front ++ ⟨t, stop⟩ :: back).take i, f.thread = .returned) :
    ∀ f ∈ (front ++ ⟨t', stop⟩ :: back).take i, f.thread = .returned := by
  by_cases hi : i ≤ front.length
  · rw [List.take_append_of_le_length hi] at hjoined ⊢
    exact hjoined
  · have hmem : (⟨t, stop⟩ : Filler κ) ∈ (front ++ ⟨t, stop⟩ :: back).take i := by
      obtain ⟨k, hk⟩ : ∃ k, i - front.length = k + 1 := ⟨i - front.length - 1, by omega⟩
      rw [List.take_append, hk]
      exact List.mem_append_right _ List.mem_cons_self
    have hreturned : t = .returned := hjoined _ hmem
    rw [hreturned] at ht
    cases ht

/-! ## Every moment of a life -/

/-- What the threads of the pool hold, and what the calls hold. -/
def Lifetime.carried [DecidableEq κ] (p : Lifetime κ) (a : κ) : ℕ :=
  total (fun f => f.thread.holds.count a) p.fillers + total (fun t => t.holds.count a) p.calls

/-- The threads of the pool run `fill_pool`; those that were joined have returned; and every
connection is somewhere, or was destroyed. Once the destructor runs, there is no handle. -/
structure Kept [DecidableEq κ] (p : Lifetime κ) : Prop where
  threads : ∀ f ∈ p.fillers, f.thread.fills = true ∨ f.thread = .returned
  unused : p.destructor ≠ .uncalled → p.refs = 0
  stopping : ∀ i, p.destructor = .stopping i → i ≤ p.fillers.length ∧
    ∀ f ∈ p.fillers.take i, f.thread = .returned
  joining : ∀ i, p.destructor = .joining i → (p.fillers.map Filler.stop)[i]? = some true ∧
    ∀ f ∈ p.fillers.take i, f.thread = .returned
  finished : p.destructor = .finished →
    (∀ f ∈ p.fillers, f.thread = .returned) ∧ p.shared.connections = []
  warm : ∀ i, p.warmup = .joining i → ∀ f ∈ p.fillers.take i, f.thread = .returned
  booked : ∀ a, p.created.count a =
    p.shared.connections.count a + p.carried a + p.shared.held.count a + p.destroyed.count a

variable [DecidableEq κ]

theorem kept_born : Kept (.born cfg : Lifetime κ) where
  threads := by
    unfold Lifetime.born start
    split_ifs
    · intro f hf
      simp only [List.map_replicate, List.mem_replicate] at hf
      rw [hf.2]
      exact .inl rfl
    · exact nofun
  unused := fun h => absurd rfl h
  stopping := nofun
  joining := nofun
  finished := nofun
  warm := nofun
  booked := by
    intro a
    unfold Lifetime.born start Lifetime.carried
    split_ifs <;> simp [Thread.holds]

theorem kept_filler {stop : Bool} (hp : Kept p) (h : FillerStep cfg stop p p') : Kept p' := by
  cases h with
  | @act s' t t' front back hf h =>
    have hmem : (⟨t, stop⟩ : Filler κ) ∈ p.fillers :=
      hf ▸ List.mem_append_right _ List.mem_cons_self
    have hfills : t.fills = true := by
      rcases hp.threads _ hmem with hfills | hreturned
      · exact hfills
      · exact absurd h (not_act_of_finished (by rw [show t = .returned from hreturned]; rfl))
    rcases act_fills h hfills with ⟨hnext, hheld, hrunning⟩
    have htake : ∀ i, (∀ f ∈ p.fillers.take i, f.thread = .returned) →
        ∀ f ∈ (front ++ ⟨t', stop⟩ :: back).take i, f.thread = .returned := by
      intro i hjoined
      rw [hf] at hjoined
      exact take_act hrunning hjoined
    have hlength : (front ++ ⟨t', stop⟩ :: back).length = p.fillers.length := by
      simp only [hf, List.length_append, List.length_cons]
    exact {
      threads := by
        intro f hmem'
        rcases List.mem_append.mp hmem' with hold | hnew
        · exact hp.threads f (hf ▸ List.mem_append_left _ hold)
        · rcases List.mem_cons.mp hnew with rfl | hold
          · exact hnext
          · exact hp.threads f (hf ▸ List.mem_append_right _ (List.mem_cons_of_mem _ hold))
      unused := by
        intro hcalled
        have hrefs := hp.unused hcalled
        simpa only [Lifetime.refs, hheld] using hrefs
      stopping := fun i hi => ⟨hlength ▸ (hp.stopping i hi).1, htake i (hp.stopping i hi).2⟩
      joining := by
        intro i hi
        rcases hp.joining i hi with ⟨hstop, hjoined⟩
        rw [hf] at hstop
        exact ⟨by rw [map_stop_act (t := t)]; exact hstop, htake i hjoined⟩
      finished := by
        intro hi
        have hreturned : t = .returned := (hp.finished hi).1 _ hmem
        rw [hreturned] at hrunning
        cases hrunning
      warm := fun i hi => htake i (hp.warm i hi)
      booked := by
        intro a
        have hbooked := hp.booked a
        have hact : s'.connections.count a + t'.holds.count a + t.wraps.count a =
              p.shared.connections.count a + t.holds.count a + (t.produces t').count a ∧
            s'.held.count a = p.shared.held.count a + t.wraps.count a := act_connections cfg h a
        have hsame : s'.held = p.shared.held := hheld
        rw [hsame] at hact
        simp only [Lifetime.carried, hf, total_append, total_cons] at hbooked ⊢
        simp only [List.count_append, hsame]
        omega }

omit [DecidableEq κ] in
/-- The application does nothing with a pool that it has no handle of. -/
theorem refs_pos_of_client (h : ClientStep cfg p p') : 0 < p.refs := by
  unfold Lifetime.refs
  cases h with
  | act front back hc | callEnds front back hc =>
    rw [hc, List.length_append, List.length_cons]
    omega
  | acquire h | copyHandle h | waitForWarmup h => omega
  | dropHandle h => omega
  | destroyManager h | overwriteManager h =>
    rw [h, List.length_append, List.length_cons]
    omega
  | warmupReady h | warmupJoin h | warmupClear h =>
    rw [h]
    simp

omit [DecidableEq κ] in
theorem take_joined {fillers : List (Filler κ)} {f : Filler κ} {i : ℕ}
    (hthreads : ∀ f ∈ fillers, f.thread.fills = true ∨ f.thread = .returned)
    (hf : fillers[i]? = some f) (hfinished : f.thread.finished = true)
    (hjoined : ∀ g ∈ fillers.take i, g.thread = .returned) :
    ∀ g ∈ fillers.take (i + 1), g.thread = .returned := by
  intro g hg
  rw [List.take_add_one, hf, List.mem_append] at hg
  rcases hg with hold | hnew
  · exact hjoined g hold
  · cases List.mem_singleton.mp hnew
    rcases hthreads f (List.mem_of_getElem? hf) with hfills | hreturned
    · cases hthread : f.thread <;> rw [hthread] at hfills hfinished <;> cases hfills <;>
        cases hfinished
    · exact hreturned

theorem kept_client (hp : Kept p) (h : ClientStep cfg p p') : Kept p' := by
  have hpos := refs_pos_of_client h
  have huncalled : p.destructor = .uncalled := by
    by_contra hcalled
    exact absurd (hp.unused hcalled) (Nat.ne_of_gt hpos)
  have hsame : p'.destructor = p.destructor := by
    cases h <;> rfl
  have hnone : ∀ d, d ≠ .uncalled → p'.destructor ≠ d := by
    rintro d hd rfl
    exact hd (hsame.trans huncalled)
  have hfillers : p'.fillers = p.fillers ∨ p'.fillers = [] := by
    cases h with
    | warmupClear => exact .inr rfl
    | _ => exact .inl rfl
  exact {
    threads := by
      intro f hf
      rcases hfillers with heq | heq
      · exact hp.threads f (heq ▸ hf)
      · rw [heq] at hf
        cases hf
    unused := fun hcalled => absurd (hsame.trans huncalled) hcalled
    stopping := fun i hi => absurd hi (hnone _ nofun)
    joining := fun i hi => absurd hi (hnone _ nofun)
    finished := fun hi => absurd hi (hnone _ nofun)
    warm := by
      intro i hi
      cases h with
      | @warmupJoin f j h hf hfinished =>
        cases hi
        exact take_joined hp.threads hf hfinished (hp.warm j h)
      | waitForWarmup | warmupReady | warmupClear => cases hi <;> exact nofun
      | _ => exact hp.warm i hi
    booked := by
      intro a
      have hbooked := hp.booked a
      cases h with
      | act front back hc h =>
        have hact := act_connections cfg h a
        simp only [Lifetime.carried, hc, total_append, total_cons] at hbooked ⊢
        simp only [List.count_append]
        omega
      | @callEnds t front back hc h =>
        have hholds : t.holds = [] := by
          cases t <;> first | rfl | cases h
        simp only [Lifetime.carried, hc, total_append, total_cons, hholds, List.count_nil]
          at hbooked ⊢
        omega
      | acquire h => simpa [Lifetime.carried, Thread.holds] using hbooked
      | destroyManager h =>
        simp only [Lifetime.carried, h, total_append, total_cons, total_nil, Thread.holds,
          List.count_append, List.count_cons, List.count_nil] at hbooked ⊢
        omega
      | overwriteManager h =>
        simp only [Lifetime.carried, h, List.count_append, List.count_cons, List.count_nil]
          at hbooked ⊢
        omega
      | warmupClear h =>
        have hreturned := hp.warm _ h
        rw [List.take_length] at hreturned
        have hholds : total (fun f => f.thread.holds.count a) p.fillers = 0 := by
          apply total_eq_zero
          intro f hf
          rw [hreturned f hf]
          rfl
        simp only [Lifetime.carried, hholds, total_nil] at hbooked ⊢
        exact hbooked
      | _ => exact hbooked }

theorem kept_destructor (hp : Kept p) (h : PoolDestructorStep p p') : Kept p' := by
  cases h with
  | delete h hrefs =>
    have hnone : p.warmup = .none := by
      by_contra hwaits
      rw [Lifetime.refs, if_neg hwaits] at hrefs
      omega
    exact {
      hp with
      unused := fun _ => hrefs
      stopping := by
        rintro i ⟨⟩
        exact ⟨Nat.zero_le _, nofun⟩
      joining := nofun
      finished := nofun
      warm := by
        intro i hi
        rw [hnone] at hi
        cases hi }
  | @requestStop f i h hf =>
    rcases hp.stopping i h with ⟨hle, hjoined⟩
    have hless : i < p.fillers.length := (List.getElem?_eq_some_iff.mp hf).1
    have htake : ∀ {j}, (∀ g ∈ p.fillers.take j, g.thread = .returned) →
        ∀ g ∈ (p.fillers.set i { f with stop := true }).take j, g.thread = .returned := by
      intro j hreturned g hg
      by_cases hji : j ≤ i
      · rw [List.take_set_of_le hji] at hg
        exact hreturned g hg
      · rw [List.take_set] at hg
        rcases List.mem_or_eq_of_mem_set hg with hold | rfl
        · exact hreturned g hold
        · refine hreturned f (List.mem_take_iff_getElem.mpr ⟨i, ?_, ?_⟩)
          · omega
          · exact (List.getElem?_eq_some_iff.mp hf).2
    exact {
      threads := by
        intro g hg
        rcases List.mem_or_eq_of_mem_set hg with hold | rfl
        · exact hp.threads g hold
        · exact hp.threads f (List.mem_of_getElem? hf)
      unused := fun _ => hp.unused (by rw [h]; exact nofun)
      stopping := nofun
      joining := by
        rintro j ⟨⟩
        refine ⟨?_, htake hjoined⟩
        rw [List.map_set, List.getElem?_set_self (by rwa [List.length_map])]
      finished := nofun
      warm := fun j hj => htake (hp.warm j hj)
      booked := by
        intro a
        have hbooked := hp.booked a
        have hset := total_set (w := fun f : Filler κ => f.thread.holds.count a)
          { f with stop := true } hf
        simp only [Lifetime.carried] at hbooked hset ⊢
        omega }
  | @join f i h hf hfinished =>
    rcases hp.joining i h with ⟨-, hjoined⟩
    have hless : i < p.fillers.length := (List.getElem?_eq_some_iff.mp hf).1
    exact {
      hp with
      unused := fun _ => hp.unused (by rw [h]; exact nofun)
      stopping := by
        rintro j ⟨⟩
        exact ⟨hless, take_joined hp.threads hf hfinished hjoined⟩
      joining := nofun
      finished := nofun }
  | destroyMembers h =>
    have hreturned := (hp.stopping _ h).2
    rw [List.take_length] at hreturned
    exact {
      hp with
      unused := fun _ => hp.unused (by rw [h]; exact nofun)
      stopping := nofun
      joining := nofun
      finished := fun _ => ⟨hreturned, rfl⟩
      booked := by
        intro a
        have hbooked := hp.booked a
        simp only [Lifetime.carried, List.count_append, List.count_nil] at hbooked ⊢
        omega }

theorem kept_step (hp : Kept p) (h : LifetimeStep cfg p p') : Kept p' := by
  cases h with
  | filler stop h => exact kept_filler hp h
  | client h => exact kept_client hp h
  | destructor h => exact kept_destructor hp h

theorem kept_of_reachable (h : (lifetimes cfg).Reachable p) : Kept p := by
  apply h.induct
  · rintro p rfl
    exact kept_born
  · intro p p' _ hp hstep
    exact kept_step hp hstep

/-! ## The end of a pool -/

/-- The steps that are left of `fill_pool` once its thread was told to stop. -/
def Thread.left : Thread κ → ℕ
  | fillTry => 8
  | fillGranted => 7
  | fillCreate => 6
  | fillPush _ => 5
  | fillRelease _ => 4
  | fillFailed | fillAnnounce => 3
  | fillSleep | fillExpand => 2
  | fillTest | fillGrow => 1
  | _ => 0

/-- A thread that was not told to stop may have all of them before it. -/
def Filler.left (f : Filler κ) : ℕ :=
  if f.stop then f.thread.left else 8

def PoolDestructor.left (threads : ℕ) : PoolDestructor → ℕ
  | uncalled => 2 * threads + 2
  | stopping i => 2 * (threads - i) + 1
  | joining i => 2 * (threads - i)
  | finished => 0

/-- The steps that are left of the destructor and of the threads it waits for. -/
def Lifetime.left (p : Lifetime κ) : ℕ :=
  p.destructor.left p.fillers.length + total Filler.left p.fillers

omit [DecidableEq κ] in
theorem Thread.left_le (t : Thread κ) : t.left ≤ 8 := by
  cases t <;> simp [left]

omit [DecidableEq κ] in
/-- Told to stop, `fill_pool` comes nearer to its end with every step. -/
theorem left_act (h : Act cfg s t s' t') (ht : t.fills = true) (hstop : s.stopRequested = true) :
    t'.left < t.left := by
  cases h with
  | fillGoOn h =>
    rw [hstop] at h
    cases h
  | fillRelease isFull => cases isFull <;> simp [Thread.left]
  | acquireIdle | acquireNoneIdle | acquireLate | acquireInTime | acquireGranted => cases ht
  | acquireTimedOut | acquireReturned | acquireCallFactory | acquireGiveBack => cases ht
  | acquireCreated | acquireNotCreated | acquireReturnPermit | acquireWrap => cases ht
  | releasePush | releasePermit | destroy => cases ht
  | _ => simp [Thread.left]

omit [DecidableEq κ] in
/-- Nothing that `fill_pool` does waits for another thread. -/
theorem exists_act (ht : t.fills = true) (hstop : s.stopRequested = true) :
    ∃ s' t', Act cfg s t s' t' := by
  cases t with
  | fillTest => exact ⟨_, _, .fillStopped hstop⟩
  | fillTry => exact ⟨_, _, .fillNoPermit⟩
  | fillGranted => exact ⟨_, _, .fillCallFactory⟩
  | fillCreate => exact ⟨_, _, .fillNotCreated⟩
  | fillFailed => exact ⟨_, _, .fillReturnPermit⟩
  | fillSleep => exact ⟨_, _, .fillRetry⟩
  | fillPush c => exact ⟨_, _, .fillPush c⟩
  | fillRelease isFull => exact ⟨_, _, .fillRelease isFull⟩
  | fillAnnounce => exact ⟨_, _, .fillAnnounce⟩
  | fillExpand =>
    by_cases h : cfg.initSize < cfg.maxSize ∧ s.capacityExpanded = false
    · exact ⟨_, _, .fillExpand h⟩
    · exact ⟨_, _, .fillExpanded h⟩
  | fillGrow => exact ⟨_, _, .fillGrow⟩
  | _ => cases ht

/-- Without a handle, nothing is left but the destructor and the threads of the pool. -/
theorem refs_zero (hp : Kept p) (hrefs : p.refs = 0) (h : LifetimeStep cfg p p') : p'.refs = 0 := by
  cases h with
  | filler stop h =>
    cases h with
    | @act s' t t' front back hf h =>
      have hmem : (⟨t, stop⟩ : Filler κ) ∈ p.fillers :=
        hf ▸ List.mem_append_right _ List.mem_cons_self
      rcases hp.threads _ hmem with hfills | hreturned
      · have hheld := (act_fills h hfills).2.1
        simpa only [Lifetime.refs, hheld] using hrefs
      · exact absurd h (not_act_of_finished (by rw [show t = .returned from hreturned]; rfl))
  | client h => exact absurd hrefs (Nat.ne_of_gt (refs_pos_of_client h))
  | destructor h => cases h <;> exact hrefs

theorem left_tearsDown (hp : Kept p) (h : TearsDown cfg p p') : p'.left < p.left := by
  rcases h with h | h
  · cases h with
    | delete h hrefs =>
      simp only [Lifetime.left, h, PoolDestructor.left]
      omega
    | @requestStop f i h hf =>
      have hle := Thread.left_le f.thread
      have hset := total_set (w := Filler.left) { f with stop := true } hf
      have hstop : ({ f with stop := true } : Filler κ).left ≤ f.left := by
        simp only [Filler.left, if_true]
        split_ifs
        · exact Nat.le_refl _
        · exact hle
      simp only [Lifetime.left, h, PoolDestructor.left, List.length_set]
      omega
    | @join f i h hf hfinished =>
      have hless : i < p.fillers.length := (List.getElem?_eq_some_iff.mp hf).1
      simp only [Lifetime.left, h, PoolDestructor.left]
      omega
    | destroyMembers h =>
      simp only [Lifetime.left, h, PoolDestructor.left]
      omega
  · cases h with
    | @act s' t t' front back hf h =>
      have hmem : (⟨t, true⟩ : Filler κ) ∈ p.fillers :=
        hf ▸ List.mem_append_right _ List.mem_cons_self
      rcases hp.threads _ hmem with hfills | hreturned
      · have hless := left_act h hfills rfl
        simp only [Lifetime.left, hf, List.length_append, List.length_cons, total_append,
          total_cons, Filler.left, if_true]
        omega
      · exact absurd h (not_act_of_finished (by rw [show t = .returned from hreturned]; rfl))

omit [DecidableEq κ] in
/-- A thread that was not told to stop leaves everything to be done. -/
theorem left_running (h : FillerStep cfg false p p') : p'.left = p.left := by
  cases h with
  | @act s' t t' front back hf h =>
    simp only [Lifetime.left, hf, List.length_append, List.length_cons, total_append, total_cons,
      Filler.left]
    rfl

theorem exists_tearsDown (hp : Kept p) (hrefs : p.refs = 0) :
    p.destructor = .finished ∨ ∃ p', (lifetimes cfg).step p p' ∧ TearsDown cfg p p' := by
  have hnext : ∀ {p'}, PoolDestructorStep p p' →
      ∃ p', (lifetimes cfg).step p p' ∧ TearsDown cfg p p' :=
    fun h => ⟨_, .destructor h, .inl h⟩
  cases h : p.destructor with
  | uncalled => exact .inr (hnext (.delete h hrefs))
  | finished => exact .inl rfl
  | stopping i =>
    right
    rcases Nat.lt_or_eq_of_le (hp.stopping i h).1 with hless | rfl
    · exact hnext (.requestStop h (List.getElem?_eq_getElem hless))
    · exact hnext (.destroyMembers h)
  | joining i =>
    right
    have hstop := (hp.joining i h).1
    rw [List.getElem?_map, Option.map_eq_some_iff] at hstop
    rcases hstop with ⟨⟨t, stop⟩, hf, rfl⟩
    have hmem := List.mem_of_getElem? hf
    rcases hp.threads _ hmem with hfills | hreturned
    · -- the thread that the destructor waits for can go on
      rcases List.append_of_mem hmem with ⟨front, back, hfillers⟩
      have hgoes : ∃ s' t', Act cfg { p.shared with stopRequested := true } t s' t' :=
        exists_act hfills rfl
      rcases hgoes with ⟨s', t', hact⟩
      have hstep : FillerStep cfg true p _ := .act front back hfillers hact
      exact ⟨_, .filler true hstep, .inr hstep⟩
    · refine hnext (.join h hf ?_)
      rw [hreturned]
      rfl

/-- When the last handle is gone, the destructor is run to its end. -/
theorem tearsDown_of_unused (hp : Kept p) (hrefs : p.refs = 0) :
    (lifetimes cfg).Ensures (TearsDown cfg) p p.left fun p => p.destructor = .finished := by
  apply TransitionSystem.Ensures.of_measure (I := fun p => Kept p ∧ p.refs = 0)
  · rintro p p' ⟨hp, hrefs⟩ h
    exact ⟨kept_step hp h, refs_zero hp hrefs h⟩
  · rintro p p' ⟨hp, -⟩ - h
    exact left_tearsDown hp h
  · rintro p p' ⟨hp, hrefs⟩ h hother
    cases h with
    | filler stop h =>
      cases stop with
      | false => exact Nat.le_of_eq (left_running h)
      | true => exact absurd (.inr h) hother
    | client h => exact absurd hrefs (Nat.ne_of_gt (refs_pos_of_client h))
    | destructor h => exact absurd (.inl h) hother
  · rintro p ⟨hp, hrefs⟩
    exact exists_tearsDown hp hrefs
  · exact ⟨hp, hrefs⟩

theorem quiet_of_finished (hp : Kept p) (h : p.destructor = .finished) :
    (lifetimes cfg).Quiet p := by
  have hrefs : p.refs = 0 := hp.unused (by rw [h]; exact nofun)
  intro p' hstep
  cases hstep with
  | filler stop hstep =>
    cases hstep with
    | @act s' t t' front back hf hact =>
      have hreturned :=
        (hp.finished h).1 ⟨t, stop⟩ (hf ▸ List.mem_append_right _ List.mem_cons_self)
      exact not_act_of_finished (by rw [show t = .returned from hreturned]; rfl) hact
  | client hstep => exact absurd hrefs (Nat.ne_of_gt (refs_pos_of_client hstep))
  | destructor hstep =>
    cases hstep with
    | delete hcalled | requestStop hcalled | join hcalled | destroyMembers hcalled =>
      rw [h] at hcalled
      cases hcalled

/-- What the factory created for it was destroyed, once each. -/
theorem destroyed_of_finished (hp : Kept p) (h : p.destructor = .finished) :
    p.created.Perm p.destroyed := by
  have hrefs : p.refs = 0 := hp.unused (by rw [h]; exact nofun)
  unfold Lifetime.refs at hrefs
  have hheld : p.shared.held = [] := List.length_eq_zero_iff.mp (by omega)
  have hcalls : p.calls = [] := List.length_eq_zero_iff.mp (by omega)
  rw [List.perm_iff_count]
  intro a
  have hbooked := hp.booked a
  have hholds : total (fun f => f.thread.holds.count a) p.fillers = 0 := by
    apply total_eq_zero
    intro f hf
    rw [(hp.finished h).1 f hf]
    rfl
  simpa only [Lifetime.carried, hheld, hcalls, hholds, (hp.finished h).2, List.count_nil, total_nil,
    Nat.zero_add] using hbooked

/-- The destructor runs when there is no handle, and then it comes to its end; no thread acts on
the pool after that, and no connection is left. -/
structure WellEnded (cfg : PoolConfig) (p : Lifetime κ) : Prop where
  unused : p.destructor ≠ .uncalled → p.refs = 0
  ends : p.refs = 0 →
    (lifetimes cfg).Ensures (TearsDown cfg) p p.left fun p => p.destructor = .finished
  quiet : p.destructor = .finished → (lifetimes cfg).Quiet p
  destroyed : p.destructor = .finished → p.created.Perm p.destroyed

theorem wellEnded_of_reachable (cfg : PoolConfig) (p : Lifetime κ)
    (h : (lifetimes cfg).Reachable p) : WellEnded cfg p where
  unused := (kept_of_reachable h).unused
  ends := tearsDown_of_unused (kept_of_reachable h)
  quiet := quiet_of_finished (kept_of_reachable h)
  destroyed := destroyed_of_finished (kept_of_reachable h)

/-- An eager pool that is dropped before its only thread has begun. -/
theorem wellEnded_dropped :
    ∃ p : Lifetime ℕ, p.refs = 0 ∧ p.left = 12 ∧ WellEnded ⟨1, 1, true⟩ p := by
  have hborn : (lifetimes ⟨1, 1, true⟩).Reachable (.born (κ := ℕ) ⟨1, 1, true⟩) := .of_init rfl
  have hdropped := hborn.next (.client (.dropHandle rfl))
  exact ⟨_, rfl, rfl, wellEnded_of_reachable _ _ hdropped⟩

end PostgresLib.Pool
