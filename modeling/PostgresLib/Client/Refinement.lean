import PostgresLib.Client.Completion
import PostgresLib.Client.Wakeups
import PostgresLib.Foundations.Simulation

/-! # The closer view of the waits is a view of the same client

The model of the condition variables counts what is queued and gives every wait its
phases. Whatever it reaches is seen in a state that the client model reaches, without
heartbeat: the wait is one place of the worker there, a notification moves nothing,
and the callback threads are stopped together as soon as the first of them is. What a
request asks for is decided there when it is pushed and here when it is answered, so
the requests that are under way may be direct or not in every way.
-/

namespace PostgresLib.Client

open Foundations Connection PostgresClient
open StopSignal (Signals)

variable {σ ρ : Type}

/-- Where a callback worker is in both views. -/
inductive CallbackPlace where
  | announcing
  | waiting
  | running
  | exited
  deriving DecidableEq

def CallbackWorker.place : CallbackWorker ρ → CallbackPlace
  | announcing => .announcing
  | waiting => .waiting
  | running _ => .running
  | exited => .exited

namespace StopSignal

def CallbackState.place : CallbackState → CallbackPlace
  | locking => .announcing
  | waiting _ => .waiting
  | running => .running
  | exited => .exited

/-- The requests that the worker has taken and not answered. -/
def QueryWorker.owes : QueryWorker → ℕ
  | executing => 1
  | draining pending => pending
  | posting pending | pushing pending | notifying pending => pending.getD 0
  | _ => 0

@[simp] theorem QueryWorker.owes_resume (pending : Option ℕ) :
    (resume pending).owes = pending.getD 0 := by
  cases pending <;> rfl

theorem QueryWorker.owes_notify (w : QueryWorker) : w.notify.owes = w.owes := by
  cases w <;> rfl

/-- The requests that are queued, or that the worker has taken and not answered. -/
def Signals.underWay (s : Signals) : ℕ := s.worker.owes + s.requests

/-! ## What the closer view keeps -/

/-- A callback worker that goes on has a task or is stopped, and those that the destructor has
joined have returned. -/
structure Joining (s : Signals) : Prop where
  passed : ∀ w ∈ s.callbackWorkers, w.state = .waiting .passed →
    w.stopRequested = true ∨ 0 < s.callbackQueue
  joined : ∀ k, s.destructor = .joiningCallbacks k → ∀ i < k, ∀ w, s.callbackWorkers[i]? = some w →
    w.state = .exited

variable {s s' : Signals}

theorem CallbackWorker.notify_eq_passed {w : CallbackWorker} :
    w.notify.state = .waiting .passed ↔ w.state = .waiting .passed := by
  rcases w with ⟨stop, state⟩
  cases state with
  | waiting phase => cases phase <;> simp [notify, WaitPhase.notify]
  | _ => simp [notify]

theorem CallbackWorker.place_notify (w : CallbackWorker) :
    w.notify.state.place = w.state.place := by
  rcases w with ⟨stop, state⟩
  cases state <;> rfl

theorem getElem?_other {front back : List CallbackWorker} {w w' u : CallbackWorker} {i : ℕ}
    (h : (front ++ w' :: back)[i]? = some u) :
    (i = front.length ∧ u = w') ∨ (front ++ w :: back)[i]? = some u := by
  rcases Nat.lt_trichotomy i front.length with hlt | rfl | hgt
  · rw [List.getElem?_append_left hlt] at h ⊢
    exact .inr h
  · rw [List.getElem?_append_right (Nat.le_refl _), Nat.sub_self] at h
    exact .inl ⟨rfl, (Option.some.inj h).symm⟩
  · rw [List.getElem?_append_right hgt.le, List.getElem?_cons, if_neg (by omega)] at h ⊢
    exact .inr h

theorem mem_other {front back : List CallbackWorker} {w w' u : CallbackWorker}
    (h : u ∈ front ++ w' :: back) : u = w' ∨ u ∈ front ++ w :: back := by
  simp only [List.mem_append, List.mem_cons] at h ⊢
  rcases h with h | rfl | h
  · exact .inr (.inl h)
  · exact .inl rfl
  · exact .inr (.inr (.inr h))

/-- A worker that leaves its wait is the only one with the mutex. -/
theorem passed_alone (hs : Woken s) {front back : List CallbackWorker} {w w' u : CallbackWorker}
    (hw : s.callbackWorkers = front ++ w :: back) (hpassed : w.state = .waiting .passed)
    (hu : u ∈ front ++ w' :: back) (hholds : u.state = .waiting .passed) : u = w' := by
  have hone : total (fun w : CallbackWorker => w.state.holding) s.callbackWorkers ≤ 1 := by
    rw [hs.callbackMutex]
    exact Bool.toNat_le s.callbackMutex
  have hpos : ∀ ts : List CallbackWorker, u ∈ ts →
      0 < total (fun w : CallbackWorker => w.state.holding) ts := by
    intro ts hmem
    exact total_pos.mpr ⟨u, hmem, by rw [hholds]; exact Nat.one_pos⟩
  have hself : w.state.holding = 1 := by
    rw [hpassed]
    rfl
  rw [hw, total_append, total_cons, hself] at hone
  rcases List.mem_append.mp hu with hfront | hback
  · have hmore := hpos front hfront
    omega
  · rcases List.mem_cons.mp hback with rfl | hback
    · rfl
    · have hmore := hpos back hback
      omega

/-- What a step of a callback worker does to its wait and to the queue. -/
theorem CallbackStep.leaves {stop held held' : Bool} {queue queue' idle idle' : ℕ}
    {state state' : CallbackState}
    (h : CallbackStep stop held queue idle state held' queue' idle' state') :
    state ≠ .exited ∧ (state' = .waiting .passed → stop = true ∨ 0 < queue') ∧
      (queue' = queue ∨ state = .waiting .passed) := by
  cases h with
  | lock => exact ⟨nofun, nofun, .inl rfl⟩
  | wait h =>
    refine ⟨nofun, ?_, .inl rfl⟩
    intro heq
    injection heq with hpassed
    cases h with
    | pass htrue => simpa using htrue
    | refuse | block | wake | retake => cases hpassed
  | leave => exact ⟨nofun, nofun, .inr rfl⟩
  | take => exact ⟨nofun, nofun, .inr rfl⟩
  | run => exact ⟨nofun, nofun, .inl rfl⟩

theorem joining_callback {front back : List CallbackWorker} {w : CallbackWorker} {held : Bool}
    {queue idle : ℕ} {state : CallbackState} (hwoken : Woken s) (hs : Joining s)
    (hw : s.callbackWorkers = front ++ w :: back)
    (h : CallbackStep w.stopRequested s.callbackMutex s.callbackQueue s.idleCallbackWorkers
      w.state held queue idle state) :
    Joining
      { s with
        callbackMutex := held
        callbackQueue := queue
        idleCallbackWorkers := idle
        callbackWorkers := front ++ { w with state := state } :: back } := by
  rcases h.leaves with ⟨hrunning, hpassed, hqueue⟩
  constructor
  · intro u hu hleaves
    rcases mem_other (w := w) hu with rfl | hold
    · exact hpassed hleaves
    · rcases hqueue with hqueue | hfirst
      · rw [hqueue]
        exact hs.passed u (by rw [hw]; exact hold) hleaves
      · have hself := passed_alone hwoken hw hfirst hu hleaves
        rw [hself] at hleaves ⊢
        exact hpassed hleaves
  · intro k hk i hi u hu
    have hold := hs.joined k hk
    rw [hw] at hold
    rcases getElem?_other (w := w) hu with ⟨rfl, rfl⟩ | hu
    · exact absurd (hold _ hi w (by simp)) hrunning
    · exact hold i hi u hu

theorem joining_step (hwoken : Woken s) (h : Step s s') (hs : Joining s) : Joining s' := by
  cases h with
  | call h => cases h <;> exact ⟨hs.passed, hs.joined⟩
  | callback hw h => exact joining_callback hwoken hs hw h
  | worker h =>
    cases h with
    | pushTask =>
      exact ⟨fun w hw hp => .inr (Nat.succ_pos _), hs.joined⟩
    | @notifyOne pending front back w hw h hb =>
      have hnotified : w.notify.state ≠ .waiting .passed := by
        rw [Ne, CallbackWorker.notify_eq_passed, hb]
        nofun
      constructor
      · intro u hu hp
        rcases mem_other (w := w) hu with rfl | hold
        · exact absurd hp hnotified
        · exact hs.passed u (by rw [h]; exact hold) hp
      · intro k hk i hi u hu
        have hold := hs.joined k hk
        rw [h] at hold
        rcases getElem?_other (w := w) hu with ⟨rfl, rfl⟩ | hu
        · have hexited := hold _ hi w (by simp)
          rw [hb] at hexited
          cases hexited
        · exact hold i hi u hu
    | _ => exact ⟨hs.passed, hs.joined⟩
  | destructor h =>
    cases h with
    | requestStop | notifyAll | joinWorker | joinOverflow | finish => exact ⟨hs.passed, nofun⟩
    | @requestCallbackStop front back w h hw =>
      refine ⟨fun u hu hp => ?_, nofun⟩
      rcases mem_other (w := w) hu with rfl | hold
      · exact .inl rfl
      · exact hs.passed u (by rw [hw]; exact hold) hp
    | notifyAllCallbacks =>
      constructor
      · intro u hu hp
        rcases List.mem_map.mp hu with ⟨w, hw, rfl⟩
        rw [CallbackWorker.stopRequested_notify]
        exact hs.passed w hw (CallbackWorker.notify_eq_passed.mp hp)
      · intro k hk
        injection hk with hk
        subst hk
        exact nofun
    | @joinCallback front back w h hw hexited =>
      refine ⟨hs.passed, ?_⟩
      intro k hk i hi u hu
      injection hk with hk
      rcases Nat.lt_succ_iff_lt_or_eq.mp (hk ▸ hi) with hlt | rfl
      · exact hs.joined _ h i hlt u hu
      · have hself : s.callbackWorkers[front.length]? = some w := by
          rw [hw]
          simp
        rw [Option.some.inj (hu.symm.trans hself)]
        exact hexited

theorem joining_of_reachable {callbackThreads : ℕ} (h : (system callbackThreads).Reachable s) :
    Joining s := by
  apply h.induct
  · rintro s rfl
    refine ⟨fun w hw hp => ?_, nofun⟩
    rw [(List.mem_replicate.mp hw).2] at hp
    cases hp
  · exact fun s s' hreach hs hstep => joining_step (woken_of_reachable hreach) hstep hs

end StopSignal

/-- Where the worker is that the closer view has there. -/
def WorkerSeen : StopSignal.QueryWorker → Worker ρ → Prop
  | .loopTest, w => w = .loopTest
  | .waiting .passed, w => w = .woken
  | .waiting _, w => w = .waiting
  | .executing, w => ∃ r, w = .executing r
  | .draining n, w => ∃ pending, pending.length = n ∧ w = .draining pending
  | .posting n, w => ∃ task pending, pending.map List.length = n ∧ w = .posting task pending
  | .pushing n, w => ∃ task pending, pending.map List.length = n ∧ w = .pushing task pending
  | .notifying n, w => ∃ pending, pending.map List.length = n ∧ w = .resume pending
  | .exited, w => w = .exited

/-- Where the destructor is that the closer view has there. -/
def StopSignal.Destructor.seen : StopSignal.Destructor → Client.Destructor
  | uncalled => .uncalled
  | stopRequested | joiningWorker => .joiningWorker
  | joiningOverflow => .joiningOverflow
  | stoppingCallbacks 0 => .stoppingCallbacks
  | stoppingCallbacks (_ + 1) | joiningCallbacks _ => .joiningCallbacks
  | finished => .finished

/-- The client in the closer view, with what the requests that are under way ask for. -/
structure Seen (direct : List Bool) (s : Signals) (c : PostgresClient σ ρ) : Prop where
  worker : WorkerSeen s.worker c.worker
  requests : c.requests.length = s.requests
  direct : (c.worker.owes ++ c.requests).map Request.directCallback = direct
  stopRequested : c.stopRequested = s.stopRequested
  callbackQueue : c.callbackQueue.length = s.callbackQueue
  idle : c.idleCallbackWorkers = s.idleCallbackWorkers
  callbackWorkers : c.callbackWorkers.map CallbackWorker.place =
    s.callbackWorkers.map (·.state.place)
  callbackStop : ∀ w ∈ s.callbackWorkers, w.stopRequested = true → c.callbackStop = true
  destructor : c.destructor = s.destructor.seen

variable {lib : Libpq σ Submission ρ} {callbackThreads : ℕ} {s s' : Signals}
  {direct : List Bool} {c : PostgresClient σ ρ}

theorem workerSeen_waiting {phase : WaitPhase} (h : phase ≠ .passed) {w : Worker ρ} :
    WorkerSeen (.waiting phase) w ↔ w = .waiting := by
  cases phase with
  | passed => exact absurd rfl h
  | _ => rfl

theorem workerSeen_resume {n : Option ℕ} {pending : Option (List Request)}
    (h : pending.map List.length = n) : WorkerSeen (.resume n) (.resume pending : Worker ρ) := by
  subst h
  cases pending with
  | none => rfl
  | some pending => exact ⟨pending, rfl, rfl⟩

theorem workerSeen_notify {v : StopSignal.QueryWorker} {w : Worker ρ} (h : WorkerSeen v w) :
    WorkerSeen v.notify w := by
  cases v with
  | waiting phase => cases phase <;> exact h
  | _ => exact h

/-- Only a worker that has left its wait holds the mutex in both views. -/
theorem holdsMutex_of_seen {v : StopSignal.QueryWorker} {w : Worker ρ} (h : WorkerSeen v w)
    (hv : v.holding = 0) : w.holdsMutex = false := by
  cases v with
  | waiting phase =>
    cases phase with
    | passed => cases hv
    | testing | refused | blocked | notified =>
      cases h
      rfl
  | loopTest | exited =>
    cases h
    rfl
  | executing | draining n =>
    rcases h with ⟨_, h⟩
    simp_all [Worker.holdsMutex]
  | posting n | pushing n =>
    rcases h with ⟨_, _, _, rfl⟩
    rfl
  | notifying n =>
    rcases h with ⟨pending, -, rfl⟩
    cases pending <;> rfl

theorem started_of_seen {v : StopSignal.QueryWorker} {w : Worker ρ} (h : WorkerSeen v w) :
    w ≠ .unstarted := by
  rintro rfl
  cases v with
  | waiting phase => cases phase <;> cases h
  | loopTest | exited => cases h
  | executing | draining n => simp [WorkerSeen] at h
  | posting n | pushing n => simp [WorkerSeen] at h
  | notifying n =>
    rcases h with ⟨pending, -, h⟩
    cases pending <;> cases h

theorem Seen.worker_at (hc : Seen direct s c) {v : StopSignal.QueryWorker} (hw : s.worker = v) :
    WorkerSeen v c.worker := hw ▸ hc.worker

theorem Seen.direct_at (hc : Seen direct s c) {w : Worker ρ} (hw : c.worker = w) :
    (w.owes ++ c.requests).map Request.directCallback = direct := hw ▸ hc.direct

/-- The choices that are open in a state of the closer view. -/
def Opens (s : Signals) (direct : List Bool) : Prop := direct.length = s.underWay

/-- A step that the client follows by a run, for every choice that is open after it. -/
def Followed (lib : Libpq σ Submission ρ) (callbackThreads : ℕ) (s s' : Signals) :
    Prop :=
  ∀ direct', Opens s' direct' → ∃ direct, Opens s direct ∧
    ∀ c : PostgresClient σ ρ, (system lib false callbackThreads).Reachable c → Seen direct s c →
      ∃ c', (system lib false callbackThreads).Run c c' ∧ Seen direct' s' c'

theorem followed_of_same (hunder : s'.underWay = s.underWay)
    (h : ∀ direct, ∀ c : PostgresClient σ ρ, (system lib false callbackThreads).Reachable c →
      Seen direct s c → ∃ c', (system lib false callbackThreads).Run c c' ∧ Seen direct s' c') :
    Followed lib callbackThreads s s' := by
  intro direct hopens
  exact ⟨direct, hopens.trans hunder, h direct⟩

/-- A step that answers a request whose callback is invoked in this way. -/
theorem followed_of_answer (b : Bool) (hunder : s'.underWay + 1 = s.underWay)
    (h : ∀ direct, ∀ c : PostgresClient σ ρ, Seen (b :: direct) s c →
      ∃ c', (system lib false callbackThreads).Run c c' ∧ Seen direct s' c') :
    Followed lib callbackThreads s s' := by
  intro direct hopens
  refine ⟨b :: direct, ?_, fun c _ => h direct c⟩
  rw [Opens, List.length_cons, hopens, hunder]

theorem followed_call (hwoken : StopSignal.Woken s) (h : StopSignal.CallStep s s') :
    Followed lib callbackThreads s s' := by
  cases h with
  | notifyOne h =>
    apply followed_of_same
    · rw [Signals.underWay, StopSignal.QueryWorker.owes_notify]
      rfl
    · exact fun direct c _ hc => ⟨c, .refl, { hc with worker := workerSeen_notify hc.worker }⟩
  | push hmutex hd =>
    intro direct' hopens
    have hlength : direct'.length = s.underWay + 1 := hopens
    rcases List.eq_nil_or_concat direct' with rfl | ⟨direct, last, rfl⟩
    · cases hlength
    · rw [List.concat_eq_append, List.length_append] at hlength
      refine ⟨direct, Nat.succ.inj hlength, fun c _ hc => ?_⟩
      have haccepts : c.Accepts := by
        constructor
        · apply holdsMutex_of_seen hc.worker
          rw [hwoken.mutex, hmutex]
          rfl
        · rw [hc.destructor]
          cases hdestructor : s.destructor with
          | finished => exact absurd hdestructor hd
          | stoppingCallbacks k => cases k <;> exact nofun
          | _ => exact nofun
      have hcall : Call c (c.push (c.next (.ofQuery (Transaction.query "SELECT 1") 0) last
          .client)) := by
        cases last with
        | true => exact .execute _ haccepts
        | false => exact .executeAsync _ haccepts
      refine ⟨_, .single (.call hcall), { hc with requests := ?_, direct := ?_ }⟩
      · simp [push, hc.requests]
      · simp only [push, ← List.append_assoc, List.map_append, hc.direct, List.concat_eq_append]
        simp [next]

theorem wait_leaves {predicate held held' : Bool} {phase phase' : WaitPhase}
    (h : WaitPhase.Step predicate held phase held' phase') :
    phase = .testing ∧ phase' = .passed ∧ predicate = true ∨
      phase ≠ .passed ∧ phase' ≠ .passed := by
  cases h with
  | pass htrue => exact .inl ⟨rfl, rfl, htrue⟩
  | refuse | block | wake | retake => exact .inr ⟨nofun, nofun⟩

theorem followed_wait {phase phase' : WaitPhase} {held : Bool} (hw : s.worker = .waiting phase)
    (h : WaitPhase.Step (s.stopRequested || decide (0 < s.requests)) s.mutex phase held phase') :
    Followed lib callbackThreads s { s with worker := .waiting phase', mutex := held } := by
  refine followed_of_same (by rw [Signals.underWay, Signals.underWay, hw]; rfl) ?_
  intro direct c _ hc
  have hworker := hc.worker_at hw
  rcases wait_leaves h with ⟨rfl, rfl, htrue⟩ | ⟨hphase, hphase'⟩
  · have hcw : c.worker = .waiting := hworker
    have hdirect := hc.direct_at hcw
    refine ⟨_, .single (.worker (.wake hcw ?_)), { hc with worker := rfl, direct := hdirect }⟩
    rw [hc.stopRequested]
    rcases Bool.or_eq_true_iff.mp htrue with hstop | hqueued
    · exact .inl hstop
    · right
      rw [← List.length_pos_iff, hc.requests]
      exact of_decide_eq_true hqueued
  · rw [workerSeen_waiting hphase] at hworker
    exact ⟨c, .refl, { hc with worker := (workerSeen_waiting hphase').mpr hworker }⟩

theorem followed_take (hw : s.worker = .waiting .passed) (h : s.stopRequested = false) :
    (s.requests = 0 →
      Followed lib callbackThreads s { s with worker := .loopTest, mutex := false }) ∧
      (0 < s.requests → Followed lib callbackThreads s
        { s with worker := .executing, requests := s.requests - 1, mutex := false }) := by
  constructor
  · intro hnone
    refine followed_of_same (by rw [Signals.underWay, Signals.underWay, hw]; rfl) ?_
    intro direct c _ hc
    have hcw : c.worker = .woken := hc.worker_at hw
    have hempty : c.requests = [] := List.length_eq_zero_iff.mp (hc.requests.trans hnone)
    have h₁ : (system lib false callbackThreads).Run c _ :=
      .single (.worker (.goOn hcw (hc.stopRequested.trans h)))
    have h₂ := h₁.tail (.worker (.takeNone rfl hempty))
    have hdirect := hc.direct_at hcw
    exact ⟨_, h₂, { hc with worker := rfl, direct := hdirect }⟩
  · intro hsome
    refine followed_of_same ?_ ?_
    · rw [Signals.underWay, Signals.underWay, hw]
      simp only [StopSignal.QueryWorker.owes]
      omega
    intro direct c _ hc
    have hcw : c.worker = .woken := hc.worker_at hw
    rcases List.exists_cons_of_length_pos (hc.requests ▸ hsome) with ⟨r, rest, hqueue⟩
    have hdirect := hc.direct_at hcw
    have hcount := hc.requests
    rw [hqueue] at hdirect hcount
    have h₁ : (system lib false callbackThreads).Run c _ :=
      .single (.worker (.goOn hcw (hc.stopRequested.trans h)))
    have h₂ := h₁.tail (.worker (.take rfl hqueue))
    refine ⟨_, h₂, { hc with worker := ⟨r, rfl⟩, requests := ?_, direct := hdirect }⟩
    exact Nat.eq_sub_of_add_eq hcount

variable (callbackThreads) in
/-- The execution of a request returns, and then the worker has its outcome. -/
theorem run_execute (hlib : Returns lib) {r : Request} (hcw : c.worker = .executing r) :
    ∃ fuel outcome, (system lib false callbackThreads).Run c
      (c.execute lib ⟨.request r, c.connection, fuel⟩ (.delivering r outcome)) := by
  rcases hlib (.request r) c.connection with ⟨fuel, outcome, h⟩
  exact ⟨fuel, outcome, .single (.worker (.execute hcw fuel h))⟩

theorem followed_deliver (hlib : Returns lib) (hw : s.worker = .executing) :
    Followed lib callbackThreads s { s with worker := .loopTest } ∧
      Followed lib callbackThreads s { s with worker := .posting none } := by
  have hunder : s.requests + 1 = s.underWay := by
    rw [Signals.underWay, hw, Nat.add_comm]
    rfl
  constructor
  · refine followed_of_answer true ((congrArg (· + 1) (Nat.zero_add _)).trans hunder) ?_
    intro direct c hc
    rcases hc.worker_at hw with ⟨r, hcw⟩
    rcases List.cons.inj (hc.direct_at hcw) with ⟨hdirect, hrest⟩
    rcases run_execute callbackThreads hlib hcw with ⟨fuel, outcome, hrun⟩
    exact ⟨_, hrun.tail (.worker (.deliver rfl hdirect)),
      { hc with worker := rfl, direct := hrest }⟩
  · refine followed_of_answer false ((congrArg (· + 1) (Nat.zero_add _)).trans hunder) ?_
    intro direct c hc
    rcases hc.worker_at hw with ⟨r, hcw⟩
    rcases List.cons.inj (hc.direct_at hcw) with ⟨hdirect, hrest⟩
    rcases run_execute callbackThreads hlib hcw with ⟨fuel, outcome, hrun⟩
    exact ⟨_, hrun.tail (.worker (.deliverPosted rfl hdirect)),
      { hc with worker := ⟨_, none, rfl, rfl⟩, direct := hrest }⟩

theorem followed_drain {n : ℕ} (hw : s.worker = .draining (n + 1)) :
    Followed lib callbackThreads s { s with worker := .draining n } ∧
      Followed lib callbackThreads s { s with worker := .posting (some n) } := by
  have hunder : n + s.requests + 1 = s.underWay := by
    rw [Signals.underWay, hw, Nat.add_right_comm]
    rfl
  have hfirst : ∀ {b : Bool} {direct : List Bool} {c : PostgresClient σ ρ},
      Seen (b :: direct) s c → ∃ r rest, c.worker = .draining (r :: rest) ∧ rest.length = n ∧
        r.directCallback = b ∧ (rest ++ c.requests).map Request.directCallback = direct := by
    intro b direct c hc
    rcases hc.worker_at hw with ⟨pending, hlength, hcw⟩
    rcases List.exists_of_length_succ pending hlength with ⟨r, rest, rfl⟩
    rcases List.cons.inj (hc.direct_at hcw) with ⟨hdirect, hrest⟩
    exact ⟨r, rest, hcw, Nat.succ.inj hlength, hdirect, hrest⟩
  constructor
  · refine followed_of_answer true hunder ?_
    intro direct c hc
    rcases hfirst hc with ⟨r, rest, hcw, hlength, hdirect, hrest⟩
    exact ⟨_, .single (.worker (.drainOne hcw hdirect)),
      { hc with worker := ⟨rest, hlength, rfl⟩, direct := hrest }⟩
  · refine followed_of_answer false hunder ?_
    intro direct c hc
    rcases hfirst hc with ⟨r, rest, hcw, hlength, hdirect, hrest⟩
    exact ⟨_, .single (.worker (.drainPosted hcw hdirect)),
      { hc with worker := ⟨_, some rest, congrArg some hlength, rfl⟩, direct := hrest }⟩

theorem followed_post {n : Option ℕ} (hw : s.worker = .posting n) :
    (s.idleCallbackWorkers = 0 → Followed lib callbackThreads s { s with worker := .resume n }) ∧
      (s.idleCallbackWorkers ≠ 0 →
        Followed lib callbackThreads s { s with worker := .pushing n }) := by
  constructor
  · intro hidle
    refine followed_of_same ?_ ?_
    · rw [Signals.underWay, Signals.underWay, hw, StopSignal.QueryWorker.owes_resume]
      rfl
    intro direct c _ hc
    rcases hc.worker_at hw with ⟨task, pending, hlength, hcw⟩
    have hdirect := hc.direct_at hcw
    refine ⟨_, .single (.worker (.overflow hcw (hc.idle.trans hidle))),
      { hc with worker := workerSeen_resume hlength, direct := ?_ }⟩
    rw [Worker.owes_resume]
    exact hdirect
  · intro hidle
    refine followed_of_same (by rw [Signals.underWay, Signals.underWay, hw]; rfl) ?_
    intro direct c _ hc
    rcases hc.worker_at hw with ⟨task, pending, hlength, hcw⟩
    have hdirect := hc.direct_at hcw
    exact ⟨_, .single (.worker (.seeIdle hcw (by rw [hc.idle]; exact hidle))),
      { hc with worker := ⟨task, pending, hlength, rfl⟩, direct := hdirect }⟩

theorem followed_notify {n : Option ℕ} (hw : s.worker = .notifying n)
    {workers : List StopSignal.CallbackWorker}
    (hplaces : workers.map (·.state.place) = s.callbackWorkers.map (·.state.place))
    (hstop : ∀ w ∈ workers, w.stopRequested = true →
      ∃ u ∈ s.callbackWorkers, u.stopRequested = true) :
    Followed lib callbackThreads s { s with worker := .resume n, callbackWorkers := workers } := by
  refine followed_of_same ?_ ?_
  · rw [Signals.underWay, Signals.underWay, hw, StopSignal.QueryWorker.owes_resume]
    rfl
  intro direct c _ hc
  rcases hc.worker_at hw with ⟨pending, hlength, hcw⟩
  refine ⟨c, .refl, { hc with worker := ?_, callbackWorkers := ?_, callbackStop := ?_ }⟩
  · rw [hcw]
    exact workerSeen_resume hlength
  · exact hc.callbackWorkers.trans hplaces.symm
  · intro w hw hstopped
    rcases hstop w hw hstopped with ⟨u, hu, hrequested⟩
    exact hc.callbackStop u hu hrequested

theorem followed_worker (hlib : Returns lib) (h : StopSignal.WorkerStep s s') :
    Followed lib callbackThreads s s' := by
  cases h with
  | wait hw h => exact followed_wait hw h
  | takeNone hw h hnone => exact (followed_take hw h).1 hnone
  | take hw h hsome => exact (followed_take hw h).2 hsome
  | deliver hw => exact (followed_deliver hlib hw).1
  | deliverPosted hw => exact (followed_deliver hlib hw).2
  | drainOne hw => exact (followed_drain hw).1
  | drainPosted hw => exact (followed_drain hw).2
  | overflow hw hidle => exact (followed_post hw).1 hidle
  | seeIdle hw hidle => exact (followed_post hw).2 hidle
  | leave hw h =>
    refine followed_of_same (by rw [Signals.underWay, Signals.underWay, hw]; rfl) ?_
    intro direct c _ hc
    have hcw : c.worker = .loopTest := hc.worker_at hw
    have hdirect := hc.direct_at hcw
    exact ⟨_, .single (.worker (.leave hcw (hc.stopRequested.trans h))),
      { hc with worker := rfl, direct := hdirect }⟩
  | lock hw h =>
    refine followed_of_same (by rw [Signals.underWay, Signals.underWay, hw]; rfl) ?_
    intro direct c _ hc
    have hcw : c.worker = .loopTest := hc.worker_at hw
    have hdirect := hc.direct_at hcw
    have h₁ : (system lib false callbackThreads).Run c _ :=
      .single (.worker (.lock hcw (hc.stopRequested.trans h)))
    exact ⟨_, h₁.tail (.worker (.wait rfl)), { hc with worker := rfl, direct := hdirect }⟩
  | drain hw h =>
    refine followed_of_same (by rw [Signals.underWay, Signals.underWay, hw, Nat.add_comm]; rfl) ?_
    intro direct c _ hc
    have hcw : c.worker = .woken := hc.worker_at hw
    refine ⟨_, .single (.worker (.drain hcw (hc.stopRequested.trans h))),
      { hc with worker := ⟨_, hc.requests, rfl⟩, requests := rfl, direct := ?_ }⟩
    rw [List.append_nil]
    exact hc.direct_at hcw
  | drained hw =>
    refine followed_of_same (by rw [Signals.underWay, Signals.underWay, hw]; rfl) ?_
    intro direct c _ hc
    rcases hc.worker_at hw with ⟨pending, hlength, hcw⟩
    rw [List.length_eq_zero_iff.mp hlength] at hcw
    have hdirect := hc.direct_at hcw
    exact ⟨_, .single (.worker (.drained hcw)), { hc with worker := rfl, direct := hdirect }⟩
  | @pushTask n hw =>
    refine followed_of_same (by rw [Signals.underWay, Signals.underWay, hw]; rfl) ?_
    intro direct c _ hc
    rcases hc.worker_at hw with ⟨task, pending, hlength, hcw⟩
    have hdirect := hc.direct_at hcw
    refine ⟨_, .single (.worker (.pushTask hcw)),
      { hc with worker := ⟨pending, hlength, rfl⟩, direct := ?_, callbackQueue := ?_ }⟩
    · rw [Worker.owes_resume]
      exact hdirect
    · rw [List.length_append, hc.callbackQueue]
      rfl
  | @notifyOne n front back w hw h hb =>
    apply followed_notify hw
    · rw [h]
      simp [StopSignal.CallbackWorker.place_notify]
    · intro u hu hstopped
      rcases StopSignal.mem_other (w := w) hu with rfl | hold
      · refine ⟨w, by rw [h]; simp, ?_⟩
        rwa [StopSignal.CallbackWorker.stopRequested_notify] at hstopped
      · exact ⟨u, by rw [h]; exact hold, hstopped⟩
  | notifyNobody hw h => exact followed_notify hw rfl fun w hw hstopped => ⟨w, hw, hstopped⟩

variable (lib callbackThreads) in
/-- A step of a callback worker is followed by at most one step of the worker at the same place. -/
theorem run_callback {stop held held' : Bool} {queue queue' idle idle' : ℕ}
    {state state' : StopSignal.CallbackState}
    (h : StopSignal.CallbackStep stop held queue idle state held' queue' idle' state')
    {front back : List (CallbackWorker ρ)} {w : CallbackWorker ρ}
    (hw : c.callbackWorkers = front ++ w :: back) (hplace : w.place = state.place)
    (hqueue : c.callbackQueue.length = queue) (hidle : c.idleCallbackWorkers = idle)
    (hstop : state = .waiting .passed → queue = 0 → c.callbackStop = true) :
    ∃ w' tasks ran, (system lib false callbackThreads).Run c
        { c with
          callbackWorkers := front ++ w' :: back
          callbackQueue := tasks
          idleCallbackWorkers := idle'
          invoked := ran } ∧
      w'.place = state'.place ∧ tasks.length = queue' := by
  subst hidle
  cases h with
  | lock =>
    cases w with
    | announcing =>
      exact ⟨.waiting, c.callbackQueue, c.invoked, .single (.callback (.announce hw)), rfl, hqueue⟩
    | _ => cases hplace
  | wait h =>
    refine ⟨w, c.callbackQueue, c.invoked, ?_, hplace, hqueue⟩
    rw [← hw]
  | leave =>
    cases w with
    | waiting =>
      have hempty : c.callbackQueue = [] := List.length_eq_zero_iff.mp hqueue
      exact ⟨.exited, c.callbackQueue, c.invoked,
        .single (.callback (.leave hw (hstop rfl rfl) hempty)), rfl, hqueue⟩
    | _ => cases hplace
  | take =>
    cases w with
    | waiting =>
      rcases List.exists_of_length_succ c.callbackQueue hqueue with ⟨task, rest, htasks⟩
      rw [htasks] at hqueue
      exact ⟨.running task, rest, c.invoked, .single (.callback (.take hw htasks)), rfl,
        Nat.succ.inj hqueue⟩
    | _ => cases hplace
  | run =>
    cases w with
    | running task =>
      exact ⟨.announcing, c.callbackQueue, c.invoked ++ [task], .single (.callback (.run hw)), rfl,
        hqueue⟩
    | _ => cases hplace

theorem followed_callback (hjoining : StopSignal.Joining s)
    {front back : List StopSignal.CallbackWorker} {w : StopSignal.CallbackWorker} {held : Bool}
    {queue idle : ℕ} {state : StopSignal.CallbackState}
    (hw : s.callbackWorkers = front ++ w :: back)
    (h : StopSignal.CallbackStep w.stopRequested s.callbackMutex s.callbackQueue
      s.idleCallbackWorkers w.state held queue idle state) :
    Followed lib callbackThreads s
      { s with
        callbackMutex := held
        callbackQueue := queue
        idleCallbackWorkers := idle
        callbackWorkers := front ++ { w with state := state } :: back } := by
  refine followed_of_same rfl ?_
  intro direct c _ hc
  have hmem : w ∈ s.callbackWorkers := by
    rw [hw]
    simp
  have hplaces := hc.callbackWorkers
  rw [hw, List.map_append, List.map_cons] at hplaces
  rcases List.map_eq_append_iff.mp hplaces with ⟨front', rest, hworkers, hfront, hrest⟩
  rcases List.map_eq_cons_iff.mp hrest with ⟨w', back', rfl, hplace, hback⟩
  have hstop : w.state = .waiting .passed → s.callbackQueue = 0 → c.callbackStop = true := by
    intro hpassed hempty
    rcases hjoining.passed w hmem hpassed with hstopped | hpos
    · exact hc.callbackStop w hmem hstopped
    · rw [hempty] at hpos
      cases hpos
  rcases run_callback lib callbackThreads h hworkers hplace hc.callbackQueue hc.idle hstop with
    ⟨w'', tasks, ran, hrun, hplace'', htasks⟩
  refine ⟨_, hrun, { hc with
    callbackQueue := htasks, idle := rfl, callbackWorkers := ?_, callbackStop := ?_ }⟩
  · simp only [List.map_append, List.map_cons, hfront, hback, hplace'']
  · intro u hu hstopped
    rcases StopSignal.mem_other (w := w) hu with rfl | hold
    · exact hc.callbackStop w hmem hstopped
    · exact hc.callbackStop u (by rw [hw]; exact hold) hstopped

variable (lib callbackThreads) in
/-- The overflow threads run to their ends. -/
theorem run_overflow (front : List (OverflowThread ρ)) {back : List (OverflowThread ρ)}
    (hthreads : c.overflowThreads = front ++ back) (hfront : ∀ o ∈ front, o.isDone = true) :
    ∃ threads ran, (system lib false callbackThreads).Run c
        { c with overflowThreads := threads, invoked := ran } ∧
      ∀ o ∈ threads, o.isDone = true := by
  induction back generalizing front c with
  | nil =>
    refine ⟨front, c.invoked, ?_, hfront⟩
    rw [List.append_nil] at hthreads
    rw [← hthreads]
  | cons o back ih =>
    have hnext : ∀ o ∈ front ++ [.done], o.isDone = true := by
      intro o ho
      rcases List.mem_append.mp ho with ho | ho
      · exact hfront o ho
      · rw [List.mem_singleton.mp ho]
        rfl
    cases o with
    | done =>
      exact ih _ (by rw [hthreads, List.append_assoc]; rfl) hnext
    | running task =>
      have hstep : (system lib false callbackThreads).Run c _ :=
        .single (.callback (.runOverflow hthreads))
      have hrest := @ih
        { c with
          overflowThreads := front ++ .done :: back
          invoked := c.invoked ++ [task] }
        (front ++ [.done]) (by rw [List.append_assoc]; rfl) hnext
      rcases hrest with ⟨threads, ran, hrun, hdone⟩
      exact ⟨threads, ran, hstep.trans hrun, hdone⟩

theorem callbackStop_of_seen (hreach : (system lib false callbackThreads).Reachable c)
    (hc : Seen direct s c) (h : s.destructor.seen = .joiningCallbacks) : c.callbackStop = true :=
  (stopping_of_reachable hreach).callbacks (hc.destructor.trans h)

theorem followed_requestCallbackStop {front back : List StopSignal.CallbackWorker}
    {w : StopSignal.CallbackWorker} (h : s.destructor = .stoppingCallbacks front.length)
    (hw : s.callbackWorkers = front ++ w :: back) :
    Followed lib callbackThreads s
      { s with
        destructor := .stoppingCallbacks (front.length + 1)
        callbackWorkers := front ++ { w with stopRequested := true } :: back } := by
  refine followed_of_same rfl ?_
  intro direct c hreach hc
  have hplaces : c.callbackWorkers.map CallbackWorker.place =
      (front ++ { w with stopRequested := true } :: back).map (·.state.place) := by
    rw [hc.callbackWorkers, hw]
    simp
  have hdestructor := hc.destructor
  rw [h] at hdestructor
  cases hfront : front.length with
  | zero =>
    rw [hfront] at hdestructor
    exact ⟨_, .single (.destructor (.stopCallbacks hdestructor)),
      { hc with callbackWorkers := hplaces, callbackStop := fun _ _ _ => rfl, destructor := rfl }⟩
  | succ k =>
    have hstop := callbackStop_of_seen hreach hc (by rw [h, hfront]; rfl)
    rw [hfront] at hdestructor
    exact ⟨c, .refl, { hc with
      callbackWorkers := hplaces, callbackStop := fun _ _ _ => hstop, destructor := hdestructor }⟩

theorem followed_notifyAllCallbacks
    (h : s.destructor = .stoppingCallbacks s.callbackWorkers.length) :
    Followed lib callbackThreads s
      { s with
        destructor := .joiningCallbacks 0
        callbackWorkers := s.callbackWorkers.map StopSignal.CallbackWorker.notify } := by
  refine followed_of_same rfl ?_
  intro direct c hreach hc
  have hplaces : c.callbackWorkers.map CallbackWorker.place =
      (s.callbackWorkers.map StopSignal.CallbackWorker.notify).map (·.state.place) := by
    rw [hc.callbackWorkers, List.map_map]
    exact List.map_congr_left fun w _ => (StopSignal.CallbackWorker.place_notify w).symm
  have hdestructor := hc.destructor
  rw [h] at hdestructor
  cases hlength : s.callbackWorkers.length with
  | zero =>
    rw [hlength] at hdestructor
    exact ⟨_, .single (.destructor (.stopCallbacks hdestructor)),
      { hc with callbackWorkers := hplaces, callbackStop := fun _ _ _ => rfl, destructor := rfl }⟩
  | succ k =>
    have hstop := callbackStop_of_seen hreach hc (by rw [h, hlength]; rfl)
    rw [hlength] at hdestructor
    exact ⟨c, .refl, { hc with
      callbackWorkers := hplaces, callbackStop := fun _ _ _ => hstop, destructor := hdestructor }⟩

/-- The callback workers that the destructor has joined have returned in both views. -/
theorem exited_of_joined (hjoining : StopSignal.Joining s) (hc : Seen direct s c)
    (h : s.destructor = .joiningCallbacks s.callbackWorkers.length) :
    ∀ w ∈ c.callbackWorkers, w = .exited := by
  intro w hw
  have hplace := List.mem_map_of_mem hw (f := CallbackWorker.place)
  rw [hc.callbackWorkers] at hplace
  rcases List.mem_map.mp hplace with ⟨u, hu, heq⟩
  rcases List.getElem?_of_mem hu with ⟨i, hi⟩
  have hless : i < s.callbackWorkers.length := (List.getElem?_eq_some_iff.mp hi).1
  rw [hjoining.joined _ h i hless u hi] at heq
  cases w with
  | exited => rfl
  | _ => cases heq

theorem followed_destructor (hjoining : StopSignal.Joining s)
    (h : StopSignal.DestructorStep s s') : Followed lib callbackThreads s s' := by
  cases h with
  | requestCallbackStop h hw => exact followed_requestCallbackStop h hw
  | notifyAllCallbacks h => exact followed_notifyAllCallbacks h
  | requestStop h =>
    refine followed_of_same rfl ?_
    intro direct c _ hc
    have hdestructor := hc.destructor
    rw [h] at hdestructor
    exact ⟨_, .single (.destructor (.stopWorker hdestructor (started_of_seen hc.worker))),
      { hc with stopRequested := rfl, destructor := rfl }⟩
  | notifyAll h =>
    refine followed_of_same ?_ ?_
    · rw [Signals.underWay, StopSignal.QueryWorker.owes_notify]
      rfl
    intro direct c _ hc
    have hdestructor := hc.destructor
    rw [h] at hdestructor
    exact ⟨c, .refl, { hc with worker := workerSeen_notify hc.worker, destructor := hdestructor }⟩
  | joinWorker h hw =>
    refine followed_of_same rfl ?_
    intro direct c _ hc
    have hdestructor := hc.destructor
    rw [h] at hdestructor
    exact ⟨_, .single (.destructor (.joinWorker hdestructor (hc.worker_at hw))),
      { hc with destructor := rfl }⟩
  | joinOverflow h =>
    refine followed_of_same rfl ?_
    intro direct c _ hc
    have hdestructor := hc.destructor
    rw [h] at hdestructor
    rcases run_overflow lib callbackThreads [] rfl nofun with
      ⟨threads, ran, hrun, hdone⟩
    exact ⟨_, hrun.tail (.destructor (.joinOverflow hdestructor hdone)),
      { hc with destructor := rfl }⟩
  | joinCallback h =>
    refine followed_of_same rfl ?_
    intro direct c _ hc
    have hdestructor := hc.destructor
    rw [h] at hdestructor
    exact ⟨c, .refl, { hc with destructor := hdestructor }⟩
  | finish h =>
    refine followed_of_same rfl ?_
    intro direct c _ hc
    have hdestructor := hc.destructor
    rw [h] at hdestructor
    exact ⟨_, .single (.destructor (.joinCallbacks hdestructor (exited_of_joined hjoining hc h))),
      { hc with destructor := rfl }⟩

theorem simulates (hlib : Returns lib) (connection : σ) :
    Simulates (StopSignal.system callbackThreads) (system lib false callbackThreads) Opens
      (Seen (ρ := ρ)) where
  init s direct := by
    rintro rfl hopens
    have hnone : direct = [] := List.length_eq_zero_iff.mp hopens
    subst hnone
    have h₀ : (system lib false callbackThreads).Reachable (PostgresClient.start connection) :=
      .of_init ⟨connection, rfl⟩
    refine ⟨_, h₀.next (.connect rfl rfl), ?_⟩
    exact {
      worker := rfl
      requests := rfl
      direct := rfl
      stopRequested := rfl
      callbackQueue := rfl
      idle := rfl
      callbackWorkers := by simp [Signals.connected, CallbackWorker.place,
        StopSignal.CallbackState.place]
      callbackStop := by
        intro w hw hstopped
        rw [(List.mem_replicate.mp hw).2] at hstopped
        cases hstopped
      destructor := rfl }
  step s s' direct' hreach hstep := by
    have hwoken := StopSignal.woken_of_reachable hreach
    have hjoining := StopSignal.joining_of_reachable hreach
    have hfollowed : Followed lib callbackThreads s s' := by
      cases hstep with
      | call h => exact followed_call hwoken h
      | worker h => exact followed_worker hlib h
      | callback hw h => exact followed_callback hjoining hw h
      | destructor h => exact followed_destructor hjoining h
    exact hfollowed direct'

/-- Whatever the closer view reaches is the view of a client in a reachable state, whichever of the
requests that are under way are direct. -/
theorem seen_of_reachable (hlib : Returns lib) (connection : σ)
    (h : (StopSignal.system callbackThreads).Reachable s) (hdirect : direct.length = s.underWay) :
    ∃ c, (system lib false callbackThreads).Reachable c ∧ Seen direct s c :=
  (simulates hlib connection).reachable h hdirect

/-- What is proved of the client holds in the closer view: the idle counter is the number of
callback workers in their wait, and the destructor returns with an empty callback queue. -/
theorem closer_of_reachable (h : (StopSignal.system callbackThreads).Reachable s) :
    s.idleCallbackWorkers = s.callbackWorkers.countP (·.state.place = .waiting) ∧
      (s.destructor = .finished → s.callbackQueue = 0) := by
  rcases (simulates server_returns (Server.fresh [])).reachable h
    (List.length_replicate (a := true)) with ⟨c, hreach, hc⟩
  constructor
  · rw [← hc.idle, (idleCounted_of_reachable hreach).counted, waitingCallbacks]
    have hcount := congrArg (List.countP (· = .waiting)) hc.callbackWorkers
    rw [List.countP_map, List.countP_map] at hcount
    rw [← Function.comp_def (fun p => decide (p = CallbackPlace.waiting)), ← hcount]
    apply List.countP_congr
    intro w _
    cases w <;> simp [CallbackWorker.isWaiting, CallbackWorker.place]
  · intro hfinished
    have hdestructor := hc.destructor
    rw [hfinished] at hdestructor
    rw [← hc.callbackQueue, queue_of_finished hreach hdestructor]
    rfl

/-- The worker has queued a task and is about to notify a callback worker. -/
theorem seen_taskQueued :
    ∃ c, (system (ρ := Submission) server false 1).Reachable c ∧
      Seen [] StopSignal.taskQueued c :=
  seen_of_reachable server_returns (Server.fresh []) StopSignal.taskQueued_reachable rfl

end PostgresLib.Client
