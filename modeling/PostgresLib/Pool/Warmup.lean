import PostgresLib.Pool.Semaphore

/-! # What the warm-up announces

The pool becomes ready when a `fill_pool` thread finds, right after its push, as many
idle connections as the pool was to be filled with. Each thread looks once. A client
that takes a permit or an idle connection during the warm-up can keep every thread
from finding them, and then nobody announces the pool.
-/

namespace PostgresLib.Pool

open Foundations

variable {κ : Type} {cfg : PoolConfig}

namespace Thread

/-- A thread of the warm-up that has not returned. -/
def fills : Thread κ → Bool
  | fillTest | fillTry | fillGranted | fillCreate | fillFailed | fillSleep => true
  | fillPush _ | fillRelease _ | fillAnnounce | fillExpand | fillGrow => true
  | _ => false

/-- A thread that is about to call `try_acquire` in the warm-up. -/
def tries : Thread κ → Bool
  | fillTry => true
  | _ => false

/-- A thread of the warm-up that has found the queue full and not announced the pool. -/
def announces : Thread κ → Bool
  | fillRelease isFull => isFull
  | fillAnnounce => true
  | _ => false

end Thread

/-- `try_acquire` fails only when no permit is available. -/
def NotSpurious (c c' : Config (Shared κ) (Thread κ)) : Prop :=
  c'.threads.countP Thread.tries < c.threads.countP Thread.tries →
    c.shared.capacity = 0 ∨ c'.shared.capacity < c.shared.capacity

def strictRuns (cfg : PoolConfig) : TransitionSystem (Config (Shared κ) (Thread κ)) :=
  (system cfg).guarded NotSpurious

/-- A `fill_pool` thread pushes its connection when exactly one is missing. -/
inductive FillsUp (cfg : PoolConfig) :
    Config (Shared κ) (Thread κ) → Config (Shared κ) (Thread κ) → Prop
  | push {s} (pre post : List (Thread κ)) (conn : κ)
      (h : s.connections.length + 1 = cfg.initSize) :
      FillsUp cfg ⟨s, pre ++ .fillPush conn :: post⟩
        ⟨{ s with connections := s.connections ++ [conn] }, pre ++ .fillRelease true :: post⟩

/-- The pool is ready, or a thread is about to announce it. -/
def Announced (c : Config (Shared κ) (Thread κ)) : Prop :=
  c.shared.poolReady = true ∨ ∃ t ∈ c.threads, t.announces = true

/-- What a thread does to its own announcement: only a push that fills the queue up makes one, and
it leads to a ready pool. -/
theorem announced_act {s s' : Shared κ} {t t' : Thread κ} (h : Act cfg s t s' t') :
    (s'.poolReady = true ∨ t'.announces = true ↔ s.poolReady = true ∨ t.announces = true) ∨
      ∃ conn, t = .fillPush conn ∧ t' = .fillRelease true ∧
        s.connections.length + 1 = cfg.initSize ∧
        s' = { s with connections := s.connections ++ [conn] } := by
  cases h with
  | fillPush conn =>
    by_cases hfull : s.connections.length + 1 = cfg.initSize
    · right
      refine ⟨conn, rfl, ?_, hfull, rfl⟩
      simp [hfull]
    · left
      simp [Thread.announces, hfull]
  | fillRelease isFull =>
    left
    cases isFull <;> simp [Thread.announces]
  | fillAnnounce =>
    left
    simp [Thread.announces]
  | _ => exact .inl Iff.rfl

theorem announced_cons {s : Shared κ} {pre post : List (Thread κ)} {t : Thread κ} :
    Announced ⟨s, pre ++ t :: post⟩ ↔
      (s.poolReady = true ∨ t.announces = true) ∨ ∃ u ∈ pre ++ post, u.announces = true := by
  simp only [Announced, List.mem_append, List.mem_cons]
  grind

theorem FillsUp.announced {c c' : Config (Shared κ) (Thread κ)} (h : FillsUp cfg c c') :
    Announced c' := by
  cases h with
  | push pre post conn => exact .inr ⟨.fillRelease true, by simp, rfl⟩

theorem announced_spawn {s s' : Shared κ} {ts : List (Thread κ)} {t : Thread κ}
    (h : Spawn s ts s' t) : Announced ⟨s', ts ++ [t]⟩ ↔ Announced ⟨s, ts⟩ := by
  cases h <;> simp [Announced, Thread.announces]

/-- A step keeps the announcement, and only a push that fills the queue up makes one. -/
theorem announced_step {c c' : Config (Shared κ) (Thread κ)} (h : (system cfg).step c c') :
    Announced c' ↔ Announced c ∨ FillsUp cfg c c' := by
  cases h with
  | @act s s' t t' pre post h =>
    rcases announced_act h with hsame | ⟨conn, rfl, rfl, hfull, rfl⟩
    · have hiff : Announced ⟨s', pre ++ t' :: post⟩ ↔ Announced ⟨s, pre ++ t :: post⟩ := by
        rw [announced_cons, announced_cons, hsame]
      rw [hiff]
      exact (or_iff_left_of_imp fun hfills => hiff.mp hfills.announced).symm
    · have hfills : FillsUp cfg _ _ := .push pre post conn hfull
      exact iff_of_true hfills.announced (.inr hfills)
  | spawn ts h =>
    rw [announced_spawn h]
    exact (or_iff_left_of_imp fun hfills => (announced_spawn h).mp hfills.announced).symm

theorem not_announced_start (hwarm : cfg.warmsUp = true) : ¬ Announced (start (κ := κ) cfg) := by
  rw [start, if_pos hwarm]
  rintro (hready | ⟨t, ht, hannounces⟩)
  · cases hready
  · rw [List.eq_of_mem_replicate ht] at hannounces
    cases hannounces

/-- A push in the run to a state that found exactly one connection missing. -/
def FilledUp (T : TransitionSystem (Config (Shared κ) (Thread κ))) (cfg : PoolConfig)
    (c : Config (Shared κ) (Thread κ)) : Prop :=
  ∃ c₁ c₂, T.Reachable c₁ ∧ T.step c₁ c₂ ∧ FillsUp cfg c₁ c₂ ∧ T.Run c₂ c

theorem announced_iff_filledUp (hwarm : cfg.warmsUp = true) {c : Config (Shared κ) (Thread κ)}
    (h : (strictRuns cfg).Reachable c) : Announced c ↔ FilledUp (strictRuns cfg) cfg c := by
  constructor
  · apply h.induct
    · rintro s rfl hannounced
      exact absurd hannounced (not_announced_start hwarm)
    · intro s s' hreach hs hstep hannounced
      rcases (announced_step hstep.1).mp hannounced with hold | hfills
      · obtain ⟨c₁, c₂, h₁, hpush, hfills, hrun⟩ := hs hold
        exact ⟨c₁, c₂, h₁, hpush, hfills, hrun.tail hstep⟩
      · exact ⟨s, s', hreach, hstep, hfills, .refl⟩
  · rintro ⟨c₁, c₂, -, -, hfills, hrun⟩
    apply TransitionSystem.Run.preserves _ hrun hfills.announced
    exact fun s s' hstep hs => (announced_step hstep.1).mpr (.inl hs)

theorem Thread.fills_of_announces {t : Thread κ} (h : t.announces = true) : t.fills = true := by
  cases t with
  | fillRelease | fillAnnounce => rfl
  | _ => cases h

theorem poolReady_iff_announced {c : Config (Shared κ) (Thread κ)}
    (hreturned : ∀ t ∈ c.threads, t.fills = false) :
    c.shared.poolReady = true ↔ Announced c := by
  constructor
  · exact .inl
  · rintro (hready | ⟨t, ht, hannounces⟩)
    · exact hready
    · have hfills := hreturned t ht
      rw [Thread.fills_of_announces hannounces] at hfills
      cases hfills

namespace Thread

/-- A thread of the warm-up that has not found the queue full. -/
def warms : Thread κ → Bool
  | fillTest | fillTry | fillGranted | fillCreate | fillFailed | fillSleep => true
  | fillPush _ | fillRelease false | returned => true
  | _ => false

def pushed : Thread κ → ℕ
  | fillRelease _ | returned => 1
  | _ => 0

def calls (t : Thread κ) : Bool := !t.fills && !t matches returned

end Thread

/-- Until the pool is ready, no call begins. -/
def Undisturbed (c c' : Config (Shared κ) (Thread κ)) : Prop :=
  c.shared.poolReady = false → ∀ t ∈ c'.threads, t.calls = false

def undisturbedRuns (cfg : PoolConfig) : TransitionSystem (Config (Shared κ) (Thread κ)) :=
  (strictRuns cfg).guarded Undisturbed

def Clientless (_ c' : Config (Shared κ) (Thread κ)) : Prop := ∀ t ∈ c'.threads, t.calls = false

/-- The pool fills: each of its threads has a permit, and those that have returned have pushed. -/
structure WarmingUp (cfg : PoolConfig) (c : Config (Shared κ) (Thread κ)) : Prop where
  running : c.shared.stopRequested = false
  members : c.threads.length = cfg.initSize
  warm : ∀ t ∈ c.threads, t.warms = true
  permits : c.shared.capacity + total Thread.owes c.threads = cfg.initSize
  pushed : c.shared.connections.length = total Thread.pushed c.threads
  missing : c.shared.connections.length < cfg.initSize

theorem warm_act {s s' : Shared κ} {t t' : Thread κ} (h : Act cfg s t s' t')
    (ht : t.warms = true) (hrunning : s.stopRequested = false) :
    (t = .fillTry ∧ t' = .returned ∧ s' = s) ∨ t'.announces = true ∨
      t'.warms = true ∧ s'.stopRequested = false ∧
        s'.capacity + t'.owes = s.capacity + t.owes ∧
        s'.connections.length + t.pushed = s.connections.length + t'.pushed ∧
        (s.connections.length < cfg.initSize → s'.connections.length < cfg.initSize) := by
  cases h with
  | fillStopped h =>
    rw [hrunning] at h
    cases h
  | fillNoPermit => exact .inl ⟨rfl, rfl, rfl⟩
  | fillPush conn =>
    right
    by_cases hfull : s.connections.length + 1 = cfg.initSize
    · left
      simp [Thread.announces, hfull]
    · right
      have hnot : decide ((s.connections ++ [conn]).length = cfg.initSize) = false := by
        simpa using hfull
      rw [hnot]
      refine ⟨rfl, hrunning, rfl, by simp [Thread.pushed], ?_⟩
      intro hmissing
      rw [List.length_append, List.length_singleton]
      omega
  | fillRelease isFull =>
    cases isFull with
    | true => cases ht
    | false => exact .inr (.inr ⟨rfl, hrunning, by simp, rfl, id⟩)
  | fillTryAcquire h => exact .inr (.inr ⟨rfl, hrunning, by simp [h], rfl, id⟩)
  | fillGoOn | fillCallFactory | fillCreated | fillNotCreated | fillReturnPermit | fillRetry =>
    exact .inr (.inr ⟨rfl, hrunning, by simp, rfl, id⟩)
  | _ => cases ht

theorem Thread.owes_le_one (t : Thread κ) : t.owes ≤ 1 := by
  cases t <;> simp

/-- A thread that tries finds a permit, because every other thread has at most one. -/
theorem WarmingUp.capacity_pos {s : Shared κ} {pre post : List (Thread κ)}
    (hc : WarmingUp cfg ⟨s, pre ++ .fillTry :: post⟩) : 0 < s.capacity := by
  have hmembers := hc.members
  have hpermits := hc.permits
  have hpre := total_le_length Thread.owes_le_one pre
  have hpost := total_le_length Thread.owes_le_one post
  simp only [List.length_append, List.length_cons] at hmembers
  simp only [total_append, total_cons, Thread.owes] at hpermits
  omega

theorem warmingUp_act {s s' : Shared κ} {t t' : Thread κ} {pre post : List (Thread κ)}
    (h : Act cfg s t s' t') (hc : WarmingUp cfg ⟨s, pre ++ t :: post⟩)
    (hstrict : NotSpurious ⟨s, pre ++ t :: post⟩ ⟨s', pre ++ t' :: post⟩) :
    t'.announces = true ∨ WarmingUp cfg ⟨s', pre ++ t' :: post⟩ := by
  have hwarm : t.warms = true := hc.warm t (by simp)
  rcases warm_act h hwarm hc.running with ⟨rfl, rfl, rfl⟩ | hannounces |
    ⟨hwarm', hrunning, hpermits, hpushed, hmissing⟩
  · have hpos := hc.capacity_pos
    rcases hstrict (by simp [List.countP_cons, Thread.tries]) with hnone | hless
    · exact absurd hnone hpos.ne'
    · exact absurd hless (Nat.lt_irrefl _)
  · exact .inl hannounces
  · right
    have hp := hc.permits
    have hq := hc.pushed
    simp only [total_append, total_cons] at hp hq
    exact {
      running := hrunning
      members := by
        have hmembers := hc.members
        simpa using hmembers
      warm := by
        intro u hu
        rcases List.mem_append.mp hu with hpre | hpost
        · exact hc.warm u (List.mem_append_left _ hpre)
        · rcases List.mem_cons.mp hpost with rfl | hpost
          · exact hwarm'
          · exact hc.warm u (List.mem_append_right _ (List.mem_cons_of_mem _ hpost))
      permits := by
        simp only [total_append, total_cons]
        omega
      pushed := by
        simp only [total_append, total_cons]
        omega
      missing := hmissing hc.missing }

theorem calls_spawn {s s' : Shared κ} {ts : List (Thread κ)} {t : Thread κ}
    (h : Spawn s ts s' t) : t.calls = true := by
  cases h <;> rfl

theorem warmingUp_step {c c' : Config (Shared κ) (Thread κ)} (h : (strictRuns cfg).step c c')
    (hquiet : Undisturbed c c') (hc : Announced c ∨ WarmingUp cfg c) :
    Announced c' ∨ WarmingUp cfg c' := by
  by_cases hold : Announced c
  · exact .inl ((announced_step h.1).mpr (.inl hold))
  · have hwarming := hc.resolve_left hold
    have hready : c.shared.poolReady = false := by
      by_contra hready
      exact hold (.inl (by simpa using hready))
    obtain ⟨hstep, hstrict⟩ := h
    cases hstep with
    | act pre post h =>
      rcases warmingUp_act h hwarming hstrict with hannounces | hwarming
      · exact .inl (.inr ⟨_, by simp, hannounces⟩)
      · exact .inr hwarming
    | spawn ts h =>
      have hcalls := hquiet hready _ (List.mem_append_right _ (List.mem_singleton_self _))
      rw [calls_spawn h] at hcalls
      cases hcalls

theorem warmingUp_start (hwarm : cfg.warmsUp = true) : WarmingUp cfg (start (κ := κ) cfg) := by
  have hsize : 0 < cfg.initSize := by
    simp only [PoolConfig.warmsUp, Bool.and_eq_true, decide_eq_true_eq] at hwarm
    exact hwarm.1.1.2
  rw [start, if_pos hwarm]
  refine ⟨rfl, by simp, ?_, by simp, by simp [Thread.pushed], hsize⟩
  intro t ht
  rw [List.eq_of_mem_replicate ht]
  rfl

theorem announced_of_undisturbedRuns (hwarm : cfg.warmsUp = true) {c : Config (Shared κ) (Thread κ)}
    (h : (undisturbedRuns cfg).Reachable c) : Announced c ∨ WarmingUp cfg c := by
  apply h.induct
  · rintro s rfl
    exact .inr (warmingUp_start hwarm)
  · exact fun s s' _ hs hstep => warmingUp_step hstep.1 hstep.2 hs

theorem Thread.eq_returned {t : Thread κ} (hwarm : t.warms = true) (hfills : t.fills = false) :
    t = .returned := by
  cases t with
  | returned => rfl
  | fillTest | fillTry | fillGranted | fillCreate | fillFailed | fillSleep | fillPush
  | fillRelease => cases hfills
  | _ => cases hwarm

/-- Some thread of a filling pool has not returned: the pool would be full. -/
theorem WarmingUp.exists_fills {c : Config (Shared κ) (Thread κ)} (hc : WarmingUp cfg c) :
    ∃ t ∈ c.threads, t.fills = true := by
  by_contra hnone
  have hpushed : ∀ t ∈ c.threads, t = .returned := by
    intro t ht
    have hwarm := hc.warm t ht
    have hfills : t.fills = false := by
      by_contra hfills
      exact hnone ⟨t, ht, by simpa using hfills⟩
    exact Thread.eq_returned hwarm hfills
  have hall : c.threads = List.replicate cfg.initSize .returned :=
    List.eq_replicate_iff.mpr ⟨hc.members, hpushed⟩
  have hlength := hc.pushed
  have hmissing := hc.missing
  rw [hall, total_replicate] at hlength
  simp only [Thread.pushed, mul_one] at hlength
  omega

/-- When every thread of the warm-up has returned, the pool is ready if and only if one of them
pushed its connection when exactly one was missing, and it is when clients wait for the warm-up. -/
theorem poolReady_iff_filledUp (cfg : PoolConfig) (hwarm : cfg.warmsUp = true)
    (c : Config (Shared κ) (Thread κ)) (hreturned : ∀ t ∈ c.threads, t.fills = false) :
    ((strictRuns cfg).Reachable c →
      (c.shared.poolReady = true ↔ FilledUp (strictRuns cfg) cfg c)) ∧
    ((undisturbedRuns cfg).Reachable c → c.shared.poolReady = true) := by
  have hready := poolReady_iff_announced hreturned
  constructor
  · intro h
    exact hready.trans (announced_iff_filledUp hwarm h)
  · intro h
    rcases announced_of_undisturbedRuns hwarm h with hannounced | hwarming
    · exact hready.mpr hannounced
    · obtain ⟨t, ht, hfills⟩ := hwarming.exists_fills
      rw [hreturned t ht] at hfills
      cases hfills

instance (c c' : Config (Shared κ) (Thread κ)) : Decidable (Clientless c c') :=
  inferInstanceAs (Decidable (∀ t ∈ c'.threads, t.calls = false))

/-- Whoever tries takes a permit that the semaphore can count, and no call begins. -/
structure Smooth (c c' : Config (Shared κ) (Thread κ)) : Prop where
  takes : c'.threads.countP Thread.tries < c.threads.countP Thread.tries →
    c'.shared.capacity < c.shared.capacity
  counts : CountsPermits c c'
  clientless : Clientless c c'

theorem Smooth.of_kept {c c' : Config (Shared κ) (Thread κ)}
    (htries : c.threads.countP Thread.tries ≤ c'.threads.countP Thread.tries)
    (hcapacity : c.shared.capacity ≤ c'.shared.capacity) (hclientless : Clientless c c') :
    Smooth c c' where
  takes h := absurd h htries.not_gt
  counts h := absurd h hcapacity.not_gt
  clientless := hclientless

theorem Smooth.of_taken {c c' : Config (Shared κ) (Thread κ)}
    (hless : c'.shared.capacity < c.shared.capacity) (hcounter : 0 < counter c.shared.capacity)
    (hclientless : Clientless c c') : Smooth c c' where
  takes _ := hless
  counts _ := hcounter
  clientless := hclientless

def eagerThree : PoolConfig := ⟨3, 2, true⟩

/-- An eager pool for one connection that may grow to more than an `int` counts. -/
def eagerHuge : PoolConfig := ⟨4294967296, 1, true⟩

def eagerState (poolReady capacityExpanded : Bool) (capacity : ℕ) (connections : List ℕ)
    (granted : ℕ) : Shared ℕ where
  poolReady := poolReady
  capacityExpanded := capacityExpanded
  stopRequested := false
  capacity := capacity
  connections := connections
  held := []
  granted := granted
  unpaid := 0

/-- The warm-up with two threads: the first factory call fails, and the semaphore is enlarged while
one thread still has a permit. -/
theorem eagerThree_warmed :
    ((system eagerThree).guarded Smooth).Reachable
      ⟨eagerState true true 3 [7, 8] 3, [.returned, .returned]⟩ := by
  let T := (system (κ := ℕ) eagerThree).guarded Smooth
  have h₀ : T.Reachable ⟨eagerState false false 2 [] 2, [.fillTest, .fillTest]⟩ := .of_init rfl
  have h₁ := h₀.next ⟨.act [] [_] (.fillGoOn rfl), .of_kept (by decide) le_rfl (by decide)⟩
  have h₂ : T.Reachable ⟨eagerState false false 1 [] 2, [.fillGranted, .fillTest]⟩ :=
    h₁.next ⟨.act [] [_] (.fillTryAcquire rfl), .of_taken (by decide) (by decide) (by decide)⟩
  have h₃ := h₂.next ⟨.act [] [_] .fillCallFactory, .of_kept (by decide) le_rfl (by decide)⟩
  have h₄ := h₃.next ⟨.act [] [_] .fillNotCreated, .of_kept (by decide) le_rfl (by decide)⟩
  have h₅ : T.Reachable ⟨eagerState false false 2 [] 2, [.fillSleep, .fillTest]⟩ :=
    h₄.next ⟨.act [] [_] .fillReturnPermit, .of_kept (by decide) (by decide) (by decide)⟩
  have h₆ := h₅.next ⟨.act [] [_] .fillRetry, .of_kept (by decide) le_rfl (by decide)⟩
  have h₇ := h₆.next ⟨.act [] [_] (.fillGoOn rfl), .of_kept (by decide) le_rfl (by decide)⟩
  have h₈ : T.Reachable ⟨eagerState false false 1 [] 2, [.fillGranted, .fillTest]⟩ :=
    h₇.next ⟨.act [] [_] (.fillTryAcquire rfl), .of_taken (by decide) (by decide) (by decide)⟩
  have h₉ := h₈.next ⟨.act [_] [] (.fillGoOn rfl), .of_kept (by decide) le_rfl (by decide)⟩
  have h₁₀ : T.Reachable ⟨eagerState false false 0 [] 2, [.fillGranted, .fillGranted]⟩ :=
    h₉.next ⟨.act [_] [] (.fillTryAcquire rfl), .of_taken (by decide) (by decide) (by decide)⟩
  have h₁₁ := h₁₀.next ⟨.act [] [_] .fillCallFactory, .of_kept (by decide) le_rfl (by decide)⟩
  have h₁₂ := h₁₁.next ⟨.act [] [_] (.fillCreated 7), .of_kept (by decide) le_rfl (by decide)⟩
  have h₁₃ : T.Reachable ⟨eagerState false false 0 [7] 2, [.fillRelease false, .fillGranted]⟩ :=
    h₁₂.next ⟨.act [] [_] (.fillPush 7), .of_kept (by decide) le_rfl (by decide)⟩
  have h₁₄ := h₁₃.next ⟨.act [_] [] .fillCallFactory, .of_kept (by decide) le_rfl (by decide)⟩
  have h₁₅ := h₁₄.next ⟨.act [_] [] (.fillCreated 8), .of_kept (by decide) le_rfl (by decide)⟩
  have h₁₆ : T.Reachable
      ⟨eagerState false false 0 [7, 8] 2, [.fillRelease false, .fillRelease true]⟩ :=
    h₁₅.next ⟨.act [_] [] (.fillPush 8), .of_kept (by decide) le_rfl (by decide)⟩
  have h₁₇ : T.Reachable
      ⟨eagerState false false 1 [7, 8] 2, [.fillRelease false, .fillAnnounce]⟩ :=
    h₁₆.next ⟨.act [_] [] (.fillRelease true), .of_kept (by decide) (by decide) (by decide)⟩
  have h₁₈ := h₁₇.next ⟨.act [_] [] .fillAnnounce, .of_kept (by decide) le_rfl (by decide)⟩
  have h₁₉ := h₁₈.next ⟨.act [_] [] (.fillExpand ⟨by decide, rfl⟩),
    .of_kept (by decide) le_rfl (by decide)⟩
  have h₂₀ : T.Reachable ⟨eagerState true true 2 [7, 8] 3, [.fillRelease false, .returned]⟩ :=
    h₁₉.next ⟨.act [_] [] .fillGrow, .of_kept (by decide) (by decide) (by decide)⟩
  exact h₂₀.next ⟨.act [] [_] (.fillRelease false), .of_kept (by decide) (by decide) (by decide)⟩

/-- The warm-up whose expansion is converted to -1, and leaves a counter of 0. -/
theorem eagerHuge_warmed :
    ((system eagerHuge).guarded Smooth).Reachable
      ⟨eagerState true true 4294967296 [7] 4294967296, [.returned]⟩ := by
  let T := (system (κ := ℕ) eagerHuge).guarded Smooth
  have h₀ : T.Reachable ⟨eagerState false false 1 [] 1, [.fillTest]⟩ := .of_init rfl
  have h₁ := h₀.next ⟨.act [] [] (.fillGoOn rfl), .of_kept (by decide) le_rfl (by decide)⟩
  have h₂ : T.Reachable ⟨eagerState false false 0 [] 1, [.fillGranted]⟩ :=
    h₁.next ⟨.act [] [] (.fillTryAcquire rfl), .of_taken (by decide) (by decide) (by decide)⟩
  have h₃ := h₂.next ⟨.act [] [] .fillCallFactory, .of_kept (by decide) le_rfl (by decide)⟩
  have h₄ := h₃.next ⟨.act [] [] (.fillCreated 7), .of_kept (by decide) le_rfl (by decide)⟩
  have h₅ : T.Reachable ⟨eagerState false false 0 [7] 1, [.fillRelease true]⟩ :=
    h₄.next ⟨.act [] [] (.fillPush 7), .of_kept (by decide) le_rfl (by decide)⟩
  have h₆ := h₅.next ⟨.act [] [] (.fillRelease true), .of_kept (by decide) (by decide) (by decide)⟩
  have h₇ := h₆.next ⟨.act [] [] .fillAnnounce, .of_kept (by decide) le_rfl (by decide)⟩
  have h₈ := h₇.next ⟨.act [] [] (.fillExpand ⟨by decide, rfl⟩),
    .of_kept (by decide) le_rfl (by decide)⟩
  exact h₈.next ⟨.act [] [] .fillGrow, .of_kept (by decide) (by decide) (by decide)⟩

theorem eagerThree_filled :
    (undisturbedRuns eagerThree).Reachable
      ⟨eagerState true true 3 [7, 8] 3, [.returned, .returned]⟩ :=
  eagerThree_warmed.guarded_twice (fun _ _ h htries => .inr (h.takes htries))
    fun _ _ h _ => h.clientless

theorem poolReady_eagerThree_filled :
    ((eagerState true true 3 [7, 8] 3).poolReady = true ↔
      FilledUp (strictRuns eagerThree) eagerThree
        ⟨eagerState true true 3 [7, 8] 3, [.returned, .returned]⟩) ∧
      (eagerState true true 3 [7, 8] 3).poolReady = true := by
  have h := poolReady_iff_filledUp eagerThree rfl
    ⟨eagerState true true 3 [7, 8] 3, [.returned, .returned]⟩ (by decide)
  exact ⟨h.1 eagerThree_filled.of_guarded, h.2 eagerThree_filled⟩

def eagerOne : PoolConfig := ⟨1, 1, true⟩

/-- A client that takes the only permit during the warm-up: the thread of the warm-up finds none and
returns, and nobody announces the pool. -/
theorem not_ready_after_early_acquire :
    ¬ ∀ (cfg : PoolConfig) (c : Config (Shared ℕ) (Thread ℕ)), cfg.warmsUp = true →
      (strictRuns cfg).Reachable c → (∀ t ∈ c.threads, t.fills = false) →
      c.shared.stopRequested = false → c.shared.poolReady = true := by
  have h₀ : (strictRuns eagerOne).Reachable ⟨eagerState false false 1 [] 1, [.fillTest]⟩ :=
    .of_init rfl
  have h₁ := h₀.next ⟨.act [] [] (.fillGoOn rfl), nofun⟩
  have h₂ := h₁.next ⟨.spawn _ .acquire, nofun⟩
  have h₃ := h₂.next ⟨.act [_] [] (.acquireNoneIdle rfl), nofun⟩
  have h₄ := h₃.next ⟨.act [_] [] .acquireInTime, nofun⟩
  have h₅ : (strictRuns eagerOne).Reachable
      ⟨eagerState false false 0 [] 1, [.fillTry, .acquireRetest]⟩ :=
    h₄.next ⟨.act [_] [] (.acquireGranted rfl), fun _ => .inr Nat.one_pos⟩
  have h₆ := h₅.next ⟨.act [] [_] .fillNoPermit, fun _ => .inl rfl⟩
  intro hall
  have hready := hall eagerOne _ rfl h₆ (by decide) rfl
  cases hready

end PostgresLib.Pool
