import PostgresLib.Pool.Warmup
import PostgresLib.Pool.SizeBound

/-! # What the warm-up leaves behind

Without clients every thread of the warm-up finds a permit, pushes one connection and
gives the permit back. The last push finds the queue full; its thread announces the
pool and enlarges the semaphore, whatever permits other threads still hold. The
counter of the semaphore shows all permits exactly when it can count them.
-/

namespace PostgresLib.Pool

open Foundations

variable {κ : Type} {cfg : PoolConfig}

namespace Thread

def stored : Thread κ → ℕ
  | fillRelease _ | fillAnnounce | fillExpand | fillGrow | returned => 1
  | _ => 0

/-- A thread that has found the queue full and not finished what follows from it. -/
def past : Thread κ → Bool
  | fillRelease isFull => isFull
  | fillAnnounce | fillExpand | fillGrow => true
  | _ => false

/-- A thread that has found the queue full and has not come to the expansion. -/
def beforeExpand : Thread κ → Bool
  | fillRelease isFull => isFull
  | fillAnnounce | fillExpand => true
  | _ => false

def growing : Thread κ → ℕ
  | fillGrow => 1
  | _ => 0

end Thread

/-- `try_acquire` fails only when the counter shows no permit. -/
def FailsEmpty (c c' : Config (Shared κ) (Thread κ)) : Prop :=
  c'.threads.countP Thread.tries < c.threads.countP Thread.tries →
    counter c.shared.capacity ≤ 0 ∨ c'.shared.capacity < c.shared.capacity

def clientlessRuns (cfg : PoolConfig) : TransitionSystem (Config (Shared κ) (Thread κ)) :=
  (countedRuns cfg).guarded fun c c' => FailsEmpty c c' ∧ Clientless c c'

/-- A `fill_pool` thread that calls `try_acquire` returns without a permit. -/
inductive MissesPermit : Config (Shared κ) (Thread κ) → Config (Shared κ) (Thread κ) → Prop
  | miss {s} (pre post : List (Thread κ)) :
      MissesPermit ⟨s, pre ++ .fillTry :: post⟩ ⟨s, pre ++ .returned :: post⟩

/-- A thread enlarges the semaphore by the difference of the two sizes. -/
inductive Expands (cfg : PoolConfig) :
    Config (Shared κ) (Thread κ) → Config (Shared κ) (Thread κ) → Prop
  | grow {s} (pre post : List (Thread κ)) :
      Expands cfg ⟨s, pre ++ .fillGrow :: post⟩
        ⟨{ s with capacity := s.capacity + cfg.growth, granted := s.granted + cfg.growth },
          pre ++ .returned :: post⟩

/-- The members of the pool and its threads while no client uses it. -/
structure Warm (cfg : PoolConfig) (c : Config (Shared κ) (Thread κ)) : Prop where
  running : c.shared.stopRequested = false
  held : c.shared.held = []
  unpaid : c.shared.unpaid = 0
  granted : cfg.initSize ≤ c.shared.granted
  members : c.threads.length = cfg.initSize
  quiet : ∀ t ∈ c.threads, t.calls = false
  stored : c.shared.connections.length = total Thread.stored c.threads
  full : ∀ t ∈ c.threads, t.past = true → c.shared.connections.length = cfg.initSize
  ready : c.shared.poolReady = true → c.shared.connections.length = cfg.initSize
  expanding : c.shared.connections.length = cfg.initSize → cfg.initSize < cfg.maxSize →
    c.shared.capacityExpanded = true ∨ ∃ t ∈ c.threads, t.beforeExpand = true
  smaller : c.shared.capacityExpanded = true → cfg.initSize < cfg.maxSize

theorem act_of_quiet {s s' : Shared κ} {t t' : Thread κ} (h : Act cfg s t s' t')
    (ht : t.calls = false) (hrunning : s.stopRequested = false) :
    (t = .fillTry ∧ t' = .returned ∧ s' = s) ∨
      s'.stopRequested = false ∧ s'.held = s.held ∧ s'.unpaid = s.unpaid ∧
        s.granted ≤ s'.granted ∧
        s'.connections.length + t.stored = s.connections.length + t'.stored ∧
        t.stored ≤ t'.stored := by
  cases h with
  | fillStopped h =>
    rw [hrunning] at h
    cases h
  | fillNoPermit => exact .inl ⟨rfl, rfl, rfl⟩
  | fillRelease isFull => cases isFull <;> exact .inr ⟨hrunning, rfl, rfl, le_rfl, rfl, le_rfl⟩
  | fillPush conn =>
    right
    exact ⟨hrunning, rfl, rfl, le_rfl, by simp [Thread.stored], Nat.zero_le _⟩
  | fillGrow => exact .inr ⟨hrunning, rfl, rfl, Nat.le_add_right _ _, rfl, le_rfl⟩
  | fillGoOn | fillTryAcquire | fillCallFactory | fillCreated | fillNotCreated | fillReturnPermit
  | fillRetry | fillAnnounce | fillExpand | fillExpanded =>
    exact .inr ⟨hrunning, rfl, rfl, le_rfl, rfl, le_rfl⟩
  | _ => cases ht

/-- What a thread finds out, announces and enlarges in one step. -/
structure Finds (cfg : PoolConfig) (s : Shared κ) (t : Thread κ) (s' : Shared κ) (t' : Thread κ) :
    Prop where
  past : t'.past = true → t.past = true ∨ s'.connections.length = cfg.initSize
  ready : s'.poolReady = true → s.poolReady = true ∨ t.past = true
  filled : s'.connections.length = cfg.initSize →
    s.connections.length = cfg.initSize ∨ t'.beforeExpand = true
  expanding : t.beforeExpand = true → cfg.initSize < cfg.maxSize →
    t'.beforeExpand = true ∨ s'.capacityExpanded = true
  expanded : s.capacityExpanded = true → s'.capacityExpanded = true
  smaller : s'.capacityExpanded = true →
    s.capacityExpanded = true ∨ cfg.initSize < cfg.maxSize

theorem finds_of_quiet {s s' : Shared κ} {t t' : Thread κ} (h : Act cfg s t s' t')
    (ht : t.calls = false) : Finds cfg s t s' t' := by
  cases h with
  | fillRelease isFull =>
    cases isFull with
    | true => exact ⟨.inl, .inl, .inl, fun _ _ => .inl rfl, id, .inl⟩
    | false => exact ⟨.inl, .inl, .inl, nofun, id, .inl⟩
  | fillPush conn =>
    exact ⟨fun hfull => .inr (of_decide_eq_true hfull), .inl,
      fun hfull => .inr (decide_eq_true hfull), nofun, id, .inl⟩
  | fillAnnounce =>
    exact ⟨fun _ => .inl rfl, fun _ => .inr rfl, .inl, fun _ _ => .inl rfl, id, .inl⟩
  | fillExpand h =>
    exact ⟨fun _ => .inl rfl, .inl, .inl, fun _ _ => .inr rfl, fun _ => rfl, fun _ => .inr h.1⟩
  | fillExpanded h =>
    refine ⟨nofun, .inl, .inl, fun _ hsmaller => .inr ?_, id, .inl⟩
    by_contra hnot
    exact h ⟨hsmaller, by simpa using hnot⟩
  | fillStopped | fillGoOn | fillTryAcquire | fillNoPermit | fillCallFactory | fillCreated
  | fillNotCreated | fillReturnPermit | fillRetry | fillGrow =>
    exact ⟨nofun, .inl, .inl, nofun, id, .inl⟩
  | _ => cases ht

/-- A thread that tries finds a permit: the other threads hold at most one each. -/
theorem Warm.capacity_pos {s : Shared κ} {pre post : List (Thread κ)}
    (hc : Warm cfg ⟨s, pre ++ .fillTry :: post⟩)
    (hbalanced : Balanced ⟨s, pre ++ .fillTry :: post⟩) : 0 < s.capacity := by
  have hmembers := hc.members
  have hgranted : cfg.initSize ≤ s.granted := hc.granted
  have hheld : s.held = [] := hc.held
  have hunpaid : s.unpaid = 0 := hc.unpaid
  have hpre := total_le_length Thread.owes_le_one pre
  have hpost := total_le_length Thread.owes_le_one post
  simp only [List.length_append, List.length_cons] at hmembers
  simp only [Balanced, Config.potential, hheld, hunpaid, List.length_nil, total_append, total_cons,
    Thread.owes] at hbalanced
  omega

theorem Thread.stored_le_one (t : Thread κ) : t.stored ≤ 1 := by
  cases t <;> simp [Thread.stored]

theorem Warm.length_le {c : Config (Shared κ) (Thread κ)} (hc : Warm cfg c) :
    c.shared.connections.length ≤ cfg.initSize := by
  rw [hc.stored, ← hc.members]
  exact total_le_length Thread.stored_le_one c.threads

theorem forall_replaced {p : Thread κ → Prop} {pre post : List (Thread κ)} {t t' : Thread κ}
    (h : ∀ u ∈ pre ++ t :: post, p u) (ht' : p t') : ∀ u ∈ pre ++ t' :: post, p u := by
  intro u hu
  rcases List.mem_append.mp hu with hpre | hpost
  · exact h u (List.mem_append_left _ hpre)
  · rcases List.mem_cons.mp hpost with rfl | hpost
    · exact ht'
    · exact h u (List.mem_append_right _ (List.mem_cons_of_mem _ hpost))

theorem warm_replaced {s s' : Shared κ} {t t' : Thread κ} {pre post : List (Thread κ)}
    (h : Act cfg s t s' t') (hc : Warm cfg ⟨s, pre ++ t :: post⟩)
    (hquiet : ∀ u ∈ pre ++ t' :: post, u.calls = false)
    (hpermit : t = .fillTry → t' = .returned → s' ≠ s) :
    Warm cfg ⟨s', pre ++ t' :: post⟩ := by
  have ht : t.calls = false := hc.quiet t (by simp)
  have hfinds := finds_of_quiet h ht
  rcases act_of_quiet h ht hc.running with ⟨htry, hmiss, hsame⟩ |
    ⟨hrunning, hheld, hunpaid, hgranted, hlength, hmore⟩
  · exact absurd hsame (hpermit htry hmiss)
  have hstored := hc.stored
  simp only [total_append, total_cons] at hstored
  have hmembers : (pre ++ t' :: post).length = cfg.initSize := by simpa using hc.members
  have hstored' : s'.connections.length = total Thread.stored (pre ++ t' :: post) := by
    simp only [total_append, total_cons]
    omega
  -- a full queue stays full
  have hfull : s.connections.length = cfg.initSize → s'.connections.length = cfg.initSize := by
    intro hbefore
    have hle := total_le_length Thread.stored_le_one (pre ++ t' :: post)
    omega
  exact {
    running := hrunning
    held := hheld.trans hc.held
    unpaid := hunpaid.trans hc.unpaid
    granted := le_trans hc.granted hgranted
    members := hmembers
    quiet := hquiet
    stored := hstored'
    full := by
      apply forall_replaced (fun u hu hpast => hfull (hc.full u hu hpast))
      intro hpast
      rcases hfinds.past hpast with hpast | hnow
      · exact hfull (hc.full t (by simp) hpast)
      · exact hnow
    ready := by
      intro hready
      rcases hfinds.ready hready with hready | hpast
      · exact hfull (hc.ready hready)
      · exact hfull (hc.full t (by simp) hpast)
    expanding := by
      intro hnow hsmaller
      rcases hfinds.filled hnow with hbefore | hfound
      · rcases hc.expanding hbefore hsmaller with hexpanded | ⟨u, hu, hfound⟩
        · exact .inl (hfinds.expanded hexpanded)
        · rcases List.mem_append.mp hu with hpre | hpost
          · exact .inr ⟨u, List.mem_append_left _ hpre, hfound⟩
          · rcases List.mem_cons.mp hpost with rfl | hpost
            · rcases hfinds.expanding hfound hsmaller with hfound | hexpanded
              · exact .inr ⟨t', by simp, hfound⟩
              · exact .inl hexpanded
            · exact .inr ⟨u, List.mem_append_right _ (List.mem_cons_of_mem _ hpost), hfound⟩
      · exact .inr ⟨t', by simp, hfound⟩
    smaller := by
      intro hexpanded
      rcases hfinds.smaller hexpanded with hexpanded | hsmaller
      · exact hc.smaller hexpanded
      · exact hsmaller }

theorem warmsUp_of_eager (heager : cfg.isEager = true) (hpos : 0 < cfg.initSize)
    (hle : cfg.initSize ≤ cfg.maxSize) : cfg.warmsUp = true := by
  have hmax : 0 < cfg.maxSize := by omega
  simp [PoolConfig.warmsUp, heager, hpos, hmax, hle]

theorem warm_start (heager : cfg.isEager = true) (hpos : 0 < cfg.initSize)
    (hle : cfg.initSize ≤ cfg.maxSize) : Warm cfg (start (κ := κ) cfg) := by
  have hwarm := warmsUp_of_eager heager hpos hle
  have htest : ∀ t ∈ List.replicate cfg.initSize (Thread.fillTest : Thread κ), t = .fillTest :=
    fun t ht => List.eq_of_mem_replicate ht
  rw [start, if_pos hwarm]
  exact {
    running := rfl
    held := rfl
    unpaid := rfl
    granted := le_rfl
    members := List.length_replicate
    quiet := by
      intro t ht
      rw [htest t ht]
      rfl
    stored := by simp [Thread.stored]
    full := by
      intro t ht hpast
      rw [htest t ht] at hpast
      cases hpast
    ready := by
      intro hready
      cases hready
    expanding := fun hfull _ => absurd hfull hpos.ne
    smaller := by
      intro hexpanded
      cases hexpanded }

/-- Without clients the semaphore has at most `max_size` permits. -/
theorem Warm.capacity_le {c : Config (Shared κ) (Thread κ)} (hle : cfg.initSize ≤ cfg.maxSize)
    (hreach : (system cfg).Reachable c) (hc : Warm cfg c) : c.shared.capacity ≤ cfg.maxSize := by
  have hcapacity := Pool.capacity_le hreach
  rw [hc.unpaid] at hcapacity
  unfold PoolConfig.bound at hcapacity
  omega

theorem not_missesPermit {c c' : Config (Shared κ) (Thread κ)} (hc : Warm cfg c)
    (hbalanced : Balanced c) (hcapacity : c.shared.capacity ≤ maxPermits)
    (hfails : FailsEmpty c c') : ¬ MissesPermit c c' := by
  intro hmiss
  cases hmiss with
  | @miss s pre post =>
    have hpos : 0 < counter s.capacity := counter_pos (hc.capacity_pos hbalanced) hcapacity
    rcases hfails (by simp [List.countP_cons, Thread.tries]) with hnone | hless
    · exact absurd hpos hnone.not_gt
    · exact absurd hless (Nat.lt_irrefl _)

/-- Without clients every step is one of a thread of the warm-up. -/
theorem clientless_act {c c' : Config (Shared κ) (Thread κ)}
    (hstep : (clientlessRuns cfg).step c c') :
    ∃ s s' t t' pre post, c = ⟨s, pre ++ t :: post⟩ ∧ c' = ⟨s', pre ++ t' :: post⟩ ∧
      Act cfg s t s' t' := by
  rcases hstep with ⟨⟨hstep, -⟩, -, hquiet⟩
  cases hstep with
  | @act s s' t t' pre post h => exact ⟨s, s', t, t', pre, post, rfl, rfl, h⟩
  | spawn ts h =>
    have hcalls := hquiet _ (List.mem_append_right _ (List.mem_singleton_self _))
    rw [calls_spawn h] at hcalls
    cases hcalls

theorem warm_step {c c' : Config (Shared κ) (Thread κ)} (hstep : (clientlessRuns cfg).step c c')
    (hbalanced : Balanced c) (hcapacity : c.shared.capacity ≤ maxPermits) (hc : Warm cfg c) :
    Warm cfg c' := by
  rcases clientless_act hstep with ⟨s, s', t, t', pre, post, rfl, rfl, h⟩
  apply warm_replaced h hc hstep.2.2
  rintro rfl rfl rfl
  exact not_missesPermit hc hbalanced hcapacity hstep.2.1 (.miss pre post)

theorem Warm.reachable (heager : cfg.isEager = true) (hpos : 0 < cfg.initSize)
    (hle : cfg.initSize ≤ cfg.maxSize) (hmax : cfg.maxSize ≤ maxPermits)
    {c : Config (Shared κ) (Thread κ)} (h : (clientlessRuns cfg).Reachable c) : Warm cfg c := by
  apply h.induct
  · rintro s rfl
    exact warm_start heager hpos hle
  · intro s s' hreach hs hstep
    have hreached : (system cfg).Reachable s := hreach.of_guarded.of_guarded
    exact warm_step hstep (Balanced.reachable hreached)
      ((hs.capacity_le hle hreached).trans hmax) hs

theorem push_of_length_ne {s s' : Shared κ} {t t' : Thread κ} (h : Act cfg s t s' t')
    (ht : t.calls = false) (hne : s'.connections.length ≠ s.connections.length) :
    ∃ conn, t = .fillPush conn ∧
      t' = .fillRelease ((s.connections ++ [conn]).length = cfg.initSize) ∧
      s' = { s with connections := s.connections ++ [conn] } := by
  cases h with
  | fillPush conn => exact ⟨conn, rfl, rfl, rfl⟩
  | acquireIdle | acquireReturned | releasePush => cases ht
  | _ => exact absurd rfl hne

/-- A push finds the queue full when it makes it full. -/
theorem fillsUp_iff {c c' : Config (Shared κ) (Thread κ)} (hstep : (clientlessRuns cfg).step c c')
    (hc : Warm cfg c) :
    FillsUp cfg c c' ↔ c.shared.connections.length ≠ cfg.initSize ∧
      c'.shared.connections.length = cfg.initSize := by
  constructor
  · intro h
    cases h with
    | push pre post conn hfull =>
      dsimp only
      rw [List.length_append, List.length_singleton]
      omega
  · rintro ⟨hbefore, hafter⟩
    rcases clientless_act hstep with ⟨s, s', t, t', pre, post, rfl, rfl, h⟩
    have hne : s'.connections.length ≠ s.connections.length := fun heq => hbefore (heq ▸ hafter)
    rcases push_of_length_ne h (hc.quiet t (by simp)) hne with ⟨conn, rfl, rfl, rfl⟩
    have hfull : s.connections.length + 1 = cfg.initSize := by
      rw [← hafter, List.length_append, List.length_singleton]
    rw [decide_eq_true hafter]
    exact .push pre post conn hfull

def fullness (cfg : PoolConfig) (c : Config (Shared κ) (Thread κ)) : ℕ :=
  if c.shared.connections.length = cfg.initSize then 1 else 0

def claimed (c : Config (Shared κ) (Thread κ)) : ℕ := if c.shared.capacityExpanded then 1 else 0

def growers (c : Config (Shared κ) (Thread κ)) : ℕ := total Thread.growing c.threads

theorem length_mono {c c' : Config (Shared κ) (Thread κ)} (hstep : (clientlessRuns cfg).step c c')
    (hc : Warm cfg c) : c.shared.connections.length ≤ c'.shared.connections.length := by
  rcases clientless_act hstep with ⟨s, s', t, t', pre, post, rfl, rfl, h⟩
  by_cases hne : s'.connections.length = s.connections.length
  · exact hne.ge
  · rcases push_of_length_ne h (hc.quiet t (by simp)) hne with ⟨conn, rfl, rfl, rfl⟩
    simp

theorem fullness_step {c c' : Config (Shared κ) (Thread κ)}
    (hstep : (clientlessRuns cfg).step c c') (hc : Warm cfg c) (hc' : Warm cfg c') :
    (FillsUp cfg c c' → fullness cfg c' = fullness cfg c + 1) ∧
      (¬ FillsUp cfg c c' → fullness cfg c' = fullness cfg c) := by
  have hle := length_mono hstep hc
  have hbound := hc'.length_le
  rw [fillsUp_iff hstep hc, fullness, fullness]
  constructor
  · rintro ⟨hbefore, hafter⟩
    rw [if_neg hbefore, if_pos hafter]
  · intro hnot
    by_cases hbefore : c.shared.connections.length = cfg.initSize
    · rw [if_pos hbefore, if_pos (by omega)]
    · have hafter : c'.shared.connections.length ≠ cfg.initSize := fun h => hnot ⟨hbefore, h⟩
      rw [if_neg hbefore, if_neg hafter]

theorem claimed_act {s s' : Shared κ} {t t' : Thread κ} (h : Act cfg s t s' t')
    (pre post : List (Thread κ)) :
    (Expands cfg ⟨s, pre ++ t :: post⟩ ⟨s', pre ++ t' :: post⟩ ∧ t.growing = 1 ∧ t'.growing = 0 ∧
        s'.capacityExpanded = s.capacityExpanded) ∨
      t.growing = 0 ∧ (s.capacityExpanded = false ∧ s'.capacityExpanded = true ∧ t'.growing = 1 ∨
        s'.capacityExpanded = s.capacityExpanded ∧ t'.growing = 0) := by
  cases h with
  | fillGrow => exact .inl ⟨.grow pre post, rfl, rfl, rfl⟩
  | fillExpand h => exact .inr ⟨rfl, .inl ⟨h.2, rfl, rfl⟩⟩
  | fillRelease isFull => cases isFull <;> exact .inr ⟨rfl, .inr ⟨rfl, rfl⟩⟩
  | _ => exact .inr ⟨rfl, .inr ⟨rfl, rfl⟩⟩

theorem claimed_step {c c' : Config (Shared κ) (Thread κ)}
    (hstep : (clientlessRuns cfg).step c c') :
    (Expands cfg c c' → claimed c' + growers c = claimed c + growers c' + 1) ∧
      (¬ Expands cfg c c' → claimed c' + growers c = claimed c + growers c') := by
  constructor
  · intro h
    cases h with
    | grow pre post =>
      simp only [claimed, growers, total_append, total_cons, Thread.growing]
      omega
  · intro hnot
    rcases clientless_act hstep with ⟨s, s', t, t', pre, post, rfl, rfl, h⟩
    simp only [claimed, growers, total_append, total_cons]
    rcases claimed_act h pre post with ⟨hexpands, -⟩ | ⟨ht, ⟨hbefore, hafter, ht'⟩ | ⟨hsame, ht'⟩⟩
    · exact absurd hexpands hnot
    · rw [ht, ht', hbefore, hafter, if_pos rfl, if_neg (by decide)]
      omega
    · rw [ht, ht', hsame]

section Eager

variable (heager : cfg.isEager = true) (hpos : 0 < cfg.initSize) (hle : cfg.initSize ≤ cfg.maxSize)
  (hmax : cfg.maxSize ≤ maxPermits)
include heager hpos hle hmax

/-- The threads that have seen the queue full are as many as a full queue counts. -/
theorem count_fillsUp {c : Config (Shared κ) (Thread κ)} {n : ℕ}
    (h : (clientlessRuns cfg).Counted (FillsUp cfg) (start cfg) c n) : n = fullness cfg c := by
  have hwarm {s : Config (Shared κ) (Thread κ)} (hrun : (clientlessRuns cfg).Run (start cfg) s) :
      Warm cfg s := Warm.reachable heager hpos hle hmax ⟨_, rfl, hrun⟩
  have hstart : fullness cfg (start (κ := κ) cfg) = 0 := by
    rw [fullness, start, if_pos (warmsUp_of_eager heager hpos hle)]
    exact if_neg hpos.ne
  have hcount : fullness cfg c + 0 = fullness cfg (start (κ := κ) cfg) + 0 + n := by
    apply h.balance (g := fun _ => 0)
    · intro s₁ s₂ hrun hs hfills
      exact (fullness_step hs (hwarm hrun) (hwarm (hrun.tail hs))).1 hfills
    · intro s₁ s₂ hrun hs hnot
      exact (fullness_step hs (hwarm hrun) (hwarm (hrun.tail hs))).2 hnot
  omega

omit hmax in
/-- The expansions are as many as a thread has claimed and not yet done. -/
theorem count_expands {c : Config (Shared κ) (Thread κ)} {n : ℕ}
    (h : (clientlessRuns cfg).Counted (Expands cfg) (start cfg) c n) :
    claimed c = growers c + n := by
  have hstart : claimed (start (κ := κ) cfg) = 0 ∧ growers (start (κ := κ) cfg) = 0 := by
    rw [claimed, growers, start, if_pos (warmsUp_of_eager heager hpos hle)]
    simp [Thread.growing]
  have hcount : claimed c + growers (start (κ := κ) cfg) =
      claimed (start (κ := κ) cfg) + growers c + n := by
    apply h.balance
    · exact fun s₁ s₂ hrun hs hexpands => (claimed_step hs).1 hexpands
    · exact fun s₁ s₂ hrun hs hnot => (claimed_step hs).2 hnot
  omega

/-- When all threads have returned, each has pushed a connection, and the expansion that the last
push calls for has been done. -/
theorem resources_of_returned {c : Config (Shared κ) (Thread κ)}
    (h : (clientlessRuns cfg).Reachable c) (hreturned : ∀ t ∈ c.threads, t = .returned) :
    c.shared.connections.length = cfg.initSize ∧ c.shared.capacity = cfg.maxSize ∧
      (c.shared.capacityExpanded = true ↔ cfg.initSize < cfg.maxSize) := by
  have hc := Warm.reachable heager hpos hle hmax h
  have hthreads : c.threads = List.replicate cfg.initSize .returned :=
    List.eq_replicate_iff.mpr ⟨hc.members, hreturned⟩
  have hfull : c.shared.connections.length = cfg.initSize := by
    rw [hc.stored, hthreads, total_replicate]
    simp [Thread.stored]
  have hexpanded : c.shared.capacityExpanded = true ↔ cfg.initSize < cfg.maxSize := by
    refine ⟨hc.smaller, fun hsmaller => ?_⟩
    rcases hc.expanding hfull hsmaller with hexpanded | ⟨t, ht, hfound⟩
    · exact hexpanded
    · rw [hreturned t ht] at hfound
      cases hfound
  have hbalanced := Balanced.reachable h.of_guarded.of_guarded
  have hgrown := Grown.reachable h.of_guarded.of_guarded
  have hbound := cfg.bound_eq
  simp only [Balanced, Config.potential, hc.held, hc.unpaid, hthreads, total_replicate,
    Thread.owes, List.length_nil] at hbalanced
  simp only [Grown, Config.potential, hthreads, total_replicate, Thread.grows] at hgrown
  have hgranted : c.shared.granted = cfg.maxSize := by
    by_cases hsmaller : cfg.initSize < cfg.maxSize
    · rw [if_pos (hexpanded.mpr hsmaller)] at hgrown
      unfold PoolConfig.growth at hbound
      omega
    · rw [if_neg (fun hexp => hsmaller (hexpanded.mp hexp))] at hgrown
      unfold PoolConfig.growth at hgrown hbound
      omega
  exact ⟨hfull, by omega, hexpanded⟩

end Eager

/-- What the warm-up is to leave behind: the connections, a counter that shows all permits, one
thread that has seen the queue full, and one expansion if it is called for. -/
structure WarmedUp (cfg : PoolConfig) (c : Config (Shared κ) (Thread κ)) : Prop where
  idle : c.shared.connections.length = cfg.initSize
  permits : counter c.shared.capacity = cfg.maxSize
  filled : ∀ n, (clientlessRuns cfg).Counted (FillsUp cfg) (start cfg) c n ↔ n = 1
  expanded : ∀ n, (clientlessRuns cfg).Counted (Expands cfg) (start cfg) c n ↔
    n = if cfg.initSize < cfg.maxSize then 1 else 0

theorem warmedUp_of_returned (heager : cfg.isEager = true) (hpos : 0 < cfg.initSize)
    (hle : cfg.initSize ≤ cfg.maxSize) (hmax : cfg.maxSize ≤ maxPermits)
    {c : Config (Shared κ) (Thread κ)} (h : (clientlessRuns cfg).Reachable c)
    (hreturned : ∀ t ∈ c.threads, t = .returned) : WarmedUp cfg c := by
  rcases resources_of_returned heager hpos hle hmax h hreturned with ⟨hfull, hcapacity, hexpanded⟩
  have hfills : ∀ n, (clientlessRuns cfg).Counted (FillsUp cfg) (start cfg) c n → n = 1 := by
    intro n hn
    rw [count_fillsUp heager hpos hle hmax hn, fullness, if_pos hfull]
  have hexpands : ∀ n, (clientlessRuns cfg).Counted (Expands cfg) (start cfg) c n →
      n = if cfg.initSize < cfg.maxSize then 1 else 0 := by
    intro n hn
    have hcount := count_expands heager hpos hle hn
    have hnone : growers c = 0 := by
      rw [growers, List.eq_replicate_iff.mpr ⟨rfl, hreturned⟩, total_replicate]
      rfl
    rw [claimed, hnone, Nat.zero_add] at hcount
    rw [← hcount]
    exact if_congr hexpanded rfl rfl
  have hcounter : counter c.shared.capacity = cfg.maxSize := by
    rw [hcapacity]
    exact counter_of_le hmax
  rcases h with ⟨_, rfl, hrun⟩
  exact ⟨hfull, hcounter, hrun.counted_iff hfills, hrun.counted_iff hexpands⟩

/-- Warm-up without clients and without a stop, when the semaphore can count `max_size` permits. In
every state of every run: a thread that tries finds a permit, and does not miss it; the pool is
ready only with all its connections idle; at most one thread has seen the queue full and at most one
expansion has been done, and none when the sizes are equal. When all threads have returned, the pool
has what it is to have if and only if the semaphore can count `max_size` permits. -/
theorem warmup_resources (cfg : PoolConfig) (heager : cfg.isEager = true) (hpos : 0 < cfg.initSize)
    (hle : cfg.initSize ≤ cfg.maxSize) (c : Config (Shared κ) (Thread κ))
    (h : (clientlessRuns cfg).Reachable c) :
    (cfg.maxSize ≤ maxPermits →
      (∀ pre post, c.threads = pre ++ .fillTry :: post → 0 < counter c.shared.capacity) ∧
      (∀ c', (clientlessRuns cfg).step c c' → ¬ MissesPermit c c') ∧
      (c.shared.poolReady = true → c.shared.connections.length = cfg.initSize) ∧
      (∀ n, (clientlessRuns cfg).Counted (FillsUp cfg) (start cfg) c n → n ≤ 1) ∧
      ∀ n, (clientlessRuns cfg).Counted (Expands cfg) (start cfg) c n →
        n ≤ 1 ∧ (cfg.maxSize = cfg.initSize → n = 0)) ∧
    ((∀ t ∈ c.threads, t = .returned) → (WarmedUp cfg c ↔ cfg.maxSize ≤ maxPermits)) := by
  have hreached : (system cfg).Reachable c := h.of_guarded.of_guarded
  refine ⟨fun hmax => ?_, fun hreturned => ⟨fun hwarmed => ?_, fun hmax => ?_⟩⟩
  · have hc := Warm.reachable heager hpos hle hmax h
    have hbalanced := Balanced.reachable hreached
    have hcapacity := (hc.capacity_le hle hreached).trans hmax
    have hclaimed : claimed c ≤ 1 := by
      rw [claimed]
      split_ifs <;> omega
    have hfullness : fullness cfg c ≤ 1 := by
      rw [fullness]
      split_ifs <;> omega
    refine ⟨fun pre post hthreads => ?_, fun c' hstep => ?_, hc.ready, fun n hn => ?_,
      fun n hn => ⟨?_, fun hsame => ?_⟩⟩
    · rcases c with ⟨s, threads⟩
      cases hthreads
      exact counter_pos (hc.capacity_pos hbalanced) hcapacity
    · exact not_missesPermit hc hbalanced hcapacity hstep.2.1
    · have hcount := count_fillsUp heager hpos hle hmax hn
      omega
    · have hcount := count_expands heager hpos hle hn
      omega
    · have hcount := count_expands heager hpos hle hn
      have hnot : ¬ c.shared.capacityExpanded = true := by
        intro hexpanded
        have hsmaller := hc.smaller hexpanded
        omega
      rw [claimed, if_neg hnot] at hcount
      omega
  · have hcounter := counter_le c.shared.capacity
    rw [hwarmed.permits] at hcounter
    exact Int.ofNat_le.mp hcounter
  · exact warmedUp_of_returned heager hpos hle hmax h hreturned

theorem eagerThree_clientless :
    (clientlessRuns eagerThree).Reachable
      ⟨eagerState true true 3 [7, 8] 3, [.returned, .returned]⟩ :=
  eagerThree_warmed.guarded_twice (fun _ _ h => h.counts)
    fun _ _ h => ⟨fun htries => .inr (h.takes htries), h.clientless⟩

/-- A pool whose warm-up is over. -/
theorem warmup_resources_eagerThree :
    (eagerState true true 3 [7, 8] 3).connections.length = 2 ∧
      counter (eagerState true true 3 [7, 8] 3).capacity = 3 := by
  have h := (warmup_resources eagerThree rfl (by decide) (by decide) _ eagerThree_clientless).2
    (by simp)
  have hwarmed := h.mpr (by decide)
  exact ⟨hwarmed.idle, hwarmed.permits⟩

theorem eagerHuge_clientless :
    (clientlessRuns eagerHuge).Reachable
      ⟨eagerState true true 4294967296 [7] 4294967296, [.returned]⟩ :=
  eagerHuge_warmed.guarded_twice (fun _ _ h => h.counts)
    fun _ _ h => ⟨fun htries => .inr (h.takes htries), h.clientless⟩

/-- When the expansion is more than an `int` counts, the pool has no permit after the warm-up. -/
theorem no_permits_after_warmup :
    ¬ ∀ (cfg : PoolConfig) (c : Config (Shared ℕ) (Thread ℕ)), cfg.isEager = true →
      0 < cfg.initSize → cfg.initSize ≤ cfg.maxSize → (clientlessRuns cfg).Reachable c →
      (∀ t ∈ c.threads, t = .returned) →
      c.shared.connections.length = cfg.initSize ∧ counter c.shared.capacity = cfg.maxSize := by
  intro hall
  have hpermits := (hall eagerHuge _ rfl (by decide) (by decide) eagerHuge_clientless (by simp)).2
  exact absurd hpermits (by decide)

end PostgresLib.Pool
