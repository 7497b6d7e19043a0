import PostgresLib.Pool.Model

/-! # The size bound of the pool and what it rests on

A permit is meant to be the right to own a connection. The releaser gives a
permit for every connection that comes back, but `acquire` takes none for an
idle connection, and an idle connection that the warm-up created has none. The
books are kept with that difference, and the bound holds exactly as long as no
factory call starts on a permit that exists only because of it.
-/

namespace PostgresLib.Pool

open Foundations

variable {κ : Type} {cfg : PoolConfig}

/-- Permits in the semaphore, for connections in use and with threads are the permits the
semaphore was given and those that were handed out twice. -/
def Balanced (c : Config (Shared κ) (Thread κ)) : Prop :=
  c.potential (fun s => s.capacity + s.held.length) Thread.owes =
    c.shared.granted + c.shared.unpaid

theorem balance_act (s : Shared κ) (t : Thread κ) (s' : Shared κ) (t' : Thread κ)
    (h : Act cfg s t s' t') :
    s'.capacity + s'.held.length + t'.owes + (s.granted + s.unpaid) =
      s.capacity + s.held.length + t.owes + (s'.granted + s'.unpaid) := by
  cases h with
  | fillRelease isFull =>
    have hdone : (if isFull then Thread.fillAnnounce else .returned : Thread κ).owes = 0 := by
      cases isFull <;> rfl
    rw [hdone]
    simp only [Thread.owes]
    omega
  | _ => simp only [Thread.owes, List.length_cons] <;> omega

theorem balance_spawn (s : Shared κ) (ts : List (Thread κ)) (s' : Shared κ) (t : Thread κ)
    (h : Spawn s ts s' t) :
    s'.capacity + s'.held.length + t.owes + (s.granted + s.unpaid) =
      s.capacity + s.held.length + (s'.granted + s'.unpaid) := by
  cases h with
  | acquire | destroy => simp
  | release hheld =>
    simp only [Thread.owes, hheld, List.length_append, List.length_cons]
    omega

theorem balanced_start : Balanced (start (κ := κ) cfg) := by
  unfold start
  split_ifs <;> simp [Balanced, Config.potential]

theorem Balanced.reachable {c : Config (Shared κ) (Thread κ)} (h : (system cfg).Reachable c) :
    Balanced c := by
  apply h.induct
  · rintro s rfl
    exact balanced_start
  · intro s s' _ hs hstep
    have hbalance := hstep.balance (f := fun s => s.capacity + s.held.length)
      (g := fun s => s.granted + s.unpaid) (w := Thread.owes) balance_act balance_spawn
    unfold Balanced at hs ⊢
    omega

/-- The permits the semaphore was given, those the expansion is about to add and those it can
still add are the larger of the two sizes. -/
def Grown (cfg : PoolConfig) (c : Config (Shared κ) (Thread κ)) : Prop :=
  c.potential (fun s => s.granted + if s.capacityExpanded then 0 else cfg.growth)
    (Thread.grows cfg) = cfg.bound

theorem grown_act (s : Shared κ) (t : Thread κ) (s' : Shared κ) (t' : Thread κ)
    (h : Act cfg s t s' t') :
    (s'.granted + if s'.capacityExpanded then 0 else cfg.growth) + t'.grows cfg + 0 =
      (s.granted + if s.capacityExpanded then 0 else cfg.growth) + t.grows cfg + 0 := by
  cases h with
  | fillRelease isFull => cases isFull <;> rfl
  | fillExpand hgrow => simp [hgrow.2]
  | fillGrow =>
    simp only [Thread.grows]
    omega
  | _ => rfl

theorem grown_spawn (s : Shared κ) (ts : List (Thread κ)) (s' : Shared κ) (t : Thread κ)
    (h : Spawn s ts s' t) :
    (s'.granted + if s'.capacityExpanded then 0 else cfg.growth) + t.grows cfg + 0 =
      (s.granted + if s.capacityExpanded then 0 else cfg.growth) + 0 := by
  cases h <;> rfl

theorem grown_start : Grown cfg (start (κ := κ) cfg) := by
  have hbound := cfg.bound_eq
  unfold start
  split_ifs with hwarm
  · simp [Grown, Config.potential, hbound]
  · by_cases hmax : cfg.initSize < cfg.maxSize
    · simp [Grown, Config.potential, hbound, hmax]
    · have hgrowth : cfg.growth = 0 := by
        unfold PoolConfig.growth
        omega
      simp [Grown, Config.potential, hbound, hgrowth]

theorem Grown.reachable {c : Config (Shared κ) (Thread κ)} (h : (system cfg).Reachable c) :
    Grown cfg c := by
  apply h.induct
  · rintro s rfl
    exact grown_start
  · intro s s' _ hs hstep
    have hgrown := hstep.balance (g := fun _ => 0) (w := Thread.grows cfg) grown_act grown_spawn
    unfold Grown at hs ⊢
    omega

/-- The permits exceed the larger of the two sizes at most by the times an idle connection was
handed out. -/
theorem capacity_le {c : Config (Shared κ) (Thread κ)} (h : (system cfg).Reachable c) :
    c.shared.capacity ≤ cfg.bound + c.shared.unpaid := by
  have hbalanced := Balanced.reachable h
  have hgrown := Grown.reachable h
  simp only [Balanced, Config.potential] at hbalanced
  simp only [Grown, Config.potential] at hgrown
  omega

/-- A thread adds a live connection by calling the factory, and only then. -/
theorem live_act (s : Shared κ) (t : Thread κ) (s' : Shared κ) (t' : Thread κ)
    (h : Act cfg s t s' t') :
    t'.creates ≤ t.creates ∧
        s'.connections.length + s'.held.length + t'.carries ≤
          s.connections.length + s.held.length + t.carries ∨
      t.creates = 0 ∧ t'.creates = 1 ∧ t.carries = 0 ∧ t'.carries = 1 ∧ s' = s := by
  cases h with
  | fillCallFactory | acquireCallFactory => exact .inr ⟨rfl, rfl, rfl, rfl, rfl⟩
  | fillRelease isFull =>
    left
    cases isFull <;> exact ⟨Nat.le_refl _, Nat.le_refl _⟩
  | acquireIdle h | acquireReturned h =>
    left
    simp only [Thread.carries, Thread.creates, h, List.length_cons]
    omega
  | fillPush | releasePush | acquireWrap =>
    left
    simp only [Thread.carries, Thread.creates, List.length_append, List.length_cons,
      List.length_nil]
    omega
  | _ =>
    left
    simp only [Thread.carries, Thread.creates]
    omega

theorem live_step {c c' : Config (Shared κ) (Thread κ)} (h : (system cfg).step c c') :
    ¬ StartsCreation c c' ∧ live c' ≤ live c ∨ StartsCreation c c' ∧ live c' = live c + 1 := by
  cases h with
  | act pre post h =>
    obtain ⟨hcreates, hle⟩ | ⟨hbefore, hafter, hnone, hone, rfl⟩ := live_act _ _ _ _ h
    · left
      simp only [StartsCreation, live, Config.potential, total_append, total_cons]
      omega
    · right
      simp only [StartsCreation, live, Config.potential, total_append, total_cons]
      omega
  | spawn ts h =>
    left
    simp only [StartsCreation, live, Config.potential, total_append, total_cons, total_nil]
    cases h with
    | acquire | destroy => simp
    | release hheld =>
      simp only [Thread.carries, Thread.creates, hheld, List.length_append, List.length_cons]
      omega

/-- The permits that a thread has without a connection. -/
@[simp]
def Thread.unused : Thread κ → ℕ
  | fillGranted | fillFailed | fillRelease _ => 1
  | acquireRetest | acquireCreateFailed _ => 1
  | releasePermit => 1
  | _ => 0

theorem Thread.owes_eq (t : Thread κ) : t.owes = t.carries + t.unused := by
  cases t <;> rfl

theorem total_owes (ts : List (Thread κ)) :
    total Thread.owes ts = total Thread.carries ts + total Thread.unused ts := by
  induction ts with
  | nil => rfl
  | cons t ts ih =>
    have ht := t.owes_eq
    simp only [total_cons]
    omega

/-- The permits without a connection: in the semaphore, with threads, and those that the expansion
has still to add. -/
def freePermits (cfg : PoolConfig) (c : Config (Shared κ) (Thread κ)) : ℕ :=
  c.potential Shared.capacity Thread.unused + (cfg.bound - c.shared.granted)

/-- The permits that are spoken for: one for each idle connection, which has given its permit back,
and one for each time that `acquire` handed an idle connection out without keeping a permit. -/
def spokenFor (c : Config (Shared κ) (Thread κ)) : ℕ :=
  c.shared.connections.length + c.shared.unpaid

/-- Live connections and free permits are, together, the larger of the two sizes and the permits
that are spoken for. -/
theorem live_add_freePermits {c : Config (Shared κ) (Thread κ)} (h : (system cfg).Reachable c) :
    live c + freePermits cfg c = cfg.bound + spokenFor c := by
  have hbalanced := Balanced.reachable h
  have hgrown := Grown.reachable h
  have howes := total_owes c.threads
  have hgranted : c.shared.granted ≤ cfg.bound := by
    simp only [Grown, Config.potential] at hgrown
    omega
  simp only [Balanced, Config.potential] at hbalanced
  simp only [live, freePermits, spokenFor, Config.potential]
  omega

/-- A factory call starts only while a permit is free that is not spoken for. -/
def Backed (cfg : PoolConfig) (c c' : Config (Shared κ) (Thread κ)) : Prop :=
  StartsCreation c c' → spokenFor c < freePermits cfg c

def backedRuns (cfg : PoolConfig) : TransitionSystem (Config (Shared κ) (Thread κ)) :=
  (system cfg).guarded (Backed cfg)

theorem live_start : live (start (κ := κ) cfg) = 0 := by
  unfold start
  split_ifs <;> simp [live, Config.potential]

/-- While the pool keeps to its size, the next step does so if and only if it is no factory call or
a backed one. -/
theorem live_le_iff_backed {c c' : Config (Shared κ) (Thread κ)} (h : (system cfg).Reachable c)
    (hlive : live c ≤ cfg.bound) (hstep : (system cfg).step c c') :
    live c' ≤ cfg.bound ↔ Backed cfg c c' := by
  have hbooks := live_add_freePermits h
  obtain ⟨hnone, hle⟩ | ⟨hcreation, heq⟩ := live_step hstep
  · exact iff_of_true (hle.trans hlive) fun hcreation => absurd hcreation hnone
  · rw [heq]
    constructor
    · intro hbound _
      omega
    · intro hbacked
      have hfree := hbacked hcreation
      omega

/-- Until an idle connection is handed out, the permit with which `acquire` calls the factory backs
the call. -/
theorem backed_of_unpaid_eq_zero {c c' : Config (Shared κ) (Thread κ)}
    (hunpaid : c.shared.unpaid = 0) (hidle : c.shared.connections = [])
    (hpermit : .acquireRetest ∈ c.threads) : Backed cfg c c' := by
  intro _
  have hpos : 0 < total Thread.unused c.threads := total_pos.mpr ⟨_, hpermit, Nat.one_pos⟩
  simp only [spokenFor, freePermits, Config.potential, hidle, hunpaid, List.length_nil]
  omega

/-- The connection that a thread has, or may still create. -/
@[simp]
def Thread.mayBring : Thread κ → ℕ
  | fillTest | fillTry | fillGranted | fillCreate | fillFailed | fillSleep | fillPush _ => 1
  | acquireTest | acquireTime | acquireWait | acquireRetest | acquireCreate => 1
  | acquireGiveBack _ | acquireWrap _ | releasePush _ => 1
  | _ => 0

theorem Thread.carries_le_mayBring (t : Thread κ) : t.carries ≤ t.mayBring := by
  cases t <;> first | exact Nat.le_refl _ | exact Nat.zero_le _

theorem mayBring_act {s s' : Shared κ} {t t' : Thread κ} (h : Act cfg s t s' t') :
    s'.connections.length + s'.held.length + t'.mayBring ≤
      s.connections.length + s.held.length + t.mayBring := by
  cases h with
  | fillRelease isFull => cases isFull <;> exact Nat.le_refl _
  | acquireIdle h | acquireReturned h =>
    simp only [Thread.mayBring, h, List.length_cons]
    omega
  | fillPush | releasePush | acquireWrap =>
    simp only [Thread.mayBring, List.length_append, List.length_cons, List.length_nil]
    omega
  | _ =>
    simp only [Thread.mayBring]
    omega

theorem mayBring_spawn {s s' : Shared κ} {ts : List (Thread κ)} {t : Thread κ}
    (h : Spawn s ts s' t) :
    s'.connections.length + s'.held.length + t.mayBring ≤
      s.connections.length + s.held.length + 1 := by
  cases h with
  | acquire | destroy =>
    simp only [Thread.mayBring]
    omega
  | release hheld =>
    simp only [Thread.mayBring, hheld, List.length_append, List.length_cons]
    omega

/-- Every thread of the warm-up and every call brings at most one connection. -/
theorem mayBring_le_threads {c : Config (Shared κ) (Thread κ)} (h : (system cfg).Reachable c) :
    c.potential (fun s => s.connections.length + s.held.length) Thread.mayBring ≤
      c.threads.length := by
  apply h.induct
  · rintro s rfl
    unfold start
    split_ifs <;> simp [Config.potential]
  · intro s s' _ hs hstep
    cases hstep with
    | act pre post h =>
      have hact := mayBring_act h
      simp only [Config.potential, total_append, total_cons, List.length_append,
        List.length_cons] at hs ⊢
      omega
    | spawn ts h =>
      have hspawn := mayBring_spawn h
      simp only [Config.potential, total_append, total_cons, total_nil, List.length_append,
        List.length_cons, List.length_nil] at hs ⊢
      omega

theorem live_le_threads {c : Config (Shared κ) (Thread κ)} (h : (system cfg).Reachable c) :
    live c ≤ c.threads.length := by
  have hbrought := mayBring_le_threads h
  have hcarried := total_mono Thread.carries_le_mayBring c.threads
  rw [live, Config.potential] at *
  omega

/-- Until more threads and calls have begun than the pool has places, every factory call is
backed. -/
theorem backed_of_threads_le {c c' : Config (Shared κ) (Thread κ)}
    (h : (system cfg).Reachable c) (hstep : (system cfg).step c c')
    (hfew : c'.threads.length ≤ cfg.bound) : Backed cfg c c' := by
  intro hcreation
  have hbooks := live_add_freePermits h
  have hthreads := live_le_threads (h.next hstep)
  obtain ⟨hnone, -⟩ | ⟨-, heq⟩ := live_step hstep
  · exact absurd hcreation hnone
  · omega

/-- In every run whose factory calls are all backed the pool keeps to its size, and the next step
breaks it exactly when it is a factory call that is not backed. Every call is backed until more
threads and calls have begun than the pool has places, and `acquire`'s calls are until an idle
connection has been handed out. -/
theorem live_le_bound_of_backedRuns (cfg : PoolConfig) (c : Config (Shared κ) (Thread κ))
    (h : (backedRuns cfg).Reachable c) :
    live c ≤ cfg.bound ∧
      (∀ c', (system cfg).step c c' → (live c' ≤ cfg.bound ↔ Backed cfg c c')) ∧
      (∀ c', (system cfg).step c c' → c'.threads.length ≤ cfg.bound → Backed cfg c c') ∧
      ∀ pre post, c.threads = pre ++ .acquireRetest :: post → c.shared.connections = [] →
        c.shared.unpaid = 0 → Backed cfg c ⟨c.shared, pre ++ .acquireCreate :: post⟩ := by
  obtain ⟨hlive, hexact⟩ := h.guarded_exact (fun s hs => by
    rw [show s = start cfg from hs, live_start]
    exact Nat.zero_le _) fun s s' hreach hlive hstep => live_le_iff_backed hreach hlive hstep
  refine ⟨hlive, hexact, fun c' hstep hfew => backed_of_threads_le h.of_guarded hstep hfew, ?_⟩
  intro pre post hthreads hidle hunpaid
  apply backed_of_unpaid_eq_zero hunpaid hidle
  rw [hthreads]
  exact List.mem_append_right _ List.mem_cons_self

def lazyOne : PoolConfig := ⟨1, 0, false⟩

def lazyState (capacity : ℕ) (connections held : List ℕ) (unpaid : ℕ) : Shared ℕ where
  poolReady := true
  capacityExpanded := true
  stopRequested := false
  capacity := capacity
  connections := connections
  held := held
  granted := 1
  unpaid := unpaid

/-- The first `acquire` of the pool creates its connection. -/
theorem lazyOne_first :
    (system lazyOne).Reachable ⟨lazyState 0 [] [7] 0, [.returned]⟩ := by
  have h₀ : (system lazyOne).Reachable ⟨lazyState 1 [] [] 0, []⟩ := .of_init rfl
  have h₁ := h₀.next (.spawn [] .acquire)
  have h₂ := h₁.next (.act [] [] (.acquireNoneIdle rfl))
  have h₃ := h₂.next (.act [] [] .acquireInTime)
  have h₄ : (system lazyOne).Reachable ⟨lazyState 0 [] [] 0, [.acquireRetest]⟩ :=
    h₃.next (.act [] [] (.acquireGranted rfl))
  have h₅ := h₄.next (.act [] [] (.acquireCallFactory rfl))
  have h₆ := h₅.next (.act [] [] (.acquireCreated 7))
  exact h₆.next (.act [] [] (.acquireWrap 7))

def eagerTwo : PoolConfig := ⟨2, 2, true⟩

def fillingState (capacity : ℕ) (connections : List ℕ) : Shared ℕ where
  poolReady := false
  capacityExpanded := false
  stopRequested := false
  capacity := capacity
  connections := connections
  held := []
  granted := 2
  unpaid := 0

/-- One thread has pushed its connection and not given its permit back when the other one calls the
factory. -/
theorem eagerTwo_filling :
    (backedRuns eagerTwo).Reachable ⟨fillingState 0 [7], [.fillRelease false, .fillCreate]⟩ := by
  have hquiet {c c' : Config (Shared ℕ) (Thread ℕ)}
      (h : ¬ total Thread.creates c.threads < total Thread.creates c'.threads) :
      Backed eagerTwo c c' := fun hcreation => absurd hcreation h
  have h₀ : (backedRuns eagerTwo).Reachable ⟨fillingState 2 [], [.fillTest, .fillTest]⟩ :=
    .of_init rfl
  have h₁ := h₀.next ⟨.act [] [_] (.fillGoOn rfl), hquiet (by decide)⟩
  have h₂ : (backedRuns eagerTwo).Reachable ⟨fillingState 1 [], [.fillGranted, .fillTest]⟩ :=
    h₁.next ⟨.act [] [_] (.fillTryAcquire rfl), hquiet (by decide)⟩
  have h₃ := h₂.next ⟨.act [_] [] (.fillGoOn rfl), hquiet (by decide)⟩
  have h₄ : (backedRuns eagerTwo).Reachable ⟨fillingState 0 [], [.fillGranted, .fillGranted]⟩ :=
    h₃.next ⟨.act [_] [] (.fillTryAcquire rfl), hquiet (by decide)⟩
  have h₅ := h₄.next ⟨.act [] [_] .fillCallFactory, fun _ => by decide⟩
  have h₆ := h₅.next ⟨.act [] [_] (.fillCreated 7), hquiet (by decide)⟩
  have h₇ : (backedRuns eagerTwo).Reachable
      ⟨fillingState 0 [7], [.fillRelease false, .fillGranted]⟩ :=
    h₆.next ⟨.act [] [_] (.fillPush 7), hquiet (by decide)⟩
  exact h₇.next ⟨.act [_] [] .fillCallFactory, fun _ => by decide⟩

theorem live_le_bound_eagerTwo :
    live (⟨fillingState 0 [7], [.fillRelease false, .fillCreate]⟩ :
      Config (Shared ℕ) (Thread ℕ)) ≤ 2 :=
  (live_le_bound_of_backedRuns eagerTwo _ eagerTwo_filling).1

theorem release_begins (c : ℕ) {ts : List (Thread ℕ)} :
    Spawn (lazyState 0 [] [c] 0) ts (lazyState 0 [] [] 0) (.releasePush c) := by
  have hheld : (lazyState 0 [] [c] 0).held = [] ++ c :: [] := rfl
  exact .release hheld

/-- A connection that is returned, handed out again and not yet returned leaves a permit for a
second one. -/
theorem live_exceeds_bound_after_reuse :
    ¬ ∀ (cfg : PoolConfig) (c : Config (Shared ℕ) (Thread ℕ)),
      (system cfg).Reachable c → live c ≤ cfg.bound := by
  have h₀ := lazyOne_first
  -- the manager is destroyed
  have h₁ : (system lazyOne).Reachable ⟨lazyState 0 [] [] 0, [.returned, .releasePush 7]⟩ :=
    h₀.next (.spawn _ (release_begins 7))
  have h₂ : (system lazyOne).Reachable ⟨lazyState 0 [7] [] 0, [.returned, .releasePermit]⟩ :=
    h₁.next (.act [_] [] (.releasePush 7))
  have h₃ : (system lazyOne).Reachable ⟨lazyState 1 [7] [] 0, [.returned, .returned]⟩ :=
    h₂.next (.act [_] [] .releasePermit)
  -- a second call takes the idle connection, and no permit
  have h₄ := h₃.next (.spawn _ .acquire)
  have h₅ : (system lazyOne).Reachable
      ⟨lazyState 1 [] [] 1, [.returned, .returned, .acquireWrap 7]⟩ :=
    h₄.next (.act [_, _] [] (.acquireIdle rfl))
  -- a third call finds none, and takes the permit
  have h₆ := h₅.next (.spawn _ .acquire)
  have h₇ := h₆.next (.act [_, _, _] [] (.acquireNoneIdle rfl))
  have h₈ := h₇.next (.act [_, _, _] [] .acquireInTime)
  have h₉ : (system lazyOne).Reachable
      ⟨lazyState 0 [] [] 1, [.returned, .returned, .acquireWrap 7, .acquireRetest]⟩ :=
    h₈.next (.act [_, _, _] [] (.acquireGranted rfl))
  have h₁₀ : (system lazyOne).Reachable
      ⟨lazyState 0 [] [] 1, [.returned, .returned, .acquireWrap 7, .acquireCreate]⟩ :=
    h₉.next (.act [_, _, _] [] (.acquireCallFactory rfl))
  intro hall
  exact absurd (hall lazyOne _ h₁₀) (by decide)

end PostgresLib.Pool
