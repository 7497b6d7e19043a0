import PostgresLib.Foundations.ThreadPool

/-! # The connection pool and the threads that use it

The shared state is what the members of `ConnectionPool` hold, together with the
connections that managers hold. A thread is a call in progress: `fill_pool`,
`acquire`, or the releaser a manager runs when it is destroyed. A step of a
thread is one critical section, one semaphore operation or one factory call.
The permits of the semaphore are counted without a bound here.
-/

namespace PostgresLib.Pool

open Foundations

structure PoolConfig where
  maxSize : ℕ
  initSize : ℕ
  isEager : Bool

namespace PoolConfig

def bound (cfg : PoolConfig) : ℕ := max cfg.initSize cfg.maxSize

/-- The condition under which the constructor starts the warm-up. -/
def warmsUp (cfg : PoolConfig) : Bool :=
  cfg.isEager && 0 < cfg.initSize && 0 < cfg.maxSize && cfg.initSize ≤ cfg.maxSize

/-- What the semaphore is enlarged by, once. -/
def growth (cfg : PoolConfig) : ℕ := cfg.maxSize - cfg.initSize

theorem bound_eq (cfg : PoolConfig) : cfg.bound = cfg.initSize + cfg.growth := by
  unfold bound growth
  omega

end PoolConfig

/-- `ConnectionError::Type`. -/
inductive ErrorType where
  | connectionFailed | missingConfig | factoryNotRegistered | timeout | socketFailed | authFailed
  deriving DecidableEq

structure ConnectionError where
  type : ErrorType
  message : String
  deriving DecidableEq

/-- The error of an `acquire` call that runs out of time. -/
def timedOut : ConnectionError := ⟨.timeout, "Timed out waiting for a connection"⟩

/-- The members of the pool and the connections that managers hold. Two fields only count:
`granted` the permits the semaphore was given by the constructor and by the expansion, and
`unpaid` the idle connections that `acquire` handed out without keeping a permit. -/
structure Shared (κ : Type) where
  poolReady : Bool
  capacityExpanded : Bool
  stopRequested : Bool
  capacity : ℕ
  connections : List κ
  held : List κ
  granted : ℕ
  unpaid : ℕ

inductive Thread (κ : Type) where
  | fillTest
  | fillTry
  | fillGranted
  | fillCreate
  | fillFailed
  | fillSleep
  | fillPush (c : κ)
  | fillRelease (isFull : Bool)
  | fillAnnounce
  | fillExpand
  | fillGrow
  | acquireTest
  | acquireTime
  | acquireWait
  | acquireRetest
  | acquireCreate
  | acquireCreateFailed (e : ConnectionError)
  | acquireGiveBack (c : κ)
  | acquireWrap (c : κ)
  | releasePush (c : κ)
  | releasePermit
  | destroy
  | failed (e : ConnectionError)
  | returned

variable {κ : Type} (cfg : PoolConfig)

inductive Act : Shared κ → Thread κ → Shared κ → Thread κ → Prop
  | fillStopped {s} (h : s.stopRequested = true) : Act s .fillTest s .returned
  | fillGoOn {s} (h : s.stopRequested = false) : Act s .fillTest s .fillTry
  | fillTryAcquire {s} {n : ℕ} (h : s.capacity = n + 1) :
      Act s .fillTry { s with capacity := n } .fillGranted
  -- `try_acquire` may fail spuriously; `is_full` is still false
  | fillNoPermit {s} : Act s .fillTry s .returned
  | fillCallFactory {s} : Act s .fillGranted s .fillCreate
  | fillCreated {s} (c : κ) : Act s .fillCreate s (.fillPush c)
  | fillNotCreated {s} : Act s .fillCreate s .fillFailed
  | fillReturnPermit {s} : Act s .fillFailed { s with capacity := s.capacity + 1 } .fillSleep
  | fillRetry {s} : Act s .fillSleep s .fillTest
  | fillPush {s} (c : κ) :
      Act s (.fillPush c) { s with connections := s.connections ++ [c] }
        (.fillRelease ((s.connections ++ [c]).length = cfg.initSize))
  | fillRelease {s} (isFull : Bool) :
      Act s (.fillRelease isFull) { s with capacity := s.capacity + 1 }
        (if isFull then .fillAnnounce else .returned)
  | fillAnnounce {s} : Act s .fillAnnounce { s with poolReady := true } .fillExpand
  | fillExpand {s} (h : cfg.initSize < cfg.maxSize ∧ s.capacityExpanded = false) :
      Act s .fillExpand { s with capacityExpanded := true } .fillGrow
  | fillExpanded {s} (h : ¬ (cfg.initSize < cfg.maxSize ∧ s.capacityExpanded = false)) :
      Act s .fillExpand s .returned
  | fillGrow {s} :
      Act s .fillGrow
        { s with capacity := s.capacity + cfg.growth, granted := s.granted + cfg.growth } .returned
  | acquireIdle {s} {c : κ} {rest : List κ} (h : s.connections = c :: rest) :
      Act s .acquireTest { s with connections := rest, unpaid := s.unpaid + 1 } (.acquireWrap c)
  | acquireNoneIdle {s} (h : s.connections = []) : Act s .acquireTest s .acquireTime
  | acquireLate {s} : Act s .acquireTime s (.failed timedOut)
  | acquireInTime {s} : Act s .acquireTime s .acquireWait
  | acquireGranted {s} {n : ℕ} (h : s.capacity = n + 1) :
      Act s .acquireWait { s with capacity := n } .acquireRetest
  | acquireTimedOut {s} : Act s .acquireWait s (.failed timedOut)
  | acquireReturned {s} {c : κ} {rest : List κ} (h : s.connections = c :: rest) :
      Act s .acquireRetest { s with connections := rest } (.acquireGiveBack c)
  | acquireCallFactory {s} (h : s.connections = []) : Act s .acquireRetest s .acquireCreate
  -- the permit goes back although the connection is handed out
  | acquireGiveBack {s} (c : κ) :
      Act s (.acquireGiveBack c)
        { s with capacity := s.capacity + 1, unpaid := s.unpaid + 1 } (.acquireWrap c)
  | acquireCreated {s} (c : κ) : Act s .acquireCreate s (.acquireWrap c)
  | acquireNotCreated {s} (e : ConnectionError) :
      Act s .acquireCreate s (.acquireCreateFailed e)
  | acquireReturnPermit {s} (e : ConnectionError) :
      Act s (.acquireCreateFailed e) { s with capacity := s.capacity + 1 } (.failed e)
  | acquireWrap {s} (c : κ) : Act s (.acquireWrap c) { s with held := c :: s.held } .returned
  | releasePush {s} (c : κ) :
      Act s (.releasePush c) { s with connections := s.connections ++ [c] } .releasePermit
  | releasePermit {s} : Act s .releasePermit { s with capacity := s.capacity + 1 } .returned
  | destroy {s} : Act s .destroy { s with stopRequested := true } .returned

/-- A call begins: an `acquire`, the destruction of a manager that holds a connection, or the
destruction of the pool. -/
inductive Spawn : Shared κ → List (Thread κ) → Shared κ → Thread κ → Prop
  | acquire {s ts} : Spawn s ts s .acquireTest
  | release {s ts} {front back : List κ} {c : κ} (h : s.held = front ++ c :: back) :
      Spawn s ts { s with held := front ++ back } (.releasePush c)
  | destroy {s ts} : Spawn s ts s .destroy

/-- The state the constructor leaves behind; in an eager pool its threads have started. -/
def start : Config (Shared κ) (Thread κ) :=
  if cfg.warmsUp then
    { shared :=
        { poolReady := false
          capacityExpanded := false
          stopRequested := false
          capacity := cfg.initSize
          connections := []
          held := []
          granted := cfg.initSize
          unpaid := 0 }
      threads := List.replicate cfg.initSize .fillTest }
  else
    { shared :=
        { poolReady := true
          capacityExpanded := cfg.initSize < cfg.maxSize
          stopRequested := false
          capacity := cfg.initSize + cfg.growth
          connections := []
          held := []
          granted := cfg.initSize + cfg.growth
          unpaid := 0 }
      threads := [] }

def system : TransitionSystem (Config (Shared κ) (Thread κ)) where
  init c := c = start cfg
  step := Interleave (Act cfg) Spawn

namespace Thread

/-- The permits a thread holds, or still has to give to the semaphore for a connection it holds. -/
@[simp]
def owes : Thread κ → ℕ
  | fillGranted | fillCreate | fillFailed | fillPush _ | fillRelease _ => 1
  | acquireRetest | acquireCreate | acquireCreateFailed _ | acquireGiveBack _ | acquireWrap _ => 1
  | releasePush _ | releasePermit => 1
  | _ => 0

@[simp]
def carries : Thread κ → ℕ
  | fillCreate | fillPush _ => 1
  | acquireCreate | acquireGiveBack _ | acquireWrap _ => 1
  | releasePush _ => 1
  | _ => 0

@[simp]
def creates : Thread κ → ℕ
  | fillCreate | acquireCreate => 1
  | _ => 0

/-- The permits a thread is about to add to the semaphore for good. -/
@[simp]
def grows : Thread κ → ℕ
  | fillGrow => cfg.growth
  | _ => 0

end Thread

/-- The number of live connections: idle, held by a manager, or held or being created by a
thread. -/
def live (c : Config (Shared κ) (Thread κ)) : ℕ :=
  c.potential (fun s => s.connections.length + s.held.length) Thread.carries

def StartsCreation (c c' : Config (Shared κ) (Thread κ)) : Prop :=
  total Thread.creates c.threads < total Thread.creates c'.threads

end PostgresLib.Pool
