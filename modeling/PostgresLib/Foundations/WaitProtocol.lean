/-! # Waiting on a condition variable

A thread that waits for a predicate evaluates it while it holds the mutex, gives the
mutex up and blocks in one step when it found it false, and evaluates it again once
it is woken and has the mutex back. A notification reaches the threads that are
blocked, and no others.
-/

namespace PostgresLib.Foundations

/-- Where a thread is between taking the mutex and leaving the wait. -/
inductive WaitPhase where
  | testing
  | refused
  | blocked
  | notified
  | passed
  deriving DecidableEq

namespace WaitPhase

def holdsMutex : WaitPhase → Bool
  | testing | refused | passed => true
  | _ => false

/-- What a notification does to a thread that it reaches. -/
def notify : WaitPhase → WaitPhase
  | blocked => notified
  | phase => phase

/-- A step of the wait: the predicate, whether the mutex is held, and where the thread is. A
blocked thread may wake without a notification. -/
inductive Step (predicate : Bool) : Bool → WaitPhase → Bool → WaitPhase → Prop
  | pass (h : predicate = true) : Step predicate true testing true passed
  | refuse (h : predicate = false) : Step predicate true testing true refused
  | block : Step predicate true refused false blocked
  | wake {held : Bool} : Step predicate held blocked held notified
  | retake : Step predicate false notified true testing

/-- The thread does not block before it evaluates the predicate again. -/
def awake : WaitPhase → Bool
  | refused | blocked => false
  | _ => true

/-- As long as the predicate is true, a thread that is awake stays awake. -/
theorem Step.awake {predicate held held' : Bool} {phase phase' : WaitPhase}
    (h : Step predicate held phase held' phase') (hp : predicate = true)
    (hawake : phase.awake = true) : phase'.awake = true := by
  cases h with
  | refuse hfalse =>
    rw [hp] at hfalse
    cases hfalse
  | pass | block | wake | retake => first | rfl | cases hawake

/-- A notification leaves only those threads asleep that have found the predicate false and not
blocked yet. -/
theorem awake_notify {phase : WaitPhase} (h : phase ≠ refused) : phase.notify.awake = true := by
  cases phase <;> first | rfl | exact absurd rfl h

theorem awake_notify_of_awake {phase : WaitPhase} (h : phase.awake = true) :
    phase.notify.awake = true := by
  cases phase <;> first | rfl | cases h

end WaitPhase

end PostgresLib.Foundations
