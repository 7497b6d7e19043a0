import PostgresLib.Pool.Model

/-! # The counter of the pool's semaphore

The pool's model counts permits without a bound. `m_capacity` counts them in an `int`:
what its constructor and `release` are given goes through `std::ptrdiff_t` to that
`int`, to which it is added, and past `max()` the sum wraps around. So the counter is
known from the permits, and the pool takes one only while the counter is positive.
-/

namespace PostgresLib.Pool

open Foundations

variable {κ : Type} {cfg : PoolConfig}

/-- `max()` of the semaphore. -/
def maxPermits : ℕ := 2147483647

/-- The counter when so many permits more were given to the semaphore than were taken. -/
def counter (permits : ℕ) : ℤ := Int.bmod permits (2 ^ 32)

theorem counter_le (permits : ℕ) : counter permits ≤ maxPermits :=
  Int.bmod_le (by decide)

theorem counter_of_le {permits : ℕ} (h : permits ≤ maxPermits) : counter permits = permits := by
  unfold maxPermits at h
  apply Int.bmod_eq_of_le_mul_two <;> omega

theorem counter_pos {permits : ℕ} (hpos : 0 < permits) (h : permits ≤ maxPermits) :
    0 < counter permits := by
  rw [counter_of_le h]
  exact Int.natCast_pos.mpr hpos

/-- A permit is taken only while the counter is positive. -/
def CountsPermits (c c' : Config (Shared κ) (Thread κ)) : Prop :=
  c'.shared.capacity < c.shared.capacity → 0 < counter c.shared.capacity

def countedRuns (cfg : PoolConfig) : TransitionSystem (Config (Shared κ) (Thread κ)) :=
  (system cfg).guarded CountsPermits

end PostgresLib.Pool
