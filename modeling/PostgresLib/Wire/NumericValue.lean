import PostgresLib.Wire.Numeric
import Mathlib.Data.Nat.Digits.Defs
import Mathlib.Data.Nat.Prime.Basic
import Mathlib.Data.Rat.Cast.Defs
import Mathlib.Algebra.Order.Field.Rat
import Mathlib.Tactic.Positivity

/-! # When NUMERIC is read exactly

A NUMERIC payload stands for a sum of powers of 10000 with integer exponents. The
decoder sums all groups up as if none stood behind the decimal point, and modulo
2^64. What it returns is the value of the payload exactly when no group stands
there and the value fits, or the value is zero.
-/

namespace PostgresLib.Wire

/-- A well-formed value that is not negative. -/
structure Numeric where
  weight : Int16
  dscale : Int16
  groups : List UInt16
  count : groups.length < 2 ^ 15
  digits : ∀ d ∈ groups, d.toNat < 10000

/-- The groups as the digits of a natural number. -/
def groupsValue (groups : List UInt16) : ℕ :=
  Nat.ofDigits 10000 (groups.reverse.map UInt16.toNat)

@[simp] theorem groupsValue_nil : groupsValue [] = 0 := rfl

@[simp] theorem groupsValue_concat (groups : List UInt16) (d : UInt16) :
    groupsValue (groups ++ [d]) = groupsValue groups * 10000 + d.toNat := by
  simp only [groupsValue, List.reverse_append, List.reverse_singleton, List.singleton_append,
    List.map_cons, Nat.ofDigits_cons]
  ring

theorem groupsValue_append_zeros (groups : List UInt16) (k : ℕ) :
    groupsValue (groups ++ List.replicate k 0) = groupsValue groups * 10000 ^ k := by
  induction k with
  | zero => simp
  | succ k ih =>
    rw [List.replicate_succ', ← List.append_assoc, groupsValue_concat, ih, pow_succ]
    simp only [UInt16.reduceToNat]
    ring

theorem groupsValue_eq_zero (groups : List UInt16) :
    groupsValue groups = 0 ↔ ∀ d ∈ groups, d = 0 := by
  induction groups using List.reverseRecOn with
  | nil => simp
  | append_singleton groups d ih =>
    have hd : d.toNat = 0 ↔ d = 0 := UInt16.toNat_inj (b := 0)
    rw [groupsValue_concat, Nat.add_eq_zero_iff, hd, List.forall_mem_append, ← ih,
      List.forall_mem_singleton]
    simp

/-- The loops of the decoder compute the groups' value modulo 2^64. -/
theorem horner_toNat (groups : List UInt16) :
    (horner 0 groups).toNat = groupsValue groups % 2 ^ 64 := by
  induction groups using List.reverseRecOn with
  | nil => rfl
  | append_singleton groups d ih =>
    rw [horner_append, horner_cons, horner_nil, groupsValue_concat]
    simp only [UInt64.toNat_add, UInt64.toNat_mul, ih, UInt16.toNat_toUInt64, UInt64.reduceToNat]
    omega

namespace Numeric

variable (x : Numeric)

/-- The mathematical value: the sum of `digit i * 10000 ^ (weight - i)`. -/
def value : ℚ :=
  (x.groups.mapIdx fun i d => (d.toNat : ℚ) * 10000 ^ (x.weight.toInt - i)).sum

def colum : Colum := numericColum x.weight x.dscale x.groups

theorem sum_groups (w : ℤ) (groups : List UInt16) :
    (groups.mapIdx fun i d => (d.toNat : ℚ) * 10000 ^ (w - i)).sum =
      groupsValue groups * 10000 ^ (w + 1 - groups.length) := by
  induction groups using List.reverseRecOn with
  | nil => simp
  | append_singleton groups d ih =>
    have hw : w + 1 - groups.length = w - groups.length + 1 := by ring
    rw [List.mapIdx_concat, List.sum_append, ih, groupsValue_concat, hw,
      zpow_add_one₀ (by norm_num)]
    push_cast
    simp only [List.length_append, List.length_singleton, List.sum_singleton]
    push_cast
    rw [show w + 1 - ((groups.length : ℤ) + 1) = w - groups.length by ring]
    ring

/-- The accessor returns the value when it is a natural number below 2^64, and nothing
otherwise. -/
def ReadsExactly : Prop :=
  (∀ v : UInt64, x.value = v.toNat → x.colum.asUInt64 .little = .ok (some v)) ∧
    ((∀ v : UInt64, x.value ≠ v.toNat) → x.colum.asUInt64 .little = .ok none)

/-- The number of zero groups the weight announces behind the groups. -/
def trailing : ℤ := x.weight.toInt + 1 - x.groups.length

def result : UInt64 := horner 0 (x.groups ++ List.replicate x.trailing.toNat 0)

theorem asUInt64_colum : x.colum.asUInt64 .little = .ok (some x.result) :=
  asUInt64_numericColum x.weight x.dscale x.groups x.count

theorem result_toNat :
    x.result.toNat = groupsValue x.groups * 10000 ^ x.trailing.toNat % 2 ^ 64 := by
  rw [result, horner_toNat, groupsValue_append_zeros]

theorem value_eq : x.value = groupsValue x.groups * 10000 ^ x.trailing :=
  sum_groups x.weight.toInt x.groups

theorem readsExactly_iff_result : x.ReadsExactly ↔ x.value = x.result.toNat := by
  rw [ReadsExactly, asUInt64_colum]
  constructor
  · rintro ⟨hsome, hnone⟩
    by_contra hne
    have hall : ∀ v : UInt64, x.value ≠ v.toNat := by
      rintro v hv
      have hres : x.result = v := by simpa using hsome v hv
      exact hne (hres ▸ hv)
    exact absurd (hnone hall) (by simp)
  · intro h
    constructor
    · intro v hv
      have hnat : x.result.toNat = v.toNat := by exact_mod_cast h.symm.trans hv
      rw [UInt64.toNat_inj.mp hnat]
    · intro hall
      exact absurd h (hall _)

/-- A multiple by a power of 10000 is the number modulo 2^64 again only when it is zero. -/
theorem eq_zero_of_mul_pow {v k : ℕ} (hk : 0 < k) (h : v * 10000 ^ k % 2 ^ 64 = v) : v = 0 := by
  have hlt : v < 2 ^ 64 := h ▸ Nat.mod_lt _ (by norm_num)
  have hdvd : 2 ^ 64 ∣ v * (10000 ^ k - 1) := by
    rw [Nat.mul_sub, Nat.mul_one]
    apply Nat.dvd_of_mod_eq_zero
    apply Nat.sub_mod_eq_zero_of_mod_eq
    rw [h, Nat.mod_eq_of_lt hlt]
  have hodd : Nat.Coprime (2 ^ 64) (10000 ^ k - 1) := by
    apply Nat.Coprime.pow_left
    rw [Nat.coprime_two_left]
    apply Nat.Even.sub_odd (Nat.one_le_pow _ _ (by norm_num)) _ odd_one
    exact Even.pow_of_ne_zero (by decide) hk.ne'
  exact Nat.eq_zero_of_dvd_of_lt (hodd.dvd_of_dvd_mul_right hdvd) hlt

/-- All groups stand before the decimal point and the value fits, or the value is zero. -/
theorem readsExactly_iff :
    x.ReadsExactly ↔
      (∀ d ∈ x.groups, d = 0) ∨ (x.groups.length ≤ x.weight.toInt + 1 ∧ x.value < 2 ^ 64) := by
  rw [readsExactly_iff_result, result_toNat, ← groupsValue_eq_zero, value_eq]
  rcases le_or_gt 0 x.trailing with ht | ht
  · have hgroups : (x.groups.length : ℤ) ≤ x.weight.toInt + 1 := by
      unfold trailing at ht
      omega
    obtain ⟨k, hk⟩ := Int.eq_ofNat_of_zero_le ht
    rw [hk, Int.toNat_natCast, zpow_natCast]
    constructor
    · intro h
      right
      refine ⟨hgroups, ?_⟩
      rw [h]
      exact_mod_cast Nat.mod_lt _ (by norm_num : 0 < 2 ^ 64)
    · rintro (hzero | ⟨-, hlt⟩)
      · simp [hzero]
      · have hlt' : groupsValue x.groups * 10000 ^ k < 2 ^ 64 := by exact_mod_cast hlt
        rw [Nat.mod_eq_of_lt hlt']
        push_cast
        ring
  · have hgroups : ¬ (x.groups.length : ℤ) ≤ x.weight.toInt + 1 := by
      unfold trailing at ht
      omega
    obtain ⟨k, hk⟩ : ∃ k : ℕ, x.trailing = -k := ⟨(-x.trailing).toNat, by omega⟩
    rw [hk, zpow_neg, zpow_natCast, show (-(k : ℤ)).toNat = 0 by omega, pow_zero, mul_one]
    constructor
    · intro h
      left
      have hmul : groupsValue x.groups = groupsValue x.groups % 2 ^ 64 * 10000 ^ k := by
        have hpow : (10000 : ℚ) ^ k ≠ 0 := by positivity
        rw [mul_inv_eq_iff_eq_mul₀ hpow] at h
        exact_mod_cast h
      have hmod : groupsValue x.groups % 2 ^ 64 * 10000 ^ k % 2 ^ 64 =
          groupsValue x.groups % 2 ^ 64 := by rw [← hmul]
      rw [hmul, eq_zero_of_mul_pow (by omega) hmod, Nat.zero_mul]
    · rintro (hzero | ⟨hle, -⟩)
      · simp [hzero]
      · exact absurd hle hgroups

def half : Numeric where
  weight := -1
  dscale := 1
  groups := [5000]
  count := by decide
  digits := by simp

def tooLarge : Numeric where
  weight := 4
  dscale := 0
  groups := [1844, 6744, 737, 955, 1616]
  count := by decide
  digits := by simp

/-- One half is read as 5000, and 2^64 as zero. -/
theorem readsExactly_fails :
    ¬ (∀ x : Numeric, x.ReadsExactly) ∧
      half.value = 1 / 2 ∧ half.colum.asUInt64 .little = .ok (some 5000) ∧
      tooLarge.value = 2 ^ 64 ∧ tooLarge.colum.asUInt64 .little = .ok (some 0) := by
  have hhalf : half.value = 1 / 2 := by
    rw [value_eq, show half.trailing = -1 by decide, show groupsValue half.groups = 5000 by decide]
    norm_num
  have hlarge : tooLarge.value = 2 ^ 64 := by
    rw [value_eq, show tooLarge.trailing = 0 by decide,
      show groupsValue tooLarge.groups = 2 ^ 64 by decide]
    norm_num
  have hread : half.result = 5000 := by decide
  have hread' : tooLarge.result = 0 := by decide
  refine ⟨fun h => ?_, hhalf, ?_, hlarge, ?_⟩
  · have hexact := (half.readsExactly_iff_result).mp (h half)
    rw [hhalf, hread, show UInt64.toNat 5000 = 5000 by decide] at hexact
    norm_num at hexact
  · rw [asUInt64_colum, hread]
  · rw [asUInt64_colum, hread']

end Numeric

end PostgresLib.Wire
