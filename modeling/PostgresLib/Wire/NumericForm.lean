import PostgresLib.Wire.NumericValue
import Mathlib.Data.Nat.Digits.Lemmas

/-! # The form of NUMERIC on the wire

The server reads what the encoder writes by its own definition of NUMERIC. The
groups are the digits to the base 10000, without those at the end that are zero; the
weight counts all of them, so that the sum over the groups is the value.
-/

namespace PostgresLib.Wire

open Foundations

theorem decimalGroups_digits (v : UInt64) :
    (decimalGroups v).map UInt16.toNat = Nat.digits 10000 v.toNat := by
  fun_induction decimalGroups v with
  | case1 v hpos ih =>
    have hv : 0 < v.toNat := UInt64.lt_iff_toNat_lt.mp hpos
    have hmod := Nat.mod_lt v.toNat (show 0 < 10000 by decide)
    rw [List.map_cons, ih, Nat.digits_def' (by norm_num) hv, UInt64.toNat_div]
    congr 1
    rw [UInt64.toNat_toUInt16, UInt64.toNat_mod]
    exact Nat.mod_eq_of_lt (by simp only [UInt64.reduceToNat]; omega)
  | case2 v hzero =>
    have hv : v.toNat = 0 := by
      rw [UInt64.lt_iff_toNat_lt] at hzero
      simp only [UInt64.reduceToNat] at hzero
      omega
    rw [hv, List.map_nil, Nat.digits_zero]

theorem mem_decimalGroups {v : UInt64} {d : UInt16} (h : d ∈ decimalGroups v) :
    d.toNat < 10000 := by
  have hmem : d.toNat ∈ Nat.digits 10000 v.toNat := by
    rw [← decimalGroups_digits]
    exact List.mem_map_of_mem h
  exact Nat.digits_lt_base (by norm_num) hmem

theorem groupsValue_decimalGroups (v : UInt64) :
    groupsValue (decimalGroups v).reverse = v.toNat := by
  rw [groupsValue, List.reverse_reverse, decimalGroups_digits, Nat.ofDigits_digits]

/-- The most significant group is not zero. -/
theorem decimalGroups_getLast {v : UInt64} (hv : v ≠ 0) : (decimalGroups v).getLast? ≠ some 0 := by
  intro hlast
  have hne : v.toNat ≠ 0 := fun h => hv (UInt64.toNat_inj.mp h)
  have hdigits : (Nat.digits 10000 v.toNat).getLast? = some 0 := by
    rw [← decimalGroups_digits, List.getLast?_map, hlast]
    rfl
  rw [List.getLast?_eq_getLast_of_ne_nil (Nat.digits_ne_nil_iff_ne_zero.mpr hne)] at hdigits
  exact Nat.getLast_digit_ne_zero 10000 hne (Option.some.inj hdigits)

/-- What is kept does not end with a zero group. -/
theorem stripZeroGroups_getLast {raw : List UInt16} (hne : raw ≠ []) (hfirst : raw.head? ≠ some 0) :
    (stripZeroGroups raw).getLast? ≠ some 0 := by
  fun_induction stripZeroGroups raw with
  | case1 raw hzero ih =>
    rcases raw with - | ⟨d, raw⟩
    · exact absurd rfl hne
    · rcases raw with - | ⟨d', raw⟩
      · exact absurd hzero.1 (by simp)
      · exact ih (by simp) (by simpa using hfirst)
  | case2 raw hstop =>
    intro hlast
    rcases raw with - | ⟨d, raw⟩
    · exact absurd rfl hne
    · rcases raw with - | ⟨d', raw⟩
      · exact hfirst hlast
      · exact hstop ⟨by simp, hlast⟩

namespace Numeric

/-- The form in which the server sends and stores a natural number. -/
structure Canonical (x : Numeric) (v : ℕ) : Prop where
  nonempty : 1 ≤ x.groups.length
  integral : x.dscale = 0
  first : x.groups.head? ≠ some 0
  last : x.groups.getLast? ≠ some 0
  weight : (x.groups.length : ℤ) - 1 ≤ x.weight.toInt
  value : x.value = v

end Numeric

/-- The groups that are kept, with the weight of all groups. -/
def keptGroups (v : UInt64) (hv : v ≠ 0) : Numeric where
  weight := Int16.ofNat ((decimalGroups v).length - 1)
  dscale := 0
  groups := stripZeroGroups (decimalGroups v).reverse
  count := by
    rcases stripZeroGroups_decimalGroups hv with ⟨k, -, -, hlen, hfive⟩
    omega
  digits := by
    intro d hd
    rcases stripZeroGroups_decimalGroups hv with ⟨k, hk, -⟩
    have hmem : d ∈ (decimalGroups v).reverse := by
      rw [hk]
      exact List.mem_append_left _ hd
    exact mem_decimalGroups (List.mem_reverse.mp hmem)

theorem keptGroups_canonical {v : UInt64} (hv : v ≠ 0) : (keptGroups v hv).Canonical v.toNat := by
  rcases stripZeroGroups_decimalGroups hv with ⟨k, hk, hpos, hlen, hfive⟩
  have hweight : (keptGroups v hv).weight.toInt = (decimalGroups v).length - 1 := by
    rw [keptGroups, Int16.toInt_ofNat_of_lt (by omega)]
    omega
  have hgroups : (keptGroups v hv).groups = stripZeroGroups (decimalGroups v).reverse := rfl
  have hfirst : (decimalGroups v).reverse.head? ≠ some 0 := by
    rw [List.head?_reverse]
    exact decimalGroups_getLast hv
  have hne : (decimalGroups v).reverse ≠ [] := by simpa using decimalGroups_ne_nil hv
  constructor
  · exact hpos
  · rfl
  · intro hhead
    apply hfirst
    rw [hk, ← hgroups, List.head?_append, hhead]
    rfl
  · exact stripZeroGroups_getLast hne hfirst
  · rw [hweight, hgroups]
    omega
  · have htrailing : (keptGroups v hv).trailing = k := by
      rw [Numeric.trailing, hweight, hgroups]
      omega
    rw [Numeric.value_eq, htrailing, zpow_natCast, hgroups]
    have hvalue := groupsValue_append_zeros (stripZeroGroups (decimalGroups v).reverse) k
    rw [← hk, groupsValue_decimalGroups] at hvalue
    exact_mod_cast hvalue.symm

/-- The bytes the encoder writes for a positive value are those of its canonical form. -/
theorem encodeNumericUint64_canonical (v : UInt64) (hv : 0 < v) :
    ∃ x : Numeric, x.Canonical v.toNat ∧
      encodeNumericUint64 .little v = .ok (
        bytesBE (Scalar.toWord (Int16.ofNat x.groups.length)) ++
          bytesBE (Scalar.toWord x.weight) ++
          bytesBE (Scalar.toWord (0 : Int16)) ++
          bytesBE (Scalar.toWord (0 : Int16)) ++
          (x.groups.map fun digit => bytesBE (Scalar.toWord digit)).flatten) := by
  have hne : v ≠ 0 := by
    rintro rfl
    exact absurd hv (by decide)
  exact ⟨keptGroups v hne, keptGroups_canonical hne, encodeNumericUint64_eq hne⟩

/-- For 10002 * 10000 the last group is left out and the weight still counts it. -/
theorem encodeNumericUint64_canonical_stripped :
    (0 : UInt64) < 100020000 ∧
      ∃ x : Numeric, x.Canonical 100020000 ∧
        encodeNumericUint64 .little 100020000 = .ok (
          bytesBE (Scalar.toWord (Int16.ofNat x.groups.length)) ++
            bytesBE (Scalar.toWord x.weight) ++
            bytesBE (Scalar.toWord (0 : Int16)) ++
            bytesBE (Scalar.toWord (0 : Int16)) ++
            (x.groups.map fun digit => bytesBE (Scalar.toWord digit)).flatten) :=
  ⟨by decide, encodeNumericUint64_canonical 100020000 (by decide)⟩

end PostgresLib.Wire
