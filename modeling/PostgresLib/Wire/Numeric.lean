import PostgresLib.Wire.Columns
import PostgresLib.Wire.Encoding
import Mathlib.Data.List.Basic
import Mathlib.Tactic.Ring

/-! # Unsigned 64-bit values as NUMERIC

The encoder writes base-10000 groups, most significant first, and leaves out zero
groups at the end; the decoder accumulates the groups and multiplies the missing
ones back in. Both sides are one Horner sum over the groups.
-/

namespace PostgresLib.Wire

open Foundations

/-- The value of groups that follow a prefix with value `start`. -/
def horner (start : UInt64) (groups : List UInt16) : UInt64 :=
  groups.foldl (fun result digit => result * 10000 + digit.toUInt64) start

@[simp] theorem horner_nil (start : UInt64) : horner start [] = start := rfl

@[simp] theorem horner_cons (start : UInt64) (digit : UInt16) (groups : List UInt16) :
    horner start (digit :: groups) = horner (start * 10000 + digit.toUInt64) groups := rfl

theorem horner_append (start : UInt64) (front back : List UInt16) :
    horner start (front ++ back) = horner (horner start front) back :=
  List.foldl_append

theorem horner_replicate_zero (k : ℕ) : horner 0 (List.replicate k 0) = 0 := by
  induction k with
  | zero => rfl
  | succ k ih => exact ih

/-- The groups of a value sum up to it. -/
theorem horner_decimalGroups (v : UInt64) : horner 0 (decimalGroups v).reverse = v := by
  fun_induction decimalGroups v with
  | case1 v hpos ih =>
    rw [List.reverse_cons, horner_append, ih, horner_cons, horner_nil]
    apply UInt64.toNat_inj.mp
    have hv := v.toNat_lt
    have hmod := Nat.mod_lt v.toNat (show 0 < 10000 by decide)
    simp only [UInt64.toNat_add, UInt64.toNat_mul, UInt64.toNat_div, UInt16.toNat_toUInt64,
      UInt64.toNat_toUInt16, UInt64.toNat_mod, UInt64.reduceToNat]
    omega
  | case2 v hzero =>
    apply UInt64.toNat_inj.mp
    rw [UInt64.lt_iff_toNat_lt] at hzero
    simp only [List.reverse_nil, horner_nil, UInt64.reduceToNat] at hzero ⊢
    omega

theorem decimalGroups_length (k : ℕ) (v : UInt64) (h : v.toNat < 10000 ^ k) :
    (decimalGroups v).length ≤ k := by
  induction k generalizing v with
  | zero =>
    have hzero : ¬ 0 < v := by
      rw [UInt64.lt_iff_toNat_lt]
      simp only [pow_zero, UInt64.reduceToNat] at h ⊢
      omega
    rw [decimalGroups, if_neg hzero]
    rfl
  | succ k ih =>
    rw [decimalGroups]
    split_ifs with hpos
    · have hdiv : (v / 10000).toNat < 10000 ^ k := by
        rw [UInt64.toNat_div]
        exact Nat.div_lt_of_lt_mul (by rwa [pow_succ'] at h)
      have := ih _ hdiv
      rw [List.length_cons]
      omega
    · exact Nat.zero_le _

theorem decimalGroups_ne_nil {v : UInt64} (h : v ≠ 0) : decimalGroups v ≠ [] := by
  have hpos : 0 < v := by
    rw [UInt64.lt_iff_toNat_lt]
    exact Nat.pos_of_ne_zero fun hz => h (UInt64.toNat_inj.mp hz)
  rw [decimalGroups, if_pos hpos]
  exact List.cons_ne_nil _ _

/-- Only zero groups are stripped, and never all groups. -/
theorem stripZeroGroups_spec (raw : List UInt16) (h : raw ≠ []) :
    stripZeroGroups raw ≠ [] ∧
      ∃ k, raw = stripZeroGroups raw ++ List.replicate k 0 := by
  fun_induction stripZeroGroups raw with
  | case1 raw hzero ih =>
    have hne : raw.dropLast ≠ [] := by
      intro hnil
      have hlen := congrArg List.length hnil
      rw [List.length_dropLast, List.length_nil] at hlen
      omega
    obtain ⟨hkept, k, hk⟩ := ih hne
    refine ⟨hkept, k + 1, ?_⟩
    rw [List.replicate_succ', ← List.append_assoc, ← hk]
    exact (List.dropLast_append_getLast? 0 hzero.2).symm
  | case2 raw hstop => exact ⟨h, 0, by simp⟩

def groupBytes (groups : List UInt16) : Bytes :=
  (groups.map fun digit => bytesBE (Scalar.toWord digit)).flatten

theorem groupBytes_length (groups : List UInt16) :
    (groupBytes groups).length = 2 * groups.length := by
  induction groups with
  | nil => rfl
  | cons digit groups ih =>
    rw [groupBytes, List.map_cons, List.flatten_cons, List.length_append, bytesBE_length,
      ← groupBytes, ih, List.length_cons]
    omega

/-- The first decoder loop, over the groups that are left. -/
theorem accumulateGroups_groupBytes (header : Bytes) (hheader : header.length = 8)
    (front back : List UInt16) (hlen : (front ++ back).length < 2 ^ 15) (result : UInt64) :
    accumulateGroups .little (header ++ groupBytes (front ++ back))
      (Int16.ofNat (front ++ back).length) (Int16.ofNat front.length) result =
        .ok (horner result back) := by
  induction back generalizing front result with
  | nil =>
    rw [accumulateGroups, List.append_nil, if_neg Int16.lt_irrefl, horner_nil]
  | cons digit back ih =>
    have hfront : front.length < 2 ^ 15 := by
      rw [List.length_append] at hlen
      omega
    have hlt : Int16.ofNat front.length < Int16.ofNat (front ++ digit :: back).length := by
      rw [Int16.lt_iff_toInt_lt, Int16.toInt_ofNat_of_lt hlen, Int16.toInt_ofNat_of_lt hfront]
      simp only [List.length_append, List.length_cons]
      omega
    have hread : readBigEndian .little UInt16 (header ++ groupBytes (front ++ digit :: back))
        (8 + (Int16.ofNat front.length).toInt * 2) = .ok digit := by
      have hsplit : header ++ groupBytes (front ++ digit :: back) =
          (header ++ groupBytes front) ++ bytesBE (Scalar.toWord digit) ++ groupBytes back := by
        simp [groupBytes]
      rw [hsplit]
      apply readBigEndian_append
      rw [Int16.toInt_ofNat_of_lt hfront, List.length_append, hheader, groupBytes_length]
      push_cast
      ring
    have hnext : Int16.ofNat front.length + 1 = Int16.ofNat (front ++ [digit]).length := by
      rw [List.length_append, List.length_singleton, Int16.ofNat_add]
      rfl
    rw [accumulateGroups, if_pos hlt, hread]
    change accumulateGroups .little _ _ (Int16.ofNat front.length + 1) _ = _
    have hshift := ih (front ++ [digit]) (by simpa using hlen)
      (result * 10000 + digit.toUInt64)
    rw [List.append_assoc, List.singleton_append] at hshift
    rw [hnext, hshift, horner_cons]

theorem restoreGroups_eq (k : ℕ) (trailing t : ℤ) (hk : k = (trailing - t).toNat)
    (hlo : -2 ^ 31 ≤ t) (hhi : trailing < 2 ^ 31) (result : UInt64) :
    restoreGroups trailing t result = .ok (horner result (List.replicate k 0)) := by
  induction k generalizing t result with
  | zero =>
    rw [restoreGroups, if_neg (by omega)]
    rfl
  | succ k ih =>
    rw [restoreGroups, if_pos (by omega), checkInt_ok (by omega) (by omega)]
    change restoreGroups trailing (t + 1) (result * 10000) = _
    rw [ih (t + 1) (by omega) (by omega), List.replicate_succ, horner_cons]
    congr 2
    exact (UInt64.add_zero _).symm

/-- The bytes of a value that is not negative: the header and the groups. -/
def numericPayload (weight dscale : Int16) (groups : List UInt16) : Bytes :=
  bytesBE (Scalar.toWord (Int16.ofNat groups.length)) ++ bytesBE (Scalar.toWord weight) ++
    bytesBE (Scalar.toWord (0 : Int16)) ++ bytesBE (Scalar.toWord dscale) ++ groupBytes groups

theorem numericPayload_length (weight dscale : Int16) (groups : List UInt16) :
    (numericPayload weight dscale groups).length = 8 + 2 * groups.length := by
  simp only [numericPayload, List.length_append, bytesBE_length, groupBytes_length]

/-- What the encoder writes for a positive value: the header and the groups it keeps. -/
theorem encodeNumericUint64_eq {v : UInt64} (h : v ≠ 0) :
    encodeNumericUint64 .little v = .ok
      (numericPayload (Int16.ofNat ((decimalGroups v).length - 1)) 0
        (stripZeroGroups (decimalGroups v).reverse)) := by
  have hpos := List.length_pos_iff.mpr (decimalGroups_ne_nil h)
  have hfive := decimalGroups_length 5 v (lt_of_lt_of_le v.toNat_lt (by norm_num))
  have hweight : Int16.ofInt ((Int16.ofNat (decimalGroups v).reverse.length).toInt - 1) =
      Int16.ofNat ((decimalGroups v).length - 1) := by
    have hpred : ((decimalGroups v).length : ℤ) - 1 = ((decimalGroups v).length - 1 : ℕ) := by
      omega
    rw [List.length_reverse, Int16.toInt_ofNat_of_lt (by omega), hpred, Int16.ofInt_eq_ofNat]
  rw [encodeNumericUint64, if_neg h]
  simp only [hweight, mapM_encodeFixed_little]
  change Except.ok _ = Except.ok _
  simp [numericPayload, groupBytes, List.append_assoc]

/-- The groups it leaves out are the zero groups behind those it keeps. -/
theorem stripZeroGroups_decimalGroups {v : UInt64} (h : v ≠ 0) :
    ∃ k, (decimalGroups v).reverse =
        stripZeroGroups (decimalGroups v).reverse ++ List.replicate k 0 ∧
      0 < (stripZeroGroups (decimalGroups v).reverse).length ∧
      (stripZeroGroups (decimalGroups v).reverse).length + k = (decimalGroups v).length ∧
      (decimalGroups v).length ≤ 5 := by
  have hne : (decimalGroups v).reverse ≠ [] := by simpa using decimalGroups_ne_nil h
  rcases stripZeroGroups_spec _ hne with ⟨hkept, k, hk⟩
  have hlen := congrArg List.length hk
  rw [List.length_reverse, List.length_append, List.length_replicate] at hlen
  exact ⟨k, hk, List.length_pos_iff.mpr hkept, hlen.symm,
    decimalGroups_length 5 v (lt_of_lt_of_le v.toNat_lt (by norm_num))⟩

def numericColum (weight dscale : Int16) (groups : List UInt16) : Colum where
  isNull := false
  oid := PgOid.numeric
  data := numericPayload weight dscale groups

/-- The decoder sums up the groups and the zero groups the weight announces behind them; groups
behind the decimal point are summed up like the others. -/
theorem asUInt64_numericColum (weight dscale : Int16) (groups : List UInt16)
    (hlen : groups.length < 2 ^ 15) :
    Colum.asUInt64 .little (numericColum weight dscale groups) =
      .ok (some (horner 0
        (groups ++ List.replicate (weight.toInt + 1 - groups.length).toNat 0))) := by
  have hwlo := weight.le_toInt
  have hwhi := weight.toInt_lt
  have hcount := Int16.toInt_ofNat_of_lt (n := groups.length) hlen
  have hndigits : readBigEndian .little Int16 (numericPayload weight dscale groups) 0 =
      .ok (Int16.ofNat groups.length) := by
    simp only [numericPayload, List.append_assoc]
    exact readBigEndian_append [] _ _ 0 rfl
  have hweight : readBigEndian .little Int16 (numericPayload weight dscale groups) 2 =
      .ok weight := by
    rw [numericPayload, List.append_assoc, List.append_assoc]
    exact readBigEndian_append _ _ _ 2 (by simp)
  have hsign : readBigEndian .little UInt16 (numericPayload weight dscale groups) 4 = .ok 0 := by
    rw [numericPayload, List.append_assoc]
    exact readBigEndian_append _ _ (0 : UInt16) 4 (by simp)
  rw [Colum.asUInt64, numericColum, if_neg (by simp), if_neg (by simp [numericPayload_length])]
  simp only [hndigits, hweight, hsign, ok_bind, ne_eq, not_true_eq_false, if_false]
  by_cases hnil : groups = []
  · subst hnil
    rw [if_pos (by rfl), List.nil_append, horner_replicate_zero]
    rfl
  · have hpos := List.length_pos_iff.mpr hnil
    have hzero : Int16.ofNat groups.length ≠ 0 := by
      intro heq
      have := congrArg Int16.toInt heq
      rw [hcount, Int16.toInt_zero] at this
      omega
    have hfits : ¬ (((numericPayload weight dscale groups).length : ℤ) <
        (8 + (Int16.ofNat groups.length).toInt * 2) % 2 ^ 64) := by
      rw [hcount, numericPayload_length]
      omega
    have hgroups : accumulateGroups .little (numericPayload weight dscale groups)
        (Int16.ofNat groups.length) 0 0 = .ok (horner 0 groups) :=
      accumulateGroups_groupBytes _ (by simp) [] groups hlen 0
    have htrailing : checkInt (weight.toInt - ((Int16.ofNat groups.length).toInt - 1)) =
        .ok (weight.toInt + 1 - groups.length) := by
      rw [hcount, show weight.toInt - ((groups.length : ℤ) - 1) =
        weight.toInt + 1 - groups.length by ring]
      exact checkInt_ok (by omega) (by omega)
    have hrestore := restoreGroups_eq _ (weight.toInt + 1 - groups.length) 0 rfl (by omega)
      (by omega) (horner 0 groups)
    rw [sub_zero] at hrestore
    simp only [if_neg hzero, if_neg hfits, hgroups, ok_bind, htrailing, hrestore, map_ok,
      horner_append]

/-- A column with the encoder's bytes reads back the value. -/
def NumericRoundTrip (native : Endian) (v : UInt64) : Prop :=
  ∃ data, encodeNumericUint64 native v = .ok data ∧
    Colum.asUInt64 native { isNull := false, oid := PgOid.numeric, data := data } = .ok (some v)

/-- The round trip holds for every value but zero, on the hosts the encoder supports. -/
theorem numericRoundTrip_iff (native : Endian) (v : UInt64) :
    NumericRoundTrip native v ↔ native = .little ∧ v ≠ 0 := by
  constructor
  · rintro ⟨data, hencode, hread⟩
    by_cases hv : v = 0
    · subst hv
      cases hencode
      cases native <;> cases hread
    · cases native with
      | little => exact ⟨rfl, hv⟩
      | big =>
        rw [encodeNumericUint64, if_neg hv] at hencode
        cases hencode
  · rintro ⟨rfl, hv⟩
    rcases stripZeroGroups_decimalGroups hv with ⟨k, hk, hpos, hlen, hfive⟩
    have hread := asUInt64_numericColum (Int16.ofNat ((decimalGroups v).length - 1)) 0
      (stripZeroGroups (decimalGroups v).reverse) (by omega)
    have htrailing : ((Int16.ofNat ((decimalGroups v).length - 1)).toInt + 1 -
        (stripZeroGroups (decimalGroups v).reverse).length).toNat = k := by
      rw [Int16.toInt_ofNat_of_lt (by omega)]
      omega
    rw [htrailing, ← hk, horner_decimalGroups] at hread
    exact ⟨_, encodeNumericUint64_eq hv, hread⟩

/-- Zero is written as two bytes, which the decoder refuses. -/
theorem numericRoundTrip_zero_fails :
    ¬ (∀ v, NumericRoundTrip .little v) ∧ encodeNumericUint64 .little 0 = .ok [8, 0] ∧
      Colum.asUInt64 .little { isNull := false, oid := PgOid.numeric, data := [8, 0] } =
        .ok none := by
  refine ⟨fun h => ?_, rfl, rfl⟩
  obtain ⟨data, hencode, hread⟩ := h 0
  cases hencode
  cases hread

end PostgresLib.Wire
