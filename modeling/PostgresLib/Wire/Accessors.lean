import PostgresLib.Wire.Numeric
import PostgresLib.Wire.Timestamps

/-! # The accessors stay inside of the payload

Evaluated with a check on every operation on a counter or an index, the accessors
return what they return without. Nothing of what a payload claims about itself leads
to a read outside of it: not the group count of a NUMERIC, however large or negative
it is, and not the weight. The one fault that is left is the arithmetic on instants.
-/

namespace PostgresLib.Wire

open Foundations

/-- The types a column is asked for; `as` has no specialisation for those of the last form. -/
inductive ResultType : Type 1 where
  | bool | int16 | int32 | int64 | uint16 | uint32 | uint64 | float | double | string
  | timestamp | bytes
  | other (T : Type)

abbrev ResultType.Value : ResultType → Type
  | bool => Bool
  | int16 => Int16
  | int32 => Int32
  | int64 => Int64
  | uint16 => UInt16
  | uint32 => UInt32
  | uint64 => UInt64
  | float => UInt32
  | double => UInt64
  | string => Bytes
  | timestamp => Timestamp
  | bytes => Bytes
  | other T => T

variable (native : Endian)

def Colum.as (c : Colum) : (T : ResultType) → Except Fault (Option T.Value)
  | .bool => c.asBool
  | .int16 => c.asInt16 native
  | .int32 => c.asInt32 native
  | .int64 => c.asInt64 native
  | .uint16 => c.asUInt16 native
  | .uint32 => c.asUInt32 native
  | .uint64 => c.asUInt64 native
  | .float => c.asFloat native
  | .double => c.asDouble native
  | .string => c.asString
  | .timestamp => c.asTimestamp native
  | .bytes => c.asBytes
  | .other _ => .ok none

theorem as_of_isNull {c : Colum} (h : c.isNull = true) (T : ResultType) :
    c.as native T = .ok none := by
  cases T with
  | bool => exact if_pos (.inl h)
  | other => rfl
  | _ => exact if_pos h

/-- A new value of a counter of type `int16_t`. -/
def checkInt16 (v : ℤ) : Except Fault ℤ :=
  if -2 ^ 15 ≤ v ∧ v < 2 ^ 15 then .ok v else .error .signedOverflow

/-- The first loop of `as<uint64_t>` with a check on its counter and its index. -/
def accumulateGroupsChecked (data : Bytes) (ndigits : Int16) (i : Int16) (result : UInt64) :
    Except Fault UInt64 :=
  if i < ndigits then do
    let offset ← checkInt (i.toInt * 2)
    let digit ← readBigEndian native UInt16 data (8 + offset)
    let _ ← checkInt16 (i.toInt + 1)
    accumulateGroupsChecked data ndigits (i + 1) (result * 10000 + digit.toUInt64)
  else .ok result
termination_by (ndigits.toInt - i.toInt).toNat
decreasing_by
  rename_i h
  have hlt : i.toInt < ndigits.toInt := Int16.lt_iff_toInt_lt.mp h
  rw [toInt_succ_of_lt h]
  omega

/-- `as<uint64_t>` with a check on every operation on `int16_t` and `int`. -/
def Colum.asUInt64Checked (c : Colum) : Except Fault (Option UInt64) :=
  if c.isNull then .ok none
  else if c.oid ≠ PgOid.numeric ∨ c.data.length < 8 then .ok none
  else do
    let ndigits ← readBigEndian native Int16 c.data 0
    let weight ← readBigEndian native Int16 c.data 2
    let sign ← readBigEndian native UInt16 c.data 4
    if sign ≠ 0 then return none
    else if ndigits = 0 then return some 0
    else do
      let width ← checkInt (ndigits.toInt * 2)
      let size ← checkInt (8 + width)
      if (c.data.length : ℤ) < size % 2 ^ 64 then return none
      else do
        let result ← accumulateGroupsChecked native c.data ndigits 0 0
        let last ← checkInt (ndigits.toInt - 1)
        let trailing ← checkInt (weight.toInt - last)
        some <$> restoreGroups trailing 0 result

/-- `as<T>` with a check on every operation on a counter or an index; only `as<uint64_t>` has
any. -/
def Colum.asChecked (c : Colum) : (T : ResultType) → Except Fault (Option T.Value)
  | .uint64 => c.asUInt64Checked native
  | T => c.as native T

/-- The check on the counter and the index of the first loop never fails. -/
theorem accumulateGroupsChecked_eq (data : Bytes) (ndigits i : Int16) (result : UInt64) :
    accumulateGroupsChecked native data ndigits i result =
      accumulateGroups native data ndigits i result := by
  fun_induction accumulateGroupsChecked native data ndigits i result with
  | case1 i result hlt ih =>
    have hless : i.toInt < ndigits.toInt := Int16.lt_iff_toInt_lt.mp hlt
    have hlo := i.le_toInt
    have hhi := ndigits.toInt_lt
    have hindex : checkInt (i.toInt * 2) = .ok (i.toInt * 2) :=
      checkInt_ok (by omega) (by omega)
    have hcounter : checkInt16 (i.toInt + 1) = .ok (i.toInt + 1) :=
      if_pos ⟨by omega, by omega⟩
    rw [accumulateGroups, if_pos hlt, hindex, hcounter]
    simp only [ok_bind, ih]
  | case2 i result hstop => rw [accumulateGroups, if_neg hstop]

def Returns {α : Type} (m : Except Fault α) : Prop := ∃ a, m = .ok a

namespace Returns

variable {α β : Type} {m m' : Except Fault α}

theorem ok (a : α) : Returns (.ok a) := ⟨a, rfl⟩

theorem map (h : Returns m) (f : α → β) : Returns (f <$> m) := by
  rcases h with ⟨a, rfl⟩
  exact ⟨f a, rfl⟩

theorem bind {f : α → Except Fault β} (h : Returns m) (hf : ∀ a, m = .ok a → Returns (f a)) :
    Returns (m >>= f) := by
  rcases h with ⟨a, rfl⟩
  exact hf a rfl

theorem ite {p : Prop} [Decidable p] (h : p → Returns m) (h' : ¬ p → Returns m') :
    Returns (if p then m else m') := by
  split_ifs with hp
  · exact h hp
  · exact h' hp

theorem read {T : Type} {n : ℕ} [Scalar T n] {data : Bytes} {offset : ℤ} (hlo : 0 ≤ offset)
    (hhi : offset + n ≤ data.length) : Returns (readBigEndian native T data offset) :=
  ⟨_, if_pos ⟨hlo, hhi⟩⟩

theorem whole {T : Type} {n : ℕ} [Scalar T n] {data : Bytes} (hlen : data.length = n)
    (f : T → β) : Returns (f <$> readBigEndian native T data 0) :=
  (read native le_rfl (by omega)).map f

/-- The first loop reads the groups from the one it starts with, all of which the payload has. -/
theorem accumulate {data : Bytes} {ndigits : Int16}
    (hsize : 8 + ndigits.toInt * 2 ≤ data.length) {i : Int16} (hi : 0 ≤ i.toInt)
    (result : UInt64) : Returns (accumulateGroups native data ndigits i result) := by
  fun_induction accumulateGroups native data ndigits i result with
  | case1 i result hlt ih =>
    have hless : i.toInt < ndigits.toInt := Int16.lt_iff_toInt_lt.mp hlt
    have hnext : 0 ≤ (i + 1).toInt := by
      rw [toInt_succ_of_lt hlt]
      omega
    exact (read native (by omega) (by push_cast; omega)).bind fun digit _ => ih digit hnext
  | case2 i result hstop => exact ok result

theorem restore {trailing t : ℤ} (hlo : -2 ^ 31 ≤ t) (hhi : trailing < 2 ^ 31)
    (result : UInt64) : Returns (restoreGroups trailing t result) :=
  ⟨_, restoreGroups_eq _ trailing t rfl hlo hhi result⟩

end Returns

/-- The checks of `as<uint64_t>` never fail: sizes, counts and indices of 16 bits have room in 32
bits. -/
theorem asUInt64Checked_eq (c : Colum) : c.asUInt64Checked native = c.asUInt64 native := by
  have hwidth (x : Int16) : checkInt (x.toInt * 2) = .ok (x.toInt * 2) := by
    have hlo := x.le_toInt
    have hhi := x.toInt_lt
    exact checkInt_ok (by omega) (by omega)
  have hsize (x : Int16) : checkInt (8 + x.toInt * 2) = .ok (8 + x.toInt * 2) := by
    have hlo := x.le_toInt
    have hhi := x.toInt_lt
    exact checkInt_ok (by omega) (by omega)
  have hlast (x : Int16) : checkInt (x.toInt - 1) = .ok (x.toInt - 1) := by
    have hlo := x.le_toInt
    have hhi := x.toInt_lt
    exact checkInt_ok (by omega) (by omega)
  simp only [Colum.asUInt64Checked, Colum.asUInt64, hwidth, hsize, hlast, ok_bind,
    accumulateGroupsChecked_eq]

/-- `as<uint64_t>` returns for every header and every length of the payload. -/
theorem asUInt64_returns (c : Colum) : Returns (c.asUInt64 native) := by
  refine .ite (fun _ => .ok _) fun _ => .ite (fun _ => .ok _) fun hheader => ?_
  have hlen : 8 ≤ c.data.length := by
    by_contra hshort
    exact hheader (.inr (by omega))
  refine .bind (.read native le_rfl (by push_cast; omega)) fun ndigits _ => ?_
  refine .bind (.read native (by norm_num) (by push_cast; omega)) fun weight _ => ?_
  refine .bind (.read native (by norm_num) (by push_cast; omega)) fun sign _ => ?_
  refine .ite (fun _ => .ok _) fun _ => .ite (fun _ => .ok _) fun _ =>
    .ite (fun _ => .ok _) fun hfits => ?_
  have hndigits := ndigits.le_toInt
  have hndigits' := ndigits.toInt_lt
  have hweight := weight.le_toInt
  have hweight' := weight.toInt_lt
  -- the conversion to `size_t` only makes the size larger
  have hsize : 8 + ndigits.toInt * 2 ≤ c.data.length := by omega
  refine .bind (.accumulate native hsize le_rfl 0) fun result _ => ?_
  refine .bind ⟨_, checkInt_ok (by omega) (by omega)⟩ fun trailing htrailing => ?_
  have hbound : trailing < 2 ^ 31 := by
    rw [checkInt_ok (by omega) (by omega)] at htrailing
    cases htrailing
    omega
  exact (Returns.restore (by norm_num) hbound result).map some

theorem asFloat_returns (c : Colum) : Returns (c.asFloat native) :=
  .ite (fun _ => .ok _) fun _ => .ite (fun h => .whole native h.2 some) fun _ => .ok _

theorem asBool_returns (c : Colum) : Returns c.asBool := by
  refine .ite (fun _ => .ok _) fun hdata => .ite (fun _ => ?_) fun _ => .ok _
  cases hbytes : c.data with
  | nil => exact absurd (.inr hbytes) hdata
  | cons b bytes => exact .ok _

/-- The accessors return, whatever the column holds; only the one for time points is left out. -/
theorem as_returns (c : Colum) {T : ResultType} (hT : T ≠ .timestamp) :
    Returns (c.as native T) := by
  cases T with
  | bool => exact asBool_returns c
  | int16 =>
    exact .ite (fun _ => .ok _) fun _ => .ite (fun h => .whole native h.2 _) fun _ => .ok _
  | int32 =>
    exact .ite (fun _ => .ok _) fun _ => .ite (fun h => .whole native h.2 _) fun _ =>
      .ite (fun h => .whole native h.2 _) fun _ => .ok _
  | int64 =>
    exact .ite (fun _ => .ok _) fun _ => .ite (fun h => .whole native h.2 _) fun _ =>
      .ite (fun h => .whole native h.2 _) fun _ => .ite (fun h => .whole native h.2 _) fun _ =>
        .ok _
  | uint16 =>
    exact .ite (fun _ => .ok _) fun _ => .ite (fun h => .whole native h.2 _) fun _ => .ok _
  | uint32 =>
    exact .ite (fun _ => .ok _) fun _ => .ite (fun h => .whole native h.2 _) fun _ => .ok _
  | uint64 => exact asUInt64_returns native c
  | float => exact asFloat_returns native c
  | double =>
    exact .ite (fun _ => .ok _) fun _ => .ite (fun h => .whole native h.2 _) fun _ =>
      .ite (fun _ => (asFloat_returns native c).bind fun _ _ => .ok _) fun _ => .ok _
  | string => exact .ite (fun _ => .ok _) fun _ => .ite (fun _ => .ok _) fun _ => .ok _
  | timestamp => exact absurd rfl hT
  | bytes => exact .ite (fun _ => .ok _) fun _ => .ite (fun _ => .ok _) fun _ => .ok _
  | other => exact .ok _

/-- The accessor for time points has read the payload and meets an instant that the clock cannot
represent. -/
def InstantOverflows (c : Colum) : Prop :=
  c.asTimestamp native = .error .signedOverflow ∧
    ∃ us : Int64, readBigEndian native Int64 c.data 0 = .ok us ∧
      ¬ Representable ((us.toInt + Colum.pgEpochUs) * 1000)

theorem checkInt64_error {x : ℤ} (h : ¬ Representable x) :
    checkInt64 x = .error .signedOverflow := if_neg h

theorem asTimestamp_returns_or (c : Colum) :
    Returns (c.asTimestamp native) ∨ InstantOverflows native c := by
  by_cases hread : c.isNull = false ∧ (c.oid = PgOid.timestamp ∨ c.oid = PgOid.timestamptz) ∧
      c.data.length = 8
  · rcases hread with ⟨hnull, hoid, hlen⟩
    have hbytes : Returns (readBigEndian native Int64 c.data 0) :=
      .read native le_rfl (by push_cast; omega)
    rcases hbytes with ⟨us, hus⟩
    have heq := asTimestamp_of_read native hnull hoid hlen hus
    by_cases hns : Representable ((us.toInt + Colum.pgEpochUs) * 1000)
    · have hsum : Representable (us.toInt + Colum.pgEpochUs) := by
        rw [Representable] at hns ⊢
        omega
      rw [heq, checkInt64_ok hsum, ok_bind, checkInt64_ok hns]
      exact .inl (.ok _)
    · refine .inr ⟨?_, us, hus, hns⟩
      by_cases hsum : Representable (us.toInt + Colum.pgEpochUs)
      · rw [heq, checkInt64_ok hsum, ok_bind, checkInt64_error hns]
        rfl
      · rw [heq, checkInt64_error hsum]
        rfl
  · refine .inl (.ite (fun _ => .ok _) fun hnull => .ite (fun h => ?_) fun _ => .ok _)
    exact absurd ⟨by simpa using hnull, h.1, h.2⟩ hread

/-- For every type, identifier, flag and payload: the checks on counters and indices change
nothing, and the evaluation returns, or has read what it reads of a time point and cannot represent
the instant. -/
theorem asChecked_inside (c : Colum) (T : ResultType) :
    c.asChecked native T = c.as native T ∧
      (Returns (c.asChecked native T) ∨ T = .timestamp ∧ InstantOverflows native c) := by
  have heq : c.asChecked native T = c.as native T := by
    cases T with
    | uint64 => exact asUInt64Checked_eq native c
    | _ => rfl
  refine ⟨heq, ?_⟩
  rw [heq]
  by_cases hT : T = .timestamp
  · subst hT
    exact (asTimestamp_returns_or native c).imp_right fun h => ⟨rfl, h⟩
  · exact .inl (as_returns native c hT)

end PostgresLib.Wire
