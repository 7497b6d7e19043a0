import PostgresLib.Wire.Values
import Mathlib.Tactic.NormNum

/-! # The accessors of a result column

Every accessor checks the type identifier and the size of the payload before it
reads. A read outside of the payload and an overflowing signed operation are
faults of the evaluation, so that an accessor that returns has met none.
-/

namespace PostgresLib.Wire

open Foundations

abbrev Oid := UInt32

namespace PgOid

def bool : Oid := 16
def int2 : Oid := 21
def int4 : Oid := 23
def int8 : Oid := 20
def float4 : Oid := 700
def float8 : Oid := 701
def text : Oid := 25
def varchar : Oid := 1043
def bpchar : Oid := 1042
def bytea : Oid := 17
def numeric : Oid := 1700
def timestamp : Oid := 1114
def timestamptz : Oid := 1184

end PgOid

structure Colum where
  isNull : Bool
  oid : Oid
  data : Bytes
  deriving DecidableEq

/-- The constructor of `colum`; `val` is `none` when the pointer is null, and otherwise the bytes
that may be read through it. -/
def Colum.ofValue (oid : Oid) (val : Option Bytes) (valLen : Int32) (isNull : Bool) :
    Except Fault Colum :=
  match val with
  | some bytes =>
    if isNull = false ∧ 0 < valLen.toInt then
      if valLen.toInt ≤ bytes.length then
        .ok { isNull := isNull, oid := oid, data := bytes.take valLen.toInt.toNat }
      else .error .outOfBounds
    else .ok { isNull := isNull, oid := oid, data := [] }
  | none => .ok { isNull := isNull, oid := oid, data := [] }

variable (native : Endian)

/-- `ReadBigEndian`: the object whose bytes are those at an offset into the payload, reversed. -/
def readBigEndian (T : Type) {n : ℕ} [Scalar T n] (data : Bytes) (offset : ℤ) : Except Fault T :=
  if 0 ≤ offset ∧ offset + n ≤ data.length then
    .ok (Scalar.ofWord (ofObjectBytes native n ((data.drop offset.toNat).take n).reverse))
  else .error .outOfBounds

section Fixed

variable {T : Type} {n : ℕ} [Scalar T n]

/-- Reading takes back what lies in the payload most significant byte first. -/
theorem readBigEndian_append (before after : Bytes) (x : T) (offset : ℤ)
    (hoffset : offset = before.length) :
    readBigEndian .little T (before ++ bytesBE (Scalar.toWord x) ++ after) offset = .ok x := by
  subst hoffset
  have hbound : (0 : ℤ) ≤ before.length ∧ (before.length : ℤ) + n ≤
      (before ++ bytesBE (Scalar.toWord x) ++ after).length := by
    simp only [List.length_append, bytesBE_length]
    omega
  have hslice : ((before ++ bytesBE (Scalar.toWord x) ++ after).drop before.length).take n =
      bytesBE (Scalar.toWord x) := by
    rw [List.append_assoc, List.drop_left]
    exact List.take_left' (bytesBE_length _)
  rw [readBigEndian, if_pos hbound, Int.toNat_natCast, hslice, ofObjectBytes_reverse,
    ofBytesBE_bytesBE, Scalar.ofWord_toWord]

theorem readBigEndian_bytesBE (x : T) :
    readBigEndian .little T (bytesBE (Scalar.toWord x)) 0 = .ok x := by
  have h := readBigEndian_append [] [] x 0 rfl
  rwa [List.nil_append, List.append_nil] at h

/-- A payload of the object's size is read as a whole. -/
theorem readBigEndian_whole {data : Bytes} (hlen : data.length = n) :
    readBigEndian native T data 0 = .ok (Scalar.ofWord (ofBytesBE n (native.arrange data))) := by
  have hbound : (0 : ℤ) ≤ 0 ∧ (0 : ℤ) + n ≤ data.length := by omega
  have hslice : (data.drop (0 : ℤ).toNat).take n = data := List.take_of_length_le hlen.le
  rw [readBigEndian, if_pos hbound, hslice, ofObjectBytes_arrange]

end Fixed

/-- The conversion of a `float` to `double`, on bit patterns. -/
def widenFloat (bits : UInt32) : UInt64 :=
  let sign := (bits >>> 31).toUInt64 <<< 63
  let exponent := ((bits >>> 23) &&& 0xff).toUInt64
  let fraction := (bits &&& 0x7fffff).toUInt64
  if exponent = 0xff then
    let quiet : UInt64 := if fraction = 0 then 0 else 1
    sign ||| ((0x7ff : UInt64) <<< 52) ||| (fraction <<< 29) ||| (quiet <<< 51)
  else if exponent = 0 then
    if fraction = 0 then sign
    else
      -- a subnormal `float` is a normal `double`: the leading bit becomes implicit
      let lead := fraction.log2
      sign ||| ((lead + 874) <<< 52) ||| ((fraction <<< (52 - lead)) &&& 0xfffffffffffff)
  else sign ||| ((exponent + 896) <<< 52) ||| (fraction <<< 29)

namespace Colum

variable (c : Colum)

def asBool : Except Fault (Option Bool) :=
  if c.isNull ∨ c.data = [] then .ok none
  else if c.oid = PgOid.bool then
    match c.data with
    | b :: _ => .ok (some (b ≠ 0))
    | [] => .error .outOfBounds
  else .ok none

def asInt16 : Except Fault (Option Int16) :=
  if c.isNull then .ok none
  else if c.oid = PgOid.int2 ∧ c.data.length = 2 then
    some <$> readBigEndian native Int16 c.data 0
  else .ok none

def asInt32 : Except Fault (Option Int32) :=
  if c.isNull then .ok none
  else if c.oid = PgOid.int4 ∧ c.data.length = 4 then
    some <$> readBigEndian native Int32 c.data 0
  else if c.oid = PgOid.int2 ∧ c.data.length = 2 then
    (fun x => some x.toInt32) <$> readBigEndian native Int16 c.data 0
  else .ok none

def asInt64 : Except Fault (Option Int64) :=
  if c.isNull then .ok none
  else if c.oid = PgOid.int8 ∧ c.data.length = 8 then
    some <$> readBigEndian native Int64 c.data 0
  else if c.oid = PgOid.int4 ∧ c.data.length = 4 then
    (fun x => some x.toInt64) <$> readBigEndian native Int32 c.data 0
  else if c.oid = PgOid.int2 ∧ c.data.length = 2 then
    (fun x => some x.toInt64) <$> readBigEndian native Int16 c.data 0
  else .ok none

def asFloat : Except Fault (Option UInt32) :=
  if c.isNull then .ok none
  else if c.oid = PgOid.float4 ∧ c.data.length = 4 then
    some <$> readBigEndian native UInt32 c.data 0
  else .ok none

def asDouble : Except Fault (Option UInt64) :=
  if c.isNull then .ok none
  else if c.oid = PgOid.float8 ∧ c.data.length = 8 then
    some <$> readBigEndian native UInt64 c.data 0
  else if c.oid = PgOid.float4 ∧ c.data.length = 4 then do
    let f ← c.asFloat native
    return f.map widenFloat
  else .ok none

def asString : Except Fault (Option Bytes) :=
  if c.isNull then .ok none
  else if c.oid = PgOid.text ∨ c.oid = PgOid.varchar ∨ c.oid = PgOid.bpchar then
    .ok (some c.data)
  else .ok none

/-- Microseconds from the Unix epoch to 2000-01-01. -/
def pgEpochUs : ℤ := 946684800 * 1000000

/-- `as<timestamp>`: the sum is converted from microseconds to the nanoseconds of the clock. -/
def asTimestamp : Except Fault (Option Timestamp) :=
  if c.isNull then .ok none
  else if (c.oid = PgOid.timestamp ∨ c.oid = PgOid.timestamptz) ∧ c.data.length = 8 then do
    let us ← readBigEndian native Int64 c.data 0
    let sinceEpoch ← checkInt64 (us.toInt + pgEpochUs)
    let ns ← checkInt64 (sinceEpoch * 1000)
    return some (Int64.ofInt ns)
  else .ok none

def asUInt16 : Except Fault (Option UInt16) :=
  if c.isNull then .ok none
  else if c.oid = PgOid.int4 ∧ c.data.length = 4 then
    (fun x => some x.toUInt32.toUInt16) <$> readBigEndian native Int32 c.data 0
  else .ok none

def asUInt32 : Except Fault (Option UInt32) :=
  if c.isNull then .ok none
  else if c.oid = PgOid.int8 ∧ c.data.length = 8 then
    (fun x => some x.toUInt64.toUInt32) <$> readBigEndian native Int64 c.data 0
  else .ok none

end Colum

/-- Counting up below a bound does not wrap. -/
theorem toInt_succ_of_lt {i bound : Int16} (h : i < bound) : (i + 1).toInt = i.toInt + 1 := by
  have hlt : i.toInt < bound.toInt := Int16.lt_iff_toInt_lt.mp h
  have hbound := bound.toInt_lt
  have hlo := i.le_toInt
  have hone : (1 : Int16).toInt = 1 := rfl
  rw [Int16.toInt_add, hone]
  apply Int.bmod_eq_of_le <;> norm_num at * <;> omega

/-- The first loop of `as<uint64_t>`, from group `i` on. -/
def accumulateGroups (data : Bytes) (ndigits : Int16) (i : Int16) (result : UInt64) :
    Except Fault UInt64 :=
  if i < ndigits then do
    let digit ← readBigEndian native UInt16 data (8 + i.toInt * 2)
    accumulateGroups data ndigits (i + 1) (result * 10000 + digit.toUInt64)
  else .ok result
termination_by (ndigits.toInt - i.toInt).toNat
decreasing_by
  rename_i h
  have hlt : i.toInt < ndigits.toInt := Int16.lt_iff_toInt_lt.mp h
  rw [toInt_succ_of_lt h]
  omega

/-- The second loop of `as<uint64_t>`, which restores elided groups. -/
def restoreGroups (trailing t : ℤ) (result : UInt64) : Except Fault UInt64 :=
  if t < trailing then do
    let _ ← checkInt (t + 1)
    restoreGroups trailing (t + 1) (result * 10000)
  else .ok result
termination_by (trailing - t).toNat

def Colum.asUInt64 (c : Colum) : Except Fault (Option UInt64) :=
  if c.isNull then .ok none
  else if c.oid ≠ PgOid.numeric ∨ c.data.length < 8 then .ok none
  else do
    let ndigits ← readBigEndian native Int16 c.data 0
    let weight ← readBigEndian native Int16 c.data 2
    let sign ← readBigEndian native UInt16 c.data 4
    if sign ≠ 0 then return none
    else if ndigits = 0 then return some 0
    -- a negative size becomes a huge one when it is converted to `size_t`
    else if (c.data.length : ℤ) < (8 + ndigits.toInt * 2) % 2 ^ 64 then return none
    else do
      let result ← accumulateGroups native c.data ndigits 0 0
      let trailing ← checkInt (weight.toInt - (ndigits.toInt - 1))
      some <$> restoreGroups trailing 0 result

/-- `as<std::vector<std::byte>>`. -/
def Colum.asBytes (c : Colum) : Except Fault (Option Bytes) :=
  if c.isNull then .ok none
  else if c.oid = PgOid.bytea then .ok (some c.data)
  else .ok none

end PostgresLib.Wire
