import PostgresLib.Foundations.ByteOrder
import Mathlib.Data.Int.Notation

/-! # Values that travel as query parameters

The argument types a query accepts, the variant they are normalised to and the
buffers that are handed to `PQsendQueryParams`. A `std::string` is the list of
its bytes, a floating-point number is its bit pattern, and a time point counts
nanoseconds since the Unix epoch.
-/

namespace PostgresLib.Wire

open Foundations

/-- Undefined behaviour the source can run into. -/
inductive Fault where
  | noReturn | outOfBounds | nullPointer | signedOverflow
  deriving DecidableEq, Repr

@[simp] theorem ok_bind {α β : Type} (a : α) (f : α → Except Fault β) :
    (Except.ok a >>= f) = f a := rfl

@[simp] theorem map_ok {α β : Type} (a : α) (f : α → β) :
    (f <$> (Except.ok a : Except Fault α)) = Except.ok (f a) := rfl

@[simp] theorem pure_eq_ok {α : Type} (a : α) : (pure a : Except Fault α) = Except.ok a := rfl

/-- A result of signed 32-bit arithmetic. -/
def checkInt (v : ℤ) : Except Fault ℤ :=
  if -2 ^ 31 ≤ v ∧ v < 2 ^ 31 then .ok v else .error .signedOverflow

/-- A result of signed 64-bit arithmetic. -/
def checkInt64 (v : ℤ) : Except Fault ℤ :=
  if -2 ^ 63 ≤ v ∧ v < 2 ^ 63 then .ok v else .error .signedOverflow

theorem checkInt_ok {v : ℤ} (hlo : -2 ^ 31 ≤ v) (hhi : v < 2 ^ 31) : checkInt v = .ok v :=
  if_pos ⟨hlo, hhi⟩

/-- A type whose objects are words of `n` bytes. -/
class Scalar (T : Type) (n : outParam ℕ) where
  toWord : T → BitVec (8 * n)
  ofWord : BitVec (8 * n) → T
  ofWord_toWord : ∀ x, ofWord (toWord x) = x
  toWord_ofWord : ∀ w, toWord (ofWord w) = w

attribute [simp] Scalar.ofWord_toWord Scalar.toWord_ofWord

instance : Scalar Int16 2 := ⟨Int16.toBitVec, Int16.ofBitVec, fun _ => rfl, fun _ => rfl⟩
instance : Scalar Int32 4 := ⟨Int32.toBitVec, Int32.ofBitVec, fun _ => rfl, fun _ => rfl⟩
instance : Scalar Int64 8 := ⟨Int64.toBitVec, Int64.ofBitVec, fun _ => rfl, fun _ => rfl⟩
instance : Scalar UInt16 2 := ⟨UInt16.toBitVec, UInt16.ofBitVec, fun _ => rfl, fun _ => rfl⟩
instance : Scalar UInt32 4 := ⟨UInt32.toBitVec, UInt32.ofBitVec, fun _ => rfl, fun _ => rfl⟩
instance : Scalar UInt64 8 := ⟨UInt64.toBitVec, UInt64.ofBitVec, fun _ => rfl, fun _ => rfl⟩

/-- Nanoseconds since the Unix epoch. -/
abbrev Timestamp := Int64

/-- `supported_type`, alternative by alternative. A character pointer is `none` when null, and
otherwise the bytes it points to, with a zero byte behind them. -/
inductive SupportedType where
  | null
  | bool (b : Bool)
  | int16 (x : Int16)
  | int32 (x : Int32)
  | int64 (x : Int64)
  | uint16 (x : UInt16)
  | uint32 (x : UInt32)
  | uint64 (x : UInt64)
  | double (bits : UInt64)
  | float (bits : UInt32)
  | constCharPtr (s : Option Bytes)
  | charPtr (s : Option Bytes)
  | string (s : Bytes)
  | bytes (data : Bytes)
  | timestamp (t : Timestamp)
  deriving DecidableEq

/-- A value of an integral type other than `bool`, by its signedness and size. -/
inductive Integral where
  | int8 (x : Int8)
  | int16 (x : Int16)
  | int32 (x : Int32)
  | int64 (x : Int64)
  | uint8 (x : UInt8)
  | uint16 (x : UInt16)
  | uint32 (x : UInt32)
  | uint64 (x : UInt64)
  deriving DecidableEq

/-- An argument of one of the types `IsSupported` admits. -/
inductive Param where
  | null
  | bool (b : Bool)
  | integral (x : Integral)
  | float (bits : UInt32)
  | double (bits : UInt64)
  | string (s : Bytes)
  | charPtr (s : Option Bytes)
  | bytes (data : Bytes)
  | span (data : Bytes)
  | timestamp (t : Timestamp)
  deriving DecidableEq

/-- `std::string{s}`: the bytes up to the first zero byte. -/
def cString (s : Bytes) : Bytes := s.takeWhile (· ≠ 0)

def normalizeIntegral : Integral → SupportedType
  | .int8 x => .int16 x.toInt16
  | .int16 x => .int16 x
  | .int32 x => .int32 x
  | .int64 x => .int64 x
  | .uint8 x => .int16 x.toUInt16.toInt16
  | .uint16 x => .int32 x.toUInt32.toInt32
  | .uint32 x => .int64 x.toUInt64.toInt64
  | .uint64 x => .uint64 x

def createSingleData : Param → Except Fault SupportedType
  | .integral x => .ok (normalizeIntegral x)
  | .string s => .ok (.string s)
  | .bytes data => .ok (.bytes data)
  | .charPtr (some s) => .ok (.string (cString s))
  | .charPtr none => .error .nullPointer
  | .span data => .ok (.bytes data)
  | .null => .ok .null
  | .bool b => .ok (.bool b)
  | .float bits => .ok (.float bits)
  | .double bits => .ok (.double bits)
  | .timestamp t => .ok (.timestamp t)

/-- `pg_param_detail`. A buffer is null or the data pointer of the string with that index in
`text`, which moving the vectors does not change. -/
structure PgParamDetail where
  query : Bytes
  text : List Bytes
  buffers : List (Option ℕ)
  lengths : List Int32
  formats : List Int32
  deriving DecidableEq

namespace PgParamDetail

/-- The constructor for `n` parameters. -/
def ofQuery (query : Bytes) (n : ℕ) : PgParamDetail where
  query := query
  text := List.replicate n []
  buffers := List.replicate n none
  lengths := List.replicate n 0
  formats := List.replicate n 0

def count (d : PgParamDetail) : Int32 := Int32.ofNat d.buffers.length

/-- The value that libpq sends for parameter `i`: nothing for a null buffer, and otherwise as many
bytes behind the buffer as its length says. -/
def sent (d : PgParamDetail) (i : ℕ) : Option Bytes :=
  match d.buffers[i]? with
  | some (some j) => some ((d.text.getD j []).take (d.lengths.getD i 0).toInt.toNat)
  | _ => none

end PgParamDetail

end PostgresLib.Wire
