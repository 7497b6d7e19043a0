import PostgresLib.Wire.Values

/-! # The binary encoder of query parameters

Integers and floating-point numbers go out in network byte order. The source
swaps bytes on a little-endian host only; on any other host `ToNetworkOrder`
ends without returning a value.
-/

namespace PostgresLib.Wire

open Foundations

variable (native : Endian)

section Fixed

variable {T : Type} {n : ℕ} [Scalar T n]

def toNetworkOrder (value : T) : Except Fault T :=
  match native with
  | .little => .ok (Scalar.ofWord (byteswap (Scalar.toWord value)))
  | .big => .error .noReturn

def encodeFixed (value : T) : Except Fault Bytes := do
  let net ← toNetworkOrder native value
  return objectBytes native (Scalar.toWord net)

theorem encodeFixed_little (value : T) :
    encodeFixed .little value = .ok (bytesBE (Scalar.toWord value)) := by
  change Except.ok _ = Except.ok _
  rw [Scalar.toWord_ofWord, objectBytes_byteswap]

theorem mapM_encodeFixed_little (values : List T) :
    values.mapM (encodeFixed .little) = .ok (values.map fun x => bytesBE (Scalar.toWord x)) := by
  induction values with
  | nil => rfl
  | cons x values ih =>
    rw [List.mapM_cons, encodeFixed_little, ih]
    rfl

end Fixed

/-- The base-10000 groups, least significant first, as the first loop of `EncodeNumericUint64`
pushes them. -/
def decimalGroups (v : UInt64) : List UInt16 :=
  if 0 < v then (v % 10000).toUInt16 :: decimalGroups (v / 10000) else []
termination_by v.toNat
decreasing_by
  rename_i h
  have hpos : 0 < v.toNat := UInt64.lt_iff_toNat_lt.mp h
  rw [UInt64.toNat_div]
  exact Nat.div_lt_self hpos (by decide)

/-- The second loop: pop zero groups off the back, but never the last group. -/
def stripZeroGroups (raw : List UInt16) : List UInt16 :=
  if 1 < raw.length ∧ raw.getLast? = some 0 then stripZeroGroups raw.dropLast else raw
termination_by raw.length
decreasing_by
  rw [List.length_dropLast]
  omega

/-- `EncodeNumericUint64`. For zero, the braces make a string of the two characters 8 and 0. -/
def encodeNumericUint64 (value : UInt64) : Except Fault Bytes :=
  if value = 0 then .ok [8, 0]
  else do
    let raw := (decimalGroups value).reverse
    let totalGroups := Int16.ofNat raw.length
    let weight := Int16.ofInt (totalGroups.toInt - 1)
    let digits := stripZeroGroups raw
    let digitCount := Int16.ofNat digits.length
    let header ← [digitCount, weight, 0, 0].mapM (encodeFixed native)
    let groups ← digits.mapM (encodeFixed native)
    return header.flatten ++ groups.flatten

/-- Microseconds from the Unix epoch to 2000-01-01. -/
def pgEpochOffsetUs : ℤ := 946684800 * 1000000

def toBinary : SupportedType → Except Fault Bytes
  | .null => .ok []
  | .bool b => .ok [if b then 1 else 0]
  | .int16 x => encodeFixed native x
  | .int32 x => encodeFixed native x
  | .int64 x => encodeFixed native x
  | .uint16 x => encodeFixed native x
  | .uint32 x => encodeFixed native x
  | .uint64 x => encodeNumericUint64 native x
  | .double bits => encodeFixed native bits
  | .float bits => encodeFixed native bits
  | .string s => .ok s
  | .constCharPtr (some s) | .charPtr (some s) => .ok (cString s)
  | .constCharPtr none | .charPtr none => .ok []
  | .bytes data => .ok data
  | .timestamp t => do
    let us ← checkInt64 (t.toInt.tdiv 1000 - pgEpochOffsetUs)
    encodeFixed native (Int64.ofInt us)

/-- One round of the packing loop. -/
def packParam (out : PgParamDetail) (i : ℕ) (param : SupportedType) :
    Except Fault PgParamDetail :=
  if param = .null then
    .ok { out with
      formats := out.formats.set i 1
      buffers := out.buffers.set i none
      lengths := out.lengths.set i 0 }
  else do
    let text ← toBinary native param
    return { out with
      formats := out.formats.set i 1
      text := out.text.set i text
      buffers := out.buffers.set i (some i)
      lengths := out.lengths.set i (Int32.ofNat text.length) }

/-- The packing loop, from index `i` on. -/
def packParams (i : ℕ) : List SupportedType → PgParamDetail → Except Fault PgParamDetail
  | [], out => .ok out
  | param :: params, out => do
    let out' ← packParam native out i param
    packParams (i + 1) params out'

def makePgParamBuffer (query : Bytes) (params : List SupportedType) :
    Except Fault PgParamDetail :=
  packParams native 0 params (PgParamDetail.ofQuery query params.length)

end PostgresLib.Wire
