import PostgresLib.Wire.Columns

/-! # When integer columns are read exactly

The server sends an integer in two's complement, most significant byte first. The
accessors of the signed types read it or refuse; `as<uint16_t>` and `as<uint32_t>`
cast what they read, so that they return another number when it does not fit.
-/

namespace PostgresLib.Wire

open Foundations

inductive IntKind where
  | int2 | int4 | int8
  deriving DecidableEq

namespace IntKind

def oid : IntKind → Oid
  | int2 => PgOid.int2
  | int4 => PgOid.int4
  | int8 => PgOid.int8

def width : IntKind → ℕ
  | int2 => 2
  | int4 => 4
  | int8 => 8

end IntKind

structure IntValue where
  kind : IntKind
  data : Bytes
  length_data : data.length = kind.width

namespace IntValue

variable (v : IntValue)

def colum : Colum where
  isNull := false
  oid := v.kind.oid
  data := v.data

def stored : ℤ := signedBE v.data

end IntValue

/-- The integer types a column is asked for. -/
inductive IntResult where
  | int16 | int32 | int64 | uint16 | uint32
  deriving DecidableEq

namespace IntResult

def least : IntResult → ℤ
  | int16 => -2 ^ 15
  | int32 => -2 ^ 31
  | int64 => -2 ^ 63
  | uint16 | uint32 => 0

def bound : IntResult → ℤ
  | int16 => 2 ^ 15
  | int32 => 2 ^ 31
  | int64 => 2 ^ 63
  | uint16 => 2 ^ 16
  | uint32 => 2 ^ 32

/-- The number is one of the type. -/
def Holds (T : IntResult) (x : ℤ) : Prop := T.least ≤ x ∧ x < T.bound

def reads : IntResult → IntKind → Bool
  | int16, .int2 | int32, .int2 | int32, .int4 => true
  | int64, _ => true
  | uint16, .int4 | uint32, .int8 => true
  | _, _ => false

/-- The accessor reads columns of this kind into a type with fewer bits. -/
def narrows : IntResult → IntKind → Bool
  | uint16, .int4 | uint32, .int8 => true
  | _, _ => false

/-- What the accessor makes of the integer it has read. -/
def cast : IntResult → ℤ → ℤ
  | uint16, x => x % 2 ^ 16
  | uint32, x => x % 2 ^ 32
  | _, x => x

end IntResult

variable (native : Endian)

def Colum.asInteger (c : Colum) : IntResult → Except Fault (Option ℤ)
  | .int16 => Option.map Int16.toInt <$> c.asInt16 native
  | .int32 => Option.map Int32.toInt <$> c.asInt32 native
  | .int64 => Option.map Int64.toInt <$> c.asInt64 native
  | .uint16 => Option.map (fun x => (x.toNat : ℤ)) <$> c.asUInt16 native
  | .uint32 => Option.map (fun x => (x.toNat : ℤ)) <$> c.asUInt32 native

/-- The unsigned number of the same word, below a modulus that divides the number of words. -/
theorem toUInt32_emod (x : Int32) : (x.toUInt32.toNat : ℤ) % 65536 = x.toInt % 65536 := by
  have hint : x.toInt = (x.toUInt32.toNat : ℤ).bmod (2 ^ 32) := BitVec.toInt_eq_toNat_bmod _
  have hemod : x.toInt % (2 ^ 32 : ℕ) = x.toUInt32.toNat % (2 ^ 32 : ℕ) := by
    rw [hint, Int.bmod_emod]
  omega

theorem toUInt64_emod (x : Int64) :
    (x.toUInt64.toNat : ℤ) % 4294967296 = x.toInt % 4294967296 := by
  have hint : x.toInt = (x.toUInt64.toNat : ℤ).bmod (2 ^ 64) := BitVec.toInt_eq_toNat_bmod _
  have hemod : x.toInt % (2 ^ 64 : ℕ) = x.toUInt64.toNat % (2 ^ 64 : ℕ) := by
    rw [hint, Int.bmod_emod]
  omega

section Read

variable {data : Bytes}

theorem readInt16 (h : data.length = 2) :
    ∃ x, readBigEndian native Int16 data 0 = .ok x ∧
      x.toInt = signedBE (native.arrange data) :=
  ⟨_, readBigEndian_whole native h, ofBytesBE_toInt ((native.arrange_length data).trans h)⟩

theorem readInt32 (h : data.length = 4) :
    ∃ x, readBigEndian native Int32 data 0 = .ok x ∧
      x.toInt = signedBE (native.arrange data) :=
  ⟨_, readBigEndian_whole native h, ofBytesBE_toInt ((native.arrange_length data).trans h)⟩

theorem readInt64 (h : data.length = 8) :
    ∃ x, readBigEndian native Int64 data 0 = .ok x ∧
      x.toInt = signedBE (native.arrange data) :=
  ⟨_, readBigEndian_whole native h, ofBytesBE_toInt ((native.arrange_length data).trans h)⟩

end Read

section Accessors

attribute [local simp] Colum.asInteger Colum.asInt16 Colum.asInt32 Colum.asInt64 Colum.asUInt16
  Colum.asUInt32 IntValue.colum IntKind.oid IntKind.width PgOid.int2 PgOid.int4 PgOid.int8
  IntResult.reads IntResult.cast

/-- What every accessor returns: the cast of the integer in the order the host reads the bytes,
or nothing. -/
theorem asInteger_colum (T : IntResult) (v : IntValue) :
    v.colum.asInteger native T = .ok (if T.reads v.kind then
      some (T.cast (signedBE (native.arrange v.data))) else none) := by
  rcases v with ⟨kind, data, hlen⟩
  cases kind with
  | int2 =>
    rcases readInt16 native hlen with ⟨x, hread, hx⟩
    rw [← hx]
    cases T <;> simp [hread, hlen]
  | int4 =>
    rcases readInt32 native hlen with ⟨x, hread, hx⟩
    rw [← hx]
    cases T <;> simp [hread, hlen, toUInt32_emod]
  | int8 =>
    rcases readInt64 native hlen with ⟨x, hread, hx⟩
    rw [← hx]
    cases T <;> simp [hread, hlen, toUInt64_emod]

end Accessors

/-- The accessor returns the integer in the payload or nothing, and nothing when its type does not
hold the integer. -/
def ReadsStored (T : IntResult) (v : IntValue) : Prop :=
  ∃ r, v.colum.asInteger native T = .ok r ∧ (∀ x, r = some x → x = v.stored) ∧
    (¬ T.Holds v.stored → r = none)

/-- A type holds every integer of the columns it reads without narrowing. -/
theorem holds_stored {T : IntResult} {v : IntValue} (hreads : T.reads v.kind)
    (hwide : T.narrows v.kind = false) : T.Holds v.stored := by
  rcases v with ⟨kind, data, hlen⟩
  have hbounds := signedBE_bounds data
  rw [hlen] at hbounds
  cases kind <;> cases T <;>
    simp [IntResult.reads, IntResult.narrows, IntKind.width, IntResult.Holds, IntResult.least,
      IntResult.bound, IntValue.stored] at * <;> omega

theorem cast_of_wide {T : IntResult} {k : IntKind} (hreads : T.reads k)
    (hwide : T.narrows k = false) (x : ℤ) : T.cast x = x := by
  cases T with
  | int16 | int32 | int64 => rfl
  | uint16 | uint32 => cases k <;> simp [IntResult.reads, IntResult.narrows] at hreads hwide

/-- A narrowing accessor drops the upper half of the word it reads. -/
theorem cast_of_narrows {T : IntResult} {v : IntValue} (hnarrow : T.narrows v.kind) :
    ∃ m, v.data.length = m + m ∧ T.least = 0 ∧ T.bound = (256 ^ m : ℕ) ∧
      ∀ x, T.cast x = x % (256 ^ m : ℕ) := by
  rcases v with ⟨kind, data, hlen⟩
  cases T with
  | uint16 =>
    cases kind with
    | int4 => exact ⟨2, hlen, rfl, rfl, fun x => rfl⟩
    | int2 | int8 => cases hnarrow
  | uint32 =>
    cases kind with
    | int8 => exact ⟨4, hlen, rfl, rfl, fun x => rfl⟩
    | int2 | int4 => cases hnarrow
  | int16 | int32 | int64 => cases kind <;> cases hnarrow

theorem reads_of_narrows {T : IntResult} {k : IntKind} (h : T.narrows k) : T.reads k := by
  cases T <;> cases k <;> first | rfl | cases h

/-- The cast of what the host reads is the stored integer. -/
theorem cast_arrange_iff {T : IntResult} {v : IntValue} (hreads : T.reads v.kind) :
    T.cast (signedBE (native.arrange v.data)) = v.stored ↔
      (native = .little ∨ v.data.reverse = v.data) ∧
        (T.narrows v.kind → 0 ≤ v.stored ∧ v.stored < T.bound) := by
  rw [← Endian.arrange_eq_iff]
  cases hnarrow : T.narrows v.kind with
  | false =>
    rw [cast_of_wide hreads hnarrow]
    constructor
    · intro h
      exact ⟨signedBE_injective (native.arrange_length v.data) h, nofun⟩
    · rintro ⟨h, -⟩
      rw [h, IntValue.stored]
  | true =>
    rcases cast_of_narrows hnarrow with ⟨m, hlen, -, hbound, hcast⟩
    have hpos : (0 : ℤ) < (256 ^ m : ℕ) := by exact_mod_cast Nat.pow_pos (by norm_num)
    rw [hcast, hbound]
    constructor
    · intro h
      constructor
      · cases native with
        | little => rfl
        | big => exact reverse_eq_of_emod hlen h
      · intro _
        rw [← h]
        exact ⟨Int.emod_nonneg _ hpos.ne', Int.emod_lt_of_pos _ hpos⟩
    · rintro ⟨h, hrange⟩
      rw [h]
      exact Int.emod_eq_of_lt (hrange rfl).1 (hrange rfl).2

/-- The accessors that read a column are exact on the hosts that swap its bytes, but for
`as<uint16_t>` of an Int4 and `as<uint32_t>` of an Int8 that their type does not hold. -/
theorem readsStored_iff (T : IntResult) (v : IntValue) :
    ReadsStored native T v ↔
      (T.reads v.kind → native = .little ∨ v.data.reverse = v.data) ∧
        (T.narrows v.kind → 0 ≤ v.stored ∧ v.stored < T.bound) := by
  rw [ReadsStored, asInteger_colum]
  cases hreads : T.reads v.kind with
  | false =>
    have hwide : ¬ T.narrows v.kind := fun h => by simp [reads_of_narrows h] at hreads
    simp [hwide]
  | true =>
    have hexact := cast_arrange_iff native hreads
    constructor
    · rintro ⟨r, hr, hsome, -⟩
      cases hr
      have h := hexact.mp (hsome _ rfl)
      exact ⟨fun _ => h.1, h.2⟩
    · rintro ⟨hhost, hrange⟩
      refine ⟨_, rfl, fun x hx => ?_, fun hout => ?_⟩
      · cases hx
        exact hexact.mpr ⟨hhost rfl, hrange⟩
      · cases hnarrow : T.narrows v.kind with
        | false => exact absurd (holds_stored hreads hnarrow) hout
        | true =>
          rcases cast_of_narrows hnarrow with ⟨m, -, hleast, -, -⟩
          have h := hrange hnarrow
          rw [← hleast] at h
          exact absurd h hout

def int4TooLarge : IntValue := ⟨.int4, [0, 1, 0, 0], rfl⟩

def int8Negative : IntValue := ⟨.int8, List.replicate 8 255, rfl⟩

/-- As a `uint16_t` the integer 65536 is read as 0, and as a `uint32_t` the integer -1 is read as
4294967295. -/
theorem readsStored_fails :
    ¬ (∀ T v, ReadsStored .little T v) ∧
      int4TooLarge.stored = 65536 ∧ int4TooLarge.colum.asUInt16 .little = .ok (some 0) ∧
      int8Negative.stored = -1 ∧
        int8Negative.colum.asUInt32 .little = .ok (some 4294967295) := by
  refine ⟨fun h => ?_, by decide, by decide, by decide, by decide⟩
  rcases h .uint16 int4TooLarge with ⟨r, hr, hsome, -⟩
  cases hr
  exact absurd (hsome 0 rfl) (by decide)

end PostgresLib.Wire
