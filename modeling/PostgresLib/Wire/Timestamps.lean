import PostgresLib.Wire.Integers
import PostgresLib.Wire.Encoding
import Mathlib.Algebra.Order.Group.Unbundled.Int

/-! # Time points in both directions

The server counts microseconds since 2000-01-01, the clock counts nanoseconds since
the Unix epoch, both in 64 bits. Every time point has its microseconds on the wire;
most of the server's instants lie outside of the clock.
-/

namespace PostgresLib.Wire

open Foundations

variable (native : Endian)

inductive TimestampKind where
  | timestamp | timestamptz
  deriving DecidableEq

def TimestampKind.oid : TimestampKind → Oid
  | timestamp => PgOid.timestamp
  | timestamptz => PgOid.timestamptz

structure TimestampValue where
  kind : TimestampKind
  data : Bytes
  length_data : data.length = 8

namespace TimestampValue

variable (v : TimestampValue)

def colum : Colum where
  isNull := false
  oid := v.kind.oid
  data := v.data

/-- The microseconds since 2000-01-01 in the payload. -/
def micros : ℤ := signedBE v.data

/-- The instant, in nanoseconds since the Unix epoch. -/
def instant : ℤ := (v.micros + 946684800 * 10 ^ 6) * 10 ^ 3

end TimestampValue

/-- A number that 64 signed bits can hold. -/
def Representable (x : ℤ) : Prop := -2 ^ 63 ≤ x ∧ x < 2 ^ 63

theorem checkInt64_eq_ok {x y : ℤ} : checkInt64 x = .ok y ↔ Representable x ∧ y = x := by
  rw [checkInt64, Representable]
  split_ifs with h
  · rw [Except.ok.injEq, and_iff_right h, eq_comm]
  · simp only [h, false_and]

theorem checkInt64_ok {x : ℤ} (h : Representable x) : checkInt64 x = .ok x := if_pos h

theorem representable_toInt (t : Timestamp) : Representable t.toInt := ⟨t.le_toInt, t.toInt_lt⟩

theorem Representable.toInt_ofInt {x : ℤ} (h : Representable x) : (Int64.ofInt x).toInt = x :=
  Int64.toInt_ofInt_of_le h.1 h.2

/-- What the accessor makes of the microseconds it has read. -/
theorem asTimestamp_of_read {c : Colum} {us : Int64} (hnull : c.isNull = false)
    (hoid : c.oid = PgOid.timestamp ∨ c.oid = PgOid.timestamptz) (hlen : c.data.length = 8)
    (hread : readBigEndian native Int64 c.data 0 = .ok us) :
    c.asTimestamp native = do
      let sinceEpoch ← checkInt64 (us.toInt + Colum.pgEpochUs)
      let ns ← checkInt64 (sinceEpoch * 1000)
      return some (Int64.ofInt ns) := by
  rw [Colum.asTimestamp, if_neg (by simp [hnull]), if_pos ⟨hoid, hlen⟩, hread, ok_bind]

/-- The accessor in terms of the microseconds the host reads. -/
theorem asTimestamp_colum (v : TimestampValue) :
    v.colum.asTimestamp native = do
      let sinceEpoch ← checkInt64 (signedBE (native.arrange v.data) + Colum.pgEpochUs)
      let ns ← checkInt64 (sinceEpoch * 1000)
      return some (Int64.ofInt ns) := by
  rcases readInt64 native v.length_data with ⟨us, hread, hus⟩
  have hoid : v.kind.oid = PgOid.timestamp ∨ v.kind.oid = PgOid.timestamptz := by
    cases v.kind with
    | timestamp => exact .inl rfl
    | timestamptz => exact .inr rfl
  rw [← hus]
  exact asTimestamp_of_read native rfl hoid v.length_data hread

theorem epoch_micros : Colum.pgEpochUs = 946684800000000 := rfl

/-- It returns an instant that the clock can represent, and faults otherwise. -/
theorem asTimestamp_eq_ok (v : TimestampValue) (r : Option Timestamp) :
    v.colum.asTimestamp native = .ok r ↔
      ∃ t : Timestamp, r = some t ∧
        t.toInt = (signedBE (native.arrange v.data) + Colum.pgEpochUs) * 1000 := by
  rw [asTimestamp_colum]
  generalize signedBE (native.arrange v.data) + Colum.pgEpochUs = us
  constructor
  · intro h
    cases hsum : checkInt64 us with
    | error => rw [hsum] at h; cases h
    | ok sinceEpoch =>
      rcases checkInt64_eq_ok.mp hsum with ⟨-, rfl⟩
      cases hns : checkInt64 (sinceEpoch * 1000) with
      | error => rw [hsum, ok_bind, hns] at h; cases h
      | ok ns =>
        rcases checkInt64_eq_ok.mp hns with ⟨hrange, rfl⟩
        rw [hsum, ok_bind, hns] at h
        cases h
        exact ⟨_, rfl, hrange.toInt_ofInt⟩
  · rintro ⟨t, rfl, ht⟩
    have hns := representable_toInt t
    rw [ht] at hns
    have hsum : Representable us := by
      rw [Representable] at hns ⊢
      omega
    rw [checkInt64_ok hsum, ok_bind, checkInt64_ok hns, ok_bind, ← ht, Int64.ofInt_toInt]
    rfl

/-- The accessor returns the instant when the clock can represent it, and nothing otherwise. -/
def DecodesExactly (v : TimestampValue) : Prop :=
  ∃ r, v.colum.asTimestamp native = .ok r ∧
    (∀ t, r = some t → t.toInt = v.instant) ∧ (r = none ↔ ¬ Representable v.instant)

/-- It does so for the microseconds in the range of the clock, on the hosts that swap the
bytes. -/
theorem decodesExactly_iff (v : TimestampValue) :
    DecodesExactly native v ↔
      (native = .little ∨ v.data.reverse = v.data) ∧
        -10170056836854775 ≤ v.micros ∧ v.micros ≤ 8276687236854775 := by
  have hinstant : v.instant = (v.micros + Colum.pgEpochUs) * 1000 := rfl
  have hepoch := epoch_micros
  rw [← Endian.arrange_eq_iff]
  constructor
  · rintro ⟨r, hr, hsome, -⟩
    rcases (asTimestamp_eq_ok native v r).mp hr with ⟨t, rfl, ht⟩
    have hexact := hsome t rfl
    have hrange := representable_toInt t
    rw [Representable] at hrange
    constructor
    · apply signedBE_injective (native.arrange_length v.data)
      change _ = v.micros
      omega
    · constructor <;> omega
  · rintro ⟨hhost, hlo, hhi⟩
    have hrange : Representable v.instant := by
      constructor <;> omega
    refine ⟨some (Int64.ofInt v.instant), ?_, fun t ht => ?_, by simp [hrange]⟩
    · rw [asTimestamp_eq_ok, hhost]
      exact ⟨_, rfl, hrange.toInt_ofInt⟩
    · cases ht
      exact hrange.toInt_ofInt

def infinity : TimestampValue := ⟨.timestamptz, 0x7f :: List.replicate 7 0xff, rfl⟩

def lastOfYear9999 : TimestampValue :=
  ⟨.timestamp, [0x03, 0x80, 0xe7, 0x0b, 0x91, 0x3b, 0x7f, 0xff], rfl⟩

/-- For `infinity` the sum overflows, at the end of the year 9999 the conversion to nanoseconds. -/
theorem decodesExactly_fails :
    ¬ (∀ v, DecodesExactly .little v) ∧
      infinity.micros = 2 ^ 63 - 1 ∧
      infinity.colum.asTimestamp .little = .error .signedOverflow ∧
      lastOfYear9999.micros = 252455615999999999 ∧
      lastOfYear9999.colum.asTimestamp .little = .error .signedOverflow := by
  refine ⟨fun h => ?_, by decide, by decide, by decide, by decide⟩
  rcases h infinity with ⟨r, hr, -, -⟩
  cases hr

theorem epoch_offset : pgEpochOffsetUs = 946684800000000 := rfl

/-- Truncating division stays between the number and zero. -/
theorem tdiv_micros (x : ℤ) :
    |x.tdiv 1000 * 1000 - x| < 1000 ∧
      (0 ≤ x → 0 ≤ x.tdiv 1000 * 1000 ∧ x.tdiv 1000 * 1000 ≤ x) ∧
      (x ≤ 0 → x ≤ x.tdiv 1000 * 1000 ∧ x.tdiv 1000 * 1000 ≤ 0) := by
  rw [abs_lt]
  rcases le_total 0 x with hx | hx
  · rw [Int.tdiv_eq_ediv_of_nonneg hx]
    omega
  · have hneg : x.tdiv 1000 = -(-x / 1000) := by
      rw [← Int.tdiv_eq_ediv_of_nonneg (by omega), Int.neg_tdiv, neg_neg]
    rw [hneg]
    omega

/-- What `ToBinary` writes: the microseconds of the time point, counted from 2000-01-01. -/
theorem toBinary_timestamp (t : Timestamp) :
    ∃ us : Int64, us.toInt = t.toInt.tdiv 1000 - pgEpochOffsetUs ∧
      toBinary .little (.timestamp t) = .ok (bytesBE (Scalar.toWord us)) := by
  have hrange : Representable (t.toInt.tdiv 1000 - pgEpochOffsetUs) := by
    have ht := representable_toInt t
    have htdiv := tdiv_micros t.toInt
    have hoffset := epoch_offset
    rw [abs_lt] at htdiv
    rw [Representable] at ht ⊢
    omega
  refine ⟨Int64.ofInt _, hrange.toInt_ofInt, ?_⟩
  rw [toBinary, checkInt64_ok hrange, ok_bind, encodeFixed_little]

/-- Encoding succeeds for every time point, and the accessor returns the time point without the
part of a microsecond that lies farther from the Unix epoch; later time points have no fewer
microseconds. -/
theorem timestamp_roundTrip :
    (∀ (t : Timestamp) (kind : TimestampKind), ∃ v : TimestampValue, v.kind = kind ∧
      toBinary .little (.timestamp t) = .ok v.data ∧
      ∃ r : Timestamp, v.colum.asTimestamp .little = .ok (some r) ∧
        r.toInt = t.toInt.tdiv 1000 * 1000 ∧
        (0 ≤ t.toInt → 0 ≤ r.toInt ∧ r.toInt ≤ t.toInt) ∧
        (t.toInt ≤ 0 → t.toInt ≤ r.toInt ∧ r.toInt ≤ 0) ∧
        (1000 ∣ t.toInt → r = t) ∧ |r.toInt - t.toInt| < 1000) ∧
    ∀ (t₁ t₂ : Timestamp) (v₁ v₂ : TimestampValue), t₁ ≤ t₂ →
      toBinary .little (.timestamp t₁) = .ok v₁.data →
      toBinary .little (.timestamp t₂) = .ok v₂.data → v₁.micros ≤ v₂.micros := by
  constructor
  · intro t kind
    rcases toBinary_timestamp t with ⟨us, hus, hencode⟩
    rcases tdiv_micros t.toInt with ⟨hclose, hpos, hneg⟩
    have hrange : Representable (t.toInt.tdiv 1000 * 1000) := by
      have ht := representable_toInt t
      rw [Representable] at ht ⊢
      omega
    have hr := hrange.toInt_ofInt
    refine ⟨⟨kind, _, bytesBE_length _⟩, rfl, hencode, Int64.ofInt _, ?_, hr, ?_⟩
    · rw [asTimestamp_eq_ok]
      refine ⟨_, rfl, ?_⟩
      have hword : signedBE (bytesBE (Scalar.toWord us)) = us.toInt := signedBE_bytesBE _
      have hepoch := epoch_micros
      have hoffset := epoch_offset
      rw [hr, Endian.arrange_little, hword, hus]
      omega
    · rw [hr]
      refine ⟨hpos, hneg, fun hdvd => ?_, hclose⟩
      rw [Int.tdiv_mul_cancel hdvd, Int64.ofInt_toInt]
  · intro t₁ t₂ v₁ v₂ hle h₁ h₂
    rcases toBinary_timestamp t₁ with ⟨us₁, hus₁, hencode₁⟩
    rcases toBinary_timestamp t₂ with ⟨us₂, hus₂, hencode₂⟩
    have hdata₁ : v₁.data = bytesBE (Scalar.toWord us₁) := by
      rw [h₁] at hencode₁
      exact Except.ok.inj hencode₁
    have hdata₂ : v₂.data = bytesBE (Scalar.toWord us₂) := by
      rw [h₂] at hencode₂
      exact Except.ok.inj hencode₂
    have hword₁ : v₁.micros = us₁.toInt := by
      rw [TimestampValue.micros, hdata₁]
      exact signedBE_bytesBE _
    have hword₂ : v₂.micros = us₂.toInt := by
      rw [TimestampValue.micros, hdata₂]
      exact signedBE_bytesBE _
    have htdiv := Int.tdiv_le_tdiv (show (0 : ℤ) < 1000 by norm_num) (Int64.le_iff_toInt_le.mp hle)
    omega

end PostgresLib.Wire
