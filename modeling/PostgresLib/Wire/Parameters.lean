import PostgresLib.Wire.Columns
import PostgresLib.Wire.Encoding
import Mathlib.Data.List.Forall2

/-! # Parameter vectors and what is read back from them

The packing loop fills four arrays side by side. They are treated as one list of
slots, of which round `i` fills the `i`-th; the bytes in a slot read back as the
value the slot was filled from.
-/

namespace PostgresLib.Wire

open Foundations

/-- The entries of the four arrays at one index. -/
structure Slot where
  text : Bytes
  buffer : Option ℕ
  length : Int32
  format : Int32

namespace Slot

def empty : Slot := ⟨[], none, 0, 0⟩

/-- The slot at index `i` after its round, for a value with these bytes. -/
def filled (i : ℕ) (param : SupportedType) (text : Bytes) : Slot :=
  if param = .null then ⟨[], none, 0, 1⟩
  else ⟨text, some i, Int32.ofNat text.length, 1⟩

end Slot

def PgParamDetail.ofSlots (query : Bytes) (slots : List Slot) : PgParamDetail where
  query := query
  text := slots.map Slot.text
  buffers := slots.map Slot.buffer
  lengths := slots.map Slot.length
  formats := slots.map Slot.format

theorem ofQuery_eq_ofSlots (query : Bytes) (n : ℕ) :
    PgParamDetail.ofQuery query n =
      PgParamDetail.ofSlots query (List.replicate n Slot.empty) := by
  simp [PgParamDetail.ofQuery, PgParamDetail.ofSlots, Slot.empty]

theorem map_set_middle {α β : Type} (f : α → β) (front back : List α) (x y : α) :
    ((front ++ x :: back).map f).set front.length (f y) = (front ++ y :: back).map f := by
  rw [← List.map_set]
  congr 1
  rw [List.set_append_right _ _ (Nat.le_refl _), Nat.sub_self, List.set_cons_zero]

variable {native : Endian}

/-- A round of the packing loop fills its slot and no other. -/
theorem packParam_ofSlots (query : Bytes) (front back : List Slot) (param : SupportedType)
    (text : Bytes) (htext : toBinary native param = .ok text) :
    packParam native (PgParamDetail.ofSlots query (front ++ Slot.empty :: back)) front.length
        param =
      .ok (PgParamDetail.ofSlots query
        (front ++ Slot.filled front.length param text :: back)) := by
  have hset {β : Type} (f : Slot → β) :=
    map_set_middle f front back Slot.empty (Slot.filled front.length param text)
  by_cases hnull : param = .null
  · have hformat := hset Slot.format
    have hbuffer := hset Slot.buffer
    have hlength := hset Slot.length
    have htexts := hset Slot.text
    rw [packParam, if_pos hnull]
    simp only [Slot.filled, if_pos hnull] at hformat hbuffer hlength htexts ⊢
    simp only [PgParamDetail.ofSlots, hformat, hbuffer, hlength]
    simp [Slot.empty]
  · have hformat := hset Slot.format
    have hbuffer := hset Slot.buffer
    have hlength := hset Slot.length
    have htexts := hset Slot.text
    rw [packParam, if_neg hnull, htext]
    simp only [Slot.filled, if_neg hnull] at hformat hbuffer hlength htexts ⊢
    simp only [PgParamDetail.ofSlots, hformat, hbuffer, hlength, htexts, ok_bind, pure_eq_ok]

/-- The packing loop fills one slot for each value that is left. -/
theorem packParams_ofSlots (query : Bytes) (params : List SupportedType)
    (htext : ∀ param ∈ params, ∃ text, toBinary native param = .ok text) (front : List Slot) :
    ∃ slots, slots.length = params.length ∧
      packParams native front.length params (PgParamDetail.ofSlots query
        (front ++ List.replicate params.length Slot.empty)) =
          .ok (PgParamDetail.ofSlots query (front ++ slots)) ∧
      ∀ i param, params[i]? = some param → ∃ text, toBinary native param = .ok text ∧
        slots[i]? = some (Slot.filled (front.length + i) param text) := by
  induction params generalizing front with
  | nil => exact ⟨[], rfl, by simp [packParams], by simp⟩
  | cons param params ih =>
    obtain ⟨text, ht⟩ := htext param List.mem_cons_self
    have hrest : ∀ p ∈ params, ∃ text, toBinary native p = .ok text :=
      fun p hp => htext p (List.mem_cons_of_mem _ hp)
    obtain ⟨slots, hlen, hpack, hslots⟩ :=
      ih hrest (front ++ [Slot.filled front.length param text])
    refine ⟨Slot.filled front.length param text :: slots, by simp [hlen], ?_, ?_⟩
    · rw [packParams, List.length_cons, List.replicate_succ, packParam_ofSlots _ _ _ _ _ ht,
        ok_bind]
      simpa using hpack
    · intro i p hp
      cases i with
      | zero =>
        rw [List.getElem?_cons_zero, Option.some.injEq] at hp
        subst hp
        exact ⟨text, ht, by simp⟩
      | succ i =>
        rw [List.getElem?_cons_succ] at hp
        obtain ⟨text', ht', hs⟩ := hslots i p hp
        refine ⟨text', ht', ?_⟩
        rw [List.getElem?_cons_succ, hs, List.length_append, List.length_singleton]
        congr 2
        omega

def Integral.value : Integral → ℤ
  | .int8 x => x.toInt
  | .int16 x => x.toInt
  | .int32 x => x.toInt
  | .int64 x => x.toInt
  | .uint8 x => x.toNat
  | .uint16 x => x.toNat
  | .uint32 x => x.toNat
  | .uint64 x => x.toNat

/-- A value of the supported types other than `uint64_t` and `timestamp`, with a payload below
2^31 bytes. A null character pointer is no value. -/
def Param.Encodable : Param → Prop
  | .integral (.uint64 _) => False
  | .timestamp _ => False
  | .charPtr none => False
  | .charPtr (some s) => (cString s).length < 2 ^ 31
  | .string s => s.length < 2 ^ 31
  | .bytes data => data.length < 2 ^ 31
  | .span data => data.length < 2 ^ 31
  | _ => True

/-- A column built from these bytes is read as a value with this property. -/
def ReadsAs {T : Type} (oid : Oid) (text : Bytes) (as : Colum → Except Fault (Option T))
    (property : T → Prop) : Prop :=
  ∃ c x, Colum.ofValue oid (some text) (Int32.ofNat text.length) false = .ok c ∧
    as c = .ok (some x) ∧ property x

/-- The bytes read back as the integer, at the width it is encoded with. -/
def ReadsBackIntegral (text : Bytes) (x : Integral) : Prop :=
  match x with
  | .int8 _ | .int16 _ | .uint8 _ =>
    ReadsAs PgOid.int2 text (Colum.asInt16 .little) fun y => y.toInt = x.value
  | .int32 _ => ReadsAs PgOid.int4 text (Colum.asInt32 .little) fun y => y.toInt = x.value
  | .int64 _ => ReadsAs PgOid.int8 text (Colum.asInt64 .little) fun y => y.toInt = x.value
  | .uint16 _ =>
    ReadsAs PgOid.int4 text (Colum.asInt32 .little) (fun y => y.toInt = x.value) ∧
      ReadsAs PgOid.int4 text (Colum.asUInt16 .little) fun y => y.toNat = x.value
  | .uint32 _ =>
    ReadsAs PgOid.int8 text (Colum.asInt64 .little) (fun y => y.toInt = x.value) ∧
      ReadsAs PgOid.int8 text (Colum.asUInt32 .little) fun y => y.toNat = x.value
  | .uint64 _ => False

/-- The bytes read back as the value, through the accessor for its encoded width. -/
def ReadsBack (text : Bytes) : Param → Prop
  | .null => True
  | .bool b => ReadsAs PgOid.bool text Colum.asBool fun y => y = b
  | .integral x => ReadsBackIntegral text x
  | .float bits => ReadsAs PgOid.float4 text (Colum.asFloat .little) fun y => y = bits
  | .double bits => ReadsAs PgOid.float8 text (Colum.asDouble .little) fun y => y = bits
  | .string s => ReadsAs PgOid.text text Colum.asString fun y => y = s
  | .charPtr s => ReadsAs PgOid.text text Colum.asString fun y => s.map cString = some y
  | .bytes data => ReadsAs PgOid.bytea text Colum.asBytes fun y => y = data
  | .span data => ReadsAs PgOid.bytea text Colum.asBytes fun y => y = data
  | .timestamp _ => False

theorem ofValue_text (oid : Oid) (text : Bytes) (hlen : text.length < 2 ^ 31) :
    Colum.ofValue oid (some text) (Int32.ofNat text.length) false =
      .ok { isNull := false, oid := oid, data := text } := by
  have hint : (Int32.ofNat text.length).toInt = text.length := Int32.toInt_ofNat_of_lt hlen
  rw [Colum.ofValue, hint]
  by_cases hempty : text = []
  · subst hempty
    rfl
  · have hpos : 0 < text.length := List.length_pos_iff.mpr hempty
    rw [if_pos ⟨rfl, by omega⟩, if_pos (le_refl _), Int.toNat_natCast, List.take_length]

theorem readsAs_intro {T : Type} {oid : Oid} {text : Bytes}
    {as : Colum → Except Fault (Option T)} {property : T → Prop} {x : T}
    (hlen : text.length < 2 ^ 31)
    (has : as { isNull := false, oid := oid, data := text } = .ok (some x)) (hx : property x) :
    ReadsAs oid text as property :=
  ⟨_, x, ofValue_text oid text hlen, has, hx⟩

section Fixed

variable {T : Type} {n : ℕ} [Scalar T n]

theorem bytesBE_length_lt (x : T) (hn : n < 2 ^ 31) :
    (bytesBE (Scalar.toWord x)).length < 2 ^ 31 := by
  rwa [bytesBE_length]

end Fixed

/-- An integral value is widened to a signed type that holds it, and read back from it. -/
theorem integral_readsBack (x : Integral) (hx : ∀ y, x ≠ .uint64 y) :
    ∃ text, normalizeIntegral x ≠ .null ∧ toBinary .little (normalizeIntegral x) = .ok text ∧
      text.length < 2 ^ 31 ∧ ReadsBackIntegral text x := by
  have int2 (y : Int16) (hy : y.toInt = x.value) :
      ReadsAs PgOid.int2 (bytesBE (Scalar.toWord y)) (Colum.asInt16 .little)
        fun z => z.toInt = x.value :=
    readsAs_intro (bytesBE_length_lt y (by norm_num))
      (by simp [Colum.asInt16, readBigEndian_bytesBE]) hy
  have int4 (y : Int32) (hy : y.toInt = x.value) :
      ReadsAs PgOid.int4 (bytesBE (Scalar.toWord y)) (Colum.asInt32 .little)
        fun z => z.toInt = x.value :=
    readsAs_intro (bytesBE_length_lt y (by norm_num))
      (by simp [Colum.asInt32, readBigEndian_bytesBE]) hy
  have int8 (y : Int64) (hy : y.toInt = x.value) :
      ReadsAs PgOid.int8 (bytesBE (Scalar.toWord y)) (Colum.asInt64 .little)
        fun z => z.toInt = x.value :=
    readsAs_intro (bytesBE_length_lt y (by norm_num))
      (by simp [Colum.asInt64, readBigEndian_bytesBE]) hy
  cases x with
  | int8 y =>
    exact ⟨_, by simp [normalizeIntegral], encodeFixed_little y.toInt16,
      bytesBE_length_lt _ (by norm_num), int2 _ y.toInt_toInt16⟩
  | int16 y =>
    exact ⟨_, by simp [normalizeIntegral], encodeFixed_little y,
      bytesBE_length_lt _ (by norm_num), int2 _ rfl⟩
  | int32 y =>
    exact ⟨_, by simp [normalizeIntegral], encodeFixed_little y,
      bytesBE_length_lt _ (by norm_num), int4 _ rfl⟩
  | int64 y =>
    exact ⟨_, by simp [normalizeIntegral], encodeFixed_little y,
      bytesBE_length_lt _ (by norm_num), int8 _ rfl⟩
  | uint8 y =>
    have hy : y.toUInt16.toInt16.toInt = y.toNat := by
      have hlt := y.toNat_lt
      have hnat : y.toUInt16.toBitVec.toNat = y.toNat := UInt8.toNat_toUInt16 y
      change y.toUInt16.toBitVec.toInt = _
      rw [BitVec.toInt_eq_toNat_of_lt (by omega), hnat]
    exact ⟨_, by simp [normalizeIntegral], encodeFixed_little y.toUInt16.toInt16,
      bytesBE_length_lt _ (by norm_num), int2 _ hy⟩
  | uint16 y =>
    have hy : y.toUInt32.toInt32.toInt = y.toNat := by
      have hlt := y.toNat_lt
      have hnat : y.toUInt32.toBitVec.toNat = y.toNat := UInt16.toNat_toUInt32 y
      change y.toUInt32.toBitVec.toInt = _
      rw [BitVec.toInt_eq_toNat_of_lt (by omega), hnat]
    refine ⟨_, by simp [normalizeIntegral], encodeFixed_little y.toUInt32.toInt32,
      bytesBE_length_lt _ (by norm_num), int4 _ hy, ?_⟩
    exact readsAs_intro (x := y) (bytesBE_length_lt _ (by norm_num))
      (by simp [Colum.asUInt16, readBigEndian_bytesBE]) rfl
  | uint32 y =>
    have hy : y.toUInt64.toInt64.toInt = y.toNat := by
      have hlt := y.toNat_lt
      have hnat : y.toUInt64.toBitVec.toNat = y.toNat := UInt32.toNat_toUInt64 y
      change y.toUInt64.toBitVec.toInt = _
      rw [BitVec.toInt_eq_toNat_of_lt (by omega), hnat]
    refine ⟨_, by simp [normalizeIntegral], encodeFixed_little y.toUInt64.toInt64,
      bytesBE_length_lt _ (by norm_num), int8 _ hy, ?_⟩
    exact readsAs_intro (x := y) (bytesBE_length_lt _ (by norm_num))
      (by simp [Colum.asUInt32, readBigEndian_bytesBE]) rfl
  | uint64 y => exact absurd rfl (hx y)

theorem param_readsBack (param : Param) (h : param.Encodable) :
    ∃ value text, createSingleData param = .ok value ∧ (value = .null ↔ param = .null) ∧
      toBinary .little value = .ok text ∧ text.length < 2 ^ 31 ∧ ReadsBack text param := by
  cases param with
  | null => exact ⟨_, _, rfl, by simp, rfl, by norm_num, trivial⟩
  | bool b =>
    refine ⟨_, _, rfl, by simp, rfl, by norm_num, ?_⟩
    exact readsAs_intro (x := b) (by norm_num) (by cases b <;> rfl) rfl
  | integral x =>
    have hx : ∀ y, x ≠ .uint64 y := by
      rintro y rfl
      exact h
    obtain ⟨text, hne, henc, hlen, hread⟩ := integral_readsBack x hx
    exact ⟨_, text, rfl, by simp [hne], henc, hlen, hread⟩
  | float bits =>
    refine ⟨_, _, rfl, by simp, encodeFixed_little bits, bytesBE_length_lt _ (by norm_num), ?_⟩
    exact readsAs_intro (bytesBE_length_lt bits (by norm_num))
      (by simp [Colum.asFloat, readBigEndian_bytesBE]) rfl
  | double bits =>
    refine ⟨_, _, rfl, by simp, encodeFixed_little bits, bytesBE_length_lt _ (by norm_num), ?_⟩
    exact readsAs_intro (bytesBE_length_lt bits (by norm_num))
      (by simp [Colum.asDouble, readBigEndian_bytesBE]) rfl
  | string s =>
    refine ⟨_, s, rfl, by simp, rfl, h, ?_⟩
    exact readsAs_intro h (by simp [Colum.asString]) rfl
  | charPtr s =>
    cases s with
    | none => exact absurd h id
    | some s =>
      refine ⟨_, cString s, rfl, by simp, rfl, h, ?_⟩
      exact readsAs_intro h (by simp [Colum.asString]) rfl
  | bytes data =>
    refine ⟨_, data, rfl, by simp, rfl, h, ?_⟩
    exact readsAs_intro h (by simp [Colum.asBytes]) rfl
  | span data =>
    refine ⟨_, data, rfl, by simp, rfl, h, ?_⟩
    exact readsAs_intro h (by simp [Colum.asBytes]) rfl
  | timestamp t => exact absurd h id

theorem mapM_createSingleData (params : List Param)
    (h : ∀ param ∈ params, ∃ value, createSingleData param = .ok value) :
    ∃ values, params.mapM createSingleData = .ok values ∧
      List.Forall₂ (fun param value => createSingleData param = .ok value) params values := by
  induction params with
  | nil => exact ⟨[], rfl, .nil⟩
  | cons param params ih =>
    obtain ⟨value, hvalue⟩ := h param List.mem_cons_self
    obtain ⟨values, hvalues, hall⟩ := ih fun p hp => h p (List.mem_cons_of_mem _ hp)
    exact ⟨value :: values, by simp [List.mapM_cons, hvalue, hvalues], .cons hvalue hall⟩

/-- What a vector of parameters is packed to: four arrays of its length, all in binary format,
with a null buffer exactly for the null values, and bytes that read back as the values. -/
theorem makePgParamBuffer_readsBack (query : Bytes) (params : List Param)
    (h : ∀ param ∈ params, param.Encodable) :
    ∃ values d, params.mapM createSingleData = .ok values ∧
      makePgParamBuffer .little query values = .ok d ∧ d.query = query ∧
      d.text.length = params.length ∧ d.buffers.length = params.length ∧
      d.lengths.length = params.length ∧ d.formats.length = params.length ∧
      ∀ (i : ℕ) param, params[i]? = some param → ∃ text buffer, ∃ length : Int32,
        d.text[i]? = some text ∧ d.buffers[i]? = some buffer ∧ d.lengths[i]? = some length ∧
        d.formats[i]? = some 1 ∧ (buffer = none ↔ param = .null) ∧
        (∀ j, buffer = some j → j = i) ∧ length.toInt = text.length ∧ ReadsBack text param := by
  obtain ⟨values, hvalues, hall⟩ := mapM_createSingleData params fun param hp =>
    let ⟨value, _, hvalue, _⟩ := param_readsBack param (h param hp)
    ⟨value, hvalue⟩
  have hlen := hall.length_eq
  have hencoded (i : ℕ) (param : Param) (hp : params[i]? = some param) :
      ∃ value text, values[i]? = some value ∧ (value = .null ↔ param = .null) ∧
        toBinary .little value = .ok text ∧ text.length < 2 ^ 31 ∧ ReadsBack text param := by
    obtain ⟨hi, rfl⟩ := List.getElem?_eq_some_iff.mp hp
    have hvalue := hall.get hi (hlen ▸ hi)
    obtain ⟨value, text, hv, hrest⟩ := param_readsBack params[i] (h _ (List.getElem_mem hi))
    simp only [List.get_eq_getElem] at hvalue
    rw [hv, Except.ok.injEq] at hvalue
    exact ⟨value, text, by rw [List.getElem?_eq_getElem (hlen ▸ hi), hvalue], hrest⟩
  have htext : ∀ value ∈ values, ∃ text, toBinary .little value = .ok text := by
    intro value hv
    obtain ⟨i, hi, rfl⟩ := List.mem_iff_getElem.mp hv
    obtain ⟨value, text, hget, -, ht, -⟩ :=
      hencoded i params[i] (List.getElem?_eq_getElem (hlen ▸ hi))
    rw [List.getElem?_eq_getElem hi, Option.some.injEq] at hget
    exact ⟨text, hget ▸ ht⟩
  obtain ⟨slots, hslotsLen, hpack, hslots⟩ := packParams_ofSlots query values htext []
  simp only [List.nil_append, List.length_nil, Nat.zero_add] at hpack hslots
  refine ⟨values, PgParamDetail.ofSlots query slots, hvalues, ?_, rfl, ?_, ?_, ?_, ?_, ?_⟩
  · rw [makePgParamBuffer, ofQuery_eq_ofSlots]
    exact hpack
  · simp [PgParamDetail.ofSlots, hslotsLen, hlen]
  · simp [PgParamDetail.ofSlots, hslotsLen, hlen]
  · simp [PgParamDetail.ofSlots, hslotsLen, hlen]
  · simp [PgParamDetail.ofSlots, hslotsLen, hlen]
  · intro i param hp
    obtain ⟨value, text, hget, hnull, ht, htlen, hread⟩ := hencoded i param hp
    obtain ⟨text', ht', hslot⟩ := hslots i value hget
    rw [ht, Except.ok.injEq] at ht'
    subst ht'
    simp only [PgParamDetail.ofSlots, List.getElem?_map, hslot, Option.map_some,
      Option.some.injEq, exists_and_left, exists_eq_left']
    by_cases hparam : param = .null
    · subst hparam
      simp [Slot.filled, hnull.mpr rfl, ReadsBack]
    · have hvalue : value ≠ .null := fun hv => hparam (hnull.mp hv)
      simp [Slot.filled, hvalue, hparam, hread, Int32.toInt_ofNat_of_lt htlen]

/-- A null, an unsigned byte and a text with a zero byte in it. -/
theorem makePgParamBuffer_readsBack_three :
    ∃ values d, [Param.null, .integral (.uint8 200), .string [65, 0, 66]].mapM createSingleData =
        .ok values ∧
      makePgParamBuffer .little [] values = .ok d ∧ d.text.length = 3 ∧
      d.buffers[0]? = some none ∧
      (∃ text, d.text[2]? = some text ∧
        ReadsAs PgOid.text text Colum.asString fun y => y = [65, 0, 66]) := by
  have hencodable : ∀ param ∈ [Param.null, .integral (.uint8 200), .string [65, 0, 66]],
      param.Encodable := by
    simp only [List.forall_mem_cons]
    exact ⟨trivial, trivial, show 3 < 2 ^ 31 by norm_num, nofun⟩
  obtain ⟨values, d, hvalues, hd, -, hlen, -, -, -, hall⟩ :=
    makePgParamBuffer_readsBack [] [.null, .integral (.uint8 200), .string [65, 0, 66]] hencodable
  obtain ⟨-, buffer, -, -, hbuffer, -, -, hnull, -⟩ := hall 0 .null rfl
  obtain ⟨text, -, -, htext, -, -, -, -, -, -, hread⟩ := hall 2 (.string [65, 0, 66]) rfl
  exact ⟨values, d, hvalues, hd, hlen, by rw [hbuffer, hnull.mpr rfl], text, htext, hread⟩

end PostgresLib.Wire
