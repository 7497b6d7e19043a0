import PostgresLib.Result.Table
import PostgresLib.Wire.Parameters

/-! # From the arguments of a query to the cells of its result

A query that returns its parameters takes them through the whole library: an argument
is normalised, encoded and packed; libpq sends it as the value of a parameter, the
server sends it back as the value of a column, and the cell is read with the type of
the argument. A time point comes back without the part of a microsecond that it is sent
without, a character pointer as the text up to its zero, and every other argument with the
value it had, with the one exception of a `uint64_t` zero.
-/

namespace PostgresLib.Wire

open Foundations

/-! ## Arguments and what is read back -/

/-- The type of the server that an argument is encoded as. -/
def Integral.oid : Integral → Oid
  | .int8 _ | .int16 _ | .uint8 _ => PgOid.int2
  | .int32 _ | .uint16 _ => PgOid.int4
  | .int64 _ | .uint32 _ => PgOid.int8
  | .uint64 _ => PgOid.numeric

def Param.oid : Param → Oid
  | .null => PgOid.text
  | .bool _ => PgOid.bool
  | .integral x => x.oid
  | .float _ => PgOid.float4
  | .double _ => PgOid.float8
  | .string _ | .charPtr _ => PgOid.text
  | .bytes _ | .span _ => PgOid.bytea
  | .timestamp _ => PgOid.timestamp

/-- The type its cell is read with: its own, or the one that it is widened to where no accessor has
its own. -/
def Integral.resultType : Integral → ResultType
  | .int8 _ | .int16 _ | .uint8 _ => .int16
  | .int32 _ => .int32
  | .int64 _ => .int64
  | .uint16 _ => .uint16
  | .uint32 _ => .uint32
  | .uint64 _ => .uint64

def Param.resultType : Param → ResultType
  | .null => .string
  | .bool _ => .bool
  | .integral x => x.resultType
  | .float _ => .float
  | .double _ => .double
  | .string _ | .charPtr _ => .string
  | .bytes _ | .span _ => .bytes
  | .timestamp _ => .timestamp

def Integral.back : (x : Integral) → x.resultType.Value
  | .int8 x => x.toInt16
  | .int16 x => x
  | .int32 x => x
  | .int64 x => x
  | .uint8 x => x.toUInt16.toInt16
  | .uint16 x => x
  | .uint32 x => x
  | .uint64 x => x

/-- What is read back: nothing for NULL, a character pointer up to its zero, and a time point to the
microsecond. -/
def Param.back : (p : Param) → Option p.resultType.Value
  | .null => none
  | .bool b => some b
  | .integral x => some x.back
  | .float bits => some bits
  | .double bits => some bits
  | .string s => some s
  | .charPtr s => s.map cString
  | .bytes data => some data
  | .span data => some data
  | .timestamp t => some (Int64.ofInt (t.toInt.tdiv 1000 * 1000))

/-- No null character pointer, and no payload that an `int` cannot count. -/
def Param.Passable : Param → Prop
  | .charPtr none => False
  | .charPtr (some s) => (cString s).length < 2 ^ 31
  | .string s => s.length < 2 ^ 31
  | .bytes data | .span data => data.length < 2 ^ 31
  | _ => True

/-! ## One argument -/

def echoCell (p : Param) (text : Bytes) : Colum where
  isNull := false
  oid := p.oid
  data := text

/-- The argument is encoded with these bytes, and its cell reads back what it should unless it is
the one argument that is lost. -/
structure Echoes (p : Param) (value : SupportedType) (text : Bytes) : Prop where
  single : createSingleData p = .ok value
  null : value = .null ↔ p = .null
  binary : toBinary .little value = .ok text
  length : text.length < 2 ^ 31
  back : p ≠ .null →
    ((echoCell p text).as .little p.resultType = .ok p.back ↔
      p ≠ .integral (.uint64 0))

theorem ReadsAs.at_cell {T : Type} {oid : Oid} {text : Bytes}
    {as : Colum → Except Fault (Option T)} {property : T → Prop} (h : ReadsAs oid text as property)
    (hlen : text.length < 2 ^ 31) :
    ∃ x, as { isNull := false, oid := oid, data := text } = .ok (some x) ∧ property x := by
  rcases h with ⟨c, x, hc, hx, hproperty⟩
  rw [ofValue_text oid text hlen, Except.ok.injEq] at hc
  subst hc
  exact ⟨x, hx, hproperty⟩

theorem widened_uint8 (y : UInt8) : y.toUInt16.toInt16.toInt = y.toNat := by
  have hlt := y.toNat_lt
  have hnat : y.toUInt16.toBitVec.toNat = y.toNat := UInt8.toNat_toUInt16 y
  change y.toUInt16.toBitVec.toInt = _
  rw [BitVec.toInt_eq_toNat_of_lt (by omega), hnat]

theorem integral_back {x : Integral} (hx : ∀ y, x ≠ .uint64 y) {text : Bytes}
    (hlen : text.length < 2 ^ 31) (h : ReadsBackIntegral text x) :
    (echoCell (.integral x) text).as .little (x.resultType) =
      .ok (some x.back) := by
  cases x with
  | int8 y =>
    rcases ReadsAs.at_cell h hlen with ⟨z, hz, hvalue⟩
    rw [Int16.toInt_inj.mp (hvalue.trans y.toInt_toInt16.symm)] at hz
    exact hz
  | int16 y =>
    rcases ReadsAs.at_cell h hlen with ⟨z, hz, hvalue⟩
    rw [Int16.toInt_inj.mp hvalue] at hz
    exact hz
  | int32 y =>
    rcases ReadsAs.at_cell h hlen with ⟨z, hz, hvalue⟩
    rw [Int32.toInt_inj.mp hvalue] at hz
    exact hz
  | int64 y =>
    rcases ReadsAs.at_cell h hlen with ⟨z, hz, hvalue⟩
    rw [Int64.toInt_inj.mp hvalue] at hz
    exact hz
  | uint8 y =>
    rcases ReadsAs.at_cell h hlen with ⟨z, hz, hvalue⟩
    rw [Int16.toInt_inj.mp (hvalue.trans (widened_uint8 y).symm)] at hz
    exact hz
  | uint16 y =>
    rcases ReadsAs.at_cell h.2 hlen with ⟨z, hz, hvalue⟩
    rw [UInt16.toNat_inj.mp (Int.ofNat_inj.mp hvalue)] at hz
    exact hz
  | uint32 y =>
    rcases ReadsAs.at_cell h.2 hlen with ⟨z, hz, hvalue⟩
    rw [UInt32.toNat_inj.mp (Int.ofNat_inj.mp hvalue)] at hz
    exact hz
  | uint64 y => exact absurd rfl (hx y)

theorem uint64_echoes (v : UInt64) :
    ∃ value text, Echoes (.integral (.uint64 v)) value text := by
  by_cases hv : v = 0
  · subst hv
    refine ⟨_, [8, 0], rfl, by simp [normalizeIntegral], rfl, by norm_num, fun _ => ?_⟩
    simp only [ne_eq, not_true_eq_false, iff_false]
    intro hread
    cases hread
  · rcases stripZeroGroups_decimalGroups hv with ⟨k, hk, hpos, hkept, hfive⟩
    have hread := asUInt64_numericColum (Int16.ofNat ((decimalGroups v).length - 1)) 0
      (stripZeroGroups (decimalGroups v).reverse) (by omega)
    -- the decoder puts back the groups that the encoder has stripped
    have htrailing : ((Int16.ofNat ((decimalGroups v).length - 1)).toInt + 1 -
        (stripZeroGroups (decimalGroups v).reverse).length).toNat = k := by
      rw [Int16.toInt_ofNat_of_lt (by omega)]
      omega
    rw [htrailing, ← hk, horner_decimalGroups] at hread
    refine ⟨_, _, rfl, by simp [normalizeIntegral], encodeNumericUint64_eq hv, ?_, fun _ => ?_⟩
    · rw [numericPayload_length]
      omega
    · simp only [ne_eq, Param.integral.injEq, Integral.uint64.injEq, hv, not_false_eq_true,
        iff_true]
      exact hread

theorem timestamp_echoes (t : Timestamp) : ∃ value text, Echoes (.timestamp t) value text := by
  rcases toBinary_timestamp t with ⟨us, hus, hencode⟩
  have hrange : Representable (t.toInt.tdiv 1000 * 1000) := by
    have ht := representable_toInt t
    rcases tdiv_micros t.toInt with ⟨hclose, hpos, hneg⟩
    rw [Representable] at ht ⊢
    omega
  refine ⟨.timestamp t, _, rfl, by simp, hencode, ?_, fun _ => ?_⟩
  · rw [bytesBE_length]
    norm_num
  · simp only [ne_eq, reduceCtorEq, not_false_eq_true, iff_true]
    have hread : (TimestampValue.colum ⟨.timestamp, bytesBE (Scalar.toWord us),
        bytesBE_length _⟩).asTimestamp .little =
          .ok (some (Int64.ofInt (t.toInt.tdiv 1000 * 1000))) := by
      rw [asTimestamp_eq_ok]
      refine ⟨_, rfl, ?_⟩
      have hword : signedBE (bytesBE (Scalar.toWord us)) = us.toInt := signedBE_bytesBE _
      have hepoch := epoch_micros
      have hoffset := epoch_offset
      rw [hrange.toInt_ofInt, Endian.arrange_little, hword, hus]
      omega
    exact hread

theorem encodable_echoes {p : Param} (h : p.Encodable) : ∃ value text, Echoes p value text := by
  rcases param_readsBack p h with ⟨value, text, hsingle, hnull, hbinary, hlen, hread⟩
  refine ⟨value, text, hsingle, hnull, hbinary, hlen, fun hp => ?_⟩
  cases p with
  | null => exact absurd rfl hp
  | timestamp t => exact absurd h id
  | integral x =>
    have hx : ∀ y, x ≠ .uint64 y := by
      rintro y rfl
      exact h
    have hne : (Param.integral x) ≠ .integral (.uint64 0) := fun heq =>
      hx 0 (Param.integral.inj heq)
    exact iff_of_true (integral_back hx hlen hread) hne
  | charPtr s =>
    rcases ReadsAs.at_cell hread hlen with ⟨y, hy, hs⟩
    exact iff_of_true (hy.trans (congrArg Except.ok hs.symm)) (by simp)
  | _ =>
    rcases ReadsAs.at_cell hread hlen with ⟨y, hy, rfl⟩
    exact iff_of_true hy (by simp)

theorem Param.Passable.echoes {p : Param} (h : p.Passable) :
    ∃ value text, Echoes p value text := by
  cases p with
  | timestamp t => exact timestamp_echoes t
  | integral x =>
    cases x with
    | uint64 v => exact uint64_echoes v
    | _ => exact encodable_echoes trivial
  | charPtr s =>
    cases s with
    | none => exact absurd h id
    | some s => exact encodable_echoes h
  | string s => exact encodable_echoes h
  | bytes data => exact encodable_echoes h
  | span data => exact encodable_echoes h
  | _ => exact encodable_echoes trivial

/-! ## The packed arguments -/

/-- What is sent for a slot that its round has filled. -/
theorem sent_ofSlots {query : Bytes} {slots : List Slot} {i : ℕ} {value : SupportedType}
    {text : Bytes} (h : slots[i]? = some (.filled i value text)) (hlen : text.length < 2 ^ 31) :
    (PgParamDetail.ofSlots query slots).sent i = if value = .null then none else some text := by
  rw [PgParamDetail.sent, PgParamDetail.ofSlots]
  simp only [List.getElem?_map, List.getD_eq_getElem?_getD, h, Option.map_some]
  by_cases hnull : value = .null
  · simp [Slot.filled, hnull]
  · simp [Slot.filled, hnull, h, Int32.toInt_ofNat_of_lt hlen]

/-- The arguments are packed in binary format, and what is sent for each of them is NULL or the
bytes it is encoded with. -/
theorem packed_echoes (query : Bytes) {params : List Param} (h : ∀ p ∈ params, p.Passable) :
    ∃ values d, params.mapM createSingleData = .ok values ∧
      makePgParamBuffer .little query values = .ok d ∧
      d.formats = List.replicate params.length 1 ∧
      ∀ (i : ℕ) p, params[i]? = some p → ∃ value text, Echoes p value text ∧
        d.sent i = if p = .null then none else some text := by
  rcases mapM_createSingleData params fun p hp =>
    let ⟨value, _, hvalue⟩ := (h p hp).echoes
    ⟨value, hvalue.single⟩ with ⟨values, hvalues, hall⟩
  have hlen := hall.length_eq
  have hechoes (i : ℕ) (p : Param) (hp : params[i]? = some p) :
      ∃ value text, values[i]? = some value ∧ Echoes p value text := by
    rcases List.getElem?_eq_some_iff.mp hp with ⟨hi, rfl⟩
    have hvalue := hall.get hi (hlen ▸ hi)
    rcases (h _ (List.getElem_mem hi)).echoes with ⟨value, text, hecho⟩
    simp only [List.get_eq_getElem] at hvalue
    rw [hecho.single, Except.ok.injEq] at hvalue
    exact ⟨value, text, by rw [List.getElem?_eq_getElem (hlen ▸ hi), hvalue], hecho⟩
  have htext : ∀ value ∈ values, ∃ text, toBinary .little value = .ok text := by
    intro value hv
    rcases List.mem_iff_getElem.mp hv with ⟨i, hi, rfl⟩
    rcases hechoes i _ (List.getElem?_eq_getElem (hlen ▸ hi)) with ⟨value, text, hget, hecho⟩
    rw [List.getElem?_eq_getElem hi, Option.some.injEq] at hget
    exact ⟨text, hget ▸ hecho.binary⟩
  rcases packParams_ofSlots query values htext [] with ⟨slots, hslotsLen, hpack, hslots⟩
  simp only [List.nil_append, List.length_nil, Nat.zero_add] at hpack hslots
  refine ⟨values, PgParamDetail.ofSlots query slots, hvalues, ?_, ?_, ?_⟩
  · rw [makePgParamBuffer, ofQuery_eq_ofSlots]
    exact hpack
  · rw [List.eq_replicate_iff]
    refine ⟨by simp [PgParamDetail.ofSlots, hslotsLen, hlen], ?_⟩
    intro format hformat
    rcases List.mem_map.mp hformat with ⟨slot, hslot, rfl⟩
    rcases List.getElem?_of_mem hslot with ⟨i, hi⟩
    have hless : i < values.length := hslotsLen ▸ (List.getElem?_eq_some_iff.mp hi).1
    rcases hslots i _ (List.getElem?_eq_getElem hless) with ⟨text, -, hfilled⟩
    rw [Option.some.inj (hi.symm.trans hfilled), Slot.filled]
    split_ifs <;> rfl
  · intro i p hp
    rcases hechoes i p hp with ⟨value, text, hget, hecho⟩
    rcases hslots i value hget with ⟨text', ht', hslot⟩
    rw [hecho.binary, Except.ok.injEq] at ht'
    subst ht'
    refine ⟨value, text, hecho, ?_⟩
    rw [sent_ofSlots hslot hecho.length]
    simp only [hecho.null]

end PostgresLib.Wire

namespace PostgresLib.Result

open Foundations Wire

variable {ρ : Type} {lib : ResultReader ρ} {pgRes : ρ}

/-- The result of a query that returns its parameters under these names. -/
structure Returned (rs : ResultSet) (names : List Bytes) (params : List Param)
    (d : PgParamDetail) : Prop where
  fields : rs.fields = List.zipWith Field.mk names (params.map Param.oid)
  tuples : rs.tuples = [(List.range params.length).map d.sent]

/-- Under names that differ, a row has the cell of each column. -/
theorem lookup_entries {fields : List Field} {tuple : List (Option Bytes)}
    (hnames : (fields.map Field.name).Nodup) {c : ℕ} {f : Field} {value : Option Bytes}
    (hf : fields[c]? = some f) (hvalue : tuple[c]? = some value) :
    (insertAll ∅ (entries fields tuple)).lookup f.name = some (f.cell value) := by
  apply lookup_insertAll_of_last
  apply last_of_getElem? (i := c)
  · have hzip : (fields.zip tuple)[c]? = some (f, value) :=
      List.getElem?_zip_eq_some.mpr ⟨hf, hvalue⟩
    rw [entries, List.getElem?_map, hzip]
    rfl
  · intro c' entry hlater hentry heq
    rw [entries, List.getElem?_map, Option.map_eq_some_iff] at hentry
    rcases hentry with ⟨⟨f', value'⟩, hzip, rfl⟩
    have hf' : fields[c']? = some f' := (List.getElem?_zip_eq_some.mp hzip).1
    have hsame : (fields.map Field.name)[c]? = (fields.map Field.name)[c']? := by
      rw [List.getElem?_map, List.getElem?_map, hf, hf']
      exact congrArg some heq.symm
    have hc : c < (fields.map Field.name).length := by
      rw [List.length_map]
      exact (List.getElem?_eq_some_iff.mp hf).1
    exact absurd ((List.getElem?_inj hc hnames).mp hsame) (Nat.ne_of_lt hlater)

theorem Returned.names {rs : ResultSet} {names : List Bytes} {params : List Param}
    {d : PgParamDetail} (h : Returned rs names params d) (hlength : names.length = params.length) :
    rs.fields.map Field.name = names := by
  rw [h.fields, List.map_zipWith]
  apply List.ext_getElem
  · simp [hlength]
  · intro i h₁ h₂
    simp

variable (lib pgRes) in
/-- A query that returns its parameters under different names gives a table with one row, in which
every argument but a `uint64_t` zero reads back: a time point truncated to microseconds, a character
pointer as the text up to its zero, and any other with its value. No argument is a null character
pointer or longer than an `int` counts. -/
theorem arguments_come_back (query : Bytes) (params : List Param)
    (hpassable : ∀ p ∈ params, p.Passable) (names : List Bytes)
    (hlength : names.length = params.length) (hnames : names.Nodup) :
    ∃ values d, params.mapM createSingleData = .ok values ∧
      makePgParamBuffer .little query values = .ok d ∧
      d.formats = List.replicate params.length 1 ∧
      ∀ rs, Returned rs names params d → Represents lib pgRes rs →
        ∃ t row, Table.ofResult lib pgRes = .ok t ∧ t.rows = [row] ∧
          ∀ (i : ℕ) p name, params[i]? = some p → names[i]? = some name →
            (row.get .little p.resultType name = .ok p.back ↔ p ≠ .integral (.uint64 0)) := by
  rcases packed_echoes query hpassable with ⟨values, d, hvalues, hpack, hformats, hsent⟩
  refine ⟨values, d, hvalues, hpack, hformats, ?_⟩
  intro rs hrs hrep
  have htable := hrep.ofResult
  rw [hrs.tuples, List.map_singleton] at htable
  refine ⟨_, _, htable, rfl, ?_⟩
  intro i p name hp hname
  have hfield : rs.fields[i]? = some ⟨name, p.oid⟩ := by
    rw [hrs.fields, List.getElem?_zipWith, hname, List.getElem?_map, hp]
    rfl
  have hless : i < params.length := (List.getElem?_eq_some_iff.mp hp).1
  have hvalue : ((List.range params.length).map d.sent)[i]? = some (d.sent i) := by
    rw [List.getElem?_map, List.getElem?_range hless]
    rfl
  have hdistinct : (rs.fields.map Field.name).Nodup := by rwa [hrs.names hlength]
  have hcell := lookup_entries hdistinct hfield hvalue
  rcases hsent i p hp with ⟨value, text, hecho, hsenti⟩
  rw [Row.get, hcell, hsenti]
  by_cases hnull : p = .null
  · subst hnull
    simp only [if_true]
    exact iff_of_true (as_of_isNull .little rfl _) (by simp)
  · simp only [if_neg hnull]
    exact hecho.back hnull

/-- The result of a query that returns a text with a zero byte in it, a zero and a NULL. -/
def threeReturned : ResultSet where
  fields := [⟨[97], PgOid.text⟩, ⟨[98], PgOid.numeric⟩, ⟨[99], PgOid.text⟩]
  tuples := [[some [65, 0, 66], some [8, 0], none]]
  width := by decide

theorem three_come_back :
    ∃ t row, Table.ofResult reader threeReturned = .ok t ∧ t.rows = [row] ∧
      row.get .little .string [97] = .ok (some [65, 0, 66]) ∧
      row.get .little .uint64 [98] ≠ .ok (some 0) ∧ row.get .little .string [99] = .ok none := by
  have hpassable : ∀ p ∈ [Param.string [65, 0, 66], .integral (.uint64 0), .null],
      p.Passable := by
    simp only [List.forall_mem_cons]
    exact ⟨show 3 < 2 ^ 31 by norm_num, trivial, trivial, List.forall_mem_nil _⟩
  rcases arguments_come_back reader threeReturned []
    [.string [65, 0, 66], .integral (.uint64 0), .null] hpassable [[97], [98], [99]] rfl (by decide)
    with ⟨values, d, hvalues, hpack, -, hback⟩
  cases hvalues
  cases hpack
  rcases hback threeReturned ⟨rfl, rfl⟩
    (represents_reader threeReturned (by decide) (by decide) (by simp [threeReturned])) with
    ⟨t, row, ht, hrow, hcells⟩
  refine ⟨t, row, ht, hrow, (hcells 0 _ _ rfl rfl).mpr (by simp), ?_,
    (hcells 2 _ _ rfl rfl).mpr (by simp)⟩
  exact fun h => (hcells 1 _ _ rfl rfl).mp h rfl

end PostgresLib.Result
