import PostgresLib.Foundations.KeyedStore
import PostgresLib.Wire.Accessors
import Mathlib.Data.List.Induction

/-! # Result tables

A `table` is filled once, by two nested loops over a result of libpq: a row for each
tuple, and in it an entry for each column under the name of the column. A name that
several columns share has the entry of the last of them.
-/

namespace PostgresLib.Result

open Foundations Wire

/-- The functions of libpq that read a result. A pointer they return is nothing when it is null,
and otherwise the bytes that may be read through it, for a name those before the zero. -/
structure ResultReader (ρ : Type) where
  ntuples : ρ → Int32
  nfields : ρ → Int32
  fname : ρ → ℕ → Option Bytes
  ftype : ρ → ℕ → Oid
  getisnull : ρ → ℕ → ℕ → Bool
  getlength : ρ → ℕ → ℕ → Int32
  getvalue : ρ → ℕ → ℕ → Option Bytes

structure Row where
  columns : KeyedStore Bytes Colum

namespace Row

def get (row : Row) (native : Endian) (T : ResultType) (fName : Bytes) :
    Except Fault (Option T.Value) :=
  match row.columns.lookup fName with
  | none => .ok none
  | some column => column.as native T

/-- `kNull`, a default `colum`. -/
def kNull : Colum where
  isNull := true
  oid := 0
  data := []

/-- `row::operator[]`. -/
def subscript (row : Row) (fName : Bytes) : Colum :=
  match row.columns.lookup fName with
  | some column => column
  | none => kNull

end Row

structure Table (ρ : Type) where
  rows : List Row
  pgRes : ρ

variable {ρ : Type} (lib : ResultReader ρ) (pgRes : ρ)

def Table.size (t : Table ρ) : ℕ := t.rows.length

/-- The first loop of the constructor, which collects the names of `nCols` columns. -/
def colNames (nCols : ℕ) : Except Fault (List Bytes) :=
  (List.range nCols).mapM fun c =>
    match lib.fname pgRes c with
    | some name => .ok name
    | none => .error .nullPointer

def readColum (r c : ℕ) : Except Fault Colum :=
  let isNull := lib.getisnull pgRes r c
  let valLen := if isNull then 0 else lib.getlength pgRes r c
  let val := if isNull then none else lib.getvalue pgRes r c
  Colum.ofValue (lib.ftype pgRes c) val valLen isNull

/-- The inner loop, over the columns of row `r`. -/
def readRow (names : List Bytes) (nCols r : ℕ) : Except Fault Row := do
  let columns ← (List.range nCols).foldlM
    (fun columns c => do
      let column ← readColum lib pgRes r c
      match names[c]? with
      | some name => return columns.insert name column
      | none => .error .outOfBounds)
    (∅ : KeyedStore Bytes Colum)
  return { columns := columns }

/-- The constructor of `table`. -/
def Table.ofResult : Except Fault (Table ρ) := do
  let nRows := (lib.ntuples pgRes).toInt.toNat
  let nCols := (lib.nfields pgRes).toInt.toNat
  let names ← colNames lib pgRes nCols
  let rows ← (List.range nRows).mapM (readRow lib pgRes names nCols)
  return { rows := rows, pgRes := pgRes }

section Loops

variable {α β σ : Type}

theorem getElem?_of_front {xs : List α} {i : ℕ} {y : α} (h : xs[i]? = some y) (zs : List α) :
    (xs ++ zs)[i]? = some y := by
  rw [List.getElem?_append_left (List.getElem?_eq_some_iff.mp h).1, h]

/-- A loop over the positions of a list that makes the same of every element. -/
theorem mapM_range {f : ℕ → Except Fault β} {g : α → β} {xs : List α}
    (h : ∀ i x, xs[i]? = some x → f i = .ok (g x)) :
    (List.range xs.length).mapM f = .ok (xs.map g) := by
  induction xs using List.reverseRecOn with
  | nil => rfl
  | append_singleton xs x ih =>
    have hfront : ∀ i y, xs[i]? = some y → f i = .ok (g y) :=
      fun i y hy => h i y (getElem?_of_front hy [x])
    have hlast : f xs.length = .ok (g x) := h _ x (by simp)
    rw [List.length_append, List.length_singleton, List.range_succ, List.mapM_append,
      ih hfront, ok_bind, List.mapM_cons, hlast]
    simp

/-- A loop over the positions of a list that adds every element to a state. -/
theorem foldlM_range {f : σ → ℕ → Except Fault σ} (g : σ → α → σ) (xs : List α)
    (h : ∀ s i x, xs[i]? = some x → f s i = .ok (g s x)) (s : σ) :
    (List.range xs.length).foldlM f s = .ok (xs.foldl g s) := by
  induction xs using List.reverseRecOn with
  | nil => rfl
  | append_singleton xs x ih =>
    have hfront : ∀ s i y, xs[i]? = some y → f s i = .ok (g s y) :=
      fun s i y hy => h s i y (getElem?_of_front hy [x])
    have hlast : f (xs.foldl g s) xs.length = .ok (g (xs.foldl g s) x) := h _ _ x (by simp)
    rw [List.length_append, List.length_singleton, List.range_succ, List.foldlM_append,
      ih hfront, ok_bind, List.foldlM_cons, hlast, List.foldl_append]
    rfl

end Loops

structure Field where
  name : Bytes
  oid : Oid

/-- A result as the server sends it: for each tuple one value for each column, nothing for
NULL. -/
structure ResultSet where
  fields : List Field
  tuples : List (List (Option Bytes))
  width : ∀ tuple ∈ tuples, tuple.length = fields.length

/-- What libpq documents of a result that holds these columns and tuples: it counts them, and
returns what it is asked for; behind the bytes of a value further ones may be read. -/
structure Represents (rs : ResultSet) : Prop where
  ntuples : (lib.ntuples pgRes).toInt = rs.tuples.length
  nfields : (lib.nfields pgRes).toInt = rs.fields.length
  fname : ∀ (c : ℕ) f, rs.fields[c]? = some f → lib.fname pgRes c = some f.name
  ftype : ∀ (c : ℕ) f, rs.fields[c]? = some f → lib.ftype pgRes c = f.oid
  getisnull : ∀ (r c : ℕ) tuple value, rs.tuples[r]? = some tuple → tuple[c]? = some value →
    lib.getisnull pgRes r c = value.isNone
  getlength : ∀ (r c : ℕ) tuple bytes, rs.tuples[r]? = some tuple → tuple[c]? = some (some bytes) →
    (lib.getlength pgRes r c).toInt = bytes.length
  getvalue : ∀ (r c : ℕ) tuple bytes, rs.tuples[r]? = some tuple → tuple[c]? = some (some bytes) →
    ∃ behind, lib.getvalue pgRes r c = some (bytes ++ behind)

/-- The cell of a value: the identifier of its column, whether it is NULL, and its bytes. -/
def Field.cell (f : Field) (value : Option Bytes) : Colum where
  isNull := value.isNone
  oid := f.oid
  data := value.getD []

/-- The entries of a row, in the order of the columns. -/
def entries (fields : List Field) (tuple : List (Option Bytes)) : List (Bytes × Colum) :=
  (fields.zip tuple).map fun x => (x.1.name, x.1.cell x.2)

/-- The table has a row for each tuple, in their order. A row finds the names of the columns and no
others, under a name the cell of the last column with that name, and both ways of reading a value
agree. -/
structure Reproduces (t : Table ρ) (rs : ResultSet) : Prop where
  size : t.size = rs.tuples.length
  found : ∀ (r : ℕ) row, t.rows[r]? = some row →
    ∀ name, (row.columns.lookup name).isSome ↔ ∃ f ∈ rs.fields, f.name = name
  cell : ∀ (r : ℕ) row tuple, t.rows[r]? = some row → rs.tuples[r]? = some tuple →
    ∀ (c : ℕ) f value, rs.fields[c]? = some f → tuple[c]? = some value →
      (∀ (c' : ℕ) f', c < c' → rs.fields[c']? = some f' → f'.name ≠ f.name) →
        row.columns.lookup f.name = some (f.cell value)
  reads : ∀ row ∈ t.rows, ∀ (native : Endian) (T : ResultType) name,
    row.get native T name = (row.subscript name).as native T

/-- A name that is not found is read like a NULL column. -/
theorem Row.get_eq (row : Row) (native : Endian) (T : ResultType) (name : Bytes) :
    row.get native T name = (row.subscript name).as native T := by
  rw [get, subscript]
  cases row.columns.lookup name with
  | none => exact (as_of_isNull native rfl T).symm
  | some column => rfl

/-- A column holds the first bytes behind a pointer. -/
theorem ofValue_append (oid : Oid) (bytes behind : Bytes) {valLen : Int32}
    (hlen : valLen.toInt = bytes.length) :
    Colum.ofValue oid (some (bytes ++ behind)) valLen false =
      .ok { isNull := false, oid := oid, data := bytes } := by
  rw [Colum.ofValue, hlen]
  cases bytes with
  | nil => rfl
  | cons b bytes =>
    have hpos : (0 : ℤ) < (b :: bytes).length := by
      rw [List.length_cons]
      omega
    have hbound : ((b :: bytes).length : ℤ) ≤ (b :: bytes ++ behind).length := by
      rw [List.length_append]
      omega
    rw [if_pos ⟨rfl, hpos⟩, if_pos hbound, Int.toNat_natCast, List.take_left' rfl]

variable {lib pgRes} {rs : ResultSet}

theorem Represents.colNames (h : Represents lib pgRes rs) :
    colNames lib pgRes rs.fields.length = .ok (rs.fields.map Field.name) :=
  mapM_range fun c f hf => by rw [h.fname c f hf]

theorem Represents.readColum (h : Represents lib pgRes rs) {r c : ℕ}
    {tuple : List (Option Bytes)} {f : Field} {value : Option Bytes}
    (htuple : rs.tuples[r]? = some tuple) (hf : rs.fields[c]? = some f)
    (hvalue : tuple[c]? = some value) : readColum lib pgRes r c = .ok (f.cell value) := by
  rw [Result.readColum, h.getisnull r c tuple value htuple hvalue, h.ftype c f hf]
  cases value with
  | none => rfl
  | some bytes =>
    rcases h.getvalue r c tuple bytes htuple hvalue with ⟨behind, hbytes⟩
    rw [hbytes]
    exact ofValue_append f.oid bytes behind (h.getlength r c tuple bytes htuple hvalue)

theorem Represents.readRow (h : Represents lib pgRes rs) {r : ℕ} {tuple : List (Option Bytes)}
    (htuple : rs.tuples[r]? = some tuple) :
    readRow lib pgRes (rs.fields.map Field.name) rs.fields.length r =
      .ok { columns := insertAll ∅ (entries rs.fields tuple) } := by
  have hwidth := rs.width tuple (List.mem_of_getElem? htuple)
  have hlength : (entries rs.fields tuple).length = rs.fields.length := by
    rw [entries, List.length_map, List.length_zip, hwidth, Nat.min_self]
  rw [Result.readRow, ← hlength, foldlM_range
    (fun columns entry => columns.insert entry.1 entry.2) (entries rs.fields tuple)]
  · rfl
  · intro columns c entry hentry
    rw [entries, List.getElem?_map, Option.map_eq_some_iff] at hentry
    rcases hentry with ⟨⟨f, value⟩, hzip, rfl⟩
    rcases List.getElem?_zip_eq_some.mp hzip with ⟨hf, hvalue⟩
    rw [h.readColum htuple hf hvalue, ok_bind, List.getElem?_map, hf]
    rfl

/-- The constructor makes a row of the entries of each tuple. -/
theorem Represents.ofResult (h : Represents lib pgRes rs) :
    Table.ofResult lib pgRes =
      .ok { rows := rs.tuples.map fun tuple => { columns := insertAll ∅ (entries rs.fields tuple) },
            pgRes := pgRes } := by
  rw [Table.ofResult, h.ntuples, h.nfields, Int.toNat_natCast, Int.toNat_natCast]
  simp only [h.colNames, ok_bind, mapM_range fun _ _ => h.readRow]
  rfl

theorem mem_names_entries {fields : List Field} {tuple : List (Option Bytes)}
    (hwidth : tuple.length = fields.length) (name : Bytes) :
    (∃ entry ∈ entries fields tuple, entry.1 = name) ↔ ∃ f ∈ fields, f.name = name := by
  have hnames : (entries fields tuple).map Prod.fst = fields.map Field.name := by
    calc (entries fields tuple).map Prod.fst
        = ((fields.zip tuple).map Prod.fst).map Field.name := by
          rw [entries, List.map_map, List.map_map]
          rfl
      _ = fields.map Field.name := by rw [List.map_fst_zip hwidth.ge]
  rw [← List.mem_map, hnames, List.mem_map]

theorem reproduces_ofResult (h : Represents lib pgRes rs) :
    ∃ t, Table.ofResult lib pgRes = .ok t ∧ Reproduces t rs := by
  refine ⟨_, h.ofResult, ?_⟩
  constructor
  case size => exact List.length_map _
  case found =>
    intro r row hrow name
    rw [List.getElem?_map, Option.map_eq_some_iff] at hrow
    rcases hrow with ⟨tuple, htuple, rfl⟩
    rw [lookup_insertAll_isSome, mem_names_entries (rs.width tuple (List.mem_of_getElem? htuple))]
  case cell =>
    intro r row tuple hrow htuple c f value hf hvalue hlast
    rw [List.getElem?_map, htuple] at hrow
    cases hrow
    apply lookup_insertAll_of_last
    apply last_of_getElem? (i := c)
    · have hzip : (rs.fields.zip tuple)[c]? = some (f, value) :=
        List.getElem?_zip_eq_some.mpr ⟨hf, hvalue⟩
      rw [entries, List.getElem?_map, hzip]
      rfl
    · intro c' entry hlater hentry
      rw [entries, List.getElem?_map, Option.map_eq_some_iff] at hentry
      rcases hentry with ⟨⟨f', value'⟩, hzip, rfl⟩
      exact hlast c' f' hlater (List.getElem?_zip_eq_some.mp hzip).1
  case reads =>
    intro row _ native T name
    exact row.get_eq native T name

/-- The value in a row and a column; nothing also where there is none. -/
def ResultSet.value (rs : ResultSet) (r c : ℕ) : Option Bytes :=
  (rs.tuples[r]?.bind fun tuple => tuple[c]?).join

/-- A libpq that holds the result itself, with a zero behind each value. -/
def reader : ResultReader ResultSet where
  ntuples rs := Int32.ofNat rs.tuples.length
  nfields rs := Int32.ofNat rs.fields.length
  fname rs c := rs.fields[c]?.map Field.name
  ftype rs c := (rs.fields[c]?.map Field.oid).getD 0
  getisnull rs r c := (rs.value r c).isNone
  getlength rs r c := Int32.ofNat ((rs.value r c).getD []).length
  getvalue rs r c := some ((rs.value r c).getD [] ++ [0])

/-- It represents every result whose sizes an `int` can hold. -/
theorem represents_reader (rs : ResultSet) (htuples : rs.tuples.length < 2 ^ 31)
    (hfields : rs.fields.length < 2 ^ 31)
    (hbytes : ∀ tuple ∈ rs.tuples, ∀ bytes, some bytes ∈ tuple → bytes.length < 2 ^ 31) :
    Represents reader rs rs := by
  have hvalue (r c : ℕ) (tuple : List (Option Bytes)) (value : Option Bytes)
      (htuple : rs.tuples[r]? = some tuple) (hvalue : tuple[c]? = some value) :
      rs.value r c = value := by
    rw [ResultSet.value, htuple, Option.bind_some, hvalue]
    rfl
  constructor
  case ntuples => exact Int32.toInt_ofNat_of_lt htuples
  case nfields => exact Int32.toInt_ofNat_of_lt hfields
  case fname =>
    intro c f hf
    simp [reader, hf]
  case ftype =>
    intro c f hf
    simp [reader, hf]
  case getisnull =>
    intro r c tuple value htuple hcell
    exact congrArg Option.isNone (hvalue r c tuple value htuple hcell)
  case getlength =>
    intro r c tuple bytes htuple hcell
    have hlen := hbytes tuple (List.mem_of_getElem? htuple) bytes (List.mem_of_getElem? hcell)
    change (Int32.ofNat ((rs.value r c).getD []).length).toInt = bytes.length
    rw [hvalue r c tuple _ htuple hcell]
    exact Int32.toInt_ofNat_of_lt hlen
  case getvalue =>
    intro r c tuple bytes htuple hcell
    refine ⟨[0], ?_⟩
    change some ((rs.value r c).getD [] ++ [0]) = some (bytes ++ [0])
    rw [hvalue r c tuple _ htuple hcell]
    rfl

/-- Two rows of a column `a` and two columns `b`. -/
def repeatedName : ResultSet where
  fields := [⟨[97], PgOid.int2⟩, ⟨[98], PgOid.text⟩, ⟨[98], PgOid.int2⟩]
  tuples := [[some [0, 7], some [104, 105], none], [none, some [], some [1, 2]]]
  width := by decide

theorem reproduces_repeatedName :
    ∃ t, Table.ofResult reader repeatedName = .ok t ∧ Reproduces t repeatedName :=
  reproduces_ofResult (represents_reader repeatedName (by decide) (by decide)
    (by simp [repeatedName]))

end PostgresLib.Result
