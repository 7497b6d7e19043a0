import PostgresLib.Foundations.Agreement
import PostgresLib.Wire.Encoding

/-! # Packed parameters that are moved

The buffers of a `pg_param_detail` are pointers into its own strings, and on its way
to the server the object is moved into a request, into the queue and out of it. A
vector's strings stay where they are when the vector is moved. With the storage of
the vectors in view, the objects do what the values of `PgParamDetail` do, in which
a buffer is an index.
-/

namespace PostgresLib.Wire

open Foundations

/-! ## Storage and pointers -/

/-- What is at an address; nothing after it was given back. -/
def entry {α : Type} (l : List (Option α)) (i : ℕ) : Except Fault α :=
  match l[i]? with
  | some (some a) => .ok a
  | _ => .error .outOfBounds

/-- The storage of the vectors of strings. -/
abbrev Storage := List (Option (List Bytes))

namespace Storage

def release (h : Storage) (b : ℕ) : Except Fault Storage := do
  let _ ← entry h b
  return h.set b none

def assign (h : Storage) (b i : ℕ) (s : Bytes) : Except Fault Storage := do
  let text ← entry h b
  if i < text.length then return h.set b (some (text.set i s)) else .error .outOfBounds

end Storage

/-- The data pointer of a string: the vector's storage, and the index in it. -/
structure CharPtr where
  block : ℕ
  index : ℕ
  deriving DecidableEq

/-- `pg_param_detail` in memory. A vector without storage is empty. -/
structure StoredDetail where
  query : Bytes
  text : Option ℕ
  buffers : List (Option CharPtr)
  lengths : List Int32
  formats : List Int32
  deriving DecidableEq

namespace StoredDetail

/-- The default constructor, and what a move leaves behind. -/
def empty : StoredDetail := ⟨[], none, [], [], []⟩

/-- The constructor for `n` parameters, which allocates the storage of their strings. -/
def ofQuery (h : Storage) (query : Bytes) (n : ℕ) : Storage × StoredDetail :=
  (h ++ [some (List.replicate n [])],
    { query := query
      text := some h.length
      buffers := List.replicate n none
      lengths := List.replicate n 0
      formats := List.replicate n 0 })

def packParam (native : Endian) (h : Storage) (out : StoredDetail) (i : ℕ)
    (param : SupportedType) : Except Fault (Storage × StoredDetail) :=
  if param = .null then
    .ok (h, { out with
      formats := out.formats.set i 1
      buffers := out.buffers.set i none
      lengths := out.lengths.set i 0 })
  else do
    let text ← toBinary native param
    match out.text with
    | none => .error .outOfBounds
    | some b => do
      let h' ← h.assign b i text
      return (h', { out with
        formats := out.formats.set i 1
        buffers := out.buffers.set i (some ⟨b, i⟩)
        lengths := out.lengths.set i (Int32.ofNat text.length) })

def packParams (native : Endian) (i : ℕ) :
    List SupportedType → Storage × StoredDetail → Except Fault (Storage × StoredDetail)
  | [], out => .ok out
  | param :: params, out => do
    let out' ← packParam native out.1 out.2 i param
    packParams native (i + 1) params out'

/-- `MakePgParamBuffer`. -/
def make (native : Endian) (h : Storage) (query : Bytes) (params : List SupportedType) :
    Except Fault (Storage × StoredDetail) :=
  packParams native 0 params (ofQuery h query params.length)

def release (h : Storage) (d : StoredDetail) : Except Fault Storage :=
  match d.text with
  | none => .ok h
  | some b => h.release b

/-- The move constructor: the new object, and the other one after it. -/
def moveConstruct (other : StoredDetail) : StoredDetail × StoredDetail :=
  (⟨other.query, other.text, other.buffers, other.lengths, other.formats⟩, empty)

/-- The move assignment to another object gives back what the object had. -/
def moveAssign (h : Storage) (self other : StoredDetail) :
    Except Fault (Storage × StoredDetail × StoredDetail) := do
  let h' ← self.release h
  return (h', ⟨other.query, other.text, other.buffers, other.lengths, other.formats⟩, empty)

def strings (h : Storage) (d : StoredDetail) : Except Fault (List Bytes) :=
  match d.text with
  | none => .ok []
  | some b => entry h b

/-- What libpq reads for parameter `i`. -/
def read (h : Storage) (d : StoredDetail) (i : ℕ) : Except Fault (Option Bytes) :=
  match d.buffers[i]? with
  | none => .error .outOfBounds
  | some none => .ok none
  | some (some p) => do
    let text ← entry h p.block
    match text[p.index]? with
    | none => .error .outOfBounds
    | some s => .ok (some (s.take (d.lengths.getD i 0).toInt.toNat))

end StoredDetail

/-- The storage, and all objects in the order of their construction. -/
structure Memory where
  storage : Storage
  objects : List (Option StoredDetail)

/-- What is done with objects. They are named by the order of their construction. -/
inductive DetailOp where
  | make (query : Bytes) (params : List SupportedType)
  | construct (query : Bytes) (n : ℕ)
  | default
  | moveConstruct (other : ℕ)
  | moveAssign (self other : ℕ)
  | destroy (self : ℕ)

def Memory.apply (native : Endian) (m : Memory) : DetailOp → Except Fault Memory
  | .make query params => do
    let (h, d) ← StoredDetail.make native m.storage query params
    return ⟨h, m.objects ++ [some d]⟩
  | .construct query n =>
    let (h, d) := StoredDetail.ofQuery m.storage query n
    .ok ⟨h, m.objects ++ [some d]⟩
  | .default => .ok ⟨m.storage, m.objects ++ [some .empty]⟩
  | .moveConstruct other => do
    let d ← entry m.objects other
    return ⟨m.storage, m.objects.set other (some d.moveConstruct.2) ++ [some d.moveConstruct.1]⟩
  | .moveAssign self other => do
    let d ← entry m.objects self
    let d' ← entry m.objects other
    if self = other then return m
    else do
      let (h, e, e') ← d.moveAssign m.storage d'
      return ⟨h, (m.objects.set self (some e)).set other (some e')⟩
  | .destroy self => do
    let d ← entry m.objects self
    let h ← d.release m.storage
    return ⟨h, m.objects.set self none⟩

def applyValue (native : Endian) (vs : List (Option PgParamDetail)) :
    DetailOp → Except Fault (List (Option PgParamDetail))
  | .make query params => do
    let v ← makePgParamBuffer native query params
    return vs ++ [some v]
  | .construct query n => .ok (vs ++ [some (.ofQuery query n)])
  | .default => .ok (vs ++ [some (.ofQuery [] 0)])
  | .moveConstruct other => do
    let v ← entry vs other
    return vs.set other (some (.ofQuery [] 0)) ++ [some v]
  | .moveAssign self other => do
    let _ ← entry vs self
    let v' ← entry vs other
    if self = other then return vs
    else return (vs.set self (some v')).set other (some (.ofQuery [] 0))
  | .destroy self => do
    let _ ← entry vs self
    return vs.set self none

/-! ## The entries of a table -/

section Entries

variable {α : Type} {l : List (Option α)} {i j : ℕ} {a : α}

theorem entry_ok_iff : entry l i = .ok a ↔ l[i]? = some (some a) := by
  unfold entry
  rcases l[i]? with _ | _ | b <;> simp

theorem entry_lt (h : entry l i = .ok a) : i < l.length :=
  (List.getElem?_eq_some_iff.mp (entry_ok_iff.mp h)).1

theorem entry_append (l : List (Option α)) (a : α) (i : ℕ) :
    entry (l ++ [some a]) i = if i = l.length then .ok a else entry l i := by
  unfold entry
  rcases Nat.lt_trichotomy i l.length with hlt | rfl | hgt
  · rw [List.getElem?_append_left hlt, if_neg (Nat.ne_of_lt hlt)]
  · simp
  · rw [List.getElem?_append_right (Nat.le_of_lt hgt), if_neg (Nat.ne_of_gt hgt),
      List.getElem?_eq_none (Nat.le_of_lt hgt), List.getElem?_eq_none (by simp; omega)]

theorem entry_set (a : α) (hi : i < l.length) (j : ℕ) :
    entry (l.set i (some a)) j = if j = i then .ok a else entry l j := by
  unfold entry
  by_cases h : j = i
  · subst h
    rw [if_pos rfl, List.getElem?_set_self hi]
  · rw [if_neg h, List.getElem?_set_ne (Ne.symm h)]

theorem entry_set_none (l : List (Option α)) (i j : ℕ) :
    entry (l.set i none) j = if j = i then .error .outOfBounds else entry l j := by
  unfold entry
  by_cases h : j = i
  · subst h
    rw [if_pos rfl]
    by_cases hj : j < l.length
    · rw [List.getElem?_set_self hj]
    · rw [List.getElem?_eq_none (by simpa using hj)]
  · rw [if_neg h, List.getElem?_set_ne (Ne.symm h)]

end Entries

/-! ## What is in memory shows what the values are -/

/-- The object has the value's strings in its storage, and its pointers are those of these strings
that the value names. -/
structure Shows (h : Storage) (d : StoredDetail) (v : PgParamDetail) : Prop where
  query : d.query = v.query
  strings : d.strings h = .ok v.text
  buffers : d.buffers.map (Option.map CharPtr.index) = v.buffers
  own : ∀ p, some p ∈ d.buffers → d.text = some p.block ∧ p.index < v.text.length
  lengths : d.lengths = v.lengths
  formats : d.formats = v.formats

theorem shows_empty (h : Storage) : Shows h .empty (.ofQuery [] 0) where
  query := rfl
  strings := rfl
  buffers := rfl
  own := nofun
  lengths := rfl
  formats := rfl

/-- An object does not see what happens to storage that is not its own. -/
theorem Shows.frame {h h' : Storage} {d : StoredDetail} {v : PgParamDetail} (hd : Shows h d v)
    (hsame : ∀ b, d.text = some b → entry h' b = entry h b) : Shows h' d v where
  query := hd.query
  strings := by
    have hstrings := hd.strings
    unfold StoredDetail.strings at hstrings ⊢
    cases hb : d.text with
    | none =>
      rw [hb] at hstrings
      exact hstrings
    | some b =>
      rw [hb] at hstrings
      exact (hsame b hb).trans hstrings
  buffers := hd.buffers
  own := hd.own
  lengths := hd.lengths
  formats := hd.formats

/-- What libpq reads through the pointers is what the value says is sent. -/
theorem Shows.read {h : Storage} {d : StoredDetail} {v : PgParamDetail} (hd : Shows h d v) {i : ℕ}
    (hi : i < v.buffers.length) : d.read h i = .ok (v.sent i) := by
  have hlength : d.buffers.length = v.buffers.length := by
    rw [← hd.buffers, List.length_map]
  have hbuffer : v.buffers[i]? = (d.buffers[i]?).map (Option.map CharPtr.index) := by
    rw [← hd.buffers, List.getElem?_map]
  unfold StoredDetail.read PgParamDetail.sent
  rw [hbuffer, ← hd.lengths]
  cases hp : d.buffers[i]? with
  | none => exact absurd (List.getElem?_eq_none_iff.mp hp) (by omega)
  | some p =>
    cases p with
    | none => rfl
    | some p =>
      rcases hd.own p (List.mem_of_getElem? hp) with ⟨htext, hindex⟩
      have hstrings := hd.strings
      simp only [StoredDetail.strings, htext] at hstrings
      simp only [Option.map_some, hstrings, ok_bind, List.getElem?_eq_getElem hindex,
        List.getD_eq_getElem?_getD, Option.getD_some]

variable {native : Endian}

/-- A round of the packing loop on an object with storage does what it does on the value, and
touches no storage but its own. -/
theorem packParam_agrees {h : Storage} {d : StoredDetail} {v : PgParamDetail} {b i : ℕ}
    (hd : Shows h d v) (hb : d.text = some b) (hi : i < v.text.length) (param : SupportedType) :
    Agree (fun out v' => Shows out.1 out.2 v' ∧ out.2.text = some b ∧
        v'.text.length = v.text.length ∧ ∀ b', b' ≠ b → entry out.1 b' = entry h b')
      (d.packParam native h i param) (packParam native v i param) := by
  unfold StoredDetail.packParam packParam
  by_cases hnull : param = .null
  · rw [if_pos hnull, if_pos hnull]
    refine .ok ⟨?_, hb, rfl, fun _ _ => rfl⟩
    exact {
      query := hd.query
      strings := hd.strings
      buffers := by rw [List.map_set, hd.buffers]; rfl
      own := by
        intro p hp
        rcases List.mem_or_eq_of_mem_set hp with hold | hnew
        · exact hd.own p hold
        · cases hnew
      lengths := by rw [hd.lengths]
      formats := by rw [hd.formats] }
  · rw [if_neg hnull, if_neg hnull]
    cases htext : toBinary native param with
    | error e => exact .error e
    | ok text =>
      have hstrings := hd.strings
      simp only [StoredDetail.strings, hb] at hstrings
      have hlt := entry_lt hstrings
      simp only [ok_bind, hb, Storage.assign, hstrings, if_pos hi, pure_eq_ok]
      refine .ok ⟨?_, rfl, by simp, ?_⟩
      · exact {
          query := hd.query
          strings := by simp [StoredDetail.strings, entry_set _ hlt]
          buffers := by rw [List.map_set, hd.buffers]; rfl
          own := by
            intro p hp
            rw [List.length_set]
            rcases List.mem_or_eq_of_mem_set hp with hold | hnew
            · rw [← hb]
              exact hd.own p hold
            · cases hnew
              exact ⟨rfl, hi⟩
          lengths := by rw [hd.lengths]
          formats := by rw [hd.formats] }
      · intro b' hb'
        rw [entry_set _ hlt, if_neg hb']

theorem packParams_agrees (params : List SupportedType) {h : Storage} {d : StoredDetail}
    {v : PgParamDetail} {b i : ℕ} (hd : Shows h d v) (hb : d.text = some b)
    (hi : i + params.length = v.text.length) :
    Agree (fun out v' => Shows out.1 out.2 v' ∧ out.2.text = some b ∧
        ∀ b', b' ≠ b → entry out.1 b' = entry h b')
      (StoredDetail.packParams native i params (h, d)) (packParams native i params v) := by
  induction params generalizing h d v i with
  | nil => exact .ok ⟨hd, hb, fun _ _ => rfl⟩
  | cons param params ih =>
    rw [List.length_cons] at hi
    refine (packParam_agrees hd hb (by omega) param).bind ?_
    rintro ⟨h', d'⟩ v' - - ⟨hd', hb', htext, hothers⟩
    refine (ih hd' hb' (by omega)).mono ?_
    rintro out v'' - - ⟨hout, hbout, hothers'⟩
    exact ⟨hout, hbout, fun b' hne => (hothers' b' hne).trans (hothers b' hne)⟩

theorem shows_ofQuery (h : Storage) (query : Bytes) (n : ℕ) :
    Shows (StoredDetail.ofQuery h query n).1 (StoredDetail.ofQuery h query n).2
      (.ofQuery query n) where
  query := rfl
  strings := by
    simp [StoredDetail.ofQuery, StoredDetail.strings, entry_append, PgParamDetail.ofQuery]
  buffers := by simp [StoredDetail.ofQuery, PgParamDetail.ofQuery]
  own := by
    intro p hp
    cases List.eq_of_mem_replicate hp
  lengths := rfl
  formats := rfl

/-- A new object has storage of its own. -/
theorem make_agrees (h : Storage) (query : Bytes) (params : List SupportedType) :
    Agree (fun out v => Shows out.1 out.2 v ∧ out.2.text = some h.length ∧
        ∀ b, b ≠ h.length → entry out.1 b = entry h b)
      (StoredDetail.make native h query params) (makePgParamBuffer native query params) := by
  refine (packParams_agrees params (shows_ofQuery h query params.length) rfl ?_).mono ?_
  · simp [PgParamDetail.ofQuery]
  · rintro out v - - ⟨hd, hb, hothers⟩
    refine ⟨hd, hb, ?_⟩
    intro b hne
    rw [hothers b hne]
    simp only [StoredDetail.ofQuery, entry_append, if_neg hne]

/-! ## Every sequence of operations -/

/-- Every object shows its value, no storage has two owners, and what has not been given back has
one. -/
structure Mirrors (m : Memory) (vs : List (Option PgParamDetail)) : Prop where
  length : m.objects.length = vs.length
  shows : ∀ i, Agree (Shows m.storage) (entry m.objects i) (entry vs i)
  separate : ∀ i j d d' b, entry m.objects i = .ok d → entry m.objects j = .ok d' →
    d.text = some b → d'.text = some b → i = j
  owned : ∀ b text, entry m.storage b = .ok text →
    ∃ i d, entry m.objects i = .ok d ∧ d.text = some b

variable {m : Memory} {vs : List (Option PgParamDetail)} {i j : ℕ} {d : StoredDetail}

/-- Storage that an object owns has not been given back. -/
theorem Mirrors.entry_lt {b : ℕ} (hm : Mirrors m vs) (hd : entry m.objects i = .ok d)
    (hb : d.text = some b) : b < m.storage.length := by
  have hshows := hm.shows i
  rw [hd] at hshows
  rcases hshows.exists_ok with ⟨v, -, hv⟩
  have hstrings := hv.strings
  simp only [StoredDetail.strings, hb] at hstrings
  exact Wire.entry_lt hstrings

theorem mirrors_fresh {h : Storage} {v : PgParamDetail} (hm : Mirrors m vs) (hd : Shows h d v)
    (hb : d.text = some m.storage.length)
    (hothers : ∀ b, b ≠ m.storage.length → entry h b = entry m.storage b) :
    Mirrors ⟨h, m.objects ++ [some d]⟩ (vs ++ [some v]) where
  length := by simp [hm.length]
  shows := by
    intro i
    rw [entry_append, entry_append, hm.length]
    split_ifs
    · exact .ok hd
    · refine (hm.shows i).mono fun d' v' hi _ hd' => hd'.frame fun b hb' => hothers b ?_
      exact Nat.ne_of_lt (hm.entry_lt hi hb')
  separate := by
    intro i j e e' b hi hj hbi hbj
    rw [entry_append] at hi hj
    split_ifs at hi hj with hinew hjnew
    · rw [hinew, hjnew]
    · cases hi
      rw [hb] at hbi
      cases hbi
      exact absurd (hm.entry_lt hj hbj) (Nat.lt_irrefl _)
    · cases hj
      rw [hb] at hbj
      cases hbj
      exact absurd (hm.entry_lt hi hbi) (Nat.lt_irrefl _)
    · exact hm.separate i j e e' b hi hj hbi hbj
  owned := by
    intro b text hentry
    by_cases hnew : b = m.storage.length
    · refine ⟨m.objects.length, d, ?_, hnew ▸ hb⟩
      rw [entry_append, if_pos rfl]
    · rw [hothers b hnew] at hentry
      rcases hm.owned b text hentry with ⟨i, e, hi, hbi⟩
      refine ⟨i, e, ?_, hbi⟩
      rw [entry_append, if_neg (Nat.ne_of_lt (Wire.entry_lt hi))]
      exact hi

theorem mirrors_default (hm : Mirrors m vs) :
    Mirrors ⟨m.storage, m.objects ++ [some .empty]⟩ (vs ++ [some (.ofQuery [] 0)]) where
  length := by simp [hm.length]
  shows := by
    intro i
    rw [entry_append, entry_append, hm.length]
    split_ifs
    · exact .ok (shows_empty _)
    · exact hm.shows i
  separate := by
    intro i j e e' b hi hj hbi hbj
    rw [entry_append] at hi hj
    split_ifs at hi hj
    · cases hi
      cases hbi
    · cases hi
      cases hbi
    · cases hj
      cases hbj
    · exact hm.separate i j e e' b hi hj hbi hbj
  owned := by
    intro b text hentry
    rcases hm.owned b text hentry with ⟨i, e, hi, hbi⟩
    refine ⟨i, e, ?_, hbi⟩
    rw [entry_append, if_neg (Nat.ne_of_lt (Wire.entry_lt hi))]
    exact hi

theorem mirrors_clear (hm : Mirrors m vs) (hi : entry m.objects i = .ok d) :
    ∃ h, d.release m.storage = .ok h ∧
      Mirrors ⟨h, m.objects.set i (some .empty)⟩ (vs.set i (some (.ofQuery [] 0))) := by
  have hlt := Wire.entry_lt hi
  have hltv : i < vs.length := hm.length ▸ hlt
  have hreleased : ∃ h, d.release m.storage = .ok h ∧
      (∀ b, d.text ≠ some b → entry h b = entry m.storage b) ∧
      ∀ b, d.text = some b → entry h b = .error .outOfBounds := by
    have hshows := hm.shows i
    rw [hi] at hshows
    rcases hshows.exists_ok with ⟨v, -, hv⟩
    have hstrings := hv.strings
    unfold StoredDetail.release StoredDetail.strings at *
    cases hb : d.text with
    | none => exact ⟨m.storage, rfl, fun _ _ => rfl, nofun⟩
    | some b =>
      simp only [hb] at hstrings
      refine ⟨m.storage.set b none, ?_, ?_, ?_⟩
      · simp only [Storage.release, hstrings, ok_bind, pure_eq_ok]
      · intro b' hne
        rw [entry_set_none, if_neg fun heq => hne (by rw [heq])]
      · rintro b' ⟨⟩
        rw [entry_set_none, if_pos rfl]
  rcases hreleased with ⟨h, hrelease, hothers, hown⟩
  refine ⟨h, hrelease, ?_⟩
  exact {
    length := by simp [hm.length]
    shows := by
      intro j
      rw [entry_set _ hlt, entry_set _ hltv]
      split_ifs with hji
      · exact .ok (shows_empty _)
      · refine (hm.shows j).mono fun e v hj _ he => he.frame fun b hb => hothers b ?_
        exact fun hb' => hji (hm.separate j i e d b hj hi hb hb')
    separate := by
      intro j k e e' b hj hk hbj hbk
      rw [entry_set _ hlt] at hj hk
      split_ifs at hj hk
      · cases hj
        cases hbj
      · cases hj
        cases hbj
      · cases hk
        cases hbk
      · exact hm.separate j k e e' b hj hk hbj hbk
    owned := by
      intro b text hentry
      by_cases hb : d.text = some b
      · rw [hown b hb] at hentry
        cases hentry
      · rw [hothers b hb] at hentry
        rcases hm.owned b text hentry with ⟨j, e, hj, hbj⟩
        refine ⟨j, e, ?_, hbj⟩
        rw [entry_set _ hlt, if_neg]
        · exact hj
        · rintro rfl
          rw [hi] at hj
          cases hj
          exact hb hbj }

theorem mirrors_transfer {v : PgParamDetail} (hm : Mirrors m vs)
    (hi : entry m.objects i = .ok .empty) (hj : entry m.objects j = .ok d)
    (hv : entry vs j = .ok v) (hij : i ≠ j) :
    Mirrors ⟨m.storage, (m.objects.set i (some d)).set j (some .empty)⟩
      ((vs.set i (some v)).set j (some (.ofQuery [] 0))) := by
  have hlt := Wire.entry_lt hi
  have hltj := Wire.entry_lt hj
  have hltv : i < vs.length := hm.length ▸ hlt
  have hltvj : j < vs.length := hm.length ▸ hltj
  have hobjects : ∀ k, entry ((m.objects.set i (some d)).set j (some .empty)) k =
      if k = j then .ok .empty else if k = i then .ok d else entry m.objects k := by
    intro k
    rw [entry_set _ (by simpa using hltj), entry_set _ hlt]
  have hvalues : ∀ k, entry ((vs.set i (some v)).set j (some (.ofQuery [] 0))) k =
      if k = j then .ok (.ofQuery [] 0) else if k = i then .ok v else entry vs k := by
    intro k
    rw [entry_set _ (by simpa using hltvj), entry_set _ hltv]
  -- where what an object owns was before
  have hcame : ∀ k e b,
      entry ((m.objects.set i (some d)).set j (some .empty)) k = .ok e → e.text = some b →
        entry m.objects (if k = i then j else k) = .ok e ∧ k ≠ j := by
    intro k e b hk hb
    rw [hobjects] at hk
    by_cases hkj : k = j
    · rw [if_pos hkj] at hk
      cases hk
      cases hb
    · rw [if_neg hkj] at hk
      refine ⟨?_, hkj⟩
      split_ifs at hk ⊢
      · cases hk
        exact hj
      · exact hk
  exact {
    length := by simp [hm.length]
    shows := by
      intro k
      rw [hobjects, hvalues]
      split_ifs
      · exact .ok (shows_empty _)
      · have hshows := hm.shows j
        rwa [hj, hv] at hshows
      · exact hm.shows k
    separate := by
      intro k l e e' b hk hl hbk hbl
      rcases hcame k e b hk hbk with ⟨hk', hkj⟩
      rcases hcame l e' b hl hbl with ⟨hl', hlj⟩
      have hsame := hm.separate _ _ e e' b hk' hl' hbk hbl
      split_ifs at hsame with hki hli hli
      · rw [hki, hli]
      · exact absurd hsame.symm hlj
      · exact absurd hsame hkj
      · exact hsame
    owned := by
      intro b text hentry
      rcases hm.owned b text hentry with ⟨k, e, hk, hbk⟩
      by_cases hkj : k = j
      · subst hkj
        refine ⟨i, e, ?_, hbk⟩
        rw [hobjects, if_neg hij, if_pos rfl, ← hj]
        exact hk
      · refine ⟨k, e, ?_, hbk⟩
        rw [hobjects, if_neg hkj, if_neg]
        · exact hk
        · rintro rfl
          rw [hi] at hk
          cases hk
          cases hbk }

theorem mirrors_drop (hm : Mirrors m vs) (hi : entry m.objects i = .ok .empty) :
    Mirrors ⟨m.storage, m.objects.set i none⟩ (vs.set i none) where
  length := by simp [hm.length]
  shows := by
    intro j
    rw [entry_set_none, entry_set_none]
    split_ifs
    · exact .error _
    · exact hm.shows j
  separate := by
    intro j k e e' b hj hk hbj hbk
    rw [entry_set_none] at hj hk
    split_ifs at hj hk
    exact hm.separate j k e e' b hj hk hbj hbk
  owned := by
    intro b text hentry
    rcases hm.owned b text hentry with ⟨j, e, hj, hbj⟩
    refine ⟨j, e, ?_, hbj⟩
    rw [entry_set_none, if_neg]
    · exact hj
    · rintro rfl
      rw [hi] at hj
      cases hj
      cases hbj

theorem set_moved {α : Type} (l : List α) (x y z : α) (hi : i < l.length) :
    ((l ++ [x]).set l.length y).set i z = l.set i z ++ [y] := by
  rw [List.set_append_right _ _ (Nat.le_refl _), Nat.sub_self, List.set_cons_zero,
    List.set_append_left _ _ hi]

/-- Objects in memory do what their values do. -/
theorem apply_mirrors (hm : Mirrors m vs) (op : DetailOp) :
    Agree Mirrors (m.apply native op) (applyValue native vs op) := by
  cases op with
  | make query params =>
    refine (make_agrees m.storage query params).bind ?_
    rintro ⟨h, d⟩ v - - ⟨hd, hb, hothers⟩
    exact .ok (mirrors_fresh hm hd hb hothers)
  | construct query n =>
    refine .ok (mirrors_fresh hm (shows_ofQuery m.storage query n) rfl ?_)
    intro b hne
    simp only [entry_append, if_neg hne]
  | default => exact .ok (mirrors_default hm)
  | moveConstruct other =>
    refine (hm.shows other).bind ?_
    intro d v hd hv _
    have hlt := Wire.entry_lt hd
    have hmoved := mirrors_transfer (mirrors_default hm) (i := m.objects.length) (j := other)
      (d := d) (v := v) ?_ ?_ ?_ (Nat.ne_of_gt hlt)
    · rw [set_moved _ _ _ _ hlt, hm.length, set_moved _ _ _ _ (hm.length ▸ hlt)] at hmoved
      exact .ok hmoved
    · rw [entry_append, if_pos rfl]
    · rw [entry_append, if_neg (Nat.ne_of_lt hlt)]
      exact hd
    · rw [entry_append, ← hm.length, if_neg (Nat.ne_of_lt hlt)]
      exact hv
  | moveAssign self other =>
    refine (hm.shows self).bind ?_
    intro d v hd hv _
    refine (hm.shows other).bind ?_
    intro d' v' hd' hv' _
    split_ifs with hsame
    · exact .ok hm
    · rcases mirrors_clear hm hd with ⟨h, hrelease, hcleared⟩
      have hlt := Wire.entry_lt hd
      have hmoved := mirrors_transfer hcleared (i := self) (j := other) (d := d') (v := v') ?_ ?_ ?_
        hsame
      · simp only [List.set_set] at hmoved
        simp only [StoredDetail.moveAssign, hrelease, ok_bind, pure_eq_ok]
        exact .ok hmoved
      · rw [entry_set _ hlt, if_pos rfl]
      · rw [entry_set _ hlt, if_neg (Ne.symm hsame)]
        exact hd'
      · rw [entry_set _ (hm.length ▸ hlt), if_neg (Ne.symm hsame)]
        exact hv'
  | destroy self =>
    refine (hm.shows self).bind ?_
    intro d v hd hv _
    rcases mirrors_clear hm hd with ⟨h, hrelease, hcleared⟩
    have hdropped := mirrors_drop hcleared (i := self) ?_
    · simp only [List.set_set] at hdropped
      simp only [hrelease, ok_bind, pure_eq_ok]
      exact .ok hdropped
    · rw [entry_set _ (Wire.entry_lt hd), if_pos rfl]

variable (native)

def runStored (ops : List DetailOp) : Except Fault Memory :=
  ops.foldlM (Memory.apply native) ⟨[], []⟩

def runValues (ops : List DetailOp) : Except Fault (List (Option PgParamDetail)) :=
  ops.foldlM (applyValue native) []

variable {native}

theorem mirrors_nothing : Mirrors ⟨[], []⟩ [] where
  length := rfl
  shows := fun _ => .error _
  separate := nofun
  owned := nofun

/-- Every object gives libpq what its value says, through pointers into strings that it alone owns,
and what is still allocated has an owner. -/
structure Delivers (m : Memory) (vs : List (Option PgParamDetail)) : Prop where
  arguments : ∀ i, Agree (fun d v => d.query = v.query ∧ d.buffers.length = v.buffers.length ∧
    d.lengths = v.lengths ∧ d.formats = v.formats ∧
      ∀ k < v.buffers.length, d.read m.storage k = .ok (v.sent k)) (entry m.objects i) (entry vs i)
  pointers : ∀ i d p, entry m.objects i = .ok d → some p ∈ d.buffers → d.text = some p.block
  separate : ∀ i j d d' b, entry m.objects i = .ok d → entry m.objects j = .ok d' →
    d.text = some b → d'.text = some b → i = j
  allocated : ∀ b, (∃ text, entry m.storage b = .ok text) ↔
    ∃ i d, entry m.objects i = .ok d ∧ d.text = some b

theorem Mirrors.delivers (hm : Mirrors m vs) : Delivers m vs where
  arguments i := (hm.shows i).mono fun d v _ _ hd =>
    ⟨hd.query, by rw [← hd.buffers, List.length_map], hd.lengths, hd.formats,
      fun _ hk => hd.read hk⟩
  pointers := by
    intro i d p hi hp
    have hshows := hm.shows i
    rw [hi] at hshows
    rcases hshows.exists_ok with ⟨v, -, hv⟩
    exact (hv.own p hp).1
  separate := hm.separate
  allocated := by
    intro b
    constructor
    · rintro ⟨text, hentry⟩
      exact hm.owned b text hentry
    · rintro ⟨i, d, hi, hb⟩
      have hshows := hm.shows i
      rw [hi] at hshows
      rcases hshows.exists_ok with ⟨v, -, hv⟩
      have hstrings := hv.strings
      simp only [StoredDetail.strings, hb] at hstrings
      exact ⟨v.text, hstrings⟩

/-- Whatever is done with objects, they go wrong only when a value cannot be encoded or an object is
used that is not there, and what libpq is given is what it is given of the values. -/
theorem moved_delivers (native : Endian) (ops : List DetailOp) :
    Agree Delivers (runStored native ops) (runValues native ops) := by
  have hmirrors : Agree Mirrors (runStored native ops) (runValues native ops) :=
    Agree.foldlM (fun _ _ op hm => apply_mirrors hm op) ops mirrors_nothing
  exact hmirrors.mono fun _ _ _ _ hm => hm.delivers

/-- A request on its way through the queue; at its end nothing is allocated. -/
example :
    (runStored .little [.make [81] [.string [65], .null], .moveConstruct 0, .moveConstruct 1,
      .destroy 1, .destroy 0, .default, .moveAssign 3 2, .destroy 2, .destroy 3]).map
        Memory.storage = .ok [none] := by
  rfl

end PostgresLib.Wire
