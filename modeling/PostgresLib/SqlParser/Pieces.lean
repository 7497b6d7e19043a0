import PostgresLib.SqlParser.Spelling

/-! # The splitter loses and invents no text

The reference works in two phases: cut the text at the semicolons outside of
literals and comments, then delete the comments and drop the pieces that hold
whitespace only. The splitter returns one statement for each piece that remains,
and the two differ only by whitespace outside of literals.
-/

namespace PostgresLib.SqlParser

/-- The text without the characters of a kind that stand outside of literals. Two quotes in a row
leave a literal and enter it again. -/
def dropOutside (p : Char → Bool) : Bool → List Char → List Char
  | _, [] => []
  | inside, c :: text =>
    if c = '\'' then c :: dropOutside p (!inside) text
    else if !inside && p c then dropOutside p inside text
    else c :: dropOutside p inside text

def isBlank (c : Char) : Bool := c = ' '

def literalsOf (text : List Char) : List Char := dropOutside (fun _ => true) false text

def isSemicolon (t : Tok) : Bool := t = .plain ';'

/-- The pieces of a text between its semicolons, without comments, that are not all whitespace. -/
def pieces (toks : List Tok) : List (List Tok) :=
  ((toks.splitOnP isSemicolon).map (List.filter fun t => !t.isComment)).filter
    fun piece => !(render piece).all isSpace

/-- What a token list holds besides comments and whitespace. -/
def strip (toks : List Tok) : List Tok := toks.filter Tok.solid

@[simp] theorem strip_nil : strip [] = [] := rfl

@[simp] theorem strip_append (a b : List Tok) : strip (a ++ b) = strip a ++ strip b :=
  List.filter_append ..

theorem strip_cons (t : Tok) (toks : List Tok) : strip (t :: toks) = strip [t] ++ strip toks :=
  strip_append [t] toks

namespace Spelling

theorem strip_current (s : Spelling) : strip s.current = strip s.toks := by
  unfold current
  cases s.space <;> simp [strip, Tok.solid, isSpace]

theorem strip_push (s : Spelling) (t : Tok) (hk : t.kept = true) (hs : t.solid = true) :
    strip (s.push t hk hs).toks = strip s.toks ++ strip [t] := by
  rw [push, strip_append, strip_current]

theorem strip_toks_eq_nil (s : Spelling) : strip s.toks = [] ↔ s.toks = [] := by
  constructor
  · intro h
    by_contra hne
    have hlast := s.last _ (List.getLast?_eq_getLast_of_ne_nil hne)
    simp only [strip, List.filter_eq_nil_iff] at h
    exact h _ (List.getLast_mem hne) hlast
  · rintro h
    rw [h, strip_nil]

/-- A token that is no semicolon adds itself, unless it is a comment or whitespace. -/
theorem strip_step (s : List (List Tok) × Spelling) (t : Tok) (h : isSemicolon t = false) :
    (step s t).1 = s.1 ∧ strip (step s t).2.toks = strip s.2.toks ++ strip [t] := by
  cases t with
  | literal body =>
    exact ⟨rfl, s.2.strip_push _ (Tok.kept_literal body) (Tok.solid_literal body)⟩
  | lineComment body => exact ⟨rfl, by simp [step, strip, Tok.solid]⟩
  | blockComment body => exact ⟨rfl, by simp [step, strip, Tok.solid]⟩
  | plain c =>
    by_cases hs : isSpace c = true
    · rw [step_space s hs]
      exact ⟨rfl, by simp [pushSpace, strip, Tok.solid, hs]⟩
    by_cases hp : c = ')'
    · subst hp
      rw [step_closeParen]
      exact ⟨rfl, s.2.dropSpace.strip_push _ Tok.kept_closeParen Tok.solid_closeParen⟩
    · have hc : c ≠ ';' := by simpa [isSemicolon] using h
      have hk : (Tok.plain c).kept = true := by simp [Tok.kept, hs, hc]
      have hs' : (Tok.plain c).solid = true := by simp [Tok.solid, hs]
      rw [step_push s _ hk hs' (by simp [hp])]
      exact ⟨rfl, s.2.strip_push _ hk hs'⟩

theorem strip_finish (s : Spelling) (statements : List (List Tok)) :
    (s.finish statements).map strip =
      statements.map strip ++ [strip s.toks].filter (· ≠ []) := by
  unfold finish
  by_cases h : s.toks = []
  · simp [h]
  · have h' : strip s.toks ≠ [] := fun hn => h (s.strip_toks_eq_nil.mp hn)
    simp [h, h']

end Spelling

theorem map_modifyHead_cons (t : Tok) (l : List (List Tok)) :
    (l.modifyHead (List.cons t)).map strip = (l.map strip).modifyHead (strip [t] ++ ·) := by
  cases l with
  | nil => rfl
  | cons ts l => simp [strip_cons t ts]

/-- The run, up to whitespace and comments, is the cutting at semicolons; the statement under
construction is the beginning of the first piece. -/
theorem strip_spell (s : List (List Tok) × Spelling) (toks : List Tok) :
    (spell s toks).map strip = s.1.map strip ++
      (((toks.splitOnP isSemicolon).map strip).modifyHead (strip s.2.toks ++ ·)).filter
        (· ≠ []) := by
  induction toks generalizing s with
  | nil => simp [spell_nil, s.2.strip_finish]
  | cons t toks ih =>
    rw [spell_cons, ih, List.splitOnP_cons_eq_if_modifyHead]
    by_cases ht : isSemicolon t = true
    · obtain rfl : t = .plain ';' := by simpa [isSemicolon] using ht
      rw [if_pos ht, Spelling.step_semicolon, s.2.strip_finish, List.append_assoc,
        ← List.filter_append]
      have hid : ∀ l : List (List Tok), l.modifyHead (strip Spelling.empty.toks ++ ·) = l := by
        intro l
        cases l <;> simp [Spelling.empty]
      simp [hid]
    · obtain ⟨hdone, htoks⟩ := Spelling.strip_step s t (by simpa using ht)
      rw [if_neg ht, hdone, htoks, map_modifyHead_cons]
      simp [List.modifyHead_modifyHead, Function.comp_def]

/-- The pieces, up to whitespace. -/
theorem strip_pieces (toks : List Tok) :
    (pieces toks).map strip = ((toks.splitOnP isSemicolon).map strip).filter (· ≠ []) := by
  have hstrip : ∀ ts, strip (ts.filter fun t => !t.isComment) = strip ts := by
    intro ts
    rw [strip, strip, List.filter_filter]
    congr 1
    ext t
    cases t <;> simp [Tok.solid, Tok.isComment]
  have hblank : ∀ ts : List Tok, (render (ts.filter fun t => !t.isComment)).all isSpace = true ↔
      strip ts = [] := by
    intro ts
    induction ts with
    | nil => simp
    | cons t ts ih =>
      cases t with
      | literal body => simp [Tok.isComment, Tok.text, strip, isSpace]
      | lineComment body => simpa [Tok.isComment, strip, Tok.solid] using ih
      | blockComment body => simpa [Tok.isComment, strip, Tok.solid] using ih
      | plain c =>
        by_cases hc : isSpace c = true
        · simpa [Tok.isComment, Tok.text, strip, Tok.solid, hc] using ih
        · simp [Tok.isComment, Tok.text, strip, Tok.solid, hc]
  rw [pieces]
  induction toks.splitOnP isSemicolon with
  | nil => rfl
  | cons ts l ih =>
    simp only [List.map_cons, List.filter_cons]
    by_cases hts : strip ts = []
    · have hall := (hblank ts).mpr hts
      simp only [hall, hts, Bool.not_true, Bool.false_eq_true, if_false, ne_eq, not_true_eq_false,
        decide_false]
      exact ih
    · have hall : (render (ts.filter fun t => !t.isComment)).all isSpace = false := by
        simpa using fun h => hts ((hblank ts).mp h)
      simp only [hall, hts, Bool.not_false, if_true, ne_eq, not_false_eq_true, decide_true,
        List.map_cons, hstrip]
      exact congrArg _ ih

/-- The splitter's statements and the pieces hold the same tokens besides whitespace. -/
theorem strip_statements (toks : List Tok) :
    (spell ([], Spelling.empty) toks).map strip = (pieces toks).map strip := by
  rw [strip_spell, strip_pieces]
  cases (toks.splitOnP isSemicolon).map strip <;> simp [Spelling.empty]

namespace Spelling

theorem kept_finish (s : List (List Tok) × Spelling) (h : ∀ ts ∈ s.1, ∀ t ∈ ts, t.kept = true) :
    ∀ ts ∈ s.2.finish s.1, ∀ t ∈ ts, t.kept = true := by
  intro ts hts
  unfold finish at hts
  split_ifs at hts
  · exact h ts hts
  · rcases List.mem_append.mp hts with hd | hc
    · exact h ts hd
    · rw [List.mem_singleton.mp hc]
      exact s.2.kept

theorem kept_spell (s : List (List Tok) × Spelling) (toks : List Tok)
    (h : ∀ ts ∈ s.1, ∀ t ∈ ts, t.kept = true) :
    ∀ ts ∈ spell s toks, ∀ t ∈ ts, t.kept = true := by
  induction toks generalizing s with
  | nil => exact kept_finish s h
  | cons t toks ih =>
    rw [spell_cons]
    apply ih
    by_cases ht : isSemicolon t = true
    · obtain rfl : t = .plain ';' := by simpa [isSemicolon] using ht
      rw [step_semicolon]
      exact kept_finish s h
    · rw [(strip_step s t (by simpa using ht)).1]
      exact h

end Spelling

theorem dropOutside_close (p : Char → Bool) (text body rest more : List Char)
    (h : closeLiteral text = some (body, rest)) :
    dropOutside p true (text ++ more) = body ++ '\'' :: dropOutside p false (rest ++ more) := by
  fun_induction closeLiteral text generalizing body with
  | case1 text ih =>
    obtain ⟨b, hc, rfl⟩ := split_of_map h fun _ => rfl
    simp [dropOutside, ih b hc]
  | case2 text hne =>
    obtain ⟨rfl, rfl⟩ := Prod.mk.inj (Option.some.inj h)
    simp [dropOutside]
  | case3 c text _ hne ih =>
    obtain ⟨b, hc, rfl⟩ := split_of_map h fun _ => rfl
    have hq : c ≠ '\'' := fun hq => hne hq
    simp [dropOutside, hq, ih b hc]
  | case4 => simp at h

def Tok.dropped (p : Char → Bool) : Tok → Bool
  | plain c => p c
  | _ => false

/-- On the text of closed tokens without comments, counting quotes finds the literals. -/
theorem dropOutside_render (p : Char → Bool) (toks : List Tok) (hc : ∀ t ∈ toks, t.Closed)
    (hn : ∀ t ∈ toks, t.isComment = false) :
    dropOutside p false (render toks) = render (toks.filter fun t => !t.dropped p) := by
  induction toks with
  | nil => rfl
  | cons t toks ih =>
    rw [List.forall_mem_cons] at hc hn
    have ih' := ih hc.2 hn.2
    cases t with
    | literal body =>
      have hclose := dropOutside_close p _ body [] (render toks) hc.1
      simp only [List.append_assoc, List.singleton_append, List.nil_append] at hclose
      simp [Tok.text, Tok.dropped, dropOutside, hclose, ih']
    | lineComment body => exact absurd hn.1 (by simp [Tok.isComment])
    | blockComment body => exact absurd hn.1 (by simp [Tok.isComment])
    | plain c =>
      have hq : c ≠ '\'' := hc.1
      cases hp : p c <;> simp [Tok.text, Tok.dropped, dropOutside, hq, hp, ih']

/-- The literals of a text are the literals of what is left of it. -/
theorem dropOutside_dropOutside (p : Char → Bool) (inside : Bool) (text : List Char) :
    dropOutside (fun _ => true) inside (dropOutside p inside text) =
      dropOutside (fun _ => true) inside text := by
  fun_induction dropOutside p inside text with
  | case1 => rfl
  | case2 inside text ih => simp [dropOutside, ih]
  | case3 inside c text hq hp ih => simp_all [dropOutside]
  | case4 inside c text hq hp ih => cases inside <;> simp_all [dropOutside]

theorem mem_strip {t : Tok} {toks : List Tok} : t ∈ strip toks ↔ t ∈ toks ∧ t.solid = true :=
  List.mem_filter

theorem mem_of_mem_splitOnP {p : Tok → Bool} {toks ts : List Tok} (h : ts ∈ toks.splitOnP p)
    {t : Tok} (ht : t ∈ ts) : t ∈ toks := by
  induction toks generalizing ts with
  | nil => simp_all
  | cons u toks ih =>
    rw [List.splitOnP_cons_eq_if_modifyHead] at h
    split_ifs at h
    · rcases List.mem_cons.mp h with rfl | h
      · simp at ht
      · exact List.mem_cons_of_mem _ (ih h ht)
    · obtain ⟨first, others, hf⟩ := List.exists_cons_of_ne_nil (List.splitOnP_ne_nil p toks)
      rw [hf, List.modifyHead_cons] at h
      rw [hf] at ih
      rcases List.mem_cons.mp h with rfl | h
      · rcases List.mem_cons.mp ht with rfl | ht
        · exact List.mem_cons_self
        · exact List.mem_cons_of_mem _ (ih List.mem_cons_self ht)
      · exact List.mem_cons_of_mem _ (ih (List.mem_cons_of_mem _ h) ht)

theorem mem_of_mem_pieces {toks piece : List Tok} (h : piece ∈ pieces toks) {t : Tok}
    (ht : t ∈ piece) : t ∈ toks ∧ t.isComment = false := by
  obtain ⟨ts, hts, rfl⟩ := List.mem_map.mp (List.mem_filter.mp h).1
  obtain ⟨ht, hc⟩ := List.mem_filter.mp ht
  exact ⟨mem_of_mem_splitOnP hts ht, by simpa using hc⟩

theorem dropOutside_piece {toks piece : List Tok} (hc : ∀ t ∈ toks, t.Closed)
    (h : piece ∈ pieces toks) :
    dropOutside isSpace false (render piece) = render (strip piece) := by
  rw [dropOutside_render isSpace piece (fun t ht => hc t (mem_of_mem_pieces h ht).1)
    (fun t ht => (mem_of_mem_pieces h ht).2)]
  congr 1
  apply List.filter_congr
  intro t ht
  have hn := (mem_of_mem_pieces h ht).2
  cases t <;> simp_all [Tok.dropped, Tok.solid, Tok.isComment]

theorem dropOutside_statement {toks ts : List Tok} (hc : ∀ t ∈ toks, t.Closed)
    (h : ts ∈ spell ([], Spelling.empty) toks) :
    dropOutside isBlank false (render ts) = render (strip ts) := by
  have hkept := Spelling.kept_spell ([], Spelling.empty) toks (by simp) ts h
  have hclosed : ∀ t ∈ ts, t.Closed := by
    intro t ht
    by_cases hs : t.solid = true
    · have hmem : strip ts ∈ (pieces toks).map strip := by
        rw [← strip_statements]
        exact List.mem_map_of_mem h
      obtain ⟨piece, hp, he⟩ := List.mem_map.mp hmem
      have ht' : t ∈ strip piece := he ▸ mem_strip.mpr ⟨ht, hs⟩
      exact hc t (mem_of_mem_pieces hp (mem_strip.mp ht').1).1
    · have hk := hkept t ht
      cases t with
      | literal body => simp at hs
      | lineComment body => simp [Tok.kept] at hk
      | blockComment body => simp [Tok.kept] at hk
      | plain c =>
        rintro rfl
        simp [Tok.solid, isSpace] at hs
  have hn : ∀ t ∈ ts, t.isComment = false := fun t ht => Tok.isComment_of_kept (hkept t ht)
  rw [dropOutside_render isBlank ts hclosed hn]
  congr 1
  apply List.filter_congr
  intro t ht
  have hk := hkept t ht
  cases t with
  | literal body => simp [Tok.dropped]
  | lineComment body => simp [Tok.kept] at hk
  | blockComment body => simp [Tok.kept] at hk
  | plain c =>
    by_cases hb : c = ' '
    · simp [Tok.dropped, Tok.solid, isBlank, hb, isSpace]
    · simp_all [Tok.dropped, Tok.solid, isBlank, Tok.kept]

/-- The statements are the pieces, in order and up to whitespace outside of literals; the literals
are the pieces' own. -/
theorem parseStatements_pieces (text : List Char) (toks : List Tok) (h : lex text = some toks) :
    (parseStatements text).map (dropOutside isBlank false) =
        (pieces toks).map (fun piece => dropOutside isSpace false (render piece)) ∧
      (parseStatements text).map literalsOf =
        (pieces toks).map (fun piece => literalsOf (render piece)) := by
  have hc := ((separated_iff toks).mp (lex_sound text toks h).2).1
  have hblank : (parseStatements text).map (dropOutside isBlank false) =
      (pieces toks).map fun piece => dropOutside isSpace false (render piece) := by
    calc (parseStatements text).map (dropOutside isBlank false)
        = ((spell ([], Spelling.empty) toks).map strip).map render := by
          rw [parseStatements_eq_spell text toks h, List.map_map, List.map_map]
          exact List.map_congr_left fun ts hts => dropOutside_statement hc hts
      _ = ((pieces toks).map strip).map render := by rw [strip_statements]
      _ = (pieces toks).map fun piece => dropOutside isSpace false (render piece) := by
          rw [List.map_map]
          exact List.map_congr_left fun piece hp => (dropOutside_piece hc hp).symm
  refine ⟨hblank, ?_⟩
  have hlit : ∀ p s, literalsOf (dropOutside p false s) = literalsOf s := fun p s =>
    dropOutside_dropOutside p false s
  have hmap := congrArg (List.map literalsOf) hblank
  simp only [List.map_map, Function.comp_def, hlit] at hmap
  exact hmap

/-- Two pieces: a semicolon and the markers of a comment inside of literals, a comment outside. -/
theorem parseStatements_pieces_two :
    (parseStatements ['a', ' ', '\'', ';', '/', '*', '\'', ' ', '-', '-', 'c', '\n', ';', 'b']).map
        (dropOutside isBlank false) = [['a', '\'', ';', '/', '*', '\''], ['b']] :=
  (parseStatements_pieces
    ['a', ' ', '\'', ';', '/', '*', '\'', ' ', '-', '-', 'c', '\n', ';', 'b']
    [.plain 'a', .plain ' ', .literal [';', '/', '*'], .plain ' ', .lineComment ['c'],
      .plain '\n', .plain ';', .plain 'b']
    (by decide +kernel)).1.trans (by decide +kernel)

end PostgresLib.SqlParser
