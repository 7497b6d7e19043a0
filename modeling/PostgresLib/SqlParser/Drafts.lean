import PostgresLib.SqlParser.Lexing

/-! # The statement under construction, and the splitter over tokens

The splitter keeps a statement as a string that may end in one space. Here the
space is a flag of its own: a draft is a text that neither starts nor ends with
whitespace, and a pending space that only a text which takes one can have. The
source's operations on the string are the draft's operations, and on a text that
lexes the character loop is a fold over its tokens.
-/

namespace PostgresLib.SqlParser

/-- A space may follow this text: it is not empty and does not end in an open parenthesis. -/
def takesSpace (text : List Char) : Bool := text ≠ [] && text.getLast? ≠ some '('

/-- A piece of a statement whose first and last characters are not whitespace. -/
def Solid (text : List Char) : Prop :=
  (∀ c ∈ text.head?, isSpace c = false) ∧ ∀ c ∈ text.getLast?, isSpace c = false

theorem dropWhile_of_head (text : List Char) (h : ∀ c ∈ text.head?, isSpace c = false) :
    text.dropWhile isSpace = text := by
  cases text with
  | nil => rfl
  | cons c text =>
    have hc := h c rfl
    simp [hc]

structure Draft where
  text : List Char
  space : Bool
  solid : Solid text
  room : space = true → takesSpace text = true

namespace Draft

/-- The string `current` of the source. -/
def current (d : Draft) : List Char := d.text ++ if d.space then [' '] else []

def empty : Draft where
  text := []
  space := false
  solid := by simp [Solid]
  room := by simp

@[simp] theorem empty_current : empty.current = [] := rfl

def pushSpace (d : Draft) : Draft where
  text := d.text
  space := takesSpace d.text
  solid := d.solid
  room := id

theorem text_ne_nil (d : Draft) (h : d.space = true) : d.text ≠ [] := by
  have := d.room h
  simp only [takesSpace, Bool.and_eq_true, decide_eq_true_eq] at this
  exact this.1

theorem solid_push (d : Draft) (piece : List Char) (hne : piece ≠ []) (hp : Solid piece) :
    Solid (d.current ++ piece) := by
  constructor
  · intro c hc
    by_cases ht : d.text = []
    · have hs : d.space = false := by
        by_contra hs
        exact d.text_ne_nil (by simpa using hs) ht
      simp only [current, ht, hs, List.nil_append, Bool.false_eq_true, if_false] at hc
      exact hp.1 c hc
    · apply d.solid.1 c
      obtain ⟨a, l, hl⟩ := List.exists_cons_of_ne_nil ht
      simpa [current, hl] using hc
  · intro c hc
    apply hp.2 c
    rwa [List.getLast?_append_of_ne_nil _ hne] at hc

/-- Append a piece behind the pending space. -/
def push (d : Draft) (piece : List Char) (hne : piece ≠ []) (hp : Solid piece) : Draft where
  text := d.current ++ piece
  space := false
  solid := d.solid_push piece hne hp
  room := by simp

/-- A closing parenthesis drops the pending space. -/
def closeParen (d : Draft) : Draft where
  text := d.text ++ [')']
  space := false
  solid := by
    constructor
    · intro c hc
      by_cases ht : d.text = []
      · obtain rfl : ')' = c := by simpa [ht] using hc
        decide
      · apply d.solid.1 c
        obtain ⟨a, l, hl⟩ := List.exists_cons_of_ne_nil ht
        simpa [hl] using hc
    · intro c hc
      obtain rfl : ')' = c := by simpa using hc
      decide
  room := by simp

def finish (d : Draft) (statements : List (List Char)) : List (List Char) :=
  if d.text = [] then statements else statements ++ [d.text]

theorem getLast?_current (d : Draft) :
    d.current.getLast? = if d.space then some ' ' else d.text.getLast? := by
  unfold current
  cases d.space <;> simp

theorem getLast?_text_ne_space (d : Draft) : d.text.getLast? ≠ some ' ' := fun h => by
  simpa [isSpace] using d.solid.2 ' ' (Option.mem_def.mpr h)

theorem pushSpace_current (d : Draft) : SqlParser.pushSpace d.current = d.pushSpace.current := by
  unfold SqlParser.pushSpace
  rw [d.getLast?_current]
  cases hs : d.space with
  | true =>
    have hroom := d.room hs
    simp [current, pushSpace, hs, hroom]
  | false =>
    have hne := d.getLast?_text_ne_space
    have hcur : d.current = d.text := by simp [current, hs]
    by_cases ht : takesSpace d.text = true
    · have ht' := ht
      simp only [takesSpace, Bool.and_eq_true, decide_eq_true_eq] at ht'
      rw [if_pos ⟨hcur ▸ ht'.1, hne, ht'.2⟩, hcur]
      simp [current, pushSpace, ht]
    · rw [if_neg, hcur]
      · simp [current, pushSpace, ht]
      · rintro ⟨hnil, -, hparen⟩
        apply ht
        simpa [takesSpace] using ⟨hcur ▸ hnil, hparen⟩

theorem pushCloseParen_current (d : Draft) : pushCloseParen d.current = d.closeParen.current := by
  unfold pushCloseParen
  rw [d.getLast?_current]
  have hne := d.getLast?_text_ne_space
  cases hs : d.space <;> simp [current, closeParen, hs, hne]

theorem push_current (d : Draft) (piece : List Char) (hne : piece ≠ []) (hp : Solid piece) :
    d.current ++ piece = (d.push piece hne hp).current := by
  simp [current, push]

theorem trim_current (d : Draft) : trim d.current = d.text := by
  have hhead : d.current.dropWhile isSpace = d.current := by
    apply dropWhile_of_head
    intro c hc
    apply d.solid.1 c
    cases hs : d.space with
    | false => simpa [current, hs] using hc
    | true =>
      obtain ⟨a, l, hl⟩ := List.exists_cons_of_ne_nil (d.text_ne_nil hs)
      simpa [current, hs, hl] using hc
  have hlast : d.text.reverse.dropWhile isSpace = d.text.reverse := by
    apply dropWhile_of_head
    rw [List.head?_reverse]
    exact d.solid.2
  rw [trim, hhead]
  cases hs : d.space with
  | false => simp [current, hs, hlast]
  | true => simp [current, hs, isSpace, hlast]

theorem flush_current (d : Draft) (statements : List (List Char)) :
    flush statements d.current = d.finish statements := by
  rw [flush, finish, d.trim_current]

theorem solid_literal (body : List Char) : Solid (Tok.literal body).text := by
  constructor
  · intro c hc
    obtain rfl : '\'' = c := by simpa [Tok.text] using hc
    decide
  · intro c hc
    have hl : (Tok.literal body).text.getLast? = some '\'' := by
      rw [Tok.text, ← List.cons_append, List.getLast?_append_of_ne_nil _ (by simp)]
      rfl
    obtain rfl : '\'' = c := Option.some.inj (hl.symm.trans hc)
    decide

theorem solid_singleton (c : Char) (h : isSpace c = false) : Solid [c] := by
  constructor <;> simpa using h

/-- What a token does to the statements and the draft. -/
def step (s : List (List Char) × Draft) : Tok → List (List Char) × Draft
  | .literal body =>
    (s.1, s.2.push (Tok.literal body).text (Tok.text_ne_nil _) (solid_literal body))
  | .lineComment _ => s
  | .blockComment _ => s
  | .plain c =>
    if h : isSpace c then (s.1, s.2.pushSpace)
    else if c = ')' then (s.1, s.2.closeParen)
    else if c = ';' then (s.2.finish s.1, empty)
    else (s.1, s.2.push [c] (List.cons_ne_nil _ _) (solid_singleton c (by simpa using h)))

end Draft

def runToks (s : List (List Char) × Draft) (toks : List Tok) : List (List Char) :=
  (toks.foldl Draft.step s).2.finish (toks.foldl Draft.step s).1

theorem runToks_nil (s : List (List Char) × Draft) : runToks s [] = s.2.finish s.1 := rfl

theorem runToks_cons (s : List (List Char) × Draft) (t : Tok) (toks : List Tok) :
    runToks s (t :: toks) = runToks (Draft.step s t) toks := rfl

theorem copyLiteral_of_close (text body rest : List Char)
    (h : closeLiteral text = some (body, rest)) :
    copyLiteral text = (body ++ ['\''], rest) := by
  fun_induction closeLiteral text generalizing body with
  | case1 text ih =>
    obtain ⟨b, hc, rfl⟩ := split_of_map h fun _ => rfl
    simp [copyLiteral, ih b hc]
  | case2 text hne =>
    obtain ⟨rfl, rfl⟩ := Prod.mk.inj (Option.some.inj h)
    rw [copyLiteral]
    · rfl
    · exact hne
  | case3 c text _ hne ih =>
    obtain ⟨b, hc, rfl⟩ := split_of_map h fun _ => rfl
    have hq : c ≠ '\'' := fun hq => hne hq
    rw [copyLiteral, ih b hc]
    · rfl
    · exact fun _ hc => absurd hc hq
    · exact hq
  | case4 => simp at h

theorem skipBlock_of_close (text body rest : List Char)
    (h : closeBlock text = some (body, rest)) : skipBlock text = rest := by
  fun_induction closeBlock text generalizing body with
  | case1 text =>
    obtain ⟨rfl, rfl⟩ := Prod.mk.inj (Option.some.inj h)
    rw [skipBlock]
  | case2 c text hne ih =>
    obtain ⟨b, hc, rfl⟩ := split_of_map h fun _ => rfl
    cases text with
    | nil => simp [closeBlock] at hc
    | cons d text =>
      rw [skipBlock, ih b hc]
      rintro hstar rfl
      exact hne text hstar rfl
  | case3 => simp at h

/-- The character loop over a token that ends where the rest begins. -/
theorem parseLoop_tok (t : Tok) (rest : List Char) (hc : t.Closed)
    (hends : ∀ c ∈ rest.head?, t.EndsAt c) (statements : List (List Char)) (d : Draft) :
    parseLoop statements d.current (t.text ++ rest) =
      parseLoop (Draft.step (statements, d) t).1 (Draft.step (statements, d) t).2.current rest := by
  cases t with
  | literal body =>
    have hclose := closeLiteral_of_closed _ body rest rfl hc (fun hq => hends '\'' hq rfl)
    rw [Draft.step]
    dsimp only
    rw [← d.push_current, Tok.text, List.cons_append, parseLoop, copyLiteral_of_close _ _ _ hclose]
    simp
  | lineComment body =>
    have hd := (takeWhile_line body rest hc hends).2
    have hskip : skipLine ('-' :: (body ++ rest)) = rest := by
      rw [skipLine, List.dropWhile_cons_of_pos (by simp [inLine]), hd]
    rw [Draft.step, Tok.text, List.cons_append, List.cons_append, parseLoop]
    simp [hskip]
  | blockComment body =>
    have hclose := closeBlock_of_closed body rest hc
    rw [Draft.step]
    simp only [Tok.text, List.cons_append, List.append_assoc, List.nil_append]
    rw [parseLoop]
    simp [skipBlock_of_close _ _ _ hclose]
  | plain c =>
    have hl : ¬ (c = '-' ∧ rest.head? = some '-') := fun h => (hends '-' h.2).1 ⟨h.1, rfl⟩
    have hb : ¬ (c = '/' ∧ rest.head? = some '*') := fun h => (hends '*' h.2).2 ⟨h.1, rfl⟩
    rw [Tok.text, List.cons_append, List.nil_append, parseLoop, if_neg hl, if_neg hb, if_neg hc,
      Draft.step]
    by_cases hs : isSpace c
    · rw [if_pos hs, dif_pos hs, d.pushSpace_current]
    · rw [if_neg hs, dif_neg hs]
      split_ifs
      · rw [d.pushCloseParen_current]
      · rw [d.flush_current, Draft.empty_current]
      · rw [d.push_current [c] (List.cons_ne_nil _ _) (Draft.solid_singleton c (by simpa using hs))]

/-- The character loop over the text of separated tokens is the fold over the tokens. -/
theorem parseLoop_append (toks : List Tok) (rest : List Char) (h : Separated toks)
    (hends : ∀ t ∈ toks.getLast?, ∀ c ∈ rest.head?, t.EndsAt c) (statements : List (List Char))
    (d : Draft) :
    parseLoop statements d.current (render toks ++ rest) =
      parseLoop (toks.foldl Draft.step (statements, d)).1
        (toks.foldl Draft.step (statements, d)).2.current rest := by
  rw [separated_iff] at h
  rcases h with ⟨hclosed, hchain⟩
  induction toks generalizing statements d with
  | nil => rfl
  | cons t toks ih =>
    have hfirst : ∀ c ∈ (render toks ++ rest).head?, t.EndsAt c := by
      intro c hc
      cases toks with
      | nil => exact hends t rfl c hc
      | cons u toks =>
        rw [List.head?_append, head?_render] at hc
        cases Option.mem_def.mp hc
        exact (List.isChain_cons_cons.mp hchain).1
    have hlast : ∀ u ∈ toks.getLast?, ∀ c ∈ rest.head?, u.EndsAt c := by
      intro u hu
      apply hends u
      rw [List.getLast?_cons, Option.mem_def.mp hu]
      rfl
    rw [render_cons, List.append_assoc,
      parseLoop_tok t _ (hclosed t List.mem_cons_self) hfirst statements d,
      ih hlast _ _ (fun u hu => hclosed u (List.mem_cons_of_mem t hu)) hchain.tail]
    rfl

/-- At the end of the text the current statement is finished. -/
theorem parseLoop_render (toks : List Tok) (h : Separated toks) (statements : List (List Char))
    (d : Draft) : parseLoop statements d.current (render toks) = runToks (statements, d) toks := by
  have hloop := parseLoop_append toks [] h (by simp) statements d
  rw [List.append_nil, parseLoop, Draft.flush_current] at hloop
  exact hloop

theorem parseStatements_of_lex (text : List Char) (toks : List Tok) (h : lex text = some toks) :
    parseStatements text = runToks ([], Draft.empty) toks := by
  obtain ⟨rfl, hsep⟩ := lex_sound text toks h
  rw [← parseLoop_render toks hsep, Draft.empty_current, parseStatements]

end PostgresLib.SqlParser
