import PostgresLib.SqlParser.OpenComment

/-! # Texts put together with semicolons

The splitter keeps nothing but the current statement, and a semicolon outside of
literals and comments ends it. So the statements of texts that are put together with
semicolons are those of the texts, whatever the last one looks like.
-/

namespace PostgresLib.SqlParser

theorem flush_append (done statements : List (List Char)) (current : List Char) :
    flush (done ++ statements) current = done ++ flush statements current := by
  unfold flush
  split_ifs
  · rfl
  · rw [List.append_assoc]

/-- The statements found so far do not change what is found. -/
theorem parseLoop_done (done statements : List (List Char)) (current text : List Char) :
    parseLoop (done ++ statements) current text = done ++ parseLoop statements current text := by
  fun_induction parseLoop statements current text with
  | case1 statements current =>
    rw [parseLoop]
    exact flush_append done statements current
  | case2 statements current c rest h ih => rw [parseLoop, if_pos h, ih]
  | case3 statements current c rest h h₁ ih => rw [parseLoop, if_neg h, if_pos h₁, ih]
  | case4 statements current rest h h₁ ih =>
    rw [parseLoop, if_neg h, if_neg h₁, if_pos rfl, ih]
  | case5 statements current c rest h h₁ h₂ h₃ ih =>
    rw [parseLoop, if_neg h, if_neg h₁, if_neg h₂, if_pos h₃, ih]
  | case6 statements current rest h h₁ h₂ h₃ ih =>
    rw [parseLoop, if_neg h, if_neg h₁, if_neg h₂, if_neg h₃, if_pos rfl, ih]
  | case7 statements current rest h h₁ h₂ h₃ h₄ ih =>
    rw [parseLoop, if_neg h, if_neg h₁, if_neg h₂, if_neg h₃, if_neg h₄, if_pos rfl, flush_append,
      ih]
  | case8 statements current c rest h h₁ h₂ h₃ h₄ h₅ ih =>
    rw [parseLoop, if_neg h, if_neg h₁, if_neg h₂, if_neg h₃, if_neg h₄, if_neg h₅, ih]

theorem endsAt_semicolon {t : Tok} (h : ∀ body, t ≠ .lineComment body) : t.EndsAt ';' := by
  cases t with
  | literal body => exact (by decide : ';' ≠ '\'')
  | lineComment body => exact absurd rfl (h body)
  | blockComment body => trivial
  | plain c => exact ⟨fun hd => absurd hd.2 (by decide), fun hd => absurd hd.2 (by decide)⟩

/-- A semicolon behind a text that ends outside of literals and comments. -/
theorem parseStatements_semicolon {p : List Char} (hp : EndsOutside p) (q : List Char) :
    parseStatements (p ++ ';' :: q) = parseStatements p ++ parseStatements q := by
  rcases hp with ⟨toks, hlex, hlast⟩
  have hp := parseStatements_of_lex p toks hlex
  rcases lex_sound p toks hlex with ⟨rfl, hsep⟩
  have hends : ∀ t ∈ toks.getLast?, ∀ a ∈ (';' :: q).head?, t.EndsAt a := by
    intro t ht a ha
    cases Option.mem_def.mp ha
    exact endsAt_semicolon (hlast t ht)
  have hloop := parseLoop_append toks (';' :: q) hsep hends [] Draft.empty
  rw [Draft.empty_current] at hloop
  rw [parseStatements, hloop, parseLoop, hp, runToks, parseStatements]
  simp only [Char.reduceEq, false_and, if_false, if_true, isSpace, decide_false, Bool.or_false,
    Bool.false_eq_true]
  rw [Draft.flush_current, ← parseLoop_done, List.append_nil]

/-- The statements of texts with semicolons between them. All texts but the last have to end
outside of literals and comments. -/
theorem parseStatements_intercalate (texts : List (List Char))
    (h : ∀ p ∈ texts.dropLast, EndsOutside p) :
    parseStatements ([';'].intercalate texts) = texts.flatMap parseStatements := by
  induction texts with
  | nil => decide +kernel
  | cons p texts ih =>
    by_cases hnil : texts = []
    · subst hnil
      simp
    · have hp : EndsOutside p := h p (by rw [List.dropLast_cons_of_ne_nil hnil]; simp)
      have htexts : ∀ q ∈ texts.dropLast, EndsOutside q := fun q hq =>
        h q (by rw [List.dropLast_cons_of_ne_nil hnil]; exact List.mem_cons_of_mem p hq)
      rw [List.intercalate_cons_of_ne_nil hnil, List.append_assoc, List.singleton_append,
        parseStatements_semicolon hp, ih htexts, List.flatMap_cons]

/-- A literal, and behind it an open block comment. -/
theorem parseStatements_intercalate_two :
    parseStatements ([';'].intercalate [['\'', ';', '\''], ['a', '/', '*', ';', ' ']]) =
      parseStatements ['\'', ';', '\''] ++ parseStatements ['a', '/', '*', ';', ' '] := by
  have hends : EndsOutside ['\'', ';', '\''] := ⟨[.literal [';']], by decide +kernel, by simp⟩
  have htexts := parseStatements_intercalate [['\'', ';', '\''], ['a', '/', '*', ';', ' ']]
    (by simpa using hends)
  rw [htexts]
  simp

end PostgresLib.SqlParser
