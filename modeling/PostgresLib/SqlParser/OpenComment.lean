import PostgresLib.SqlParser.Drafts

/-! # Block comments that stay open

The skip of a block comment looks one character ahead, so that in an open comment it
stops before the last character, and that character is read as SQL. It leaves no
trace only when it is whitespace or ends a statement.
-/

namespace PostgresLib.SqlParser

/-- The text ends outside of every literal and every comment. -/
def EndsOutside (text : List Char) : Prop :=
  ∃ toks, lex text = some toks ∧ ∀ t ∈ toks.getLast?, ∀ body, t ≠ .lineComment body

/-- Without a closing marker the skip leaves the last character. -/
theorem skipBlock_of_open (text : List Char) (h : ¬ ['*', '/'] <:+: text) :
    skipBlock text = text.getLast?.toList := by
  fun_induction skipBlock text with
  | case1 rest => exact absurd (List.prefix_append ['*', '/'] rest).isInfix h
  | case2 d c rest hne ih =>
    have htail : ¬ ['*', '/'] <:+: c :: rest :=
      fun hc => h (hc.trans (List.suffix_cons d (c :: rest)).isInfix)
    rw [ih htail, List.getLast?_cons_cons]
  | case3 rest _ hshort =>
    rcases rest with - | ⟨c, - | ⟨c', rest⟩⟩
    · rfl
    · rfl
    · exact absurd rfl (hshort c c' rest)

theorem endsAt_slash {t : Tok} (h : ∀ body, t ≠ .lineComment body) : t.EndsAt '/' := by
  cases t with
  | literal body => exact (by decide : '/' ≠ '\'')
  | lineComment body => exact absurd rfl (h body)
  | blockComment body => trivial
  | plain c => exact ⟨fun hd => absurd hd.2 (by decide), fun hd => absurd hd.2 (by decide)⟩

/-- An open comment behind a text that ends outside of literals and comments: the loop goes on
with the comment's last character. -/
theorem parseStatements_openComment (p c : List Char) (toks : List Tok) (hlex : lex p = some toks)
    (hlast : ∀ t ∈ toks.getLast?, ∀ body, t ≠ .lineComment body) (hc : ¬ ['*', '/'] <:+: c) :
    parseStatements (p ++ '/' :: '*' :: c) =
      parseLoop (toks.foldl Draft.step ([], Draft.empty)).1
        (toks.foldl Draft.step ([], Draft.empty)).2.current c.getLast?.toList := by
  rcases lex_sound p toks hlex with ⟨rfl, hsep⟩
  have hends : ∀ t ∈ toks.getLast?, ∀ a ∈ ('/' :: '*' :: c).head?, t.EndsAt a := by
    intro t ht a ha
    cases Option.mem_def.mp ha
    exact endsAt_slash (hlast t ht)
  have hloop := parseLoop_append toks ('/' :: '*' :: c) hsep hends [] Draft.empty
  rw [Draft.empty_current] at hloop
  rw [parseStatements, hloop, parseLoop]
  simp only [Char.reduceEq, false_and, if_false, List.head?_cons, and_self, if_true,
    List.tail_cons, skipBlock_of_open c hc]

namespace Draft

variable (d : Draft) (statements : List (List Char))

theorem length_text_le : d.text.length ≤ d.current.length := by
  rw [current, List.length_append]
  omega

theorem finish_ne_of_longer (e : Draft) (h : d.text.length < e.text.length) :
    e.finish statements ≠ d.finish statements := by
  have hne : e.text ≠ [] := by
    intro hnil
    rw [hnil] at h
    exact absurd h (Nat.not_lt_zero _)
  rw [finish, finish, if_neg hne]
  intro heq
  by_cases hd : d.text = []
  · rw [if_pos hd] at heq
    exact absurd heq (by simp)
  · rw [if_neg hd] at heq
    have htext : e.text = d.text := by simpa using heq
    rw [htext] at h
    exact absurd h (lt_irrefl _)

theorem finish_push_ne (piece : List Char) (hne : piece ≠ []) (hp : Solid piece) :
    (d.push piece hne hp).finish statements ≠ d.finish statements := by
  apply finish_ne_of_longer
  have hpos := List.length_pos_iff.mpr hne
  have hle := d.length_text_le
  rw [push, List.length_append]
  omega

/-- The last character of the text adds nothing to the statements exactly when it is whitespace
or a semicolon. -/
theorem parseLoop_singleton_iff (c : Char) :
    parseLoop statements d.current [c] = d.finish statements ↔ isSpace c ∨ c = ';' := by
  by_cases hq : c = '\''
  · subst hq
    have hquote : parseLoop statements d.current ['\''] =
        (d.push ['\''] (List.cons_ne_nil _ _)
          (solid_singleton '\'' (by decide))).finish statements := by
      rw [← flush_current, ← push_current, parseLoop]
      simp [copyLiteral, parseLoop]
    rw [hquote]
    exact iff_of_false (d.finish_push_ne statements _ _ _) (by decide)
  · have hstep := parseLoop_tok (.plain c) [] hq (by simp) statements d
    rw [List.append_nil, parseLoop, flush_current] at hstep
    change parseLoop statements d.current [c] = _ at hstep
    rw [hstep, step]
    by_cases hs : isSpace c
    · rw [dif_pos hs]
      exact iff_of_true rfl (.inl hs)
    · rw [dif_neg hs]
      split_ifs with hparen hsemi
      · subst hparen
        refine iff_of_false (finish_ne_of_longer d statements d.closeParen ?_) (by decide)
        rw [closeParen, List.length_append]
        exact Nat.lt_succ_self _
      · exact iff_of_true rfl (.inr hsemi)
      · have hsolid := solid_singleton c (by simpa using hs)
        refine iff_of_false (d.finish_push_ne statements [c] (List.cons_ne_nil _ _) hsolid) ?_
        rintro (h | h)
        · exact hs h
        · exact hsemi h

end Draft

/-- An open block comment adds nothing to the statements exactly when it is empty or ends with
whitespace or a semicolon. -/
theorem parseStatements_openComment_iff (p c : List Char) (hp : EndsOutside p)
    (hc : ¬ ['*', '/'] <:+: c) :
    parseStatements (p ++ '/' :: '*' :: c) = parseStatements p ↔
      ∀ l ∈ c.getLast?, isSpace l ∨ l = ';' := by
  rcases hp with ⟨toks, hlex, hlast⟩
  rw [parseStatements_openComment p c toks hlex hlast hc, parseStatements_of_lex p toks hlex,
    runToks]
  cases hl : c.getLast? with
  | none =>
    rw [Option.toList_none, parseLoop, Draft.flush_current]
    exact iff_of_true rfl (by simp)
  | some l =>
    rw [Option.toList_some, Draft.parseLoop_singleton_iff]
    simp

/-- An open comment that ends with a space, behind a statement. -/
theorem parseStatements_openComment_spaced :
    parseStatements ['1', ';', '/', '*', 'x', ' '] = parseStatements ['1', ';'] :=
  (parseStatements_openComment_iff ['1', ';'] ['x', ' ']
    ⟨[.plain '1', .plain ';'], by decide +kernel, by simp⟩ (by decide)).mpr (by simp [isSpace])

/-- The last letter of an open comment becomes a statement, and its last quote stands behind the
statement before it. -/
theorem parseStatements_openComment_fails :
    ¬ (∀ p c, EndsOutside p → ¬ ['*', '/'] <:+: c →
      parseStatements (p ++ '/' :: '*' :: c) = parseStatements p) ∧
    parseStatements ['/', '*', ' ', 'x'] = [['x']] ∧
    parseStatements ['1', '/', '*', '\''] = [['1', '\'']] := by
  have hone : parseStatements ['/', '*', ' ', 'x'] = [['x']] := by decide +kernel
  have htwo : parseStatements ['1', '/', '*', '\''] = [['1', '\'']] := by decide +kernel
  refine ⟨fun h => ?_, hone, htwo⟩
  have hempty : EndsOutside [] := ⟨[], by decide +kernel, by simp⟩
  have heq := h [] [' ', 'x'] hempty (by decide)
  rw [List.nil_append, hone] at heq
  exact absurd heq (by decide +kernel)

end PostgresLib.SqlParser
