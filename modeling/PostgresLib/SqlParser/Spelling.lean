import PostgresLib.SqlParser.Drafts

/-! # The statements of a text as lists of tokens

A draft forgets which of its characters stand in a literal. A spelling is a
draft with its tokens: literals are one token each, so what holds outside of
literals is said about the other tokens. The splitter's statements are the texts
of the spelled ones.
-/

namespace PostgresLib.SqlParser

namespace Tok

def solid : Tok → Bool
  | literal _ => true
  | plain c => !isSpace c
  | _ => false

/-- What may stand in a statement: literals, spaces, and text that ends no statement. -/
def kept : Tok → Bool
  | literal _ => true
  | plain c => c = ' ' || (!isSpace c && c ≠ ';')
  | _ => false

@[simp] theorem solid_literal (body : List Char) : (literal body).solid = true := rfl

@[simp] theorem kept_literal (body : List Char) : (literal body).kept = true := rfl

theorem isComment_of_kept {t : Tok} (h : t.kept = true) : t.isComment = false := by
  cases t with
  | literal | plain => rfl
  | lineComment | blockComment => cases h

theorem solid_closeParen : (plain ')').solid = true := rfl

theorem kept_closeParen : (plain ')').kept = true := rfl

theorem solid_text {t : Tok} (h : t.solid = true) : Solid t.text := by
  cases t with
  | literal body => exact Draft.solid_literal body
  | lineComment body => simp [solid] at h
  | blockComment body => simp [solid] at h
  | plain c => exact Draft.solid_singleton c (by simpa [solid] using h)

end Tok

@[simp] theorem render_append (a b : List Tok) : render (a ++ b) = render a ++ render b :=
  List.flatMap_append

theorem getLast?_render_concat (toks : List Tok) (t : Tok) :
    (render (toks ++ [t])).getLast? = t.text.getLast? := by
  rw [render_append, render_cons, render_nil, List.append_nil,
    List.getLast?_append_of_ne_nil _ t.text_ne_nil]

theorem render_eq_nil {toks : List Tok} : render toks = [] ↔ toks = [] := by
  cases toks with
  | nil => simp
  | cons t toks => simp [t.text_ne_nil]

theorem solid_render (toks : List Tok) (hhead : ∀ t ∈ toks.head?, t.solid = true)
    (hlast : ∀ t ∈ toks.getLast?, t.solid = true) : Solid (render toks) := by
  constructor
  · cases toks with
    | nil => simp
    | cons t toks =>
      rw [head?_render_cons]
      exact (Tok.solid_text (hhead t rfl)).1
  · rcases List.eq_nil_or_concat' toks with rfl | ⟨init, t, rfl⟩
    · simp
    · rw [getLast?_render_concat]
      exact (Tok.solid_text (hlast t (by simp))).2

def hasRoom (toks : List Tok) : Bool := toks ≠ [] && toks.getLast? ≠ some (.plain '(')

theorem takesSpace_render (toks : List Tok) (h : ∀ t ∈ toks, t.kept = true) :
    takesSpace (render toks) = hasRoom toks := by
  rcases List.eq_nil_or_concat' toks with rfl | ⟨init, t, rfl⟩
  · rfl
  · have hkept : t.kept = true := h t (by simp)
    have hparen : t.text.getLast? = some '(' ↔ t = .plain '(' := by
      cases t with
      | literal body =>
        have hl : (Tok.literal body).text.getLast? = some '\'' := by
          rw [Tok.text, ← List.cons_append, List.getLast?_append_of_ne_nil _ (by simp)]
          rfl
        simp [hl]
      | lineComment body => simp [Tok.kept] at hkept
      | blockComment body => simp [Tok.kept] at hkept
      | plain c => simp [Tok.text]
    rw [takesSpace, getLast?_render_concat]
    simp [hasRoom, hparen, t.text_ne_nil]

/-- The statement under construction, as tokens. -/
@[ext]
structure Spelling where
  toks : List Tok
  space : Bool
  kept : ∀ t ∈ toks, t.kept = true
  head : ∀ t ∈ toks.head?, t.solid = true
  last : ∀ t ∈ toks.getLast?, t.solid = true
  room : space = true → hasRoom toks = true

namespace Spelling

/-- The tokens with the pending space. -/
def current (s : Spelling) : List Tok := s.toks ++ if s.space then [.plain ' '] else []

def empty : Spelling where
  toks := []
  space := false
  kept := by simp
  head := by simp
  last := by simp
  room := by simp

def pushSpace (s : Spelling) : Spelling where
  toks := s.toks
  space := hasRoom s.toks
  kept := s.kept
  head := s.head
  last := s.last
  room := id

def dropSpace (s : Spelling) : Spelling where
  toks := s.toks
  space := false
  kept := s.kept
  head := s.head
  last := s.last
  room := by simp

theorem toks_ne_nil (s : Spelling) (h : s.space = true) : s.toks ≠ [] := by
  have := s.room h
  simp only [hasRoom, Bool.and_eq_true, decide_eq_true_eq] at this
  exact this.1

theorem kept_current (s : Spelling) : ∀ t ∈ s.current, t.kept = true := by
  intro t ht
  rcases List.mem_append.mp ht with h | h
  · exact s.kept t h
  · split_ifs at h
    · obtain rfl := List.mem_singleton.mp h
      rfl
    · simp at h

theorem head?_current (s : Spelling) : s.current.head? = s.toks.head? := by
  unfold current
  cases hs : s.space with
  | false => simp
  | true =>
    obtain ⟨t, l, ht⟩ := List.exists_cons_of_ne_nil (s.toks_ne_nil hs)
    simp [ht]

def push (s : Spelling) (t : Tok) (hk : t.kept = true) (hs : t.solid = true) : Spelling where
  toks := s.current ++ [t]
  space := false
  kept := by
    intro u hu
    rcases List.mem_append.mp hu with h | h
    · exact s.kept_current u h
    · rwa [List.mem_singleton.mp h]
  head := by
    intro u hu
    rw [List.head?_append, s.head?_current] at hu
    cases h : s.toks.head? with
    | none => simp_all
    | some v =>
      apply s.head u
      simpa [h] using hu
  last := by simpa using hs
  room := by simp

def closeParen (s : Spelling) : Spelling :=
  s.dropSpace.push (.plain ')') Tok.kept_closeParen Tok.solid_closeParen

def finish (s : Spelling) (statements : List (List Tok)) : List (List Tok) :=
  if s.toks = [] then statements else statements ++ [s.toks]

/-- What a token does to the statements and the spelling. -/
def step (s : List (List Tok) × Spelling) : Tok → List (List Tok) × Spelling
  | .literal body =>
    (s.1, s.2.push (.literal body) (Tok.kept_literal body) (Tok.solid_literal body))
  | .lineComment _ => s
  | .blockComment _ => s
  | .plain c =>
    if hs : isSpace c then (s.1, s.2.pushSpace)
    else if c = ')' then (s.1, s.2.closeParen)
    else if hc : c = ';' then (s.2.finish s.1, empty)
    else (s.1, s.2.push (.plain c) (by simp [Tok.kept, hs, hc]) (by simp [Tok.solid, hs]))

theorem step_space (s : List (List Tok) × Spelling) {c : Char} (h : isSpace c = true) :
    step s (.plain c) = (s.1, s.2.pushSpace) := by
  simp [step, h]

theorem step_closeParen (s : List (List Tok) × Spelling) :
    step s (.plain ')') = (s.1, s.2.closeParen) := by
  simp [step, isSpace]

theorem step_semicolon (s : List (List Tok) × Spelling) :
    step s (.plain ';') = (s.2.finish s.1, empty) := by
  simp [step, isSpace]

theorem step_push (s : List (List Tok) × Spelling) (t : Tok) (hk : t.kept = true)
    (hs : t.solid = true) (hp : t ≠ .plain ')') : step s t = (s.1, s.2.push t hk hs) := by
  cases t with
  | literal body => rfl
  | lineComment body => simp [Tok.solid] at hs
  | blockComment body => simp [Tok.solid] at hs
  | plain c =>
    have hsp : isSpace c = false := by simpa [Tok.solid] using hs
    have hc : c ≠ ';' := by
      rintro rfl
      simp [Tok.kept] at hk
    have hp' : c ≠ ')' := fun h => hp (by rw [h])
    simp [step, hsp, hc, hp']

def draft (s : Spelling) : Draft where
  text := render s.toks
  space := s.space
  solid := solid_render s.toks s.head s.last
  room h := (takesSpace_render s.toks s.kept).trans (s.room h)

end Spelling

def spell (s : List (List Tok) × Spelling) (toks : List Tok) : List (List Tok) :=
  (toks.foldl Spelling.step s).2.finish (toks.foldl Spelling.step s).1

theorem spell_nil (s : List (List Tok) × Spelling) : spell s [] = s.2.finish s.1 := rfl

theorem spell_cons (s : List (List Tok) × Spelling) (t : Tok) (toks : List Tok) :
    spell s (t :: toks) = spell (Spelling.step s t) toks := rfl

attribute [ext] Draft

namespace Spelling

theorem current_draft (s : Spelling) : s.draft.current = render s.current := by
  unfold Draft.current current
  cases hs : s.space <;> simp [draft, hs, Tok.text]

theorem finish_draft (s : Spelling) (statements : List (List Tok)) :
    s.draft.finish (statements.map render) = (s.finish statements).map render := by
  unfold Draft.finish finish
  by_cases h : s.toks = []
  · simp [draft, h]
  · simp [draft, h, render_eq_nil]

theorem pushSpace_draft (s : Spelling) : s.draft.pushSpace = s.pushSpace.draft := by
  ext1
  · rfl
  · exact takesSpace_render s.toks s.kept

theorem push_draft (s : Spelling) (t : Tok) (hk : t.kept = true) (hs : t.solid = true) :
    s.draft.push t.text t.text_ne_nil (Tok.solid_text hs) = (s.push t hk hs).draft := by
  ext1
  · simp [Draft.push, draft, push, ← current_draft]
  · rfl

theorem closeParen_draft (s : Spelling) :
    s.draft.closeParen = s.closeParen.draft := by
  ext1
  · simp [Draft.closeParen, draft, closeParen, push, dropSpace, current, Tok.text]
  · rfl

def texts (s : List (List Tok) × Spelling) : List (List Char) × Draft :=
  (s.1.map render, s.2.draft)

theorem step_texts (s : List (List Tok) × Spelling) (t : Tok) :
    Draft.step (texts s) t = texts (step s t) := by
  cases t with
  | literal body =>
    have hpush := s.2.push_draft (.literal body) (Tok.kept_literal body) (Tok.solid_literal body)
    exact congrArg (Prod.mk _) hpush
  | lineComment body => rfl
  | blockComment body => rfl
  | plain c =>
    unfold Draft.step
    by_cases hs : isSpace c = true
    · simp only [hs, dif_pos, step_space s hs, texts, pushSpace_draft]
    by_cases hp : c = ')'
    · subst hp
      simp only [dif_neg hs, if_true, step_closeParen, texts, closeParen_draft]
    by_cases hc : c = ';'
    · subst hc
      simp only [dif_neg hs, if_neg hp, if_true, step_semicolon, texts, finish_draft]
      congr 1
    · have hk : (Tok.plain c).kept = true := by simp [Tok.kept, hs, hc]
      have hs' : (Tok.plain c).solid = true := by simp [Tok.solid, hs]
      rw [step_push s (.plain c) hk hs' (by simp [hp])]
      simp only [dif_neg hs, if_neg hp, if_neg hc, texts]
      exact congrArg (Prod.mk _) (s.2.push_draft (.plain c) hk hs')

theorem runToks_texts (s : List (List Tok) × Spelling) (toks : List Tok) :
    runToks (texts s) toks = (spell s toks).map render := by
  induction toks generalizing s with
  | nil => exact s.2.finish_draft s.1
  | cons t toks ih => rw [runToks_cons, step_texts, ih, spell_cons]

end Spelling

/-- The statements of a text that lexes are the texts of its spelled statements. -/
theorem parseStatements_eq_spell (text : List Char) (toks : List Tok) (h : lex text = some toks) :
    parseStatements text = (spell ([], Spelling.empty) toks).map render := by
  rw [parseStatements_of_lex text toks h, ← Spelling.runToks_texts]
  rfl

end PostgresLib.SqlParser
