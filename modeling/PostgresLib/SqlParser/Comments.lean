import PostgresLib.SqlParser.Drafts
import Mathlib.Algebra.BigOperators.Group.List.Basic
import Mathlib.Algebra.GroupWithZero.Nat
import Mathlib.Tactic.Common

/-! # When a comment separates what stands on its two sides

The splitter drops comments without a trace. Two runs are compared token by
token: one on a text, the other on the text in which every comment outside of
literals is one space. Their drafts differ by a pending space between a comment
and the next token, and the outputs differ exactly when such a space is followed
by text that keeps it.
-/

namespace PostgresLib.SqlParser

namespace Tok

/-- A comment read as one space; everything else as itself. -/
def blank : Tok → Tok
  | lineComment _ => plain ' '
  | blockComment _ => plain ' '
  | t => t

/-- Text that a space behind it would be kept after. -/
def bindsRight : Tok → Bool
  | literal _ => true
  | plain c => !isSpace c && c ≠ '(' && c ≠ ';'
  | _ => false

/-- Text that a space before it would be kept for. -/
def bindsLeft : Tok → Bool
  | literal _ => true
  | plain c => !isSpace c && c ≠ ')' && c ≠ ';'
  | _ => false

theorem not_bindsRight {t : Tok} (h : t.isComment = true) : t.bindsRight = false := by
  cases t with
  | literal | plain => cases h
  | lineComment | blockComment => rfl

theorem not_bindsLeft {t : Tok} (h : t.isComment = true) : t.bindsLeft = false := by
  cases t with
  | literal | plain => cases h
  | lineComment | blockComment => rfl

end Tok

/-- The text with each comment outside of literals replaced by one space. -/
def blankComments (toks : List Tok) : List Char := render (toks.map Tok.blank)

/-- The first token that is no comment binds to the left. -/
def closesSeam : List Tok → Bool
  | [] => false
  | t :: toks => if t.isComment then closesSeam toks else t.bindsLeft

/-- A comment stands here, and what follows it and all comments behind it binds to the left. -/
def opensSeam : List Tok → Bool
  | [] => false
  | t :: toks => t.isComment && closesSeam toks

/-- Somewhere a comment, or a run of comments, is all that stands between two pieces of text
which a space would separate. -/
def glued : List Tok → Bool
  | [] => false
  | t :: toks => t.bindsRight && opensSeam toks || glued toks

theorem head?_blank_ne {toks : List Tok} {c : Char} (hc : c ≠ ' ')
    (h : (render toks).head? ≠ some c) : (render (toks.map Tok.blank)).head? ≠ some c := by
  cases toks with
  | nil => exact h
  | cons t toks =>
    cases t with
    | literal body => simpa [Tok.blank, Tok.text] using h
    | lineComment body => simpa [Tok.blank, Tok.text] using hc.symm
    | blockComment body => simpa [Tok.blank, Tok.text] using hc.symm
    | plain d => simpa [Tok.blank, Tok.text] using h

/-- Replacing comments by spaces makes no new comment and no new literal. -/
theorem Separated.blank {toks : List Tok} (h : Separated toks) :
    Separated (toks.map Tok.blank) := by
  have hspace (toks : List Tok) (h : Separated toks) : Separated (.plain ' ' :: toks) :=
    .plain (by decide) (by simp) (by simp) h
  induction h with
  | nil => exact .nil
  | literal hb hn _ ih => exact .literal hb (head?_blank_ne (by decide) hn) ih
  | lineComment _ _ _ ih => exact hspace _ ih
  | blockComment _ _ ih => exact hspace _ ih
  | plain hq hl hb _ ih =>
    refine .plain hq ?_ ?_ ih
    · rintro ⟨rfl, hd⟩
      exact head?_blank_ne (by decide) (fun h => hl ⟨rfl, h⟩) hd
    · rintro ⟨rfl, hs⟩
      exact head?_blank_ne (by decide) (fun h => hb ⟨rfl, h⟩) hs

theorem lex_blankComments {text : List Char} {toks : List Tok} (h : lex text = some toks) :
    lex (blankComments toks) = some (toks.map Tok.blank) :=
  lex_render _ (lex_sound text toks h).2.blank

/-- What stands directly to the left: nothing a space would be kept after, text that takes one,
or such text and then a comment. -/
inductive Seam where
  | apart | touching | commented
  deriving DecidableEq

namespace Seam

def next (m : Seam) (t : Tok) : Seam :=
  if t.isComment then if m = apart then apart else commented
  else if t.bindsRight then touching else apart

/-- One when a token joins, over a comment, the text before it. -/
def joins (m : Seam) (t : Tok) : ℕ := if m = commented ∧ t.bindsLeft then 1 else 0

def joinCount : Seam → List Tok → ℕ
  | _, [] => 0
  | m, t :: toks => m.joins t + joinCount (m.next t) toks

theorem joinCount_eq_zero (toks : List Tok) :
    (joinCount apart toks = 0 ↔ glued toks = false) ∧
      (joinCount touching toks = 0 ↔ glued toks = false ∧ opensSeam toks = false) ∧
      (joinCount commented toks = 0 ↔ glued toks = false ∧ closesSeam toks = false) := by
  induction toks with
  | nil => simp [joinCount, glued, opensSeam, closesSeam]
  | cons t toks ih =>
    obtain ⟨hapart, htouching, hcommented⟩ := ih
    by_cases hc : t.isComment = true
    · have hr := Tok.not_bindsRight hc
      have hl := Tok.not_bindsLeft hc
      simp [joinCount, glued, opensSeam, closesSeam, next, joins, hc, hr, hl, hapart, hcommented]
    · have hc' : t.isComment = false := by simpa using hc
      cases hr : t.bindsRight <;>
        simp [joinCount, glued, opensSeam, closesSeam, next, joins, hc', hr, hapart, htouching,
          and_comm]

end Seam

def produced (s : List (List Char) × Draft) : ℕ :=
  (s.1.map List.length).sum + s.2.text.length

theorem produced_finish (s : List (List Char) × Draft) :
    ((s.2.finish s.1).map List.length).sum = produced s := by
  unfold Draft.finish produced
  split_ifs with h
  · simp [h]
  · simp

/-- A run on a text and the run on its blanked text, after `k` joins. -/
structure Aligned (m : Seam) (k : ℕ) (a b : List (List Char) × Draft) : Prop where
  takes : takesSpace a.2.text = takesSpace b.2.text
  produced : produced b = produced a + k
  same : k = 0 → a.1 = b.1 ∧ a.2.text = b.2.text
  apart : m = .apart → a.2.space = b.2.space ∧ a.2.space = takesSpace a.2.text
  touching : m = .touching → a.2.space = false ∧ b.2.space = false ∧ takesSpace a.2.text = true
  commented : m = .commented → a.2.space = false ∧ b.2.space = true ∧ takesSpace a.2.text = true

theorem takesSpace_push (d : Draft) (piece : List Char) (hne : piece ≠ []) (hp : Solid piece) :
    takesSpace (d.push piece hne hp).text = decide (piece.getLast? ≠ some '(') := by
  simp [takesSpace, Draft.push, hne]

theorem length_push (d : Draft) (piece : List Char) (hne : piece ≠ []) (hp : Solid piece) :
    (d.push piece hne hp).text.length =
      d.text.length + (if d.space then 1 else 0) + piece.length := by
  cases hs : d.space with
  | false => simp [Draft.push, Draft.current, hs]
  | true =>
    simp only [Draft.push, Draft.current, hs, if_true, List.length_append, List.length_singleton]

namespace Aligned

variable {m : Seam} {k : ℕ} {a b : List (List Char) × Draft}

theorem comment (h : Aligned m k a b) (t : Tok) (ht : t.isComment = true) :
    Aligned (m.next t) (k + m.joins t) (Draft.step a t) (Draft.step b t.blank) := by
  have hj : m.joins t = 0 := by simp [Seam.joins, Tok.not_bindsLeft ht]
  have hn : m.next t = if m = .apart then .apart else .commented := by simp [Seam.next, ht]
  have ha : Draft.step a t = a := by
    cases t with
    | literal | plain => cases ht
    | lineComment | blockComment => rfl
  have hb : Draft.step b t.blank = (b.1, b.2.pushSpace) := by
    cases t with
    | literal | plain => cases ht
    | lineComment | blockComment => rfl
  rw [hj, hn, ha, hb]
  exact {
    takes := h.takes
    produced := h.produced
    same := h.same
    apart := by
      intro hm
      have hm' : m = .apart := by_contra fun hne => by simp [hne] at hm
      obtain ⟨-, hs⟩ := h.apart hm'
      exact ⟨hs.trans h.takes, hs⟩
    touching := by
      intro hm
      split_ifs at hm
    commented := by
      intro hm
      cases m with
      | apart => simp at hm
      | touching =>
        obtain ⟨hs, -, ht⟩ := h.touching rfl
        exact ⟨hs, h.takes.symm.trans ht, ht⟩
      | commented =>
        obtain ⟨hs, -, ht⟩ := h.commented rfl
        exact ⟨hs, h.takes.symm.trans ht, ht⟩ }

theorem space (h : Aligned m k a b) (c : Char) (hc : isSpace c = true) :
    Aligned (m.next (.plain c)) (k + m.joins (.plain c)) (Draft.step a (.plain c))
      (Draft.step b (.plain c)) := by
  have hl : (Tok.plain c).bindsLeft = false := by simp [Tok.bindsLeft, hc]
  have hr : (Tok.plain c).bindsRight = false := by simp [Tok.bindsRight, hc]
  have hn : m.next (.plain c) = .apart := by simp [Seam.next, Tok.isComment, hr]
  have hj : m.joins (.plain c) = 0 := by simp [Seam.joins, hl]
  rw [hn, hj]
  simp only [Draft.step, hc, dif_pos]
  exact {
    takes := h.takes
    produced := h.produced
    same := h.same
    apart := fun _ => ⟨h.takes, rfl⟩
    touching := by simp
    commented := by simp }

theorem closeParen (h : Aligned m k a b) :
    Aligned .touching k (a.1, a.2.closeParen) (b.1, b.2.closeParen) where
  takes := by simp [Draft.closeParen, takesSpace]
  produced := by
    have hp := h.produced
    simp only [SqlParser.produced, Draft.closeParen, List.length_append] at hp ⊢
    omega
  same hk := by
    obtain ⟨hs, ht⟩ := h.same hk
    exact ⟨hs, by simp [Draft.closeParen, ht]⟩
  apart := by simp
  touching _ := by simp [Draft.closeParen, takesSpace]
  commented := by simp

theorem semicolon (h : Aligned m k a b) :
    Aligned .apart k (a.2.finish a.1, Draft.empty) (b.2.finish b.1, Draft.empty) where
  takes := rfl
  produced := by
    have hp := h.produced
    have ha := produced_finish a
    have hb := produced_finish b
    simp only [SqlParser.produced, Draft.empty, List.length_nil, add_zero] at ha hb hp ⊢
    omega
  same hk := by
    obtain ⟨hs, ht⟩ := h.same hk
    exact ⟨by simp [Draft.finish, hs, ht], rfl⟩
  apart _ := by simp [Draft.empty, takesSpace]
  touching := by simp
  commented := by simp

/-- Pushing a piece of text joins it to the text before it when a comment stands between. -/
theorem push (h : Aligned m k a b) (piece : List Char) (hne : piece ≠ []) (hp : Solid piece) :
    Aligned (if piece.getLast? ≠ some '(' then .touching else .apart)
      (k + if m = .commented then 1 else 0)
      (a.1, a.2.push piece hne hp) (b.1, b.2.push piece hne hp) := by
  have hspace : (if b.2.space then 1 else 0) =
      (if a.2.space then 1 else 0) + (if m = .commented then 1 else 0) := by
    cases m with
    | apart => simp [(h.apart rfl).1]
    | touching => simp [h.touching rfl]
    | commented => simp [h.commented rfl]
  exact {
    takes := by rw [takesSpace_push, takesSpace_push]
    produced := by
      have hprod := h.produced
      simp only [SqlParser.produced, length_push] at hprod ⊢
      omega
    same := by
      intro hk
      obtain ⟨hs, ht⟩ := h.same (by omega)
      have hm : m ≠ .commented := by
        rintro rfl
        simp at hk
      have hsp : a.2.space = b.2.space := by
        cases m with
        | apart => exact (h.apart rfl).1
        | touching => rw [(h.touching rfl).1, (h.touching rfl).2.1]
        | commented => exact absurd rfl hm
      exact ⟨hs, by simp [Draft.push, Draft.current, ht, hsp]⟩
    apart := by
      intro hm
      have hl : piece.getLast? = some '(' := by
        by_contra hl
        simp [hl] at hm
      rw [takesSpace_push, hl]
      exact ⟨rfl, rfl⟩
    touching := by
      intro hm
      have hl : piece.getLast? ≠ some '(' := by
        intro hl
        simp [hl] at hm
      rw [takesSpace_push]
      exact ⟨rfl, rfl, by simpa using hl⟩
    commented := by
      intro hm
      split_ifs at hm }

theorem plain (h : Aligned m k a b) (c : Char) :
    Aligned (m.next (.plain c)) (k + m.joins (.plain c)) (Draft.step a (.plain c))
      (Draft.step b (.plain c)) := by
  by_cases hs : isSpace c = true
  · exact h.space c hs
  by_cases hp : c = ')'
  · subst hp
    have hn : m.next (.plain ')') = .touching := by
      simp [Seam.next, Tok.isComment, Tok.bindsRight, isSpace]
    have hj : m.joins (.plain ')') = 0 := by simp [Seam.joins, Tok.bindsLeft]
    rw [hn, hj]
    exact h.closeParen
  by_cases hsc : c = ';'
  · subst hsc
    have hn : m.next (.plain ';') = .apart := by simp [Seam.next, Tok.isComment, Tok.bindsRight]
    have hj : m.joins (.plain ';') = 0 := by simp [Seam.joins, Tok.bindsLeft]
    rw [hn, hj]
    exact h.semicolon
  have hl : (Tok.plain c).bindsLeft = true := by simp [Tok.bindsLeft, hs, hp, hsc]
  have hr : (Tok.plain c).bindsRight = decide (c ≠ '(') := by simp [Tok.bindsRight, hs, hsc]
  have hj : m.joins (.plain c) = if m = .commented then 1 else 0 := by simp [Seam.joins, hl]
  have hn : m.next (.plain c) = if [c].getLast? ≠ some '(' then .touching else .apart := by
    simp [Seam.next, Tok.isComment, hr]
  rw [hj, hn]
  simp only [Draft.step, hs, hp, hsc]
  exact h.push [c] (List.cons_ne_nil _ _) _

theorem literal (h : Aligned m k a b) (body : List Char) :
    Aligned (m.next (.literal body)) (k + m.joins (.literal body)) (Draft.step a (.literal body))
      (Draft.step b (.literal body)) := by
  have hlast : (Tok.literal body).text.getLast? = some '\'' := by
    rw [Tok.text, ← List.cons_append, List.getLast?_append_of_ne_nil _ (by simp)]
    rfl
  have hj : m.joins (.literal body) = if m = .commented then 1 else 0 := by
    simp [Seam.joins, Tok.bindsLeft]
  have hn : m.next (.literal body) =
      if (Tok.literal body).text.getLast? ≠ some '(' then .touching else .apart := by
    simp [Seam.next, Tok.isComment, Tok.bindsRight, hlast]
  rw [hj, hn]
  exact h.push _ _ _

/-- One token: the blanked run follows, one character longer at a join. -/
theorem step (h : Aligned m k a b) (t : Tok) :
    Aligned (m.next t) (k + m.joins t) (Draft.step a t) (Draft.step b t.blank) := by
  cases t with
  | literal body => exact h.literal body
  | lineComment body => exact h.comment _ rfl
  | blockComment body => exact h.comment _ rfl
  | plain c => exact h.plain c

/-- All tokens: the outputs are equal exactly when there is no join. -/
theorem runToks_eq_iff (toks : List Tok) (h : Aligned m k a b) :
    runToks a toks = runToks b (toks.map Tok.blank) ↔ k + Seam.joinCount m toks = 0 := by
  induction toks generalizing m k a b with
  | nil =>
    simp only [List.map_nil, runToks_nil, Seam.joinCount, add_zero]
    constructor
    · intro he
      have hlen := congrArg (fun l => (l.map List.length).sum) he
      have hp := h.produced
      simp only [produced_finish] at hlen
      omega
    · intro hk
      obtain ⟨hs, ht⟩ := h.same hk
      simp [Draft.finish, hs, ht]
  | cons t toks ih =>
    rw [List.map_cons, runToks_cons, runToks_cons, ih (h.step t), Seam.joinCount, add_assoc]

end Aligned

/-- The splitter treats the comments of a text as spaces exactly when no comment is all that
stands between two pieces of text which a space would separate. -/
theorem parseStatements_blankComments_iff (text : List Char) (toks : List Tok)
    (h : lex text = some toks) :
    parseStatements text = parseStatements (blankComments toks) ↔ glued toks = false := by
  have hstart : Aligned .apart 0 (([] : List (List Char)), Draft.empty) ([], Draft.empty) :=
    ⟨rfl, rfl, fun _ => ⟨rfl, rfl⟩, fun _ => ⟨rfl, rfl⟩, by simp, by simp⟩
  rw [parseStatements_of_lex text toks h, parseStatements_of_lex _ _ (lex_blankComments h),
    hstart.runToks_eq_iff toks, Nat.zero_add, (Seam.joinCount_eq_zero toks).1]

/-- A comment between spaces: nothing is glued, and the outputs agree. -/
theorem parseStatements_blankComments_spaced :
    parseStatements ['a', ' ', '/', '*', '*', '/', ' ', 'b'] =
      parseStatements (blankComments
        [.plain 'a', .plain ' ', .blockComment [], .plain ' ', .plain 'b']) :=
  (parseStatements_blankComments_iff ['a', ' ', '/', '*', '*', '/', ' ', 'b']
    [.plain 'a', .plain ' ', .blockComment [], .plain ' ', .plain 'b']
    (by decide +kernel)).mpr (by decide)

/-- A comment between two words joins them, and between two dashes makes the marker of a
comment. -/
theorem parseStatements_joins_over_comment :
    ¬ (∀ text toks, lex text = some toks →
      parseStatements text = parseStatements (blankComments toks)) ∧
    parseStatements ['-', '/', '*', '*', '/', '-', '1'] = [['-', '-', '1']] := by
  refine ⟨fun h => ?_, by decide +kernel⟩
  have hlex : lex ['a', '/', '*', '*', '/', 'b'] =
      some [.plain 'a', .blockComment [], .plain 'b'] := by decide +kernel
  have hne : parseStatements ['a', '/', '*', '*', '/', 'b'] ≠
      parseStatements (blankComments [.plain 'a', .blockComment [], .plain 'b']) := by
    decide +kernel
  exact hne (h _ _ hlex)

end PostgresLib.SqlParser
