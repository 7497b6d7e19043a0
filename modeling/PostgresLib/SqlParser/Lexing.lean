import PostgresLib.SqlParser.Splitter
import Mathlib.Data.Option.Basic
import Mathlib.Data.List.Chain
import Mathlib.Data.List.TakeWhile

/-! # The documented lexing of a text

Single-quoted literals with doubled quotes as escapes, single-line comments up
to the line feed, block comments up to the first closing marker, and everything
else plain. A text lexes when every literal and every block comment in it is
closed. The tokens of a text determine it, and a token list is the lexing of its
own text exactly when no two neighbours could be read differently.
-/

namespace PostgresLib.SqlParser

/-- A piece of a text. The bodies are what stands between the markers. -/
inductive Tok where
  | literal (body : List Char)
  | lineComment (body : List Char)
  | blockComment (body : List Char)
  | plain (c : Char)
  deriving DecidableEq

namespace Tok

def text : Tok → List Char
  | literal body => '\'' :: (body ++ ['\''])
  | lineComment body => '-' :: '-' :: body
  | blockComment body => '/' :: '*' :: (body ++ ['*', '/'])
  | plain c => [c]

theorem text_ne_nil (t : Tok) : t.text ≠ [] := by
  cases t <;> simp [text]

def isComment : Tok → Bool
  | lineComment _ => true
  | blockComment _ => true
  | _ => false

end Tok

def render (toks : List Tok) : List Char := toks.flatMap Tok.text

@[simp] theorem render_nil : render [] = [] := rfl

@[simp] theorem render_cons (t : Tok) (toks : List Tok) :
    render (t :: toks) = t.text ++ render toks := rfl

/-- Split a text at the quote that closes a literal; two quotes in a row are an escaped one. -/
def closeLiteral : List Char → Option (List Char × List Char)
  | '\'' :: '\'' :: rest => (closeLiteral rest).map fun p => ('\'' :: '\'' :: p.1, p.2)
  | '\'' :: rest => some ([], rest)
  | c :: rest => (closeLiteral rest).map fun p => (c :: p.1, p.2)
  | [] => none

/-- Split a text at the first marker that closes a block comment. -/
def closeBlock : List Char → Option (List Char × List Char)
  | '*' :: '/' :: rest => some ([], rest)
  | c :: rest => (closeBlock rest).map fun p => (c :: p.1, p.2)
  | [] => none

/-- What a text is split to when its first part gets further characters in front. -/
theorem split_of_map {f : List Char × List Char → List Char × List Char}
    {split : Option (List Char × List Char)} {body rest : List Char}
    (h : split.map f = some (body, rest)) (hf : ∀ p, (f p).2 = p.2) :
    ∃ b, split = some (b, rest) ∧ (f (b, rest)).1 = body := by
  obtain ⟨⟨b, r⟩, hsplit, heq⟩ := Option.map_eq_some_iff.mp h
  obtain rfl : r = rest := (hf (b, r)).symm.trans (congrArg Prod.snd heq)
  exact ⟨b, hsplit, congrArg Prod.fst heq⟩

theorem closeLiteral_cons (c : Char) (text : List Char) (h : c ≠ '\'') :
    closeLiteral (c :: text) = (closeLiteral text).map fun p => (c :: p.1, p.2) := by
  rw [closeLiteral]
  · exact fun _ hq => absurd hq h
  · exact h

theorem closeLiteral_append (text body rest : List Char)
    (h : closeLiteral text = some (body, rest)) :
    text = body ++ '\'' :: rest ∧ closeLiteral (body ++ ['\'']) = some (body, []) ∧
      rest.head? ≠ some '\'' := by
  fun_induction closeLiteral text generalizing body with
  | case1 text ih =>
    obtain ⟨b, hc, rfl⟩ := split_of_map h fun _ => rfl
    obtain ⟨rfl, hb, hr⟩ := ih b hc
    exact ⟨rfl, by simp [closeLiteral, hb], hr⟩
  | case2 text hne =>
    obtain ⟨rfl, rfl⟩ := Prod.mk.inj (Option.some.inj h)
    refine ⟨rfl, by simp [closeLiteral], fun hq => ?_⟩
    obtain ⟨tail, rfl⟩ := List.head?_eq_some_iff.mp hq
    exact hne tail rfl
  | case3 c text _ hne ih =>
    obtain ⟨b, hc, rfl⟩ := split_of_map h fun _ => rfl
    obtain ⟨rfl, hb, hr⟩ := ih b hc
    refine ⟨rfl, ?_, hr⟩
    rw [List.cons_append, closeLiteral_cons _ _ (fun hq => hne hq), hb]
    rfl
  | case4 => simp at h

/-- What closes a literal does not depend on what follows it, as long as that is no quote. -/
theorem closeLiteral_of_closed (text body rest : List Char) (ht : text = body ++ ['\''])
    (h : closeLiteral text = some (body, [])) (hr : rest.head? ≠ some '\'') :
    closeLiteral (text ++ rest) = some (body, rest) := by
  fun_induction closeLiteral text generalizing body with
  | case1 text ih =>
    obtain ⟨b, hc, rfl⟩ := split_of_map h fun _ => rfl
    have hb : text = b ++ ['\''] := by simpa using ht
    simp [closeLiteral, ih b hb hc]
  | case2 text hne =>
    obtain ⟨rfl, rfl⟩ := Prod.mk.inj (Option.some.inj h)
    cases rest with
    | nil => rfl
    | cons c rest =>
      have hc : c ≠ '\'' := by simpa using hr
      simp [closeLiteral, hc]
  | case3 c text _ hne ih =>
    obtain ⟨b, hc, rfl⟩ := split_of_map h fun _ => rfl
    have hb : text = b ++ ['\''] := by simpa using ht
    rw [List.cons_append, closeLiteral_cons _ _ (fun hq => hne hq), ih b hb hc]
    rfl
  | case4 => simp at h

theorem closeBlock_cons (c : Char) (text : List Char)
    (h : ¬ (c = '*' ∧ text.head? = some '/')) :
    closeBlock (c :: text) = (closeBlock text).map fun p => (c :: p.1, p.2) := by
  rw [closeBlock]
  rintro tail rfl rfl
  exact h ⟨rfl, rfl⟩

theorem closeBlock_append (text body rest : List Char) (h : closeBlock text = some (body, rest)) :
    text = body ++ '*' :: '/' :: rest ∧ closeBlock (body ++ ['*', '/']) = some (body, []) := by
  fun_induction closeBlock text generalizing body with
  | case1 text =>
    obtain ⟨rfl, rfl⟩ := Prod.mk.inj (Option.some.inj h)
    exact ⟨rfl, by simp [closeBlock]⟩
  | case2 c text hne ih =>
    obtain ⟨b, hc, rfl⟩ := split_of_map h fun _ => rfl
    obtain ⟨rfl, hb⟩ := ih b hc
    refine ⟨rfl, ?_⟩
    rw [List.cons_append, closeBlock_cons, hb]
    · rfl
    · rintro ⟨hstar, hslash⟩
      cases b with
      | nil => simp at hslash
      | cons d b =>
        obtain rfl : d = '/' := by simpa using hslash
        exact hne _ hstar rfl
  | case3 => simp at h

/-- What closes a block comment does not depend on what follows it. -/
theorem closeBlock_of_closed (body rest : List Char)
    (h : closeBlock (body ++ ['*', '/']) = some (body, [])) :
    closeBlock (body ++ '*' :: '/' :: rest) = some (body, rest) := by
  induction body with
  | nil => simp [closeBlock]
  | cons c body ih =>
    have hne : ¬ (c = '*' ∧ (body ++ ['*', '/']).head? = some '/') := by
      rintro ⟨rfl, hslash⟩
      obtain ⟨tail, ht⟩ := List.head?_eq_some_iff.mp hslash
      simp [ht, closeBlock] at h
    have hne' : ¬ (c = '*' ∧ (body ++ '*' :: '/' :: rest).head? = some '/') := by
      cases body with
      | nil => simp
      | cons d body => simpa using hne
    rw [List.cons_append, closeBlock_cons _ _ hne] at h
    obtain ⟨⟨b, r⟩, hc, he⟩ := Option.map_eq_some_iff.mp h
    simp only [Prod.mk.injEq, List.cons.injEq, true_and] at he
    obtain ⟨rfl, rfl⟩ := he
    rw [List.cons_append, closeBlock_cons _ _ hne', ih hc]
    rfl

theorem closeLiteral_length (text body rest : List Char)
    (h : closeLiteral text = some (body, rest)) : rest.length ≤ text.length := by
  obtain ⟨rfl, -, -⟩ := closeLiteral_append _ _ _ h
  simp only [List.length_append, List.length_cons]
  omega

theorem closeBlock_length (text body rest : List Char)
    (h : closeBlock text = some (body, rest)) : rest.length ≤ text.length := by
  obtain ⟨rfl, -⟩ := closeBlock_append _ _ _ h
  simp only [List.length_append, List.length_cons]
  omega

/-- The tokens of a text; `none` when a literal or a block comment stays open. -/
def lex : List Char → Option (List Tok)
  | [] => some []
  | c :: rest =>
    if c = '-' ∧ rest.head? = some '-' then
      (lex (rest.tail.dropWhile inLine)).map
        (Tok.lineComment (rest.tail.takeWhile inLine) :: ·)
    else if c = '/' ∧ rest.head? = some '*' then
      match _hb : closeBlock rest.tail with
      | none => none
      | some (body, rest') => (lex rest').map (Tok.blockComment body :: ·)
    else if c = '\'' then
      match _hl : closeLiteral rest with
      | none => none
      | some (body, rest') => (lex rest').map (Tok.literal body :: ·)
    else (lex rest).map (Tok.plain c :: ·)
termination_by text => text.length
decreasing_by
  · have := skipLine_length rest.tail
    simp only [skipLine, List.length_tail, List.length_cons] at *
    omega
  · have := closeBlock_length _ _ _ _hb
    simp only [List.length_tail, List.length_cons] at *
    omega
  · have := closeLiteral_length _ _ _ _hl
    simp only [List.length_cons]
    omega
  · simp only [List.length_cons]
    omega

/-- Every token of the list is what the lexing of the list's text starts with at its place. -/
inductive Separated : List Tok → Prop
  | nil : Separated []
  | literal {body : List Char} {toks : List Tok}
      (hb : closeLiteral (body ++ ['\'']) = some (body, []))
      (hn : (render toks).head? ≠ some '\'') (h : Separated toks) :
      Separated (.literal body :: toks)
  | lineComment {body : List Char} {toks : List Tok} (hb : ∀ c ∈ body, c ≠ '\n')
      (hn : ∀ c ∈ (render toks).head?, c = '\n') (h : Separated toks) :
      Separated (.lineComment body :: toks)
  | blockComment {body : List Char} {toks : List Tok}
      (hb : closeBlock (body ++ ['*', '/']) = some (body, [])) (h : Separated toks) :
      Separated (.blockComment body :: toks)
  | plain {c : Char} {toks : List Tok} (hq : c ≠ '\'')
      (hl : ¬ (c = '-' ∧ (render toks).head? = some '-'))
      (hb : ¬ (c = '/' ∧ (render toks).head? = some '*')) (h : Separated toks) :
      Separated (.plain c :: toks)

/-- The tokens of a text render to it and are separated. -/
theorem lex_sound (text : List Char) (toks : List Tok) (h : lex text = some toks) :
    render toks = text ∧ Separated toks := by
  fun_induction lex text generalizing toks with
  | case1 =>
    obtain rfl := Option.some.inj h
    exact ⟨rfl, .nil⟩
  | case2 c rest hc ih =>
    obtain ⟨ts, hts, rfl⟩ := Option.map_eq_some_iff.mp h
    obtain ⟨hr, hsep⟩ := ih ts hts
    obtain ⟨rfl, hd⟩ := hc
    obtain ⟨tail, rfl⟩ := List.head?_eq_some_iff.mp hd
    refine ⟨?_, .lineComment ?_ ?_ hsep⟩
    · simp only [render_cons, Tok.text, hr, List.tail_cons, List.cons_append,
        List.takeWhile_append_dropWhile]
    · intro c hc
      simpa [inLine] using List.mem_takeWhile_imp hc
    · intro c hc
      rw [hr] at hc
      have hn := List.head?_dropWhile_not inLine ('-' :: tail).tail
      rw [Option.mem_def.mp hc] at hn
      simpa [inLine] using hn
  | case3 => simp at h
  | case4 c rest _ hc body rest' hb ih =>
    obtain ⟨ts, hts, rfl⟩ := Option.map_eq_some_iff.mp h
    obtain ⟨hr, hsep⟩ := ih ts hts
    obtain ⟨rfl, hd⟩ := hc
    obtain ⟨tail, rfl⟩ := List.head?_eq_some_iff.mp hd
    obtain ⟨ht, hclosed⟩ := closeBlock_append _ _ _ hb
    rw [List.tail_cons] at ht
    refine ⟨?_, .blockComment hclosed hsep⟩
    simp [Tok.text, hr, ht]
  | case5 => simp at h
  | case6 rest body rest' hl _ _ ih =>
    obtain ⟨ts, hts, rfl⟩ := Option.map_eq_some_iff.mp h
    obtain ⟨hr, hsep⟩ := ih ts hts
    obtain ⟨rfl, hclosed, hn⟩ := closeLiteral_append _ _ _ hl
    refine ⟨?_, .literal hclosed (hr ▸ hn) hsep⟩
    simp [Tok.text, hr]
  | case7 c rest hl hb hq ih =>
    obtain ⟨ts, hts, rfl⟩ := Option.map_eq_some_iff.mp h
    obtain ⟨hr, hsep⟩ := ih ts hts
    exact ⟨by simp [Tok.text, hr], .plain hq (hr ▸ hl) (hr ▸ hb) hsep⟩

theorem takeWhile_line (body rest : List Char) (hb : ∀ c ∈ body, c ≠ '\n')
    (hn : ∀ c ∈ rest.head?, c = '\n') :
    (body ++ rest).takeWhile inLine = body ∧ (body ++ rest).dropWhile inLine = rest := by
  have hb' : ∀ c ∈ body, inLine c = true := by simpa [inLine] using hb
  rw [List.takeWhile_append_of_pos hb', List.dropWhile_append_of_pos hb']
  cases rest with
  | nil => simp
  | cons c rest =>
    obtain rfl : c = '\n' := hn c rfl
    simp [inLine]

theorem lex_literal (text body rest : List Char) (h : closeLiteral text = some (body, rest)) :
    lex ('\'' :: text) = (lex rest).map (Tok.literal body :: ·) := by
  rw [lex]
  simp only [Char.reduceEq, false_and, if_false, if_true]
  split
  · simp_all
  · simp_all

theorem lex_blockComment (text body rest : List Char) (h : closeBlock text = some (body, rest)) :
    lex ('/' :: '*' :: text) = (lex rest).map (Tok.blockComment body :: ·) := by
  rw [lex]
  simp only [Char.reduceEq, false_and, if_false, List.head?_cons, and_self, if_true,
    List.tail_cons]
  split
  · simp_all
  · simp_all

theorem lex_lineComment (text : List Char) :
    lex ('-' :: '-' :: text) =
      (lex (text.dropWhile inLine)).map (Tok.lineComment (text.takeWhile inLine) :: ·) := by
  rw [lex]
  simp

theorem lex_plain (c : Char) (text : List Char) (hq : c ≠ '\'')
    (hl : ¬ (c = '-' ∧ text.head? = some '-')) (hb : ¬ (c = '/' ∧ text.head? = some '*')) :
    lex (c :: text) = (lex text).map (Tok.plain c :: ·) := by
  rw [lex]
  simp [hl, hb, hq]

/-- A separated token list is the lexing of its text. -/
theorem lex_render (toks : List Tok) (h : Separated toks) : lex (render toks) = some toks := by
  induction h with
  | nil => simp [lex]
  | @literal body toks hb hn _ ih =>
    have hclose := closeLiteral_of_closed _ body (render toks) rfl hb hn
    rw [render_cons, Tok.text, List.cons_append, lex_literal _ _ _ hclose, ih]
    rfl
  | @lineComment body toks hb hn _ ih =>
    obtain ⟨ht, hd⟩ := takeWhile_line body (render toks) hb hn
    rw [render_cons, Tok.text, List.cons_append, List.cons_append, lex_lineComment, ht, hd, ih]
    rfl
  | @blockComment body toks hb _ ih =>
    have hclose := closeBlock_of_closed body (render toks) hb
    simp only [render_cons, Tok.text, List.cons_append, List.append_assoc, List.nil_append]
    rw [lex_blockComment _ _ _ hclose, ih]
    rfl
  | @plain c toks hq hl hb _ ih =>
    rw [render_cons, Tok.text, List.cons_append, List.nil_append, lex_plain c _ hq hl hb, ih]
    rfl

namespace Tok

def first : Tok → Char
  | literal _ => '\''
  | lineComment _ => '-'
  | blockComment _ => '/'
  | plain c => c

/-- The body of a token holds nothing that would close it early. -/
def Closed : Tok → Prop
  | literal body => closeLiteral (body ++ ['\'']) = some (body, [])
  | lineComment body => ∀ c ∈ body, c ≠ '\n'
  | blockComment body => closeBlock (body ++ ['*', '/']) = some (body, [])
  | plain c => c ≠ '\''

/-- A token ends where this character follows. -/
def EndsAt : Tok → Char → Prop
  | literal _, c => c ≠ '\''
  | lineComment _, c => c = '\n'
  | blockComment _, _ => True
  | plain d, c => ¬ (d = '-' ∧ c = '-') ∧ ¬ (d = '/' ∧ c = '*')

theorem head?_text (t : Tok) : t.text.head? = some t.first := by
  cases t <;> rfl

end Tok

theorem head?_render_cons (t : Tok) (toks : List Tok) :
    (render (t :: toks)).head? = t.text.head? := by
  obtain ⟨c, l, h⟩ := List.exists_cons_of_ne_nil t.text_ne_nil
  simp [h]

theorem head?_render (toks : List Tok) : (render toks).head? = toks.head?.map Tok.first := by
  cases toks with
  | nil => rfl
  | cons t toks => rw [head?_render_cons, Tok.head?_text, List.head?_cons, Option.map_some]

/-- Being separated is a matter of each token and of neighbours. -/
theorem separated_iff (toks : List Tok) :
    Separated toks ↔
      (∀ t ∈ toks, t.Closed) ∧ toks.IsChain fun t u => t.EndsAt u.first := by
  induction toks with
  | nil => exact ⟨fun _ => ⟨by simp, .nil⟩, fun _ => .nil⟩
  | cons t toks ih =>
    rw [List.forall_mem_cons, List.isChain_cons]
    constructor
    · intro h
      cases h with
      | literal hb hn h =>
        obtain ⟨hc, hch⟩ := ih.mp h
        refine ⟨⟨hb, hc⟩, fun u hu hq => hn ?_, hch⟩
        rw [head?_render, Option.mem_def.mp hu, Option.map_some, hq]
      | lineComment hb hn h =>
        obtain ⟨hc, hch⟩ := ih.mp h
        refine ⟨⟨hb, hc⟩, fun u hu => hn _ ?_, hch⟩
        rw [head?_render, Option.mem_def.mp hu, Option.map_some, Option.mem_def]
      | blockComment hb h =>
        obtain ⟨hc, hch⟩ := ih.mp h
        exact ⟨⟨hb, hc⟩, fun u hu => trivial, hch⟩
      | plain hq hl hb h =>
        obtain ⟨hc, hch⟩ := ih.mp h
        rw [head?_render] at hl hb
        refine ⟨⟨hq, hc⟩, fun u hu => ⟨fun hd => hl ⟨hd.1, ?_⟩, fun hd => hb ⟨hd.1, ?_⟩⟩, hch⟩
        · rw [Option.mem_def.mp hu, Option.map_some, hd.2]
        · rw [Option.mem_def.mp hu, Option.map_some, hd.2]
    · rintro ⟨⟨ht, hc⟩, hn, hch⟩
      have h := ih.mpr ⟨hc, hch⟩
      have hhead : ∀ c, (render toks).head? = some c → t.EndsAt c := by
        intro c hh
        rw [head?_render] at hh
        obtain ⟨u, hu, rfl⟩ := Option.map_eq_some_iff.mp hh
        exact hn u hu
      cases t with
      | literal body => exact .literal ht (fun hq => hhead _ hq rfl) h
      | lineComment body => exact .lineComment ht (fun c hc => hhead c hc) h
      | blockComment body => exact .blockComment ht h
      | plain c =>
        exact .plain ht (fun hd => (hhead _ hd.2).1 ⟨hd.1, rfl⟩)
          (fun hd => (hhead _ hd.2).2 ⟨hd.1, rfl⟩) h

end PostgresLib.SqlParser
