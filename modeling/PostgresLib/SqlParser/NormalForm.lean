import PostgresLib.SqlParser.Spelling
import Mathlib.Data.List.Infix

/-! # The normal form of a statement

What the splitter returns for a text without block comments is in normal form,
and the splitter reads statements in normal form back. Every token of a spelling ends
where the next one begins; the run keeps this for the spelling followed by the
tokens still to be read.
-/

namespace PostgresLib.SqlParser

namespace Tok

/-- No literal and no text runs on into a character that is part of no marker. -/
theorem endsAt_of_kept {t : Tok} (h : t.kept = true) {c : Char} (hq : c ≠ '\'') (hd : c ≠ '-')
    (hs : c ≠ '*') : t.EndsAt c := by
  cases t with
  | literal body => exact hq
  | lineComment body => simp [kept] at h
  | blockComment body => simp [kept] at h
  | plain d => exact ⟨fun h => hd h.2, fun h => hs h.2⟩

end Tok

/-- What may follow what in a statement: the text is read as it stands, and spaces are single
and on no inner side of a parenthesis. -/
structure Adjacent (t u : Tok) : Prop where
  ends : t.EndsAt u.first
  single : ¬ (t = .plain ' ' ∧ u = .plain ' ')
  opened : ¬ (t = .plain '(' ∧ u = .plain ' ')
  closing : ¬ (t = .plain ' ' ∧ u = .plain ')')

structure WellSpelled (toks : List Tok) : Prop where
  nonempty : toks ≠ []
  kept : ∀ t ∈ toks, t.kept = true
  head : ∀ t ∈ toks.head?, t.solid = true
  last : ∀ t ∈ toks.getLast?, t.solid = true
  closed : ∀ t ∈ toks, t.Closed
  adjacent : toks.IsChain Adjacent

theorem WellSpelled.lex_render {toks : List Tok} (h : WellSpelled toks) :
    lex (render toks) = some toks := by
  apply SqlParser.lex_render
  rw [separated_iff]
  exact ⟨h.closed, h.adjacent.imp fun _ _ ha => ha.ends⟩

/-- A solid token that is no closing parenthesis may follow what ends before it. -/
theorem Adjacent.of_solid {t u : Tok} (he : t.EndsAt u.first) (hs : u.solid = true)
    (hp : u ≠ .plain ')') : Adjacent t u where
  ends := he
  single := by
    rintro ⟨-, rfl⟩
    simp [Tok.solid, isSpace] at hs
  opened := by
    rintro ⟨-, rfl⟩
    simp [Tok.solid, isSpace] at hs
  closing h := hp h.2

/-- A closing parenthesis may follow everything but a space. -/
theorem Adjacent.closeParen {t : Tok} (hk : t.kept = true) (hs : t.solid = true) :
    Adjacent t (.plain ')') where
  ends := Tok.endsAt_of_kept hk (by decide) (by decide) (by decide)
  single := by simp
  opened := by simp
  closing := by
    rintro ⟨rfl, -⟩
    simp [Tok.solid, isSpace] at hs

/-- A space may follow everything but a space and an open parenthesis. -/
theorem Adjacent.space {t : Tok} (hk : t.kept = true) (hs : t.solid = true)
    (hp : t ≠ .plain '(') : Adjacent t (.plain ' ') where
  ends := Tok.endsAt_of_kept hk (by decide) (by decide) (by decide)
  single := by
    rintro ⟨rfl, -⟩
    simp [Tok.solid, isSpace] at hs
  opened h := hp h.1
  closing := by simp

namespace Spelling

/-- A run that is part of the way: finished statements and the current one are well spelled, and
the current one is read as it stands when the next token follows it. -/
structure Tidy (s : List (List Tok) × Spelling) (rest : List Tok) : Prop where
  done : ∀ ts ∈ s.1, WellSpelled ts
  closed : ∀ t ∈ s.2.toks, t.Closed
  adjacent : s.2.current.IsChain Adjacent
  ends : ∀ t ∈ s.2.current.getLast?, ∀ u ∈ rest.head?, t.EndsAt u.first

theorem closed_current (s : Spelling) (h : ∀ t ∈ s.toks, t.Closed) : ∀ t ∈ s.current, t.Closed := by
  intro t ht
  rcases List.mem_append.mp ht with h' | h'
  · exact h t h'
  · split_ifs at h'
    · rw [List.mem_singleton.mp h']
      exact (by decide : (' ' : Char) ≠ '\'')
    · simp at h'

theorem current_push (s : Spelling) (t : Tok) (hk : t.kept = true) (hs : t.solid = true) :
    (s.push t hk hs).current = s.current ++ [t] := by
  simp [push, current]

theorem current_dropSpace (s : Spelling) : s.dropSpace.current = s.toks := by
  simp [dropSpace, current]

theorem current_closeParen (s : Spelling) : s.closeParen.current = s.toks ++ [.plain ')'] := by
  rw [closeParen, current_push, current_dropSpace]

theorem getLast?_current_of_space (s : Spelling) (h : s.space = true) :
    s.current.getLast? = some (.plain ' ') := by
  simp [current, h]

theorem current_pushSpace (s : Spelling) :
    s.pushSpace.current = s.toks ++ if hasRoom s.toks then [.plain ' '] else [] := rfl

variable {s : List (List Tok) × Spelling} {rest : List Tok}

theorem Tidy.toks (h : Tidy s rest) : s.2.toks.IsChain Adjacent := h.adjacent.left_of_append

theorem Tidy.finish (h : Tidy s rest) : ∀ ts ∈ s.2.finish s.1, WellSpelled ts := by
  intro ts hts
  unfold Spelling.finish at hts
  split_ifs at hts with hne
  · exact h.done ts hts
  · rcases List.mem_append.mp hts with hd | hc
    · exact h.done ts hd
    · rw [List.mem_singleton.mp hc]
      exact ⟨hne, s.2.kept, s.2.head, s.2.last, h.closed, h.toks⟩

theorem Tidy.push (h : Tidy s rest) (t : Tok) (hk : t.kept = true) (hs : t.solid = true)
    (hc : t.Closed) (ha : ∀ u ∈ s.2.current.getLast?, Adjacent u t) (rest' : List Tok)
    (he : ∀ u ∈ rest'.head?, t.EndsAt u.first) : Tidy (s.1, s.2.push t hk hs) rest' where
  done := h.done
  closed := by
    intro u hu
    rcases List.mem_append.mp hu with hu | hu
    · exact s.2.closed_current h.closed u hu
    · rwa [List.mem_singleton.mp hu]
  adjacent := by
    rw [current_push]
    apply h.adjacent.append (List.isChain_singleton t)
    simpa using ha
  ends := by
    rw [current_push]
    simpa using he

/-- What a space leaves behind is read as it stands, whatever follows. -/
theorem Tidy.space (h : Tidy s rest) (rest' : List Tok) : Tidy (s.1, s.2.pushSpace) rest' where
  done := h.done
  closed := h.closed
  adjacent := by
    rw [current_pushSpace]
    apply h.toks.append
    · split_ifs <;> simp
    · intro t ht u hu
      split_ifs at hu with hr
      · obtain rfl : Tok.plain ' ' = u := by simpa using hu
        apply Adjacent.space (s.2.kept t (List.mem_of_getLast? ht)) (s.2.last t ht)
        rintro rfl
        simp [hasRoom, Option.mem_def.mp ht] at hr
      · simp at hu
  ends := by
    rw [current_pushSpace]
    intro t ht u hu
    by_cases hr : hasRoom s.2.toks = true
    · obtain rfl : Tok.plain ' ' = t := by simpa [hr] using ht
      exact ⟨by simp, by simp⟩
    · have hlast : t ∈ s.2.toks.getLast? := by simpa [hr] using ht
      have hne : s.2.toks ≠ [] := by
        intro hnil
        simp [hnil] at hlast
      obtain rfl : t = .plain '(' := by
        simpa [hasRoom, hne, Option.mem_def.mp hlast] using hr
      exact ⟨by simp, by simp⟩

theorem Tidy.step {t : Tok} (h : Tidy s (t :: rest)) (hc : t.Closed)
    (he : ∀ u ∈ rest.head?, t.EndsAt u.first) (hb : ∀ body, t ≠ .blockComment body) :
    Tidy (Spelling.step s t) rest := by
  have hends : ∀ u ∈ s.2.current.getLast?, u.EndsAt t.first := fun u hu => h.ends u hu t rfl
  cases t with
  | literal body =>
    exact h.push _ rfl rfl hc (fun u hu => .of_solid (hends u hu) rfl (by simp)) rest he
  | lineComment body =>
    refine ⟨h.done, h.closed, h.adjacent, fun t ht u hu => ?_⟩
    -- a line feed is next, and no text runs on into it
    rw [he u hu]
    exact Tok.endsAt_of_kept (s.2.kept_current t (List.mem_of_getLast? ht)) (by decide)
      (by decide) (by decide)
  | blockComment body => exact absurd rfl (hb body)
  | plain c =>
    by_cases hs : isSpace c = true
    · rw [step_space s hs]
      exact h.space rest
    by_cases hp : c = ')'
    · subst hp
      have hd : Tidy (s.1, s.2.dropSpace) (.plain ')' :: rest) := by
        refine ⟨h.done, h.closed, ?_, ?_⟩
        · rw [current_dropSpace]
          exact h.toks
        · rw [current_dropSpace]
          intro u hu v hv
          obtain rfl : Tok.plain ')' = v := by simpa using hv
          exact (Adjacent.closeParen (s.2.kept u (List.mem_of_getLast? hu)) (s.2.last u hu)).ends
      rw [step_closeParen]
      apply hd.push _ Tok.kept_closeParen Tok.solid_closeParen hc _ rest he
      rw [current_dropSpace]
      exact fun u hu => .closeParen (s.2.kept u (List.mem_of_getLast? hu)) (s.2.last u hu)
    by_cases hsc : c = ';'
    · subst hsc
      rw [step_semicolon]
      exact ⟨h.finish, by simp [empty], by simp [empty, current], by simp [empty, current]⟩
    · have hk : (Tok.plain c).kept = true := by simp [Tok.kept, hs, hsc]
      have hs' : (Tok.plain c).solid = true := by simp [Tok.solid, hs]
      have hp' : Tok.plain c ≠ .plain ')' := by simp [hp]
      rw [step_push s _ hk hs' hp']
      exact h.push _ hk hs' hc (fun u hu => .of_solid (hends u hu) hs' hp') rest he

theorem Tidy.spell {toks : List Tok} (h : Tidy s toks) (hs : Separated toks)
    (hb : ∀ t ∈ toks, ∀ body, t ≠ .blockComment body) :
    ∀ ts ∈ SqlParser.spell s toks, WellSpelled ts := by
  induction toks generalizing s with
  | nil => exact h.finish
  | cons t toks ih =>
    obtain ⟨hc, hch⟩ := (separated_iff _).mp hs
    rw [List.forall_mem_cons] at hc hb
    rw [List.isChain_cons] at hch
    rw [spell_cons]
    exact ih (h.step hc.1 hch.1 hb.1) ((separated_iff _).mpr ⟨hc.2, hch.2⟩) hb.2

/-- A token that may stand where it does is taken over as it is. -/
theorem step_reads (done : List (List Tok)) (s : Spelling) (t : Tok) (hk : t.kept = true)
    (hh : s.current = [] → t.solid = true) (ha : ∀ u ∈ s.current.getLast?, Adjacent u t) :
    ∃ s' : Spelling, step (done, s) t = (done, s') ∧ s'.current = s.current ++ [t] := by
  by_cases hs : t.solid = true
  · by_cases hp : t = .plain ')'
    · subst hp
      have hspace : s.space = false := by
        by_contra hspace
        have hlast := s.getLast?_current_of_space (by simpa using hspace)
        exact (ha _ hlast).closing ⟨rfl, rfl⟩
      refine ⟨_, step_closeParen (done, s), ?_⟩
      rw [current_closeParen]
      simp [current, hspace]
    · exact ⟨_, step_push (done, s) t hk hs hp, s.current_push t hk hs⟩
  · obtain rfl : t = .plain ' ' := by
      cases t with
      | literal body => simp [Tok.solid] at hs
      | lineComment body => simp [Tok.kept] at hk
      | blockComment body => simp [Tok.kept] at hk
      | plain c => simp_all [Tok.solid, Tok.kept]
    have hspace : s.space = false := by
      by_contra hspace
      have hlast := s.getLast?_current_of_space (by simpa using hspace)
      exact (ha _ hlast).single ⟨rfl, rfl⟩
    have hcur : s.current = s.toks := by simp [current, hspace]
    rw [hcur] at ha hh ⊢
    have hroom : hasRoom s.toks = true := by
      have hne : s.toks ≠ [] := fun hnil => hs (hh hnil)
      have hlast : s.toks.getLast? ≠ some (.plain '(') := fun hl => (ha _ hl).opened ⟨rfl, rfl⟩
      simp [hasRoom, hne, hlast]
    refine ⟨_, step_space (done, s) (by decide), ?_⟩
    rw [current_pushSpace, if_pos hroom]

/-- So are all tokens of a statement in normal form. -/
theorem foldl_reads (done : List (List Tok)) (toks : List Tok) (s : Spelling)
    (hk : ∀ t ∈ toks, t.kept = true) (hh : s.current = [] → ∀ t ∈ toks.head?, t.solid = true)
    (ha : (s.current ++ toks).IsChain Adjacent) :
    ∃ s' : Spelling, toks.foldl step (done, s) = (done, s') ∧ s'.current = s.current ++ toks := by
  induction toks generalizing s with
  | nil => exact ⟨s, rfl, by simp⟩
  | cons t toks ih =>
    rw [List.forall_mem_cons] at hk
    have hpair := (List.isChain_append.mp ha).2.2
    obtain ⟨s₁, h₁, hc₁⟩ := step_reads done s t hk.1 (fun h => hh h t rfl)
      (fun u hu => hpair u hu t rfl)
    have hc₁' : s₁.current ++ toks = s.current ++ t :: toks := by
      rw [hc₁, List.append_assoc, List.singleton_append]
    obtain ⟨s', h', hc'⟩ := ih s₁ hk.2 (fun h => by simp [hc₁] at h) (hc₁' ▸ ha)
    refine ⟨s', ?_, hc'.trans hc₁'⟩
    rw [List.foldl_cons, h₁, h']

/-- A spelling that does not end in a space has none pending. -/
theorem toks_of_current (s : Spelling) (h : ∀ t ∈ s.current.getLast?, t.solid = true) :
    s.toks = s.current := by
  cases hs : s.space with
  | false => simp [current, hs]
  | true =>
    have := h (.plain ' ') (by simp [current, hs])
    simp [Tok.solid, isSpace] at this

theorem foldl_wellSpelled (done : List (List Tok)) (ts : List Tok) (h : WellSpelled ts) :
    ∃ s' : Spelling, ts.foldl step (done, empty) = (done, s') ∧ s'.toks = ts := by
  obtain ⟨s', h', hc⟩ := foldl_reads done ts empty h.kept (fun _ => h.head) h.adjacent
  have hc' : s'.current = ts := hc
  refine ⟨s', h', ?_⟩
  rw [s'.toks_of_current (hc' ▸ h.last), hc']

/-- Statements in normal form, separated by semicolons, are read back. -/
theorem spell_intercalate (done l : List (List Tok)) (h : ∀ ts ∈ l, WellSpelled ts) :
    spell (done, empty) ([Tok.plain ';'].intercalate l) = done ++ l := by
  induction l generalizing done with
  | nil => simp [spell, finish, empty]
  | cons ts l ih =>
    rw [List.forall_mem_cons] at h
    obtain ⟨s', h', ht⟩ := foldl_wellSpelled done ts h.1
    have hfin : s'.finish done = done ++ [ts] := by
      rw [finish, ht, if_neg h.1.nonempty]
    by_cases hl : l = []
    · subst hl
      rw [List.intercalate_singleton, spell, h', hfin]
    · rw [List.intercalate_cons_of_ne_nil hl, List.append_assoc, List.singleton_append, spell,
        List.foldl_append, h', ← spell, spell_cons, step_semicolon, hfin, ih _ h.2,
        List.append_assoc, List.singleton_append]

end Spelling

theorem render_intercalate (l : List (List Tok)) :
    render ([Tok.plain ';'].intercalate l) = [';'].intercalate (l.map render) := by
  induction l with
  | nil => rfl
  | cons ts l ih =>
    by_cases hl : l = []
    · subst hl
      simp
    · rw [List.map_cons, List.intercalate_cons_of_ne_nil hl,
        List.intercalate_cons_of_ne_nil (by simpa using hl), render_append, render_append, ih]
      rfl

/-- Statements in normal form, separated by semicolons, are lexed as they stand. -/
theorem separated_intercalate (l : List (List Tok)) (h : ∀ ts ∈ l, WellSpelled ts) :
    Separated ([Tok.plain ';'].intercalate l) := by
  induction l with
  | nil => exact .nil
  | cons ts l ih =>
    rw [List.forall_mem_cons] at h
    obtain ⟨hts, hl⟩ := h
    have hends := hts.adjacent.imp fun _ _ ha => ha.ends
    by_cases hnil : l = []
    · subst hnil
      rw [List.intercalate_singleton, separated_iff]
      exact ⟨hts.closed, hends⟩
    · obtain ⟨hc, hch⟩ := (separated_iff _).mp (ih hl)
      rw [List.intercalate_cons_of_ne_nil hnil, List.append_assoc, List.singleton_append,
        separated_iff]
      constructor
      · intro t ht
        rcases List.mem_append.mp ht with ht | ht
        · exact hts.closed t ht
        · rcases List.mem_cons.mp ht with rfl | ht
          · exact (by decide : (';' : Char) ≠ '\'')
          · exact hc t ht
      · apply hends.append
        · exact hch.cons fun u _ => ⟨by simp, by simp⟩
        · intro t ht u hu
          obtain rfl : Tok.plain ';' = u := by simpa using hu
          exact Tok.endsAt_of_kept (hts.kept t (List.mem_of_getLast? ht)) (by decide) (by decide)
            (by decide)

/-- What a statement in normal form contains nowhere outside of its literals. -/
def excluded : List (List Char) :=
  [[';'], ['-', '-'], ['/', '*'], ['\t'], ['\r'], ['\n'], [' ', ' '], ['(', ' '], [' ', ')']]

structure NormalForm (s : List Char) : Prop where
  nonempty : s ≠ []
  solid : Solid s
  outside : ∃ toks, lex s = some toks ∧ (∀ t ∈ toks, t.isComment = false) ∧
    ∀ bad ∈ excluded, ¬ bad.map Tok.plain <:+: toks

theorem WellSpelled.not_excluded {toks : List Tok} (h : WellSpelled toks) :
    ∀ bad ∈ excluded, ¬ bad.map Tok.plain <:+: toks := by
  have hone : ∀ c, [Tok.plain c] <:+: toks → (Tok.plain c).kept = true := fun c hc =>
    h.kept _ (hc.subset (by simp))
  have htwo : ∀ c d, [Tok.plain c, Tok.plain d] <:+: toks → Adjacent (.plain c) (.plain d) := by
    intro c d hcd
    have hchain : [Tok.plain c, Tok.plain d].IsChain Adjacent :=
      List.IsChain.infix h.adjacent hcd
    exact List.isChain_pair.mp hchain
  intro bad hbad hin
  simp only [excluded, List.mem_cons, List.not_mem_nil, or_false] at hbad
  rcases hbad with rfl | rfl | rfl | rfl | rfl | rfl | rfl | rfl | rfl
  · exact absurd (hone _ hin) (by decide)
  · exact (htwo _ _ hin).ends.1 ⟨rfl, rfl⟩
  · exact (htwo _ _ hin).ends.2 ⟨rfl, rfl⟩
  · exact absurd (hone _ hin) (by decide)
  · exact absurd (hone _ hin) (by decide)
  · exact absurd (hone _ hin) (by decide)
  · exact (htwo _ _ hin).single ⟨rfl, rfl⟩
  · exact (htwo _ _ hin).opened ⟨rfl, rfl⟩
  · exact (htwo _ _ hin).closing ⟨rfl, rfl⟩

theorem WellSpelled.normalForm {toks : List Tok} (h : WellSpelled toks) :
    NormalForm (render toks) where
  nonempty := fun hnil => h.nonempty (render_eq_nil.mp hnil)
  solid := solid_render toks h.head h.last
  outside := by
    exact ⟨toks, h.lex_render, fun t ht => Tok.isComment_of_kept (h.kept t ht), h.not_excluded⟩

/-- A text without block comments: its statements are in normal form, and the splitter returns
them again from the text they make with semicolons between them. -/
theorem parseStatements_normal (text : List Char) (toks : List Tok) (h : lex text = some toks)
    (hb : ∀ t ∈ toks, ∀ body, t ≠ .blockComment body) :
    (∀ s ∈ parseStatements text, NormalForm s) ∧
      parseStatements ([';'].intercalate (parseStatements text)) = parseStatements text := by
  have hstart : Spelling.Tidy ([], Spelling.empty) toks :=
    ⟨by simp, by simp [Spelling.empty], .nil, by simp [Spelling.empty, Spelling.current]⟩
  have hspelled := hstart.spell (lex_sound text toks h).2 hb
  rw [parseStatements_eq_spell text toks h]
  constructor
  · intro s hs
    obtain ⟨ts, hts, rfl⟩ := List.mem_map.mp hs
    exact (hspelled ts hts).normalForm
  · have hlex := lex_render _ (separated_intercalate _ hspelled)
    rw [← render_intercalate, parseStatements_eq_spell _ _ hlex,
      Spelling.spell_intercalate [] _ hspelled, List.nil_append]

/-- A text of two statements with a line comment, a parenthesis and a literal. -/
theorem parseStatements_normal_two :
    parseStatements
        [' ', 'a', '(', '\t', 'b', ' ', ')', ';', '-', '-', 'c', '\n', '\'', ';', '\''] =
        [['a', '(', 'b', ')'], ['\'', ';', '\'']] ∧
      parseStatements ['a', '(', 'b', ')', ';', '\'', ';', '\''] =
        [['a', '(', 'b', ')'], ['\'', ';', '\'']] := by
  have hrun : parseStatements
      [' ', 'a', '(', '\t', 'b', ' ', ')', ';', '-', '-', 'c', '\n', '\'', ';', '\''] =
        [['a', '(', 'b', ')'], ['\'', ';', '\'']] := by decide +kernel
  have hagain := (parseStatements_normal
    [' ', 'a', '(', '\t', 'b', ' ', ')', ';', '-', '-', 'c', '\n', '\'', ';', '\'']
    [.plain ' ', .plain 'a', .plain '(', .plain '\t', .plain 'b', .plain ' ', .plain ')',
      .plain ';', .lineComment ['c'], .plain '\n', .literal [';']]
    (by decide +kernel) (by simp)).2
  rw [hrun] at hagain
  exact ⟨hrun, hagain⟩

end PostgresLib.SqlParser
