import PostgresLib.Foundations.Separators
import Mathlib.Tactic.SplitIfs

/-! # The connection URL from the environment

`GetDatabaseUrl` appends the keepalive parameters to the URL it finds. Which
separator it puts in front of them depends on the last character alone, but whether
a parameter stands behind a query depends on the whole URL: without a question mark
the parameters become part of what the URL names, and behind one that is itself part
of a parameter they become part of that parameter.
-/

namespace PostgresLib.Connection

open Foundations

structure PGOptions where
  keepalive : Bool := true
  keepaliveCount : UInt32 := 5
  keepaliveInterval : UInt32 := 10
  keepaliveIdle : UInt32 := 30
  deriving DecidableEq

/-- `std::to_string` of an unsigned number. -/
def decimal (n : ℕ) : List Char := Nat.toDigits 10 n

/-- `name=value`. -/
def assignment (name : String) (value : ℕ) : List Char := name.toList ++ '=' :: decimal value

/-- What the format string puts behind the URL. -/
def PGOptions.text (o : PGOptions) : List Char :=
  assignment "keepalives" o.keepalive.toNat ++
    '&' :: (assignment "keepalives_idle" o.keepaliveIdle.toNat ++
    '&' :: (assignment "keepalives_interval" o.keepaliveInterval.toNat ++
    '&' :: assignment "keepalives_count" o.keepaliveCount.toNat))

/-- `GetDatabaseUrl`; `getenv` returns nothing for a null pointer, and otherwise the characters
before the terminating zero. -/
def getDatabaseUrl (getenv : String → Option (List Char)) (options : Option PGOptions) :
    Option (List Char) :=
  match getenv "POSTGRES_DB_URL" with
  | none | some [] => none
  | some dbUrl =>
    match options with
    | some options =>
      let separator :=
        if dbUrl.getLast? = some '?' ∨ dbUrl.getLast? = some '&' then [] else ['&']
      some (dbUrl ++ separator ++ options.text)
    | none => some dbUrl

def PGOptions.parameters (o : PGOptions) : List (List Char) :=
  [assignment "keepalives" o.keepalive.toNat,
    assignment "keepalives_idle" o.keepaliveIdle.toNat,
    assignment "keepalives_interval" o.keepaliveInterval.toNat,
    assignment "keepalives_count" o.keepaliveCount.toNat]

theorem ampersand_not_mem_decimal (n : ℕ) : '&' ∉ decimal n := by
  intro h
  simpa using Nat.isDigit_of_mem_toDigits (by decide) (by decide) h

theorem ampersand_not_mem_assignment (name : String) (h : '&' ∉ name.toList) (value : ℕ) :
    '&' ∉ assignment name value := by
  rw [assignment, List.mem_append, List.mem_cons]
  rintro (hname | heq | hvalue)
  · exact h hname
  · exact absurd heq (by decide)
  · exact ampersand_not_mem_decimal value hvalue

theorem assignment_ne_nil (name : String) (value : ℕ) : assignment name value ≠ [] :=
  List.append_ne_nil_of_right_ne_nil _ (List.cons_ne_nil _ _)

theorem pieces_assignment (name : String) (h : '&' ∉ name.toList) (value : ℕ) :
    pieces '&' (assignment name value) = [assignment name value] :=
  pieces_of_not_mem (assignment_ne_nil name value) (ampersand_not_mem_assignment name h value)

/-- The text behind the URL divides into the four parameters. -/
theorem pieces_text (o : PGOptions) : pieces '&' o.text = o.parameters := by
  simp only [PGOptions.text, PGOptions.parameters, pieces_append_cons]
  rw [pieces_assignment _ (by decide), pieces_assignment _ (by decide),
    pieces_assignment _ (by decide), pieces_assignment _ (by decide)]
  rfl

def suffix (dbUrl : List Char) (o : PGOptions) : List Char :=
  (if dbUrl.getLast? = some '?' ∨ dbUrl.getLast? = some '&' then [] else ['&']) ++ o.text

theorem getDatabaseUrl_eq {getenv : String → Option (List Char)} {dbUrl : List Char}
    (henv : getenv "POSTGRES_DB_URL" = some dbUrl) (hne : dbUrl ≠ []) (o : PGOptions) :
    getDatabaseUrl getenv (some o) = some (dbUrl ++ suffix dbUrl o) := by
  cases dbUrl with
  | nil => exact absurd rfl hne
  | cons c rest => rw [getDatabaseUrl, henv, suffix, ← List.append_assoc]

/-- The URL that is returned keeps what stands before the query and adds the four parameters to
those of the query. -/
structure AddsParameters (dbUrl : List Char) (o : PGOptions) (connStr : List Char) : Prop where
  base : beforeFirst '?' connStr = beforeFirst '?' dbUrl
  parameters : pieces '&' (afterFirst '?' connStr) =
    pieces '&' (afterFirst '?' dbUrl) ++ o.parameters

theorem beforeFirst_suffix_ne_nil (dbUrl : List Char) (o : PGOptions) :
    beforeFirst '?' (suffix dbUrl o) ≠ [] := by
  rw [suffix, PGOptions.text, assignment]
  split_ifs <;> simp [beforeFirst]

/-- Behind a query that does not end in a question mark, the suffix adds the four parameters. -/
theorem pieces_suffix {base query : List Char} (hquery : query.getLast? ≠ some '?')
    (o : PGOptions) :
    pieces '&' (query ++ suffix (base ++ '?' :: query) o) = pieces '&' query ++ o.parameters := by
  rcases List.eq_nil_or_concat' query with rfl | ⟨front, c, rfl⟩
  · rw [suffix, List.getLast?_concat, if_pos (.inl rfl)]
    exact pieces_text o
  · have hlast : (base ++ '?' :: (front ++ [c])).getLast? = some c := by
      rw [List.getLast?_append_cons, ← List.cons_append, List.getLast?_concat]
    rw [List.getLast?_concat] at hquery
    by_cases hc : c = '&'
    · subst hc
      rw [suffix, hlast, if_pos (.inr rfl), List.nil_append, List.append_assoc,
        List.singleton_append, pieces_append_cons, pieces_append_singleton, pieces_text]
    · have hsep : ¬ (some c = some '?' ∨ some c = some '&') := by
        rintro (h | h)
        · exact hquery h
        · exact hc (Option.some.inj h)
      rw [suffix, hlast, if_neg hsep, List.singleton_append, pieces_append_cons, pieces_text]

/-- Behind a question mark that is not the first, the first parameter is lost in the last one of
the query. -/
theorem pieces_suffix_ne (base : List Char) {query : List Char}
    (hquery : query.getLast? = some '?') (o : PGOptions) :
    pieces '&' (query ++ suffix (base ++ '?' :: query) o) ≠ pieces '&' query ++ o.parameters := by
  have hne : query ≠ [] := by
    rintro rfl
    cases hquery
  have hlast : (base ++ '?' :: query).getLast? = some '?' := by
    rw [List.getLast?_append_cons, List.getLast?_cons, hquery]
    rfl
  have hkeepalives := ampersand_not_mem_assignment "keepalives" (by decide) o.keepalive.toNat
  have hlength := length_pieces_append hquery (by decide) hkeepalives
  intro heq
  rw [suffix, hlast, if_pos (.inl rfl), List.nil_append, PGOptions.text, ← List.append_assoc,
    pieces_append_cons] at heq
  have hcount := congrArg List.length heq
  simp only [pieces_append_cons, pieces_assignment "keepalives_idle" (by decide),
    pieces_assignment "keepalives_interval" (by decide),
    pieces_assignment "keepalives_count" (by decide), List.length_append, hlength,
    PGOptions.parameters, List.length_cons, List.length_nil] at hcount
  omega

/-- Without a query, the suffix stands before the first question mark like the URL. -/
theorem not_addsParameters {dbUrl : List Char} (h : '?' ∉ dbUrl) (o : PGOptions) :
    ¬ AddsParameters dbUrl o (dbUrl ++ suffix dbUrl o) := by
  intro hadds
  have hself := beforeFirst_append h []
  rw [List.append_nil] at hself
  have hbase := hadds.base
  rw [beforeFirst_append h, hself] at hbase
  exact beforeFirst_suffix_ne_nil dbUrl o (List.append_cancel_left hbase)

/-- The parameters are added to the query exactly when the URL has one and it does not end in a
question mark. -/
theorem addsParameters_iff (getenv : String → Option (List Char)) {dbUrl : List Char}
    (henv : getenv "POSTGRES_DB_URL" = some dbUrl) (hne : dbUrl ≠ []) (o : PGOptions) :
    (∃ connStr, getDatabaseUrl getenv (some o) = some connStr ∧ AddsParameters dbUrl o connStr) ↔
      '?' ∈ dbUrl ∧ (afterFirst '?' dbUrl).getLast? ≠ some '?' := by
  rw [getDatabaseUrl_eq henv hne]
  by_cases hmem : '?' ∈ dbUrl
  · rcases List.eq_append_cons_of_mem hmem with ⟨base, query, rfl, hbase⟩
    rw [afterFirst_append_cons hbase]
    constructor
    · rintro ⟨connStr, hconn, hadds⟩
      cases hconn
      refine ⟨hmem, fun hquery => pieces_suffix_ne base hquery o ?_⟩
      have hparameters := hadds.parameters
      rwa [List.append_assoc, List.cons_append, afterFirst_append_cons hbase,
        afterFirst_append_cons hbase] at hparameters
    · rintro ⟨-, hquery⟩
      refine ⟨_, rfl, ?_, ?_⟩
      · rw [List.append_assoc, List.cons_append, beforeFirst_append_cons hbase,
          beforeFirst_append_cons hbase]
      · rw [List.append_assoc, List.cons_append, afterFirst_append_cons hbase,
          afterFirst_append_cons hbase, pieces_suffix hquery]
  · refine iff_of_false ?_ fun h => hmem h.1
    rintro ⟨connStr, hconn, hadds⟩
    cases hconn
    exact not_addsParameters hmem o hadds

def environment (dbUrl : String) : String → Option (List Char) := fun name =>
  if name = "POSTGRES_DB_URL" then some dbUrl.toList else none

theorem addsParameters_disabled :
    ∃ connStr, getDatabaseUrl (environment "postgresql://localhost/db?sslmode=disable") (some {}) =
      some connStr ∧ AddsParameters "postgresql://localhost/db?sslmode=disable".toList {} connStr :=
  (addsParameters_iff (environment "postgresql://localhost/db?sslmode=disable") rfl (by decide)
    {}).mpr ⟨by decide, by decide⟩

/-- Without a query the parameters become part of the name of the database, and behind a question
mark in the query part of the last parameter. -/
theorem addsParameters_fails :
    ¬ (∀ (getenv : String → Option (List Char)) (dbUrl : List Char) (o : PGOptions),
      getenv "POSTGRES_DB_URL" = some dbUrl → dbUrl ≠ [] →
        ∃ connStr, getDatabaseUrl getenv (some o) = some connStr ∧
          AddsParameters dbUrl o connStr) ∧
    getDatabaseUrl (environment "postgresql://localhost/db") (some {}) =
      some ("postgresql://localhost/db".toList ++ '&' :: PGOptions.text {}) ∧
    getDatabaseUrl (environment "postgresql://localhost/db?user=a?") (some {}) =
      some ("postgresql://localhost/db?user=a?".toList ++ PGOptions.text {}) := by
  have hplain : suffix "postgresql://localhost/db".toList {} = '&' :: PGOptions.text {} := by
    rw [suffix, if_neg (by decide), List.singleton_append]
  have hquery : suffix "postgresql://localhost/db?user=a?".toList {} = PGOptions.text {} := by
    rw [suffix, if_pos (by decide), List.nil_append]
  refine ⟨fun h => ?_, by rw [getDatabaseUrl_eq rfl (by decide), hplain],
    by rw [getDatabaseUrl_eq rfl (by decide), hquery]⟩
  rcases h (environment "postgresql://localhost/db") "postgresql://localhost/db".toList {} rfl
    (by decide) with ⟨connStr, hconn, hadds⟩
  rw [getDatabaseUrl_eq rfl (by decide)] at hconn
  cases hconn
  exact not_addsParameters (by decide) {} hadds

end PostgresLib.Connection
