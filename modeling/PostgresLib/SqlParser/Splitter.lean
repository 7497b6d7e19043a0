import Mathlib.Data.List.Basic

/-! # The statement splitter, as the source computes it

`ParseStatements` walks over the text with one index. Here the index is the
suffix that is still to be read, so `sql[i]` and `sql[i + 1]` are its first two
characters and `i + 1 < n` says that it has a second one. A `std::string` is the
list of its characters.
-/

namespace PostgresLib.SqlParser

/-- The four characters the splitter treats as whitespace. -/
def isSpace (c : Char) : Bool := c = ' ' || c = '\t' || c = '\r' || c = '\n'

/-- `push_space`: append a space only when it is not redundant. -/
def pushSpace (current : List Char) : List Char :=
  if current ≠ [] ∧ current.getLast? ≠ some ' ' ∧ current.getLast? ≠ some '(' then
    current ++ [' ']
  else current

/-- `current.substr(start, end - start + 1)` between the first and the last character that is
not whitespace; empty when there is none. -/
def trim (current : List Char) : List Char :=
  ((current.dropWhile isSpace).reverse.dropWhile isSpace).reverse

/-- `flush`: push the trimmed statement, if anything of it is left. -/
def flush (statements : List (List Char)) (current : List Char) : List (List Char) :=
  if trim current = [] then statements else statements ++ [trim current]

def inLine (c : Char) : Bool := c ≠ '\n'

/-- The inner loop of a single-line comment: up to, not including, the line feed. -/
def skipLine (text : List Char) : List Char := text.dropWhile inLine

/-- The inner loop of a block comment, after its two opening characters. It looks one character
ahead, so an unterminated comment leaves the last character unread. -/
def skipBlock : List Char → List Char
  | '*' :: '/' :: rest => rest
  | _ :: c :: rest => skipBlock (c :: rest)
  | rest => rest

/-- The inner loop of a string literal, after its opening quote: the characters it copies and
the suffix it stops at. Two quotes in a row are an escaped one. -/
def copyLiteral : List Char → List Char × List Char
  | '\'' :: '\'' :: rest => ('\'' :: '\'' :: (copyLiteral rest).1, (copyLiteral rest).2)
  | '\'' :: rest => (['\''], rest)
  | c :: rest => (c :: (copyLiteral rest).1, (copyLiteral rest).2)
  | [] => ([], [])

/-- A closing parenthesis takes away a space standing before it. -/
def pushCloseParen (current : List Char) : List Char :=
  (if current.getLast? = some ' ' then current.dropLast else current) ++ [')']

theorem skipLine_length (text : List Char) : (skipLine text).length ≤ text.length :=
  (List.dropWhile_sublist _).length_le

theorem skipBlock_length (text : List Char) : (skipBlock text).length ≤ text.length := by
  fun_induction skipBlock text with
  | case1 rest => simp only [List.length_cons]; omega
  | case2 d c rest h ih => simp only [List.length_cons] at ih ⊢; omega
  | case3 rest h => exact Nat.le_refl _

theorem copyLiteral_length (text : List Char) : (copyLiteral text).2.length ≤ text.length := by
  fun_induction copyLiteral text with
  | case1 rest ih => simp only [List.length_cons]; omega
  | case2 rest h => simp only [List.length_cons]; omega
  | case3 c rest h h' ih => simp only [List.length_cons]; omega
  | case4 => exact Nat.le_refl _

/-- The main loop, with the statements pushed so far and the current statement. -/
def parseLoop (statements : List (List Char)) (current : List Char) :
    List Char → List (List Char)
  | [] => flush statements current
  | c :: rest =>
    if c = '-' ∧ rest.head? = some '-' then
      parseLoop statements current (skipLine rest)
    else if c = '/' ∧ rest.head? = some '*' then
      parseLoop statements current (skipBlock rest.tail)
    else if c = '\'' then
      parseLoop statements (current ++ '\'' :: (copyLiteral rest).1) (copyLiteral rest).2
    else if isSpace c then parseLoop statements (pushSpace current) rest
    else if c = ')' then parseLoop statements (pushCloseParen current) rest
    else if c = ';' then parseLoop (flush statements current) [] rest
    else parseLoop statements (current ++ [c]) rest
termination_by text => text.length
decreasing_by
  · have := skipLine_length rest
    simp only [List.length_cons]
    omega
  · have := skipBlock_length rest.tail
    simp only [List.length_tail, List.length_cons] at *
    omega
  · have := copyLiteral_length rest
    simp only [List.length_cons]
    omega
  all_goals simp only [List.length_cons]; omega

/-- `ParseStatements`: split a text into statements, stripping its comments. -/
def parseStatements (sql : List Char) : List (List Char) := parseLoop [] [] sql

end PostgresLib.SqlParser
