import PostgresLib.Connection.SqlError
import PostgresLib.Foundations.Separators
import PostgresLib.Pool.Model

/-! # What the errors print

Each kind of error prints a fixed beginning, the name of its type and its message. The
names do not contain the character behind them, so a text can be read back: it
determines the kind, the type and the message, up to the line feeds that `sql_error`
erases.
-/

namespace PostgresLib.Connection

open Foundations Pool

/-- `code_str` of `sql_error::to_str`. -/
def SqlErrorType.name : SqlErrorType → String
  | connectionFailed => "ConnectionFailed"
  | queryFailed => "QueryFailed"
  | flushFailed => "FlushFailed"
  | pollFailed => "PollFailed"
  | consumeFailed => "ConsumeFailed"
  | socketFailed => "SocketFailed"
  | busy => "Busy"
  | timeOut => "TimeOut"
  | shuttingDown => "ShuttingDown"
  | badConnection => "BadConnection"
  | reconnectFailed => "ReconnectFailed"
  | sqlFileError => "SqlFileError"
  | transactionRolledBack => "TransactionRolledBack"

/-- `std::erase(message, '\n')`, which `to_str` does to the error itself. -/
def SqlError.eraseLineFeeds (e : SqlError) : SqlError :=
  { e with message := String.ofList (e.message.toList.filter (· ≠ '\n')) }

/-- `sql_error::to_str`: the text, and the error as it is afterwards. -/
def SqlError.toStr (e : SqlError) : String × SqlError :=
  ("Postgres: " ++ e.type.name ++ " " ++ e.eraseLineFeeds.message, e.eraseLineFeeds)

def typeStr : ErrorType → String
  | .connectionFailed => "ConnectionFailed"
  | .missingConfig => "MissingConfig"
  | .factoryNotRegistered => "FactoryNotRegistered"
  | .timeout => "Timeout"
  | .socketFailed => "SocketFailed"
  | .authFailed => "AuthFailed"

/-- `ConnectionError::to_str`. -/
def connectionErrorText (e : ConnectionError) : String :=
  "ConnectionError [" ++ typeStr e.type ++ "]: " ++ e.message

/-- `migration_error`: nothing, or an error of one of the two kinds. -/
structure MigrationError where
  error : Option (SqlError ⊕ ConnectionError)
  deriving DecidableEq

namespace MigrationError

/-- The default constructor. -/
def none : MigrationError := ⟨.none⟩

def ofSql (e : SqlError) : MigrationError := ⟨some (.inl e)⟩

def ofConnection (e : ConnectionError) : MigrationError := ⟨some (.inr e)⟩

def toStr (m : MigrationError) : String :=
  match m.error with
  | .none => ""
  | some (.inl e) => e.toStr.1
  | some (.inr e) => connectionErrorText e

def printed (m : MigrationError) : MigrationError :=
  ⟨m.error.map (Sum.map SqlError.eraseLineFeeds id)⟩

end MigrationError

section Texts

variable {start w w' sep msg msg' : String} {a c : Char} {cs : List Char}

/-- A beginning, a word, a separator and a message: the text determines the word, which does not
contain the first character of the separator, and the message. -/
theorem text_inj (hsep : sep.toList = a :: cs) (hw : a ∉ w.toList) (hw' : a ∉ w'.toList)
    (h : start ++ w ++ sep ++ msg = start ++ w' ++ sep ++ msg') : w = w' ∧ msg = msg' := by
  have hlist := congrArg String.toList h
  simp only [String.toList_append, hsep, List.append_assoc] at hlist
  have hrest := List.append_cancel_left hlist
  have hbefore := congrArg (beforeFirst a) hrest
  have hafter := congrArg (afterFirst a) hrest
  simp only [List.cons_append] at hbefore hafter
  rw [beforeFirst_append_cons hw, beforeFirst_append_cons hw'] at hbefore
  rw [afterFirst_append_cons hw, afterFirst_append_cons hw'] at hafter
  exact ⟨String.toList_injective hbefore, String.toList_injective (List.append_cancel_left hafter)⟩

theorem head?_text (hstart : start.toList.head? = some c) :
    (start ++ w ++ sep ++ msg).toList.head? = some c := by
  simp only [String.toList_append, List.append_assoc]
  rw [List.head?_append, hstart]
  rfl

end Texts

theorem SqlErrorType.space_not_mem_name (t : SqlErrorType) : ' ' ∉ t.name.toList := by
  cases t <;> decide

theorem SqlErrorType.name_injective : Function.Injective SqlErrorType.name := by
  intro t t' h
  cases t <;> cases t' <;> first | rfl | exact absurd h (by decide)

theorem bracket_not_mem_typeStr (t : ErrorType) : ']' ∉ (typeStr t).toList := by
  cases t <;> decide

theorem typeStr_injective : Function.Injective typeStr := by
  intro t t' h
  cases t <;> cases t' <;> first | rfl | exact absurd h (by decide)

@[simp] theorem SqlError.eraseLineFeeds_type (e : SqlError) : e.eraseLineFeeds.type = e.type := rfl

theorem SqlError.toStr_again (e : SqlError) : e.toStr.2.toStr = e.toStr := by
  have hagain : e.eraseLineFeeds.eraseLineFeeds = e.eraseLineFeeds := by
    simp [SqlError.eraseLineFeeds]
  simp only [SqlError.toStr, hagain, eraseLineFeeds_type]

theorem SqlError.toStr_inj {e e' : SqlError} (h : e.toStr.1 = e'.toStr.1) :
    e.eraseLineFeeds = e'.eraseLineFeeds := by
  have hspace : " ".toList = [' '] := by decide
  rcases text_inj hspace e.type.space_not_mem_name e'.type.space_not_mem_name h with
    ⟨hname, hmessage⟩
  have htype : e.eraseLineFeeds.type = e'.eraseLineFeeds.type := SqlErrorType.name_injective hname
  calc e.eraseLineFeeds = ⟨e.eraseLineFeeds.type, e.eraseLineFeeds.message⟩ := rfl
    _ = ⟨e'.eraseLineFeeds.type, e'.eraseLineFeeds.message⟩ := by rw [htype, hmessage]

theorem connectionErrorText_inj {e e' : ConnectionError}
    (h : connectionErrorText e = connectionErrorText e') : e = e' := by
  have hbracket : "]: ".toList = [']', ':', ' '] := by decide
  rcases text_inj hbracket (bracket_not_mem_typeStr e.type) (bracket_not_mem_typeStr e'.type) h with
    ⟨hname, hmessage⟩
  calc e = ⟨e.type, e.message⟩ := rfl
    _ = ⟨e'.type, e'.message⟩ := by rw [typeStr_injective hname, hmessage]

theorem SqlError.toStr_head (e : SqlError) : e.toStr.1.toList.head? = some 'P' :=
  head?_text (by decide)

theorem connectionErrorText_head (e : ConnectionError) :
    (connectionErrorText e).toList.head? = some 'C' := head?_text (by decide)

/-- Two results of a migration print the same only when they are both a success, or errors of the
same kind, type and message, up to the line feeds. -/
theorem MigrationError.toStr_eq_iff (m m' : MigrationError) :
    m.toStr = m'.toStr ↔ m.printed = m'.printed := by
  constructor
  · intro h
    have hhead := congrArg (fun text : String => text.toList.head?) h
    rcases m with ⟨_ | e | e⟩ <;> rcases m' with ⟨_ | e' | e'⟩ <;>
      simp only [toStr, SqlError.toStr_head, connectionErrorText_head] at h hhead
    case none.none => rfl
    case some.inl.some.inl => exact congrArg ofSql (SqlError.toStr_inj h)
    case some.inr.some.inr => exact congrArg ofConnection (connectionErrorText_inj h)
    all_goals exact absurd hhead (by decide)
  · intro h
    have htext (m : MigrationError) : m.toStr = m.printed.toStr := by
      rcases m with ⟨_ | e | e⟩
      · rfl
      · exact (congrArg Prod.fst e.toStr_again).symm
      · rfl
    rw [htext m, htext m', h]

end PostgresLib.Connection
