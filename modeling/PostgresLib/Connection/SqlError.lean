import Mathlib.Tactic.TypeStar

/-! # The errors a request is answered with -/

namespace PostgresLib.Connection

/-- `sql_error::type`. -/
inductive SqlErrorType where
  | connectionFailed | reconnectFailed | queryFailed | flushFailed | pollFailed
  | consumeFailed | socketFailed | busy | timeOut | shuttingDown
  | badConnection | sqlFileError | transactionRolledBack
  deriving DecidableEq

structure SqlError where
  type : SqlErrorType
  message : String
  deriving DecidableEq

namespace SqlError

def sqlFileError (message : String) : SqlError := ⟨.sqlFileError, message⟩
def failedToReconnect (message : String) : SqlError := ⟨.reconnectFailed, message⟩
def badConnection (message : String) : SqlError := ⟨.badConnection, message⟩
def socketFailed (message : String) : SqlError := ⟨.socketFailed, message⟩
def queryFailed (message : String) : SqlError := ⟨.queryFailed, message⟩
def shuttingDown (message : String) : SqlError := ⟨.shuttingDown, message⟩
def transactionRolledBack : SqlError := ⟨.transactionRolledBack, "transaction already rolled back"⟩

end SqlError

end PostgresLib.Connection
