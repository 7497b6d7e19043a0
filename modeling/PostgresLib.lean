import PostgresLib.Foundations.ThreadPool
import PostgresLib.Foundations.Worklist
import PostgresLib.Foundations.KeyedStore
import PostgresLib.Foundations.Linearizability
import PostgresLib.Foundations.Completion
import PostgresLib.Foundations.Simulation
import PostgresLib.Foundations.Monitor
import PostgresLib.Foundations.Agreement
import PostgresLib.Foundations.LockOrder
import PostgresLib.Wire.Parameters
import PostgresLib.Wire.Integers
import PostgresLib.Wire.Timestamps
import PostgresLib.Wire.Numeric
import PostgresLib.Wire.NumericValue
import PostgresLib.Wire.NumericForm
import PostgresLib.Wire.Accessors
import PostgresLib.Wire.Moves
import PostgresLib.Result.Table
import PostgresLib.Result.Echo
import PostgresLib.SqlParser.Comments
import PostgresLib.SqlParser.OpenComment
import PostgresLib.SqlParser.NormalForm
import PostgresLib.SqlParser.Pieces
import PostgresLib.SqlParser.Concatenation
import PostgresLib.Connection.DatabaseUrl
import PostgresLib.Connection.Execution
import PostgresLib.Connection.Collecting
import PostgresLib.Connection.Submission
import PostgresLib.Connection.Attribution
import PostgresLib.Connection.Sessions
import PostgresLib.Connection.Server
import PostgresLib.Connection.ErrorTexts
import PostgresLib.Connection.Usage
import PostgresLib.Connection.ResultOwners
import PostgresLib.Connection.Returning
import PostgresLib.Transaction.Objects
import PostgresLib.Transaction.Calls
import PostgresLib.Transaction.Protocol
import PostgresLib.Transaction.Terminators
import PostgresLib.Client.Model
import PostgresLib.Client.Requests
import PostgresLib.Client.Shutdown
import PostgresLib.Client.LateRequests
import PostgresLib.Client.Fifo
import PostgresLib.Client.CrossTalk
import PostgresLib.Client.Sessions
import PostgresLib.Client.Overlap
import PostgresLib.Client.Transactions
import PostgresLib.Client.TransactionEnds
import PostgresLib.Client.CallbackQueue
import PostgresLib.Client.StopSignal
import PostgresLib.Client.Locks
import PostgresLib.Client.Ownership
import PostgresLib.Client.SelfWait
import PostgresLib.Client.Linearizable
import PostgresLib.Client.Wakeups
import PostgresLib.Client.Completion
import PostgresLib.Client.Refinement
import PostgresLib.Client.Heartbeat
import PostgresLib.Memory.IntrusivePtr
import PostgresLib.Memory.Deletion
import PostgresLib.Memory.ReferenceCounts
import PostgresLib.Memory.Reclamation
import PostgresLib.Pool.ConnectionFactory
import PostgresLib.Pool.SizeBound
import PostgresLib.Pool.Transit
import PostgresLib.Pool.Warmup
import PostgresLib.Pool.WarmupEnd
import PostgresLib.Pool.Managers
import PostgresLib.Pool.Lifetime
import PostgresLib.Pool.LifetimeRefinement
import PostgresLib.Migrations.InOrder
