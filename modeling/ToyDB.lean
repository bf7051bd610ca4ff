import ToyDB.Collections.LinkedList
import ToyDB.Collections.OrderedMap
import ToyDB.Effects.Program
import ToyDB.Error
import ToyDB.Cache.Cache
import ToyDB.Cache.Capacity
import ToyDB.Cache.Eviction
import ToyDB.Consensus.State
import ToyDB.Consensus.Safety
import ToyDB.Consensus.Invariant
import ToyDB.Consensus.Quorum
import ToyDB.Effects.Meter
import ToyDB.Effects.Triple
import ToyDB.Encoding.OrderedCode
import ToyDB.Encoding.BigEndian
import ToyDB.Sql.Types.Value
import ToyDB.Encoding.Keycode
import ToyDB.Storage.BitCask
import ToyDB.Encoding.ByteOrder
import ToyDB.Storage.Engine
import ToyDB.Mvcc.Transaction
import ToyDB.Mvcc.Script
import ToyDB.Logic.Truth
import ToyDB.Sql.Types.Arithmetic
import ToyDB.Sql.Types.Expression
import ToyDB.Sql.Types.Schema
import ToyDB.Sql.Types.ValueSet
import ToyDB.Sql.Engine.Local
import ToyDB.Encoding.Keys
import ToyDB.Encoding.Prefixes
import ToyDB.Mvcc.History
import ToyDB.Mvcc.Spec
import ToyDB.Mvcc.Encoding
import ToyDB.Mvcc.Visibility
import ToyDB.Mvcc.Run
import ToyDB.Mvcc.Abstract
import ToyDB.Mvcc.Activity
import ToyDB.Mvcc.Cleanup
import ToyDB.Mvcc.Committed
import ToyDB.Mvcc.Draft
import ToyDB.Mvcc.Scan
import ToyDB.Mvcc.ScanView
import ToyDB.Mvcc.Sessions
import ToyDB.Mvcc.Constraints
import ToyDB.Mvcc.Isolation
import ToyDB.Mvcc.TimeTravel
import ToyDB.Mvcc.Cursor
import ToyDB.Mvcc.EngineKeys
import ToyDB.Mvcc.Serial
import ToyDB.Raft.Message
import ToyDB.Raft.Log
import ToyDB.Raft.Node
import ToyDB.Raft.Cluster
import ToyDB.Raft.Accounting
import ToyDB.Raft.History
import ToyDB.Raft.Meaning
import ToyDB.Raft.LogFacts
import ToyDB.Raft.Steps
import ToyDB.Raft.Roles
import ToyDB.Raft.Splice
import ToyDB.Raft.FollowerSpec
import ToyDB.Raft.CandidateSpec
import ToyDB.Raft.LeaderSpec
import ToyDB.Raft.CommitSpec
import ToyDB.Raft.NodeSpec
import ToyDB.Raft.Simulation
import ToyDB.Raft.Safety
import ToyDB.Raft.Replication
import ToyDB.Raft.Exchange
import ToyDB.Raft.CatchUp
import ToyDB.Raft.Debts
import ToyDB.Raft.LogStore
import ToyDB.Raft.LogRefinement
import ToyDB.Raft.LogCrash
import ToyDB.Raft.LogRuns
import ToyDB.Raft.Panics
import ToyDB.Raft.Prompt
import ToyDB.Raft.Requests
import ToyDB.Raft.Spliced
import ToyDB.Raft.Waiting
import ToyDB.Sql.Engine.Catalog
import ToyDB.Sql.Engine.Reading
import ToyDB.Sql.Engine.Integrity
import ToyDB.Sql.Engine.Validation
import ToyDB.Sql.Engine.References
import ToyDB.Sql.Engine.Writing
import ToyDB.Sql.Engine.Preservation
import ToyDB.Sql.Engine.SchemaChanges
import ToyDB.Sql.Engine.Concurrency
import ToyDB.Sql.Engine.Referential
import ToyDB.Sql.Engine.FixedCatalog
import ToyDB.Sql.Engine.Uniqueness
import ToyDB.Sql.Engine.Consistency
import ToyDB.Sql.Engine.EngineKeys
import ToyDB.Sql.Planner.Plan
import ToyDB.Sql.Execution.Aggregator
import ToyDB.Sql.Execution.Executor
import ToyDB.Sql.Execution.Agreement
import ToyDB.Sql.Execution.Session
import ToyDB.Sql.Execution.Client
import ToyDB.Sql.Execution.Join
import ToyDB.Sql.Types.NormalForm
import ToyDB.Sql.Types.Predicate
import ToyDB.Sql.Execution.Keeping
import ToyDB.Sql.Execution.Width
import ToyDB.Sql.Parser.Ast
import ToyDB.Sql.Parser.Lexer
import ToyDB.Sql.Parser.Parser
import ToyDB.Sql.Parser.Printing
import ToyDB.Sql.Parser.Climbing
import ToyDB.Sql.Parser.Scanning
import ToyDB.Sql.Parser.Unambiguous
import ToyDB.Sql.Parser.Precedence
import ToyDB.Sql.Parser.Statement
import ToyDB.Sql.Parser.Traversal
import ToyDB.Sql.Types.Conjunctive
import ToyDB.Sql.Planner.Folding
import ToyDB.Sql.Planner.Optimizer
import ToyDB.Sql.Planner.Scope
import ToyDB.Sql.Planner.Planner
import ToyDB.Sql.Planner.Scoping
import ToyDB.Sql.Types.Admission
import ToyDB.Sql.Planner.Meaning
import ToyDB.Sql.Types.Coherence
import ToyDB.Sql.Planner.Lookups
import ToyDB.Sql.Planner.Passes
import ToyDB.Sql.Planner.Planned
import ToyDB.Sql.Planner.HashJoin
import ToyDB.Sql.Planner.Naming
import ToyDB.Sql.Planner.Pushdown
import ToyDB.Sql.Planner.ShortCircuit
import ToyDB.Sql.Types.Integers
import ToyDB.Sql.Types.Like
import ToyDB.Storage.LogFile
import ToyDB.Storage.Refinement
import ToyDB.Storage.TornTail
import ToyDB.Storage.Durability
import ToyDB.Storage.Garbage
import ToyDB.Workload.BlockGen
