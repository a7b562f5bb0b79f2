import Innen.Common.SortedMap
import Innen.Common.Admission
import Innen.Common.Text
import Innen.Common.Trails
import Innen.Common.StraightLine
import Innen.Common.Shell
import Innen.Common.Utf8
import Innen.Common.ByteLines
import Innen.Common.Boundaries
import Innen.Common.Lossy
import Innen.Common.Worklist
import Innen.Common.BranchBound
import Innen.Common.Except
import Innen.Common.Descent
import Innen.Common.BreadthFirst
import Innen.Common.Layers
import Innen.Common.Transition
import Innen.Common.Interrupted
import Innen.Common.Paging
import Innen.Common.Places
import Innen.Common.Chains
import Innen.Common.CycleWalk
import Innen.Common.FileTree
import Innen.Json.Value
import Innen.Json.Text
import Innen.Json.Markers
import Innen.Json.Pointer
import Innen.Json.Slots
import Innen.Json.Braces
import Innen.Json.Readable
import Innen.Graph.EdgeType
import Innen.Graph.Materialize
import Innen.Graph.Replay
import Innen.Journal.Model
import Innen.Journal.EventId
import Innen.Journal.Lines
import Innen.Journal.Table
import Innen.Journal.Torn
import Innen.Journal.Strict
import Innen.Journal.Processes
import Innen.Index.Model
import Innen.Index.Refinement
import Innen.ContextSelection.Model
import Innen.ContextSelection.Exact
import Innen.ContextSelection.Greedy
import Innen.ContextCandidates.Model
import Innen.ContextCandidates.Partition
import Innen.Middleware.Model
import Innen.Middleware.Admission
import Innen.Middleware.History.Model
import Innen.Middleware.History.Guard
import Innen.Middleware.History.Packet
import Innen.Middleware.History.Dependencies
import Innen.Middleware.History.Store
import Innen.Middleware.History.Ledger
import Innen.Middleware.History.StoreRuns
import Innen.Middleware.History.Saves
import Innen.Middleware.History.Recovery
import Innen.EvidenceClosure.Contract
import Innen.EvidenceClosure.Snapshot
import Innen.EvidenceClosure.Closure
import Innen.EvidenceClosure.Evaluation
import Innen.EvidenceClosure.Replayed
import Innen.EvidenceClosure.Hops
import Innen.Conversation.Page
import Innen.Conversation.Candidates
import Innen.Conversation.Checkpoint
import Innen.Conversation.CheckpointLog
import Innen.Conversation.Read
import Innen.Conversation.Paging
import Innen.Conversation.Compact
import Innen.Conversation.Rows
import Innen.Conversation.Deltas
import Innen.Conversation.Unfinished.Tail
import Innen.Conversation.Edges
import Innen.Conversation.Codec
import Innen.Conversation.Grammar
import Innen.Conversation.Compress
import Innen.Conversation.Attachments
import Innen.Conversation.Restore
import Innen.Conversation.Scan
import Innen.Conversation.CappedLines
import Innen.Conversation.ScanPages
import Innen.Conversation.Prune.Scan
import Innen.Conversation.Prune.Rules
import Innen.Conversation.Prune.Apply
import Innen.Conversation.Prune.Pins
import Innen.Conversation.Prune.Reads
import Innen.Credentials
import Innen.Credentials.Matchers
import Innen.Credentials.Agreement
import Innen.Harvest.Model
import Innen.Artifact.Ledger.Model
import Innen.Artifact.Ledger.Timeline
import Innen.Artifact.Ledger.Supersession
import Innen.Artifact.Ledger.Files
import Innen.Artifact.Ledger.Directory
import Innen.Artifact.Ledger.Recovery
import Innen.Artifact.Finalize.Model
import Innen.Artifact.Finalize.Checks
import Innen.Artifact.Finalize.Safety
import Innen.Artifact.Finalize.Retry
import Innen.Retention.Model
import Innen.Retention.Knowledge
import Innen.Retention.Fingerprint
import Innen.Retention.View
import Innen.Retention.Deletion
import Innen.Retention.Compact
import Innen.Harvest.Events
import Innen.Harvest.Runs
import Innen.Harvest.Preview
import Innen.WikiGraph.Pages
import Innen.WikiGraph.Sync
import Innen.WikiGraph.Effects
import Innen.WikiGraph.Planning
import Innen.WikiGraph.Ownership
import Innen.WikiGraph.Unread
import Innen.Graph.Adjacency
import Innen.Common.Representatives
import Innen.Common.Best
import Innen.Common.Runs
import Innen.Common.Ledger
import Innen.Common.Segments
import Innen.TaskEntry.Candidates
import Innen.TaskEntry.Baseline
import Innen.TaskEntry.Rows
import Innen.TaskEntry.ExactId
import Innen.TaskEntry.Neighbors
import Innen.TaskEntry.Budget
import Innen.TaskEntry.BudgetPaging
import Innen.Query
import Innen.Conversation.TaskState.Model
import Innen.Conversation.TaskState.Ledger
import Innen.Conversation.Unfinished.Evidence
import Innen.Conversation.Handoff.Paths
import Innen.Conversation.Handoff.Grouping
import Innen.Hook.Install
import Innen.Hook.Quoting
import Innen.Config.Toml
import Innen.Hook.Settings
import Innen.Hook.Preserved
import Innen.Hook.Files
import Innen.Time.Instants
import Innen.TaskProposal.Context
import Innen.TaskProposal.Proposal
import Innen.TaskProposal.Review
import Innen.TaskProposal.Gate
import Innen.Trace.Lexical
import Innen.Trace.Routes
import Innen.Trace.Reach
import Innen.Trace.Trails
import Innen.Trace.Passages
import Innen.Trace.Cuts
import Innen.Trace.Metadata
import Innen.Trace.Sources
import Innen.Trace.Search
import Innen.Trace.Coverage
import Innen.Trace.Excerpts
import Innen.Trace.Ranked
import Innen.Trace.Expand
import Innen.SemanticProposals.Model
import Innen.SemanticProposals.Sound
import Innen.Conversation.Unfinished.Marks
import Innen.Conversation.Unfinished.Verdict
import Innen.Conversation.Unfinished.Agreement
import Innen.Config.Persisted
import Innen.Config.ReadBack
