import OxenClaw.Pi.Compaction
import OxenClaw.Agents.Repair
import OxenClaw.Lib.Machine
import OxenClaw.Lib.Dict
import OxenClaw.Lib.Glob
import OxenClaw.Agents.Tools
import OxenClaw.Pi.ToolRuntime
import OxenClaw.Pi.Run.Attempt
import OxenClaw.Pi.Run.Failover
import OxenClaw.Pi.Run.PreemptiveCompaction
import OxenClaw.Pi.Run.Recovery
import OxenClaw.Pi.Run.ToolResultTruncation
import OxenClaw.Pi.Run.Loop
import OxenClaw.Pi.Run.Pairing
import OxenClaw.Pi.Run.Termination
import OxenClaw.Approvals.Manager
import OxenClaw.Lib.Trace
import OxenClaw.Approvals.ToolWrap
import OxenClaw.Security.Policy
import OxenClaw.Security.Ssrf
import OxenClaw.Agents.ToolPolicy
import OxenClaw.Pi.Run.Calls
import OxenClaw.Agents.PseudoTool
import OxenClaw.Agents.PiAgent
import OxenClaw.Agents.PolicyGate
import OxenClaw.Approvals.Whitelist
import OxenClaw.Lib.Slots
import OxenClaw.Pi.Run.JsonRepair
import OxenClaw.Pi.Run.Assemble
import OxenClaw.Agents.LocalAgent
import OxenClaw.Pi.Providers.Deltas
import OxenClaw.Agents.SseDecoders
import OxenClaw.Pi.Providers.Ollama
import OxenClaw.Agents.Lanes
import OxenClaw.Pi.Mcp.Client
import OxenClaw.Lib.Numbered
import OxenClaw.Pi.Mcp.Names
import OxenClaw.Lib.Sqlite
import OxenClaw.Memory.Store
import OxenClaw.Pi.AuthPool
import OxenClaw.Pi.StoreLock
import OxenClaw.Lib.Spared
import OxenClaw.Pi.StoreMaintenance
import OxenClaw.Memory.Indexer
import OxenClaw.Memory.Current
import OxenClaw.Security.Pinning
import OxenClaw.Security.GuardedFetch
import OxenClaw.Pi.ToolResultStorage
import OxenClaw.Lib.Holes
import OxenClaw.Lib.ShellReading
import OxenClaw.Clawhub.SkillCommands
import OxenClaw.Lib.Intervals
import OxenClaw.Lib.Regex
import OxenClaw.Memory.Privacy
import OxenClaw.Pi.Persistence
import OxenClaw.Pi.Lifecycle
import OxenClaw.Lib.Lines
import OxenClaw.Memory.Chunker
import OxenClaw.Memory.ChunkLines
import OxenClaw.Lib.Sections
import OxenClaw.Memory.Inbox
import OxenClaw.Memory.InboxRoundTrip
import OxenClaw.Lib.Text
import OxenClaw.Memory.Retriever
import OxenClaw.Memory.ConcurrentSaves
import OxenClaw.Lib.Splice
import OxenClaw.ToolsPkg.FuzzyMatch
import OxenClaw.Pi.SessionManagers
import OxenClaw.Pi.SummarizerPipeline
import OxenClaw.Agents.Registry
import OxenClaw.ToolsPkg.SessionsSend
import OxenClaw.Approvals.Requests
import OxenClaw.Acp.ToolTelemetry
import OxenClaw.Clawhub.Installer
import OxenClaw.Backup.Archive
import OxenClaw.Backup.RoundTrip
import OxenClaw.Acp.ChildProcesses
import OxenClaw.Gateway.Router
import OxenClaw.Pi.Run.ToolDeltas
import OxenClaw.Pi.Run.ArgumentErrors
import OxenClaw.Lib.JsonMarks
import OxenClaw.Pi.Run.JsonLoads
import OxenClaw.Pi.Run.Alterations
import OxenClaw.Pi.Run.MissingClosers
import OxenClaw.Pi.Run.TrailingCommas
import OxenClaw.Acp.Framing
import OxenClaw.Acp.Cancellation
import OxenClaw.Acp.Responses
import OxenClaw.Pi.SessionReset
import OxenClaw.Pi.SessionFork
import OxenClaw.Pi.Run.TruncationBounds
import OxenClaw.Pi.Run.OversizedToolResults
import OxenClaw.Pi.Run.TruncationSavings
import OxenClaw.Agents.MessageMerge
import OxenClaw.Agents.History
import OxenClaw.Pi.OrphanRepair
import OxenClaw.Pi.SummaryStandIn
import OxenClaw.Pi.PipelinePairs
import OxenClaw.Pi.TurnBudget
import OxenClaw.Memory.Transfer
import OxenClaw.Agents.ToolLookup
import OxenClaw.Agents.HookVeto
import OxenClaw.Pi.Run.UnknownTools
import OxenClaw.Pi.Run.HistoryImagePrune
import OxenClaw.Lib.StableSort
import OxenClaw.Pi.SystemPrompt
import OxenClaw.Pi.UsageAccumulator
import OxenClaw.Lib.SqliteScript
import OxenClaw.Pi.Migrations
import OxenClaw.PluginSdk.ReplyRuntime
import OxenClaw.Lib.Packing
import OxenClaw.Pi.ToolPages
import OxenClaw.Pi.TranscriptRewrite
import OxenClaw.Lib.Cuts
import OxenClaw.Wiki.Markdown
import OxenClaw.Wiki.Store
import OxenClaw.Lib.Greedy
import OxenClaw.Memory.ChunkSizes
import OxenClaw.Memory.Reader
import OxenClaw.ToolsPkg.FileState
import OxenClaw.Memory.Mmr
import OxenClaw.Memory.Hybrid
import OxenClaw.Memory.Search
import OxenClaw.Memory.FailingSaves
import OxenClaw.Memory.Walker
import OxenClaw.Lib.Like
import OxenClaw.Memory.ShortTerm
import OxenClaw.Lib.Fences
import OxenClaw.Memory.RecallFence
import OxenClaw.Lib.FixedWindows
import OxenClaw.Memory.EmbeddingCache
import OxenClaw.Security.AddressClasses
import OxenClaw.Backup.Confinement
import OxenClaw.Clawhub.Compatibility
import OxenClaw.Security.RateLimiter
import OxenClaw.Wiki.ReadBack
import OxenClaw.Config.EnvLoader
import OxenClaw.Wiki.Ingest
import OxenClaw.ToolsPkg.SessionTools
import OxenClaw.Lib.RegexSearch
import OxenClaw.Security.CommandGate
import OxenClaw.ToolsPkg.SpawnedChildren
import OxenClaw.Lib.FileTree
import OxenClaw.Security.Checkpoint
import OxenClaw.Clawhub.BinInstaller
import OxenClaw.Lib.Binary64
import OxenClaw.Pi.RateLimitTracker
import OxenClaw.Pi.SessionMemoryHook
import OxenClaw.Agents.AcpParentStream
import OxenClaw.Pi.ContextEngine
import OxenClaw.Agents.PlanExecute
import OxenClaw.Memory.Dreaming
import OxenClaw.Lib.Replacing
import OxenClaw.Memory.DreamTwice
import OxenClaw.Lib.Recency
import OxenClaw.Pi.StoreReadCache
import OxenClaw.Canvas.Store
import OxenClaw.Agents.BareObjects
import OxenClaw.Channels.Reconnect
import OxenClaw.Agents.Dispatch
import OxenClaw.Cron.RunLog
import OxenClaw.Acp.Manager
import OxenClaw.Channels.Runner
import OxenClaw.ToolsPkg.ArgAliases
import OxenClaw.Canvas.Events
import OxenClaw.Pi.LlamaCppServer
