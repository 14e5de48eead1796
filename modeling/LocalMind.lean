import LocalMind.Api.Anthropic
import LocalMind.Api.AnthropicRequest
import LocalMind.Api.OpenaiKept
import LocalMind.Api.OpenaiRequest
import LocalMind.Atem.Channels
import LocalMind.Atem.Headers
import LocalMind.Atem.HoldBack
import LocalMind.Atem.Markers
import LocalMind.Atem.Streaming
import LocalMind.Atem.Tools
import LocalMind.Atem.ToolsJson
import LocalMind.Atem.ToolsWire
import LocalMind.Backends.Balancer
import LocalMind.Backends.Calls
import LocalMind.Backends.CounterExact
import LocalMind.Backends.Grouped
import LocalMind.Backends.IdleFirst
import LocalMind.Backends.Preflight
import LocalMind.Backends.Routing
import LocalMind.Backends.Sequential
import LocalMind.Boot.Spans
import LocalMind.Concurrent.Holdings
import LocalMind.Concurrent.Program
import LocalMind.Concurrent.Run
import LocalMind.Config.Backends
import LocalMind.Engine.SpecLive
import LocalMind.Exporters.Accounting
import LocalMind.Exporters.FlushBarrier
import LocalMind.Exporters.Influx
import LocalMind.Exporters.Writer
import LocalMind.Fixes.BadFilepath
import LocalMind.Fixes.Configured
import LocalMind.Fixes.ContextFree
import LocalMind.Fixes.Detection
import LocalMind.Fixes.FilepathFirstWins
import LocalMind.Fixes.FilepathOutcome
import LocalMind.Fixes.FilepathSlices
import LocalMind.Fixes.FilepathTruncation
import LocalMind.Fixes.JsonScan
import LocalMind.Fixes.JsonScanAgreement
import LocalMind.Fixes.MalformedArguments
import LocalMind.Fixes.NullIndex
import LocalMind.Fixes.Registry
import LocalMind.Fixes.RegistryContainment
import LocalMind.Fixes.RegistryFrame
import LocalMind.Fixes.RegistryRefusal
import LocalMind.Fixes.RegistryRun
import LocalMind.Fixes.Repair
import LocalMind.Fixes.SlotFilling
import LocalMind.Fixes.SlotsExact
import LocalMind.Holder.Check
import LocalMind.Holder.Maps
import LocalMind.Holder.Report
import LocalMind.Json.Codec
import LocalMind.Json.Commented
import LocalMind.Json.Entries
import LocalMind.Json.Grammar
import LocalMind.Json.Lexical
import LocalMind.Json.LineEnds
import LocalMind.Json.Marked
import LocalMind.Json.Print
import LocalMind.Json.Python
import LocalMind.Json.Quotes
import LocalMind.Json.Record
import LocalMind.Json.Reread
import LocalMind.Json.Rereads
import LocalMind.Json.Rewrite
import LocalMind.Json.Same
import LocalMind.Json.Text
import LocalMind.Json.Value
import LocalMind.Order.FirstMin
import LocalMind.Order.Greatest
import LocalMind.Order.StableSort
import LocalMind.Order.Windows
import LocalMind.Plugins.JevAsk
import LocalMind.Plugins.JevAskAccount
import LocalMind.Plugins.JevChunks
import LocalMind.Plugins.JevPool
import LocalMind.Plugins.JevQuery
import LocalMind.Plugins.JevQueryLawful
import LocalMind.Plugins.JevTurns
import LocalMind.Plugins.ProjectRm
import LocalMind.Plugins.ProjectRmExact
import LocalMind.Plugins.StopJobs
import LocalMind.Plugins.StopJobsReport
import LocalMind.Proxy.Accumulate
import LocalMind.Proxy.Admission
import LocalMind.Proxy.AdmissionExact
import LocalMind.Proxy.AnthropicAugment
import LocalMind.Proxy.AnthropicMerge
import LocalMind.Proxy.AnthropicReassembly
import LocalMind.Proxy.AnthropicStream
import LocalMind.Proxy.Augment
import LocalMind.Proxy.ClaudeFrames
import LocalMind.Proxy.ClaudeStream
import LocalMind.Proxy.ClaudeStreamShape
import LocalMind.Proxy.ContextCache
import LocalMind.Proxy.ContextCacheSound
import LocalMind.Proxy.Decompress
import LocalMind.Proxy.FollowUps
import LocalMind.Proxy.Framing
import LocalMind.Proxy.FramingConservation
import LocalMind.Proxy.FramingFlush
import LocalMind.Proxy.FramingInvariance
import LocalMind.Proxy.FramingSoundness
import LocalMind.Proxy.Inject
import LocalMind.Proxy.InjectTyped
import LocalMind.Proxy.KvCache
import LocalMind.Proxy.KvLabels
import LocalMind.Proxy.KvLabelsExact
import LocalMind.Proxy.KvScrape
import LocalMind.Proxy.Merge
import LocalMind.Proxy.MergeFiling
import LocalMind.Proxy.MergeSafety
import LocalMind.Proxy.MergeToolCalls
import LocalMind.Proxy.Overrides
import LocalMind.Proxy.OverridesMinimal
import LocalMind.Proxy.PassThrough
import LocalMind.Proxy.PassThroughDelivery
import LocalMind.Proxy.PassThroughOrder
import LocalMind.Proxy.PassThroughSoundness
import LocalMind.Proxy.PromptCache
import LocalMind.Proxy.Reprompt
import LocalMind.Proxy.RepromptText
import LocalMind.Proxy.Respond
import LocalMind.Proxy.RespondContent
import LocalMind.Proxy.Shutdown
import LocalMind.Proxy.SplitChars
import LocalMind.Proxy.StreamObserver
import LocalMind.Proxy.Synthesis
import LocalMind.Proxy.SynthesisDecode
import LocalMind.Proxy.SynthesisFold
import LocalMind.Proxy.SynthesisShape
import LocalMind.Shell.Expansion
import LocalMind.Shell.Paths
import LocalMind.Shell.Words
import LocalMind.Stats.Collector
import LocalMind.Stats.Compact
import LocalMind.Stats.CompactColumns
import LocalMind.Stats.Metrics
import LocalMind.Stats.NullKeys
import LocalMind.Stream.Fallible
import LocalMind.Stream.Mealy
import LocalMind.Switcher.AgentModel
import LocalMind.Switcher.Brackets
import LocalMind.Switcher.DefaultModel
import LocalMind.Switcher.Edits
import LocalMind.Switcher.Items
import LocalMind.Switcher.Jsonc
import LocalMind.Switcher.Keys
import LocalMind.Switcher.LimitLines
import LocalMind.Switcher.Limits
import LocalMind.Switcher.Lines
import LocalMind.Switcher.Marked
import LocalMind.Switcher.Numbers
import LocalMind.Switcher.Spans
import LocalMind.Switcher.UpdateLimits
import LocalMind.Text.ByteSlice
import LocalMind.Text.Cells
import LocalMind.Text.LineProtocol
import LocalMind.Text.Quoted
import LocalMind.Text.Runs
import LocalMind.Text.Seams
import LocalMind.Text.Search
import LocalMind.Text.Str
import LocalMind.Text.Utf8
import LocalMind.Text.Words
