import Flambeau.Json.Document
import Flambeau.Json.Automaton
import Flambeau.Json.Relaxed
import Flambeau.Json.Unambiguous
import Flambeau.Runtime.JsonGrammar
import Flambeau.Runtime.NumberTokens
import Flambeau.Runtime.StringTokens
import Flambeau.Runtime.JsonReader
import Flambeau.Runtime.JsonLanguage
import Flambeau.Json.Defects
import Flambeau.Runtime.JsonTexts
import Flambeau.Runtime.JsonSchema
import Flambeau.Runtime.SchemaReader
import Flambeau.Runtime.SchemaLanguage
import Flambeau.Runtime.SchemaConforms
import Flambeau.Runtime.SchemaTrips
import Flambeau.Runtime.SchemaTexts
import Flambeau.Runtime.SchemaDeadEnds
import Flambeau.Server.Scheduler
import Flambeau.Server.SchedulerMoves
import Flambeau.Server.SchedulerInvariant
import Flambeau.Server.DecodeLoop
import Flambeau.Server.Contiguity
import Flambeau.Server.ToolCallParser.Events
import Flambeau.Stream.Machine
import Flambeau.Stream.Search
import Flambeau.Server.ToolCallParser.Text
import Flambeau.Server.ToolCallParser.Hermes
import Flambeau.Stream.Prose
import Flambeau.Server.ToolCallParser.HermesMachine
import Flambeau.Server.ToolCallParser.HermesChunks
import Flambeau.Server.ToolCallParser.Gemma4Args
import Flambeau.Server.ToolCallParser.Gemma4
import Flambeau.Server.ToolCallParser.Gemma4Stream
import Flambeau.Server.ToolCallParser.Gemma4Stable
import Flambeau.Server.ToolCallParser.Gemma4Chunks
import Flambeau.Forward.ArCoordinator
import Flambeau.Forward.PagePool
import Flambeau.Forward.Scratch
import Flambeau.Forward.Workers
import Flambeau.Forward.Loader.GdnLayer
import Flambeau.Forward.Loader.DenseAttn
import Flambeau.Forward.Attn.Paged
import Flambeau.Systems.RingLog
import Flambeau.Forward.Attn.Kernels
import Flambeau.Forward.Attn.Contiguous
import Flambeau.Forward.Attn.Slab
import Flambeau.Forward.Attn.Window
import Flambeau.Forward.Attn.Batched
import Flambeau.Forward.Attn.Disjoint
import Flambeau.Forward.Gdn.Kernels
import Flambeau.Forward.Gdn.Chunks
import Flambeau.Forward.Attn.Mixed
import Flambeau.Forward.Gdn.Mixed
import Flambeau.Models.Qwen35
import Flambeau.Models.MixedBatch
import Flambeau.Models.Pipeline
import Flambeau.Server.PrefixCache
import Flambeau.Server.PrefixRestore
import Flambeau.Server.PrefixHits
import Flambeau.Runtime.SamplerSupport
import Flambeau.Server.Generation
import Flambeau.Server.LoopsAgree
import Flambeau.Server.JsonRuns
import Flambeau.Server.StopStrings
import Flambeau.Server.StreamedText
import Flambeau.Forward.Handoff
import Flambeau.Forward.HandoffInvariant
import Flambeau.Forward.HandoffRuns
import Flambeau.Forward.HandoffPairing
import Flambeau.Forward.SlotSnapshot
import Flambeau.Forward.SnapshotRestore
import Flambeau.Forward.FusedResidual
import Flambeau.Forward.FusedResidualSpec
import Flambeau.Forward.FusedResidualBlocks
import Flambeau.Forward.FusedResidualRuns
import Flambeau.Server.Routing
import Flambeau.Server.RoutedRuns
import Flambeau.Server.CacheAccounting
import Flambeau.Server.StandingHits
import Flambeau.Quant.DType
import Flambeau.Quant.Gguf
import Flambeau.Runtime.MaskedTokens
import Flambeau.Quant.GgufLayout
import Flambeau.Quant.GgufTotal
import Flambeau.Quant.GgufFile
import Flambeau.Runtime.TpSlice
import Flambeau.Systems.Strides
import Flambeau.Runtime.TpPartition
import Flambeau.Runtime.TpExact
import Flambeau.Runtime.TpPartitions
import Flambeau.Server.ToolCallParser.CallEvents
import Flambeau.Server.ToolCallParser.Gemma4Events
import Flambeau.Server.ToolCallParser.QwenCoder
import Flambeau.Server.ToolCallParser.QwenMachine
import Flambeau.Stream.Judgement
import Flambeau.Server.ToolCallParser.QwenEvents
import Flambeau.Server.ToolCallParser.Format
import Flambeau.Server.ToolCalls
import Flambeau.Server.ToolCallParser.HermesEvents
import Flambeau.Server.ToolCallParser.QwenUnclosed
import Flambeau.Server.ToolCallsAgree
import Flambeau.Stream.Account
import Flambeau.Server.ToolCallParser.HermesPieces
import Flambeau.Server.ToolCallParser.QwenPieces
import Flambeau.Server.ToolCallParser.Gemma4Pieces
import Flambeau.Server.ToolCallParser.FinishSettles
import Flambeau.Server.ToolCallParser.PlainText
import Flambeau.Server.ToolCallParser.QwenBytes
import Flambeau.Server.ToolCallParser.QwenTotal
import Flambeau.Stream.Safe
import Flambeau.Server.ToolCallParser.HermesTotal
import Flambeau.Server.ToolCallParser.Gemma4Bytes
import Flambeau.Server.ToolCallParser.Gemma4Parser
import Flambeau.Runtime.Collective
import Flambeau.Runtime.CollectiveMesh
import Flambeau.Runtime.CollectiveRuns
import Flambeau.Runtime.CollectiveSteps
import Flambeau.Runtime.CollectiveOracle
import Flambeau.Runtime.MultinomialPick
import Flambeau.Runtime.DistributionAgrees
import Flambeau.Runtime.DistributionDrawn
import Flambeau.Server.ToolCallParser.Gemma4ParserBytes
import Flambeau.Server.ToolCallParser.Gemma4CallBytes
import Flambeau.Server.ToolCallParser.Gemma4ScanBytes
import Flambeau.Server.ToolCallParser.Gemma4Total
import Flambeau.Server.ToolCallParser.Gemma4Echo
import Flambeau.Stream.Residual
import Flambeau.Server.ToolCallParser.QwenRoundTrip
import Flambeau.Server.ToolCallParser.HermesRoundTrip
import Flambeau.Server.ToolCallParser.Gemma4Native
import Flambeau.Server.ToolCallParser.Gemma4RoundTrip
import Flambeau.Server.Admission
import Flambeau.Server.CacheEviction
import Flambeau.Quant.LossyText
import Flambeau.Server.LossyStream
import Flambeau.Runtime.JsonOpener
import Flambeau.Server.JsonOpens
import Flambeau.Quant.GgufOpen
import Flambeau.Quant.GgufIndex
import Flambeau.Systems.Words
import Flambeau.Quant.GgufRanges
import Flambeau.Quant.GgufRangeSafety
import Flambeau.Runtime.TpSizes
import Flambeau.Runtime.SamplerScratch
import Flambeau.Forward.PagePoolRuns
import Flambeau.Forward.Loader.WeightShards
import Flambeau.Systems.Windows
import Flambeau.Forward.Loader.WeightShardsExact
import Flambeau.Forward.Attn.SplitK
import Flambeau.Quant.Iq2
import Flambeau.Server.LayerSplit
import Flambeau.Forward.Attn.HostCopies
import Flambeau.Quant.KQuants
import Flambeau.Ops.MoeSort
import Flambeau.Ops.MoeExperts
import Flambeau.Ops.QMatmulSound
import Flambeau.Server.MessageContent
import Flambeau.Forward.Attn.DecodeKernels
