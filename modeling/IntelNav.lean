import IntelNav.Stream.Pull
import IntelNav.Wire.Streaming
import IntelNav.Wire.Cbor
import IntelNav.App.DrainSafety
import IntelNav.App.ChainCount
import IntelNav.App.LeaveDurable
import IntelNav.App.ForwardServer
import IntelNav.Ggml.Payload
import IntelNav.Core.Floats
import IntelNav.App.ReplySize
import IntelNav.Runtime.Chain
import IntelNav.App.ChainDriver
import IntelNav.App.Serving
import IntelNav.App.Isolation
import IntelNav.Runtime.Sample
import IntelNav.Runtime.Tokenizer
import IntelNav.Transition.Loop
import IntelNav.Runtime.Generate
import IntelNav.System.Peers
import IntelNav.System.Hops
import IntelNav.Runtime.Splits
import IntelNav.Runtime.Contract
import IntelNav.System.Connect
import IntelNav.System.Refinement
import IntelNav.App.DrainRecord
import IntelNav.App.ShutdownDrain
import IntelNav.ModelStore.P2p
import IntelNav.Transition.Desk
import IntelNav.ModelStore.FetchReplies
import IntelNav.ModelStore.GiveUp
import IntelNav.ModelStore.Gguf
import IntelNav.ModelStore.GgufGrammar
import IntelNav.ModelStore.GgufOpen
import IntelNav.ModelStore.GgufExact
import IntelNav.ModelStore.GgufFaults
import IntelNav.Layout.Tiles
import IntelNav.ModelStore.GgufIndex
import IntelNav.ModelStore.GgufWalks
import IntelNav.Layout.Groups
import IntelNav.ModelStore.Bundle
import IntelNav.ModelStore.Chunker
import IntelNav.ModelStore.ChunkerSpec
import IntelNav.ModelStore.Overflow
import IntelNav.ModelStore.ChunkOutput
import IntelNav.Disk.Paths
import IntelNav.ModelStore.Http
import IntelNav.ModelStore.HttpSpec
import IntelNav.App.SwarmContribute
import IntelNav.App.PulledSlice
import IntelNav.ModelStore.Serve
import IntelNav.ModelStore.SplitFiles
import IntelNav.App.Announce
import IntelNav.App.Announced
import IntelNav.App.HostedRanges
import IntelNav.Cache.Positions
import IntelNav.Runtime.GgmlBackend
import IntelNav.App.CacheLength
import IntelNav.App.Rejoin
import IntelNav.Tui.Input
import IntelNav.Tui.App
import IntelNav.Tui.StreamedText
import IntelNav.ModelStore.Selection
import IntelNav.App.FetchPlanCovers
import IntelNav.Disk.Volume
import IntelNav.ModelStore.StitchRuns
import IntelNav.ModelStore.FetchRuns
import IntelNav.App.CacheWrites
import IntelNav.Runtime.Exchanges
import IntelNav.App.PairedReplies
import IntelNav.Text.Utf8
import IntelNav.Digits.Carry
import IntelNav.Core.Base58
import IntelNav.Ranking.Newest
import IntelNav.App.Candidates
import IntelNav.Transition.Cell
import IntelNav.App.TargetWrites
import IntelNav.ModelStore.StitchedKv
import IntelNav.ModelStore.Resume
import IntelNav.Runtime.RepeatPenalty
import IntelNav.Ranking.Shares
import IntelNav.Runtime.Nucleus
import IntelNav.Digits.Steps
import IntelNav.Ggml.Int8
import IntelNav.Text.Lossy
import IntelNav.Runtime.TextStream
import IntelNav.Decoding.Causal
import IntelNav.Decoding.Greedy
import IntelNav.Runtime.Rows
import IntelNav.Runtime.Spec
import IntelNav.Runtime.Saying
import IntelNav.Runtime.SpecRounds
import IntelNav.Wire.Delimited
import IntelNav.System.Passes
import IntelNav.System.TargetPasses
import IntelNav.System.Speculation
import IntelNav.System.SpecRefinement
import IntelNav.Layout.Rows
import IntelNav.Tui.Wrap
import IntelNav.Tui.CursorRows
import IntelNav.Tui.HomeEnd
import IntelNav.Text.Words
import IntelNav.Tui.ProseWrap
import IntelNav.Tui.Fences
import IntelNav.Text.Expand
import IntelNav.Tui.Pastes
import IntelNav.Tui.ByteBox
import IntelNav.Transition.Once
import IntelNav.App.SliceLoading
import IntelNav.ModelStore.FullStitch
import IntelNav.ModelStore.StitchFaults
import IntelNav.ModelStore.StitchedModel
import IntelNav.Transition.Meeting
import IntelNav.Net.Swarm
import IntelNav.Net.SwarmReplies
import IntelNav.Transition.Family
import IntelNav.Text.Marks
import IntelNav.Net.Shards
import IntelNav.Net.Discovery
import IntelNav.App.SwarmChains
import IntelNav.ModelStore.Published
import IntelNav.ModelStore.Metadata
import IntelNav.Runtime.Fresh
import IntelNav.Runtime.Prompt
import IntelNav.App.LocalDriver
import IntelNav.Runtime.LocalText
import IntelNav.App.Catalog
import IntelNav.App.Installs
import IntelNav.Ranking.Keep
import IntelNav.App.Gate
import IntelNav.Stream.Lines
import IntelNav.Transition.Run
import IntelNav.App.ControlSocket
import IntelNav.Layout.Ring
import IntelNav.Tui.Picker
import IntelNav.App.Picker
