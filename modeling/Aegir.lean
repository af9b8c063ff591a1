import Aegir.Std.Run
import Aegir.Std.Mem
import Aegir.Model.Transport
import Aegir.Model.Publish
import Aegir.Verify.PublishHeader
import Aegir.Model.Clients
import Aegir.Verify.RoundTrip
import Aegir.Verify.RowMajor
import Aegir.Std.Ring
import Aegir.Std.Correlation
import Aegir.Model.Device
import Aegir.Model.Lag
import Aegir.Model.Coherent
import Aegir.Verify.LoopSteps
import Aegir.Verify.Iteration
import Aegir.Verify.ServedRequests
import Aegir.Verify.Calibration
import Aegir.Verify.PublishedSamples
import Aegir.Verify.ChannelFrames
import Aegir.Verify.Channels
import Aegir.Model.Startup
import Aegir.Verify.SoapyPackets
import Aegir.Verify.StartedChannels
import Aegir.Verify.Blocks
import Aegir.Verify.Readcounts
import Aegir.Model.Sync
import Aegir.Verify.LagRequests
import Aegir.Verify.Resync
import Aegir.Verify.SampleBuffers
import Aegir.Verify.CrossCorrelation
import Aegir.Verify.Messages
import Aegir.Verify.Fragments
import Aegir.Verify.ReceivedBytes
import Aegir.Verify.Formats
import Aegir.Std.CString
import Aegir.Std.Rounding
import Aegir.Std.Strtof
import Aegir.Model.Config
import Aegir.Verify.ReadYaml
import Aegir.Model.Console
import Aegir.Model.CommandQueue
import Aegir.Verify.CommandQueue
import Aegir.Verify.RemoteCommands
import Aegir.Verify.CommandLine
import Aegir.Verify.Tuning
import Aegir.Verify.YamlDocuments
import Aegir.Verify.BlockEntries
import Aegir.Verify.RootEntries
import Aegir.Verify.UnknownEntries
import Aegir.Verify.SameBlocks
import Aegir.Verify.KeyOrder
import Aegir.Verify.MalformedConfig
import Aegir.Model.Tuning
import Aegir.Verify.QueueUsers
import Aegir.Verify.RateRanges
import Aegir.Verify.Readiness
import Aegir.Verify.RecordedTuning
import Aegir.Model.Control
import Aegir.Verify.Convergence
import Aegir.Verify.SampleRates
import Aegir.Verify.SleepTimes
import Aegir.Model.Noise
import Aegir.Verify.NoiseState
import Aegir.Std.Parabola
import Aegir.Verify.PeakVertex
import Aegir.Verify.PhaseRotation
import Aegir.Verify.RingFifo
import Aegir.Verify.DataTokens
import Aegir.Model.Measure
import Aegir.Verify.FreshLags
import Aegir.Verify.LagDelivery
import Aegir.Verify.GainCommands
import Aegir.Verify.Quantization
import Aegir.Model.Barrier
import Aegir.Verify.Barrier
import Aegir.Model.Launch
import Aegir.Verify.Launch
import Aegir.Std.Progress
import Aegir.Verify.Lockstep
import Aegir.Model.Shutdown
import Aegir.Verify.Shutdown
import Aegir.Model.Controller
import Aegir.Verify.Controller
import Aegir.Verify.PendingRequests
import Aegir.Verify.DeliveredBlocks
import Aegir.Model.Server
import Aegir.Verify.Reception
import Aegir.Verify.Server
import Aegir.Verify.Lossless
import Aegir.Verify.ClosedLoop
import Aegir.Std.Confined
import Aegir.Verify.Confined
import Aegir.Model.Main
import Aegir.Verify.Main
import Aegir.Verify.Deployment
