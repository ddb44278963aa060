import NatcpSpec.Base.Arith
import NatcpSpec.Base.Decimal
import NatcpSpec.Base.Double
import NatcpSpec.Base.Loop
import NatcpSpec.Base.Machine
import NatcpSpec.Base.Number
import NatcpSpec.Base.Printf
import NatcpSpec.Base.Rank
import NatcpSpec.Base.Residence
import NatcpSpec.Base.ScanFloat
import NatcpSpec.Base.Scanf
import NatcpSpec.Base.Series
import NatcpSpec.Base.Shell
import NatcpSpec.Base.Tally
import NatcpSpec.Base.Tokens
import NatcpSpec.Base.Transition
import NatcpSpec.Client.Query
import NatcpSpec.Client.QueryBuffer
import NatcpSpec.Server.Completion
import NatcpSpec.Server.Feedback
import NatcpSpec.Server.Interleaving
import NatcpSpec.Server.Loader
import NatcpSpec.Server.LoaderBounds
import NatcpSpec.Server.Replay
import NatcpSpec.Server.ReplayBias
import NatcpSpec.Server.ReplayClock
import NatcpSpec.Server.ReplayCorrection
import NatcpSpec.Server.ReplayCoverage
import NatcpSpec.Server.ReplayDouble
import NatcpSpec.Server.ReplayDue
import NatcpSpec.Server.ReplayOptions
import NatcpSpec.Server.ReplayPasses
import NatcpSpec.Server.ReplaySchedule
import NatcpSpec.Server.Request
import NatcpSpec.Server.RequestCodec
import NatcpSpec.Server.RequestSafety
import NatcpSpec.Server.SendFailures
import NatcpSpec.Server.Threads
import NatcpSpec.Server.Transfer
import NatcpSpec.Trace.Agreement
import NatcpSpec.Trace.Binning
import NatcpSpec.Trace.Delays
import NatcpSpec.Trace.Divisions
import NatcpSpec.Trace.Generator
import NatcpSpec.Trace.LineOrder
import NatcpSpec.Trace.Log
import NatcpSpec.Trace.Pipeline
import NatcpSpec.Trace.Queue
import NatcpSpec.Trace.Rebin
import NatcpSpec.Trace.SignalDelay
import NatcpSpec.Trace.SignalLoop
import NatcpSpec.Trace.Startup
import NatcpSpec.Trace.Tools
import NatcpSpec.System.Basetime
import NatcpSpec.System.Connection
import NatcpSpec.System.Descriptors
import NatcpSpec.System.Handshake
import NatcpSpec.System.Launch
import NatcpSpec.System.OnTime
import NatcpSpec.System.Rates
import NatcpSpec.System.Setup
