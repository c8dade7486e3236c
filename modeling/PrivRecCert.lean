import PrivRecCert.Bytes.BitAt
import PrivRecCert.Bytes.LittleEndian
import PrivRecCert.Bytes.XorBits
import PrivRecCert.CorRnd.Beaver
import PrivRecCert.CorRnd.DaBit
import PrivRecCert.CorRnd.Dealer
import PrivRecCert.CorRnd.Sharing
import PrivRecCert.CorRnd.Usage
import PrivRecCert.Metering.Meter
import PrivRecCert.Numeric.Binary64
import PrivRecCert.Prc.Admission
import PrivRecCert.Prc.Aggregation
import PrivRecCert.Prc.Alike
import PrivRecCert.Prc.Answering
import PrivRecCert.Prc.B2aConv
import PrivRecCert.Prc.B2aSound
import PrivRecCert.Prc.B2aSpec
import PrivRecCert.Prc.Channels
import PrivRecCert.Prc.Circuit
import PrivRecCert.Prc.Client
import PrivRecCert.Prc.ClientSpec
import PrivRecCert.Prc.ClientState
import PrivRecCert.Prc.Commitment
import PrivRecCert.Prc.Config
import PrivRecCert.Prc.Connection
import PrivRecCert.Prc.CorrelatedRandomness
import PrivRecCert.Prc.Db
import PrivRecCert.Prc.EndToEnd
import PrivRecCert.Prc.FailStop
import PrivRecCert.Prc.FrameDelivery
import PrivRecCert.Prc.FrameParser
import PrivRecCert.Prc.FrameSizes
import PrivRecCert.Prc.Isolation
import PrivRecCert.Prc.Layer
import PrivRecCert.Prc.LayerHiding
import PrivRecCert.Prc.LayerSpec
import PrivRecCert.Prc.Lifetime
import PrivRecCert.Prc.MainLoop
import PrivRecCert.Prc.MainLoopRuns
import PrivRecCert.Prc.MainLoopSpec
import PrivRecCert.Prc.MaskReuse
import PrivRecCert.Prc.Mpc
import PrivRecCert.Prc.MpcBatch
import PrivRecCert.Prc.MpcBuild
import PrivRecCert.Prc.MpcRun
import PrivRecCert.Prc.MpcSound
import PrivRecCert.Prc.OneHot
import PrivRecCert.Prc.OneTimePad
import PrivRecCert.Prc.OpEffect
import PrivRecCert.Prc.OpOrder
import PrivRecCert.Prc.Preprocessing
import PrivRecCert.Prc.QueryHiding
import PrivRecCert.Prc.QueryPrivacy
import PrivRecCert.Prc.Record
import PrivRecCert.Prc.Reports
import PrivRecCert.Prc.Retrieval
import PrivRecCert.Prc.RetrieveHiding
import PrivRecCert.Prc.RoundDelivery
import PrivRecCert.Prc.Server
import PrivRecCert.Prc.ServerSpec
import PrivRecCert.Prc.SessionHiding
import PrivRecCert.Prc.SessionPrivacy
import PrivRecCert.Prc.SharingSpec
import PrivRecCert.Prc.Spending
import PrivRecCert.Prc.Splice
import PrivRecCert.Prc.Stage
import PrivRecCert.Prc.Stale
import PrivRecCert.Prc.System
import PrivRecCert.Prc.TcpGraph
import PrivRecCert.Prc.TcpLive
import PrivRecCert.Prc.TcpReady
import PrivRecCert.Prc.TcpSession
import PrivRecCert.Prc.TcpSetup
import PrivRecCert.Prc.TcpStart
import PrivRecCert.Prc.TcpStreams
import PrivRecCert.Prc.Traffic
import PrivRecCert.Prc.Util
import PrivRecCert.Prc.WellFormed
import PrivRecCert.Prc.Wiring
import PrivRecCert.Rng
import PrivRecCert.Rounds.Counted
import PrivRecCert.Rounds.Crash
import PrivRecCert.Rounds.Hiding
import PrivRecCert.Rounds.Ledger
import PrivRecCert.Rounds.Lockstep
import PrivRecCert.Rounds.Network
import PrivRecCert.Rounds.NetworkInvariant
import PrivRecCert.Rounds.NetworkRounds
import PrivRecCert.Rounds.NetworkSound
import PrivRecCert.Rounds.NetworkSteps
import PrivRecCert.Rounds.Outcome
import PrivRecCert.Rounds.Proc
import PrivRecCert.Rounds.Session
import PrivRecCert.Rounds.SessionRuns
import PrivRecCert.Rounds.Streamed
import PrivRecCert.Rounds.StreamedLive
import PrivRecCert.Rounds.StreamedSound
import PrivRecCert.Rounds.StreamedStall
import PrivRecCert.Rounds.Termination
import PrivRecCert.Sharing.Additive
import PrivRecCert.Sharing.Arrays
import PrivRecCert.SimdArray.AlignedArray
import PrivRecCert.SimdArray.Alike
import PrivRecCert.SimdArray.BitArray
import PrivRecCert.SimdArray.Block
import PrivRecCert.SimdArray.BlockHistory
import PrivRecCert.SimdArray.ClearPadding
import PrivRecCert.SimdArray.D2BitArray
import PrivRecCert.SimdArray.History
import PrivRecCert.SimdArray.Overwrite
import PrivRecCert.SimdArray.Padding
import PrivRecCert.SimdArray.Soundness
import PrivRecCert.Stores.Patch
import PrivRecCert.Streams.Framing
