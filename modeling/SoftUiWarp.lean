import SoftUiWarp.Lib.Endian
import SoftUiWarp.Lib.Runs
import SoftUiWarp.Common.ByteOrder
import SoftUiWarp.Mpa.RoundTrip
import SoftUiWarp.Mpa.Results
import SoftUiWarp.Mpa.Interrupts
import SoftUiWarp.Mpa.Handshake
import SoftUiWarp.Ddp.Model
import SoftUiWarp.Ddp.Recv
import SoftUiWarp.Ddp.Send
import SoftUiWarp.Ddp.Segmentation
import SoftUiWarp.Ddp.Fragmentation
import SoftUiWarp.Ddp.Framing
import SoftUiWarp.Ddp.Frames
import SoftUiWarp.Ddp.Placement
import SoftUiWarp.Ddp.Queues
import SoftUiWarp.Ddp.Registry
import SoftUiWarp.Ddp.RoundTrip
import SoftUiWarp.Ddp.OneMessage
import SoftUiWarp.Ddp.MsnCheck
import SoftUiWarp.Ddp.FirstBytes
import SoftUiWarp.Rdmap.Delivery
import SoftUiWarp.Rdmap.ReadAccess
import SoftUiWarp.Rdmap.ReadAnswers
import SoftUiWarp.Rdmap.ReadCompletions
import SoftUiWarp.Rdmap.ReadEndToEnd
import SoftUiWarp.Rdmap.RecvPosting
import SoftUiWarp.Rdmap.RecvPairing
import SoftUiWarp.Rdmap.SendLoop
import SoftUiWarp.Rdmap.MsnSequence
import SoftUiWarp.Rdmap.MsnWrap
import SoftUiWarp.Rdmap.Streams
import SoftUiWarp.Rdmap.HandlerTags
import SoftUiWarp.Rdmap.Invalidate
import SoftUiWarp.Rdmap.ReadPool
import SoftUiWarp.Rdmap.CompletionQueues
import SoftUiWarp.Daemon.Dispatch
import SoftUiWarp.Daemon.Library
import SoftUiWarp.Mpa.FpduSize
import SoftUiWarp.Mpa.SetUp
import SoftUiWarp.Rdmap.ReadFields
import SoftUiWarp.Ddp.HeaderOnly
import SoftUiWarp.Ddp.ReadSizes
import SoftUiWarp.Ddp.EmptyQueue
import SoftUiWarp.Rdmap.ByteLen
import SoftUiWarp.Rdmap.Link
import SoftUiWarp.Rdmap.LinkSends
import SoftUiWarp.Rdmap.LinkReceives
import SoftUiWarp.Rdmap.LinkWrites
import SoftUiWarp.Rdmap.Progress
import SoftUiWarp.Rdmap.StreamEnd
import SoftUiWarp.Rdmap.Credits
import SoftUiWarp.Perftest.Exchange
