import Fms.Base.Bytes
import Fms.Base.Scan
import Fms.ByteBuffer
import Fms.InputBuffer
import Fms.Rtmp.Header
import Fms.Rtmp.Channel
import Fms.Rtmp.Protocol
import Fms.Rtmp.Parser
import Fms.Rtmp.Resume
import Fms.Rtmp.HeaderRoundTrip
import Fms.Rtmp.RoundTrip
import Fms.Base.OrdSet
import Fms.Rtmfp.SeqManager
import Fms.Base.Triangle
import Fms.Rtmfp.SeqTracking
import Fms.Rtmfp.Chunk
import Fms.Rtmfp.PacketParser
import Fms.Rtmfp.Framing
import Fms.Base.Segments
import Fms.Base.SortedBy
import Fms.Base.Transition
import Fms.Rtmfp.Flow
import Fms.Rtmfp.Network
import Fms.Rtmfp.RangeAcks
import Fms.Rtmfp.Reassembly
import Fms.Rtmfp.Delivery
import Fms.Rtmfp.Live
import Fms.Rtmfp.Reliable
import Fms.Amf.Amf3
import Fms.Amf.Amf0
import Fms.Amf.U29
import Fms.Base.Heap
import Fms.Amf.Graph
import Fms.Amf.Acyclic
import Fms.Amf.Depth
import Fms.Amf.Accepts
import Fms.Amf.RoundTrip3
import Fms.Amf.RoundTrip0
import Fms.So.Converge
import Fms.So.Order
import Fms.So.Table
import Fms.So.Replay
import Fms.So.MessageCodec
import Fms.So.Answers
import Fms.Rtmpt.Sequencing
import Fms.Rtmpt.Polling
import Fms.Base.Handoff
import Fms.App.SendQueue
import Fms.App.SendQueues
import Fms.App.Shedding
import Fms.App.DroppedStats
import Fms.App.Teardown
import Fms.Base.Numbering
import Fms.Connection.ReplyOrder
import Fms.Connection.SentHeaders
import Fms.App.Bandwidth
import Fms.App.ReplyIsolation
import Fms.Session.AckWindow
import Fms.Session.ChannelMap
import Fms.Session.ClientSession
import Fms.Flv.Format
import Fms.Flv.RoundTrip
import Fms.Flv.Seeking
import Fms.Rtmfp.AckCodec
import Fms.Rtmfp.UserDataCodec
import Fms.Rtmfp.Acknowledging
import Fms.Rtmfp.ReceiveWindow
import Fms.Rtmfp.ReplayWindow
import Fms.Rtmfp.PacketDecode
import Fms.Rtmfp.CongestionWindow
import Fms.Rtmfp.FlowMaps
import Fms.Rtmfp.Queueing
import Fms.Rtmfp.Abandoning
import Fms.Rtmfp.Draining
import Fms.Amf.Budget
import Fms.Amf.GraphWriter
import Fms.Rtmp.Deserialize
import Fms.Rtmp.Thread
import Fms.Rtmp.LastValue
import Fms.Media.StreamRegistry
import Fms.Media.Application
import Fms.Media.Wiring
import Fms.Media.Consistency
import Fms.Media.Republish
import Fms.Media.Requests
import Fms.Media.Emptying
import Fms.Base.Bimap
import Fms.Base.Serial
import Fms.Base.FirstHit
import Fms.Media.AvDelivery
import Fms.Media.FirstFrame
import Fms.Media.AvClocks
import Fms.Base.SlidingWindow
import Fms.Base.Ledger
import Fms.Rtmfp.Accounting
import Fms.Rtmfp.ForwardNumbers
import Fms.Rtmfp.AckSoundness
import Fms.Rtmp.Bounds
import Fms.Rtmp.Timestamps
import Fms.Rtmp.Aggregate
import Fms.Rtmpt.Stash
import Fms.App.SpawnThrottle
