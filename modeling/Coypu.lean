import Coypu.Library.Memory
import Coypu.Library.Ring
import Coypu.Library.CInt
import Coypu.Library.Transport
import Coypu.Library.Run
import Coypu.Library.Bytes
import Coypu.Library.Blocks
import Coypu.Library.MappedFile
import Coypu.Library.Pages
import Coypu.Library.Records
import Coypu.Library.ZeroCopy
import Coypu.Library.Delimited
import Coypu.Library.LowerBound
import Coypu.Library.SortedMap
import Coypu.Library.FreeList
import Coypu.Library.Hpack
import Coypu.Buf.BipBuf
import Coypu.Buf.Layout
import Coypu.Buf.Drain
import Coypu.Buf.Fill
import Coypu.Buf.MemoryFed
import Coypu.Buf.SocketFed
import Coypu.Buf.Mixed
import Coypu.Buf.Writev
import Coypu.Buf.Direct
import Coypu.Buf.Removal
import Coypu.Buf.DirectReads
import Coypu.Buf.DirectWrites
import Coypu.Store.LogRWStream
import Coypu.Store.MultiPositionedStreamLog
import Coypu.Store.FanOut
import Coypu.Store.PositionedStream
import Coypu.Store.LogWriteBuf
import Coypu.Store.Repositioning
import Coypu.Store.ReadCache
import Coypu.Store.OneShotOffsets
import Coypu.Store.CacheLaws
import Coypu.Store.PagedLog
import Coypu.Store.PagedAppends
import Coypu.Store.FaultyWriter
import Coypu.Store.FailedAppends
import Coypu.Store.PagedReads
import Coypu.Store.FlatLog
import Coypu.Store.SeenPages
import Coypu.Store.StreamLog
import Coypu.Store.ReadBounds
import Coypu.Store.Released
import Coypu.Store.Resuming
import Coypu.Store.PositionedLog
import Coypu.Protobuf.LogStream
import Coypu.Cache.TagStore
import Coypu.Cache.Restarts
import Coypu.Http.Head
import Coypu.Http.Lines
import Coypu.Http.WebSocket
import Coypu.Http.Processing
import Coypu.Http.Source
import Coypu.Http.Frame
import Coypu.Http.Framing
import Coypu.Http.Queueing
import Coypu.Library.Incremental
import Coypu.Http.Parsing
import Coypu.Http.Pinging
import Coypu.Http.WireFrames
import Coypu.Http.Decoding
import Coypu.Http.Connecting
import Coypu.Http.Opening
import Coypu.Http.Lengths
import Coypu.Http.Asserting
import Coypu.Http.Handover
import Coypu.Http.Waiting
import Coypu.Http.HeadText
import Coypu.Http.Chunking
import Coypu.Http.Output
import Coypu.Http.Publishing
import Coypu.Http2.Header
import Coypu.Http2.Manager
import Coypu.Http2.Consuming
import Coypu.Http2.Sending
import Coypu.Http2.Interleaving
import Coypu.Http2.Preface
import Coypu.Http2.Delimiting
import Coypu.Http2.Answering
import Coypu.Http2.Writing
import Coypu.Http2.Gate
import Coypu.Book.Level
import Coypu.Book.Ownership
import Coypu.Book.Sides
import Coypu.Book.Gdax
import Coypu.Cache.SequenceCache
import Coypu.Cache.Rolling
import Coypu.Protobuf.BufStream
import Coypu.Protobuf.ProtoManager
import Coypu.Protobuf.Merging
import Coypu.Protobuf.OutStream
import Coypu.Protobuf.Responding
import Coypu.Protobuf.Dispatching
import Coypu.Http2.Merging
import Coypu.Http2.Asserting
import Coypu.Http2.Paths
import Coypu.Http2.Acknowledging
import Coypu.Library.Recency
import Coypu.Store.Unmasking
import Coypu.Store.FaultyCache
import Coypu.Protobuf.LogInput
import Coypu.Protobuf.LogOutput
import Coypu.Store.CursorEnd
import Coypu.Store.OneMemory
import Coypu.Library.Components
import Coypu.Util.StringUtil
import Coypu.File.Mkdir
import Coypu.Config.CoypuConfig
import Coypu.Config.Parsing
import Coypu.Library.Lines
import Coypu.Admin.AdminManager
import Coypu.Admin.Commands
import Coypu.Library.Rounding
import Coypu.Library.Ranking
import Coypu.Book.Snapshot
import Coypu.Book.LevelBook
import Coypu.Cache.TagStream
import Coypu.Cache.TagQueue
import Coypu.Cache.TagDelivery
import Coypu.Cache.TagTrace
import Coypu.Cache.Playback
import Coypu.Cache.TagWaking
import Coypu.Cache.Membership
import Coypu.Cache.Interning
import Coypu.Event.EventManager
import Coypu.Event.Progress
import Coypu.Event.Batches
import Coypu.Event.Closing
import Coypu.Event.EventCBManager
import Coypu.Event.IdleMonitor
import Coypu.Feed.Kraken
import Coypu.Feed.Following
import Coypu.Feed.Context
import Coypu.Feed.Supervision
import Coypu.Feed.Cleared
import Coypu.Net.OpenSSLManager
import Coypu.Feed.Sessions
import Coypu.Feed.Trades
import Coypu.Http.ServerFrames
import Coypu.Http.Subscribing
import Coypu.Protobuf.Serving
import Coypu.Feed.Products
import Coypu.Event.Notes
import Coypu.Server.Clients
import Coypu.Server.Servers
import Coypu.Config.Settings
import Coypu.Library.Quoted
import Coypu.Feed.Subscriptions
import Coypu.Http2.Service
import Coypu.Http2.Serving
