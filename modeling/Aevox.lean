import Aevox.Library.SharedFate
import Aevox.Library.Machine
import Aevox.Http.Wire
import Aevox.Http.HeaderViews
import Aevox.Router.Order
import Aevox.Router.Groups
import Aevox.App.Scope
import Aevox.App.Connection
import Aevox.App.Upgrade
import Aevox.App.Dispatch
import Aevox.App.Server
import Aevox.App.Head
import Aevox.App.Limits
import Aevox.App.Pipelining
import Aevox.WebSocket.CloseFrames
import Aevox.WebSocket.Draining
import Aevox.WebSocket.Delivery
import Aevox.WebSocket.CloseOrder
import Aevox.WebSocket.Uninterrupted
import Aevox.WebSocket.Waiting
import Aevox.WebSocket.Topics
import Aevox.Log.Wakeups
import Aevox.Log.Conservation
import Aevox.Log.Shutdown
import Aevox.Grpc.Replies
import Aevox.Grpc.Framing
import Aevox.Http.Reuse
import Aevox.Http.Assembly
import Aevox.Grpc.StreamTable
import Aevox.Net.Lifecycle
import Aevox.Net.Quiescence
import Aevox.Grpc.Shutdown
import Aevox.Library.Tally
import Aevox.Async.WhenAll
import Aevox.App.Composition
import Aevox.Library.FileTree
import Aevox.Http.Filesystem
import Aevox.App.StaticFiles
import Aevox.App.ServedFiles
import Aevox.Library.Rounding
import Aevox.Router.FromChars
import Aevox.Router.Conversion
import Aevox.Http.ParserLimits
import Aevox.WebSocket.Canonical
import Aevox.App.PathDecoding
import Aevox.App.StaticHead
import Aevox.Library.Hex
import Aevox.Grpc.StatusMessage
import Aevox.Grpc.Streaming
import Aevox.Router.Grammar
import Aevox.App.InitialTopic
import Aevox.Http.Traceparent
import Aevox.Library.Buffer
import Aevox.Library.Blocks
import Aevox.Library.SecureHash
import Aevox.Net.Sha1
import Aevox.Library.Radix64
import Aevox.Net.Base64
import Aevox.WebSocket.AcceptKey
import Aevox.Library.Utf8
import Aevox.Library.Json
import Aevox.Log.Format
import Aevox.Library.Lines
import Aevox.Log.Lines
import Aevox.Library.Frames
import Aevox.Library.Nested
import Aevox.Async.TaskRuntime
import Aevox.App.Coroutines
import Aevox.App.Threads
import Aevox.WebSocket.ClientView
import Aevox.WebSocket.Bounds
import Aevox.Net.Stopping
import Aevox.App.Lifecycle
import Aevox.Net.Termination
import Aevox.App.Shutdown
import Aevox.App.ClientView
import Aevox.Config.Outcomes
import Aevox.Grpc.Registration
