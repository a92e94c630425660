import BareHttp.Foundation.CInt
import BareHttp.Foundation.Buffer
import BareHttp.Foundation.BoundedText
import BareHttp.Foundation.Scanner
import BareHttp.Foundation.Transducer
import BareHttp.Foundation.Transition
import BareHttp.Foundation.Ring
import BareHttp.Foundation.Fifo
import BareHttp.Foundation.PointerList
import BareHttp.Foundation.ByteMemory
import BareHttp.Foundation.Lockstep
import BareHttp.Foundation.While
import BareHttp.Foundation.TwoRuns
import BareHttp.Foundation.Separator
import BareHttp.Foundation.Tally
import BareHttp.Parser.Pico
import BareHttp.Parser.Stability
import BareHttp.Parser.Completeness
import BareHttp.Parser.HeaderLimit
import BareHttp.Parser.OutParams
import BareHttp.Parser.Grammar
import BareHttp.Parser.Response
import BareHttp.Parser.FastScan
import BareHttp.Parser.Chunked
import BareHttp.Parser.ChunkedCalls
import BareHttp.Parser.ChunkedGrammar
import BareHttp.Http.Request
import BareHttp.Http.Layout
import BareHttp.Http.Denotation
import BareHttp.Http.ContentLength
import BareHttp.Http.World
import BareHttp.Http.Response
import BareHttp.Http.Process
import BareHttp.Http.PathString
import BareHttp.Http.Traversal
import BareHttp.Http.Serialize
import BareHttp.Http.Plan
import BareHttp.Http.Delivery
import BareHttp.Http.SendFile
import BareHttp.Http.ScriptRun
import BareHttp.Http.OpenFiles
import BareHttp.Epoll.Client
import BareHttp.Epoll.RequestBuffer
import BareHttp.Epoll.Admission
import BareHttp.Epoll.Segmentation
import BareHttp.Epoll.BodyDelivery
import BareHttp.Epoll.Answer
import BareHttp.Epoll.Silence
import BareHttp.Epoll.Arrivals
import BareHttp.Epoll.Loop
import BareHttp.Epoll.Teardown
import BareHttp.Epoll.Clients
import BareHttp.Epoll.Simulation
import BareHttp.Epoll.Registration
import BareHttp.Epoll.Table
import BareHttp.Epoll.Balance
import BareHttp.Epoll.Steadiness
import BareHttp.Epoll.Projection
import BareHttp.Epoll.Exit
import BareHttp.Epoll.Signal
import BareHttp.Epoll.Start
import BareHttp.Worker.Connection
import BareHttp.Http.Framing
import BareHttp.Http.Readback
import BareHttp.Epoll.Conversation
import BareHttp.Http.ScriptOutput
import BareHttp.Http.Query
import BareHttp.Http.Routing
import BareHttp.Worker.Reading
import BareHttp.Worker.ExactBody
import BareHttp.Worker.Bounds
import BareHttp.Worker.Isolation
import BareHttp.Agreement
import BareHttp.Log.Print
import BareHttp.Log.Answers
import BareHttp.Log.Audit
import BareHttp.Queue.Sections
import BareHttp.Queue.Monitor
import BareHttp.Queue.Refinement
import BareHttp.Queue.Wakeup
import BareHttp.Queue.Progress
import BareHttp.Pool.Program
import BareHttp.Pool.System
import BareHttp.Pool.Descriptors
import BareHttp.Pool.Ownership
import BareHttp.Pool.Moves
import BareHttp.Pool.Custody
import BareHttp.Pool.Order
import BareHttp.Pool.ActiveFds
import BareHttp.Pool.Joining
import BareHttp.Pool.Shutdown
import BareHttp.Pool.Lifetime
import BareHttp.Store.Cart
