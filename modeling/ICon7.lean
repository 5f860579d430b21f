import ICon7.Framing.EndToEnd
import ICon7.Framing.Exactness
import ICon7.Framing.Growth
import ICon7.Framing.SendFrame
import ICon7.Framing.Sequences
import ICon7.Host.Connect
import ICon7.Host.Lists
import ICon7.Host.Teardown
import ICon7.Loop.AsyncRun
import ICon7.Loop.AutoIndex
import ICon7.Loop.BatchWriter
import ICon7.Loop.Clear
import ICon7.Loop.Delivery
import ICon7.Loop.Threads
import ICon7.Map.FiniteMap
import ICon7.Map.Hash
import ICon7.Map.PeerHandleMap
import ICon7.Map.Rehash
import ICon7.Memory.Statistics
import ICon7.Peer.Generations
import ICon7.Peer.Statistics
import ICon7.Queue.AsyncStop
import ICon7.Queue.Batching
import ICon7.Queue.Coroutine
import ICon7.Queue.Destroy
import ICon7.Queue.Execute
import ICon7.Queue.Owners
import ICon7.Queue.Regions
import ICon7.Rpc.Agreement
import ICon7.Rpc.Answer
import ICon7.Rpc.AnyBytes
import ICon7.Rpc.Deadlines
import ICon7.Rpc.FreshIds
import ICon7.Rpc.Kinds
import ICon7.Rpc.Layers
import ICon7.Rpc.Ownership
import ICon7.Rpc.RoundTrip
import ICon7.Time.Text
