import TsSem02.Library.CInt
import TsSem02.Library.LinkedList
import TsSem02.Library.LruCache
import TsSem02.Library.LruOrder
import TsSem02.Library.Chunks
import TsSem02.Library.Interleaving
import TsSem02.Library.Mutex
import TsSem02.Library.Buffer
import TsSem02.Storage.SimpleLRU
import TsSem02.Storage.Memory
import TsSem02.Storage.Represents
import TsSem02.Storage.Eviction
import TsSem02.Storage.Refinement
import TsSem02.Storage.Reachable
import TsSem02.Storage.Destructor
import TsSem02.Storage.Atomicity
import TsSem02.Library.WorkingSet
import TsSem02.Storage.WorkingSet
import TsSem02.Execute.Command
import TsSem02.Execute.Acknowledgement
import TsSem02.Execute.Concurrent
import TsSem02.Protocol.Parser
import TsSem02.Protocol.Fields
import TsSem02.Protocol.Acceptance
import TsSem02.Network.Session
import TsSem02.Network.ByteByByte
import TsSem02.Network.STblocking
import TsSem02.Protocol.Feeding
import TsSem02.Protocol.Encoding
import TsSem02.Protocol.Decoding
import TsSem02.Network.Framing
import TsSem02.Network.Successive
import TsSem02.Execute.Retrieval
import TsSem02.Execute.Responses
import TsSem02.Network.RoundTrip
import TsSem02.Network.STnonblock
import TsSem02.Network.ClientBuffer
import TsSem02.Network.Outgoing
import TsSem02.Network.Polling
import TsSem02.Network.EventLoop
import TsSem02.Network.Echo
import TsSem02.Network.MTnonblock
import TsSem02.Network.Conns
import TsSem02.Concurrency.Executor
import TsSem02.Concurrency.Counters
import TsSem02.Concurrency.Tasks
import TsSem02.Coroutine.Engine
import TsSem02.Coroutine.Lifecycle
import TsSem02.Coroutine.StackCopy
import TsSem02.Protocol.Reset
import TsSem02.Library.Worklist
import TsSem02.Library.Association
import TsSem02.Library.EditScript
import TsSem02.Library.FirstOfKind
import TsSem02.Library.RunningMinimum
import TsSem02.Spellchecker.Models
import TsSem02.Spellchecker.Bor
import TsSem02.Spellchecker.Trie
import TsSem02.Spellchecker.Search
import TsSem02.Spellchecker.BestMatch
import TsSem02.Spellchecker.Spellchecker
import TsSem02.Spellchecker.Candidates
import TsSem02.Spellchecker.FixedPoint
import TsSem02.Logging.Selection
import TsSem02.Logging.Pattern
import TsSem02.Logging.Reopening
import TsSem02.Library.Lockstep
import TsSem02.Storage.CacheStore
import TsSem02.Network.StoreRefinement
import TsSem02.Network.Service
import TsSem02.Network.MTblocking
import TsSem02.Network.AcceptLoop
import TsSem02.Synchronization.Wakeups
import TsSem02.Synchronization.CountDownLatch
import TsSem02.Network.OneShot
import TsSem02.Spellchecker.Fitting
import TsSem02.NeuralNetwork.Gradient
import TsSem02.Logging.Start
