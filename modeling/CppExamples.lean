import CppExamples.Library.Memory
import CppExamples.CHacks.Leb128
import CppExamples.CHacks.Leb128Roundtrip
import CppExamples.HttpTest.Buffer
import CppExamples.Library.Fifo
import CppExamples.HttpTest.BufferFifo
import CppExamples.HttpTest.Channel
import CppExamples.HttpTest.OutputStream
import CppExamples.Banker.Banker
import CppExamples.Banker.BankerSafety
import CppExamples.HttpTest.PendingList
import CppExamples.HttpTest.WakeUp
import CppExamples.HttpTest.ChannelMap
import CppExamples.HttpTest.EpollLoop
import CppExamples.HttpTest.Descriptors
import CppExamples.HttpTest.CString
import CppExamples.HttpTest.HttpRequest
import CppExamples.HttpTest.HttpParsing
import CppExamples.HttpTest.HttpResponse
import CppExamples.HttpTest.HttpServer
import CppExamples.HttpTest.HttpConnection
import CppExamples.HttpTest.HttpClosing
import CppExamples.CHacks.Hashtbl
import CppExamples.Library.Buckets
import CppExamples.CHacks.HashtblMap
import CppExamples.Library.Chains
import CppExamples.Library.Ring
import CppExamples.CHacks.LinkedHashtbl
import CppExamples.CHacks.LinkedHashtblOrder
import CppExamples.Library.LockOrder
import CppExamples.Philosophers.Philosophers
import CppExamples.HttpTest.ReadMessage
import CppExamples.HttpTest.HttpDecoding
import CppExamples.Library.Slots
import CppExamples.HttpTest.PollLoop
import CppExamples.HttpTest.Dispatch
import CppExamples.HttpTest.DispatchEvents
import CppExamples.HttpTest.DispatchRounds
import CppExamples.HttpTest.Pipelining
import CppExamples.HttpTest.Establishing
import CppExamples.CHacks.Ownership
import CppExamples.CHacks.HashtblOwnership
import CppExamples.CHacks.LinkedHashtblOwnership
import CppExamples.Banker.BankerScan
import CppExamples.Banker.BankerCompleteness
import CppExamples.Banker.BankerAccounts
import CppExamples.Library.Holders
import CppExamples.ThreadPool.ThreadPool
import CppExamples.ThreadPool.PoolTasks
import CppExamples.HttpTest.RequestLines
import CppExamples.HttpTest.HeaderSection
import CppExamples.HttpTest.StatusLine
import CppExamples.HttpTest.MalformedLines
import CppExamples.HttpTest.CloseDecision
import CppExamples.HttpTest.UniversalNewlines
import CppExamples.HttpTest.Readline
import CppExamples.HttpTest.OversizedMessages
import CppExamples.CHacks.HashtblIteration
import CppExamples.CHacks.LinkedHashtblIteration
import CppExamples.CHacks.HashtblGrowth
import CppExamples.CHacks.Leb128Canonical
import CppExamples.CHacks.Leb128Decoding
import CppExamples.CHacks.Leb128Signed
import CppExamples.HttpTest.WriteInterest
import CppExamples.CHacks.ApplyContract
import CppExamples.HttpTest.BufferLimits
import CppExamples.HttpTest.HeaderStorage
import CppExamples.HttpTest.Unregistered
import CppExamples.CHacks.StringHash
import CppExamples.CHacks.HashtblInvariant
import CppExamples.CHacks.LinkedHashtblPointers
import CppExamples.CHacks.HashtblDoubling
import CppExamples.HttpTest.MapSpace
import CppExamples.HttpTest.PollRefusals
import CppExamples.HttpTest.PollScanning
import CppExamples.HttpTest.PollScanRounds
import CppExamples.HttpTest.HeaderLookup
import CppExamples.HttpTest.LineBuffers
import CppExamples.Banker.BankerAccesses
import CppExamples.Banker.BankerBounds
import CppExamples.CoordConvert.ReadFunc
import CppExamples.Library.Progress
import CppExamples.Library.FairLocks
import CppExamples.ThreadPool.PoolWork
import CppExamples.HttpTest.WakeUpRest
import CppExamples.HttpTest.Confinement
import CppExamples.HttpTest.ThreadPoolStart
import CppExamples.HttpTest.Conversation
import CppExamples.Philosophers.PhilosophersFair
import CppExamples.CHacks.HashtblsAgree
import CppExamples.CHacks.HashtblAmortized
import CppExamples.Library.XorShift
import CppExamples.Banker.BankerOrder
import CppExamples.HttpTest.BufferCapacity
import CppExamples.CHacks.HashSpread
import CppExamples.CHacks.HashtblErasing
import CppExamples.ThreadPool.ExampleMain
import CppExamples.CoordConvert.Reports
