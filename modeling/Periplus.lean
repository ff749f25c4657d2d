import Periplus.Verified.Run
import Periplus.Verified.TopK
import Periplus.Verified.Buckets
import Periplus.Verified.Memory
import Periplus.Verified.Reader
import Periplus.Verified.Segments
import Periplus.Verified.Shelves
import Periplus.Verified.Outgoing
import Periplus.Verified.Numbering
import Periplus.Verified.Doubles
import Periplus.Verified.Delivery
import Periplus.Verified.JsonText
import Periplus.Ports.Fault
import Periplus.Ports.Data
import Periplus.Ports.Faiss
import Periplus.Ports.Core
import Periplus.Ports.CoreSteps
import Periplus.Ports.CoreInvariant
import Periplus.Ports.CoreSearch
import Periplus.Ports.CoreRegistry
import Periplus.Ports.CoreRecall
import Periplus.Ports.CoreDuplicates
import Periplus.Ports.CoreBatch
import Periplus.Ports.CoreSnapshots
import Periplus.Ports.CoreResidency
import Periplus.Ports.CoreAnswers
import Periplus.Ports.CoreRetry
import Periplus.Ports.CoreEviction
import Periplus.Ports.CoreHistory
import Periplus.Ports.CoreAddition
import Periplus.Ports.DbClient
import Periplus.Ports.DbResponse
import Periplus.Ports.ProxyRecords
import Periplus.Ports.ResponseOrder
import Periplus.Ports.CoreOutcomes
import Periplus.Ports.CoreRounds
import Periplus.Ports.Args
import Periplus.Ports.Cache
import Periplus.Ports.CacheRuns
import Periplus.Ports.CellIndices
import Periplus.Ports.CoreRequests
import Periplus.Ports.PayloadSizes
import Periplus.Ports.SetUp
import Periplus.Ports.Session
import Periplus.Ports.Server
import Periplus.Ports.ServerInterleaving
import Periplus.Ports.Rejections
import Periplus.Ports.Pipelining
import Periplus.Ports.SessionSegmentation
import Periplus.Ports.PayloadConsumption
import Periplus.Ports.FrameGrammar
import Periplus.Ports.Serialization
import Periplus.Ports.ClientFrames
import Periplus.Ports.ArgsLanguage
import Periplus.Ports.FrameRoundTrip
import Periplus.Ports.ClientConnection
import Periplus.Ports.Connection
import Periplus.Ports.ReadLoops
import Periplus.Ports.IdRoundTrip
import Periplus.Ports.Proxy
import Periplus.Ports.ProxyLoads
import Periplus.Ports.SearchResponse
import Periplus.Ports.ResponseSegmentation
import Periplus.Ports.ClientAnswers
import Periplus.Ports.ClientCalls
import Periplus.Ports.ClientDialogue
import Periplus.Ports.EndToEnd
