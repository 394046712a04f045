import UtispaceChain.Lib.BigEndian
import UtispaceChain.Lib.KeyedTable
import UtispaceChain.Lib.Quorum
import UtispaceChain.Lib.Run
import UtispaceChain.DevCore.Rlp
import UtispaceChain.DevCore.RlpItems
import UtispaceChain.DevCore.RlpStream
import UtispaceChain.DevCrypto.Common
import UtispaceChain.CvCore.BlockHeader
import UtispaceChain.Cv.NodeConnParams
import UtispaceChain.PbftSeal.Common
import UtispaceChain.PbftSeal.State
import UtispaceChain.PbftSeal.Pbft
import UtispaceChain.PbftSeal.Micro
import UtispaceChain.PbftSeal.Votes
import UtispaceChain.PbftSeal.Membership
import UtispaceChain.PbftSeal.Authenticity
import UtispaceChain.PbftSeal.Lock
import UtispaceChain.PbftSeal.Tally
import UtispaceChain.PbftSeal.Round
import UtispaceChain.PbftSeal.Network
import UtispaceChain.PbftSeal.Agreement
import UtispaceChain.PbftSeal.BlockSign
import UtispaceChain.Cv.NodeConnParamsManager
import UtispaceChain.Cv.BlockChain
import UtispaceChain.Cv.Block
import UtispaceChain.Lib.CachedTable
import UtispaceChain.Cv.NonceCheck
import UtispaceChain.Cv.ChainIndex
import UtispaceChain.Cv.CanonChain
import UtispaceChain.Cv.NonceWindow
import UtispaceChain.Cv.Packing
import UtispaceChain.Cv.Acceptance
import UtispaceChain.Cv.Enactment
import UtispaceChain.Cv.CanonIndex
import UtispaceChain.Cv.State
import UtispaceChain.Cv.Ledger
import UtispaceChain.Cv.StateLedger
import UtispaceChain.Cv.CommitOnce
import UtispaceChain.Cv.Savepoint
import UtispaceChain.Lib.Removal
import UtispaceChain.Cv.BlockQueue
import UtispaceChain.Cv.BlockIdentity
import UtispaceChain.Cv.BlockQueueSweep
import UtispaceChain.Cv.BlockQueueForm
import UtispaceChain.Cv.BlockQueueSets
import UtispaceChain.Cv.BlockQueueFlow
import UtispaceChain.Cv.Sync
import UtispaceChain.Cv.KnownBad
import UtispaceChain.Lib.NestedMap
import UtispaceChain.Cv.TransactionQueue
import UtispaceChain.Cv.QueueIndex
import UtispaceChain.Cv.QueueConsistency
import UtispaceChain.Cv.KnownTransactions
import UtispaceChain.Cv.Executive
import UtispaceChain.Cv.GasAccounting
import UtispaceChain.Lib.Patricia
import UtispaceChain.DevCore.TrieCommon
import UtispaceChain.Lib.Chunks
import UtispaceChain.Cv.DownloadMap
import UtispaceChain.PbftSeal.ViewChange
import UtispaceChain.PbftSeal.ViewState
import UtispaceChain.PbftSeal.ViewQuorum
import UtispaceChain.PbftSeal.LockStep
import UtispaceChain.PbftSeal.LockRespect
import UtispaceChain.PbftSeal.Configuration
import UtispaceChain.PbftSeal.Delivery
import UtispaceChain.PbftSeal.VoteDelivery
import UtispaceChain.DevCore.RlpCanonical
import UtispaceChain.PbftSeal.Wire
import UtispaceChain.CvCore.Transaction
import UtispaceChain.Cv.Payment
import UtispaceChain.Cv.ExtVM
import UtispaceChain.Cv.FailedTransaction
import UtispaceChain.Cv.Watches
import UtispaceChain.Cv.PendingState
import UtispaceChain.Cv.LastHashes
import UtispaceChain.Lib.Ends
import UtispaceChain.Lib.Memory
import UtispaceChain.CvVmCore.Instruction
import UtispaceChain.CvVm.VM
import UtispaceChain.CvVm.Cases
import UtispaceChain.CvVm.Steps
import UtispaceChain.CvVm.Stack
import UtispaceChain.CvVm.Safety
import UtispaceChain.CvVm.Gas
import UtispaceChain.CvVm.MemoryAccess
import UtispaceChain.CvVm.Keeps
import UtispaceChain.CvVm.ExtVM
import UtispaceChain.CvVm.Nested
import UtispaceChain.CvVm.Atomic
import UtispaceChain.Cv.HeaderServing
import UtispaceChain.CvCore.TransactionRoundTrip
import UtispaceChain.Cv.QueueDifficulty
import UtispaceChain.Cv.QueueOrder
import UtispaceChain.Cv.CacheEviction
import UtispaceChain.Cv.MatchedRuns
import UtispaceChain.Cv.BlockExecute
import UtispaceChain.Cv.DualVM
import UtispaceChain.Cv.BlockChainSync
import UtispaceChain.Lib.BitSet
import UtispaceChain.Cv.LogFilter
import UtispaceChain.PbftSeal.FastView
import UtispaceChain.Lib.Framing
import UtispaceChain.ChannelServer.ChannelMessage
import UtispaceChain.ChannelServer.ChannelSession
import UtispaceChain.Web3JsonRpc.ChannelRPCServer
import UtispaceChain.Web3JsonRpc.ChannelAnswers
import UtispaceChain.Lib.HeadTail
import UtispaceChain.Lib.FixedBytes
import UtispaceChain.CvCore.ABI
import UtispaceChain.P2p.RLPXFrameCoder
import UtispaceChain.P2p.Session
import UtispaceChain.P2p.FrameMux
import UtispaceChain.P2p.NodeTable
import UtispaceChain.P2p.NodeBuckets
import UtispaceChain.Cv.BlockBloom
import UtispaceChain.Cv.TreeRoute
import UtispaceChain.CvCore.HeaderMemo
import UtispaceChain.Cv.NodeValidity
import UtispaceChain.Cv.QueueAdmission
import UtispaceChain.Lib.SignMagnitude
import UtispaceChain.DevCore.Common
import UtispaceChain.CvVm.Arithmetic
import UtispaceChain.CvVm.InputReads
import UtispaceChain.Cv.GasEstimate
import UtispaceChain.Cv.BlockSync
import UtispaceChain.Lib.PatriciaOrder
import UtispaceChain.DevCore.TrieDB
import UtispaceChain.DevCore.TrieIterator
import UtispaceChain.DevCore.TrieContent
import UtispaceChain.DevCore.RlpAccess
import UtispaceChain.DevCore.HexPrefix
import UtispaceChain.Lib.Calls
import UtispaceChain.Cv.SizedContainers
import UtispaceChain.Lib.SortedList
import UtispaceChain.P2p.NearestNodes
import UtispaceChain.Cv.SyncRequests
import UtispaceChain.Cv.SyncChanges
import UtispaceChain.Cv.SyncSteps
import UtispaceChain.Cv.BodyPairing
import UtispaceChain.Cv.HeaderLinks
import UtispaceChain.Lib.OrderedMap
import UtispaceChain.DevCore.OverlayDB
import UtispaceChain.DevCore.TrieEdit
import UtispaceChain.DevCore.TrieText
import UtispaceChain.DevCore.TrieInsert
import UtispaceChain.DevCore.TrieRemove
import UtispaceChain.DevCore.TrieStore
import UtispaceChain.DevCore.TrieRuns
import UtispaceChain.DevCore.TrieCheck
import UtispaceChain.DevCore.TrieHash
import UtispaceChain.DevCore.TrieRoots
import UtispaceChain.DevCore.TrieProofs
