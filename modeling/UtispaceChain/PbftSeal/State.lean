import UtispaceChain.Lib.KeyedTable
import UtispaceChain.Cv.NodeConnParams
import UtispaceChain.PbftSeal.Common

/-! The state of one `PBFT` object and what a call sees of the rest of the node. -/

namespace UtispaceChain

open Lib

/-- `m_sign_cache` and `m_commit_cache`: block hash, then signature text. -/
abbrev VoteCache := KeyedTable PBFTMsg (fun m => (m.blockHash, m.sig))

/-- `m_recv_view_change_req`: view, then index of the sender. -/
abbrev ViewChangeCache := KeyedTable PBFTMsg (fun m => (m.view, m.idx))

/-- What consensus reads of a block header; `hash` is the hash without the seal. -/
structure BlockInfo where
  number : Nat := Invalid256
  hash : H256 := 0
  timestamp : Nat := Invalid256
  deriving DecidableEq, Repr

/-- What a node has done so far, newest first. Broadcasting is separate from signing:
some messages are signed and then kept. -/
inductive Effect
  | signed (packet : Packet)
  | sent (packet : Packet)
  | locked (raw prepare : PrepareReq)
  | onSealGenerated (height : Nat) (hash : H256) (block : Bytes) (ours : Bool)
  | onViewChange
  deriving DecidableEq, Repr

structure Core where
  sec : Secret
  pub : Public
  nodeIdx : Nat := 0
  nodeNum : Nat := 0
  f : Nat := 0
  view : Nat := 0
  rawPrepareCache : PrepareReq := {}
  prepareCache : PrepareReq := {}
  committedPrepareCache : PrepareReq := {}
  signCache : VoteCache := KeyedTable.empty
  commitCache : VoteCache := KeyedTable.empty
  recvViewChangeReq : ViewChangeCache := KeyedTable.empty
  highestBlock : BlockInfo := {}
  consensusBlockNumber : Nat := 0
  log : List Effect := []

structure Node extends Core where
  accountType : Int
  viewTimeout : Nat
  lastConsensusTime : Nat
  lastSignTime : Nat := 0
  changeCycle : Nat := 0
  toView : Nat := 0
  leaderFailed : Bool := false
  futurePrepareCache : Nat × PrepareReq := (Invalid256, {})
  lastCollectTime : Nat
  minerList : List Public := []
  cfgErr : Bool := false
  lastExecFinishTime : Nat
  emptyBlockFlag : Bool
  omitEmptyBlock : Bool

/-- The block after `checkBlockValid`: the hash of its header, its transaction count, and
what `commitToSeal` and `sealBlock` make of it. -/
structure OutBlock where
  infoHash : H256
  pending : Nat
  resealed : Option (H256 × Bytes)

/-- The surroundings of one call: clock, network, node table, block chain, and the order in
which the hash maps of view change requests are walked. -/
structure Ctx where
  now : Nat
  host : Bool
  nodes : NodeTable
  isConnected : Public → Bool
  checkBlockValid : H256 → Bytes → Option OutBlock
  hasBlock : H256 → Bool
  order : List ViewChangeReq → List ViewChangeReq

/-- Surroundings in which the network is up and the chain refuses every block. -/
def Ctx.quiet (nodes : NodeTable) : Ctx where
  now := 1000
  host := true
  nodes := nodes
  isConnected _ := true
  checkBlockValid _ _ := none
  hasBlock _ := false
  order := id

/-- Surroundings in which every block is valid and executes to the next hash. -/
def Ctx.executing (nodes : NodeTable) : Ctx :=
  { Ctx.quiet nodes with
    checkBlockValid := fun hash block => some ⟨hash, 1, some (hash + 1, block)⟩ }

namespace Core

variable (c : Core)

def quorum : Nat := c.nodeNum - c.f

def haveSign (hash : H256) : Nat := c.signCache.size (fun m => decide (m.blockHash = hash))

def haveCommit (hash : H256) : Nat := c.commitCache.size (fun m => decide (m.blockHash = hash))

def emit (e : Effect) : Core := { c with log := e :: c.log }

def isExistPrepare (req : PrepareReq) : Bool := decide (c.rawPrepareCache.blockHash = req.blockHash)

def isExistSign (req : SignReq) : Bool := c.signCache.contains (req.blockHash, req.sig)

def isExistCommit (req : CommitReq) : Bool := c.commitCache.contains (req.blockHash, req.sig)

def isExistViewChange (req : ViewChangeReq) : Bool :=
  c.recvViewChangeReq.contains (req.view, req.idx)

def addRawPrepare (req : PrepareReq) : Core := { c with rawPrepareCache := req }

/-- Early votes for the block that were cast in another view are dropped. -/
def addPrepareReq (req : PrepareReq) : Core :=
  let sameView := fun m : PBFTMsg => decide (m.blockHash = req.blockHash → m.view = req.view)
  { c with
    prepareCache := req
    signCache := c.signCache.keep sameView
    commitCache := c.commitCache.keep sameView }

def addSignReq (req : SignReq) : Core := { c with signCache := c.signCache.insert req }

def addCommitReq (req : CommitReq) : Core := { c with commitCache := c.commitCache.insert req }

def addViewChangeReq (req : ViewChangeReq) : Core :=
  { c with recvViewChangeReq := c.recvViewChangeReq.insert req }

def delCache (hash : H256) : Core :=
  { c with
    signCache := c.signCache.keep (fun m => decide (m.blockHash ≠ hash))
    commitCache := c.commitCache.keep (fun m => decide (m.blockHash ≠ hash))
    prepareCache := if hash = c.prepareCache.blockHash then c.prepareCache.clear
      else c.prepareCache }

/-- A view change request that is not about an older block or another block of our height. -/
def viewChangeFits (m : ViewChangeReq) : Bool :=
  !decide (m.height < c.highestBlock.number) &&
    !decide (m.height = c.highestBlock.number ∧ m.blockHash ≠ c.highestBlock.hash)

def delViewChange : Core :=
  { c with recvViewChangeReq := c.recvViewChangeReq.keep c.viewChangeFits }

/-- The requests for one view that do not fit our block are dropped. -/
def delViewChangeOf (view : Nat) : Core :=
  { c with
    recvViewChangeReq := c.recvViewChangeReq.keep fun m =>
      !decide (m.view = view) || c.viewChangeFits m }

/-- The completed view change of `checkAndChangeView`. -/
def changeView (view : Nat) : Core :=
  { c with
    view := view
    rawPrepareCache := c.rawPrepareCache.clear
    prepareCache := c.prepareCache.clear
    signCache := KeyedTable.empty
    commitCache := KeyedTable.empty
    recvViewChangeReq := c.recvViewChangeReq.keep (fun m => decide (view < m.view)) }

/-- Another miner count or index of our own: `resetConfig` starts over, but keeps the
commit cache. -/
def reconfigure (nodeNum nodeIdx : Nat) : Core :=
  { c with
    nodeNum := nodeNum
    nodeIdx := nodeIdx
    f := (nodeNum - 1) / 3
    prepareCache := c.prepareCache.clear
    signCache := KeyedTable.empty
    recvViewChangeReq := KeyedTable.empty }

end Core

end UtispaceChain
