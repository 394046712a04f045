import Mathlib
import UtispaceChain.Lib.Run
import UtispaceChain.PbftSeal.State

/-! The methods of `PBFT`, one call at a time.

Every method runs under the object's lock, so a run of the object is a sequence of
calls. The clock is read once a call. -/

namespace UtispaceChain

open Lib Rlp

def kMaxChangeCycle : Nat := 20
def kCollectInterval : Nat := 60 * 1000

namespace Core

variable (C : Crypto) (ctx : Ctx)

/-- A message of this node: both hashes signed with its own key. -/
def signMsg (c : Core) (height view idx : Nat) (hash : H256) : PBFTMsg :=
  let m : PBFTMsg := {
    height := height, view := view, idx := idx, timestamp := ctx.now, blockHash := hash
    sig := C.sign c.sec hash }
  { m with sig2 := C.sign c.sec (m.fieldsWithoutBlock C) }

def signPrepare (c : Core) (height view idx : Nat) (hash : H256) (block : Bytes) : PrepareReq :=
  { c.signMsg C ctx height view idx hash with block := block }

/-- Sign a vote on the prepared block, and keep it once it went out. -/
def broadcastVote (packet : PBFTMsg → Packet) (add : Core → PBFTMsg → Core) (req : PrepareReq)
    (c : Core) : Core :=
  let m := c.signMsg C ctx req.height req.view c.nodeIdx req.blockHash
  let signed := c.emit (.signed (packet m))
  if ctx.host then add (signed.emit (.sent (packet m))) m else signed

def broadcastSignReq (req : PrepareReq) (c : Core) : Core :=
  broadcastVote C ctx .sign addSignReq req c

def broadcastCommitReq (req : PrepareReq) (c : Core) : Core :=
  broadcastVote C ctx .commit addCommitReq req c

def broadcastPrepareReq (number : Nat) (hash : H256) (block : Bytes) (c : Core) : Core :=
  let req := c.signPrepare C ctx number c.view c.nodeIdx hash block
  let signed := c.emit (.signed (.prepare req))
  if ctx.host then (signed.emit (.sent (.prepare req))).addRawPrepare req else signed

/-- The executed block of a proposal, signed by us and put into the prepare cache. -/
def signAndPrepare (height view idx : Nat) (hash : H256) (block : Bytes) (c : Core) : Core :=
  let prepare := c.signPrepare C ctx height view idx hash block
  (c.emit (.signed (.prepare prepare))).addPrepareReq prepare

/-- The sealed block: the four items of the prepared block and the signature list. -/
def appendSignList (block : Bytes) (signList : List (Nat × Signature)) : Option Bytes :=
  (item block 0).bind fun header =>
  (item block 1).bind fun transactions =>
  (item block 2).bind fun uncles =>
  (item block 3).map fun hash =>
    let signs := signList.map fun entry =>
      appendList (appendInt entry.1 ++ appendBytes (toBigEndian 65 entry.2))
    appendList (header ++ transactions ++ uncles ++ hash ++ appendList signs.flatten)

def signList (c : Core) : List (Nat × Signature) :=
  (c.commitCache.entries.filter (fun m => decide (m.blockHash = c.prepareCache.blockHash))).map
    fun m => (m.idx, m.sig)

def locked (c : Core) : Core :=
  { c with committedPrepareCache := c.rawPrepareCache }.emit
    (.locked c.rawPrepareCache c.prepareCache)

def lockAndVote (miner : Bool) (c : Core) : Core :=
  if miner then c.locked.broadcastCommitReq C ctx c.prepareCache else c.locked

def checkAndSave (c : Core) : Core :=
  if c.quorum ≤ c.haveSign c.prepareCache.blockHash ∧
      c.haveCommit c.prepareCache.blockHash = c.quorum then
    if c.prepareCache.view ≠ c.view then c
    else if c.highestBlock.number < c.prepareCache.height then
      match appendSignList c.prepareCache.block c.signList with
      | some block => c.emit (.onSealGenerated c.prepareCache.height c.prepareCache.blockHash block
          (decide (c.prepareCache.idx = c.nodeIdx)))
      | none => c
    else c
  else c

def advanced (b : BlockInfo) (c : Core) : Core :=
  { c with view := 0, consensusBlockNumber := u256Add b.number 1 }.delViewChange

end Core

namespace Node

variable (C : Crypto) (ctx : Ctx)

def onCore (s : Node) (op : Core → Core) : Node := { s with toCore := op s.toCore }

def isMiner (s : Node) : Bool := decide (s.accountType = EN_ACCOUNT_TYPE_MINER)

def getLeader (s : Node) : Option Nat :=
  if s.cfgErr ∨ s.leaderFailed ∨ s.highestBlock.number = Invalid256 then none
  else some (u256Add s.view s.highestBlock.number % s.nodeNum)

def checkSign (req : PBFTMsg) : Bool :=
  match ctx.nodes.getPublicKey req.idx with
  | none => false
  | some key =>
      C.verify key req.sig req.blockHash && C.verify key req.sig2 (req.fieldsWithoutBlock C)

def checkAndCommit (s : Node) : Node :=
  if s.haveSign s.prepareCache.blockHash = s.quorum then
    if s.prepareCache.view ≠ s.view then s
    else { s with toCore := (s.toCore.lockAndVote C ctx s.isMiner).checkAndSave, lastSignTime :=
      ctx.now }
  else s

def checkAndChangeView (s : Node) : Node :=
  let count := s.recvViewChangeReq.size (fun m => decide (m.view = s.toView))
  if u256Sub s.quorum 1 ≤ count then
    { s.onCore (fun c => c.changeView s.toView) with leaderFailed := false }
  else s

def broadcastViewChangeReq (s : Node) : Node :=
  if s.isMiner = false then s
  else
    let req := s.signMsg C ctx s.highestBlock.number s.toView s.nodeIdx s.highestBlock.hash
    let signed := s.onCore fun c => c.emit (.signed (.viewChange req))
    if ctx.host then signed.onCore fun c => c.emit (.sent (.viewChange req)) else signed

/-- What `broadcastViewChangeReq` returns. -/
def viewChangeSent (s : Node) : Bool := !s.isMiner || ctx.host

def changeViewForEmptyBlockWithoutLock (s : Node) : Node :=
  { s with lastConsensusTime := 0, lastSignTime := 0, changeCycle := 0, emptyBlockFlag := true }

def changeViewForEmptyBlockWithLock (s : Node) : Node :=
  { s with
    lastConsensusTime := 0, lastSignTime := 0, changeCycle := 0, emptyBlockFlag := true
    leaderFailed := true }

def recvFutureBlock (sender : Nat) (req : PrepareReq) (s : Node) : Node :=
  if s.futurePrepareCache.2.blockHash ≠ req.blockHash then
    { s with futurePrepareCache := (sender, req) }
  else s

/-- The end of `handlePrepareMsg`: the executed block replaces the proposal and is voted on. -/
def acceptPrepare (req : PrepareReq) (hash : H256) (block : Bytes) (s : Node) : Node :=
  let prepared := s.onCore (Core.signAndPrepare C ctx req.height req.view req.idx hash block)
  let voted := if s.isMiner then prepared.onCore fun c => c.broadcastSignReq C ctx c.prepareCache
    else prepared
  voted.checkAndCommit C ctx

/-- `handlePrepareMsg` from the leader check on; the proposal is in the raw cache already. -/
def processPrepare (req : PrepareReq) (s : Node) : Node :=
  if s.getLeader ≠ some req.idx then s
  else if req.height = s.committedPrepareCache.height ∧
      req.blockHash ≠ s.committedPrepareCache.blockHash then s
  else if checkSign C ctx req.toPBFTMsg = false then s
  else match ctx.checkBlockValid req.blockHash req.block with
    | none => s
    | some outBlock =>
        if outBlock.infoHash ≠ req.blockHash then s
        else
          let executed := { s with lastExecFinishTime := ctx.now }
          if outBlock.pending = 0 ∧ executed.omitEmptyBlock = true then
            executed.changeViewForEmptyBlockWithoutLock
          else match outBlock.resealed with
            | none => executed
            | some (hash, block) => executed.acceptPrepare C ctx req hash block

def handlePrepareMsg (sender : Nat) (req : PrepareReq) (self : Bool) (s : Node) : Node :=
  if s.isExistPrepare req then s
  else if self = false ∧ req.idx = s.nodeIdx then s
  else if req.height < s.consensusBlockNumber ∨ req.view < s.view then s
  else if s.consensusBlockNumber < req.height ∨ s.view < req.view then s.recvFutureBlock sender req
  else (s.onCore fun c => c.addRawPrepare req).processPrepare C ctx req

/-- A vote for a block we have not prepared is kept for later. -/
def futureVote (req : PBFTMsg) (s : Node) : Bool :=
  decide (s.consensusBlockNumber ≤ req.height) || decide (s.view < req.view)

def handleSignMsg (req : SignReq) (s : Node) : Node :=
  if s.isExistSign req then s
  else if req.idx = s.nodeIdx then s
  else if s.prepareCache.blockHash ≠ req.blockHash then
    if s.futureVote req && checkSign C ctx req then s.onCore fun c => c.addSignReq req else s
  else if s.prepareCache.view ≠ req.view then s
  else if checkSign C ctx req = false then s
  else (s.onCore fun c => c.addSignReq req).checkAndCommit C ctx

def handleCommitMsg (req : CommitReq) (s : Node) : Node :=
  if s.isExistCommit req then s
  else if req.idx = s.nodeIdx then s
  else if s.prepareCache.blockHash ≠ req.blockHash then
    if s.futureVote req && checkSign C ctx req then s.onCore fun c => c.addCommitReq req else s
  else if s.prepareCache.view ≠ req.view then s
  else if checkSign C ctx req = false then s
  else (s.onCore fun c => c.addCommitReq req).onCore Core.checkAndSave

/-- The walk over the requests for later views: the view taken for each sender, and the
lowest view and height seen. -/
structure FastView where
  idxView : List (Nat × Nat) := []
  minView : Nat := Invalid256
  minHeight : Nat := Invalid256

def fastViewStep (highest : Nat) (acc : FastView) (m : ViewChangeReq) : FastView :=
  let newer := match acc.idxView.lookup m.idx with
    | none => true
    | some view => decide (view < m.view)
  if highest ≤ m.height ∧ newer = true then
    { idxView := (m.idx, m.view) :: acc.idxView.filter (fun entry => decide (entry.1 ≠ m.idx))
      minView := min acc.minView m.view
      minHeight := min acc.minHeight m.height }
  else acc

/-- More than `f` senders ask for later views: catch up just below the lowest of them. -/
def fastViewChange (s : Node) : Node :=
  let later := s.recvViewChangeReq.entries.filter (fun m => decide (s.toView < m.view))
  let acc := (ctx.order later).foldl (fastViewStep s.highestBlock.number) {}
  let unsaved := acc.minHeight = s.consensusBlockNumber ∧
    acc.minHeight = s.committedPrepareCache.height
  if s.f < acc.idxView.length ∧ ¬ unsaved then
    { s with lastConsensusTime := 0, lastSignTime := 0, toView := u256Sub acc.minView 1 }
  else s

def handleViewChangeMsg (req : ViewChangeReq) (s : Node) : Node :=
  if s.isExistViewChange req then s
  else if req.idx = s.nodeIdx then s
  else
    let s := if u256Add req.view 1 < s.toView then s.broadcastViewChangeReq C ctx else s
    if req.height < s.highestBlock.number ∨ req.view ≤ s.view then s
    else if req.height = s.highestBlock.number ∧ req.blockHash ≠ s.highestBlock.hash ∧
        ctx.hasBlock req.blockHash = false then s
    else if checkSign C ctx req = false then s
    else
      let stored := s.onCore fun c => c.addViewChangeReq req
      if req.view = s.toView then stored.checkAndChangeView else stored.fastViewChange ctx

/-- `handleMsg`, from the message that was read up to the relaying. -/
def handlePacket (sender : Nat) (packet : Packet) (s : Node) : Node :=
  match packet with
  | .prepare req => s.handlePrepareMsg C ctx sender req false
  | .sign req => s.handleSignMsg C ctx req
  | .commit req => s.handleCommitMsg C ctx req
  | .viewChange req => s.handleViewChangeMsg C ctx req

/-- `m_view_timeout * 1.5 ^ m_change_cycle`, rounded down. -/
def timeoutInterval (s : Node) : Nat := s.viewTimeout * 3 ^ s.changeCycle / 2 ^ s.changeCycle

def startViewChange (s : Node) : Node :=
  { s with
    toCore := s.toCore.delViewChangeOf (u256Add s.toView 1)
    leaderFailed := true
    toView := u256Add s.toView 1
    changeCycle := min (s.changeCycle + 1) kMaxChangeCycle
    lastConsensusTime := ctx.now }

def checkTimeout (s : Node) : Node :=
  let lastTime := max s.lastConsensusTime s.lastSignTime
  if s.timeoutInterval ≤ (ctx.now + 2 ^ 64 - lastTime) % 2 ^ 64 then
    let asked := (s.startViewChange ctx).broadcastViewChangeReq C ctx
    if s.viewChangeSent ctx then
      asked.checkAndChangeView.onCore fun c => c.emit .onViewChange
    else asked
  else s

def handleFutureBlock (s : Node) : Node :=
  if s.futurePrepareCache.2.height = s.consensusBlockNumber ∧
      s.futurePrepareCache.2.view = s.view then
    { s.handlePrepareMsg C ctx s.futurePrepareCache.1 s.futurePrepareCache.2 false with
      futurePrepareCache := (Invalid256, {}) }
  else s

def collectGarbage (s : Node) : Node :=
  if s.highestBlock.timestamp = Invalid256 then s
  else if kCollectInterval ≤ ctx.now - s.lastCollectTime then
    let recent := fun m : PBFTMsg => decide (s.highestBlock.number ≤ m.height)
    { s with
      signCache := s.signCache.keep recent
      commitCache := s.commitCache.keep recent
      lastCollectTime := ctx.now }
  else s

def resetConfig (s : Node) : Node :=
  match ctx.nodes.getAccountType s.pub with
  | none => { s with cfgErr := true }
  | some accountType =>
      let s := { s with accountType := accountType }
      if ctx.nodes.getMinerNum = 0 then { s with cfgErr := true }
      else match ctx.nodes.getIdx s.pub with
        | none => { s with cfgErr := true }
        | some nodeIdx =>
            if ctx.nodes.getMinerNum ≠ s.nodeNum ∨ nodeIdx ≠ s.nodeIdx then
              let listed := ctx.nodes.getMinerList s.minerList
              let s := { s.onCore (fun c => c.reconfigure ctx.nodes.getMinerNum nodeIdx) with
                minerList := listed.2 }
              if listed.1 = false ∨ listed.2.length ≠ s.nodeNum then { s with cfgErr := true }
              else { s with cfgErr := false }
            else { s with cfgErr := false }

/-- A block at or above the one under consensus: start over at the next height. -/
def advance (b : BlockInfo) (s : Node) : Node :=
  { s with
    toCore := s.toCore.advanced b
    toView := 0
    changeCycle := 0
    leaderFailed := false
    lastConsensusTime := ctx.now }

def reportBlock (b : BlockInfo) (s : Node) : Node :=
  let s := s.onCore fun c => { c with highestBlock := b }
  let advanced := if s.consensusBlockNumber ≤ b.number then s.advance ctx b else s
  (advanced.resetConfig ctx).onCore fun c => c.delCache b.hash

def generateSeal (number : Nat) (hash : H256) (block : Bytes) (s : Node) : Node :=
  s.onCore (Core.broadcastPrepareReq C ctx number hash block)

def generateCommit (number : Nat) (hash : H256) (block : Bytes) (view : Nat) (s : Node) : Node :=
  if view ≠ s.view then s
  else
    let prepared := s.onCore (Core.signAndPrepare C ctx number view s.nodeIdx hash block)
    let voted := prepared.onCore fun c => c.broadcastSignReq C ctx c.prepareCache
    if ctx.host then voted.checkAndCommit C ctx else voted

/-- The committed but unsaved proposal, issued again by us as the leader of this view. -/
def reissued (s : Node) : PrepareReq :=
  s.signPrepare C ctx s.committedPrepareCache.height s.view s.nodeIdx
    s.committedPrepareCache.blockHash s.committedPrepareCache.block

def reHandlePrepareReq (s : Node) : Node :=
  let req := s.reissued C ctx
  let signed := s.onCore fun c => c.emit (.signed (.prepare req))
  let sent := if ctx.host then signed.onCore fun c => c.emit (.sent (.prepare req)) else signed
  sent.handlePrepareMsg C ctx s.nodeIdx req true

/-- The leader is registered and the network is up, but there is no connection to it. -/
def leaderUnreachable (leader : Nat) : Bool :=
  match ctx.nodes.getPublicKey leader with
  | some key => ctx.host && !ctx.isConnected key
  | none => false

def shouldSeal (s : Node) : Node × Bool :=
  if s.cfgErr = true ∨ s.isMiner = false then (s, false)
  else match s.getLeader with
    | none => (s, false)
    | some leader =>
        if leader ≠ s.nodeIdx then
          (if leaderUnreachable ctx leader then { s with lastConsensusTime := 0, lastSignTime := 0 }
            else s, false)
        else if s.consensusBlockNumber = s.committedPrepareCache.height then
          (if s.consensusBlockNumber ≠ s.rawPrepareCache.height then s.reHandlePrepareReq C ctx
            else s, false)
        else (s, true)

end Node

/-- The calls that reach a `PBFT` object. The commit of the client names the hash its
proposal had before execution. -/
inductive Event
  | handleMsg (sender : Nat) (packet : Packet)
  | checkTimeout
  | handleFutureBlock
  | collectGarbage
  | reportBlock (b : BlockInfo)
  | shouldSeal
  | generateSeal (number : Nat) (hash : H256) (block : Bytes)
  | generateCommit (proposal : H256) (number : Nat) (hash : H256) (block : Bytes) (view : Nat)
  | changeViewForEmptyBlockWithLock
  | setOmitEmptyBlock (flag : Bool)
  | startGeneration

namespace Node

variable (C : Crypto)

def step (ctx : Ctx) (s : Node) : Event → Node
  | .handleMsg sender packet => s.handlePacket C ctx sender packet
  | .checkTimeout => s.checkTimeout C ctx
  | .handleFutureBlock => s.handleFutureBlock C ctx
  | .collectGarbage => s.collectGarbage ctx
  | .reportBlock b => s.reportBlock ctx b
  | .shouldSeal => (s.shouldSeal C ctx).1
  | .generateSeal number hash block => s.generateSeal C ctx number hash block
  | .generateCommit _ number hash block view => s.generateCommit C ctx number hash block view
  | .changeViewForEmptyBlockWithLock => s.changeViewForEmptyBlockWithLock
  | .setOmitEmptyBlock flag => { s with omitEmptyBlock := flag }
  | .startGeneration => { s with lastConsensusTime := ctx.now }.resetConfig ctx

def next (s : Node) (call : Ctx × Event) : Node := s.step C call.1 call.2

def run (s : Node) (calls : List (Ctx × Event)) : Node := Lib.run (next C) s calls

def trace (s : Node) (calls : List (Ctx × Event)) : List (Node × Ctx × Event) :=
  Lib.trace (next C) s calls

/-- What a node is started with; the last three are members the constructor leaves unset. -/
structure Setup where
  sec : Secret
  pub : Public
  viewTimeout : Nat
  backup : Option PrepareReq := none
  accountType : Int := 0
  emptyBlockFlag : Bool := false
  omitEmptyBlock : Bool := false

/-- `initEnv`; the lock is read back from the backup database. -/
def initEnv (ctx : Ctx) (setup : Setup) : Node :=
  let unset : Node := {
    sec := setup.sec, pub := setup.pub, accountType := setup.accountType
    viewTimeout := setup.viewTimeout, lastConsensusTime := ctx.now, lastCollectTime := ctx.now
    lastExecFinishTime := ctx.now, emptyBlockFlag := setup.emptyBlockFlag
    omitEmptyBlock := setup.omitEmptyBlock }
  (unset.resetConfig ctx).onCore fun c => { c with committedPrepareCache := setup.backup.getD {} }

end Node

end UtispaceChain
