import UtispaceChain.PbftSeal.Pbft

/-! What one call can do to the protocol state, as a sequence of small moves.

Each move says under which guard the source reaches it; invariants are proved move by
move and never unfold a handler. -/

namespace UtispaceChain

open Lib Relation

def Event.configures : Event → Bool
  | .reportBlock _ => true
  | .startGeneration => true
  | _ => false

namespace Node

variable (C : Crypto) (ctx : Ctx)

/-- The proposal that a call hands to `handlePrepareMsg`, and whether it is our own. -/
def offered (s : Node) : Event → Option (PrepareReq × Bool)
  | .handleMsg _ (.prepare req) => some (req, false)
  | .handleFutureBlock =>
      if s.futurePrepareCache.2.height = s.consensusBlockNumber ∧
          s.futurePrepareCache.2.view = s.view then some (s.futurePrepareCache.2, false)
      else none
  | .shouldSeal =>
      if s.cfgErr = false ∧ s.isMiner = true ∧ s.getLeader = some s.nodeIdx ∧
          s.consensusBlockNumber = s.committedPrepareCache.height ∧
          s.consensusBlockNumber ≠ s.rawPrepareCache.height then some (s.reissued C ctx, true)
      else none
  | _ => none

structure Enters (s : Node) (req : PrepareReq) (ours : Bool) : Prop where
  fresh : s.isExistPrepare req = false
  foreign : ¬ (ours = false ∧ req.idx = s.nodeIdx)
  height : req.height = s.consensusBlockNumber
  view : req.view = s.view

/-- All the checks of `handlePrepareMsg` after the raw cache: the leader, the lock, the two
signatures, the block itself. The value is the executed block. -/
def validated (s : Node) (req : PrepareReq) : Option (H256 × Bytes) :=
  if s.getLeader = some req.idx ∧
      ¬ (req.height = s.committedPrepareCache.height ∧
        req.blockHash ≠ s.committedPrepareCache.blockHash) ∧
      checkSign C ctx req.toPBFTMsg = true then
    match ctx.checkBlockValid req.blockHash req.block with
    | none => none
    | some outBlock =>
        if outBlock.infoHash = req.blockHash ∧
            ¬ (outBlock.pending = 0 ∧ s.omitEmptyBlock = true) then outBlock.resealed
        else none
  else none

end Node

namespace Core

variable (C : Crypto) (ctx : Ctx)

/-- The proposal and its executed form enter the caches together. -/
def prepared (req : PrepareReq) (hash : H256) (block : Bytes) (c : Core) : Core :=
  (c.addRawPrepare req).signAndPrepare C ctx req.height req.view req.idx hash block

def ownVote (c : Core) (req : PrepareReq) : PBFTMsg :=
  c.signMsg C ctx req.height req.view c.nodeIdx req.blockHash

theorem broadcastSignReq_eq (req : PrepareReq) (c : Core) :
    c.broadcastSignReq C ctx req = { c with
      signCache := if ctx.host then c.signCache.insert (c.ownVote C ctx req) else c.signCache
      log := (if ctx.host then [.sent (.sign (c.ownVote C ctx req))] else []) ++
        .signed (.sign (c.ownVote C ctx req)) :: c.log } := by
  unfold broadcastSignReq broadcastVote
  cases ctx.host <;> rfl

theorem broadcastCommitReq_eq (req : PrepareReq) (c : Core) :
    c.broadcastCommitReq C ctx req = { c with
      commitCache := if ctx.host then c.commitCache.insert (c.ownVote C ctx req) else c.commitCache
      log := (if ctx.host then [.sent (.commit (c.ownVote C ctx req))] else []) ++
        .signed (.commit (c.ownVote C ctx req)) :: c.log } := by
  unfold broadcastCommitReq broadcastVote
  cases ctx.host <;> rfl

theorem broadcastPrepareReq_eq (number : Nat) (hash : H256) (block : Bytes) (c : Core) :
    let req := c.signPrepare C ctx number c.view c.nodeIdx hash block
    c.broadcastPrepareReq C ctx number hash block = { c with
      rawPrepareCache := if ctx.host then req else c.rawPrepareCache
      log := (if ctx.host then [.sent (.prepare req)] else []) ++ .signed (.prepare req) ::
        c.log } := by
  unfold broadcastPrepareReq
  cases ctx.host <;> rfl

theorem checkAndSave_cases (c : Core) : c.checkAndSave = c ∨
    (c.quorum ≤ c.haveSign c.prepareCache.blockHash ∧
      c.haveCommit c.prepareCache.blockHash = c.quorum ∧
      c.prepareCache.view = c.view ∧ c.highestBlock.number < c.prepareCache.height ∧
      ∃ block, c.checkAndSave = c.emit (.onSealGenerated c.prepareCache.height
        c.prepareCache.blockHash block (decide (c.prepareCache.idx = c.nodeIdx)))) := by
  unfold checkAndSave
  by_cases quorums : c.quorum ≤ c.haveSign c.prepareCache.blockHash ∧
      c.haveCommit c.prepareCache.blockHash = c.quorum
  swap
  · exact Or.inl (if_neg quorums)
  by_cases current : c.prepareCache.view = c.view
  swap
  · exact Or.inl (by rw [if_pos quorums, if_pos current])
  by_cases unsaved : c.highestBlock.number < c.prepareCache.height
  swap
  · exact Or.inl (by rw [if_pos quorums, if_neg (not_not.mpr current), if_neg unsaved])
  rw [if_pos quorums, if_neg (not_not.mpr current), if_pos unsaved]
  cases appendSignList c.prepareCache.block c.signList with
  | none => exact Or.inl rfl
  | some block => exact Or.inr ⟨quorums.1, quorums.2, current, unsaved, block, rfl⟩

/-- The state a call found, up to what it has logged since. -/
def AtStart (s : Node) (c : Core) : Prop := c = { s.toCore with log := c.log }

end Core

/-- One move of the call `event` that found the node in state `s`. -/
inductive Micro (C : Crypto) (ctx : Ctx) (s : Node) (event : Event) : Core → Core → Prop
  | storeSign (sender : Nat) (req : SignReq) (call : event = .handleMsg sender (.sign req))
      (fresh : s.isExistSign req = false) (foreign : req.idx ≠ s.nodeIdx)
      (signed : Node.checkSign C ctx req = true) :
      Micro C ctx s event s.toCore (s.toCore.addSignReq req)
  | storeCommit (sender : Nat) (req : CommitReq) (call : event = .handleMsg sender (.commit req))
      (fresh : s.isExistCommit req = false) (foreign : req.idx ≠ s.nodeIdx)
      (signed : Node.checkSign C ctx req = true) :
      Micro C ctx s event s.toCore (s.toCore.addCommitReq req)
  | storeViewChange (c : Core) (sender : Nat) (req : ViewChangeReq)
      (call : event = .handleMsg sender (.viewChange req)) (start : c.AtStart s)
      (foreign : req.idx ≠ s.nodeIdx) (signed : Node.checkSign C ctx req = true) :
      Micro C ctx s event c (c.addViewChangeReq req)
  | reject (c : Core) (req : PrepareReq) (self : Bool)
      (offer : s.offered C ctx event = some (req, self)) (enters : s.Enters req self)
      (refused : s.validated C ctx req = none) (start : c.AtStart s) :
      Micro C ctx s event c (c.addRawPrepare req)
  | accept (c : Core) (req : PrepareReq) (self : Bool) (hash : H256) (block : Bytes)
      (offer : s.offered C ctx event = some (req, self)) (enters : s.Enters req self)
      (valid : s.validated C ctx req = some (hash, block)) (start : c.AtStart s) :
      Micro C ctx s event c (c.prepared C ctx req hash block)
  | propose (number : Nat) (hash : H256) (block : Bytes)
      (call : event = .generateSeal number hash block) :
      Micro C ctx s event s.toCore (s.toCore.broadcastPrepareReq C ctx number hash block)
  | prepareOwn (proposal : H256) (number : Nat) (hash : H256) (block : Bytes)
      (call : event = .generateCommit proposal number hash block s.view) :
      Micro C ctx s event s.toCore
        (s.toCore.signAndPrepare C ctx number s.view s.nodeIdx hash block)
  | voteSign (c : Core) :
      Micro C ctx s event c (c.broadcastSignReq C ctx c.prepareCache)
  | lock (c : Core) (reached : c.haveSign c.prepareCache.blockHash = c.quorum)
      (current : c.prepareCache.view = c.view) (sameView : c.view = s.view) :
      Micro C ctx s event c c.locked
  | voteCommit (c : Core) (current : c.prepareCache.view = c.view) (sameView : c.view = s.view)
      (lock : c.committedPrepareCache = c.rawPrepareCache)
      (logged : Effect.locked c.rawPrepareCache c.prepareCache ∈ c.log) (miner : s.isMiner = true) :
      Micro C ctx s event c (c.broadcastCommitReq C ctx c.prepareCache)
  | save (c : Core) (sameView : c.view = s.view) : Micro C ctx s event c c.checkAndSave
  | changeView (c : Core) (view : Nat) : Micro C ctx s event c (c.changeView view)
  | report (b : BlockInfo) (call : event = .reportBlock b) :
      Micro C ctx s event s.toCore { s.toCore with highestBlock := b }
  | advance (c : Core) (b : BlockInfo) (call : event = .reportBlock b)
      (newer : c.consensusBlockNumber ≤ b.number) :
      Micro C ctx s event c (c.advanced b)
  | reconfigure (c : Core) (nodeIdx : Nat) (call : event.configures = true)
      (miners : ctx.nodes.getMinerNum ≠ 0) (found : ctx.nodes.getIdx s.pub = some nodeIdx)
      (changed : ctx.nodes.getMinerNum ≠ c.nodeNum ∨ nodeIdx ≠ c.nodeIdx)
      (samePub : c.pub = s.pub) (sameIdx : c.nodeIdx = s.nodeIdx)
      (sameCommits : c.commitCache = s.commitCache) :
      Micro C ctx s event c (c.reconfigure ctx.nodes.getMinerNum nodeIdx)
  | forget (c : Core) (hash : H256) : Micro C ctx s event c (c.delCache hash)
  | collect (c : Core) (keep : PBFTMsg → Bool) : Micro C ctx s event c
      { c with signCache := c.signCache.keep keep, commitCache := c.commitCache.keep keep }
  | dropViewChanges (c : Core) (view : Nat) : Micro C ctx s event c (c.delViewChangeOf view)
  | sign (c : Core) (packet : Packet) (height view idx : Nat) (hash : H256)
      (own : packet.msg = c.signMsg C ctx height view idx hash) :
      Micro C ctx s event c (c.emit (.signed packet))
  | send (c : Core) (packet : Packet) (other : ∀ req, packet ≠ .commit req) :
      Micro C ctx s event c (c.emit (.sent packet))
  | callback (c : Core) : Micro C ctx s event c (c.emit .onViewChange)

namespace Node

variable {C : Crypto} {ctx : Ctx} {s0 : Node} {event : Event}

abbrev Moves (C : Crypto) (ctx : Ctx) (s0 : Node) (event : Event) : Core → Core → Prop :=
  ReflTransGen (Micro C ctx s0 event)

theorem checkAndCommit_moves (s : Node) (sameView : s.view = s0.view)
    (sameAccount : s.accountType = s0.accountType) :
    Moves C ctx s0 event s.toCore (s.checkAndCommit C ctx).toCore := by
  unfold checkAndCommit
  by_cases reached : s.haveSign s.prepareCache.blockHash = s.quorum
  swap
  · rw [if_neg reached]
  by_cases current : s.prepareCache.view = s.view
  swap
  · rw [if_pos reached, if_pos current]
  rw [if_pos reached, if_neg (not_not.mpr current)]
  have first : Moves C ctx s0 event s.toCore s.toCore.locked :=
    .single (.lock s.toCore reached current sameView)
  have second : Moves C ctx s0 event s.toCore.locked (s.toCore.lockAndVote C ctx s.isMiner) := by
    have logged : Effect.locked s.rawPrepareCache s.prepareCache ∈ s.toCore.locked.log :=
      List.mem_cons_self
    cases miner : s.isMiner with
    | true =>
        have mining : s0.isMiner = true := by rw [← miner, isMiner, isMiner, sameAccount]
        exact .single (.voteCommit s.toCore.locked current sameView rfl logged mining)
    | false => exact .refl
  have view : (s.toCore.lockAndVote C ctx s.isMiner).view = s0.view := by
    cases miner : s.isMiner with
    | true =>
        simp only [Core.lockAndVote, if_true, Core.broadcastCommitReq_eq]
        exact sameView
    | false => exact sameView
  exact (first.trans second).tail (.save _ view)

theorem checkAndChangeView_moves (s : Node) :
    Moves C ctx s0 event s.toCore s.checkAndChangeView.toCore := by
  unfold checkAndChangeView
  by_cases reached : u256Sub s.quorum 1 ≤
      s.recvViewChangeReq.size (fun m => decide (m.view = s.toView))
  · rw [if_pos reached]
    exact .single (.changeView s.toCore s.toView)
  · rw [if_neg reached]

theorem broadcastViewChangeReq_moves (s : Node) :
    Moves C ctx s0 event s.toCore (s.broadcastViewChangeReq C ctx).toCore := by
  unfold broadcastViewChangeReq
  cases miner : s.isMiner with
  | false => exact .refl
  | true =>
      have signed : Moves C ctx s0 event s.toCore _ :=
        .single (.sign s.toCore (.viewChange (s.signMsg C ctx s.highestBlock.number s.toView
          s.nodeIdx s.highestBlock.hash)) _ _ _ _ rfl)
      cases host : ctx.host with
      | false => simpa [onCore, host] using signed
      | true => simpa [onCore, host] using signed.tail (.send _ _ (by intro req; simp))

theorem processPrepare_spec (s : Node) (req : PrepareReq) :
    (s.validated C ctx req = none ∧ (s.processPrepare C ctx req).toCore = s.toCore) ∨
    ∃ hash block, s.validated C ctx req = some (hash, block) ∧
      s.processPrepare C ctx req =
        { s with lastExecFinishTime := ctx.now }.acceptPrepare C ctx req hash block := by
  unfold processPrepare validated
  by_cases leader : s.getLeader = some req.idx
  swap
  · left
    simp [leader]
  by_cases lock : req.height = s.committedPrepareCache.height ∧
      req.blockHash ≠ s.committedPrepareCache.blockHash
  · left
    simp [lock]
  cases signed : checkSign C ctx req.toPBFTMsg with
  | false =>
      left
      rw [if_neg (by simp), if_neg (not_not.mpr leader), if_neg lock]
      simp
  | true =>
      have checks : s.getLeader = some req.idx ∧ ¬ (req.height = s.committedPrepareCache.height ∧
          req.blockHash ≠ s.committedPrepareCache.blockHash) ∧ true = true := ⟨leader, lock, rfl⟩
      rw [if_pos checks, if_neg (not_not.mpr leader), if_neg lock, if_neg (by simp)]
      cases valid : ctx.checkBlockValid req.blockHash req.block with
      | none => exact Or.inl ⟨rfl, rfl⟩
      | some outBlock =>
          dsimp only
          by_cases hash : outBlock.infoHash = req.blockHash
          swap
          · left
            simp [hash]
          by_cases empty : outBlock.pending = 0 ∧ s.omitEmptyBlock = true
          · left
            rw [if_neg (not_not.mpr hash), if_pos empty, if_neg (fun both => both.2 empty)]
            exact ⟨rfl, rfl⟩
          rw [if_neg (not_not.mpr hash), if_neg empty, if_pos ⟨hash, empty⟩]
          cases resealed : outBlock.resealed with
          | none => exact Or.inl ⟨rfl, rfl⟩
          | some pair => exact Or.inr ⟨pair.1, pair.2, rfl, rfl⟩

theorem acceptPrepare_moves (s : Node) (req : PrepareReq) (hash : H256) (block : Bytes)
    (sameView : s.view = s0.view) (sameAccount : s.accountType = s0.accountType) :
    Moves C ctx s0 event (s.toCore.signAndPrepare C ctx req.height req.view req.idx hash block)
      (s.acceptPrepare C ctx req hash block).toCore := by
  unfold acceptPrepare
  let prepared := s.onCore (Core.signAndPrepare C ctx req.height req.view req.idx hash block)
  cases miner : s.isMiner with
  | false => exact checkAndCommit_moves prepared sameView sameAccount
  | true =>
      refine ReflTransGen.head (.voteSign prepared.toCore) ?_
      have view : (prepared.toCore.broadcastSignReq C ctx prepared.prepareCache).view =
          s0.view := by
        rw [Core.broadcastSignReq_eq]
        exact sameView
      exact checkAndCommit_moves (prepared.onCore fun c => c.broadcastSignReq C ctx c.prepareCache)
        view
        sameAccount

def withLog (s : Node) (log : List Effect) : Node := s.onCore fun c => { c with log := log }

theorem handlePrepareMsg_moves (log : List Effect) (sender : Nat) (req : PrepareReq) (self : Bool)
    (offer : s0.offered C ctx event = some (req, self)) :
    Moves C ctx s0 event (s0.withLog log).toCore
      ((s0.withLog log).handlePrepareMsg C ctx sender req self).toCore := by
  unfold handlePrepareMsg
  cases fresh : (s0.withLog log).isExistPrepare req with
  | true => exact .refl
  | false =>
      rw [if_neg (by simp)]
      by_cases foreign : self = false ∧ req.idx = (s0.withLog log).nodeIdx
      · rw [if_pos foreign]
      by_cases past : req.height < (s0.withLog log).consensusBlockNumber ∨
          req.view < (s0.withLog log).view
      · rw [if_neg foreign, if_pos past]
      by_cases later : (s0.withLog log).consensusBlockNumber < req.height ∨
          (s0.withLog log).view < req.view
      · rw [if_neg foreign, if_neg past, if_pos later]
        unfold recvFutureBlock
        split <;> exact .refl
      rw [if_neg foreign, if_neg past, if_neg later]
      have enters : s0.Enters req self := by
        refine ⟨fresh, foreign, ?_, ?_⟩
        · have low : ¬ req.height < s0.consensusBlockNumber := fun h => past (Or.inl h)
          have high : ¬ s0.consensusBlockNumber < req.height := fun h => later (Or.inl h)
          omega
        · have low : ¬ req.view < s0.view := fun h => past (Or.inr h)
          have high : ¬ s0.view < req.view := fun h => later (Or.inr h)
          omega
      rcases processPrepare_spec (C := C)
        ((s0.withLog log).onCore fun c => c.addRawPrepare req) req with
        ⟨refused, same⟩ | ⟨hash, block, valid, result⟩
      · rw [same]
        exact .single (.reject _ req self offer enters refused rfl)
      · rw [result]
        refine ReflTransGen.head (.accept _ req self hash block offer enters valid rfl) ?_
        exact acceptPrepare_moves
          { (s0.withLog log).onCore (fun c => c.addRawPrepare req) with lastExecFinishTime :=
            ctx.now }
          req hash block rfl rfl

theorem handleSignMsg_moves (sender : Nat) (req : SignReq)
    (call : event = .handleMsg sender (.sign req)) :
    Moves C ctx s0 event s0.toCore (s0.handleSignMsg C ctx req).toCore := by
  unfold handleSignMsg
  cases fresh : s0.isExistSign req with
  | true => exact .refl
  | false =>
      rw [if_neg (by simp)]
      by_cases foreign : req.idx = s0.nodeIdx
      · rw [if_pos foreign]
      rw [if_neg foreign]
      cases signed : checkSign C ctx req with
      | false =>
          simp only [Bool.and_false]
          split
          · exact .refl
          · split <;> exact .refl
      | true =>
          have stored := Micro.storeSign sender req call fresh foreign signed
          split
          · split
            · exact .single stored
            · exact .refl
          · split
            · exact .refl
            · rw [if_neg (by simp)]
              exact ReflTransGen.head stored
                (checkAndCommit_moves (s0.onCore fun c => c.addSignReq req) rfl rfl)

theorem handleCommitMsg_moves (sender : Nat) (req : CommitReq)
    (call : event = .handleMsg sender (.commit req)) :
    Moves C ctx s0 event s0.toCore (s0.handleCommitMsg C ctx req).toCore := by
  unfold handleCommitMsg
  cases fresh : s0.isExistCommit req with
  | true => exact .refl
  | false =>
      rw [if_neg (by simp)]
      by_cases foreign : req.idx = s0.nodeIdx
      · rw [if_pos foreign]
      rw [if_neg foreign]
      cases signed : checkSign C ctx req with
      | false =>
          simp only [Bool.and_false]
          split
          · exact .refl
          · split <;> exact .refl
      | true =>
          have stored := Micro.storeCommit sender req call fresh foreign signed
          split
          · split
            · exact .single stored
            · exact .refl
          · split
            · exact .refl
            · rw [if_neg (by simp)]
              exact (ReflTransGen.single stored).tail (.save _ rfl)

theorem fastViewChange_core (s : Node) : (s.fastViewChange ctx).toCore = s.toCore := by
  unfold fastViewChange
  dsimp only
  split <;> rfl

theorem broadcastViewChangeReq_start (s : Node) :
    (s.broadcastViewChangeReq C ctx).toCore.AtStart s := by
  unfold broadcastViewChangeReq
  cases miner : s.isMiner with
  | false => rfl
  | true =>
      cases host : ctx.host with
      | false => rfl
      | true => rfl

theorem storeViewChange_moves (s : Node) (sender : Nat) (req : ViewChangeReq)
    (call : event = .handleMsg sender (.viewChange req)) (start : s.toCore.AtStart s0)
    (foreign : req.idx ≠ s0.nodeIdx) (signed : checkSign C ctx req = true) :
    Moves C ctx s0 event s.toCore
      (if req.view = s.toView then (s.onCore fun c => c.addViewChangeReq req).checkAndChangeView
        else (s.onCore fun c => c.addViewChangeReq req).fastViewChange ctx).toCore := by
  refine ReflTransGen.head (.storeViewChange s.toCore sender req call start foreign signed) ?_
  split
  · exact checkAndChangeView_moves (s.onCore fun c => c.addViewChangeReq req)
  · rw [fastViewChange_core]
    exact .refl

theorem handleViewChangeMsg_moves (sender : Nat) (req : ViewChangeReq)
    (call : event = .handleMsg sender (.viewChange req)) :
    Moves C ctx s0 event s0.toCore (s0.handleViewChangeMsg C ctx req).toCore := by
  unfold handleViewChangeMsg
  cases fresh : s0.isExistViewChange req with
  | true => exact .refl
  | false =>
      rw [if_neg (by simp)]
      by_cases foreign : req.idx = s0.nodeIdx
      · rw [if_pos foreign]
      rw [if_neg foreign]
      -- the request may first be answered with one of our own
      have answered : ∃ s : Node, (if u256Add req.view 1 < s0.toView then
          s0.broadcastViewChangeReq C ctx else s0) = s ∧ s.toCore.AtStart s0 ∧
          Moves C ctx s0 event s0.toCore s.toCore := by
        refine ⟨_, rfl, ?_⟩
        split
        · exact ⟨broadcastViewChangeReq_start s0, broadcastViewChangeReq_moves s0⟩
        · exact ⟨rfl, .refl⟩
      obtain ⟨s, result, start, moves⟩ := answered
      dsimp only
      rw [result]
      split
      · exact moves
      split
      · exact moves
      split
      · exact moves
      · rename_i signed
        exact moves.trans
          (storeViewChange_moves s sender req call start foreign (by simpa using signed))

theorem checkTimeout_moves : Moves C ctx s0 event s0.toCore (s0.checkTimeout C ctx).toCore := by
  unfold checkTimeout
  dsimp only
  split
  · have asked : Moves C ctx s0 event s0.toCore
        ((s0.startViewChange ctx).broadcastViewChangeReq C ctx).toCore :=
      ReflTransGen.head (.dropViewChanges s0.toCore (u256Add s0.toView 1))
        (broadcastViewChangeReq_moves (s0.startViewChange ctx))
    split
    · exact (asked.trans (checkAndChangeView_moves _)).tail (.callback _)
    · exact asked
  · exact .refl

/-- `resetConfig` reads our own entry of the node table, and starts over only when it differs
from the configuration in use. -/
theorem resetConfig_cases (s : Node) :
    ((s.resetConfig ctx).toCore = s.toCore ∧ (ctx.nodes.getMinerNum = 0 ∨
      ∀ nodeIdx, ctx.nodes.getIdx s.pub = some nodeIdx →
        ctx.nodes.getMinerNum = s.nodeNum ∧ nodeIdx = s.nodeIdx)) ∨
    ∃ nodeIdx, ctx.nodes.getMinerNum ≠ 0 ∧ ctx.nodes.getIdx s.pub = some nodeIdx ∧
      (ctx.nodes.getMinerNum ≠ s.nodeNum ∨ nodeIdx ≠ s.nodeIdx) ∧
      (s.resetConfig ctx).toCore = s.toCore.reconfigure ctx.nodes.getMinerNum nodeIdx := by
  unfold resetConfig
  cases account : ctx.nodes.getAccountType s.pub with
  | none =>
      left
      refine ⟨rfl, Or.inr ?_⟩
      intro nodeIdx found
      have unknown : ctx.nodes.find s.pub = none := by
        simpa [NodeTable.getAccountType] using account
      simp [NodeTable.getIdx, unknown] at found
  | some accountType =>
      dsimp only
      by_cases none : ctx.nodes.getMinerNum = 0
      · rw [if_pos none]
        exact Or.inl ⟨rfl, Or.inl none⟩
      rw [if_neg none]
      cases found : ctx.nodes.getIdx s.pub with
      | none => exact Or.inl ⟨rfl, Or.inr (by intro nodeIdx other; cases other)⟩
      | some nodeIdx =>
          dsimp only
          by_cases changed : ctx.nodes.getMinerNum ≠ s.nodeNum ∨ nodeIdx ≠ s.nodeIdx
          · rw [if_pos changed]
            right
            refine ⟨nodeIdx, none, rfl, changed, ?_⟩
            split <;> rfl
          · rw [if_neg changed]
            left
            refine ⟨rfl, Or.inr ?_⟩
            intro other same
            cases same
            simpa using changed

theorem resetConfig_moves (s : Node) (call : event.configures = true) (samePub : s.pub = s0.pub)
    (sameIdx : s.nodeIdx = s0.nodeIdx) (sameCommits : s.commitCache = s0.commitCache) :
    Moves C ctx s0 event s.toCore (s.resetConfig ctx).toCore := by
  rcases s.resetConfig_cases with ⟨same, -⟩ | ⟨nodeIdx, miners, found, changed, result⟩
  · rw [same]
  · rw [result]
    exact .single (.reconfigure s.toCore nodeIdx call miners (samePub ▸ found) changed samePub
      sameIdx sameCommits)

theorem reportBlock_moves (b : BlockInfo) (call : event = .reportBlock b) :
    Moves C ctx s0 event s0.toCore (s0.reportBlock ctx b).toCore := by
  unfold reportBlock
  let reported := s0.onCore fun c => { c with highestBlock := b }
  have configures : event.configures = true := by rw [call]; rfl
  refine ReflTransGen.head (.report b call) (ReflTransGen.tail ?_ (.forget _ b.hash))
  by_cases newer : reported.consensusBlockNumber ≤ b.number
  · rw [if_pos newer]
    exact ReflTransGen.head (.advance reported.toCore b call newer)
      (resetConfig_moves (reported.advance ctx b) configures rfl rfl rfl)
  · rw [if_neg newer]
    exact resetConfig_moves reported configures rfl rfl rfl

theorem generateCommit_moves (proposal : H256) (number : Nat) (hash : H256) (block : Bytes)
    (view : Nat) (call : event = .generateCommit proposal number hash block view) :
    Moves C ctx s0 event s0.toCore (s0.generateCommit C ctx number hash block view).toCore := by
  unfold generateCommit
  by_cases current : view = s0.view
  swap
  · rw [if_pos current]
  subst current
  rw [if_neg (by simp)]
  refine ReflTransGen.head (.prepareOwn proposal number hash block call) ?_
  refine ReflTransGen.head (.voteSign _) ?_
  let prepared := s0.onCore (Core.signAndPrepare C ctx number s0.view s0.nodeIdx hash block)
  cases host : ctx.host with
  | false => exact .refl
  | true =>
      have view : (prepared.toCore.broadcastSignReq C ctx prepared.prepareCache).view =
          s0.view := by
        rw [Core.broadcastSignReq_eq]
        rfl
      exact checkAndCommit_moves
        (prepared.onCore fun c => c.broadcastSignReq C ctx c.prepareCache) view rfl

theorem shouldSeal_moves (call : event = .shouldSeal) :
    Moves C ctx s0 event s0.toCore (s0.shouldSeal C ctx).1.toCore := by
  unfold shouldSeal
  by_cases off : s0.cfgErr = true ∨ s0.isMiner = false
  · rw [if_pos off]
  rw [if_neg off]
  cases elected : s0.getLeader with
  | none => exact .refl
  | some leader =>
      dsimp only
      by_cases ours : leader = s0.nodeIdx
      swap
      · rw [if_pos ours]
        dsimp only
        split <;> exact .refl
      rw [if_neg (not_not.mpr ours)]
      by_cases unsaved : s0.consensusBlockNumber = s0.committedPrepareCache.height
      swap
      · rw [if_neg unsaved]
      rw [if_pos unsaved]
      by_cases stale : s0.consensusBlockNumber = s0.rawPrepareCache.height
      · simp only [stale, ne_eq, not_true_eq_false, if_false]
        exact .refl
      dsimp only
      rw [if_pos stale]
      have offer : s0.offered C ctx event = some (s0.reissued C ctx, true) := by
        have on : s0.cfgErr = false ∧ s0.isMiner = true := by simpa using off
        subst call
        simp only [offered]
        rw [if_pos ⟨on.1, on.2, by rw [elected, ours], unsaved, stale⟩]
      unfold reHandlePrepareReq
      have signed : Moves C ctx s0 event s0.toCore
          (s0.toCore.emit (.signed (.prepare (s0.reissued C ctx)))) :=
        .single (.sign s0.toCore (.prepare (s0.reissued C ctx)) _ _ _ _ rfl)
      cases host : ctx.host with
      | false => exact signed.trans (handlePrepareMsg_moves _ s0.nodeIdx _ true offer)
      | true =>
          exact (signed.tail (.send _ (.prepare (s0.reissued C ctx)) (by intro req; simp))).trans
            (handlePrepareMsg_moves _ s0.nodeIdx _ true offer)

theorem step_moves : Moves C ctx s0 event s0.toCore (s0.step C ctx event).toCore := by
  cases call : event with
  | handleMsg sender packet =>
      cases packet with
      | prepare req => exact handlePrepareMsg_moves s0.log sender req false rfl
      | sign req => exact handleSignMsg_moves sender req rfl
      | commit req => exact handleCommitMsg_moves sender req rfl
      | viewChange req => exact handleViewChangeMsg_moves sender req rfl
  | checkTimeout => exact checkTimeout_moves
  | handleFutureBlock =>
      simp only [step, handleFutureBlock]
      by_cases due : s0.futurePrepareCache.2.height = s0.consensusBlockNumber ∧
          s0.futurePrepareCache.2.view = s0.view
      · rw [if_pos due]
        exact handlePrepareMsg_moves s0.log s0.futurePrepareCache.1 s0.futurePrepareCache.2 false
          (by simp only [offered]; rw [if_pos due])
      · rw [if_neg due]
  | collectGarbage =>
      simp only [step, collectGarbage]
      split
      · exact .refl
      split
      · exact .single (.collect s0.toCore _)
      · exact .refl
  | reportBlock b => exact reportBlock_moves b rfl
  | shouldSeal => exact shouldSeal_moves rfl
  | generateSeal number hash block => exact .single (.propose number hash block rfl)
  | generateCommit proposal number hash block view =>
      exact generateCommit_moves proposal number hash block view rfl
  | changeViewForEmptyBlockWithLock => exact .refl
  | setOmitEmptyBlock flag => exact .refl
  | startGeneration =>
      exact resetConfig_moves { s0 with lastConsensusTime := ctx.now } rfl rfl rfl rfl

end Node

end UtispaceChain
