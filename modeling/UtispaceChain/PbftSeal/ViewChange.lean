import UtispaceChain.PbftSeal.Network

/-! What one call can do to the view, the view wanted next, and the stored requests. -/

namespace UtispaceChain

open Lib

/-- The part of the state that only view changes, new blocks and a new configuration touch. -/
structure ViewPart where
  view : Nat
  nodeNum : Nat
  f : Nat
  nodeIdx : Nat
  requests : ViewChangeCache

namespace Core

def viewPart (c : Core) : ViewPart where
  view := c.view
  nodeNum := c.nodeNum
  f := c.f
  nodeIdx := c.nodeIdx
  requests := c.recvViewChangeReq

variable {C : Crypto} {ctx : Ctx} {c : Core}

theorem checkAndSave_viewPart : c.checkAndSave.viewPart = c.viewPart := by
  rcases c.checkAndSave_cases with same | ⟨-, -, -, -, block, sealed⟩
  · rw [same]
  · rw [sealed]
    rfl

theorem broadcastSignReq_viewPart (req : PrepareReq) :
    (c.broadcastSignReq C ctx req).viewPart = c.viewPart := by
  rw [broadcastSignReq_eq]
  rfl

theorem lockAndVote_viewPart (miner : Bool) :
    (c.lockAndVote C ctx miner).viewPart = c.viewPart := by
  cases miner with
  | false => rfl
  | true =>
      rw [lockAndVote, if_pos rfl, broadcastCommitReq_eq]
      rfl

end Core

namespace Node

variable {C : Crypto} {ctx : Ctx} {s : Node} {event : Event}

structure SameViews (s t : Node) : Prop where
  part : t.viewPart = s.viewPart
  rest : (t.toView, t.minerList, t.cfgErr) = (s.toView, s.minerList, s.cfgErr)

theorem SameViews.trans {s t u : Node} (first : SameViews s t) (second : SameViews t u) :
    SameViews s u :=
  ⟨second.part.trans first.part, second.rest.trans first.rest⟩

theorem SameViews.toView {s t : Node} (same : SameViews s t) : t.toView = s.toView :=
  congrArg Prod.fst same.rest

theorem checkAndCommit_sameViews : SameViews s (s.checkAndCommit C ctx) := by
  unfold checkAndCommit
  split_ifs
  · exact ⟨rfl, rfl⟩
  · exact ⟨Core.checkAndSave_viewPart.trans (Core.lockAndVote_viewPart s.isMiner), rfl⟩
  · exact ⟨rfl, rfl⟩

theorem acceptPrepare_sameViews (req : PrepareReq) (hash : H256) (block : Bytes) :
    SameViews s (s.acceptPrepare C ctx req hash block) := by
  refine SameViews.trans ?_ checkAndCommit_sameViews
  split_ifs
  · exact ⟨Core.broadcastSignReq_viewPart _, rfl⟩
  · exact ⟨rfl, rfl⟩

theorem processPrepare_sameViews (req : PrepareReq) : SameViews s (s.processPrepare C ctx req) := by
  unfold processPrepare
  split_ifs
  · exact ⟨rfl, rfl⟩
  · exact ⟨rfl, rfl⟩
  · exact ⟨rfl, rfl⟩
  · split
    · exact ⟨rfl, rfl⟩
    · dsimp only
      split_ifs
      · exact ⟨rfl, rfl⟩
      · exact ⟨rfl, rfl⟩
      · split
        · exact ⟨rfl, rfl⟩
        · have timed : SameViews s { s with lastExecFinishTime := ctx.now } := ⟨rfl, rfl⟩
          exact timed.trans (acceptPrepare_sameViews _ _ _)

theorem handlePrepareMsg_sameViews (sender : Nat) (req : PrepareReq) (self : Bool) :
    SameViews s (s.handlePrepareMsg C ctx sender req self) := by
  simp only [handlePrepareMsg, recvFutureBlock]
  split_ifs
  · exact ⟨rfl, rfl⟩
  · exact ⟨rfl, rfl⟩
  · exact ⟨rfl, rfl⟩
  · exact ⟨rfl, rfl⟩
  · exact ⟨rfl, rfl⟩
  · have raw : SameViews s (s.onCore fun c => c.addRawPrepare req) := ⟨rfl, rfl⟩
    exact raw.trans (processPrepare_sameViews req)

theorem handleSignMsg_sameViews (req : SignReq) : SameViews s (s.handleSignMsg C ctx req) := by
  unfold handleSignMsg
  split_ifs
  · exact ⟨rfl, rfl⟩
  · exact ⟨rfl, rfl⟩
  · exact ⟨rfl, rfl⟩
  · exact ⟨rfl, rfl⟩
  · exact ⟨rfl, rfl⟩
  · exact ⟨rfl, rfl⟩
  · have stored : SameViews s (s.onCore fun c => c.addSignReq req) := ⟨rfl, rfl⟩
    exact stored.trans checkAndCommit_sameViews

theorem handleCommitMsg_sameViews (req : CommitReq) :
    SameViews s (s.handleCommitMsg C ctx req) := by
  unfold handleCommitMsg
  split_ifs
  · exact ⟨rfl, rfl⟩
  · exact ⟨rfl, rfl⟩
  · exact ⟨rfl, rfl⟩
  · exact ⟨rfl, rfl⟩
  · exact ⟨rfl, rfl⟩
  · exact ⟨rfl, rfl⟩
  · exact ⟨Core.checkAndSave_viewPart, rfl⟩

theorem generateCommit_sameViews (number : Nat) (hash : H256) (block : Bytes) (view : Nat) :
    SameViews s (s.generateCommit C ctx number hash block view) := by
  unfold generateCommit
  split_ifs
  · exact ⟨rfl, rfl⟩
  · refine SameViews.trans ?_ checkAndCommit_sameViews
    exact ⟨Core.broadcastSignReq_viewPart _, rfl⟩
  · exact ⟨Core.broadcastSignReq_viewPart _, rfl⟩

theorem shouldSeal_sameViews : SameViews s (s.shouldSeal C ctx).1 := by
  unfold shouldSeal
  cases s.getLeader with
  | none => split_ifs <;> exact ⟨rfl, rfl⟩
  | some leader =>
      dsimp only
      split_ifs
      · exact ⟨rfl, rfl⟩
      · exact ⟨rfl, rfl⟩
      · exact ⟨rfl, rfl⟩
      · refine SameViews.trans ?_ (handlePrepareMsg_sameViews _ _ _)
        split_ifs <;> exact ⟨rfl, rfl⟩
      · exact ⟨rfl, rfl⟩
      · exact ⟨rfl, rfl⟩

def MovesViews : Event → Bool
  | .handleMsg _ (.viewChange _) => true
  | .checkTimeout => true
  | .reportBlock _ => true
  | .startGeneration => true
  | _ => false

theorem step_sameViews (other : MovesViews event = false) : SameViews s (s.step C ctx event) := by
  cases event with
  | handleMsg sender packet =>
      cases packet with
      | prepare req => exact handlePrepareMsg_sameViews sender req false
      | sign req => exact handleSignMsg_sameViews req
      | commit req => exact handleCommitMsg_sameViews req
      | viewChange req => cases other
  | checkTimeout => cases other
  | handleFutureBlock =>
      simp only [step, handleFutureBlock]
      split_ifs
      · have handled : SameViews s (s.handlePrepareMsg C ctx s.futurePrepareCache.1
            s.futurePrepareCache.2 false) := handlePrepareMsg_sameViews _ _ _
        exact ⟨handled.part, handled.rest⟩
      · exact ⟨rfl, rfl⟩
  | collectGarbage =>
      simp only [step, collectGarbage]
      split_ifs <;> exact ⟨rfl, rfl⟩
  | reportBlock b => cases other
  | shouldSeal => exact shouldSeal_sameViews
  | generateSeal number hash block =>
      refine ⟨?_, rfl⟩
      simp only [step, generateSeal, onCore, Core.broadcastPrepareReq_eq]
      rfl
  | generateCommit proposal number hash block view =>
      exact generateCommit_sameViews number hash block view
  | changeViewForEmptyBlockWithLock => exact ⟨rfl, rfl⟩
  | setOmitEmptyBlock => exact ⟨rfl, rfl⟩
  | startGeneration => cases other

/-! The three calls that do. -/

theorem recent_log {log effects old : List Effect} (grown : log = effects ++ old) :
    log.take (log.length - old.length) = effects := by
  subst grown
  simp

/-- All checks of `handleViewChangeMsg` before the request is stored. -/
structure Receives (C : Crypto) (ctx : Ctx) (s : Node) (req : ViewChangeReq) : Prop where
  fresh : s.isExistViewChange req = false
  foreign : req.idx ≠ s.nodeIdx
  height : s.highestBlock.number ≤ req.height
  view : s.view < req.view
  known : ¬ (req.height = s.highestBlock.number ∧ req.blockHash ≠ s.highestBlock.hash ∧
    ctx.hasBlock req.blockHash = false)
  signed : checkSign C ctx req = true

def Answers (s : Node) (req : ViewChangeReq) : Prop :=
  s.isExistViewChange req = false ∧ req.idx ≠ s.nodeIdx ∧ u256Add req.view 1 < s.toView

instance (s : Node) (req : ViewChangeReq) : Decidable (s.Answers req) :=
  inferInstanceAs (Decidable (_ ∧ _ ∧ _))

/-- With this request there are enough for the view wanted. -/
def Completes (s : Node) (req : ViewChangeReq) : Prop :=
  req.view = s.toView ∧ u256Sub s.quorum 1 ≤
    (s.recvViewChangeReq.insert req).size (fun m => decide (m.view = s.toView))

instance (s : Node) (req : ViewChangeReq) : Decidable (s.Completes req) :=
  inferInstanceAs (Decidable (_ ∧ _))

/-- The block is at or above the height under consensus: the views start over. -/
def Resets (s : Node) : Event → Prop
  | .reportBlock b => s.consensusBlockNumber ≤ b.number
  | _ => False

instance (s : Node) : (event : Event) → Decidable (s.Resets event)
  | .reportBlock _ => inferInstanceAs (Decidable (_ ≤ _))
  | .handleMsg _ _ => inferInstanceAs (Decidable False)
  | .checkTimeout => inferInstanceAs (Decidable False)
  | .handleFutureBlock => inferInstanceAs (Decidable False)
  | .collectGarbage => inferInstanceAs (Decidable False)
  | .shouldSeal => inferInstanceAs (Decidable False)
  | .generateSeal _ _ _ => inferInstanceAs (Decidable False)
  | .generateCommit _ _ _ _ _ => inferInstanceAs (Decidable False)
  | .changeViewForEmptyBlockWithLock => inferInstanceAs (Decidable False)
  | .setOmitEmptyBlock _ => inferInstanceAs (Decidable False)
  | .startGeneration => inferInstanceAs (Decidable False)

def timedOut (ctx : Ctx) (s : Node) : Prop :=
  s.timeoutInterval ≤ (ctx.now + 2 ^ 64 - max s.lastConsensusTime s.lastSignTime) % 2 ^ 64

instance (ctx : Ctx) (s : Node) : Decidable (s.timedOut ctx) := inferInstanceAs (Decidable (_ ≤ _))

def KeepsRequests (s t : Node) : Prop :=
  ∀ m ∈ t.recvViewChangeReq.entries, m ∈ s.recvViewChangeReq.entries

inductive ViewStep (C : Crypto) (ctx : Ctx) (s : Node) (event : Event) (t : Node) : Prop
  | keep (view : t.view = s.view) (toView : t.toView = s.toView) (requests : s.KeepsRequests t)
  | reset (resets : s.Resets event) (view : t.view = 0) (toView : t.toView = 0)
      (requests : s.KeepsRequests t)
  | store (sender : Nat) (req : ViewChangeReq) (call : event = .handleMsg sender (.viewChange req))
      (received : s.Receives C ctx req) (view : t.view = s.view) (toView : t.toView = s.toView)
      (requests : t.recvViewChangeReq = s.recvViewChangeReq.insert req)
  | reach (sender : Nat) (req : ViewChangeReq) (call : event = .handleMsg sender (.viewChange req))
      (received : s.Receives C ctx req) (complete : s.Completes req) (view : t.view = s.toView)
      (toView : t.toView = s.toView)
      (requests : t.recvViewChangeReq =
        (s.recvViewChangeReq.insert req).keep fun m => decide (s.toView < m.view))
  | fast (sender : Nat) (req : ViewChangeReq) (call : event = .handleMsg sender (.viewChange req))
      (received : s.Receives C ctx req) (acc : FastView)
      (walk : acc = (ctx.order ((s.recvViewChangeReq.insert req).entries.filter
        (fun m => decide (s.toView < m.view)))).foldl (fastViewStep s.highestBlock.number) {})
      (many : s.f < acc.idxView.length) (view : t.view = s.view)
      (toView : t.toView = u256Sub acc.minView 1)
      (requests : t.recvViewChangeReq = s.recvViewChangeReq.insert req)
  | timeout (call : event = .checkTimeout) (due : s.timedOut ctx) (view : t.view = s.view)
      (toView : t.toView = u256Add s.toView 1) (requests : s.KeepsRequests t)
  | timeoutReach (call : event = .checkTimeout) (due : s.timedOut ctx)
      (sent : s.isMiner = false ∨ ctx.host = true) (view : t.view = u256Add s.toView 1)
      (toView : t.toView = u256Add s.toView 1)
      (complete : u256Sub s.quorum 1 ≤
        (s.toCore.delViewChangeOf (u256Add s.toView 1)).recvViewChangeReq.size
        (fun m => decide (m.view = u256Add s.toView 1)))
      (requests : s.KeepsRequests t) (later : ∀ m ∈ t.recvViewChangeReq.entries, t.view < m.view)

/-- `broadcastViewChangeReq` only adds to the log: the request for the view wanted, sent by a miner
whose network is up. -/
theorem broadcastViewChangeReq_withLog (C : Crypto) (ctx : Ctx) (s : Node) : ∃ effects,
    s.broadcastViewChangeReq C ctx = s.withLog (effects ++ s.log) ∧
      (s.isMiner = true → ctx.host = true → ∃ req, Effect.sent (.viewChange req) ∈ effects ∧
        req.view = s.toView) := by
  unfold broadcastViewChangeReq
  cases miner : s.isMiner with
  | false => exact ⟨[], rfl, by simp⟩
  | true =>
      let req := s.signMsg C ctx s.highestBlock.number s.toView s.nodeIdx s.highestBlock.hash
      cases host : ctx.host with
      | false => exact ⟨[.signed (.viewChange req)], rfl, by simp⟩
      | true =>
          refine ⟨[.sent (.viewChange req), .signed (.viewChange req)], rfl, ?_⟩
          intro _ _
          exact ⟨req, by simp, rfl⟩

theorem checkAndChangeView_cases (s : Node) :
    s.checkAndChangeView = s ∧ ¬ u256Sub s.quorum 1 ≤
      s.recvViewChangeReq.size (fun m => decide (m.view = s.toView)) ∨
    s.checkAndChangeView =
      { s.onCore (fun c => c.changeView s.toView) with leaderFailed := false } ∧
      u256Sub s.quorum 1 ≤ s.recvViewChangeReq.size (fun m => decide (m.view = s.toView)) := by
  unfold checkAndChangeView
  by_cases reached : u256Sub s.quorum 1 ≤
    s.recvViewChangeReq.size (fun m => decide (m.view = s.toView))
  · exact Or.inr ⟨if_pos reached, reached⟩
  · exact Or.inl ⟨if_neg reached, reached⟩

theorem KeepsRequests.refl (s : Node) : s.KeepsRequests s := fun _ member => member

theorem handleViewChangeMsg_cases (C : Crypto) (ctx : Ctx) (s : Node) (req : ViewChangeReq) :
    ∃ effects,
    (s.Answers req → s.isMiner = true → ctx.host = true →
      ∃ own, Effect.sent (.viewChange own) ∈ effects ∧
      own.view = s.toView) ∧
    (s.handleViewChangeMsg C ctx req = s.withLog (effects ++ s.log) ∨
      s.Receives C ctx req ∧ s.handleViewChangeMsg C ctx req =
        if req.view = s.toView then
          ((s.withLog (effects ++ s.log)).onCore fun c => c.addViewChangeReq req).checkAndChangeView
        else ((s.withLog (effects ++ s.log)).onCore fun c => c.addViewChangeReq req).fastViewChange
          ctx) := by
  unfold handleViewChangeMsg
  cases fresh : s.isExistViewChange req with
  | true => exact ⟨[], fun answers => absurd answers.1 (by simp [fresh]), Or.inl rfl⟩
  | false =>
      rw [if_neg (by simp)]
      by_cases foreign : req.idx = s.nodeIdx
      · rw [if_pos foreign]
        exact ⟨[], fun answers => absurd foreign answers.2.1, Or.inl rfl⟩
      rw [if_neg foreign]
      have answered : ∃ effects,
        (if u256Add req.view 1 < s.toView then s.broadcastViewChangeReq C ctx
            else s) = s.withLog (effects ++ s.log) ∧
          (s.Answers req → s.isMiner = true → ctx.host = true → ∃ own,
            Effect.sent (.viewChange own) ∈ effects ∧ own.view = s.toView) := by
        by_cases lagging : u256Add req.view 1 < s.toView
        · rw [if_pos lagging]
          rcases broadcastViewChangeReq_withLog C ctx s with ⟨effects, result, sent⟩
          exact ⟨effects, result, fun _ => sent⟩
        · rw [if_neg lagging]
          exact ⟨[], rfl, fun answers => absurd answers.2.2 lagging⟩
      rcases answered with ⟨effects, result, own⟩
      refine ⟨effects, own, ?_⟩
      dsimp only
      rw [result]
      by_cases old : req.height < s.highestBlock.number ∨ req.view ≤ s.view
      · exact Or.inl (if_pos old)
      by_cases forked : req.height = s.highestBlock.number ∧ req.blockHash ≠ s.highestBlock.hash ∧
          ctx.hasBlock req.blockHash = false
      · exact Or.inl ((if_neg old).trans (if_pos forked))
      cases signed : checkSign C ctx req with
      | false => exact Or.inl ((if_neg old).trans ((if_neg forked).trans rfl))
      | true =>
          refine Or.inr ⟨⟨fresh, foreign, ?_, ?_, forked, signed⟩, ?_⟩
          · exact Nat.not_lt.mp fun low => old (Or.inl low)
          · exact Nat.not_le.mp fun low => old (Or.inr low)
          · exact (if_neg old).trans ((if_neg forked).trans rfl)

theorem handleViewChangeMsg_views (sender : Nat) (req : ViewChangeReq)
    (call : event = .handleMsg sender (.viewChange req)) :
    ViewStep C ctx s event (s.handleViewChangeMsg C ctx req) := by
  rcases handleViewChangeMsg_cases C ctx s req with ⟨effects, -, same | ⟨received, result⟩⟩
  · rw [same]
    exact .keep rfl rfl (KeepsRequests.refl s)
  · rw [result]
    by_cases current : req.view = s.toView
    · rw [if_pos current]
      rcases checkAndChangeView_cases
        ((s.withLog (effects ++ s.log)).onCore fun c => c.addViewChangeReq req) with
        ⟨same, -⟩ | ⟨changed, reached⟩
      · rw [same]
        exact .store sender req call received rfl rfl rfl
      · rw [changed]
        exact .reach sender req call received ⟨current, reached⟩ rfl rfl rfl
    · rw [if_neg current]
      unfold fastViewChange
      dsimp only
      split_ifs with fast
      · exact .fast sender req call received _ rfl fast.1 rfl rfl rfl
      · exact .store sender req call received rfl rfl rfl

theorem checkTimeout_eq (s : Node) : s.checkTimeout C ctx = if s.timedOut ctx then
    let asked := (s.startViewChange ctx).broadcastViewChangeReq C ctx
    if s.viewChangeSent ctx then asked.checkAndChangeView.onCore fun c => c.emit .onViewChange
      else asked
  else s := rfl

theorem checkTimeout_views : ViewStep C ctx s .checkTimeout (s.checkTimeout C ctx) := by
  rw [checkTimeout_eq]
  dsimp only
  by_cases due : s.timedOut ctx
  · have dropped : s.KeepsRequests (s.startViewChange ctx) := by
      intro m member
      exact (List.mem_filter.mp member).1
    rcases broadcastViewChangeReq_withLog C ctx (s.startViewChange ctx) with ⟨effects, asked, -⟩
    rw [if_pos due, asked]
    cases sent : s.viewChangeSent ctx with
    | false =>
        exact .timeout rfl due rfl rfl dropped
    | true =>
        have up : s.isMiner = false ∨ ctx.host = true := by
          simpa [viewChangeSent] using sent
        rcases checkAndChangeView_cases
          ((s.startViewChange ctx).withLog (effects ++ (s.startViewChange ctx).log))
          with ⟨same, -⟩ | ⟨changed, reached⟩
        · rw [same]
          exact .timeout rfl due rfl rfl dropped
        · rw [changed]
          refine .timeoutReach rfl due up rfl rfl reached ?_ ?_
          · intro m member
            exact dropped m (List.mem_filter.mp member).1
          · intro m member
            exact of_decide_eq_true (List.mem_filter.mp member).2
  · rw [if_neg due]
    exact .keep rfl rfl (KeepsRequests.refl s)

theorem resetConfig_views (ctx : Ctx) (s : Node) : (s.resetConfig ctx).view = s.view ∧
    (s.resetConfig ctx).toView = s.toView ∧ s.KeepsRequests (s.resetConfig ctx) := by
  have toView : (s.resetConfig ctx).toView = s.toView := by
    simp only [resetConfig]
    split
    · rfl
    · split_ifs
      · rfl
      · split
        · rfl
        · split_ifs <;> rfl
  rcases @resetConfig_cases ctx s with ⟨same, -⟩ | ⟨nodeIdx, -, -, -, result⟩
  · refine ⟨by rw [same], toView, ?_⟩
    intro m member
    rw [same] at member
    exact member
  · refine ⟨by rw [result]; rfl, toView, ?_⟩
    intro m member
    rw [result] at member
    cases member

theorem reportBlock_views (b : BlockInfo) :
    ViewStep C ctx s (.reportBlock b) (s.reportBlock ctx b) := by
  unfold reportBlock
  dsimp only
  let reported := s.onCore fun c => { c with highestBlock := b }
  by_cases newer : reported.consensusBlockNumber ≤ b.number
  · rw [if_pos newer]
    rcases resetConfig_views ctx (reported.advance ctx b) with ⟨view, toView, requests⟩
    refine .reset newer view toView ?_
    intro m member
    exact (List.mem_filter.mp (requests m member)).1
  · rw [if_neg newer]
    rcases resetConfig_views ctx reported with ⟨view, toView, requests⟩
    exact .keep view toView requests

theorem step_views : ViewStep C ctx s event (s.step C ctx event) := by
  cases moves : MovesViews event with
  | false =>
      have same : SameViews s (s.step C ctx event) := step_sameViews moves
      refine .keep (congrArg ViewPart.view same.part) same.toView ?_
      intro m member
      have requests : (s.step C ctx event).recvViewChangeReq = s.recvViewChangeReq :=
        congrArg ViewPart.requests same.part
      rw [requests] at member
      exact member
  | true =>
      cases event with
      | handleMsg sender packet =>
          cases packet with
          | viewChange req => exact handleViewChangeMsg_views sender req rfl
          | _ => cases moves
      | checkTimeout => exact checkTimeout_views
      | reportBlock b => exact reportBlock_views b
      | startGeneration =>
          rcases resetConfig_views ctx { s with lastConsensusTime := ctx.now } with
            ⟨view, toView, requests⟩
          exact .keep view toView requests
      | _ => cases moves

end Node

end UtispaceChain
