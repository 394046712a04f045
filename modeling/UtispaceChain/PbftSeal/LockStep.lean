import UtispaceChain.PbftSeal.ViewChange

/-! What one call can do to the proposal, the prepared block and the lock, and for what it votes. -/

namespace UtispaceChain

open Lib

def votesIn (log : List Effect) : List PBFTMsg :=
  log.filterMap fun
    | .sent (.sign req) => some req
    | .sent (.commit req) => some req
    | _ => none

/-- The height and the block hash of the proposals locked in a part of the log. -/
def locksIn (log : List Effect) : List (Nat × H256) :=
  log.filterMap fun
    | .locked raw _ => some (raw.height, raw.blockHash)
    | _ => none

theorem votesIn_append (later earlier : List Effect) :
    votesIn (later ++ earlier) = votesIn later ++ votesIn earlier := List.filterMap_append

theorem locksIn_append (later earlier : List Effect) :
    locksIn (later ++ earlier) = locksIn later ++ locksIn earlier := List.filterMap_append

structure Quiet (effects : List Effect) : Prop where
  votes : votesIn effects = []
  locks : locksIn effects = []

theorem Quiet.nil : Quiet [] := ⟨rfl, rfl⟩

structure SameFrame (c d : Core) : Prop where
  view : d.view = c.view
  committed : d.committedPrepareCache = c.committedPrepareCache
  highest : d.highestBlock = c.highestBlock
  consensus : d.consensusBlockNumber = c.consensusBlockNumber

theorem SameFrame.refl (c : Core) : SameFrame c c := ⟨rfl, rfl, rfl, rfl⟩

/-- From a prepared state on: votes for the prepared block, and the lock on its proposal once the
signatures are complete in the current view. -/
structure VotesFrom (c d : Core) (effects : List Effect) : Prop where
  log : d.log = effects ++ c.log
  raw : d.rawPrepareCache = c.rawPrepareCache
  prepare : d.prepareCache = c.prepareCache
  view : d.view = c.view
  highest : d.highestBlock = c.highestBlock
  consensus : d.consensusBlockNumber = c.consensusBlockNumber
  heights : ∀ vote ∈ votesIn effects, vote.height = c.prepareCache.height
  lock : (d.committedPrepareCache = c.committedPrepareCache ∧ locksIn effects = []) ∨
    (d.committedPrepareCache = c.rawPrepareCache ∧
      locksIn effects = [(c.rawPrepareCache.height, c.rawPrepareCache.blockHash)] ∧
      c.prepareCache.view = c.view)

theorem VotesFrom.refl (c : Core) : VotesFrom c c [] :=
  ⟨rfl, rfl, rfl, rfl, rfl, rfl, by simp [votesIn], Or.inl ⟨rfl, rfl⟩⟩

theorem VotesFrom.after {a b c : Core} {first second : List Effect} (sign : VotesFrom a b first)
    (unlocked : locksIn first = []) (rest : VotesFrom b c second) :
    VotesFrom a c (second ++ first) := by
  have committed : b.committedPrepareCache = a.committedPrepareCache := by
    rcases sign.lock with ⟨same, -⟩ | ⟨-, locks, -⟩
    · exact same
    · rw [unlocked] at locks
      cases locks
  refine ⟨?_, rest.raw.trans sign.raw, rest.prepare.trans sign.prepare, rest.view.trans sign.view,
    rest.highest.trans sign.highest, rest.consensus.trans sign.consensus, ?_, ?_⟩
  · rw [rest.log, sign.log, List.append_assoc]
  · intro vote member
    rw [votesIn_append] at member
    rcases List.mem_append.mp member with late | early
    · rw [rest.heights vote late, sign.prepare]
    · exact sign.heights vote early
  · rw [locksIn_append, unlocked, List.append_nil]
    rcases rest.lock with ⟨same, locks⟩ | ⟨locked, locks, current⟩
    · exact Or.inl ⟨same.trans committed, locks⟩
    · rw [sign.raw] at locked locks
      rw [sign.prepare, sign.view] at current
      exact Or.inr ⟨locked, locks, current⟩

namespace Core

variable (C : Crypto) (ctx : Ctx) (c : Core)

theorem broadcastSignReq_votes :
    ∃ effects, VotesFrom c (c.broadcastSignReq C ctx c.prepareCache) effects ∧
    locksIn effects = [] := by
  rw [broadcastSignReq_eq]
  cases ctx.host with
  | false => exact ⟨[.signed (.sign (c.ownVote C ctx c.prepareCache))],
      ⟨rfl, rfl, rfl, rfl, rfl, rfl, by simp [votesIn], Or.inl ⟨rfl, rfl⟩⟩, rfl⟩
  | true =>
      refine ⟨[.sent (.sign (c.ownVote C ctx c.prepareCache)),
        .signed (.sign (c.ownVote C ctx c.prepareCache))],
        ⟨rfl, rfl, rfl, rfl, rfl, rfl, ?_, Or.inl ⟨rfl, rfl⟩⟩, rfl⟩
      intro vote member
      have same : vote ∈ [c.ownVote C ctx c.prepareCache] := member
      rw [List.mem_singleton.mp same]
      rfl

theorem checkAndSave_log : ∃ effects, c.checkAndSave.log = effects ++ c.log ∧ Quiet effects ∧
    c.checkAndSave = { c with log := effects ++ c.log } := by
  rcases c.checkAndSave_cases with same | ⟨-, -, -, -, block, sealed⟩
  · exact ⟨[], by rw [same]; rfl, .nil, by rw [same]; rfl⟩
  · exact ⟨[_], by rw [sealed]; rfl, ⟨rfl, rfl⟩, by rw [sealed]; rfl⟩

theorem lockAndVote_log (miner : Bool) : ∃ effects,
    (c.lockAndVote C ctx miner).log = effects ++ .locked c.rawPrepareCache c.prepareCache :: c.log ∧
      (∀ vote ∈ votesIn effects, vote.height = c.prepareCache.height) ∧ locksIn effects = [] := by
  cases miner with
  | false => exact ⟨[], rfl, by simp [votesIn], rfl⟩
  | true =>
      rw [lockAndVote, if_pos rfl, broadcastCommitReq_eq]
      cases ctx.host with
      | false => exact ⟨[.signed (.commit _)], rfl, by simp [votesIn], rfl⟩
      | true =>
          refine ⟨[.sent (.commit (c.locked.ownVote C ctx c.prepareCache)), .signed (.commit _)],
            rfl, ?_, rfl⟩
          intro vote member
          have same : vote ∈ [c.locked.ownVote C ctx c.prepareCache] := member
          rw [List.mem_singleton.mp same]
          rfl

theorem lockAndVote_fields (miner : Bool) : let d := c.lockAndVote C ctx miner
    d.rawPrepareCache = c.rawPrepareCache ∧ d.prepareCache = c.prepareCache ∧ d.view = c.view ∧
      d.highestBlock = c.highestBlock ∧ d.consensusBlockNumber = c.consensusBlockNumber ∧
      d.committedPrepareCache = c.rawPrepareCache := by
  cases miner with
  | false => exact ⟨rfl, rfl, rfl, rfl, rfl, rfl⟩
  | true =>
      simp only [lockAndVote, if_true, broadcastCommitReq_eq]
      exact ⟨rfl, rfl, rfl, rfl, rfl, rfl⟩

end Core

namespace Node

open Core

variable {C : Crypto} {ctx : Ctx} {s : Node} {event : Event}

theorem checkAndCommit_votes (C : Crypto) (ctx : Ctx) (s : Node) : ∃ effects,
    VotesFrom s.toCore (s.checkAndCommit C ctx).toCore effects ∧
      (s.prepareCache.view = s.view ∨ Quiet effects) := by
  unfold checkAndCommit
  split_ifs with reached other
  · exact ⟨[], .refl _, Or.inr .nil⟩
  · rcases lockAndVote_log C ctx s.toCore s.isMiner with ⟨votes, grown, heights, unlocked⟩
    rcases lockAndVote_fields C ctx s.toCore s.isMiner with
      ⟨raw, prepare, view, highest, consensus, committed⟩
    rcases checkAndSave_log (s.toCore.lockAndVote C ctx s.isMiner) with ⟨saved, -, quiet, result⟩
    refine ⟨saved ++ (votes ++ [.locked s.rawPrepareCache s.prepareCache]), ?_,
      Or.inl (not_not.mp other)⟩
    dsimp only
    rw [result]
    refine ⟨?_, raw, prepare, view, highest, consensus, ?_,
      Or.inr ⟨committed, ?_, not_not.mp other⟩⟩
    · change saved ++ (s.toCore.lockAndVote C ctx s.isMiner).log = _
      rw [grown]
      simp
    · intro vote member
      rw [votesIn_append, votesIn_append, quiet.votes] at member
      have inside : vote ∈ votesIn votes := by simpa [votesIn] using member
      exact heights vote inside
    · rw [locksIn_append, locksIn_append, quiet.locks, unlocked]
      rfl
  · exact ⟨[], .refl _, Or.inr .nil⟩

instance (s : Node) (req : PrepareReq) (ours : Bool) : Decidable (s.Enters req ours) :=
  decidable_of_iff (s.isExistPrepare req = false ∧ ¬ (ours = false ∧ req.idx = s.nodeIdx) ∧
    req.height = s.consensusBlockNumber ∧ req.view = s.view)
    ⟨fun all => ⟨all.1, all.2.1, all.2.2.1, all.2.2.2⟩,
      fun enters => ⟨enters.1, enters.2, enters.3, enters.4⟩⟩

/-- The block hash of the proposal that the prepared block stems from, given the one before the
call. -/
def originAfter (C : Crypto) (ctx : Ctx) (s : Node) (event : Event) (origin : H256) : H256 :=
  match s.offered C ctx event with
  | some (req, ours) => if s.Enters req ours ∧ (s.validated C ctx req).isSome then
      req.blockHash else origin
  | none =>
      match event with
      | .generateCommit proposal _ _ _ view => if view = s.view then proposal else origin
      | _ => origin

def Unprepared (C : Crypto) (ctx : Ctx) (s : Node) (event : Event) : Prop :=
  ∀ origin, s.originAfter C ctx event origin = origin

theorem Unprepared.of_offer {req : PrepareReq} {ours : Bool}
    (offer : s.offered C ctx event = some (req, ours))
    (fails : ¬ (s.Enters req ours ∧ (s.validated C ctx req).isSome)) :
    s.Unprepared C ctx event := by
  intro origin
  simp only [originAfter, offer]
  exact if_neg fails

theorem originAfter_accept {req : PrepareReq} {ours : Bool} {made : H256 × Bytes} (origin : H256)
    (offer : s.offered C ctx event = some (req, ours)) (enters : s.Enters req ours)
    (valid : s.validated C ctx req = some made) :
    s.originAfter C ctx event origin = req.blockHash := by
  simp only [originAfter, offer]
  exact if_pos ⟨enters, by rw [valid]; rfl⟩

/-- The raw cache is overwritten by a proposal that is refused, or by one of our own. -/
def ReplacesRaw (C : Crypto) (ctx : Ctx) (s : Node) (event : Event) : Prop :=
  (∃ req self, s.offered C ctx event = some (req, self) ∧ s.Enters req self ∧
    s.validated C ctx req = none) ∨
  ∃ number hash block, event = .generateSeal number hash block ∧ ctx.host = true

/-- The prepared state from which a call votes: after a proposal that passed all checks, after our
own executed block, or the one before the call. -/
inductive Prepares (C : Crypto) (ctx : Ctx) (s : Node) (event : Event) (c : Core) : Prop
  | accept (req : PrepareReq) (self : Bool) (hash : H256) (block : Bytes)
      (offer : s.offered C ctx event = some (req, self)) (enters : s.Enters req self)
      (valid : s.validated C ctx req = some (hash, block)) (raw : c.rawPrepareCache = req)
      (height : c.prepareCache.height = req.height) (view : c.prepareCache.view = req.view)
  | own (proposal : H256) (number : Nat) (hash : H256) (block : Bytes)
      (call : event = .generateCommit proposal number hash block s.view)
      (raw : c.rawPrepareCache = s.rawPrepareCache) (height : c.prepareCache.height = number)
      (view : c.prepareCache.view = s.view)
  | kept (other : s.offered C ctx event = none) (seals : event.seals = false)
      (raw : c.rawPrepareCache = s.rawPrepareCache) (prepare : c.prepareCache = s.prepareCache)

inductive LockStep (C : Crypto) (ctx : Ctx) (s : Node) (event : Event) (t : Core) : Prop
  | quiet (effects : List Effect) (log : t.log = effects ++ s.log) (silent : Quiet effects)
      (frame : SameFrame s.toCore t) (prepare : t.prepareCache = s.prepareCache)
      (raw : t.rawPrepareCache = s.rawPrepareCache ∨ s.ReplacesRaw C ctx event)
      (unprepared : s.Unprepared C ctx event)
  | cleared (effects : List Effect) (log : t.log = effects ++ s.log) (silent : Quiet effects)
      (committed : t.committedPrepareCache = s.committedPrepareCache) (highest : t.highestBlock =
        s.highestBlock)
      (consensus : t.consensusBlockNumber = s.consensusBlockNumber)
        (prepare : t.prepareCache.view = Invalid256)
  | report (b : BlockInfo) (call : event = .reportBlock b) (log : t.log = s.log)
      (committed : t.committedPrepareCache = s.committedPrepareCache) (highest : t.highestBlock = b)
      (heights : (s.consensusBlockNumber ≤ b.number ∧ t.consensusBlockNumber = u256Add b.number 1 ∧
        t.view = 0) ∨
        (b.number < s.consensusBlockNumber ∧ t.consensusBlockNumber = s.consensusBlockNumber ∧
          t.view = s.view))
      (raw : t.rawPrepareCache = s.rawPrepareCache)
      (prepare : t.prepareCache = s.prepareCache ∨ t.prepareCache.view = Invalid256)
  | votes (before effects : List Effect) (c : Core) (log : c.log = before ++ s.log)
      (silent : Quiet before)
      (frame : SameFrame s.toCore c) (prepares : Prepares C ctx s event c)
        (votes : VotesFrom c t effects)
      (current : c.prepareCache.view = c.view ∨ Quiet effects)

theorem LockStep.same (t : Core) (log : t.log = s.log) (frame : SameFrame s.toCore t)
    (prepare : t.prepareCache = s.prepareCache) (raw : t.rawPrepareCache = s.rawPrepareCache)
    (unprepared : s.Unprepared C ctx event) : LockStep C ctx s event t :=
  .quiet [] log .nil frame prepare (Or.inl raw) unprepared

theorem acceptPrepare_lock (u : Node) (before : List Effect) (req : PrepareReq) (self : Bool)
    (hash : H256) (block : Bytes) (log : u.log = before ++ s.log) (silent : Quiet before)
    (frame : SameFrame s.toCore u.toCore) (offer : s.offered C ctx event = some (req, self))
    (enters : s.Enters req self) (valid : s.validated C ctx req = some (hash, block))
    (raw : u.rawPrepareCache = req) :
    LockStep C ctx s event (u.acceptPrepare C ctx req hash block).toCore := by
  let prepared := u.onCore (signAndPrepare C ctx req.height req.view req.idx hash block)
  have built : Prepares C ctx s event prepared.toCore :=
    .accept req self hash block offer enters valid raw rfl rfl
  have grown : prepared.log = (.signed (.prepare prepared.prepareCache) :: before) ++ s.log :=
    congrArg (List.cons _) log
  have quiet : Quiet (.signed (.prepare prepared.prepareCache) :: before) :=
    ⟨silent.votes, silent.locks⟩
  have kept : SameFrame s.toCore prepared.toCore :=
    ⟨frame.view, frame.committed, frame.highest, frame.consensus⟩
  have current : prepared.prepareCache.view = prepared.view := enters.view.trans frame.view.symm
  unfold acceptPrepare
  cases miner : u.isMiner with
  | false =>
      rcases checkAndCommit_votes C ctx prepared with ⟨effects, votes, -⟩
      exact .votes _ effects _ grown quiet kept built votes (Or.inl current)
  | true =>
      rcases broadcastSignReq_votes C ctx prepared.toCore with ⟨first, sign, unlocked⟩
      rcases checkAndCommit_votes C ctx
        (prepared.onCore fun c => c.broadcastSignReq C ctx c.prepareCache) with
        ⟨second, votes, -⟩
      exact .votes _ (second ++ first) _ grown quiet kept built (sign.after unlocked votes)
        (Or.inl current)

theorem handlePrepareMsg_lock (before : List Effect) (silent : Quiet before) (sender : Nat)
    (req : PrepareReq) (self : Bool) (offer : s.offered C ctx event = some (req, self)) :
    LockStep C ctx s event
      ((s.withLog (before ++ s.log)).handlePrepareMsg C ctx sender req self).toCore := by
  have stays : ¬ s.Enters req self → LockStep C ctx s event (s.withLog (before ++ s.log)).toCore :=
    fun outside => .quiet before rfl silent ⟨rfl, rfl, rfl, rfl⟩ rfl (Or.inl rfl)
      (.of_offer offer fun both => outside both.1)
  unfold handlePrepareMsg
  cases fresh : (s.withLog (before ++ s.log)).isExistPrepare req with
  | true =>
      apply stays
      intro enters
      have known : s.isExistPrepare req = true := fresh
      rw [enters.fresh] at known
      cases known
  | false =>
      rw [if_neg (by simp)]
      by_cases foreign : self = false ∧ req.idx = (s.withLog (before ++ s.log)).nodeIdx
      · rw [if_pos foreign]
        exact stays fun enters => enters.foreign foreign
      by_cases past : req.height < (s.withLog (before ++ s.log)).consensusBlockNumber ∨
          req.view < (s.withLog (before ++ s.log)).view
      · rw [if_neg foreign, if_pos past]
        apply stays
        intro enters
        have low : req.height < s.consensusBlockNumber ∨ req.view < s.view := past
        rw [enters.height, enters.view] at low
        omega
      by_cases later : (s.withLog (before ++ s.log)).consensusBlockNumber < req.height ∨
          (s.withLog (before ++ s.log)).view < req.view
      · rw [if_neg foreign, if_neg past, if_pos later]
        have outside : ¬ s.Enters req self := by
          intro enters
          have high : s.consensusBlockNumber < req.height ∨ s.view < req.view := later
          rw [enters.height, enters.view] at high
          omega
        unfold recvFutureBlock
        split <;> exact stays outside
      rw [if_neg foreign, if_neg past, if_neg later]
      have enters : s.Enters req self := by
        refine ⟨fresh, foreign, ?_, ?_⟩
        · have low : ¬ req.height < s.consensusBlockNumber := fun h => past (Or.inl h)
          have high : ¬ s.consensusBlockNumber < req.height := fun h => later (Or.inl h)
          omega
        · have low : ¬ req.view < s.view := fun h => past (Or.inr h)
          have high : ¬ s.view < req.view := fun h => later (Or.inr h)
          omega
      rcases processPrepare_spec (C := C)
        ((s.withLog (before ++ s.log)).onCore fun c => c.addRawPrepare req) req with
        ⟨refused, same⟩ | ⟨hash, block, valid, result⟩
      · rw [same]
        have none : s.validated C ctx req = none := refused
        exact .quiet before rfl silent ⟨rfl, rfl, rfl, rfl⟩ rfl
          (Or.inr (Or.inl ⟨req, self, offer, enters, none⟩))
          (.of_offer offer fun both => by simp [none] at both)
      · rw [result]
        exact acceptPrepare_lock
          { (s.withLog (before ++ s.log)).onCore (fun c => c.addRawPrepare req) with
          lastExecFinishTime := ctx.now } before req self hash block rfl silent ⟨rfl, rfl, rfl, rfl⟩
            offer enters
          valid rfl

theorem handleSignMsg_lock (sender : Nat) (req : SignReq)
    (call : event = .handleMsg sender (.sign req)) :
    LockStep C ctx s event (s.handleSignMsg C ctx req).toCore := by
  have unprepared : s.Unprepared C ctx event := by
    rw [call]
    exact fun _ => rfl
  have stays : LockStep C ctx s event s.toCore := .same _ rfl (.refl _) rfl rfl unprepared
  have stored : LockStep C ctx s event (s.toCore.addSignReq req) :=
    .same _ rfl ⟨rfl, rfl, rfl, rfl⟩ rfl rfl unprepared
  unfold handleSignMsg
  split_ifs
  · exact stays
  · exact stays
  · exact stored
  · exact stays
  · exact stays
  · exact stays
  · rcases checkAndCommit_votes C ctx (s.onCore fun c => c.addSignReq req) with
      ⟨effects, votes, current⟩
    exact .votes [] effects (s.toCore.addSignReq req) rfl .nil ⟨rfl, rfl, rfl, rfl⟩
      (.kept (by rw [call]; rfl) (by rw [call]; rfl) rfl rfl) votes current

theorem handleCommitMsg_lock (req : CommitReq) (unprepared : s.Unprepared C ctx event) :
    LockStep C ctx s event (s.handleCommitMsg C ctx req).toCore := by
  have stays : LockStep C ctx s event s.toCore := .same _ rfl (.refl _) rfl rfl unprepared
  have stored : LockStep C ctx s event (s.toCore.addCommitReq req) :=
    .same _ rfl ⟨rfl, rfl, rfl, rfl⟩ rfl rfl unprepared
  unfold handleCommitMsg
  split_ifs
  · exact stays
  · exact stays
  · exact stored
  · exact stays
  · exact stays
  · exact stays
  · rcases checkAndSave_log (s.toCore.addCommitReq req) with ⟨effects, -, quiet, result⟩
    change LockStep C ctx s event (s.toCore.addCommitReq req).checkAndSave
    rw [result]
    exact .quiet effects rfl quiet ⟨rfl, rfl, rfl, rfl⟩ rfl (Or.inl rfl) unprepared

theorem checkAndChangeView_lock (u : Node) (effects : List Effect) (log : u.log = effects ++ s.log)
    (quiet : Quiet effects) (frame : SameFrame s.toCore u.toCore)
    (prepare : u.prepareCache = s.prepareCache) (raw : u.rawPrepareCache = s.rawPrepareCache)
    (unprepared : s.Unprepared C ctx event) :
    LockStep C ctx s event u.checkAndChangeView.toCore := by
  rcases checkAndChangeView_cases u with ⟨same, -⟩ | ⟨changed, -⟩
  · rw [same]
    exact .quiet effects log quiet frame prepare (Or.inl raw) unprepared
  · rw [changed]
    exact .cleared effects log quiet frame.committed frame.highest frame.consensus rfl

theorem broadcastViewChangeReq_quiet (C : Crypto) (ctx : Ctx) (s : Node) : ∃ effects,
    s.broadcastViewChangeReq C ctx = s.withLog (effects ++ s.log) ∧ Quiet effects := by
  unfold broadcastViewChangeReq
  cases miner : s.isMiner with
  | false => exact ⟨[], rfl, .nil⟩
  | true =>
      let req := s.signMsg C ctx s.highestBlock.number s.toView s.nodeIdx s.highestBlock.hash
      cases host : ctx.host with
      | false => exact ⟨[.signed (.viewChange req)], rfl, rfl, rfl⟩
      | true => exact ⟨[.sent (.viewChange req), .signed (.viewChange req)], rfl, rfl, rfl⟩

theorem handleViewChangeMsg_lock (req : ViewChangeReq) (unprepared : s.Unprepared C ctx event) :
    LockStep C ctx s event (s.handleViewChangeMsg C ctx req).toCore := by
  have stays : ∀ effects, Quiet effects →
      LockStep C ctx s event (s.withLog (effects ++ s.log)).toCore :=
    fun effects quiet => .quiet effects rfl quiet ⟨rfl, rfl, rfl, rfl⟩ rfl (Or.inl rfl) unprepared
  have answered : ∃ effects, (if u256Add req.view 1 < s.toView then s.broadcastViewChangeReq C ctx
    else s) =
      s.withLog (effects ++ s.log) ∧ Quiet effects := by
    split_ifs
    · exact broadcastViewChangeReq_quiet C ctx s
    · exact ⟨[], rfl, .nil⟩
  rcases answered with ⟨effects, result, quiet⟩
  unfold handleViewChangeMsg
  dsimp only
  rw [result]
  split_ifs
  · exact stays [] .nil
  · exact stays [] .nil
  · exact stays effects quiet
  · exact stays effects quiet
  · exact stays effects quiet
  · exact checkAndChangeView_lock _ effects rfl quiet ⟨rfl, rfl, rfl, rfl⟩ rfl rfl unprepared
  · rw [fastViewChange_core]
    exact .quiet effects rfl quiet ⟨rfl, rfl, rfl, rfl⟩ rfl (Or.inl rfl) unprepared

theorem checkTimeout_lock (unprepared : s.Unprepared C ctx event) :
    LockStep C ctx s event (s.checkTimeout C ctx).toCore := by
  rw [checkTimeout_eq]
  dsimp only
  rcases broadcastViewChangeReq_quiet C ctx (s.startViewChange ctx) with ⟨effects, asked, quiet⟩
  rw [asked]
  split_ifs
  · let started := (s.startViewChange ctx).withLog (effects ++ (s.startViewChange ctx).log)
    rcases checkAndChangeView_cases started with ⟨same, -⟩ | ⟨changed, -⟩
    · rw [same]
      exact .quiet (.onViewChange :: effects) rfl ⟨quiet.votes, quiet.locks⟩ ⟨rfl, rfl, rfl, rfl⟩
        rfl (Or.inl rfl)
        unprepared
    · rw [changed]
      exact .cleared (.onViewChange :: effects) rfl ⟨quiet.votes, quiet.locks⟩ rfl rfl rfl rfl
  · exact .quiet effects rfl quiet ⟨rfl, rfl, rfl, rfl⟩ rfl (Or.inl rfl) unprepared
  · exact .same _ rfl (.refl _) rfl rfl unprepared

theorem generateCommit_lock (proposal : H256) (number : Nat) (hash : H256) (block : Bytes)
    (view : Nat) (call : event = .generateCommit proposal number hash block view) :
    LockStep C ctx s event (s.generateCommit C ctx number hash block view).toCore := by
  unfold generateCommit
  by_cases current : view = s.view
  swap
  · rw [if_pos current]
    refine .same _ rfl (.refl _) rfl rfl ?_
    rw [call]
    exact fun _ => if_neg current
  subst current
  rw [if_neg (by simp)]
  let prepared := s.onCore (signAndPrepare C ctx number s.view s.nodeIdx hash block)
  have built : Prepares C ctx s event prepared.toCore :=
    .own proposal number hash block call rfl rfl rfl
  have grown : prepared.log = [.signed (.prepare prepared.prepareCache)] ++ s.log := rfl
  rcases broadcastSignReq_votes C ctx prepared.toCore with ⟨first, sign, unlocked⟩
  dsimp only
  split_ifs
  · rcases checkAndCommit_votes C ctx
      (prepared.onCore fun c => c.broadcastSignReq C ctx c.prepareCache) with
      ⟨second, votes, -⟩
    exact .votes _ (second ++ first) _ grown ⟨rfl, rfl⟩ ⟨rfl, rfl, rfl, rfl⟩ built
      (sign.after unlocked votes)
      (Or.inl rfl)
  · exact .votes _ first _ grown ⟨rfl, rfl⟩ ⟨rfl, rfl, rfl, rfl⟩ built sign (Or.inl rfl)

theorem shouldSeal_lock (call : event = .shouldSeal) :
    LockStep C ctx s event (s.shouldSeal C ctx).1.toCore := by
  have unprepared : ¬ (s.cfgErr = false ∧ s.isMiner = true ∧ s.getLeader = some s.nodeIdx ∧
      s.consensusBlockNumber = s.committedPrepareCache.height ∧
      s.consensusBlockNumber ≠ s.rawPrepareCache.height) → s.Unprepared C ctx event := by
    intro idle origin
    rw [call]
    simp only [originAfter, offered, if_neg idle]
  have stays : s.Unprepared C ctx event → LockStep C ctx s event s.toCore :=
    .same _ rfl (.refl _) rfl rfl
  unfold shouldSeal
  by_cases off : s.cfgErr = true ∨ s.isMiner = false
  · rw [if_pos off]
    refine stays (unprepared fun on => ?_)
    rcases off with failed | observer
    · rw [on.1] at failed
      cases failed
    · rw [on.2.1] at observer
      cases observer
  rw [if_neg off]
  cases elected : s.getLeader with
  | none => exact stays (unprepared fun on => by rw [elected] at on; cases on.2.2.1)
  | some leader =>
      dsimp only
      by_cases ours : leader = s.nodeIdx
      swap
      · have quiet : s.Unprepared C ctx event := unprepared fun on =>
          ours (Option.some.inj (elected.symm.trans on.2.2.1))
        rw [if_pos ours]
        dsimp only
        split <;> exact .same _ rfl ⟨rfl, rfl, rfl, rfl⟩ rfl rfl quiet
      rw [if_neg (not_not.mpr ours)]
      by_cases unsaved : s.consensusBlockNumber = s.committedPrepareCache.height
      swap
      · rw [if_neg unsaved]
        exact stays (unprepared fun on => unsaved on.2.2.2.1)
      rw [if_pos unsaved]
      by_cases stale : s.consensusBlockNumber = s.rawPrepareCache.height
      · have quiet := unprepared fun on => on.2.2.2.2 stale
        simp only [stale, ne_eq, not_true_eq_false, if_false]
        exact stays quiet
      dsimp only
      rw [if_pos stale]
      have offer : s.offered C ctx event = some (s.reissued C ctx, true) := by
        have on : s.cfgErr = false ∧ s.isMiner = true := by simpa using off
        subst call
        simp only [offered]
        rw [if_pos ⟨on.1, on.2, by rw [elected, ours], unsaved, stale⟩]
      unfold reHandlePrepareReq
      cases host : ctx.host with
      | false =>
          exact handlePrepareMsg_lock [.signed (.prepare (s.reissued C ctx))]
            ⟨rfl, rfl⟩ s.nodeIdx _ true offer
      | true =>
          exact handlePrepareMsg_lock [.sent (.prepare (s.reissued C ctx)),
            .signed (.prepare (s.reissued C ctx))]
            ⟨rfl, rfl⟩ s.nodeIdx _ true offer

theorem resetConfig_lock (ctx : Ctx) (s : Node) : let t := s.resetConfig ctx
    t.log = s.log ∧ SameFrame s.toCore t.toCore ∧ t.rawPrepareCache = s.rawPrepareCache ∧
      (t.prepareCache = s.prepareCache ∨ t.prepareCache.view = Invalid256) := by
  intro t
  rcases @resetConfig_cases ctx s with ⟨same, -⟩ | ⟨nodeIdx, -, -, -, result⟩
  · have core : t.toCore = s.toCore := same
    rw [core]
    exact ⟨rfl, .refl _, rfl, Or.inl rfl⟩
  · have core : t.toCore = s.toCore.reconfigure ctx.nodes.getMinerNum nodeIdx := result
    rw [core]
    exact ⟨rfl, ⟨rfl, rfl, rfl, rfl⟩, rfl, Or.inr rfl⟩

theorem reportBlock_lock (b : BlockInfo) :
    LockStep C ctx s (.reportBlock b) (s.reportBlock ctx b).toCore := by
  have forgets : ∀ c : Core, (c.delCache b.hash).prepareCache = c.prepareCache ∨
      (c.delCache b.hash).prepareCache.view = Invalid256 := by
    intro c
    by_cases same : b.hash = c.prepareCache.blockHash
    · exact Or.inr (congrArg (fun p : PrepareReq => p.view) (if_pos same))
    · exact Or.inl (if_neg same)
  unfold reportBlock
  dsimp only
  let reported := s.onCore fun c => { c with highestBlock := b }
  by_cases newer : reported.consensusBlockNumber ≤ b.number
  · rw [if_pos newer]
    rcases resetConfig_lock ctx (reported.advance ctx b) with ⟨log, frame, raw, prepare⟩
    refine .report b rfl log frame.committed frame.highest
      (Or.inl ⟨newer, frame.consensus, frame.view⟩) raw ?_
    rcases forgets ((reported.advance ctx b).resetConfig ctx).toCore with same | invalid
    · rcases prepare with kept | cleared
      · exact Or.inl (same.trans kept)
      · exact Or.inr (same ▸ cleared)
    · exact Or.inr invalid
  · rw [if_neg newer]
    rcases resetConfig_lock ctx reported with ⟨log, frame, raw, prepare⟩
    refine .report b rfl log frame.committed frame.highest
      (Or.inr ⟨Nat.not_le.mp newer, frame.consensus, frame.view⟩) raw ?_
    rcases forgets (reported.resetConfig ctx).toCore with same | invalid
    · rcases prepare with kept | cleared
      · exact Or.inl (same.trans kept)
      · exact Or.inr (same ▸ cleared)
    · exact Or.inr invalid

theorem step_lock : LockStep C ctx s event (s.step C ctx event).toCore := by
  cases event with
  | handleMsg sender packet =>
      cases packet with
      | prepare req => exact handlePrepareMsg_lock [] .nil sender req false rfl
      | sign req => exact handleSignMsg_lock sender req rfl
      | commit req => exact handleCommitMsg_lock req fun _ => rfl
      | viewChange req => exact handleViewChangeMsg_lock req fun _ => rfl
  | checkTimeout => exact checkTimeout_lock fun _ => rfl
  | handleFutureBlock =>
      simp only [step, handleFutureBlock]
      by_cases due : s.futurePrepareCache.2.height = s.consensusBlockNumber ∧
          s.futurePrepareCache.2.view = s.view
      · rw [if_pos due]
        exact handlePrepareMsg_lock [] .nil s.futurePrepareCache.1 s.futurePrepareCache.2 false
          (by simp only [offered]; rw [if_pos due])
      · rw [if_neg due]
        refine .same _ rfl (.refl _) rfl rfl ?_
        intro origin
        simp only [originAfter, offered, if_neg due]
  | collectGarbage =>
      simp only [step, collectGarbage]
      split_ifs
      · exact .same _ rfl (.refl _) rfl rfl fun _ => rfl
      · exact .same _ rfl ⟨rfl, rfl, rfl, rfl⟩ rfl rfl fun _ => rfl
      · exact .same _ rfl (.refl _) rfl rfl fun _ => rfl
  | reportBlock b => exact reportBlock_lock b
  | shouldSeal => exact shouldSeal_lock rfl
  | generateSeal number hash block =>
      simp only [step, generateSeal, onCore, Core.broadcastPrepareReq_eq]
      cases host : ctx.host with
      | false =>
          exact .quiet [.signed (.prepare _)] rfl ⟨rfl, rfl⟩ ⟨rfl, rfl, rfl, rfl⟩ rfl (Or.inl rfl)
            fun _ => rfl
      | true =>
          exact .quiet [.sent (.prepare _), .signed (.prepare _)] rfl ⟨rfl, rfl⟩
            ⟨rfl, rfl, rfl, rfl⟩ rfl
            (Or.inr (Or.inr ⟨number, hash, block, rfl, host⟩)) fun _ => rfl
  | generateCommit proposal number hash block view =>
      exact generateCommit_lock proposal number hash block view rfl
  | changeViewForEmptyBlockWithLock => exact .same _ rfl (.refl _) rfl rfl fun _ => rfl
  | setOmitEmptyBlock flag => exact .same _ rfl (.refl _) rfl rfl fun _ => rfl
  | startGeneration =>
      rcases resetConfig_lock ctx { s with lastConsensusTime := ctx.now } with
        ⟨log, frame, raw, prepare⟩
      rcases prepare with same | cleared
      · exact .same _ log frame same raw fun _ => rfl
      · exact .cleared [] log .nil frame.committed frame.highest frame.consensus cleared

end Node

end UtispaceChain
