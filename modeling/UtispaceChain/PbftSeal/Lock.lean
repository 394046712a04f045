import UtispaceChain.PbftSeal.Membership

/-! What is in the raw cache when a quorum of signatures turns it into the lock.

The raw cache, the prepare cache and the lock are written by different handlers at
different points of the validation. -/

namespace UtispaceChain

open Lib

/-- A quorum of signatures would be acted on: the prepare cache is of the current view, and
not the cleared one. -/
def Core.Live (c : Core) : Prop := c.prepareCache.view = c.view ∧ c.view ≠ Invalid256

/-- Every check of `handlePrepareMsg`, with the block that execution made of the proposal. -/
structure FullyValidated (C : Crypto) (ctx : Ctx) (s : Node) (raw : PrepareReq) (hash : H256)
    (block : Bytes) : Prop where
  height : raw.height = s.consensusBlockNumber
  view : raw.view = s.view
  leader : s.getLeader = some raw.idx
  lock : raw.height = s.committedPrepareCache.height →
    raw.blockHash = s.committedPrepareCache.blockHash
  signed : Node.checkSign C ctx raw.toPBFTMsg = true
  executed : ∃ outBlock, ctx.checkBlockValid raw.blockHash raw.block = some outBlock ∧
    outBlock.infoHash = raw.blockHash ∧ outBlock.resealed = some (hash, block)

/-- At some call the raw proposal passed every check and was executed to the prepared block. -/
def Validated (C : Crypto) (history : List (Node × Ctx × Event)) (raw prepare : PrepareReq) :
    Prop :=
  ∃ s ctx event self hash block, (s, ctx, event) ∈ history ∧
    s.offered C ctx event = some (raw, self) ∧ FullyValidated C ctx s raw hash block ∧
    prepare = s.signPrepare C ctx raw.height raw.view raw.idx hash block

/-- The raw proposal is our own, and the client committed its executed form. -/
def OwnProposal (C : Crypto) (history : List (Node × Ctx × Event)) (log : List Effect)
    (raw prepare : PrepareReq) : Prop :=
  Effect.sent (.prepare raw) ∈ log ∧ ∃ s ctx number hash block,
    (s, ctx, Event.generateCommit raw.blockHash number hash block s.view) ∈ history ∧
    prepare = s.signPrepare C ctx number s.view s.nodeIdx hash block

def Justified (C : Crypto) (history : List (Node × Ctx × Event)) (log : List Effect)
    (raw prepare : PrepareReq) : Prop :=
  Validated C history raw prepare ∨ OwnProposal C history log raw prepare

/-- A call does not put another proposal under a live prepare cache: a proposal that fails a
check, or a new one of our own, comes only while no prepared block can be locked, and the
client commits what is still in the raw cache. -/
structure KeepsProposal (C : Crypto) (ctx : Ctx) (s : Node) (event : Event) : Prop where
  view : s.view ≠ Invalid256
  refused : ∀ req self, s.offered C ctx event = some (req, self) → s.Enters req self →
    s.Live → s.validated C ctx req ≠ none
  proposed : ∀ number hash block, event = .generateSeal number hash block →
    ctx.host = true → ¬ s.Live
  committed : ∀ proposal number hash block,
    event = .generateCommit proposal number hash block s.view →
    s.rawPrepareCache.blockHash = proposal ∧ Effect.sent (.prepare s.rawPrepareCache) ∈ s.log

/-- The index that `getLeader` answers with unless the leader has failed. -/
def Core.leaderIdx (c : Core) : Nat := u256Add c.view c.highestBlock.number % c.nodeNum

theorem Node.getLeader_eq {s : Node} {i : Nat} (leader : s.getLeader = some i) :
    i = s.leaderIdx := by
  unfold Node.getLeader at leader
  split at leader
  · cases leader
  · exact (Option.some.inj leader).symm

/-- Beside that, what the client commits is still the proposal of the current leader, and no
prepared block is left from before a report: the report is of that block, or of the number of the
head, or the prepare cache is not of the view that the report leads to. -/
structure KeepsLeader (C : Crypto) (ctx : Ctx) (s : Node) (event : Event) : Prop
    extends KeepsProposal C ctx s event where
  led : ∀ proposal number hash block,
    event = .generateCommit proposal number hash block s.view → s.rawPrepareCache.idx = s.leaderIdx
  reported : ∀ b, event = .reportBlock b → b.hash = s.prepareCache.blockHash ∨
    (b.number = s.highestBlock.number ∧ b.number < s.consensusBlockNumber) ∨
    s.prepareCache.view ≠ if s.consensusBlockNumber ≤ b.number then 0 else s.view

/-- Every lock that the call takes is on a proposal of the leader it finds. -/
def LocksLeader (C : Crypto) (ctx : Ctx) (s : Node) (event : Event) : Prop :=
  ∀ new, (s.step C ctx event).log = new ++ s.log →
    ∀ raw prepare, Effect.locked raw prepare ∈ new → raw.idx = s.leaderIdx

def Event.seals : Event → Bool
  | .generateSeal _ _ _ => true
  | .generateCommit _ _ _ _ _ => true
  | _ => false

section Moves

variable {C : Crypto} {ctx : Ctx} {s : Node} {event : Event} {c d : Core}
  {history : List (Node × Ctx × Event)} {start : PrepareReq}

theorem KeepsProposal.of_other (view : s.view ≠ Invalid256) (offer : s.offered C ctx event = none)
    (kind : event.seals = false) : KeepsProposal C ctx s event := by
  refine ⟨view, ?_, ?_, ?_⟩
  · intro req self other
    rw [offer] at other
    cases other
  · intro number hash block call
    rw [call] at kind
    cases kind
  · intro proposal number hash block call
    rw [call] at kind
    cases kind

theorem FullyValidated.of_validated {req : PrepareReq} {self : Bool} {hash : H256} {block : Bytes}
    (enters : s.Enters req self) (valid : s.validated C ctx req = some (hash, block)) :
    FullyValidated C ctx s req hash block := by
  unfold Node.validated at valid
  split at valid
  swap
  · cases valid
  rename_i checks
  split at valid
  · cases valid
  rename_i outBlock found
  split at valid
  swap
  · cases valid
  rename_i accepted
  refine ⟨enters.height, enters.view, checks.1, ?_, checks.2.2, outBlock, found, accepted.1, valid⟩
  intro height
  by_contra different
  exact checks.2.1 ⟨height, different⟩

theorem Justified.mono {old : List (Node × Ctx × Event)} {log more : List Effect}
    {raw prepare : PrepareReq} (steps : ∀ entry ∈ old, entry ∈ history)
    (effects : ∀ effect ∈ log, effect ∈ more) (justified : Justified C old log raw prepare) :
    Justified C history more raw prepare := by
  rcases justified with ⟨s, ctx, event, self, hash, block, member, rest⟩ |
    ⟨sent, s, ctx, number, hash, block, member, built⟩
  · exact Or.inl ⟨s, ctx, event, self, hash, block, steps _ member, rest⟩
  · exact Or.inr ⟨effects _ sent, s, ctx, number, hash, block, steps _ member, built⟩

structure LockInv (C : Crypto) (history : List (Node × Ctx × Event)) (start : PrepareReq)
    (c : Core) : Prop where
  live : c.Live → Justified C history c.log c.rawPrepareCache c.prepareCache
  -- a prepare cache of another view is cleared, or left over from a lower height
  views : c.prepareCache.view = Invalid256 ∨ c.prepareCache.view = c.view ∨
    (c.view = 0 ∧ c.prepareCache.view ≠ 0)
  locks : ∀ raw prepare, Effect.locked raw prepare ∈ c.log → Justified C history c.log raw prepare
  current : c.committedPrepareCache = start ∨
    ∃ prepare, Effect.locked c.committedPrepareCache prepare ∈ c.log
  commits : ∀ req, Effect.sent (.commit req) ∈ c.log → ∃ raw prepare,
    Effect.locked raw prepare ∈ c.log ∧ req.height = prepare.height ∧ req.view = prepare.view ∧
      req.blockHash = prepare.blockHash

theorem LockInv.extend (inv : LockInv C history start c) (entry : Node × Ctx × Event) :
    LockInv C (history ++ [entry]) start c :=
  ⟨fun live => (inv.live live).mono (fun _ h => List.mem_append_left _ h) (fun _ h => h), inv.views,
    fun raw prepare member => (inv.locks raw prepare member).mono
      (fun _ h => List.mem_append_left _ h) (fun _ h => h), inv.current, inv.commits⟩

theorem LockInv.kept (inv : LockInv C history start c) (effects : List Effect)
    (log : d.log = effects ++ c.log) (lock : d.committedPrepareCache = c.committedPrepareCache)
    (noLock : ∀ raw prepare, Effect.locked raw prepare ∉ effects)
    (noCommit : ∀ req, Effect.sent (.commit req) ∉ effects)
    (live : d.Live → Justified C history d.log d.rawPrepareCache d.prepareCache)
    (views : d.prepareCache.view = Invalid256 ∨ d.prepareCache.view = d.view ∨
      (d.view = 0 ∧ d.prepareCache.view ≠ 0)) : LockInv C history start d := by
  have grown : ∀ effect ∈ c.log, effect ∈ d.log := by
    intro effect member
    rw [log]
    exact List.mem_append_right _ member
  have shrunk : ∀ effect ∈ d.log, effect ∉ effects → effect ∈ c.log := by
    intro effect member fresh
    rw [log] at member
    exact (List.mem_append.mp member).resolve_left fresh
  refine ⟨live, views, ?_, ?_, ?_⟩
  · intro raw prepare member
    exact (inv.locks raw prepare (shrunk _ member (noLock raw prepare))).mono (fun _ h => h) grown
  · rw [lock]
    rcases inv.current with same | ⟨prepare, member⟩
    · exact Or.inl same
    · exact Or.inr ⟨prepare, grown _ member⟩
  · intro req member
    obtain ⟨raw, prepare, locked, rest⟩ := inv.commits req (shrunk _ member (noCommit req))
    exact ⟨raw, prepare, grown _ locked, rest⟩

theorem LockInv.logged (inv : LockInv C history start c) (effects : List Effect)
    (noLock : ∀ raw prepare, Effect.locked raw prepare ∉ effects)
    (noCommit : ∀ req, Effect.sent (.commit req) ∉ effects) (raw : PrepareReq) (signs : VoteCache)
    (same : raw = c.rawPrepareCache) :
    LockInv C history start
      { c with log := effects ++ c.log, rawPrepareCache := raw, signCache := signs } := by
  refine inv.kept effects rfl rfl noLock noCommit ?_ inv.views
  intro live
  rw [same]
  exact (inv.live live).mono (fun _ h => h) (fun _ h => List.mem_append_right _ h)

theorem LockInv.cleared (inv : LockInv C history start c) (log : d.log = c.log)
    (lock : d.committedPrepareCache = c.committedPrepareCache)
    (cleared : d.prepareCache.view = Invalid256) : LockInv C history start d := by
  refine inv.kept [] log lock (by simp) (by simp) ?_ (Or.inl cleared)
  intro live
  exact absurd (live.1.symm.trans cleared) live.2

theorem Core.AtStart.live (start : c.AtStart s) (live : c.Live) : s.Live := by
  rw [start] at live
  exact live

theorem LockInv.move (keeps : KeepsProposal C ctx s event) (here : (s, ctx, event) ∈ history)
    (inv : LockInv C history start c) (move : Micro C ctx s event c d) :
    LockInv C history start d := by
  cases move with
  | storeSign sender req => exact inv.logged [] (by simp) (by simp) _ _ rfl
  | storeCommit sender req => exact inv.kept [] rfl rfl (by simp) (by simp) inv.live inv.views
  | storeViewChange => exact inv.kept [] rfl rfl (by simp) (by simp) inv.live inv.views
  | reject _ req self offer enters refused atStart =>
      refine inv.kept [] rfl rfl (by simp) (by simp) ?_ inv.views
      intro live
      exact absurd refused (keeps.refused req self offer enters (atStart.live live))
  | accept _ req self hash block offer enters valid atStart =>
      refine inv.kept [.signed _] rfl rfl (by simp) (by simp) ?_ ?_
      · intro _
        refine Or.inl ⟨s, ctx, event, self, hash, block, here, offer, .of_validated enters valid,
          ?_⟩
        rw [atStart]
        rfl
      · refine Or.inr (Or.inl ?_)
        rw [atStart]
        exact enters.view
  | propose number hash block call =>
      rw [Core.broadcastPrepareReq_eq]
      cases host : ctx.host with
      | false => exact inv.logged [.signed _] (by simp) (by simp) _ _ rfl
      | true =>
          refine inv.kept [.sent (.prepare _), .signed _] rfl rfl (by simp) (by simp) ?_ inv.views
          intro live
          exact absurd live (keeps.proposed number hash block call host)
  | prepareOwn proposal number hash block call =>
      obtain ⟨same, sent⟩ := keeps.committed proposal number hash block call
      refine inv.kept [.signed _] rfl rfl (by simp) (by simp) ?_ (Or.inr (Or.inl rfl))
      intro _
      refine Or.inr ⟨List.mem_cons_of_mem _ sent, s, ctx, number, hash, block, ?_, rfl⟩
      rw [call, ← same] at here
      exact here
  | voteSign =>
      rw [Core.broadcastSignReq_eq]
      cases ctx.host with
      | false => exact inv.logged [.signed _] (by simp) (by simp) _ _ rfl
      | true => exact inv.logged [.sent (.sign _), .signed _] (by simp) (by simp) _ _ rfl
  | lock _ reached current sameView =>
      have live : c.Live := ⟨current, sameView ▸ keeps.view⟩
      have grown : ∀ effect ∈ c.log, effect ∈ c.locked.log :=
        fun effect member => List.mem_cons_of_mem _ member
      refine ⟨?_, inv.views, ?_, Or.inr ⟨c.prepareCache, List.mem_cons_self⟩, ?_⟩
      · intro _
        exact (inv.live live).mono (fun _ h => h) grown
      · intro raw prepare member
        rcases List.mem_cons.mp member with same | old
        · cases same
          exact (inv.live live).mono (fun _ h => h) grown
        · exact (inv.locks raw prepare old).mono (fun _ h => h) grown
      · intro req member
        rcases List.mem_cons.mp member with same | old
        · cases same
        · obtain ⟨raw, prepare, locked, rest⟩ := inv.commits req old
          exact ⟨raw, prepare, grown _ locked, rest⟩
  | voteCommit _ current sameView lock logged =>
      rw [Core.broadcastCommitReq_eq]
      cases ctx.host with
      | false =>
          exact inv.kept [.signed _] rfl rfl (by simp) (by simp)
            (fun live => (inv.live live).mono (fun _ h => h) (fun _ h => List.mem_cons_of_mem _ h))
            inv.views
      | true =>
          have grown : ∀ effect ∈ c.log, effect ∈
            (Effect.sent (.commit (c.ownVote C ctx c.prepareCache)) ::
              .signed (.commit (c.ownVote C ctx c.prepareCache)) :: c.log) :=
            fun effect member => List.mem_cons_of_mem _ (List.mem_cons_of_mem _ member)
          refine ⟨fun live => (inv.live live).mono (fun _ h => h) grown, inv.views, ?_, ?_, ?_⟩
          · intro raw prepare member
            have old : Effect.locked raw prepare ∈ c.log := by simpa using member
            exact (inv.locks raw prepare old).mono (fun _ h => h) grown
          · rcases inv.current with same | ⟨prepare, member⟩
            · exact Or.inl same
            · exact Or.inr ⟨prepare, grown _ member⟩
          · intro req member
            rcases List.mem_cons.mp member with same | more
            · cases same
              exact ⟨c.rawPrepareCache, c.prepareCache, grown _ logged, rfl, rfl, rfl⟩
            · have old : Effect.sent (.commit req) ∈ c.log := by simpa using more
              obtain ⟨raw, prepare, locked, rest⟩ := inv.commits req old
              exact ⟨raw, prepare, grown _ locked, rest⟩
  | save =>
      rcases c.checkAndSave_cases with same | ⟨-, -, -, -, block, sealed⟩
      · rw [same]
        exact inv
      · rw [sealed]
        exact inv.logged [.onSealGenerated _ _ _ _] (by simp) (by simp) _ _ rfl
  | changeView => exact inv.cleared rfl rfl rfl
  | report => exact inv.kept [] rfl rfl (by simp) (by simp) inv.live inv.views
  | advance =>
      refine inv.kept [] rfl rfl (by simp) (by simp) ?_ ?_
      · intro live
        have zero : c.prepareCache.view = 0 := live.1
        rcases inv.views with invalid | same | ⟨-, other⟩
        · rw [zero] at invalid
          cases invalid
        · exact inv.live ⟨same, by rw [← same, zero]; decide⟩
        · exact absurd zero other
      · by_cases zero : c.prepareCache.view = 0
        · exact Or.inr (Or.inl zero)
        · exact Or.inr (Or.inr ⟨rfl, zero⟩)
  | reconfigure => exact inv.cleared rfl rfl rfl
  | forget _ hash =>
      by_cases same : hash = c.prepareCache.blockHash
      · refine inv.cleared rfl rfl ?_
        simp [Core.delCache, same, PrepareReq.clear]
      · have kept : (c.delCache hash).prepareCache = c.prepareCache := if_neg same
        refine inv.kept [] rfl rfl (by simp) (by simp) ?_ (kept ▸ inv.views)
        intro live
        rw [kept]
        exact inv.live ⟨kept ▸ live.1, live.2⟩
  | collect => exact inv.kept [] rfl rfl (by simp) (by simp) inv.live inv.views
  | dropViewChanges => exact inv.kept [] rfl rfl (by simp) (by simp) inv.live inv.views
  | sign _ packet => exact inv.logged [.signed packet] (by simp) (by simp) _ _ rfl
  | send _ packet other =>
      refine inv.logged [.sent packet] (by simp) ?_ _ _ rfl
      intro req
      simpa using fun same => other req same.symm
  | callback => exact inv.logged [.onViewChange] (by simp) (by simp) _ _ rfl

/-- What a call that does not read the table again keeps of the leader, up to a completed view
change. -/
structure LeaderInv (s : Node) (c : Core) : Prop where
  live : c.Live → c.rawPrepareCache.idx = c.leaderIdx
  highest : c.highestBlock = s.highestBlock
  miners : c.nodeNum = s.nodeNum
  locks : ∃ new, c.log = new ++ s.log ∧
    ∀ raw prepare, Effect.locked raw prepare ∈ new → raw.idx = s.leaderIdx

theorem LeaderInv.kept (inv : LeaderInv s c) (effects : List Effect)
    (log : d.log = effects ++ c.log) (noLock : ∀ raw prepare, Effect.locked raw prepare ∉ effects)
    (highest : d.highestBlock = c.highestBlock) (miners : d.nodeNum = c.nodeNum)
    (live : d.Live → d.rawPrepareCache.idx = d.leaderIdx) : LeaderInv s d := by
  obtain ⟨new, before, led⟩ := inv.locks
  refine ⟨live, highest.trans inv.highest, miners.trans inv.miners, effects ++ new, ?_, ?_⟩
  · rw [log, before, List.append_assoc]
  · intro raw prepare member
    exact led raw prepare ((List.mem_append.mp member).resolve_left (noLock raw prepare))

theorem LeaderInv.logged (inv : LeaderInv s c) (effects : List Effect)
    (noLock : ∀ raw prepare, Effect.locked raw prepare ∉ effects) (log : d.log = effects ++ c.log)
    (raw : d.rawPrepareCache = c.rawPrepareCache) (prepare : d.prepareCache = c.prepareCache)
    (view : d.view = c.view) (highest : d.highestBlock = c.highestBlock)
    (miners : d.nodeNum = c.nodeNum) : LeaderInv s d := by
  refine inv.kept effects log noLock highest miners ?_
  intro live
  rw [Core.Live, prepare, view] at live
  rw [raw, Core.leaderIdx, view, highest, miners]
  exact inv.live live

theorem LeaderInv.cleared (inv : LeaderInv s c) (log : d.log = c.log)
    (highest : d.highestBlock = c.highestBlock) (miners : d.nodeNum = c.nodeNum)
    (cleared : d.prepareCache.view = Invalid256) : LeaderInv s d := by
  refine inv.kept [] log (by simp) highest miners ?_
  intro live
  exact absurd (live.1.symm.trans cleared) live.2

theorem LeaderInv.move (keeps : KeepsLeader C ctx s event) (plain : event.configures = false)
    (inv : LeaderInv s c) (move : Micro C ctx s event c d) : LeaderInv s d := by
  cases move with
  | reject _ req self offer enters refused atStart =>
      refine inv.kept [] rfl (by simp) rfl rfl ?_
      intro live
      exact absurd refused (keeps.refused req self offer enters (atStart.live live))
  | accept _ req self hash block offer enters valid atStart =>
      refine inv.kept [.signed _] rfl (by simp) rfl rfl ?_
      intro _
      have leader := (FullyValidated.of_validated enters valid).leader
      rw [atStart]
      exact Node.getLeader_eq leader
  | propose number hash block call =>
      rw [Core.broadcastPrepareReq_eq]
      cases host : ctx.host with
      | false => exact inv.logged [.signed _] (by simp) rfl rfl rfl rfl rfl rfl
      | true =>
          refine inv.kept [.sent (.prepare _), .signed _] rfl (by simp) rfl rfl ?_
          intro live
          exact absurd live (keeps.proposed number hash block call host)
  | prepareOwn proposal number hash block call =>
      exact inv.kept [.signed _] rfl (by simp) rfl rfl
        fun _ => keeps.led proposal number hash block call
  | voteSign =>
      rw [Core.broadcastSignReq_eq]
      cases ctx.host with
      | false => exact inv.logged [.signed _] (by simp) rfl rfl rfl rfl rfl rfl
      | true => exact inv.logged [.sent (.sign _), .signed _] (by simp) rfl rfl rfl rfl rfl rfl
  | lock _ reached current sameView =>
      have led : c.rawPrepareCache.idx = s.leaderIdx := by
        rw [inv.live ⟨current, sameView ▸ keeps.view⟩, Core.leaderIdx, sameView, inv.highest,
          inv.miners]
        rfl
      obtain ⟨new, before, locks⟩ := inv.locks
      refine ⟨inv.live, inv.highest, inv.miners, .locked c.rawPrepareCache c.prepareCache :: new,
        congrArg (List.cons _) before, ?_⟩
      intro raw prepare member
      rcases List.mem_cons.mp member with same | old
      · cases same
        exact led
      · exact locks raw prepare old
  | voteCommit =>
      rw [Core.broadcastCommitReq_eq]
      cases ctx.host with
      | false => exact inv.logged [.signed _] (by simp) rfl rfl rfl rfl rfl rfl
      | true => exact inv.logged [.sent (.commit _), .signed _] (by simp) rfl rfl rfl rfl rfl rfl
  | save =>
      rcases c.checkAndSave_cases with same | ⟨-, -, -, -, block, sealed⟩
      · rw [same]
        exact inv
      · rw [sealed]
        exact inv.logged [.onSealGenerated _ _ _ _] (by simp) rfl rfl rfl rfl rfl rfl
  | changeView => exact inv.cleared rfl rfl rfl rfl
  | report b call =>
      rw [call] at plain
      cases plain
  | advance _ b call =>
      rw [call] at plain
      cases plain
  | reconfigure _ nodeIdx call =>
      rw [call] at plain
      cases plain
  | forget _ hash =>
      by_cases same : hash = c.prepareCache.blockHash
      · refine inv.cleared rfl rfl rfl ?_
        simp [Core.delCache, same, PrepareReq.clear]
      · exact inv.logged [] (by simp) rfl rfl (if_neg same) rfl rfl rfl
  | sign _ packet => exact inv.logged [.signed packet] (by simp) rfl rfl rfl rfl rfl rfl
  | send _ packet => exact inv.logged [.sent packet] (by simp) rfl rfl rfl rfl rfl rfl
  | callback => exact inv.logged [.onViewChange] (by simp) rfl rfl rfl rfl rfl rfl
  | _ => exact inv.logged [] (by simp) rfl rfl rfl rfl rfl rfl

theorem Core.Live.of_delCache {hash : H256} (live : (c.delCache hash).Live) :
    hash ≠ c.prepareCache.blockHash ∧ c.Live := by
  by_cases same : hash = c.prepareCache.blockHash
  · have cleared : (c.delCache hash).prepareCache = c.prepareCache.clear := if_pos same
    have view := live.1
    rw [cleared] at view
    exact absurd view.symm live.2
  · have kept : (c.delCache hash).prepareCache = c.prepareCache := if_neg same
    exact ⟨same, kept ▸ live.1, live.2⟩

/-- A report and a new start lock nothing; after them a live prepare cache is that of before, under
the leader of before. -/
theorem KeepsLeader.configured (keeps : KeepsLeader C ctx s event)
    (configures : event.configures = true) (live : s.Live → s.rawPrepareCache.idx = s.leaderIdx) :
    ((s.step C ctx event).Live →
      (s.step C ctx event).rawPrepareCache.idx = (s.step C ctx event).leaderIdx) ∧
    (s.step C ctx event).log = s.log := by
  -- `resetConfig` keeps the core, or clears the prepare cache
  have reset : ∀ t : Node, (t.resetConfig ctx).toCore = t.toCore ∨
      (¬ (t.resetConfig ctx).Live ∧ (t.resetConfig ctx).log = t.log) := by
    intro t
    rcases Node.resetConfig_cases t with ⟨same, -⟩ | ⟨nodeIdx, -, -, -, result⟩
    · exact Or.inl same
    · rw [result]
      exact Or.inr ⟨fun cleared => cleared.2 cleared.1.symm, rfl⟩
  cases event with
  | startGeneration =>
      rcases reset { s with lastConsensusTime := ctx.now } with same | ⟨cleared, log⟩
      · rw [Node.step, same]
        exact ⟨live, rfl⟩
      · exact ⟨fun after => absurd after cleared, log⟩
  | reportBlock b =>
      let reported := s.onCore fun c => { c with highestBlock := b }
      let advanced :=
        if reported.consensusBlockNumber ≤ b.number then reported.advance ctx b else reported
      have log : advanced.log = s.log := by
        simp only [advanced]
        split <;> rfl
      rcases reset advanced with same | ⟨cleared, logged⟩
      · have core : (s.step C ctx (.reportBlock b)).toCore = advanced.toCore.delCache b.hash :=
          congrArg (fun c => c.delCache b.hash) same
        rw [core]
        refine ⟨?_, log⟩
        intro after
        obtain ⟨other, current⟩ := after.of_delCache
        by_cases newer : s.consensusBlockNumber ≤ b.number
        · have new : advanced = reported.advance ctx b := if_pos newer
          rw [new] at other current
          rcases keeps.reported b rfl with prepared | ⟨-, old⟩ | stale
          · exact absurd prepared other
          · exact absurd newer (Nat.not_le.mpr old)
          · exact absurd current.1 (by rw [if_pos newer] at stale; exact stale)
        · have same : advanced = reported := if_neg newer
          rw [same] at other current ⊢
          rcases keeps.reported b rfl with prepared | ⟨head, -⟩ | stale
          · exact absurd prepared other
          · exact (live current).trans (by rw [Core.leaderIdx, ← head]; rfl)
          · exact absurd current.1 (by rw [if_neg newer] at stale; exact stale)
      · refine ⟨?_, logged.trans log⟩
        intro after
        exact absurd after.of_delCache.2 cleared
  | _ => cases configures

theorem KeepsProposal.of_message {sender : Nat} {packet : Packet}
    (keeps : KeepsProposal C ctx s (.handleMsg sender packet)) :
    KeepsLeader C ctx s (.handleMsg sender packet) := by
  refine ⟨keeps, ?_, ?_⟩
  · intro proposal number hash block call
    cases call
  · intro b call
    cases call

theorem KeepsLeader.step (keeps : KeepsLeader C ctx s event)
    (live : s.Live → s.rawPrepareCache.idx = s.leaderIdx) :
    ((s.step C ctx event).Live →
      (s.step C ctx event).rawPrepareCache.idx = (s.step C ctx event).leaderIdx) ∧
    LocksLeader C ctx s event := by
  cases configures : event.configures with
  | true =>
      obtain ⟨after, log⟩ := keeps.configured configures live
      refine ⟨after, ?_⟩
      intro new grown raw prepare member
      rw [log] at grown
      rw [List.self_eq_append_left.mp grown] at member
      cases member
  | false =>
      have start : LeaderInv s s.toCore := ⟨live, rfl, rfl, [], rfl, by simp⟩
      have inv : LeaderInv s (s.step C ctx event).toCore :=
        moves_invariant _ Node.step_moves start fun _ _ held move =>
          held.move keeps configures move
      refine ⟨inv.live, ?_⟩
      intro new grown
      obtain ⟨others, log, led⟩ := inv.locks
      rw [List.append_cancel_right (grown.symm.trans log)]
      exact led

end Moves

theorem LockInv.initial (C : Crypto) (ctx : Ctx) (setup : Node.Setup) :
    LockInv C [] (setup.backup.getD {}) (Node.initEnv ctx setup).toCore := by
  obtain ⟨cleared, backup⟩ := Node.initEnv_prepare ctx setup
  have log := Node.initEnv_log ctx setup
  refine ⟨?_, Or.inl cleared, ?_, Or.inl backup, ?_⟩
  · intro live
    exact absurd (live.1.symm.trans cleared) live.2
  · intro raw prepare member
    rw [log] at member
    cases member
  · intro req member
    rw [log] at member
    cases member

/-- In every run whose calls keep the proposal of the current leader under a live prepare cache:
each lock is a proposal that passed all checks at some call, or our own, it is of the leader at the
call that takes it, and the prepared block was built from its execution; commits go out for locked
blocks only; nothing else is ever the lock. -/
theorem lock_is_validated (C : Crypto) (ctx : Ctx) (setup : Node.Setup) (calls : List (Ctx × Event))
    (keeps : ∀ entry ∈ Node.trace C (Node.initEnv ctx setup) calls,
      KeepsLeader C entry.2.1 entry.1 entry.2.2) :
    let s := Node.run C (Node.initEnv ctx setup) calls
    let history := Node.trace C (Node.initEnv ctx setup) calls
    (∀ raw prepare, Effect.locked raw prepare ∈ s.log → Justified C history s.log raw prepare) ∧
    (∀ entry ∈ history, LocksLeader C entry.2.1 entry.1 entry.2.2) ∧
    (s.committedPrepareCache = setup.backup.getD {} ∨
      ∃ prepare, Effect.locked s.committedPrepareCache prepare ∈ s.log) ∧
    ∀ req, Effect.sent (.commit req) ∈ s.log → ∃ raw prepare, Effect.locked raw prepare ∈ s.log ∧
      req.height = prepare.height ∧ req.view = prepare.view ∧
      req.blockHash = prepare.blockHash := by
  intro s history
  have inv : LockInv C history (setup.backup.getD {}) s.toCore ∧
      (s.Live → s.rawPrepareCache.idx = s.leaderIdx) ∧
      ∀ entry ∈ history, LocksLeader C entry.2.1 entry.1 entry.2.2 := by
    refine run_invariant (Node.next C)
      (fun history s => LockInv C history (setup.backup.getD {}) s.toCore ∧
        (s.Live → s.rawPrepareCache.idx = s.leaderIdx) ∧
        ∀ entry ∈ history, LocksLeader C entry.2.1 entry.1 entry.2.2)
      (fun s call => KeepsLeader C call.1 s call.2) _ ⟨LockInv.initial C ctx setup, ?_, by simp⟩ ?_
      calls keeps
    · intro live
      exact absurd (live.1.symm.trans (Node.initEnv_prepare ctx setup).1) live.2
    · rintro events call current ⟨before, live, locks⟩ admitted
      obtain ⟨after, locked⟩ := admitted.step live
      refine ⟨?_, after, ?_⟩
      · refine moves_invariant _ Node.step_moves (before.extend (current, call)) ?_
        intro a b held move
        exact held.move admitted.toKeepsProposal (by simp) move
      · intro entry member
        rcases List.mem_append.mp member with old | new
        · exact locks entry old
        · rw [List.mem_singleton.mp new]
          exact locked
  exact ⟨inv.1.locks, inv.2.2, inv.1.current, inv.1.commits⟩

def toyBlock : Bytes := [0xc4, 0x80, 0x80, 0x80, 0x80]

def toyPrepare (idx height view : Nat) (hash : H256) : PrepareReq :=
  { toyVote idx 0 height view hash with block := toyBlock }

def fromGenesis (nodes : NodeTable) (packets : List Packet) : List (Ctx × Event) :=
  (Ctx.executing nodes, .reportBlock { number := 0, hash := 5, timestamp := 1 }) ::
    packets.map fun packet => (Ctx.executing nodes, .handleMsg 0 packet)

theorem honest_round_locks :
    let calls := fromGenesis (.consecutive 4 0) [.prepare (toyPrepare 0 1 0 7),
      .sign (toyVote 0 0 1 0 8), .sign (toyVote 2 0 1 0 8)]
    let s := Node.run Crypto.toy (toyNode (.consecutive 4 0)) calls
    let history := Node.trace Crypto.toy (toyNode (.consecutive 4 0)) calls
    s.committedPrepareCache = toyPrepare 0 1 0 7 ∧
      (∀ raw prepare, Effect.locked raw prepare ∈ s.log →
        Justified Crypto.toy history s.log raw prepare) ∧
      ∀ entry ∈ history, LocksLeader Crypto.toy entry.2.1 entry.1 entry.2.2 := by
  intro calls s history
  have keeps : ∀ entry ∈ history, KeepsLeader Crypto.toy entry.2.1 entry.1 entry.2.2 := by
    intro entry member
    have cases : entry ∈ [_, _, _, _] := member
    simp only [List.mem_cons, List.not_mem_nil, or_false] at cases
    rcases cases with rfl | rfl | rfl | rfl
    · refine ⟨.of_other (by decide +kernel) rfl rfl, ?_, ?_⟩
      · intro proposal number hash block call
        cases call
      · intro b call
        cases call
        exact Or.inr (Or.inr (by decide +kernel))
    · refine KeepsProposal.of_message ⟨by decide +kernel, ?_, ?_, ?_⟩
      · intro req self offer enters live
        cases offer
        decide +kernel
      · intro number hash block call
        cases call
      · intro proposal number hash block call
        cases call
    · exact KeepsProposal.of_message (.of_other (by decide +kernel) rfl rfl)
    · exact KeepsProposal.of_message (.of_other (by decide +kernel) rfl rfl)
  obtain ⟨justified, led, -⟩ := lock_is_validated Crypto.toy (Ctx.quiet (.consecutive 4 0))
    { sec := 2, pub := 2, viewTimeout := 3000 } calls keeps
  exact ⟨by decide +kernel, justified, led⟩

/-- Another block 1 is reported while the proposal of leader 0 is prepared; it is locked at height
2, whose leader is node 1. -/
example :
    let calls := fromGenesis (.consecutive 4 0) [.prepare (toyPrepare 0 1 0 7)] ++
      (Ctx.executing (.consecutive 4 0), .reportBlock { number := 1, hash := 9, timestamp := 2 }) ::
      [.sign (toyVote 0 0 1 0 8), .sign (toyVote 2 0 1 0 8)].map fun packet =>
        (Ctx.executing (.consecutive 4 0), .handleMsg 0 packet)
    let s := Node.run Crypto.toy (toyNode (.consecutive 4 0)) calls
    s.committedPrepareCache = toyPrepare 0 1 0 7 ∧ s.getLeader = some 1 := by
  decide +kernel

/-- After a valid proposal of the leader, one of miner 3, who is not the leader, replaces it in
the raw cache and is locked when the signatures for the first are complete. -/
theorem refused_proposal_locked :
    let calls := fromGenesis (.consecutive 4 0) [.prepare (toyPrepare 0 1 0 7),
      .prepare (toyPrepare 3 1 0 9), .sign (toyVote 0 0 1 0 8), .sign (toyVote 2 0 1 0 8)]
    let history := Node.trace Crypto.toy (toyNode (.consecutive 4 0)) calls
    let s := Node.run Crypto.toy (toyNode (.consecutive 4 0)) calls
    s.committedPrepareCache = toyPrepare 3 1 0 9 ∧ s.getLeader = some 0 ∧
      s.prepareCache.blockHash = 8 ∧
      Effect.locked (toyPrepare 3 1 0 9) s.prepareCache ∈ s.log ∧
      ¬ Justified Crypto.toy history s.log (toyPrepare 3 1 0 9) s.prepareCache := by
  intro calls history s
  refine ⟨by decide +kernel, by decide +kernel, by decide +kernel, by decide +kernel, ?_⟩
  rintro (⟨s', ctx, event, self, hash, block, member, offer, valid, -⟩ | ⟨sent, -⟩)
  · have leaders : ∀ entry ∈ history, entry.1.getLeader ≠ some (toyPrepare 3 1 0 9).idx := by
      decide +kernel
    exact leaders _ member valid.leader
  · have unsent : Effect.sent (.prepare (toyPrepare 3 1 0 9)) ∉ s.log := by decide +kernel
    exact unsent sent

end UtispaceChain
