import UtispaceChain.Lib.Quorum
import UtispaceChain.PbftSeal.Network

/-! Agreement: honest nodes do not seal different blocks at one height.

A node that has sent a commit stays locked on its proposal until the height passes, so it
commits one block at a height; two quorums of committers share an honest one. -/

namespace UtispaceChain

open Lib

variable {C : Crypto} {D : Deployment} {w : Network} {i : Nat} {ctx : Ctx} {event : Event}
    {c d : Core}

/-- The raw proposal executes to the prepared block, at the height of both; once the node has
committed anything, the proposal does not go back behind the lock or against it. -/
structure Prepared (D : Deployment) (c : Core) : Prop where
  height : c.rawPrepareCache.height = c.prepareCache.height
  executed : c.prepareCache.blockHash = D.exec c.rawPrepareCache.blockHash
  number : D.numberOf c.rawPrepareCache.blockHash = c.rawPrepareCache.height
  bound : c.rawPrepareCache.height ≤ c.consensusBlockNumber
  lock : ∀ req, Effect.sent (.commit req) ∈ c.log →
    c.committedPrepareCache.height ≤ c.rawPrepareCache.height ∧
    (c.committedPrepareCache.height = c.rawPrepareCache.height →
      c.committedPrepareCache.blockHash = c.rawPrepareCache.blockHash)

structure CommitInv (D : Deployment) (c : Core) : Prop where
  live : c.Live → Prepared D c
  views : c.prepareCache.view = Invalid256 ∨ c.prepareCache.view = c.view ∨
    (c.view = 0 ∧ c.prepareCache.view ≠ 0)
  lock : ∀ req, Effect.sent (.commit req) ∈ c.log → req.height ≤ c.committedPrepareCache.height ∧
    c.committedPrepareCache.height ≤ c.consensusBlockNumber ∧
    (req.height = c.committedPrepareCache.height →
      req.blockHash = D.exec c.committedPrepareCache.blockHash)
  number : ∀ req, Effect.sent (.commit req) ∈ c.log → D.numberOf req.blockHash = req.height
  once : ∀ req other, Effect.sent (.commit req) ∈ c.log → Effect.sent (.commit other) ∈ c.log →
    req.height = other.height → req.blockHash = other.blockHash
  seals : ∀ height hash block ours, Effect.onSealGenerated height hash block ours ∈ c.log →
    D.numberOf hash = height

theorem CommitInv.kept (inv : CommitInv D c) (effects : List Effect)
    (log : d.log = effects ++ c.log) (lock : d.committedPrepareCache = c.committedPrepareCache)
    (height : c.consensusBlockNumber ≤ d.consensusBlockNumber)
    (noCommit : ∀ req, Effect.sent (.commit req) ∉ effects)
    (noSeal : ∀ height hash block ours, Effect.onSealGenerated height hash block ours ∉ effects)
    (live : d.Live → Prepared D d)
    (views : d.prepareCache.view = Invalid256 ∨ d.prepareCache.view = d.view ∨
      (d.view = 0 ∧ d.prepareCache.view ≠ 0)) : CommitInv D d := by
  have old : ∀ req, Effect.sent (.commit req) ∈ d.log → Effect.sent (.commit req) ∈ c.log := by
    intro req member
    rw [log] at member
    exact (List.mem_append.mp member).resolve_left (noCommit req)
  refine ⟨live, views, ?_, ?_, ?_, ?_⟩
  · intro req member
    obtain ⟨below, bound, same⟩ := inv.lock req (old req member)
    rw [lock]
    exact ⟨below, bound.trans height, same⟩
  · exact fun req member => inv.number req (old req member)
  · exact fun req other first second => inv.once req other (old req first) (old other second)
  · intro height hash block ours member
    rw [log] at member
    exact inv.seals height hash block ours
      ((List.mem_append.mp member).resolve_left (noSeal height hash block ours))

theorem Prepared.kept (prepared : Prepared D c) (effects : List Effect)
    (log : d.log = effects ++ c.log) (noCommit : ∀ req, Effect.sent (.commit req) ∉ effects)
    (raw : d.rawPrepareCache = c.rawPrepareCache) (prepare : d.prepareCache = c.prepareCache)
    (lock : d.committedPrepareCache = c.committedPrepareCache)
    (height : c.consensusBlockNumber ≤ d.consensusBlockNumber) : Prepared D d := by
  refine ⟨?_, ?_, ?_, ?_, ?_⟩
  · rw [raw, prepare]
    exact prepared.height
  · rw [raw, prepare]
    exact prepared.executed
  · rw [raw]
    exact prepared.number
  · rw [raw]
    exact prepared.bound.trans height
  · intro req member
    rw [log] at member
    rw [raw, lock]
    exact prepared.lock req ((List.mem_append.mp member).resolve_left (noCommit req))

theorem CommitInv.logged (inv : CommitInv D c) (effects : List Effect)
    (log : d.log = effects ++ c.log) (noCommit : ∀ req, Effect.sent (.commit req) ∉ effects)
    (noSeal : ∀ height hash block ours, Effect.onSealGenerated height hash block ours ∉ effects)
    (raw : d.rawPrepareCache = c.rawPrepareCache) (prepare : d.prepareCache = c.prepareCache)
    (lock : d.committedPrepareCache = c.committedPrepareCache) (view : d.view = c.view)
    (height : c.consensusBlockNumber = d.consensusBlockNumber) : CommitInv D d := by
  refine inv.kept effects log lock height.le noCommit noSeal ?_ ?_
  · intro live
    have before : c.Live := by
      unfold Core.Live at live ⊢
      rw [← prepare, ← view]
      exact live
    exact (inv.live before).kept effects log noCommit raw prepare lock height.le
  · rw [prepare, view]
    exact inv.views

theorem CommitInv.cleared (inv : CommitInv D c) (log : d.log = c.log)
    (lock : d.committedPrepareCache = c.committedPrepareCache)
    (height : c.consensusBlockNumber = d.consensusBlockNumber)
    (cleared : d.prepareCache.view = Invalid256) : CommitInv D d := by
  refine inv.kept [] log lock height.le (by simp) (by simp) ?_ (Or.inl cleared)
  intro live
  exact absurd (live.1.symm.trans cleared) live.2

theorem Environment.validated (environment : Environment C D w i ctx event) {req : PrepareReq}
    {self : Bool} {hash : H256} {block : Bytes} (enters : (w i).Enters req self)
    (valid : (w i).validated C ctx req = some (hash, block)) :
    hash = D.exec req.blockHash ∧ D.numberOf req.blockHash = req.height ∧
      (req.height = (w i).committedPrepareCache.height →
        req.blockHash = (w i).committedPrepareCache.blockHash) := by
  obtain ⟨height, -, -, lock, -, outBlock, found, info, resealed⟩ :=
    FullyValidated.of_validated enters valid
  exact ⟨environment.deterministic _ _ _ _ _ found info resealed,
    (environment.valid _ _ _ found info).trans height.symm, lock⟩

theorem CommitInv.locked (inv : CommitInv D c) (live : c.Live) : CommitInv D c.locked := by
  have prepared := inv.live live
  have old : ∀ req, Effect.sent (.commit req) ∈ c.locked.log →
      Effect.sent (.commit req) ∈ c.log := by
    intro req member
    simpa [Core.locked, Core.emit] using member
  refine ⟨fun _ => ⟨prepared.height, prepared.executed, prepared.number, prepared.bound,
    fun _ _ => ⟨le_refl _, fun _ => rfl⟩⟩, inv.views, ?_, ?_, ?_, ?_⟩
  · intro req member
    obtain ⟨below, -, same⟩ := inv.lock req (old req member)
    obtain ⟨behind, agrees⟩ := prepared.lock req (old req member)
    refine ⟨below.trans behind, prepared.bound, ?_⟩
    intro equal
    -- the old lock lies between the commit and the proposal, which are of one height
    have first : req.height = c.committedPrepareCache.height := le_antisymm below (equal ▸ behind)
    have second : c.committedPrepareCache.height = c.rawPrepareCache.height :=
      first.symm.trans equal
    rw [same first, agrees second]
    rfl
  · exact fun req member => inv.number req (old req member)
  · exact fun req other first second => inv.once req other (old req first) (old other second)
  · intro height hash block ours member
    exact inv.seals height hash block ours (by simpa [Core.locked, Core.emit] using member)

theorem CommitInv.committed (valid : D.Valid) (inv : CommitInv D c) (live : c.Live)
    (lock : c.committedPrepareCache = c.rawPrepareCache) :
    CommitInv D (c.broadcastCommitReq C ctx c.prepareCache) := by
  have prepared := inv.live live
  rw [Core.broadcastCommitReq_eq]
  cases ctx.host with
  | false =>
      exact inv.logged [.signed _] rfl (by simp) (by simp) rfl rfl rfl rfl rfl
  | true =>
      let vote := c.ownVote C ctx c.prepareCache
      have height : vote.height = c.committedPrepareCache.height := by
        rw [lock]
        exact prepared.height.symm
      have hash : vote.blockHash = D.exec c.committedPrepareCache.blockHash := by
        rw [lock]
        exact prepared.executed
      have cases : ∀ req, Effect.sent (.commit req) ∈
          ([.sent (.commit vote)] ++ .signed (.commit vote) :: c.log : List Effect) →
          req = vote ∨ Effect.sent (.commit req) ∈ c.log := by
        intro req member
        simpa using member
      refine ⟨fun _ => ⟨prepared.height, prepared.executed, prepared.number, prepared.bound,
        fun _ _ => ⟨(congrArg (fun p : PrepareReq => p.height) lock).le,
          fun _ => congrArg (fun p : PrepareReq => p.blockHash) lock⟩⟩, inv.views, ?_, ?_, ?_, ?_⟩
      · intro req member
        rcases cases req member with rfl | old
        · exact ⟨height.le, by rw [lock]; exact prepared.bound, fun _ => hash⟩
        · exact inv.lock req old
      · intro req member
        rcases cases req member with rfl | old
        · rw [hash, valid.number, lock, prepared.number]
          exact prepared.height
        · exact inv.number req old
      · intro req other first second same
        rcases cases req first with rfl | old <;> rcases cases other second with rfl | older
        · rfl
        · exact hash.trans ((inv.lock other older).2.2 (same.symm.trans height)).symm
        · exact ((inv.lock req old).2.2 (same.trans height)).trans hash.symm
        · exact inv.once req other old older same
      · intro height hash block ours member
        exact inv.seals height hash block ours (by simpa using member)

theorem CommitInv.save (valid : D.Valid) (inv : CommitInv D c) (current : c.view ≠ Invalid256) :
    CommitInv D c.checkAndSave := by
  rcases c.checkAndSave_cases with same | ⟨-, -, view, -, block, sealed⟩
  · rw [same]
    exact inv
  rw [sealed]
  have prepared := inv.live ⟨view, current⟩
  have kept : Prepared D c → Prepared D (c.emit (.onSealGenerated c.prepareCache.height
      c.prepareCache.blockHash block (decide (c.prepareCache.idx = c.nodeIdx)))) := fun prepared =>
    prepared.kept [_] rfl (by simp) rfl rfl rfl (le_refl _)
  have old : ∀ req, Effect.sent (.commit req) ∈ Effect.onSealGenerated c.prepareCache.height
      c.prepareCache.blockHash block (decide (c.prepareCache.idx = c.nodeIdx)) :: c.log →
      Effect.sent (.commit req) ∈ c.log := by
    intro req member
    simpa using member
  refine ⟨fun live => kept (inv.live live), inv.views,
    fun req member => inv.lock req (old req member), fun req member =>
      inv.number req (old req member), fun req other first second =>
        inv.once req other (old req first) (old other second), ?_⟩
  intro height hash block ours member
  rcases List.mem_cons.mp member with same | before
  · cases same
    rw [prepared.executed, valid.number, prepared.number, prepared.height]
  · exact inv.seals height hash block ours before

theorem CommitInv.move (valid : D.Valid) (environment : Environment C D w i ctx event)
    (sound : Sound C D w i ctx event) (inv : CommitInv D c) (move : Micro C ctx (w i) event c d) :
    CommitInv D d := by
  have keeps := sound.proposal
  cases move with
  | reject _ req self offer enters refused atStart =>
      refine inv.kept [] rfl rfl (le_refl _) (by simp) (by simp) ?_ inv.views
      intro live
      exact absurd refused (keeps.refused req self offer enters (atStart.live live))
  | accept _ req self hash block offer enters accepted atStart =>
      obtain ⟨executed, number, fits⟩ := environment.validated enters accepted
      have height : req.height = c.consensusBlockNumber := by
        rw [atStart]
        exact enters.height
      have lock : c.committedPrepareCache = (w i).committedPrepareCache := by rw [atStart]
      refine inv.kept [.signed _] rfl rfl (le_refl _) (by simp) (by simp) ?_ (Or.inr (Or.inl ?_))
      · intro _
        refine ⟨rfl, executed, number, height.le, ?_⟩
        intro other member
        have old : Effect.sent (.commit other) ∈ c.log := by
          simpa [Core.prepared, Core.signAndPrepare, Core.addPrepareReq, Core.addRawPrepare,
            Core.emit] using member
        refine ⟨(inv.lock other old).2.1.trans height.ge, ?_⟩
        intro same
        have same' : req.height = (w i).committedPrepareCache.height := by
          rw [← lock]
          exact same.symm
        exact (congrArg (fun p : PrepareReq => p.blockHash) lock).trans (fits same').symm
      · rw [atStart]
        exact enters.view
  | propose number hash block call =>
      rw [Core.broadcastPrepareReq_eq]
      cases host : ctx.host with
      | false => exact inv.logged [.signed _] rfl (by simp) (by simp) rfl rfl rfl rfl rfl
      | true =>
          refine inv.kept [.sent (.prepare _), .signed _] rfl rfl (le_refl _) (by simp) (by simp) ?_
            inv.views
          intro live
          exact absurd live (keeps.proposed number hash block call host)
  | prepareOwn proposal number hash block call =>
      obtain ⟨raw, -⟩ := keeps.committed proposal number hash block call
      obtain ⟨executed, numbered⟩ := environment.generated proposal number hash block call
      obtain ⟨rawHeight, height, fits⟩ := sound.committed proposal number hash block call
      refine inv.kept [.signed _] rfl rfl (le_refl _) (by simp) (by simp) ?_ (Or.inr (Or.inl rfl))
      intro _
      refine ⟨rawHeight.symm, ?_, ?_, (rawHeight.symm.trans height).le, ?_⟩
      · exact executed.trans (congrArg D.exec raw.symm)
      · show D.numberOf (w i).rawPrepareCache.blockHash = (w i).rawPrepareCache.height
        rw [raw, numbered, rawHeight]
      · intro other member
        have old : Effect.sent (.commit other) ∈ (w i).log := by
          simpa [Core.signAndPrepare, Core.addPrepareReq, Core.emit] using member
        refine ⟨((inv.lock other old).2.1.trans height.ge).trans rawHeight.le, ?_⟩
        intro same
        exact (fits (rawHeight.trans same.symm)).symm.trans raw.symm
  | voteSign =>
      rw [Core.broadcastSignReq_eq]
      cases ctx.host with
      | false => exact inv.logged [.signed _] rfl (by simp) (by simp) rfl rfl rfl rfl rfl
      | true =>
          exact inv.logged [.sent (.sign _), .signed _] rfl (by simp) (by simp) rfl rfl rfl rfl rfl
  | lock _ reached current sameView => exact inv.locked ⟨current, sameView ▸ keeps.view⟩
  | voteCommit _ current sameView lock =>
      exact inv.committed valid ⟨current, sameView ▸ keeps.view⟩ lock
  | save _ sameView => exact inv.save valid (sameView ▸ keeps.view)
  | changeView => exact inv.cleared rfl rfl rfl rfl
  | advance _ b call newer =>
      have later : c.consensusBlockNumber ≤ u256Add b.number 1 := by
        have small := environment.reported b call
        unfold Invalid256 at small
        unfold u256Add
        omega
      refine inv.kept [] rfl rfl later (by simp) (by simp) ?_ ?_
      · intro live
        have zero : c.prepareCache.view = 0 := live.1
        have before : c.Live := by
          rcases inv.views with invalid | same | ⟨-, other⟩
          · rw [zero] at invalid
            cases invalid
          · exact ⟨same, by rw [← same, zero]; decide⟩
          · exact absurd zero other
        exact (inv.live before).kept [] rfl (by simp) rfl rfl rfl later
      · by_cases zero : c.prepareCache.view = 0
        · exact Or.inr (Or.inl zero)
        · exact Or.inr (Or.inr ⟨rfl, zero⟩)
  | reconfigure => exact inv.cleared rfl rfl rfl rfl
  | forget _ hash =>
      by_cases same : hash = c.prepareCache.blockHash
      · refine inv.cleared rfl rfl rfl ?_
        simp [Core.delCache, same, PrepareReq.clear]
      · have kept : (c.delCache hash).prepareCache = c.prepareCache := if_neg same
        exact inv.logged [] rfl (by simp) (by simp) rfl kept rfl rfl rfl
  | sign _ packet => exact inv.logged [.signed packet] rfl (by simp) (by simp) rfl rfl rfl rfl rfl
  | send _ packet other =>
      refine inv.logged [.sent packet] rfl ?_ (by simp) rfl rfl rfl rfl rfl
      intro req
      simpa using fun same => other req same.symm
  | callback => exact inv.logged [.onViewChange] rfl (by simp) (by simp) rfl rfl rfl rfl rfl
  | _ => exact inv.logged [] rfl (by simp) (by simp) rfl rfl rfl rfl rfl

theorem Micro.commit_entry {s : Node} (move : Micro C ctx s event c d) (m : PBFTMsg)
    (member : m ∈ d.commitCache.entries) :
    m ∈ c.commitCache.entries ∨
    (c = s.toCore ∧ (∃ sender, event = .handleMsg sender (.commit m)) ∧ m.idx ≠ s.nodeIdx ∧
      Node.checkSign C ctx m = true) ∨
    (m = c.ownVote C ctx c.prepareCache ∧ Effect.sent (.commit m) ∈ d.log ∧ s.isMiner = true) := by
  cases move with
  | storeCommit sender req call fresh foreign signed =>
      rcases (KeyedTable.mem_insert _ req m).mp member with rfl | ⟨old, -⟩
      · exact Or.inr (Or.inl ⟨rfl, ⟨sender, call⟩, foreign, signed⟩)
      · exact Or.inl old
  | voteCommit _ current sameView lock logged miner =>
      rw [Core.broadcastCommitReq_eq] at member ⊢
      cases host : ctx.host with
      | false =>
          rw [host] at member
          exact Or.inl member
      | true =>
          rw [host] at member
          rcases (KeyedTable.mem_insert _ _ m).mp member with rfl | ⟨old, -⟩
          · exact Or.inr (Or.inr ⟨rfl, by simp, miner⟩)
          · exact Or.inl old
  | accept => exact Or.inl ((KeyedTable.mem_keep _ _ m).mp member).1
  | prepareOwn => exact Or.inl ((KeyedTable.mem_keep _ _ m).mp member).1
  | forget => exact Or.inl ((KeyedTable.mem_keep _ _ m).mp member).1
  | collect => exact Or.inl ((KeyedTable.mem_keep _ _ m).mp member).1
  | propose =>
      rw [Core.broadcastPrepareReq_eq] at member
      exact Or.inl member
  | voteSign =>
      rw [Core.broadcastSignReq_eq] at member
      exact Or.inl member
  | save =>
      rcases c.checkAndSave_cases with same | ⟨-, -, -, -, block, sealed⟩
      · rw [same] at member
        exact Or.inl member
      · rw [sealed] at member
        exact Or.inl member
  | changeView => cases member
  | _ => exact Or.inl member

theorem Micro.seal_entry {s : Node} (move : Micro C ctx s event c d) (height : Nat) (hash : H256)
    (block : Bytes) (ours : Bool) (member : Effect.onSealGenerated height hash block ours ∈ d.log) :
    Effect.onSealGenerated height hash block ours ∈ c.log ∨ c.haveCommit hash = c.quorum := by
  cases move with
  | save =>
      rcases c.checkAndSave_cases with same | ⟨-, reached, -, -, block, sealed⟩
      · rw [same] at member
        exact Or.inl member
      · rw [sealed] at member
        rcases List.mem_cons.mp member with new | old
        · cases new
          exact Or.inr reached
        · exact Or.inl old
  | propose =>
      rw [Core.broadcastPrepareReq_eq] at member
      exact Or.inl (by cases ctx.host <;> simpa using member)
  | voteSign =>
      rw [Core.broadcastSignReq_eq] at member
      exact Or.inl (by cases ctx.host <;> simpa using member)
  | voteCommit =>
      rw [Core.broadcastCommitReq_eq] at member
      exact Or.inl (by cases ctx.host <;> simpa using member)
  | accept => exact Or.inl ((List.mem_cons.mp member).resolve_left (by simp))
  | prepareOwn => exact Or.inl ((List.mem_cons.mp member).resolve_left (by simp))
  | lock => exact Or.inl ((List.mem_cons.mp member).resolve_left (by simp))
  | sign => exact Or.inl ((List.mem_cons.mp member).resolve_left (by simp))
  | send => exact Or.inl ((List.mem_cons.mp member).resolve_left (by simp))
  | callback => exact Or.inl ((List.mem_cons.mp member).resolve_left (by simp))
  | _ => exact Or.inl member

/-- A quorum of miners stands behind the block: the honest ones among them have committed it. -/
def Certified (D : Deployment) (logs : Nat → List Effect) (hash : H256) : Prop :=
  ∃ certifiers : Finset Nat, quorumSize D.nodes.getMinerNum ≤ certifiers.card ∧
    ∀ k ∈ certifiers, D.nodes.MinerAt k ∧ (k ∈ D.honest → CommitSent (logs k) hash)

/-- The commit cache of a node, against the logs of all nodes. -/
structure Counted (C : Crypto) (D : Deployment) (logs : Nat → List Effect) (c : Core) : Prop where
  once : OneVote c.commitCache
  own : OwnVotes C c.sec c.nodeIdx c.commitCache
  miner : ∀ m ∈ c.commitCache.entries, D.nodes.MinerAt m.idx
  genuine : ∀ m ∈ c.commitCache.entries, m.idx ∈ D.honest → CommitSent (logs m.idx) m.blockHash
  seals : ∀ height hash block ours, Effect.onSealGenerated height hash block ours ∈ c.log →
    Certified D logs hash

theorem Certified.mono {logs more : Nat → List Effect} {hash : H256}
    (certified : Certified D logs hash) (grown : ∀ k, ∀ effect ∈ logs k, effect ∈ more k) :
    Certified D more hash := by
  obtain ⟨certifiers, size, each⟩ := certified
  exact ⟨certifiers, size, fun k member =>
    ⟨(each k member).1, fun honest => ((each k member).2 honest).mono (grown k)⟩⟩

theorem Counted.mono {logs more : Nat → List Effect} (counted : Counted C D logs c)
    (grown : ∀ k, ∀ effect ∈ logs k, effect ∈ more k) : Counted C D more c :=
  ⟨counted.once, counted.own, counted.miner,
    fun m member honest => (counted.genuine m member honest).mono (grown m.idx),
    fun height hash block ours member => (counted.seals height hash block ours member).mono grown⟩

theorem Counted.certified {logs : Nat → List Effect} (counted : Counted C D logs c) (hash : H256)
    (reached : c.haveCommit hash = quorumSize D.nodes.getMinerNum) : Certified D logs hash := by
  refine ⟨voters c.commitCache hash, ?_, ?_⟩
  · rw [(counted.once.distinct hash).card hash]
    exact reached.ge
  · intro k member
    obtain ⟨m, inside, idx⟩ := List.mem_map.mp (List.mem_toFinset.mp member)
    obtain ⟨cached, same⟩ := List.mem_filter.mp inside
    have same : m.blockHash = hash := of_decide_eq_true same
    rw [← idx, ← same]
    exact ⟨counted.miner m cached, counted.genuine m cached⟩

structure Member (C : Crypto) (D : Deployment) (logs : Nat → List Effect) (i : Nat) (c : Core) :
    Prop where
  config : Configured D.nodes c
  idx : c.nodeIdx = i
  num : c.nodeNum = D.nodes.getMinerNum
  commits : CommitInv D c
  counted : Counted C D logs c

theorem Member.quorum {logs : Nat → List Effect} (member : Member C D logs i c) :
    c.quorum = quorumSize D.nodes.getMinerNum := by
  rw [Core.quorum, member.config.faults, member.num]
  rfl

theorem Node.Registered.minerAt {s : Node} (registered : s.Registered D.nodes)
    (key : D.nodes.getPublicKey i = some s.pub) (miner : s.isMiner = true) : D.nodes.MinerAt i := by
  obtain ⟨node, atIdx, found, -⟩ := D.nodes.find_getPublicKey i s.pub key
  refine ⟨node, atIdx, ?_⟩
  have type : node.identityType = s.accountType := by
    simpa [Node.Registered, NodeTable.getAccountType, found] using registered
  rw [NodeConnParams.isMiner, type]
  exact miner

/-- The logs of all nodes, with the one of node `i` as far as its call has come. -/
def logsWith (w : Network) (i : Nat) (c : Core) : Nat → List Effect :=
  Function.update (fun k => (w k).log) i c.log

theorem logsWith_grows (move : Micro C ctx (w i) event c d) (k : Nat) (effect : Effect)
    (member : effect ∈ logsWith w i c k) : effect ∈ logsWith w i d k := by
  obtain ⟨effects, log⟩ := move.log_grows
  by_cases own : k = i
  · subst own
    simp only [logsWith, Function.update_self] at member ⊢
    rw [log]
    exact List.mem_append_right _ member
  · simp only [logsWith, Function.update_of_ne own] at member ⊢
    exact member

theorem Counted.move (environment : Environment C D w i ctx event) (sound : Sound C D w i ctx event)
    (inv : Counted C D (logsWith w i c) c) (config : Configured D.nodes c) (index : c.nodeIdx = i)
    (start : (w i).nodeIdx = i) (miner : (w i).isMiner = true → D.nodes.MinerAt i)
    (quorum : c.quorum = quorumSize D.nodes.getMinerNum) (move : Micro C ctx (w i) event c d) :
    Counted C D (logsWith w i d) d := by
  have before := inv.mono (logsWith_grows move)
  obtain ⟨-, sameIdx, -, -, sameSec⟩ := config.move environment.table move
  -- a commit of another node that enters the cache
  have received : ∀ m sender, event = .handleMsg sender (.commit m) → m.idx ≠ (w i).nodeIdx →
      Node.checkSign C ctx m = true →
      D.nodes.MinerAt m.idx ∧
      (m.idx ∈ D.honest → CommitSent (logsWith w i d m.idx) m.blockHash) := by
    intro m sender call foreign signed
    refine ⟨MinersOnly.stored environment.table m signed (sound.miner sender m call signed), ?_⟩
    intro honest
    have sent := sound.typed sender m call honest signed
      (environment.unforgeable sender (.commit m) call honest signed)
    rw [start] at foreign
    rw [logsWith, Function.update_of_ne foreign]
    exact sent
  have ownSig : ∀ m, m = c.ownVote C ctx c.prepareCache → m.idx = i ∧
      m.sig = C.sign c.sec m.blockHash := by
    rintro m rfl
    exact ⟨index, rfl⟩
  refine ⟨?_, ?_, ?_, ?_, ?_⟩
  · intro a aMember b bMember hash idx
    rcases move.commit_entry a aMember with
      aOld | ⟨rfl, ⟨sender, call⟩, foreign, signed⟩ | ⟨aOwn, -⟩
    · rcases move.commit_entry b bMember with
        bOld | ⟨rfl, ⟨sender, call⟩, foreign, signed⟩ | ⟨bOwn, -⟩
      · exact inv.once a aOld b bOld hash idx
      · exact sound.once sender b call signed a aOld hash idx
      · obtain ⟨bIdx, bSig⟩ := ownSig b bOwn
        rw [inv.own a aOld (idx.trans (bIdx.trans index.symm)), bSig, hash]
    · rcases move.commit_entry b bMember with bOld | ⟨-, ⟨other, call'⟩, -⟩ | ⟨bOwn, -⟩
      · exact (sound.once sender a call signed b bOld hash.symm idx.symm).symm
      · rw [call] at call'
        cases call'
        rfl
      · exact absurd (idx.trans ((ownSig b bOwn).1.trans start.symm)) foreign
    · obtain ⟨aIdx, aSig⟩ := ownSig a aOwn
      rcases move.commit_entry b bMember with
        bOld | ⟨rfl, ⟨sender, call⟩, foreign, signed⟩ | ⟨bOwn, -⟩
      · rw [inv.own b bOld (idx.symm.trans (aIdx.trans index.symm)), aSig, hash]
      · exact absurd (idx.symm.trans (aIdx.trans start.symm)) foreign
      · rw [aOwn, bOwn]
  · intro a member same
    rw [sameSec]
    rw [sameIdx] at same
    rcases move.commit_entry a member with old | ⟨-, -, foreign, -⟩ | ⟨own, -⟩
    · exact inv.own a old same
    · exact absurd (same.trans (index.trans start.symm)) foreign
    · exact (ownSig a own).2
  · intro m member
    rcases move.commit_entry m member with old | ⟨-, ⟨sender, call⟩, foreign, signed⟩
      | ⟨own, -, mining⟩
    · exact inv.miner m old
    · exact (received m sender call foreign signed).1
    · rw [(ownSig m own).1]
      exact miner mining
  · intro m member honest
    rcases move.commit_entry m member with old | ⟨-, ⟨sender, call⟩, foreign, signed⟩
      | ⟨own, sent, -⟩
    · exact before.genuine m old honest
    · exact (received m sender call foreign signed).2 honest
    · rw [(ownSig m own).1, logsWith, Function.update_self]
      exact ⟨m, sent, rfl⟩
  · intro height hash block ours member
    rcases move.seal_entry height hash block ours member with old | reached
    · exact before.seals height hash block ours old
    · exact before.certified hash (reached.trans quorum)

/-- Every honest node keeps its invariant, against the logs of all nodes. -/
structure Safe (C : Crypto) (D : Deployment) (w : Network) : Prop where
  registered : ∀ i ∈ D.honest, (w i).Registered D.nodes ∧ (w i).pub = (D.setup i).pub
  member : ∀ i ∈ D.honest, Member C D (fun k => (w k).log) i (w i).toCore

theorem Safe.step (valid : D.Valid) (safe : Safe C D w)
    (environment : Environment C D w i ctx event) (sound : Sound C D w i ctx event) :
    Safe C D (Deployment.next C w (i, ctx, event)) := by
  have honest := environment.honest
  obtain ⟨registered, pub⟩ := safe.registered i honest
  have start := safe.member i honest
  have miner : (w i).isMiner = true → D.nodes.MinerAt i :=
    registered.minerAt (pub ▸ valid.key i honest)
  have here : logsWith w i (w i).toCore = fun k => (w k).log :=
    Function.update_eq_self i fun k => (w k).log
  have moved : Member C D (logsWith w i ((w i).step C ctx event).toCore) i
        ((w i).step C ctx event).toCore ∧
        ∀ effect ∈ (w i).log, effect ∈ ((w i).step C ctx event).log := by
    refine moves_invariant (fun c => Member C D (logsWith w i c) i c ∧
      ∀ effect ∈ (w i).log, effect ∈ c.log)
      Node.step_moves ⟨here ▸ start, fun _ h => h⟩ ?_
    rintro c d ⟨before, grown⟩ move
    obtain ⟨config, sameIdx, sameNum, -, -⟩ := before.config.move environment.table move
    obtain ⟨effects, log⟩ := move.log_grows
    refine ⟨⟨config, sameIdx.trans before.idx, sameNum.trans before.num,
      before.commits.move valid environment sound move,
      before.counted.move environment sound before.config before.idx start.idx miner
        before.quorum move⟩, ?_⟩
    intro effect old
    rw [log]
    exact List.mem_append_right _ (grown effect old)
  obtain ⟨after, grown⟩ := moved
  have logs : (fun k => (Deployment.next C w (i, ctx, event) k).log) =
      logsWith w i ((w i).step C ctx event).toCore := by
    funext k
    by_cases own : k = i
    · subst own
      simp [Deployment.next, logsWith]
    · simp [Deployment.next, logsWith, own]
  refine ⟨?_, ?_⟩
  · intro k member
    by_cases own : k = i
    · subst own
      rw [Deployment.next, Function.update_self]
      exact ⟨registered.step environment.table, (Node.step_pub C ctx (w k) event).trans pub⟩
    · rw [Deployment.next, Function.update_of_ne own]
      exact safe.registered k member
  · intro k member
    rw [logs]
    by_cases own : k = i
    · subst own
      rw [Deployment.next, Function.update_self]
      exact after
    · rw [Deployment.next, Function.update_of_ne own]
      obtain ⟨config, idx, num, commits, counted⟩ := safe.member k member
      refine ⟨config, idx, num, commits, counted.mono ?_⟩
      intro j effect old
      by_cases moved : j = i
      · subst moved
        rw [logsWith, Function.update_self]
        exact grown effect old
      · rw [logsWith, Function.update_of_ne moved]
        exact old

theorem Node.initEnv_registered (ctx : Ctx) (setup : Node.Setup) (idx : Nat)
    (some_ : ctx.nodes.getMinerNum ≠ 0) (key : ctx.nodes.getPublicKey idx = some setup.pub) :
    (Node.initEnv ctx setup).Registered ctx.nodes ∧ (Node.initEnv ctx setup).pub = setup.pub ∧
      (Node.initEnv ctx setup).nodeIdx = idx ∧
      (Node.initEnv ctx setup).nodeNum = ctx.nodes.getMinerNum := by
  obtain ⟨node, -, found, index⟩ := ctx.nodes.find_getPublicKey idx setup.pub key
  have account : ctx.nodes.getAccountType setup.pub = some node.identityType := by
    simp [NodeTable.getAccountType, found]
  have own : ctx.nodes.getIdx setup.pub = some idx := by
    simp [NodeTable.getIdx, found, index]
  have pub : (Node.initEnv ctx setup).pub = setup.pub := by
    unfold Node.initEnv
    dsimp only [Node.onCore]
    rcases Node.resetConfig_cases _ with ⟨same, -⟩ | ⟨nodeIdx, -, -, -, result⟩
    · rw [same]
    · rw [result]
      rfl
  have type : (Node.initEnv ctx setup).accountType = node.identityType :=
    Node.resetConfig_account _ account
  obtain ⟨num, index⟩ := (Configured.initial setup).own.resolve_left some_ idx (pub ▸ own)
  exact ⟨by rw [Node.Registered, pub, type, account], pub, index.symm, num.symm⟩

theorem Safe.initial (C : Crypto) (valid : D.Valid) : Safe C D D.initial := by
  have some_ : D.nodes.getMinerNum ≠ 0 := Nat.ne_of_gt valid.miners
  have fields : ∀ i ∈ D.honest, (D.initial i).Registered D.nodes ∧
    (D.initial i).pub = (D.setup i).pub ∧
      (D.initial i).nodeIdx = i ∧ (D.initial i).nodeNum = D.nodes.getMinerNum := by
    intro i honest
    have table := valid.table i honest
    have key := valid.key i honest
    rw [← table] at some_ key ⊢
    exact Node.initEnv_registered (D.start i) (D.setup i) i some_ key
  refine ⟨fun i honest => ⟨(fields i honest).1, (fields i honest).2.1⟩, ?_⟩
  intro i honest
  obtain ⟨-, -, idx, num⟩ := fields i honest
  obtain ⟨cleared, -⟩ := Node.initEnv_prepare (D.start i) (D.setup i)
  obtain ⟨-, commits, -⟩ := Node.initEnv_caches (D.start i) (D.setup i)
  have quiet : ∀ effect, effect ∉ (D.initial i).log := by
    intro effect member
    rw [show (D.initial i).log = [] from Node.initEnv_log (D.start i) (D.setup i)] at member
    cases member
  have noVotes : (D.initial i).commitCache = KeyedTable.empty := commits
  refine ⟨valid.table i honest ▸ Configured.initial (D.setup i), idx, num, ?_, ?_⟩
  · exact ⟨fun live => absurd (live.1.symm.trans cleared) live.2, Or.inl cleared,
      fun req member => absurd member (quiet _), fun req member => absurd member (quiet _),
      fun req other member => absurd member (quiet _),
      fun height hash block ours member => absurd member (quiet _)⟩
  · refine ⟨?_, ?_, ?_, ?_, fun height hash block ours member => absurd member (quiet _)⟩
    · rw [noVotes]
      exact OneVote.empty
    · rw [noVotes]
      exact OwnVotes.empty
    · rw [noVotes]
      intro m member
      cases member
    · rw [noVotes]
      intro m member
      cases member

theorem Safe.certified_unique (valid : D.Valid) (safe : Safe C D w) (left right : H256)
    (height : D.numberOf left = D.numberOf right) (first : Certified D (fun k => (w k).log) left)
    (second : Certified D (fun k => (w k).log) right) : left = right := by
  obtain ⟨leftQuorum, leftSize, leftEach⟩ := first
  obtain ⟨rightQuorum, rightSize, rightEach⟩ := second
  obtain ⟨k, inLeft, inRight, notFaulty⟩ :=
    quorum_common_honest D.nodes.getMinerNum valid.miners leftQuorum
    rightQuorum D.faulty
    (fun k member => Finset.mem_range.mpr (valid.indices k (leftEach k member).1))
    (fun k member => Finset.mem_range.mpr (valid.indices k (rightEach k member).1))
    leftSize rightSize valid.few
  have honest : k ∈ D.honest := (valid.split k (leftEach k inLeft).1).resolve_right notFaulty
  obtain ⟨a, aSent, aHash⟩ := (leftEach k inLeft).2 honest
  obtain ⟨b, bSent, bHash⟩ := (rightEach k inRight).2 honest
  have commits := (safe.member k honest).commits
  have same : a.height = b.height := by
    rw [← commits.number a aSent, ← commits.number b bSent, aHash, bHash]
    exact height
  rw [← aHash, ← bHash]
  exact commits.once a b aSent bSent same

def sealedBlocks (log : List Effect) : List (Nat × H256) :=
  log.filterMap fun
    | .onSealGenerated height hash _ _ => some (height, hash)
    | _ => none

theorem mem_sealedBlocks (log : List Effect) (height : Nat) (hash : H256) :
    (height, hash) ∈ sealedBlocks log ↔
      ∃ block ours, Effect.onSealGenerated height hash block ours ∈ log := by
  unfold sealedBlocks
  rw [List.mem_filterMap]
  constructor
  · rintro ⟨effect, member, shape⟩
    cases effect <;> cases shape
    exact ⟨_, _, member⟩
  · rintro ⟨block, ours, member⟩
    exact ⟨_, member, rfl⟩

section Toy

def toyDeployment : Deployment where
  nodes := .consecutive 4 0
  setup i := { sec := i + 1, pub := i + 1, viewTimeout := 3000 }
  start _ := Ctx.quiet (.consecutive 4 0)
  honest := {1, 2, 3}
  faulty := {0}
  exec hash := hash + 1
  numberOf _ := 1

theorem toyDeployment_valid : toyDeployment.Valid := by
  have below : ∀ i, toyDeployment.nodes.MinerAt i → i < 4 := by
    rintro i ⟨node, found, -⟩
    have member : node ∈ toyDeployment.nodes.entries := List.mem_of_find?_eq_some found
    have idx : node.idx = i := by simpa using List.find?_some found
    have bound : ∀ node ∈ toyDeployment.nodes.entries, node.idx < 4 := by decide
    rw [← idx]
    exact bound node member
  refine ⟨by decide, below, ?_, by decide, by decide, fun _ _ => rfl, fun _ => rfl⟩
  intro i miner
  have small := below i miner
  interval_cases i <;> decide

def toySurroundings : Event → Ctx
  | .reportBlock _ => Ctx.quiet (.consecutive 4 0)
  | _ => Ctx.executing (.consecutive 4 0)

def toyCalls (events : List (Nat × Event)) : List (Nat × Ctx × Event) :=
  events.map fun entry => (entry.1, toySurroundings entry.2, entry.2)

instance (log : List Effect) (hash : H256) : Decidable (CommitSent log hash) :=
  decidable_of_iff (∃ effect ∈ log, (match effect with
    | .sent (.commit req) => decide (req.blockHash = hash)
    | _ => false) = true) (by
      constructor
      · rintro ⟨effect, member, shape⟩
        split at shape
        · exact ⟨_, member, of_decide_eq_true shape⟩
        · cases shape
      · rintro ⟨req, member, same⟩
        exact ⟨_, member, decide_eq_true same⟩)

instance (C : Crypto) (log : List Effect) (hash : H256) : Decidable (HasSigned C log hash) :=
  inferInstanceAs (Decidable (∃ packet ∈ signedPackets log,
    hash = packet.msg.blockHash ∨ hash = packet.msg.fieldsWithoutBlock C))

def toyHeard (w : Network) (i : Nat) : Event → Prop
  | .reportBlock b => i ∈ toyDeployment.honest ∧ b.number = 0
  | .handleMsg _ packet => i ∈ toyDeployment.honest ∧ (w i).consensusBlockNumber = 1 ∧
      (packet.msg.idx ∈ toyDeployment.honest →
        HasSigned Crypto.toy (w packet.msg.idx).log packet.msg.blockHash)
  | _ => False

instance (w : Network) (i : Nat) (event : Event) : Decidable (toyHeard w i event) := by
  cases event <;> simp only [toyHeard] <;> infer_instance

theorem toyHeard_environment (w : Network) (i : Nat) (event : Event) (heard : toyHeard w i event) :
    Environment Crypto.toy toyDeployment w i (toySurroundings event) event := by
  cases event with
  | reportBlock b =>
      refine ⟨heard.1, rfl, ?_, ?_, ?_, ?_, ?_⟩
      · intro raw block outBlock hash executed found
        cases found
      · intro raw block outBlock found
        cases found
      · intro other same
        cases same
        rw [heard.2]
        decide
      · intro proposal number hash block same
        cases same
      · intro sender packet same
        cases same
  | handleMsg sender packet =>
      obtain ⟨honest, height, signed⟩ := heard
      refine ⟨honest, rfl, ?_, ?_, ?_, ?_, ?_⟩
      · intro raw block outBlock hash executed found info resealed
        cases found
        cases resealed
        rfl
      · intro raw block outBlock found info
        exact height.symm
      · intro other same
        cases same
      · intro proposal number hash block same
        cases same
      · intro other packet' same member accepted
        cases same
        exact signed member
  | _ => exact heard.elim

def toyClean (w : Network) (i : Nat) : Event → Prop
  | .handleMsg _ (.prepare req) => (w i).view ≠ Invalid256 ∧
      (w i).validated Crypto.toy (Ctx.executing (.consecutive 4 0)) req ≠ none
  | .handleMsg _ (.commit req) => (w i).view ≠ Invalid256 ∧
      (∀ a ∈ (w i).commitCache.entries, a.blockHash = req.blockHash → a.idx = req.idx →
        a.sig = req.sig) ∧
      (req.idx ∈ toyDeployment.honest → CommitSent (w req.idx).log req.blockHash)
  | .handleMsg _ _ => (w i).view ≠ Invalid256
  | .reportBlock _ => (w i).view ≠ Invalid256
  | _ => False

instance (w : Network) (i : Nat) (event : Event) : Decidable (toyClean w i event) := by
  unfold toyClean
  split <;> infer_instance

theorem toyClean_sound (w : Network) (i : Nat) (event : Event) (clean : toyClean w i event) :
    Sound Crypto.toy toyDeployment w i (toySurroundings event) event := by
  have miners : ∀ idx node, toyDeployment.nodes.atIdx idx = some node → node.isMiner = true := by
    intro idx node found
    have all : ∀ node ∈ toyDeployment.nodes.entries, node.isMiner = true := by decide
    exact all node (List.mem_of_find?_eq_some found)
  cases event with
  | reportBlock b =>
      refine ⟨.of_other clean rfl rfl, (by intro _ _ _ _ call; cases call), ?_, ?_, ?_⟩ <;>
        intro _ _ same <;> cases same
  | handleMsg sender packet =>
      cases packet with
      | prepare req =>
          obtain ⟨view, valid⟩ := clean
          have offered : ∀ other self, (w i).offered Crypto.toy (toySurroundings (.handleMsg sender
              (.prepare req))) (.handleMsg sender (.prepare req)) = some (other, self) →
              req = other := by
            intro other self offer
            cases offer
            rfl
          refine ⟨⟨view, fun other self offer _ _ => offered other self offer ▸ valid, ?_, ?_⟩, ?_,
            ?_, ?_, ?_⟩
          · intro _ _ _ same
            cases same
          · intro _ _ _ _ same
            cases same
          · intro _ _ _ _ same
            cases same
          all_goals
            intro _ _ same
            cases same
      | commit req =>
          obtain ⟨view, once, sent⟩ := clean
          refine ⟨.of_other view rfl rfl, (by intro _ _ _ _ call; cases call), ?_, ?_, ?_⟩
          · intro _ _ same _
            cases same
            exact once
          · exact fun _ _ _ _ node => miners _ node
          · intro _ _ same honest _ _
            cases same
            exact sent honest
      | sign req =>
          refine ⟨.of_other clean rfl rfl, (by intro _ _ _ _ call; cases call), ?_, ?_, ?_⟩ <;>
            intro _ _ same <;> cases same
      | viewChange req =>
          refine ⟨.of_other clean rfl rfl, (by intro _ _ _ _ call; cases call), ?_, ?_, ?_⟩ <;>
            intro _ _ same <;> cases same
  | _ => exact clean.elim

theorem toyCalls_context (events : List (Nat × Event)) (entry : Network × Nat × Ctx × Event)
    (member : entry ∈ toyDeployment.trace Crypto.toy (toyCalls events)) :
    entry.2.2.1 = toySurroundings entry.2.2.2 := by
  obtain ⟨call, -, same⟩ := List.mem_map.mp (trace_input _ _ _ entry member)
  rw [← same]

def toyGenesis : Event := .reportBlock { number := 0, hash := 5, timestamp := 1 }

def honestRound : List (Nat × Event) :=
  [(1, toyGenesis), (2, toyGenesis),
    (1, .handleMsg 0 (.prepare (toyPrepare 0 1 0 7))),
    (2, .handleMsg 0 (.prepare (toyPrepare 0 1 0 7))),
    (1, .handleMsg 0 (.sign (toyVote 0 0 1 0 8))), (1, .handleMsg 2 (.sign (toyVote 2 0 1 0 8))),
    (2, .handleMsg 0 (.sign (toyVote 0 0 1 0 8))), (2, .handleMsg 1 (.sign (toyVote 1 0 1 0 8))),
    (1, .handleMsg 0 (.commit (toyVote 0 0 1 0 8))),
    (1, .handleMsg 2 (.commit (toyVote 2 0 1 0 8))),
    (2, .handleMsg 0 (.commit (toyVote 0 0 1 0 8))),
    (2, .handleMsg 1 (.commit (toyVote 1 0 1 0 8)))]

def equivocation : List (Nat × Event) :=
  [(1, toyGenesis), (2, toyGenesis),
    (1, .handleMsg 0 (.prepare (toyPrepare 0 1 0 7))),
    (2, .handleMsg 0 (.prepare (toyPrepare 0 1 0 9))),
    (1, .handleMsg 0 (.sign (toyVote 0 0 1 0 8))), (1, .handleMsg 0 (.sign (toyVote 0 1 1 0 8))),
    (2, .handleMsg 0 (.sign (toyVote 0 0 1 0 10))), (2, .handleMsg 0 (.sign (toyVote 0 1 1 0 10))),
    (1, .handleMsg 0 (.commit (toyVote 0 0 1 0 8))),
    (1, .handleMsg 0 (.commit (toyVote 0 1 1 0 8))),
    (2, .handleMsg 0 (.commit (toyVote 0 0 1 0 10))),
    (2, .handleMsg 0 (.commit (toyVote 0 1 1 0 10)))]

end Toy

end UtispaceChain
