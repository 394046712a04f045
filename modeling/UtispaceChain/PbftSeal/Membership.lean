import UtispaceChain.PbftSeal.Votes

/-! Which nodes' votes are stored under a fixed node table.

The key lookup of `checkSign` ranges over miners and observers alike. -/

namespace UtispaceChain

open Lib

variable {C : Crypto} {ctx : Ctx} {s : Node} {event : Event} {c d : Core} {nodes : NodeTable}

/-- The configuration in use is the one `resetConfig` reads from the table. -/
structure Configured (nodes : NodeTable) (c : Core) : Prop where
  faults : c.f = (c.nodeNum - 1) / 3
  own : nodes.getMinerNum = 0 ∨ ∀ nodeIdx, nodes.getIdx c.pub = some nodeIdx →
    nodes.getMinerNum = c.nodeNum ∧ nodeIdx = c.nodeIdx

theorem Configured.initial (setup : Node.Setup) :
    Configured ctx.nodes (Node.initEnv ctx setup).toCore := by
  unfold Node.initEnv
  dsimp only [Node.onCore]
  rcases Node.resetConfig_cases _ with ⟨same, own⟩ | ⟨nodeIdx, -, found, -, result⟩
  · rw [same]
    exact ⟨by simp, own⟩
  · rw [result]
    refine ⟨rfl, Or.inr ?_⟩
    intro other again
    have same : some nodeIdx = some other := found.symm.trans again
    exact ⟨rfl, (Option.some.inj same).symm⟩

theorem Configured.move (table : ctx.nodes = nodes) (inv : Configured nodes c)
    (move : Micro C ctx s event c d) :
    Configured nodes d ∧ d.nodeIdx = c.nodeIdx ∧ d.nodeNum = c.nodeNum ∧ d.pub = c.pub ∧
      d.sec = c.sec := by
  have kept : ∀ e : Core, e.f = c.f → e.nodeNum = c.nodeNum → e.nodeIdx = c.nodeIdx →
      e.pub = c.pub → e.sec = c.sec → Configured nodes e ∧ e.nodeIdx = c.nodeIdx ∧
        e.nodeNum = c.nodeNum ∧ e.pub = c.pub ∧ e.sec = c.sec := by
    intro e f num idx pub sec
    refine ⟨⟨by rw [f, num]; exact inv.faults, ?_⟩, idx, num, pub, sec⟩
    rw [num, idx, pub]
    exact inv.own
  cases move with
  | propose =>
      rw [Core.broadcastPrepareReq_eq]
      exact kept _ rfl rfl rfl rfl rfl
  | voteSign =>
      rw [Core.broadcastSignReq_eq]
      exact kept _ rfl rfl rfl rfl rfl
  | voteCommit =>
      rw [Core.broadcastCommitReq_eq]
      exact kept _ rfl rfl rfl rfl rfl
  | save =>
      rcases c.checkAndSave_cases with same | ⟨-, -, -, -, block, sealed⟩
      · rw [same]
        exact kept c rfl rfl rfl rfl rfl
      · rw [sealed]
        exact kept _ rfl rfl rfl rfl rfl
  | reconfigure _ nodeIdx call miners found changed samePub =>
      rw [table] at miners found changed
      rcases inv.own with empty | own
      · exact absurd empty miners
      · obtain ⟨num, idx⟩ := own nodeIdx (samePub ▸ found)
        rcases changed with number | index
        · exact absurd num number
        · exact absurd idx index
  | _ => exact kept _ rfl rfl rfl rfl rfl

structure MinersOnly (nodes : NodeTable) (c : Core) : Prop where
  sign : ∀ m ∈ c.signCache.entries, m.idx ≠ c.nodeIdx → nodes.MinerAt m.idx
  commit : ∀ m ∈ c.commitCache.entries, m.idx ≠ c.nodeIdx → nodes.MinerAt m.idx
  viewChange : ∀ m ∈ c.recvViewChangeReq.entries, m.idx ≠ c.nodeIdx → nodes.MinerAt m.idx

/-- No vote that passes `checkSign` is under the index of a registered observer. -/
def NotFromObserver (C : Crypto) (nodes : NodeTable) (ctx : Ctx) : Event → Prop
  | .handleMsg _ (.prepare _) => True
  | .handleMsg _ packet => Node.checkSign C ctx packet.msg = true →
      ∀ node, nodes.atIdx packet.msg.idx = some node → node.isMiner = true
  | _ => True

theorem Node.checkSign_registered (req : PBFTMsg) (signed : Node.checkSign C ctx req = true) :
    ∃ node, ctx.nodes.atIdx req.idx = some node ∧
      C.verify node.nodeId req.sig req.blockHash = true ∧
      C.verify node.nodeId req.sig2 (req.fieldsWithoutBlock C) = true := by
  unfold Node.checkSign at signed
  cases found : ctx.nodes.atIdx req.idx with
  | none => simp [NodeTable.getPublicKey, found] at signed
  | some node =>
      simp only [NodeTable.getPublicKey, found, Option.map_some, Bool.and_eq_true] at signed
      exact ⟨node, rfl, signed.1, signed.2⟩

section Table

variable {κ : Type} [DecidableEq κ] {key : PBFTMsg → κ} {votes : KeyedTable PBFTMsg key}
  {own : Nat}

omit [DecidableEq κ] in
theorem minersOnly_keep (p : PBFTMsg → Bool)
    (miners : ∀ m ∈ votes.entries, m.idx ≠ own → nodes.MinerAt m.idx) :
    ∀ m ∈ (votes.keep p).entries, m.idx ≠ own → nodes.MinerAt m.idx := by
  intro m member
  exact miners m ((votes.mem_keep p m).mp member).1

theorem minersOnly_insert (req : PBFTMsg) (miner : req.idx ≠ own → nodes.MinerAt req.idx)
    (miners : ∀ m ∈ votes.entries, m.idx ≠ own → nodes.MinerAt m.idx) :
    ∀ m ∈ (votes.insert req).entries, m.idx ≠ own → nodes.MinerAt m.idx := by
  intro m member
  rcases (votes.mem_insert req m).mp member with rfl | ⟨old, -⟩
  · exact miner
  · exact miners m old

end Table

theorem MinersOnly.stored (table : ctx.nodes = nodes) (req : PBFTMsg)
    (signed : Node.checkSign C ctx req = true)
    (miner : ∀ node, nodes.atIdx req.idx = some node → node.isMiner = true) :
    nodes.MinerAt req.idx := by
  obtain ⟨node, found, -⟩ := Node.checkSign_registered req signed
  rw [table] at found
  exact ⟨node, found, miner node found⟩

theorem MinersOnly.move (table : ctx.nodes = nodes) (config : Configured nodes c)
    (miner : NotFromObserver C nodes ctx event) (inv : MinersOnly nodes c)
    (move : Micro C ctx s event c d) : MinersOnly nodes d := by
  have fixed := (config.move table move).2.1
  cases move with
  | storeSign sender req call fresh foreign signed =>
      subst call
      exact ⟨minersOnly_insert req (fun _ => stored table req signed (miner signed)) inv.sign,
        inv.commit, inv.viewChange⟩
  | storeCommit sender req call fresh foreign signed =>
      subst call
      exact ⟨inv.sign,
        minersOnly_insert req (fun _ => stored table req signed (miner signed)) inv.commit,
        inv.viewChange⟩
  | storeViewChange _ sender req call start foreign signed =>
      subst call
      exact ⟨inv.sign, inv.commit,
        minersOnly_insert req (fun _ => stored table req signed (miner signed)) inv.viewChange⟩
  | accept => exact ⟨minersOnly_keep _ inv.sign, minersOnly_keep _ inv.commit, inv.viewChange⟩
  | prepareOwn => exact ⟨minersOnly_keep _ inv.sign, minersOnly_keep _ inv.commit, inv.viewChange⟩
  | propose =>
      rw [Core.broadcastPrepareReq_eq]
      exact ⟨inv.sign, inv.commit, inv.viewChange⟩
  | voteSign =>
      rw [Core.broadcastSignReq_eq]
      cases ctx.host with
      | false => exact ⟨inv.sign, inv.commit, inv.viewChange⟩
      | true =>
          exact ⟨minersOnly_insert _ (fun other => absurd rfl other) inv.sign, inv.commit,
            inv.viewChange⟩
  | voteCommit =>
      rw [Core.broadcastCommitReq_eq]
      cases ctx.host with
      | false => exact ⟨inv.sign, inv.commit, inv.viewChange⟩
      | true =>
          exact ⟨inv.sign, minersOnly_insert _ (fun other => absurd rfl other) inv.commit,
            inv.viewChange⟩
  | save =>
      rcases c.checkAndSave_cases with same | ⟨-, -, -, -, block, sealed⟩
      · rw [same]
        exact inv
      · rw [sealed]
        exact ⟨inv.sign, inv.commit, inv.viewChange⟩
  | changeView =>
      refine ⟨?_, ?_, minersOnly_keep _ inv.viewChange⟩ <;>
        · intro m member
          cases member
  | advance => exact ⟨inv.sign, inv.commit, minersOnly_keep _ inv.viewChange⟩
  | reconfigure _ nodeIdx call miners found changed samePub =>
      refine ⟨?_, ?_, ?_⟩
      · intro m member
        cases member
      · intro m member other
        exact inv.commit m member (by rw [← fixed]; exact other)
      · intro m member
        cases member
  | forget => exact ⟨minersOnly_keep _ inv.sign, minersOnly_keep _ inv.commit, inv.viewChange⟩
  | collect => exact ⟨minersOnly_keep _ inv.sign, minersOnly_keep _ inv.commit, inv.viewChange⟩
  | dropViewChanges => exact ⟨inv.sign, inv.commit, minersOnly_keep _ inv.viewChange⟩
  | _ => exact ⟨inv.sign, inv.commit, inv.viewChange⟩

theorem MinersOnly.step (table : ctx.nodes = nodes) (miner : NotFromObserver C nodes ctx event)
    (inv : Configured nodes s.toCore ∧ MinersOnly nodes s.toCore) :
    Configured nodes (s.step C ctx event).toCore ∧
    MinersOnly nodes (s.step C ctx event).toCore := by
  refine moves_invariant (fun c => Configured nodes c ∧ MinersOnly nodes c) Node.step_moves inv ?_
  intro a b before move
  exact ⟨(before.1.move table move).1, before.2.move table before.1 miner move⟩

/-- Under a fixed node table, in every run whose accepted votes avoid the indices of observers, each
stored request of another node has the index of a miner. -/
theorem only_miners_vote (C : Crypto) (nodes : NodeTable) (ctx : Ctx) (setup : Node.Setup)
    (calls : List (Ctx × Event)) (table : ctx.nodes = nodes)
    (fixed : ∀ call ∈ calls, call.1.nodes = nodes)
    (miners : ∀ call ∈ calls, NotFromObserver C nodes call.1 call.2) :
    MinersOnly nodes (Node.run C (Node.initEnv ctx setup) calls).toCore := by
  have start : Configured nodes (Node.initEnv ctx setup).toCore ∧
      MinersOnly nodes (Node.initEnv ctx setup).toCore := by
    refine ⟨table ▸ Configured.initial setup, ?_⟩
    obtain ⟨signs, commits, views⟩ := Node.initEnv_caches ctx setup
    refine ⟨?_, ?_, ?_⟩
    · rw [signs]
      intro m member
      cases member
    · rw [commits]
      intro m member
      cases member
    · rw [views]
      intro m member
      cases member
  refine (run_invariant (Node.next C)
    (fun _ s => Configured nodes s.toCore ∧ MinersOnly nodes s.toCore)
    (fun _ call => call.1.nodes = nodes ∧ NotFromObserver C nodes call.1 call.2) _ start
      ?_ calls ?_).2
  · intro events call _ before admitted
    exact MinersOnly.step admitted.1 admitted.2 before
  · intro entry member
    have input := trace_input (Node.next C) _ calls entry member
    exact ⟨fixed _ input, miners _ input⟩

theorem miner_votes_stored :
    let s := Node.run Crypto.toy (toyNode (.consecutive 4 1))
      (toyDeliver (.consecutive 4 1) [.sign (toyVote 0 0 1 0 7), .viewChange (toyVote 2 0 1 1 7)])
    s.haveSign 7 = 1 ∧ MinersOnly (.consecutive 4 1) s.toCore := by
  refine ⟨by decide +kernel, ?_⟩
  refine only_miners_vote Crypto.toy (.consecutive 4 1) (Ctx.quiet (.consecutive 4 1)) _
    (toyDeliver (.consecutive 4 1) [.sign (toyVote 0 0 1 0 7), .viewChange (toyVote 2 0 1 1 7)]) rfl
    ?_ ?_
  · intro call member
    have cases : call ∈ [_, _] := member
    rw [List.mem_pair] at cases
    rcases cases with rfl | rfl <;> rfl
  · intro call member
    have cases : call ∈ [_, _] := member
    rw [List.mem_pair] at cases
    rcases cases with rfl | rfl <;>
      · intro _ node found
        cases found
        rfl

/-- An observer's votes are stored and counted. -/
theorem observer_votes_counted :
    let s := Node.run Crypto.toy (toyNode (.consecutive 4 1))
      ((Ctx.quiet (.consecutive 4 1), .reportBlock { number := 0, hash := 5, timestamp := 1 }) ::
        toyDeliver (.consecutive 4 1) [.sign (toyVote 4 0 1 0 7), .commit (toyVote 4 0 1 0 7),
          .viewChange (toyVote 4 0 0 1 5)])
    s.haveSign 7 = 1 ∧ s.haveCommit 7 = 1 ∧ s.recvViewChangeReq.size (fun m => m.view = 1) = 1 ∧
      ¬ NodeTable.MinerAt (.consecutive 4 1) 4 ∧ ¬ MinersOnly (.consecutive 4 1) s.toCore := by
  have observer : ¬ NodeTable.MinerAt (.consecutive 4 1) 4 := by
    intro ⟨node, found, miner⟩
    cases found
    cases miner
  refine ⟨by decide +kernel, by decide +kernel, by decide +kernel, observer, ?_⟩
  intro miners
  refine observer (miners.sign (toyVote 4 0 1 0 7) ?_ ?_)
  · decide +kernel
  · decide +kernel

end UtispaceChain
