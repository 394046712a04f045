import UtispaceChain.PbftSeal.Authenticity
import UtispaceChain.PbftSeal.Lock

/-! Several nodes at once: each call is made at one node, and what another node has logged by
then is all that a message under its name can be built from. -/

namespace UtispaceChain

open Lib

section Account

variable {C : Crypto} {ctx : Ctx} {s : Node} {event : Event} {c d : Core}

theorem Micro.log_grows (move : Micro C ctx s event c d) : ∃ effects, d.log = effects ++ c.log := by
  cases move with
  | accept => exact ⟨[_], rfl⟩
  | propose => exact ⟨_ ++ [_], by rw [Core.broadcastPrepareReq_eq, List.append_assoc]; rfl⟩
  | prepareOwn => exact ⟨[_], rfl⟩
  | voteSign => exact ⟨_ ++ [_], by rw [Core.broadcastSignReq_eq, List.append_assoc]; rfl⟩
  | lock => exact ⟨[_], rfl⟩
  | voteCommit => exact ⟨_ ++ [_], by rw [Core.broadcastCommitReq_eq, List.append_assoc]; rfl⟩
  | save =>
      rcases c.checkAndSave_cases with same | ⟨-, -, -, -, block, sealed⟩
      · exact ⟨[], by rw [same]; rfl⟩
      · exact ⟨[_], by rw [sealed]; rfl⟩
  | sign => exact ⟨[_], rfl⟩
  | send => exact ⟨[_], rfl⟩
  | callback => exact ⟨[_], rfl⟩
  | _ => exact ⟨[], rfl⟩

theorem Micro.pub_fixed (move : Micro C ctx s event c d) : d.pub = c.pub := by
  cases move with
  | propose => rw [Core.broadcastPrepareReq_eq]
  | voteSign => rw [Core.broadcastSignReq_eq]
  | voteCommit => rw [Core.broadcastCommitReq_eq]
  | save =>
      rcases c.checkAndSave_cases with same | ⟨-, -, -, -, block, sealed⟩
      · rw [same]
      · rw [sealed]
        rfl
  | _ => rfl

namespace Node

theorem checkAndCommit_account : (s.checkAndCommit C ctx).accountType = s.accountType := by
  unfold checkAndCommit
  split_ifs <;> rfl

theorem checkAndChangeView_account : s.checkAndChangeView.accountType = s.accountType := by
  simp only [checkAndChangeView]
  split_ifs <;> rfl

theorem broadcastViewChangeReq_account :
    (s.broadcastViewChangeReq C ctx).accountType = s.accountType := by
  simp only [broadcastViewChangeReq]
  split_ifs <;> rfl

theorem fastViewChange_account : (s.fastViewChange ctx).accountType = s.accountType := by
  simp only [fastViewChange]
  split_ifs <;> rfl

theorem acceptPrepare_account (req : PrepareReq) (hash : H256) (block : Bytes) :
    (s.acceptPrepare C ctx req hash block).accountType = s.accountType := by
  simp only [acceptPrepare, checkAndCommit_account]
  split_ifs <;> rfl

theorem processPrepare_account (req : PrepareReq) :
    (s.processPrepare C ctx req).accountType = s.accountType := by
  unfold processPrepare
  split_ifs
  · rfl
  · rfl
  · rfl
  · split
    · rfl
    · dsimp only
      split_ifs
      · rfl
      · rfl
      · split
        · rfl
        · exact acceptPrepare_account _ _ _

theorem handlePrepareMsg_account (sender : Nat) (req : PrepareReq) (self : Bool) :
    (s.handlePrepareMsg C ctx sender req self).accountType = s.accountType := by
  simp only [handlePrepareMsg, recvFutureBlock]
  split_ifs
  · rfl
  · rfl
  · rfl
  · rfl
  · rfl
  · exact processPrepare_account _

theorem handlePacket_account (sender : Nat) (packet : Packet) :
    (s.handlePacket C ctx sender packet).accountType = s.accountType := by
  cases packet with
  | prepare req => exact handlePrepareMsg_account sender req false
  | sign req =>
      simp only [handlePacket, handleSignMsg]
      split_ifs <;> first | rfl | exact checkAndCommit_account
  | commit req =>
      simp only [handlePacket, handleCommitMsg]
      split_ifs <;> rfl
  | viewChange req =>
      simp only [handlePacket, handleViewChangeMsg]
      split_ifs <;> simp only [checkAndChangeView_account, fastViewChange_account, onCore,
        broadcastViewChangeReq_account]

theorem resetConfig_account (type : Int) (found : ctx.nodes.getAccountType s.pub = some type) :
    (s.resetConfig ctx).accountType = type := by
  simp only [resetConfig, found]
  split_ifs
  · rfl
  · split
    · rfl
    · split_ifs <;> rfl

/-- The account type is the one the table has for the node. -/
def Registered (nodes : NodeTable) (s : Node) : Prop :=
  nodes.getAccountType s.pub = some s.accountType

theorem step_pub (C : Crypto) (ctx : Ctx) (s : Node) (event : Event) :
    (s.step C ctx event).pub = s.pub :=
  have moves : Relation.ReflTransGen (Micro C ctx s event) s.toCore (s.step C ctx event).toCore :=
    Node.step_moves
  moves_invariant (fun c : Core => c.pub = s.pub) moves rfl fun _ _ before move =>
    move.pub_fixed.trans before

theorem step_account (other : event.configures = false) :
    (s.step C ctx event).accountType = s.accountType := by
  cases event with
  | handleMsg sender packet => exact handlePacket_account sender packet
  | checkTimeout =>
      simp only [step, checkTimeout]
      split_ifs
      · exact checkAndChangeView_account.trans broadcastViewChangeReq_account
      · exact broadcastViewChangeReq_account
      · rfl
  | handleFutureBlock =>
      simp only [step, handleFutureBlock]
      split_ifs
      · exact handlePrepareMsg_account _ _ _
      · rfl
  | collectGarbage =>
      simp only [step, collectGarbage]
      split_ifs <;> rfl
  | reportBlock b => cases other
  | shouldSeal =>
      simp only [step, shouldSeal]
      cases s.getLeader with
      | none => split_ifs <;> rfl
      | some leader =>
          dsimp only
          split_ifs
          · rfl
          · rfl
          · rfl
          · simp only [reHandlePrepareReq, handlePrepareMsg_account]
            split_ifs <;> rfl
          · rfl
          · rfl
  | generateSeal => rfl
  | generateCommit =>
      simp only [step, generateCommit]
      split_ifs
      · rfl
      · exact checkAndCommit_account
      · rfl
  | changeViewForEmptyBlockWithLock => rfl
  | setOmitEmptyBlock => rfl
  | startGeneration => cases other

theorem Registered.step {nodes : NodeTable} (table : ctx.nodes = nodes)
    (registered : s.Registered nodes) : (s.step C ctx event).Registered nodes := by
  have key := step_pub C ctx s event
  unfold Registered at registered ⊢
  rw [key]
  cases configures : event.configures with
  | false =>
      rw [step_account configures]
      exact registered
  | true =>
      rw [← table] at registered ⊢
      have read : ∀ t : Node, t.pub = s.pub → (t.resetConfig ctx).accountType = s.accountType :=
        fun t same => resetConfig_account _ (same ▸ registered)
      cases event with
      | reportBlock b =>
          have reported : (s.reportBlock ctx b).accountType = s.accountType := by
            refine read _ ?_
            split_ifs <;> rfl
          exact reported ▸ registered
      | startGeneration =>
          have again := read { s with lastConsensusTime := ctx.now } rfl
          exact again ▸ registered
      | _ => cases configures

end Node

end Account

/-- The state of every node, by its index in the node table. -/
abbrev Network := Nat → Node

/-- A fixed set of nodes. Honest nodes run the code; the faulty miners are whatever sends messages
under their keys. Execution takes the hash of a proposed block to that of the executed one. -/
structure Deployment where
  nodes : NodeTable
  setup : Nat → Node.Setup
  start : Nat → Ctx
  honest : Finset Nat
  faulty : Finset Nat
  exec : H256 → H256
  numberOf : H256 → Nat

namespace Deployment

variable (C : Crypto) (D : Deployment)

structure Valid : Prop where
  miners : 1 ≤ D.nodes.getMinerNum
  indices : ∀ i, D.nodes.MinerAt i → i < D.nodes.getMinerNum
  split : ∀ i, D.nodes.MinerAt i → i ∈ D.honest ∨ i ∈ D.faulty
  few : D.faulty.card ≤ (D.nodes.getMinerNum - 1) / 3
  key : ∀ i ∈ D.honest, D.nodes.getPublicKey i = some (D.setup i).pub
  table : ∀ i ∈ D.honest, (D.start i).nodes = D.nodes
  number : ∀ hash, D.numberOf (D.exec hash) = D.numberOf hash

def initial : Network := fun i => Node.initEnv (D.start i) (D.setup i)

def next (w : Network) (call : Nat × Ctx × Event) : Network :=
  Function.update w call.1 ((w call.1).step C call.2.1 call.2.2)

def run (calls : List (Nat × Ctx × Event)) : Network := Lib.run (next C) D.initial calls

def trace (calls : List (Nat × Ctx × Event)) : List (Network × Nat × Ctx × Event) :=
  Lib.trace (next C) D.initial calls

end Deployment

def CommitSent (log : List Effect) (hash : H256) : Prop :=
  ∃ req, Effect.sent (.commit req) ∈ log ∧ req.blockHash = hash

theorem CommitSent.mono {log more : List Effect} {hash : H256} (sent : CommitSent log hash)
    (grown : ∀ effect ∈ log, effect ∈ more) : CommitSent more hash := by
  obtain ⟨req, member, same⟩ := sent
  exact ⟨req, grown _ member, same⟩

/-- What a call at an honest node may rely on: the table is the fixed one, execution is
deterministic, also that of the client, the chain finds blocks of the next height valid, reports are
of real blocks, and a message that verifies under the index of an honest node is of a hash that node
has signed. -/
structure Environment (C : Crypto) (D : Deployment) (w : Network) (i : Nat) (ctx : Ctx)
    (event : Event) :
    Prop where
  honest : i ∈ D.honest
  table : ctx.nodes = D.nodes
  deterministic : ∀ raw block outBlock hash executed, ctx.checkBlockValid raw block =
    some outBlock →
    outBlock.infoHash = raw → outBlock.resealed = some (hash, executed) → hash = D.exec raw
  valid : ∀ raw block outBlock, ctx.checkBlockValid raw block = some outBlock →
    outBlock.infoHash = raw → D.numberOf raw = (w i).consensusBlockNumber
  reported : ∀ b, event = .reportBlock b → b.number < Invalid256
  generated : ∀ proposal number hash block,
    event = .generateCommit proposal number hash block (w i).view →
    hash = D.exec proposal ∧ D.numberOf proposal = number
  unforgeable : ∀ sender packet, event = .handleMsg sender packet → packet.msg.idx ∈ D.honest →
    Node.checkSign C ctx packet.msg = true → HasSigned C (w packet.msg.idx).log packet.msg.blockHash

/-- The call stays clear of the known defects: a proposal is not put under a live prepare cache, an
own block passes the checks of height and lock that `handlePrepareMsg` makes, and a commit that
counts is the only one of its sender for the block, a miner's, and, if its sender is honest and has
signed the block, sent by it as a commit. -/
structure Sound (C : Crypto) (D : Deployment) (w : Network) (i : Nat) (ctx : Ctx) (event : Event) :
    Prop where
  proposal : KeepsProposal C ctx (w i) event
  committed : ∀ proposal number hash block,
    event = .generateCommit proposal number hash block (w i).view →
    number = (w i).rawPrepareCache.height ∧ number = (w i).consensusBlockNumber ∧
      (number = (w i).committedPrepareCache.height →
        proposal = (w i).committedPrepareCache.blockHash)
  once : ∀ sender req, event = .handleMsg sender (.commit req) → Node.checkSign C ctx req = true →
    ∀ a ∈ (w i).commitCache.entries, a.blockHash = req.blockHash → a.idx = req.idx → a.sig = req.sig
  miner : ∀ sender req, event = .handleMsg sender (.commit req) → Node.checkSign C ctx req = true →
    ∀ node, D.nodes.atIdx req.idx = some node → node.isMiner = true
  typed : ∀ sender req, event = .handleMsg sender (.commit req) → req.idx ∈ D.honest →
    Node.checkSign C ctx req = true → HasSigned C (w req.idx).log req.blockHash →
    CommitSent (w req.idx).log req.blockHash

end UtispaceChain
