import UtispaceChain.PbftSeal.Membership
import UtispaceChain.PbftSeal.Lock
import UtispaceChain.PbftSeal.Tally

/-! One height and view of one miner: the votes on a block may arrive before, between and
after the proposal and the quorum they make up. -/

namespace UtispaceChain

open Lib

def commitsSent (hash : H256) (log : List Effect) : Nat :=
  log.countP fun
    | .sent (.commit req) => decide (req.blockHash = hash)
    | _ => false

/-- Calls to `m_onSealGenerated` with the block. -/
def sealsGenerated (hash : H256) (log : List Effect) : Nat :=
  log.countP fun
    | .onSealGenerated _ other _ _ => decide (other = hash)
    | _ => false

def Core.tally (hash : H256) (c : Core) : Tally where
  signs := c.haveSign hash
  commits := c.haveCommit hash
  sent := commitsSent hash c.log
  seals := sealsGenerated hash c.log

/-- The vote is of this block, height and view and is signed by the node of its index. -/
structure ValidVote (C : Crypto) (nodes : NodeTable) (height view : Nat) (hash : H256)
    (m : PBFTMsg) : Prop where
  height : m.height = height
  view : m.view = view
  block : m.blockHash = hash
  signed : ∃ key, nodes.getPublicKey m.idx = some key ∧ C.verify key m.sig hash = true ∧
    C.verify key m.sig2 (m.fieldsWithoutBlock C) = true

/-- The cached votes on the block are of this view, and of registered nodes among `senders`. -/
def VotesOf (C : Crypto) (nodes : NodeTable) (view : Nat) (hash : H256) (senders : List Nat)
    (votes : VoteCache) : Prop :=
  ∀ m ∈ votes.entries, m.blockHash = hash → m.idx ∈ senders ∧ m.view = view ∧
    ∃ key, nodes.getPublicKey m.idx = some key ∧ C.verify key m.sig hash = true

section Cache

variable {C : Crypto} {nodes : NodeTable} {height view : Nat} {hash : H256} {senders : List Nat}
  {votes : VoteCache}

theorem VotesOf.fresh (of : VotesOf C nodes view hash senders votes) (m : PBFTMsg)
    (same : m.blockHash = hash) (other : m.idx ∉ senders) (key : Public)
    (known : nodes.getPublicKey m.idx = some key) (signed : C.verify key m.sig hash = true) :
    ∀ e ∈ votes.entries, (e.blockHash, e.sig) ≠ (m.blockHash, m.sig) := by
  intro e member equal
  have block : e.blockHash = hash := (Prod.mk.inj equal).1.trans same
  have text : e.sig = m.sig := (Prod.mk.inj equal).2
  obtain ⟨sender, -, eKey, eKnown, eSigned⟩ := of e member block
  rw [text] at eSigned
  have keys : eKey = key := C.verify_unique _ _ _ _ eSigned signed
  have idx : e.idx = m.idx := nodes.getPublicKey_injective _ _ key (keys ▸ eKnown) known
  exact other (idx ▸ sender)

theorem VotesOf.insert (of : VotesOf C nodes view hash senders votes) (m : PBFTMsg)
    (same : m.view = view) (key : Public) (known : nodes.getPublicKey m.idx = some key)
    (signed : C.verify key m.sig hash = true) :
    VotesOf C nodes view hash (m.idx :: senders) (votes.insert m) := by
  intro e member block
  rcases (votes.mem_insert m e).mp member with rfl | ⟨old, -⟩
  · exact ⟨List.mem_cons_self, same, key, known, signed⟩
  · obtain ⟨sender, rest⟩ := of e old block
    exact ⟨List.mem_cons_of_mem _ sender, rest⟩

theorem size_insert_vote (m : PBFTMsg) (same : m.blockHash = hash)
    (fresh : ∀ e ∈ votes.entries, (e.blockHash, e.sig) ≠ (m.blockHash, m.sig)) :
    (votes.insert m).size (fun m => decide (m.blockHash = hash)) =
      votes.size (fun m => decide (m.blockHash = hash)) + 1 := by
  rw [KeyedTable.size_insert votes _ m fresh, if_pos (decide_eq_true same)]

end Cache

/-- A miner at the start of a round, with a valid proposal to come: nothing is cached for the
block that its execution will give. -/
structure Round (C : Crypto) (nodes : NodeTable) (s : Node) (req : PrepareReq) (hash : H256)
    (block : Bytes) : Prop where
  miner : s.isMiner = true
  known : nodes.getPublicKey s.nodeIdx = some s.pub
  ownKey : C.verify s.pub (C.sign s.sec hash) hash = true
  enters : s.Enters req false
  unsaved : s.highestBlock.number < s.consensusBlockNumber
  unprepared : s.prepareCache.blockHash ≠ hash
  noSign : ∀ m ∈ s.signCache.entries, m.blockHash ≠ hash
  noCommit : ∀ m ∈ s.commitCache.entries, m.blockHash ≠ hash
  items : (Core.appendSignList block []).isSome = true

structure Connected (nodes : NodeTable) (ctx : Ctx) : Prop where
  host : ctx.host = true
  table : ctx.nodes = nodes

section Rounds

variable {C : Crypto} {nodes : NodeTable} {s t : Node} {req : PrepareReq} {hash : H256}
  {block : Bytes} {signers committers : List Nat} {ctx : Ctx}

theorem ValidVote.checkSign {height view : Nat} {m : PBFTMsg}
    (valid : ValidVote C nodes height view hash m) (connected : Connected nodes ctx) :
    Node.checkSign C ctx m = true := by
  obtain ⟨key, known, block, fields⟩ := valid.signed
  simp only [Node.checkSign, connected.table, known, valid.block, block, fields, Bool.and_self]

theorem appendSignList_isSome (list : List (Nat × Signature)) :
    (Core.appendSignList block list).isSome = (Core.appendSignList block []).isSome := by
  unfold Core.appendSignList
  cases Rlp.item block 0 with
  | none => rw [Option.bind_none, Option.bind_none]
  | some header =>
      rw [Option.bind_some, Option.bind_some]
      cases Rlp.item block 1 with
      | none => rw [Option.bind_none, Option.bind_none]
      | some transactions =>
          rw [Option.bind_some, Option.bind_some]
          cases Rlp.item block 2 with
          | none => rw [Option.bind_none, Option.bind_none]
          | some uncles =>
              rw [Option.bind_some, Option.bind_some, Option.isSome_map, Option.isSome_map]

structure Collecting (C : Crypto) (nodes : NodeTable) (s : Node) (hash : H256)
    (signers committers : List Nat) (t : Node) : Prop where
  same : t = s.onCore fun c => { c with signCache := t.signCache, commitCache := t.commitCache }
  signs : VotesOf C nodes s.view hash signers t.signCache
  commits : VotesOf C nodes s.view hash committers t.commitCache

theorem Collecting.start (round : Round C nodes s req hash block) :
    Collecting C nodes s hash [] [] s :=
  ⟨rfl, fun m member same => absurd same (round.noSign m member),
    fun m member same => absurd same (round.noCommit m member)⟩

theorem contains_eq_false (votes : VoteCache) (m : PBFTMsg)
    (fresh : ∀ e ∈ votes.entries, (e.blockHash, e.sig) ≠ (m.blockHash, m.sig)) :
    votes.contains (m.blockHash, m.sig) = false := by
  rw [← Bool.not_eq_true, KeyedTable.contains_iff]
  rintro ⟨e, member, equal⟩
  exact fresh e member equal

theorem Collecting.sign (round : Round C nodes s req hash block)
    (now : Collecting C nodes s hash signers committers t) (connected : Connected nodes ctx)
    (m : SignReq) (valid : ValidVote C nodes s.consensusBlockNumber s.view hash m)
    (foreign : m.idx ≠ s.nodeIdx) (other : m.idx ∉ signers) :
    Collecting C nodes s hash (m.idx :: signers) committers (t.handleSignMsg C ctx m) ∧
      (t.handleSignMsg C ctx m).tally hash =
        { t.tally hash with signs := (t.tally hash).signs + 1 } := by
  obtain ⟨key, known, block, -⟩ := valid.signed
  have fresh := now.signs.fresh m valid.block other key known block
  have absent : t.isExistSign m = false := contains_eq_false t.signCache m fresh
  have idx : m.idx ≠ t.nodeIdx := by rw [now.same]; exact foreign
  have unprepared : t.prepareCache.blockHash ≠ m.blockHash := by
    rw [now.same, valid.block]
    exact round.unprepared
  have future : t.futureVote m = true := by
    rw [now.same]
    simp [Node.futureVote, Node.onCore, valid.height]
  have result : t.handleSignMsg C ctx m = t.onCore fun c => c.addSignReq m := by
    unfold Node.handleSignMsg
    rw [absent, if_neg (by simp), if_neg idx, if_pos unprepared, future,
      valid.checkSign connected, Bool.and_self, if_pos rfl]
  rw [result]
  refine ⟨⟨?_, now.signs.insert m valid.view key known block, now.commits⟩, ?_⟩
  · conv_lhs => rw [now.same]
    rfl
  · ext
    · exact size_insert_vote m valid.block fresh
    · rfl
    · rfl
    · rfl

theorem Collecting.commit (round : Round C nodes s req hash block)
    (now : Collecting C nodes s hash signers committers t) (connected : Connected nodes ctx)
    (m : CommitReq) (valid : ValidVote C nodes s.consensusBlockNumber s.view hash m)
    (foreign : m.idx ≠ s.nodeIdx) (other : m.idx ∉ committers) :
    Collecting C nodes s hash signers (m.idx :: committers) (t.handleCommitMsg C ctx m) ∧
      (t.handleCommitMsg C ctx m).tally hash =
        { t.tally hash with commits := (t.tally hash).commits + 1 } := by
  obtain ⟨key, known, block, -⟩ := valid.signed
  have fresh := now.commits.fresh m valid.block other key known block
  have absent : t.isExistCommit m = false := contains_eq_false t.commitCache m fresh
  have idx : m.idx ≠ t.nodeIdx := by rw [now.same]; exact foreign
  have unprepared : t.prepareCache.blockHash ≠ m.blockHash := by
    rw [now.same, valid.block]
    exact round.unprepared
  have future : t.futureVote m = true := by
    rw [now.same]
    simp [Node.futureVote, Node.onCore, valid.height]
  have result : t.handleCommitMsg C ctx m = t.onCore fun c => c.addCommitReq m := by
    unfold Node.handleCommitMsg
    rw [absent, if_neg (by simp), if_neg idx, if_pos unprepared, future,
      valid.checkSign connected, Bool.and_self, if_pos rfl]
  rw [result]
  refine ⟨⟨?_, now.signs, now.commits.insert m valid.view key known block⟩, ?_⟩
  · conv_lhs => rw [now.same]
    rfl
  · ext
    · rfl
    · exact size_insert_vote m valid.block fresh
    · rfl
    · rfl

/-- From the proposal on the node has the executed block in its prepare cache. -/
structure Voting (C : Crypto) (nodes : NodeTable) (s : Node) (req : PrepareReq) (hash : H256)
    (block : Bytes) (signers committers : List Nat) (t : Node) : Prop where
  quorum : t.quorum = s.quorum
  idx : t.nodeIdx = s.nodeIdx
  sec : t.sec = s.sec
  view : t.view = s.view
  miner : t.isMiner = true
  highest : t.highestBlock.number = s.highestBlock.number
  raw : t.rawPrepareCache = req
  prepared : t.prepareCache.blockHash = hash
  preparedView : t.prepareCache.view = s.view
  preparedHeight : t.prepareCache.height = s.consensusBlockNumber
  preparedBlock : t.prepareCache.block = block
  signs : VotesOf C nodes s.view hash signers t.signCache
  commits : VotesOf C nodes s.view hash committers t.commitCache
  -- our own commit is there only with the signatures complete
  own : s.nodeIdx ∈ committers → s.quorum ≤ t.haveSign hash
  lock : commitsSent hash s.log < commitsSent hash t.log → t.committedPrepareCache = req

theorem Voting.save (round : Round C nodes s req hash block)
    (now : Voting C nodes s req hash block signers committers t) :
    Voting C nodes s req hash block signers committers (t.onCore Core.checkAndSave) ∧
      (t.onCore Core.checkAndSave).tally hash = (t.tally hash).save s.quorum := by
  have count : (t.onCore Core.checkAndSave).tally hash = (t.tally hash).save s.quorum ∧
      ∃ log, t.onCore Core.checkAndSave = t.withLog log ∧
        commitsSent hash log = commitsSent hash t.log := by
    unfold Node.onCore Core.checkAndSave Tally.save
    rw [now.prepared, now.quorum]
    by_cases quorums : s.quorum ≤ t.haveSign hash ∧ t.haveCommit hash = s.quorum
    swap
    · rw [if_neg quorums, if_neg (show ¬ (s.quorum ≤ (t.tally hash).signs ∧
        (t.tally hash).commits = s.quorum) from quorums)]
      exact ⟨rfl, t.log, rfl, rfl⟩
    have current : ¬ t.prepareCache.view ≠ t.view := by rw [now.preparedView, now.view]; simp
    have unsaved : t.highestBlock.number < t.prepareCache.height := by
      rw [now.highest, now.preparedHeight]
      exact round.unsaved
    rw [if_pos quorums, if_neg current, if_pos unsaved,
      if_pos (show s.quorum ≤ (t.tally hash).signs ∧
      (t.tally hash).commits = s.quorum from quorums)]
    have items : (Core.appendSignList t.prepareCache.block t.signList).isSome = true := by
      rw [appendSignList_isSome, now.preparedBlock]
      exact round.items
    obtain ⟨data, found⟩ := Option.isSome_iff_exists.mp items
    rw [found]
    refine ⟨?_, _, rfl, ?_⟩
    · ext
      · rfl
      · rfl
      · simp [Core.tally, Core.emit, commitsSent]
      · simp [Core.tally, Core.emit, sealsGenerated]
    · simp [commitsSent]
  obtain ⟨tally, log, result, same⟩ := count
  refine ⟨?_, tally⟩
  rw [result]
  refine ⟨now.quorum, now.idx, now.sec, now.view, now.miner, now.highest, now.raw, now.prepared,
    now.preparedView, now.preparedHeight, now.preparedBlock, now.signs, now.commits, now.own, ?_⟩
  intro more
  exact now.lock (same ▸ more)

theorem Voting.checkAndCommit (round : Round C nodes s req hash block)
    (now : Voting C nodes s req hash block signers committers t) (connected : Connected nodes ctx)
    (first : t.haveSign hash = s.quorum → s.nodeIdx ∉ committers) :
    ∃ more, (more = committers ∨ more = s.nodeIdx :: committers) ∧
      Voting C nodes s req hash block signers more (t.checkAndCommit C ctx) ∧
      (t.checkAndCommit C ctx).tally hash = (t.tally hash).lock s.quorum := by
  unfold Node.checkAndCommit Tally.lock
  rw [now.prepared, now.quorum]
  by_cases reached : t.haveSign hash = s.quorum
  swap
  · rw [if_neg reached, if_neg (show ¬ (t.tally hash).signs = s.quorum from reached)]
    exact ⟨committers, Or.inl rfl, now, rfl⟩
  have current : ¬ t.prepareCache.view ≠ t.view := by rw [now.preparedView, now.view]; simp
  rw [if_pos reached, if_neg current, if_pos (show (t.tally hash).signs = s.quorum from reached)]
  let vote := t.toCore.locked.ownVote C ctx t.prepareCache
  have voteBlock : vote.blockHash = hash := now.prepared
  have voteIdx : vote.idx = s.nodeIdx := now.idx
  have known : nodes.getPublicKey vote.idx = some s.pub := voteIdx ▸ round.known
  have signed : C.verify s.pub vote.sig hash = true := by
    have text : vote.sig = C.sign s.sec hash := by
      rw [← now.sec, ← now.prepared]
      rfl
    rw [text]
    exact round.ownKey
  have fresh := now.commits.fresh vote voteBlock (voteIdx ▸ first reached) s.pub known signed
  have locked : t.toCore.lockAndVote C ctx t.isMiner = { t.toCore.locked with
      commitCache := t.commitCache.insert vote
      log := .sent (.commit vote) :: .signed (.commit vote) :: t.toCore.locked.log } := by
    simp only [Core.lockAndVote, now.miner, if_true, Core.broadcastCommitReq_eq, connected.host]
    rfl
  have sent : commitsSent hash ({ t.toCore.locked with
      commitCache := t.commitCache.insert vote
      log := .sent (.commit vote) :: .signed (.commit vote) :: t.toCore.locked.log } : Core).log =
      commitsSent hash t.log + 1 := by
    simp [commitsSent, voteBlock, Core.locked, Core.emit]
  let voted : Node := { t with
    toCore := t.toCore.lockAndVote C ctx t.isMiner, lastSignTime := ctx.now }
  have voting : Voting C nodes s req hash block signers (s.nodeIdx :: committers) voted := by
    refine ⟨?_, ?_, ?_, ?_, now.miner, ?_, ?_, ?_, ?_, ?_, ?_, ?_, ?_, ?_, ?_⟩ <;>
      simp only [voted, locked]
    · exact now.quorum
    · exact now.idx
    · exact now.sec
    · exact now.view
    · exact now.highest
    · exact now.raw
    · exact now.prepared
    · exact now.preparedView
    · exact now.preparedHeight
    · exact now.preparedBlock
    · exact now.signs
    · exact voteIdx ▸ now.commits.insert vote now.preparedView s.pub known signed
    · intro _
      exact reached.ge
    · intro _
      exact now.raw
  have tally : voted.tally hash = { t.tally hash with
      commits := (t.tally hash).commits + 1, sent := (t.tally hash).sent + 1 } := by
    ext <;> simp only [voted, locked]
    · rfl
    · exact size_insert_vote vote voteBlock fresh
    · exact sent
    · simp [Core.tally, sealsGenerated, Core.locked, Core.emit]
  obtain ⟨after, counted⟩ := voting.save round
  exact ⟨s.nodeIdx :: committers, Or.inr rfl, after, counted.trans (by rw [tally])⟩

theorem Voting.sign (round : Round C nodes s req hash block)
    (now : Voting C nodes s req hash block signers committers t) (connected : Connected nodes ctx)
    (m : SignReq) (valid : ValidVote C nodes s.consensusBlockNumber s.view hash m)
    (foreign : m.idx ≠ s.nodeIdx) (other : m.idx ∉ signers) :
    ∃ more, (more = committers ∨ more = s.nodeIdx :: committers) ∧
      Voting C nodes s req hash block (m.idx :: signers) more (t.handleSignMsg C ctx m) ∧
      (t.handleSignMsg C ctx m).tally hash = (t.tally hash).vote s.quorum (.sign m) := by
  obtain ⟨key, known, verified, -⟩ := valid.signed
  have fresh := now.signs.fresh m valid.block other key known verified
  have absent : t.isExistSign m = false := contains_eq_false t.signCache m fresh
  have idx : m.idx ≠ t.nodeIdx := by rw [now.idx]; exact foreign
  have same : ¬ t.prepareCache.blockHash ≠ m.blockHash := by rw [now.prepared, valid.block]; simp
  have view : ¬ t.prepareCache.view ≠ m.view := by rw [now.preparedView, valid.view]; simp
  have result : t.handleSignMsg C ctx m =
      (t.onCore fun c => c.addSignReq m).checkAndCommit C ctx := by
    unfold Node.handleSignMsg
    rw [absent, if_neg (by simp), if_neg idx, if_neg same, if_neg view, valid.checkSign connected,
      if_neg (by simp)]
  have size : (t.onCore fun c => c.addSignReq m).haveSign hash = t.haveSign hash + 1 :=
    size_insert_vote m valid.block fresh
  have stored : Voting C nodes s req hash block (m.idx :: signers) committers
      (t.onCore fun c => c.addSignReq m) :=
    ⟨now.quorum, now.idx, now.sec, now.view, now.miner, now.highest, now.raw, now.prepared,
      now.preparedView, now.preparedHeight, now.preparedBlock,
      now.signs.insert m valid.view key known verified, now.commits,
      fun own => size ▸ Nat.le_succ_of_le (now.own own), now.lock⟩
  have first : (t.onCore fun c => c.addSignReq m).haveSign hash = s.quorum →
      s.nodeIdx ∉ committers := by
    intro reached own
    have before := now.own own
    omega
  obtain ⟨more, shape, voting, tally⟩ := stored.checkAndCommit round connected first
  rw [result]
  refine ⟨more, shape, voting, tally.trans ?_⟩
  have counted : (t.onCore fun c => c.addSignReq m).tally hash =
      { t.tally hash with signs := (t.tally hash).signs + 1 } := by
    ext
    · exact size
    · rfl
    · rfl
    · rfl
  rw [counted]
  rfl

theorem Voting.commit (round : Round C nodes s req hash block)
    (now : Voting C nodes s req hash block signers committers t) (connected : Connected nodes ctx)
    (m : CommitReq) (valid : ValidVote C nodes s.consensusBlockNumber s.view hash m)
    (foreign : m.idx ≠ s.nodeIdx) (other : m.idx ∉ committers) :
    Voting C nodes s req hash block signers (m.idx :: committers) (t.handleCommitMsg C ctx m) ∧
      (t.handleCommitMsg C ctx m).tally hash = (t.tally hash).vote s.quorum (.commit m) := by
  obtain ⟨key, known, verified, -⟩ := valid.signed
  have fresh := now.commits.fresh m valid.block other key known verified
  have absent : t.isExistCommit m = false := contains_eq_false t.commitCache m fresh
  have idx : m.idx ≠ t.nodeIdx := by rw [now.idx]; exact foreign
  have same : ¬ t.prepareCache.blockHash ≠ m.blockHash := by rw [now.prepared, valid.block]; simp
  have view : ¬ t.prepareCache.view ≠ m.view := by rw [now.preparedView, valid.view]; simp
  have result : t.handleCommitMsg C ctx m =
      (t.onCore fun c => c.addCommitReq m).onCore Core.checkAndSave := by
    unfold Node.handleCommitMsg
    rw [absent, if_neg (by simp), if_neg idx, if_neg same, if_neg view, valid.checkSign connected,
      if_neg (by simp)]
  have stored : Voting C nodes s req hash block signers (m.idx :: committers)
      (t.onCore fun c => c.addCommitReq m) := by
    refine ⟨now.quorum, now.idx, now.sec, now.view, now.miner, now.highest, now.raw, now.prepared,
      now.preparedView, now.preparedHeight, now.preparedBlock, now.signs,
      now.commits.insert m valid.view key known verified, ?_, now.lock⟩
    intro own
    exact now.own ((List.mem_cons.mp own).resolve_left (fun equal => foreign equal.symm))
  obtain ⟨voting, tally⟩ := stored.save round
  rw [result]
  refine ⟨voting, tally.trans ?_⟩
  have counted : (t.onCore fun c => c.addCommitReq m).tally hash =
      { t.tally hash with commits := (t.tally hash).commits + 1 } := by
    ext
    · rfl
    · exact size_insert_vote m valid.block fresh
    · rfl
    · rfl
  rw [counted]
  rfl

theorem Collecting.prepare (round : Round C nodes s req hash block)
    (now : Collecting C nodes s hash signers committers t) (connected : Connected nodes ctx)
    (valid : s.validated C ctx req = some (hash, block)) (sender : Nat)
    (ownSign : s.nodeIdx ∉ signers) (ownCommit : s.nodeIdx ∉ committers) :
    ∃ more, (more = committers ∨ more = s.nodeIdx :: committers) ∧
      Voting C nodes s req hash block (s.nodeIdx :: signers) more
        (t.handlePrepareMsg C ctx sender req false) ∧
      (t.handlePrepareMsg C ctx sender req false).tally hash =
        Tally.lock s.quorum { t.tally hash with signs := (t.tally hash).signs + 1 } := by
  obtain ⟨same, signs, commits⟩ := now
  have fresh : t.isExistPrepare req = false := by rw [same]; exact round.enters.fresh
  have foreign : ¬ (false = false ∧ req.idx = t.nodeIdx) := by rw [same]; exact round.enters.foreign
  have height : req.height = t.consensusBlockNumber := by rw [same]; exact round.enters.height
  have view : req.view = t.view := by rw [same]; exact round.enters.view
  have miner : t.isMiner = true := by rw [same]; exact round.miner
  let raw := t.onCore fun c => c.addRawPrepare req
  have executed : t.handlePrepareMsg C ctx sender req false =
      { raw with lastExecFinishTime := ctx.now }.acceptPrepare C ctx req hash block := by
    unfold Node.handlePrepareMsg
    rw [fresh, if_neg (by simp), if_neg foreign, if_neg (by omega), if_neg (by omega)]
    have still : raw.validated C ctx req = some (hash, block) := by
      simp only [raw]
      rw [same]
      exact valid
    rcases Node.processPrepare_spec raw req with ⟨refused, -⟩ | ⟨hash', block', accepted, result⟩
    · rw [still] at refused
      cases refused
    · rw [still] at accepted
      cases accepted
      exact result
  let prepare := raw.signPrepare C ctx req.height req.view req.idx hash block
  let vote := (raw.toCore.signAndPrepare C ctx req.height req.view req.idx hash block).ownVote C ctx
    prepare
  let sameView := fun m : PBFTMsg => decide (m.blockHash = hash → m.view = req.view)
  have ofView : ∀ senders (votes : VoteCache), VotesOf C nodes s.view hash senders votes →
      ∀ m ∈ votes.entries, decide (m.blockHash = hash) = true → sameView m = true := by
    intro senders votes of m member counted
    have block := of_decide_eq_true counted
    have enters : req.view = s.view := round.enters.view
    exact decide_eq_true (fun _ => enters ▸ (of m member block).2.1)
  have kept : ∀ senders (votes : VoteCache), VotesOf C nodes s.view hash senders votes →
      VotesOf C nodes s.view hash senders (votes.keep sameView) :=
    fun senders votes of m member => of m ((votes.mem_keep _ m).mp member).1
  let voted : Node := { raw with
    lastExecFinishTime := ctx.now
    toCore :=
      (raw.toCore.signAndPrepare C ctx req.height req.view req.idx hash block).broadcastSignReq
      C ctx prepare }
  have accepts : { raw with lastExecFinishTime := ctx.now }.acceptPrepare C ctx req hash block =
      voted.checkAndCommit C ctx := by
    unfold Node.acceptPrepare
    dsimp only
    rw [if_pos (show Node.isMiner { raw with lastExecFinishTime := ctx.now } = true from miner)]
    rfl
  have core : voted.toCore = { raw.toCore with
      prepareCache := prepare
      signCache := (t.signCache.keep sameView).insert vote
      commitCache := t.commitCache.keep sameView
      log := [.sent (.sign vote), .signed (.sign vote)] ++ .signed (.prepare prepare) ::
        t.log } := by
    simp only [voted, Core.broadcastSignReq_eq, connected.host, if_true]
    rfl
  have voteIdx : vote.idx = s.nodeIdx := by
    simp only [vote, raw]
    rw [same]
    rfl
  have voteText : vote.sig = C.sign s.sec hash := by
    simp only [vote, raw]
    rw [same]
    rfl
  have known : nodes.getPublicKey vote.idx = some s.pub := voteIdx ▸ round.known
  have signed : C.verify s.pub vote.sig hash = true := voteText ▸ round.ownKey
  have newVote :=
    (kept signers t.signCache signs).fresh vote rfl (voteIdx ▸ ownSign) s.pub known signed
  have voting : Voting C nodes s req hash block (s.nodeIdx :: signers) committers voted := by
    refine ⟨?_, ?_, ?_, ?_, miner, ?_, ?_, ?_, ?_, ?_, ?_, ?_, ?_, ?_, ?_⟩ <;> simp only [core]
    · simp only [raw]
      rw [same]
      rfl
    · simp only [raw]
      rw [same]
      rfl
    · simp only [raw]
      rw [same]
      rfl
    · simp only [raw]
      rw [same]
      rfl
    · simp only [raw]
      rw [same]
      rfl
    · rfl
    · rfl
    · exact round.enters.view
    · exact round.enters.height
    · rfl
    · exact voteIdx ▸ (kept signers t.signCache signs).insert vote round.enters.view s.pub
        known signed
    · exact kept committers t.commitCache commits
    · intro own
      exact absurd own ownCommit
    · intro more
      rw [same] at more
      simp [commitsSent, Node.onCore] at more
  obtain ⟨more, shape, after, tally⟩ := voting.checkAndCommit round connected (fun _ => ownCommit)
  rw [executed, accepts]
  refine ⟨more, shape, after, tally.trans ?_⟩
  have added : ((t.signCache.keep sameView).insert vote).size (fun m => decide (m.blockHash = hash))
    =
      (t.signCache.keep sameView).size (fun m => decide (m.blockHash = hash)) + 1 :=
    size_insert_vote vote rfl newVote
  have counted : voted.tally hash = { t.tally hash with signs := (t.tally hash).signs + 1 } := by
    ext <;> simp only [Core.tally, Core.haveSign, Core.haveCommit, core]
    · rw [added, KeyedTable.size_keep t.signCache _ sameView (ofView signers t.signCache signs)]
    · exact KeyedTable.size_keep t.commitCache _ sameView (ofView committers t.commitCache commits)
    · simp [commitsSent]
    · simp [sealsGenerated]
  rw [counted]

/-- A message on its way to the node, with the surroundings it will find. -/
structure Delivery where
  ctx : Ctx
  sender : Nat
  packet : Packet

def Delivery.call (d : Delivery) : Ctx × Event := (d.ctx, .handleMsg d.sender d.packet)

def signersOf (deliveries : List Delivery) : List Nat :=
  (signsOf (deliveries.map Delivery.packet)).map PBFTMsg.idx

def committersOf (deliveries : List Delivery) : List Nat :=
  (commitsOf (deliveries.map Delivery.packet)).map PBFTMsg.idx

/-- Votes on the block, valid and of other nodes, with no sender twice in one phase. -/
structure Votes (C : Crypto) (nodes : NodeTable) (s : Node) (hash : H256)
    (signers committers : List Nat) (deliveries : List Delivery) : Prop where
  connected : ∀ d ∈ deliveries, Connected nodes d.ctx
  votes : ∀ d ∈ deliveries, d.packet.isVote = true
  valid : ∀ d ∈ deliveries, ValidVote C nodes s.consensusBlockNumber s.view hash d.packet.msg
  foreign : ∀ d ∈ deliveries, d.packet.msg.idx ≠ s.nodeIdx
  signs : (signersOf deliveries).Nodup
  newSigns : ∀ idx ∈ signersOf deliveries, idx ∉ signers
  commits : (committersOf deliveries).Nodup
  newCommits : ∀ idx ∈ committersOf deliveries, idx ∉ committers

section Deliveries

variable {deliveries rest : List Delivery} {d : Delivery}

theorem Votes.sign {m : SignReq} (votes : Votes C nodes s hash signers committers (d :: rest))
    (kind : d.packet = .sign m) :
    m.idx ∉ signers ∧ Votes C nodes s hash (m.idx :: signers) committers rest := by
  have split : signersOf (d :: rest) = m.idx :: signersOf rest := by simp [signersOf, kind]
  have others : committersOf (d :: rest) = committersOf rest := by simp [committersOf, kind]
  have signs := votes.signs
  have newSigns := votes.newSigns
  rw [split] at signs newSigns
  refine ⟨newSigns m.idx List.mem_cons_self,
    fun e h => votes.connected e (List.mem_cons_of_mem _ h), fun e h =>
      votes.votes e (List.mem_cons_of_mem _ h), fun e h => votes.valid e (List.mem_cons_of_mem _ h),
    fun e h => votes.foreign e (List.mem_cons_of_mem _ h), signs.of_cons, ?_,
    others ▸ votes.commits, others ▸ votes.newCommits⟩
  intro idx member counted
  rcases List.mem_cons.mp counted with rfl | old
  · exact (List.nodup_cons.mp signs).1 member
  · exact newSigns idx (List.mem_cons_of_mem _ member) old

theorem Votes.commit {m : CommitReq} (votes : Votes C nodes s hash signers committers (d :: rest))
    (kind : d.packet = .commit m) :
    m.idx ∉ committers ∧ Votes C nodes s hash signers (m.idx :: committers) rest := by
  have split : committersOf (d :: rest) = m.idx :: committersOf rest := by simp [committersOf, kind]
  have others : signersOf (d :: rest) = signersOf rest := by simp [signersOf, kind]
  have commits := votes.commits
  have newCommits := votes.newCommits
  rw [split] at commits newCommits
  refine ⟨newCommits m.idx List.mem_cons_self,
    fun e h => votes.connected e (List.mem_cons_of_mem _ h), fun e h =>
      votes.votes e (List.mem_cons_of_mem _ h), fun e h => votes.valid e (List.mem_cons_of_mem _ h),
    fun e h => votes.foreign e (List.mem_cons_of_mem _ h), others ▸ votes.signs,
    others ▸ votes.newSigns, commits.of_cons, ?_⟩
  intro idx member counted
  rcases List.mem_cons.mp counted with rfl | old
  · exact (List.nodup_cons.mp commits).1 member
  · exact newCommits idx (List.mem_cons_of_mem _ member) old

theorem Votes.idx_ne_own (votes : Votes C nodes s hash signers committers deliveries) :
    (∀ idx ∈ signersOf deliveries, idx ≠ s.nodeIdx) ∧
      ∀ idx ∈ committersOf deliveries, idx ≠ s.nodeIdx := by
  constructor <;>
  · intro idx member
    obtain ⟨m, among, rfl⟩ := List.mem_map.mp member
    obtain ⟨packet, listed, kind⟩ := List.mem_filterMap.mp among
    obtain ⟨e, here, rfl⟩ := List.mem_map.mp listed
    have other := votes.foreign e here
    cases found : e.packet <;> rw [found] at kind other <;> cases kind
    exact other

theorem Votes.withOwn (votes : Votes C nodes s hash signers committers deliveries)
    {more : List Nat} (shape : more = committers ∨ more = s.nodeIdx :: committers) :
    Votes C nodes s hash (s.nodeIdx :: signers) more deliveries ∧
      Votes C nodes s hash signers more deliveries := by
  obtain ⟨foreignSigns, foreignCommits⟩ := votes.idx_ne_own
  have newSigns : ∀ idx ∈ signersOf deliveries, idx ∉ s.nodeIdx :: signers := by
    intro idx member counted
    rcases List.mem_cons.mp counted with own | old
    · exact foreignSigns idx member own
    · exact votes.newSigns idx member old
  have newCommits : ∀ idx ∈ committersOf deliveries, idx ∉ more := by
    intro idx member counted
    rcases shape with rfl | rfl
    · exact votes.newCommits idx member counted
    · rcases List.mem_cons.mp counted with own | old
      · exact foreignCommits idx member own
      · exact votes.newCommits idx member old
  exact ⟨{ votes with newSigns := newSigns, newCommits := newCommits },
    { votes with newCommits := newCommits }⟩

theorem Collecting.run (round : Round C nodes s req hash block) (early : List Delivery) :
    ∀ {t : Node} {signers committers : List Nat}, Collecting C nodes s hash signers committers t →
      s.nodeIdx ∉ signers → s.nodeIdx ∉ committers →
      Votes C nodes s hash signers committers (early ++ rest) →
      ∃ signers' committers', s.nodeIdx ∉ signers' ∧ s.nodeIdx ∉ committers' ∧
        Votes C nodes s hash signers' committers' rest ∧
        Collecting C nodes s hash signers' committers' (t.run C (early.map Delivery.call)) ∧
        (t.run C (early.map Delivery.call)).tally hash = { t.tally hash with
          signs := (t.tally hash).signs + (signersOf early).length
          commits := (t.tally hash).commits + (committersOf early).length } := by
  induction early with
  | nil =>
      intro t signers committers now ownSign ownCommit votes
      exact ⟨signers, committers, ownSign, ownCommit, votes, now, rfl⟩
  | cons d early ih =>
      intro t signers committers now ownSign ownCommit votes
      have connected := votes.connected d List.mem_cons_self
      have valid := votes.valid d List.mem_cons_self
      have foreign := votes.foreign d List.mem_cons_self
      have kind := votes.votes d List.mem_cons_self
      cases packet : d.packet with
      | prepare req => rw [packet] at kind; cases kind
      | viewChange req => rw [packet] at kind; cases kind
      | sign m =>
          rw [packet] at valid foreign
          obtain ⟨other, later⟩ := votes.sign packet
          obtain ⟨after, counted⟩ := now.sign round connected m valid foreign other
          have step : t.next C d.call = t.handleSignMsg C d.ctx m := by
            simp only [Delivery.call, Node.next, Node.step, packet, Node.handlePacket]
          have own : s.nodeIdx ∉ m.idx :: signers :=
            fun member => (List.mem_cons.mp member).elim (fun same => foreign same.symm) ownSign
          rw [← step] at after counted
          obtain ⟨signers', committers', a, b, c, e, tally⟩ := ih after own ownCommit later
          refine ⟨signers', committers', a, b, c, e, tally.trans ?_⟩
          rw [counted]
          ext <;> simp [signersOf, committersOf, packet]
          omega
      | commit m =>
          rw [packet] at valid foreign
          obtain ⟨other, later⟩ := votes.commit packet
          obtain ⟨after, counted⟩ := now.commit round connected m valid foreign other
          have step : t.next C d.call = t.handleCommitMsg C d.ctx m := by
            simp only [Delivery.call, Node.next, Node.step, packet, Node.handlePacket]
          have own : s.nodeIdx ∉ m.idx :: committers :=
            fun member => (List.mem_cons.mp member).elim (fun same => foreign same.symm) ownCommit
          rw [← step] at after counted
          obtain ⟨signers', committers', a, b, c, e, tally⟩ := ih after ownSign own later
          refine ⟨signers', committers', a, b, c, e, tally.trans ?_⟩
          rw [counted]
          ext <;> simp [signersOf, committersOf, packet]
          omega

theorem Voting.run (round : Round C nodes s req hash block) (late : List Delivery) :
    ∀ {t : Node} {signers committers : List Nat},
      Voting C nodes s req hash block signers committers t →
      Votes C nodes s hash signers committers late →
      ∃ signers' committers',
        Voting C nodes s req hash block signers' committers' (t.run C (late.map Delivery.call)) ∧
        (t.run C (late.map Delivery.call)).tally hash =
          (late.map Delivery.packet).foldl (Tally.vote s.quorum) (t.tally hash) := by
  induction late with
  | nil =>
      intro t signers committers now votes
      exact ⟨signers, committers, now, rfl⟩
  | cons d late ih =>
      intro t signers committers now votes
      have connected := votes.connected d List.mem_cons_self
      have valid := votes.valid d List.mem_cons_self
      have foreign := votes.foreign d List.mem_cons_self
      have kind := votes.votes d List.mem_cons_self
      cases packet : d.packet with
      | prepare req => rw [packet] at kind; cases kind
      | viewChange req => rw [packet] at kind; cases kind
      | sign m =>
          rw [packet] at valid foreign
          obtain ⟨other, later⟩ := votes.sign packet
          obtain ⟨more, shape, after, counted⟩ := now.sign round connected m valid foreign other
          have step : t.next C d.call = t.handleSignMsg C d.ctx m := by
            simp only [Delivery.call, Node.next, Node.step, packet, Node.handlePacket]
          rw [← step] at after counted
          obtain ⟨signers', committers', final, tally⟩ := ih after (later.withOwn shape).2
          refine ⟨signers', committers', final, tally.trans ?_⟩
          rw [counted, List.map_cons, List.foldl_cons, packet]
      | commit m =>
          rw [packet] at valid foreign
          obtain ⟨other, later⟩ := votes.commit packet
          obtain ⟨after, counted⟩ := now.commit round connected m valid foreign other
          have step : t.next C d.call = t.handleCommitMsg C d.ctx m := by
            simp only [Delivery.call, Node.next, Node.step, packet, Node.handlePacket]
          rw [← step] at after counted
          obtain ⟨signers', committers', final, tally⟩ := ih after later
          refine ⟨signers', committers', final, tally.trans ?_⟩
          rw [counted, List.map_cons, List.foldl_cons, packet]

end Deliveries

end Rounds

/-- For every order of delivery: with a quorum of signatures at the end the proposal is locked and
our commit has gone out, and with a quorum of commits besides the callback has run once, exactly
when fewer signatures than the quorum came before the proposal and fewer commits than the quorum
came before the signature that completes it. -/
theorem quorum_fires_iff (C : Crypto) (nodes : NodeTable) (s : Node) (req : PrepareReq)
    (hash : H256) (block : Bytes) (round : Round C nodes s req hash block)
    (early late : List Delivery) (ctx : Ctx) (sender : Nat) (connected : Connected nodes ctx)
    (valid : s.validated C ctx req = some (hash, block))
    (votes : Votes C nodes s hash [] [] (early ++ late)) :
    let final := s.run C ((early ++ ⟨ctx, sender, .prepare req⟩ :: late).map Delivery.call)
    ((s.quorum ≤ final.haveSign hash → final.committedPrepareCache = req ∧
        commitsSent hash final.log = commitsSent hash s.log + 1) ∧
      (s.quorum ≤ final.haveSign hash → s.quorum ≤ final.haveCommit hash →
        sealsGenerated hash final.log = sealsGenerated hash s.log + 1)) ↔
    (signersOf early).length < s.quorum ∧
      (s.quorum ≤ (signersOf early).length + 1 + (signersOf late).length →
        (committersOf early).length + commitsUntil (s.quorum - 1 - (signersOf early).length)
          (late.map Delivery.packet) < s.quorum) := by
  intro final
  obtain ⟨signers, committers, ownSign, ownCommit, later, collecting, collected⟩ :=
    Collecting.run round early (Collecting.start round) (by simp) (by simp) votes
  obtain ⟨more, shape, voting, prepared⟩ :=
    collecting.prepare round connected valid sender ownSign ownCommit
  obtain ⟨signers', committers', voted, tallied⟩ := voting.run round late (later.withOwn shape).1
  have split : final =
    Node.run C ((s.run C (early.map Delivery.call)).handlePrepareMsg C ctx sender req
      false) (late.map Delivery.call) := by
    simp only [final, Node.run, Lib.run, List.map_append, List.map_cons, List.foldl_append,
      List.foldl_cons]
    rfl
  rw [← split] at voted tallied
  have noSign : (s.tally hash).signs = 0 := by
    simpa [Core.tally, Core.haveSign, KeyedTable.size] using round.noSign
  have noCommit : (s.tally hash).commits = 0 := by
    simpa [Core.tally, Core.haveCommit, KeyedTable.size] using round.noCommit
  have outcome : final.tally hash = Tally.round s.quorum (signersOf early).length
      (committersOf early).length (late.map Delivery.packet) (s.tally hash) := by
    rw [tallied, prepared, collected]
    rfl
  have isVote : ∀ p ∈ late.map Delivery.packet, p.isVote = true := by
    intro p member
    obtain ⟨d, listed, rfl⟩ := List.mem_map.mp member
    exact later.votes d listed
  have fires := Tally.round_fires s.quorum (signersOf early).length (committersOf early).length
    (late.map Delivery.packet) isVote (s.tally hash) noSign noCommit
  rw [← outcome] at fires
  have lateSigns : (signsOf (late.map Delivery.packet)).length = (signersOf late).length := by
    simp [signersOf]
  rw [lateSigns] at fires
  rw [← fires]
  constructor
  · rintro ⟨locks, seals⟩
    exact ⟨fun reached => (locks reached).2, seals⟩
  · rintro ⟨sent, seals⟩
    refine ⟨fun reached => ⟨voted.lock ?_, sent reached⟩, seals⟩
    have count : commitsSent hash final.log = commitsSent hash s.log + 1 := sent reached
    omega

def toyMiner : Node :=
  Node.run Crypto.toy (toyNode (.consecutive 4 0)) (fromGenesis (.consecutive 4 0) [])

def toyDelivery (packet : Packet) : Delivery := ⟨Ctx.executing (.consecutive 4 0), 0, packet⟩

theorem toyMiner_round :
    Round Crypto.toy (.consecutive 4 0) toyMiner (toyPrepare 0 1 0 7) 8 toyBlock where
  miner := by decide +kernel
  known := by decide +kernel
  ownKey := by decide +kernel
  enters := ⟨by decide +kernel, by decide +kernel, by decide +kernel, by decide +kernel⟩
  unsaved := by decide +kernel
  unprepared := by decide +kernel
  noSign := by decide +kernel
  noCommit := by decide +kernel
  items := by decide +kernel

theorem toyMiner_votes (packets : List Packet) (votes : ∀ p ∈ packets, p.isVote = true)
    (fields : ∀ p ∈ packets, p.msg.height = 1 ∧ p.msg.view = 0 ∧ p.msg.blockHash = 8 ∧
      p.msg.idx ≠ 1) (signed : ∀ p ∈ packets,
      Node.checkSign Crypto.toy (Ctx.executing (.consecutive 4 0)) p.msg = true)
    (signs : (signersOf (packets.map toyDelivery)).Nodup)
    (commits : (committersOf (packets.map toyDelivery)).Nodup) :
    Votes Crypto.toy (.consecutive 4 0) toyMiner 8 [] [] (packets.map toyDelivery) := by
  have number : toyMiner.consensusBlockNumber = 1 ∧ toyMiner.view = 0 ∧ toyMiner.nodeIdx = 1 := by
    decide +kernel
  refine ⟨?_, ?_, ?_, ?_, signs, by simp, commits, by simp⟩ <;>
    (intro d member; obtain ⟨p, listed, rfl⟩ := List.mem_map.mp member)
  · exact ⟨rfl, rfl⟩
  · exact votes p listed
  · obtain ⟨height, view, block, -⟩ := fields p listed
    obtain ⟨node, found, first, second⟩ := Node.checkSign_registered p.msg (signed p listed)
    refine ⟨height.trans number.1.symm, view.trans number.2.1.symm, block, node.nodeId,
      ?_, ?_, second⟩
    · exact congrArg (Option.map NodeConnParams.nodeId) found
    · exact block ▸ first
  · rw [number.2.2]
    exact (fields p listed).2.2.2

/-- A signature before the proposal, then commits around the one that completes the quorum. -/
theorem mixed_order_fires :
    let early := [Packet.sign (toyVote 0 0 1 0 8), .commit (toyVote 3 0 1 0 8)].map toyDelivery
    let late := [Packet.commit (toyVote 0 0 1 0 8), .sign (toyVote 2 0 1 0 8),
      .commit (toyVote 2 0 1 0 8)].map toyDelivery
    let final := toyMiner.run Crypto.toy
      ((early ++ toyDelivery (.prepare (toyPrepare 0 1 0 7)) :: late).map Delivery.call)
    final.haveSign 8 = 3 ∧ final.haveCommit 8 = 4 ∧
      (toyMiner.quorum ≤ final.haveSign 8 → toyMiner.quorum ≤ final.haveCommit 8 →
        sealsGenerated 8 final.log = sealsGenerated 8 toyMiner.log + 1) := by
  intro early late final
  refine ⟨by decide +kernel, by decide +kernel, ?_⟩
  have votes := toyMiner_votes [.sign (toyVote 0 0 1 0 8), .commit (toyVote 3 0 1 0 8),
    .commit (toyVote 0 0 1 0 8), .sign (toyVote 2 0 1 0 8), .commit (toyVote 2 0 1 0 8)]
    (by decide +kernel) (by decide +kernel) (by decide +kernel) (by decide +kernel)
      (by decide +kernel)
  exact ((quorum_fires_iff Crypto.toy (.consecutive 4 0) toyMiner (toyPrepare 0 1 0 7) 8 toyBlock
    toyMiner_round early late (Ctx.executing (.consecutive 4 0)) 0 ⟨rfl, rfl⟩ (by decide +kernel)
    votes).mpr ⟨by decide +kernel, by decide +kernel⟩).2

/-- The signatures of the three others come first, and our own makes four: the count is never
equal to the quorum when it is looked at. With three early commits the callback is missed. -/
theorem early_quorum_missed :
    let signs := [Packet.sign (toyVote 0 0 1 0 8), .sign (toyVote 2 0 1 0 8),
      .sign (toyVote 3 0 1 0 8)]
    let commits := [Packet.commit (toyVote 0 0 1 0 8), .commit (toyVote 2 0 1 0 8),
      .commit (toyVote 3 0 1 0 8)]
    let proposal := toyDelivery (.prepare (toyPrepare 0 1 0 7))
    let unlocked := toyMiner.run Crypto.toy
      ((signs.map toyDelivery ++ [proposal]).map Delivery.call)
    let unsaved := toyMiner.run Crypto.toy
      ((commits.map toyDelivery ++ proposal :: signs.map toyDelivery).map Delivery.call)
    Round Crypto.toy (.consecutive 4 0) toyMiner (toyPrepare 0 1 0 7) 8 toyBlock ∧
    toyMiner.validated Crypto.toy (Ctx.executing (.consecutive 4 0)) (toyPrepare 0 1 0 7) =
      some (8, toyBlock) ∧
    Votes Crypto.toy (.consecutive 4 0) toyMiner 8 [] [] (signs.map toyDelivery) ∧
    Votes Crypto.toy (.consecutive 4 0) toyMiner 8 [] [] ((commits ++ signs).map toyDelivery) ∧
    toyMiner.quorum = 3 ∧
    unlocked.haveSign 8 = 4 ∧ unlocked.committedPrepareCache ≠ toyPrepare 0 1 0 7 ∧
    commitsSent 8 unlocked.log = 0 ∧
    unsaved.haveSign 8 = 4 ∧ unsaved.haveCommit 8 = 4 ∧ sealsGenerated 8 unsaved.log = 0 := by
  intro signs commits proposal unlocked unsaved
  refine ⟨toyMiner_round, by decide +kernel, ?_, ?_, by decide +kernel⟩
  · exact toyMiner_votes signs (by decide +kernel) (by decide +kernel) (by decide +kernel)
      (by decide +kernel) (by decide +kernel)
  · exact toyMiner_votes (commits ++ signs) (by decide +kernel) (by decide +kernel)
      (by decide +kernel)
      (by decide +kernel) (by decide +kernel)

end UtispaceChain
