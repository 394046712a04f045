import UtispaceChain.PbftSeal.Micro

/-! Who is counted in the vote caches.

The caches are keyed by the text of the signature, and a key holder has more than one
signature of a hash. -/

namespace UtispaceChain

open Lib Relation

def OneVote (votes : VoteCache) : Prop :=
  ∀ a ∈ votes.entries, ∀ b ∈ votes.entries, a.blockHash = b.blockHash → a.idx = b.idx →
  a.sig = b.sig

/-- Entries under our own index carry the signature our key gives. -/
def OwnVotes (C : Crypto) (sec : Secret) (idx : Nat) (votes : VoteCache) : Prop :=
  ∀ a ∈ votes.entries, a.idx = idx → a.sig = C.sign sec a.blockHash

/-- The entries counted for a block have pairwise distinct indices. -/
def DistinctVotes (votes : VoteCache) (hash : H256) : Prop :=
  ((votes.entries.filter (fun m => decide (m.blockHash = hash))).map PBFTMsg.idx).Nodup

def voters (votes : VoteCache) (hash : H256) : Finset Nat :=
  ((votes.entries.filter (fun m => decide (m.blockHash = hash))).map PBFTMsg.idx).toFinset

section Tables

variable {C : Crypto} {sec : Secret} {idx : Nat} {votes : VoteCache}

theorem OneVote.empty : OneVote KeyedTable.empty := by
  intro a member
  cases member

theorem OneVote.keep (p : PBFTMsg → Bool) (once : OneVote votes) : OneVote (votes.keep p) := by
  intro a aMember b bMember
  exact once a ((votes.mem_keep p a).mp aMember).1 b ((votes.mem_keep p b).mp bMember).1

theorem OneVote.insert (req : PBFTMsg) (once : OneVote votes)
    (single : ∀ a ∈ votes.entries, a.blockHash = req.blockHash → a.idx = req.idx →
      a.sig = req.sig) :
    OneVote (votes.insert req) := by
  intro a aMember b bMember hash idx
  rcases (votes.mem_insert req a).mp aMember with rfl | ⟨aOld, -⟩
  · rcases (votes.mem_insert a b).mp bMember with rfl | ⟨bOld, -⟩
    · rfl
    · exact (single b bOld hash.symm idx.symm).symm
  · rcases (votes.mem_insert req b).mp bMember with rfl | ⟨bOld, -⟩
    · exact single a aOld hash idx
    · exact once a aOld b bOld hash idx

theorem OwnVotes.empty : OwnVotes C sec idx KeyedTable.empty := by
  intro a member
  cases member

theorem OwnVotes.keep (p : PBFTMsg → Bool) (own : OwnVotes C sec idx votes) :
    OwnVotes C sec idx (votes.keep p) := by
  intro a member
  exact own a ((votes.mem_keep p a).mp member).1

theorem OwnVotes.insert (req : PBFTMsg) (own : OwnVotes C sec idx votes)
    (signed : req.idx = idx → req.sig = C.sign sec req.blockHash) :
    OwnVotes C sec idx (votes.insert req) := by
  intro a member
  rcases (votes.mem_insert req a).mp member with rfl | ⟨old, -⟩
  · exact signed
  · exact own a old

theorem OneVote.distinct (once : OneVote votes) (hash : H256) : DistinctVotes votes hash := by
  have keys : votes.entries.Nodup := votes.nodup.of_map
  refine (keys.filter _).map_on ?_
  intro a aMember b bMember idx
  obtain ⟨aInside, aHash⟩ := List.mem_filter.mp aMember
  obtain ⟨bInside, bHash⟩ := List.mem_filter.mp bMember
  have hash : a.blockHash = b.blockHash := by
    rw [of_decide_eq_true aHash, of_decide_eq_true bHash]
  have sig := once a aInside b bInside hash idx
  exact List.inj_on_of_nodup_map votes.nodup aInside bInside (Prod.ext hash sig)

theorem DistinctVotes.card (hash : H256) (distinct : DistinctVotes votes hash) :
    (voters votes hash).card = votes.size (fun m => decide (m.blockHash = hash)) := by
  unfold voters
  rw [List.toFinset_card_of_nodup distinct, List.length_map]
  rfl

end Tables

structure VoteInv (C : Crypto) (c : Core) : Prop where
  signOnce : OneVote c.signCache
  commitOnce : OneVote c.commitCache
  ownSign : OwnVotes C c.sec c.nodeIdx c.signCache
  ownCommit : OwnVotes C c.sec c.nodeIdx c.commitCache

/-- A call brings no second signature of an index that is counted already, and no new index
of our own under which a commit is counted already. -/
def SingleVote (C : Crypto) (ctx : Ctx) (s : Node) : Event → Prop
  | .handleMsg _ (.sign req) => Node.checkSign C ctx req = true →
      ∀ a ∈ s.signCache.entries, a.blockHash = req.blockHash → a.idx = req.idx → a.sig = req.sig
  | .handleMsg _ (.commit req) => Node.checkSign C ctx req = true →
      ∀ a ∈ s.commitCache.entries, a.blockHash = req.blockHash → a.idx = req.idx → a.sig = req.sig
  | event => event.configures = true → ∀ nodeIdx, ctx.nodes.getIdx s.pub = some nodeIdx →
      nodeIdx ≠ s.nodeIdx → ∀ a ∈ s.commitCache.entries, a.idx ≠ nodeIdx

section Moves

variable {C : Crypto} {ctx : Ctx} {s : Node} {event : Event} {c d : Core}

theorem VoteInv.addPrepareReq (req : PrepareReq) (inv : VoteInv C c) :
    VoteInv C (c.addPrepareReq req) :=
  ⟨inv.signOnce.keep _, inv.commitOnce.keep _, inv.ownSign.keep _, inv.ownCommit.keep _⟩

theorem VoteInv.ownSingle {votes : VoteCache} (req : PrepareReq)
    (own : OwnVotes C c.sec c.nodeIdx votes) (a : PBFTMsg) (member : a ∈ votes.entries)
    (hash : a.blockHash = (c.ownVote C ctx req).blockHash)
    (idx : a.idx = (c.ownVote C ctx req).idx) : a.sig = (c.ownVote C ctx req).sig := by
  rw [own a member idx, hash]
  rfl

theorem VoteInv.move (single : SingleVote C ctx s event) (inv : VoteInv C c)
    (move : Micro C ctx s event c d) : VoteInv C d := by
  cases move with
  | storeSign sender req call fresh foreign signed =>
      subst call
      exact ⟨inv.signOnce.insert req (single signed), inv.commitOnce,
        inv.ownSign.insert req (fun same => absurd same foreign), inv.ownCommit⟩
  | storeCommit sender req call fresh foreign signed =>
      subst call
      exact ⟨inv.signOnce, inv.commitOnce.insert req (single signed), inv.ownSign,
        inv.ownCommit.insert req (fun same => absurd same foreign)⟩
  | storeViewChange => exact ⟨inv.signOnce, inv.commitOnce, inv.ownSign, inv.ownCommit⟩
  | reject => exact ⟨inv.signOnce, inv.commitOnce, inv.ownSign, inv.ownCommit⟩
  | accept =>
      exact VoteInv.addPrepareReq _ ⟨inv.signOnce, inv.commitOnce, inv.ownSign, inv.ownCommit⟩
  | propose number hash block call =>
      rw [Core.broadcastPrepareReq_eq]
      exact ⟨inv.signOnce, inv.commitOnce, inv.ownSign, inv.ownCommit⟩
  | prepareOwn =>
      exact VoteInv.addPrepareReq _ ⟨inv.signOnce, inv.commitOnce, inv.ownSign, inv.ownCommit⟩
  | voteSign =>
      rw [Core.broadcastSignReq_eq]
      cases ctx.host with
      | false => exact ⟨inv.signOnce, inv.commitOnce, inv.ownSign, inv.ownCommit⟩
      | true =>
          exact ⟨inv.signOnce.insert _ (VoteInv.ownSingle _ inv.ownSign), inv.commitOnce,
            inv.ownSign.insert _ (fun _ => rfl), inv.ownCommit⟩
  | lock => exact ⟨inv.signOnce, inv.commitOnce, inv.ownSign, inv.ownCommit⟩
  | voteCommit =>
      rw [Core.broadcastCommitReq_eq]
      cases ctx.host with
      | false => exact ⟨inv.signOnce, inv.commitOnce, inv.ownSign, inv.ownCommit⟩
      | true =>
          exact ⟨inv.signOnce, inv.commitOnce.insert _ (VoteInv.ownSingle _ inv.ownCommit),
            inv.ownSign, inv.ownCommit.insert _ (fun _ => rfl)⟩
  | save =>
      rcases c.checkAndSave_cases with same | ⟨-, -, -, -, block, sealed⟩
      · rw [same]
        exact inv
      · rw [sealed]
        exact ⟨inv.signOnce, inv.commitOnce, inv.ownSign, inv.ownCommit⟩
  | changeView => exact ⟨OneVote.empty, OneVote.empty, OwnVotes.empty, OwnVotes.empty⟩
  | report => exact ⟨inv.signOnce, inv.commitOnce, inv.ownSign, inv.ownCommit⟩
  | advance => exact ⟨inv.signOnce, inv.commitOnce, inv.ownSign, inv.ownCommit⟩
  | reconfigure _ nodeIdx call miners found changed samePub sameIdx sameCommits =>
      refine ⟨OneVote.empty, inv.commitOnce, OwnVotes.empty, ?_⟩
      intro a member idx
      by_cases moved : nodeIdx = s.nodeIdx
      · exact inv.ownCommit a member (by rw [sameIdx, ← moved]; exact idx)
      · have unused : ∀ a ∈ s.commitCache.entries, a.idx ≠ nodeIdx := by
          cases event with
          | reportBlock b => exact single rfl nodeIdx found moved
          | startGeneration => exact single rfl nodeIdx found moved
          | _ => cases call
        exact absurd idx (unused a (sameCommits ▸ member))
  | forget =>
      exact ⟨inv.signOnce.keep _, inv.commitOnce.keep _, inv.ownSign.keep _, inv.ownCommit.keep _⟩
  | collect =>
      exact ⟨inv.signOnce.keep _, inv.commitOnce.keep _, inv.ownSign.keep _, inv.ownCommit.keep _⟩
  | dropViewChanges => exact ⟨inv.signOnce, inv.commitOnce, inv.ownSign, inv.ownCommit⟩
  | sign => exact ⟨inv.signOnce, inv.commitOnce, inv.ownSign, inv.ownCommit⟩
  | send => exact ⟨inv.signOnce, inv.commitOnce, inv.ownSign, inv.ownCommit⟩
  | callback => exact ⟨inv.signOnce, inv.commitOnce, inv.ownSign, inv.ownCommit⟩

theorem VoteInv.step (single : SingleVote C ctx s event) (inv : VoteInv C s.toCore) :
    VoteInv C (s.step C ctx event).toCore :=
  moves_invariant (VoteInv C) Node.step_moves inv (fun _ _ before move => before.move single move)

end Moves

theorem Node.initEnv_caches (ctx : Ctx) (setup : Node.Setup) :
    (Node.initEnv ctx setup).signCache = KeyedTable.empty ∧
      (Node.initEnv ctx setup).commitCache = KeyedTable.empty ∧
      (Node.initEnv ctx setup).recvViewChangeReq = KeyedTable.empty := by
  unfold Node.initEnv
  dsimp only [Node.onCore]
  rcases Node.resetConfig_cases _ with ⟨same, -⟩ | ⟨nodeIdx, -, -, -, result⟩
  · rw [same]
    exact ⟨rfl, rfl, rfl⟩
  · rw [result]
    exact ⟨rfl, rfl, rfl⟩

theorem Node.initEnv_prepare (ctx : Ctx) (setup : Node.Setup) :
    (Node.initEnv ctx setup).prepareCache.view = Invalid256 ∧
      (Node.initEnv ctx setup).committedPrepareCache = setup.backup.getD {} := by
  unfold Node.initEnv
  dsimp only [Node.onCore]
  rcases Node.resetConfig_cases _ with ⟨same, -⟩ | ⟨nodeIdx, -, -, -, result⟩
  · rw [same]
    exact ⟨rfl, rfl⟩
  · rw [result]
    exact ⟨rfl, rfl⟩

theorem Node.initEnv_log (ctx : Ctx) (setup : Node.Setup) : (Node.initEnv ctx setup).log = [] := by
  unfold Node.initEnv
  dsimp only [Node.onCore]
  rcases Node.resetConfig_cases _ with ⟨same, -⟩ | ⟨nodeIdx, -, -, -, result⟩
  · rw [same]
  · rw [result]
    rfl

theorem VoteInv.initial (C : Crypto) (ctx : Ctx) (setup : Node.Setup) :
    VoteInv C (Node.initEnv ctx setup).toCore := by
  obtain ⟨signs, commits, -⟩ := Node.initEnv_caches ctx setup
  refine ⟨?_, ?_, ?_, ?_⟩
  · rw [signs]
    exact OneVote.empty
  · rw [commits]
    exact OneVote.empty
  · rw [signs]
    exact OwnVotes.empty
  · rw [commits]
    exact OwnVotes.empty

theorem VoteInv.run (C : Crypto) (ctx : Ctx) (setup : Node.Setup) (calls : List (Ctx × Event))
    (single : ∀ entry ∈ Node.trace C (Node.initEnv ctx setup) calls,
      SingleVote C entry.2.1 entry.1 entry.2.2) :
    VoteInv C (Node.run C (Node.initEnv ctx setup) calls).toCore := by
  refine run_invariant (Node.next C) (fun _ s => VoteInv C s.toCore)
    (fun s call => SingleVote C call.1 s call.2) _ (VoteInv.initial C ctx setup) ?_ calls single
  intro events call _ before admitted
  exact before.step admitted

/-- Along every run in which no call brings a second signature for a counted index, the entries
counted for a block have distinct indices, and the sizes compared with the quorum are the
numbers of distinct voters. -/
theorem one_vote_per_miner (C : Crypto) (ctx : Ctx) (setup : Node.Setup)
    (calls : List (Ctx × Event))
    (single : ∀ entry ∈ Node.trace C (Node.initEnv ctx setup) calls,
      SingleVote C entry.2.1 entry.1 entry.2.2) (hash : H256) :
    let s := Node.run C (Node.initEnv ctx setup) calls
    DistinctVotes s.signCache hash ∧ DistinctVotes s.commitCache hash ∧
      s.haveSign hash ≤ (voters s.signCache hash).card ∧
      s.haveCommit hash ≤ (voters s.commitCache hash).card := by
  intro s
  have inv := VoteInv.run C ctx setup calls single
  have signs := inv.signOnce.distinct hash
  have commits := inv.commitOnce.distinct hash
  exact ⟨signs, commits, (signs.card hash).ge, (commits.card hash).ge⟩

def toyVote (idx nonce height view : Nat) (hash : H256) : PBFTMsg :=
  let m : PBFTMsg := {
    height := height, view := view, idx := idx, timestamp := 0, blockHash := hash
    sig := Crypto.toy.sign (idx + 1) hash + 16 * nonce }
  { m with sig2 := Crypto.toy.sign (idx + 1) (m.fieldsWithoutBlock Crypto.toy) }

def toyNode (nodes : NodeTable) : Node :=
  Node.initEnv (Ctx.quiet nodes) { sec := 2, pub := 2, viewTimeout := 3000 }

def toyDeliver (nodes : NodeTable) (packets : List Packet) : List (Ctx × Event) :=
  packets.map fun packet => (Ctx.quiet nodes, .handleMsg 0 packet)

theorem one_vote_each_distinct :
    let s := Node.run Crypto.toy (toyNode (.consecutive 4 0))
      (toyDeliver (.consecutive 4 0) [.sign (toyVote 0 0 1 0 7), .sign (toyVote 2 0 1 0 7)])
    s.haveSign 7 = 2 ∧ DistinctVotes s.signCache 7 := by
  refine ⟨by decide +kernel, ?_⟩
  refine (one_vote_per_miner Crypto.toy (Ctx.quiet (.consecutive 4 0))
    { sec := 2, pub := 2, viewTimeout := 3000 } (toyDeliver (.consecutive 4 0)
      [.sign (toyVote 0 0 1 0 7), .sign (toyVote 2 0 1 0 7)]) ?_ 7).1
  intro entry member
  have cases : entry ∈ [_, _] := member
  rw [List.mem_pair] at cases
  rcases cases with rfl | rfl
  · intro _ a inside
    cases inside
  · intro _ a inside hash idx
    have single : ∀ a ∈ (Node.run Crypto.toy (toyNode (.consecutive 4 0))
        (toyDeliver (.consecutive 4 0) [.sign (toyVote 0 0 1 0 7)])).signCache.entries, a.idx ≠
        2 := by
      decide +kernel
    exact absurd idx (single a inside)

/-- One miner sends two signatures of one hash and is counted twice, in both caches. -/
theorem second_signature_counted :
    let signs := Node.run Crypto.toy (toyNode (.consecutive 4 0))
      (toyDeliver (.consecutive 4 0) [.sign (toyVote 0 0 1 0 7), .sign (toyVote 0 1 1 0 7)])
    let commits := Node.run Crypto.toy (toyNode (.consecutive 4 0))
      (toyDeliver (.consecutive 4 0) [.commit (toyVote 0 0 1 0 7), .commit (toyVote 0 1 1 0 7)])
    ¬ DistinctVotes signs.signCache 7 ∧ signs.haveSign 7 = 2 ∧ (voters signs.signCache 7).card = 1 ∧
      ¬ DistinctVotes commits.commitCache 7 ∧ commits.haveCommit 7 = 2 ∧
      (voters commits.commitCache 7).card = 1 := by
  unfold DistinctVotes
  decide +kernel

end UtispaceChain
