import UtispaceChain.PbftSeal.Delivery

/-! Whether the votes of a node reach its peers. -/

namespace UtispaceChain

open Lib

namespace PBFTPeer

variable {p : PBFTPeer} {toNormal : Bool} {nodes : NodeTable} {packet : Packet}
    {filter : List Public}

@[simp] theorem broadcastMark_id (type : PacketType) (key : MaskKey) :
    (p.broadcastMark type key).id = p.id := rfl

@[simp] theorem broadcastMark_sent (type : PacketType) (key : MaskKey) :
    (p.broadcastMark type key).sent = p.sent := rfl

@[simp] theorem broadcastMark_received (type : PacketType) (key : MaskKey) :
    (p.broadcastMark type key).received = p.received := rfl

theorem broadcastFilter_mark {type other : PacketType} {key marked : MaskKey}
    (known : (p.broadcastMark type key).broadcastFilter other marked = true) :
    other = type ∧ marked = key ∨ p.broadcastFilter other marked = true := by
  by_cases same : other = type
  · subst same
    have pushed : ((if kKnown other < (p.known other).size then (p.known other).pop
        else p.known other).push key).exist marked = true := by
      simpa [broadcastMark, broadcastFilter] using known
    rcases QueueSet.exist_push _ pushed with new | old
    · exact Or.inl ⟨rfl, new⟩
    · right
      split_ifs at old
      · exact QueueSet.exist_pop _ old
      · exact old
  · right
    simpa [broadcastMark, broadcastFilter, Function.update_of_ne same] using known

theorem broadcastMsg_cases (toNormal : Bool) (nodes : NodeTable) (packet : Packet)
    (filter : List Public) (p : PBFTPeer) : p.broadcastMsg toNormal nodes packet filter = p ∨
    p.id ∈ filter ∧ p.broadcastMsg toNormal nodes packet filter =
      p.broadcastMark packet.type packet.key ∨
    p.broadcastMsg toNormal nodes packet filter =
      { p with sent := packet :: p.sent }.broadcastMark packet.type packet.key := by
  unfold broadcastMsg
  split
  · exact Or.inl rfl
  · split_ifs with normal filtered
    · exact Or.inl rfl
    · exact Or.inr (Or.inl ⟨filtered, rfl⟩)
    · exact Or.inl rfl
    · exact Or.inr (Or.inr rfl)

theorem broadcastMsg_sends (miner : nodes.getAccountType p.id = some EN_ACCOUNT_TYPE_MINER)
    (unmarked : p.broadcastFilter packet.type packet.key = false) :
    packet ∈ (p.broadcastMsg toNormal nodes packet []).sent := by
  simp [broadcastMsg, miner, unmarked]

/-- Every mark of the peer stands for a message that went over its connection, or that was withheld
from the node registered under its index. -/
def Explained (passed : List (Option Public × Packet)) (p : PBFTPeer) : Prop :=
  ∀ type key, p.broadcastFilter type key = true → ∃ entry ∈ passed, entry.2.type = type ∧
  entry.2.key = key ∧
    (entry.2 ∈ p.sent ∨ entry.2 ∈ p.received ∨ entry.1 = some p.id)

variable {passed : List (Option Public × Packet)}

theorem Explained.unmarked (id : Public) (sent received : List Packet) :
    Explained passed ⟨id, fun _ => QueueSet.empty, sent, received⟩ := by
  intro type key known
  cases known

theorem Explained.grow (explained : p.Explained passed) (later : List (Option Public × Packet))
    {q : PBFTPeer} (id : q.id = p.id) (known : q.known = p.known) (sent : p.sent ⊆ q.sent)
    (received : p.received ⊆ q.received) :
    q.Explained (later ++ passed) := by
  intro type key marked
  have before : p.broadcastFilter type key = true := by
    rw [broadcastFilter, ← known]
    exact marked
  rcases explained type key before with ⟨entry, member, sameType, sameKey, origin⟩
  refine ⟨entry, List.mem_append_right _ member, sameType, sameKey, ?_⟩
  rcases origin with out | back | own
  · exact Or.inl (sent out)
  · exact Or.inr (Or.inl (received back))
  · exact Or.inr (Or.inr (id ▸ own))

theorem Explained.mark (explained : p.Explained passed) (origin : Option Public)
    (reason : packet ∈ p.sent ∨ packet ∈ p.received ∨ origin = some p.id) :
    (p.broadcastMark packet.type packet.key).Explained ((origin, packet) :: passed) := by
  intro type key marked
  rcases broadcastFilter_mark marked with ⟨rfl, rfl⟩ | old
  · exact ⟨(origin, packet), List.mem_cons_self, rfl, rfl, reason⟩
  · rcases explained type key old with ⟨entry, member, rest⟩
    exact ⟨entry, List.mem_cons_of_mem _ member, rest⟩

theorem Explained.broadcastMsg (explained : p.Explained passed) (origin : Option Public)
    (filtered : p.id ∈ filter → packet ∈ p.received ∨ origin = some p.id) :
    (p.broadcastMsg toNormal nodes packet filter).Explained ((origin, packet) :: passed) := by
  rcases broadcastMsg_cases toNormal nodes packet filter p with same | ⟨inside, marked⟩ | sent
  · rw [same]
    exact explained.grow [(origin, packet)] rfl rfl (List.Subset.refl _) (List.Subset.refl _)
  · rw [marked]
    exact explained.mark origin (Or.inr (filtered inside))
  · rw [sent]
    have longer : Explained passed { p with sent := packet :: p.sent } :=
      explained.grow [] rfl rfl (List.subset_cons_self _ _) (List.Subset.refl _)
    exact longer.mark origin (Or.inl List.mem_cons_self)

end PBFTPeer

namespace PeerTable

variable {toNormal : Bool}

def Explained (d : PeerTable) : Prop := ∀ p ∈ d.peers, p.Explained d.passed

theorem receive_received (node : Public) (packet : Packet) (p : PBFTPeer) (own : p.id = node) :
    packet ∈ (receive node packet p).received := by
  rw [receive, if_pos own]
  exact List.mem_cons_self

theorem receive_explained {passed : List (Option Public × Packet)} (node : Public) (packet : Packet)
    (p : PBFTPeer) (explained : p.Explained passed) : (receive node packet p).Explained passed := by
  unfold receive
  split_ifs
  · exact explained.grow [] rfl rfl (List.Subset.refl _) (List.subset_cons_self _ _)
  · exact explained

theorem receive_id (node : Public) (packet : Packet) (p : PBFTPeer) :
    (receive node packet p).id = p.id := by
  unfold receive
  split_ifs <;> rfl

theorem Explained.step {d : PeerTable} (explained : d.Explained) (operation : Operation) :
    (d.step toNormal operation).Explained := by
  cases operation with
  | connected id =>
      intro p member
      rcases List.mem_cons.mp member with rfl | old
      · exact PBFTPeer.Explained.unmarked id [] []
      · exact explained p old
  | disconnected id =>
      intro p member
      exact explained p (List.mem_filter.mp member).1
  | clearMask ctx =>
      cases host : ctx.host with
      | false => simpa [PeerTable.step, host] using explained
      | true =>
          intro p member
          simp only [PeerTable.step, host, if_true] at member ⊢
          rcases List.mem_map.mp member with ⟨q, -, rfl⟩
          exact PBFTPeer.Explained.unmarked q.id q.sent q.received
  | broadcast ctx packet =>
      cases host : ctx.host with
      | false => simpa [PeerTable.step, host] using explained
      | true =>
          intro p member
          simp only [PeerTable.step, host, if_true] at member ⊢
          rcases List.mem_map.mp member with ⟨q, inside, rfl⟩
          exact (explained q inside).broadcastMsg none nofun
  | handled ctx node packet relays =>
      have received : ∀ p ∈ d.peers.map (receive node packet), p.Explained d.passed ∧
          (p.id = node → packet ∈ p.received) := by
        intro p member
        rcases List.mem_map.mp member with ⟨q, inside, rfl⟩
        refine ⟨receive_explained node packet q (explained q inside), fun own => ?_⟩
        exact receive_received node packet q ((receive_id node packet q).symm.trans own)
      by_cases passes : relays = true ∧ ctx.host = true
      · intro p member
        simp only [PeerTable.step, if_pos passes] at member ⊢
        rcases List.mem_map.mp member with ⟨q, inside, rfl⟩
        rcases received q inside with ⟨before, back⟩
        apply before.broadcastMsg
        intro filtered
        rcases List.mem_cons.mp filtered with own | named
        · exact Or.inl (back own)
        · exact Or.inr (Option.mem_toList.mp named)
      · intro p member
        simp only [PeerTable.step, if_neg passes] at member ⊢
        exact (received p member).1

/-- What passed with the key of the vote is the vote itself, and was not withheld from the peer as
its author. -/
def KeysAgree (d : PeerTable) (vote : Packet) (p : PBFTPeer) : Prop :=
  ∀ entry ∈ d.passed, entry.2.type = vote.type → entry.2.key = vote.key →
    entry.2.SameVote vote ∧ entry.1 ≠ some p.id

instance (d : PeerTable) (vote : Packet) (p : PBFTPeer) : Decidable (d.KeysAgree vote p) :=
  inferInstanceAs (Decidable (∀ entry ∈ d.passed, _))

/-- The vote goes out to the peer now, or went over the connection before. -/
def Delivers (toNormal : Bool) (ctx : Ctx) (vote : Packet) (p : PBFTPeer) : Prop :=
  vote ∈ (p.broadcastMsg toNormal ctx.nodes vote []).sent ∨
    ∃ earlier, (earlier ∈ p.sent ∨ earlier ∈ p.received) ∧ earlier.SameVote vote

theorem Explained.delivers {d : PeerTable} (explained : d.Explained) (ctx : Ctx) (vote : Packet)
    (p : PBFTPeer) (connected : p ∈ d.peers)
    (miner : ctx.nodes.getAccountType p.id = some EN_ACCOUNT_TYPE_MINER)
    (agree : d.KeysAgree vote p) : Delivers toNormal ctx vote p := by
  cases marked : p.broadcastFilter vote.type vote.key with
  | false => exact Or.inl (PBFTPeer.broadcastMsg_sends miner marked)
  | true =>
      right
      rcases explained p connected vote.type vote.key marked with ⟨entry, member, type, key, origin⟩
      rcases agree entry member type key with ⟨same, other⟩
      rcases origin with out | back | withheld
      · exact ⟨entry.2, Or.inl out, same⟩
      · exact ⟨entry.2, Or.inr back, same⟩
      · exact absurd withheld other

theorem Explained.run (operations : List Operation) :
    ∀ entry ∈ PeerTable.trace toNormal {} operations, entry.1.Explained := by
  have all := run_invariant (PeerTable.step toNormal)
    (fun history d => d.Explained ∧ ∀ entry ∈ history, entry.1.Explained) (fun _ _ => True) {}
    ⟨nofun, by simp⟩ ?_ operations (fun _ _ => trivial)
  · exact all.2
  · intro history operation d before _
    refine ⟨before.1.step operation, ?_⟩
    intro entry member
    rcases List.mem_append.mp member with old | last
    · exact before.2 entry old
    · rw [List.mem_singleton.mp last]
      exact before.1

end PeerTable

/-- In every run in which whatever passed with the key of a vote since the masks were last cleared
is that vote: a vote goes out to every connected miner, unless it went over that connection
before. -/
theorem own_votes_delivered (C : Crypto) (toNormal : Bool) (ctx : Ctx) (setup : Node.Setup)
    (calls : List NetCall)
    (agree : ∀ entry ∈ PeerTable.trace toNormal {}
      (Node.operations C (Node.initEnv ctx setup) calls), ∀ now vote, entry.2 =
        .broadcast now vote → vote.IsVote → ∀ p ∈ entry.1.peers, now.nodes.getAccountType p.id =
          some EN_ACCOUNT_TYPE_MINER → entry.1.KeysAgree vote p) :
    ∀ entry ∈ PeerTable.trace toNormal {} (Node.operations C (Node.initEnv ctx setup) calls),
      ∀ now vote, entry.2 = .broadcast now vote → vote.IsVote → ∀ p ∈ entry.1.peers,
        now.nodes.getAccountType p.id = some EN_ACCOUNT_TYPE_MINER →
        PeerTable.Delivers toNormal now vote p := by
  intro entry member now vote call isVote p connected miner
  have explained := PeerTable.Explained.run _ entry member
  exact explained.delivers now vote p connected miner
    (agree entry member now vote call isVote p connected miner)

def toySigned (idx height view timestamp : Nat) (hash : H256) : PBFTMsg :=
  Core.signMsg Crypto.toy { Ctx.quiet (.consecutive 4 0) with now := timestamp }
    { sec := idx + 1, pub := idx + 1 }
    height view idx hash

/-- Node 1 at head 2 with the three other miners connected. The leader of view 0 proposes a block;
the block executes to hash 8 and is voted on. -/
def firstVote : List NetCall :=
  let nodes : NodeTable := .consecutive 4 0
  let early : Ctx := { Ctx.executing nodes with now := 3900 }
  [.connected 1, .connected 3, .connected 4,
    .call (Ctx.quiet nodes) 0 (.reportBlock { number := 2, hash := 5, timestamp := 1 }),
    .call early 1 (.handleMsg 0 (.sign (toySigned 0 3 0 3900 8))),
    .call early 3 (.handleMsg 2 (.prepare { toySigned 2 3 0 3900 7 with block := [1] }))]

/-- Tests on the messages sent are run over the history of the peers. -/
def Operation.sends (test : Ctx → Packet → Bool) (otherwise : Bool) : Operation → Bool
  | .broadcast now packet => test now packet
  | _ => otherwise

theorem exists_broadcast (history : List (PeerTable × Operation))
    (test : PeerTable → Ctx → Packet → Bool)
    (found : history.any (fun entry => entry.2.sends (test entry.1) false) = true) :
    ∃ d now packet, (d, Operation.broadcast now packet) ∈ history ∧ test d now packet = true := by
  rcases List.any_eq_true.mp found with ⟨⟨d, operation⟩, member, holds⟩
  cases operation with
  | broadcast now packet => exact ⟨d, now, packet, member, holds⟩
  | _ => cases holds

theorem first_vote_delivered :
    let nodes : NodeTable := .consecutive 4 0
    let history := PeerTable.trace false {} (Node.operations Crypto.toy (toyNode nodes) firstVote)
    ∃ d now vote, (d, Operation.broadcast now vote) ∈ history ∧
      vote = .sign (toySigned 1 3 0 3900 8) ∧
      d.peers.map PBFTPeer.id = [4, 3, 1] ∧ ∀ p ∈ d.peers, PeerTable.Delivers false now vote p := by
  intro nodes history
  let test := fun (d : PeerTable) (now : Ctx) (vote : Packet) =>
    decide (vote = .sign (toySigned 1 3 0 3900 8) ∧
    d.peers.map PBFTPeer.id = [4, 3, 1] ∧
    ∀ p ∈ d.peers, now.nodes.getAccountType p.id = some EN_ACCOUNT_TYPE_MINER)
  have voted : history.any (fun entry => entry.2.sends (test entry.1) false) = true := by
    decide +kernel
  have agree : history.all (fun entry => entry.2.sends (fun _ vote =>
      decide (∀ p ∈ entry.1.peers, entry.1.KeysAgree vote p)) true) = true := by
    decide +kernel
  rcases exists_broadcast history test voted with ⟨d, now, vote, member, facts⟩
  rcases of_decide_eq_true facts with ⟨same, ids, miners⟩
  refine ⟨d, now, vote, member, same, ids, ?_⟩
  intro p connected
  have cast : vote.IsVote := same ▸ trivial
  apply own_votes_delivered Crypto.toy false (Ctx.quiet nodes)
    { sec := 2, pub := 2, viewTimeout := 3000 } firstVote
    ?_ _ member now vote rfl cast p connected (miners p connected)
  intro entry inside later other call _ q here _
  have checked := List.all_eq_true.mp agree entry inside
  rw [call] at checked
  exact of_decide_eq_true checked q here

/-- After the change to view 1 the masks are clear. A peer sends the vote of view 0 back, and its
relaying marks all peers with the signature: the vote of view 1 for the same block reaches
nobody. -/
theorem vote_of_next_view_suppressed :
    let nodes : NodeTable := .consecutive 4 0
    let late : Ctx := { Ctx.executing nodes with now := 4000 }
    let calls := firstVote ++ [.call late 0 .checkTimeout,
      .call late 3 (.handleMsg 2 (.viewChange (toySigned 2 2 1 4000 5))),
      .call late 4 (.handleMsg 3 (.viewChange (toySigned 3 2 1 4000 5))),
      .call late 4 (.handleMsg 3 (.sign (toySigned 1 3 0 3900 8))),
      .call late 4 (.handleMsg 3 (.prepare { toySigned 3 3 1 4000 7 with block := [1] }))]
    let history := PeerTable.trace false {} (Node.operations Crypto.toy (toyNode nodes) calls)
    ∃ d now vote, (d, Operation.broadcast now vote) ∈ history ∧
      vote = .sign (toySigned 1 3 1 4000 8) ∧
      d.peers.map PBFTPeer.id = [4, 3, 1] ∧
      ∀ p ∈ d.peers, now.nodes.getAccountType p.id = some EN_ACCOUNT_TYPE_MINER ∧
        ¬ PeerTable.Delivers false now vote p := by
  intro nodes late calls history
  let test := fun (d : PeerTable) (now : Ctx) (vote : Packet) =>
    decide (vote = .sign (toySigned 1 3 1 4000 8) ∧
    d.peers.map PBFTPeer.id = [4, 3, 1] ∧
    ∀ p ∈ d.peers, now.nodes.getAccountType p.id = some EN_ACCOUNT_TYPE_MINER ∧
      vote ∉ (p.broadcastMsg false now.nodes vote []).sent ∧
      ∀ earlier ∈ p.sent ++ p.received, ¬ earlier.SameVote vote)
  have voted : history.any (fun entry => entry.2.sends (test entry.1) false) = true := by
    decide +kernel
  rcases exists_broadcast history test voted with ⟨d, now, vote, member, facts⟩
  rcases of_decide_eq_true facts with ⟨same, ids, silent⟩
  refine ⟨d, now, vote, member, same, ids, ?_⟩
  intro p connected
  rcases silent p connected with ⟨miner, unsent, unseen⟩
  refine ⟨miner, ?_⟩
  rintro (sent | ⟨earlier, passed, same⟩)
  · exact unsent sent
  · exact unseen earlier (List.mem_append.mpr passed) same

end UtispaceChain
