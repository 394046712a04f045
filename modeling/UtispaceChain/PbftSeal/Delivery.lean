import UtispaceChain.PbftSeal.ViewChange

/-! Who gets a message: `broadcastMsg` and the keys each peer is marked with. -/

namespace UtispaceChain

open Lib

/-- `QueueSet`: the set is that of the elements in the queue, the oldest first. -/
structure QueueSet (α : Type) where
  queue : List α
  distinct : queue.Nodup

namespace QueueSet

variable {α : Type} [DecidableEq α] (s : QueueSet α)

def empty : QueueSet α := ⟨[], List.nodup_nil⟩

def exist (a : α) : Bool := decide (a ∈ s.queue)

def size : Nat := s.queue.length

def push (a : α) : QueueSet α :=
  if known : a ∈ s.queue then s
  else ⟨s.queue ++ [a], by
    have single : [a].Nodup := List.nodup_singleton a
    exact List.Nodup.append s.distinct single (by simpa [List.disjoint_singleton] using known)⟩

def pop : QueueSet α := ⟨s.queue.tail, s.distinct.tail⟩

theorem exist_push {a b : α} (known : (s.push a).exist b = true) : b = a ∨ s.exist b = true := by
  unfold push at known
  split_ifs at known
  · exact Or.inr known
  · have member : b ∈ s.queue ++ [a] := of_decide_eq_true known
    rcases List.mem_append.mp member with old | new
    · exact Or.inr (decide_eq_true old)
    · exact Or.inl (List.mem_singleton.mp new)

theorem exist_pop {a : α} (known : s.pop.exist a = true) : s.exist a = true :=
  decide_eq_true (List.mem_of_mem_tail (of_decide_eq_true known))

end QueueSet

inductive PacketType
  | prepareReqPacket
  | signReqPacket
  | commitReqPacket
  | viewChangeReqPacket
  deriving DecidableEq, Repr

/-- The keys of `broadcastMsg`; the digits of a hash or a signature are as many as its type has. -/
inductive MaskKey
  | hash (hash : H256)
  | sig (sig : Signature)
  | sigAndView (sig : Signature) (view : Nat)
  deriving DecidableEq, Repr

namespace Packet

def type : Packet → PacketType
  | prepare _ => .prepareReqPacket
  | sign _ => .signReqPacket
  | commit _ => .commitReqPacket
  | viewChange _ => .viewChangeReqPacket

def key : Packet → MaskKey
  | prepare req => .hash req.blockHash
  | sign req => .sig req.sig
  | commit req => .sig req.sig
  | viewChange req => .sigAndView req.sig req.view

def IsVote : Packet → Prop
  | sign _ => True
  | commit _ => True
  | _ => False

instance : (packet : Packet) → Decidable packet.IsVote
  | sign _ => inferInstanceAs (Decidable True)
  | commit _ => inferInstanceAs (Decidable True)
  | prepare _ => inferInstanceAs (Decidable False)
  | viewChange _ => inferInstanceAs (Decidable False)

/-- The same kind of message of the same node about the same block in the same view. -/
structure SameVote (packet other : Packet) : Prop where
  type : packet.type = other.type
  blockHash : packet.msg.blockHash = other.msg.blockHash
  idx : packet.msg.idx = other.msg.idx
  view : packet.msg.view = other.msg.view

instance (packet other : Packet) : Decidable (packet.SameVote other) :=
  decidable_of_iff (packet.type = other.type ∧ packet.msg.blockHash = other.msg.blockHash ∧
    packet.msg.idx = other.msg.idx ∧ packet.msg.view = other.msg.view)
    ⟨fun all => ⟨all.1, all.2.1, all.2.2.1, all.2.2.2⟩,
      fun same => ⟨same.type, same.blockHash, same.idx, same.view⟩⟩

end Packet

/-- How many keys a peer keeps of each type: `kKnownPrepare`, `kKnownSign`, `kKnownCommit`,
`kKnownViewChange`. -/
def kKnown : PacketType → Nat
  | .prepareReqPacket => 1024
  | .signReqPacket => 1024
  | .commitReqPacket => 1024
  | .viewChangeReqPacket => 1024

/-- A connected peer; what went over the connection is kept besides. -/
structure PBFTPeer where
  id : Public
  known : PacketType → QueueSet MaskKey := fun _ => QueueSet.empty
  sent : List Packet := []
  received : List Packet := []

namespace PBFTPeer

def broadcastFilter (p : PBFTPeer) (type : PacketType) (key : MaskKey) : Bool :=
  (p.known type).exist key

def broadcastMark (p : PBFTPeer) (type : PacketType) (key : MaskKey) : PBFTPeer :=
  let kept := if kKnown type < (p.known type).size then (p.known type).pop else p.known type
  { p with known := Function.update p.known type (kept.push key) }

def clearMask (p : PBFTPeer) : PBFTPeer := { p with known := fun _ => QueueSet.empty }

/-- One round of the loop of `broadcastMsg`. -/
def broadcastMsg (toNormal : Bool) (nodes : NodeTable) (packet : Packet) (filter : List Public)
    (p : PBFTPeer) :
    PBFTPeer :=
  match nodes.getAccountType p.id with
  | none => p
  | some accountType =>
      if packet.type ≠ .viewChangeReqPacket ∧ accountType ≠ EN_ACCOUNT_TYPE_MINER ∧
        toNormal = false then p
      else if p.id ∈ filter then p.broadcastMark packet.type packet.key
      else if p.broadcastFilter packet.type packet.key then p
      else { p with sent := packet :: p.sent }.broadcastMark packet.type packet.key

end PBFTPeer

/-- What happens to the peers, in the order in which it happens. -/
inductive Operation
  | connected (id : Public)
  | disconnected (id : Public)
  | clearMask (ctx : Ctx)
  | broadcast (ctx : Ctx) (packet : Packet)
  | handled (ctx : Ctx) (node : Public) (packet : Packet) (relays : Bool)

/-- The peers, and every message that went through `broadcastMsg` since the masks were cleared, a
relayed one with the node registered under its index. -/
structure PeerTable where
  peers : List PBFTPeer := []
  passed : List (Option Public × Packet) := []

namespace PeerTable

variable (toNormal : Bool)

def receive (node : Public) (packet : Packet) (p : PBFTPeer) : PBFTPeer :=
  if p.id = node then { p with received := packet :: p.received } else p

def step (d : PeerTable) : Operation → PeerTable
  | .connected id => { d with peers := { id := id } :: d.peers }
  | .disconnected id => { d with peers := d.peers.filter fun p => decide (p.id ≠ id) }
  | .clearMask ctx =>
      if ctx.host then { peers := d.peers.map PBFTPeer.clearMask, passed := [] } else d
  | .broadcast ctx packet =>
      if ctx.host then
        { peers := d.peers.map (PBFTPeer.broadcastMsg toNormal ctx.nodes packet [])
          passed := (none, packet) :: d.passed }
      else d
  | .handled ctx node packet relays =>
      let d := { d with peers := d.peers.map (receive node packet) }
      let origin := ctx.nodes.getPublicKey packet.msg.idx
      if relays = true ∧ ctx.host = true then
        { peers := d.peers.map
            (PBFTPeer.broadcastMsg toNormal ctx.nodes packet (node :: origin.toList))
          passed := (origin, packet) :: d.passed }
      else d

def trace (d : PeerTable) (operations : List Operation) : List (PeerTable × Operation) :=
  Lib.trace (step toNormal) d operations

end PeerTable

/-- A call of the node, with the peer that a message came from, or a change of the connections. -/
inductive NetCall
  | connected (id : Public)
  | disconnected (id : Public)
  | call (ctx : Ctx) (node : Public) (event : Event)

namespace Node

variable (C : Crypto)

/-- `reHandlePrepareReq` is reached, which begins with clearing the masks. -/
def reissues (s : Node) : Event → Bool
  | .shouldSeal => !s.cfgErr && s.isMiner && decide (s.getLeader = some s.nodeIdx) &&
      decide (s.consensusBlockNumber = s.committedPrepareCache.height) &&
      decide (s.consensusBlockNumber ≠ s.rawPrepareCache.height)
  | _ => false

/-- `checkAndChangeView` is reached with enough requests, and clears the masks at its end. -/
def changesView (ctx : Ctx) (s : Node) : Event → Bool
  | .handleMsg _ (.viewChange req) =>
      !s.isExistViewChange req && decide (req.idx ≠ s.nodeIdx) &&
        decide (s.highestBlock.number ≤ req.height) &&
        decide (s.view < req.view) &&
        !decide (req.height = s.highestBlock.number ∧ req.blockHash ≠ s.highestBlock.hash ∧
          ctx.hasBlock req.blockHash = false) &&
        checkSign C ctx req && decide (s.Completes req)
  | .checkTimeout => decide (s.timedOut ctx) && s.viewChangeSent ctx &&
      decide (u256Sub s.quorum 1 ≤ (s.startViewChange ctx).recvViewChangeReq.size
        (fun m => decide (m.view = u256Add s.toView 1)))
  | _ => false

/-- The end of `handleMsg`: recent messages about recent heights are passed on, checked or not. -/
def relays (ctx : Ctx) (s : Node) (m : PBFTMsg) : Bool :=
  let timeFlag := decide (ctx.now ≤ m.timestamp) || decide (ctx.now - m.timestamp < s.viewTimeout)
  let heightFlag := decide (s.highestBlock.number < m.height) ||
    decide (s.highestBlock.number - m.height < 10)
  timeFlag && heightFlag

def sentBy (s t : Node) : List Packet :=
  ((t.log.take (t.log.length - s.log.length)).filterMap fun
    | .sent packet => some packet
    | _ => none).reverse

def handledBy (ctx : Ctx) (node : Public) (t : Node) : Event → List Operation
  | .handleMsg _ packet => [.handled ctx node packet (t.relays ctx packet.msg)]
  | _ => []

def operationsOf (s : Node) : NetCall → List Operation
  | .connected id => [.connected id]
  | .disconnected id => [.disconnected id]
  | .call ctx node event =>
      let t := s.step C ctx event
      (if s.reissues event then [.clearMask ctx] else []) ++ (s.sentBy t).map (.broadcast ctx) ++
        (if s.changesView C ctx event then [.clearMask ctx] else []) ++ t.handledBy ctx node event

def afterCall (s : Node) : NetCall → Node
  | .call ctx _ event => s.step C ctx event
  | _ => s

def operations (s : Node) : List NetCall → List Operation
  | [] => []
  | call :: calls => s.operationsOf C call ++ operations (s.afterCall C call) calls

end Node

end UtispaceChain
