import Mathlib.Algebra.Group.Nat.Defs
import Mathlib.Data.Nat.Log
import Mathlib.Data.List.Basic
import Mathlib.Logic.Function.Basic
import Mathlib.Tactic.Common

/-! The table of known nodes: entries by identity, and buckets by distance.

A shared entry is its index in `entries`, and an index is never used again. A bucket holds weak
pointers, each of which is alive as long as `m_nodes` or someone outside the table has the entry. -/

namespace UtispaceChain.P2p

abbrev NodeID := BitVec 512

structure NodeIPEndpoint where
  address : Nat := 0
  udpPort : UInt16 := 0
  tcpPort : UInt16 := 0
  deriving DecidableEq, Repr

structure UdpEndpoint where
  address : Nat
  port : UInt16
  deriving DecidableEq, Repr

structure Node where
  id : NodeID := 0
  endpoint : NodeIPEndpoint := {}
  deriving DecidableEq, Repr

structure NodeEntry extends Node where
  distance : Nat := 0
  pending : Bool := true
  deriving DecidableEq, Repr

/-- The hash of an identity, and the switch for local addresses. -/
structure NodeTableParams where
  sha3 : NodeID → BitVec 256
  test_allowLocal : Bool := false

/-- `operator bool` -/
def NodeIPEndpoint.good (e : NodeIPEndpoint) : Bool := e.address ≠ 0 ∧ 0 < e.udpPort ∧ 0 < e.tcpPort

/-- The first `return` of `isPublicAddress` is always taken. -/
def isPublicAddress (_address : Nat) : Bool := true

def NodeIPEndpoint.isAllowed (c : NodeTableParams) (e : NodeIPEndpoint) : Bool :=
  if c.test_allowLocal then decide (e.address ≠ 0) else isPublicAddress e.address

/-- The number of times that the difference can be halved before it is zero, less one. -/
def NodeTableParams.distance (c : NodeTableParams) (a b : NodeID) : Nat :=
  Nat.log2 (c.sha3 a ^^^ c.sha3 b).toNat

structure EvictionTimeout where
  leastSeen : NodeID
  time : Nat
  new : NodeID
  deriving DecidableEq, Repr

inductive NodeTableEventType
  | NodeEntryAdded
  | NodeEntryDropped
  deriving DecidableEq, Repr

inductive DiscoveryPacket
  | pingNode (source : NodeIPEndpoint)
  | pong (destination : NodeIPEndpoint)
  | findNode (target : NodeID)
  | neighbours (nodes : List Node)
  deriving DecidableEq, Repr

/-- An accepted packet, with its signer and the endpoint it came from. -/
structure DiscoveryDatagram where
  sourceid : NodeID
  sender : UdpEndpoint
  packet : DiscoveryPacket
  deriving DecidableEq, Repr

def s_bins : Nat := 255
def s_bucketSize : Nat := 128
def s_alpha : Nat := 3
def c_reqTimeout : Nat := 300

def nlimit : Nat := 13

structure NodeTable where
  m_node : Node
  isOpen : Bool := false
  m_nodeEventHandler : Bool := false
  entries : List NodeEntry := []
  m_nodes : NodeID → Option Nat := fun _ => none
  held : List Nat := []
  m_state : List (List Nat) := List.replicate s_bins []
  m_evictions : List EvictionTimeout := []
  evictionChecks : Nat := 0
  m_pubkDiscoverPings : List Nat := []
  m_findNodeTimeout : List (NodeID × Nat) := []
  events : List (NodeID × NodeTableEventType) := []
  sent : List (NodeIPEndpoint × DiscoveryPacket) := []

namespace NodeTable

variable (c : NodeTableParams)

def entry (s : NodeTable) (n : Nat) : NodeEntry := s.entries.getD n {}

def alive (s : NodeTable) (n : Nat) : Bool := s.m_nodes (s.entry n).id = some n ∨ n ∈ s.held

def newEntry (node : Node) (pending : Bool) (s : NodeTable) : NodeTable :=
  { s with
    entries := s.entries ++ [{ node with distance := c.distance s.m_node.id node.id, pending }]
    m_nodes := Function.update s.m_nodes node.id (some s.entries.length) }

def modifyEntry (n : Nat) (f : NodeEntry → NodeEntry) (s : NodeTable) : NodeTable :=
  { s with entries := s.entries.modify n f }

def setPending (n : Nat) (s : NodeTable) : NodeTable :=
  s.modifyEntry n fun entry => { entry with pending := false }

def ping (to_ : NodeIPEndpoint) (s : NodeTable) : NodeTable :=
  { s with sent := s.sent ++ [(to_, .pingNode s.m_node.endpoint)] }

def appendEvent (id : NodeID) (event : NodeTableEventType) (s : NodeTable) : NodeTable :=
  if s.m_nodeEventHandler then { s with events := s.events ++ [(id, event)] } else s

/-- `unsigned` less one -/
def bucketIndex (s : NodeTable) (n : Nat) : Nat := ((s.entry n).distance + (2 ^ 32 - 1)) % 2 ^ 32

/-- `none` outside `m_state` -/
def bucket_UNSAFE (s : NodeTable) (n : Nat) : Option (List Nat) := s.m_state[s.bucketIndex n]?

def setBucket (n : Nat) (nodes : List Nat) (s : NodeTable) : NodeTable :=
  { s with m_state := s.m_state.set (s.bucketIndex n) nodes }

def evict (now leastSeen new : Nat) (s : NodeTable) : NodeTable :=
  if !s.isOpen then s
  else
    let timeout : EvictionTimeout :=
      { leastSeen := (s.entry leastSeen).id, time := now, new := (s.entry new).id }
    let s := { s with m_evictions := s.m_evictions ++ [timeout] }
    let s := if s.m_evictions.length = 1 then { s with evictionChecks := s.evictionChecks + 1 }
      else s
    s.ping (s.entry leastSeen).endpoint

/-- The `remove_if` of `noteActiveNode`: once its predicate was true it stays true. -/
def removeNoted (n : Nat) (nodes : List Nat) : List Nat × Bool :=
  nodes.foldl (fun sofar m =>
    let removed := sofar.2 || decide (m = n)
    (if removed then sofar.1 else sofar.1 ++ [m], removed)) ([], false)

/-- `noteActiveNode` of an entry that is not pending -/
def noteEntry (now n : Nat) (endpoint : UdpEndpoint) (s : NodeTable) : Option NodeTable :=
  let s := s.modifyEntry n fun entry =>
    { entry with endpoint :=
      { entry.endpoint with address := endpoint.address, udpPort := endpoint.port } }
  (s.bucket_UNSAFE n).map fun nodes =>
    let (nodes, removed) := removeNoted n nodes
    -- the loop starts again after each pointer that it erases
    let nodes := nodes.filter s.alive
    if s_bucketSize ≤ nodes.length then
      let contested := nodes.headD n
      if s.alive contested then (s.setBucket n nodes).evict now contested n
      else (s.setBucket n (nodes.tail ++ [n])).appendEvent (s.entry n).id .NodeEntryAdded
    else
      let s := s.setBucket n (nodes ++ [n])
      if removed then s else s.appendEvent (s.entry n).id .NodeEntryAdded

def noteActiveNode (now : Nat) (pubk : NodeID) (endpoint : UdpEndpoint) (s : NodeTable) :
    Option NodeTable :=
  if pubk = s.m_node.id then some s
  else if !(NodeIPEndpoint.mk endpoint.address endpoint.port endpoint.port).isAllowed c then some s
  else
    match s.m_nodes pubk with
    | none => some s
    | some n => if (s.entry n).pending then some s else s.noteEntry now n endpoint

def dropNode (n : Nat) (s : NodeTable) : Option NodeTable :=
  (s.bucket_UNSAFE n).map fun nodes =>
    (s.setBucket n (nodes.filter fun m => m ≠ n)).appendEvent (s.entry n).id .NodeEntryDropped

/-- `addNode` of a node that is not known -/
def addUnknown (node : Node) (s : NodeTable) : NodeTable :=
  if !node.endpoint.good then s
  else if node.id = 0 then
    { s with m_pubkDiscoverPings := node.endpoint.address :: s.m_pubkDiscoverPings }.ping
      node.endpoint
  else if (s.m_nodes node.id).isSome then s
  else (s.newEntry c node true).ping node.endpoint

/-- `addNode` of a known node, up to its call of `noteActiveNode` -/
def addKnown (node : Node) (s : NodeTable) : NodeTable := s.newEntry c node false

/-- The buckets that `nearestNodeEntries` goes through; its count of nodes is never raised. -/
def spread : Nat → Nat → Nat → List Nat
  | 0, _, _ => []
  | steps + 1, head, tail =>
      if head ≠ tail ∧ head < s_bins then
        head :: (if tail ≠ 0 then [tail] else []) ++ spread steps (head + 1) (tail - 1)
      else []

def bins (c : NodeTableParams) (s : NodeTable) (target : NodeID) : List Nat :=
  let lastBin := s_bins - 1
  let head := c.distance s.m_node.id target
  let tail := if head = 0 then lastBin else (head - 1) % s_bins
  if 1 < head ∧ tail ≠ lastBin then spread s_bins head tail
  else if head < 2 then (List.range s_bins).drop head
  else (List.range' 1 tail).reverse

/-- `none` if a bucket is outside `m_state`. -/
def nearestNodeEntries (s : NodeTable) (target : NodeID) : Option (List Nat) :=
  ((bins c s target).mapM fun i => s.m_state[i]?).map fun buckets =>
    let found := buckets.flatten.filter s.alive
    let sorted := found.mergeSort fun m n => c.distance target (s.entry m).id ≤
      c.distance target (s.entry n).id
    (sorted.filter fun n => (s.entry n).endpoint.good && (s.entry n).endpoint.isAllowed c).take
      s_bucketSize

def awaited (s : NodeTable) (now : Nat) (sourceid : NodeID) : Option EvictionTimeout :=
  s.m_evictions.find? fun e => e.leastSeen = sourceid ∧ now < e.time

/-- The case of a pong, up to the update of the own endpoint; `none` in the inner option where it
returns. -/
def answerPing (now : Nat) (sourceid : NodeID) (sender : UdpEndpoint) (s : NodeTable) :
    Option (Option NodeTable) :=
  match s.awaited now sourceid with
  | some eviction =>
      let s := { s with m_evictions := s.m_evictions.erase eviction }
      let dropped := match s.m_nodes eviction.new with
        | some n => s.dropNode n
        | none => some s
      dropped.map fun s => some (match s.m_nodes eviction.leastSeen with
        | some n => s.setPending n
        | none => s)
  | none =>
      match s.m_nodes sourceid with
      | some n => some (some (s.setPending n))
      | none =>
          if sender.address ∈ s.m_pubkDiscoverPings then
            let s :=
              { s with m_pubkDiscoverPings := s.m_pubkDiscoverPings.filter fun address => address ≠
                sender.address }
            some (some (s.addUnknown c ⟨sourceid, ⟨sender.address, sender.port, sender.port⟩⟩))
          else some none

def receivePong (now : Nat) (sourceid : NodeID) (sender : UdpEndpoint)
    (destination : NodeIPEndpoint) (s : NodeTable) :
    Option (Option NodeTable) :=
  (s.answerPing c now sourceid sender).map fun answered => answered.map fun s =>
    let endpoint := s.m_node.endpoint
    let address := if (!endpoint.good || !endpoint.isAllowed c) &&
      isPublicAddress destination.address then
      destination.address else endpoint.address
    { s with m_node :=
      { s.m_node with endpoint := { endpoint with address, udpPort := destination.udpPort } } }

/-- The switch of `onReceived`; `none` in the inner option where it returns. -/
def receive (now : Nat) (datagram : DiscoveryDatagram) (s : NodeTable) :
    Option (Option NodeTable) :=
  match datagram.packet with
  | .pong destination => s.receivePong c now datagram.sourceid datagram.sender destination
  | .neighbours nodes =>
      let fromSource (t : NodeID × Nat) : Bool := t.1 = datagram.sourceid
      let inTime (t : NodeID × Nat) : Bool := now - t.2 < c_reqTimeout
      let expected := s.m_findNodeTimeout.any fun t => fromSource t && inTime t
      let s :=
        { s with m_findNodeTimeout := s.m_findNodeTimeout.filter fun t => !(fromSource t) ||
            inTime t }
      some (some (if expected then nodes.foldl (fun s node => s.addUnknown c node) s else s))
  | .findNode target =>
      (s.nearestNodeEntries c target).map fun nearest =>
        let to_ : NodeIPEndpoint := ⟨datagram.sender.address, datagram.sender.port, 0⟩
        let outs := (List.range ((nearest.length + (nlimit - 1)) / nlimit)).map fun k =>
          (to_, DiscoveryPacket.neighbours (((nearest.drop (k * nlimit)).take nlimit).map
            fun n => (s.entry n).toNode))
        some { s with sent := s.sent ++ outs }
  | .pingNode source =>
      let source :=
        { source with address := datagram.sender.address, udpPort := datagram.sender.port }
      let s := s.addUnknown c ⟨datagram.sourceid, source⟩
      some (some { s with sent := s.sent ++ [(source, .pong source)] })

/-- The entries that `doCheckEvictions` drops. -/
def overdue (s : NodeTable) (now : Nat) : List Nat :=
  (s.m_evictions.filter fun e => c_reqTimeout < now - e.time).filterMap fun e => s.m_nodes e.new

def doCheckEvictions (now : Nat) (s : NodeTable) : Option NodeTable :=
  let drop := s.overdue now
  let remain := decide (0 < (s.m_evictions.length + 2 ^ 64 - drop.length) % 2 ^ 64)
  let s := { s with evictionChecks := s.evictionChecks - 1 }
  ((drop.destutter (· ≠ ·)).foldlM (fun (s : NodeTable) n => s.dropNode n) s).map fun s =>
    if remain then { s with evictionChecks := s.evictionChecks + 1 } else s

/-- One round of `doDiscover`; the nodes that it has tried are held by the caller of the next. -/
def doDiscover (now : Nat) (target : NodeID) (tried : List Nat) (s : NodeTable) :
    Option NodeTable :=
  if !s.isOpen then some s
  else
    (s.nearestNodeEntries c target).map fun nearest =>
      let asked := (nearest.filter fun n => n ∉ tried).take s_alpha
      { s with
        held := s.held ++ asked
        m_findNodeTimeout := s.m_findNodeTimeout ++ asked.map fun n => ((s.entry n).id, now)
        sent := s.sent ++ asked.map fun n => ((s.entry n).endpoint, .findNode target) }

end NodeTable

/-- What happens to a table. Outside it, shared pointers are copied and given up (`hold`). -/
inductive NodeTableEvent
  | addNode (node : Node) (known : Bool)
  | noteActiveNode (pubk : NodeID) (endpoint : UdpEndpoint)
  | dropNode (n : Nat)
  | onReceived (datagram : DiscoveryDatagram)
  | checkEvictions
  | discover (target : NodeID) (tried : List Nat)
  | hold (pointers : List Nat)
  | socket (isOpen : Bool)
  | setEventHandler (handler : Bool)
  deriving DecidableEq, Repr

namespace NodeTable

variable (c : NodeTableParams)

/-- An event up to its call of `noteActiveNode`, and that call, if there is one. -/
def prepare (now : Nat) (s : NodeTable) : NodeTableEvent →
    Option (NodeTable × Option (NodeID × UdpEndpoint))
  | .addNode node known =>
      if known then
        some (s.addKnown c node, some (node.id, ⟨node.endpoint.address, node.endpoint.udpPort⟩))
      else some (s.addUnknown c node, none)
  | .noteActiveNode pubk endpoint => some (s, some (pubk, endpoint))
  -- the caller has a shared pointer
  | .dropNode n => if s.alive n then (s.dropNode n).map fun s => (s, none) else some (s, none)
  | .onReceived datagram =>
      (s.receive c now datagram).map fun received => match received with
        | some s => (s, some (datagram.sourceid, datagram.sender))
        | none => (s, none)
  | .checkEvictions =>
      if s.evictionChecks = 0 then some (s, none) else (s.doCheckEvictions now).map
        fun s => (s, none)
  | .discover target tried => (s.doDiscover c now target tried).map fun s => (s, none)
  | .hold pointers => some ({ s with held := pointers.filter s.alive }, none)
  | .socket isOpen => some ({ s with isOpen }, none)
  | .setEventHandler handler => some ({ s with m_nodeEventHandler := handler }, none)

/-- `none` if a bucket outside `m_state` is used. -/
def step (now : Nat) (s : NodeTable) (event : NodeTableEvent) : Option NodeTable :=
  (s.prepare c now event).bind fun (s, call) =>
    match call with
    | some (pubk, endpoint) => s.noteActiveNode c now pubk endpoint
    | none => some s

end NodeTable

end UtispaceChain.P2p
