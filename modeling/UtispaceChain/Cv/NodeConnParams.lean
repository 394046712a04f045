import UtispaceChain.DevCrypto.Common

/-! The node table of `NodeConnParamsManager`: a map from node id to the node's
parameters, walked in the order of the ids. -/

namespace UtispaceChain

def EN_ACCOUNT_TYPE_MINER : Int := 1

structure NodeConnParams where
  nodeId : Public
  identityType : Int
  idx : Nat
  deriving DecidableEq, Repr

namespace NodeConnParams

def isMiner (node : NodeConnParams) : Bool := decide (node.identityType = EN_ACCOUNT_TYPE_MINER)

end NodeConnParams

structure NodeTable where
  entries : List NodeConnParams
  sorted : (entries.map NodeConnParams.nodeId).Pairwise (· < ·)

namespace NodeTable

variable (nodes : NodeTable)

def atIdx (idx : Nat) : Option NodeConnParams :=
  nodes.entries.find? (fun node => decide (node.idx = idx))

def getPublicKey (idx : Nat) : Option Public := (nodes.atIdx idx).map NodeConnParams.nodeId

def find (nodeId : Public) : Option NodeConnParams :=
  nodes.entries.find? (fun node => decide (node.nodeId = nodeId))

def getIdx (nodeId : Public) : Option Nat := (nodes.find nodeId).map NodeConnParams.idx

def getAccountType (nodeId : Public) : Option Int :=
  (nodes.find nodeId).map NodeConnParams.identityType

def getMinerNum : Nat := (nodes.entries.filter NodeConnParams.isMiner).length

def resize (list : List Public) (size : Nat) : List Public :=
  list.take size ++ List.replicate (size - list.length) 0

/-- The loop of `getMinerList` that writes each miner into its slot and stops at
the first index out of bounds. -/
def fillMinerList (minerNum : Nat) : List NodeConnParams → List Public → Bool × List Public
  | [], list => (true, list)
  | node :: rest, list =>
      if minerNum ≤ node.idx % 2 ^ 32 then (false, list)
      else fillMinerList minerNum rest (list.set (node.idx % 2 ^ 32) node.nodeId)

def getMinerList (list : List Public) : Bool × List Public :=
  fillMinerList nodes.getMinerNum (nodes.entries.filter NodeConnParams.isMiner)
    (resize list nodes.getMinerNum)

def MinerAt (idx : Nat) : Prop := ∃ node, nodes.atIdx idx = some node ∧ node.isMiner = true

theorem getPublicKey_mem (idx : Nat) (key : Public) (found : nodes.getPublicKey idx = some key) :
    ∃ node ∈ nodes.entries, node.idx = idx ∧ node.nodeId = key := by
  obtain ⟨node, present, id⟩ := Option.map_eq_some_iff.mp found
  exact ⟨node, List.mem_of_find?_eq_some present, by simpa using List.find?_some present, id⟩

theorem getPublicKey_injective (left right : Nat) (key : Public)
    (first : nodes.getPublicKey left = some key) (second : nodes.getPublicKey right = some key) :
    left = right := by
  obtain ⟨a, aMember, aIdx, aKey⟩ := nodes.getPublicKey_mem left key first
  obtain ⟨b, bMember, bIdx, bKey⟩ := nodes.getPublicKey_mem right key second
  have distinct : (nodes.entries.map NodeConnParams.nodeId).Nodup :=
    nodes.sorted.imp (fun less => Nat.ne_of_lt less)
  have same : a = b := List.inj_on_of_nodup_map distinct aMember bMember (aKey.trans bKey.symm)
  rw [← aIdx, ← bIdx, same]

theorem find_getPublicKey (idx : Nat) (key : Public) (found : nodes.getPublicKey idx = some key) :
    ∃ node, nodes.atIdx idx = some node ∧ nodes.find key = some node ∧ node.idx = idx := by
  obtain ⟨node, present, id⟩ := Option.map_eq_some_iff.mp found
  have member : node ∈ nodes.entries := List.mem_of_find?_eq_some present
  have index : node.idx = idx := by simpa using List.find?_some present
  cases other : nodes.find key with
  | none =>
      have absent := List.find?_eq_none.mp other node member
      simp [id] at absent
  | some again =>
      have twin : again.nodeId = key := by simpa using List.find?_some other
      have distinct : (nodes.entries.map NodeConnParams.nodeId).Nodup :=
        nodes.sorted.imp (fun less => Nat.ne_of_lt less)
      have same : again = node :=
        List.inj_on_of_nodup_map distinct (List.mem_of_find?_eq_some other)
        member (twin.trans id.symm)
      exact ⟨node, present, congrArg some same, index⟩

/-- Miners with the indices below `miners`, then observers; node `i` has the key `i + 1`. -/
def consecutive (miners observers : Nat) : NodeTable where
  entries := (List.range (miners + observers)).map fun i =>
    ⟨i + 1, if i < miners then EN_ACCOUNT_TYPE_MINER else 0, i⟩
  sorted := by
    rw [List.map_map]
    exact List.Pairwise.map _ (fun a b less => Nat.succ_lt_succ less) List.pairwise_lt_range

end NodeTable

end UtispaceChain
