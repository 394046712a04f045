import UtispaceChain.Lib.Run
import UtispaceChain.PbftSeal.BlockSign
import UtispaceChain.PbftSeal.Micro

/-! Where the node tables come from: the node contract, the god miners of a block window, and
the caches of `SystemContract` and `NodeConnParamsManager`. -/

namespace UtispaceChain

open Lib

namespace NodeTable

def assignEntry (node : NodeConnParams) : List NodeConnParams → List NodeConnParams
  | [] => [node]
  | first :: rest =>
      if node.nodeId < first.nodeId then node :: first :: rest
      else if node.nodeId = first.nodeId then node :: rest
      else first :: assignEntry node rest

theorem mem_assignEntry (node other : NodeConnParams) (entries : List NodeConnParams)
    (member : other ∈ assignEntry node entries) : other = node ∨ other ∈ entries := by
  induction entries with
  | nil => exact Or.inl (List.mem_singleton.mp member)
  | cons first rest ih =>
      unfold assignEntry at member
      split_ifs at member
      · exact List.mem_cons.mp member
      · rcases List.mem_cons.mp member with same | old
        · exact Or.inl same
        · exact Or.inr (List.mem_cons_of_mem _ old)
      · rcases List.mem_cons.mp member with rfl | later
        · exact Or.inr List.mem_cons_self
        · exact (ih later).imp id (List.mem_cons_of_mem _)

theorem assignEntry_sorted (node : NodeConnParams) (entries : List NodeConnParams)
    (sorted : (entries.map NodeConnParams.nodeId).Pairwise (· < ·)) :
    ((assignEntry node entries).map NodeConnParams.nodeId).Pairwise (· < ·) := by
  induction entries with
  | nil => simp [assignEntry]
  | cons first rest ih =>
      rw [List.map_cons, List.pairwise_cons] at sorted
      obtain ⟨least, tail⟩ := sorted
      unfold assignEntry
      split_ifs with below same
      · simp only [List.map_cons, List.pairwise_cons, List.mem_cons]
        refine ⟨?_, least, tail⟩
        rintro id (rfl | later)
        · exact below
        · exact below.trans (least id later)
      · rw [List.map_cons, List.pairwise_cons]
        exact ⟨fun id later => same ▸ least id later, tail⟩
      · rw [List.map_cons, List.pairwise_cons]
        refine ⟨?_, ih tail⟩
        intro id member
        obtain ⟨other, inside, rfl⟩ := List.mem_map.mp member
        rcases mem_assignEntry node other rest inside with rfl | old
        · exact Nat.lt_of_le_of_ne (Nat.le_of_not_lt below) (Ne.symm same)
        · exact least other.nodeId (List.mem_map_of_mem old)

def empty : NodeTable := ⟨[], List.Pairwise.nil⟩

def assign (nodes : NodeTable) (node : NodeConnParams) : NodeTable :=
  ⟨assignEntry node nodes.entries, assignEntry_sorted node nodes.entries nodes.sorted⟩

/-- The map filled from a list of nodes; of two nodes with one id the later stays. -/
def ofNodes (nodes : List NodeConnParams) : NodeTable := nodes.foldl assign empty

end NodeTable

/-- The loop of `checkNodesValid`: the last miner and the last other index seen, unless an index
is out of order. -/
def scanNodes : Nat → Nat → Nat → List NodeConnParams → Option (Nat × Nat)
  | _, sign, notSign, [] => some (sign, notSign)
  | i, sign, notSign, node :: rest =>
      if node.idx ≠ i then none
      else if node.isMiner then scanNodes (i + 1) node.idx notSign rest
      else scanNodes (i + 1) sign node.idx rest

def checkNodesValid (nodes : List NodeConnParams) : Bool :=
  if nodes = [] then false
  else match scanNodes 0 Invalid256 Invalid256 nodes with
    | none => false
    | some (sign, notSign) => decide (sign < notSign) || decide (notSign = Invalid256)

/-- What the chain parameters and the configuration file give. -/
structure NodeConfig where
  godMinerStart : Nat
  godMinerEnd : Nat
  godMinerList : NodeTable
  initIdentityNodes : List Public
  confNodes : NodeTable

/-- The caches, and what the node contract answers on the state of each block of the chain,
genesis first. -/
structure NodeConnParamsManager where
  config : NodeConfig
  contract : List (List NodeConnParams)
  tempNumber : Nat := 0
  nodelist : List NodeConnParams := []
  nodeConnParams : NodeTable

namespace NodeConnParamsManager

variable (m : NodeConnParamsManager)

def number : Nat := m.contract.length - 1

def tempGetAllNode (blockNum : Nat) : List NodeConnParams := m.contract.getD blockNum []

def getAllNode (blockNum : Int) : List NodeConnParams :=
  if blockNum = m.tempNumber ∨ blockNum < 0 then m.nodelist else m.tempGetAllNode blockNum.toNat

def getBlockChainNumber : Nat := m.tempNumber

/-- Whether `getGodMiner` hits, for the number of a block. -/
def inGodWindow (number : Nat) : Bool :=
  decide (0 < m.config.godMinerStart) && decide (m.config.godMinerStart - 1 ≤ number) &&
    decide (number < m.config.godMinerEnd)

def getGodMiner (blockNum : Int) : Option NodeTable :=
  if m.inGodWindow (if blockNum < 0 then m.getBlockChainNumber else blockNum.toNat) then
    some m.config.godMinerList
  else none

/-- The map of a list of nodes; without nodes the configured ones are miners in their order. -/
def tableOf (nodes : List NodeConnParams) : NodeTable :=
  if nodes ≠ [] then NodeTable.ofNodes nodes
  else NodeTable.ofNodes (m.config.initIdentityNodes.zipIdx.map fun entry =>
    ⟨entry.1, EN_ACCOUNT_TYPE_MINER, entry.2⟩)

def getAllNodeConnInfo (blockNum : Int) : NodeTable :=
  match m.getGodMiner blockNum with
  | some nodes => nodes
  | none => if blockNum < 0 then m.nodeConnParams else m.tableOf (m.getAllNode blockNum)

def callSysContractData (blockNum : Int) : NodeConnParamsManager :=
  if (m.getAllNode blockNum) ≠ [] ∧ checkNodesValid (m.getAllNode blockNum) = true then
    { m with nodeConnParams := NodeTable.ofNodes (m.getAllNode blockNum) }
  else m

/-- The part of `updateSystemContract` about nodes, for the head block. The callback is there
from `setSysContractApi` on. -/
def updateSystemContract (nodeChange callback : Bool) : NodeConnParamsManager :=
  let m := { m with tempNumber := m.number }
  if nodeChange = true ∨ m.nodelist = [] then
    let m := { m with nodelist := m.tempGetAllNode m.number }
    if callback then m.callSysContractData (-1) else m
  else m

/-- Start of the node on a chain: the constructors, then `setSysContractApi`. -/
def start (config : NodeConfig) (contract : List (List NodeConnParams)) : NodeConnParamsManager :=
  let m : NodeConnParamsManager :=
    { config := config, contract := contract, nodeConnParams := config.confNodes }
  (m.updateSystemContract false false).callSysContractData (-1)

/-- The head update of `BlockChain::import`: the calls of `updateSystemContract` there are
commented out, so no cache is touched. -/
def importBlock (nodes : List NodeConnParams) : NodeConnParamsManager :=
  { m with contract := m.contract ++ [nodes] }

def run (imports : List (List NodeConnParams)) : NodeConnParamsManager :=
  Lib.run importBlock m imports

def trace (imports : List (List NodeConnParams)) :
    List (NodeConnParamsManager × List NodeConnParams) :=
  Lib.trace importBlock m imports

/-- The next block leaves the node list as it was when the node started, and is in the god
window exactly if the block of the start is. -/
structure Steady (nodes : List NodeConnParams) : Prop where
  window : m.inGodWindow (m.number + 1) = m.inGodWindow m.tempNumber
  nodes : m.inGodWindow m.tempNumber = false → m.tableOf nodes = m.tableOf m.nodelist

end NodeConnParamsManager

structure SameMiners (left right : NodeTable) : Prop where
  minerList : left.getMinerList [] = right.getMinerList []
  minerNum : left.getMinerNum = right.getMinerNum
  publicKey : ∀ idx, left.getPublicKey idx = right.getPublicKey idx
  idx : ∀ nodeId, left.getIdx nodeId = right.getIdx nodeId

theorem SameMiners.of_eq {left right : NodeTable} (same : left = right) :
    SameMiners left right := by
  subst same
  exact ⟨rfl, rfl, fun _ => rfl, fun _ => rfl⟩

namespace NodeConnParamsManager

structure UpToDate (m : NodeConnParamsManager) : Prop where
  grown : m.contract ≠ []
  temp : m.tempNumber ≤ m.number
  window : m.inGodWindow m.number = m.inGodWindow m.tempNumber
  cached : m.inGodWindow m.tempNumber = false → m.nodeConnParams = m.tableOf m.nodelist
  head : m.inGodWindow m.tempNumber = false →
    m.tableOf (m.getAllNode m.number) = m.tableOf m.nodelist

theorem UpToDate.tables {m : NodeConnParamsManager} (current : m.UpToDate) :
    m.getAllNodeConnInfo (-1) = m.getAllNodeConnInfo m.number := by
  have natural : ¬ ((m.number : Int) < 0) := by omega
  have mine : m.getGodMiner (-1) =
      if m.inGodWindow m.tempNumber then some m.config.godMinerList else none := rfl
  have theirs : m.getGodMiner m.number =
      if m.inGodWindow m.tempNumber then some m.config.godMinerList else none := by
    rw [getGodMiner, if_neg natural, Int.toNat_natCast, current.window]
  unfold getAllNodeConnInfo
  rw [mine, theirs]
  cases window : m.inGodWindow m.tempNumber with
  | true => rfl
  | false =>
      simp only [Bool.false_eq_true, if_false, if_neg natural]
      rw [if_pos (by decide), current.head window]
      exact current.cached window

theorem UpToDate.importBlock {m : NodeConnParamsManager} (current : m.UpToDate)
    (nodes : List NodeConnParams) (steady : m.Steady nodes) : (m.importBlock nodes).UpToDate := by
  have length : 0 < m.contract.length := List.length_pos_of_ne_nil current.grown
  have number : (m.importBlock nodes).number = m.number + 1 := by
    simp only [NodeConnParamsManager.number, NodeConnParamsManager.importBlock, List.length_append,
      List.length_singleton]
    omega
  refine ⟨?_, ?_, ?_, current.cached, ?_⟩
  · simp [NodeConnParamsManager.importBlock]
  · rw [number]
    exact Nat.le_succ_of_le current.temp
  · rw [number]
    exact steady.window
  · intro window
    have fresh : ¬ (((m.number + 1 : Nat) : Int) = (m.tempNumber : Int) ∨
        ((m.number + 1 : Nat) : Int) < 0) := by
      have old := current.temp
      omega
    have listed : (m.importBlock nodes).getAllNode (m.number + 1 : Nat) = nodes := by
      have last : m.number + 1 = m.contract.length := by
        unfold NodeConnParamsManager.number
        omega
      have unfolded : (m.importBlock nodes).getAllNode (m.number + 1 : Nat) =
          (m.importBlock nodes).tempGetAllNode (m.number + 1) := if_neg fresh
      rw [unfolded, last]
      simp [tempGetAllNode, NodeConnParamsManager.importBlock]
    rw [number, listed]
    exact steady.nodes window

theorem UpToDate.start (config : NodeConfig) (contract : List (List NodeConnParams))
    (genesis : contract ≠ [])
    (valid : (NodeConnParamsManager.start config contract).inGodWindow (contract.length - 1) =
      true ∨
      checkNodesValid (contract.getD (contract.length - 1) []) = true) :
    (NodeConnParamsManager.start config contract).UpToDate := by
  let nodes := contract.getD (contract.length - 1) []
  let loaded : NodeConnParamsManager :=
    { config := config, contract := contract, tempNumber := contract.length - 1, nodelist := nodes
      nodeConnParams := config.confNodes }
  have begun : NodeConnParamsManager.start config contract = loaded.callSysContractData (-1) := rfl
  have cached : loaded.getAllNode (-1) = nodes := rfl
  have result : ∃ table, NodeConnParamsManager.start config contract =
      { loaded with nodeConnParams := table } ∧
      (checkNodesValid nodes = true → table = NodeTable.ofNodes nodes) := by
    rw [begun, callSysContractData, cached]
    split_ifs with fits
    · exact ⟨_, rfl, fun _ => rfl⟩
    · refine ⟨_, rfl, fun passes => absurd ⟨?_, passes⟩ fits⟩
      intro none
      rw [none] at passes
      cases passes
  obtain ⟨table, shape, filled⟩ := result
  rw [shape] at valid ⊢
  refine ⟨genesis, le_rfl, rfl, ?_, ?_⟩
  · intro window
    have passes : checkNodesValid nodes = true := by
      rcases valid with inside | passes
      · have outside : loaded.inGodWindow (contract.length - 1) = false := window
        have within : loaded.inGodWindow (contract.length - 1) = true := inside
        rw [outside] at within
        cases within
      · exact passes
    have nonempty : nodes ≠ [] := by
      intro none
      rw [none] at passes
      cases passes
    exact (filled passes).trans (if_pos nonempty).symm
  · intro _
    have here : ∀ m : NodeConnParamsManager, m.tempNumber = m.number →
        m.getAllNode m.number = m.nodelist := by
      intro m same
      exact if_pos (Or.inl (by rw [same]))
    rw [here _ rfl]

/-- A list of miners in order, as the node contract gives it. -/
def toyMiners (count : Nat) : List NodeConnParams := (NodeTable.consecutive count 0).entries

def toyConfig (godMinerStart godMinerEnd : Nat) : NodeConfig where
  godMinerStart := godMinerStart
  godMinerEnd := godMinerEnd
  godMinerList := NodeTable.consecutive 1 0
  initIdentityNodes := []
  confNodes := NodeTable.empty

end NodeConnParamsManager

end UtispaceChain
