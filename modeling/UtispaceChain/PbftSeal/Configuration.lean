import UtispaceChain.PbftSeal.ViewChange

/-! The configuration that `resetConfig` keeps, against the node table of the moment. -/

namespace UtispaceChain

open Lib

namespace NodeTable

structure IsMinerList (nodes : NodeTable) (list : List Public) : Prop where
  length : list.length = nodes.getMinerNum
  slots : ∀ node ∈ nodes.entries, node.isMiner = true → list[node.idx]? = some node.nodeId

/-- The indices of the miners are the numbers below their count. -/
structure Numbered (nodes : NodeTable) : Prop where
  small : nodes.getMinerNum < 2 ^ 32
  bound : ∀ node ∈ nodes.entries, node.isMiner = true → node.idx < nodes.getMinerNum
  distinct : ((nodes.entries.filter NodeConnParams.isMiner).map NodeConnParams.idx).Nodup

instance (nodes : NodeTable) : Decidable nodes.Numbered :=
  decidable_of_iff (nodes.getMinerNum < 2 ^ 32 ∧
    (∀ node ∈ nodes.entries, node.isMiner = true → node.idx < nodes.getMinerNum) ∧
    ((nodes.entries.filter NodeConnParams.isMiner).map NodeConnParams.idx).Nodup)
    ⟨fun all => ⟨all.1, all.2.1, all.2.2⟩, fun numbered => ⟨numbered.1, numbered.2, numbered.3⟩⟩

/-- Two tables with the same miners under the same indices. -/
def SameMinerEntries (nodes other : NodeTable) : Prop :=
  nodes.entries.filter NodeConnParams.isMiner = other.entries.filter NodeConnParams.isMiner

instance (nodes other : NodeTable) : Decidable (nodes.SameMinerEntries other) :=
  inferInstanceAs (Decidable (_ = _))

theorem IsMinerList.of_same {nodes other : NodeTable} {list : List Public}
    (listed : nodes.IsMinerList list) (same : other.SameMinerEntries nodes) :
    other.IsMinerList list := by
  have entries : other.entries.filter NodeConnParams.isMiner =
      nodes.entries.filter NodeConnParams.isMiner := same
  refine ⟨?_, ?_⟩
  · rw [listed.length, getMinerNum, getMinerNum, entries]
  · intro node member miner
    have inside : node ∈ nodes.entries.filter NodeConnParams.isMiner := by
      rw [← entries]
      exact List.mem_filter.mpr ⟨member, miner⟩
    exact listed.slots node (List.mem_filter.mp inside).1 miner

theorem length_resize (list : List Public) (size : Nat) : (resize list size).length = size := by
  simp only [resize, List.length_append, List.length_take, List.length_replicate]
  omega

section Fill

variable {minerNum : Nat}

theorem fillMinerList_spec (nodes : List NodeConnParams) (list : List Public)
    (length : list.length = minerNum) (bound : ∀ node ∈ nodes, node.idx < minerNum)
    (small : minerNum < 2 ^ 32) (distinct : (nodes.map NodeConnParams.idx).Nodup) :
    (fillMinerList minerNum nodes list).1 = true ∧
    (fillMinerList minerNum nodes list).2.length = minerNum ∧
      (∀ node ∈ nodes, (fillMinerList minerNum nodes list).2[node.idx]? = some node.nodeId) ∧
      ∀ i, (∀ node ∈ nodes, node.idx ≠ i) → (fillMinerList minerNum nodes list).2[i]? =
        list[i]? := by
  induction nodes generalizing list with
  | nil => exact ⟨rfl, length, by simp, fun _ _ => rfl⟩
  | cons node rest ih =>
      have inside : node.idx < minerNum := bound node List.mem_cons_self
      have slot : node.idx % 2 ^ 32 = node.idx := Nat.mod_eq_of_lt (Nat.lt_trans inside small)
      have unfolded : fillMinerList minerNum (node :: rest) list =
          fillMinerList minerNum rest (list.set node.idx node.nodeId) := by
        rw [fillMinerList, slot, if_neg (Nat.not_le.mpr inside)]
      rcases List.nodup_cons.mp distinct with ⟨unused, others⟩
      have longer : (list.set node.idx node.nodeId).length = minerNum := by
        rw [List.length_set, length]
      rcases ih (list.set node.idx node.nodeId) longer
        (fun other member => bound other (List.mem_cons_of_mem _ member))
        others with ⟨complete, size, slots, kept⟩
      rw [unfolded]
      refine ⟨complete, size, ?_, ?_⟩
      · intro other member
        rcases List.mem_cons.mp member with rfl | later
        · have free : ∀ node ∈ rest, node.idx ≠ other.idx :=
            fun node present same => unused (List.mem_map.mpr ⟨node, present, same⟩)
          rw [kept other.idx free, List.getElem?_set_self (length ▸ inside)]
        · exact slots other later
      · intro i free
        rw [kept i fun other present => free other (List.mem_cons_of_mem _ present)]
        exact List.getElem?_set_ne (free node List.mem_cons_self)

end Fill

theorem getMinerList_spec (nodes : NodeTable) (list : List Public) (numbered : nodes.Numbered) :
    (nodes.getMinerList list).1 = true ∧ nodes.IsMinerList (nodes.getMinerList list).2 := by
  rcases fillMinerList_spec (nodes.entries.filter NodeConnParams.isMiner)
    (resize list nodes.getMinerNum)
    (length_resize list nodes.getMinerNum)
    (fun node member => numbered.bound node (List.mem_filter.mp member).1
      (List.mem_filter.mp member).2)
    numbered.small numbered.distinct with ⟨complete, size, slots, -⟩
  refine ⟨complete, size, ?_⟩
  intro node member miner
  exact slots node (List.mem_filter.mpr ⟨member, miner⟩)

end NodeTable

namespace Node

variable {C : Crypto} {ctx : Ctx} {s : Node} {event : Event}

/-- The members that `resetConfig` alone writes. -/
structure Config where
  pub : Public
  nodeNum : Nat
  f : Nat
  nodeIdx : Nat
  minerList : List Public
  cfgErr : Bool

def config (s : Node) : Config where
  pub := s.pub
  nodeNum := s.nodeNum
  f := s.f
  nodeIdx := s.nodeIdx
  minerList := s.minerList
  cfgErr := s.cfgErr

theorem SameViews.config {s t : Node} (same : SameViews s t) (pub : t.pub = s.pub) :
    t.config = s.config := by
  have num : t.nodeNum = s.nodeNum := congrArg ViewPart.nodeNum same.part
  have faults : t.f = s.f := congrArg ViewPart.f same.part
  have idx : t.nodeIdx = s.nodeIdx := congrArg ViewPart.nodeIdx same.part
  have list : t.minerList = s.minerList := congrArg (fun rest => rest.2.1) same.rest
  have err : t.cfgErr = s.cfgErr := congrArg (fun rest => rest.2.2) same.rest
  rw [Node.config, Node.config, num, faults, idx, list, err, pub]

theorem checkAndChangeView_config (s : Node) : s.checkAndChangeView.config = s.config := by
  rcases checkAndChangeView_cases s with ⟨same, -⟩ | ⟨changed, -⟩
  · rw [same]
  · rw [changed]
    rfl

theorem handleViewChangeMsg_config (req : ViewChangeReq) :
    (s.handleViewChangeMsg C ctx req).config = s.config := by
  rcases handleViewChangeMsg_cases C ctx s req with ⟨effects, -, same | ⟨-, stored⟩⟩
  · rw [same]
    rfl
  · rw [stored]
    split_ifs
    · rw [checkAndChangeView_config]
      rfl
    · simp only [fastViewChange]
      split_ifs <;> rfl

theorem checkTimeout_config : (s.checkTimeout C ctx).config = s.config := by
  rw [checkTimeout_eq]
  dsimp only
  rcases broadcastViewChangeReq_withLog C ctx (s.startViewChange ctx) with ⟨effects, asked, -⟩
  rw [asked]
  split_ifs
  · exact checkAndChangeView_config
      ((s.startViewChange ctx).withLog (effects ++ (s.startViewChange ctx).log))
  · rfl
  · rfl

theorem step_config (other : event.configures = false) :
    (s.step C ctx event).config = s.config := by
  cases moves : MovesViews event with
  | false => exact (step_sameViews moves).config (step_pub C ctx s event)
  | true =>
      cases event with
      | handleMsg sender packet =>
          cases packet with
          | viewChange req => exact handleViewChangeMsg_config req
          | _ => cases moves
      | checkTimeout => exact checkTimeout_config
      | reportBlock => cases other
      | startGeneration => cases other
      | _ => cases moves

/-- The table has another number of miners or another index for us: the configuration is read
anew. -/
def renews (s : Node) (nodes : NodeTable) : Bool :=
  decide (nodes.getMinerNum ≠ 0) && match nodes.getIdx s.pub with
    | none => false
    | some idx => decide (nodes.getMinerNum ≠ s.nodeNum) || decide (idx ≠ s.nodeIdx)

/-- What `resetConfig` makes of the configuration. -/
inductive ConfigStep (nodes : NodeTable) (before after : Config) : Prop
  | unread (closed : nodes.getMinerNum = 0 ∨ nodes.getIdx before.pub = none) (result : after =
    { before with cfgErr := true })
  | kept (some_ : nodes.getMinerNum ≠ 0) (num : nodes.getMinerNum = before.nodeNum)
      (found : nodes.getIdx before.pub = some before.nodeIdx) (result : after =
        { before with cfgErr := false })
  | renewed (some_ : nodes.getMinerNum ≠ 0) (idx : Nat) (found : nodes.getIdx before.pub = some idx)
      (changed : nodes.getMinerNum ≠ before.nodeNum ∨ idx ≠ before.nodeIdx) (failed : Bool)
      (result : after = ⟨before.pub, nodes.getMinerNum, (nodes.getMinerNum - 1) / 3, idx,
        (nodes.getMinerList before.minerList).2, failed⟩)

theorem resetConfig_config (ctx : Ctx) (s : Node) :
    ConfigStep ctx.nodes s.config (s.resetConfig ctx).config := by
  unfold resetConfig
  cases account : ctx.nodes.getAccountType s.pub with
  | none =>
      have unknown : ctx.nodes.getIdx s.pub = none := by
        rw [NodeTable.getAccountType, Option.map_eq_none_iff] at account
        rw [NodeTable.getIdx, account, Option.map_none]
      exact .unread (Or.inr unknown) rfl
  | some accountType =>
      dsimp only
      by_cases none : ctx.nodes.getMinerNum = 0
      · rw [if_pos none]
        exact .unread (Or.inl none) rfl
      rw [if_neg none]
      cases found : ctx.nodes.getIdx s.pub with
      | none => exact .unread (Or.inr found) rfl
      | some idx =>
          dsimp only
          by_cases changed : ctx.nodes.getMinerNum ≠ s.nodeNum ∨ idx ≠ s.nodeIdx
          · rw [if_pos changed]
            split
            · exact .renewed none idx found changed true rfl
            · exact .renewed none idx found changed false rfl
          · rw [if_neg changed]
            have same : ctx.nodes.getMinerNum = s.nodeNum ∧ idx = s.nodeIdx := by
              simpa using changed
            have own : ctx.nodes.getIdx s.pub = some s.nodeIdx := by rw [found, same.2]
            exact .kept none same.1 own rfl

theorem step_configStep (reads : event.configures = true) :
    ConfigStep ctx.nodes s.config (s.step C ctx event).config := by
  cases event with
  | reportBlock b =>
      simp only [step, reportBlock]
      split_ifs
      · exact resetConfig_config ctx
          ((s.onCore fun c => { c with highestBlock := b }).advance ctx b)
      · exact resetConfig_config ctx (s.onCore fun c => { c with highestBlock := b })
  | startGeneration => exact resetConfig_config ctx { s with lastConsensusTime := ctx.now }
  | _ => cases reads

end Node

/-- A node with the table from which its configuration was last read anew. -/
structure Configuring where
  node : Node
  used : NodeTable

namespace Configuring

variable (C : Crypto)

def next (w : Configuring) (call : Ctx × Event) : Configuring where
  node := w.node.next C call
  used := if call.2.configures && w.node.renews call.1.nodes then call.1.nodes else w.used

def trace (w : Configuring) (calls : List (Ctx × Event)) : List (Configuring × Ctx × Event) :=
  Lib.trace (next C) w calls

/-- A table that is read anew numbers its miners, and one that is not has the miners of the one in
use. -/
structure Tracks (w : Configuring) (nodes : NodeTable) : Prop where
  renewed : w.node.renews nodes = true → nodes.Numbered
  kept : nodes.getMinerNum = w.node.nodeNum → nodes.getIdx w.node.pub = some w.node.nodeIdx →
    nodes.SameMinerEntries w.used

end Configuring

structure Coherent (nodes : NodeTable) (s : Node) : Prop where
  some_ : 1 ≤ s.nodeNum
  num : s.nodeNum = nodes.getMinerNum
  faults : s.f = (s.nodeNum - 1) / 3
  idx : nodes.getIdx s.pub = some s.nodeIdx
  length : s.minerList.length = s.nodeNum
  list : nodes.IsMinerList s.minerList

/-- Nothing has been read yet, or what is kept is of the table in use. -/
structure InUse (used : NodeTable) (config : Node.Config) : Prop where
  faults : config.f = (config.nodeNum - 1) / 3
  list : config.nodeNum ≠ 0 → config.nodeNum = used.getMinerNum ∧ used.IsMinerList config.minerList

section Step

variable {C : Crypto} {ctx : Ctx} {event : Event} {w : Configuring}

theorem renews_eq {s : Node} {nodes : NodeTable} {idx : Nat} (some_ : nodes.getMinerNum ≠ 0)
    (found : nodes.getIdx s.pub = some idx) :
    s.renews nodes = (decide (nodes.getMinerNum ≠ s.nodeNum) || decide (idx ≠ s.nodeIdx)) := by
  simp [Node.renews, some_, found]

/-- One reading of the table: the configuration kept is of the table in use, and without an error of
the current one. -/
theorem InUse.step (used : NodeTable) (s t : Node) (nodes : NodeTable) (inUse : InUse used s.config)
    (tracks : Configuring.Tracks ⟨s, used⟩ nodes)
    (config : Node.ConfigStep nodes s.config t.config) :
    InUse (if s.renews nodes then nodes else used) t.config ∧
    (t.cfgErr = false → Coherent nodes t) := by
  cases config with
  | unread closed result =>
      have err : t.cfgErr = true := congrArg Node.Config.cfgErr result
      have still : s.renews nodes = false := by
        rcases closed with none | unknown
        · simp [Node.renews, none]
        · have absent : nodes.getIdx s.pub = none := unknown
          simp [Node.renews, absent]
      refine ⟨?_, fun fine => ?_⟩
      · rw [still, result]
        exact ⟨inUse.faults, inUse.list⟩
      · rw [err] at fine
        cases fine
  | kept some_ num found result =>
      have still : s.renews nodes = false := by
        rw [renews_eq some_ found]
        simp [num, Node.config]
      have nonzero : s.nodeNum ≠ 0 := fun zero => some_ (num.trans zero)
      rcases inUse.list nonzero with ⟨count, listed⟩
      have same : nodes.SameMinerEntries used := tracks.kept num found
      have current : nodes.IsMinerList s.minerList := listed.of_same same
      rw [still, result]
      refine ⟨⟨inUse.faults, inUse.list⟩, fun _ => ?_⟩
      have pub : t.pub = s.pub := congrArg Node.Config.pub result
      have here : t.nodeNum = s.nodeNum := congrArg Node.Config.nodeNum result
      have f : t.f = s.f := congrArg Node.Config.f result
      have idx : t.nodeIdx = s.nodeIdx := congrArg Node.Config.nodeIdx result
      have list : t.minerList = s.minerList := congrArg Node.Config.minerList result
      refine ⟨?_, ?_, ?_, ?_, ?_, ?_⟩
      · rw [here]
        exact Nat.one_le_iff_ne_zero.mpr nonzero
      · rw [here]
        exact num.symm
      · rw [f, here]
        exact inUse.faults
      · rw [pub, idx]
        exact found
      · rw [list, here, current.length]
        exact num
      · rw [list]
        exact current
  | renewed some_ idx found changed failed result =>
      have anew : s.renews nodes = true := by
        have differs : nodes.getMinerNum ≠ s.nodeNum ∨ idx ≠ s.nodeIdx := changed
        rw [renews_eq some_ found]
        simpa using differs
      have listed := (nodes.getMinerList_spec s.minerList (tracks.renewed anew)).2
      rw [anew, result]
      refine ⟨⟨rfl, fun _ => ⟨rfl, listed⟩⟩, fun _ => ?_⟩
      have pub : t.pub = s.pub := congrArg Node.Config.pub result
      have here : t.nodeNum = nodes.getMinerNum := congrArg Node.Config.nodeNum result
      have f : t.f = (nodes.getMinerNum - 1) / 3 := congrArg Node.Config.f result
      have index : t.nodeIdx = idx := congrArg Node.Config.nodeIdx result
      have list : t.minerList = (nodes.getMinerList s.minerList).2 :=
        congrArg Node.Config.minerList result
      refine ⟨?_, here, ?_, ?_, ?_, ?_⟩
      · rw [here]
        exact Nat.one_le_iff_ne_zero.mpr some_
      · rw [f, here]
      · rw [pub, index]
        exact found
      · rw [list, here]
        exact listed.length
      · rw [list]
        exact listed

theorem InUse.next {s : Node} {used : NodeTable} (inUse : InUse used s.config)
    (tracks : event.configures = true → Configuring.Tracks ⟨s, used⟩ ctx.nodes) :
    InUse (Configuring.next C ⟨s, used⟩ (ctx, event)).used (s.step C ctx event).config ∧
      (event.configures = true → (s.step C ctx event).cfgErr = false →
        Coherent ctx.nodes (s.step C ctx event)) := by
  cases reads : event.configures with
  | false =>
      refine ⟨?_, nofun⟩
      rw [Node.step_config reads]
      simpa [Configuring.next, reads] using inUse
  | true =>
      rcases InUse.step used s (s.step C ctx event) ctx.nodes inUse (tracks reads)
        (Node.step_configStep reads) with
        ⟨kept, coherent⟩
      refine ⟨?_, fun _ => coherent⟩
      simpa [Configuring.next, reads] using kept

end Step

namespace Node

theorem initEnv_inUse (ctx : Ctx) (setup : Setup)
    (started : ctx.nodes.getMinerNum ≠ 0 → ctx.nodes.getIdx setup.pub ≠ none → ctx.nodes.Numbered) :
    InUse ctx.nodes (initEnv ctx setup).config ∧
      ((initEnv ctx setup).cfgErr = false → Coherent ctx.nodes (initEnv ctx setup)) := by
  let unset : Node := {
    sec := setup.sec, pub := setup.pub, accountType := setup.accountType
    viewTimeout := setup.viewTimeout, lastConsensusTime := ctx.now, lastCollectTime := ctx.now
    lastExecFinishTime := ctx.now, emptyBlockFlag := setup.emptyBlockFlag
    omitEmptyBlock := setup.omitEmptyBlock }
  have config : ConfigStep ctx.nodes unset.config (initEnv ctx setup).config :=
    resetConfig_config ctx unset
  have unread : InUse ctx.nodes unset.config :=
    ⟨by simp [Node.config, unset], fun some_ => absurd rfl some_⟩
  have tracks : Configuring.Tracks ⟨unset, ctx.nodes⟩ ctx.nodes := by
    refine ⟨fun anew => ?_, fun _ _ => rfl⟩
    rcases (Bool.and_eq_true _ _).mp anew with ⟨some_, known⟩
    apply started (of_decide_eq_true some_)
    intro unknown
    have absent : ctx.nodes.getIdx unset.pub = none := unknown
    rw [absent] at known
    cases known
  rcases InUse.step ctx.nodes unset (initEnv ctx setup) ctx.nodes unread tracks config with
    ⟨kept, coherent⟩
  exact ⟨by simpa using kept, coherent⟩

/-- In every run in which a table that is read anew numbers its miners from zero and a table with
the same count and the same own index has the miners of the one last read: without a configuration
error the configuration is that of the table of the moment. -/
theorem configuration_coherent (C : Crypto) (ctx : Ctx) (setup : Setup) (calls : List (Ctx × Event))
    (started : ctx.nodes.getMinerNum ≠ 0 → ctx.nodes.getIdx setup.pub ≠ none → ctx.nodes.Numbered)
    (tracks : ∀ entry ∈ Configuring.trace C ⟨initEnv ctx setup, ctx.nodes⟩ calls,
      entry.2.2.configures = true → entry.1.Tracks entry.2.1.nodes) :
    ((initEnv ctx setup).cfgErr = false → Coherent ctx.nodes (initEnv ctx setup)) ∧
      ∀ entry ∈ Configuring.trace C ⟨initEnv ctx setup, ctx.nodes⟩ calls, entry.2.2.configures =
        true →
        let t := entry.1.node.step C entry.2.1 entry.2.2
        t.cfgErr = false → Coherent entry.2.1.nodes t := by
  rcases initEnv_inUse ctx setup started with ⟨inUse, coherent⟩
  refine ⟨coherent, ?_⟩
  have all := run_invariant (Configuring.next C)
    (fun history w => InUse w.used w.node.config ∧ ∀ entry ∈ history, entry.2.2.configures = true →
      (entry.1.node.step C entry.2.1 entry.2.2).cfgErr = false →
        Coherent entry.2.1.nodes (entry.1.node.step C entry.2.1 entry.2.2))
    (fun w call => call.2.configures = true → w.Tracks call.1.nodes)
    ⟨initEnv ctx setup, ctx.nodes⟩ ⟨inUse, by simp⟩ ?_ calls tracks
  · exact all.2
  · intro history call w before tracked
    rcases before.1.next (C := C) tracked with ⟨kept, here⟩
    refine ⟨kept, ?_⟩
    intro entry member
    rcases List.mem_append.mp member with old | last
    · exact before.2 entry old
    · rw [List.mem_singleton.mp last]
      exact here

/-- A fifth miner joins four others, and a block is reported under each table. -/
theorem configuration_after_joining :
    let four : NodeTable := .consecutive 4 0
    let five : NodeTable := .consecutive 5 0
    let block : BlockInfo := { number := 0, hash := 5, timestamp := 1 }
    let before := run Crypto.toy (toyNode four) [(Ctx.quiet four, .reportBlock block)]
    let t := before.step Crypto.toy (Ctx.quiet five) (.reportBlock block)
    t.cfgErr = false ∧ t.minerList = [1, 2, 3, 4, 5] ∧ Coherent five t := by
  intro four five block before t
  refine ⟨by decide +kernel, by decide +kernel, ?_⟩
  have numbered : four.Numbered := by decide
  have larger : five.Numbered := by decide
  have coherent :=
    (configuration_coherent Crypto.toy (Ctx.quiet four) { sec := 2, pub := 2, viewTimeout := 3000 }
    [(Ctx.quiet four, .reportBlock block), (Ctx.quiet five, .reportBlock block)]
      (fun _ _ => numbered) (by
      intro entry member _
      have cases : entry ∈ [_, _] := member
      simp only [List.mem_cons, List.not_mem_nil, or_false] at cases
      rcases cases with rfl | rfl
      · exact ⟨fun _ => numbered, fun _ _ => rfl⟩
      · refine ⟨fun _ => larger, fun count => ?_⟩
        have differs : five.getMinerNum ≠ before.nodeNum := by decide +kernel
        exact absurd count differs)).2
  have last : ((⟨before, four⟩ : Configuring), Ctx.quiet five, Event.reportBlock block) ∈
      Configuring.trace Crypto.toy ⟨toyNode four, four⟩
        [(Ctx.quiet four, .reportBlock block), (Ctx.quiet five, .reportBlock block)] := by
    change _ ∈ [_, ((⟨before, four⟩ : Configuring), Ctx.quiet five, Event.reportBlock block)]
    simp
  exact coherent _ last rfl (by decide +kernel)

/-- Miner 4 is replaced by miner 5 under the same index: nothing is read anew, and no error is
seen. -/
theorem replaced_miner_kept :
    let nodes : NodeTable := .consecutive 4 0
    let replaced : NodeTable := ⟨[⟨1, EN_ACCOUNT_TYPE_MINER, 0⟩, ⟨2, EN_ACCOUNT_TYPE_MINER, 1⟩,
      ⟨3, EN_ACCOUNT_TYPE_MINER, 2⟩, ⟨5, EN_ACCOUNT_TYPE_MINER, 3⟩], by decide⟩
    let t := (toyNode nodes).step Crypto.toy (Ctx.quiet replaced)
      (.reportBlock { number := 0, hash := 5, timestamp := 1 })
    replaced.Numbered ∧ t.cfgErr = false ∧ t.minerList = [1, 2, 3, 4] ∧
      (replaced.getMinerList t.minerList).2 = [1, 2, 3, 5] ∧ ¬ Coherent replaced t := by
  intro nodes replaced t
  have stale : t.minerList = [1, 2, 3, 4] := by decide +kernel
  refine ⟨by decide, by decide +kernel, stale, ?_, ?_⟩
  · rw [stale]
    decide +kernel
  · intro coherent
    have slot := coherent.list.slots ⟨5, EN_ACCOUNT_TYPE_MINER, 3⟩ (by decide) (by decide)
    rw [stale] at slot
    cases slot

end Node

end UtispaceChain
