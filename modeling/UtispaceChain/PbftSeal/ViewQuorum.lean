import UtispaceChain.PbftSeal.Agreement
import UtispaceChain.PbftSeal.ViewState

/-! A view change and the nodes that asked for it. -/

namespace UtispaceChain

open Lib

def sentViews (log : List Effect) : List Nat :=
  log.filterMap fun
    | .sent (.viewChange req) => some req.view
    | _ => none

theorem mem_sentViews {log : List Effect} {req : ViewChangeReq}
    (sent : Effect.sent (.viewChange req) ∈ log) :
    req.view ∈ sentViews log :=
  List.mem_filterMap.mpr ⟨_, sent, rfl⟩

/-- A node with the views it has asked for since the last reset, and whether the view wanted next is
one that a timeout or an answer has announced: a fast start changes that view without a request. -/
structure Watched where
  node : Node
  asked : List Nat := []
  announced : Bool := false

namespace Watched

variable (C : Crypto)

def announces (ctx : Ctx) (s t : Node) (announced : Bool) : Event → Bool
  | .handleMsg _ (.viewChange req) =>
      decide (t.toView = s.toView) && (announced || (decide (s.Answers req) && ctx.host))
  | .checkTimeout => if s.timedOut ctx then ctx.host else announced
  | .reportBlock b => !decide (s.consensusBlockNumber ≤ b.number) && announced
  | _ => announced

def next (w : Watched) (call : Ctx × Event) : Watched :=
  let t := w.node.next C call
  { node := t
    asked := if w.node.Resets call.2 then []
      else sentViews (t.log.take (t.log.length - w.node.log.length)) ++ w.asked
    announced := announces call.1 w.node t w.announced call.2 }

def run (w : Watched) (calls : List (Ctx × Event)) : Watched := Lib.run (next C) w calls

def trace (w : Watched) (calls : List (Ctx × Event)) : List (Watched × Ctx × Event) :=
  Lib.trace (next C) w calls

end Watched

namespace Node

variable {C : Crypto} {ctx : Ctx} {s t : Node} {event : Event} {nodes : NodeTable} {w : Watched}

/-! What a call announces. -/

theorem checkAndChangeView_log (s : Node) : s.checkAndChangeView.log = s.log := by
  rcases checkAndChangeView_cases s with ⟨same, -⟩ | ⟨changed, -⟩
  · rw [same]
  · rw [changed]
    rfl

theorem handleViewChangeMsg_log (C : Crypto) (ctx : Ctx) (s : Node) (req : ViewChangeReq) :
    ∃ effects,
    (s.handleViewChangeMsg C ctx req).log = effects ++ s.log ∧
      (s.Answers req → s.isMiner = true → ctx.host = true → s.toView ∈ sentViews effects) := by
  rcases handleViewChangeMsg_cases C ctx s req with ⟨effects, answers, result⟩
  refine ⟨effects, ?_, ?_⟩
  · rcases result with same | ⟨-, stored⟩
    · rw [same]
      rfl
    · rw [stored]
      split_ifs
      · rw [checkAndChangeView_log]
        rfl
      · rw [fastViewChange_core]
        rfl
  · intro lagging miner host
    rcases answers lagging miner host with ⟨own, sent, view⟩
    exact view ▸ mem_sentViews sent

theorem checkTimeout_asks (due : s.timedOut ctx) :
    (s.checkTimeout C ctx).toView = u256Add s.toView 1 ∧
    ∃ effects, (s.checkTimeout C ctx).log = effects ++ s.log ∧
      (s.isMiner = true → ctx.host = true → u256Add s.toView 1 ∈ sentViews effects) := by
  rw [checkTimeout_eq, if_pos due]
  dsimp only
  rcases broadcastViewChangeReq_withLog C ctx (s.startViewChange ctx) with ⟨effects, asked, sent⟩
  have wanted : s.isMiner = true → ctx.host = true → u256Add s.toView 1 ∈ sentViews effects := by
    intro miner host
    rcases sent miner host with ⟨own, member, view⟩
    have wanted : own.view = u256Add s.toView 1 := view
    exact wanted ▸ mem_sentViews member
  rw [asked]
  cases s.viewChangeSent ctx with
  | false => exact ⟨rfl, effects, rfl, wanted⟩
  | true =>
      let started := (s.startViewChange ctx).withLog (effects ++ (s.startViewChange ctx).log)
      have log : started.checkAndChangeView.log = effects ++ s.log := checkAndChangeView_log started
      refine ⟨?_, .onViewChange :: effects, congrArg (List.cons _) log, ?_⟩
      · rcases checkAndChangeView_cases started with ⟨same, -⟩ | ⟨changed, -⟩
        · exact congrArg toView same
        · exact congrArg toView changed
      · exact wanted

theorem toView_kept (views : ViewStep C ctx s event t) (message : ∀ sender req,
    event ≠ .handleMsg sender (.viewChange req)) (timeout : event ≠ .checkTimeout)
    (resets : ¬ s.Resets event) :
    t.toView = s.toView := by
  cases views with
  | keep view toView => exact toView
  | reset reset => exact absurd reset resets
  | store sender req call => exact absurd call (message sender req)
  | reach sender req call => exact absurd call (message sender req)
  | fast sender req call => exact absurd call (message sender req)
  | timeout call => exact absurd call timeout
  | timeoutReach call => exact absurd call timeout

/-! The invariant. -/

/-- Every stored request is another node's and carries its signatures. -/
def Checked (C : Crypto) (nodes : NodeTable) (idx : Nat) (m : ViewChangeReq) : Prop :=
  m.idx ≠ idx ∧ ∀ ctx : Ctx, ctx.nodes = nodes → checkSign C ctx m = true

theorem checkSign_table {other : Ctx} (m : PBFTMsg) (table : other.nodes = ctx.nodes) :
    checkSign C other m = checkSign C ctx m := by
  simp only [checkSign, table]

theorem Receives.checked (received : s.Receives C ctx m) (table : ctx.nodes = nodes) :
    Checked C nodes s.nodeIdx m :=
  ⟨received.foreign,
    fun _ same => (checkSign_table m (same.trans table.symm)).trans received.signed⟩

structure QuorumInv (C : Crypto) (nodes : NodeTable) (w : Watched) : Prop where
  config : Configured nodes w.node.toCore
  registered : w.node.Registered nodes
  miner : w.node.isMiner = true
  announced : w.announced = true → w.node.toView ∈ w.asked
  checked : ∀ m ∈ w.node.recvViewChangeReq.entries, Checked C nodes w.node.nodeIdx m

theorem step_configured (C : Crypto) (ctx : Ctx) (event : Event) (table : ctx.nodes = nodes)
    (config : Configured nodes s.toCore) :
    Configured nodes (s.step C ctx event).toCore ∧ (s.step C ctx event).nodeIdx = s.nodeIdx := by
  have moves : Moves C ctx s event s.toCore (s.step C ctx event).toCore := step_moves
  apply moves_invariant (fun c : Core => Configured nodes c ∧ c.nodeIdx = s.nodeIdx) moves
    ⟨config, rfl⟩
  intro a b before move
  rcases before.1.move table move with ⟨kept, idx, -⟩
  exact ⟨kept, idx.trans before.2⟩

theorem QuorumInv.step_checked (inv : QuorumInv C nodes w) (table : ctx.nodes = nodes)
    (views : ViewStep C ctx w.node event t) : ∀ m ∈ t.recvViewChangeReq.entries,
      Checked C nodes w.node.nodeIdx m := by
  have inserted : ∀ req, w.node.Receives C ctx req →
      ∀ m ∈ (w.node.recvViewChangeReq.insert req).entries, Checked C nodes w.node.nodeIdx m := by
    intro req received m member
    rcases insert_cases member with rfl | old
    · exact received.checked table
    · exact inv.checked m old
  intro m member
  cases views with
  | keep view toView requests => exact inv.checked m (requests m member)
  | reset resets view toView requests => exact inv.checked m (requests m member)
  | store sender req call received view toView requests =>
      rw [requests] at member
      exact inserted req received m member
  | reach sender req call received complete view toView requests =>
      rw [requests, KeyedTable.mem_keep] at member
      exact inserted req received m member.1
  | fast sender req call received acc walk many view toView requests =>
      rw [requests] at member
      exact inserted req received m member
  | timeout call due view toView requests => exact inv.checked m (requests m member)
  | timeoutReach call due sent view toView complete requests =>
      exact inv.checked m (requests m member)

theorem QuorumInv.step_announced (inv : QuorumInv C nodes w)
    (announced : (w.next C (ctx, event)).announced = true) :
    (w.next C (ctx, event)).node.toView ∈ (w.next C (ctx, event)).asked := by
  have views : ViewStep C ctx w.node event (w.node.step C ctx event) := step_views
  have grows : ¬ w.node.Resets event → w.announced = true →
      (w.node.step C ctx event).toView = w.node.toView →
      (w.next C (ctx, event)).node.toView ∈ (w.next C (ctx, event)).asked := by
    intro resets before same
    change (w.node.step C ctx event).toView ∈ if _ then _ else _
    rw [if_neg resets, same]
    exact List.mem_append_right _ (inv.announced before)
  cases event with
  | handleMsg sender packet =>
      cases packet with
      | viewChange req =>
          have parts : decide ((w.node.handleViewChangeMsg C ctx req).toView = w.node.toView) =
            true ∧
              (w.announced = true ∨ (decide (w.node.Answers req) && ctx.host) = true) := by
            rw [← Bool.or_eq_true, ← Bool.and_eq_true]
            exact announced
          have same := of_decide_eq_true parts.1
          rcases parts.2 with before | answered
          · exact grows id before same
          · rcases (Bool.and_eq_true _ _).mp answered with ⟨answers, host⟩
            rcases handleViewChangeMsg_log C ctx w.node req with ⟨effects, log, sent⟩
            change (w.node.handleViewChangeMsg C ctx req).toView ∈ sentViews
              ((w.node.handleViewChangeMsg C ctx req).log.take
                ((w.node.handleViewChangeMsg C ctx req).log.length - w.node.log.length)) ++ w.asked
            rw [recent_log log, same]
            exact List.mem_append_left _ (sent (of_decide_eq_true answers) inv.miner host)
      | _ => exact grows id announced (toView_kept views (by simp) (by simp) id)
  | checkTimeout =>
      by_cases due : w.node.timedOut ctx
      · have host : ctx.host = true := (if_pos due).symm.trans announced
        rcases checkTimeout_asks (C := C) due with ⟨toView, effects, log, sent⟩
        change (w.node.checkTimeout C ctx).toView ∈ sentViews ((w.node.checkTimeout C ctx).log.take
          ((w.node.checkTimeout C ctx).log.length - w.node.log.length)) ++ w.asked
        rw [recent_log log, toView]
        exact List.mem_append_left _ (sent inv.miner host)
      · have before : w.announced = true := (if_neg due).symm.trans announced
        have idle : w.node.checkTimeout C ctx = w.node := by rw [checkTimeout_eq, if_neg due]
        exact grows id before (congrArg toView idle)
  | reportBlock b =>
      rcases (Bool.and_eq_true _ _).mp announced with ⟨kept, before⟩
      have resets : ¬ w.node.consensusBlockNumber ≤ b.number := by simpa using kept
      exact grows resets before (toView_kept views (by simp) (by simp) resets)
  | _ => exact grows id announced (toView_kept views (by simp) (by simp) id)

theorem QuorumInv.step (inv : QuorumInv C nodes w) (table : ctx.nodes = nodes) :
    QuorumInv C nodes (w.next C (ctx, event)) := by
  rcases step_configured C ctx event table inv.config with ⟨config, idx⟩
  have registered : (w.node.step C ctx event).Registered nodes := inv.registered.step table
  have account : (w.node.step C ctx event).accountType = w.node.accountType := by
    have now : nodes.getAccountType (w.node.step C ctx event).pub =
        some (w.node.step C ctx event).accountType := registered
    rw [step_pub C ctx w.node event] at now
    exact Option.some.inj (now.symm.trans inv.registered)
  refine ⟨config, registered, ?_, fun announced => inv.step_announced announced, ?_⟩
  · have miner := inv.miner
    simp only [isMiner] at miner ⊢
    exact account.symm ▸ miner
  · intro m member
    have views : ViewStep C ctx w.node event (w.node.step C ctx event) := step_views
    have checked := inv.step_checked table views m member
    exact idx.symm ▸ checked

theorem QuorumInv.initial (C : Crypto) (ctx : Ctx) (setup : Setup) (idx : Nat)
    (found : ctx.nodes.getPublicKey idx = some setup.pub) (miner : ctx.nodes.MinerAt idx)
    (two : 2 ≤ ctx.nodes.getMinerNum) : QuorumInv C ctx.nodes { node := initEnv ctx setup } ∧
      (initEnv ctx setup).nodeIdx = idx ∧ (initEnv ctx setup).nodeNum = ctx.nodes.getMinerNum := by
  rcases initEnv_registered ctx setup idx (by omega) found with ⟨registered, pub, own, num⟩
  refine ⟨⟨Configured.initial setup, registered, ?_, nofun, ?_⟩, own, num⟩
  · rcases ctx.nodes.find_getPublicKey idx setup.pub found with ⟨node, atIdx, entry, -⟩
    rcases miner with ⟨other, again, mining⟩
    have same : node = other := Option.some.inj (atIdx.symm.trans again)
    have account : some node.identityType = some (initEnv ctx setup).accountType := by
      rw [← registered, pub, NodeTable.getAccountType, entry]
      rfl
    rw [isMiner, ← Option.some.inj account, same]
    exact mining
  · intro m member
    rw [(initEnv_views ctx setup).2.2] at member
    cases member

/-! The requests behind a view change. -/

/-- Requests for one view, by nodes that differ from each other and from this one. -/
structure Behind (C : Crypto) (nodes : NodeTable) (idx view : Nat) (held : List ViewChangeReq) :
    Prop where
  view : ∀ m ∈ held, m.view = view
  checked : ∀ m ∈ held, Checked C nodes idx m
  distinct : (idx :: held.map fun m => m.idx).Nodup

theorem behind_of_table (table : ViewChangeCache) (view idx : Nat)
    (checked : ∀ m ∈ table.entries, Checked C nodes idx m) :
    Behind C nodes idx view (table.entries.filter fun m => decide (m.view = view)) := by
  have views : ∀ m ∈ table.entries.filter (fun m => decide (m.view = view)), m.view = view :=
    fun m member => of_decide_eq_true (List.mem_filter.mp member).2
  have all : ∀ m ∈ table.entries.filter (fun m => decide (m.view = view)), Checked C nodes idx m :=
    fun m member => checked m (List.mem_filter.mp member).1
  refine ⟨views, all, List.nodup_cons.mpr ⟨?_, ?_⟩⟩
  · intro member
    rcases List.mem_map.mp member with ⟨m, inside, same⟩
    exact (all m inside).1 same
  · have keys := List.pairwise_map.mp (table.nodup.sublist ((List.filter_sublist
      (p := fun m => decide (m.view = view)) (l := table.entries)).map fun m => (m.view, m.idx)))
    apply List.pairwise_map.mpr
    apply keys.imp_of_mem
    intro a b first second different same
    exact different (by rw [views a first, views b second, same])

theorem quorum_pos (config : Configured nodes s.toCore) (num : s.nodeNum = nodes.getMinerNum)
    (two : 2 ≤ nodes.getMinerNum) : 1 ≤ s.quorum := by
  have faults : s.f = (s.nodeNum - 1) / 3 := config.faults
  have quorum : s.quorum = s.nodeNum - s.f := rfl
  omega

theorem QuorumInv.view_change (inv : QuorumInv C nodes w) (table : ctx.nodes = nodes)
    (num : w.node.nodeNum = nodes.getMinerNum) (two : 2 ≤ nodes.getMinerNum)
    (announced : ∀ sender req, event = .handleMsg sender (.viewChange req) →
      w.node.Receives C ctx req →
      w.node.Completes req → w.announced = true)
    (changed : (w.node.step C ctx event).view ≠ w.node.view) (resets : ¬ w.node.Resets event) :
    (w.node.step C ctx event).view ∈ (w.next C (ctx, event)).asked ∧
    ∃ held, Behind C nodes w.node.nodeIdx (w.node.step C ctx event).view held ∧
      (∀ m ∈ held, m ∈ w.node.recvViewChangeReq.entries ∨
        ∃ sender, event = .handleMsg sender (.viewChange m)) ∧
      w.node.quorum ≤ held.length + 1 := by
  have positive := quorum_pos inv.config num two
  have asked : (w.next C (ctx, event)).asked = sentViews ((w.node.step C ctx event).log.take
      ((w.node.step C ctx event).log.length - w.node.log.length)) ++ w.asked := if_neg resets
  have views : ViewStep C ctx w.node event (w.node.step C ctx event) := step_views
  cases views with
  | keep view => exact absurd view changed
  | reset reset => exact absurd reset resets
  | store sender req call received view => exact absurd view changed
  | reach sender req call received complete view =>
      have before := inv.announced (announced sender req call received complete)
      rw [asked, view]
      refine ⟨List.mem_append_right _ before, _,
        behind_of_table (w.node.recvViewChangeReq.insert req)
        w.node.toView w.node.nodeIdx ?_, ?_, ?_⟩
      · intro m member
        rcases insert_cases member with rfl | old
        · exact received.checked table
        · exact inv.checked m old
      · intro m member
        rcases insert_cases (List.mem_filter.mp member).1 with rfl | old
        · exact Or.inr ⟨sender, call⟩
        · exact Or.inl old
      · have count := complete.2
        rw [u256Sub_one positive] at count
        exact Nat.le_add_of_sub_le count
  | fast sender req call received acc walk many view => exact absurd view changed
  | timeout call due view => exact absurd view changed
  | timeoutReach call due sent view toView complete =>
      subst call
      have host : ctx.host = true := sent.resolve_left (by simp [inv.miner])
      rcases checkTimeout_asks (C := C) due with ⟨-, effects, log, wanted⟩
      have recent : (w.node.step C ctx .checkTimeout).log = effects ++ w.node.log := log
      rw [asked, view, recent_log recent]
      refine ⟨List.mem_append_left _ (wanted inv.miner host), _, behind_of_table
        (w.node.toCore.delViewChangeOf (u256Add w.node.toView 1)).recvViewChangeReq
        (u256Add w.node.toView 1) w.node.nodeIdx ?_, ?_, ?_⟩
      · intro m member
        exact inv.checked m (List.mem_filter.mp member).1
      · intro m member
        exact Or.inl (List.mem_filter.mp (List.mem_filter.mp member).1).1
      · rw [u256Sub_one positive] at complete
        exact Nat.le_add_of_sub_le complete

/-- In every run of a miner under one table of at least two miners in which the view wanted next has
been announced whenever a request completes its quorum: a view change is to a view the node has
asked for since the last reset, and with it at least a quorum of distinct nodes. -/
theorem view_change_quorum (C : Crypto) (ctx : Ctx) (setup : Setup) (idx : Nat)
    (found : ctx.nodes.getPublicKey idx = some setup.pub) (miner : ctx.nodes.MinerAt idx)
    (two : 2 ≤ ctx.nodes.getMinerNum) (calls : List (Ctx × Event))
    (table : ∀ call ∈ calls, call.1.nodes = ctx.nodes)
    (announced : ∀ entry ∈ Watched.trace C { node := initEnv ctx setup } calls, ∀ sender req,
      entry.2.2 = .handleMsg sender (.viewChange req) → entry.1.node.Receives C entry.2.1 req →
        entry.1.node.Completes req → entry.1.announced = true) :
    ∀ entry ∈ Watched.trace C { node := initEnv ctx setup } calls, ¬ entry.1.node.Resets entry.2.2 →
      let t := entry.1.node.step C entry.2.1 entry.2.2
      t.view ≠ entry.1.node.view → t.view ∈ (entry.1.next C entry.2).asked ∧
        ∃ held, Behind C ctx.nodes idx t.view held ∧
          (∀ m ∈ held, m ∈ entry.1.node.recvViewChangeReq.entries ∨
            ∃ sender, entry.2.2 = .handleMsg sender (.viewChange m)) ∧
          entry.1.node.quorum ≤ held.length + 1 ∧
          entry.1.node.quorum = ctx.nodes.getMinerNum - (ctx.nodes.getMinerNum - 1) / 3 := by
  rcases QuorumInv.initial C ctx setup idx found miner two with ⟨initial, own, num⟩
  let Meets := fun entry : Watched × Ctx × Event => ¬ entry.1.node.Resets entry.2.2 →
      let t := entry.1.node.step C entry.2.1 entry.2.2
      t.view ≠ entry.1.node.view → t.view ∈ (entry.1.next C entry.2).asked ∧
        ∃ held, Behind C ctx.nodes idx t.view held ∧
          (∀ m ∈ held, m ∈ entry.1.node.recvViewChangeReq.entries ∨
            ∃ sender, entry.2.2 = .handleMsg sender (.viewChange m)) ∧
          entry.1.node.quorum ≤ held.length + 1 ∧
          entry.1.node.quorum = ctx.nodes.getMinerNum - (ctx.nodes.getMinerNum - 1) / 3
  have all := run_invariant (Watched.next C)
    (fun history w => (QuorumInv C ctx.nodes w ∧ w.node.nodeIdx = idx ∧
      w.node.nodeNum = ctx.nodes.getMinerNum) ∧ ∀ entry ∈ history, Meets entry)
    (fun w call => call.1.nodes = ctx.nodes ∧ ∀ sender req,
      call.2 = .handleMsg sender (.viewChange req) → w.node.Receives C call.1 req →
        w.node.Completes req → w.announced = true)
    { node := initEnv ctx setup } ⟨⟨initial, own, num⟩, by simp⟩ ?_ calls ?_
  · exact all.2
  · intro events call w before admitted
    rcases before with ⟨⟨inv, here, miners⟩, earlier⟩
    rcases admitted with ⟨same, complete⟩
    rcases step_configured C call.1 call.2 same inv.config with ⟨-, kept⟩
    have count : (w.node.step C call.1 call.2).nodeNum = w.node.nodeNum := by
      have moves : Moves C call.1 w.node call.2 w.node.toCore
          (w.node.step C call.1 call.2).toCore := step_moves
      refine (moves_invariant (fun c : Core => Configured ctx.nodes c ∧
        c.nodeNum = w.node.nodeNum) moves
        ⟨inv.config, rfl⟩ ?_).2
      intro a b held move
      rcases held.1.move same move with ⟨config, -, number, -⟩
      exact ⟨config, number.trans held.2⟩
    refine ⟨⟨inv.step same, kept.trans here, count.trans miners⟩, ?_⟩
    intro entry member
    rcases List.mem_append.mp member with old | last
    · exact earlier entry old
    · rw [List.mem_singleton.mp last]
      intro resets t changed
      rcases inv.view_change same miners two complete changed resets with
        ⟨asked, held, behind, stored, enough⟩
      refine ⟨asked, held, here ▸ behind, stored, enough, ?_⟩
      have faults : w.node.f = (w.node.nodeNum - 1) / 3 := inv.config.faults
      change w.node.nodeNum - w.node.f = _
      rw [faults, miners]
  · intro entry member
    exact ⟨table entry.2 (trace_input _ _ _ _ member), announced entry member⟩

/-- Node 1 times out, and two other miners ask for the same view. -/
theorem announced_view_reached :
    let nodes : NodeTable := .consecutive 4 0
    let late : Ctx := { Ctx.quiet nodes with now := 10000 }
    let calls : List (Ctx × Event) :=
      [(Ctx.quiet nodes, .reportBlock { number := 0, hash := 5, timestamp := 1 }),
      (late, .checkTimeout), (late, .handleMsg 0 (.viewChange (toyVote 0 0 0 1 5))),
      (late, .handleMsg 2 (.viewChange (toyVote 2 0 0 1 5)))]
    let before := Watched.run Crypto.toy { node := toyNode nodes } (calls.take 3)
    let t := before.node.step Crypto.toy late (.handleMsg 2 (.viewChange (toyVote 2 0 0 1 5)))
    before.node.view = 0 ∧ t.view = 1 ∧ ∃ held, Behind Crypto.toy nodes 1 t.view held ∧
      before.node.quorum ≤ held.length + 1 := by
  intro nodes late calls before t
  refine ⟨by decide +kernel, by decide +kernel, ?_⟩
  have reached :=
    view_change_quorum Crypto.toy (Ctx.quiet nodes) { sec := 2, pub := 2, viewTimeout := 3000 } 1
    (by decide) ⟨⟨2, 1, 1⟩, by decide, by decide⟩ (by decide) calls
      (by simp [calls, late, Ctx.quiet]) (by
      intro entry member
      have cases : entry ∈ [_, _, _, _] := member
      simp only [List.mem_cons, List.not_mem_nil, or_false] at cases
      rcases cases with rfl | rfl | rfl | rfl
      · intro sender req same
        cases same
      · intro sender req same
        cases same
      · intro _ _ _ _ _
        decide +kernel
      · intro _ _ _ _ _
        decide +kernel)
  have last : (before, late, Event.handleMsg 2 (.viewChange (toyVote 2 0 0 1 5))) ∈
      Watched.trace Crypto.toy { node := toyNode nodes } calls := by
    change _ ∈ [_, _, _, (before, late, Event.handleMsg 2 (.viewChange (toyVote 2 0 0 1 5)))]
    simp
  rcases reached _ last id (by decide +kernel) with ⟨-, held, behind, -, enough, -⟩
  exact ⟨held, behind, enough⟩

/-- Two requests for view 3 make node 1 want view 2 without asking for it, and two late requests for
view 2 then take it there. -/
theorem unannounced_view_reached :
    let nodes : NodeTable := .consecutive 4 0
    let calls : List (Ctx × Event) :=
      [(Ctx.quiet nodes, .reportBlock { number := 0, hash := 5, timestamp := 1 }),
      (Ctx.quiet nodes, .handleMsg 0 (.viewChange (toyVote 0 0 0 3 5))),
      (Ctx.quiet nodes, .handleMsg 2 (.viewChange (toyVote 2 0 0 3 5))),
      (Ctx.quiet nodes, .handleMsg 0 (.viewChange (toyVote 0 0 0 2 5)))]
    let last : Ctx × Event := (Ctx.quiet nodes, .handleMsg 2 (.viewChange (toyVote 2 0 0 2 5)))
    let before := Watched.run Crypto.toy { node := toyNode nodes } calls
    let after := before.next Crypto.toy last
    ¬ before.node.Resets last.2 ∧ before.node.view = 0 ∧ after.node.view = 2 ∧ after.asked = [] ∧
      (∀ packet, Effect.sent packet ∉ after.node.log) ∧ ¬ after.node.view ∈ after.asked := by
  intro nodes calls last before after
  have quiet : after.node.log = [] := by decide +kernel
  have asked : after.asked = [] := by decide +kernel
  refine ⟨id, by decide +kernel, by decide +kernel, asked, ?_, ?_⟩
  · intro packet member
    rw [quiet] at member
    cases member
  · rw [asked]
    exact List.not_mem_nil

end Node

end UtispaceChain
