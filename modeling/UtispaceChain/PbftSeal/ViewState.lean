import UtispaceChain.PbftSeal.ViewChange

/-! The two view counters and the stored requests over whole runs. -/

namespace UtispaceChain

open Lib

namespace Node

variable {C : Crypto} {ctx : Ctx} {s t : Node} {event : Event}

theorem fastView_lowest (highest : Nat) (requests : List ViewChangeReq) :
    let acc := requests.foldl (fastViewStep highest) {}
    (acc.minView = Invalid256 ∨ ∃ m ∈ requests, acc.minView = m.view) ∧
      (0 < acc.idxView.length → ∃ m ∈ requests, acc.minView ≤ m.view) := by
  induction requests using List.reverseRecOn with
  | nil => exact ⟨Or.inl rfl, fun counted => absurd counted (by simp)⟩
  | append_singleton requests last ih =>
      rw [List.foldl_append]
      generalize requests.foldl (fastViewStep highest) {} = acc at ih ⊢
      rcases ih with ⟨lowest, counted⟩
      have grown : ∀ p : ViewChangeReq → Prop, (∃ m ∈ requests, p m) →
          ∃ m ∈ requests ++ [last], p m := by
        rintro p ⟨m, member, holds⟩
        exact ⟨m, List.mem_append_left _ member, holds⟩
      simp only [List.foldl_cons, List.foldl_nil, fastViewStep]
      split_ifs
      · refine ⟨?_, fun _ => ⟨last, by simp, Nat.min_le_right _ _⟩⟩
        rcases Nat.le_total acc.minView last.view with low | high
        · rw [Nat.min_eq_left low]
          exact lowest.imp_right (grown _)
        · rw [Nat.min_eq_right high]
          exact Or.inr ⟨last, by simp, rfl⟩
      · exact ⟨lowest.imp_right (grown _), fun some => grown _ (counted some)⟩

/-- The request came in a message and passed all checks when it was stored. -/
def StoredIn (C : Crypto) (history : List (Node × Ctx × Event)) (m : ViewChangeReq) : Prop :=
  ∃ s ctx sender, (s, ctx, .handleMsg sender (.viewChange m)) ∈ history ∧ s.Receives C ctx m

structure ViewInv (C : Crypto) (history : List (Node × Ctx × Event)) (s : Node) : Prop where
  ordered : s.view ≤ s.toView
  later : ∀ m ∈ s.recvViewChangeReq.entries, s.view < m.view
  bounded : ∀ m ∈ s.recvViewChangeReq.entries, m.view < 2 ^ 255
  stored : ∀ m ∈ s.recvViewChangeReq.entries, StoredIn C history m

/-- The requests are walked in some order, their views are below `2 ^ 255`, and a timeout finds a
next view. -/
structure Steady (ctx : Ctx) (s : Node) (event : Event) : Prop where
  walks : ∀ requests, (ctx.order requests).Perm requests
  bounded : ∀ sender req, event = .handleMsg sender (.viewChange req) → req.view < 2 ^ 255
  room : event = .checkTimeout → s.toView + 1 < 2 ^ 256

theorem fast_toView (req : ViewChangeReq) (acc : FastView)
    (walk : acc = (ctx.order ((s.recvViewChangeReq.insert req).entries.filter
      (fun m => decide (s.toView < m.view)))).foldl (fastViewStep s.highestBlock.number) {})
    (many : s.f < acc.idxView.length) (walks : ∀ requests, (ctx.order requests).Perm requests)
    (bounded : ∀ m ∈ (s.recvViewChangeReq.insert req).entries, m.view < 2 ^ 255) :
    s.toView < acc.minView := by
  rcases fastView_lowest s.highestBlock.number
    (ctx.order ((s.recvViewChangeReq.insert req).entries.filter
    (fun m => decide (s.toView < m.view)))) with ⟨lowest, counted⟩
  rw [← walk] at lowest counted
  have later : ∀ m ∈ ctx.order ((s.recvViewChangeReq.insert req).entries.filter
      (fun m => decide (s.toView < m.view))), s.toView < m.view ∧ m.view < 2 ^ 255 := by
    intro m member
    rcases List.mem_filter.mp ((walks _).mem_iff.mp member) with ⟨stored, above⟩
    exact ⟨of_decide_eq_true above, bounded m stored⟩
  rcases lowest with none | ⟨m, member, view⟩
  · rcases counted (Nat.lt_of_le_of_lt (Nat.zero_le _) many) with ⟨m, member, le⟩
    have below := (later m member).2
    rw [none, Invalid256] at le
    omega
  · rw [view]
    exact (later m member).1

theorem u256Add_one {n : Nat} (room : n + 1 < 2 ^ 256) : u256Add n 1 = n + 1 :=
  Nat.mod_eq_of_lt room

theorem u256Sub_one {n : Nat} (positive : 0 < n) : u256Sub n 1 = n - 1 := if_pos positive

theorem insert_cases {requests : ViewChangeCache} {req m : ViewChangeReq}
    (member : m ∈ (requests.insert req).entries) : m = req ∨ m ∈ requests.entries :=
  ((KeyedTable.mem_insert requests req m).mp member).imp_right And.left

theorem ViewInv.inserted (inv : ViewInv C history s) (steady : Steady ctx s event) (sender : Nat)
    (req : ViewChangeReq) (call : event = .handleMsg sender (.viewChange req))
    (received : s.Receives C ctx req) : ∀ m ∈ (s.recvViewChangeReq.insert req).entries,
      s.view < m.view ∧ m.view < 2 ^ 255 ∧ StoredIn C (history ++ [(s, ctx, event)]) m := by
  intro m member
  rcases insert_cases member with rfl | old
  · exact ⟨received.view, steady.bounded sender m call, s, ctx, sender, by simp [call], received⟩
  · rcases inv.stored m old with ⟨s', ctx', sender', was, receives⟩
    exact ⟨inv.later m old, inv.bounded m old, s', ctx', sender', List.mem_append_left _ was,
      receives⟩

theorem ViewInv.step (inv : ViewInv C history s) (steady : Steady ctx s event)
    (views : ViewStep C ctx s event t) : ViewInv C (history ++ [(s, ctx, event)]) t ∧
      (¬ s.Resets event → s.view ≤ t.view ∧ s.toView ≤ t.toView) := by
  have old : ∀ m ∈ s.recvViewChangeReq.entries, StoredIn C (history ++ [(s, ctx, event)]) m := by
    intro m member
    rcases inv.stored m member with ⟨s', ctx', sender, was, receives⟩
    exact ⟨s', ctx', sender, List.mem_append_left _ was, receives⟩
  have ordered := inv.ordered
  cases views with
  | keep view toView requests =>
      refine ⟨⟨by omega, ?_, ?_, ?_⟩, fun _ => ⟨by omega, by omega⟩⟩
      · intro m member
        exact view ▸ inv.later m (requests m member)
      · exact fun m member => inv.bounded m (requests m member)
      · exact fun m member => old m (requests m member)
  | reset resets view toView requests =>
      refine ⟨⟨by omega, ?_, ?_, ?_⟩, fun other => absurd resets other⟩
      · intro m member
        have above := inv.later m (requests m member)
        omega
      · exact fun m member => inv.bounded m (requests m member)
      · exact fun m member => old m (requests m member)
  | store sender req call received view toView requests =>
      have inserted := inv.inserted steady sender req call received
      refine ⟨⟨by omega, ?_, ?_, ?_⟩, fun _ => ⟨by omega, by omega⟩⟩
      · intro m member
        rw [requests] at member
        exact view ▸ (inserted m member).1
      · intro m member
        rw [requests] at member
        exact (inserted m member).2.1
      · intro m member
        rw [requests] at member
        exact (inserted m member).2.2
  | reach sender req call received complete view toView requests =>
      have inserted := inv.inserted steady sender req call received
      refine ⟨⟨by omega, ?_, ?_, ?_⟩, fun _ => ⟨by omega, by omega⟩⟩
      · intro m member
        rw [requests, KeyedTable.mem_keep] at member
        exact view ▸ of_decide_eq_true member.2
      · intro m member
        rw [requests, KeyedTable.mem_keep] at member
        exact (inserted m member.1).2.1
      · intro m member
        rw [requests, KeyedTable.mem_keep] at member
        exact (inserted m member.1).2.2
  | fast sender req call received acc walk many view toView requests =>
      have inserted := inv.inserted steady sender req call received
      have above : s.toView < acc.minView := fast_toView req acc walk many steady.walks
        fun m member => (inserted m member).2.1
      rw [u256Sub_one (by omega)] at toView
      refine ⟨⟨by omega, ?_, ?_, ?_⟩, fun _ => ⟨by omega, by omega⟩⟩
      · intro m member
        rw [requests] at member
        exact view ▸ (inserted m member).1
      · intro m member
        rw [requests] at member
        exact (inserted m member).2.1
      · intro m member
        rw [requests] at member
        exact (inserted m member).2.2
  | timeout call due view toView requests =>
      rw [u256Add_one (steady.room call)] at toView
      refine ⟨⟨by omega, ?_, ?_, ?_⟩, fun _ => ⟨by omega, by omega⟩⟩
      · intro m member
        exact view ▸ inv.later m (requests m member)
      · exact fun m member => inv.bounded m (requests m member)
      · exact fun m member => old m (requests m member)
  | timeoutReach call due sent view toView complete requests later =>
      rw [u256Add_one (steady.room call)] at toView view
      refine ⟨⟨by omega, later, ?_, ?_⟩, fun _ => ⟨by omega, by omega⟩⟩
      · exact fun m member => inv.bounded m (requests m member)
      · exact fun m member => old m (requests m member)

theorem initEnv_views (ctx : Ctx) (setup : Setup) : (initEnv ctx setup).view = 0 ∧
    (initEnv ctx setup).toView = 0 ∧ (initEnv ctx setup).recvViewChangeReq.entries = [] := by
  have requests := (initEnv_caches ctx setup).2.2
  unfold initEnv at requests ⊢
  dsimp only [onCore] at requests ⊢
  rcases resetConfig_views ctx _ with ⟨view, toView, -⟩
  exact ⟨view, toView, by rw [requests]; rfl⟩

theorem ViewInv.initial (C : Crypto) (ctx : Ctx) (setup : Setup) :
    ViewInv C [] (initEnv ctx setup) := by
  rcases initEnv_views ctx setup with ⟨view, toView, requests⟩
  have none : ∀ m, m ∉ (initEnv ctx setup).recvViewChangeReq.entries := by
    intro m member
    rw [requests] at member
    cases member
  exact ⟨by omega, fun m member => absurd member (none m), fun m member => absurd member (none m),
    fun m member => absurd member (none m)⟩

/-- In every run of steady calls the view is at most the view wanted, every stored request asks for
a later view and was checked when it came in, and neither counter decreases but where a new block
resets both. -/
theorem view_state (C : Crypto) (ctx : Ctx) (setup : Setup) (calls : List (Ctx × Event))
    (steady : ∀ entry ∈ trace C (initEnv ctx setup) calls, Steady entry.2.1 entry.1 entry.2.2) :
    let s := run C (initEnv ctx setup) calls
    let history := trace C (initEnv ctx setup) calls
    s.view ≤ s.toView ∧
    (∀ m ∈ s.recvViewChangeReq.entries, s.view < m.view ∧ ∃ s' ctx' sender,
      (s', ctx', .handleMsg sender (.viewChange m)) ∈ history ∧ m.idx ≠ s'.nodeIdx ∧
        checkSign C ctx' m = true) ∧
    ∀ entry ∈ history, ¬ entry.1.Resets entry.2.2 →
      entry.1.view ≤ (entry.1.step C entry.2.1 entry.2.2).view ∧
        entry.1.toView ≤ (entry.1.step C entry.2.1 entry.2.2).toView := by
  intro s history
  have inv : ViewInv C history s ∧ ∀ entry ∈ history, ¬ entry.1.Resets entry.2.2 →
      entry.1.view ≤ (entry.1.step C entry.2.1 entry.2.2).view ∧
        entry.1.toView ≤ (entry.1.step C entry.2.1 entry.2.2).toView := by
    apply run_invariant (next C) (fun history s => ViewInv C history s ∧ ∀ entry ∈ history,
      ¬ entry.1.Resets entry.2.2 → entry.1.view ≤ (entry.1.step C entry.2.1 entry.2.2).view ∧
        entry.1.toView ≤ (entry.1.step C entry.2.1 entry.2.2).toView)
      (fun s call => Steady call.1 s call.2) _ _ _ calls steady
    · exact ⟨ViewInv.initial C ctx setup, by simp⟩
    · intro events call s before admitted
      rcases before.1.step admitted step_views with ⟨kept, grows⟩
      refine ⟨kept, ?_⟩
      intro entry member
      rcases List.mem_append.mp member with earlier | last
      · exact before.2 entry earlier
      · rw [List.mem_singleton.mp last]
        exact grows
  refine ⟨inv.1.ordered, ?_, inv.2⟩
  intro m member
  rcases inv.1.stored m member with ⟨s', ctx', sender, was, receives⟩
  exact ⟨inv.1.later m member, s', ctx', sender, was, receives.foreign, receives.signed⟩

/-- Two requests for view 3 let node 1 want view 2, and a timeout view 3. -/
theorem fast_start_steady :
    let nodes : NodeTable := .consecutive 4 0
    let calls : List (Ctx × Event) :=
      [(Ctx.quiet nodes, .reportBlock { number := 0, hash := 5, timestamp := 1 }),
      (Ctx.quiet nodes, .handleMsg 0 (.viewChange (toyVote 0 0 0 3 5))),
      (Ctx.quiet nodes, .handleMsg 2 (.viewChange (toyVote 2 0 0 3 5))),
      ({ Ctx.quiet nodes with now := 10000 }, .checkTimeout)]
    let s := run Crypto.toy (toyNode nodes) calls
    (run Crypto.toy (toyNode nodes) (calls.take 3)).toView = 2 ∧ s.view = 3 ∧
      s.view ≤ s.toView := by
  intro nodes calls s
  refine ⟨by decide +kernel, by decide +kernel, ?_⟩
  apply (view_state Crypto.toy (Ctx.quiet nodes)
    { sec := 2, pub := 2, viewTimeout := 3000 } calls _).1
  intro entry member
  have cases : entry ∈ [_, _, _, _] := member
  simp only [List.mem_cons, List.not_mem_nil, or_false] at cases
  rcases cases with rfl | rfl | rfl | rfl
  · exact ⟨fun requests => List.Perm.refl requests, nofun, nofun⟩
  · refine ⟨fun requests => List.Perm.refl requests, ?_, nofun⟩
    intro sender req same
    cases same
    decide
  · refine ⟨fun requests => List.Perm.refl requests, ?_, nofun⟩
    intro sender req same
    cases same
    decide
  · exact ⟨fun requests => List.Perm.refl requests, nofun, fun _ => by decide +kernel⟩

def alone : Ctx := { Ctx.quiet (.consecutive 1 0) with now := 10000 }

def emptyBlockTimeout : List (Ctx × Event) :=
  [(alone, .changeViewForEmptyBlockWithLock), (alone, .checkTimeout)]

def soleMiner : Node := initEnv alone { sec := 1, pub := 1, viewTimeout := 3000 }

structure AloneIn (current : Nat) (s : Node) : Prop where
  miner : s.isMiner = true
  quorum : s.quorum = 1
  timeout : s.viewTimeout = 3000
  view : s.view = current
  toView : s.toView = current

theorem AloneIn.timeout_step {view : Nat} (before : AloneIn view s) (due : s.timedOut alone) :
    AloneIn (u256Add view 1) (s.checkTimeout C alone) := by
  rcases broadcastViewChangeReq_withLog C alone (s.startViewChange alone) with ⟨effects, asked, -⟩
  have sent : s.viewChangeSent alone = true := by simp [viewChangeSent, alone, Ctx.quiet]
  rw [checkTimeout_eq, if_pos due]
  dsimp only
  rw [if_pos sent, asked]
  have quorum : s.quorum = 1 := before.quorum
  rcases checkAndChangeView_cases ((s.startViewChange alone).withLog
    (effects ++ (s.startViewChange alone).log)) with ⟨-, few⟩ | ⟨changed, -⟩
  · exfalso
    apply few
    have none : u256Sub s.quorum 1 = 0 := by rw [quorum]; rfl
    exact none ▸ Nat.zero_le _
  · rw [changed]
    have toView : u256Add s.toView 1 = u256Add view 1 := by rw [before.toView]
    exact ⟨before.miner, quorum, before.timeout, toView, toView⟩

theorem AloneIn.next {view : Nat} (before : AloneIn view s) :
    let t := s.changeViewForEmptyBlockWithLock
    AloneIn view t ∧ AloneIn (u256Add view 1) (t.checkTimeout C alone) := by
  intro t
  have idle : AloneIn view t :=
    ⟨before.miner, before.quorum, before.timeout, before.view, before.toView⟩
  refine ⟨idle, idle.timeout_step ?_⟩
  have interval : t.timeoutInterval = 3000 := by
    change s.viewTimeout * 3 ^ 0 / 2 ^ 0 = 3000
    rw [before.timeout]
    rfl
  change t.timeoutInterval ≤ (10000 + 2 ^ 64 - max 0 0) % 2 ^ 64
  rw [interval]
  decide

theorem soleMiner_views (rounds : Nat) :
    AloneIn (rounds % 2 ^ 256)
      (run C soleMiner (List.replicate rounds emptyBlockTimeout).flatten) := by
  induction rounds with
  | zero =>
      have start : AloneIn 0 soleMiner := by constructor <;> decide +kernel
      exact start
  | succ rounds ih =>
      have unrolled : (List.replicate (rounds + 1) emptyBlockTimeout).flatten =
          (List.replicate rounds emptyBlockTimeout).flatten ++ emptyBlockTimeout := by
        rw [List.replicate_succ', List.flatten_concat]
      have last : run C soleMiner (List.replicate (rounds + 1) emptyBlockTimeout).flatten =
          ((run C soleMiner (List.replicate rounds emptyBlockTimeout).flatten)
            |>.changeViewForEmptyBlockWithLock).checkTimeout C alone := by
        rw [unrolled, run, Lib.run, List.foldl_append]
        rfl
      have wrapped : (rounds + 1) % 2 ^ 256 = u256Add (rounds % 2 ^ 256) 1 := by
        rw [u256Add, Nat.mod_add_mod]
      rw [last, wrapped]
      exact ih.next.2

theorem AloneIn.wraps (before : AloneIn (2 ^ 256 - 1) s) :
    let t := s.changeViewForEmptyBlockWithLock
    ¬ t.Resets .checkTimeout ∧ (t.step C alone .checkTimeout).view < t.view ∧
      (t.step C alone .checkTimeout).toView < t.toView := by
  intro t
  rcases before.next (C := C) with ⟨highest, zero⟩
  have view : t.view = 2 ^ 256 - 1 := highest.view
  have toView : t.toView = 2 ^ 256 - 1 := highest.toView
  have next : (t.step C alone .checkTimeout).view = 0 := zero.view
  have nextTo : (t.step C alone .checkTimeout).toView = 0 := zero.toView
  rw [view, toView, next, nextTo]
  exact ⟨id, by decide, by decide⟩

/-- After `2 ^ 256 - 1` empty blocks and timeouts without a new block a single miner is in the
highest view, and the next timeout takes it back to view 0. -/
theorem view_wraps_around :
    let s := (run Crypto.toy soleMiner (List.replicate (2 ^ 256 - 1) emptyBlockTimeout).flatten)
      |>.changeViewForEmptyBlockWithLock
    ¬ s.Resets .checkTimeout ∧ (s.step Crypto.toy alone .checkTimeout).view < s.view ∧
      (s.step Crypto.toy alone .checkTimeout).toView < s.toView := by
  have views := soleMiner_views (C := Crypto.toy) (2 ^ 256 - 1)
  rw [Nat.mod_eq_of_lt (by decide)] at views
  exact views.wraps

end Node

end UtispaceChain
