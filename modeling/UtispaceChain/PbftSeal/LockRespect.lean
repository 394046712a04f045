import UtispaceChain.PbftSeal.LockStep

/-! After a lock the node votes for the locked proposal only, until a block of that height is
reported. -/

namespace UtispaceChain

open Lib

/-- A node with the block hash of the proposal its prepared block stems from, and the locks whose
height no reported block has reached since. -/
structure Guarded where
  node : Node
  origin : H256 := 0
  locks : List (Nat × H256) := []

namespace Guarded

variable (C : Crypto)

def effects (g : Guarded) (call : Ctx × Event) : List Effect :=
  (g.node.next C call).log.take ((g.node.next C call).log.length - g.node.log.length)

def next (g : Guarded) (call : Ctx × Event) : Guarded where
  node := g.node.next C call
  origin := g.node.originAfter C call.1 call.2 g.origin
  locks := (locksIn (g.effects C call) ++ g.locks).filter fun lock =>
    decide ((g.node.next C call).highestBlock.number < lock.1)

def run (g : Guarded) (calls : List (Ctx × Event)) : Guarded := Lib.run (next C) g calls

def trace (g : Guarded) (calls : List (Ctx × Event)) : List (Guarded × Ctx × Event) :=
  Lib.trace (next C) g calls

/-- Every vote of the call for a locked height stems from the locked proposal. -/
def Respects (g : Guarded) (call : Ctx × Event) : Prop :=
  ∀ vote ∈ votesIn (g.effects C call), ∀ lock ∈ locksIn (g.effects C call) ++ g.locks,
    vote.height = lock.1 → (g.next C call).origin = lock.2

/-- The call keeps the proposal under a live prepare cache, and what the client commits passes the
checks of height and lock that `handlePrepareMsg` makes. -/
structure KeepsLock (g : Guarded) (call : Ctx × Event) : Prop where
  keeps : KeepsProposal C call.1 g.node call.2
  committed : ∀ proposal number hash block,
    call.2 = .generateCommit proposal number hash block g.node.view →
      number = g.node.rawPrepareCache.height ∧ number = g.node.consensusBlockNumber ∧
        (number = g.node.committedPrepareCache.height →
          proposal = g.node.committedPrepareCache.blockHash)
  reported : ∀ b, call.2 = .reportBlock b → b.number + 1 < 2 ^ 256

end Guarded

/-- The prepared block of the current view is the executed proposal of the raw cache, and agrees
with every lock of its height. -/
structure Stems (c : Core) (origin : H256) (locks : List (Nat × H256)) : Prop where
  hash : c.rawPrepareCache.blockHash = origin
  height : c.rawPrepareCache.height = c.prepareCache.height
  bound : c.prepareCache.height ≤ c.consensusBlockNumber
  current : ∀ lock ∈ locks, lock.1 < c.consensusBlockNumber ∨ c.prepareCache.height = lock.1
  agrees : ∀ lock ∈ locks, c.prepareCache.height = lock.1 → origin = lock.2

/-- A lock that still stands: of an earlier height, or the one the node remembers. -/
structure Stands (c : Core) (lock : Nat × H256) : Prop where
  unsaved : c.highestBlock.number < lock.1
  bound : lock.1 ≤ c.consensusBlockNumber
  remembered : lock.1 < c.consensusBlockNumber ∨
    (c.committedPrepareCache.height = lock.1 ∧ c.committedPrepareCache.blockHash = lock.2)

/-- A prepared block of another view is a cleared one, or left over from a lower height. -/
def Settled (c : Core) : Prop :=
  c.prepareCache.view = Invalid256 ∨ c.prepareCache.view = c.view ∨
  (c.view = 0 ∧ c.prepareCache.view ≠ 0)

structure RespectInv (g : Guarded) : Prop where
  views : Settled g.node.toCore
  live : g.node.Live → Stems g.node.toCore g.origin g.locks
  locked : ∀ lock ∈ g.locks, Stands g.node.toCore lock

section Step

variable {C : Crypto} {g : Guarded} {ctx : Ctx} {event : Event}

theorem not_live_of_cleared {c : Core} (cleared : c.prepareCache.view = Invalid256) : ¬ c.Live :=
  fun live => live.2 (live.1.symm.trans cleared)

theorem Settled.of_same {c d : Core} (settled : Settled c)
    (prepare : d.prepareCache = c.prepareCache) (view : d.view = c.view) : Settled d := by
  unfold Settled
  rw [prepare, view]
  exact settled

theorem Stems.sublist {c d : Core} {origin : H256} {locks fewer : List (Nat × H256)}
    (stems : Stems c origin locks) (raw : d.rawPrepareCache = c.rawPrepareCache)
    (prepare : d.prepareCache = c.prepareCache) (consensus : c.consensusBlockNumber ≤
      d.consensusBlockNumber) (kept : ∀ lock ∈ fewer, lock ∈ locks) :
    Stems d origin fewer := by
  refine ⟨by rw [raw]; exact stems.hash, by rw [raw, prepare]; exact stems.height, ?_, ?_, ?_⟩
  · rw [prepare]
    exact stems.bound.trans consensus
  · intro lock member
    rw [prepare]
    exact (stems.current lock (kept lock member)).imp_left fun below =>
      Nat.lt_of_lt_of_le below consensus
  · intro lock member
    rw [prepare]
    exact stems.agrees lock (kept lock member)

theorem Node.unprepared_of_other {s : Node} (offer : s.offered C ctx event = none)
    (kind : event.seals = false) :
    s.Unprepared C ctx event := by
  intro origin
  simp only [Node.originAfter, offer]
  cases event with
  | generateCommit => cases kind
  | _ => rfl

theorem RespectInv.prepared (inv : RespectInv g) (keeps : g.KeepsLock C (ctx, event)) {c : Core}
    (frame : SameFrame g.node.toCore c) (prepares : g.node.Prepares C ctx event c)
    (current : c.prepareCache.view = c.view) :
    Stems c (g.node.originAfter C ctx event g.origin) g.locks := by
  -- a lock of the height under consensus is the one the node remembers
  have remembered : ∀ lock ∈ g.locks, g.node.consensusBlockNumber = lock.1 →
      g.node.committedPrepareCache.height = lock.1 ∧ g.node.committedPrepareCache.blockHash =
        lock.2 := by
    intro lock member same
    rcases (inv.locked lock member).remembered with below | known
    · omega
    · exact known
  have reached : ∀ lock ∈ g.locks, c.prepareCache.height = g.node.consensusBlockNumber →
      lock.1 < c.consensusBlockNumber ∨ c.prepareCache.height = lock.1 := by
    intro lock member same
    have bound := (inv.locked lock member).bound
    rw [frame.consensus]
    omega
  cases prepares with
  | accept req self hash block offer enters valid raw height view =>
      rw [Node.originAfter_accept g.origin offer enters valid]
      have checked := FullyValidated.of_validated enters valid
      have now : c.prepareCache.height = g.node.consensusBlockNumber := height.trans enters.height
      refine ⟨by rw [raw], by rw [raw, height], ?_, fun lock member => reached lock member now, ?_⟩
      · rw [now, frame.consensus]
      · intro lock member same
        rcases remembered lock member (now.symm.trans same) with ⟨standing, locked⟩
        rw [← locked]
        apply checked.lock
        rw [standing, ← same, height]
  | own proposal number hash block call raw height view =>
      have origin : g.node.originAfter C ctx event g.origin = proposal := by
        rw [call]
        exact if_pos rfl
      rcases keeps.committed proposal number hash block call with ⟨proposed, under, lock⟩
      have now : c.prepareCache.height = g.node.consensusBlockNumber := height.trans under
      rw [origin]
      refine ⟨by rw [raw]; exact (keeps.keeps.committed proposal number hash block call).1, ?_, ?_,
        fun lock member => reached lock member now, ?_⟩
      · rw [raw, height]
        exact proposed.symm
      · rw [now, frame.consensus]
      · intro other member same
        rcases remembered other member (now.symm.trans same) with ⟨standing, locked⟩
        rw [← locked]
        apply lock
        rw [standing, ← same, height]
  | kept other seals raw prepare =>
      rw [Node.unprepared_of_other other seals]
      have live : g.node.Live := by
        refine ⟨?_, keeps.keeps.view⟩
        rw [← prepare, current, frame.view]
      exact (inv.live live).sublist raw prepare (Nat.le_of_eq frame.consensus.symm)
        fun _ member => member

theorem Stands.of_same {c d : Core} {lock : Nat × H256} (stands : Stands c lock)
    (unsaved : d.highestBlock.number < lock.1)
    (consensus : d.consensusBlockNumber = c.consensusBlockNumber)
    (committed : d.committedPrepareCache = c.committedPrepareCache) : Stands d lock := by
  refine ⟨unsaved, ?_, ?_⟩
  · rw [consensus]
    exact stands.bound
  · rw [consensus, committed]
    exact stands.remembered

theorem Guarded.mem_next_locks {new : List Effect} (effects : g.effects C (ctx, event) = new)
    {lock : Nat × H256} (member : lock ∈ (g.next C (ctx, event)).locks) :
    (lock ∈ locksIn new ∨ lock ∈ g.locks) ∧
      (g.node.step C ctx event).highestBlock.number < lock.1 := by
  rcases List.mem_filter.mp member with ⟨inside, unsaved⟩
  rw [effects] at inside
  exact ⟨List.mem_append.mp inside, of_decide_eq_true unsaved⟩

theorem Guarded.mem_quiet_locks {new : List Effect} (effects : g.effects C (ctx, event) = new)
    (quiet : Quiet new) {lock : Nat × H256} (member : lock ∈ (g.next C (ctx, event)).locks) :
    lock ∈ g.locks ∧
      (g.node.step C ctx event).highestBlock.number < lock.1 := by
  rcases Guarded.mem_next_locks effects member with ⟨inside, unsaved⟩
  rw [quiet.locks] at inside
  exact ⟨inside.resolve_left List.not_mem_nil, unsaved⟩

theorem Guarded.respects_quiet {new : List Effect} (effects : g.effects C (ctx, event) = new)
    (quiet : Quiet new) :
    g.Respects C (ctx, event) := by
  intro vote member
  rw [effects, quiet.votes] at member
  cases member

theorem RespectInv.step_quiet (inv : RespectInv g) (keeps : g.KeepsLock C (ctx, event))
    (new : List Effect) (log : (g.node.step C ctx event).log = new ++ g.node.log)
    (quiet : Quiet new) (frame : SameFrame g.node.toCore (g.node.step C ctx event).toCore)
    (prepare : (g.node.step C ctx event).prepareCache = g.node.prepareCache)
    (raw : (g.node.step C ctx event).rawPrepareCache = g.node.rawPrepareCache ∨
      g.node.ReplacesRaw C ctx event) (unprepared : g.node.Unprepared C ctx event) :
      RespectInv (g.next C (ctx, event)) := by
  have effects : g.effects C (ctx, event) = new := Node.recent_log log
  refine ⟨?_, ?_, ?_⟩
  · exact inv.views.of_same prepare frame.view
  · intro live
    have before : g.node.Live := by
      have now : (g.node.step C ctx event).prepareCache.view = (g.node.step C ctx event).view :=
        live.1
      refine ⟨?_, keeps.keeps.view⟩
      rw [prepare] at now
      exact now.trans frame.view
    -- nothing has been put under the live prepare cache
    have same : (g.node.step C ctx event).rawPrepareCache = g.node.rawPrepareCache := by
      rcases raw with kept | ⟨req, self, offer, enters, refused⟩ | ⟨number, hash, block, call, host⟩
      · exact kept
      · exact absurd refused (keeps.keeps.refused req self offer enters before)
      · exact absurd before (keeps.keeps.proposed number hash block call host)
    change Stems _ (g.node.originAfter C ctx event g.origin) _
    rw [unprepared]
    apply (inv.live before).sublist same prepare (Nat.le_of_eq frame.consensus.symm)
    intro lock member
    exact (Guarded.mem_quiet_locks effects quiet member).1
  · intro lock member
    rcases Guarded.mem_quiet_locks effects quiet member with ⟨old, unsaved⟩
    exact (inv.locked lock old).of_same unsaved frame.consensus frame.committed

theorem RespectInv.step_votes (inv : RespectInv g) (keeps : g.KeepsLock C (ctx, event))
    (before new : List Effect) (c : Core) (log : c.log = before ++ g.node.log)
    (silent : Quiet before) (frame : SameFrame g.node.toCore c)
    (prepares : g.node.Prepares C ctx event c)
    (votes : VotesFrom c (g.node.step C ctx event).toCore new)
    (current : c.prepareCache.view = c.view ∨ Quiet new) :
    RespectInv (g.next C (ctx, event)) ∧ g.Respects C (ctx, event) := by
  have effects : g.effects C (ctx, event) = new ++ before := by
    apply Node.recent_log
    change (g.node.step C ctx event).log = _
    rw [votes.log, log, List.append_assoc]
  have locks : locksIn (new ++ before) = locksIn new := by
    rw [locksIn_append, silent.locks, List.append_nil]
  have stems : c.prepareCache.view = c.view →
      Stems c (g.node.originAfter C ctx event g.origin) g.locks :=
    inv.prepared keeps frame prepares
  have fresh : ∀ lock ∈ locksIn new, lock =
    (c.rawPrepareCache.height, c.rawPrepareCache.blockHash) ∧
      c.prepareCache.view = c.view := by
    intro lock member
    rcases votes.lock with ⟨-, none⟩ | ⟨-, one, now⟩
    · rw [none] at member
      cases member
    · rw [one] at member
      exact ⟨List.mem_singleton.mp member, now⟩
  refine ⟨⟨?_, ?_, ?_⟩, ?_⟩
  · have settled : Settled c := by
      cases prepares with
      | accept req self hash block offer enters valid raw height view =>
          exact Or.inr (Or.inl (view.trans (enters.view.trans frame.view.symm)))
      | own proposal number hash block call raw height view =>
          exact Or.inr (Or.inl (view.trans frame.view.symm))
      | kept other seals raw prepare => exact inv.views.of_same prepare frame.view
    exact settled.of_same votes.prepare votes.view
  · intro live
    have now : c.prepareCache.view = c.view := by
      have same : (g.node.step C ctx event).prepareCache.view = (g.node.step C ctx event).view :=
        live.1
      rw [votes.prepare, votes.view] at same
      exact same
    have stemming := stems now
    refine ⟨votes.raw ▸ stemming.hash, ?_, ?_, ?_, ?_⟩
    · change (g.node.step C ctx event).rawPrepareCache.height =
        (g.node.step C ctx event).prepareCache.height
      rw [votes.raw, votes.prepare]
      exact stemming.height
    · change (g.node.step C ctx event).prepareCache.height ≤
        (g.node.step C ctx event).consensusBlockNumber
      rw [votes.prepare, votes.consensus]
      exact stemming.bound
    · intro lock member
      change lock.1 < (g.node.step C ctx event).consensusBlockNumber ∨
        (g.node.step C ctx event).prepareCache.height = lock.1
      rw [votes.prepare, votes.consensus]
      rcases (Guarded.mem_next_locks effects member).1 with added | old
      · rw [locks] at added
        rw [(fresh lock added).1]
        exact Or.inr stemming.height.symm
      · exact stemming.current lock old
    · intro lock member same
      have height : c.prepareCache.height = lock.1 := by
        rw [← votes.prepare]
        exact same
      rcases (Guarded.mem_next_locks effects member).1 with added | old
      · rw [locks] at added
        rw [(fresh lock added).1]
        exact stemming.hash.symm
      · exact stemming.agrees lock old height
  · intro lock member
    rcases Guarded.mem_next_locks effects member with ⟨inside, unsaved⟩
    rw [locks] at inside
    change Stands (g.node.step C ctx event).toCore lock
    rcases votes.lock with ⟨committed, none⟩ | ⟨committed, one, now⟩
    · rw [none] at inside
      have old : lock ∈ g.locks := inside.resolve_left List.not_mem_nil
      exact (inv.locked lock old).of_same unsaved (votes.consensus.trans frame.consensus)
        (committed.trans frame.committed)
    · have stemming := stems now
      rcases inside with added | old
      · rw [(fresh lock added).1] at unsaved ⊢
        refine ⟨unsaved, ?_, Or.inr ⟨by rw [committed], by rw [committed]⟩⟩
        rw [votes.consensus]
        exact stemming.height ▸ stemming.bound
      · refine ⟨unsaved, ?_, ?_⟩
        · rw [votes.consensus, frame.consensus]
          exact (inv.locked lock old).bound
        · rw [votes.consensus, committed]
          apply (stemming.current lock old).imp_right
          intro same
          exact ⟨stemming.height.trans same, stemming.hash.trans (stemming.agrees lock old same)⟩
  · intro vote member lock inside same
    rw [effects, votesIn_append, silent.votes, List.append_nil] at member
    have now : c.prepareCache.view = c.view := by
      rcases current with now | quiet
      · exact now
      · rw [quiet.votes] at member
        cases member
    rw [effects, locks] at inside
    rcases List.mem_append.mp inside with added | old
    · rw [(fresh lock added).1]
      exact (stems now).hash.symm
    · exact (stems now).agrees lock old ((votes.heights vote member).symm.trans same)

theorem RespectInv.step_report (inv : RespectInv g) (keeps : g.KeepsLock C (ctx, event))
    (b : BlockInfo) (call : event = .reportBlock b)
    (log : (g.node.step C ctx event).log = g.node.log)
    (committed : (g.node.step C ctx event).committedPrepareCache = g.node.committedPrepareCache)
    (highest : (g.node.step C ctx event).highestBlock = b)
    (heights : (g.node.consensusBlockNumber ≤ b.number ∧
        (g.node.step C ctx event).consensusBlockNumber = u256Add b.number 1 ∧
          (g.node.step C ctx event).view = 0) ∨
      (b.number < g.node.consensusBlockNumber ∧
        (g.node.step C ctx event).consensusBlockNumber = g.node.consensusBlockNumber ∧
        (g.node.step C ctx event).view = g.node.view))
    (raw : (g.node.step C ctx event).rawPrepareCache = g.node.rawPrepareCache)
    (prepare : (g.node.step C ctx event).prepareCache = g.node.prepareCache ∨
      (g.node.step C ctx event).prepareCache.view = Invalid256) :
      RespectInv (g.next C (ctx, event)) := by
  have effects : g.effects C (ctx, event) = [] := Node.recent_log log
  have origin : g.node.originAfter C ctx event g.origin = g.origin := by
    rw [call]
    rfl
  have next : u256Add b.number 1 = b.number + 1 := Nat.mod_eq_of_lt (keeps.reported b call)
  refine ⟨?_, ?_, ?_⟩
  · rcases prepare with same | cleared
    · rcases heights with ⟨-, -, view⟩ | ⟨-, -, view⟩
      · by_cases zero : g.node.prepareCache.view = 0
        · exact Or.inr
            (Or.inl ((congrArg (fun p : PrepareReq => p.view) same).trans (zero.trans view.symm)))
        · refine Or.inr (Or.inr ⟨view, ?_⟩)
          change (g.node.step C ctx event).prepareCache.view ≠ 0
          rw [same]
          exact zero
      · exact inv.views.of_same same view
    · exact Or.inl cleared
  · intro live
    rcases prepare with same | cleared
    swap
    · exact absurd live (not_live_of_cleared cleared)
    have now : g.node.prepareCache.view = (g.node.step C ctx event).view := same ▸ live.1
    -- a prepared block of view 0 was live before the block came
    have before : g.node.Live := by
      rcases heights with ⟨-, -, view⟩ | ⟨-, -, view⟩
      · rw [view] at now
        rcases inv.views with invalid | current | ⟨-, other⟩
        · rw [now] at invalid
          cases invalid
        · exact ⟨current, keeps.keeps.view⟩
        · exact absurd now other
      · exact ⟨now.trans view, keeps.keeps.view⟩
    change Stems (g.node.step C ctx event).toCore (g.node.originAfter C ctx event g.origin) _
    rw [origin]
    apply (inv.live before).sublist raw same
    · rcases heights with ⟨reached, consensus, -⟩ | ⟨-, consensus, -⟩
      · rw [consensus, next]
        omega
      · exact Nat.le_of_eq consensus.symm
    · intro lock member
      exact (Guarded.mem_quiet_locks effects .nil member).1
  · intro lock member
    rcases Guarded.mem_quiet_locks effects .nil member with ⟨old, unsaved⟩
    rcases heights with ⟨reached, -, -⟩ | ⟨-, consensus, -⟩
    · have bound := (inv.locked lock old).bound
      rw [highest] at unsaved
      omega
    · exact (inv.locked lock old).of_same unsaved consensus committed

theorem RespectInv.step (inv : RespectInv g) (keeps : g.KeepsLock C (ctx, event)) :
    RespectInv (g.next C (ctx, event)) ∧ g.Respects C (ctx, event) := by
  have lock : g.node.LockStep C ctx event (g.node.step C ctx event).toCore := Node.step_lock
  cases lock with
  | quiet new log silent frame prepare raw unprepared =>
      exact ⟨inv.step_quiet keeps new log silent frame prepare raw unprepared,
        Guarded.respects_quiet (Node.recent_log log) silent⟩
  | cleared new log silent committed highest consensus prepare =>
      have effects : g.effects C (ctx, event) = new := Node.recent_log log
      refine ⟨⟨Or.inl prepare, fun live => absurd live (not_live_of_cleared prepare), ?_⟩,
        Guarded.respects_quiet effects silent⟩
      intro lock member
      rcases Guarded.mem_quiet_locks effects silent member with ⟨old, unsaved⟩
      exact (inv.locked lock old).of_same unsaved consensus committed
  | report b call log committed highest heights raw prepare =>
      have effects : g.effects C (ctx, event) = [] := Node.recent_log log
      exact ⟨inv.step_report keeps b call log committed highest heights raw prepare,
        Guarded.respects_quiet effects .nil⟩
  | votes before new c log silent frame prepares votes current =>
      exact inv.step_votes keeps before new c log silent frame prepares votes current

end Step

theorem RespectInv.initial (ctx : Ctx) (setup : Node.Setup) :
    RespectInv { node := Node.initEnv ctx setup } := by
  have cleared := (Node.initEnv_prepare ctx setup).1
  refine ⟨Or.inl cleared, fun live => absurd live (not_live_of_cleared cleared), ?_⟩
  intro lock member
  cases member

/-- In every run whose calls keep proposal and lock, each vote for a height that is locked and not
saved stems from the locked proposal. -/
theorem lock_respected (C : Crypto) (ctx : Ctx) (setup : Node.Setup) (calls : List (Ctx × Event))
    (keeps : ∀ entry ∈ Guarded.trace C { node := Node.initEnv ctx setup } calls,
      entry.1.KeepsLock C entry.2) :
    ∀ entry ∈ Guarded.trace C { node := Node.initEnv ctx setup } calls,
    entry.1.Respects C entry.2 := by
  have all := run_invariant (Guarded.next C)
    (fun history g => RespectInv g ∧ ∀ entry ∈ history, entry.1.Respects C entry.2)
    (fun g call => g.KeepsLock C call) { node := Node.initEnv ctx setup }
    ⟨RespectInv.initial ctx setup, by simp⟩ ?_ calls keeps
  · exact all.2
  · intro events call g before admitted
    rcases before.1.step admitted with ⟨inv, respects⟩
    refine ⟨inv, ?_⟩
    intro entry member
    rcases List.mem_append.mp member with old | last
    · exact before.2 entry old
    · rw [List.mem_singleton.mp last]
      exact respects

/-- A proposal of the leader is signed by three of four miners; node 1 locks it and votes to
commit. -/
theorem commit_for_lock :
    let calls :=
  fromGenesis (.consecutive 4 0) [.prepare (toyPrepare 0 1 0 7), .sign (toyVote 0 0 1 0 8)]
    let last : Ctx × Event :=
      (Ctx.executing (.consecutive 4 0), .handleMsg 0 (.sign (toyVote 2 0 1 0 8)))
    let g := Guarded.run Crypto.toy { node := toyNode (.consecutive 4 0) } calls
    (votesIn (g.effects Crypto.toy last)).map (fun vote => (vote.height, vote.blockHash)) =
      [(1, 8)] ∧
      (g.next Crypto.toy last).locks = [(1, 7)] ∧ g.Respects Crypto.toy last := by
  intro calls last g
  refine ⟨by decide +kernel, by decide +kernel, ?_⟩
  have respected := lock_respected Crypto.toy (Ctx.quiet (.consecutive 4 0))
    { sec := 2, pub := 2, viewTimeout := 3000 } (calls ++ [last]) ?_
  · apply respected (g, last)
    change _ ∈ [_, _, _, (g, last)]
    simp
  intro entry member
  have cases : entry ∈ [_, _, _, _] := member
  simp only [List.mem_cons, List.not_mem_nil, or_false] at cases
  rcases cases with rfl | rfl | rfl | rfl
  · refine ⟨.of_other (by decide +kernel) rfl rfl, nofun, ?_⟩
    intro b same
    cases same
    decide
  · refine ⟨⟨by decide +kernel, ?_, nofun, nofun⟩, nofun, nofun⟩
    intro req self offer enters live
    cases offer
    decide +kernel
  · exact ⟨.of_other (by decide +kernel) rfl rfl, nofun, nofun⟩
  · exact ⟨.of_other (by decide +kernel) rfl rfl, nofun, nofun⟩

/-- Node 1 leads view 1 and is about to seal a block when view 2 is reached and the proposal of its
leader is locked; then it commits its own block of the same height. -/
theorem own_block_against_lock :
    let nodes : NodeTable := .consecutive 4 0
    let timeAt := fun now : Nat => { Ctx.executing nodes with now := now }
    let sealing : List (Ctx × Event) :=
      [(timeAt 1000, .reportBlock { number := 0, hash := 5, timestamp := 1 }),
      (timeAt 10000, .checkTimeout), (timeAt 10000, .handleMsg 0 (.viewChange (toyVote 0 0 0 1 5))),
      (timeAt 10000, .handleMsg 2 (.viewChange (toyVote 2 0 0 1 5)))]
    let lock : List (Ctx × Event) := [(timeAt 20000, .shouldSeal), (timeAt 20000, .checkTimeout),
      (timeAt 20000, .handleMsg 0 (.viewChange (toyVote 0 0 0 2 5))),
      (timeAt 20000, .handleMsg 2 (.viewChange (toyVote 2 0 0 2 5))),
      (timeAt 20000, .handleMsg 2 (.prepare (toyPrepare 2 1 2 7))),
      (timeAt 20000, .handleMsg 0 (.sign (toyVote 0 0 1 2 8))),
      (timeAt 20000, .handleMsg 2 (.sign (toyVote 2 0 1 2 8)))]
    let own : List (Ctx × Event) := [(timeAt 20000, .generateSeal 1 20 toyBlock)]
    let last : Ctx × Event := (timeAt 20000, .generateCommit 20 1 21 toyBlock 2)
    let start : Guarded := { node := toyNode nodes }
    let g := Guarded.run Crypto.toy start (sealing ++ lock ++ own)
    ((Guarded.run Crypto.toy start sealing).node.shouldSeal Crypto.toy (timeAt 20000)).2 = true ∧
      g.locks = [(1, 7)] ∧ g.node.committedPrepareCache = toyPrepare 2 1 2 7 ∧
      g.node.highestBlock.number = 0 ∧
      (votesIn (g.effects Crypto.toy last)).map (fun vote => (vote.height, vote.blockHash)) =
        [(1, 21)] ∧
      (g.next Crypto.toy last).origin = 20 ∧ ¬ g.Respects Crypto.toy last := by
  intro nodes timeAt sealing lock own last start g
  have locks : g.locks = [(1, 7)] := by decide +kernel
  have origin : (g.next Crypto.toy last).origin = 20 := by decide +kernel
  have voted : (votesIn (g.effects Crypto.toy last)).map (fun vote => (vote.height, vote.blockHash))
      = [(1, 21)] := by
    decide +kernel
  refine ⟨by decide +kernel, locks, by decide +kernel, by decide +kernel, voted, origin, ?_⟩
  intro respects
  have height : ∃ vote ∈ votesIn (g.effects Crypto.toy last), vote.height = 1 := by
    have member : ((1, 21) : Nat × H256) ∈
        (votesIn (g.effects Crypto.toy last)).map (fun vote => (vote.height, vote.blockHash)) := by
      rw [voted]
      exact List.mem_singleton_self _
    rcases List.mem_map.mp member with ⟨vote, inside, same⟩
    exact ⟨vote, inside, congrArg Prod.fst same⟩
  rcases height with ⟨vote, member, one⟩
  have kept : ((1, 7) : Nat × H256) ∈ locksIn (g.effects Crypto.toy last) ++ g.locks := by
    rw [locks]
    simp
  have same := respects vote member (1, 7) kept one
  rw [origin] at same
  cases same

end UtispaceChain
