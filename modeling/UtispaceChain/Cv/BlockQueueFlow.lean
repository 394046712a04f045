import UtispaceChain.Cv.BlockQueueSets

/-! The verification pipeline: the block at the front of `m_verifying` is always one that a verifier
is still working on. -/

namespace UtispaceChain

open Lib

namespace BlockQueue

variable {C : Crypto} {s : BlockQueue}

/-- The hashes of the blocks of a verifying queue that are not finished. -/
def waits (q : List QueuedBlock) : List H256 :=
  (q.filter fun b => b.blockData.isEmpty).map QueuedBlock.sha3Uncles

def FrontWaits (q : List QueuedBlock) : Prop := ∀ b ∈ q.head?, b.blockData = []

def unfinishedFirst : Guard where
  verified _ := true
  unverified _ := true
  verifying s := (s.verifying.find? fun b => !isBadVerifying s b).all fun b => b.blockData.isEmpty

@[simp] theorem waits_nil : waits [] = [] := rfl

theorem waits_cons_waiting {b : QueuedBlock} (empty : b.blockData = []) (q : List QueuedBlock) :
    waits (b :: q) = b.sha3Uncles :: waits q := by
  simp [waits, empty]

theorem waits_cons_done {b : QueuedBlock} (full : b.blockData ≠ []) (q : List QueuedBlock) :
    waits (b :: q) = waits q := by
  simp [waits, full]

theorem waits_append (q q' : List QueuedBlock) : waits (q ++ q') = waits q ++ waits q' := by
  simp [waits]

theorem waits_sublist {q q' : List QueuedBlock} (h : q.Sublist q') : (waits q).Sublist (waits q') :=
  (h.filter _).map _

theorem mem_waits {q : List QueuedBlock} {b : QueuedBlock} (hb : b ∈ q) (empty : b.blockData = []) :
    b.sha3Uncles ∈ waits q :=
  List.mem_map.mpr ⟨b, List.mem_filter.mpr ⟨hb, by rw [empty]; rfl⟩, rfl⟩

theorem drainFrom_verifying (q : List QueuedBlock) (s : BlockQueue) :
    FrontWaits (s.drainFrom C q).verifying ∧ waits (s.drainFrom C q).verifying = waits q := by
  induction q generalizing s with
  | nil => exact ⟨by nofun, rfl⟩
  | cons b rest ih =>
      unfold drainFrom
      split
      case isTrue empty =>
        refine ⟨fun x hx => ?_, rfl⟩
        obtain rfl : b = x := Option.some.inj hx
        exact empty
      case isFalse full =>
        rw [waits_cons_done full]
        exact ih _

theorem drainVerified_verifying (s : BlockQueue) :
    FrontWaits (s.drainVerified C).verifying ∧ waits (s.drainVerified C).verifying =
      waits s.verifying :=
  drainFrom_verifying s.verifying s

theorem noteReadyFrom_verifying (turns : Nat) (goodQueue : List H256) (s : BlockQueue) :
    (s.noteReadyFrom turns goodQueue).verifying = s.verifying := by
  induction turns generalizing goodQueue s with
  | zero => rfl
  | succ turns ih =>
      cases goodQueue with
      | nil => rfl
      | cons good goodQueue => exact ih _ _

theorem retryFrom_verifying (turns : Nat) (s : BlockQueue) :
    (s.retryFrom turns).verifying = s.verifying := by
  induction turns generalizing s with
  | zero => rfl
  | succ turns ih =>
      unfold retryFrom
      split
      · rfl
      · exact ih _

theorem sweepVerified_front (h : FrontWaits s.verifying) :
    FrontWaits (s.sweepVerified C).2.verifying := by
  have kept := (noteBads_queues
    ((removeIf QueuedBlock.movedFrom (isBadVerified C s) s.verified).2.map (hashOf C))
    { s with verified := (removeIf QueuedBlock.movedFrom (isBadVerified C s) s.verified).1 }).2.1
  rw [sweepVerified, kept]
  exact h

theorem sweepUnverified_front (h : FrontWaits s.verifying) :
    FrontWaits s.sweepUnverified.2.verifying := by
  have kept := (noteBads_queues
    ((removeIf UnverifiedBlock.movedFrom (isBadUnverified s) s.unverified).2.map
      UnverifiedBlock.hash)
    { s with unverified :=
      (removeIf UnverifiedBlock.movedFrom (isBadUnverified s) s.unverified).1 }).2.1
  rw [sweepUnverified, kept]
  exact h

theorem sweepVerifying_front (first : unfinishedFirst.verifying s = true) :
    FrontWaits (s.sweepVerifying C).2.verifying := by
  have kept := (noteBads_queues
    ((removeIf QueuedBlock.movedFrom (isBadVerifying s) s.verifying).2.map (verifyingHash C))
    { s with verifying := (removeIf QueuedBlock.movedFrom (isBadVerifying s) s.verifying).1 }).2.1
  rw [sweepVerifying, kept]
  intro b hb
  simp only [removeIf, List.head?_filter] at hb
  simp only [unfinishedFirst] at first
  rw [hb] at first
  simpa using first

theorem updateBad_front (bad : H256) (h : FrontWaits s.verifying)
    (first : unfinishedFirst.update C bad s = true) :
    FrontWaits (s.updateBad C bad).verifying := by
  refine updateBad_keeps (P := fun s => FrontWaits s.verifying) (fun bad s h => ?_)
    (fun _ h _ => sweepVerified_front h)
    (fun _ h _ => sweepUnverified_front h) (fun _ _ first => sweepVerifying_front first)
      bad s h first
  rw [collectUnknownBad, (collectFrom_queues _ _ s).2.1]
  exact h

theorem updateBad_waits (bad : H256) (s : BlockQueue) :
    (waits (s.updateBad C bad).verifying).Sublist (waits s.verifying) :=
  waits_sublist (updateBad_shrinks bad s).verifying

theorem importBlock_verifying {w : World} (block : Bytes) (isOurs : Bool)
    (h : FrontWaits s.verifying)
    (first : unfinishedFirst.Import C w { postGenesis := true } block isOurs s) :
    FrontWaits (s.importBlock C w block isOurs).2.verifying ∧
      (waits (s.importBlock C w block isOurs).2.verifying).Sublist (waits s.verifying) := by
  rcases importBlock_cases C w block isOurs s with
    e | ⟨v, accepted, new, absent, e | ⟨now, ⟨bad, e⟩ | ⟨-, -, e⟩ | ⟨-, -, e⟩⟩⟩
  · rw [e]
    exact ⟨h, .refl _⟩
  · rw [e]
    exact ⟨h, .refl _⟩
  · rw [e]
    exact ⟨updateBad_front _ h (first v accepted new absent now bad), updateBad_waits _ _⟩
  · rw [e]
    exact ⟨h, .refl _⟩
  · rw [e, noteReady, noteReadyFrom_verifying]
    exact ⟨h, .refl _⟩

theorem importVerified_verifying {w : World} (block : Bytes) (h : FrontWaits s.verifying)
    (first : unfinishedFirst.Import C w .outOfOrderChecks block true s) :
    FrontWaits (s.importVerified C w block).2.verifying ∧
      (waits (s.importVerified C w block).2.verifying).Sublist (waits s.verifying) := by
  rcases importVerified_cases C w block s with
    e | ⟨v, accepted, new, absent, ⟨bad, e⟩ | ⟨-, -, e⟩ | ⟨-, -, e⟩⟩
  · rw [e]
    exact ⟨h, .refl _⟩
  · rw [e]
    exact ⟨updateBad_front _ h (first v accepted new absent (by simp) bad), updateBad_waits _ _⟩
  · rw [e]
    exact ⟨h, .refl _⟩
  · obtain ⟨front, same⟩ :=
      drainVerified_verifying (C := C) { s with verified := s.verified ++ [⟨v, block⟩] }
    rw [e, same]
    exact ⟨front, .refl _⟩

theorem replace_waits {hash : H256} {res : QueuedBlock} (full : res.blockData ≠ [])
    (q : List QueuedBlock) (empty : ∀ b ∈ q, b.sha3Uncles = hash → b.blockData = []) (h : H256) :
    (waits (replace hash res q)).count h ≤ (waits q).count h - if h = hash then 1 else 0 := by
  induction q with
  | nil => exact Nat.zero_le _
  | cons b q ih =>
      have rest := ih fun x hx => empty x (List.mem_cons_of_mem _ hx)
      unfold replace
      split
      case isTrue here =>
        rw [waits_cons_done full, waits_cons_waiting (empty b List.mem_cons_self here), here,
          List.count_cons]
        by_cases same : h = hash
        · simp [same]
        · simp [same]
      case isFalse other =>
        by_cases waiting : b.blockData = []
        · rw [waits_cons_waiting waiting, waits_cons_waiting waiting, List.count_cons,
            List.count_cons]
          by_cases same : h = hash
          · have apart : (b.sha3Uncles == h) = false := by simpa [same] using other
            simpa [apart] using rest
          · simp only [same, if_false] at rest ⊢
            omega
        · rw [waits_cons_done waiting, waits_cons_done waiting]
          exact rest

variable {F : QueueFacts} {w : World}

theorem finished_verifying (hf : s.Formed C F) (front : FrontWaits s.verifying)
    {work : UnverifiedBlock} (hw : Genuine C F work.hash work.parentHash work.blockData) :
    FrontWaits (s.finished C w work).verifying ∧
    ∀ h, (waits (s.finished C w work).verifying).count h ≤
      (waits s.verifying).count h - if h = work.hash then 1 else 0 := by
  unfold finished
  split
  case h_1 =>
    obtain ⟨first, same⟩ := drainVerified_verifying (C := C)
      { s with
        readySet := s.readySet.erase work.hash
        knownBad := insert work.hash s.knownBad
        verifying := s.verifying.filter fun b => b.sha3Uncles ≠ work.hash }
    refine ⟨first, fun h => ?_⟩
    rw [same]
    have fewer :=
      (waits_sublist (List.filter_sublist (p := fun b : QueuedBlock => b.sha3Uncles ≠ work.hash)
      (l := s.verifying))).count_le h
    by_cases same : h = work.hash
    · have gone : (waits (s.verifying.filter fun b => b.sha3Uncles ≠ work.hash)).count h = 0 := by
        rw [List.count_eq_zero]
        intro found
        obtain ⟨b, hb, named⟩ := List.mem_map.mp found
        have kept := List.of_mem_filter (List.mem_of_mem_filter hb)
        exact of_decide_eq_true kept (named.trans same)
      exact gone.le.trans (Nat.zero_le _)
    · rw [if_neg same, Nat.sub_zero]
      exact fewer
  case h_2 v accepted =>
    dsimp only
    split
    case h_1 here =>
      refine ⟨front, fun h => ?_⟩
      simp [here]
    case h_2 next rest here =>
      have waiting : next.blockData = [] := front next (by rw [here]; rfl)
      split
      case isTrue named =>
        obtain ⟨first, same⟩ := drainVerified_verifying (C := C)
          (release C ⟨v, work.blockData⟩ { s with verifying := rest })
        refine ⟨first, fun h => ?_⟩
        rw [same, release_verifying, here, waits_cons_waiting waiting, named, List.count_cons]
        by_cases same : h = work.hash
        · simp [same]
        · simp [same]
      case isFalse other =>
        have kept : replace work.hash ⟨v, work.blockData⟩ (next :: rest) =
            next :: replace work.hash ⟨v, work.blockData⟩ rest := by
          rw [replace, if_neg other]
        refine ⟨fun b hb => ?_, fun h => ?_⟩
        · dsimp only at hb
          rw [kept] at hb
          obtain rfl : next = b := Option.some.inj hb
          exact waiting
        · rw [here]
          exact replace_waits
            hw.full _ (fun b hb same => hf.empty_of_hash (here ▸ hb) same hw.header) h

end BlockQueue

open BlockQueue

namespace Running

variable {C : Crypto} {r : Running} {F : QueueFacts} {w : World}

/-- The first block is not finished, and there is a verifier for each block that is not. -/
structure Moving (r : Running) : Prop where
  front : FrontWaits r.queue.verifying
  held : ∀ h, (waits r.queue.verifying).count h ≤ (r.working.map UnverifiedBlock.hash).count h

theorem Moving.of_sublist (h : r.Moving) {s : BlockQueue} (front : FrontWaits s.verifying)
    (fewer : (waits s.verifying).Sublist (waits r.queue.verifying)) :
    ({ r with queue := s } : Running).Moving :=
  ⟨front, fun x => (fewer.count_le x).trans (h.held x)⟩

theorem Moving.takeWork (h : r.Moving) : r.takeWork.Moving := by
  unfold Running.takeWork
  split
  · exact h
  case h_2 work rest here =>
    refine ⟨fun b hb => ?_, fun x => ?_⟩
    · dsimp only at hb
      cases queue : r.queue.verifying with
      | nil =>
          rw [queue] at hb
          obtain rfl := Option.some.inj hb
          rfl
      | cons first others =>
          rw [queue] at hb
          exact h.front b (by rw [queue]; exact hb)
    · have before := h.held x
      have last : waits [QueuedBlock.placeholder work] = [work.hash] := rfl
      simp only [waits_append, last, List.map_append, List.map_cons, List.map_nil,
        List.count_append]
      omega

theorem Moving.updateBads (bad : List (Nat × H256)) (h : r.Moving)
    (first : updates C unfinishedFirst bad r = true) : (updateBads C bad r).Moving :=
  updateBads_keeps (P := Moving) (fun _ h => h.takeWork)
    (fun bad _ h first => h.of_sublist (updateBad_front bad h.front first) (updateBad_waits bad _))
    bad r h first

theorem Moving.importPast (h : r.Moving) (first : r.Guarded C unfinishedFirst (.importPast w)) :
    (r.importPast C w).Moving := by
  unfold Running.importPast
  split
  · exact h
  case h_2 b rest here =>
    obtain ⟨front, fewer⟩ := importBlock_verifying b.2 false h.front (first b (by simp [here]))
    exact ⟨front, (h.of_sublist front fewer).held⟩

theorem Moving.finishWork (h : r.Moving) (hf : r.Formed C F) (i : Nat) :
    (r.finishWork C w i).Moving := by
  unfold Running.finishWork
  split
  · exact h
  case h_2 work here =>
    obtain ⟨front, fewer⟩ := finished_verifying (C := C) (w := w) hf.queue h.front
      (hf.working work (List.mem_of_getElem? here))
    refine ⟨front, fun x => ?_⟩
    obtain ⟨bound, rfl⟩ := List.getElem?_eq_some_iff.mp here
    have others := ((List.getElem_cons_eraseIdx_perm bound).map UnverifiedBlock.hash).count_eq x
    rw [List.map_cons, List.count_cons] at others
    have before := h.held x
    have after := fewer x
    simp only [beq_iff_eq, @eq_comm _ _ x] at others
    dsimp only
    omega

theorem step_moving (e : QueueEvent) (hf : r.Formed C F) (h : r.Moving)
    (first : r.Guarded C unfinishedFirst e) : (r.step C e).Moving := by
  cases e with
  | importVerified w block =>
      obtain ⟨front, fewer⟩ := importVerified_verifying block h.front first
      exact h.of_sublist front fewer
  | importBlock w block isOurs =>
      obtain ⟨front, fewer⟩ := importBlock_verifying block isOurs h.front first
      exact h.of_sublist front fewer
  | tick w => exact ⟨h.front, h.held⟩
  | importPast w => exact h.importPast first
  | drain max =>
      have same : (r.queue.drain C max).2.verifying = r.queue.verifying := by
        unfold BlockQueue.drain
        split <;> rfl
      refine h.of_sublist (same ▸ h.front) ?_
      rw [same]
  | doneDrain bad => exact Moving.updateBads bad (r := r.closeDrain bad) ⟨h.front, h.held⟩ first
  | noteReady good =>
      have same : (r.queue.noteReady good).verifying = r.queue.verifying :=
        noteReadyFrom_verifying _ _ _
      refine h.of_sublist (same ▸ h.front) ?_
      rw [same]
  | retryAllUnknown =>
      have same : r.queue.retryAllUnknown.verifying = r.queue.verifying := retryFrom_verifying _ _
      refine h.of_sublist (same ▸ h.front) ?_
      rw [same]
  | clear => exact h.of_sublist (by nofun) (List.nil_sublist _)
  | takeWork => exact h.takeWork
  | finishWork w i => exact h.finishWork hf i

/-- When no removal of `updateBad` leaves a finished block in front, there never is one, and a
verifier is working on the block that is there. -/
theorem pipeline_never_stuck (C : Crypto) (injective : Function.Injective C.sha3)
    (nonzero : ∀ bytes, C.sha3 bytes ≠ 0) (events : List QueueEvent)
    (given : ∀ e ∈ events, e.Given (World.OfChain C))
    (first : ∀ entry ∈ trace (step C) {} events, entry.1.Guarded C unfinishedFirst entry.2) :
    let r := run (step C) {} events
    ∀ b ∈ r.queue.verifying.head?,
      b.blockData = [] ∧ ∃ work ∈ r.working, work.hash = b.sha3Uncles ∧
      work.parentHash = b.parentHash := by
  intro r b hb
  have kept := run_invariant (step C) (fun _ r => r.Formed C C.facts ∧ r.Moving)
    (fun r e => e.Given (World.OfChain C) ∧ r.Guarded C unfinishedFirst e) {}
    ⟨initial_formed, by nofun, fun _ => Nat.zero_le _⟩
    (fun events e h step => by
      have laws := step.1.imp fun w given => given.lawful injective nonzero
      exact ⟨step_formed e laws h.1, step_moving e h.1 h.2 step.2⟩)
    events fun entry member => ⟨given _ (trace_input _ _ _ entry member), first entry member⟩
  obtain ⟨formed, moving⟩ := kept
  have empty := moving.front b hb
  have member : b ∈ r.queue.verifying := List.mem_of_mem_head? hb
  have one : 0 < (waits r.queue.verifying).count b.sha3Uncles :=
    List.count_pos_iff.mpr (mem_waits member empty)
  obtain ⟨work, hw, named⟩ :=
    List.mem_map.mp (List.count_pos_iff.mp (one.trans_le (moving.held b.sha3Uncles)))
  obtain ⟨_, genuine⟩ := formed.queue.waiting b member empty
  have parent := (formed.working work hw).parent
  rw [named, genuine.parent] at parent
  exact ⟨empty, work, hw, named, parent.symm⟩

end Running

/-- Three blocks are being verified, the second is finished first, and the third turns out to be
bad. -/
def overtakingRun : List QueueEvent :=
  [.importBlock queueWorld (queuedBlock 105 1) false,
    .importBlock queueWorld (queuedBlock 6 1) false, .importBlock queueWorld
      (queuedBlock 7 1) false, .takeWork, .takeWork, .takeWork, .finishWork queueWorld 1,
    .doneDrain [(0, 104)]]

/-- The block 101 is drained and bad; behind its child, which is being verified, stand a finished
block and another one that is being verified. -/
def stuckRun : List QueueEvent :=
  [.importBlock queueWorld (queuedBlock 105 1) false,
    .importBlock queueWorld (queuedBlock 101 2) false, .importBlock queueWorld
      (queuedBlock 6 1) false, .importBlock queueWorld (queuedBlock 7 1) false,
    .takeWork, .takeWork, .takeWork, .takeWork, .finishWork queueWorld 0, .drain 1,
    .finishWork queueWorld 1, .doneDrain [(0, 101)]]

namespace Running

open BlockQueue

theorem overtaken_front_waits :
    let r := run (step queueToy) {} overtakingRun
    r.queue.verifying.length = 2 ∧ ∀ b ∈ r.queue.verifying.head?,
      b.blockData = [] ∧ ∃ work ∈ r.working, work.hash = b.sha3Uncles ∧
      work.parentHash = b.parentHash := by
  refine ⟨by decide +kernel, ?_⟩
  refine pipeline_never_stuck queueToy queueToy_sha3_injective queueToy_sha3_ne_zero
    overtakingRun ?_ ?_
  · simp [overtakingRun, QueueEvent.Given, queueWorld_ofChain]
  · simp only [overtakingRun, trace, List.forall_mem_cons]
    refine (fun ready : _ ∧ _ ∧ _ => ⟨Guard.import_of_clean rfl, Guard.import_of_clean ready.1,
      Guard.import_of_clean ready.2.1, trivial, trivial, trivial, trivial,
      guarded_doneDrain ready.2.2, List.forall_mem_nil _⟩) ?_
    decide +kernel

theorem finished_block_stuck :
    let r := run (step queueToy) {} stuckRun
    ∃ b ∈ r.queue.verifying.head?, b.blockData ≠ [] := by
  decide +kernel

end Running

end UtispaceChain
