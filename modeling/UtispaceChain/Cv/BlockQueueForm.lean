import UtispaceChain.Cv.BlockQueueSweep

/-! The entries of the queues are what they say: their data have their hash, and a block of
`m_verifying` without data has its hash as that of its uncles. -/

namespace UtispaceChain

open Lib

variable (C : Crypto) (F : QueueFacts)

/-- The data of an entry that came in through `import`. -/
structure Genuine (hash parentHash : H256) (data : Bytes) : Prop where
  full : data ≠ []
  named : BlockHeader.headerHashFromBlock C data = hash
  header : hash ∉ F.uncleLists
  parent : F.parentOf hash = parentHash
  new : hash ∉ F.rooted
  whole : data ∈ F.whole

namespace BlockQueue

structure Formed (s : BlockQueue) : Prop where
  unknown : ∀ e ∈ s.unknown, Genuine C F e.2.1 e.1 e.2.2
  unverified : ∀ b ∈ s.unverified, Genuine C F b.hash b.parentHash b.blockData
  waiting : ∀ b ∈ s.verifying, b.blockData = [] →
    ∃ data, Genuine C F b.sha3Uncles b.parentHash data
  done : ∀ b ∈ s.verifying, b.blockData ≠ [] →
    b.sha3Uncles ∈ F.uncleLists ∧ Genuine C F (hashOf C b) b.parentHash b.blockData
  verified : ∀ b ∈ s.verified, Genuine C F (hashOf C b) b.parentHash b.blockData

end BlockQueue

structure Running.Formed (r : Running) : Prop where
  queue : r.queue.Formed C F
  working : ∀ b ∈ r.working, Genuine C F b.hash b.parentHash b.blockData

/-- What holds of the chain and the clock that an event is given. -/
def QueueEvent.Given (P : World → Prop) : QueueEvent → Prop
  | .importVerified w _ => P w
  | .importBlock w _ _ => P w
  | .importPast w => P w
  | .finishWork w _ => P w
  | _ => True

theorem QueueEvent.Given.imp {P Q : World → Prop} (h : ∀ w, P w → Q w) {e : QueueEvent}
    (given : e.Given P) :
    e.Given Q := by
  cases e <;> first | exact h _ given | trivial

variable {C F} {w : World}

theorem World.Lawful.genuine (laws : w.Lawful C F) {b : Bytes} {ir : ImportRequirements}
    {v : VerifiedBlock} (accepted : w.verifyBlock b ir = some v)
    (new : BlockHeader.headerHashFromBlock C b ∉ F.rooted) :
    Genuine C F (v.info.hash C .withSeal) v.info.parentHash b where
  full := by
    rintro rfl
    simp [laws.data] at accepted
  named := (laws.hash accepted).symm
  header := laws.header accepted
  parent := (laws.parent accepted).symm
  new := by rwa [laws.hash accepted]
  whole := laws.whole accepted

theorem Genuine.verified (laws : w.Lawful C F) {hash parentHash : H256} {data : Bytes}
    {ir : ImportRequirements} {v : VerifiedBlock} (genuine : Genuine C F hash parentHash data)
    (accepted : w.verifyBlock data ir = some v) :
    Genuine C F (v.info.hash C .withSeal) v.info.parentHash data := by
  refine laws.genuine accepted ?_
  rw [genuine.named]
  exact genuine.new

theorem World.Lawful.absent (laws : w.Lawful C F) {h : H256} (absent : w.isKnown h = false) :
    h ∉ F.rooted := by
  intro there
  rw [laws.rooted h there] at absent
  cases absent

namespace BlockQueue

variable {s t : BlockQueue}

theorem Formed.mono (hf : s.Formed C F) (h : s.Shrinks t) : t.Formed C F where
  unknown e he := hf.unknown e (h.unknown.subset he)
  unverified b hb := hf.unverified b (h.unverified.subset hb)
  waiting b hb := hf.waiting b (h.verifying.subset hb)
  done b hb := hf.done b (h.verifying.subset hb)
  verified b hb := hf.verified b (h.verified.subset hb)

theorem Formed.of_queues (hf : s.Formed C F) (h₁ : t.unknown = s.unknown)
    (h₂ : t.unverified = s.unverified) (h₃ : t.verifying = s.verifying)
    (h₄ : t.verified = s.verified) :
    t.Formed C F := by
  refine ⟨?_, ?_, ?_, ?_, ?_⟩
  · rw [h₁]; exact hf.unknown
  · rw [h₂]; exact hf.unverified
  · rw [h₃]; exact hf.waiting
  · rw [h₃]; exact hf.done
  · rw [h₄]; exact hf.verified

theorem Formed.empty_of_hash (hf : s.Formed C F) {b : QueuedBlock} (hb : b ∈ s.verifying)
    {h : H256} (same : b.sha3Uncles = h) (header : h ∉ F.uncleLists) : b.blockData = [] := by
  by_contra full
  exact header (same ▸ (hf.done b hb full).1)

theorem release_verifying (b : QueuedBlock) (s : BlockQueue) :
    (release C b s).verifying = s.verifying := by
  unfold release
  split <;> rfl

theorem release_formed (hf : s.Formed C F) {b : QueuedBlock}
    (hb : Genuine C F (hashOf C b) b.parentHash b.blockData) :
    (release C b s).Formed C F := by
  unfold release
  split
  · exact hf.of_queues rfl rfl rfl rfl
  · refine ⟨hf.unknown, hf.unverified, hf.waiting, hf.done, fun x hx => ?_⟩
    rcases List.mem_append.mp hx with hx | hx
    · exact hf.verified x hx
    · rw [List.mem_singleton.mp hx]
      exact hb

theorem drainFrom_formed (q : List QueuedBlock) (s : BlockQueue)
    (hf : ({ s with verifying := q } : BlockQueue).Formed C F) :
    (s.drainFrom C q).Formed C F := by
  induction q generalizing s with
  | nil => exact hf
  | cons b rest ih =>
      unfold drainFrom
      split
      · exact hf
      case isFalse full =>
        refine ih _ ?_
        have genuine := (hf.done b List.mem_cons_self full).2
        have tail : ({ s with verifying := rest } : BlockQueue).Formed C F :=
          ⟨hf.unknown, hf.unverified, fun x hx => hf.waiting x (List.mem_cons_of_mem _ hx),
            fun x hx => hf.done x (List.mem_cons_of_mem _ hx), hf.verified⟩
        have released := release_formed tail genuine
        have same : ({ release C b s with verifying := rest } : BlockQueue) =
            release C b { s with verifying := rest } := by
          unfold release
          split <;> rfl
        rw [same]
        exact released

theorem drainVerified_formed (hf : s.Formed C F) :
    (s.drainVerified C).Formed C F :=
  drainFrom_formed s.verifying s hf

theorem promote_formed (hf : s.Formed C F) (parent : H256) :
    (s.promote parent).Formed C F := by
  refine ⟨fun e he => hf.unknown e (List.mem_of_mem_filter he), fun b hb => ?_, hf.waiting, hf.done,
    hf.verified⟩
  rcases List.mem_append.mp hb with hb | hb
  · exact hf.unverified b hb
  · obtain ⟨_, hx, rfl⟩ := List.mem_map.mp hb
    obtain ⟨e, he, rfl⟩ := List.mem_map.mp hx
    obtain ⟨he, key⟩ := List.mem_filter.mp he
    have key : e.1 = parent := by simpa using key
    exact key ▸ hf.unknown e he

theorem noteReadyFrom_formed (turns : Nat) (goodQueue : List H256) (s : BlockQueue)
    (hf : s.Formed C F) : (s.noteReadyFrom turns goodQueue).Formed C F := by
  induction turns generalizing goodQueue s with
  | zero => exact hf
  | succ turns ih =>
      cases goodQueue with
      | nil => exact hf
      | cons good goodQueue => exact ih _ _ (promote_formed hf good)

theorem retryFrom_formed (turns : Nat) (s : BlockQueue) (hf : s.Formed C F) :
    (s.retryFrom turns).Formed C F := by
  induction turns generalizing s with
  | zero => exact hf
  | succ turns ih =>
      unfold retryFrom
      split
      · exact hf
      case h_2 parent _ _ _ => exact ih _ (promote_formed hf parent)

theorem insert_perm (key : Nat) (hash : H256) (data : Bytes) (m : SizedBlockMap) :
    (m.insert key hash data).Perm ((key, hash, data) :: m) := by
  induction m with
  | nil => exact .refl _
  | cons x m ih =>
      unfold SizedBlockMap.insert
      split
      · exact (ih.cons x).trans (.swap _ _ m)
      · exact .refl _

theorem unknown_formed (hf : s.Formed C F) {parentHash h : H256} {data : Bytes}
    (genuine : Genuine C F h parentHash data) (unknownSet : Finset H256) :
    ({ s with unknown := s.unknown.insert parentHash h data, unknownSet } : BlockQueue).Formed C
      F := by
  refine ⟨fun e he => ?_, hf.unverified, hf.waiting, hf.done, hf.verified⟩
  rcases List.mem_cons.mp ((insert_perm _ _ _ _).mem_iff.mp he) with rfl | he
  · exact genuine
  · exact hf.unknown e he

theorem importBlock_formed (laws : w.Lawful C F) (hf : s.Formed C F)
    (block : Bytes) (isOurs : Bool) : (s.importBlock C w block isOurs).2.Formed C F := by
  rcases importBlock_cases C w block isOurs s with
    e | ⟨v, accepted, -, absent, e | ⟨-, ⟨-, e⟩ | ⟨-, -, e⟩ | ⟨-, -, e⟩⟩⟩
  · rwa [e]
  · rw [e]
    exact hf.of_queues rfl rfl rfl rfl
  · have noted : ({ s with knownBad := insert (v.info.hash C .withSeal) s.knownBad } :
        BlockQueue).Formed C F := hf.of_queues rfl rfl rfl rfl
    rw [e]
    exact noted.mono (updateBad_shrinks _ _)
  · have genuine := laws.genuine accepted (laws.absent absent)
    rw [e, ← laws.hash accepted]
    exact unknown_formed hf genuine _
  · have genuine := laws.genuine accepted (laws.absent absent)
    rw [e, ← laws.hash accepted]
    refine noteReadyFrom_formed _ _ _ ⟨hf.unknown, fun b hb => ?_, hf.waiting, hf.done, hf.verified⟩
    rcases List.mem_append.mp hb with hb | hb
    · exact hf.unverified b hb
    · rw [List.mem_singleton.mp hb]
      exact genuine

theorem importVerified_formed (laws : w.Lawful C F) (hf : s.Formed C F)
    (block : Bytes) : (s.importVerified C w block).2.Formed C F := by
  rcases importVerified_cases C w block s with
    e | ⟨v, accepted, -, absent, ⟨-, e⟩ | ⟨-, -, e⟩ | ⟨-, -, e⟩⟩
  · rwa [e]
  · have noted : ({ s with knownBad := insert (v.info.hash C .withSeal) s.knownBad } :
        BlockQueue).Formed C F := hf.of_queues rfl rfl rfl rfl
    rw [e]
    exact noted.mono (updateBad_shrinks _ _)
  · have genuine := laws.genuine accepted (laws.absent absent)
    rw [e, ← laws.hash accepted]
    exact unknown_formed hf genuine _
  · have genuine := laws.genuine accepted (laws.absent absent)
    rw [e]
    refine drainVerified_formed ⟨hf.unknown, hf.unverified, hf.waiting, hf.done, fun b hb => ?_⟩
    rcases List.mem_append.mp hb with hb | hb
    · exact hf.verified b hb
    · rw [List.mem_singleton.mp hb]
      exact genuine

theorem drain_formed (hf : s.Formed C F) (max : Nat) :
    (s.drain C max).2.Formed C F := by
  unfold drain
  split
  · exact ⟨hf.unknown, hf.unverified, hf.waiting, hf.done,
      fun b hb => hf.verified b (List.mem_of_mem_drop hb)⟩
  · exact hf

theorem clear_formed : s.clear.Formed C F :=
  ⟨by nofun, by nofun, by nofun, by nofun, by nofun⟩

theorem replace_mem {h : H256} {res : QueuedBlock} {q : List QueuedBlock} {b : QueuedBlock}
    (hb : b ∈ replace h res q) : b = res ∨ b ∈ q := by
  induction q with
  | nil => cases hb
  | cons x q ih =>
      unfold replace at hb
      split at hb
      · exact (List.mem_cons.mp hb).imp_right (List.mem_cons_of_mem _)
      · rcases List.mem_cons.mp hb with rfl | hb
        · exact .inr List.mem_cons_self
        · exact (ih hb).imp_right (List.mem_cons_of_mem _)

theorem finished_formed (laws : w.Lawful C F) (hf : s.Formed C F)
    {work : UnverifiedBlock} (hw : Genuine C F work.hash work.parentHash work.blockData) :
    (s.finished C w work).Formed C F := by
  unfold finished
  split
  case h_1 =>
    refine drainVerified_formed ⟨hf.unknown, hf.unverified,
      fun b hb => hf.waiting b (List.mem_of_mem_filter hb), fun b hb =>
        hf.done b (List.mem_of_mem_filter hb), hf.verified⟩
  case h_2 v accepted =>
    have genuine := hw.verified laws accepted
    dsimp only
    split
    · exact hf
    case h_2 next rest here =>
      split
      · refine drainVerified_formed (release_formed (b := ⟨v, work.blockData⟩) ?_ genuine)
        have tail : ∀ b ∈ rest, b ∈ s.verifying := fun b hb => here ▸ List.mem_cons_of_mem _ hb
        exact ⟨hf.unknown, hf.unverified, fun b hb => hf.waiting b (tail b hb),
          fun b hb => hf.done b (tail b hb), hf.verified⟩
      · refine ⟨hf.unknown, hf.unverified, fun b hb empty => ?_, fun b hb full => ?_, hf.verified⟩
        · rcases replace_mem hb with rfl | hb
          · exact absurd empty hw.full
          · exact hf.waiting b (here ▸ hb) empty
        · rcases replace_mem hb with rfl | hb
          · exact ⟨laws.uncles accepted rfl, genuine⟩
          · exact hf.done b (here ▸ hb) full

/-! Only `drain`, `doneDrain` and `clear` change the set of drained blocks. -/

theorem release_draining (b : QueuedBlock) (s : BlockQueue) :
    (s.release C b).drainingSet = s.drainingSet := by
  unfold release
  split <;> rfl

theorem drainFrom_draining (q : List QueuedBlock) (s : BlockQueue) :
    (s.drainFrom C q).drainingSet = s.drainingSet := by
  induction q generalizing s with
  | nil => rfl
  | cons b rest ih =>
      rw [drainFrom]
      split
      · rfl
      · rw [ih, release_draining]

theorem noteReadyFrom_draining (turns : Nat) (goodQueue : List H256) (s : BlockQueue) :
    (s.noteReadyFrom turns goodQueue).drainingSet = s.drainingSet := by
  induction turns generalizing goodQueue s with
  | zero => rfl
  | succ turns ih =>
      cases goodQueue with
      | nil => rfl
      | cons good goodQueue =>
          rw [noteReadyFrom, ih]
          rfl

theorem retryFrom_draining (turns : Nat) (s : BlockQueue) :
    (s.retryFrom turns).drainingSet = s.drainingSet := by
  induction turns generalizing s with
  | zero => rfl
  | succ turns ih =>
      rw [retryFrom]
      split
      · rfl
      · rw [ih]
        rfl

theorem importBlock_draining (w : World) (block : Bytes) (isOurs : Bool) (s : BlockQueue) :
    (s.importBlock C w block isOurs).2.drainingSet = s.drainingSet := by
  rcases importBlock_cases C w block isOurs s with
    same | ⟨v, -, -, -, same | ⟨-, ⟨-, same⟩ | ⟨-, -, same⟩ | ⟨-, -, same⟩⟩⟩ <;> rw [same]
  · exact (updateBad_shrinks _ _).draining
  · exact noteReadyFrom_draining _ _ _

theorem importVerified_draining (w : World) (block : Bytes) (s : BlockQueue) :
    (s.importVerified C w block).2.drainingSet = s.drainingSet := by
  rcases importVerified_cases C w block s with
    same | ⟨v, -, -, -, ⟨-, same⟩ | ⟨-, -, same⟩ | ⟨-, -, same⟩⟩ <;> rw [same]
  · exact (updateBad_shrinks _ _).draining
  · exact drainFrom_draining _ _

theorem finished_draining (w : World) (work : UnverifiedBlock) (s : BlockQueue) :
    (s.finished C w work).drainingSet = s.drainingSet := by
  rw [finished]
  split
  · exact drainFrom_draining _ _
  · dsimp only
    split
    · rfl
    · split
      · exact (drainFrom_draining _ _).trans (release_draining _ _)
      · rfl

end BlockQueue

open BlockQueue

namespace Running

variable {r : Running}

theorem takeWork_formed (hf : r.Formed C F) : r.takeWork.Formed C F := by
  unfold takeWork
  split
  · exact hf
  case h_2 work rest here =>
    have genuine := hf.queue.unverified work (here ▸ List.mem_cons_self)
    refine ⟨⟨hf.queue.unknown, fun b hb => hf.queue.unverified b (here ▸ List.mem_cons_of_mem _ hb),
      fun b hb empty => ?_, fun b hb full => ?_, hf.queue.verified⟩, fun b hb => ?_⟩
    · rcases List.mem_append.mp hb with hb | hb
      · exact hf.queue.waiting b hb empty
      · rw [List.mem_singleton.mp hb]
        exact ⟨_, genuine⟩
    · rcases List.mem_append.mp hb with hb | hb
      · exact hf.queue.done b hb full
      · rw [List.mem_singleton.mp hb] at full
        exact absurd rfl full
    · rcases List.mem_append.mp hb with hb | hb
      · exact hf.working b hb
      · rwa [List.mem_singleton.mp hb]

theorem updateBads_formed (bad : List (Nat × H256)) (hf : r.Formed C F) :
    (updateBads C bad r).Formed C F :=
  updateBads_keeps (P := fun r => r.Formed C F) (fun _ h => takeWork_formed h)
    (fun _ _ h _ => ⟨h.queue.mono (updateBad_shrinks _ _), h.working⟩) bad r hf (updates_free bad r)

theorem importPast_formed (laws : w.Lawful C F) (hf : r.Formed C F) :
    (r.importPast C w).Formed C F := by
  unfold importPast
  split
  · exact hf
  · exact ⟨importBlock_formed laws hf.queue _ _, hf.working⟩

theorem finishWork_formed (laws : w.Lawful C F) (i : Nat) (hf : r.Formed C F) :
    (r.finishWork C w i).Formed C F := by
  unfold finishWork
  split
  · exact hf
  case h_2 work here =>
    have genuine := hf.working work (List.mem_of_getElem? here)
    exact ⟨finished_formed laws hf.queue genuine,
      fun b hb => hf.working b (List.mem_of_mem_eraseIdx hb)⟩

theorem step_formed (e : QueueEvent) (laws : e.Given (World.Lawful C F))
    (hf : r.Formed C F) : (r.step C e).Formed C F := by
  have queue := hf.queue
  cases e with
  | importVerified w block => exact ⟨importVerified_formed laws queue block, hf.working⟩
  | importBlock w block isOurs => exact ⟨importBlock_formed laws queue block isOurs, hf.working⟩
  | tick w => exact ⟨queue.of_queues rfl rfl rfl rfl, hf.working⟩
  | importPast w => exact importPast_formed laws hf
  | drain max => exact ⟨drain_formed queue max, hf.working⟩
  | doneDrain bad => exact updateBads_formed bad ⟨queue.of_queues rfl rfl rfl rfl, hf.working⟩
  | noteReady good => exact ⟨noteReadyFrom_formed _ _ _ queue, hf.working⟩
  | retryAllUnknown => exact ⟨retryFrom_formed _ _ queue, hf.working⟩
  | clear => exact ⟨clear_formed, hf.working⟩
  | takeWork => exact takeWork_formed hf
  | finishWork w i => exact finishWork_formed laws i hf

theorem initial_formed : ({} : Running).Formed C F :=
  ⟨⟨by nofun, by nofun, by nofun, by nofun, by nofun⟩, by nofun⟩

end Running

end UtispaceChain
