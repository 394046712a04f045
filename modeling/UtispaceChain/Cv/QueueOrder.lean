import UtispaceChain.Cv.BlockQueueSets

/-! The order of the blocks on their way through `m_unverified`, `m_verifying` and `m_verified`. -/

namespace UtispaceChain

open Lib

/-- No entry stands before its parent; entries are hashes with those of the parents. -/
def ParentFirst (entries : List (H256 × H256)) : Prop := entries.Pairwise fun a b => a.2 ≠ b.1

instance : DecidablePred ParentFirst :=
  fun entries => inferInstanceAs (Decidable (entries.Pairwise fun a b => a.2 ≠ b.1))

theorem ParentFirst.append {entries more : List (H256 × H256)} (first : ParentFirst entries)
    (last : ParentFirst more) (apart : ∀ a ∈ entries, ∀ b ∈ more, a.2 ≠ b.1) :
    ParentFirst (entries ++ more) :=
  List.pairwise_append.mpr ⟨first, last, apart⟩

theorem parentFirst_children {parent : H256} {hashes : List H256} (apart : parent ∉ hashes) :
    ParentFirst (hashes.map fun h => (h, parent)) := by
  apply List.pairwise_map.mpr
  apply List.pairwise_of_forall_mem_list
  rintro _ _ b member rfl
  exact apart member

namespace BlockQueue

variable (C : Crypto)

def verifiedEntry (b : QueuedBlock) : H256 × H256 := (hashOf C b, b.parentHash)

def verifyingEntry (b : QueuedBlock) : H256 × H256 := (verifyingHash C b, b.parentHash)

/-- `m_verified ++ m_verifying ++ m_unverified`. -/
def sequence (s : BlockQueue) : List (H256 × H256) :=
  s.verified.map (verifiedEntry C) ++ s.verifying.map (verifyingEntry C) ++
    s.unverified.map fun b => (b.hash, b.parentHash)

theorem sequence_pipeline (s : BlockQueue) : (s.sequence C).map Prod.fst = s.pipeline C := by
  simp [sequence, pipeline, verifiedEntry, verifyingEntry, Function.comp_def]

variable {C} in
theorem sequence_sublist {s t : BlockQueue} (verified : t.verified.Sublist s.verified)
    (verifying : t.verifying.Sublist s.verifying) (unverified : t.unverified.Sublist s.unverified) :
    (t.sequence C).Sublist (s.sequence C) :=
  ((verified.map _).append (verifying.map _)).append (unverified.map _)

/-- `m_unknownSet` names the entries of `m_unknown`. -/
structure Stored (s : BlockQueue) : Prop where
  named : ∀ h, h ∈ s.unknownSet ↔ h ∈ s.unknownHashes
  once : s.unknownHashes.Nodup

/-- A hash that `import` takes no block of. -/
def Anchored (known : H256 → Bool) (s : BlockQueue) (h : H256) : Prop :=
  h ∈ s.readySet ∨ h ∈ s.drainingSet ∨ h ∈ s.knownBad ∨ known h = true

/-- The blocks stand in order, and no parent of one can come in behind it. -/
structure Ordered (known : H256 → Bool) (s : BlockQueue) : Prop where
  stored : s.Stored
  once : (s.pipeline C).Nodup
  covered : ∀ h ∈ s.pipeline C, h ∈ s.readySet ∨ h ∈ s.knownBad
  unparked : ∀ h ∈ s.pipeline C, h ∉ s.unknownSet
  ready_unknown : ∀ h ∈ s.readySet, h ∉ s.unknownSet
  draining_unknown : ∀ h ∈ s.drainingSet, h ∉ s.unknownSet
  anchored : ∀ a ∈ s.sequence C, s.Anchored known a.2
  away : ∀ a ∈ s.sequence C, a.2 ∉ s.unknownSet
  order : ParentFirst (s.sequence C)

/-- Blocks are taken out, and those that are no longer ready are known as bad. -/
structure Retreats (s t : BlockQueue) : Prop where
  sequence : (t.sequence C).Sublist (s.sequence C)
  stored : s.Stored → t.Stored
  unknown : t.unknownSet ⊆ s.unknownSet
  ready : t.readySet ⊆ s.readySet
  kept : ∀ h ∈ s.readySet, h ∈ t.readySet ∨ h ∈ t.knownBad
  draining : t.drainingSet = s.drainingSet
  bad : s.knownBad ⊆ t.knownBad

variable {C} {known : H256 → Bool} {s t u : BlockQueue}

theorem Retreats.refl (s : BlockQueue) : s.Retreats C s :=
  ⟨.refl _, id, Finset.Subset.refl _, Finset.Subset.refl _, fun _ h => .inl h, rfl,
    Finset.Subset.refl _⟩

theorem Retreats.trans (first : s.Retreats C t) (second : t.Retreats C u) : s.Retreats C u where
  sequence := second.sequence.trans first.sequence
  stored before := second.stored (first.stored before)
  unknown := second.unknown.trans first.unknown
  ready := second.ready.trans first.ready
  kept h ready := by
    rcases first.kept h ready with ready | bad
    · exact second.kept h ready
    · exact .inr (second.bad bad)
  draining := second.draining.trans first.draining
  bad := first.bad.trans second.bad

theorem Anchored.retreat {h : H256} (anchored : s.Anchored known h) (retreats : s.Retreats C t) :
    t.Anchored known h := by
  rcases anchored with ready | draining | bad | chain
  · rcases retreats.kept h ready with ready | bad
    · exact .inl ready
    · exact .inr (.inr (.inl bad))
  · exact .inr (.inl (retreats.draining ▸ draining))
  · exact .inr (.inr (.inl (retreats.bad bad)))
  · exact .inr (.inr (.inr chain))

theorem Ordered.retreat (ordered : s.Ordered C known) (retreats : s.Retreats C t) :
    t.Ordered C known := by
  have pipeline : (t.pipeline C).Sublist (s.pipeline C) := by
    rw [← sequence_pipeline, ← sequence_pipeline]
    exact retreats.sequence.map Prod.fst
  refine ⟨retreats.stored ordered.stored, ordered.once.sublist pipeline, fun h here => ?_,
    fun h here parked => ?_, fun h ready parked => ?_, fun h draining parked => ?_, fun a here =>
      ?_, fun a here parked => ?_, ordered.order.sublist retreats.sequence⟩
  · rcases ordered.covered h (pipeline.subset here) with ready | bad
    · exact retreats.kept h ready
    · exact .inr (retreats.bad bad)
  · exact ordered.unparked h (pipeline.subset here) (retreats.unknown parked)
  · exact ordered.ready_unknown h (retreats.ready ready) (retreats.unknown parked)
  · rw [retreats.draining] at draining
    exact ordered.draining_unknown h draining (retreats.unknown parked)
  · exact (ordered.anchored a (retreats.sequence.subset here)).retreat retreats
  · exact ordered.away a (retreats.sequence.subset here) (retreats.unknown parked)

/-! What `updateBad` does -/

theorem Stored.left (stored : s.Stored) (key : Nat) (x : H256) :
    x ∈ s.unknownSet \ ((s.unknown.removeByKeyEqual key).1.map Prod.fst).toFinset ↔
      x ∈ (s.unknown.removeByKeyEqual key).2.map fun e => e.2.1 := by
  rw [removeByKeyEqual_hashes key s.unknown stored.once, Finset.mem_sdiff, List.mem_toFinset,
    stored.named]
  rfl

theorem collectFrom_retreats (turns : Nat) (badQueue : List H256) (s : BlockQueue) :
    s.Retreats C (s.collectFrom turns badQueue) := by
  induction turns generalizing badQueue s with
  | zero => exact .refl s
  | succ turns ih =>
      cases badQueue with
      | nil => exact .refl s
      | cons bad badQueue =>
          apply Retreats.trans _ (ih _ _)
          exact ⟨.refl _, fun stored => ⟨stored.left bad, kept_hashes_nodup bad _ stored.once⟩,
            Finset.sdiff_subset, Finset.Subset.refl _, fun _ ready => .inl ready, rfl,
            Finset.subset_union_left⟩

theorem note_retreats (hash : H256) (sequence : (t.sequence C).Sublist (s.sequence C))
    (unknown : t.unknown = s.unknown) (unknownSet : t.unknownSet = s.unknownSet)
    (ready : t.readySet = s.readySet.erase hash) (draining : t.drainingSet = s.drainingSet)
    (bad : t.knownBad = insert hash s.knownBad) : s.Retreats C t where
  sequence := sequence
  stored stored := by
    constructor
    · rw [unknownSet, unknownHashes, unknown]
      exact stored.named
    · rw [unknownHashes, unknown]
      exact stored.once
  unknown := unknownSet.subset
  ready := by
    rw [ready]
    exact Finset.erase_subset _ _
  kept h here := by
    rw [ready, bad]
    by_cases same : h = hash
    · exact .inr (same ▸ Finset.mem_insert_self _ _)
    · exact .inl (Finset.mem_erase.mpr ⟨same, here⟩)
  draining := draining
  bad := by
    rw [bad]
    exact Finset.subset_insert _ _

theorem noteBads_retreats (hashes : List H256) (s : BlockQueue) :
    s.Retreats C (hashes.foldl noteBad s) := by
  induction hashes generalizing s with
  | nil => exact .refl s
  | cons hash hashes ih =>
      have noted : s.Retreats C
          { s with knownBad := insert hash s.knownBad, readySet := s.readySet.erase hash } :=
        note_retreats hash (.refl _) rfl rfl rfl rfl rfl
      exact (noted.trans (collectFrom_retreats _ _ _)).trans (ih _)

theorem taken_retreats (sequence : (t.sequence C).Sublist (s.sequence C))
    (unknown : t.unknown = s.unknown) (unknownSet : t.unknownSet = s.unknownSet)
    (ready : t.readySet = s.readySet) (draining : t.drainingSet = s.drainingSet)
    (bad : s.knownBad ⊆ t.knownBad) : s.Retreats C t where
  sequence := sequence
  stored stored := by
    constructor
    · rw [unknownSet, unknownHashes, unknown]
      exact stored.named
    · rw [unknownHashes, unknown]
      exact stored.once
  unknown := unknownSet.subset
  ready := ready.subset
  kept h here := .inl (ready ▸ here)
  draining := draining
  bad := bad

theorem sweepVerified_retreats (s : BlockQueue) : s.Retreats C (s.sweepVerified C).2 := by
  apply Retreats.trans _ (noteBads_retreats _ _)
  exact taken_retreats (sequence_sublist (removeIf_kept_sublist QueuedBlock.movedFrom _ _) (.refl _)
    (.refl _)) rfl rfl
    rfl rfl (Finset.Subset.refl _)

theorem sweepUnverified_retreats (s : BlockQueue) : s.Retreats C s.sweepUnverified.2 := by
  apply Retreats.trans _ (noteBads_retreats _ _)
  exact taken_retreats (sequence_sublist (.refl _) (.refl _)
    (removeIf_kept_sublist UnverifiedBlock.movedFrom _ _)) rfl rfl
    rfl rfl (Finset.Subset.refl _)

theorem sweepVerifying_retreats (s : BlockQueue) : s.Retreats C (s.sweepVerifying C).2 := by
  apply Retreats.trans _ (noteBads_retreats _ _)
  exact taken_retreats (sequence_sublist (.refl _) (removeIf_kept_sublist QueuedBlock.movedFrom _ _)
    (.refl _)) rfl rfl
    rfl rfl (Finset.Subset.refl _)

theorem updateBad_retreats (bad : H256) (s : BlockQueue) : s.Retreats C (s.updateBad C bad) :=
  updateBad_keeps (P := fun t => s.Retreats C t)
    (fun _ _ retreats => retreats.trans (collectFrom_retreats _ _ _))
    (fun t retreats _ => retreats.trans (sweepVerified_retreats t))
    (fun t retreats _ => retreats.trans (sweepUnverified_retreats t))
    (fun t retreats _ => retreats.trans (sweepVerifying_retreats t)) bad s (.refl s)
      (sweeps_free _ _)

/-! What a verifier does -/

theorem verifyingEntry_done {b : QueuedBlock} (full : b.blockData ≠ []) :
    verifyingEntry C b = verifiedEntry C b := by
  rw [verifyingEntry, verifyingHash_done full]
  rfl

theorem release_retreats {b : QueuedBlock} {rest : List QueuedBlock} {entry : H256 × H256}
    (here : s.sequence C = s.verified.map (verifiedEntry C) ++
      entry :: rest.map (verifyingEntry C) ++
      s.unverified.map fun b => (b.hash, b.parentHash)) (same : entry = verifiedEntry C b) :
    s.Retreats C (({ s with verifying := rest } : BlockQueue).release C b) := by
  rw [release]
  split
  · refine note_retreats (hashOf C b) ?_ rfl rfl rfl rfl rfl
    rw [here]
    exact ((List.Sublist.refl _).append (List.sublist_cons_self _ _)).append (.refl _)
  · refine taken_retreats ?_ rfl rfl rfl rfl (Finset.Subset.refl _)
    rw [here, same]
    simp [sequence]

theorem drainFrom_retreats (q : List QueuedBlock) (s : BlockQueue) :
    ({ s with verifying := q } : BlockQueue).Retreats C (s.drainFrom C q) := by
  induction q generalizing s with
  | nil => exact .refl _
  | cons b rest ih =>
      rw [drainFrom]
      split
      · exact .refl _
      case isFalse full =>
        have released : ({ s with verifying := b :: rest } : BlockQueue).Retreats C
            (({ s with verifying := rest } : BlockQueue).release C b) :=
          release_retreats (s := { s with verifying := b :: rest }) rfl (verifyingEntry_done full)
        have same : ({ s.release C b with verifying := rest } : BlockQueue) =
            ({ s with verifying := rest } : BlockQueue).release C b := by
          unfold release
          split <;> rfl
        rw [← same] at released
        exact released.trans (ih _)

theorem drainVerified_retreats (s : BlockQueue) : s.Retreats C (s.drainVerified C) :=
  drainFrom_retreats s.verifying s

variable {F : QueueFacts} {w : World}

theorem verified_entry (laws : w.Lawful C F) (hf : s.Formed C F) {work : UnverifiedBlock}
    (genuine : Genuine C F work.hash work.parentHash work.blockData) {ir : ImportRequirements}
    {v : VerifiedBlock} (accepted : w.verifyBlock work.blockData ir = some v) {b : QueuedBlock}
    (here : b ∈ s.verifying) (named : b.sha3Uncles = work.hash) :
    verifyingEntry C b = verifiedEntry C ⟨v, work.blockData⟩ := by
  have waits : b.blockData = [] := hf.empty_of_hash here named genuine.header
  rcases hf.waiting b here waits with ⟨data, placed⟩
  have hash : v.info.hash C .withSeal = work.hash := (laws.hash accepted).trans genuine.named
  have parent : b.parentHash = v.info.parentHash := by
    rw [laws.parent accepted, hash, ← named]
    exact placed.parent.symm
  rw [verifyingEntry, verifyingHash_waiting waits, named, parent, ← hash]
  rfl

theorem finished_retreats (laws : w.Lawful C F) (hf : s.Formed C F) {work : UnverifiedBlock}
    (genuine : Genuine C F work.hash work.parentHash work.blockData) :
    s.Retreats C (s.finished C w work) := by
  rw [finished]
  split
  case h_1 failed =>
    apply Retreats.trans _ (drainVerified_retreats _)
    exact note_retreats work.hash (sequence_sublist (.refl _) List.filter_sublist (.refl _)) rfl
      rfl rfl rfl rfl
  case h_2 v accepted =>
    dsimp only
    split
    · exact .refl s
    case h_2 next rest here =>
      split
      case isTrue first =>
        apply Retreats.trans _ (drainVerified_retreats _)
        apply release_retreats _ (verified_entry laws hf genuine accepted
          (here ▸ List.mem_cons_self) first)
        rw [sequence, here]
        rfl
      case isFalse =>
        have done : verifyingEntry C ⟨v, work.blockData⟩ = verifiedEntry C ⟨v, work.blockData⟩ :=
          verifyingEntry_done genuine.full
        have unchanged := replace_map work.hash done (next :: rest) fun b hb named =>
          verified_entry laws hf genuine accepted (here ▸ hb) named
        refine taken_retreats ?_ rfl rfl rfl rfl (Finset.Subset.refl _)
        simp only [sequence, here, unchanged]
        exact .refl _

/-! What comes in -/

theorem promote_sequence (parent : H256) (s : BlockQueue) :
    (s.promote parent).sequence C =
      s.sequence C ++ ((s.unknown.removeByKeyEqual parent).1.map Prod.fst).map fun h =>
        (h, parent) := by
  simp [sequence, promote, Function.comp_def]

theorem Ordered.promote (ordered : s.Ordered C known) {parent : H256}
    (anchored : s.Anchored known parent) (away : parent ∉ s.unknownSet) :
    (s.promote parent).Ordered C known := by
  have waiting : ∀ h ∈ (s.unknown.removeByKeyEqual parent).1.map Prod.fst, h ∈ s.unknownSet :=
    fun h here => (ordered.stored.named h).mpr (removed_hashes here)
  have left : (s.promote parent).unknownSet ⊆ s.unknownSet := Finset.sdiff_subset
  have anchors : ∀ h, s.Anchored known h → (s.promote parent).Anchored known h := by
    intro h anchored
    exact anchored.imp_left fun ready => Finset.mem_union_left _ ready
  refine ⟨⟨ordered.stored.left parent, kept_hashes_nodup parent _ ordered.stored.once⟩, ?_,
    fun h here => ?_, fun h here parked => ?_, fun h ready parked => ?_, fun h draining parked =>
      ?_, fun a here => ?_, fun a here parked => ?_, ?_⟩
  · rw [promote_pipeline]
    apply List.nodup_append'.mpr
    refine ⟨ordered.once, removed_hashes_nodup parent _ ordered.stored.once, fun h here moved => ?_⟩
    exact ordered.unparked h here (waiting h moved)
  · rw [promote_pipeline] at here
    rcases List.mem_append.mp here with here | moved
    · exact (ordered.covered h here).imp_left (Finset.mem_union_left _)
    · exact .inl (Finset.mem_union_right _ (List.mem_toFinset.mpr moved))
  · rw [promote_pipeline] at here
    rcases List.mem_append.mp here with here | moved
    · exact ordered.unparked h here (left parked)
    · exact (Finset.mem_sdiff.mp parked).2 (List.mem_toFinset.mpr moved)
  · rcases Finset.mem_union.mp ready with ready | moved
    · exact ordered.ready_unknown h ready (left parked)
    · exact (Finset.mem_sdiff.mp parked).2 moved
  · exact ordered.draining_unknown h draining (left parked)
  · rw [promote_sequence] at here
    rcases List.mem_append.mp here with here | moved
    · exact anchors a.2 (ordered.anchored a here)
    · rcases List.mem_map.mp moved with ⟨h, -, rfl⟩
      exact anchors parent anchored
  · rw [promote_sequence] at here
    rcases List.mem_append.mp here with here | moved
    · exact ordered.away a here (left parked)
    · rcases List.mem_map.mp moved with ⟨h, -, rfl⟩
      exact away (left parked)
  · rw [promote_sequence]
    apply ordered.order.append (parentFirst_children fun moved => away (waiting parent moved))
    rintro a here b moved same
    rcases List.mem_map.mp moved with ⟨h, found, rfl⟩
    exact ordered.away a here (same ▸ waiting h found)

theorem Ordered.noteReadyFrom (turns : Nat) (goodQueue : List H256) (ordered : s.Ordered C known)
    (good : ∀ h ∈ goodQueue, s.Anchored known h ∧ h ∉ s.unknownSet) :
    (s.noteReadyFrom turns goodQueue).Ordered C known := by
  induction turns generalizing goodQueue s with
  | zero => exact ordered
  | succ turns ih =>
      cases goodQueue with
      | nil => exact ordered
      | cons parent goodQueue =>
          rcases good parent List.mem_cons_self with ⟨anchored, away⟩
          apply ih _ (ordered.promote anchored away)
          intro h here
          rcases List.mem_append.mp here with here | moved
          · rcases good h (List.mem_cons_of_mem _ here) with ⟨anchored, away⟩
            constructor
            · exact anchored.imp_left fun ready => Finset.mem_union_left _ ready
            · exact fun parked => away (Finset.mem_sdiff.mp parked).1
          · have moved := List.mem_toFinset.mpr moved
            constructor
            · exact .inl (Finset.mem_union_right _ moved)
            · exact fun parked => (Finset.mem_sdiff.mp parked).2 moved

theorem Ordered.apart (ordered : s.Ordered C known) {h : H256} (new : s.knows h = false)
    (absent : known h = false) :
    ∀ a ∈ s.sequence C, a.2 ≠ h := by
  rintro a here rfl
  rcases knows_false new with ⟨unready, undrained, -, good⟩
  rcases ordered.anchored a here with ready | draining | bad | chain
  · exact unready ready
  · exact undrained draining
  · exact good bad
  · rw [absent] at chain
    cases chain

theorem Ordered.new (ordered : s.Ordered C known) {h : H256} (new : s.knows h = false) :
    h ∉ s.pipeline C := by
  intro here
  rcases knows_false new with ⟨unready, -, -, good⟩
  exact (ordered.covered h here).elim unready good

theorem Ordered.store (ordered : s.Ordered C known) {h : H256} (new : s.knows h = false)
    (absent : known h = false) (parentHash : H256) (data : Bytes) :
    ({ s with unknown := s.unknown.insert parentHash h data, unknownSet := insert h s.unknownSet } :
      BlockQueue).Ordered C known := by
  rcases knows_false new with ⟨unready, undrained, unstored, -⟩
  have hashes : (s.unknown.insert parentHash h data).map (fun e => e.2.1) |>.Perm
      (h :: s.unknownHashes) :=
    (insert_perm parentHash h data s.unknown).map _
  refine ⟨⟨fun x => ?_, ?_⟩, ordered.once, ordered.covered, fun x here => ?_, fun x ready => ?_,
    fun x draining => ?_, ordered.anchored, fun a here => ?_, ordered.order⟩
  · rw [Finset.mem_insert, ordered.stored.named, ← List.mem_cons]
    exact hashes.mem_iff.symm
  · apply hashes.nodup_iff.mpr
    rw [List.nodup_cons, ← ordered.stored.named]
    exact ⟨unstored, ordered.stored.once⟩
  all_goals
    rw [Finset.mem_insert, not_or]
    constructor
  · rintro rfl
    exact ordered.new new here
  · exact ordered.unparked x here
  · rintro rfl
    exact unready ready
  · exact ordered.ready_unknown x ready
  · rintro rfl
    exact undrained draining
  · exact ordered.draining_unknown x draining
  · exact ordered.apart new absent a here
  · exact ordered.away a here

theorem Ordered.enqueue (ordered : s.Ordered C known) {b : UnverifiedBlock}
    (new : s.knows b.hash = false) (absent : known b.hash = false)
    (anchored : s.Anchored known b.parentHash) (away : b.parentHash ∉ s.unknownSet) :
    ({ s with unverified := s.unverified ++
          [b], readySet := insert b.hash s.readySet } : BlockQueue).Ordered C known := by
  rcases knows_false new with ⟨unready, undrained, unstored, good⟩
  have sequence : ({ s with unverified :=
        s.unverified ++ [b], readySet := insert b.hash s.readySet } :
      BlockQueue).sequence C = s.sequence C ++ [(b.hash, b.parentHash)] := by
    simp [BlockQueue.sequence]
  have pipeline : ({ s with unverified :=
        s.unverified ++ [b], readySet := insert b.hash s.readySet } :
      BlockQueue).pipeline C = s.pipeline C ++ [b.hash] := by
    simp [BlockQueue.pipeline]
  have anchors : ∀ h, s.Anchored known h → ({ s with
      unverified := s.unverified ++ [b]
      readySet := insert b.hash s.readySet } : BlockQueue).Anchored known h := by
    intro h anchored
    exact anchored.imp_left fun ready => Finset.mem_insert_of_mem ready
  refine ⟨⟨ordered.stored.named, ordered.stored.once⟩, ?_, fun h here => ?_, fun h here => ?_,
    fun h ready => ?_, ordered.draining_unknown, fun a here => ?_, fun a here => ?_, ?_⟩
  · rw [pipeline]
    apply List.nodup_append'.mpr
    refine ⟨ordered.once, List.nodup_singleton _, fun h here last => ?_⟩
    rw [List.mem_singleton.mp last] at here
    exact ordered.new new here
  · rw [pipeline] at here
    rcases List.mem_append.mp here with here | last
    · exact (ordered.covered h here).imp_left Finset.mem_insert_of_mem
    · rw [List.mem_singleton.mp last]
      exact .inl (Finset.mem_insert_self _ _)
  · rw [pipeline] at here
    rcases List.mem_append.mp here with here | last
    · exact ordered.unparked h here
    · rwa [List.mem_singleton.mp last]
  · rcases Finset.mem_insert.mp ready with rfl | ready
    · exact unstored
    · exact ordered.ready_unknown h ready
  · rw [sequence] at here
    rcases List.mem_append.mp here with here | last
    · exact anchors a.2 (ordered.anchored a here)
    · rw [List.mem_singleton.mp last]
      exact anchors b.parentHash anchored
  · rw [sequence] at here
    rcases List.mem_append.mp here with here | last
    · exact ordered.away a here
    · rwa [List.mem_singleton.mp last]
  · rw [sequence]
    apply ordered.order.append (List.pairwise_singleton _ _)
    intro a here last member
    rw [List.mem_singleton.mp member]
    exact ordered.apart new absent a here

/-- A parent that is neither ready nor drained, but in the chain, does not wait in `m_unknown`. -/
def Unparked (C : Crypto) (w : World) (block : Bytes) (s : BlockQueue) : Prop :=
  ∀ v, w.verifyBlock block { postGenesis := true } = some v →
    s.knows (BlockHeader.headerHashFromBlock C block) = false →
    w.isKnown (BlockHeader.headerHashFromBlock C block) = false → v.info.parentHash ∉ s.readySet →
    v.info.parentHash ∉ s.drainingSet → w.isKnown v.info.parentHash = true →
    v.info.parentHash ∉ s.unknownSet

theorem Ordered.importBlock (ordered : s.Ordered C w.isKnown) (block : Bytes) (isOurs : Bool)
    (unparked : s.Unparked C w block) : (s.importBlock C w block isOurs).2.Ordered C w.isKnown := by
  rcases importBlock_cases C w block isOurs s with
    same | ⟨v, accepted, new, absent, same | ⟨-, ⟨-, same⟩ | ⟨-, -, same⟩ | ⟨-, found, same⟩⟩⟩ <;>
    rw [same]
  · exact ordered
  · exact ordered.retreat (taken_retreats (.refl _) rfl rfl rfl rfl (Finset.Subset.refl _))
  · have noted : s.Retreats C { s with knownBad := insert (v.info.hash C .withSeal) s.knownBad } :=
      taken_retreats (.refl _) rfl rfl rfl rfl (Finset.subset_insert _ _)
    exact ordered.retreat (noted.trans (updateBad_retreats _ _))
  · exact ordered.store new absent _ _
  · have placed : v.info.parentHash ∈ s.readySet ∨ v.info.parentHash ∈ s.drainingSet ∨
        w.isKnown v.info.parentHash = true := by
      by_contra lost
      simp only [not_or, Bool.not_eq_true] at lost
      simp [orphan, lost] at found
    have anchored : s.Anchored w.isKnown v.info.parentHash := by
      rcases placed with ready | draining | chain
      · exact .inl ready
      · exact .inr (.inl draining)
      · exact .inr (.inr (.inr chain))
    have away : v.info.parentHash ∉ s.unknownSet := by
      by_cases ready : v.info.parentHash ∈ s.readySet
      · exact ordered.ready_unknown _ ready
      · by_cases draining : v.info.parentHash ∈ s.drainingSet
        · exact ordered.draining_unknown _ draining
        · exact unparked v accepted new absent ready draining
            ((placed.resolve_left ready).resolve_left draining)
    have entered := ordered.enqueue (b := ⟨_, v.info.parentHash, block⟩) new absent anchored away
    apply entered.noteReadyFrom
    intro h here
    rw [List.mem_singleton.mp here]
    have ready : BlockHeader.headerHashFromBlock C block ∈
        insert (BlockHeader.headerHashFromBlock C block) s.readySet :=
      Finset.mem_insert_self _ _
    exact ⟨.inl ready, entered.ready_unknown _ ready⟩

theorem Ordered.drain (ordered : s.Ordered C known) (max : Nat) :
    (s.drain C max).2.Ordered C known := by
  unfold BlockQueue.drain
  split
  case isFalse => exact ordered
  case isTrue empty =>
    have split : s.pipeline C = (s.verified.take max).map (hashOf C) ++
        ({ s with verified := s.verified.drop max } : BlockQueue).pipeline C := by
      simp only [pipeline, ← List.append_assoc, ← List.map_append, List.take_append_drop]
    have whole := ordered.once
    rw [split] at whole
    rcases List.nodup_append'.mp whole with ⟨-, once, apart⟩
    have sequence : (({ s with verified := s.verified.drop max } : BlockQueue).sequence C).Sublist
        (s.sequence C) :=
      sequence_sublist (List.drop_sublist max s.verified) (.refl _) (.refl _)
    have remaining : ∀ h ∈ ({ s with verified := s.verified.drop max } : BlockQueue).pipeline C, h ∈
        s.pipeline C := by
      intro h here
      rw [split]
      exact List.mem_append_right _ here
    dsimp only
    refine ⟨⟨ordered.stored.named, ordered.stored.once⟩, once, fun h here => ?_, fun h here => ?_,
      fun h ready => ?_, fun h draining => ?_, fun a here => ?_, fun a here => ?_,
      ordered.order.sublist sequence⟩
    · rcases ordered.covered h (remaining h here) with ready | bad
      · left
        rw [Finset.mem_sdiff, List.mem_toFinset]
        exact ⟨ready, fun taken => apart taken here⟩
      · exact .inr bad
    · exact ordered.unparked h (remaining h here)
    · exact ordered.ready_unknown h (Finset.mem_sdiff.mp ready).1
    · rw [empty, Finset.empty_union, List.mem_toFinset] at draining
      apply ordered.unparked h
      rw [split]
      exact List.mem_append_left _ draining
    · rcases ordered.anchored a (sequence.subset here) with ready | draining | bad | chain
      · by_cases taken : a.2 ∈ ((s.verified.take max).map (hashOf C)).toFinset
        · exact .inr (.inl (Finset.mem_union_right _ taken))
        · exact .inl (Finset.mem_sdiff.mpr ⟨ready, taken⟩)
      · exact .inr (.inl (Finset.mem_union_left _ draining))
      · exact .inr (.inr (.inl bad))
      · exact .inr (.inr (.inr chain))
    · exact ordered.away a (sequence.subset here)

theorem Ordered.drained (ordered : s.Ordered C known) (max : Nat) :
    ParentFirst ((s.drain C max).1.map (verifiedEntry C)) := by
  unfold BlockQueue.drain
  split
  · have front : ((s.verified.take max).map (verifiedEntry C)).Sublist (s.sequence C) := by
      rw [sequence, List.append_assoc]
      exact ((List.take_sublist max s.verified).map _).trans (List.sublist_append_left _ _)
    exact ordered.order.sublist front
  · exact .nil

theorem clear_ordered (s : BlockQueue) : s.clear.Ordered C known where
  stored := ⟨fun h => by simp [BlockQueue.clear, unknownHashes], List.nodup_nil⟩
  once := List.nodup_nil
  covered := List.forall_mem_nil _
  unparked := List.forall_mem_nil _
  ready_unknown h ready := absurd ready (Finset.notMem_empty h)
  draining_unknown h draining := absurd draining (Finset.notMem_empty h)
  anchored := List.forall_mem_nil _
  away := List.forall_mem_nil _
  order := .nil

theorem Ordered.grow {known' : H256 → Bool} (ordered : s.Ordered C known)
    (grows : ∀ h, known h = true → known' h = true) :
    s.Ordered C known' :=
  { ordered with
    anchored := fun a here => (ordered.anchored a here).imp_right fun more =>
      more.imp_right fun more => more.imp_right (grows a.2) }

end BlockQueue

open BlockQueue

/-- The queue, and the hashes that the chain knew at the last step. -/
structure Chained where
  running : Running := {}
  isKnown : H256 → Bool := fun _ => false

structure ChainedEvent where
  isKnown : H256 → Bool
  event : QueueEvent

/-- The blocks come in through `import`; `retryAllUnknown` is not called. -/
def QueueEvent.Ordinary : QueueEvent → Prop
  | .importVerified _ _ => False
  | .retryAllUnknown => False
  | _ => True

namespace Chained

variable (C : Crypto)

def step (c : Chained) (e : ChainedEvent) : Chained := ⟨c.running.step C e.event, e.isKnown⟩

/-- The chain keeps its blocks, and `import` sees it as it is. What has been drained is in the chain
when it is done, or named as bad. `noteReady` is called for a block of the chain; neither this one
nor the parent of a block that comes in, if it is in the chain, still waits in `m_unknown`. -/
def InTurn (c : Chained) (e : ChainedEvent) : Prop :=
  (∀ h, c.isKnown h = true → e.isKnown h = true) ∧
    match e.event with
    | .importBlock w block _ => w.isKnown = e.isKnown ∧ c.running.queue.Unparked C w block
    | .importPast w => w.isKnown = e.isKnown ∧
        ∀ b ∈ c.running.past.head?, c.running.queue.Unparked C w b.2
    | .doneDrain bad => ∀ h ∈ c.running.queue.drainingSet, h ∈ bad.map Prod.snd ∨ e.isKnown h = true
    | .noteReady good => e.isKnown good = true ∧ good ∉ c.running.queue.unknownSet
    | _ => True

end Chained

namespace Running

variable {C : Crypto} {known : H256 → Bool} {r : Running}

theorem takeWork_retreats (r : Running) : r.queue.Retreats C r.takeWork.queue := by
  unfold takeWork
  split
  · exact .refl _
  case h_2 work rest here =>
    refine taken_retreats ?_ rfl rfl rfl rfl (Finset.Subset.refl _)
    have taken : verifyingEntry C (.placeholder work) = (work.hash, work.parentHash) := rfl
    simp [BlockQueue.sequence, here, taken]

theorem updateBads_retreats (bad : List (Nat × H256)) (r : Running) :
    r.queue.Retreats C (updateBads C bad r).queue :=
  updateBads_keeps (P := fun t => r.queue.Retreats C t.queue)
    (fun t retreats => retreats.trans (takeWork_retreats t))
    (fun _ _ retreats _ => retreats.trans (updateBad_retreats _ _)) bad r (.refl _)
      (updates_free bad r)

theorem closeDrain_ordered (ordered : r.queue.Ordered C known) (bad : List (Nat × H256))
    (ends : ∀ h ∈ r.queue.drainingSet, h ∈ bad.map Prod.snd ∨ known h = true) :
    (r.closeDrain bad).queue.Ordered C known where
  stored := ⟨ordered.stored.named, ordered.stored.once⟩
  once := ordered.once
  covered h here := (ordered.covered h here).imp_right (Finset.mem_union_left _)
  unparked := ordered.unparked
  ready_unknown := ordered.ready_unknown
  draining_unknown h draining := absurd draining (Finset.notMem_empty h)
  anchored a here := by
    rcases ordered.anchored a here with ready | draining | bad | chain
    · exact .inl ready
    · rcases ends a.2 draining with named | chain
      · exact .inr (.inr (.inl (Finset.mem_union_right _ (List.mem_toFinset.mpr named))))
      · exact .inr (.inr (.inr chain))
    · exact .inr (.inr (.inl (Finset.mem_union_left _ bad)))
    · exact .inr (.inr (.inr chain))
  away := ordered.away
  order := ordered.order

end Running

namespace Chained

variable {C : Crypto} {F : QueueFacts} {c : Chained}

theorem step_ordered (e : ChainedEvent) (ordinary : e.event.Ordinary)
    (laws : e.event.Given (World.Lawful C F)) (formed : c.running.Formed C F)
    (ordered : c.running.queue.Ordered C c.isKnown) (turn : c.InTurn C e) :
    (c.step C e).running.queue.Ordered C e.isKnown := by
  rcases e with ⟨known, event⟩
  rcases turn with ⟨grows, turn⟩
  have ordered := ordered.grow grows
  dsimp only at ordered turn ordinary laws
  change (c.running.step C event).queue.Ordered C known
  cases event with
  | importVerified w block => exact ordinary.elim
  | importBlock w block isOurs =>
      rcases turn with ⟨rfl, unparked⟩
      exact ordered.importBlock block isOurs unparked
  | tick w =>
      exact ordered.retreat (taken_retreats (.refl _) rfl rfl rfl rfl (Finset.Subset.refl _))
  | importPast w =>
      rcases turn with ⟨rfl, unparked⟩
      change (c.running.importPast C w).queue.Ordered C w.isKnown
      unfold Running.importPast
      split
      · exact ordered
      case h_2 b rest here => exact ordered.importBlock b.2 false (unparked b (by simp [here]))
  | drain max => exact ordered.drain max
  | doneDrain bad =>
      have closed := Running.closeDrain_ordered ordered bad turn
      exact closed.retreat (Running.updateBads_retreats bad _)
  | noteReady good =>
      rcases turn with ⟨chain, away⟩
      apply ordered.noteReadyFrom
      intro h here
      rw [List.mem_singleton.mp here]
      exact ⟨.inr (.inr (.inr chain)), away⟩
  | retryAllUnknown => exact ordinary.elim
  | clear => exact clear_ordered _
  | takeWork => exact ordered.retreat (Running.takeWork_retreats c.running)
  | finishWork w i =>
      change (c.running.finishWork C w i).queue.Ordered C known
      unfold Running.finishWork
      split
      · exact ordered
      case h_2 work here =>
        exact ordered.retreat
          (finished_retreats laws formed.queue (formed.working work (List.mem_of_getElem? here)))

/-- In such a run no block on its way stands before its parent, and none does in what `drain` gives
out. -/
theorem parent_first_order (C : Crypto) (injective : Function.Injective C.sha3)
    (nonzero : ∀ bytes, C.sha3 bytes ≠ 0) (events : List ChainedEvent)
    (ordinary : ∀ e ∈ events, e.event.Ordinary)
    (given : ∀ e ∈ events, e.event.Given (World.OfChain C))
    (turns : ∀ entry ∈ trace (step C) {} events, entry.1.InTurn C entry.2) :
    let s := (run (step C) {} events).running.queue
    ParentFirst (s.sequence C) ∧ ∀ max, ParentFirst ((s.drain C max).1.map (verifiedEntry C)) := by
  have kept := run_invariant (step C)
    (fun _ c => c.running.Formed C C.facts ∧ c.running.queue.Ordered C c.isKnown)
    (fun c e => e.event.Ordinary ∧ e.event.Given (World.OfChain C) ∧ c.InTurn C e) {}
    ⟨Running.initial_formed, clear_ordered {}⟩
    (fun events e before admitted => by
      rcases before with ⟨formed, ordered⟩
      rcases admitted with ⟨ordinary, given, turn⟩
      have laws := given.imp fun w given => given.lawful injective nonzero
      exact ⟨Running.step_formed e.event laws formed,
        step_ordered e ordinary laws formed ordered turn⟩)
    events fun entry member =>
      have event := trace_input _ _ _ entry member
      ⟨ordinary _ event, given _ event, turns entry member⟩
  exact ⟨kept.2.order, fun max => kept.2.drained max⟩

theorem unparked_of_verified {w : World} {block : Bytes} {s : BlockQueue}
    (away : ∀ v ∈ w.verifyBlock block { postGenesis := true }, v.info.parentHash ∉ s.unknownSet) :
    s.Unparked C w block :=
  fun v accepted _ _ _ _ _ => away v accepted

/-- The chain of `queueWorld`. -/
def queueKnown : H256 → Bool := fun h => decide (h = 6 ∨ h = 7 ∨ h = 105)

def keptParentRun : List ChainedEvent :=
  [⟨queueKnown, .importBlock queueWorld (queuedBlock 101 2) false⟩,
    ⟨queueKnown, .importBlock queueWorld (queuedBlock 105 1) false⟩, ⟨queueKnown, .takeWork⟩,
    ⟨queueKnown, .takeWork⟩, ⟨queueKnown, .finishWork queueWorld 1⟩,
    ⟨queueKnown, .finishWork queueWorld 0⟩, ⟨queueKnown, .drain 1⟩,
    ⟨fun h => queueKnown h || decide (h = 101), .doneDrain []⟩]

theorem parent_first_order_kept :
    let s := (run (step queueToy) {} keptParentRun).running.queue
    s.sequence queueToy = [(102, 101)] ∧
      ParentFirst (s.sequence queueToy) ∧
      ∀ max, ParentFirst ((s.drain queueToy max).1.map (verifiedEntry queueToy)) := by
  refine ⟨by decide +kernel, ?_⟩
  apply parent_first_order queueToy queueToy_sha3_injective queueToy_sha3_ne_zero keptParentRun
  · simp [keptParentRun, QueueEvent.Ordinary]
  · simp [keptParentRun, QueueEvent.Given, queueWorld_ofChain]
  · simp only [keptParentRun, trace, List.forall_mem_cons]
    refine (fun away : _ ∧ _ ∧
      _ => ⟨⟨fun _ known => absurd known Bool.false_ne_true, rfl, unparked_of_verified away.1⟩,
      ⟨fun _ => id, rfl, unparked_of_verified away.2.1⟩, ⟨fun _ => id, trivial⟩,
      ⟨fun _ => id, trivial⟩, ⟨fun _ => id, trivial⟩, ⟨fun _ => id, trivial⟩,
      ⟨fun _ => id, trivial⟩, ⟨fun _ known => (Bool.or_eq_true _ _).mpr (.inl known), away.2.2⟩,
        List.forall_mem_nil _⟩) ?_
    decide +kernel

def lostParentRun : List ChainedEvent :=
  [.importBlock queueWorld (queuedBlock 105 1) false, .takeWork, .finishWork queueWorld 0, .drain 1,
    .importBlock queueWorld (queuedBlock 101 2) false, .doneDrain [],
    .importBlock queueWorld (queuedBlock 105 1) false, .takeWork, .takeWork,
      .finishWork queueWorld 0, .finishWork queueWorld 0].map (ChainedEvent.mk queueKnown)

/-- Then the child stands before its parent, and is drained before it. -/
theorem lost_parent_behind_child :
    (∀ e ∈ lostParentRun, e.event.Ordinary ∧ e.event.Given (World.OfChain queueToy)) ∧
      let s := (run (step queueToy) {} lostParentRun).running.queue
      s.sequence queueToy = [(102, 101), (101, 105)] ∧ ¬ ParentFirst (s.sequence queueToy) ∧
        ¬ ParentFirst ((s.drain queueToy 2).1.map (verifiedEntry queueToy)) := by
  refine ⟨?_, by decide +kernel⟩
  simp [lostParentRun, QueueEvent.Ordinary, QueueEvent.Given, queueWorld_ofChain]

end Chained

end UtispaceChain
