import Mathlib.Data.Finset.Card
import Mathlib.Logic.Equiv.List
import UtispaceChain.Cv.BlockIdentity
import UtispaceChain.Cv.BlockQueueForm
import UtispaceChain.Lib.Run

/-! The sets of the block queue are those of the hashes in its queues. -/

namespace UtispaceChain

open Lib Rlp

namespace BlockQueue

variable (C : Crypto)

/-- The hashes of the blocks that are verified, being verified, or waiting for it. -/
def pipeline (s : BlockQueue) : List H256 :=
  s.verified.map (hashOf C) ++ s.verifying.map (verifyingHash C) ++
    s.unverified.map UnverifiedBlock.hash

def unknownHashes (s : BlockQueue) : List H256 := s.unknown.map fun e => e.2.1

/-- The sets name what the queues hold, each block once, and no hash is in two sets. -/
structure Represents (s : BlockQueue) : Prop where
  ready : ∀ h, h ∈ s.readySet ↔ h ∈ s.pipeline C
  once : (s.pipeline C).Nodup
  count : s.readySet.card = s.queued
  unknown : ∀ h, h ∈ s.unknownSet ↔ h ∈ s.unknownHashes
  ready_draining : Disjoint s.readySet s.drainingSet
  ready_unknown : Disjoint s.readySet s.unknownSet
  ready_bad : Disjoint s.readySet s.knownBad
  draining_unknown : Disjoint s.drainingSet s.unknownSet
  draining_bad : Disjoint s.drainingSet s.knownBad
  unknown_bad : Disjoint s.unknownSet s.knownBad

/-- The same in the middle of an operation: the blocks of `out` have left the queues and are still
to be noted, and `suspects` may be ready and bad. -/
structure Holds (out : List H256) (suspects : Finset H256) (s : BlockQueue) : Prop where
  ready : ∀ h, h ∈ s.readySet ↔ h ∈ out ++ s.pipeline C
  once : (out ++ s.pipeline C).Nodup
  unknown : ∀ h, h ∈ s.unknownSet ↔ h ∈ s.unknownHashes
  unknownOnce : s.unknownHashes.Nodup
  ready_draining : ∀ h ∈ s.readySet, h ∉ s.drainingSet
  ready_unknown : ∀ h ∈ s.readySet, h ∉ s.unknownSet
  ready_bad : ∀ h ∈ s.readySet, h ∈ s.knownBad → h ∈ suspects
  draining_unknown : ∀ h ∈ s.drainingSet, h ∉ s.unknownSet
  draining_bad : ∀ h ∈ s.drainingSet, h ∉ s.knownBad
  unknown_bad : ∀ h ∈ s.unknownSet, h ∉ s.knownBad

variable {C} {out : List H256} {suspects : Finset H256} {s t : BlockQueue}

theorem pipeline_length (s : BlockQueue) : (s.pipeline C).length = s.queued := by
  simp only [pipeline, List.length_append, List.length_map, queued]
  omega

theorem Holds.represents (h : s.Holds C [] ∅) : s.Represents C where
  ready := h.ready
  once := h.once
  count := by
    have same : s.readySet = (s.pipeline C).toFinset := by
      ext x
      rw [h.ready, List.mem_toFinset, List.nil_append]
    have once : (s.pipeline C).Nodup := h.once
    rw [same, List.toFinset_card_of_nodup once, pipeline_length]
  unknown := h.unknown
  ready_draining := Finset.disjoint_left.mpr fun x => h.ready_draining x
  ready_unknown := Finset.disjoint_left.mpr fun x => h.ready_unknown x
  ready_bad :=
    Finset.disjoint_left.mpr fun x hx bad => absurd (h.ready_bad x hx bad) (Finset.notMem_empty x)
  draining_unknown := Finset.disjoint_left.mpr fun x => h.draining_unknown x
  draining_bad := Finset.disjoint_left.mpr fun x => h.draining_bad x
  unknown_bad := Finset.disjoint_left.mpr fun x => h.unknown_bad x

theorem Holds.of_perm (h : s.Holds C out suspects) {out' : List H256}
    (queues : (out ++ s.pipeline C).Perm (out' ++ t.pipeline C)) (unknown : t.unknown = s.unknown)
    (unknownSet : t.unknownSet = s.unknownSet) (readySet : t.readySet = s.readySet)
    (drainingSet : t.drainingSet = s.drainingSet) (knownBad : t.knownBad = s.knownBad) :
    t.Holds C out' suspects where
  ready x := by rw [readySet, h.ready, queues.mem_iff]
  once := queues.nodup_iff.mp h.once
  unknown x := by rw [unknownSet, h.unknown, unknownHashes, unknownHashes, unknown]
  unknownOnce := by
    rw [unknownHashes, unknown]
    exact h.unknownOnce
  ready_draining := by
    rw [readySet, drainingSet]
    exact h.ready_draining
  ready_unknown := by
    rw [readySet, unknownSet]
    exact h.ready_unknown
  ready_bad := by
    rw [readySet, knownBad]
    exact h.ready_bad
  draining_unknown := by
    rw [drainingSet, unknownSet]
    exact h.draining_unknown
  draining_bad := by
    rw [drainingSet, knownBad]
    exact h.draining_bad
  unknown_bad := by
    rw [unknownSet, knownBad]
    exact h.unknown_bad

theorem Holds.note {hash : H256} (h : s.Holds C (hash :: out) suspects) :
    ({ s with knownBad := insert hash s.knownBad, readySet :=
      s.readySet.erase hash } : BlockQueue).Holds C out
      suspects := by
  have inReady : hash ∈ s.readySet := (h.ready hash).mpr List.mem_cons_self
  obtain ⟨new, once⟩ := List.nodup_cons.mp h.once
  refine ⟨fun x => ?_, once, h.unknown, h.unknownOnce, fun x hx => ?_, fun x hx => ?_,
    fun x hx bad => ?_, h.draining_unknown, fun x hx bad => ?_, fun x hx bad => ?_⟩
  · rw [Finset.mem_erase, h.ready, List.cons_append, List.mem_cons]
    constructor
    · rintro ⟨other, rfl | hx⟩
      · exact absurd rfl other
      · exact hx
    · intro hx
      refine ⟨?_, .inr hx⟩
      rintro rfl
      exact new hx
  · exact h.ready_draining x (Finset.mem_of_mem_erase hx)
  · exact h.ready_unknown x (Finset.mem_of_mem_erase hx)
  · obtain ⟨other, hx⟩ := Finset.mem_erase.mp hx
    exact h.ready_bad x hx ((Finset.mem_insert.mp bad).resolve_left other)
  · rcases Finset.mem_insert.mp bad with rfl | bad
    · exact h.ready_draining x inReady hx
    · exact h.draining_bad x hx bad
  · rcases Finset.mem_insert.mp bad with rfl | bad
    · exact h.ready_unknown x inReady hx
    · exact h.unknown_bad x hx bad

theorem removeByKeyEqual_hashes (key : Nat) (m : SizedBlockMap)
    (once : (m.map fun e => e.2.1).Nodup) (x : H256) :
    x ∈ (m.removeByKeyEqual key).2.map (fun e => e.2.1) ↔
      x ∈ m.map (fun e => e.2.1) ∧ x ∉ (m.removeByKeyEqual key).1.map Prod.fst := by
  simp only [SizedBlockMap.removeByKeyEqual, List.mem_map, List.mem_filter, decide_eq_true_eq,
    not_exists, not_and]
  constructor
  · rintro ⟨e, ⟨he, other⟩, rfl⟩
    refine ⟨⟨e, he, rfl⟩, ?_⟩
    rintro _ ⟨f, ⟨hf, key⟩, rfl⟩ same
    have equal : f = e := List.inj_on_of_nodup_map once hf he same
    exact other (equal ▸ key)
  · rintro ⟨⟨e, he, rfl⟩, apart⟩
    exact ⟨e, ⟨he, fun key => apart e.2 ⟨e, ⟨he, key⟩, rfl⟩ rfl⟩, rfl⟩

theorem removed_hashes {key : Nat} {m : SizedBlockMap} {x : H256}
    (hx : x ∈ (m.removeByKeyEqual key).1.map Prod.fst) : x ∈ m.map fun e => e.2.1 := by
  obtain ⟨y, hy, rfl⟩ := List.mem_map.mp hx
  obtain ⟨e, he, rfl⟩ := List.mem_map.mp hy
  exact List.mem_map.mpr ⟨e, List.mem_of_mem_filter he, rfl⟩

theorem kept_hashes_nodup (key : Nat) (m : SizedBlockMap) (once : (m.map fun e => e.2.1).Nodup) :
    ((m.removeByKeyEqual key).2.map fun e => e.2.1).Nodup :=
  once.sublist (List.filter_sublist.map _)

theorem removed_hashes_nodup (key : Nat) (m : SizedBlockMap) (once : (m.map fun e => e.2.1).Nodup) :
    ((m.removeByKeyEqual key).1.map Prod.fst).Nodup := by
  have sub : ((m.filter fun e => e.1 = key).map fun e => e.2.1).Sublist (m.map fun e => e.2.1) :=
    List.filter_sublist.map _
  simpa [SizedBlockMap.removeByKeyEqual, Function.comp_def] using once.sublist sub

theorem Holds.unknown_left (h : s.Holds C out suspects) (key : Nat) (x : H256) :
    x ∈ s.unknownSet \ ((s.unknown.removeByKeyEqual key).1.map Prod.fst).toFinset ↔
      x ∈ (s.unknown.removeByKeyEqual key).2.map fun e => e.2.1 := by
  rw [removeByKeyEqual_hashes key s.unknown h.unknownOnce, Finset.mem_sdiff,
    List.mem_toFinset, h.unknown]
  rfl

theorem Holds.collectFrom (turns : Nat) (badQueue : List H256) (h : s.Holds C out suspects) :
    (s.collectFrom turns badQueue).Holds C out suspects := by
  induction turns generalizing badQueue s with
  | zero => exact h
  | succ turns ih =>
      cases badQueue with
      | nil => exact h
      | cons bad badQueue =>
          refine ih _ ⟨h.ready, h.once, h.unknown_left bad, kept_hashes_nodup bad _ h.unknownOnce,
            h.ready_draining, fun x hx later => ?_, fun x hx noted => ?_, fun x hx later => ?_,
            fun x hx noted => ?_, fun x hx noted => ?_⟩
          · exact h.ready_unknown x hx (Finset.mem_sdiff.mp later).1
          · rcases Finset.mem_union.mp noted with noted | noted
            · exact h.ready_bad x hx noted
            · exact absurd ((h.unknown x).mpr (removed_hashes (List.mem_toFinset.mp noted)))
                (h.ready_unknown x hx)
          · exact h.draining_unknown x hx (Finset.mem_sdiff.mp later).1
          · rcases Finset.mem_union.mp noted with noted | noted
            · exact h.draining_bad x hx noted
            · exact h.draining_unknown x hx
                ((h.unknown x).mpr (removed_hashes (List.mem_toFinset.mp noted)))
          · obtain ⟨here, left⟩ := Finset.mem_sdiff.mp hx
            rcases Finset.mem_union.mp noted with noted | noted
            · exact h.unknown_bad x here noted
            · exact left noted

theorem Holds.noteBads (hashes : List H256) (h : s.Holds C (hashes ++ out) suspects) :
    (hashes.foldl noteBad s).Holds C out suspects := by
  induction hashes generalizing s with
  | nil => exact h
  | cons hash hashes ih => exact ih (h.note.collectFrom _ _)

variable (C) in
/-- What a removal of `updateBad` takes out stands at the end of its queue. -/
def fromTheEnd : Guard where
  verified s := removesTail (isBadVerified C s) s.verified
  unverified s := removesTail (isBadUnverified s) s.unverified
  verifying s := removesTail (isBadVerifying s) s.verifying

theorem Holds.sweepVerified (h : s.Holds C [] suspects) (tail : (fromTheEnd C).verified s = true) :
    (s.sweepVerified C).2.Holds C [] suspects := by
  obtain ⟨kept, gone, split, stays, goes⟩ := removesTail_split _ _ tail
  have found := removeIf_append QueuedBlock.movedFrom _ kept gone stays goes
  rw [BlockQueue.sweepVerified, split, found]
  refine Holds.noteBads _ (h.of_perm ?_ rfl rfl rfl rfl rfl)
  refine List.perm_iff_count.mpr fun x => ?_
  simp only [pipeline, split, List.map_append, List.count_append, List.count_nil]
  omega

theorem Holds.sweepUnverified (h : s.Holds C [] suspects)
    (tail : (fromTheEnd C).unverified s = true) :
    s.sweepUnverified.2.Holds C [] suspects := by
  obtain ⟨kept, gone, split, stays, goes⟩ := removesTail_split _ _ tail
  have found := removeIf_append UnverifiedBlock.movedFrom _ kept gone stays goes
  rw [BlockQueue.sweepUnverified, split, found]
  refine Holds.noteBads _ (h.of_perm ?_ rfl rfl rfl rfl rfl)
  refine List.perm_iff_count.mpr fun x => ?_
  simp only [pipeline, split, List.map_append, List.count_append, List.count_nil]
  omega

theorem Holds.sweepVerifying (h : s.Holds C [] suspects)
    (tail : (fromTheEnd C).verifying s = true) :
    (s.sweepVerifying C).2.Holds C [] suspects := by
  obtain ⟨kept, gone, split, stays, goes⟩ := removesTail_split _ _ tail
  have found := removeIf_append QueuedBlock.movedFrom _ kept gone stays goes
  rw [BlockQueue.sweepVerifying, split, found]
  refine Holds.noteBads _ (h.of_perm ?_ rfl rfl rfl rfl rfl)
  refine List.perm_iff_count.mpr fun x => ?_
  simp only [pipeline, split, List.map_append, List.count_append, List.count_nil]
  omega

theorem Holds.updateBad (bad : H256) (h : s.Holds C [] suspects)
    (tail : (fromTheEnd C).update C bad s = true) :
    (s.updateBad C bad).Holds C [] suspects :=
  updateBad_keeps (P := fun s => s.Holds C [] suspects) (fun _ _ h => h.collectFrom _ _)
    (fun _ h => h.sweepVerified)
    (fun _ h => h.sweepUnverified) (fun _ h => h.sweepVerifying) bad s h tail

theorem Holds.release {b : QueuedBlock} (h : s.Holds C (hashOf C b :: out) suspects) :
    (s.release C b).Holds C out suspects := by
  unfold BlockQueue.release
  split
  · exact h.note
  · refine h.of_perm ?_ rfl rfl rfl rfl rfl
    refine List.perm_iff_count.mpr fun x => ?_
    simp only [pipeline, List.map_append, List.map_cons, List.map_nil, List.count_append,
      List.count_cons, List.count_nil]
    omega

theorem Holds.drainFrom (q : List QueuedBlock) (s : BlockQueue)
    (h : ({ s with verifying := q } : BlockQueue).Holds C out suspects) :
    (s.drainFrom C q).Holds C out suspects := by
  induction q generalizing s with
  | nil => exact h
  | cons b rest ih =>
      unfold BlockQueue.drainFrom
      split
      · exact h
      case isFalse full =>
        have out_ : ({ s with verifying := rest } : BlockQueue).Holds C
            (hashOf C b :: out) suspects := by
          refine h.of_perm ?_ rfl rfl rfl rfl rfl
          refine List.perm_iff_count.mpr fun x => ?_
          simp only [pipeline, List.map_cons, verifyingHash, ne_eq, full,
            not_false_eq_true, if_true, List.count_append, List.count_cons]
          omega
        have same : ({ s.release C b with verifying := rest } : BlockQueue) =
            ({ s with verifying := rest } : BlockQueue).release C b := by
          unfold BlockQueue.release
          split <;> rfl
        exact ih _ (same ▸ out_.release)

theorem Holds.drainVerified (h : s.Holds C out suspects) :
    (s.drainVerified C).Holds C out suspects :=
  h.drainFrom s.verifying s

theorem promote_pipeline (parent : H256) (s : BlockQueue) :
    (s.promote parent).pipeline C = s.pipeline C ++
      (s.unknown.removeByKeyEqual parent).1.map Prod.fst := by
  simp [pipeline, promote, Function.comp_def]

theorem Holds.promote (h : s.Holds C [] ∅) (parent : H256) : (s.promote parent).Holds C [] ∅ := by
  have later : ∀ x ∈ (s.unknown.removeByKeyEqual parent).1.map Prod.fst, x ∈ s.unknownSet :=
    fun x hx => (h.unknown x).mpr (removed_hashes hx)
  refine ⟨fun x => ?_, ?_, h.unknown_left parent, kept_hashes_nodup parent _ h.unknownOnce,
    fun x hx => ?_, fun x hx left => ?_, fun x hx => ?_, fun x hx left => ?_, h.draining_bad,
    fun x hx => ?_⟩
  · rw [promote_pipeline, ← List.append_assoc, List.mem_append, ← h.ready, ← List.mem_toFinset]
    exact Finset.mem_union
  · rw [promote_pipeline, List.nil_append]
    refine List.nodup_append'.mpr ⟨h.once, removed_hashes_nodup parent _ h.unknownOnce,
      fun x hx moved => ?_⟩
    exact h.ready_unknown x ((h.ready x).mpr hx) (later x moved)
  · rcases Finset.mem_union.mp hx with hx | hx
    · exact h.ready_draining x hx
    · exact fun draining => h.draining_unknown x draining (later x (List.mem_toFinset.mp hx))
  · obtain ⟨here, kept⟩ := Finset.mem_sdiff.mp left
    rcases Finset.mem_union.mp hx with hx | hx
    · exact h.ready_unknown x hx here
    · exact kept hx
  · rcases Finset.mem_union.mp hx with hx | hx
    · exact h.ready_bad x hx
    · exact fun bad => absurd bad (h.unknown_bad x (later x (List.mem_toFinset.mp hx)))
  · exact h.draining_unknown x hx (Finset.mem_sdiff.mp left).1
  · exact h.unknown_bad x (Finset.mem_sdiff.mp hx).1

theorem Holds.noteReadyFrom (turns : Nat) (goodQueue : List H256) (h : s.Holds C [] ∅) :
    (s.noteReadyFrom turns goodQueue).Holds C [] ∅ := by
  induction turns generalizing goodQueue s with
  | zero => exact h
  | succ turns ih =>
      cases goodQueue with
      | nil => exact h
      | cons good goodQueue => exact ih _ (h.promote good)

theorem Holds.retryFrom (turns : Nat) (h : s.Holds C [] ∅) : (s.retryFrom turns).Holds C [] ∅ := by
  induction turns generalizing s with
  | zero => exact h
  | succ turns ih =>
      unfold BlockQueue.retryFrom
      split
      · exact h
      case h_2 parent _ _ _ => exact ih (h.promote parent)

theorem knows_false {x : H256} (unknown : s.knows x = false) :
    x ∉ s.readySet ∧ x ∉ s.drainingSet ∧ x ∉ s.unknownSet ∧ x ∉ s.knownBad := by
  simp only [knows, Bool.or_eq_false_iff, decide_eq_false_iff_not] at unknown
  exact ⟨unknown.1.1.1, unknown.1.1.2, unknown.1.2, unknown.2⟩

theorem Holds.bad (h : s.Holds C [] ∅) {x : H256} (unready : x ∉ s.readySet)
    (undrained : x ∉ s.drainingSet) (known : x ∉ s.unknownSet) :
    ({ s with knownBad := insert x s.knownBad } : BlockQueue).Holds C [] ∅ where
  ready := h.ready
  once := h.once
  unknown := h.unknown
  unknownOnce := h.unknownOnce
  ready_draining := h.ready_draining
  ready_unknown := h.ready_unknown
  ready_bad y hy bad := by
    rcases Finset.mem_insert.mp bad with rfl | bad
    · exact absurd hy unready
    · exact h.ready_bad y hy bad
  draining_unknown := h.draining_unknown
  draining_bad y hy bad := by
    rcases Finset.mem_insert.mp bad with rfl | bad
    · exact undrained hy
    · exact h.draining_bad y hy bad
  unknown_bad y hy bad := by
    rcases Finset.mem_insert.mp bad with rfl | bad
    · exact known hy
    · exact h.unknown_bad y hy bad

theorem Holds.store (h : s.Holds C [] ∅) {x : H256} (new : s.knows x = false) (parentHash : H256)
    (data : Bytes) :
    ({ s with unknown := s.unknown.insert parentHash x data, unknownSet := insert x s.unknownSet } :
      BlockQueue).Holds C [] ∅ := by
  obtain ⟨unready, undrained, unstored, good⟩ := knows_false new
  have hashes : (s.unknown.insert parentHash x data).map (fun e => e.2.1) |>.Perm
      (x :: s.unknownHashes) :=
    (insert_perm parentHash x data s.unknown).map _
  refine ⟨h.ready, h.once, fun y => ?_, ?_, h.ready_draining, fun y hy later => ?_, h.ready_bad,
    fun y hy later => ?_, h.draining_bad, fun y hy => ?_⟩
  · rw [Finset.mem_insert, h.unknown, ← List.mem_cons]
    exact hashes.mem_iff.symm
  · refine hashes.nodup_iff.mpr (List.nodup_cons.mpr ⟨?_, h.unknownOnce⟩)
    rwa [← h.unknown]
  · rcases Finset.mem_insert.mp later with rfl | later
    · exact unready hy
    · exact h.ready_unknown y hy later
  · rcases Finset.mem_insert.mp later with rfl | later
    · exact undrained hy
    · exact h.draining_unknown y hy later
  · rcases Finset.mem_insert.mp hy with rfl | hy
    · exact good
    · exact h.unknown_bad y hy

theorem Holds.enqueue (h : s.Holds C [] ∅) {b : UnverifiedBlock} (new : s.knows b.hash = false) :
    ({ s with unverified := s.unverified ++
          [b], readySet := insert b.hash s.readySet } : BlockQueue).Holds C [] ∅ := by
  obtain ⟨unready, undrained, unstored, good⟩ := knows_false new
  have queues :
    (({ s with unverified := s.unverified ++ [b], readySet := insert b.hash s.readySet } :
      BlockQueue).pipeline C).Perm (b.hash :: s.pipeline C) := by
    refine List.perm_iff_count.mpr fun x => ?_
    simp only [pipeline, List.map_append, List.map_cons, List.map_nil, List.count_append,
      List.count_cons, List.count_nil]
    omega
  refine ⟨fun x => ?_, ?_, h.unknown, h.unknownOnce, fun x hx => ?_, fun x hx => ?_, fun x hx => ?_,
    h.draining_unknown, h.draining_bad, h.unknown_bad⟩
  · rw [List.nil_append, queues.mem_iff, List.mem_cons, Finset.mem_insert, h.ready, List.nil_append]
  · refine queues.nodup_iff.mpr (List.nodup_cons.mpr ⟨?_, h.once⟩)
    exact fun here => unready ((h.ready _).mpr here)
  · rcases Finset.mem_insert.mp hx with rfl | hx
    · exact undrained
    · exact h.ready_draining x hx
  · rcases Finset.mem_insert.mp hx with rfl | hx
    · exact unstored
    · exact h.ready_unknown x hx
  · rcases Finset.mem_insert.mp hx with rfl | hx
    · exact fun bad => absurd bad good
    · exact h.ready_bad x hx

variable {F : QueueFacts} {w : World}

theorem Holds.importBlock (laws : w.Lawful C F) (h : s.Holds C [] ∅) (block : Bytes)
    (isOurs : Bool) (tail : (fromTheEnd C).Import C w { postGenesis := true } block isOurs s) :
    (s.importBlock C w block isOurs).2.Holds C [] ∅ := by
  rcases importBlock_cases C w block isOurs s with
    e | ⟨v, accepted, new, absent, e | ⟨now, ⟨bad, e⟩ | ⟨-, -, e⟩ | ⟨-, -, e⟩⟩⟩
  · rwa [e]
  · rw [e]
    exact h.of_perm (.refl _) rfl rfl rfl rfl rfl
  · rw [e]
    have named := laws.hash accepted
    obtain ⟨unready, undrained, unstored, -⟩ := knows_false (named ▸ new)
    exact (h.bad unready undrained unstored).updateBad _ (tail v accepted new absent now bad)
  · rw [e]
    exact h.store new _ _
  · rw [e]
    exact (h.enqueue (b := ⟨_, v.info.parentHash, block⟩) new).noteReadyFrom _ _

theorem Holds.importVerified (laws : w.Lawful C F) (h : s.Holds C [] ∅) (block : Bytes)
    (tail : (fromTheEnd C).Import C w .outOfOrderChecks block true s)
    (unentered : ∀ v, w.verifyBlock block .outOfOrderChecks = some v →
      s.knows (BlockHeader.headerHashFromBlock C block) = false →
      w.isKnown (BlockHeader.headerHashFromBlock C block) = false → v.info.parentHash ∉ s.knownBad →
        w.isKnown v.info.parentHash = false) :
    (s.importVerified C w block).2.Holds C [] ∅ := by
  rcases importVerified_cases C w block s with
    e | ⟨v, accepted, new, absent, ⟨bad, e⟩ | ⟨-, -, e⟩ | ⟨good, found, -⟩⟩
  · rwa [e]
  · rw [e]
    have named := laws.hash accepted
    obtain ⟨unready, undrained, unstored, -⟩ := knows_false (named ▸ new)
    exact (h.bad unready undrained unstored).updateBad _ (tail v accepted new absent (by simp) bad)
  · rw [e]
    exact h.store new _ _
  · rw [unentered v accepted new absent good] at found
    cases found

theorem Holds.drain (h : s.Holds C [] ∅) (max : Nat) : (s.drain C max).2.Holds C [] ∅ := by
  unfold BlockQueue.drain
  split
  case isFalse => exact h
  case isTrue empty =>
    have split : s.pipeline C = (s.verified.take max).map (hashOf C) ++
        ({ s with verified := s.verified.drop max } : BlockQueue).pipeline C := by
      simp only [pipeline, ← List.append_assoc, ← List.map_append, List.take_append_drop]
    have whole : (s.pipeline C).Nodup := h.once
    rw [split] at whole
    obtain ⟨-, once, apart⟩ := List.nodup_append'.mp whole
    dsimp only
    have ready : ∀ x ∈ (s.verified.take max).map (hashOf C), x ∈ s.readySet := by
      intro x hx
      rw [h.ready, List.nil_append, split]
      exact List.mem_append_left _ hx
    refine ⟨fun x => ?_, once, h.unknown, h.unknownOnce, fun x hx => ?_, fun x hx => ?_,
      fun x hx => ?_, fun x hx => ?_, fun x hx bad => ?_, h.unknown_bad⟩
    · rw [Finset.mem_sdiff, List.mem_toFinset, h.ready, List.nil_append, split, List.mem_append]
      constructor
      · rintro ⟨taken | left, kept⟩
        · exact absurd taken kept
        · exact left
      · intro left
        exact ⟨.inr left, fun taken => apart taken left⟩
    · obtain ⟨-, kept⟩ := Finset.mem_sdiff.mp hx
      rw [empty, Finset.empty_union]
      exact kept
    · exact h.ready_unknown x (Finset.mem_sdiff.mp hx).1
    · exact h.ready_bad x (Finset.mem_sdiff.mp hx).1
    · rw [empty, Finset.empty_union, List.mem_toFinset] at hx
      exact h.ready_unknown x (ready x hx)
    · rw [empty, Finset.empty_union, List.mem_toFinset] at hx
      exact absurd (h.ready_bad x (ready x hx) bad) (Finset.notMem_empty x)

theorem verifyingHash_waiting {b : QueuedBlock} (empty : b.blockData = []) :
    verifyingHash C b = b.sha3Uncles :=
  if_neg (not_not.mpr empty)

theorem verifyingHash_done {b : QueuedBlock} (full : b.blockData ≠ []) :
    verifyingHash C b = hashOf C b := if_pos full

theorem Holds.remove (h : s.Holds C [] ∅) (hf : s.Formed C F) {hash : H256}
    (header : hash ∉ F.uncleLists) {p : QueuedBlock} (hp : p ∈ s.verifying)
    (named : p.sha3Uncles = hash) :
    ({ s with verifying := s.verifying.filter fun b => b.sha3Uncles ≠ hash } : BlockQueue).Holds C
      [hash] ∅ := by
  have waits : verifyingHash C p = hash :=
    (verifyingHash_waiting (hf.empty_of_hash hp named header)).trans named
  have once : (s.verifying.map (verifyingHash C)).Nodup :=
    ((List.nodup_append'.mp (List.nodup_append'.mp h.once).2.1).1.sublist
      (List.sublist_append_right _ _))
  have same : ∀ b ∈ s.verifying, decide (b.sha3Uncles ≠ hash) = (verifyingHash C b != hash) := by
    intro b hb
    by_cases this : b.sha3Uncles = hash
    · have bWaits := (verifyingHash_waiting (C := C) (hf.empty_of_hash hb this header)).trans this
      simp [this, bWaits]
    · have other : verifyingHash C b ≠ hash := by
        intro equal
        have is_p : b = p := List.inj_on_of_nodup_map once hb hp (equal.trans waits.symm)
        exact this (is_p ▸ named)
      simp [this, other]
  have left : (s.verifying.filter fun b => b.sha3Uncles ≠ hash).map (verifyingHash C) =
      (s.verifying.map (verifyingHash C)).erase hash := by
    rw [List.filter_congr same, once.erase_eq_filter, List.filter_map]
    rfl
  have found : hash ∈ s.verifying.map (verifyingHash C) := List.mem_map.mpr ⟨p, hp, waits⟩
  refine h.of_perm ?_ rfl rfl rfl rfl rfl
  have moved := (List.perm_cons_erase found).append_left (s.verified.map (hashOf C))
  simp only [pipeline, left, List.nil_append, List.singleton_append]
  rw [← List.cons_append]
  exact (moved.trans List.perm_middle).append_right _

theorem replace_map {A : Type} {f : QueuedBlock → A} {value : A} (hash : H256) {res : QueuedBlock}
    (named : f res = value) (q : List QueuedBlock) (found : ∀ b ∈ q, b.sha3Uncles = hash →
      f b = value) :
    (replace hash res q).map f = q.map f := by
  induction q with
  | nil => rfl
  | cons b q ih =>
      unfold replace
      split
      case isTrue here => rw [List.map_cons, List.map_cons, named, found b List.mem_cons_self here]
      case isFalse =>
        rw [List.map_cons, List.map_cons, ih fun x hx => found x (List.mem_cons_of_mem _ hx)]

/-- A verifier is done with a block. One that failed is not to take a block out of the sets that is
not in `m_verifying` any more. -/
theorem Holds.finished (laws : w.Lawful C F) (h : s.Holds C [] ∅)
    (hf : s.Formed C F) {work : UnverifiedBlock}
    (hw : Genuine C F work.hash work.parentHash work.blockData)
    (found : w.verifyBlock work.blockData .outOfOrderChecks = none →
      work.hash ∈ s.readySet ∨ work.hash ∈ s.drainingSet ∨ work.hash ∈ s.unknownSet →
        ∃ b ∈ s.verifying, b.sha3Uncles = work.hash) :
    (s.finished C w work).Holds C [] ∅ := by
  unfold BlockQueue.finished
  split
  case h_1 failed =>
    refine Holds.drainVerified ?_
    by_cases here : ∃ b ∈ s.verifying, b.sha3Uncles = work.hash
    · obtain ⟨p, hp, named⟩ := here
      exact (h.remove hf hw.header hp named).note
    · have away : ¬(work.hash ∈ s.readySet ∨ work.hash ∈ s.drainingSet ∨
          work.hash ∈ s.unknownSet) :=
        fun noted => here (found failed noted)
      simp only [not_or] at away
      obtain ⟨unready, undrained, unstored⟩ := away
      have noted := h.bad unready undrained unstored
      have kept : (s.verifying.filter fun b => b.sha3Uncles ≠ work.hash) = s.verifying :=
        List.filter_eq_self.mpr fun b hb => by
          simp only [ne_eq, decide_not, Bool.not_eq_true', decide_eq_false_iff_not]
          exact fun named => here ⟨b, hb, named⟩
      rw [kept, Finset.erase_eq_of_notMem unready]
      exact noted
  case h_2 v accepted =>
    have named : hashOf C (⟨v, work.blockData⟩ : QueuedBlock) = work.hash :=
      (laws.hash accepted).trans hw.named
    dsimp only
    split
    · exact h
    case h_2 next rest here =>
      split
      case isTrue first =>
        have waits : verifyingHash C next = work.hash :=
          (verifyingHash_waiting
            (hf.empty_of_hash (here ▸ List.mem_cons_self) first hw.header)).trans first
        refine Holds.drainVerified (Holds.release ?_)
        refine h.of_perm ?_ rfl rfl rfl rfl rfl
        refine List.perm_iff_count.mpr fun x => ?_
        simp only [pipeline, here, List.map_cons, waits, named, List.count_append, List.count_cons,
          List.count_nil]
        omega
      case isFalse =>
        have full : verifyingHash C (⟨v, work.blockData⟩ : QueuedBlock) = work.hash :=
          (verifyingHash_done hw.full).trans named
        have unchanged := replace_map work.hash full (next :: rest) fun b hb same =>
          (verifyingHash_waiting (hf.empty_of_hash (here ▸ hb) same hw.header)).trans same
        refine h.of_perm ?_ rfl rfl rfl rfl rfl
        simp only [pipeline, here, unchanged]
        exact .refl _

theorem clear_holds (s : BlockQueue) : s.clear.Holds C [] ∅ := by
  refine ⟨fun x => ?_, List.nodup_nil, fun x => ?_, List.nodup_nil, ?_, ?_, ?_, ?_, ?_, ?_⟩
  · simp [BlockQueue.clear, pipeline]
  · simp [BlockQueue.clear, unknownHashes]
  all_goals
    intro x hx
    exact absurd hx (Finset.notMem_empty x)

theorem Holds.settle (h : s.Holds C [] suspects) (verified : (s.sweepVerified C).1 = false)
    (unverified : s.sweepUnverified.1 = false) (verifying : (s.sweepVerifying C).1 = false)
    (done : ∀ b ∈ s.verifying, b.blockData ≠ [] → hashOf C b ∉ suspects) : s.Holds C [] ∅ := by
  have nothing {A : Type} {moved : A → A} {p : A → Bool} {q : List A}
      (swept : (!(removeIf moved p q).2.isEmpty) = false) : ∀ x ∈ q, p x = false := by
    have kept := removeIf_none moved p q (by simpa using swept)
    intro x hx
    have stays : x ∈ (removeIf moved p q).1 := kept.symm ▸ hx
    simpa [removeIf, hx] using stays
  have good : ∀ x ∈ s.readySet, x ∉ s.knownBad := by
    intro x hx bad
    have suspect := h.ready_bad x hx bad
    rw [h.ready, List.nil_append, pipeline, List.mem_append, List.mem_append] at hx
    rcases hx with (hx | hx) | hx
    · obtain ⟨b, hb, rfl⟩ := List.mem_map.mp hx
      have fine := nothing verified b hb
      simp [isBadVerified, bad] at fine
    · obtain ⟨b, hb, rfl⟩ := List.mem_map.mp hx
      have fine := nothing verifying b hb
      by_cases full : b.blockData = []
      · rw [verifyingHash_waiting full] at bad
        simp [isBadVerifying, bad] at fine
      · rw [verifyingHash_done full] at suspect
        exact done b hb full suspect
    · obtain ⟨b, hb, rfl⟩ := List.mem_map.mp hx
      have fine := nothing unverified b hb
      simp [isBadUnverified, bad] at fine
  exact { h with ready_bad := fun x hx bad => absurd bad (good x hx) }

theorem Holds.updateBad_settles (bad : H256) (h : s.Holds C [] suspects)
    (done : ∀ b ∈ s.verifying, b.blockData ≠ [] → hashOf C b ∉ suspects)
    (tail : (fromTheEnd C).update C bad s = true) :
    (s.updateBad C bad).Holds C [] ∅ := by
  obtain ⟨a, b, c⟩ := sweep_ends (C := C) _ (s.collectUnknownBad bad) (Nat.lt_succ_self _)
  refine (h.updateBad bad tail).settle a b c fun x hx => done x ?_
  exact (updateBad_shrinks bad s).verifying.subset hx

end BlockQueue

namespace Running

open BlockQueue

variable (C : Crypto)

/-- A step that is not one of those in which the sets and the queues part. -/
def Orderly (r : Running) (e : QueueEvent) : Prop :=
  r.Guarded C (fromTheEnd C) e ∧
    match e with
    | .importVerified w block => ∀ v, w.verifyBlock block .outOfOrderChecks = some v →
        r.queue.knows (BlockHeader.headerHashFromBlock C block) = false →
        w.isKnown (BlockHeader.headerHashFromBlock C block) = false →
        v.info.parentHash ∉ r.queue.knownBad →
          w.isKnown v.info.parentHash = false
    | .doneDrain bad => ∀ h ∈ bad.map Prod.snd,
        h ∉ r.queue.unknownSet ∧ ∀ b ∈ r.queue.verifying, b.blockData ≠ [] → hashOf C b ≠ h
    | .finishWork w i => ∀ work, r.working[i]? = some work →
        w.verifyBlock work.blockData .outOfOrderChecks = none →
        work.hash ∈ r.queue.readySet ∨ work.hash ∈ r.queue.drainingSet ∨
        work.hash ∈ r.queue.unknownSet →
          ∃ b ∈ r.queue.verifying, b.sha3Uncles = work.hash
    | _ => True

variable {C} {r : Running} {suspects : Finset H256} {F : QueueFacts} {w : World}

theorem orderly_of_placeholder {w : World} {i : Nat}
    (present : ∀ work ∈ r.working[i]?, ∃ b ∈ r.queue.verifying, b.sha3Uncles = work.hash) :
    r.Orderly C (.finishWork w i) :=
  ⟨trivial, fun work here _ _ => present work here⟩

theorem takeWork_holds (h : r.queue.Holds C [] suspects) :
    r.takeWork.queue.Holds C [] suspects := by
  unfold takeWork
  split
  · exact h
  case h_2 work rest here =>
    refine h.of_perm (List.perm_iff_count.mpr fun x => ?_) rfl rfl rfl rfl rfl
    simp only [pipeline, here, List.map_append, List.map_cons, List.map_nil, List.count_append,
      List.count_cons, List.count_nil, verifyingHash, QueuedBlock.placeholder, ne_eq, not_true,
      if_false, QueuedBlock.sha3Uncles]
    omega

theorem takeWork_done {P : QueuedBlock → Prop}
    (done : ∀ b ∈ r.queue.verifying, b.blockData ≠ [] → P b) :
    ∀ b ∈ r.takeWork.queue.verifying, b.blockData ≠ [] → P b := by
  unfold takeWork
  split
  · exact done
  · intro b hb full
    rcases List.mem_append.mp hb with hb | hb
    · exact done b hb full
    · rw [List.mem_singleton.mp hb] at full
      exact absurd rfl full

theorem updateBads_holds (bad : List (Nat × H256)) (h : r.queue.Holds C [] ∅)
    (tail : updates C (fromTheEnd C) bad r = true) : (updateBads C bad r).queue.Holds C [] ∅ :=
  updateBads_keeps (P := fun r => r.queue.Holds C [] ∅) (fun _ h => takeWork_holds h)
    (fun bad _ h tail => h.updateBad bad tail) bad r h tail

theorem doneDrain_holds (h : r.queue.Holds C [] ∅) (bad : List (Nat × H256))
    (apart : ∀ h ∈ bad.map Prod.snd,
      h ∉ r.queue.unknownSet ∧ ∀ b ∈ r.queue.verifying, b.blockData ≠ [] → hashOf C b ≠ h)
    (tail : updates C (fromTheEnd C) bad (r.closeDrain bad) = true) :
    (r.doneDrain C bad).2.queue.Holds C [] ∅ := by
  have closed : (r.closeDrain bad).queue.Holds C [] (bad.map Prod.snd).toFinset := by
    refine ⟨h.ready, h.once, h.unknown, h.unknownOnce, fun x _ => Finset.notMem_empty x,
      h.ready_unknown, fun x hx noted => ?_, by nofun, by nofun, fun x hx noted => ?_⟩
    · rcases Finset.mem_union.mp noted with noted | noted
      · exact absurd (h.ready_bad x hx noted) (Finset.notMem_empty x)
      · exact noted
    · rcases Finset.mem_union.mp noted with noted | noted
      · exact h.unknown_bad x hx noted
      · exact (apart x (List.mem_toFinset.mp noted)).1 hx
  have done : ∀ b ∈ (r.closeDrain bad).queue.verifying, b.blockData ≠ [] →
      hashOf C b ∉ (bad.map Prod.snd).toFinset :=
    fun b hb full named => (apart _ (List.mem_toFinset.mp named)).2 b hb full rfl
  change (updateBads C bad (r.closeDrain bad)).queue.Holds C [] ∅
  cases bad with
  | nil => exact closed
  | cons first bad =>
      rw [updates, Bool.and_eq_true] at tail
      have before :=
        takeWorks_keeps (P := fun r => r.queue.Holds C [] ((first :: bad).map Prod.snd).toFinset ∧
        ∀ b ∈ r.queue.verifying, b.blockData ≠ [] →
        hashOf C b ∉ ((first :: bad).map Prod.snd).toFinset)
        (fun _ h => ⟨takeWork_holds h.1, takeWork_done h.2⟩) first.1 _ ⟨closed, done⟩
      exact updateBads_holds bad (before.1.updateBad_settles first.2 before.2 tail.1) tail.2

theorem importPast_holds (laws : w.Lawful C F) (h : r.queue.Holds C [] ∅)
    (tail : r.Guarded C (fromTheEnd C) (.importPast w)) :
    (r.importPast C w).queue.Holds C [] ∅ := by
  unfold importPast
  split
  · exact h
  case h_2 b rest here => exact h.importBlock laws b.2 false (tail b (by simp [here]))

theorem finishWork_holds (laws : w.Lawful C F) (hf : r.Formed C F)
    (h : r.queue.Holds C [] ∅) (i : Nat) (orderly : r.Orderly C (.finishWork w i)) :
    (r.finishWork C w i).queue.Holds C [] ∅ := by
  unfold finishWork
  split
  · exact h
  case h_2 work here =>
    exact h.finished laws hf.queue (hf.working work (List.mem_of_getElem? here))
      (orderly.2 work here)

theorem step_holds (e : QueueEvent) (laws : e.Given (World.Lawful C F))
    (hf : r.Formed C F) (h : r.queue.Holds C [] ∅) (orderly : r.Orderly C e) :
    (r.step C e).queue.Holds C [] ∅ := by
  cases e with
  | importVerified w block => exact h.importVerified laws block orderly.1 orderly.2
  | importBlock w block isOurs => exact h.importBlock laws block isOurs orderly.1
  | tick w => exact h.of_perm (.refl _) rfl rfl rfl rfl rfl
  | importPast w => exact importPast_holds laws h orderly.1
  | drain max => exact h.drain max
  | doneDrain bad => exact doneDrain_holds h bad orderly.2 orderly.1
  | noteReady good => exact h.noteReadyFrom _ _
  | retryAllUnknown => exact h.retryFrom _
  | clear => exact clear_holds _
  | takeWork => exact takeWork_holds h
  | finishWork w i => exact finishWork_holds laws hf h i orderly

theorem initial_holds : ({} : Running).queue.Holds C [] ∅ := clear_holds {}

/-- In a run of orderly steps the sets name what the queues hold. -/
theorem sets_represent_queues (C : Crypto) (injective : Function.Injective C.sha3)
    (nonzero : ∀ bytes, C.sha3 bytes ≠ 0) (events : List QueueEvent)
    (given : ∀ e ∈ events, e.Given (World.OfChain C))
    (orderly : ∀ entry ∈ trace (step C) {} events, entry.1.Orderly C entry.2) :
    (run (step C) {} events).queue.Represents C := by
  have kept := run_invariant (step C)
    (fun _ r => r.Formed C C.facts ∧ r.queue.Holds C [] ∅)
    (fun r e => e.Given (World.OfChain C) ∧ r.Orderly C e) {} ⟨initial_formed, initial_holds⟩
    (fun events e h step => by
      have laws := step.1.imp fun w given => given.lawful injective nonzero
      exact ⟨step_formed e laws h.1, step_holds e laws h.1 h.2 step.2⟩)
    events fun entry member => ⟨given _ (trace_input _ _ _ entry member), orderly entry member⟩
  exact kept.2.represents

end Running

def queuedHeader (parent : H256) (number : Nat) : BlockHeader :=
  { sealedHeader [] with parentHash := parent, sha3Uncles := 100, number }

def queuedBlock (parent : H256) (number : Nat) : Bytes :=
  appendList ((queuedHeader parent number).streamRLP .withSeal :: [[0xc0], [0xc0]]).flatten

def hashedToy : List Bytes :=
  [[0xc0], (queuedHeader 105 1).streamRLP .withSeal, (queuedHeader 101 2).streamRLP .withSeal,
    (queuedHeader 6 1).streamRLP .withSeal, (queuedHeader 7 1).streamRLP .withSeal,
    genesisHeader.streamRLP .withSeal]

def hashedPlace (bytes : Bytes) : Nat :=
  100 + hashedToy.idxOf bytes + if bytes ∈ hashedToy then 0 else shortToy.sha3 bytes

def queueToy : Crypto := { shortToy with sha3 := hashedPlace }

theorem hashedPlace_known {bytes : Bytes} (known : bytes ∈ hashedToy) :
    hashedPlace bytes = 100 + hashedToy.idxOf bytes := by
  rw [hashedPlace, if_pos known, Nat.add_zero]

theorem hashedPlace_other {bytes : Bytes} (other : bytes ∉ hashedToy) :
    hashedPlace bytes = 100 + hashedToy.length + shortToy.sha3 bytes := by
  rw [hashedPlace, if_neg other, List.idxOf_of_notMem other]

theorem queueToy_sha3_injective : Function.Injective queueToy.sha3 := by
  intro left right same
  have same : hashedPlace left = hashedPlace right := same
  have inside : ∀ bytes ∈ hashedToy, hashedToy.idxOf bytes < hashedToy.length :=
    fun _ => List.idxOf_lt_length_iff.mpr
  by_cases here : left ∈ hashedToy <;> by_cases there : right ∈ hashedToy
  · rw [hashedPlace_known here, hashedPlace_known there] at same
    exact (List.idxOf_inj here).mp (by omega)
  · have bound := inside left here
    rw [hashedPlace_known here, hashedPlace_other there] at same
    omega
  · have bound := inside right there
    rw [hashedPlace_other here, hashedPlace_known there] at same
    omega
  · rw [hashedPlace_other here, hashedPlace_other there] at same
    exact Crypto.toy_sha3_injective (Nat.add_left_cancel same)

theorem queueToy_sha3_ne_zero (bytes : Bytes) : queueToy.sha3 bytes ≠ 0 := by
  have positive : 0 < hashedPlace bytes := by
    rw [hashedPlace]
    omega
  exact Nat.ne_of_gt positive

def queueChain : BlockChain where
  headerData h := if h = 105 then genesisHeader.streamRLP .withSeal else []
  trieRootOver l := Encodable.encode (l.map fun bytes => bytes.map UInt8.toNat)
  checkTransaction _ _ := true
  signChecker := none

def queueWorld : World :=
  queueChain.world queueToy (fun h => decide (h = 6 ∨ h = 7 ∨ h = 105)) 3 false

theorem queueWorld_ofChain : queueWorld.OfChain queueToy := ⟨_, _, _, _, rfl⟩

def drainedRun : List QueueEvent :=
  [.importBlock queueWorld (queuedBlock 105 1) false, .takeWork,
    .importBlock queueWorld (queuedBlock 101 2) false, .finishWork queueWorld 0, .drain 1,
    .doneDrain [(1, 101)]]

namespace Running

open BlockQueue

theorem sets_represent_queues_drained :
    let r := run (step queueToy) {} drainedRun
    r.queue.Represents queueToy ∧ r.queue.knownBad = {101, 102} := by
  refine ⟨?_, by decide +kernel⟩
  refine sets_represent_queues queueToy queueToy_sha3_injective queueToy_sha3_ne_zero
    drainedRun ?_ ?_
  · simp [drainedRun, QueueEvent.Given, queueWorld_ofChain]
  · simp only [drainedRun, trace, List.forall_mem_cons]
    refine (fun ready : _ ∧ _ ∧ _ ∧ _ => ⟨⟨Guard.import_of_clean rfl, trivial⟩, ⟨trivial, trivial⟩,
      ⟨Guard.import_of_clean ready.1, trivial⟩, orderly_of_placeholder ready.2.1,
      ⟨trivial, trivial⟩, ⟨guarded_doneDrain ready.2.2.1, ready.2.2.2⟩, List.forall_mem_nil _⟩) ?_
    decide +kernel

/-- `importVerified` puts a block into `m_verified` and into no set. -/
theorem verified_block_unready :
    let r := run (step queueToy) {} [.importVerified queueWorld (queuedBlock 105 1)]
    r.queue.readySet = ∅ ∧ r.queue.verified.length = 1 ∧ ¬ r.queue.Represents queueToy := by
  intro r
  have ends : r.queue.readySet = ∅ ∧ r.queue.verified.length = 1 ∧
      ¬ r.queue.readySet.card = r.queue.queued := by
    decide +kernel
  exact ⟨ends.1, ends.2.1, fun same => ends.2.2 same.count⟩

end Running

end UtispaceChain
