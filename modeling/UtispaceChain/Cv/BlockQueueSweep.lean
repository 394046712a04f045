import UtispaceChain.Cv.BlockQueue

/-! What `updateBad` does to the queues: it only takes blocks out, turn by turn, until a turn finds
none. -/

namespace UtispaceChain

open Lib

namespace BlockQueue

variable (C : Crypto)

theorem importBlock_cases (w : World) (block : Bytes) (isOurs : Bool) (s : BlockQueue) :
    (s.importBlock C w block isOurs).2 = s ∨
    ∃ v, w.verifyBlock block { postGenesis := true } = some v ∧
      s.knows (BlockHeader.headerHashFromBlock C block) = false ∧
      w.isKnown (BlockHeader.headerHashFromBlock C block) = false ∧
      ((s.importBlock C w block isOurs).2 =
          { s with
            future := s.future.insert (v.info.timestamp % 2 ^ 64)
              (BlockHeader.headerHashFromBlock C block) block } ∨
        (!w.allowFutureBlocks && decide (w.utcTime < v.info.timestamp) && !isOurs) = false ∧
        (v.info.parentHash ∈ s.knownBad ∧
            (s.importBlock C w block isOurs).2 =
              updateBad C (v.info.hash C .withSeal)
                { s with knownBad := insert (v.info.hash C .withSeal) s.knownBad } ∨
          v.info.parentHash ∉ s.knownBad ∧ s.orphan w v.info.parentHash = true ∧
            (s.importBlock C w block isOurs).2 =
              { s with
                unknown := s.unknown.insert v.info.parentHash
                  (BlockHeader.headerHashFromBlock C block) block
                unknownSet := insert (BlockHeader.headerHashFromBlock C block) s.unknownSet } ∨
          v.info.parentHash ∉ s.knownBad ∧ s.orphan w v.info.parentHash = false ∧
            (s.importBlock C w block isOurs).2 =
              noteReady (BlockHeader.headerHashFromBlock C block)
                { s with
                  unverified := s.unverified ++
                    [UnverifiedBlock.mk (BlockHeader.headerHashFromBlock C block)
                      v.info.parentHash block]
                  readySet := insert (BlockHeader.headerHashFromBlock C block) s.readySet })) := by
  unfold importBlock
  dsimp only
  split
  · exact .inl rfl
  case isFalse unknown =>
    split
    · exact .inl rfl
    case h_2 v accepted =>
      split
      · exact .inl rfl
      case isFalse absent =>
        refine .inr ⟨v, accepted, by simpa using unknown, by simpa using absent, ?_⟩
        split
        · exact .inl rfl
        case isFalse now =>
          refine .inr ⟨by simpa using now, ?_⟩
          split
          case isTrue bad => exact .inl ⟨bad, rfl⟩
          case isFalse good =>
            split
            case isTrue lost => exact .inr (.inl ⟨good, lost, rfl⟩)
            case isFalse found => exact .inr (.inr ⟨good, by simpa using found, rfl⟩)

theorem importVerified_cases (w : World) (block : Bytes) (s : BlockQueue) :
    (s.importVerified C w block).2 = s ∨
    ∃ v, w.verifyBlock block .outOfOrderChecks = some v ∧
      s.knows (BlockHeader.headerHashFromBlock C block) = false ∧
      w.isKnown (BlockHeader.headerHashFromBlock C block) = false ∧
      (v.info.parentHash ∈ s.knownBad ∧
          (s.importVerified C w block).2 =
            updateBad C (v.info.hash C .withSeal)
              { s with knownBad := insert (v.info.hash C .withSeal) s.knownBad } ∨
        v.info.parentHash ∉ s.knownBad ∧ w.isKnown v.info.parentHash = false ∧
          (s.importVerified C w block).2 =
            { s with
              unknown := s.unknown.insert v.info.parentHash
                (BlockHeader.headerHashFromBlock C block) block
              unknownSet := insert (BlockHeader.headerHashFromBlock C block) s.unknownSet } ∨
        v.info.parentHash ∉ s.knownBad ∧ w.isKnown v.info.parentHash = true ∧
          (s.importVerified C w block).2 =
            drainVerified C { s with verified := s.verified ++ [⟨v, block⟩] }) := by
  unfold importVerified
  dsimp only
  split
  · exact .inl rfl
  case isFalse unknown =>
    split
    · exact .inl rfl
    case h_2 v accepted =>
      split
      · exact .inl rfl
      case isFalse absent =>
        split
        case isTrue bad =>
          exact .inr ⟨v, accepted, by simpa using unknown, by simpa using absent, .inl ⟨bad, rfl⟩⟩
        case isFalse good =>
          split
          case isTrue lost =>
            exact .inr ⟨v, accepted, by simpa using unknown, by simpa using absent,
              .inr (.inl ⟨good, lost, rfl⟩)⟩
          case isFalse found =>
            split
            · exact .inl rfl
            · exact .inr ⟨v, accepted, by simpa using unknown, by simpa using absent,
                .inr (.inr ⟨good, by simpa [QueuedBlock.parentHash] using found, rfl⟩)⟩

/-- Blocks are taken out, and known as bad; the rest stays in its order. -/
structure Shrinks (s t : BlockQueue) : Prop where
  unknown : t.unknown.Sublist s.unknown
  verified : t.verified.Sublist s.verified
  verifying : t.verifying.Sublist s.verifying
  unverified : t.unverified.Sublist s.unverified
  future : t.future = s.future
  draining : t.drainingSet = s.drainingSet
  bad : s.knownBad ⊆ t.knownBad

variable {C} {s t u : BlockQueue}

theorem Shrinks.refl (s : BlockQueue) : s.Shrinks s :=
  ⟨.refl _, .refl _, .refl _, .refl _, rfl, rfl, Finset.Subset.refl _⟩

theorem Shrinks.trans (h₁ : s.Shrinks t) (h₂ : t.Shrinks u) : s.Shrinks u :=
  ⟨h₂.unknown.trans h₁.unknown, h₂.verified.trans h₁.verified, h₂.verifying.trans h₁.verifying,
    h₂.unverified.trans h₁.unverified, h₂.future.trans h₁.future, h₂.draining.trans h₁.draining,
    h₁.bad.trans h₂.bad⟩

theorem collectFrom_shrinks (turns : Nat) (badQueue : List H256) (s : BlockQueue) :
    s.Shrinks (s.collectFrom turns badQueue) := by
  induction turns generalizing badQueue s with
  | zero => exact .refl s
  | succ turns ih =>
      cases badQueue with
      | nil => exact .refl s
      | cons bad badQueue =>
          refine Shrinks.trans ?_ (ih _ _)
          exact ⟨List.filter_sublist, .refl _, .refl _, .refl _, rfl, rfl, Finset.subset_union_left⟩

theorem collectUnknownBad_shrinks (bad : H256) (s : BlockQueue) :
    s.Shrinks (s.collectUnknownBad bad) :=
  collectFrom_shrinks _ _ s

theorem collectFrom_queues (turns : Nat) (badQueue : List H256) (s : BlockQueue) :
    (s.collectFrom turns badQueue).verified = s.verified ∧
      (s.collectFrom turns badQueue).verifying = s.verifying ∧
      (s.collectFrom turns badQueue).unverified = s.unverified := by
  induction turns generalizing badQueue s with
  | zero => exact ⟨rfl, rfl, rfl⟩
  | succ turns ih =>
      cases badQueue with
      | nil => exact ⟨rfl, rfl, rfl⟩
      | cons bad badQueue => exact ih _ _

theorem noteBad_shrinks (s : BlockQueue) (hash : H256) : s.Shrinks (s.noteBad hash) := by
  refine Shrinks.trans ?_ (collectUnknownBad_shrinks hash
    { s with knownBad := insert hash s.knownBad, readySet := s.readySet.erase hash })
  exact ⟨.refl _, .refl _, .refl _, .refl _, rfl, rfl, Finset.subset_insert _ _⟩

theorem noteBads_shrinks (hashes : List H256) (s : BlockQueue) :
    s.Shrinks (hashes.foldl noteBad s) := by
  induction hashes generalizing s with
  | nil => exact .refl s
  | cons hash hashes ih => exact (noteBad_shrinks s hash).trans (ih _)

theorem noteBads_queues (hashes : List H256) (s : BlockQueue) :
    (hashes.foldl noteBad s).verified = s.verified ∧ (hashes.foldl noteBad s).verifying =
      s.verifying ∧
      (hashes.foldl noteBad s).unverified = s.unverified := by
  induction hashes generalizing s with
  | nil => exact ⟨rfl, rfl, rfl⟩
  | cons hash hashes ih =>
      obtain ⟨h₁, h₂, h₃⟩ := ih (s.noteBad hash)
      obtain ⟨g₁, g₂, g₃⟩ := collectFrom_queues (s.unknown.length + 1) [hash]
        { s with knownBad := insert hash s.knownBad, readySet := s.readySet.erase hash }
      exact ⟨h₁.trans g₁, h₂.trans g₂, h₃.trans g₃⟩

theorem sweepVerified_shrinks (s : BlockQueue) : s.Shrinks (s.sweepVerified C).2 := by
  refine Shrinks.trans ?_ (noteBads_shrinks _ _)
  exact ⟨.refl _, removeIf_kept_sublist QueuedBlock.movedFrom _ _, .refl _, .refl _, rfl, rfl,
    Finset.Subset.refl _⟩

theorem sweepUnverified_shrinks (s : BlockQueue) : s.Shrinks s.sweepUnverified.2 := by
  refine Shrinks.trans ?_ (noteBads_shrinks _ _)
  exact ⟨.refl _, .refl _, .refl _, removeIf_kept_sublist UnverifiedBlock.movedFrom _ _, rfl, rfl,
    Finset.Subset.refl _⟩

theorem sweepVerifying_shrinks (s : BlockQueue) : s.Shrinks (s.sweepVerifying C).2 := by
  refine Shrinks.trans ?_ (noteBads_shrinks _ _)
  exact ⟨.refl _, .refl _, removeIf_kept_sublist QueuedBlock.movedFrom _ _, .refl _, rfl, rfl,
    Finset.Subset.refl _⟩

/-- What is asked of the state before each removal of `updateBad`. -/
structure Guard where
  verified : BlockQueue → Bool
  unverified : BlockQueue → Bool
  verifying : BlockQueue → Bool

def Guard.free : Guard := ⟨fun _ => true, fun _ => true, fun _ => true⟩

variable (C) in
/-- The removals of the turns of `sweep` meet the guard. -/
def Guard.sweeps (G : Guard) : Nat → BlockQueue → Bool
  | 0, _ => true
  | turns + 1, s =>
      let a := s.sweepVerified C
      let b := a.2.sweepUnverified
      let c := b.2.sweepVerifying C
      G.verified s && G.unverified a.2 && G.verifying b.2 &&
        (!(a.1 || b.1 || c.1) || G.sweeps turns c.2)

theorem sweep_succ (turns : Nat) (s : BlockQueue) :
    s.sweep C (turns + 1) =
      let a := s.sweepVerified C
      let b := a.2.sweepUnverified
      let c := b.2.sweepVerifying C
      if (a.1 || b.1 || c.1) = true then c.2.sweep C turns else c.2 := by
  rw [sweep]

theorem sweep_keeps {P : BlockQueue → Prop} {G : Guard}
    (hv : ∀ s, P s → G.verified s = true → P (s.sweepVerified C).2)
    (hu : ∀ s, P s → G.unverified s = true → P s.sweepUnverified.2)
    (hy : ∀ s, P s → G.verifying s = true → P (s.sweepVerifying C).2)
    (turns : Nat) (s : BlockQueue) (start : P s) (guarded : G.sweeps C turns s = true) :
    P (s.sweep C turns) := by
  induction turns generalizing s with
  | zero => exact start
  | succ turns ih =>
      rw [Guard.sweeps] at guarded
      simp only [Bool.and_eq_true, Bool.or_eq_true, Bool.not_eq_true'] at guarded
      obtain ⟨⟨⟨g₁, g₂⟩, g₃⟩, rest⟩ := guarded
      have swept := hy _ (hu _ (hv s start g₁) g₂) g₃
      rw [sweep_succ]
      dsimp only
      split
      case isTrue more => exact ih _ swept (rest.resolve_left (by rw [more]; nofun))
      case isFalse => exact swept

theorem sweeps_free (turns : Nat) (s : BlockQueue) : Guard.free.sweeps C turns s = true := by
  induction turns generalizing s with
  | zero => rfl
  | succ turns ih =>
      rw [Guard.sweeps, ih, Bool.or_true, Bool.and_true]
      rfl

theorem sweep_shrinks (turns : Nat) (s : BlockQueue) : s.Shrinks (s.sweep C turns) :=
  sweep_keeps (P := fun t => s.Shrinks t) (fun t h _ => h.trans (sweepVerified_shrinks t))
    (fun t h _ => h.trans (sweepUnverified_shrinks t))
    (fun t h _ => h.trans (sweepVerifying_shrinks t))
    turns s (.refl s) (sweeps_free turns s)

theorem updateBad_shrinks (bad : H256) (s : BlockQueue) : s.Shrinks (s.updateBad C bad) :=
  (collectUnknownBad_shrinks bad s).trans (sweep_shrinks _ _)

variable (C) in
/-- The removals of an `updateBad` meet the guard. -/
def Guard.update (G : Guard) (bad : H256) (s : BlockQueue) : Bool :=
  G.sweeps C ((s.collectUnknownBad bad).queued + 1) (s.collectUnknownBad bad)

theorem updateBad_keeps {P : BlockQueue → Prop} {G : Guard}
    (hc : ∀ bad s, P s → P (s.collectUnknownBad bad)) (hv : ∀ s, P s → G.verified s = true →
      P (s.sweepVerified C).2) (hu : ∀ s, P s → G.unverified s = true → P s.sweepUnverified.2)
    (hy : ∀ s, P s → G.verifying s = true → P (s.sweepVerifying C).2)
    (bad : H256) (s : BlockQueue) (start : P s) (guarded : G.update C bad s = true) :
    P (s.updateBad C bad) :=
  sweep_keeps hv hu hy _ _ (hc bad s start) guarded

variable (C) in
def Guard.Import (G : Guard) (w : World) (ir : ImportRequirements) (block : Bytes) (isOurs : Bool)
    (s : BlockQueue) : Prop :=
  ∀ v, w.verifyBlock block ir = some v → s.knows (BlockHeader.headerHashFromBlock C block) = false →
    w.isKnown (BlockHeader.headerHashFromBlock C block) = false →
    (!w.allowFutureBlocks && decide (w.utcTime < v.info.timestamp) && !isOurs) = false →
    v.info.parentHash ∈ s.knownBad →
      G.update C (v.info.hash C .withSeal)
        { s with knownBad := insert (v.info.hash C .withSeal) s.knownBad } = true

theorem Guard.import_of_clean {G : Guard} {w : World} {ir : ImportRequirements} {block : Bytes}
    {isOurs : Bool} {s : BlockQueue} (clean : s.knownBad = ∅) : G.Import C w ir block isOurs s := by
  intro v _ _ _ _ bad
  rw [clean] at bad
  exact absurd bad (Finset.notMem_empty _)

/-- What a removal does to the number of queued blocks: it finds some and there are fewer, or it
finds none and nothing has changed. -/
structure Sweeps (s : BlockQueue) (swept : Bool × BlockQueue) : Prop where
  less : swept.1 = true → swept.2.queued < s.queued
  same : swept.1 = false → swept.2 = s

theorem Sweeps.le {swept : Bool × BlockQueue} (sweeps : Sweeps s swept) :
    swept.2.queued ≤ s.queued := by
  cases found : swept.1 with
  | true => exact Nat.le_of_lt (sweeps.less found)
  | false => rw [sweeps.same found]

theorem sweeps_of_found {α : Type} (found : List α) (hash : α → H256) (left : BlockQueue)
    (count : left.queued + found.length = s.queued) (none : found = [] → left = s) :
    Sweeps s (!found.isEmpty, (found.map hash).foldl noteBad left) := by
  rcases noteBads_queues (found.map hash) left with ⟨verified, verifying, unverified⟩
  have queued : ((found.map hash).foldl noteBad left).queued = left.queued := by
    rw [BlockQueue.queued, verified, verifying, unverified, BlockQueue.queued]
  cases found with
  | nil => exact ⟨nofun, fun _ => none rfl⟩
  | cons b found =>
      refine ⟨fun _ => ?_, nofun⟩
      rw [queued]
      rw [List.length_cons] at count
      omega

theorem sweepVerified_sweeps (s : BlockQueue) : Sweeps s (s.sweepVerified C) := by
  have length := removeIf_length QueuedBlock.movedFrom (isBadVerified C s) s.verified
  apply sweeps_of_found
  · simp only [queued]
    omega
  · intro none
    rw [removeIf_none _ _ _ none]

theorem sweepUnverified_sweeps (s : BlockQueue) : Sweeps s s.sweepUnverified := by
  have length := removeIf_length UnverifiedBlock.movedFrom (isBadUnverified s) s.unverified
  apply sweeps_of_found
  · simp only [queued]
    omega
  · intro none
    rw [removeIf_none _ _ _ none]

theorem sweepVerifying_sweeps (s : BlockQueue) : Sweeps s (s.sweepVerifying C) := by
  have length := removeIf_length QueuedBlock.movedFrom (isBadVerifying s) s.verifying
  apply sweeps_of_found
  · simp only [queued]
    omega
  · intro none
    rw [removeIf_none _ _ _ none]

theorem sweep_ends (turns : Nat) (s : BlockQueue) (enough : s.queued < turns) :
    ((s.sweep C turns).sweepVerified C).1 = false ∧ (s.sweep C turns).sweepUnverified.1 = false ∧
      ((s.sweep C turns).sweepVerifying C).1 = false := by
  induction turns generalizing s with
  | zero => omega
  | succ turns ih =>
      have verified := sweepVerified_sweeps (C := C) s
      have unverified := sweepUnverified_sweeps (s.sweepVerified C).2
      have verifying := sweepVerifying_sweeps (C := C) (s.sweepVerified C).2.sweepUnverified.2
      have first := verified.le
      have second := unverified.le
      have third := verifying.le
      rw [sweep_succ]
      dsimp only
      split
      case isTrue more =>
        apply ih
        simp only [Bool.or_eq_true] at more
        rcases more with (more | more) | more
        · have fewer := verified.less more
          omega
        · have fewer := unverified.less more
          omega
        · have fewer := verifying.less more
          omega
      case isFalse done =>
        simp only [Bool.or_eq_true, not_or, Bool.not_eq_true] at done
        rcases done with ⟨⟨noVerified, noUnverified⟩, noVerifying⟩
        rw [verified.same noVerified] at noUnverified noVerifying unverified verifying ⊢
        rw [unverified.same noUnverified] at noVerifying verifying ⊢
        rw [verifying.same noVerifying]
        exact ⟨noVerified, noUnverified, noVerifying⟩

/-! The other loops end by themselves: with as many turns as there are entries, one more changes
nothing. -/

end BlockQueue

namespace Running

open BlockQueue

variable (C : Crypto)

/-- The removals of the turns of `updateBads` meet the guard. -/
def updates (G : Guard) : List (Nat × H256) → Running → Bool
  | [], _ => true
  | (takes, bad) :: rest, r =>
      let r := takeWork^[takes] r
      G.update C bad r.queue && updates G rest { r with queue := r.queue.updateBad C bad }

/-- The state in which the loop of `doneDrain` starts. -/
def closeDrain (r : Running) (bad : List (Nat × H256)) : Running :=
  { r with queue := { r.queue with
    drainingSet := ∅
    knownBad := r.queue.knownBad ∪ (bad.map Prod.snd).toFinset } }

def Guarded (G : Guard) (r : Running) : QueueEvent → Prop
  | .importVerified w block => G.Import C w .outOfOrderChecks block true r.queue
  | .importBlock w block isOurs => G.Import C w { postGenesis := true } block isOurs r.queue
  | .importPast w => ∀ b ∈ r.past.head?, G.Import C w { postGenesis := true } b.2 false r.queue
  | .doneDrain bad => updates C G bad (r.closeDrain bad) = true
  | _ => True

variable {C} {P : Running → Prop} {G : Guard}

theorem guarded_doneDrain {r : Running} {bad : List (Nat × H256)}
    (guarded : updates C G bad (r.closeDrain bad) = true) :
    r.Guarded C G (.doneDrain bad) := guarded

theorem takeWorks_keeps (taken : ∀ r, P r → P r.takeWork) (takes : Nat) (r : Running)
    (start : P r) :
    P (takeWork^[takes] r) := by
  induction takes generalizing r with
  | zero => exact start
  | succ takes ih => exact ih r.takeWork (taken r start)

theorem updateBads_keeps (taken : ∀ r, P r → P r.takeWork)
    (updated : ∀ bad r, P r → G.update C bad r.queue = true →
      P { r with queue := r.queue.updateBad C bad }) (bad : List (Nat × H256)) (r : Running)
      (start : P r) (guarded : updates C G bad r = true) :
    P (updateBads C bad r) := by
  induction bad generalizing r with
  | nil => exact start
  | cons b bad ih =>
      rw [updates, Bool.and_eq_true] at guarded
      have before := takeWorks_keeps taken b.1 r start
      exact ih _ (updated b.2 _ before guarded.1) guarded.2

theorem updates_free (bad : List (Nat × H256)) (r : Running) :
    updates C Guard.free bad r = true := by
  induction bad generalizing r with
  | nil => rfl
  | cons b bad ih =>
      rw [updates, Bool.and_eq_true]
      exact ⟨sweeps_free _ _, ih _⟩

end Running

end UtispaceChain
