import UtispaceChain.Cv.BlockQueueSets
import UtispaceChain.Cv.CanonChain

/-! `BlockChain::sync`: the drained blocks are imported one after the other, and the bad ones are
given to `doneDrain`. The queue goes on working meanwhile. -/

namespace UtispaceChain

open Lib BlockQueue

/-- How an execution that does not succeed ends: by a `TransientError`, by another `Exception`, or
by what `sync` does not catch. -/
inductive Thrown
  | transient
  | failed
  | uncaught
  deriving DecidableEq, Repr

/-- The outside of one import of `sync`. -/
structure SyncTurn where
  chain : BlockChain
  run : ImportRun := {}
  thrown : Thrown := .failed

inductive SyncOutcome
  | success
  | alreadyHave
  | unknownParent
  | futureTime
  | transientError
  | failed
  | uncaught
  deriving DecidableEq, Repr

section

variable (C : Crypto) (decode : Bytes → Transaction)

def QueuedBlock.chainBlock (b : QueuedBlock) : ChainBlock where
  hash := hashOf C b
  parentHash := b.parentHash
  number := b.verified.info.number
  difficulty := b.verified.info.difficulty
  gasUsed := b.verified.info.gasUsed
  transactions := b.verified.transactions.map decode

/-- The parent-critical checks of `import`, with the signature list. -/
def SyncTurn.verifies (t : SyncTurn) (b : QueuedBlock) : Bool :=
  (t.chain.verifyBlock C b.blockData
    { ImportRequirements.inOrderChecks with checkMinerSignatures := true }).isSome

def SyncTurn.importRun (t : SyncTurn) (b : QueuedBlock) : ImportRun :=
  { t.run with verified := t.verifies C b }

/-- How `import` ends. Where the node exits or the import does not return nothing is caught. -/
def ChainIndex.outcome (bc : ChainIndex) (t : SyncTurn) (b : QueuedBlock) : SyncOutcome :=
  if bc.isKnown (hashOf C b) true then .alreadyHave
  else if bc.isKnown b.parentHash false = false then .unknownParent
  else
    match bc.details b.parentHash with
    | none => .uncaught
    | some pd =>
        if t.run.futureTime then .futureTime
        else if t.verifies C b = false ∨ b.verified.info.number ≠ pd.number + 1 then .failed
        else if 2 ^ 32 - 1 ≤ b.verified.info.number then .uncaught
        else if t.run.enacted = .succeeds then .success
        else
          match t.thrown with
          | .transient => .transientError
          | .failed => .failed
          | .uncaught => .uncaught

/-- The chain, the queue, and the variables of `sync`: all drained blocks, those still to import,
and the bad ones. Between the calls the drained blocks are those of the last call. -/
structure Syncing where
  index : ChainIndex
  running : Running := {}
  blocks : List QueuedBlock := []
  left : List QueuedBlock := []
  badBlocks : List H256 := []
  active : Bool := false

/-- A step of the queue, or of the one thread that calls `sync`. -/
inductive SyncEvent
  | queue (e : QueueEvent)
  | start (max : Nat)
  | next (t : SyncTurn)
  | finish (takes : Nat → Nat)

namespace Syncing

variable (s : Syncing)

/-- Draining is left to `sync`. -/
def queueStep : QueueEvent → Syncing
  | .drain _ => s
  | .doneDrain _ => s
  | e => { s with running := s.running.step C e }

def start (max : Nat) : Syncing :=
  if s.active then s
  else
    let (blocks, queue) := s.running.queue.drain C max
    { s with running := { s.running with queue }, blocks, left := blocks, badBlocks :=
          [], active := true }

/-- One turn of the loop. `continue` leaves the `do while (false)`, as the end of a turn does. -/
def next (t : SyncTurn) : Syncing :=
  match s.left with
  | [] => s
  | b :: rest =>
      let index := s.index.importBlock (t.importRun C b) (b.chainBlock C decode)
      match s.index.outcome C t b with
      | .success => { s with index, left := rest }
      | .alreadyHave => { s with index, left := rest }
      | .futureTime => { s with index, left := rest }
      | .transientError => { s with index, left := rest }
      | .unknownParent => { s with index, left := rest, badBlocks := s.badBlocks ++ [hashOf C b] }
      | .failed => { s with index, left := rest, badBlocks := s.badBlocks ++ [hashOf C b] }
      | .uncaught => { s with index, left := [], badBlocks := [], active := false }

/-- The end of `sync`; verifiers may take work between the turns of `doneDrain`. -/
def finish (takes : Nat → Nat) : Syncing :=
  if s.active && s.left.isEmpty then
    { s with
      running := (s.running.doneDrain C (s.badBlocks.zipIdx.map fun e => (takes e.2, e.1))).2
      badBlocks := []
      active := false }
  else s

def step : SyncEvent → Syncing
  | .queue e => s.queueStep C e
  | .start max => s.start C max
  | .next t => s.next C decode t
  | .finish takes => s.finish C takes

end Syncing

end

namespace ChainIndex

variable {bc : ChainIndex} {run : ImportRun} {b : ChainBlock}

theorem adopt_stored (bc : ChainIndex) (run : ImportRun) (b : ChainBlock) (common : Nat)
    (fresh : List H256) (switched : Bool) :
    (bc.adopt run b common fresh switched).genesis = bc.genesis ∧
      (bc.adopt run b common fresh switched).blocks = bc.blocks ∧
      (bc.adopt run b common fresh switched).details = bc.details := by
  unfold adopt
  simp only [putRoute_eq]
  split <;> cases switched <;> exact ⟨rfl, rfl, rfl⟩

theorem importValid_stored (bc : ChainIndex) (run : ImportRun) (b : ChainBlock)
    (pd : FamilyDetails) :
    ∃ td, (bc.importValid run b pd).genesis = bc.genesis ∧
      (bc.importValid run b pd).blocks = (bc.insertBlock b td).blocks ∧
      (bc.importValid run b pd).details = (bc.insertBlock b td).details := by
  refine ⟨u256Add pd.totalDifficulty b.difficulty, ?_⟩
  unfold importValid
  dsimp only
  split
  · exact adopt_stored _ _ _ _ _ _
  · exact ⟨rfl, rfl, rfl⟩

theorem isKnown_iff (bc : ChainIndex) (h : H256) :
    bc.isKnown h false = true ↔
      h = bc.genesis.hash ∨ (bc.blocks h).isSome = true ∧ (bc.details h).isSome = true := by
  unfold isKnown
  cases bc.details h <;> simp

theorem isKnown_of_current {h : H256} (known : bc.isKnown h true = true) :
    bc.isKnown h false = true := by
  rw [isKnown_iff]
  unfold isKnown at known
  cases row : bc.details h with
  | none => simpa [row] using known
  | some d =>
      rw [row] at known
      simp only [Bool.or_eq_true, Bool.and_eq_true, decide_eq_true_eq] at known
      exact known.imp_right fun stored => ⟨stored.1, rfl⟩

theorem importValid_isKnown (pd : FamilyDetails) {h : H256} (known : bc.isKnown h false = true ∨
    h = b.hash) :
    (bc.importValid run b pd).isKnown h false = true := by
  obtain ⟨td, genesis, blocks, details⟩ := bc.importValid_stored run b pd
  rw [isKnown_iff] at known ⊢
  rw [genesis, blocks, details]
  by_cases same : h = b.hash
  · right
    simp [insertBlock, same]
  · simpa [insertBlock, same] using known

theorem importBlock_isKnown {h : H256} (known : bc.isKnown h false = true) :
    (bc.importBlock run b).isKnown h false = true := by
  unfold importBlock
  split
  · exact known
  · split
    · exact known
    · exact known
    · exact importValid_isKnown _ (.inl known)

variable {C : Crypto} {decode : Bytes → Transaction} {t : SyncTurn} {q : QueuedBlock}

theorem else_of_ne {α : Type} {c : Prop} [Decidable c] {x y z : α} (h : (if c then x else y) = z)
    (other : x ≠ z) :
    ¬c ∧ y = z := by
  split at h
  · exact absurd h other
  · exact ⟨‹_›, h⟩

theorem outcome_success (h : bc.outcome C t q = .success) :
    (bc.importBlock (t.importRun C q) (q.chainBlock C decode)).isKnown (hashOf C q) false =
      true := by
  unfold outcome at h
  obtain ⟨new, h⟩ := else_of_ne h (by nofun)
  obtain ⟨orphan, h⟩ := else_of_ne h (by nofun)
  cases row : bc.details q.parentHash with
  | none =>
      rw [row] at h
      cases h
  | some pd =>
      rw [row] at h
      obtain ⟨early, h⟩ := else_of_ne h (by nofun)
      obtain ⟨wrong, h⟩ := else_of_ne h (by nofun)
      obtain ⟨endless, h⟩ := else_of_ne h (by nofun)
      have enacted : t.run.enacted = .succeeds := by
        by_contra other
        rw [if_neg other] at h
        cases thrown : t.thrown <;> rw [thrown] at h <;> cases h
      have passed : bc.checked (t.importRun C q) (q.chainBlock C decode) = some pd := by
        have checks : ¬((t.importRun C q).verified = false ∨
          2 ^ 32 - 1 ≤ (q.chainBlock C decode).number ∨
            (q.chainBlock C decode).number ≠ pd.number + 1) := by
          rintro (verified | large | number)
          · exact wrong (.inl verified)
          · exact endless large
          · exact wrong (.inr number)
        have found : bc.details (q.chainBlock C decode).parentHash = some pd := row
        unfold checked
        rw [if_neg (show ¬bc.isKnown (q.chainBlock C decode).hash true = true from new),
          if_neg (show ¬bc.isKnown (q.chainBlock C decode).parentHash false = false from orphan),
          found]
        dsimp only
        rw [if_neg (show ¬(t.importRun C q).futureTime = true from early), if_neg checks]
      have done : bc.importBlock (t.importRun C q) (q.chainBlock C decode) =
          bc.importValid (t.importRun C q) (q.chainBlock C decode) pd := by
        have enacted : (t.importRun C q).enacted = .succeeds := enacted
        rw [importBlock, passed]
        dsimp only
        rw [enacted]
      rw [done]
      exact importValid_isKnown pd (.inr rfl)

theorem outcome_alreadyHave (h : bc.outcome C t q = .alreadyHave) :
    bc.isKnown (hashOf C q) false = true := by
  by_contra unknown
  unfold outcome at h
  rw [if_neg fun known => unknown (isKnown_of_current known)] at h
  obtain ⟨-, h⟩ := else_of_ne h (by nofun)
  cases row : bc.details q.parentHash with
  | none =>
      rw [row] at h
      cases h
  | some pd =>
      rw [row] at h
      obtain ⟨-, h⟩ := else_of_ne h (by nofun)
      obtain ⟨-, h⟩ := else_of_ne h (by nofun)
      obtain ⟨-, h⟩ := else_of_ne h (by nofun)
      obtain ⟨-, h⟩ := else_of_ne h (by nofun)
      cases thrown : t.thrown <;> rw [thrown] at h <;> cases h

end ChainIndex

namespace BlockQueue

variable {C : Crypto} {s : BlockQueue} {w : World}

theorem release_bad (b : QueuedBlock) (s : BlockQueue) : s.knownBad ⊆ (s.release C b).knownBad := by
  unfold release
  split
  · exact Finset.subset_insert _ _
  · exact Finset.Subset.refl _

theorem drainFrom_bad (q : List QueuedBlock) (s : BlockQueue) :
    s.knownBad ⊆ (s.drainFrom C q).knownBad := by
  induction q generalizing s with
  | nil => exact Finset.Subset.refl _
  | cons b rest ih =>
      unfold drainFrom
      split
      · exact Finset.Subset.refl _
      · exact (release_bad b s).trans (ih _)

theorem noteReadyFrom_bad (turns : Nat) (goodQueue : List H256) (s : BlockQueue) :
    (s.noteReadyFrom turns goodQueue).knownBad = s.knownBad := by
  induction turns generalizing goodQueue s with
  | zero => rfl
  | succ turns ih =>
      cases goodQueue with
      | nil => rfl
      | cons good goodQueue => exact ih _ _

theorem retryFrom_bad (turns : Nat) (s : BlockQueue) :
    (s.retryFrom turns).knownBad = s.knownBad := by
  induction turns generalizing s with
  | zero => rfl
  | succ turns ih =>
      unfold retryFrom
      split
      · rfl
      · exact ih _

theorem importBlock_bad (w : World) (block : Bytes) (isOurs : Bool) (s : BlockQueue) :
    s.knownBad ⊆ (s.importBlock C w block isOurs).2.knownBad := by
  rcases importBlock_cases C w block isOurs s with
    e | ⟨v, -, -, -, e | ⟨-, ⟨-, e⟩ | ⟨-, -, e⟩ | ⟨-, -, e⟩⟩⟩
  · rw [e]
  · rw [e]
  · rw [e]
    have noted : s.knownBad ⊆ insert (v.info.hash C .withSeal) s.knownBad :=
      Finset.subset_insert _ _
    exact noted.trans (updateBad_shrinks (C := C) (v.info.hash C .withSeal)
      { s with knownBad := insert (v.info.hash C .withSeal) s.knownBad }).bad
  · rw [e]
  · rw [e, noteReady, noteReadyFrom_bad]

theorem importVerified_bad (w : World) (block : Bytes) (s : BlockQueue) :
    s.knownBad ⊆ (s.importVerified C w block).2.knownBad := by
  rcases importVerified_cases C w block s with e | ⟨v, -, -, -, ⟨-, e⟩ | ⟨-, -, e⟩ | ⟨-, -, e⟩⟩
  · rw [e]
  · rw [e]
    have noted : s.knownBad ⊆ insert (v.info.hash C .withSeal) s.knownBad :=
      Finset.subset_insert _ _
    exact noted.trans (updateBad_shrinks (C := C) (v.info.hash C .withSeal)
      { s with knownBad := insert (v.info.hash C .withSeal) s.knownBad }).bad
  · rw [e]
  · rw [e]
    exact drainFrom_bad _ { s with verified := s.verified ++ [⟨v, block⟩] }

theorem finished_bad (w : World) (work : UnverifiedBlock) (s : BlockQueue) :
    s.knownBad ⊆ (s.finished C w work).knownBad := by
  unfold finished
  split
  · refine Finset.Subset.trans ?_ (drainFrom_bad _ _)
    exact Finset.subset_insert _ _
  case h_2 v _ =>
    dsimp only
    split
    · exact Finset.Subset.refl _
    case h_2 next rest _ =>
      split
      · have released := release_bad (C := C) ⟨v, work.blockData⟩ { s with verifying := rest }
        exact released.trans (drainFrom_bad _ _)
      · exact Finset.Subset.refl _

end BlockQueue

namespace Running

variable {C : Crypto} {r : Running}

theorem takeWork_bad (r : Running) : r.takeWork.queue.knownBad = r.queue.knownBad := by
  unfold takeWork
  split <;> rfl

theorem doneDrain_bad (bad : List (Nat × H256)) (r : Running) :
    r.queue.knownBad ∪ (bad.map Prod.snd).toFinset ⊆ (r.doneDrain C bad).2.queue.knownBad := by
  refine updateBads_keeps (C := C) (G := .free)
    (P := fun t => r.queue.knownBad ∪ (bad.map Prod.snd).toFinset ⊆ t.queue.knownBad)
    (fun t h => ?_)
    (fun bad t h _ => h.trans (updateBad_shrinks bad _).bad) bad (r.closeDrain bad)
      (Finset.Subset.refl _)
    (updates_free bad _)
  rw [takeWork_bad]
  exact h

theorem step_bad (e : QueueEvent) (r : Running) :
    r.queue.knownBad ⊆ (r.step C e).queue.knownBad := by
  cases e with
  | importVerified w block => exact importVerified_bad w block _
  | importBlock w block isOurs => exact importBlock_bad w block isOurs _
  | tick w => exact Finset.Subset.refl _
  | importPast w =>
      change r.queue.knownBad ⊆ (r.importPast C w).queue.knownBad
      unfold importPast
      split
      · exact Finset.Subset.refl _
      · exact importBlock_bad w _ false _
  | drain max =>
      change r.queue.knownBad ⊆ (r.queue.drain C max).2.knownBad
      unfold BlockQueue.drain
      split <;> exact Finset.Subset.refl _
  | doneDrain bad => exact Finset.union_subset_left (doneDrain_bad bad r)
  | noteReady good => exact (noteReadyFrom_bad _ _ _).symm.subset
  | retryAllUnknown => exact (retryFrom_bad _ _).symm.subset
  | clear => exact Finset.Subset.refl _
  | takeWork => exact (takeWork_bad r).symm.subset
  | finishWork w i =>
      change r.queue.knownBad ⊆ (r.finishWork C w i).queue.knownBad
      unfold finishWork
      split
      · exact Finset.Subset.refl _
      · exact finished_bad w _ _

/-- The queue, a verifier or `tick` has a copy of the block. -/
def Held (C : Crypto) (r : Running) (h : H256) : Prop :=
  h ∈ r.queue.pipeline C ∨ h ∈ r.queue.unknownHashes ∨ h ∈ r.queue.future.map (fun e => e.2.1) ∨
    h ∈ r.working.map UnverifiedBlock.hash ∨ h ∈ r.past.map Prod.fst

end Running

namespace Syncing

variable (C : Crypto) (decode : Bytes → Transaction)

def Recorded (s : Syncing) (h : H256) : Prop :=
  s.index.isKnown h false = true ∨ h ∈ s.running.queue.knownBad

/-- The block is in the chain, known as bad, or still held for later. -/
def Accounted (s : Syncing) (h : H256) : Prop := s.Recorded h ∨ s.running.Held C h

def Careful (s : Syncing) : SyncEvent → Prop
  | .next t => ∀ b rest, s.left = b :: rest →
      match s.index.outcome C t b with
      | .futureTime => s.Recorded (hashOf C b)
      | .transientError => s.Recorded (hashOf C b)
      | .uncaught => (∀ x ∈ b :: rest, s.Recorded (hashOf C x)) ∧ ∀ h ∈ s.badBlocks, s.Recorded h
      | _ => True
  | _ => True

variable {C decode} {s : Syncing}

/-- Nothing drained is forgotten: what is neither recorded nor still to import is noted as bad. -/
structure Keeps (C : Crypto) (s : Syncing) : Prop where
  running : s.active = true → ∀ b ∈ s.blocks, b ∈ s.left ∨ s.Recorded (hashOf C b) ∨
    hashOf C b ∈ s.badBlocks
  idle : s.active = false → s.left = [] ∧ ∀ b ∈ s.blocks, s.Recorded (hashOf C b)

theorem Recorded.mono {s' : Syncing} {h : H256} (recorded : s.Recorded h)
    (index : s.index.isKnown h false = true → s'.index.isKnown h false = true)
    (bad : s.running.queue.knownBad ⊆ s'.running.queue.knownBad) : s'.Recorded h :=
  recorded.imp index fun noted => bad noted

theorem Keeps.mono {s' : Syncing} (keeps : s.Keeps C) (active : s'.active = s.active)
    (blocks : s'.blocks = s.blocks) (left : s'.left = s.left)
    (badBlocks : s'.badBlocks = s.badBlocks) (index : s'.index = s.index)
    (bad : s.running.queue.knownBad ⊆ s'.running.queue.knownBad) : s'.Keeps C := by
  have recorded : ∀ h, s.Recorded h → s'.Recorded h :=
    fun h done => done.mono (by rw [index]; exact id) bad
  refine ⟨fun on b hb => ?_, fun off => ?_⟩
  · rw [active] at on
    rw [blocks] at hb
    rw [left, badBlocks]
    exact (keeps.running on b hb).imp_right (Or.imp_left (recorded _))
  · rw [active] at off
    rw [left, blocks]
    exact ⟨(keeps.idle off).1, fun b hb => recorded _ ((keeps.idle off).2 b hb)⟩

theorem Keeps.queueStep (keeps : s.Keeps C) (e : QueueEvent) : (s.queueStep C e).Keeps C := by
  cases e with
  | drain max => exact keeps
  | doneDrain bad => exact keeps
  | importVerified w block =>
      exact keeps.mono rfl rfl rfl rfl rfl (Running.step_bad (C := C) (.importVerified w block) _)
  | importBlock w block isOurs =>
      exact keeps.mono rfl rfl rfl rfl rfl
        (Running.step_bad (C := C) (.importBlock w block isOurs) _)
  | tick w => exact keeps.mono rfl rfl rfl rfl rfl (Running.step_bad (C := C) (.tick w) _)
  | importPast w =>
      exact keeps.mono rfl rfl rfl rfl rfl (Running.step_bad (C := C) (.importPast w) _)
  | noteReady good =>
      exact keeps.mono rfl rfl rfl rfl rfl (Running.step_bad (C := C) (.noteReady good) _)
  | retryAllUnknown =>
      exact keeps.mono rfl rfl rfl rfl rfl (Running.step_bad (C := C) .retryAllUnknown _)
  | clear => exact keeps.mono rfl rfl rfl rfl rfl (Running.step_bad (C := C) .clear _)
  | takeWork => exact keeps.mono rfl rfl rfl rfl rfl (Running.step_bad (C := C) .takeWork _)
  | finishWork w i =>
      exact keeps.mono rfl rfl rfl rfl rfl (Running.step_bad (C := C) (.finishWork w i) _)

theorem Keeps.start (keeps : s.Keeps C) (max : Nat) : (s.start C max).Keeps C := by
  unfold Syncing.start
  split
  · exact keeps
  · exact ⟨fun _ b hb => .inl hb, nofun⟩

theorem Keeps.turn (keeps : s.Keeps C) {b : QueuedBlock} {rest : List QueuedBlock}
    (here : s.left = b :: rest) (t : SyncTurn) {bad : List H256} (more : s.badBlocks ⊆ bad)
    (done : ({ s with index :=
      s.index.importBlock (t.importRun C b) (b.chainBlock C decode) } : Syncing).Recorded
      (hashOf C b) ∨ hashOf C b ∈ bad) :
    ({ s with
      index := s.index.importBlock (t.importRun C b) (b.chainBlock C decode)
      left := rest
      badBlocks := bad } : Syncing).Keeps C := by
  have on : s.active = true := by
    by_contra off
    have empty := (keeps.idle (by simpa using off)).1
    rw [here] at empty
    cases empty
  refine ⟨fun _ x hx => ?_, fun off => ?_⟩
  · rcases keeps.running on x hx with waiting | recorded | noted
    · rw [here] at waiting
      rcases List.mem_cons.mp waiting with rfl | waiting
      · exact .inr done
      · exact .inl waiting
    · exact .inr (.inl (recorded.mono ChainIndex.importBlock_isKnown (Finset.Subset.refl _)))
    · exact .inr (.inr (more noted))
  · rw [on] at off
    cases off

theorem Keeps.next (keeps : s.Keeps C) (t : SyncTurn) (careful : s.Careful C (.next t)) :
    (s.next C decode t).Keeps C := by
  unfold Syncing.next
  split
  · exact keeps
  case h_2 b rest here =>
    have care := careful b rest here
    have stays {h : H256} (recorded : s.Recorded h) :
        ({ s with index :=
          s.index.importBlock (t.importRun C b) (b.chainBlock C decode) } : Syncing).Recorded h :=
      recorded.mono ChainIndex.importBlock_isKnown (Finset.Subset.refl _)
    dsimp only
    cases ends : s.index.outcome C t b with
    | success =>
        exact keeps.turn here t (List.Subset.refl _) (.inl (.inl (ChainIndex.outcome_success ends)))
    | alreadyHave =>
        exact keeps.turn here t (List.Subset.refl _)
          (.inl (stays (.inl (ChainIndex.outcome_alreadyHave ends))))
    | futureTime =>
        rw [ends] at care
        exact keeps.turn here t (List.Subset.refl _) (.inl (stays care))
    | transientError =>
        rw [ends] at care
        exact keeps.turn here t (List.Subset.refl _) (.inl (stays care))
    | unknownParent => exact keeps.turn here t (List.subset_append_left _ _) (.inr (by simp))
    | failed => exact keeps.turn here t (List.subset_append_left _ _) (.inr (by simp))
    | uncaught =>
        rw [ends] at care
        refine ⟨nofun, fun _ => ⟨rfl, fun x hx => stays ?_⟩⟩
        cases on : s.active with
        | false => exact (keeps.idle on).2 x hx
        | true =>
            rcases keeps.running on x hx with waiting | recorded | noted
            · exact care.1 x (here ▸ waiting)
            · exact recorded
            · exact care.2 _ noted

theorem Keeps.finish (keeps : s.Keeps C) (takes : Nat → Nat) : (s.finish C takes).Keeps C := by
  unfold Syncing.finish
  split
  case isFalse => exact keeps
  case isTrue ended =>
    rw [Bool.and_eq_true, List.isEmpty_iff] at ended
    obtain ⟨on, empty⟩ := ended
    have noted :=
      Running.doneDrain_bad (C := C) (s.badBlocks.zipIdx.map fun e => (takes e.2, e.1)) s.running
    have names : (s.badBlocks.zipIdx.map fun e => (takes e.2, e.1)).map Prod.snd = s.badBlocks := by
      rw [List.map_map]
      exact List.zipIdx_map_fst 0 s.badBlocks
    rw [names] at noted
    refine ⟨nofun, fun _ => ⟨empty, fun b hb => ?_⟩⟩
    rcases keeps.running on b hb with waiting | recorded | bad
    · rw [empty] at waiting
      cases waiting
    · exact recorded.mono id (Finset.union_subset_left noted)
    · exact .inr (noted (Finset.mem_union_right _ (List.mem_toFinset.mpr bad)))

theorem step_keeps (e : SyncEvent) (keeps : s.Keeps C) (careful : s.Careful C e) :
    (s.step C decode e).Keeps C := by
  cases e with
  | queue e => exact keeps.queueStep e
  | start max => exact keeps.start max
  | next t => exact keeps.next t careful
  | finish takes => exact keeps.finish takes

/-- After a call every drained block is in the chain, known as bad or still held. -/
theorem drained_blocks_accounted (C : Crypto) (decode : Bytes → Transaction) (index : ChainIndex)
    (events : List SyncEvent)
    (careful : ∀ entry ∈ trace (step C decode) { index } events, entry.1.Careful C entry.2) :
    let s := run (step C decode) { index } events
    s.active = false → ∀ b ∈ s.blocks, s.Accounted C (hashOf C b) := by
  intro s idle b hb
  have kept :=
    run_invariant (step C decode) (fun _ s => s.Keeps C) (fun s e => s.Careful C e) { index }
    ⟨nofun, fun _ => ⟨rfl, by nofun⟩⟩ (fun _ e keeps careful => step_keeps e keeps careful)
      events careful
  exact .inl ((kept.idle idle).2 b hb)

theorem careful_queue (e : QueueEvent) : s.Careful C (.queue e) := trivial

theorem careful_start (max : Nat) : s.Careful C (.start max) := trivial

theorem careful_finish (takes : Nat → Nat) : s.Careful C (.finish takes) := trivial

theorem careful_of_ended {t : SyncTurn}
    (ended : ∀ b ∈ s.left.head?, s.index.outcome C t b = .success ∨
    s.index.outcome C t b = .alreadyHave ∨ s.index.outcome C t b = .unknownParent ∨
      s.index.outcome C t b = .failed) : s.Careful C (.next t) := by
  intro b rest here
  rcases ended b (by rw [here]; rfl) with e | e | e | e <;> rw [e] <;> trivial

end Syncing

def anyTransaction : Bytes → Transaction := fun _ => ⟨0, 0, 0, 0⟩

def syncIndex : ChainIndex := .opened 105 0 0 1000

def syncRun : List SyncEvent :=
  let turn : SyncTurn := { chain := queueChain }
  [.queue (.importBlock queueWorld (queuedBlock 105 1) false),
    .queue (.importBlock queueWorld (queuedBlock 6 1) false), .queue .takeWork, .queue .takeWork,
    .queue (.finishWork queueWorld 0), .queue (.finishWork queueWorld 0), .start 2,
    .next turn, .next turn, .finish fun _ => 0]

def earlyRun : List SyncEvent :=
  [.queue (.importBlock queueWorld (queuedBlock 105 1) false), .queue .takeWork,
    .queue (.finishWork queueWorld 0), .start 1,
    .next { chain := queueChain, run := { futureTime := true } }, .finish fun _ => 0]

namespace Syncing

theorem drained_blocks_accounted_two :
    let s := run (step queueToy anyTransaction) { index := syncIndex } syncRun
    s.blocks.map (hashOf queueToy) = [101, 103] ∧
      ∀ b ∈ s.blocks, s.Accounted queueToy (hashOf queueToy b) := by
  have ends : (run (step queueToy anyTransaction) { index := syncIndex } syncRun).blocks.map
    (hashOf queueToy) = [101, 103] ∧
      (run (step queueToy anyTransaction) { index := syncIndex } syncRun).active = false := by
        decide +kernel
  refine ⟨ends.1, drained_blocks_accounted queueToy anyTransaction syncIndex syncRun ?_ ends.2⟩
  simp only [syncRun, trace, List.forall_mem_cons]
  refine (fun ended : _ ∧ _ => ⟨careful_queue _, careful_queue _, careful_queue _, careful_queue _,
    careful_queue _, careful_queue _, careful_start _, careful_of_ended ended.1,
    careful_of_ended ended.2, careful_finish _, List.forall_mem_nil _⟩) ?_
  decide +kernel

theorem early_block_lost :
    let s := run (step queueToy anyTransaction) { index := syncIndex } earlyRun
    s.active = false ∧ s.blocks.map (hashOf queueToy) = [101] ∧ ¬ s.Accounted queueToy 101 := by
  unfold Accounted Recorded Running.Held
  decide +kernel

end Syncing

end UtispaceChain
