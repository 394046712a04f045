import Mathlib.Algebra.BigOperators.Group.List.Basic
import UtispaceChain.Cv.BlockQueueSets

/-! The difficulty that the block queue counts, against the blocks that it holds. -/

namespace UtispaceChain

open Lib Rlp

open Classical in
/-- The difficulty in the header of the given hash, if a block has such a header. -/
noncomputable def Crypto.difficultyOf (C : Crypto) (hash : H256) : Nat :=
  if found : ∃ h, (∃ block, BlockHeader.ofBlock C block = some h) ∧ h.hash C .withSeal = hash
    then found.choose.difficulty else 0

theorem difficultyOf_hash {C : Crypto} (injective : Function.Injective C.sha3)
    (nonzero : ∀ bytes, C.sha3 bytes ≠ 0) {block : Bytes} {h : BlockHeader}
    (read : BlockHeader.ofBlock C block = some h) :
    h.difficulty = C.difficultyOf (h.hash C .withSeal) := by
  have found : ∃ g, (∃ block, BlockHeader.ofBlock C block = some g) ∧
      g.hash C .withSeal = h.hash C .withSeal :=
    ⟨h, ⟨block, read⟩, rfl⟩
  rcases found.choose_spec with ⟨⟨block', read'⟩, same⟩
  rw [Crypto.difficultyOf, dif_pos found]
  exact congrArg BlockHeader.difficulty (ofBlock_unique injective nonzero read read' same.symm)

/-- The difficulty of a hash is that of the headers that have it. -/
def World.Weighs (C : Crypto) (weight : H256 → Nat) (w : World) : Prop :=
  ∀ ⦃b ir v⦄, w.verifyBlock b ir = some v → v.info.difficulty = weight (v.info.hash C .withSeal)

theorem World.OfChain.weighs {C : Crypto} (injective : Function.Injective C.sha3)
    (nonzero : ∀ bytes, C.sha3 bytes ≠ 0) {w : World} (given : w.OfChain C) :
    w.Weighs C C.difficultyOf := by
  rcases given with ⟨chain, isKnown, utcTime, allowFutureBlocks, rfl⟩
  intro b ir v accepted
  exact difficultyOf_hash injective nonzero (chain.verifyBlock_info C _ _ _ accepted)

/-! The two counters -/

/-- The queue with `m_difficulty` and `m_drainingDifficulty`. -/
structure QueueTally where
  running : Running := {}
  difficulty : Nat := 0
  drainingDifficulty : Nat := 0

/-- `import` counts a block that it keeps. -/
def ImportResult.counts : ImportResult → Bool
  | .success => true
  | .unknownParent => true
  | .futureTimeKnown => true
  | .futureTimeUnknown => true
  | _ => false

namespace QueueTally

open BlockQueue

variable (C : Crypto) (c : QueueTally)

/-- `m_difficulty += bi.difficulty()`, for the header that `verifyBlock` returns. -/
def add (w : World) (ir : ImportRequirements) (block : Bytes) : Nat :=
  match w.verifyBlock block ir with
  | none => c.difficulty
  | some v => u256Add c.difficulty v.info.difficulty

def imported (w : World) (block : Bytes) (isOurs : Bool) : Nat :=
  if (c.running.queue.importBlock C w block isOurs).1.counts then
    c.add w { postGenesis := true } block else c.difficulty

/-- `importVerified` counts only what it puts into `m_verified`. -/
def importedVerified (w : World) (block : Bytes) : Nat :=
  if (c.running.queue.importVerified C w block).1 = .success then c.add w .outOfOrderChecks block
    else c.difficulty

/-- The difficulties of the blocks that `drain` gives out. -/
def drained (max : Nat) : Nat :=
  ((c.running.queue.drain C max).1.map fun b => b.verified.info.difficulty).foldl u256Add 0

def step : QueueEvent → QueueTally
  | .importVerified w block =>
      { c with
        running := c.running.step C (.importVerified w block)
        difficulty := c.importedVerified C w block }
  | .importBlock w block isOurs =>
      { c with
        running := c.running.step C (.importBlock w block isOurs)
        difficulty := c.imported C w block isOurs }
  | .importPast w =>
      { c with
        running := c.running.step C (.importPast w)
        difficulty := match c.running.past with
          | [] => c.difficulty
          | b :: _ => c.imported C w b.2 false }
  | .drain max =>
      { c with
        running := c.running.step C (.drain max)
        drainingDifficulty := if c.running.queue.drainingSet = ∅ then c.drained C max
          else c.drainingDifficulty }
  | .doneDrain bad =>
      ⟨c.running.step C (.doneDrain bad), u256Sub c.difficulty c.drainingDifficulty, 0⟩
  | .clear => ⟨c.running.step C .clear, 0, 0⟩
  | e => { c with running := c.running.step C e }

end QueueTally

/-! The blocks that are held -/

namespace BlockQueue

variable (C : Crypto) (weight : H256 → Nat)

/-- The difficulty of a block of `m_verifying`; while it is verified, only its hash is there. -/
def verifyingDifficulty (b : QueuedBlock) : Nat :=
  if b.blockData ≠ [] then b.verified.info.difficulty else weight b.sha3Uncles

/-- The difficulties of the blocks in `m_verified`, `m_verifying`, `m_unverified`, `m_unknown` and
`m_future`. -/
def total (s : BlockQueue) : Nat :=
  (s.verified.map fun b => b.verified.info.difficulty).sum +
    (s.verifying.map (verifyingDifficulty weight)).sum +
    (s.unverified.map fun b => weight b.hash).sum + (s.unknown.map fun e => weight e.2.1).sum +
    (s.future.map fun e => weight e.2.1).sum

/-! What a step must not meet -/

/-- No block waits for the given one, and none in the queues is bad or the child of a bad one. -/
structure Unspoiled (s : BlockQueue) (bad : H256) : Prop where
  unknown : ∀ e ∈ s.unknown, e.1 ≠ bad
  verified : ∀ b ∈ s.verified, isBadVerified C s b = false
  unverified : ∀ b ∈ s.unverified, isBadUnverified s b = false
  verifying : ∀ b ∈ s.verifying, isBadVerifying s b = false

/-- The blocks at the front that are verified have no bad parents. -/
def Releases (knownBad : Finset H256) : List QueuedBlock → Prop
  | [] => True
  | b :: rest => b.blockData = [] ∨ (b.parentHash ∉ knownBad ∧ Releases knownBad rest)

/-- A block with a bad parent takes no block out of the queues. -/
def ImportsCleanly (s : BlockQueue) (w : World) (ir : ImportRequirements) (block : Bytes)
    (isOurs : Bool) : Prop :=
  ∀ v, w.verifyBlock block ir = some v → s.knows (BlockHeader.headerHashFromBlock C block) = false →
    w.isKnown (BlockHeader.headerHashFromBlock C block) = false →
    (!w.allowFutureBlocks && decide (w.utcTime < v.info.timestamp) && !isOurs) = false →
    v.info.parentHash ∈ s.knownBad →
      Unspoiled C { s with knownBad := insert (v.info.hash C .withSeal) s.knownBad }
        (v.info.hash C .withSeal)

/-- `importVerified` finds the parent in the chain, and no child of a bad block is released by
it. -/
def Enters (s : BlockQueue) (w : World) (block : Bytes) : Prop :=
  ∀ v, w.verifyBlock block .outOfOrderChecks = some v →
  s.knows (BlockHeader.headerHashFromBlock C block) = false →
    w.isKnown (BlockHeader.headerHashFromBlock C block) = false → v.info.parentHash ∉ s.knownBad →
      w.isKnown v.info.parentHash = true ∧ Releases s.knownBad s.verifying

end BlockQueue

namespace Running

open BlockQueue

variable (C : Crypto)

/-- The steps that keep the count: no block is dropped because it or its parent is bad,
`importVerified` parks none, no time comes for a block of `m_future`, and no block fails that is in
`m_verifying`. -/
def Counts (r : Running) : QueueEvent → Prop
  | .importVerified w block =>
      r.queue.ImportsCleanly C w .outOfOrderChecks block true ∧ r.queue.Enters C w block
  | .importBlock w block isOurs => r.queue.ImportsCleanly C w { postGenesis := true } block isOurs
  | .importPast w =>
      ∀ b ∈ r.past.head?, r.queue.ImportsCleanly C w { postGenesis := true } b.2 false
  | .tick w => ∀ e ∈ r.queue.future, w.utcTime < e.1
  | .doneDrain bad => ∀ h ∈ bad.map Prod.snd, Unspoiled C (r.closeDrain bad).queue h
  | .finishWork w i => ∀ work, r.working[i]? = some work →
      match w.verifyBlock work.blockData .outOfOrderChecks with
      | none =>
          (∀ b ∈ r.queue.verifying, b.sha3Uncles ≠ work.hash) ∧
            Releases (insert work.hash r.queue.knownBad) r.queue.verifying
      | some v => ∀ next rest, r.queue.verifying = next :: rest → next.sha3Uncles = work.hash →
          v.info.parentHash ∉ r.queue.knownBad ∧ Releases r.queue.knownBad rest
  | _ => True

end Running

namespace BlockQueue

variable {C : Crypto} {weight : H256 → Nat} {F : QueueFacts} {s : BlockQueue}

/-! Nothing is taken out -/

theorem removeIf_all_kept {A : Type} (moved : A → A) {p : A → Bool} {q : List A}
    (stays : ∀ x ∈ q, p x = false) :
    removeIf moved p q = (q, []) := by
  have whole := removeIf_append moved p q [] stays (by nofun)
  rwa [List.append_nil] at whole

theorem removeByKeyEqual_none {key : Nat} {m : SizedBlockMap} (absent : ∀ e ∈ m, e.1 ≠ key) :
    m.removeByKeyEqual key = ([], m) := by
  have removed : m.filter (fun e => e.1 = key) = [] :=
    List.filter_eq_nil_iff.mpr (by simpa using absent)
  have kept : m.filter (fun e => e.1 ≠ key) = m := List.filter_eq_self.mpr (by simpa using absent)
  rw [SizedBlockMap.removeByKeyEqual, removed, kept, List.map_nil]

theorem Unspoiled.collectUnknownBad {bad : H256} (clean : s.Unspoiled C bad) :
    s.collectUnknownBad bad = s := by
  have stays : s.collectFrom s.unknown.length [] = s := by
    cases s.unknown.length <;> rfl
  rw [BlockQueue.collectUnknownBad, collectFrom, removeByKeyEqual_none clean.unknown]
  simpa using stays

theorem Unspoiled.updateBad {bad : H256} (clean : s.Unspoiled C bad) : s.updateBad C bad = s := by
  have verified : s.sweepVerified C = (false, s) := by
    rw [sweepVerified, removeIf_all_kept _ clean.verified]
    rfl
  have unverified : s.sweepUnverified = (false, s) := by
    rw [sweepUnverified, removeIf_all_kept _ clean.unverified]
    rfl
  have verifying : s.sweepVerifying C = (false, s) := by
    rw [sweepVerifying, removeIf_all_kept _ clean.verifying]
    rfl
  rw [BlockQueue.updateBad, clean.collectUnknownBad]
  simp [sweep, verified, unverified, verifying]

/-! What the operations do to the sum -/

theorem sum_parted {A : Type} (f : A → Nat) (p : A → Prop) [DecidablePred p] (m : List A) :
    ((m.filter fun x => p x).map f).sum + ((m.filter fun x => ¬ p x).map f).sum =
      (m.map f).sum := by
  induction m with
  | nil => rfl
  | cons x m ih =>
      by_cases here : p x
      · simp only [List.filter_cons, here, decide_true, not_true, decide_false, List.map_cons,
          List.sum_cons, if_true, Bool.false_eq_true, if_false]
        omega
      · simp only [List.filter_cons, here, decide_false, not_false_eq_true, decide_true,
          List.map_cons, List.sum_cons, if_true, Bool.false_eq_true, if_false]
        omega

theorem sum_inserted (key : Nat) (hash : H256) (data : Bytes) (m : SizedBlockMap) :
    ((m.insert key hash data).map fun e => weight e.2.1).sum = (m.map fun e => weight e.2.1).sum +
      weight hash := by
  have moved := ((insert_perm key hash data m).map fun e => weight e.2.1).sum_eq
  rw [moved, List.map_cons, List.sum_cons, Nat.add_comm]

theorem promote_total (parent : H256) (s : BlockQueue) :
    (s.promote parent).total weight = s.total weight := by
  have parted :=
    sum_parted (fun e : Nat × H256 × Bytes => weight e.2.1) (fun e => e.1 = parent) s.unknown
  simp only [total, promote, SizedBlockMap.removeByKeyEqual, List.map_append, List.map_map,
    List.sum_append, Function.comp_def, ne_eq] at parted ⊢
  omega

theorem noteReadyFrom_total (turns : Nat) (goodQueue : List H256) (s : BlockQueue) :
    (s.noteReadyFrom turns goodQueue).total weight = s.total weight := by
  induction turns generalizing goodQueue s with
  | zero => rfl
  | succ turns ih =>
      cases goodQueue with
      | nil => rfl
      | cons good goodQueue =>
          rw [noteReadyFrom, ih]
          exact promote_total good s

theorem retryFrom_total (turns : Nat) (s : BlockQueue) :
    (s.retryFrom turns).total weight = s.total weight := by
  induction turns generalizing s with
  | zero => rfl
  | succ turns ih =>
      rw [retryFrom]
      split
      · rfl
      case h_2 parent _ _ _ =>
        rw [ih]
        exact promote_total parent s

theorem drainFrom_total (q : List QueuedBlock) (s : BlockQueue) (clean : Releases s.knownBad q) :
    (s.drainFrom C q).total weight = ({ s with verifying := q } : BlockQueue).total weight := by
  induction q generalizing s with
  | nil => rfl
  | cons b rest ih =>
      rw [drainFrom]
      split
      · rfl
      case isFalse full =>
        rcases clean.resolve_left full with ⟨good, clean⟩
        have taken : s.release C b = { s with verified := s.verified ++ [b] } := if_neg good
        rw [taken, ih { s with verified := s.verified ++ [b] } clean]
        simp only [total, List.map_append, List.map_cons, List.map_nil, List.sum_append,
          List.sum_cons, List.sum_nil, verifyingDifficulty, ne_eq, full, not_false_eq_true, if_true]
        omega

variable (C weight s) in
theorem drainVerified_total (clean : Releases s.knownBad s.verifying) :
    (s.drainVerified C).total weight = s.total weight :=
  drainFrom_total s.verifying s clean

theorem importBlock_counts (C : Crypto) (weight : H256 → Nat) (w : World) (block : Bytes)
    (isOurs : Bool) (s : BlockQueue)
    (clean : s.ImportsCleanly C w { postGenesis := true } block isOurs) (laws : w.Lawful C F)
    (weighs : w.Weighs C weight) :
    (s.importBlock C w block isOurs).1.counts = false ∧
    (s.importBlock C w block isOurs).2.total weight = s.total weight ∨
    ∃ v, w.verifyBlock block { postGenesis := true } = some v ∧
    (s.importBlock C w block isOurs).1.counts = true ∧
      (s.importBlock C w block isOurs).2.total weight = s.total weight + v.info.difficulty := by
  unfold importBlock
  dsimp only
  split
  · exact .inl ⟨rfl, rfl⟩
  case isFalse new =>
    split
    · exact .inl ⟨rfl, rfl⟩
    case h_2 v accepted =>
      have named := laws.hash accepted
      have weighed := weighs accepted
      split
      · exact .inl ⟨rfl, rfl⟩
      case isFalse absent =>
        split
        · right
          apply Exists.intro v
          apply And.intro accepted
          split <;>
            simp only [ImportResult.counts, total, sum_inserted, weighed, named, true_and] <;> omega
        case isFalse now =>
          split
          case isTrue bad =>
            have unspoiled :=
              clean v accepted (by simpa using new) (by simpa using absent) (by simpa using now) bad
            rw [unspoiled.updateBad]
            exact .inl ⟨rfl, rfl⟩
          · right
            apply Exists.intro v
            apply And.intro accepted
            split
            · simp only [ImportResult.counts, total, sum_inserted, weighed, named, true_and]
              omega
            · rw [noteReady, noteReadyFrom_total]
              simp only [ImportResult.counts, total, weighed, named, List.map_append, List.map_cons,
                List.map_nil, List.sum_append, List.sum_cons, List.sum_nil, true_and]
              omega

theorem importVerified_counts (C : Crypto) (weight : H256 → Nat) (w : World) (block : Bytes)
    (s : BlockQueue) (clean : s.ImportsCleanly C w .outOfOrderChecks block true)
    (enters : s.Enters C w block) :
    (s.importVerified C w block).1 ≠ .success ∧ (s.importVerified C w block).2.total weight =
      s.total weight ∨
    ∃ v, w.verifyBlock block .outOfOrderChecks = some v ∧
    (s.importVerified C w block).1 = .success ∧
      (s.importVerified C w block).2.total weight = s.total weight + v.info.difficulty := by
  unfold importVerified
  dsimp only
  split
  · exact .inl ⟨nofun, rfl⟩
  case isFalse new =>
    split
    · exact .inl ⟨nofun, rfl⟩
    case h_2 v accepted =>
      split
      · exact .inl ⟨nofun, rfl⟩
      case isFalse absent =>
        have unknown : s.knows (BlockHeader.headerHashFromBlock C block) = false := by
          simpa using new
        have away : w.isKnown (BlockHeader.headerHashFromBlock C block) = false := by
          simpa using absent
        split
        case isTrue bad =>
          have unspoiled := clean v accepted unknown away (by simp) bad
          left
          apply And.intro nofun
          exact (congrArg (total weight) unspoiled.updateBad).trans rfl
        case isFalse good =>
          rcases enters v accepted unknown away good with ⟨found, releases⟩
          split
          case isTrue lost =>
            rw [QueuedBlock.parentHash, found] at lost
            cases lost
          · split
            · exact .inl ⟨nofun, rfl⟩
            · right
              apply Exists.intro v
              apply And.intro accepted
              apply And.intro rfl
              have drained :=
                drainVerified_total C weight { s with verified := s.verified ++
                  [⟨v, block⟩] } releases
              rw [drained]
              simp only [total, List.map_append, List.map_cons, List.map_nil, List.sum_append,
                List.sum_cons, List.sum_nil]
              omega

theorem finished_total {w : World} (laws : w.Lawful C F) (weighs : w.Weighs C weight)
    (hf : s.Formed C F) {work : UnverifiedBlock}
    (genuine : Genuine C F work.hash work.parentHash work.blockData)
    (clean : match w.verifyBlock work.blockData .outOfOrderChecks with
      | none => (∀ b ∈ s.verifying, b.sha3Uncles ≠ work.hash) ∧
        Releases (insert work.hash s.knownBad) s.verifying
      | some v => ∀ next rest, s.verifying = next :: rest → next.sha3Uncles = work.hash →
          v.info.parentHash ∉ s.knownBad ∧ Releases s.knownBad rest) :
    (s.finished C w work).total weight = s.total weight := by
  unfold finished
  cases outcome : w.verifyBlock work.blockData .outOfOrderChecks with
  | none =>
    rw [outcome] at clean
    rcases clean with ⟨away, releases⟩
    have kept : (s.verifying.filter fun b => b.sha3Uncles ≠ work.hash) = s.verifying :=
      List.filter_eq_self.mpr (by simpa using away)
    dsimp only
    rw [kept]
    exact drainVerified_total C weight { s with
      readySet := s.readySet.erase work.hash
      knownBad := insert work.hash s.knownBad } releases
  | some v =>
    rw [outcome] at clean
    have weighed : v.info.difficulty = weight work.hash := by
      rw [weighs outcome, laws.hash outcome, genuine.named]
    dsimp only
    split
    · rfl
    case h_2 next rest here =>
      split
      case isTrue first =>
        rcases clean next rest here first with ⟨good, releases⟩
        have waiting : next.blockData = [] :=
          hf.empty_of_hash (here ▸ List.mem_cons_self) first genuine.header
        have taken : ({ s with verifying := rest } : BlockQueue).release C ⟨v, work.blockData⟩ =
            { s with verifying := rest, verified := s.verified ++ [⟨v, work.blockData⟩] } :=
              if_neg good
        rw [taken, drainVerified_total _ _ _ releases]
        simp only [total, here, List.map_append, List.map_cons, List.map_nil, List.sum_append,
          List.sum_cons, List.sum_nil, verifyingDifficulty, waiting, first, weighed, ne_eq,
          not_true, if_false]
        omega
      case isFalse =>
        have done : verifyingDifficulty weight ⟨v, work.blockData⟩ = weight work.hash :=
          (if_pos genuine.full).trans weighed
        have unchanged := replace_map work.hash done (next :: rest) fun b hb same => by
          rw [verifyingDifficulty, hf.empty_of_hash (here ▸ hb) same genuine.header, same]
          rfl
        simp only [total, here, unchanged]

variable (C weight) in
theorem drain_total (empty : s.drainingSet = ∅) (max : Nat) :
    (s.drain C max).2.total weight + ((s.drain C max).1.map fun b => b.verified.info.difficulty).sum
      = s.total weight := by
  have parted : ((s.verified.take max).map fun b => b.verified.info.difficulty).sum +
      ((s.verified.drop max).map fun b => b.verified.info.difficulty).sum =
      (s.verified.map fun b => b.verified.info.difficulty).sum := by
    rw [← List.sum_append, ← List.map_append, List.take_append_drop]
  rw [drain, if_pos empty]
  simp only [total]
  omega

end BlockQueue

namespace Running

open BlockQueue

variable {C : Crypto} {weight : H256 → Nat} {F : QueueFacts} {r : Running} {w : World}

theorem takeWork_total (r : Running) : r.takeWork.queue.total weight = r.queue.total weight := by
  unfold takeWork
  split
  · rfl
  case h_2 work rest here =>
    have taken : verifyingDifficulty weight (.placeholder work) = weight work.hash := rfl
    simp only [total, here, List.map_append, List.map_cons, List.map_nil, List.sum_append,
      List.sum_cons, List.sum_nil, taken]
    omega

theorem takeWork_unspoiled {bad : H256} (clean : r.queue.Unspoiled C bad) :
    r.takeWork.queue.Unspoiled C bad := by
  unfold takeWork
  split
  · exact clean
  case h_2 work rest here =>
    have first := clean.unverified work (here ▸ List.mem_cons_self)
    refine ⟨clean.unknown, clean.verified, fun b hb => ?_, fun b hb => ?_⟩
    · exact clean.unverified b (here ▸ List.mem_cons_of_mem _ hb)
    · rcases List.mem_append.mp hb with hb | hb
      · exact clean.verifying b hb
      · rw [List.mem_singleton.mp hb]
        exact first

theorem updateBads_total (bad : List (Nat × H256)) (r : Running)
    (clean : ∀ h ∈ bad.map Prod.snd, r.queue.Unspoiled C h) :
    (updateBads C bad r).queue.total weight = r.queue.total weight := by
  induction bad generalizing r with
  | nil => rfl
  | cons b bad ih =>
      have taken := takeWorks_keeps (P := fun t => t.queue.total weight = r.queue.total weight ∧
        ∀ h ∈ (b :: bad).map Prod.snd, t.queue.Unspoiled C h)
        (fun t h => ⟨(takeWork_total t).trans h.1, fun x hx => takeWork_unspoiled (h.2 x hx)⟩) b.1 r
          ⟨rfl, clean⟩
      rcases taken with ⟨same, clean⟩
      rw [updateBads, (clean b.2 List.mem_cons_self).updateBad,
        ih _ fun x hx => clean x (List.mem_cons_of_mem _ hx)]
      exact same

end Running

open BlockQueue

namespace QueueTally

variable {C : Crypto} {weight : H256 → Nat} {F : QueueFacts} {c : QueueTally} {w : World}

theorem foldl_u256Add (difficulties : List Nat) (start : Nat) (bound : start < 2 ^ 256) :
    difficulties.foldl u256Add start = (start + difficulties.sum) % 2 ^ 256 := by
  induction difficulties generalizing start with
  | nil => simpa using (Nat.mod_eq_of_lt bound).symm
  | cons d difficulties ih =>
      have next : u256Add start d < 2 ^ 256 := Nat.mod_lt _ (by norm_num)
      rw [List.foldl_cons, ih _ next, List.sum_cons, u256Add]
      omega

/-- The counter is that of the blocks that are held and those that are drained. -/
structure Exact (C : Crypto) (F : QueueFacts) (weight : H256 → Nat) (c : QueueTally) : Prop where
  formed : c.running.Formed C F
  exact : c.difficulty = (c.running.queue.total weight + c.drainingDifficulty) % 2 ^ 256
  bound : c.drainingDifficulty < 2 ^ 256
  closed : c.running.queue.drainingSet = ∅ → c.drainingDifficulty = 0

theorem Exact.of_total (exact : c.Exact C F weight) {r : Running} (formed : r.Formed C F)
    (same : r.queue.total weight = c.running.queue.total weight)
    (draining : r.queue.drainingSet = c.running.queue.drainingSet) :
    ({ c with running := r } : QueueTally).Exact C F weight where
  formed := formed
  exact := by
    rw [same]
    exact exact.exact
  bound := exact.bound
  closed empty := exact.closed (draining.symm.trans empty)

theorem Exact.of_added (exact : c.Exact C F weight) {r : Running} (formed : r.Formed C F)
    (difficulty : Nat) (more : r.queue.total weight = c.running.queue.total weight + difficulty)
    (draining : r.queue.drainingSet = c.running.queue.drainingSet) :
    ({ c with running := r, difficulty := u256Add c.difficulty difficulty } : QueueTally).Exact C F
      weight where
  formed := formed
  exact := by
    have before := exact.exact
    dsimp only
    rw [u256Add, more, before]
    omega
  bound := exact.bound
  closed empty := exact.closed (draining.symm.trans empty)

theorem Exact.imported (exact : c.Exact C F weight) (laws : w.Lawful C F)
    (weighs : w.Weighs C weight) (block : Bytes) (isOurs : Bool)
    (clean : c.running.queue.ImportsCleanly C w { postGenesis := true } block isOurs) {r : Running}
    (formed : r.Formed C F) (queue : r.queue = (c.running.queue.importBlock C w block isOurs).2) :
    ({ c with running := r, difficulty := c.imported C w block isOurs } : QueueTally).Exact C F
      weight := by
  have draining : r.queue.drainingSet = c.running.queue.drainingSet := by
    rw [queue]
    exact importBlock_draining w block isOurs c.running.queue
  rcases importBlock_counts C weight w block isOurs c.running.queue clean laws weighs with
    ⟨uncounted, same⟩ | ⟨v, accepted, counted, more⟩
  · have unchanged : c.imported C w block isOurs = c.difficulty := by
      rw [QueueTally.imported, uncounted]
      rfl
    rw [unchanged]
    exact exact.of_total formed (queue ▸ same) draining
  · have added : c.imported C w block isOurs = u256Add c.difficulty v.info.difficulty := by
      rw [QueueTally.imported, counted, add, accepted]
      rfl
    rw [added]
    exact exact.of_added formed _ (queue ▸ more) draining

theorem Exact.importedVerified (exact : c.Exact C F weight) (block : Bytes)
    (clean : c.running.queue.ImportsCleanly C w .outOfOrderChecks block true)
    (enters : c.running.queue.Enters C w block) {r : Running} (formed : r.Formed C F)
    (queue : r.queue = (c.running.queue.importVerified C w block).2) :
    ({ c with running := r, difficulty := c.importedVerified C w block } : QueueTally).Exact C F
      weight := by
  have draining : r.queue.drainingSet = c.running.queue.drainingSet := by
    rw [queue]
    exact importVerified_draining w block c.running.queue
  rcases importVerified_counts C weight w block c.running.queue clean enters with
    ⟨refused, same⟩ | ⟨v, accepted, taken, more⟩
  · rw [QueueTally.importedVerified, if_neg refused]
    exact exact.of_total formed (queue ▸ same) draining
  · have added : c.importedVerified C w block = u256Add c.difficulty v.info.difficulty := by
      rw [QueueTally.importedVerified, if_pos taken, add, accepted]
    rw [added]
    exact exact.of_added formed _ (queue ▸ more) draining

theorem Exact.drain (exact : c.Exact C F weight) (max : Nat) :
    (c.step C (.drain max)).Exact C F weight := by
  have formed : (c.step C (.drain max)).running.Formed C F :=
    ⟨drain_formed exact.formed.queue max, exact.formed.working⟩
  by_cases empty : c.running.queue.drainingSet = ∅
  · have out := drain_total C weight empty max
    have given : (c.step C (.drain max)).drainingDifficulty =
        ((c.running.queue.drain C max).1.map fun b => b.verified.info.difficulty).sum %
          2 ^ 256 := by
      change (if c.running.queue.drainingSet = ∅ then c.drained C max else c.drainingDifficulty) = _
      rw [if_pos empty, drained, foldl_u256Add _ _ (by norm_num), Nat.zero_add]
    have before := exact.exact
    rw [exact.closed empty, Nat.add_zero] at before
    refine ⟨formed, ?_, ?_, fun none => ?_⟩
    · rw [given]
      change c.difficulty = ((c.running.queue.drain C max).2.total weight + _) % _
      rw [before, ← out]
      omega
    · rw [given]
      exact Nat.mod_lt _ (by norm_num)
    · have nothing : (c.running.queue.drain C max).1 = [] := by
        change (c.running.queue.drain C max).2.drainingSet = ∅ at none
        rw [BlockQueue.drain, if_pos empty] at none ⊢
        simpa [empty] using none
      rw [given, nothing]
      rfl
  · have same : c.step C (.drain max) = c := by
      have closed : c.running.queue.drain C max = ([], c.running.queue) := if_neg empty
      change (⟨{ c.running with queue := (c.running.queue.drain C max).2 }, c.difficulty,
        if c.running.queue.drainingSet = ∅ then c.drained C max
          else c.drainingDifficulty⟩ : QueueTally) = c
      rw [closed, if_neg empty]
    rw [same]
    exact exact

theorem Exact.doneDrain (exact : c.Exact C F weight) (bad : List (Nat × H256))
    (clean : c.running.Counts C (.doneDrain bad)) :
    (c.step C (.doneDrain bad)).Exact C F weight := by
  have formed : (c.running.doneDrain C bad).2.Formed C F :=
    Running.updateBads_formed bad (r := c.running.closeDrain bad)
      ⟨exact.formed.queue.of_queues rfl rfl rfl rfl, exact.formed.working⟩
  have same : (c.running.doneDrain C bad).2.queue.total weight = c.running.queue.total weight :=
    (Running.updateBads_total bad (c.running.closeDrain bad) clean).trans rfl
  refine ⟨formed, ?_, by norm_num [QueueTally.step], fun _ => rfl⟩
  have before := exact.exact
  have bound := exact.bound
  change u256Sub c.difficulty c.drainingDifficulty =
    ((c.running.doneDrain C bad).2.queue.total weight + 0) % _
  rw [same, u256Sub, before]
  split <;> omega

theorem Exact.step (e : QueueEvent) (laws : e.Given (World.Lawful C F))
    (weighs : e.Given (World.Weighs C weight)) (exact : c.Exact C F weight)
    (counts : c.running.Counts C e) : (c.step C e).Exact C F weight := by
  have formed := Running.step_formed e laws exact.formed
  cases e with
  | importVerified w block => exact exact.importedVerified block counts.1 counts.2 formed rfl
  | importBlock w block isOurs => exact exact.imported laws weighs block isOurs counts formed rfl
  | tick w =>
      have undue : ∀ e ∈ c.running.queue.future, w.utcTime < e.1 := counts
      have kept : c.running.tick w = c.running := by
        have later : c.running.queue.future.filter (fun e => ¬ e.1 ≤ w.utcTime) =
            c.running.queue.future :=
          List.filter_eq_self.mpr fun e he => by simpa using undue e he
        have none : c.running.queue.future.filter (fun e => e.1 ≤ w.utcTime) = [] :=
          List.filter_eq_nil_iff.mpr fun e he => by simpa using undue e he
        rw [Running.tick, SizedBlockMap.removeByKeyNotGreater, later, none]
        simp
      exact exact.of_total formed (congrArg (fun r : Running => r.queue.total weight) kept)
        (congrArg (fun r : Running => r.queue.drainingSet) kept)
  | importPast w =>
      cases past : c.running.past with
      | nil =>
          have kept : c.running.importPast C w = c.running := by rw [Running.importPast, past]
          have same : c.step C (.importPast w) =
              { c with running := c.running.importPast C w } := by
            change (⟨c.running.importPast C w, match c.running.past with
              | [] => c.difficulty
              | b :: _ => c.imported C w b.2 false, c.drainingDifficulty⟩ : QueueTally) = _
            rw [past]
          rw [same, kept]
          exact exact
      | cons b rest =>
          have queue : (c.running.importPast C w).queue =
              (c.running.queue.importBlock C w b.2 false).2 := by
            rw [Running.importPast, past]
          have same : c.step C (.importPast w) =
              { c with running := c.running.importPast C w, difficulty :=
                c.imported C w b.2 false } := by
            change (⟨c.running.importPast C w, match c.running.past with
              | [] => c.difficulty
              | b :: _ => c.imported C w b.2 false, c.drainingDifficulty⟩ : QueueTally) = _
            rw [past]
          rw [same]
          exact exact.imported laws weighs b.2 false (counts b (by simp [past])) formed queue
  | drain max => exact exact.drain max
  | doneDrain bad => exact exact.doneDrain bad counts
  | noteReady good =>
      exact exact.of_total formed (noteReadyFrom_total _ _ _) (noteReadyFrom_draining _ _ _)
  | retryAllUnknown => exact exact.of_total formed (retryFrom_total _ _) (retryFrom_draining _ _)
  | clear => exact ⟨formed, rfl, by norm_num [QueueTally.step], fun _ => rfl⟩
  | takeWork =>
      apply exact.of_total formed (Running.takeWork_total c.running)
      change c.running.takeWork.queue.drainingSet = _
      unfold Running.takeWork
      split <;> rfl
  | finishWork w i =>
      cases working : c.running.working[i]? with
      | none =>
          have kept : c.running.finishWork C w i = c.running := by rw [Running.finishWork, working]
          exact exact.of_total formed (congrArg (fun r : Running => r.queue.total weight) kept)
            (congrArg (fun r : Running => r.queue.drainingSet) kept)
      | some work =>
          have queue : (c.running.finishWork C w i).queue = c.running.queue.finished C w work := by
            rw [Running.finishWork, working]
          have genuine := exact.formed.working work (List.mem_of_getElem? working)
          have same := finished_total laws weighs exact.formed.queue genuine (counts work working)
          exact exact.of_total formed (queue ▸ same)
            (queue ▸ finished_draining w work c.running.queue)

theorem initial_exact : ({} : QueueTally).Exact C F weight :=
  ⟨Running.initial_formed, rfl, by norm_num, fun _ => rfl⟩

/-- In a run of such steps `m_difficulty` is the sum of the difficulties of the blocks that are held
and of the drained ones, as a `u256`; and where that sum fits, `doneDrain` does not take off more
than there is. -/
theorem queue_difficulty_exact (C : Crypto) (injective : Function.Injective C.sha3)
    (nonzero : ∀ bytes, C.sha3 bytes ≠ 0) (events : List QueueEvent)
    (given : ∀ e ∈ events, e.Given (World.OfChain C))
    (counts : ∀ entry ∈ trace (step C) {} events, entry.1.running.Counts C entry.2) :
    let c := run (step C) {} events
    let held := c.running.queue.total C.difficultyOf
    c.difficulty = (held + c.drainingDifficulty) % 2 ^ 256 ∧
      (held + c.drainingDifficulty < 2 ^ 256 →
        c.difficulty = held + c.drainingDifficulty ∧ c.drainingDifficulty ≤ c.difficulty) := by
  intro c held
  have kept := run_invariant (step C) (fun _ c => c.Exact C C.facts C.difficultyOf)
    (fun c e => e.Given (World.OfChain C) ∧ c.running.Counts C e) {} initial_exact
    (fun events e exact admitted => by
      have laws := admitted.1.imp fun w given => given.lawful injective nonzero
      have weighs := admitted.1.imp fun w given => given.weighs injective nonzero
      exact exact.step e laws weighs admitted.2)
    events fun entry member => ⟨given _ (trace_input _ _ _ entry member), counts entry member⟩
  have exact : c.difficulty = (held + c.drainingDifficulty) % 2 ^ 256 := kept.exact
  apply And.intro exact
  intro fits
  rw [Nat.mod_eq_of_lt fits] at exact
  exact ⟨exact, exact ▸ Nat.le_add_left _ _⟩

end QueueTally

def weightyHeader (timestamp : Nat) : BlockHeader :=
  { queuedHeader 105 1 with difficulty := 5, timestamp }

def weightyBlock (timestamp : Nat) : Bytes :=
  appendList ((weightyHeader timestamp).streamRLP .withSeal :: [[0xc0], [0xc0]]).flatten

namespace QueueTally

theorem releases_of_clean (q : List QueuedBlock) : BlockQueue.Releases ∅ q := by
  induction q with
  | nil => trivial
  | cons b rest ih => exact .inr ⟨Finset.notMem_empty _, ih⟩

theorem importsCleanly_of_clean {s : BlockQueue} {w : World} {ir : ImportRequirements}
    {block : Bytes} {isOurs : Bool} (clean : s.knownBad = ∅) :
    s.ImportsCleanly C w ir block isOurs := by
  intro v _ _ _ _ bad
  rw [clean] at bad
  exact absurd bad (Finset.notMem_empty _)

theorem counts_of_accepted {r : Running} {w : World} {i : Nat} (clean : r.queue.knownBad = ∅)
    (accepted : ∀ work ∈ r.working[i]?, (w.verifyBlock work.blockData .outOfOrderChecks).isSome =
      true) :
    r.Counts C (.finishWork w i) := by
  intro work here
  have some := accepted work here
  split
  case h_1 failed =>
    rw [failed] at some
    cases some
  case h_2 =>
    rw [clean]
    intro _ rest _ _
    exact ⟨Finset.notMem_empty _, releases_of_clean rest⟩

def steadyRun : List QueueEvent :=
  [.importBlock queueWorld (weightyBlock 2) false, .takeWork, .finishWork queueWorld 0, .drain 1,
    .importBlock queueWorld (weightyBlock 1) false, .doneDrain [(1, 101)]]

theorem queue_difficulty_exact_steady :
    let c := run (step queueToy) {} steadyRun
    let held := c.running.queue.total queueToy.difficultyOf
    c.difficulty = 5 ∧ c.difficulty = (held + c.drainingDifficulty) % 2 ^ 256 ∧
      (held + c.drainingDifficulty < 2 ^ 256 →
        c.difficulty = held + c.drainingDifficulty ∧ c.drainingDifficulty ≤ c.difficulty) := by
  refine ⟨by decide +kernel, ?_⟩
  apply queue_difficulty_exact queueToy queueToy_sha3_injective queueToy_sha3_ne_zero steadyRun
  · simp [steadyRun, QueueEvent.Given, queueWorld_ofChain]
  · simp only [steadyRun, trace, List.forall_mem_cons]
    have parts (s : BlockQueue) (clean : (∀ e ∈ s.unknown, e.1 ≠ 101) ∧
      (∀ b ∈ s.verified, s.isBadVerified queueToy b = false) ∧
        (∀ b ∈ s.unverified, s.isBadUnverified b = false) ∧
          ∀ b ∈ s.verifying, s.isBadVerifying b = false) :
        ∀ h ∈ [(1, 101)].map Prod.snd, s.Unspoiled queueToy h := by
      rintro h member
      obtain rfl : h = 101 := by simpa using member
      exact ⟨clean.1, clean.2.1, clean.2.2.1, clean.2.2.2⟩
    -- the run is evaluated once for all that is asked of it
    refine (fun clean : _ ∧ _ ∧ _ ∧ _ => ⟨importsCleanly_of_clean rfl, trivial,
      counts_of_accepted clean.1 clean.2.1, trivial, importsCleanly_of_clean clean.2.2.1,
        parts _ clean.2.2.2, List.forall_mem_nil _⟩) ?_
    decide +kernel

def laterWorld : World :=
  queueChain.world queueToy (fun h => decide (h = 6 ∨ h = 7 ∨ h = 105)) 12 false

theorem laterWorld_ofChain : laterWorld.OfChain queueToy := ⟨_, _, _, _, rfl⟩

def futureRun : List QueueEvent :=
  [.importBlock queueWorld (weightyBlock 10) false, .tick laterWorld, .importPast laterWorld]

/-- `tick` takes a block out of `m_future` and imports it; its difficulty is counted a second
time. -/
theorem future_block_counted_twice :
    (∀ e ∈ futureRun, e.Given (World.OfChain queueToy)) ∧
      let c := run (step queueToy) {} futureRun
      c.running.queue.total queueToy.difficultyOf = 5 ∧ c.drainingDifficulty = 0 ∧
        c.difficulty = 10 := by
  constructor
  · simp [futureRun, QueueEvent.Given, queueWorld_ofChain, laterWorld_ofChain]
  · intro c
    have ends : c.running.queue.unverified.map (fun b => b.hash) =
      [queueToy.sha3 ((weightyHeader 10).streamRLP .withSeal)] ∧
        c.running.queue.verified.length = 0 ∧ c.running.queue.verifying.length = 0 ∧
        c.running.queue.unknown = [] ∧
          c.running.queue.future = [] ∧ c.drainingDifficulty = 0 ∧ c.difficulty = 10 := by
      decide +kernel
    rcases ends with ⟨queued, verified, verifying, unknown, future, drained, difficulty⟩
    refine ⟨?_, drained, difficulty⟩
    have read : (BlockHeader.ofBlock queueToy (weightyBlock 10)).map
      (fun h => (h.difficulty, h.hash queueToy .withSeal)) =
        some (5, queueToy.sha3 ((weightyHeader 10).streamRLP .withSeal)) := by
      decide +kernel
    rcases Option.map_eq_some_iff.mp read with ⟨h, read, named⟩
    rcases Prod.mk.inj named with ⟨weight, hash⟩
    have weighed := difficultyOf_hash queueToy_sha3_injective queueToy_sha3_ne_zero read
    have held : (c.running.queue.unverified.map fun b => queueToy.difficultyOf b.hash) = [5] := by
      calc
        _ = (c.running.queue.unverified.map fun b => b.hash).map queueToy.difficultyOf := by simp
        _ = [5] := by rw [queued, ← hash, List.map_cons, ← weighed, weight, List.map_nil]
    rw [total, List.length_eq_zero_iff.mp verified, List.length_eq_zero_iff.mp verifying, held,
      unknown, future]
    rfl

end QueueTally

end UtispaceChain
