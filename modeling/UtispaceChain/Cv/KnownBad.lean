import UtispaceChain.Cv.Sync

/-! What it takes for a hash to be known as bad: whether the block of a hash can be imported at all,
and what the failure of one copy says of the others. -/

namespace UtispaceChain

open Lib Rlp BlockQueue

/-- What decides on a block besides its bytes: the trie root over a list, the checks of one
transaction, whether a block executes to its header, and the genesis block. -/
structure Rules where
  trieRootOver : List Bytes → H256
  checkTransaction : Bool → Bytes → Bool
  executes : H256 → Prop
  genesis : H256

def ImportRequirements.importChecks : ImportRequirements :=
  { inOrderChecks with checkMinerSignatures := true }

namespace Rules

variable (C : Crypto) (R : Rules)

/-- A chain with these rules; its headers are stored under their hashes. -/
structure Governs (chain : BlockChain) : Prop where
  trieRootOver : chain.trieRootOver = R.trieRootOver
  checkTransaction : chain.checkTransaction = R.checkTransaction
  headers : ∀ p, chain.headerData p ≠ [] → C.sha3 (chain.headerData p) = p

/-- Some encoding of the block passes every check on some chain, and the block executes. -/
def Valid (h : H256) : Prop :=
  ∃ chain block, R.Governs C chain ∧ BlockHeader.headerHashFromBlock C block = h ∧
    (chain.verifyBlock C block .outOfOrderChecks).isSome = true ∧
    (chain.verifyBlock C block .importChecks).isSome = true ∧ R.executes h

inductive Importable : H256 → Prop
  | genesis : Importable R.genesis
  | child {h : H256} : R.Valid C h → Importable (C.parentOf h) → Importable h

/-- The body of the block is the one its header commits to. -/
def whole : Set Bytes :=
  { block | ∃ h, BlockHeader.ofBlock C block = some h ∧ h.verifyBody C R.trieRootOver block = true }

/-- The uncles of the block have their parents in the chain. -/
def UnclesPlaced (chain : BlockChain) (block : Bytes) : Prop :=
  ∀ uncles, (item block 2).bind items = some uncles → ∀ uncle ∈ uncles, ∀ g,
    BlockHeader.ofHeaderData C uncle 0 = some g → chain.headerData g.parentHash ≠ []

end Rules

section Copies

variable {C : Crypto} {R : Rules} {chain chain' : BlockChain} {block block' : Bytes}
    {h : BlockHeader}

theorem verifyBody_parts (body : h.verifyBody C R.trieRootOver block = true) :
    ∃ transactions uncles, (item block 1).bind items = some transactions ∧
    item block 2 = some uncles ∧
      h.transactionsRoot = R.trieRootOver transactions ∧ h.sha3Uncles = C.sha3 uncles := by
  unfold BlockHeader.verifyBody at body
  split at body
  case h_1 transactions uncles first second =>
    rw [Bool.and_eq_true, decide_eq_true_eq, decide_eq_true_eq] at body
    exact ⟨transactions, uncles, first, second, body.1, body.2⟩
  case h_2 => cases body

theorem verifyBody_unique (injective : Function.Injective C.sha3)
    (roots : Function.Injective R.trieRootOver) (body : h.verifyBody C R.trieRootOver block = true)
    (body' : h.verifyBody C R.trieRootOver block' = true) :
    (item block 1).bind items = (item block' 1).bind items ∧ item block 2 = item block' 2 := by
  obtain ⟨transactions, uncles, first, second, root, list⟩ := verifyBody_parts body
  obtain ⟨transactions', uncles', first', second', root', list'⟩ := verifyBody_parts body'
  have same : transactions = transactions' := roots (root.symm.trans root')
  have alike : uncles = uncles' := injective (list.symm.trans list')
  exact ⟨by rw [first, first', same], by rw [second, second', alike]⟩

theorem Rules.Governs.headerData_eq (injective : Function.Injective C.sha3)
    (left : R.Governs C chain) (right : R.Governs C chain') {p : H256}
    (here : chain.headerData p ≠ []) (there : chain'.headerData p ≠ []) :
    chain.headerData p = chain'.headerData p :=
  injective ((left.headers p here).trans (right.headers p there).symm)

theorem parentOf_transfer (injective : Function.Injective C.sha3) (left : R.Governs C chain)
    (right : R.Governs C chain') {wanted : Bool} {parent : BlockHeader}
    (found : chain'.parentOf C wanted h = some parent)
    (stored : wanted = true → chain.headerData h.parentHash ≠ []) :
    chain.parentOf C wanted h = some parent := by
  unfold BlockChain.parentOf at found ⊢
  cases wanted with
  | false => exact found
  | true =>
      simp only [if_true] at found ⊢
      obtain ⟨there, found⟩ := Option.ite_none_left_eq_some.mp found
      rw [if_neg (stored rfl), left.headerData_eq injective right (stored rfl) there]
      exact found

theorem verifyUncle_transfer (injective : Function.Injective C.sha3) (left : R.Governs C chain)
    (right : R.Governs C chain') {ir : ImportRequirements} {uncle : Bytes}
    (checked : chain'.verifyUncle C ir uncle = true)
    (stored : ir.uncleParent = true → ∀ g, BlockHeader.ofHeaderData C uncle 0 = some g →
      chain.headerData g.parentHash ≠ []) : chain.verifyUncle C ir uncle = true := by
  unfold BlockChain.verifyUncle at checked ⊢
  cases parsed : BlockHeader.ofHeaderData C uncle 0 with
  | none => simp [parsed] at checked
  | some g =>
      rw [parsed] at checked
      dsimp only at checked ⊢
      cases found : chain'.parentOf C ir.uncleParent g with
      | none => simp [found] at checked
      | some parent =>
          rw [found] at checked
          rw [parentOf_transfer injective left right found fun asked => stored asked g parsed,
            left.trieRootOver]
          rw [right.trieRootOver] at checked
          exact checked

/-- What one copy passes, another whole copy of the same hash passes too, on any chain that has the
parents it is asked for, and with signatures of its own. -/
theorem verifyBlock_transfer (injective : Function.Injective C.sha3)
    (nonzero : ∀ bytes, C.sha3 bytes ≠ 0) (roots : Function.Injective R.trieRootOver)
    (left : R.Governs C chain) (right : R.Governs C chain') {ir : ImportRequirements}
    (later : ir.postGenesis = false) (fits : block ∈ R.whole C)
    (same : BlockHeader.headerHashFromBlock C block' = BlockHeader.headerHashFromBlock C block)
    (accepted : (chain'.verifyBlock C block' ir).isSome = true)
    (parents : ir.parent = true → ∀ h, BlockHeader.ofBlock C block = some h →
      chain.headerData h.parentHash ≠ [])
    (placed : ir.uncleParent = true → Rules.UnclesPlaced C chain block)
    (signed : ir.checkMinerSignatures = true → ∀ h, BlockHeader.ofBlock C block = some h →
      chain.verifySigns ir h block = true) :
    (chain.verifyBlock C block ir).isSome = true := by
  obtain ⟨v, accepted⟩ := Option.isSome_iff_exists.mp accepted
  obtain ⟨h, read, body⟩ := fits
  obtain ⟨h', read', rest⟩ := Option.bind_eq_some_iff.mp accepted
  obtain rfl : h' = h := ofBlock_unique injective nonzero read' read
    ((ofBlock_hash nonzero read').trans (same.trans (ofBlock_hash nonzero read).symm))
  obtain ⟨-, rest⟩ := Option.ite_none_left_eq_some.mp rest
  obtain ⟨parent, found, rest⟩ := Option.bind_eq_some_iff.mp rest
  obtain ⟨valid, rest⟩ := Option.ite_none_left_eq_some.mp rest
  obtain ⟨uncles, rest⟩ := Option.ite_none_left_eq_some.mp rest
  obtain ⟨transactions, checked, -⟩ := Option.bind_eq_some_iff.mp rest
  rw [right.trieRootOver, Bool.not_eq_false] at valid
  have body' : h'.verifyBody C R.trieRootOver block' = true := by
    simp only [BlockHeader.verify, Bool.and_eq_true] at valid
    exact valid.2
  obtain ⟨first, second⟩ := verifyBody_unique injective roots body body'
  have valid' : h'.verify C chain.trieRootOver (if ir.validSeal then .checkEverything
    else .quickNonce) parent
      (some block) = true := by
    rw [left.trieRootOver]
    simp only [BlockHeader.verify, Bool.and_eq_true] at valid ⊢
    exact ⟨valid.1, body⟩
  have uncles' : chain.verifyUncles C ir block = true := by
    rw [Bool.not_eq_false] at uncles
    unfold BlockChain.verifyUncles at uncles ⊢
    split at uncles
    case isFalse idle => rw [if_neg idle]
    case isTrue asked =>
      rw [if_pos asked]
      rw [← second] at uncles
      cases list : (item block 2).bind items with
      | none => simp [list] at uncles
      | some l =>
          rw [list] at uncles
          simp only [List.all_eq_true] at uncles ⊢
          exact fun uncle member => verifyUncle_transfer injective left right (uncles uncle member)
            fun asked g parsed => placed asked l list uncle member g parsed
  have checked' : chain.verifyTransactions ir block = some transactions := by
    unfold BlockChain.verifyTransactions at checked ⊢
    rw [first, left.checkTransaction]
    rw [right.checkTransaction] at checked
    exact checked
  have signed' : chain.verifySigns ir h' block = true := by
    cases asked : ir.checkMinerSignatures with
    | false => simp [BlockChain.verifySigns, asked]
    | true => exact signed asked h' read
  rw [chain.verifyBlock_intro C block ir h' parent transactions read later
    (parentOf_transfer injective left right found fun asked => parents asked h' read) valid' uncles'
    checked' signed']
  rfl

theorem verifyBlock_parent (accepted : (chain.verifyBlock C block .importChecks).isSome = true) :
    (chain.verifyBlock C block { parent := true }).isSome = true := by
  obtain ⟨v, accepted⟩ := Option.isSome_iff_exists.mp accepted
  obtain ⟨h, read, rest⟩ := Option.bind_eq_some_iff.mp accepted
  obtain ⟨-, rest⟩ := Option.ite_none_left_eq_some.mp rest
  obtain ⟨parent, found, rest⟩ := Option.bind_eq_some_iff.mp rest
  obtain ⟨valid, -⟩ := Option.ite_none_left_eq_some.mp rest
  rw [Bool.not_eq_false] at valid
  rw [chain.verifyBlock_intro C block { parent := true } h parent [] read rfl found valid
    rfl rfl rfl]
  rfl

end Copies

/-- A chain and a clock with these rules; the genesis block is in the chain. -/
def World.Governed (C : Crypto) (R : Rules) (w : World) : Prop :=
  ∃ (chain : BlockChain) (isKnown : H256 → Bool) (utcTime : Nat) (allowFutureBlocks : Bool),
    R.Governs C chain ∧ isKnown R.genesis = true ∧
    w = chain.world C isKnown utcTime allowFutureBlocks

noncomputable def Rules.facts (C : Crypto) (R : Rules) : QueueFacts :=
  { C.facts with rooted := {R.genesis}, whole := R.whole C }

/-- No block of the hash can be imported; and it is the hash of no list of uncles. -/
structure Rules.Hopeless (C : Crypto) (R : Rules) (h : H256) : Prop where
  never : ¬ R.Importable C h
  header : h ∉ C.uncleLists

namespace Rules

variable {C : Crypto} {R : Rules} {chain : BlockChain} {w : World}

theorem Governs.whole (governs : R.Governs C chain) {block : Bytes} {ir : ImportRequirements}
    {v : VerifiedBlock} (accepted : chain.verifyBlock C block ir = some v) : block ∈ R.whole C := by
  obtain ⟨h, read, rest⟩ := Option.bind_eq_some_iff.mp accepted
  obtain ⟨-, rest⟩ := Option.ite_none_left_eq_some.mp rest
  obtain ⟨parent, -, rest⟩ := Option.bind_eq_some_iff.mp rest
  obtain ⟨valid, -⟩ := Option.ite_none_left_eq_some.mp rest
  rw [governs.trieRootOver, Bool.not_eq_false] at valid
  simp only [BlockHeader.verify, Bool.and_eq_true] at valid
  exact ⟨h, read, valid.2⟩

theorem lawful (injective : Function.Injective C.sha3) (nonzero : ∀ bytes, C.sha3 bytes ≠ 0)
    (governed : w.Governed C R) : w.Lawful C (R.facts C) := by
  obtain ⟨chain, isKnown, utcTime, allowFutureBlocks, governs, genesis, rfl⟩ := governed
  refine chain.world_lawful injective nonzero isKnown utcTime allowFutureBlocks ?_ fun _ _ _ =>
    governs.whole
  rintro h rfl
  exact genesis

theorem hopeless_of_parent {h parentHash : H256} {data : Bytes}
    (genuine : Genuine C (R.facts C) h parentHash data) (parent : R.Hopeless C parentHash) :
    R.Hopeless C h where
  never importable := by
    cases importable with
    | genesis => exact genuine.new rfl
    | child _ above =>
        rw [show C.parentOf h = parentHash from genuine.parent] at above
        exact parent.never above
  header := genuine.header

theorem hopeless_of_invalid {h parentHash : H256} {data : Bytes}
    (genuine : Genuine C (R.facts C) h parentHash data) (invalid : ¬ R.Valid C h) :
    R.Hopeless C h where
  never importable := by
    cases importable with
    | genesis => exact genuine.new rfl
    | child valid _ => exact invalid valid
  header := genuine.header

theorem invalid_of_refused (injective : Function.Injective C.sha3)
    (nonzero : ∀ bytes, C.sha3 bytes ≠ 0) (roots : Function.Injective R.trieRootOver)
    (governed : w.Governed C R) {h parentHash : H256} {data : Bytes}
    (genuine : Genuine C (R.facts C) h parentHash data)
    (refused : w.verifyBlock data .outOfOrderChecks = none) : ¬ R.Valid C h := by
  rintro ⟨chain', block', governs', named, passes, -, -⟩
  obtain ⟨chain, isKnown, utcTime, allowFutureBlocks, governs, -, rfl⟩ := governed
  have passes' := verifyBlock_transfer injective nonzero roots governs governs' rfl genuine.whole
    (named.trans genuine.named.symm) passes nofun nofun nofun
  have refused : chain.verifyBlock C data .outOfOrderChecks = none := refused
  rw [refused] at passes'
  cases passes'

end Rules

namespace BlockQueue

variable {C : Crypto} {R : Rules} {s : BlockQueue} {w : World}

def BadSound (C : Crypto) (R : Rules) (s : BlockQueue) : Prop := ∀ h ∈ s.knownBad, R.Hopeless C h

/-- The queue holds genuine blocks, and knows only hopeless ones as bad. -/
structure Judges (C : Crypto) (R : Rules) (s : BlockQueue) : Prop where
  formed : s.Formed C (R.facts C)
  sound : s.BadSound C R

theorem BadSound.insert (sound : s.BadSound C R) {x : H256} (hopeless : R.Hopeless C x) :
    ({ s with knownBad := insert x s.knownBad } : BlockQueue).BadSound C R := by
  intro h bad
  rcases Finset.mem_insert.mp bad with rfl | bad
  · exact hopeless
  · exact sound h bad

theorem Judges.collectFrom (turns : Nat) (badQueue : List H256) (judges : s.Judges C R)
    (hopeless : ∀ h ∈ badQueue, R.Hopeless C h) : (s.collectFrom turns badQueue).Judges C R := by
  induction turns generalizing badQueue s with
  | zero => exact judges
  | succ turns ih =>
      cases badQueue with
      | nil => exact judges
      | cons bad badQueue =>
          have children : ∀ h ∈ (s.unknown.removeByKeyEqual bad).1.map Prod.fst,
              R.Hopeless C h := by
            intro h hh
            obtain ⟨e', he', rfl⟩ := List.mem_map.mp hh
            obtain ⟨e, he, rfl⟩ := List.mem_map.mp he'
            obtain ⟨he, key⟩ := List.mem_filter.mp he
            have key : e.1 = bad := of_decide_eq_true key
            exact Rules.hopeless_of_parent (judges.formed.unknown e he)
              (key ▸ hopeless bad List.mem_cons_self)
          refine ih _ ⟨?_, fun h noted => ?_⟩ fun h hh => ?_
          · exact ⟨fun e he => judges.formed.unknown e (List.mem_of_mem_filter he),
              judges.formed.unverified, judges.formed.waiting, judges.formed.done,
              judges.formed.verified⟩
          · rcases Finset.mem_union.mp noted with noted | noted
            · exact judges.sound h noted
            · exact children h (List.mem_toFinset.mp noted)
          · rcases List.mem_append.mp hh with hh | hh
            · exact hopeless h (List.mem_cons_of_mem _ hh)
            · exact children h hh

theorem Judges.collectUnknownBad (judges : s.Judges C R) {bad : H256}
    (hopeless : R.Hopeless C bad) :
    (s.collectUnknownBad bad).Judges C R :=
  judges.collectFrom _ _ fun _ hh => List.mem_singleton.mp hh ▸ hopeless

theorem Judges.noteBads (hashes : List H256) (judges : s.Judges C R)
    (hopeless : ∀ h ∈ hashes, R.Hopeless C h) :
    (hashes.foldl noteBad s).Judges C R := by
  induction hashes generalizing s with
  | nil => exact judges
  | cons hash hashes ih =>
      have first := hopeless hash List.mem_cons_self
      refine ih ?_ fun h hh => hopeless h (List.mem_cons_of_mem _ hh)
      have noted : ({ s
        with knownBad := insert hash s.knownBad, readySet := s.readySet.erase hash } :
          BlockQueue).Judges C R :=
        ⟨judges.formed.of_queues rfl rfl rfl rfl, judges.sound.insert first⟩
      exact noted.collectUnknownBad first

theorem Judges.sweepVerified (judges : s.Judges C R) (tail : (fromTheEnd C).verified s = true) :
    (s.sweepVerified C).2.Judges C R := by
  obtain ⟨kept, gone, split, stays, goes⟩ := removesTail_split _ _ tail
  have found := removeIf_append QueuedBlock.movedFrom _ kept gone stays goes
  rw [BlockQueue.sweepVerified, split, found]
  have left : ({ s with verified := kept } : BlockQueue).Judges C R := by
    refine ⟨⟨judges.formed.unknown, judges.formed.unverified, judges.formed.waiting,
      judges.formed.done, fun b hb => judges.formed.verified b ?_⟩, judges.sound⟩
    rw [split]
    exact List.mem_append_left _ hb
  refine left.noteBads _ fun h hh => ?_
  obtain ⟨b, hb, rfl⟩ := List.mem_map.mp hh
  have genuine := judges.formed.verified b (by rw [split]; exact List.mem_append_right _ hb)
  rcases (Bool.or_eq_true _ _).mp (goes b hb) with parent | self
  · exact Rules.hopeless_of_parent genuine (judges.sound _ (of_decide_eq_true parent))
  · exact judges.sound _ (of_decide_eq_true self)

theorem Judges.sweepUnverified (judges : s.Judges C R) (tail : (fromTheEnd C).unverified s = true) :
    s.sweepUnverified.2.Judges C R := by
  obtain ⟨kept, gone, split, stays, goes⟩ := removesTail_split _ _ tail
  have found := removeIf_append UnverifiedBlock.movedFrom _ kept gone stays goes
  rw [BlockQueue.sweepUnverified, split, found]
  have left : ({ s with unverified := kept } : BlockQueue).Judges C R := by
    refine ⟨⟨judges.formed.unknown, fun b hb => judges.formed.unverified b ?_,
      judges.formed.waiting, judges.formed.done, judges.formed.verified⟩, judges.sound⟩
    rw [split]
    exact List.mem_append_left _ hb
  refine left.noteBads _ fun h hh => ?_
  obtain ⟨b, hb, rfl⟩ := List.mem_map.mp hh
  have genuine := judges.formed.unverified b (by rw [split]; exact List.mem_append_right _ hb)
  rcases (Bool.or_eq_true _ _).mp (goes b hb) with parent | self
  · exact Rules.hopeless_of_parent genuine (judges.sound _ (of_decide_eq_true parent))
  · exact judges.sound _ (of_decide_eq_true self)

theorem Judges.sweepVerifying (judges : s.Judges C R) (tail : (fromTheEnd C).verifying s = true) :
    (s.sweepVerifying C).2.Judges C R := by
  obtain ⟨kept, gone, split, stays, goes⟩ := removesTail_split _ _ tail
  have found := removeIf_append QueuedBlock.movedFrom _ kept gone stays goes
  rw [BlockQueue.sweepVerifying, split, found]
  have front : ∀ b ∈ kept, b ∈ s.verifying := fun b hb => by
    rw [split]
    exact List.mem_append_left _ hb
  have left : ({ s with verifying := kept } : BlockQueue).Judges C R :=
    ⟨⟨judges.formed.unknown, judges.formed.unverified,
      fun b hb => judges.formed.waiting b (front b hb),
        fun b hb => judges.formed.done b (front b hb), judges.formed.verified⟩, judges.sound⟩
  refine left.noteBads _ fun h hh => ?_
  obtain ⟨b, hb, rfl⟩ := List.mem_map.mp hh
  have member : b ∈ s.verifying := by
    rw [split]
    exact List.mem_append_right _ hb
  by_cases full : b.blockData = []
  · obtain ⟨_, genuine⟩ := judges.formed.waiting b member full
    rw [verifyingHash_waiting full]
    rcases (Bool.or_eq_true _ _).mp (goes b hb) with parent | self
    · exact Rules.hopeless_of_parent genuine (judges.sound _ (of_decide_eq_true parent))
    · exact judges.sound _ (of_decide_eq_true self)
  · obtain ⟨list, genuine⟩ := judges.formed.done b member full
    rw [verifyingHash_done full]
    rcases (Bool.or_eq_true _ _).mp (goes b hb) with parent | self
    · exact Rules.hopeless_of_parent genuine (judges.sound _ (of_decide_eq_true parent))
    · exact absurd list (judges.sound _ (of_decide_eq_true self)).header

theorem Judges.updateBad (judges : s.Judges C R) {bad : H256} (hopeless : R.Hopeless C bad)
    (tail : (fromTheEnd C).update C bad s = true) : (s.updateBad C bad).Judges C R :=
  sweep_keeps (P := fun s => s.Judges C R) (fun _ judges => judges.sweepVerified)
    (fun _ judges => judges.sweepUnverified) (fun _ judges => judges.sweepVerifying) _ _
    (judges.collectUnknownBad hopeless) tail

theorem Judges.release (judges : s.Judges C R) {b : QueuedBlock}
    (genuine : Genuine C (R.facts C) (hashOf C b) b.parentHash b.blockData) :
    (s.release C b).Judges C R := by
  refine ⟨release_formed judges.formed genuine, ?_⟩
  unfold BlockQueue.release
  split
  case isTrue bad =>
    exact judges.sound.insert (Rules.hopeless_of_parent genuine (judges.sound _ bad))
  case isFalse => exact judges.sound

theorem drainFrom_sound (q : List QueuedBlock) (s : BlockQueue) (sound : s.BadSound C R)
    (done : ∀ b ∈ q, b.blockData ≠ [] →
      Genuine C (R.facts C) (hashOf C b) b.parentHash b.blockData) :
    (s.drainFrom C q).BadSound C R := by
  induction q generalizing s with
  | nil => exact sound
  | cons b rest ih =>
      unfold BlockQueue.drainFrom
      split
      · exact sound
      case isFalse full =>
        refine ih _ ?_ fun x hx => done x (List.mem_cons_of_mem _ hx)
        unfold BlockQueue.release
        split
        case isTrue bad =>
          exact sound.insert
            (Rules.hopeless_of_parent (done b List.mem_cons_self full) (sound _ bad))
        case isFalse => exact sound

theorem Judges.drainVerified (judges : s.Judges C R) : (s.drainVerified C).Judges C R :=
  ⟨drainVerified_formed judges.formed,
    drainFrom_sound s.verifying s judges.sound fun b hb full => (judges.formed.done b hb full).2⟩

theorem Judges.importBlock (injective : Function.Injective C.sha3)
    (nonzero : ∀ bytes, C.sha3 bytes ≠ 0) (governed : w.Governed C R) (judges : s.Judges C R)
    (block : Bytes) (isOurs : Bool)
    (tail : (fromTheEnd C).Import C w { postGenesis := true } block isOurs s) :
    (s.importBlock C w block isOurs).2.Judges C R := by
  have laws := Rules.lawful injective nonzero governed
  refine ⟨importBlock_formed laws judges.formed block isOurs, ?_⟩
  rcases importBlock_cases C w block isOurs s with
    e | ⟨v, accepted, new, absent, e | ⟨now, ⟨bad, e⟩ | ⟨-, -, e⟩ | ⟨-, -, e⟩⟩⟩
  · rw [e]
    exact judges.sound
  · rw [e]
    exact judges.sound
  · have genuine := laws.genuine accepted (laws.absent absent)
    have hopeless := Rules.hopeless_of_parent genuine (judges.sound _ bad)
    have noted : ({ s
        with knownBad := insert (v.info.hash C .withSeal) s.knownBad } : BlockQueue).Judges C R :=
      ⟨judges.formed.of_queues rfl rfl rfl rfl, judges.sound.insert hopeless⟩
    rw [e]
    exact (noted.updateBad hopeless (tail v accepted new absent now bad)).sound
  · rw [e]
    exact judges.sound
  · rw [e]
    intro h noted
    rw [noteReady, noteReadyFrom_bad] at noted
    exact judges.sound h noted

theorem Judges.importVerified (injective : Function.Injective C.sha3)
    (nonzero : ∀ bytes, C.sha3 bytes ≠ 0) (governed : w.Governed C R) (judges : s.Judges C R)
    (block : Bytes) (tail : (fromTheEnd C).Import C w .outOfOrderChecks block true s) :
    (s.importVerified C w block).2.Judges C R := by
  have laws := Rules.lawful injective nonzero governed
  have formed := importVerified_formed laws judges.formed block
  rcases importVerified_cases C w block s with
    e | ⟨v, accepted, new, absent, ⟨bad, e⟩ | ⟨-, -, e⟩ | ⟨-, -, e⟩⟩
  · rw [e]
    exact judges
  · have genuine := laws.genuine accepted (laws.absent absent)
    have hopeless := Rules.hopeless_of_parent genuine (judges.sound _ bad)
    have noted : ({ s
        with knownBad := insert (v.info.hash C .withSeal) s.knownBad } : BlockQueue).Judges C R :=
      ⟨judges.formed.of_queues rfl rfl rfl rfl, judges.sound.insert hopeless⟩
    rw [e]
    exact noted.updateBad hopeless (tail v accepted new absent (by simp) bad)
  · refine ⟨formed, ?_⟩
    rw [e]
    exact judges.sound
  · refine ⟨formed, ?_⟩
    rw [e]
    exact drainFrom_sound s.verifying { s with verified := s.verified ++ [⟨v, block⟩] } judges.sound
      fun b hb full => (judges.formed.done b hb full).2

theorem Judges.finished (injective : Function.Injective C.sha3)
    (nonzero : ∀ bytes, C.sha3 bytes ≠ 0) (roots : Function.Injective R.trieRootOver)
    (governed : w.Governed C R) (judges : s.Judges C R) {work : UnverifiedBlock}
    (genuine : Genuine C (R.facts C) work.hash work.parentHash work.blockData) :
    (s.finished C w work).Judges C R := by
  have laws := Rules.lawful injective nonzero governed
  refine ⟨finished_formed laws judges.formed genuine, ?_⟩
  unfold BlockQueue.finished
  split
  case h_1 refused =>
    have hopeless := Rules.hopeless_of_invalid genuine
      (Rules.invalid_of_refused injective nonzero roots governed genuine refused)
    refine drainFrom_sound _ _ (judges.sound.insert hopeless) fun b hb full => ?_
    exact (judges.formed.done b (List.mem_of_mem_filter hb) full).2
  case h_2 v accepted =>
    dsimp only
    split
    · exact judges.sound
    case h_2 next rest here =>
      split
      · have tail : ({ s with verifying := rest } : BlockQueue).Judges C R := by
          have inside : ∀ b ∈ rest, b ∈ s.verifying := fun b hb => here ▸ List.mem_cons_of_mem _ hb
          exact ⟨⟨judges.formed.unknown, judges.formed.unverified,
            fun b hb => judges.formed.waiting b (inside b hb),
              fun b hb => judges.formed.done b (inside b hb), judges.formed.verified⟩, judges.sound⟩
        have released : (BlockQueue.release C ⟨v, work.blockData⟩
            { s with verifying := rest }).Judges C R :=
          tail.release (b := ⟨v, work.blockData⟩) (genuine.verified laws accepted)
        exact released.drainVerified.sound
      · exact judges.sound

end BlockQueue

namespace Running

open BlockQueue

variable {C : Crypto} {R : Rules} {r : Running} {w : World}

structure Judges (C : Crypto) (R : Rules) (r : Running) : Prop where
  formed : r.Formed C (R.facts C)
  sound : r.queue.BadSound C R

theorem Judges.queue (judges : r.Judges C R) : r.queue.Judges C R :=
  ⟨judges.formed.queue, judges.sound⟩

theorem Judges.of_queue (judges : r.Judges C R) {s : BlockQueue} (queue : s.Judges C R) :
    ({ r with queue := s } : Running).Judges C R :=
  ⟨⟨queue.formed, judges.formed.working⟩, queue.sound⟩

theorem Judges.takeWork (judges : r.Judges C R) : r.takeWork.Judges C R := by
  refine ⟨takeWork_formed judges.formed, ?_⟩
  intro h noted
  rw [takeWork_bad] at noted
  exact judges.sound h noted

theorem Judges.doneDrain (judges : r.Judges C R) (bad : List (Nat × H256))
    (hopeless : ∀ h ∈ bad.map Prod.snd, R.Hopeless C h)
    (tail : updates C (fromTheEnd C) bad (r.closeDrain bad) = true) :
    (r.doneDrain C bad).2.Judges C R := by
  have closed : (r.closeDrain bad).Judges C R := by
    refine ⟨⟨judges.formed.queue.of_queues rfl rfl rfl rfl, judges.formed.working⟩,
      fun h noted => ?_⟩
    rcases Finset.mem_union.mp noted with noted | noted
    · exact judges.sound h noted
    · exact hopeless h (List.mem_toFinset.mp noted)
  change (updateBads C bad (r.closeDrain bad)).Judges C R
  generalize r.closeDrain bad = start at closed tail
  induction bad generalizing start with
  | nil => exact closed
  | cons b bad ih =>
      rw [updates, Bool.and_eq_true] at tail
      have taken := takeWorks_keeps (P := fun r => r.Judges C R) (fun _ judges => judges.takeWork)
        b.1 start closed
      refine ih (fun h hh => hopeless h (List.mem_cons_of_mem _ hh)) _ ?_ tail.2
      exact taken.of_queue (taken.queue.updateBad (hopeless b.2 List.mem_cons_self) tail.1)

theorem Judges.importPast (injective : Function.Injective C.sha3)
    (nonzero : ∀ bytes, C.sha3 bytes ≠ 0) (governed : w.Governed C R) (judges : r.Judges C R)
    (tail : r.Guarded C (fromTheEnd C) (.importPast w)) :
    (r.importPast C w).Judges C R := by
  unfold Running.importPast
  split
  · exact judges
  case h_2 b rest here =>
    have queue :=
      judges.queue.importBlock injective nonzero governed b.2 false (tail b (by simp [here]))
    exact ⟨⟨queue.formed, judges.formed.working⟩, queue.sound⟩

theorem Judges.finishWork (injective : Function.Injective C.sha3)
    (nonzero : ∀ bytes, C.sha3 bytes ≠ 0) (roots : Function.Injective R.trieRootOver)
    (governed : w.Governed C R) (judges : r.Judges C R) (i : Nat) :
    (r.finishWork C w i).Judges C R := by
  refine ⟨finishWork_formed (Rules.lawful injective nonzero governed) i judges.formed, ?_⟩
  unfold Running.finishWork
  split
  · exact judges.sound
  case h_2 work here =>
    have genuine := judges.formed.working work (List.mem_of_getElem? here)
    exact (judges.queue.finished injective nonzero roots governed genuine).sound

theorem Judges.step (injective : Function.Injective C.sha3) (nonzero : ∀ bytes, C.sha3 bytes ≠ 0)
    (roots : Function.Injective R.trieRootOver) (judges : r.Judges C R) (e : QueueEvent)
    (given : e.Given (World.Governed C R)) (tail : r.Guarded C (fromTheEnd C) e)
    (hopeless : ∀ bad, e = .doneDrain bad → ∀ h ∈ bad.map Prod.snd, R.Hopeless C h) :
    (r.step C e).Judges C R := by
  have formed := step_formed e (given.imp fun _ governed => Rules.lawful injective nonzero governed)
    judges.formed
  cases e with
  | importVerified w block =>
      exact judges.of_queue (judges.queue.importVerified injective nonzero given block tail)
  | importBlock w block isOurs =>
      exact judges.of_queue (judges.queue.importBlock injective nonzero given block isOurs tail)
  | tick w => exact ⟨formed, judges.sound⟩
  | importPast w => exact judges.importPast injective nonzero given tail
  | drain max =>
      refine ⟨formed, ?_⟩
      change (r.queue.drain C max).2.BadSound C R
      unfold BlockQueue.drain
      split <;> exact judges.sound
  | doneDrain bad => exact judges.doneDrain bad (hopeless bad rfl) tail
  | noteReady good =>
      refine ⟨formed, fun h noted => judges.sound h ?_⟩
      exact (noteReadyFrom_bad _ _ r.queue).subset noted
  | retryAllUnknown =>
      refine ⟨formed, fun h noted => judges.sound h ?_⟩
      exact (retryFrom_bad _ r.queue).subset noted
  | clear => exact ⟨formed, judges.sound⟩
  | takeWork => exact judges.takeWork
  | finishWork w i => exact judges.finishWork injective nonzero roots given i

end Running

namespace Syncing

open BlockQueue

variable (C : Crypto) (decode : Bytes → Transaction) (R : Rules)

/-- The outside of a step follows the rules. The stored headers and the details rows belong to the
blocks the chain knows, and an execution fails only if the block does not execute. -/
def Faithful (s : Syncing) : SyncEvent → Prop
  | .queue e => e.Given (World.Governed C R)
  | .next t => R.Governs C t.chain ∧
      (∀ p, s.index.isKnown p false = true → t.chain.headerData p ≠ []) ∧
      ∀ b ∈ s.left.head?,
        (∀ pd, t.verifies C b = true → s.index.details b.parentHash = some pd →
          b.verified.info.number = pd.number + 1) ∧
        (R.executes (hashOf C b) → t.run.enacted = .succeeds ∨ t.thrown ≠ .failed)
  | _ => True

/-- The bad blocks of a call, with what verifiers take between the turns of `doneDrain`. -/
def badTurns (s : Syncing) (takes : Nat → Nat) : List (Nat × H256) :=
  s.badBlocks.zipIdx.map fun e => (takes e.2, e.1)

/-- No block is found to be bad for what another copy, or a later time, may bring. -/
def Fair (s : Syncing) : SyncEvent → Prop
  | .queue (.doneDrain _) => True
  | .queue e => s.running.Guarded C (fromTheEnd C) e
  | .start _ => True
  | .next t => ∀ b ∈ s.left.head?,
      match s.index.outcome C t b with
      | .unknownParent => b.parentHash ∈ s.running.queue.knownBad ∨ b.parentHash ∈ s.badBlocks
      | .failed => t.verifies C b = false →
          (t.chain.verifyBlock C b.blockData { parent := true }).isSome = false ∨
          (∀ h, BlockHeader.ofBlock C b.blockData = some h →
            t.chain.verifySigns .importChecks h b.blockData = true) ∧
          Rules.UnclesPlaced C t.chain b.blockData
      | _ => True
  | .finish takes => s.active = true → s.left = [] →
      Running.updates C (fromTheEnd C) (s.badTurns takes) (s.running.closeDrain (s.badTurns takes))
        = true

/-- The queue is sound, and the bad blocks of the call are hopeless. -/
structure Judges (s : Syncing) : Prop where
  running : s.running.Judges C R
  left : ∀ b ∈ s.left, Genuine C (R.facts C) (hashOf C b) b.parentHash b.blockData
  badBlocks : ∀ h ∈ s.badBlocks, R.Hopeless C h

variable {C decode R} {s : Syncing}

theorem outcome_failed {bc : ChainIndex} {t : SyncTurn} {b : QueuedBlock}
    (h : bc.outcome C t b = .failed) :
    bc.isKnown b.parentHash false = true ∧
      (t.verifies C b = false ∨
        (∃ pd, bc.details b.parentHash = some pd ∧ b.verified.info.number ≠ pd.number + 1) ∨
        t.run.enacted ≠ .succeeds ∧ t.thrown = .failed) := by
  unfold ChainIndex.outcome at h
  obtain ⟨-, h⟩ := ChainIndex.else_of_ne h (by nofun)
  obtain ⟨known, h⟩ := ChainIndex.else_of_ne h (by nofun)
  refine ⟨by simpa using known, ?_⟩
  cases row : bc.details b.parentHash with
  | none =>
      rw [row] at h
      cases h
  | some pd =>
      rw [row] at h
      obtain ⟨-, h⟩ := ChainIndex.else_of_ne h (by nofun)
      split at h
      case isTrue wrong => exact wrong.imp_right fun number => .inl ⟨pd, rfl, number⟩
      case isFalse =>
        obtain ⟨-, h⟩ := ChainIndex.else_of_ne h (by nofun)
        obtain ⟨other, h⟩ := ChainIndex.else_of_ne h (by nofun)
        refine .inr (.inr ⟨other, ?_⟩)
        cases thrown : t.thrown <;> rw [thrown] at h <;> first | rfl | cases h

theorem genuine_parent (injective : Function.Injective C.sha3) (nonzero : ∀ bytes, C.sha3 bytes ≠ 0)
    {hash parentHash : H256} {data : Bytes} (genuine : Genuine C (R.facts C) hash parentHash data)
    {h : BlockHeader} (read : BlockHeader.ofBlock C data = some h) : h.parentHash = parentHash := by
  have same : h.hash C .withSeal = hash := (ofBlock_hash nonzero read).trans genuine.named
  have parent := parentOf_hash injective nonzero read
  rw [same] at parent
  exact parent.trans genuine.parent

theorem Judges.hopeless_of_failed (injective : Function.Injective C.sha3)
    (nonzero : ∀ bytes, C.sha3 bytes ≠ 0) (roots : Function.Injective R.trieRootOver)
    (judges : s.Judges C R) {t : SyncTurn} {b : QueuedBlock} {rest : List QueuedBlock}
    (here : s.left = b :: rest) (faithful : s.Faithful C R (.next t))
    (fair : s.Fair C (.next t)) (ends : s.index.outcome C t b = .failed) :
    R.Hopeless C (hashOf C b) := by
  have first : b ∈ s.left.head? := by simp [here]
  have genuine := judges.left b (here ▸ List.mem_cons_self)
  obtain ⟨governs, stored, outside⟩ := faithful
  obtain ⟨numbers, execution⟩ := outside b first
  have fair := fair b first
  rw [ends] at fair
  obtain ⟨parent, fails⟩ := outcome_failed ends
  have above : ∀ h, BlockHeader.ofBlock C b.blockData = some h →
      t.chain.headerData h.parentHash ≠ [] := by
    intro h read
    rw [genuine_parent injective nonzero genuine read]
    exact stored _ parent
  refine Rules.hopeless_of_invalid genuine ?_
  rintro ⟨chain', block', governs', named, -, passes, executes⟩
  have same := named.trans genuine.named.symm
  by_cases verified : t.verifies C b = true
  · rcases fails with unverified | ⟨pd, row, number⟩ | ⟨throws, thrown⟩
    · rw [verified] at unverified
      cases unverified
    · exact number (numbers pd verified row)
    · exact (execution executes).elim throws fun other => other thrown
  · rcases fair (by simpa using verified) with header | ⟨signs, placed⟩
    · have fits : (t.chain.verifyBlock C b.blockData { parent := true }).isSome = true :=
        verifyBlock_transfer injective nonzero roots governs governs' rfl genuine.whole same
          (verifyBlock_parent passes) (fun _ => above) nofun nofun
      rw [header] at fits
      cases fits
    · have fits :=
        verifyBlock_transfer injective nonzero roots governs governs' rfl genuine.whole same passes
        (fun _ => above) (fun _ => placed) fun _ => signs
      exact verified fits

theorem Judges.queueStep (injective : Function.Injective C.sha3)
    (nonzero : ∀ bytes, C.sha3 bytes ≠ 0) (roots : Function.Injective R.trieRootOver)
    (judges : s.Judges C R) (e : QueueEvent) (faithful : s.Faithful C R (.queue e))
    (fair : s.Fair C (.queue e)) : (s.queueStep C e).Judges C R := by
  have moved (tail : s.running.Guarded C (fromTheEnd C) e)
      (other : ∀ bad, e = .doneDrain bad → ∀ h ∈ bad.map Prod.snd, R.Hopeless C h) :
      ({ s with running := s.running.step C e } : Syncing).Judges C R :=
    ⟨judges.running.step injective nonzero roots e faithful tail other, judges.left,
      judges.badBlocks⟩
  cases e with
  | drain max => exact judges
  | doneDrain bad => exact judges
  | importVerified w block => exact moved fair nofun
  | importBlock w block isOurs => exact moved fair nofun
  | tick w => exact moved fair nofun
  | importPast w => exact moved fair nofun
  | noteReady good => exact moved fair nofun
  | retryAllUnknown => exact moved fair nofun
  | clear => exact moved fair nofun
  | takeWork => exact moved fair nofun
  | finishWork w i => exact moved fair nofun

theorem Judges.start (judges : s.Judges C R) (max : Nat) : (s.start C max).Judges C R := by
  unfold Syncing.start
  split
  · exact judges
  · refine ⟨⟨⟨drain_formed judges.running.formed.queue max, judges.running.formed.working⟩, ?_⟩, ?_,
      nofun⟩
    · change (s.running.queue.drain C max).2.BadSound C R
      unfold BlockQueue.drain
      split <;> exact judges.running.sound
    · intro b hb
      have hb : b ∈ (s.running.queue.drain C max).1 := hb
      unfold BlockQueue.drain at hb
      split at hb
      · exact judges.running.formed.queue.verified b (List.mem_of_mem_take hb)
      · cases hb

theorem Judges.next (injective : Function.Injective C.sha3) (nonzero : ∀ bytes, C.sha3 bytes ≠ 0)
    (roots : Function.Injective R.trieRootOver) (judges : s.Judges C R) (t : SyncTurn)
    (faithful : s.Faithful C R (.next t)) (fair : s.Fair C (.next t)) :
    (s.next C decode t).Judges C R := by
  unfold Syncing.next
  split
  · exact judges
  case h_2 b rest here =>
    have others : ∀ x ∈ rest, Genuine C (R.facts C) (hashOf C x) x.parentHash x.blockData :=
      fun x hx => judges.left x (here ▸ List.mem_cons_of_mem _ hx)
    have noted (hopeless : R.Hopeless C (hashOf C b)) : ∀ h ∈ s.badBlocks ++ [hashOf C b],
        R.Hopeless C h := by
      intro h hh
      rcases List.mem_append.mp hh with old | new
      · exact judges.badBlocks h old
      · exact List.mem_singleton.mp new ▸ hopeless
    dsimp only
    cases ends : s.index.outcome C t b with
    | success => exact ⟨judges.running, others, judges.badBlocks⟩
    | alreadyHave => exact ⟨judges.running, others, judges.badBlocks⟩
    | futureTime => exact ⟨judges.running, others, judges.badBlocks⟩
    | transientError => exact ⟨judges.running, others, judges.badBlocks⟩
    | unknownParent =>
        have fair := fair b (by simp [here])
        rw [ends] at fair
        refine ⟨judges.running, others, noted ?_⟩
        refine Rules.hopeless_of_parent (judges.left b (here ▸ List.mem_cons_self)) ?_
        exact fair.elim (judges.running.sound _) (judges.badBlocks _)
    | failed =>
        exact ⟨judges.running, others,
          noted (judges.hopeless_of_failed injective nonzero roots here faithful fair ends)⟩
    | uncaught => exact ⟨judges.running, nofun, nofun⟩

theorem Judges.finish (judges : s.Judges C R) (takes : Nat → Nat)
    (fair : s.Fair C (.finish takes)) :
    (s.finish C takes).Judges C R := by
  unfold Syncing.finish
  split
  case isFalse => exact judges
  case isTrue ended =>
    rw [Bool.and_eq_true, List.isEmpty_iff] at ended
    refine ⟨judges.running.doneDrain (s.badTurns takes) (fun h hh => ?_) (fair ended.1 ended.2),
      judges.left, nofun⟩
    have names : (s.badTurns takes).map Prod.snd = s.badBlocks := by
      rw [badTurns, List.map_map]
      exact List.zipIdx_map_fst 0 s.badBlocks
    rw [names] at hh
    exact judges.badBlocks h hh

theorem step_judges (injective : Function.Injective C.sha3) (nonzero : ∀ bytes, C.sha3 bytes ≠ 0)
    (roots : Function.Injective R.trieRootOver) (e : SyncEvent) (judges : s.Judges C R)
    (faithful : s.Faithful C R e) (fair : s.Fair C e) : (s.step C decode e).Judges C R := by
  cases e with
  | queue e => exact judges.queueStep injective nonzero roots e faithful fair
  | start max => exact judges.start max
  | next t => exact judges.next injective nonzero roots t faithful fair
  | finish takes => exact judges.finish takes fair

/-- If every failure is a fair one, only hashes whose block can not be imported are known as bad. -/
theorem known_bad_sound (C : Crypto) (injective : Function.Injective C.sha3)
    (nonzero : ∀ bytes, C.sha3 bytes ≠ 0) (R : Rules) (roots : Function.Injective R.trieRootOver)
    (decode : Bytes → Transaction) (index : ChainIndex) (events : List SyncEvent)
    (faithful : ∀ entry ∈ trace (step C decode) { index } events, entry.1.Faithful C R entry.2)
    (fair : ∀ entry ∈ trace (step C decode) { index } events, entry.1.Fair C entry.2) :
    ∀ h ∈ (run (step C decode) { index } events).running.queue.knownBad, ¬ R.Importable C h := by
  have judges := run_invariant (step C decode) (fun _ s => s.Judges C R)
    (fun s e => s.Faithful C R e ∧ s.Fair C e)
    { index } ⟨⟨Running.initial_formed, by nofun⟩, by nofun, by nofun⟩
    (fun _ e judges given => step_judges injective nonzero roots e judges given.1 given.2) events
    fun entry member => ⟨faithful entry member, fair entry member⟩
  exact fun h noted => (judges.running.sound h noted).never

theorem step_index (e : SyncEvent) (fails : ∀ t, e = .next t → t.run.enacted = .throws) :
    (s.step C decode e).index = s.index := by
  cases e with
  | queue e => cases e <;> rfl
  | start max =>
      change (s.start C max).index = s.index
      unfold Syncing.start
      split <;> rfl
  | next t =>
      change (s.next C decode t).index = s.index
      unfold Syncing.next
      split
      · rfl
      case h_2 b rest here =>
        have same : s.index.importBlock (t.importRun C b) (b.chainBlock C decode) = s.index := by
          have throws : (t.importRun C b).enacted = .throws := fails t rfl
          rw [ChainIndex.importBlock, throws]
          split <;> rfl
        dsimp only
        rw [same]
        split <;> rfl
  | finish takes =>
      change (s.finish C takes).index = s.index
      unfold Syncing.finish
      split <;> rfl

theorem trace_index (events : List SyncEvent) (fails : ∀ t, .next t ∈ events →
    t.run.enacted = .throws) (s : Syncing) :
    ∀ entry ∈ trace (step C decode) s events, entry.1.index = s.index := by
  induction events generalizing s with
  | nil => nofun
  | cons e events ih =>
      rw [trace, List.forall_mem_cons]
      refine ⟨rfl, fun entry member => ?_⟩
      have later := ih (fun t member => fails t (List.mem_cons_of_mem _ member))
        (s.step C decode e) entry member
      rw [later]
      exact step_index e fun t same => fails t (same ▸ List.mem_cons_self)

/-- Over a chain with its genesis block only, the steps of a run in which every execution fails are
faithful if the block at hand fits the genesis block, and may fail. -/
theorem faithful_of_genesis {genesis : H256} {difficulty gasUsed maxblocksize : Nat} {t : SyncTurn}
    (index : s.index = .opened genesis difficulty gasUsed maxblocksize)
    (governs : R.Governs C t.chain) (stored : t.chain.headerData genesis ≠ [])
    (fits : ∀ b ∈ s.left.head?, (b.parentHash = genesis → b.verified.info.number = 1) ∧
      (R.executes (hashOf C b) → t.thrown ≠ .failed)) : s.Faithful C R (.next t) := by
  refine ⟨governs, fun p known => ?_, fun b first => ⟨fun pd _ row => ?_, fun executes => .inr ?_⟩⟩
  · rw [index, ChainIndex.isKnown_iff] at known
    rcases known with rfl | ⟨row, -⟩
    · exact stored
    · by_cases same : p = genesis
      · exact same ▸ stored
      · simp [ChainIndex.opened, same] at row
  · rw [index] at row
    by_cases same : b.parentHash = genesis
    · simp only [ChainIndex.opened, same, Function.update_self, Option.some.injEq] at row
      rw [← row]
      exact (fits b first).1 same
    · simp [ChainIndex.opened, same] at row
  · exact (fits b first).2 executes

theorem fair_of_next {t : SyncTurn} (ends : ∀ b ∈ s.left.head?,
    s.index.outcome C t b = .failed ∧ t.verifies C b = true ∨
      s.index.outcome C t b = .unknownParent ∧
      (b.parentHash ∈ s.running.queue.knownBad ∨ b.parentHash ∈ s.badBlocks)) :
      s.Fair C (.next t) := by
  intro b first
  rcases ends b first with ⟨e, verified⟩ | ⟨e, bad⟩
  · rw [e]
    intro unverified
    rw [verified] at unverified
    cases unverified
  · rw [e]
    exact bad

end Syncing

def queueRules (failing : Finset H256) : Rules where
  trieRootOver := queueChain.trieRootOver
  checkTransaction := queueChain.checkTransaction
  executes h := h ∉ failing
  genesis := 105

instance (failing : Finset H256) : DecidablePred (queueRules failing).executes :=
  fun h => inferInstanceAs (Decidable (h ∉ failing))

def signChain : BlockChain :=
  { queueChain with signChecker := some (checkBlockSign queueToy
    fun _ => NodeTable.consecutive 4 0) }

def certifiedBlock : Bytes :=
  let h := queuedHeader 105 1
  let sign := fun idx => appendList (appendInt idx ++
    appendBytes (toBigEndian 65 (queueToy.sign (idx + 1) (h.hash queueToy .withoutSeal))))
  appendList (h.streamRLP .withSeal :: [[0xc0], [0xc0], appendBytes (toBigEndian 32 101),
    appendList ([0, 1, 2].map sign).flatten]).flatten

def failingRun : List SyncEvent :=
  [.queue (.importBlock queueWorld (queuedBlock 105 1) false),
    .queue (.importBlock queueWorld (queuedBlock 101 2) false), .queue .takeWork, .queue .takeWork,
    .queue (.finishWork queueWorld 0), .queue (.finishWork queueWorld 0), .start 2,
    .next { chain := queueChain, run := { enacted := .throws } },
    .next { chain := queueChain, run := { enacted := .throws }, thrown := .transient },
    .finish fun _ => 0]

def unsignedRun : List SyncEvent :=
  [.queue (.importBlock queueWorld (queuedBlock 105 1) false), .queue .takeWork,
    .queue (.finishWork queueWorld 0), .start 1,
    .next { chain := signChain, run := { enacted := .throws }, thrown := .transient },
    .finish fun _ => 0]

section

variable (failing : Finset H256)

theorem trieRootOver_injective : Function.Injective queueChain.trieRootOver := by
  intro l m same
  have bytes : Function.Injective fun bytes : Bytes => bytes.map UInt8.toNat :=
    List.map_injective_iff.mpr fun _ _ => UInt8.toNat_inj.mp
  exact List.map_injective_iff.mpr bytes (Encodable.encode_injective same)

theorem queueChain_headers (p : H256) (stored : queueChain.headerData p ≠ []) :
    queueToy.sha3 (queueChain.headerData p) = p := by
  by_cases same : p = 105
  · subst same
    decide +kernel
  · simp [queueChain, same] at stored

theorem queueRules_governs (check : Option (BlockHeader → List (Nat × Nat) → Bool)) :
    (queueRules failing).Governs queueToy { queueChain with signChecker := check } :=
  ⟨rfl, rfl, queueChain_headers⟩

theorem queueWorld_governed : queueWorld.Governed queueToy (queueRules failing) :=
  ⟨queueChain, _, _, _, queueRules_governs failing none, rfl, rfl⟩

end

namespace Syncing

theorem known_bad_sound_execution :
    let s := run (step queueToy anyTransaction) { index := syncIndex } failingRun
    s.running.queue.knownBad = {101, 102} ∧
      ∀ h ∈ s.running.queue.knownBad, ¬ (queueRules {101}).Importable queueToy h := by
  refine ⟨by decide +kernel, ?_⟩
  have governed := queueWorld_governed {101}
  have governs := queueRules_governs {101} none
  refine known_bad_sound queueToy queueToy_sha3_injective queueToy_sha3_ne_zero (queueRules {101})
    trieRootOver_injective anyTransaction syncIndex failingRun ?_ ?_
  · have index : ∀ entry ∈ trace (step queueToy anyTransaction) { index := syncIndex } failingRun,
        entry.1.index = syncIndex := trace_index failingRun (by simp [failingRun]) _
    simp only [failingRun, trace, List.forall_mem_cons] at index ⊢
    obtain ⟨-, -, -, -, -, -, -, first, second, -, -⟩ := index
    refine (fun fits : _ ∧ _ ∧ _ ∧ _ => ⟨governed, governed, trivial, trivial, governed,
      governed, trivial, faithful_of_genesis first governs fits.1 fits.2.1,
      faithful_of_genesis second governs fits.2.2.1 fits.2.2.2, trivial,
      List.forall_mem_nil _⟩) ?_
    decide +kernel
  · simp only [failingRun, trace, List.forall_mem_cons]
    refine (fun ends : _ ∧ _ ∧ _ ∧ _ => ⟨Guard.import_of_clean rfl, Guard.import_of_clean ends.1,
      trivial, trivial, trivial, trivial, trivial, fair_of_next ends.2.1, fair_of_next ends.2.2.1,
      fun _ _ => ends.2.2.2, List.forall_mem_nil _⟩) ?_
    decide +kernel

/-- The queue holds a copy of a block that others can import, and notes the block as bad. -/
theorem unsigned_copy_known_bad :
    let s := run (step queueToy anyTransaction) { index := syncIndex } unsignedRun
    (∀ entry ∈ trace (step queueToy anyTransaction) { index := syncIndex } unsignedRun,
      entry.1.Faithful queueToy (queueRules ∅) entry.2) ∧
      101 ∈ s.running.queue.knownBad ∧ (queueRules ∅).Importable queueToy 101 := by
  have governs := queueRules_governs ∅
  have governed := queueWorld_governed ∅
  refine ⟨?_, by decide +kernel, ?_⟩
  · have index : ∀ entry ∈ trace (step queueToy anyTransaction) { index := syncIndex } unsignedRun,
        entry.1.index = syncIndex := trace_index unsignedRun (by simp [unsignedRun]) _
    simp only [unsignedRun, trace, List.forall_mem_cons] at index ⊢
    obtain ⟨-, -, -, -, first, -, -⟩ := index
    refine (fun fits : _ ∧ _ => ⟨governed, trivial, governed, trivial,
      faithful_of_genesis first (governs signChain.signChecker) fits.1 fits.2, trivial,
        List.forall_mem_nil _⟩) ?_
    decide +kernel
  · have read : ((BlockHeader.ofBlock queueToy certifiedBlock).map BlockHeader.parentHash) =
        some 105 := by
      decide +kernel
    obtain ⟨h, read, parent⟩ := Option.map_eq_some_iff.mp read
    have named : BlockHeader.headerHashFromBlock queueToy certifiedBlock = 101 := by decide +kernel
    have above := parentOf_hash queueToy_sha3_injective queueToy_sha3_ne_zero read
    rw [ofBlock_hash queueToy_sha3_ne_zero read, named, parent] at above
    refine .child ⟨signChain, certifiedBlock, governs signChain.signChecker, named,
      by decide +kernel, by decide +kernel, Finset.notMem_empty 101⟩ ?_
    rw [← above]
    exact .genesis

end Syncing

end UtispaceChain
