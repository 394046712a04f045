import UtispaceChain.Cv.Block
import UtispaceChain.Cv.MatchedRuns

/-! `Block::execute`, with each kind of VM, and what a reverted execution leaves. -/

namespace UtispaceChain

namespace Accounts

open Ledger Accounts.State

structure HashedTransaction extends ExecTransaction where
  sha3 : H256
  deriving DecidableEq, Repr

/-- What `Block::execute` takes from around the block. `maxGas` is what `gas()` of every transaction
answers; `store` is the code database after a `commit`. -/
structure Node (C : Crypto) (Root : Type) where
  sealEngine : SealEngine
  maxGas : U256
  executePrecompiled : Nat → Bytes → Bytes
  interpreterVM : Interpreter
  jitVM : Interpreter
  smartVM : Interpreter
  fuel : Nat
  rootHash : (Nat → Option Record) → Root
  store : State → (H256 → Bytes) → H256 → Bytes
  stores : ∀ s db, CodeWritten s db (store s db)

structure ExecBlock (Root : Type) where
  number : U256
  gasLimit : U256
  state : State
  precommit : State
  committedToSeal : Bool := false
  isSealed : Bool := false
  transactions : List HashedTransaction
  transactionSet : Finset H256
  receipts : List (Root × TransactionReceipt)

/-- The block that is worked on, the kind that `VMFactory` is set to, and the code in the
database. -/
structure Process (Root : Type) where
  kind : VMKind
  db : H256 → Bytes
  block : ExecBlock Root

inductive BlockOutcome (Root : Type)
  | threw (q : Process Root)
  | returned (res : ExecutionResult) (q : Process Root)
  | exit

/-- How `State::execute` ends, with the root in the receipt. -/
inductive StateOutcome (Root : Type)
  | threw (s : State)
  | returned (res : ExecutionResult) (receipt : Root × TransactionReceipt) (s : State)
  | exit

def State.clearCache (s : State) : State := { s with cache := fun _ => none }

variable {C : Crypto} {Root : Type}

namespace ExecBlock

variable (b : ExecBlock Root)

def gasUsed : U256 := b.receipts.getLast?.elim 0 fun receipt => receipt.2.gasUsed

def envInfo : EnvInfo := .ofHeader b.number b.gasLimit b.gasUsed

def uncommitToSeal : ExecBlock Root :=
  if b.committedToSeal then
    { b with state := { b.precommit with changeLog := b.state.changeLog }, committedToSeal :=
      false }
  else b

def pushTransaction (t : HashedTransaction) : ExecBlock Root :=
  { b with transactions := b.transactions ++ [t], transactionSet := insert t.sha3 b.transactionSet }

def pushReceipt (receipt : Root × TransactionReceipt) : ExecBlock Root :=
  { b with receipts := b.receipts ++ [receipt] }

end ExecBlock

namespace Node

variable (node : Node C Root)

def create : VMKind → Interpreter
  | .jit => node.jitVM
  | .smart => node.smartVM
  | .interpreter => node.interpreterVM
  | .dual => node.interpreterVM

def vm (kind : VMKind) (db : H256 → Bytes) (envInfo : EnvInfo) : VM :=
  interpreted C db envInfo node.sealEngine node.maxGas node.executePrecompiled
    (node.create kind) node.fuel

def stateExecute (kind : VMKind) (db : H256 → Bytes) (envInfo : EnvInfo) (t : ExecTransaction)
    (p : Permanence) (s : State) : StateOutcome Root :=
  match s.executeLeaving C db (node.vm kind db envInfo) envInfo node.sealEngine node.maxGas t with
  | .threw s => .threw s
  | .returned res receipt s =>
      let s := if p = .reverted then s.clearCache else s
      .returned res (node.rootHash s.trie, receipt) s
  | .exit => .exit

/-- The branch of `execute` for `VMKind::Dual`. It throws with the kind at what was being run. -/
def executeDual (q : Process Root) (t : HashedTransaction) (p : Permanence) : BlockOutcome Root :=
  let b := q.block
  match node.stateExecute .jit q.db b.envInfo t.toExecTransaction .dry b.state with
  | .exit => .exit
  | .threw s => .threw { q with kind := .jit, block := { b with state := s } }
  | .returned _ _ s =>
      match node.stateExecute .interpreter q.db b.envInfo t.toExecTransaction p s.clearCache with
      | .exit => .exit
      | .threw s => .threw { q with kind := .interpreter, block := { b with state := s } }
      | .returned res receipt s =>
          let b := { b with state := s.commit }
          let b := if p = .committed then (b.pushTransaction t).pushReceipt receipt else b
          .returned res { kind := .dual, db := node.store s q.db, block := b }

/-- The branch of `execute` for any other kind. -/
def executeSingle (q : Process Root) (t : HashedTransaction) (p : Permanence) : BlockOutcome Root :=
  let b := q.block
  match node.stateExecute q.kind q.db b.envInfo t.toExecTransaction p b.state with
  | .exit => .exit
  | .threw s => .threw { q with block := { b with state := s } }
  | .returned res receipt s =>
      let b := { b with state := s }
      let b := if p = .committed then (b.pushTransaction t).pushReceipt receipt else b
      let b := if p = .onlyReceipt then b.pushReceipt receipt else b
      .returned res { q with block := b }

def execute (q : Process Root) (t : HashedTransaction) (p : Permanence) : BlockOutcome Root :=
  if q.block.isSealed then .threw q
  else
    let q := { q with block := q.block.uncommitToSeal }
    if q.kind = .dual then node.executeDual q t p else node.executeSingle q t p

/-- What comes back of calls one after the other, `none` for one that throws, and what is left. -/
def executeAll (p : Permanence) : Process Root → List HashedTransaction →
    Option (List (Option ExecutionResult) × Process Root)
  | q, [] => some ([], q)
  | q, t :: calls =>
      match node.execute q t p with
      | .exit => none
      | .threw q => (executeAll p q calls).map fun (results, q) => (none :: results, q)
      | .returned res q => (executeAll p q calls).map fun (results, q) => (some res :: results, q)

end Node

def BlockOutcome.leaves : BlockOutcome Root → Option (Process Root)
  | .threw q => some q
  | .returned _ q => some q
  | .exit => none

def BlockOutcome.answer : BlockOutcome Root → Option (Option ExecutionResult)
  | .threw _ => some none
  | .returned res _ => some (some res)
  | .exit => none

/-! What a transaction leaves that throws -/

section Throwing

variable {db : H256 → Bytes} {e : Executive} {s s' : State} {sender receiver : Nat} {value : U256}

theorem map_error {ε α β : Type} {x : Except ε α} {f : α → β} {thrown : ε}
    (mapped : x.map f = .error thrown) :
    x = .error thrown := by
  cases x with
  | error thrown' =>
      cases mapped
      rfl
  | ok a => cases mapped

theorem State.Sound.attempt_unpaid (sound : s.Sound)
    (known : s.accountStartNonce ≠ BitVec.allOnes 256)
    (threw : (StateCall.transferBalance sender receiver value).attempt C db s = .error s') :
    s'.ledger = s.ledger := by
  rcases attempt_transferBalance_cases C db s sender receiver value with
    ⟨thrown, left⟩ | ⟨t, -, left⟩
  · rw [left] at threw
    cases threw
    rcases sound.transferBalance_eq_none.mp thrown with small | ⟨-, unknown⟩
    · have untaken : s.subBalance sender value = none := by
        rw [rel_none (subBalance_shows sound.shows sound.consistent), Ledger.subBalance_eq_none,
          ← sound.balance_eq]
        exact small
      rw [run_transferBalance, untaken]
      exact account_ledger sound sender
    · exact absurd unknown known
  · rw [left] at threw
    cases threw

theorem callLeaving_raised (sound : e.s.Sound) (external : e.t.isSome = true)
    (known : e.s.accountStartNonce ≠ BitVec.allOnes 256) {codeAddress : Nat}
    {apparentValue gas gasPrice : U256} {data : Bytes} {origin : Nat}
    (threw : e.callLeaving C db sender codeAddress receiver value apparentValue gas data gasPrice
      origin = .error s') :
    s'.ledger.holding = e.s.ledger.raised sender := by
  unfold Executive.callLeaving at threw
  rw [if_pos external] at threw
  rcases attempt_incNonce_cases C db sound sender with ⟨-, unknown, -⟩ | ⟨s₁, done, left⟩
  · exact absurd unknown known
  · rw [left] at threw
    have raised : Raised C db sender e.s s₁ := sound.raised done
    rcases raised.start sound with ⟨sound₁, start⟩
    -- the payment, after the code was read
    have paid : ∀ {s₂ : State}, s₂.Sound → s₂.ledger = s₁.ledger →
        (StateCall.transferBalance sender receiver value).attempt C db s₂ = .error s' →
          s'.ledger.holding = e.s.ledger.raised sender := by
      intro s₂ sound₂ same threw
      have known₂ : s₂.accountStartNonce ≠ BitVec.allOnes 256 := by
        rw [show s₂.accountStartNonce =
          s₁.accountStartNonce from congrArg Ledger.accountStartNonce same, start]
        exact known
      rw [sound₂.attempt_unpaid known₂ threw, same, raised.holding]
    have read := account_ledger sound₁ codeAddress
    have sound₂ := (sound₁.account codeAddress).sound
    change (if e.sealEngine.isPrecompiled codeAddress = true then _ else _) = _ at threw
    split at threw
    · split at threw
      · cases threw
      · exact paid sound₁ rfl (map_error threw)
    · split at threw
      · exact paid (sound₂.code codeAddress).sound
          ((sound₂.code_shows codeAddress).ledger.trans read) (map_error threw)
      · exact paid sound₂ read (map_error threw)

theorem createLeaving_raised (sound : e.s.Sound)
    (known : e.s.accountStartNonce ≠ BitVec.allOnes 256) {gasPrice gas : U256} {init : Bytes}
    {origin : Nat} (threw : e.createLeaving C db sender value gasPrice gas init origin =
      .error s') :
    s'.ledger.holding = e.s.ledger.raised sender := by
  have sound₀ := (sound.account sender).sound
  have same : (e.s.account sender).2.ledger = e.s.ledger := account_ledger sound sender
  unfold Executive.createLeaving at threw
  dsimp only at threw
  generalize Executive.createdAddress C sender (e.s.getNonce sender) = newAddress at threw
  have known₀ : (e.s.account sender).2.accountStartNonce ≠ BitVec.allOnes 256 := by
    rw [show (e.s.account sender).2.accountStartNonce =
      e.s.accountStartNonce from congrArg Ledger.accountStartNonce same]
    exact known
  rcases attempt_incNonce_cases C db sound₀ sender with ⟨-, unknown, -⟩ | ⟨s₁, done, left⟩
  · exact absurd unknown known₀
  · rw [left] at threw
    have raised : Raised C db sender e.s s₁ := (sound₀.raised done).of_read sound
    rcases raised.start sound with ⟨sound₁, start⟩
    have known₁ : s₁.accountStartNonce ≠ BitVec.allOnes 256 := start ▸ known
    change ((StateCall.transferBalance sender newAddress value).attempt C db s₁).bind _ = _ at threw
    rcases attempt_transferBalance_cases C db s₁ sender newAddress value with
      ⟨-, left⟩ | ⟨t, paid, left⟩
    · rw [left] at threw
      cases threw
      rw [sound₁.attempt_unpaid known₁ left, raised.holding]
    · rw [left] at threw
      have later : s₁.Extends t :=
        since_extends (transferBalance_since paid : Since C db s₁ t) sound₁
      have forked := map_error threw
      split at forked
      · rcases attempt_incNonce_cases C db later.sound newAddress with
          ⟨-, unknown, -⟩ | ⟨u, -, left⟩
        · exact absurd (later.steps.start.symm.trans unknown) known₁
        · rw [left] at forked
          cases forked
      · cases forked

theorem executeLeaving_raised (sound : e.s.Sound) (external : e.t.isSome = true)
    (known : e.s.accountStartNonce ≠ BitVec.allOnes 256) {t : ExecTransaction}
    (threw : e.executeLeaving C db t = .error s') :
    s'.ledger.holding = e.s.ledger.raised t.sender := by
  unfold Executive.executeLeaving at threw
  split at threw
  · exact createLeaving_raised sound known threw
  · exact callLeaving_raised sound external known threw

end Throwing

theorem matched_of_holding {db : H256 → Bytes} {s t : State} (sound : s.Sound)
    (coded : s.Coded C db) (sound' : t.Sound) (coded' : t.Coded C db)
    (held : t.ledger.holding = s.ledger.holding) (start : t.accountStartNonce = s.accountStartNonce)
    (changed : ∀ a, t.ledger.isChanged a = true → s.ledger.isChanged a = true) :
    Matched C db s.ledger t.ledger s t where
  left := sound.grown coded
  right := sound'.grown coded'
  paired := ⟨⟨start, fun a _ => congrFun held a, fun a _ => changed a, nofun, nofun⟩, .start⟩

/-! How a transaction ends -/

namespace Node

variable (node : Node C Root)

/-- The gas of a transaction does not fit in what is left of the block. -/
def Full (envInfo : EnvInfo) : Prop := envInfo.gasLimit < envInfo.gasUsed.toNat + node.maxGas.toNat

/-- The gas that is handed on does not pay for the precompiled contract that is called, or the
sender has what is sent. -/
def Covered (envInfo : EnvInfo) (t : ExecTransaction) (s : State) : Prop :=
  node.sealEngine.TooDear t
      (node.maxGas -
        BitVec.ofNat 256 (gasRequired t.isCreation t.data (node.sealEngine.evmSchedule envInfo))) ∨
    t.value ≤ s.balance t.sender

variable {envInfo : EnvInfo} {s : State}

theorem executeLeaving_threw (db : H256 → Bytes) (vm : VM) (t : ExecTransaction) (sound : s.Sound)
    (known : s.accountStartNonce ≠ BitVec.allOnes 256) (fits : ¬ node.Full envInfo) :
    (∃ s', s.executeLeaving C db vm envInfo node.sealEngine node.maxGas t = .threw s' ∧
      ¬ node.Covered envInfo t s ∧
        s'.ledger.holding = s.ledger.raised t.sender) ∨
      (node.Covered envInfo t s ∧
        ∀ s', s.executeLeaving C db vm envInfo node.sealEngine node.maxGas t ≠ .threw s') := by
  let e : Executive :=
    { s, envInfo, sealEngine := node.sealEngine, maxGas := node.maxGas, depth := 0, t := some t
      baseGasRequired := gasRequired t.isCreation t.data (node.sealEngine.evmSchedule envInfo) }
  have accepted : Executive.initializeTransaction
      { s, envInfo, sealEngine := node.sealEngine, maxGas := node.maxGas, depth := 0 } t = some e :=
      if_neg fits
  have executed : Executed C db t.sender (t.payee C s) t.value (e.sealEngine.TooDear t e.startGas) s
      (e.executeLeaving C db t) := executeLeaving_executed C db (e := e) sound rfl rfl rfl rfl t
  have raised : ∀ {s'}, e.executeLeaving C db t = .error s' →
      s'.ledger.holding = s.ledger.raised t.sender :=
    fun threw => executeLeaving_raised (e := e) sound rfl known threw
  have balance : ¬ s.Unpaid t.sender (t.payee C s) t.value ↔ t.value ≤ s.balance t.sender := by
    unfold State.Unpaid
    rw [not_or, BitVec.not_lt]
    exact and_iff_left fun both => known both.2
  have past : ∀ {finished e'}, e.executeLeaving C db t = .ok (finished, e') → ∀ s',
      s.executeLeaving C db vm envInfo node.sealEngine node.maxGas t ≠ .threw s' := by
    intro finished e' entered s' threw
    rw [State.executeLeaving_ok accepted entered] at threw
    generalize (if finished = true then some e' else e'.go C vm) = gone at threw
    cases gone with
    | none => cases threw
    | some e'' => cases threw
  generalize after : e.executeLeaving C db t = x at executed
  cases executed with
  | refused missing unknown since same => exact absurd unknown known
  | outOfGas dear _ _ _ _ => exact .inr ⟨.inl dear, past after⟩
  | unpaid cheap _ unpaid _ =>
      refine .inl ⟨_, State.executeLeaving_error accepted after, ?_, raised after⟩
      rintro (dear | covered)
      · exact cheap dear
      · exact balance.mpr covered unpaid
  | finished paid _ => exact .inr ⟨.inr (balance.mp paid), past after⟩
  | framed paid _ _ _ _ _ _ => exact .inr ⟨.inr (balance.mp paid), past after⟩

end Node

/-! The cache that is cleared -/

namespace State

variable {db : H256 → Bytes} {s : State} {l : Ledger}

def Clean (s : State) : Prop := ∀ a acc, s.cache a = some acc → acc.isAlive = true ∧
  s.trie a = some acc.record

theorem clean_iff : s.Clean ↔ s.ledger.holding = fun a => (s.trie a).map (Holding.mk true) := by
  constructor
  · intro clean
    funext a
    cases cached : s.cache a with
    | none => exact ledger_holding_none cached
    | some acc =>
        rcases clean a acc cached with ⟨alive, stored⟩
        rw [ledger_holding_some cached, stored, Account.holding, alive]
        rfl
  · intro held a acc cached
    have same := congrFun held a
    rw [ledger_holding_some cached] at same
    cases stored : s.trie a with
    | none =>
        rw [stored] at same
        cases same
    | some r =>
        rw [stored] at same
        have alike : acc.holding = ⟨true, r⟩ := Option.some.inj same
        exact ⟨congrArg Holding.isAlive alike,
          congrArg (fun h : Holding => some h.record) alike.symm⟩

theorem Kept.clearCache (kept : s.Kept C db l) : s.clearCache.Kept C db l where
  sound :=
    { shows := by
        refine ⟨rfl, fun a missing => ?_⟩
        have absent : s.trie a = none := (kept.sound.shows.missing a missing).1
        refine ⟨absent, fun h held => ?_⟩
        change (s.trie a).map (Holding.mk true) = some h at held
        rw [absent] at held
        cases held
      consistent := ⟨fun a _ => rfl, nofun⟩ }
  coded := ⟨nofun, kept.coded.stored⟩
  trie := kept.trie
  start := kept.start

theorem Kept.trans {t : State} (later : t.Kept C db s.ledger) (kept : s.Kept C db l) :
    t.Kept C db l where
  sound := later.sound
  coded := later.coded
  trie := later.trie.trans kept.trie
  start := later.start.trans kept.start

theorem Kept.commit_clear (kept : s.Kept C db l) (clear : ∀ a, s.cache a = none) :
    s.commit.Kept C db l := by
  have trie : s.commit.trie = s.trie := by
    funext a
    simp only [commit, clear a]
  refine ⟨commit_sound kept.sound,
    ⟨fun _ acc cached => absurd cached.symm (Option.some_ne_none acc), fun a r stored => ?_⟩,
     trie.trans kept.trie, kept.start⟩
  rw [trie] at stored
  exact kept.coded.stored a r stored

theorem clearCache_clean (s : State) : s.clearCache.Clean := nofun

theorem holding_of_reads {t : State} (sound : s.Sound) (sound' : t.Sound)
    (reads : ReadsAlike db s t) (dead : ∀ a, t.isDead a = s.isDead a) :
    t.ledger.holding = s.ledger.holding := by
  funext a
  have inUse := reads.addressInUse a
  have balance := reads.balance a
  have nonce := reads.getNonce a
  have codeHash := reads.codeHash a
  have storage := fun key => reads.storage a key
  have dead := dead a
  rw [sound'.addressInUse_eq, sound.addressInUse_eq] at inUse
  rw [sound'.balance_eq, sound.balance_eq] at balance
  rw [sound'.getNonce_eq, sound.getNonce_eq] at nonce
  rw [sound'.codeHash_eq, sound.codeHash_eq] at codeHash
  rw [isDead_eq, isDead_eq] at dead
  simp only [sound'.storage_eq, sound.storage_eq, Ledger.storage] at storage
  cases held : s.ledger.holding a with
  | none =>
      rw [held] at inUse
      exact Option.isSome_eq_false_iff.mp inUse |> Option.isNone_iff_eq_none.mp
  | some h =>
      rw [held] at inUse balance nonce codeHash dead storage
      cases held' : t.ledger.holding a with
      | none =>
          rw [held'] at inUse
          cases inUse
      | some h' =>
          rw [held'] at balance nonce codeHash dead storage
          have record : h'.record = h.record := Record.ext nonce balance (funext storage) codeHash
          have alive : h'.isAlive = h.isAlive := Bool.not_inj dead
          rcases h with ⟨isAlive, r⟩
          rcases h' with ⟨isAlive', r'⟩
          dsimp only at record alive
          rw [record, alive]

end State

/-! One call on a block -/

variable (C) in
/-- A block that is not committed, on which accounts can be made. -/
structure Process.Sane (q : Process Root) : Prop where
  sound : q.block.state.Sound
  coded : q.block.state.Coded C q.db
  known : q.block.state.accountStartNonce ≠ BitVec.allOnes 256
  uncommitted : q.block.committedToSeal = false

variable (C) in
/-- How `State::execute` ends; with `Permanence::Reverted` it clears the cache. -/
inductive Node.StateEnds (node : Node C Root) (db : H256 → Bytes) (envInfo : EnvInfo)
    (t : ExecTransaction) (p : Permanence) (s : State) : StateOutcome Root → Prop
  | full : node.Full envInfo → StateEnds node db envInfo t p s (.threw s)
  | unpaid {s' : State} : ¬ node.Full envInfo → ¬ node.Covered envInfo t s → s'.Kept C db s.ledger →
      s'.ledger.holding = s.ledger.raised t.sender → StateEnds node db envInfo t p s (.threw s')
  | returned {res : ExecutionResult} {receipt : Root × TransactionReceipt}
      {s' : State} : ¬ node.Full envInfo →
      node.Covered envInfo t s → s'.Kept C db s.ledger → receipt.1 = node.rootHash s.trie →
        (p = .reverted → ∀ a, s'.cache a = none) →
        StateEnds node db envInfo t p s (.returned res receipt s')
  | exit : ¬ node.Full envInfo → node.Covered envInfo t s → StateEnds node db envInfo t p s .exit

namespace Node

variable {node : Node C Root} {db : H256 → Bytes} {envInfo : EnvInfo} {s : State} {p : Permanence}
    {q q' : Process Root} {t : HashedTransaction}

variable (node p) in
theorem stateExecute_ends (collisionFree : Function.Injective C.sha3)
    (empty : C.sha3 [] = EmptySHA3) (kind : VMKind) (envInfo : EnvInfo) (t : ExecTransaction)
    (sound : s.Sound) (coded : s.Coded C db) (known : s.accountStartNonce ≠ BitVec.allOnes 256) :
    node.StateEnds C db envInfo t p s (node.stateExecute kind db envInfo t p s) := by
  by_cases full : node.Full envInfo
  · have refused : s.executeLeaving C db (node.vm kind db envInfo) envInfo node.sealEngine
        node.maxGas t = .threw s := by
      unfold State.executeLeaving
      rw [show Executive.initializeTransaction
        { s, envInfo, sealEngine := node.sealEngine, maxGas := node.maxGas, depth := 0 } t =
        none from if_pos full]
    unfold stateExecute
    rw [refused]
    exact .full full
  · have even : VM.Even C db (node.vm kind db envInfo) :=
      Matched.interpreted_even collisionFree empty node.fuel
    -- what holds of two runs holds of one beside itself
    have self : Matched C db s.ledger s.ledger s s :=
      matched_of_holding sound coded sound coded rfl rfl fun _ changed => changed
    have left := self.executeLeaving collisionFree empty even envInfo node.sealEngine node.maxGas t
    have threw := node.executeLeaving_threw db (node.vm kind db envInfo) t sound known full
    unfold stateExecute
    generalize s.executeLeaving C db (node.vm kind db envInfo) envInfo node.sealEngine node.maxGas t
      = x at left threw
    rcases threw with ⟨s', rfl, uncovered, raised⟩ | ⟨covered, never⟩
    · cases left with
      | threw states => exact .unpaid full uncovered states.left.kept raised
    · cases left with
      | threw states => exact absurd rfl (never _)
      | exit => exact .exit full covered
      | @returned res receipt s' _ states =>
          have kept := states.left
          have trie : s'.trie = s.trie := kept.trie
          dsimp only
          split
          · exact .returned full covered kept.clearCache (congrArg node.rootHash trie)
              fun _ a => rfl
          case isFalse other =>
            exact .returned full covered kept (congrArg node.rootHash trie) fun reverted =>
              absurd reverted other

variable (node p) in
theorem execute_open (uncommitted : q.block.committedToSeal = false) :
    node.execute q t p = if q.block.isSealed then .threw q
      else if q.kind = .dual then node.executeDual q t p else node.executeSingle q t p := by
  have same : q.block.uncommitToSeal = q.block := by
    unfold ExecBlock.uncommitToSeal
    rw [uncommitted]
    rfl
  unfold execute
  rw [same]

variable (C) in
/-- How a reverted call ends. With two VMs the second may find less in the trie than the first in
the cache. -/
inductive Reverts (node : Node C Root) (q : Process Root) (t : HashedTransaction) :
    BlockOutcome Root → Prop
  | untouched (kind : VMKind) : q.block.isSealed = true ∨ node.Full q.block.envInfo →
      Reverts node q t (.threw { q with kind })
  | unpaid (kind : VMKind) {s' : State} : q.block.isSealed = false → ¬ node.Full q.block.envInfo →
      ¬ node.Covered q.block.envInfo t.toExecTransaction q.block.state →
      s'.ledger.holding = q.block.state.ledger.raised t.sender →
      s'.Kept C q.db q.block.state.ledger →
      Reverts node q t (.threw { q with kind, block := { q.block with state := s' } })
  | unpaidLater (kind : VMKind) {s₀ s' : State} : q.block.isSealed = false →
      ¬ node.Full q.block.envInfo →
      node.Covered q.block.envInfo t.toExecTransaction q.block.state → s₀.Clean →
      s₀.Kept C q.db q.block.state.ledger →
      ¬ node.Covered q.block.envInfo t.toExecTransaction s₀ →
      s'.ledger.holding = s₀.ledger.raised t.sender →
      s'.Kept C q.db q.block.state.ledger →
      Reverts node q t (.threw { q with kind, block := { q.block with state := s' } })
  | returned (res : ExecutionResult) {s' : State} : q.block.isSealed = false →
      ¬ node.Full q.block.envInfo →
      node.Covered q.block.envInfo t.toExecTransaction q.block.state →
      s'.Kept C q.db q.block.state.ledger →
      (∀ a, s'.cache a = none) →
      Reverts node q t (.returned res { q with block := { q.block with state := s' } })
  | exit : q.block.isSealed = false → ¬ node.Full q.block.envInfo → Reverts node q t .exit

theorem store_clear (db : H256 → Bytes) (clear : ∀ a, s.cache a = none) : node.store s db = db := by
  funext codeHash
  apply (node.stores s db).kept codeHash
  intro a acc cached
  rw [clear a] at cached
  cases cached

theorem execute_reverts (collisionFree : Function.Injective C.sha3) (empty : C.sha3 [] = EmptySHA3)
    (sane : q.Sane C) (t : HashedTransaction) :
    node.Reverts C q t (node.execute q t .reverted) := by
  rw [node.execute_open .reverted sane.uncommitted]
  split
  case isTrue isSealed => exact .untouched q.kind (.inl isSealed)
  case isFalse unsealed =>
    have unsealed : q.block.isSealed = false := by simpa using unsealed
    have ends : ∀ kind p, node.StateEnds C q.db q.block.envInfo t.toExecTransaction p q.block.state
        (node.stateExecute kind q.db q.block.envInfo t.toExecTransaction p q.block.state) :=
        fun kind p =>
      node.stateExecute_ends p collisionFree empty kind q.block.envInfo t.toExecTransaction
        sane.sound sane.coded sane.known
    split
    case isTrue dual =>
      unfold executeDual
      dsimp only
      have first := ends .jit .dry
      generalize node.stateExecute .jit q.db q.block.envInfo t.toExecTransaction .dry q.block.state
        = x at first
      cases first with
      | full full => exact .untouched .jit (.inr full)
      | unpaid fits uncovered kept raised => exact .unpaid .jit unsealed fits uncovered raised kept
      | exit fits _ => exact .exit unsealed fits
      | @returned _ _ s₁ fits covered kept _ _ =>
          have cleared := kept.clearCache
          have known : s₁.clearCache.accountStartNonce ≠ BitVec.allOnes 256 := by
            rw [show s₁.clearCache.accountStartNonce = q.block.state.accountStartNonce
              from cleared.start]
            exact sane.known
          have second :=
            node.stateExecute_ends .reverted collisionFree empty .interpreter q.block.envInfo
            t.toExecTransaction cleared.sound cleared.coded known
          dsimp only
          generalize node.stateExecute .interpreter q.db q.block.envInfo t.toExecTransaction
            .reverted s₁.clearCache = y
            at second
          cases second with
          | full full => exact absurd full fits
          | exit _ _ => exact .exit unsealed fits
          | unpaid _ uncovered later raised =>
              exact .unpaidLater .interpreter unsealed fits covered (clearCache_clean s₁) cleared
                uncovered raised
                (later.trans cleared)
          | @returned res receipt s₂ _ _ later _ clear =>
              have clear := clear rfl
              have same : ({ kind := .dual, db := node.store s₂ q.db, block :=
                { q.block with state := s₂.commit } } :
                  Process Root) = { q with block := { q.block with state := s₂.commit } } := by
                rw [store_clear q.db clear, ← dual]
              have done : node.Reverts C q t
                  (.returned res { q with block := { q.block with state := s₂.commit } }) :=
                .returned res unsealed fits covered ((later.trans cleared).commit_clear clear)
                  fun a => rfl
              rw [← same] at done
              exact done
    case isFalse single =>
      unfold executeSingle
      dsimp only
      have only := ends q.kind .reverted
      generalize node.stateExecute q.kind q.db q.block.envInfo t.toExecTransaction .reverted
        q.block.state = x at only
      cases only with
      | full full => exact .untouched q.kind (.inr full)
      | unpaid fits uncovered kept raised =>
          exact .unpaid q.kind unsealed fits uncovered raised kept
      | exit fits _ => exact .exit unsealed fits
      | returned fits covered kept _ clear =>
          exact .returned _ unsealed fits covered kept (clear rfl)

end Node

/-! What a reverted call leaves -/

/-- All accounts, and what the block has of transactions and receipts, are as they were. -/
structure Untraced (q q' : Process Root) : Prop where
  db : q'.db = q.db
  reads : ReadsAlike q.db q.block.state q'.block.state
  dead : ∀ a, q'.block.state.isDead a = q.block.state.isDead a
  transactions : q'.block.transactions = q.block.transactions
  transactionSet : q'.block.transactionSet = q.block.transactionSet
  receipts : q'.block.receipts = q.block.receipts

/-- The call is refused before anything is done, or does not throw later, and nothing in the cache
waits for a `commit`. -/
def Spared (node : Node C Root) (q : Process Root) (t : HashedTransaction) : Prop :=
  q.block.isSealed = true ∨ node.Full q.block.envInfo ∨
    (node.Covered q.block.envInfo t.toExecTransaction q.block.state ∧ q.block.state.Clean)

section Reverted

variable {node : Node C Root} {q q' : Process Root} {t : HashedTransaction} {s s' : State}
    {l : Ledger} {db : H256 → Bytes}

theorem covered_congr {envInfo : EnvInfo} {t : ExecTransaction} (sound : s.Sound)
    (sound' : s'.Sound) (held : s'.ledger.holding = s.ledger.holding) : node.Covered envInfo t s' ↔
    node.Covered envInfo t s := by
  unfold Node.Covered
  rw [sound'.balance_eq, sound.balance_eq, held]

theorem clean_holding (clean : s.Clean) (clean' : s'.Clean) (trie : s'.trie = s.trie) :
    s'.ledger.holding = s.ledger.holding := by
  rw [clean_iff.mp clean', clean_iff.mp clean, trie]

theorem untraced_of_holding (collisionFree : Function.Injective C.sha3) (sane : q.Sane C)
    (kept : s'.Kept C q.db q.block.state.ledger)
    (held : s'.ledger.holding = q.block.state.ledger.holding) (kind : VMKind) :
    Untraced q { q with kind, block := { q.block with state := s' } } where
  db := rfl
  reads := readsAlike collisionFree sane.sound sane.coded kept.sound kept.coded held kept.start
  dead a := by
    change s'.isDead a = q.block.state.isDead a
    rw [isDead_eq, isDead_eq, held]
  transactions := rfl
  transactionSet := rfl
  receipts := rfl

theorem Process.Sane.kept (sane : q.Sane C) : q.block.state.Kept C q.db q.block.state.ledger :=
  ⟨sane.sound, sane.coded, rfl, rfl⟩

theorem raised_balance (sound : s.Sound) (sound' : s'.Sound) (a : Nat)
    (raised : s'.ledger.holding = s.ledger.raised a) (x : Nat) : s'.balance x = s.balance x := by
  rw [sound'.balance_eq, sound.balance_eq, raised]
  exact raised_elim _ _ rfl fun _ _ => rfl

theorem reverted_untraced_iff (collisionFree : Function.Injective C.sha3)
    (empty : C.sha3 [] = EmptySHA3) (sane : q.Sane C) (ends : node.execute q t .reverted ≠ .exit) :
    (∀ q', (node.execute q t .reverted).leaves = some q' → Untraced q q') ↔ Spared node q t := by
  have reverts := node.execute_reverts collisionFree empty sane t
  generalize node.execute q t .reverted = x at reverts ends
  have reads : ∀ {q' : Process Root}, Untraced q q' → q'.block.state.Sound →
      q'.block.state.ledger.holding = q.block.state.ledger.holding := fun untraced sound =>
    holding_of_reads sane.sound sound untraced.reads untraced.dead
  cases reverts with
  | exit _ _ => exact absurd rfl ends
  | untouched kind refused =>
      apply iff_of_true
      · intro q' left
        cases left
        exact untraced_of_holding collisionFree sane sane.kept rfl kind
      · exact refused.elim .inl fun full => .inr (.inl full)
  | @unpaid kind s' unsealed fits uncovered raised kept =>
      apply iff_of_false
      · intro untraced
        have nonce := (untraced _ rfl).reads.getNonce t.sender
        have added : s'.getNonce t.sender = q.block.state.getNonce t.sender + 1 := by
          rw [kept.sound.getNonce_eq, sane.sound.getNonce_eq, raised, raised_self]
          cases q.block.state.ledger.holding t.sender with
          | none => rfl
          | some h => rfl
        have moved : q.block.state.getNonce t.sender + 1 ≠ q.block.state.getNonce t.sender := by
          grind
        exact moved (added.symm.trans nonce)
      · rintro (isSealed | full | ⟨covered, -⟩)
        · rw [unsealed] at isSealed
          cases isSealed
        · exact fits full
        · exact uncovered covered
  | @unpaidLater kind s₀ s' unsealed fits covered clean first uncovered raised kept =>
      have balance := raised_balance first.sound kept.sound t.sender raised t.sender
      apply iff_of_false
      · intro untraced
        have same := (untraced _ rfl).reads.balance t.sender
        apply uncovered
        rcases covered with dear | paid
        · exact .inl dear
        · have has : s₀.balance t.sender = q.block.state.balance t.sender := balance.symm.trans same
          exact .inr (has ▸ paid)
      · rintro (isSealed | full | ⟨-, clean'⟩)
        · rw [unsealed] at isSealed
          cases isSealed
        · exact fits full
        · have held := clean_holding clean' clean first.trie
          exact uncovered ((covered_congr sane.sound first.sound held).mpr covered)
  | @returned res s' unsealed fits covered kept clear =>
      have clean : s'.Clean := fun a acc cached => by
        rw [clear a] at cached
        cases cached
      constructor
      · intro untraced
        refine .inr (.inr ⟨covered, clean_iff.mpr ?_⟩)
        have held := reads (untraced _ rfl) kept.sound
        rw [← held, clean_iff.mp clean]
        exact congrArg (fun trie : Nat →
          Option Record => fun a => (trie a).map (Holding.mk true)) kept.trie
      · rintro (isSealed | full | ⟨-, clean'⟩) q' left
        · rw [unsealed] at isSealed
          cases isSealed
        · exact absurd full fits
        · cases left
          exact untraced_of_holding collisionFree sane kept
            (clean_holding clean' clean kept.trie) q.kind

end Reverted

/-! One call after the other -/

inductive SameState (r q : State → State → Prop) : StateOutcome Root → StateOutcome Root → Prop
  | threw {s t : State} : r s t → SameState r q (.threw s) (.threw t)
  | returned (res : ExecutionResult) (receipt : Root × TransactionReceipt) {s t : State} :
      q s t → SameState r q (.returned res receipt s) (.returned res receipt t)
  | exit : SameState r q .exit .exit

section Alongside

variable {node : Node C Root} {q q' : Process Root} {t : HashedTransaction} {db : H256 → Bytes}
    {l m : Ledger} {s s' : State}

theorem Ended.matched (ended : Ended C db l m s s') : Matched C db s.ledger s'.ledger s s' where
  left := ended.left.sound.grown ended.left.coded
  right := ended.right.sound.grown ended.right.coded
  paired := ⟨ended.alike, .start⟩

theorem Ended.clearCache (ended : Ended C db l m s s') (trie : m.trie = l.trie) :
    Ended C db l m s.clearCache s'.clearCache where
  left := ended.left.clearCache
  right := ended.right.clearCache
  alike := by
    have left : s.trie = l.trie := ended.left.trie
    have right : s'.trie = m.trie := ended.right.trie
    refine ⟨ended.alike.startNonce, fun a _ => ?_, nofun, nofun, nofun⟩
    change (s'.trie a).map (Holding.mk true) = (s.trie a).map (Holding.mk true)
    rw [left, right, trie]

theorem Matched.stateExecute {kind kind' : VMKind} (collisionFree : Function.Injective C.sha3)
    (empty : C.sha3 [] = EmptySHA3) (one : node.create kind = node.create kind') (envInfo : EnvInfo)
    (t : ExecTransaction) (p : Permanence) (matched : Matched C db l m s s')
    (trie : m.trie = l.trie) :
    SameState (Matched C db l m) (Ended C db l m) (node.stateExecute kind db envInfo t p s)
      (node.stateExecute kind' db envInfo t p s') := by
  have even : VM.Even C db (node.vm kind db envInfo) :=
    Matched.interpreted_even collisionFree empty node.fuel
  have both := matched.executeLeaving collisionFree empty even envInfo node.sealEngine node.maxGas t
  have vms : node.vm kind' db envInfo = node.vm kind db envInfo := by
    unfold Node.vm
    rw [one]
  unfold Node.stateExecute
  rw [vms]
  generalize s.executeLeaving C db (node.vm kind db envInfo) envInfo node.sealEngine node.maxGas t =
    x at both
  generalize s'.executeLeaving C db (node.vm kind db envInfo) envInfo node.sealEngine node.maxGas
    t = y at both
  cases both with
  | threw states => exact .threw states
  | exit => exact .exit
  | @returned res receipt u v ended =>
      have root : v.trie = u.trie := ended.right.trie.trans (trie.trans ended.left.trie.symm)
      dsimp only
      split
      · rw [show v.clearCache.trie = u.clearCache.trie from root]
        exact .returned res _ (ended.clearCache trie)
      · rw [root]
        exact .returned res _ ended

variable (C) in
/-- A block beside the one that the calls began with. After a call that is refused the kind no
longer counts. -/
structure Alongside (node : Node C Root) (q q' : Process Root) : Prop where
  kind : q'.kind = q.kind ∨ q.block.isSealed = true ∨ node.Full q.block.envInfo
  db : q'.db = q.db
  block : q'.block = { q.block with state := q'.block.state }
  matched : Matched C q.db q.block.state.ledger q'.block.state.ledger q.block.state q'.block.state
  trie : q'.block.state.trie = q.block.state.trie

namespace Alongside

theorem envInfo (alongside : Alongside C node q q') : q'.block.envInfo = q.block.envInfo := by
  rw [alongside.block]
  rfl

theorem isSealed (alongside : Alongside C node q q') : q'.block.isSealed = q.block.isSealed := by
  rw [alongside.block]

theorem sane (alongside : Alongside C node q q') (sane : q.Sane C) : q'.Sane C where
  sound := alongside.matched.right.sound
  coded := by
    rw [alongside.db]
    exact alongside.matched.right.coded
  known := by
    rw [alongside.matched.accountStartNonce]
    exact sane.known
  uncommitted := by
    rw [alongside.block]
    exact sane.uncommitted

theorem covered (alongside : Alongside C node q q') (sane : q.Sane C) :
    node.Covered q'.block.envInfo t.toExecTransaction q'.block.state ↔
      node.Covered q.block.envInfo t.toExecTransaction q.block.state := by
  rw [alongside.envInfo]
  exact covered_congr sane.sound alongside.matched.right.sound alongside.matched.holding

theorem clean (alongside : Alongside C node q q') (clean : q.block.state.Clean) :
    q'.block.state.Clean := by
  rw [clean_iff, alongside.matched.holding, alongside.trie]
  exact clean_iff.mp clean

theorem spared (alongside : Alongside C node q q') (sane : q.Sane C) (spared : Spared node q t) :
    Spared node q' t := by
  rcases spared with isSealed | full | ⟨covered, clean⟩
  · exact .inl (alongside.isSealed.trans isSealed)
  · exact .inr (.inl (alongside.envInfo ▸ full))
  · exact .inr (.inr ⟨(alongside.covered sane).mpr covered, alongside.clean clean⟩)

theorem next {q₁ : Process Root} (collisionFree : Function.Injective C.sha3)
    (empty : C.sha3 [] = EmptySHA3) (alongside : Alongside C node q q') (sane : q.Sane C)
    (spared : Spared node q t) (left : (node.execute q' t .reverted).leaves = some q₁) :
    Alongside C node q q₁ := by
  have sane' := alongside.sane sane
  have spared' := alongside.spared sane spared
  have reverts := node.execute_reverts collisionFree empty sane' t
  generalize node.execute q' t .reverted = x at reverts left
  cases reverts with
  | exit _ _ => cases left
  | untouched kind refused =>
      cases left
      rw [alongside.isSealed, alongside.envInfo] at refused
      exact ⟨.inr refused, alongside.db, alongside.block, alongside.matched, alongside.trie⟩
  | unpaid kind unsealed fits uncovered =>
      rcases spared' with isSealed | full | ⟨covered, -⟩
      · rw [unsealed] at isSealed
        cases isSealed
      · exact absurd full fits
      · exact absurd covered uncovered
  | @unpaidLater kind s₀ _ unsealed fits covered clean first uncovered =>
      rcases spared' with isSealed | full | ⟨-, clean'⟩
      · rw [unsealed] at isSealed
        cases isSealed
      · exact absurd full fits
      · have held := clean_holding clean' clean first.trie
        exact absurd ((covered_congr sane'.sound first.sound held).mpr covered) uncovered
  | @returned res s' unsealed fits covered kept clear =>
      cases left
      have trie : s'.trie = q.block.state.trie := kept.trie.trans alongside.trie
      have clean : q.block.state.Clean := by
        rcases spared with isSealed | full | ⟨-, clean⟩
        · rw [← alongside.isSealed, unsealed] at isSealed
          cases isSealed
        · exact absurd (alongside.envInfo ▸ full) fits
        · exact clean
      have clean' : s'.Clean := fun a acc cached => by
        rw [clear a] at cached
        cases cached
      have coded : s'.Coded C q.db := alongside.db ▸ kept.coded
      have start : s'.accountStartNonce = q.block.state.accountStartNonce :=
        kept.start.trans alongside.matched.accountStartNonce
      refine ⟨alongside.kind, alongside.db, ?_, ?_, trie⟩
      · rw [alongside.block]
      · apply matched_of_holding sane.sound sane.coded kept.sound coded
          (clean_holding clean clean' trie) start
        intro a changed
        change (s'.cache a).elim false Account.isDirty = true at changed
        rw [clear a] at changed
        cases changed

theorem answer (collisionFree : Function.Injective C.sha3) (empty : C.sha3 [] = EmptySHA3)
    (alongside : Alongside C node q q') (sane : q.Sane C) (t : HashedTransaction) :
    (node.execute q' t .reverted).answer = (node.execute q t .reverted).answer := by
  have refuses : ∀ {q : Process Root}, q.Sane C → q.block.isSealed = true ∨
    node.Full q.block.envInfo →
      (node.execute q t .reverted).answer = some none := by
    intro q sane refused
    have reverts := node.execute_reverts collisionFree empty sane t
    generalize node.execute q t .reverted = x at reverts
    cases reverts with
    | untouched | unpaid | unpaidLater => rfl
    | returned _ unsealed fits =>
        rcases refused with isSealed | full
        · rw [unsealed] at isSealed
          cases isSealed
        · exact absurd full fits
    | exit unsealed fits =>
        rcases refused with isSealed | full
        · rw [unsealed] at isSealed
          cases isSealed
        · exact absurd full fits
  by_cases refused : q.block.isSealed = true ∨ node.Full q.block.envInfo
  · rw [refuses sane refused, refuses (alongside.sane sane)]
    rwa [alongside.isSealed, alongside.envInfo]
  · rcases not_or.mp refused with ⟨unsealed, fits⟩
    have kind : q'.kind = q.kind := alongside.kind.resolve_right refused
    have trie : q'.block.state.ledger.trie = q.block.state.ledger.trie := alongside.trie
    rw [node.execute_open .reverted sane.uncommitted,
      node.execute_open .reverted (alongside.sane sane).uncommitted,
      alongside.isSealed, if_neg unsealed, if_neg unsealed, kind]
    split
    · unfold Node.executeDual
      dsimp only
      rw [alongside.envInfo, alongside.db]
      have first := alongside.matched.stateExecute collisionFree empty (.refl (node.create .jit))
        q.block.envInfo t.toExecTransaction .dry trie
      generalize node.stateExecute .jit q.db q.block.envInfo t.toExecTransaction .dry q.block.state
        = x at first
      generalize node.stateExecute .jit q.db q.block.envInfo t.toExecTransaction .dry q'.block.state
        = y at first
      cases first with
      | threw => rfl
      | exit => rfl
      | @returned _ _ s s' ended =>
          have cleared := ended.clearCache trie
          have second :=
            cleared.matched.stateExecute collisionFree empty (.refl (node.create .interpreter))
            q.block.envInfo t.toExecTransaction .reverted
            (cleared.right.trie.trans (trie.trans cleared.left.trie.symm))
          dsimp only
          generalize node.stateExecute .interpreter q.db q.block.envInfo t.toExecTransaction
            .reverted s.clearCache = x
            at second
          generalize node.stateExecute .interpreter q.db q.block.envInfo t.toExecTransaction
            .reverted s'.clearCache = y
            at second
          cases second with
          | threw => rfl
          | exit => rfl
          | returned => rfl
    · unfold Node.executeSingle
      dsimp only
      rw [alongside.envInfo, alongside.db, kind]
      have only := alongside.matched.stateExecute collisionFree empty (.refl (node.create q.kind))
        q.block.envInfo t.toExecTransaction .reverted trie
      generalize node.stateExecute q.kind q.db q.block.envInfo t.toExecTransaction .reverted
        q.block.state = x at only
      generalize node.stateExecute q.kind q.db q.block.envInfo t.toExecTransaction .reverted
        q'.block.state = y at only
      cases only with
      | threw => rfl
      | exit => rfl
      | returned => rfl

end Alongside

end Alongside

/-! Blocks that are worked on -/

variable (C) in
structure Populated (q : Process Root) : Prop where
  opened : ∃ trie nonce engine, q.block.state = State.opened trie nonce engine ∧
    nonce ≠ BitVec.allOnes 256 ∧
    ∀ a r, trie a = some r → Stored C q.db r.codeHash
  uncommitted : q.block.committedToSeal = false

variable (C) in
/-- A block that was populated, with any transactions executed on it. -/
inductive Worked (node : Node C Root) : Process Root → Prop
  | populated {q : Process Root} : Populated C q → Worked node q
  | executed {q q' : Process Root} (t : HashedTransaction) (p : Permanence) : Worked node q →
      (node.execute q t p).leaves = some q' → Worked node q'

section Runs

variable {node : Node C Root} {q q' : Process Root} {t : HashedTransaction} {p : Permanence}
    {calls : List HashedTransaction}

theorem Populated.sane (populated : Populated C q) : q.Sane C := by
  rcases populated.opened with ⟨trie, nonce, engine, state, known, stored⟩
  refine ⟨?_, ?_, ?_, populated.uncommitted⟩
  · rw [state]
    exact opened_sound trie nonce engine
  · rw [state]
    exact coded_opened stored nonce engine
  · rw [state]
    exact known

theorem Process.Sane.leave {s : State} {b : ExecBlock Root} (sane : q.Sane C)
    (kept : s.Kept C q.db q.block.state.ledger) (kind : VMKind) (state : b.state = s)
    (uncommitted : b.committedToSeal = false) :
    ({ q with kind, block := b } : Process Root).Sane C where
  sound := state ▸ kept.sound
  coded := state ▸ kept.coded
  known := by
    change b.state.accountStartNonce ≠ BitVec.allOnes 256
    rw [state, show s.accountStartNonce = q.block.state.accountStartNonce from kept.start]
    exact sane.known
  uncommitted

theorem Process.Sane.execute (collisionFree : Function.Injective C.sha3)
    (empty : C.sha3 [] = EmptySHA3) (sane : q.Sane C)
    (left : (node.execute q t p).leaves = some q') : q'.Sane C := by
  have uncommitted := sane.uncommitted
  have ends : ∀ kind p, node.StateEnds C q.db q.block.envInfo t.toExecTransaction p q.block.state
      (node.stateExecute kind q.db q.block.envInfo t.toExecTransaction p q.block.state) :=
      fun kind p =>
    node.stateExecute_ends p collisionFree empty kind q.block.envInfo t.toExecTransaction sane.sound
      sane.coded sane.known
  rw [node.execute_open p uncommitted] at left
  split at left
  · cases left
    exact sane
  · split at left
    · unfold Node.executeDual at left
      dsimp only at left
      have first := ends .jit .dry
      generalize node.stateExecute .jit q.db q.block.envInfo t.toExecTransaction .dry q.block.state
        = x at first left
      cases first with
      | exit => cases left
      | full =>
          cases left
          exact sane.leave sane.kept .jit rfl uncommitted
      | unpaid _ _ kept _ =>
          cases left
          exact sane.leave kept .jit rfl uncommitted
      | @returned _ _ s₁ _ _ kept _ _ =>
          have cleared := kept.clearCache
          have known : s₁.clearCache.accountStartNonce ≠ BitVec.allOnes 256 :=
            (sane.leave cleared .jit (b := { q.block with state := s₁.clearCache }) rfl
              uncommitted).known
          have second := node.stateExecute_ends p collisionFree empty .interpreter q.block.envInfo
            t.toExecTransaction
            cleared.sound cleared.coded known
          dsimp only at left
          generalize node.stateExecute .interpreter q.db q.block.envInfo t.toExecTransaction p
            s₁.clearCache = y
            at second left
          cases second with
          | exit => cases left
          | full =>
              cases left
              exact sane.leave cleared .interpreter rfl uncommitted
          | unpaid _ _ later _ =>
              cases left
              exact sane.leave (later.trans cleared) .interpreter rfl uncommitted
          | @returned res receipt s₂ _ _ later _ _ =>
              have after :=
                sane.leave (later.trans cleared) .dual (b := { q.block with state := s₂ })
                  rfl uncommitted
              have coded : s₂.commit.Coded C (node.store s₂ q.db) :=
                later.coded.commit (node.stores s₂ q.db)
              cases left
              split
              · exact ⟨commit_sound after.sound, coded, after.known, uncommitted⟩
              · exact ⟨commit_sound after.sound, coded, after.known, uncommitted⟩
    · unfold Node.executeSingle at left
      dsimp only at left
      have only := ends q.kind p
      generalize node.stateExecute q.kind q.db q.block.envInfo t.toExecTransaction p q.block.state =
        x at only left
      cases only with
      | exit => cases left
      | full =>
          cases left
          exact sane
      | unpaid _ _ kept _ =>
          cases left
          exact sane.leave kept q.kind rfl uncommitted
      | returned _ _ kept _ _ =>
          cases left
          refine sane.leave kept q.kind ?_ ?_
          · split
            · split
              · rfl
              · rfl
            · split
              · rfl
              · rfl
          · split
            · split
              · exact uncommitted
              · exact uncommitted
            · split
              · exact uncommitted
              · exact uncommitted

theorem Worked.sane (collisionFree : Function.Injective C.sha3) (empty : C.sha3 [] = EmptySHA3)
    (worked : Worked C node q) :
    q.Sane C := by
  induction worked with
  | populated populated => exact populated.sane
  | executed t p _ left ih => exact ih.execute collisionFree empty left

theorem Alongside.executeAll (collisionFree : Function.Injective C.sha3)
    (empty : C.sha3 [] = EmptySHA3) (sane : q.Sane C) (spared : ∀ t ∈ calls, Spared node q t)
    (alongside : Alongside C node q q') :
    (node.executeAll .reverted q' calls).map Prod.fst =
      calls.mapM fun t => (node.execute q t .reverted).answer := by
  induction calls generalizing q' with
  | nil => rfl
  | cons t calls ih =>
      have answer := alongside.answer collisionFree empty sane t
      have next : ∀ q₁, (node.execute q' t .reverted).leaves = some q₁ → Alongside C node q q₁ :=
        fun _ left =>
        alongside.next collisionFree empty sane (spared t List.mem_cons_self) left
      rw [List.mapM_cons, ← answer]
      unfold Node.executeAll
      generalize node.execute q' t .reverted = x at next
      have rest :=
        fun q₁ left => ih (fun t member => spared t (List.mem_cons_of_mem _ member)) (next q₁ left)
      have joined : ∀ q₁ first, (node.executeAll .reverted q₁ calls).map Prod.fst =
          (calls.mapM fun t => (node.execute q t .reverted).answer) →
            ((node.executeAll .reverted q₁ calls).map fun (results, q) => (first :: results, q)).map
              Prod.fst =
              (some first).bind fun first =>
                (calls.mapM fun t => (node.execute q t .reverted).answer).bind fun rest =>
                some (first :: rest) := by
        intro q₁ first rest
        rw [← rest]
        cases node.executeAll .reverted q₁ calls with
        | none => rfl
        | some left => rfl
      cases x with
      | exit => rfl
      | threw q₁ => exact joined q₁ none (rest q₁ rfl)
      | returned res q₁ => exact joined q₁ (some res) (rest q₁ rfl)

theorem Process.Sane.alongside (sane : q.Sane C) : Alongside C node q q where
  kind := .inl rfl
  db := rfl
  block := rfl
  matched := matched_of_holding sane.sound sane.coded sane.sound sane.coded rfl rfl
    fun _ changed => changed
  trie := rfl

end Runs

/-- A reverted execution leaves no trace exactly if it is refused at once, or is covered with
nothing in the cache that waits for a `commit`; and calls of which that is true answer in any order
what each answers alone. -/
theorem reverted_leaves_no_trace (C : Crypto) (collisionFree : Function.Injective C.sha3)
    (empty : C.sha3 [] = EmptySHA3) (node : Node C Root) (q : Process Root)
    (worked : Worked C node q) :
    (∀ t, node.execute q t .reverted ≠ .exit →
      ((∀ q', (node.execute q t .reverted).leaves = some q' → Untraced q q') ↔ Spared node q t)) ∧
    ∀ calls, (∀ t ∈ calls, Spared node q t) →
      (node.executeAll .reverted q calls).map Prod.fst =
        calls.mapM fun t => (node.execute q t .reverted).answer := by
  have sane := worked.sane collisionFree empty
  constructor
  · intro t ends
    exact reverted_untraced_iff collisionFree empty sane ends
  · intro calls spared
    exact sane.alongside.executeAll collisionFree empty sane spared

theorem codeWritten_exists (s : State) (db : H256 → Bytes) : ∃ db', CodeWritten s db db' := by
  classical
  let writes : H256 → Prop := fun codeHash =>
    ∃ x other, s.cache x = some other ∧ other.writesCode = true ∧ other.codeHash = codeHash
  have chosen : ∀ codeHash, ∃ bytes, (∀ _ : writes codeHash, ∃ x other, s.cache x = some other ∧
      other.writesCode = true ∧ other.codeHash = codeHash ∧ bytes = other.codeCache) ∧
        (¬ writes codeHash → bytes = db codeHash) := by
    intro codeHash
    by_cases written : writes codeHash
    · rcases written with ⟨x, other, cached, new, same⟩
      exact ⟨other.codeCache, fun _ => ⟨x, other, cached, new, same, rfl⟩,
        fun unwritten => absurd ⟨x, other, cached, new, same⟩ unwritten⟩
    · exact ⟨db codeHash, fun written' => absurd written' written, fun _ => rfl⟩
  choose db' right using chosen
  refine ⟨db', ?_, ?_⟩
  · intro a acc cached new
    exact (right acc.codeHash).1 ⟨a, acc, cached, new, rfl⟩
  · intro codeHash other
    apply (right codeHash).2
    rintro ⟨a, acc, cached, new, same⟩
    exact other a acc cached new same

noncomputable def failingNode : Node emptyAware (Nat → Option Record) where
  sealEngine := homestead
  maxGas := 90000
  executePrecompiled _ _ := []
  interpreterVM := failing
  jitVM := failing
  smartVM := failing
  fuel := 5
  rootHash := id
  store s db := Classical.choose (codeWritten_exists s db)
  stores s db := Classical.choose_spec (codeWritten_exists s db)

def deployedBlock (kind : VMKind) : Process (Nat → Option Record) where
  kind
  db := deployedCode
  block :=
    { number := 1, gasLimit := 200000, state := deployed, precommit := deployed, transactions := []
      transactionSet := ∅, receipts := [] }

theorem deployedBlock_populated (kind : VMKind) : Populated emptyAware (deployedBlock kind) where
  opened := by
    have code : Stored emptyAware deployedCode (emptyAware.sha3 [0x60]) := .inr (by decide +kernel)
    refine ⟨_, _, _, rfl, by decide, fun a r found => ?_⟩
    split at found
    · cases found
      exact .inl rfl
    · split at found
      · cases found
        exact code
      · cases found
  uncommitted := rfl

def hashedPayment (receiver : Nat) (value : U256) : HashedTransaction :=
  { payment receiver value with sha3 := receiver }

/-- The contract that fails is paid, and so is an account that is not there. -/
theorem reverted_leaves_no_trace_payments :
    (∀ q', (failingNode.execute (deployedBlock .interpreter) (hashedPayment 3 4) .reverted).leaves =
      some q' →
      Untraced (deployedBlock .interpreter) q') ∧
    (failingNode.executeAll .reverted (deployedBlock .interpreter)
      [hashedPayment 3 4, hashedPayment 2 10]).map Prod.fst =
      [hashedPayment 3 4, hashedPayment 2 10].mapM fun t =>
        (failingNode.execute (deployedBlock .interpreter) t .reverted).answer := by
  rcases reverted_leaves_no_trace emptyAware emptyAware_injective rfl failingNode
    (deployedBlock .interpreter)
    (.populated (deployedBlock_populated .interpreter)) with ⟨traceless, anyOrder⟩
  have spared : ∀ receiver value, value ≤ 10 →
      Spared failingNode (deployedBlock .interpreter) (hashedPayment receiver value) := by
    intro receiver value small
    have balance : (deployedBlock .interpreter).block.state.balance 1 = 10 := by decide +kernel
    refine .inr (.inr ⟨.inr ?_, nofun⟩)
    exact balance ▸ small
  constructor
  · apply (traceless (hashedPayment 3 4) ?_).mpr (spared 3 4 (by decide))
    intro ends
    have answered : (failingNode.execute (deployedBlock .interpreter)
        (hashedPayment 3 4) .reverted).answer.isSome = true := by
      decide +kernel
    rw [ends] at answered
    cases answered
  · apply anyOrder
    intro t member
    rcases List.mem_pair.mp member with rfl | rfl
    · exact spared 3 4 (by decide)
    · exact spared 2 10 (by decide)

/-- What a block has executed is lost by a reverted call. -/
theorem reverted_drops_pending :
    ¬ ∀ (q : Process (Nat → Option Record)) (t : HashedTransaction),
    Worked emptyAware failingNode q →
      ∀ q', (failingNode.execute q t .reverted).leaves = some q' → Untraced q q' := by
  intro untraced
  have ran : (match failingNode.execute (deployedBlock .interpreter) (hashedPayment 3 4) .committed
    with
      | .returned _ q =>
          match failingNode.execute q (hashedPayment 3 1) .reverted with
          | .returned _ q' => decide (q.block.state.balance 3 = 4 ∧ q'.block.state.balance 3 = 0)
          | _ => false
      | _ => false) = true := by
    decide +kernel
  split at ran
  case h_1 res q first =>
    have worked : Worked emptyAware failingNode q := by
      apply Worked.executed (hashedPayment 3 4) .committed
        (.populated (deployedBlock_populated .interpreter))
      rw [first]
      rfl
    split at ran
    case h_1 res' q' second =>
      rcases of_decide_eq_true ran with ⟨before, after⟩
      have same := (untraced q (hashedPayment 3 1) worked q' (by rw [second]; rfl)).reads.balance 3
      rw [before, after] at same
      cases same
    case h_2 => cases ran
  case h_2 => cases ran

end Accounts

end UtispaceChain
