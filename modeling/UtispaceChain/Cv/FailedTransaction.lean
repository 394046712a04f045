import UtispaceChain.Cv.ExtVM
import UtispaceChain.Cv.GasAccounting

/-! Transactions that throw or end with an exception: what they leave of the accounts. -/

namespace UtispaceChain

namespace Accounts

open Lib

section Attempts

variable (C : Crypto) (db : H256 → Bytes)

/-- How `State::execute` ends; nothing comes back if the process ends. -/
inductive ExecuteOutcome
  | threw (s : State)
  | returned (res : ExecutionResult) (receipt : TransactionReceipt) (s : State)
  | exit

/-- It came back with an exception recorded. -/
def ExecuteOutcome.Failed : ExecuteOutcome → Prop
  | .returned res _ _ => res.excepted ≠ .none
  | _ => False

namespace Executive

variable (e : Executive)

/-- `create`, with the state that is left when it throws. -/
def createLeaving (sender : Nat) (endowment gasPrice gas : U256) (init : Bytes) (origin : Nat) :
    Except State (Bool × Executive) :=
  let nonce := e.s.getNonce sender
  ((StateCall.incNonce sender).attempt C db (e.s.account sender).2).bind fun s =>
    let savepoint := s.savepoint
    let newAddress := createdAddress C sender nonce
    ((StateCall.transferBalance sender newAddress endowment).attempt C db s).bind fun s =>
      let forked := decide (e.sealEngine.eip158ForkBlock.toNat ≤ e.envInfo.number.toNat)
      (if forked then (StateCall.incNonce newAddress).attempt C db s else .ok s).map fun s =>
        let e := { e with s, savepoint, isCreation := true, newAddress, gas }
        if init ≠ [] then
          (false,
            { e with ext := some ⟨newAddress, sender, origin, endowment, gasPrice, [], init,
              e.depth, {}⟩ })
        else if s.addressHasCode newAddress then
          (true, { e with s := (s.account newAddress).2.setNewCode newAddress ⟨[], C.sha3 []⟩ })
        else (true, { e with s := (s.account newAddress).2 })

/-- `call`, with the state that is left when it throws. -/
def callLeaving (sender codeAddress receiveAddress : Nat) (valueTransfer apparentValue gas : U256)
    (data : Bytes) (gasPrice : U256) (origin : Nat) : Except State (Bool × Executive) :=
  (if e.t.isSome then (StateCall.incNonce sender).attempt C db e.s else .ok e.s).bind fun s =>
    let e := { e with s, savepoint := s.savepoint }
    let finish := fun (e : Executive) =>
      ((StateCall.transferBalance sender receiveAddress valueTransfer).attempt C db e.s).map
        fun s =>
        (e.ext.isNone, { e with s })
    if e.sealEngine.isPrecompiled codeAddress then
      let g := e.sealEngine.costOfPrecompiled codeAddress data
      if gas.toNat < g then .ok (true, { e with excepted := .outOfGasBase })
      else finish { e with gas := BitVec.ofNat 256 (gas.toNat - g) }
    else if s.addressHasCode codeAddress then
      let (code, s) := (s.account codeAddress).2.code db codeAddress
      finish { e with s, gas, ext := some ⟨receiveAddress, sender, origin, apparentValue, gasPrice,
        data, code, e.depth, {}⟩ }
    else finish { e with s := (s.account codeAddress).2, gas }

def executeLeaving (t : ExecTransaction) : Except State (Bool × Executive) :=
  if t.isCreation then e.createLeaving C db t.sender t.value t.gasPrice e.startGas t.data t.sender
  else e.callLeaving C db t.sender t.receiveAddress t.receiveAddress t.value t.value e.startGas
    t.data t.gasPrice t.sender

end Executive

/-- `State::execute`, with the state that is left when it throws. -/
def State.executeLeaving (vm : VM) (envInfo : EnvInfo) (sealEngine : SealEngine) (maxGas : U256)
    (t : ExecTransaction) (s : State) : ExecuteOutcome :=
  match Executive.initializeTransaction { s, envInfo, sealEngine, maxGas, depth := 0 } t with
  | none => .threw s
  | some e =>
      match e.executeLeaving C db t with
      | .error s => .threw s
      | .ok (finished, e) =>
          match if finished then some e else e.go C vm with
          | none => .exit
          | some e =>
              let e := e.finalize
              .returned e.res ⟨envInfo.gasUsed + e.gasUsed, e.logs, e.newAddress⟩ e.s

end Attempts

/-! Where nothing throws, these are the functions without the state that is left. -/

section Agreement

variable {C : Crypto} {db : H256 → Bytes} {e : Executive} {s : State}

theorem toOption_bind {ε α β : Type} (x : Except ε α) (f : α → Except ε β) :
    (x.bind f).toOption = x.toOption.bind fun a => (f a).toOption := by
  cases x with
  | error thrown => rfl
  | ok a => rfl

theorem toOption_map {ε α β : Type} (x : Except ε α) (f : α → β) :
    (x.map f).toOption = x.toOption.map f := by
  cases x with
  | error thrown => rfl
  | ok a => rfl

namespace Executive

theorem createLeaving_toOption (sender : Nat) (endowment gasPrice gas : U256) (init : Bytes)
    (origin : Nat) :
    (e.createLeaving C db sender endowment gasPrice gas init origin).toOption =
      e.create C sender endowment gasPrice gas init origin := by
  unfold createLeaving create createdAddress
  dsimp only
  rw [toOption_bind, attempt_incNonce]
  congr 1
  funext s
  rw [toOption_bind, attempt_transferBalance]
  congr 1
  funext s
  rw [toOption_map, attempt_incNonce_if]

theorem callLeaving_toOption (sender codeAddress receiveAddress : Nat)
    (valueTransfer apparentValue gas : U256) (data : Bytes) (gasPrice : U256) (origin : Nat) :
    (e.callLeaving C db sender codeAddress receiveAddress valueTransfer apparentValue gas data
      gasPrice origin).toOption =
      e.call db sender codeAddress receiveAddress valueTransfer apparentValue gas data gasPrice
        origin := by
  unfold callLeaving call
  rw [toOption_bind, attempt_incNonce_if]
  congr 1
  funext s
  dsimp only
  split
  · split
    · rfl
    · rw [toOption_map, attempt_transferBalance]
  · split
    · rw [toOption_map, attempt_transferBalance]
    · rw [toOption_map, attempt_transferBalance]

theorem executeLeaving_toOption (t : ExecTransaction) :
    (e.executeLeaving C db t).toOption = e.execute C db t := by
  unfold executeLeaving execute
  split
  · exact createLeaving_toOption ..
  · exact callLeaving_toOption ..

end Executive

section Entered

variable {vm : VM} {envInfo : EnvInfo} {sealEngine : SealEngine} {maxGas : U256}
    {t : ExecTransaction}
    (accepted : Executive.initializeTransaction { s, envInfo, sealEngine, maxGas, depth := 0 } t =
      some e)
include accepted

theorem State.executeLeaving_error {s' : State} (threw : e.executeLeaving C db t = .error s') :
    s.executeLeaving C db vm envInfo sealEngine maxGas t = .threw s' := by
  unfold State.executeLeaving
  rw [accepted]
  dsimp only
  rw [threw]

theorem State.executeLeaving_ok {finished : Bool} {e' : Executive}
    (entered : e.executeLeaving C db t = .ok (finished, e')) :
    s.executeLeaving C db vm envInfo sealEngine maxGas t =
      (if finished then some e' else e'.go C vm).elim .exit fun e =>
      .returned e.finalize.res ⟨envInfo.gasUsed + e.finalize.gasUsed, e.finalize.logs,
        e.finalize.newAddress⟩
        e.finalize.s := by
  unfold State.executeLeaving
  rw [accepted]
  dsimp only
  rw [entered]
  dsimp only
  cases (if finished then some e' else e'.go C vm) with
  | none => rfl
  | some e'' => rfl

end Entered

end Agreement

/-! How the code before the VM ends. -/

section Execution

open State

variable (C : Crypto) (db : H256 → Bytes)

/-- The nonce cannot be raised; or it is, and then the gas does not pay for a precompiled contract,
or the payment throws, or all is done, or there is a frame for the VM. -/
inductive Executed (sender receiver : Nat) (value : U256) (expensive : Prop) (s : State) :
    Except State (Bool × Executive) → Prop
  | refused {s' : State} (missing : s.addressInUse sender = false)
      (unknown : s.accountStartNonce = BitVec.allOnes 256) (since : Since C db s s')
      (same : s'.ledger = s.ledger) : Executed sender receiver value expensive s (.error s')
  | outOfGas {e : Executive} (dear : expensive) (raised : Raised C db sender s e.s)
      (excepted : e.excepted = .outOfGasBase) (ext : e.ext = none) (logs : e.logs = []) :
      Executed sender receiver value expensive s (.ok (true, e))
  | unpaid {s' : State} (cheap : ¬ expensive) (known : s.addressInUse sender = false →
      s.accountStartNonce ≠ BitVec.allOnes 256) (unpaid : s.Unpaid sender receiver value)
      (raised : s'.getNonce sender = s.getNonce sender + 1) : Executed sender receiver value
        expensive s (.error s')
  | finished {e : Executive} (paid : ¬ s.Unpaid sender receiver value)
      (excepted : e.excepted = .none) :
      Executed sender receiver value expensive s (.ok (true, e))
  | framed {e : Executive} {ext : ExtVM} {s₁ : State} (paid : ¬ s.Unpaid sender receiver value)
      (excepted : e.excepted = .none) (raised : Raised C db sender s s₁) (savepoint : e.savepoint =
        s₁.savepoint)
      (since : Since C db s₁ e.s) (frame : e.ext = some ext)
        (inUse : e.s.addressInUse ext.myAddress = true) :
      Executed sender receiver value expensive s (.ok (false, e))

variable {C db} {e : Executive} {s s₁ s₂ : State} {sender receiver : Nat} {value : U256}
    {expensive : Prop}

theorem Executed.of_payment (e : Executive) (sound : s.Sound) (raised : Raised C db sender s s₁)
    (since : Since C db s₁ s₂) (same : s₂.ledger = s₁.ledger) (cheap : ¬ expensive)
    (state : e.s = s₂) (savepoint : e.savepoint = s₁.savepoint) (excepted : e.excepted = .none)
    (frame : ∀ ext, e.ext = some ext → ext.myAddress = receiver) :
    Executed C db sender receiver value expensive s
      (((StateCall.transferBalance sender receiver value).attempt C db e.s).map
        fun s => (e.ext.isNone, { e with s })) := by
  subst state
  have raised₂ := raised.reads since same
  have sound₂ := (raised₂.start sound).1
  rcases attempt_transferBalance_cases C db e.s sender receiver value with
    ⟨thrown, left⟩ | ⟨t, paid, left⟩
  · rw [left]
    apply Executed.unpaid cheap raised.known (raised₂.unpaid sound |>.mp thrown)
    rw [sound₂.transferBalance_nonce thrown, raised₂.getNonce sound]
  · rw [left]
    have covered : ¬ s.Unpaid sender receiver value := by
      intro unpaid
      rw [(raised₂.unpaid sound).mpr unpaid] at paid
      cases paid
    change Executed C db sender receiver value expensive s (.ok (e.ext.isNone, { e with s := t }))
    rcases Option.eq_none_or_eq_some e.ext with missing | ⟨ext, present⟩
    · rw [Option.isNone_iff_eq_none.mpr missing]
      exact .finished covered excepted
    · have entered : e.ext.isNone = false := by
        rw [present]
        rfl
      have later : Since C db s₁ t := since_trans since (transferBalance_since paid)
      have inUse : t.addressInUse ext.myAddress = true := by
        rw [frame ext present]
        exact (sound₂.transferBalance_paid paid).inUse
      rw [entered]
      exact .framed covered excepted raised savepoint later present inUse

theorem callLeaving_executed (sound : e.s.Sound) (external : e.t.isSome = true)
    (fresh : e.ext = none) (excepted : e.excepted = .none) (logs : e.logs = []) (codeAddress : Nat)
    (apparentValue gas : U256) (data : Bytes) (gasPrice : U256) (origin : Nat) :
    Executed C db sender receiver value
      (e.sealEngine.isPrecompiled codeAddress = true ∧
        gas.toNat < e.sealEngine.costOfPrecompiled codeAddress data) e.s
      (e.callLeaving C db sender codeAddress receiver value apparentValue gas data gasPrice
        origin) := by
  unfold Executive.callLeaving
  rw [if_pos external]
  rcases attempt_incNonce_cases C db sound sender with ⟨missing, unknown, left⟩ | ⟨s₁, done, left⟩
  · rw [left]
    apply Executed.refused missing unknown _ (account_ledger sound sender)
    exact account_since e.s sender
  · rw [left]
    have raised : Raised C db sender e.s s₁ := sound.raised done
    have sound₁ := (raised.start sound).1
    change Executed _ _ _ _ _ _ _ (if e.sealEngine.isPrecompiled codeAddress = true then _ else _)
    split
    case isTrue precompiled =>
      split
      case isTrue dear => exact .outOfGas ⟨precompiled, dear⟩ raised rfl fresh logs
      case isFalse cheap =>
        apply Executed.of_payment
          { e with s := s₁, savepoint := s₁.savepoint, gas := BitVec.ofNat 256 _ } sound raised
          (.start s₁) rfl (fun dear => cheap dear.2) rfl rfl excepted
        intro ext present
        rw [fresh] at present
        cases present
    case isFalse plain =>
      have read : Since C db s₁ (s₁.account codeAddress).2 := account_since s₁ codeAddress
      have cheap : ¬ (e.sealEngine.isPrecompiled codeAddress = true ∧
          gas.toNat < e.sealEngine.costOfPrecompiled codeAddress data) := fun dear => plain dear.1
      split
      · have sound₂ := (sound₁.account codeAddress).sound
        have coded : Since C db s₁ ((s₁.account codeAddress).2.code db codeAddress).2 :=
          read.call (.code codeAddress) trivial
        have same : ((s₁.account codeAddress).2.code db codeAddress).2.ledger = s₁.ledger :=
          (sound₂.code_shows codeAddress).ledger.trans (account_ledger sound₁ codeAddress)
        apply Executed.of_payment { e with
          s := _, savepoint := s₁.savepoint, gas
          ext := some ⟨receiver, sender, origin, apparentValue, gasPrice, data, _, e.depth, {}⟩ }
            sound raised coded same
          cheap rfl rfl excepted
        intro ext present
        cases present
        rfl
      · apply Executed.of_payment { e with s := _, savepoint := s₁.savepoint, gas }
          sound raised read
          (account_ledger sound₁ codeAddress) cheap rfl rfl excepted
        intro ext present
        rw [fresh] at present
        cases present

theorem createLeaving_executed (sound : e.s.Sound) (excepted : e.excepted = .none)
    (endowment gasPrice gas : U256) (init : Bytes) (origin : Nat) :
    Executed C db sender (Executive.createdAddress C sender (e.s.getNonce sender))
      endowment False e.s
      (e.createLeaving C db sender endowment gasPrice gas init origin) := by
  have sound₀ := (sound.account sender).sound
  have same : (e.s.account sender).2.ledger = e.s.ledger := account_ledger sound sender
  have read : Since C db e.s (e.s.account sender).2 := account_since e.s sender
  unfold Executive.createLeaving
  dsimp only
  generalize Executive.createdAddress C sender (e.s.getNonce sender) = newAddress
  rcases attempt_incNonce_cases C db sound₀ sender with ⟨missing, unknown, left⟩ | ⟨s₁, done, left⟩
  · rw [left]
    have absent : e.s.addressInUse sender = false := by
      rw [sound.addressInUse_eq, ← same, ← sound₀.addressInUse_eq, missing]
    have start : e.s.accountStartNonce = BitVec.allOnes 256 :=
      (congrArg Ledger.accountStartNonce same).symm.trans unknown
    apply Executed.refused absent start (read.call (.account sender) trivial)
    exact (account_ledger sound₀ sender).trans same
  · rw [left]
    have raised : Raised C db sender e.s s₁ := (sound₀.raised done).of_read sound
    have sound₁ := (raised.start sound).1
    change Executed _ _ _ _ _ _ _ (((StateCall.transferBalance sender newAddress endowment).attempt
      C db s₁).bind _)
    rcases attempt_transferBalance_cases C db s₁ sender newAddress endowment with
      ⟨thrown, left⟩ | ⟨t, paid, left⟩
    · rw [left]
      apply Executed.unpaid not_false raised.known ((raised.unpaid sound).mp thrown)
      rw [sound₁.transferBalance_nonce thrown, raised.getNonce sound]
    · rw [left]
      have covered : ¬ e.s.Unpaid sender newAddress endowment := by
        intro unpaid
        rw [(raised.unpaid sound).mpr unpaid] at paid
        cases paid
      rcases sound₁.transferBalance_paid paid with ⟨soundT, inUse, -, -⟩
      have later : Since C db s₁ t := transferBalance_since paid
      -- the new account is there, so that its nonce can be raised
      have nonce : ∀ forked : Bool, ∃ u,
        (if forked then (StateCall.incNonce newAddress).attempt C db t else .ok t) = .ok u ∧
          Since C db s₁ u ∧ u.addressInUse newAddress = true := by
        intro forked
        cases forked with
        | false => exact ⟨t, rfl, later, inUse⟩
        | true =>
            rcases attempt_incNonce_cases C db soundT newAddress with
              ⟨missing, -, -⟩ | ⟨u, done, left⟩
            · rw [inUse] at missing
              cases missing
            · have raisedU : Raised C db newAddress t u := soundT.raised done
              exact ⟨u, left, since_trans later raisedU.since, raisedU.inUse soundT⟩
      rcases nonce (decide (e.sealEngine.eip158ForkBlock.toNat ≤ e.envInfo.number.toNat)) with
        ⟨u, same, since, there⟩
      change Executed _ _ _ _ _ _ _ (Except.map _ _)
      rw [same]
      change Executed _ _ _ _ _ _ _ (.ok (if init ≠ [] then _ else _))
      split
      · exact .framed covered excepted raised rfl since rfl there
      · split
        · exact .finished covered excepted
        · exact .finished covered excepted

def ExecTransaction.payee (C : Crypto) (t : ExecTransaction) (s : State) : Nat :=
  if t.isCreation then Executive.createdAddress C t.sender (s.getNonce t.sender)
    else t.receiveAddress

/-- The gas that is handed on does not pay for the precompiled contract that is called. -/
def SealEngine.TooDear (sealEngine : SealEngine) (t : ExecTransaction) (startGas : U256) : Prop :=
  t.isCreation = false ∧ sealEngine.isPrecompiled t.receiveAddress = true ∧
    startGas.toNat < sealEngine.costOfPrecompiled t.receiveAddress t.data

variable (C db) in
theorem executeLeaving_executed (sound : e.s.Sound) (external : e.t.isSome = true)
    (fresh : e.ext = none) (excepted : e.excepted = .none) (logs : e.logs = [])
    (t : ExecTransaction) :
    Executed C db t.sender (t.payee C e.s) t.value (e.sealEngine.TooDear t e.startGas) e.s
      (e.executeLeaving C db t) := by
  unfold Executive.executeLeaving ExecTransaction.payee
  by_cases creation : t.isCreation = true
  · have never : e.sealEngine.TooDear t e.startGas = False := by simp [SealEngine.TooDear, creation]
    rw [if_pos creation, if_pos creation, never]
    exact createLeaving_executed sound excepted ..
  · have plain : t.isCreation = false := by simpa using creation
    have dear : e.sealEngine.TooDear t e.startGas =
      (e.sealEngine.isPrecompiled t.receiveAddress = true ∧
        e.startGas.toNat < e.sealEngine.costOfPrecompiled t.receiveAddress t.data) := by
      simp [SealEngine.TooDear, plain]
    rw [if_neg creation, if_neg creation, dear]
    exact callLeaving_executed sound external fresh excepted logs ..

theorem caught_finalize {ext : ExtVM} (present : e.ext = some ext)
    (excepted : TransactionException) :
    (e.caught excepted).finalize.logs = [] ∧ (e.caught excepted).finalize.s =
      e.s.rollback e.savepoint := by
  unfold Executive.caught Executive.revert Executive.finalize
  rw [present]
  exact ⟨rfl, rfl⟩

theorem go_rolls_back {vm : VM} {ext : ExtVM} {e' : Executive} (present : e.ext = some ext)
    (excepted : e.excepted = .none) (done : e.go C vm = some e') :
    e'.finalize.res.excepted = .none ∨ ∃ s', (vm e.gas ext e.s).leaves = some s' ∧
    e'.finalize.logs = [] ∧
      e'.finalize.s = s'.rollback e.savepoint := by
  unfold Executive.go at done
  rw [present] at done
  dsimp only at done
  split at done
  · cases done
  case h_2 x s' outcome =>
    cases done
    rw [outcome]
    exact .inr ⟨s', rfl, caught_finalize rfl x⟩
  case h_3 gas out sub s' outcome =>
    rw [outcome]
    have caught : (({ e with gas, s := s', ext := some { ext with sub } } : Executive).caught
      .outOfGas).finalize.logs = [] ∧
        (({ e with gas, s := s', ext := some { ext with sub } } : Executive).caught
          .outOfGas).finalize.s =
          s'.rollback e.savepoint :=
      caught_finalize rfl .outOfGas
    split at done
    · cases done
      unfold Executive.deposit
      dsimp only
      split
      · exact .inr ⟨s', rfl, caught⟩
      · split
        · exact .inl excepted
        · split
          · exact .inr ⟨s', rfl, caught⟩
          · exact .inl excepted
    · cases done
      exact .inl excepted

variable (db) in
/-- A transaction that throws leaves all as it was. One that returns with an exception leaves the
nonce of the sender raised and nothing else, no logs, and no account killed. -/
structure LeavesNoTrace (sender : Nat) (s : State) (outcome : ExecuteOutcome) : Prop where
  threw : ∀ s', outcome = .threw s' → ReadsAlike db s s'
  excepted : ∀ res receipt s', outcome = .returned res receipt s' → res.excepted ≠ .none →
    NonceRaised db sender s s' ∧ receipt.logs = [] ∧ ∀ a, s'.isDead a = s.isDead a

/-- A transaction is refused before its nonce is raised, or does not pay for a precompiled contract,
or pays. -/
def RefusedOrPaid (C : Crypto) (envInfo : EnvInfo) (sealEngine : SealEngine) (maxGas : U256)
    (t : ExecTransaction) (s : State) : Prop :=
  envInfo.gasLimit < envInfo.gasUsed.toNat + maxGas.toNat ∨
    (s.addressInUse t.sender = false ∧ s.accountStartNonce = BitVec.allOnes 256) ∨
      sealEngine.TooDear t (maxGas -
        BitVec.ofNat 256 (gasRequired t.isCreation t.data (sealEngine.evmSchedule envInfo))) ∨
        ¬ s.Unpaid t.sender (t.payee C s) t.value

theorem Raised.recovered (collisionFree : Function.Injective C.sha3)
    (empty : C.sha3 [] = EmptySHA3) (sound : s.Sound) (coded : s.Coded C db)
    (raised : Raised C db sender s s₁) {L : List Nat} (recovers : Recovers C db L s₁ s₂)
    (spared : s.Spares L) :
    NonceRaised db sender s (s₂.rollback s₁.savepoint) ∧ ∀ a, (s₂.rollback s₁.savepoint).isDead a =
      s.isDead a := by
  have sound₁ := (raised.start sound).1
  have coded₁ := since_coded empty raised.since coded
  obtain ⟨back, held⟩ := recovers.rollback
  have spared₁ : s₁.Spares L := by
    intro a known
    rw [addressHasCode_eq, raised.codeHash sound, ← addressHasCode_eq]
    exact spared a known
  rw [forget_spared sound₁ spared₁] at held
  constructor
  · apply (raised.nonceRaised collisionFree empty sound coded).congr
    exact readsAlike collisionFree sound₁ coded₁ back.sound (back.coded coded₁) held
      back.forgets.start
  · exact raised_isDead (held.trans raised.holding)

theorem Raised.rolled_back (collisionFree : Function.Injective C.sha3)
    (empty : C.sha3 [] = EmptySHA3) (sound : s.Sound) (coded : s.Coded C db)
    (raised : Raised C db sender s s₁) (since : Since C db s₁ s₂) :
    NonceRaised db sender s (s₂.rollback s₁.savepoint) ∧ ∀ a, (s₂.rollback s₁.savepoint).isDead a =
      s.isDead a :=
  Raised.recovered collisionFree empty sound coded raised
    (since_recovers empty since (raised.start sound).1) (by nofun)

/-- Of an account that had code and of which code was set, no code is left. -/
theorem NonceRaised.spared {t : State} {L : List Nat}
    (raised : NonceRaised db sender s (t.rollback s₁.savepoint))
    (recovers : Recovers C db L s₁ t) : s.Spares L := by
  obtain ⟨back, held⟩ := recovers.rollback
  intro a known
  rw [addressHasCode_eq, ← raised.codeHash a, ← addressHasCode_eq]
  exact forget_hasCode known back.sound held

theorem leavesNoTrace_threw {s' : State} :
    LeavesNoTrace db sender s (.threw s') ↔ ReadsAlike db s s' := by
  refine ⟨fun traceless => traceless.threw s' rfl, fun alike => ⟨fun t same => ?_, nofun⟩⟩
  cases same
  exact alike

theorem leavesNoTrace_returned {res : ExecutionResult} {receipt : TransactionReceipt} {s' : State} :
    LeavesNoTrace db sender s (.returned res receipt s') ↔ (res.excepted ≠ .none →
      NonceRaised db sender s s' ∧ receipt.logs = [] ∧ ∀ a, s'.isDead a = s.isDead a) := by
  refine ⟨fun traceless => traceless.excepted res receipt s' rfl, fun kept => ⟨nofun, ?_⟩⟩
  intro res' receipt' t same recorded
  cases same
  exact kept recorded

section Traceless

variable {vm : VM} {envInfo : EnvInfo} {sealEngine : SealEngine} {maxGas : U256}
    {t : ExecTransaction} (collisionFree : Function.Injective C.sha3)
    (empty : C.sha3 [] = EmptySHA3) (sound : s.Sound) (coded : s.Coded C db)
include collisionFree empty sound coded

/-- The frame has failed: what it leaves shows of which accounts it has set code. -/
theorem framed_traceless {e₁ e₂ : Executive} {ext : ExtVM} {clear : Prop}
    (excepted : e₁.excepted = .none) (raised : Raised C db sender s s₁)
    (savepoint : e₁.savepoint = s₁.savepoint) (since : Since C db s₁ e₁.s)
    (frame : e₁.ext = some ext)
    (ran : ∀ s', (vm e₁.gas ext e₁.s).leaves = some s' →
      ∃ L, Recovers C db L e₁.s s' ∧ (clear ↔ s.Spares L))
    (done : e₁.go C vm = some e₂) :
    (e₂.finalize.res.excepted ≠ .none → NonceRaised db sender s e₂.finalize.s ∧
      e₂.finalize.logs = [] ∧ ∀ a, e₂.finalize.s.isDead a = s.isDead a) ↔
      (e₂.finalize.res.excepted ≠ .none → clear) := by
  obtain none | ⟨s', left, logs, state⟩ := go_rolls_back frame excepted done
  · exact iff_of_true (absurd none) (absurd none)
  · obtain ⟨L, inner, clears⟩ := ran s' left
    have all : Recovers C db L s₁ s' :=
      (since_recovers empty since (raised.start sound).1).trans inner
    rw [state, savepoint, logs, clears]
    refine forall_congr' fun _ => ⟨fun kept => ?_, fun spared => ?_⟩
    · exact NonceRaised.spared kept.1 all
    · obtain ⟨nonce, dead⟩ := Raised.recovered collisionFree empty sound coded raised all spared
      exact ⟨nonce, rfl, dead⟩

theorem leavesNoTrace_iff {clear : Executive → ExtVM → Prop}
    (ran : ∀ e₁ ext s', e₁.ext = some ext → Since C db s e₁.s →
      e₁.s.addressInUse ext.myAddress = true → (vm e₁.gas ext e₁.s).leaves = some s' →
        ∃ L, Recovers C db L e₁.s s' ∧ (clear e₁ ext ↔ s.Spares L)) :
    LeavesNoTrace db t.sender s (s.executeLeaving C db vm envInfo sealEngine maxGas t) ↔
      RefusedOrPaid C envInfo sealEngine maxGas t s ∧
        ((s.executeLeaving C db vm envInfo sealEngine maxGas t).Failed → ∀ e e₁ ext,
          Executive.initializeTransaction { s, envInfo, sealEngine, maxGas, depth := 0 } t =
            some e →
          e.executeLeaving C db t = .ok (false, e₁) → e₁.ext = some ext → clear e₁ ext) := by
  unfold RefusedOrPaid
  cases accepted : Executive.initializeTransaction { s, envInfo, sealEngine, maxGas, depth := 0 } t
    with
  | none =>
      have full : envInfo.gasLimit < envInfo.gasUsed.toNat + maxGas.toNat := by
        by_contra fits
        rw [Executive.initializeTransaction, if_neg fits] at accepted
        cases accepted
      have threw : s.executeLeaving C db vm envInfo sealEngine maxGas t = .threw s := by
        unfold State.executeLeaving
        rw [accepted]
      rw [threw, leavesNoTrace_threw]
      refine iff_of_true ?_ ⟨.inl full, False.elim⟩
      exact ⟨fun a => rfl, fun a => rfl, fun a => rfl, fun a => rfl, fun a => rfl,
        fun a key => rfl⟩
  | some e =>
      rcases Executive.initializeTransaction_spec accepted with ⟨fits, same⟩
      have state : e.s = s := by rw [same]
      have executed := executeLeaving_executed C db (e := e) (by rw [state]; exact sound)
        (by rw [same]; rfl) (by rw [same]) (by rw [same]) (by rw [same]) t
      rw [state] at executed
      have dear : e.sealEngine.TooDear t e.startGas = sealEngine.TooDear t
          (maxGas - BitVec.ofNat 256
            (gasRequired t.isCreation t.data (sealEngine.evmSchedule envInfo))) := by
        rw [same]
        rfl
      rw [← dear]
      have fit : ¬ envInfo.gasLimit < envInfo.gasUsed.toNat + maxGas.toNat := by
        change (envInfo.gasUsed.toNat + maxGas.toNat : Int) ≤ envInfo.gasLimit at fits
        omega
      generalize after : e.executeLeaving C db t = x at executed
      cases executed with
      | @refused s' missing unknown since unread =>
          rw [State.executeLeaving_error accepted after, leavesNoTrace_threw]
          refine iff_of_true ?_ ⟨.inr (.inl ⟨missing, unknown⟩), False.elim⟩
          have extended := since_extends since sound
          exact readsAlike collisionFree sound coded extended.sound (since_coded empty since coded)
            (congrArg Ledger.holding unread) extended.steps.start
      | @outOfGas e₁ expensive raised excepted ext logs =>
          rw [State.executeLeaving_ok accepted after, if_pos rfl, Option.elim_some,
            leavesNoTrace_returned]
          have left : e₁.finalize.s = e₁.s ∧ e₁.finalize.logs = [] := by
            unfold Executive.finalize
            rw [ext]
            exact ⟨rfl, logs⟩
          refine iff_of_true (fun _ => ?_) ⟨.inr (.inr (.inl expensive)), ?_⟩
          · rw [left.1, left.2]
            exact ⟨raised.nonceRaised collisionFree empty sound coded, rfl,
              raised_isDead raised.holding⟩
          · intro _ e' e₁' ext' same there
            cases same
            cases after.symm.trans there
      | @unpaid s' cheap known unpaid raised =>
          rw [State.executeLeaving_error accepted after, leavesNoTrace_threw]
          apply iff_of_false
          · intro traceless
            have nonce := traceless.getNonce t.sender
            rw [raised] at nonce
            have moved : s.getNonce t.sender + 1 ≠ s.getNonce t.sender := by grind
            exact moved nonce
          · rintro ⟨full | ⟨missing, unknown⟩ | expensive | paid, -⟩
            · exact fit full
            · exact known missing unknown
            · exact cheap expensive
            · exact paid unpaid
      | @finished e₁ paid excepted =>
          rw [State.executeLeaving_ok accepted after, if_pos rfl, Option.elim_some,
            leavesNoTrace_returned]
          exact iff_of_true (absurd excepted)
            ⟨.inr (.inr (.inr paid)), fun failed => absurd excepted failed⟩
      | @framed e₁ ext s₁ paid excepted raised savepoint since frame inUse =>
          rw [State.executeLeaving_ok accepted after, if_neg Bool.false_ne_true]
          have only : (∀ e' e₁' ext', some e = some e' →
              e'.executeLeaving C db t = .ok (false, e₁') → e₁'.ext = some ext' →
                clear e₁' ext') ↔ clear e₁ ext := by
            refine ⟨fun all => all e e₁ ext rfl after frame, ?_⟩
            intro here e' e₁' ext' same there present
            cases same
            cases after.symm.trans there
            cases frame.symm.trans present
            exact here
          cases done : e₁.go C vm with
          | none =>
              exact iff_of_true ⟨nofun, nofun⟩ ⟨.inr (.inr (.inr paid)), False.elim⟩
          | some e₂ =>
              rw [Option.elim_some, leavesNoTrace_returned, only,
                framed_traceless collisionFree empty sound coded excepted raised savepoint since
                  frame (fun s' left =>
                    ran e₁ ext s' frame (since_trans raised.since since) inUse left) done]
              exact (and_iff_right (.inr (.inr (.inr paid)))).symm

end Traceless

/-- The frame of the transaction runs as it would if it gave up where a creation, at any depth, has
set code of an account that had code before the transaction. -/
def Uncollided (C : Crypto) (db : H256 → Bytes) (executePrecompiled : Nat → Bytes → Bytes)
    (interpreter : Interpreter) (fuel : Nat) (envInfo : EnvInfo) (sealEngine : SealEngine)
    (maxGas : U256) (t : ExecTransaction) (s : State) : Prop :=
  ∀ e e₁ ext, Executive.initializeTransaction { s, envInfo, sealEngine, maxGas, depth := 0 } t =
    some e →
    e.executeLeaving C db t = .ok (false, e₁) → e₁.ext = some ext →
      exec C db envInfo sealEngine maxGas executePrecompiled interpreter s.recodes fuel e₁.gas ext
        e₁.s [] =
        exec C db envInfo sealEngine maxGas executePrecompiled interpreter (fun _ => false) fuel
          e₁.gas ext e₁.s []

/-- A transaction leaves no trace exactly if it is refused before its nonce is raised, or does not
pay for a precompiled contract, or pays what it sends, and if it does not fail after code was set of
an account that had code. -/
theorem failed_leaves_no_trace (C : Crypto) (collisionFree : Function.Injective C.sha3)
    (empty : C.sha3 [] = EmptySHA3) (db : H256 → Bytes) (executePrecompiled : Nat → Bytes → Bytes)
    (interpreter : Interpreter) (fuel : Nat) (envInfo : EnvInfo) (sealEngine : SealEngine)
    (maxGas : U256) (t : ExecTransaction) (s : State) (attained : Attained C db s) :
    LeavesNoTrace db t.sender s (s.executeLeaving C db
        (interpreted C db envInfo sealEngine maxGas executePrecompiled interpreter fuel) envInfo
          sealEngine maxGas t) ↔
      RefusedOrPaid C envInfo sealEngine maxGas t s ∧
        ((s.executeLeaving C db
          (interpreted C db envInfo sealEngine maxGas executePrecompiled interpreter fuel) envInfo
            sealEngine maxGas t).Failed →
          Uncollided C db executePrecompiled interpreter fuel envInfo sealEngine maxGas t s) := by
  rcases Attained.right empty attained with ⟨sound, coded⟩
  apply leavesNoTrace_iff collisionFree empty sound coded
  intro e₁ ext s' frame since inUse left
  obtain ⟨L, recovers, ends⟩ := exec_recovers empty sound fuel e₁.gas []
    (since_recovers empty since sound) inUse left
  refine ⟨L, recovers, ?_⟩
  obtain ⟨same, spared⟩ | ⟨exited, lost⟩ := ends (by nofun)
  · exact iff_of_true same spared
  · refine iff_of_false (fun same => ?_) lost
    have gone : exec C db envInfo sealEngine maxGas executePrecompiled interpreter (fun _ => false)
        fuel e₁.gas ext e₁.s [] = .exit := same.symm.trans exited
    change (exec C db envInfo sealEngine maxGas executePrecompiled interpreter (fun _ => false) fuel
      e₁.gas ext e₁.s []).leaves = some s' at left
    rw [gone] at left
    cases left

def payment (receiver : Nat) (value : U256) : ExecTransaction := ⟨false, 1, receiver, value, 0, []⟩

def failing : Interpreter := fun _ _ answers =>
  match answers with
  | [] => .ask (.log [7] [1])
  | [_] => .call ⟨2, 3, 3, 4, 4, 0, []⟩
  | _ => .raise .outOfGas

def paymentOutcome (receiver : Nat) (value : U256) : ExecuteOutcome :=
  deployed.executeLeaving emptyAware deployedCode
    (interpreted emptyAware deployedCode (.ofHeader 1 200000 0) homestead 90000
      (fun _ _ => []) failing 5)
    (.ofHeader 1 200000 0) homestead 90000 (payment receiver value)

/-- The contract is paid, and fails. -/
theorem failed_leaves_no_trace_contract :
    (∃ res receipt s', paymentOutcome 2 4 = .returned res receipt s' ∧ res.excepted = .outOfGas) ∧
      LeavesNoTrace deployedCode 1 deployed (paymentOutcome 2 4) := by
  constructor
  · have ended : (match paymentOutcome 2 4 with
        | .returned res _ _ => decide (res.excepted = .outOfGas)
        | _ => false) = true := by
      decide +kernel
    split at ended
    case h_1 res receipt s' outcome => exact ⟨res, receipt, s', outcome, of_decide_eq_true ended⟩
    case h_2 => cases ended
  · have never : ∀ gas ext answers endowment gas' code, failing gas ext answers ≠
        .create endowment gas' code := by
      intro gas ext answers endowment gas' code
      unfold failing
      split
      · nofun
      · nofun
      · nofun
    have paid : RefusedOrPaid emptyAware (.ofHeader 1 200000 0) homestead 90000
        (payment 2 4) deployed := by
      refine .inr (.inr (.inr ?_))
      rintro (small | ⟨missing, -⟩)
      · revert small
        decide +kernel
      · revert missing
        decide +kernel
    refine (failed_leaves_no_trace emptyAware emptyAware_injective rfl deployedCode
      (fun _ _ => []) failing 5 _ homestead
      90000 (payment 2 4) deployed deployed_attained).mpr ⟨paid, fun _ => ?_⟩
    intro e e₁ ext _ _ _
    rw [exec_stop never]

/-- A payment that the sender cannot make throws, with the nonce raised. -/
theorem unpaid_raises_nonce :
    ¬ ∀ (s : State) (t : ExecTransaction), Attained emptyAware deployedCode s →
    LeavesNoTrace deployedCode t.sender s
      (s.executeLeaving emptyAware deployedCode
        (interpreted emptyAware deployedCode (.ofHeader 1 200000 0) homestead 90000
          (fun _ _ => []) failing 5)
        (.ofHeader 1 200000 0) homestead 90000 t) := by
  intro alwaysTraceless
  have traceless := alwaysTraceless deployed (payment 3 11) deployed_attained
  have raised : (match paymentOutcome 3 11 with
      | .threw s' => decide (s'.getNonce 1 = 1 ∧ deployed.getNonce 1 = 0)
      | _ => false) = true := by
    decide +kernel
  split at raised
  case h_1 s' outcome =>
    rcases of_decide_eq_true raised with ⟨after, before⟩
    have same := (traceless.threw s' outcome).getNonce 1
    rw [after, before] at same
    cases same
  case h_2 => cases raised

def collidingAddress : Nat := Executive.createdAddress emptyAware 2 1

/-- There is code at the address of the next contract of a contract. -/
def colliding : State :=
  .opened (fun a => if a = 1 then some ⟨0, 10, fun _ => 0, EmptySHA3⟩ else
    if a = 2 ∨ a = collidingAddress then some ⟨1, 0, fun _ => 7, emptyAware.sha3 [0x60]⟩
      else none) 0 fun i => i

theorem colliding_attained : Attained emptyAware deployedCode colliding := by
  refine .opened _ _ _ fun a r found => ?_
  split at found
  · cases found
    exact .inl rfl
  · split at found
    · cases found
      exact .inr (by decide +kernel)
    · cases found

def creating : Interpreter := fun gas ext answers =>
  if ext.myAddress = 2 then
    match answers with
    | [] => .create 0 gas [0x61]
    | _ => .raise .outOfGas
  else .stop gas [0x62]

/-- The contract is paid, and its frame fails after it has made a contract where there was one, of
which the code is gone then. -/
theorem collision_leaves_trace :
    Attained emptyAware deployedCode colliding ∧
    ¬ LeavesNoTrace deployedCode 1 colliding (colliding.executeLeaving emptyAware deployedCode
      (interpreted emptyAware deployedCode (.ofHeader 1 200000 0) homestead 90000
        (fun _ _ => []) creating 5)
      (.ofHeader 1 200000 0) homestead 90000 (payment 2 4)) := by
  refine ⟨colliding_attained, fun traceless => ?_⟩
  have lost : (match colliding.executeLeaving emptyAware deployedCode
        (interpreted emptyAware deployedCode (.ofHeader 1 200000 0) homestead 90000
          (fun _ _ => []) creating 5)
        (.ofHeader 1 200000 0) homestead 90000 (payment 2 4) with
      | .returned res _ s' => decide (res.excepted = .outOfGas ∧
          s'.codeHash collidingAddress ≠ colliding.codeHash collidingAddress)
      | _ => false) = true := by
    decide +kernel
  split at lost
  case h_1 res receipt s' outcome =>
    obtain ⟨failed, differs⟩ := of_decide_eq_true lost
    have raised := (traceless.excepted res receipt s' outcome (by rw [failed]; nofun)).1
    exact differs (raised.codeHash collidingAddress)
  case h_2 => cases lost

end Execution

end Accounts

end UtispaceChain
