import UtispaceChain.Cv.Executive
import UtispaceChain.Cv.LostCode

/-! `ExtVM`: what the VM does to the state, with the frames that it calls and creates. The VM is
given by its moves. -/

namespace UtispaceChain

namespace Accounts

open Lib

structure CallParameters where
  senderAddress : Nat
  codeAddress : Nat
  receiveAddress : Nat
  valueTransfer : U256
  apparentValue : U256
  gas : U256
  data : Bytes
  deriving DecidableEq, Repr

/-- What the VM asks of its `ExtVM` without starting a frame; a refund it adds to the substate
itself. -/
inductive Query
  | store (n : U256)
  | setStore (n v : U256)
  | codeAt (a : Nat)
  | codeSizeAt (a : Nat)
  | balance (a : Nat)
  | existing (a : Nat)
  | suicide (a : Nat)
  | log (topics : List H256) (data : Bytes)
  | refund (amount : U256)
  deriving DecidableEq, Repr

inductive Answer
  | nothing
  | word (v : U256)
  | bytes (b : Bytes)
  | flag (b : Bool)
  | called (success : Bool) (gas : U256) (out : Bytes)
  | created (newAddress : Nat) (gas : U256)
  deriving DecidableEq, Repr

/-- The next thing that a VM does; it raises a `VMException`, or aborts with another. -/
inductive Move
  | ask (q : Query)
  | call (p : CallParameters)
  | create (endowment gas : U256) (code : Bytes)
  | stop (gas : U256) (out : Bytes)
  | raise (excepted : TransactionException)
  | abort
  deriving DecidableEq, Repr

/-- A VM decides by the gas and the frame that it was started with, and the answers it has had, the
last one first. -/
abbrev Interpreter := U256 → ExtVM → List Answer → Move

def SubState.add (sub other : SubState) : SubState where
  suicides := sub.suicides ∪ other.suicides
  logs := sub.logs ++ other.logs
  refunds := sub.refunds + other.refunds

namespace State

def accountNonemptyAndExisting (a : Nat) (s : State) : Bool :=
  (s.account a).1.elim false fun acc => !acc.isEmpty

end State

/-- The address of the contract that a nonce of a sender makes. -/
def Executive.createdAddress (C : Crypto) (sender : Nat) (nonce : U256) : Nat :=
  right160
    (C.sha3 (Rlp.appendList (Rlp.appendBytes (toBigEndian 20 sender) ++ Rlp.appendInt nonce.toNat)))

def Executive.accrueSubState (e : Executive) (parentContext : SubState) : SubState :=
  e.ext.elim parentContext fun ext => parentContext.add ext.sub

namespace ExtVM

variable (C : Crypto) (db : H256 → Bytes) (envInfo : EnvInfo) (sealEngine : SealEngine)
    (maxGas : U256) (executePrecompiled : Nat → Bytes → Bytes) (ext : ExtVM) (s : State)

def suicide (a : Nat) : Option (ExtVM × State) :=
  ((s.account ext.myAddress).2.addBalance a (s.balance ext.myAddress)).bind fun s =>
    ((s.account ext.myAddress).2.subBalance ext.myAddress (s.balance ext.myAddress)).map fun s =>
      ({ ext with sub := { ext.sub with suicides := ext.sub.suicides.insert ext.myAddress } }, s)

/-- The functions that start no frame; nothing comes back when one throws. -/
def answer : Query → Option (Answer × ExtVM × State)
  | .store n => some (.word (s.storage ext.myAddress n).1, ext, (s.storage ext.myAddress n).2)
  | .setStore n v => some (.nothing, ext, s.setStorage ext.myAddress n v)
  | .codeAt a => some (.bytes (s.code db a).1, ext, (s.code db a).2)
  | .codeSizeAt a => some (.word (BitVec.ofNat 256 (s.code db a).1.length), ext, (s.code db a).2)
  | .balance a => some (.word (s.balance a), ext, (s.account a).2)
  | .existing a =>
      let emptinessIsNonexistence := (sealEngine.evmSchedule envInfo).eip158Mode
      some (.flag (if emptinessIsNonexistence then s.accountNonemptyAndExisting a
        else s.addressInUse a), ext, (s.account a).2)
  | .suicide a => (ext.suicide s a).map fun (ext, s) => (.nothing, ext, s)
  | .log topics data =>
      some
        (.nothing,
          { ext with sub := { ext.sub with logs := ext.sub.logs ++
            [⟨ext.myAddress, topics, data⟩] } }, s)
  | .refund amount =>
      some (.nothing, { ext with sub := { ext.sub with refunds := ext.sub.refunds + amount } }, s)

def inner : Executive := { s, envInfo, sealEngine, maxGas, depth := ext.depth + 1 }

def call (vm : VM) (p : CallParameters) : Option (Answer × ExtVM × State) :=
  ((ext.inner envInfo sealEngine maxGas s).call db p.senderAddress p.codeAddress p.receiveAddress
    p.valueTransfer
      p.apparentValue p.gas p.data ext.gasPrice ext.origin).bind fun (finished, e) =>
    if finished then
      let success := decide (e.excepted = .none)
      let out := if sealEngine.isPrecompiled p.codeAddress && success then
        executePrecompiled p.codeAddress p.data else []
      some (.called success e.gas out, ext, e.s)
    else
      (e.go C vm).map fun e =>
        (.called (decide (e.excepted = .none)) e.gas e.res.output,
          { ext with sub := e.accrueSubState ext.sub }, e.s)

def create (vm : VM) (endowment gas : U256) (code : Bytes) : Option (Answer × ExtVM × State) :=
  ((ext.inner envInfo sealEngine maxGas s).create C ext.myAddress endowment ext.gasPrice gas code
    ext.origin).bind
    fun (finished, e) =>
      if finished then some (.created e.newAddress e.gas, ext, e.s)
      else
        (e.go C vm).map fun e =>
          (.created e.newAddress e.gas, { ext with sub := e.accrueSubState ext.sub }, e.s)

end ExtVM

section Frames

variable (C : Crypto) (db : H256 → Bytes) (envInfo : EnvInfo) (sealEngine : SealEngine)
    (maxGas : U256) (executePrecompiled : Nat → Bytes → Bytes) (interpreter : Interpreter)

/-- A VM that makes the moves of an interpreter, with so much fuel for them. What another exception
than a `VMException` leaves is not seen, as the process ends. It gives up where a creation leaves a
state at which it is to stop. -/
def exec (stop : State → Bool) : Nat → U256 → ExtVM → State → List Answer → VMOutcome
  | 0, _, _, _, _ => .exit
  | fuel + 1, gas, ext, s, answers =>
      let go := fun (x : Option (Answer × ExtVM × State)) =>
        match x with
        | none => .exit
        | some (a, ext, s) => exec stop fuel gas ext s (a :: answers)
      let vm : VM := fun gas ext s => exec stop fuel gas ext s []
      match interpreter gas ext answers with
      | .ask q => go (ext.answer db envInfo sealEngine s q)
      | .call p => go (ext.call C db envInfo sealEngine maxGas executePrecompiled s vm p)
      | .create endowment gas code =>
          go ((ext.create C envInfo sealEngine maxGas s vm endowment gas code).filter
            fun x => !stop x.2.2)
      | .stop gas out => .returned gas out ext.sub s
      | .raise excepted => .exception excepted s
      | .abort => .exit

def interpreted (fuel : Nat) : VM := fun gas ext s =>
  exec C db envInfo sealEngine maxGas executePrecompiled interpreter (fun _ => false) fuel
    gas ext s []

end Frames

/-! What a frame changes it changes by calls of the state. -/

section Journaled

open State

def VMOutcome.leaves : VMOutcome → Option State
  | .returned _ _ _ s => some s
  | .exception _ s => some s
  | .exit => none

variable {C : Crypto} {db : H256 → Bytes} {envInfo : EnvInfo} {sealEngine : SealEngine}
    {maxGas : U256} {executePrecompiled : Nat → Bytes → Bytes} {vm : VM} {ext ext' : ExtVM}
    {s s' s₀ : State} {e e' : Executive} {a : Answer}

namespace ExtVM

theorem suicide_since (beneficiary : Nat) (done : ext.suicide s beneficiary = some (ext', s')) :
    Since C db s s' ∧ ext'.myAddress = ext.myAddress := by
  rcases Option.bind_eq_some_iff.mp done with ⟨s₁, paid, done⟩
  rcases Option.map_eq_some_iff.mp done with ⟨s₂, taken, same⟩
  cases same
  refine ⟨?_, rfl⟩
  have first : Since C db s s₁ :=
    since_trans (account_since s ext.myAddress) (addBalance_since paid)
  exact since_trans first (since_trans (account_since s₁ ext.myAddress) (subBalance_since taken))

theorem answer_since {q : Query} (inUse : s.addressInUse ext.myAddress = true)
    (done : ext.answer db envInfo sealEngine s q = some (a, ext', s')) :
    Since C db s s' ∧ ext'.myAddress = ext.myAddress := by
  cases q with
  | store n =>
      cases done
      exact ⟨(Since.start s).call (.storage ext.myAddress n) trivial, rfl⟩
  | setStore n v =>
      cases done
      exact ⟨(Since.start s).call (.setStorage ext.myAddress n v) inUse, rfl⟩
  | codeAt x =>
      cases done
      exact ⟨(Since.start s).call (.code x) trivial, rfl⟩
  | codeSizeAt x =>
      cases done
      exact ⟨(Since.start s).call (.code x) trivial, rfl⟩
  | balance x =>
      cases done
      exact ⟨account_since s x, rfl⟩
  | existing x =>
      cases done
      exact ⟨account_since s x, rfl⟩
  | suicide x =>
      rcases Option.map_eq_some_iff.mp done with ⟨⟨ext₁, s₁⟩, killed, same⟩
      cases same
      exact suicide_since x killed
  | log topics data =>
      cases done
      exact ⟨.start s, rfl⟩
  | refund amount =>
      cases done
      exact ⟨.start s, rfl⟩

end ExtVM

/-- What a frame leaves is reached from its savepoint, also where it is rolled back. A creation sets
code of the account it has made. -/
theorem go_since (ran : ∀ s', (vm e.gas ext e.s).leaves = some s' → Since C db e.s s')
    (sound : s₀.Sound) (since : Since C db s₀ e.s) (savepoint : e.savepoint = s₀.savepoint)
    (present : e.ext = some ext) (creation : e.isCreation = true →
      e.s.ledger.isChanged ext.myAddress = true ∧
      ∀ gas out sub s', vm e.gas ext e.s = .returned gas out sub s' →
        s'.addressHasCode ext.myAddress = false)
    (done : e.go C vm = some e') : Since C db s₀ e'.s := by
  have sound₁ : e.s.Sound := (since_extends since sound).sound
  have back : ∀ s', Since C db e.s s' → Since C db s₀ (s'.rollback e.savepoint) := by
    intro s' later
    rw [savepoint]
    exact (Since.start s₀).rollback (since_trans since later)
  unfold Executive.go at done
  rw [present] at done
  dsimp only at done
  split at done
  · cases done
  case h_2 x s' outcome =>
    cases done
    exact back s' (ran s' (by rw [outcome]; rfl))
  case h_3 gas out sub s' outcome =>
    have later : Since C db e.s s' := ran s' (by rw [outcome]; rfl)
    split at done
    case isTrue created =>
      rcases creation created with ⟨changed, bare⟩
      have sound' : s'.Sound := (since_extends later sound₁).sound
      have set : ∀ bytes, Since C db s₀ (s'.setNewCode ext.myAddress ⟨bytes, C.sha3 bytes⟩) :=
        fun bytes =>
        since_trans (since_trans since later)
          (setNewCode_since sound' (since_changed later sound₁ changed)
            (bare _ _ _ _ outcome) bytes)
      cases done
      unfold Executive.deposit
      dsimp only
      split
      · exact back s' later
      · split
        · exact set out
        · split
          · exact back s' later
          · exact set []
    case isFalse =>
      cases done
      exact since_trans since later

theorem call_since {sender codeAddress receiveAddress origin : Nat}
    {valueTransfer apparentValue gas gasPrice : U256} {data : Bytes} {finished : Bool}
    (sound : e.s.Sound) (inner : e.t = none) (fresh : e.ext = none)
    (done : e.call db sender codeAddress receiveAddress valueTransfer apparentValue gas data
      gasPrice origin =
      some (finished, e')) :
    Since C db e.s e'.s ∧ e'.savepoint = e.s.savepoint ∧ e'.isCreation = e.isCreation ∧
      (finished = false → ∃ ext, e'.ext = some ext ∧ e'.s.addressInUse ext.myAddress = true) := by
  unfold Executive.call at done
  rw [inner] at done
  change (if e.sealEngine.isPrecompiled codeAddress = true then _ else _) = _ at done
  split at done
  · split at done
    · cases done
      exact ⟨.start e.s, rfl, rfl, nofun⟩
    · rcases Option.map_eq_some_iff.mp done with ⟨s₁, paid, same⟩
      cases same
      refine ⟨transferBalance_since paid, rfl, rfl, fun entered => ?_⟩
      rw [fresh] at entered
      cases entered
  · split at done
    · rcases Option.map_eq_some_iff.mp done with ⟨s₁, paid, same⟩
      cases same
      have sound₁ := (sound.account codeAddress).sound
      have read : Since C db e.s ((e.s.account codeAddress).2.code db codeAddress).2 :=
        (account_since e.s codeAddress).call (.code codeAddress) trivial
      refine ⟨since_trans read (transferBalance_since paid), rfl, rfl, fun _ => ⟨_, rfl, ?_⟩⟩
      exact ((sound₁.code codeAddress).sound.transferBalance_paid paid).inUse
    · rcases Option.map_eq_some_iff.mp done with ⟨s₁, paid, same⟩
      cases same
      refine ⟨since_trans (account_since e.s codeAddress) (transferBalance_since paid), rfl, rfl,
        fun entered => ?_⟩
      rw [fresh] at entered
      cases entered

variable (db) in
/-- A creation raises the nonce of the creator, pays the new account, and then starts a frame or is
finished. -/
theorem create_made {sender origin : Nat} {endowment gasPrice gas : U256} {init : Bytes}
    {finished : Bool} (sound : e.s.Sound)
    (done : e.create C sender endowment gasPrice gas init origin = some (finished, e')) :
    ∃ s₁ u, Raised C db sender e.s s₁ ∧ e'.savepoint = s₁.savepoint ∧ Since C db s₁ u ∧
      u.codeHash e'.newAddress = e.s.codeHash e'.newAddress ∧
      u.addressInUse e'.newAddress = true ∧ u.ledger.isChanged e'.newAddress = true ∧
      e'.newAddress = Executive.createdAddress C sender (e.s.getNonce sender) ∧
      (finished = false ∧ e'.s = u ∧ (∃ ext, e'.ext = some ext ∧ ext.myAddress = e'.newAddress) ∨
        finished = true ∧ e'.s = if u.addressHasCode e'.newAddress then
          (u.account e'.newAddress).2.setNewCode e'.newAddress ⟨[], C.sha3 []⟩
            else (u.account e'.newAddress).2) := by
  have sound₀ := (sound.account sender).sound
  rcases Option.bind_eq_some_iff.mp done with ⟨s₁, raisedNonce, done⟩
  rcases Option.bind_eq_some_iff.mp done with ⟨t, payment, done⟩
  rcases Option.map_eq_some_iff.mp done with ⟨u, made, same⟩
  unfold Executive.createdAddress
  generalize Executive.right160 (C.sha3 (Rlp.appendList
    (Rlp.appendBytes (toBigEndian 20 sender) ++ Rlp.appendInt (e.s.getNonce sender).toNat))) =
    newAddress at *
  have raised : Raised C db sender e.s s₁ := (sound₀.raised raisedNonce).of_read sound
  have paid := (raised.start sound).1.transferBalance_paid payment
  -- the nonce of the new account, if the fork has come
  have later : Since C db t u ∧ u.codeHash newAddress = t.codeHash newAddress := by
    split at made
    · have raisedU : Raised C db newAddress t u := paid.sound.raised made
      exact ⟨raisedU.since, raisedU.codeHash paid.sound newAddress⟩
    · cases made
      exact ⟨.start t, rfl⟩
  rcases later with ⟨later, hash⟩
  have since : Since C db s₁ u := since_trans (transferBalance_since payment) later
  have kept : u.codeHash newAddress = e.s.codeHash newAddress := by
    rw [hash, paid.codeHash, raised.codeHash sound]
  have inUse := since_inUse later paid.sound paid.inUse
  have changed := since_changed later paid.sound paid.changed
  refine ⟨s₁, u, raised, ?_⟩
  dsimp only at same
  split at same
  · cases same
    exact ⟨rfl, since, kept, inUse, changed, rfl, .inl ⟨rfl, rfl, _, rfl, rfl⟩⟩
  · split at same
    case isTrue hasCode =>
      cases same
      exact ⟨rfl, since, kept, inUse, changed, rfl, .inr ⟨rfl, (if_pos hasCode).symm⟩⟩
    case isFalse bare =>
      cases same
      exact ⟨rfl, since, kept, inUse, changed, rfl, .inr ⟨rfl, (if_neg bare).symm⟩⟩

variable (db) in
theorem create_raised {sender origin : Nat} {endowment gasPrice gas : U256} {init : Bytes}
    {finished : Bool} (sound : e.s.Sound)
    (bare : e.s.addressHasCode (Executive.createdAddress C sender (e.s.getNonce sender)) = false)
    (done : e.create C sender endowment gasPrice gas init origin = some (finished, e')) :
    ∃ s₁, Raised C db sender e.s s₁ ∧ Since C db s₁ e'.s ∧ e'.savepoint = s₁.savepoint ∧
      (finished = false → ∃ ext, e'.ext = some ext ∧ e'.s.addressInUse ext.myAddress = true ∧
        e'.s.ledger.isChanged ext.myAddress = true) := by
  obtain ⟨s₁, u, raised, savepoint, since, hash, inUse, changed, address, ended⟩ :=
    create_made db sound done
  refine ⟨s₁, raised, ?_⟩
  obtain ⟨-, state, ext, present, mine⟩ | ⟨rfl, state⟩ := ended
  · rw [state]
    exact ⟨since, savepoint, fun _ => ⟨ext, present, mine ▸ inUse, mine ▸ changed⟩⟩
  · have bareU : u.addressHasCode e'.newAddress = false := by
      rw [addressHasCode_eq, hash, ← addressHasCode_eq, address, bare]
    rw [state, if_neg (by rw [bareU]; nofun)]
    exact ⟨since_trans since (account_since u _), savepoint, nofun⟩

/-- What a frame leaves leads back to its savepoint, but for the code of the accounts of which code
is set in it, and of the account that it makes. -/
theorem go_settles (present : e.ext = some ext) (before : Recovers C db [] s₀ e.s)
    (savepoint : e.savepoint = s₀.savepoint)
    (creation : e.isCreation = true → e.s.ledger.isChanged ext.myAddress = true)
    (done : e.go C vm = some e') :
    ∃ s', (vm e.gas ext e.s).leaves = some s' ∧ ∀ L, Recovers C db L e.s s' →
      Settles C db L ext.myAddress s₀ e'.s ∧
        (e.isCreation = false → Recovers C db L s₀ e'.s) := by
  have back : ∀ {L s'}, Recovers C db L e.s s' →
      Recovers C db L s₀ (s'.rollback e.savepoint) := by
    intro L s' ran
    rw [savepoint]
    exact (before.trans ran).rollback.1
  unfold Executive.go at done
  rw [present] at done
  dsimp only at done
  split at done
  · cases done
  case h_2 x s' outcome =>
    cases done
    exact ⟨s', by rw [outcome]; rfl, fun L ran => ⟨.inl (back ran), fun _ => back ran⟩⟩
  case h_3 gas out sub s' outcome =>
    refine ⟨s', by rw [outcome]; rfl, fun L ran => ?_⟩
    split at done
    case isTrue created =>
      have set : ∀ bytes, Settles C db L ext.myAddress s₀
          (s'.setNewCode ext.myAddress ⟨bytes, C.sha3 bytes⟩) := fun bytes =>
        .inr ⟨s', bytes, before.trans ran,
          ran.undoable.keeps_changed (creation created), rfl⟩
      refine ⟨?_, fun plain => absurd (created.symm.trans plain) (by nofun)⟩
      cases done
      unfold Executive.deposit
      dsimp only
      split
      · exact .inl (back ran)
      · split
        · exact set out
        · split
          · exact .inl (back ran)
          · exact set []
    case isFalse =>
      cases done
      exact ⟨.inl (before.trans ran), fun _ => before.trans ran⟩

theorem go_exit (present : e.ext = some ext) (gone : vm e.gas ext e.s = .exit) :
    e.go C vm = none := by
  unfold Executive.go
  rw [present]
  dsimp only
  rw [gone]

theorem go_congr {vm' : VM} (present : e.ext = some ext)
    (same : vm' e.gas ext e.s = vm e.gas ext e.s) : e.go C vm' = e.go C vm := by
  unfold Executive.go
  rw [present]
  dsimp only
  rw [same]

variable (C db) in
/-- A call or a creation is finished without a frame, or it is as the frame within leaves it. -/
inductive FrameEntered (leaves : List Nat → State → Prop) (f : VM → Option (Answer × ExtVM × State))
    (s : State) (vm : VM) (y : Answer × ExtVM × State) : Prop
  | finished (left : leaves [] y.2.2) (always : ∀ vm', f vm' = some y)
  | framed {gas : U256} {ext : ExtVM} {s₀ s' : State} (since : Since C db s s₀)
      (inUse : s₀.addressInUse ext.myAddress = true) (ran : (vm gas ext s₀).leaves = some s')
      (left : ∀ L, Recovers C db L s₀ s' → leaves L y.2.2)
      (alike : ∀ vm', vm' gas ext s₀ = vm gas ext s₀ → f vm' = some y)
      (gone : ∀ vm', vm' gas ext s₀ = .exit → f vm' = none)

theorem ExtVM.call_entered {p : CallParameters} (empty : C.sha3 [] = EmptySHA3)
    (sound : s.Sound) {y : Answer × ExtVM × State}
    (done : ext.call C db envInfo sealEngine maxGas executePrecompiled s vm p = some y) :
    FrameEntered C db (fun L t => Recovers C db L s t)
      (fun vm => ext.call C db envInfo sealEngine maxGas executePrecompiled s vm p) s vm y ∧
      y.2.1.myAddress = ext.myAddress := by
  rcases Option.bind_eq_some_iff.mp done with ⟨⟨finished, e₁⟩, called, done⟩
  rcases call_since (C := C) sound rfl rfl called with ⟨since, savepoint, creation, frame⟩
  have run : ∀ vm', ext.call C db envInfo sealEngine maxGas executePrecompiled s vm' p =
      (some (finished, e₁) : Option (Bool × Executive)).bind _ :=
    fun vm' => congrArg (Option.bind · _) called
  have before := since_recovers empty since sound
  cases finished with
  | true =>
      cases done
      exact ⟨.finished before run, rfl⟩
  | false =>
      rcases Option.map_eq_some_iff.mp done with ⟨e₂, gone, same⟩
      rcases frame rfl with ⟨inside, present, inUse⟩
      have plain : e₁.isCreation = false := creation
      rcases go_settles present before savepoint (fun made => absurd (plain.symm.trans made)
        (by nofun)) gone with ⟨s', ran, left⟩
      cases same
      refine ⟨.framed since inUse ran (fun L inner => (left L inner).2 plain) ?_ ?_, rfl⟩
      · intro vm' same
        rw [run, ← done]
        exact congrArg (Option.map _) (go_congr present same)
      · intro vm' none
        rw [run]
        exact congrArg (Option.map _) (go_exit present none)

theorem Settles.of_recovers {t u : State} {L : List Nat} {x : Nat} (first : Recovers C db [] s t)
    (settles : Settles C db L x t u) : Settles C db L x s u := by
  obtain left | ⟨v, bytes, left, changed, same⟩ := settles
  · exact .inl (first.trans left)
  · exact .inr ⟨v, bytes, first.trans left, changed, same⟩

variable (db) in
theorem ExtVM.create_entered {endowment gas : U256} {code : Bytes}
    (empty : C.sha3 [] = EmptySHA3) (sound : s.Sound) {y : Answer × ExtVM × State}
    (done : ext.create C envInfo sealEngine maxGas s vm endowment gas code = some y) :
    FrameEntered C db (fun L t => ∃ x, Settles C db L x s t)
      (fun vm => ext.create C envInfo sealEngine maxGas s vm endowment gas code) s vm y ∧
      y.2.1.myAddress = ext.myAddress := by
  rcases Option.bind_eq_some_iff.mp done with ⟨⟨finished, e₁⟩, created, done⟩
  rcases create_made db (e := ext.inner envInfo sealEngine maxGas s) sound created with
    ⟨s₁, u, raised, savepoint, since, -, inUse, changed, -, ended⟩
  have run : ∀ vm', ext.create C envInfo sealEngine maxGas s vm' endowment gas code =
      (some (finished, e₁) : Option (Bool × Executive)).bind _ :=
    fun vm' => congrArg (Option.bind · _) created
  have sound₁ : s₁.Sound := (raised.start sound).1
  have first : Recovers C db [] s s₁ := since_recovers empty raised.since sound
  have before : Recovers C db [] s₁ u := since_recovers empty since sound₁
  obtain ⟨rfl, state, inside, present, mine⟩ | ⟨rfl, state⟩ := ended
  · rcases Option.map_eq_some_iff.mp done with ⟨e₂, gone, same⟩
    subst state
    rcases go_settles present before savepoint (fun _ => mine ▸ changed) gone with
      ⟨s', ran, left⟩
    cases same
    refine ⟨.framed (since_trans raised.since since) (mine ▸ inUse) ran
      (fun L inner => ⟨_, Settles.of_recovers first (left L inner).1⟩) ?_ ?_, rfl⟩
    · intro vm' same
      rw [run, ← done]
      exact congrArg (Option.map _) (go_congr present same)
    · intro vm' none
      rw [run]
      exact congrArg (Option.map _) (go_exit present none)
  · cases done
    refine ⟨.finished ⟨e₁.newAddress, Settles.of_recovers first ?_⟩ run, rfl⟩
    have read : Recovers C db [] s₁ (u.account e₁.newAddress).2 :=
      since_recovers empty (since_trans since (account_since u _)) sound₁
    dsimp only
    rw [state]
    split
    · have kept : Since C db u (u.account e₁.newAddress).2 := account_since u _
      exact .inr ⟨_, [], read, since_changed kept before.sound changed, rfl⟩
    · exact .inl read

/-- Two runs end alike, and then no code has been set of an account that had code; or the one has
given up. -/
def GivesUp (b : State) (K L : List Nat) (guarded free : VMOutcome) : Prop :=
  b.Spares K → (guarded = free ∧ b.Spares L) ∨ (guarded = .exit ∧ ¬ b.Spares L)

theorem FrameEntered.guarded {b : State} {K : List Nat} {leaves : List Nat → State → Prop}
    {f : VM → Option (Answer × ExtVM × State)} {vm' : VM} {y : Answer × ExtVM × State}
    (frames : ∀ gas ext s₀ s', Since C db s s₀ → s₀.addressInUse ext.myAddress = true →
      (vm gas ext s₀).leaves = some s' →
        ∃ L, Recovers C db L s₀ s' ∧ GivesUp b K L (vm' gas ext s₀) (vm gas ext s₀))
    (entered : FrameEntered C db leaves f s vm y) :
    ∃ L, leaves L y.2.2 ∧ (b.Spares K →
      (f vm' = some y ∧ b.Spares L) ∨ (f vm' = none ∧ ¬ b.Spares L)) := by
  cases entered with
  | finished left always => exact ⟨[], left, fun _ => .inl ⟨always vm', by nofun⟩⟩
  | @framed gas ext s₀ s' since inUse ran left alike gone =>
      obtain ⟨L, inner, ends⟩ := frames gas ext s₀ s' since inUse ran
      refine ⟨L, left L inner, fun spared => ?_⟩
      obtain ⟨same, clear⟩ | ⟨exited, lost⟩ := ends spared
      · exact .inl ⟨alike vm' same, clear⟩
      · exact .inr ⟨gone vm' exited, lost⟩

variable {interpreter : Interpreter}

/-- What a run leaves leads back to where it began, but for the code of some accounts; it gives up
exactly where one of these had code. -/
theorem exec_recovers {b : State} {K : List Nat} (empty : C.sha3 [] = EmptySHA3)
    (base : b.Sound) (fuel : Nat) (gas : U256) (answers : List Answer)
    (here : Recovers C db K b s) (inUse : s.addressInUse ext.myAddress = true)
    (left : (exec C db envInfo sealEngine maxGas executePrecompiled interpreter (fun _ => false)
      fuel gas ext s answers).leaves = some s') :
    ∃ L, Recovers C db L s s' ∧ GivesUp b K L
      (exec C db envInfo sealEngine maxGas executePrecompiled interpreter b.recodes fuel gas ext s
        answers)
      (exec C db envInfo sealEngine maxGas executePrecompiled interpreter (fun _ => false) fuel gas
        ext s answers) := by
  induction fuel generalizing gas ext s s' answers K with
  | zero => cases left
  | succ fuel ih =>
      have sound := here.sound
      have frames : ∀ (gas : U256) (ext : ExtVM) (s₀ s' : State), Since C db s s₀ →
          s₀.addressInUse ext.myAddress = true →
          (exec C db envInfo sealEngine maxGas executePrecompiled interpreter (fun _ => false) fuel
            gas ext s₀ []).leaves = some s' →
          ∃ L, Recovers C db L s₀ s' ∧ GivesUp b K L
            (exec C db envInfo sealEngine maxGas executePrecompiled interpreter b.recodes fuel gas
              ext s₀ [])
            (exec C db envInfo sealEngine maxGas executePrecompiled interpreter (fun _ => false)
              fuel gas ext s₀ []) := by
        intro gas ext s₀ s' since inUse ran
        have there : Recovers C db (K ++ []) b s₀ :=
          here.trans (since_recovers empty since sound)
        rw [List.append_nil] at there
        exact ih gas [] there inUse ran
      -- what follows an answer follows the state in which it was given
      have next : ∀ {x y : Option (Answer × ExtVM × State)},
          (∀ a ext' s₁, y = some (a, ext', s₁) → ∃ M, Recovers C db M s s₁ ∧
            ext'.myAddress = ext.myAddress ∧ (b.Spares K →
              (x = some (a, ext', s₁) ∧ b.Spares M) ∨ (x = none ∧ ¬ b.Spares M))) →
          (match y with
            | none => VMOutcome.exit
            | some (a, ext', s₁) =>
                exec C db envInfo sealEngine maxGas executePrecompiled interpreter (fun _ => false)
                  fuel gas ext' s₁ (a :: answers)).leaves = some s' →
          ∃ L, Recovers C db L s s' ∧ GivesUp b K L
            (match x with
              | none => VMOutcome.exit
              | some (a, ext', s₁) =>
                  exec C db envInfo sealEngine maxGas executePrecompiled interpreter b.recodes
                    fuel gas ext' s₁ (a :: answers))
            (match y with
              | none => VMOutcome.exit
              | some (a, ext', s₁) =>
                  exec C db envInfo sealEngine maxGas executePrecompiled interpreter
                    (fun _ => false) fuel gas ext' s₁ (a :: answers)) := by
        intro x y given left
        cases y with
        | none => cases left
        | some z =>
            rcases z with ⟨a, ext', s₁⟩
            obtain ⟨M, answered, same, guarded⟩ := given a ext' s₁ rfl
            have inUse₁ : s₁.addressInUse ext'.myAddress = true := by
              rw [same]
              exact answered.inUse sound inUse
            obtain ⟨L, later, ends⟩ := ih gas (a :: answers) (here.trans answered) inUse₁ left
            refine ⟨M ++ L, answered.trans later, fun known => ?_⟩
            obtain ⟨rfl, clear⟩ | ⟨rfl, lost⟩ := guarded known
            · obtain ⟨alike, spared⟩ | ⟨exited, lost⟩ := ends (spares_append.mpr ⟨known, clear⟩)
              · exact .inl ⟨alike, spares_append.mpr ⟨clear, spared⟩⟩
              · exact .inr ⟨exited, fun all => lost (spares_append.mp all).2⟩
            · exact .inr ⟨rfl, fun all => lost (spares_append.mp all).1⟩
      unfold exec at left ⊢
      dsimp only at left ⊢
      generalize interpreter gas ext answers = move at left ⊢
      cases move with
      | ask q =>
          refine next (fun a ext' s₁ done => ?_) left
          have given := ExtVM.answer_since (C := C) inUse done
          exact ⟨[], since_recovers empty given.1 sound, given.2, fun _ => .inl ⟨done, by nofun⟩⟩
      | call p =>
          refine next (fun a ext' s₁ done => ?_) left
          obtain ⟨entered, same⟩ := ExtVM.call_entered empty sound done
          obtain ⟨M, answered, guarded⟩ := entered.guarded frames
          exact ⟨M, answered, same, guarded⟩
      | create endowment paid code =>
          refine next (fun a ext' s₁ done => ?_) left
          obtain ⟨created, -⟩ := Option.filter_eq_some_iff.mp done
          obtain ⟨entered, same⟩ := ExtVM.create_entered db empty sound created
          obtain ⟨L, ⟨x, settles⟩, guarded⟩ := entered.guarded frames
          obtain ⟨M, answered, spares, told⟩ := settles.recovers empty here base
          refine ⟨M, answered, same, fun known => ?_⟩
          obtain ⟨done', clear⟩ | ⟨gone, lost⟩ := guarded known
          · rw [done', Option.filter_some]
            by_cases all : b.Spares M
            · have quiet : b.recodes s₁ = false := (told known clear).mp all
              exact .inl ⟨by simp [quiet], all⟩
            · have recoded : b.recodes s₁ = true :=
                (Bool.eq_false_or_eq_true _).resolve_right fun quiet =>
                  all ((told known clear).mpr quiet)
              exact .inr ⟨by simp [recoded], all⟩
          · exact .inr ⟨by rw [gone]; rfl, fun all => lost (spares all)⟩
      | stop gas' out =>
          cases left
          exact ⟨[], since_recovers empty (.start s) sound, fun _ => .inl ⟨rfl, by nofun⟩⟩
      | raise excepted =>
          cases left
          exact ⟨[], since_recovers empty (.start s) sound, fun _ => .inl ⟨rfl, by nofun⟩⟩
      | abort => cases left

theorem exec_stop {stop : State → Bool} (never : ∀ gas ext answers endowment gas' code,
    interpreter gas ext answers ≠ .create endowment gas' code) (fuel : Nat) :
    exec C db envInfo sealEngine maxGas executePrecompiled interpreter stop fuel =
      exec C db envInfo sealEngine maxGas executePrecompiled interpreter (fun _ => false) fuel := by
  induction fuel with
  | zero => rfl
  | succ fuel ih =>
      funext gas ext s answers
      unfold exec
      rw [ih]
      cases move : interpreter gas ext answers with
      | create endowment gas' code => exact absurd move (never gas ext answers endowment gas' code)
      | ask q => rfl
      | call p => rfl
      | stop gas' out => rfl
      | raise excepted => rfl
      | abort => rfl

end Journaled

end Accounts

end UtispaceChain
