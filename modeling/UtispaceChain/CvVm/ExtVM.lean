import UtispaceChain.Cv.LastHashes
import UtispaceChain.CvVm.Keeps

/-! The VM over `ExtVM`: its surroundings are the frame with its substate, and the state; the frames
that it starts are executed by itself. -/

namespace UtispaceChain.Evm

open Lib Accounts

abbrev Around := ExtVM × Accounts.State

section Answers

variable {α : Type}

def asNothing : Answer → Option Unit
  | .nothing => some ()
  | _ => none

def asWord : Answer → Option U256
  | .word v => some v
  | _ => none

def asBytes : Answer → Option Bytes
  | .bytes b => some b
  | _ => none

def asFlag : Answer → Option Bool
  | .flag b => some b
  | _ => none

def asCalled : Answer → Option (Bool × U256 × Bytes)
  | .called success gas out => some (success, gas, out)
  | _ => none

def asCreated : Answer → Option (Nat × U256)
  | .created newAddress gas => some (newAddress, gas)
  | _ => none

def answered (read : Answer → Option α) (given : Option (Answer × ExtVM × Accounts.State)) :
    Option (α × Around) :=
  given.bind fun (a, ext, s) => (read a).map fun v => (v, ext, s)

end Answers

/-- What the frames of an execution share: the block, the engine and its precompiled contracts, and
the codes in the database. -/
structure Setting where
  envInfo : Accounts.EnvInfo
  author : Nat
  timestamp : U256
  difficulty : U256
  lastHashes : List H256
  sealEngine : SealEngine
  maxGas : U256
  executePrecompiled : Nat → Bytes → Bytes
  db : H256 → Bytes

namespace Setting

variable (w : Setting) (C : Crypto)

def schedule : EVMSchedule := w.sealEngine.evmSchedule w.envInfo

def ask (x : Around) (q : Query) : Option (Answer × ExtVM × Accounts.State) :=
  x.1.answer w.db w.envInfo w.sealEngine x.2 q

/-- The `ExtVM` of a frame, with the VM for the frames within. -/
def face (vm : Accounts.VM) (ext : ExtVM) : Face Around where
  myAddress := ext.myAddress
  caller := ext.caller
  origin := ext.origin
  value := ext.value
  gasPrice := ext.gasPrice
  data := ext.data
  code := ext.code
  depth := ext.depth
  author := w.author
  timestamp := w.timestamp
  number := w.envInfo.number
  difficulty := w.difficulty
  gasLimit := w.envInfo.gasLimit
  schedule := w.schedule
  store n x := answered asWord (w.ask x (.store n))
  setStore n v x := answered asNothing (w.ask x (.setStore n v))
  balance a x := answered asWord (w.ask x (.balance a))
  codeAt a x := answered asBytes (w.ask x (.codeAt a))
  codeSizeAt a x := (answered asWord (w.ask x (.codeSizeAt a))).map fun (v, x) => (v.toNat, x)
  existing a x := answered asFlag (w.ask x (.existing a))
  suicide a x := answered asNothing (w.ask x (.suicide a))
  create endowment gas code x := answered asCreated
    (x.1.create C w.envInfo w.sealEngine w.maxGas x.2 vm endowment gas code)
  call p x := answered asCalled
    (x.1.call C w.db w.envInfo w.sealEngine w.maxGas w.executePrecompiled x.2 vm p)
  log topics data x := answered asNothing (w.ask x (.log topics data))
  refund amount x := answered asNothing (w.ask x (.refund amount))
  blockHash n x := (UtispaceChain.blockHash w.envInfo.number.toNat w.lastHashes n.toNat).map
    fun h => (h, x)

def vm : Nat → Accounts.VM
  | 0, _, _, _ => .exit
  | fuel + 1, gas, ext, s =>
      let face := w.face C (vm fuel) ext
      match interpret C face fuel (.start face gas (ext, s)) with
      | none => .exit
      | some (.ok _ m) => .returned (BitVec.ofNat 256 m.ioGas) m.bytes m.ext.1.sub m.ext.2
      | some (.error (.vm excepted) m) => .exception excepted m.ext.2
      | some (.error .unexpected _) => .exit

end Setting

section Nested

variable {σ : Type} (face : Face σ)

/-- A creation that has its value and its depth, with the place of its code. -/
structure CreateSetup where
  possible : Bool
  endowment : U256
  initOff : Nat
  initSize : Nat
  deriving DecidableEq, Repr

def createSetup : M σ CreateSetup := do
  let offset ← peek 1
  let size ← peek 2
  let need ← memNeed offset size
  setNewMemSize need
  let gas ← toUint64 face.schedule.createGas
  setRunGas gas
  updateMem face
  charge
  let endowment ← take
  let initOff ← take
  let initSize ← take
  let balance ← Evm.ask (face.balance face.myAddress)
  pure {
    possible := decide (endowment ≤ balance ∧ face.depth < 1024)
    endowment, initOff := low64 initOff, initSize := low64 initSize }

def createGas (ioGas : Nat) : U256 :=
  if face.schedule.staticCallDepthLimit then BitVec.ofNat 256 ioGas
  else BitVec.ofNat 256 ioGas - BitVec.ofNat 256 ioGas / 64

end Nested

/-- A frame that an instruction starts: the surroundings, the gas that the caller keeps, and the
executive of the frame, with the flag that says whether all is finished already. -/
structure Nested where
  creation : Bool
  caller : Around
  kept : Nat
  entered : Option (Bool × Executive)

def Nested.ended (C : Crypto) (vm : Accounts.VM) (n : Nested) : Option Executive :=
  n.entered.bind fun (finished, e) => if finished then some e else e.go C vm

namespace Setting

variable (w : Setting) (C : Crypto) (vm : Accounts.VM) (ext : ExtVM)

def inner (x : Around) : Executive := x.1.inner w.envInfo w.sealEngine w.maxGas x.2

def enterCall (p : CallParameters) (x : Around) : Option (Bool × Executive) :=
  (w.inner x).call w.db p.senderAddress p.codeAddress p.receiveAddress p.valueTransfer
    p.apparentValue p.gas p.data
    x.1.gasPrice x.1.origin

def enterCreate (endowment gas : U256) (code : Bytes) (x : Around) : Option (Bool × Executive) :=
  (w.inner x).create C x.1.myAddress endowment x.1.gasPrice gas code x.1.origin

def nestedCall (op : Instruction) (m : VM Around) : Option Nested :=
  match caseCallSetup (w.face C vm ext) op m with
  | .error _ _ => none
  | .ok setup mid =>
      if setup.possible then
        some ⟨false, mid.ext, mid.ioGas,
          w.enterCall { setup.params with data := mid.mem.read setup.inOff setup.inSize } mid.ext⟩
      else none

def nestedCreate (m : VM Around) : Option Nested :=
  match createSetup (w.face C vm ext) m with
  | .error _ _ => none
  | .ok setup mid =>
      let gas := createGas (w.face C vm ext) mid.ioGas
      if setup.possible then
        some ⟨true, mid.ext, mid.ioGas - gas.toNat,
          w.enterCreate C setup.endowment gas (mid.mem.read setup.initOff setup.initSize) mid.ext⟩
      else none

/-- The frame that the next instruction starts, if it starts one. -/
def nested (m : VM Around) : Option Nested :=
  match fetchInstruction (w.face C vm ext) m with
  | .error _ _ => none
  | .ok _ ready =>
      match ready.op with
      | .create => w.nestedCreate C vm ext ready
      | .call => w.nestedCall C vm ext .call ready
      | .callcode => w.nestedCall C vm ext .callcode ready
      | .delegatecall =>
          if w.schedule.haveDelegateCall then w.nestedCall C vm ext .delegatecall ready else none
      | _ => none

end Setting

structure Frame where
  fuel : Nat
  gas : U256
  ext : ExtVM
  s : Accounts.State

def Setting.Runs (w : Setting) (C : Crypto) (f : Frame) (fuel : Nat) (m : VM Around) : Prop :=
  f.fuel = fuel + 1 ∧ Reached C (w.face C (w.vm C fuel) f.ext) f.gas (f.ext, f.s) m

/-- The frames of an execution: the first one, and those that its instructions start, at any
depth. -/
inductive Setting.Within (w : Setting) (C : Crypto) (top : Frame) : Frame → Prop
  | top : Within w C top top
  | nested {f : Frame} {fuel : Nat} {m : VM Around} {n : Nested} {e : Executive}
      {ext : ExtVM} : Within w C top f →
      w.Runs C f fuel m → w.nested C (w.vm C fuel) f.ext m = some n → n.entered = some (false, e) →
      e.ext = some ext → Within w C top ⟨fuel, e.gas, ext, e.s⟩

end UtispaceChain.Evm
