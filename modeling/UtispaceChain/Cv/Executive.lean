import UtispaceChain.Cv.Savepoint
import UtispaceChain.DevCore.Rlp

/-! `Executive`: a transaction from its base cost to the receipt. The VM is given. -/

namespace UtispaceChain

namespace Accounts

open Lib

structure EVMSchedule where
  exceptionalFailedCodeDeposit : Bool := true
  haveDelegateCall : Bool := true
  eip150Mode : Bool := false
  eip158Mode : Bool := false
  tierStepGas : List Nat := [0, 2, 3, 5, 8, 10, 20, 0]
  expGas : Nat := 10
  expByteGas : Nat := 10
  sha3Gas : Nat := 30
  sha3WordGas : Nat := 6
  sloadGas : Nat := 50
  sstoreSetGas : Nat := 20000
  sstoreResetGas : Nat := 5000
  sstoreRefundGas : Nat := 15000
  logGas : Nat := 375
  logDataGas : Nat := 8
  logTopicGas : Nat := 375
  createGas : Nat := 32000
  callGas : Nat := 40
  callStipend : Nat := 2300
  callValueTransferGas : Nat := 9000
  callNewAccountGas : Nat := 25000
  suicideRefundGas : Nat := 24000
  memoryGas : Nat := 3
  quadCoeffDiv : Nat := 512
  createDataGas : Nat := 200
  txGas : Nat := 21000
  txCreateGas : Nat := 53000
  txDataZeroGas : Nat := 4
  txDataNonZeroGas : Nat := 68
  copyGas : Nat := 3
  extcodesizeGas : Nat := 20
  extcodecopyGas : Nat := 20
  balanceGas : Nat := 20
  suicideGas : Nat := 0
  maxCodeSize : Nat := 2 ^ 32 - 1
  deriving DecidableEq, Repr

namespace EVMSchedule

variable (es : EVMSchedule)

def staticCallDepthLimit : Bool := !es.eip150Mode

def suicideChargesNewAccountGas : Bool := es.eip150Mode

def zeroValueTransferChargesNewAccountGas : Bool := !es.eip158Mode

def frontier : EVMSchedule :=
  { exceptionalFailedCodeDeposit := false, haveDelegateCall := false, txCreateGas := 21000 }

def homestead : EVMSchedule :=
  { exceptionalFailedCodeDeposit := true, haveDelegateCall := true, txCreateGas := 53000 }

def eip150 : EVMSchedule :=
  { homestead with
    eip150Mode := true, extcodesizeGas := 700, extcodecopyGas := 700, balanceGas :=
    400, sloadGas := 200
    callGas := 700, suicideGas := 5000, maxCodeSize := 0x6000 }

def eip158 : EVMSchedule := { eip150 with expByteGas := 50, eip158Mode := true }

end EVMSchedule

/-- The gas limit is cut to what an `int64_t` holds. -/
structure EnvInfo where
  number : U256
  gasLimit : Int
  gasUsed : U256
  deriving DecidableEq, Repr

def EnvInfo.ofHeader (number gasLimit gasUsed : U256) : EnvInfo where
  number
  gasLimit := min gasLimit.toNat (2 ^ 63 - 1)
  gasUsed

structure ExecTransaction where
  isCreation : Bool
  sender : Nat
  receiveAddress : Nat
  value : U256
  gasPrice : U256
  data : Bytes
  deriving DecidableEq, Repr

/-- The schedule, the fork and the precompiled contracts of a `SealEngine`. -/
structure SealEngine where
  evmSchedule : EnvInfo → EVMSchedule
  eip158ForkBlock : U256
  isPrecompiled : Nat → Bool
  costOfPrecompiled : Nat → Bytes → Nat

inductive TransactionException
  | none
  | unknown
  | outOfGasBase
  | badInstruction
  | badJumpDestination
  | outOfGas
  | outOfStack
  | stackUnderflow
  deriving DecidableEq, Repr

structure LogEntry where
  address : Nat
  topics : List H256
  data : Bytes
  deriving DecidableEq, Repr

structure SubState where
  suicides : List Nat := []
  logs : List LogEntry := []
  refunds : U256 := 0
  deriving DecidableEq, Repr

structure ExtVM where
  myAddress : Nat
  caller : Nat
  origin : Nat
  value : U256
  gasPrice : U256
  data : Bytes
  code : Bytes
  depth : Nat
  sub : SubState
  deriving DecidableEq, Repr

/-- What the VM comes back with; anything but a `VMException` ends the process. -/
inductive VMOutcome
  | returned (gas : U256) (out : Bytes) (sub : SubState) (s : State)
  | exception (excepted : TransactionException) (s : State)
  | exit

abbrev VM := U256 → ExtVM → State → VMOutcome

inductive CodeDeposit
  | none
  | failed
  | success
  deriving DecidableEq, Repr

structure ExecutionResult where
  gasUsed : U256 := 0
  excepted : TransactionException := .unknown
  newAddress : Nat := 0
  output : Bytes := []
  codeDeposit : CodeDeposit := .none
  gasRefunded : U256 := 0
  depositSize : Nat := 0
  gasForDeposit : U256 := 0
  deriving DecidableEq, Repr

/-- `maxGas` is what `gas()` of every transaction answers. -/
structure Executive where
  s : State
  envInfo : EnvInfo
  sealEngine : SealEngine
  maxGas : U256
  depth : Nat
  t : Option ExecTransaction := none
  ext : Option ExtVM := none
  res : ExecutionResult := {}
  excepted : TransactionException := .none
  baseGasRequired : Nat := 0
  gas : U256 := 0
  refunded : U256 := 0
  logs : List LogEntry := []
  isCreation : Bool := false
  newAddress : Nat := 0
  savepoint : Nat := 0

/-- `gasRequired`, in integers. -/
def gasRequired (contractCreation : Bool) (data : Bytes) (es : EVMSchedule) : Nat :=
  data.foldl (fun ret i => ret + if i = 0 then es.txDataZeroGas else es.txDataNonZeroGas)
    (if contractCreation then es.txCreateGas else es.txGas)

namespace State

def addressHasCode (a : Nat) (s : State) : Bool :=
  (s.account a).1.elim false fun acc => acc.codeHash ≠ EmptySHA3

end State

namespace Executive

variable (C : Crypto) (db : H256 → Bytes) (e : Executive)

def gasUsed : U256 := e.maxGas - e.gas

/-- It throws when the gas of the transaction does not fit in the block. -/
def initializeTransaction (t : ExecTransaction) : Option Executive :=
  let startGasUsed := e.envInfo.gasUsed
  if e.envInfo.gasLimit < startGasUsed.toNat + e.maxGas.toNat then none
  else
    let baseGasRequired := gasRequired t.isCreation t.data (e.sealEngine.evmSchedule e.envInfo)
    -- the source has a comparison with the gas of the transaction here, commented out
    some { e with t := some t, baseGasRequired }

def right160 (hash : H256) : Nat := hash % 2 ^ 160

def create (sender : Nat) (endowment gasPrice gas : U256) (init : Bytes) (origin : Nat) :
    Option (Bool × Executive) :=
  let nonce := e.s.getNonce sender
  ((e.s.account sender).2.incNonce sender).bind fun s =>
    let savepoint := s.savepoint
    let newAddress := right160 (C.sha3 (Rlp.appendList
      (Rlp.appendBytes (toBigEndian 20 sender) ++ Rlp.appendInt nonce.toNat)))
    (s.transferBalance sender newAddress endowment).bind fun s =>
      let forked := decide (e.sealEngine.eip158ForkBlock.toNat ≤ e.envInfo.number.toNat)
      (if forked then s.incNonce newAddress else some s).map fun s =>
        let e := { e with s, savepoint, isCreation := true, newAddress, gas }
        if init ≠ [] then
          (false,
            { e with ext := some ⟨newAddress, sender, origin, endowment, gasPrice, [], init,
              e.depth, {}⟩ })
        else if s.addressHasCode newAddress then
          (true, { e with s := (s.account newAddress).2.setNewCode newAddress ⟨[], C.sha3 []⟩ })
        else (true, { e with s := (s.account newAddress).2 })

/-- `call`; the flag says that all is finished. -/
def call (sender codeAddress receiveAddress : Nat) (valueTransfer apparentValue gas : U256)
    (data : Bytes) (gasPrice : U256) (origin : Nat) : Option (Bool × Executive) :=
  (if e.t.isSome then e.s.incNonce sender else some e.s).bind fun s =>
    let e := { e with s, savepoint := s.savepoint }
    let finish := fun (e : Executive) =>
      (e.s.transferBalance sender receiveAddress valueTransfer).map fun s =>
        (e.ext.isNone, { e with s })
    if e.sealEngine.isPrecompiled codeAddress then
      let g := e.sealEngine.costOfPrecompiled codeAddress data
      if gas.toNat < g then some (true, { e with excepted := .outOfGasBase })
      else finish { e with gas := BitVec.ofNat 256 (gas.toNat - g) }
    else if s.addressHasCode codeAddress then
      let (code, s) := (s.account codeAddress).2.code db codeAddress
      finish { e with s, gas, ext := some ⟨receiveAddress, sender, origin, apparentValue, gasPrice,
        data, code, e.depth, {}⟩ }
    else finish { e with s := (s.account codeAddress).2, gas }

/-- The gas that `execute` hands on. -/
def startGas : U256 := e.maxGas - BitVec.ofNat 256 e.baseGasRequired

/-- `execute`, once a transaction has been taken in. -/
def execute (t : ExecTransaction) : Option (Bool × Executive) :=
  if t.isCreation then e.create C t.sender t.value t.gasPrice e.startGas t.data t.sender
  else e.call db t.sender t.receiveAddress t.receiveAddress t.value t.value e.startGas t.data
    t.gasPrice t.sender

def revert : Executive :=
  { e with
    ext := e.ext.map fun ext => { ext with sub := {} }
    newAddress := 0
    s := e.s.rollback e.savepoint }

def caught (excepted : TransactionException) : Executive := { e with gas := 0, excepted }.revert

def deposit (ext : ExtVM) (out : Bytes) : Executive :=
  let es := e.sealEngine.evmSchedule e.envInfo
  let e :=
    { e with res := { e.res with gasForDeposit := e.gas, depositSize := out.length % 2 ^ 32 } }
  let setCode := fun (e : Executive) (out : Bytes) =>
    { e with
      res := { e.res with output := out }
      s := e.s.setNewCode ext.myAddress ⟨out, C.sha3 out⟩ }
  if es.maxCodeSize < out.length then e.caught .outOfGas
  else if out.length * es.createDataGas ≤ e.gas.toNat then
    let cost := BitVec.ofNat 256 (out.length * es.createDataGas)
    setCode { e with gas := e.gas - cost, res := { e.res with codeDeposit := .success } } out
  else if es.exceptionalFailedCodeDeposit then e.caught .outOfGas
  else setCode { e with res := { e.res with codeDeposit := .failed } } []

def go (vm : VM) : Option Executive :=
  match e.ext with
  | none => some e
  | some ext =>
      match vm e.gas ext e.s with
      | .exit => none
      | .exception excepted s => some ({ e with s }.caught excepted)
      | .returned gas out sub s =>
          let e := { e with gas, s, ext := some { ext with sub } }
          if e.isCreation then some (e.deposit C ext out)
            else some { e with res := { e.res with output := out } }

def finalize : Executive :=
  let es := e.sealEngine.evmSchedule e.envInfo
  let ext := e.ext.map fun ext => { ext with sub := { ext.sub with
    refunds := ext.sub.refunds +
      BitVec.ofNat 256 (es.suicideRefundGas * ext.sub.suicides.length) } }
  let half := (e.maxGas - e.gas) / 2
  let refunded := ext.elim 0 fun ext => if half ≤ ext.sub.refunds then half else ext.sub.refunds
  let e := { e with ext, refunded, gas := e.gas + refunded }
  let e := { e with s := (ext.elim [] fun ext => ext.sub.suicides).foldl (fun s a => s.kill a) e.s }
  { e with
    logs := ext.elim e.logs fun ext => ext.sub.logs
    res := { e.res with
      gasUsed := e.gasUsed
      excepted := e.excepted
      newAddress := e.newAddress
      gasRefunded := ext.elim 0 fun ext => ext.sub.refunds } }

def run (vm : VM) (t : ExecTransaction) : Option Executive :=
  (e.execute C db t).bind fun (finished, e) => (if finished then some e else e.go C vm).map finalize

end Executive

structure TransactionReceipt where
  gasUsed : U256
  logs : List LogEntry
  contractAddress : Nat
  deriving DecidableEq, Repr

def State.execute (C : Crypto) (db : H256 → Bytes) (vm : VM) (envInfo : EnvInfo)
    (sealEngine : SealEngine) (maxGas : U256) (t : ExecTransaction) (s : State) :
    Option (ExecutionResult × TransactionReceipt × State) :=
  (Executive.initializeTransaction { s, envInfo, sealEngine, maxGas, depth := 0 } t).bind fun e =>
    (e.run C db vm t).map fun e => (e.res, ⟨envInfo.gasUsed + e.gasUsed, e.logs, e.newAddress⟩, e.s)

end Accounts

end UtispaceChain
