import UtispaceChain.CvVm.VM
import UtispaceChain.DevCore.Common

/-! `VM`: the cases of the interpreter, the calls out of it, and `execImpl`. -/

namespace UtispaceChain.Evm

open Lib Accounts

section Words

variable (a b n : U256)

def ofBool (p : Bool) : U256 := if p then 1 else 0

def s512 {S : Type} [FixedWidth S] (a : S) : S512 := .ofInt 512 (FixedWidth.value a)

def divWorkaround {S : Type} [FixedWidth S] (a b : S) : S :=
  FixedWidth.cut ((s512 a).div (s512 b)).value

def modWorkaround {S : Type} [FixedWidth S] (a b : S) : S :=
  FixedWidth.cut ((s512 a).mod (s512 b)).value

def div : U256 := if b ≠ 0 then divWorkaround a b else 0

def sdiv : U256 := if b ≠ 0 then s2u (divWorkaround (u2s a) (u2s b)) else 0

def mod : U256 := if b ≠ 0 then modWorkaround a b else 0

def smod : U256 := if b ≠ 0 then s2u (modWorkaround (u2s a) (u2s b)) else 0

def byteOf : U256 := if a.toNat < 32 then (b >>> (8 * (31 - a.toNat))) &&& 0xff else 0

def u512 : BitVec 512 := a.setWidth 512

def addmod : U256 := if n ≠ 0 then ((u512 a + u512 b) % u512 n).setWidth 256 else 0

def mulmod : U256 := if n ≠ 0 then ((u512 a * u512 b) % u512 n).setWidth 256 else 0

def signextend : U256 :=
  if a.toNat < 31 then
    let testBit := a.toNat * 8 + 7
    let mask := ((1 : U256) <<< testBit) - 1
    if b.getLsbD testBit then b ||| ~~~mask else b &&& mask
  else b

def expFrom : Nat → U256 → U256 → U256 → U256
  | 0, result, _, _ => result
  | fuel + 1, result, base, exponent =>
      if exponent = 0 then result
      else expFrom fuel (if exponent.getLsbD 0 then result * base else result) (base * base)
        (exponent >>> 1)

def exp256 (base exponent : U256) : U256 := expFrom 256 1 base exponent

def firstBitSet : Nat := if a = 0 then 256 else 255 - Nat.log2 a.toNat

def word (bytes : Bytes) : U256 := BitVec.ofNat 256 (fromBigEndian bytes)

def bytesOf : Bytes := toBigEndian 32 a.toNat

end Words

section Cases

variable {σ : Type} (C : Crypto) (face : Face σ)

/-- `++m_pc`, and on to the next instruction. -/
def onward (x : M σ Unit) : M σ Bool := do
  x
  advance 1
  pure true

def plain (x : M σ Unit) : M σ Bool := onward do
  charge
  x

def unary (f : U256 → U256) : M σ Unit := do
  let a ← peek 0
  poke 0 (f a)

def binary (f : U256 → U256 → U256) : M σ Unit := do
  let a ← peek 0
  let b ← peek 1
  poke 1 (f a b)
  drop 1

def ternary (f : U256 → U256 → U256 → U256) : M σ Unit := do
  let a ← peek 0
  let b ← peek 1
  let c ← peek 2
  poke 2 (f a b c)
  drop 2

def looked (q : U256 → Asks σ U256) : M σ Unit := do
  let a ← peek 0
  let v ← ask (q a)
  poke 0 v

/-- `m_runGas` is set before the rest. -/
def priced (gas : Nat) (x : M σ Unit) : M σ Bool := onward do
  let gas ← toUint64 gas
  setRunGas gas
  charge
  x

def calldataload (a : U256) : U256 :=
  if a.toNat + 31 < face.data.length then word ((face.data.drop a.toNat).take 32)
  else if face.data.length ≤ a.toNat then 0
  else word ((List.range 32).map fun j => face.data.getD (a.toNat + j) 0)

def mload : M σ Bool := onward do
  let a ← peek 0
  let offset ← toUint64 a.toNat
  let need ← add64 offset 32
  setNewMemSize need
  updateMem face
  charge
  let a ← peek 0
  let bytes ← readMem (low32 a) 32
  poke 0 (word bytes)

def mstore : M σ Bool := onward do
  let a ← peek 0
  let offset ← toUint64 a.toNat
  let need ← add64 offset 32
  setNewMemSize need
  updateMem face
  charge
  let v ← peek 1
  let a ← peek 0
  writeMem (low32 a) (bytesOf v)
  drop 2

def mstore8 : M σ Bool := onward do
  let a ← peek 0
  let offset ← toUint64 a.toNat
  let need ← add64 offset 1
  setNewMemSize need
  updateMem face
  charge
  let v ← peek 1
  let a ← peek 0
  writeMem (low32 a) [UInt8.ofNat (v &&& 0xff).toNat]
  drop 2

def sha3 : M σ Bool := onward do
  let size ← peek 1
  let gas ← toUint64 (face.schedule.sha3Gas + (size.toNat + 31) / 32 * face.schedule.sha3WordGas)
  setRunGas gas
  let offset ← peek 0
  let size ← peek 1
  let need ← memNeed offset size
  setNewMemSize need
  updateMem face
  charge
  let offset ← take
  let size ← take
  let bytes ← readMem (low64 offset) (low64 size)
  put (BitVec.ofNat 256 (C.sha3 bytes))

/-- The topics of a `LOG`, from `*(m_sp - 2)` on. -/
def topics : Nat → Nat → M σ (List H256)
  | 0, _ => pure []
  | n + 1, k => do
      let t ← peek k
      let rest ← topics n (k + 1)
      pure (t.toNat :: rest)

def log (n : Nat) : M σ Bool := onward do
  logGasMem face n
  charge
  let ts ← topics n 2
  let offset ← peek 0
  let size ← peek 1
  let bytes ← readMem (low64 offset) (low64 size)
  ask (face.log ts bytes)
  drop (n + 2)

def exp : M σ Bool := onward do
  let expon ← peek 1
  let gas ← toUint64
    ((face.schedule.expGas + face.schedule.expByteGas * (32 - firstBitSet expon / 8)) % 2 ^ 32)
  setRunGas gas
  charge
  let base ← take
  poke 0 (exp256 base expon)

def copied (data : Bytes) (index size : Nat) : Bytes :=
  let sizeToBeCopied := if data.length < index + size then
    (if data.length < index then 0 else data.length - index) else size
  (data.drop (index % 2 ^ 64)).take sizeToBeCopied ++ List.replicate (size - sizeToBeCopied) 0

def copyDataToMemory (data : Bytes) : M σ Unit := do
  let offset ← take
  let bigIndex ← take
  let size ← take
  writeMem (low64 offset) (copied data bigIndex.toNat (low64 size))

/-- `CALLDATACOPY` and `CODECOPY`. -/
def copy (data : Bytes) : M σ Bool := onward do
  let size ← peek 2
  let copy ← toUint64 size.toNat
  setCopyMemSize copy
  let offset ← peek 0
  let size ← peek 2
  let need ← memNeed offset size
  setNewMemSize need
  updateMem face
  charge
  copyDataToMemory data

def extcodecopy : M σ Bool := onward do
  let gas ← toUint64 face.schedule.extcodecopyGas
  setRunGas gas
  let size ← peek 3
  let copy ← toUint64 size.toNat
  setCopyMemSize copy
  let offset ← peek 1
  let size ← peek 3
  let need ← memNeed offset size
  setNewMemSize need
  updateMem face
  charge
  let a ← peek 0
  drop 1
  let data ← ask (face.codeAt (asAddress a))
  copyDataToMemory data

def push (n : Nat) : M σ Bool := do
  charge
  let m ← get
  put (word ((List.range n).map fun i => m.code.getD (m.pc + 1 + i) 0))
  advance (1 + n)
  pure true

def dup (n : Nat) : M σ Unit := do
  let v ← peek (n - 1)
  put v

def swap (n : Nat) : M σ Unit := do
  let d ← peek 0
  let v ← peek n
  poke 0 v
  poke n d

def jump : M σ Bool := do
  charge
  let dest ← peek 0
  let pc ← verifyJumpDest dest
  modify fun m => { m with pc }
  drop 1
  pure true

def jumpi : M σ Bool := do
  charge
  let condition ← peek 1
  if condition = 0 then do
    advance 1
    drop 2
    pure true
  else do
    let dest ← peek 0
    let pc ← verifyJumpDest dest
    modify fun m => { m with pc }
    drop 2
    pure true

/-- The price of an `SSTORE`, with the refund for a slot that is cleared. -/
def sstoreGas : M σ Nat := do
  let key ← peek 0
  let old ← ask (face.store key)
  let v ← peek 1
  if old = 0 ∧ v ≠ 0 then toUint64 face.schedule.sstoreSetGas
  else do
    let old ← ask (face.store key)
    if old ≠ 0 ∧ v = 0 then do
      let gas ← toUint64 face.schedule.sstoreResetGas
      ask (face.refund face.schedule.sstoreRefundGas)
      pure gas
    else toUint64 face.schedule.sstoreResetGas

def sstore : M σ Bool := onward do
  let gas ← sstoreGas face
  setRunGas gas
  charge
  let key ← peek 0
  let v ← peek 1
  ask (face.setStore key v)
  drop 2

def suicideNewAccountGas (dest : Nat) : M σ Nat := do
  let balance ← ask (face.balance face.myAddress)
  if (balance ≠ 0 ∨ face.schedule.zeroValueTransferChargesNewAccountGas = true) ∧
      face.schedule.suicideChargesNewAccountGas = true then do
    let existing ← ask (face.existing dest)
    pure (if existing then 0 else face.schedule.callNewAccountGas)
  else pure 0

def suicide : M σ Bool := do
  let gas ← toUint64 face.schedule.suicideGas
  setRunGas gas
  let dest ← peek 0
  let more ← suicideNewAccountGas face (asAddress dest)
  addRunGas more
  charge
  ask (face.suicide (asAddress dest))
  pure false

def return_ : M σ Bool := do
  let offset ← peek 0
  let size ← peek 1
  let need ← memNeed offset size
  setNewMemSize need
  updateMem face
  charge
  let b ← take
  let s ← take
  let bytes ← readMem (low64 b) (low64 s)
  modify fun m => { m with bytes }
  pure false

def stop : M σ Bool := do
  charge
  pure false

def createFrame (endowment : U256) (initOff initSize : Nat) : M σ Unit := do
  modify fun m => { m with gasRef := BitVec.ofNat 256 m.ioGas }
  let m ← get
  let createGas := if face.schedule.staticCallDepthLimit then m.gasRef else m.gasRef - m.gasRef / 64
  modify fun m => { m with sp := m.sp + 1 }
  let init ← readMem initOff initSize
  let (newAddress, gas) ← ask (face.create endowment createGas init)
  poke 0 (BitVec.ofNat 256 newAddress)
  modify fun m => { m with gasRef := m.gasRef - (createGas - gas) }
  modify fun m => { m with ioGas := low64 m.gasRef }

def caseCreate : M σ Bool := onward do
  let offset ← peek 1
  let size ← peek 2
  let need ← memNeed offset size
  setNewMemSize need
  let gas ← toUint64 face.schedule.createGas
  setRunGas gas
  updateMem face
  charge
  let endowment ← take
  let initOff ← take
  let initSize ← take
  let balance ← ask (face.balance face.myAddress)
  if endowment ≤ balance ∧
    face.depth < 1024 then createFrame face endowment (low64 initOff) (low64 initSize)
  else put 0

/-- A call that has its value and its depth, with the places of its output; or only the gas for one
that has not. -/
structure CallSetup where
  params : CallParameters
  inOff : Nat
  inSize : Nat
  outOff : Nat
  outSize : Nat
  possible : Bool
  deriving DecidableEq, Repr

/-- The costs that are known before the gas of the call is. -/
def callStaticGas (op : Instruction) : M σ Unit := do
  let gas ← toUint64 face.schedule.callGas
  setRunGas gas
  if op = .call then do
    let a ← peek 1
    let existing ← ask (face.existing (asAddress a))
    let value ← peek 2
    if existing = false ∧
      (value ≠ 0 ∨ face.schedule.zeroValueTransferChargesNewAccountGas = true) then do
      let more ← toUint64 face.schedule.callNewAccountGas
      addRunGas more
    else pure ()
  else pure ()

def callValueGas (op : Instruction) : M σ Unit :=
  if op = .delegatecall then pure ()
  else do
    let value ← peek 2
    if value ≠ 0 then do
      let more ← toUint64 face.schedule.callValueTransferGas
      addRunGas more
    else pure ()

/-- The memory that a call reads and writes; `sizesOffset` is the place of the first of the four
operands. -/
def callMem (sizesOffset : Nat) : M σ Unit := do
  let outOff ← peek (sizesOffset + 1)
  let outSize ← peek (sizesOffset + 2)
  let outNeed ← memNeed outOff outSize
  let inOff ← peek (sizesOffset - 1)
  let inSize ← peek sizesOffset
  let inNeed ← memNeed inOff inSize
  setNewMemSize (max outNeed inNeed)

def callGas : M σ U256 := do
  let m ← get
  let gas ← peek 0
  let most := BitVec.ofNat 256 (m.ioGas - m.ioGas / 64)
  pure (if face.schedule.staticCallDepthLimit ∨ gas ≤ most then gas else most)

/-- The value of a call: what the callee sees, and what is paid. -/
def callValue (op : Instruction) : M σ (U256 × U256) :=
  if op = .delegatecall then pure (face.value, 0)
  else do
    let value ← take
    pure (value, value)

def callStipend (op : Instruction) (gas : U256) : M σ U256 :=
  if op = .delegatecall then pure gas
  else do
    let value ← peek 2
    pure (if value ≠ 0 then gas + BitVec.ofNat 256 face.schedule.callStipend else gas)

def caseCallSetup (op : Instruction) : M σ CallSetup := do
  callStaticGas face op
  callValueGas face op
  callMem (if op = .delegatecall then 3 else 4)
  updateMem face
  updateIOGas
  let gas ← callGas face
  let runGas ← toUint64 gas.toNat
  setRunGas runGas
  charge
  let gas ← callStipend face op gas
  drop 1
  let a ← take
  let codeAddress := asAddress a
  let (apparentValue, valueTransfer) ← callValue face op
  let inOff ← take
  let inSize ← take
  let outOff ← take
  let outSize ← take
  let balance ← ask (face.balance face.myAddress)
  let senderAddress := if op = .delegatecall then face.caller else face.myAddress
  let receiveAddress := if op = .call then codeAddress else face.myAddress
  pure {
    params :=
    { senderAddress, codeAddress, receiveAddress, valueTransfer, apparentValue, gas, data := [] }
    inOff := low64 inOff, inSize := low64 inSize, outOff := low64 outOff, outSize := low64 outSize
    possible := decide (valueTransfer ≤ balance ∧ face.depth < 1024) }

def callFrame (setup : CallSetup) : M σ U256 := do
  let data ← readMem setup.inOff setup.inSize
  let (success, gas, out) ← ask (face.call { setup.params with data })
  writeMem setup.outOff (out.take setup.outSize)
  put (ofBool success)
  pure gas

def caseCall (op : Instruction) : M σ Bool := onward do
  let setup ← caseCallSetup face op
  let gas ← if setup.possible then callFrame face setup else do
    put 0
    pure setup.params.gas
  let m ← get
  let sum ← add64 m.ioGas (low64 gas)
  modify fun m => { m with ioGas := sum }

/-- The cases of the interpreter; the flag says whether it goes on. -/
def interpretCases : Instruction → M σ Bool
  | .create => caseCreate face
  | .delegatecall => if face.schedule.haveDelegateCall then caseCall face .delegatecall
      else throwBadInstruction
  | .call => caseCall face .call
  | .callcode => caseCall face .callcode
  | .return => return_ face
  | .suicide => suicide face
  | .stop => stop
  | .mload => mload face
  | .mstore => mstore face
  | .mstore8 => mstore8 face
  | .sha3 => sha3 C face
  | .log n => log face n
  | .exp => exp face
  | .add => plain (binary fun a b => b + a)
  | .mul => plain (binary fun a b => b * a)
  | .sub => plain (binary fun a b => a - b)
  | .div => plain (binary div)
  | .sdiv => plain (binary sdiv)
  | .mod => plain (binary mod)
  | .smod => plain (binary smod)
  | .not => plain (unary fun a => ~~~a)
  | .lt => plain (binary fun a b => ofBool (decide (a < b)))
  | .gt => plain (binary fun a b => ofBool (decide (b < a)))
  | .slt => plain (binary fun a b => ofBool (decide ((u2s a).value < (u2s b).value)))
  | .sgt => plain (binary fun a b => ofBool (decide ((u2s b).value < (u2s a).value)))
  | .eq => plain (binary fun a b => ofBool (decide (a = b)))
  | .iszero => plain (unary fun a => ofBool (decide (a = 0)))
  | .and => plain (binary fun a b => a &&& b)
  | .or => plain (binary fun a b => a ||| b)
  | .xor => plain (binary fun a b => a ^^^ b)
  | .byte => plain (binary byteOf)
  | .addmod => plain (ternary addmod)
  | .mulmod => plain (ternary mulmod)
  | .signextend => plain (binary signextend)
  | .address => plain (put (BitVec.ofNat 256 face.myAddress))
  | .origin => plain (put (BitVec.ofNat 256 face.origin))
  | .balance => priced face.schedule.balanceGas (looked fun a => face.balance (asAddress a))
  | .caller => plain (put (BitVec.ofNat 256 face.caller))
  | .callvalue => plain (put face.value)
  | .calldataload => plain (unary (calldataload face))
  | .calldatasize => plain (put (BitVec.ofNat 256 face.data.length))
  | .codesize => plain (put (BitVec.ofNat 256 face.code.length))
  | .extcodesize => priced face.schedule.extcodesizeGas
      (looked fun a ext => (face.codeSizeAt (asAddress a) ext).map
        fun (n, ext) => (BitVec.ofNat 256 n, ext))
  | .calldatacopy => copy face face.data
  | .codecopy => copy face face.code
  | .extcodecopy => extcodecopy face
  | .gasprice => plain (put face.gasPrice)
  | .blockhash => plain
      (looked fun a ext => (face.blockHash a ext).map fun (h, ext) => (BitVec.ofNat 256 h, ext))
  | .coinbase => plain (put (BitVec.ofNat 256 face.author))
  | .timestamp => plain (put face.timestamp)
  | .number => plain (put face.number)
  | .difficulty => plain (put face.difficulty)
  | .gaslimit => plain (put (BitVec.ofInt 256 face.gasLimit))
  | .pop => plain (drop 1)
  | .push n => push (n + 1)
  | .jump => jump
  | .jumpi => jumpi
  | .dup n => plain (dup (n + 1))
  | .swap n => plain (swap (n + 1))
  | .sload => priced face.schedule.sloadGas (looked face.store)
  | .sstore => sstore face
  | .pc => plain do
      let m ← get
      put (BitVec.ofNat 256 m.pc)
  | .msize => plain do
      let m ← get
      put (BitVec.ofNat 256 m.mem.size)
  | .gas => plain do
      let m ← get
      put (BitVec.ofNat 256 m.ioGas)
  | .jumpdest => priced 1 (pure ())
  | .jumpto | .jumpif | .jumpv | .jumpsub | .jumpsubv | .returnsub => throwBadInstruction
  | .beginsub | .begindata | .pushc | .jumpc | .jumpci | .bad | .ethcall | .other =>
      throwBadInstruction

def step : M σ Bool := do
  fetchInstruction face
  let m ← get
  interpretCases C face m.op

/-- The instructions until one halts, if there is fuel for them. -/
def interpret : Nat → VM σ → Option (EStateM.Result Thrown (VM σ) Unit)
  | 0, _ => none
  | fuel + 1, m =>
      match step C face m with
      | .ok true m => interpret fuel m
      | .ok false m => some (.ok () m)
      | .error e m => some (.error e m)

end Cases

end UtispaceChain.Evm
