import UtispaceChain.Cv.ExtVM
import UtispaceChain.CvVmCore.Instruction
import UtispaceChain.Lib.Ends
import UtispaceChain.Lib.Memory

/-! `VM`: its state, the stack and the memory, and what an instruction is charged. -/

namespace UtispaceChain.Evm

open Lib Accounts

/-- A question to the surroundings, which it may change; none when something else than a
`VMException` is thrown. -/
abbrev Asks (σ α : Type) := σ → Option (α × σ)

/-- `ExtVMFace`: the frame, and its surroundings. The output of a call comes back with it. -/
structure Face (σ : Type) where
  myAddress : Nat
  caller : Nat
  origin : Nat
  value : U256
  gasPrice : U256
  data : Bytes
  code : Bytes
  depth : Nat
  author : Nat
  timestamp : U256
  number : U256
  difficulty : U256
  gasLimit : Int
  schedule : EVMSchedule
  store : U256 → Asks σ U256
  setStore : U256 → U256 → Asks σ Unit
  balance : Nat → Asks σ U256
  codeAt : Nat → Asks σ Bytes
  codeSizeAt : Nat → Asks σ Nat
  existing : Nat → Asks σ Bool
  suicide : Nat → Asks σ Unit
  create : U256 → U256 → Bytes → Asks σ (Nat × U256)
  call : CallParameters → Asks σ (Bool × U256 × Bytes)
  log : List H256 → Bytes → Asks σ Unit
  refund : Nat → Asks σ Unit
  blockHash : U256 → Asks σ H256

structure Access where
  writes : Bool
  offset : Nat
  bytes : Bytes
  deriving DecidableEq, Repr

/-- The stack pointer is the place of the top of the stack, and the gas is counted in 64 bits. The
last three say which places of the stack and of the memory the instruction has touched, and whether
a sum has wrapped around. -/
structure VM (σ : Type) where
  ext : σ
  code : Bytes
  jumpDests : List Nat
  op : Instruction := .stop
  pc : Nat := 0
  stack : Int → U256 := fun _ => 0
  sp : Int := -1
  mem : Memory := .empty
  bytes : Bytes := []
  gasRef : U256
  ioGas : Nat
  runGas : Nat := 0
  newMemSize : Nat := 0
  copyMemSize : Nat := 0
  slots : List Int := []
  accesses : List Access := []
  wrapped : Bool := false

inductive Thrown
  | vm (excepted : TransactionException)
  | unexpected
  deriving DecidableEq, Repr

abbrev M (σ α : Type) := EStateM Thrown (VM σ) α

section Primitives

variable {σ α : Type}

def throwOutOfGas : M σ α := throw (.vm .outOfGas)

def throwBadInstruction : M σ α := throw (.vm .badInstruction)

def throwBadJumpDestination : M σ α := throw (.vm .badJumpDestination)

def ask (q : Asks σ α) : M σ α := fun m =>
  match q m.ext with
  | none => .error .unexpected m
  | some (a, ext) => .ok a { m with ext }

/-- `*(m_sp - k)`. -/
def peek (k : Nat) : M σ U256 :=
  fun m => .ok (m.stack (m.sp - k)) { m with slots := m.slots ++ [m.sp - k] }

/-- `*(m_sp - k) = v`. -/
def poke (k : Nat) (v : U256) : M σ Unit := fun m =>
  .ok () { m with stack := Function.update m.stack (m.sp - k) v, slots := m.slots ++ [m.sp - k] }

/-- `m_sp -= n`. -/
def drop (n : Nat) : M σ Unit := modify fun m => { m with sp := m.sp - n }

/-- `*m_sp--`. -/
def take : M σ U256 := do
  let v ← peek 0
  drop 1
  pure v

/-- `*++m_sp = v`. -/
def put (v : U256) : M σ Unit := do
  modify fun m => { m with sp := m.sp + 1 }
  poke 0 v

def advance (n : Nat) : M σ Unit := modify fun m => { m with pc := m.pc + n }

def readMem (offset size : Nat) : M σ Bytes := fun m =>
  let bytes := m.mem.read offset size
  .ok bytes { m with accesses := m.accesses ++ [⟨false, offset, bytes⟩] }

def writeMem (offset : Nat) (bytes : Bytes) : M σ Unit := fun m =>
  .ok () { m with mem := m.mem.write offset bytes, accesses := m.accesses ++
    [⟨true, offset, bytes⟩] }

/-- A sum of `uint64_t`. -/
def add64 (a b : Nat) : M σ Nat := fun m =>
  .ok ((a + b) % 2 ^ 64) { m with wrapped := m.wrapped || decide (2 ^ 64 ≤ a + b) }

def mul64 (a b : Nat) : M σ Nat := fun m =>
  .ok (a * b % 2 ^ 64) { m with wrapped := m.wrapped || decide (2 ^ 64 ≤ a * b) }

def setRunGas (gas : Nat) : M σ Unit := modify fun m => { m with runGas := gas }

def setNewMemSize (size : Nat) : M σ Unit := modify fun m => { m with newMemSize := size }

def setCopyMemSize (size : Nat) : M σ Unit := modify fun m => { m with copyMemSize := size }

/-- `m_runGas += gas`. -/
def addRunGas (gas : Nat) : M σ Unit := do
  let m ← get
  let sum ← add64 m.runGas gas
  setRunGas sum

def toUint64 (v : Nat) : M σ Nat := if 2 ^ 63 - 1 < v then throwOutOfGas else pure v

end Primitives

def asAddress (v : U256) : Nat := v.toNat % 2 ^ 160

/-- `(uint64_t)v`. -/
def low64 (v : U256) : Nat := v.toNat % 2 ^ 64

/-- `(unsigned)v`. -/
def low32 (v : U256) : Nat := v.toNat % 2 ^ 32

section Charges

variable {σ : Type} (face : Face σ)

def memNeed (offset size : U256) : M σ Nat :=
  toUint64 (if size = 0 then 0 else offset.toNat + size.toNat)

def gasForMem (size : Nat) : M σ Nat :=
  let s := size / 32
  toUint64 (face.schedule.memoryGas * s + s * s / face.schedule.quadCoeffDiv)

def updateIOGas : M σ Unit := do
  let m ← get
  if m.ioGas < m.runGas then throwOutOfGas
    else modify fun m => { m with ioGas := m.ioGas - m.runGas }

/-- The part of `updateGas` for a memory that grows. -/
def chargeMem : M σ Unit := do
  let m ← get
  if m.mem.size < m.newMemSize then do
    let after ← gasForMem face m.newMemSize
    let before ← gasForMem face m.mem.size
    let more ← toUint64 ((after + 2 ^ 64 - before) % 2 ^ 64)
    addRunGas more
  else pure ()

def chargeCopy : M σ Unit := do
  let m ← get
  let rounded ← add64 m.copyMemSize 31
  let cost ← mul64 face.schedule.copyGas (rounded / 32)
  addRunGas cost

def updateGas : M σ Unit := do
  chargeMem face
  chargeCopy face
  let m ← get
  if m.ioGas < m.runGas then throwOutOfGas else pure ()

def updateMem : M σ Unit := do
  let m ← get
  let rounded ← add64 m.newMemSize 31
  setNewMemSize (rounded / 32 * 32)
  updateGas face
  modify fun m => { m with mem := m.mem.grow m.newMemSize }

/-- `ON_OP(); updateIOGas();`, where nothing listens. -/
def charge : M σ Unit := updateIOGas

def logGasMem (n : Nat) : M σ Unit := do
  let offset ← peek 0
  let size ← peek 1
  let gas ← toUint64 ((face.schedule.logGas + face.schedule.logTopicGas * n) % 2 ^ 32 +
    face.schedule.logDataGas * size.toNat)
  setRunGas gas
  let need ← memNeed offset size
  setNewMemSize need
  updateMem face

/-- What an instruction costs by its tier; the last one lies behind the table, on the next
member. -/
def tierGas (es : EVMSchedule) : Tier → Nat
  | .zero => es.tierStepGas.getD 0 0
  | .base => es.tierStepGas.getD 1 0
  | .veryLow => es.tierStepGas.getD 2 0
  | .low => es.tierStepGas.getD 3 0
  | .mid => es.tierStepGas.getD 4 0
  | .high => es.tierStepGas.getD 5 0
  | .ext => es.tierStepGas.getD 6 0
  | .special => es.tierStepGas.getD 7 0
  | .invalid => es.expGas

def checkStack (removed added : Nat) : M σ Unit := do
  let m ← get
  let size := 1 + m.sp
  let usedSize := size - removed
  if usedSize < 0 then throw (.vm .stackUnderflow)
  else if 1024 < usedSize + added then throw (.vm .outOfStack)
  else pure ()

/-- It starts a new instruction; what the one before has touched is forgotten. -/
def fetchInstruction : M σ Unit := do
  modify fun m => { m with op := .ofByte (m.code.getD m.pc 0), slots := [], accesses := [] }
  let m ← get
  let metric := m.op.info
  checkStack metric.args metric.ret
  let gas ← toUint64 (tierGas face.schedule metric.gasPriceTier)
  modify fun m => { m with runGas := gas, newMemSize := m.mem.size, copyMemSize := 0 }

/-- The jump destinations are in order, so the binary search finds what is there. -/
def verifyJumpDest (dest : U256) : M σ Nat := do
  let m ← get
  if dest.toNat ≤ 2 ^ 63 - 1 ∧ dest.toNat ∈ m.jumpDests then pure dest.toNat
    else throwBadJumpDestination

end Charges

/-- The loop of `optimize` over the code, with the jump destinations found so far, the last one
first. -/
def optimizeFrom (nBytes : Nat) : Nat → Nat → Bytes → List Nat → Bytes × List Nat
  | 0, _, code, dests => (code, dests)
  | fuel + 1, pc, code, dests =>
      if pc < nBytes then
        let op := Instruction.ofByte (code.getD pc 0)
        let code := if op = .pushc ∨ op = .jumpc ∨ op = .jumpci then code.set pc 0xaf else code
        let dests := if op = .jumpdest then pc :: dests else dests
        optimizeFrom nBytes fuel (pc + op.immediate + 1) code dests
      else (code, dests)

/-- The code with 33 more zero bytes, and the jump destinations. -/
def optimize (code : Bytes) : Bytes × List Nat :=
  let (code', dests) := optimizeFrom code.length code.length 0 (code ++ List.replicate 33 0) []
  (code', dests.reverse)

/-- `initEntry`, and what `execImpl` sets before. -/
def VM.start {σ : Type} (face : Face σ) (gas : U256) (ext : σ) : VM σ where
  ext
  code := (optimize face.code).1
  jumpDests := (optimize face.code).2
  gasRef := gas
  ioGas := low64 gas

end UtispaceChain.Evm
