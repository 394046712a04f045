import UtispaceChain.CvVm.Steps

/-! What every question to the surroundings keeps, the instructions keep that start no frame. -/

namespace UtispaceChain.Evm

open Lib Accounts

variable {σ α β γ : Type}

/-- An answer keeps what holds of the surroundings and of the gas. -/
def AskKeeps (I : σ → Nat → Prop) (q : Asks σ α) : Prop :=
  ∀ x gas a x', I x gas → q x = some (a, x') → I x' gas

def Keeps (I : σ → Nat → Prop) (x : M σ α) : Prop :=
  ∀ m, I m.ext m.ioGas → Ends x m (fun _ m' => I m'.ext m'.ioGas) fun _ m' => I m'.ext m'.ioGas

section Parts

variable {I : σ → Nat → Prop} {x : M σ α} {f : α → M σ β}

theorem keeps_pure (a : α) : Keeps I (pure a : M σ α) := fun _ kept => kept

theorem keeps_throw (e : Thrown) : Keeps I (throw e : M σ α) := fun _ kept => kept

theorem keeps_get : Keeps I (get : M σ (VM σ)) := fun _ kept => kept

theorem keeps_modify {g : VM σ → VM σ} (blind : ∀ m, (g m).ext = m.ext ∧ (g m).ioGas = m.ioGas) :
    Keeps I (modify g : M σ Unit) := by
  intro m kept
  rw [ends_modify, (blind m).1, (blind m).2]
  exact kept

theorem keeps_bind (first : Keeps I x) (second : ∀ a, Keeps I (f a)) : Keeps I (x >>= f) := by
  intro m kept
  rw [ends_bind]
  exact (first m kept).mono (fun a m' kept' => second a m' kept') fun _ _ kept' => kept'

theorem keeps_ite {p : Prop} [Decidable p] {y : M σ α} (yes : Keeps I x) (no : Keeps I y) :
    Keeps I (if p then x else y) := by
  split
  · exact yes
  · exact no

theorem keeps_of_leaves (leaves : Leaves (fun m : VM σ => (m.ext, m.ioGas)) x) : Keeps I x := by
  intro m kept
  have carry : ∀ m' : VM σ, (m'.ext, m'.ioGas) = (m.ext, m.ioGas) → I m'.ext m'.ioGas := by
    intro m' same
    have ext : m'.ext = m.ext := congrArg Prod.fst same
    have gas : m'.ioGas = m.ioGas := congrArg Prod.snd same
    rw [ext, gas]
    exact kept
  exact (leaves m).mono (fun _ m' => carry m') fun _ m' => carry m'

theorem keeps_ask {q : Asks σ α} (keeps : AskKeeps I q) : Keeps I (ask q) := fun m kept =>
  ends_ask (fun _ => kept) fun a x' asked => keeps m.ext m.ioGas a x' kept asked

theorem keeps_peek (k : Nat) : Keeps I (peek k : M σ U256) :=
  keeps_of_leaves (leaves_peek (fun _ _ => rfl) k)

theorem keeps_poke (k : Nat) (v : U256) : Keeps I (poke k v : M σ Unit) :=
  keeps_of_leaves (leaves_poke (fun _ _ _ => rfl) k v)

theorem keeps_drop (n : Nat) : Keeps I (drop n : M σ Unit) :=
  keeps_of_leaves (leaves_drop (fun _ _ => rfl) n)

theorem keeps_take : Keeps I (take : M σ U256) := keeps_of_leaves (leaves_take fun _ _ _ => rfl)

theorem keeps_put (v : U256) : Keeps I (put v : M σ Unit) :=
  keeps_of_leaves (leaves_put (fun _ _ _ _ => rfl) v)

theorem keeps_advance (n : Nat) : Keeps I (advance n : M σ Unit) :=
  keeps_of_leaves (leaves_advance (fun _ _ => rfl) n)

theorem keeps_toUint64 (v : Nat) : Keeps I (toUint64 v : M σ Nat) :=
  keeps_of_leaves (leaves_toUint64 v)

theorem keeps_memNeed (offset size : U256) : Keeps I (memNeed offset size : M σ Nat) :=
  keeps_toUint64 _

theorem keeps_add64 (a b : Nat) : Keeps I (add64 a b : M σ Nat) :=
  keeps_of_leaves (leaves_add64 (fun _ _ => rfl) a b)

theorem keeps_readMem (offset size : Nat) : Keeps I (readMem offset size : M σ Bytes) :=
  keeps_of_leaves (leaves_readMem (fun _ _ => rfl) offset size)

theorem keeps_writeMem (offset : Nat) (bytes : Bytes) :
    Keeps I (writeMem offset bytes : M σ Unit) :=
  keeps_of_leaves (leaves_writeMem (fun _ _ _ => rfl) offset bytes)

theorem keeps_setRunGas (gas : Nat) : Keeps I (setRunGas gas : M σ Unit) :=
  keeps_modify fun _ => ⟨rfl, rfl⟩

theorem keeps_setNewMemSize (size : Nat) : Keeps I (setNewMemSize size : M σ Unit) :=
  keeps_modify fun _ => ⟨rfl, rfl⟩

theorem keeps_setCopyMemSize (size : Nat) : Keeps I (setCopyMemSize size : M σ Unit) :=
  keeps_modify fun _ => ⟨rfl, rfl⟩

theorem keeps_addRunGas (gas : Nat) : Keeps I (addRunGas gas : M σ Unit) :=
  keeps_of_leaves (leaves_addRunGas (fun _ _ _ => rfl) gas)

theorem keeps_updateMem (face : Face σ) : Keeps I (updateMem face) :=
  keeps_of_leaves (leaves_updateMem face fun _ _ _ _ _ => rfl)

theorem keeps_charge (less : ∀ x gas gas', gas' ≤ gas → I x gas → I x gas') :
    Keeps I (charge : M σ Unit) := fun m kept =>
  ends_charge (fun _ => kept) fun _ => less m.ext m.ioGas _ (Nat.sub_le _ _) kept

theorem keeps_grow {f : Unit → M σ α} (face : Face σ) (need : Nat) (rest : ∀ a, Keeps I (f a)) :
    Keeps I (do
      setNewMemSize need
      let a ← updateMem face
      f a) :=
  keeps_bind (keeps_setNewMemSize need) fun _ => keeps_bind (keeps_updateMem face) rest

end Parts

/-- Every question but those that start a frame keeps `I`, and so does a charge. -/
structure Steady (face : Face σ) (I : σ → Nat → Prop) : Prop where
  less : ∀ x gas gas', gas' ≤ gas → I x gas → I x gas'
  store : ∀ n, AskKeeps I (face.store n)
  setStore : ∀ n v, AskKeeps I (face.setStore n v)
  balance : ∀ a, AskKeeps I (face.balance a)
  codeAt : ∀ a, AskKeeps I (face.codeAt a)
  codeSizeAt : ∀ a, AskKeeps I (face.codeSizeAt a)
  existing : ∀ a, AskKeeps I (face.existing a)
  suicide : ∀ a, AskKeeps I (face.suicide a)
  log : ∀ topics data, AskKeeps I (face.log topics data)
  refund : ∀ amount, AskKeeps I (face.refund amount)
  blockHash : ∀ n, AskKeeps I (face.blockHash n)

def Instruction.nests (op : Instruction) : Bool :=
  decide (op = .create ∨ op = .call ∨ op = .callcode ∨ op = .delegatecall)

section Instructions

variable {C : Crypto} {face : Face σ} {I : σ → Nat → Prop} (steady : Steady face I)

theorem keeps_onward {x : M σ Unit} (keeps : Keeps I x) : Keeps I (onward x) :=
  keeps_bind keeps fun _ => keeps_bind (keeps_advance 1) fun _ => keeps_pure true

theorem keeps_looked {q : U256 → Asks σ U256} (keeps : ∀ a, AskKeeps I (q a)) :
    Keeps I (looked q) :=
  keeps_bind (keeps_peek 0) fun a => keeps_bind (keeps_ask (keeps a)) fun _ => keeps_poke 0 _

theorem keeps_unary (f : U256 → U256) : Keeps I (unary f : M σ Unit) :=
  keeps_bind (keeps_peek 0) fun _ => keeps_poke 0 _

theorem keeps_binary (f : U256 → U256 → U256) : Keeps I (binary f : M σ Unit) :=
  keeps_bind (keeps_peek 0) fun _ => keeps_bind (keeps_peek 1) fun _ => keeps_bind (keeps_poke 1 _)
    fun _ => keeps_drop 1

theorem keeps_ternary (f : U256 → U256 → U256 → U256) : Keeps I (ternary f : M σ Unit) := by
  unfold ternary
  refine keeps_bind (keeps_peek 0) fun _ => keeps_bind (keeps_peek 1) fun _ =>
    keeps_bind (keeps_peek 2) fun _ => ?_
  exact keeps_bind (keeps_poke 2 _) fun _ => keeps_drop 2

theorem keeps_dup (n : Nat) : Keeps I (dup n : M σ Unit) :=
  keeps_bind (keeps_peek _) fun _ => keeps_put _

theorem keeps_swap (n : Nat) : Keeps I (swap n : M σ Unit) :=
  keeps_bind (keeps_peek 0) fun _ => keeps_bind (keeps_peek n) fun _ => keeps_bind (keeps_poke 0 _)
    fun _ => keeps_poke n _

theorem keeps_topics (count k : Nat) : Keeps I (topics count k : M σ (List H256)) := by
  induction count generalizing k with
  | zero => exact keeps_pure _
  | succ count ih =>
      exact keeps_bind (keeps_peek k) fun t => keeps_bind (ih _) fun rest => keeps_pure _

theorem keeps_copyDataToMemory (data : Bytes) : Keeps I (copyDataToMemory data : M σ Unit) :=
  keeps_bind keeps_take fun _ => keeps_bind keeps_take fun _ => keeps_bind keeps_take fun _ =>
    keeps_writeMem _ _

theorem keeps_jumpTo (dest : U256) (k : Nat) :
    Keeps I (do
      let pc ← verifyJumpDest dest
      modify fun m => { m with pc }
      drop k
      pure true : M σ Bool) := by
  refine keeps_bind ?_ fun pc => ?_
  · exact keeps_bind keeps_get fun m => keeps_ite (keeps_pure _) (keeps_throw _)
  · exact keeps_bind (keeps_modify fun _ => ⟨rfl, rfl⟩) fun _ => keeps_bind (keeps_drop k) fun _ =>
      keeps_pure true

include steady

theorem Steady.charge : Keeps I (charge : M σ Unit) := keeps_charge steady.less

theorem Steady.plain {x : M σ Unit} (keeps : Keeps I x) : Keeps I (plain x) :=
  keeps_onward (keeps_bind steady.charge fun _ => keeps)

theorem Steady.priced (gas : Nat) {x : M σ Unit} (keeps : Keeps I x) : Keeps I (priced gas x) :=
  keeps_onward (keeps_bind (keeps_toUint64 gas) fun _ => keeps_bind (keeps_setRunGas _) fun _ =>
    keeps_bind steady.charge fun _ => keeps)

theorem Steady.grow {f : Unit → M σ α} (need : Nat) (rest : ∀ a, Keeps I (f a)) :
    Keeps I (do
      setNewMemSize need
      updateMem face
      let a ← Evm.charge
      f a) :=
  keeps_grow face need fun _ => keeps_bind steady.charge rest

theorem Steady.mload : Keeps I (mload face) := by
  refine keeps_onward (keeps_bind (keeps_peek 0) fun _ => keeps_bind (keeps_toUint64 _) fun _ => ?_)
  refine keeps_bind (keeps_add64 _ _) fun _ => steady.grow _ fun _ =>
    keeps_bind (keeps_peek 0) fun _ => ?_
  exact keeps_bind (keeps_readMem _ _) fun _ => keeps_poke 0 _

theorem Steady.mstore : Keeps I (mstore face) := by
  refine keeps_onward (keeps_bind (keeps_peek 0) fun _ => keeps_bind (keeps_toUint64 _) fun _ => ?_)
  refine keeps_bind (keeps_add64 _ _) fun _ => steady.grow _ fun _ =>
    keeps_bind (keeps_peek 1) fun _ => ?_
  exact keeps_bind (keeps_peek 0) fun _ => keeps_bind (keeps_writeMem _ _) fun _ => keeps_drop 2

theorem Steady.mstore8 : Keeps I (mstore8 face) := by
  refine keeps_onward (keeps_bind (keeps_peek 0) fun _ => keeps_bind (keeps_toUint64 _) fun _ => ?_)
  refine keeps_bind (keeps_add64 _ _) fun _ => steady.grow _ fun _ =>
    keeps_bind (keeps_peek 1) fun _ => ?_
  exact keeps_bind (keeps_peek 0) fun _ => keeps_bind (keeps_writeMem _ _) fun _ => keeps_drop 2

theorem Steady.sha3 : Keeps I (sha3 C face) := by
  refine keeps_onward (keeps_bind (keeps_peek 1) fun _ => keeps_bind (keeps_toUint64 _) fun _ => ?_)
  refine keeps_bind (keeps_setRunGas _) fun _ => keeps_bind (keeps_peek 0) fun _ =>
    keeps_bind (keeps_peek 1) fun _ => ?_
  refine keeps_bind (keeps_memNeed _ _) fun _ => steady.grow _ fun _ =>
    keeps_bind keeps_take fun _ => ?_
  exact keeps_bind keeps_take fun _ => keeps_bind (keeps_readMem _ _) fun _ => keeps_put _

theorem Steady.logs (n : Nat) : Keeps I (Evm.log face n) := by
  refine keeps_onward (keeps_bind ?_ fun _ => keeps_bind steady.charge
    fun _ => keeps_bind (keeps_topics n 2) fun ts => ?_)
  · refine keeps_bind (keeps_peek 0) fun _ => keeps_bind (keeps_peek 1) fun _ =>
      keeps_bind (keeps_toUint64 _) fun _ => ?_
    refine keeps_bind (keeps_setRunGas _) fun _ => keeps_bind (keeps_memNeed _ _) fun _ => ?_
    exact keeps_bind (keeps_setNewMemSize _) fun _ => keeps_updateMem face
  · refine keeps_bind (keeps_peek 0) fun _ => keeps_bind (keeps_peek 1) fun _ =>
      keeps_bind (keeps_readMem _ _) fun _ => ?_
    exact keeps_bind (keeps_ask (steady.log _ _)) fun _ => keeps_drop _

theorem Steady.exp : Keeps I (exp face) := by
  refine keeps_onward (keeps_bind (keeps_peek 1) fun _ => keeps_bind (keeps_toUint64 _) fun _ => ?_)
  refine keeps_bind (keeps_setRunGas _) fun _ => keeps_bind steady.charge fun _ =>
    keeps_bind keeps_take fun _ => ?_
  exact keeps_poke 0 _

theorem Steady.copy (data : Bytes) : Keeps I (copy face data) := by
  refine keeps_onward (keeps_bind (keeps_peek 2) fun _ => keeps_bind (keeps_toUint64 _) fun _ => ?_)
  refine keeps_bind (keeps_setCopyMemSize _) fun _ => keeps_bind (keeps_peek 0) fun _ =>
    keeps_bind (keeps_peek 2) fun _ => ?_
  exact keeps_bind (keeps_memNeed _ _) fun _ => steady.grow _ fun _ => keeps_copyDataToMemory data

theorem Steady.extcodecopy : Keeps I (extcodecopy face) := by
  refine keeps_onward (keeps_bind (keeps_toUint64 _) fun _ => keeps_bind (keeps_setRunGas _)
    fun _ => ?_)
  refine keeps_bind (keeps_peek 3) fun _ => keeps_bind (keeps_toUint64 _) fun _ => ?_
  refine keeps_bind (keeps_setCopyMemSize _) fun _ => keeps_bind (keeps_peek 1) fun _ =>
    keeps_bind (keeps_peek 3) fun _ => ?_
  refine keeps_bind (keeps_memNeed _ _) fun _ => steady.grow _ fun _ =>
    keeps_bind (keeps_peek 0) fun _ => ?_
  refine keeps_bind (keeps_drop 1) fun _ => keeps_bind (keeps_ask (steady.codeAt _)) fun _ => ?_
  exact keeps_copyDataToMemory _

theorem Steady.push (n : Nat) : Keeps I (push n : M σ Bool) := by
  refine keeps_bind steady.charge fun _ => keeps_bind keeps_get fun _ =>
    keeps_bind (keeps_put _) fun _ => ?_
  exact keeps_bind (keeps_advance _) fun _ => keeps_pure true

theorem Steady.jump : Keeps I (jump : M σ Bool) :=
  keeps_bind steady.charge fun _ => keeps_bind (keeps_peek 0) fun dest => keeps_jumpTo dest 1

theorem Steady.jumpi : Keeps I (jumpi : M σ Bool) := by
  refine keeps_bind steady.charge fun _ => keeps_bind (keeps_peek 1) fun _ => keeps_ite ?_ ?_
  · exact keeps_bind (keeps_advance 1) fun _ => keeps_bind (keeps_drop 2) fun _ => keeps_pure true
  · exact keeps_bind (keeps_peek 0) fun dest => keeps_jumpTo dest 2

theorem Steady.sstoreGas : Keeps I (sstoreGas face) := by
  refine keeps_bind (keeps_peek 0) fun _ => keeps_bind (keeps_ask (steady.store _)) fun _ => ?_
  refine keeps_bind (keeps_peek 1) fun _ => keeps_ite (keeps_toUint64 _) ?_
  refine keeps_bind (keeps_ask (steady.store _)) fun _ => keeps_ite ?_ (keeps_toUint64 _)
  exact keeps_bind (keeps_toUint64 _) fun _ => keeps_bind (keeps_ask (steady.refund _)) fun _ =>
    keeps_pure _

theorem Steady.sstore : Keeps I (sstore face) := by
  refine keeps_onward (keeps_bind steady.sstoreGas fun _ => keeps_bind (keeps_setRunGas _)
    fun _ => ?_)
  refine keeps_bind steady.charge fun _ => keeps_bind (keeps_peek 0) fun _ =>
    keeps_bind (keeps_peek 1) fun _ => ?_
  exact keeps_bind (keeps_ask (steady.setStore _ _)) fun _ => keeps_drop 2

theorem Steady.suicides : Keeps I (Evm.suicide face) := by
  refine keeps_bind (keeps_toUint64 _) fun _ => keeps_bind (keeps_setRunGas _) fun _ => ?_
  refine keeps_bind (keeps_peek 0) fun _ => keeps_bind ?_ fun _ => keeps_bind (keeps_addRunGas _)
    fun _ => ?_
  · refine keeps_bind (keeps_ask (steady.balance _)) fun _ => keeps_ite ?_ (keeps_pure 0)
    exact keeps_bind (keeps_ask (steady.existing _)) fun _ => keeps_pure _
  · exact keeps_bind steady.charge fun _ => keeps_bind (keeps_ask (steady.suicide _)) fun _ =>
      keeps_pure false

theorem Steady.return_ : Keeps I (return_ face) := by
  refine keeps_bind (keeps_peek 0) fun _ => keeps_bind (keeps_peek 1) fun _ =>
    keeps_bind (keeps_memNeed _ _) fun _ => ?_
  refine steady.grow _ fun _ => keeps_bind keeps_take fun _ => keeps_bind keeps_take fun _ => ?_
  exact keeps_bind (keeps_readMem _ _) fun _ => keeps_bind (keeps_modify fun _ => ⟨rfl, rfl⟩)
    fun _ => keeps_pure false

theorem Steady.stop : Keeps I (stop : M σ Bool) :=
  keeps_bind steady.charge fun _ => keeps_pure false

theorem Steady.interpretCases (op : Instruction) (alone : op.nests = false) :
    Keeps I (interpretCases C face op) := by
  have size : ∀ a, AskKeeps I fun ext : σ =>
      (face.codeSizeAt (asAddress a) ext).map fun found => (BitVec.ofNat 256 found.1, found.2) := by
    intro a x gas v x' kept asked
    rcases Option.map_eq_some_iff.mp asked with ⟨⟨n, x₁⟩, found, same⟩
    cases same
    exact steady.codeSizeAt _ x gas n x₁ kept found
  have hash : ∀ a, AskKeeps I fun ext : σ => (face.blockHash a ext).map fun found =>
      (BitVec.ofNat 256 found.1, found.2) := by
    intro a x gas v x' kept asked
    rcases Option.map_eq_some_iff.mp asked with ⟨⟨n, x₁⟩, found, same⟩
    cases same
    exact steady.blockHash _ x gas n x₁ kept found
  cases op with
  | create | call | callcode | delegatecall => cases alone
  | stop => exact steady.stop
  | «return» => exact steady.return_
  | suicide => exact steady.suicides
  | mload => exact steady.mload
  | mstore => exact steady.mstore
  | mstore8 => exact steady.mstore8
  | sha3 => exact steady.sha3
  | log k => exact steady.logs k
  | exp => exact steady.exp
  | calldatacopy => exact steady.copy _
  | codecopy => exact steady.copy _
  | extcodecopy => exact steady.extcodecopy
  | sstore => exact steady.sstore
  | push k => exact steady.push _
  | jump => exact steady.jump
  | jumpi => exact steady.jumpi
  | balance => exact steady.priced _ (keeps_looked fun a => steady.balance _)
  | extcodesize => exact steady.priced _ (keeps_looked size)
  | sload => exact steady.priced _ (keeps_looked steady.store)
  | jumpdest => exact steady.priced 1 (keeps_pure ())
  | blockhash => exact steady.plain (keeps_looked hash)
  | pop => exact steady.plain (keeps_drop 1)
  | dup k => exact steady.plain (keeps_dup _)
  | swap k => exact steady.plain (keeps_swap _)
  | pc | msize | gas => exact steady.plain (keeps_bind keeps_get fun _ => keeps_put _)
  | not | iszero | calldataload => exact steady.plain (keeps_unary _)
  | addmod | mulmod => exact steady.plain (keeps_ternary _)
  | add | mul | sub | div | sdiv | mod | smod | signextend => exact steady.plain (keeps_binary _)
  | lt | gt | slt | sgt | eq | and | or | xor | byte => exact steady.plain (keeps_binary _)
  | address | origin | caller | callvalue => exact steady.plain (keeps_put _)
  | calldatasize | codesize | gasprice => exact steady.plain (keeps_put _)
  | coinbase | timestamp | number => exact steady.plain (keeps_put _)
  | difficulty | gaslimit => exact steady.plain (keeps_put _)
  | jumpto | jumpif | jumpv | jumpsub | jumpsubv | returnsub => exact keeps_throw _
  | beginsub | begindata | pushc | jumpc | jumpci | bad | ethcall | other => exact keeps_throw _

end Instructions

end UtispaceChain.Evm
