import UtispaceChain.CvVm.Cases

/-! What the parts of an instruction leave as it is. -/

namespace UtispaceChain.Evm

open Lib Accounts

variable {σ α γ : Type} {view : VM σ → γ}

def VM.item (m : VM σ) (k : Nat) : U256 := m.stack (m.sp - k)

@[simp] theorem ends_peek {k : Nat} {m : VM σ} {Q : U256 → VM σ → Prop} {E : Thrown → VM σ → Prop} :
    Ends (peek k) m Q E ↔ Q (m.item k) { m with slots := m.slots ++ [m.sp - k] } := Iff.rfl

@[simp] theorem ends_poke {k : Nat} {v : U256} {m : VM σ} {Q : Unit → VM σ → Prop}
    {E : Thrown → VM σ → Prop} :
    Ends (poke k v) m Q E ↔
      Q () { m with stack := Function.update m.stack (m.sp - k) v, slots := m.slots ++
        [m.sp - k] } := Iff.rfl

@[simp] theorem ends_readMem {offset size : Nat} {m : VM σ} {Q : Bytes → VM σ → Prop}
    {E : Thrown → VM σ → Prop} :
    Ends (readMem offset size) m Q E ↔ Q (m.mem.read offset size)
      { m with accesses := m.accesses ++ [⟨false, offset, m.mem.read offset size⟩] } := Iff.rfl

@[simp] theorem ends_writeMem {offset : Nat} {bytes : Bytes} {m : VM σ} {Q : Unit → VM σ → Prop}
    {E : Thrown → VM σ → Prop} : Ends (writeMem offset bytes) m Q E ↔ Q ()
      { m with mem := m.mem.write offset bytes, accesses := m.accesses ++
        [⟨true, offset, bytes⟩] } := Iff.rfl

@[simp] theorem ends_drop {n : Nat} {m : VM σ} {Q : Unit → VM σ → Prop} {E : Thrown → VM σ → Prop} :
    Ends (drop n) m Q E ↔ Q () { m with sp := m.sp - n } := Iff.rfl

@[simp] theorem ends_advance {n : Nat} {m : VM σ} {Q : Unit → VM σ → Prop}
    {E : Thrown → VM σ → Prop} :
    Ends (advance n) m Q E ↔ Q () { m with pc := m.pc + n } := Iff.rfl

theorem ends_ask {q : Asks σ α} {m : VM σ} {Q : α → VM σ → Prop} {E : Thrown → VM σ → Prop}
    (bad : q m.ext = none → E .unexpected m) (good : ∀ a ext, q m.ext = some (a, ext) →
      Q a { m with ext }) :
    Ends (ask q) m Q E := by
  cases asked : q m.ext with
  | none =>
      have result : ask q m = .error .unexpected m := by rw [ask, asked]
      rw [Ends, result]
      exact bad asked
  | some answer =>
      have result : ask q m = .ok answer.1 { m with ext := answer.2 } := by rw [ask, asked]
      rw [Ends, result]
      exact good answer.1 answer.2 asked

theorem ends_toUint64 {v : Nat} {m : VM σ} {Q : Nat → VM σ → Prop} {E : Thrown → VM σ → Prop}
    (bad : 2 ^ 63 - 1 < v → E (.vm .outOfGas) m) (good : v ≤ 2 ^ 63 - 1 → Q v m) :
    Ends (toUint64 v) m Q E := by
  unfold toUint64
  split
  case isTrue large => exact bad large
  case isFalse small => exact good (Nat.le_of_not_lt small)

theorem ends_charge {m : VM σ} {Q : Unit → VM σ → Prop} {E : Thrown → VM σ → Prop}
    (bad : m.ioGas < m.runGas → E (.vm .outOfGas) m)
    (good : m.runGas ≤ m.ioGas → Q () { m with ioGas := m.ioGas - m.runGas }) :
    Ends charge m Q E := by
  unfold charge updateIOGas
  rw [ends_bind, ends_get]
  split
  case isTrue short => exact bad short
  case isFalse enough => exact good (Nat.le_of_not_lt enough)

theorem ends_add64 {a b : Nat} {m : VM σ} {Q : Nat → VM σ → Prop} {E : Thrown → VM σ → Prop}
    (small : a + b < 2 ^ 64) (good : Q (a + b) m) : Ends (add64 a b) m Q E := by
  have result : add64 a b m = .ok (a + b) m := by
    unfold add64
    rw [Nat.mod_eq_of_lt small, decide_eq_false (Nat.not_le.mpr small), Bool.or_false]
  rw [Ends, result]
  exact good

theorem ends_mul64 {a b : Nat} {m : VM σ} {Q : Nat → VM σ → Prop} {E : Thrown → VM σ → Prop}
    (small : a * b < 2 ^ 64) (good : Q (a * b) m) : Ends (mul64 a b) m Q E := by
  have result : mul64 a b m = .ok (a * b) m := by
    unfold mul64
    rw [Nat.mod_eq_of_lt small, decide_eq_false (Nat.not_le.mpr small), Bool.or_false]
  rw [Ends, result]
  exact good

theorem ends_addRunGas {gas : Nat} {m : VM σ} {Q : Unit → VM σ → Prop} {E : Thrown → VM σ → Prop}
    (small : m.runGas + gas < 2 ^ 64) (good : Q () { m with runGas := m.runGas + gas }) :
    Ends (addRunGas gas) m Q E := by
  unfold addRunGas setRunGas
  rw [ends_bind, ends_get, ends_bind]
  exact ends_add64 small good

theorem ends_memNeed {offset size : U256} {m : VM σ} {Q : Nat → VM σ → Prop}
    {E : Thrown → VM σ → Prop} (bad : E (.vm .outOfGas) m)
    (good : ∀ need, need = (if size = 0 then 0 else offset.toNat + size.toNat) →
      need ≤ 2 ^ 63 - 1 → Q need m) :
    Ends (memNeed offset size) m Q E := ends_toUint64 (fun _ => bad) fun small => good _ rfl small

namespace VM

def fetched (m : VM σ) : Instruction := .ofByte (m.code.getD m.pc 0)

def cleared (m : VM σ) : VM σ := { m with op := m.fetched, slots := [], accesses := [] }

def ready (face : Face σ) (m : VM σ) : VM σ :=
  { m.cleared with
    runGas := tierGas face.schedule m.fetched.info.gasPriceTier, newMemSize :=
    m.mem.size, copyMemSize := 0 }

end VM

theorem ends_step {C : Crypto} {face : Face σ} {m : VM σ} {Q : Bool → VM σ → Prop}
    {E : Thrown → VM σ → Prop} (underflow : m.sp + 1 < m.fetched.info.args →
      E (.vm .stackUnderflow) m.cleared) (overflow : m.fetched.info.args ≤ m.sp + 1 →
        1024 < m.sp + 1 - m.fetched.info.args + m.fetched.info.ret →
      E (.vm .outOfStack) m.cleared)
    (dear : 2 ^ 63 - 1 < tierGas face.schedule m.fetched.info.gasPriceTier →
      E (.vm .outOfGas) m.cleared) (good : m.fetched.info.args ≤ m.sp + 1 →
        m.sp + 1 - m.fetched.info.args + m.fetched.info.ret ≤ 1024 →
      tierGas face.schedule m.fetched.info.gasPriceTier ≤ 2 ^ 63 - 1 →
      Ends (interpretCases C face m.fetched) (m.ready face) Q E) : Ends (step C face) m Q E := by
  unfold step fetchInstruction checkStack
  simp only [ends_bind, ends_modify, ends_get]
  change Ends (if 1 + m.sp - (m.fetched.info.args : Int) < 0 then throw (Thrown.vm .stackUnderflow)
    else if 1024 < 1 + m.sp - (m.fetched.info.args : Int) + m.fetched.info.ret then
    throw (Thrown.vm .outOfStack)
    else pure ()) m.cleared _ _
  split
  case isTrue short => exact underflow (by omega)
  case isFalse items =>
    split
    case isTrue full => exact overflow (by omega) (by omega)
    case isFalse room => exact ends_toUint64 dear fun small => good (by omega) (by omega) small

def Face.alone (code : Bytes) : Face Unit where
  myAddress := 0
  caller := 0
  origin := 0
  value := 0
  gasPrice := 0
  data := []
  code
  depth := 0
  author := 0
  timestamp := 0
  number := 0
  difficulty := 0
  gasLimit := 0
  schedule := .eip158
  store _ _ := some (0, ())
  setStore _ _ _ := some ((), ())
  balance _ _ := some (0, ())
  codeAt _ _ := some ([], ())
  codeSizeAt _ _ := some (0, ())
  existing _ _ := some (false, ())
  suicide _ _ := some ((), ())
  create _ _ _ _ := some ((0, 0), ())
  call _ _ := some ((false, 0, []), ())
  log _ _ _ := some ((), ())
  refund _ _ := some ((), ())
  blockHash _ _ := some (0, ())

def machine {σ : Type} (C : Crypto) (face : Face σ) (gas : U256) (ext : σ) : Nat → VM σ
  | 0 => .start face gas ext
  | n + 1 =>
      match step C face (machine C face gas ext n) with
      | .ok _ m => m
      | .error _ m => m

/-- The machines of an execution, each one before it fetches an instruction. -/
inductive Reached {σ : Type} (C : Crypto) (face : Face σ) (gas : U256) (ext : σ) : VM σ → Prop
  | start : Reached C face gas ext (.start face gas ext)
  | step {m m' : VM σ} : Reached C face gas ext m → step C face m = .ok true m' →
      Reached C face gas ext m'

/-! A part of an instruction leaves all that does not show the members it writes. -/

theorem leaves_ask (blind : ∀ (m : VM σ) ext, view { m with ext } = view m) (q : Asks σ α) :
    Leaves view (ask q) :=
  fun m => ends_ask (fun _ => rfl) fun _ ext _ => blind m ext

theorem leaves_peek (blind : ∀ (m : VM σ) slots, view { m with slots } = view m) (k : Nat) :
    Leaves view (peek k) :=
  fun m => blind m _

theorem leaves_poke (blind : ∀ (m : VM σ) stack slots, view { m with stack, slots } = view m)
    (k : Nat) (v : U256) :
    Leaves view (poke k v) := fun m => blind m _ _

theorem leaves_drop (blind : ∀ (m : VM σ) sp, view { m with sp } = view m) (n : Nat) :
    Leaves view (drop n : M σ Unit) :=
  leaves_modify fun m => blind m _

theorem leaves_take (blind : ∀ (m : VM σ) sp slots, view { m with sp, slots } = view m) :
    Leaves view (take : M σ U256) := by
  unfold take
  refine leaves_bind (leaves_peek (fun m slots => blind m m.sp slots) 0) fun v => ?_
  exact leaves_bind (leaves_drop (fun m sp => blind m sp m.slots) 1) fun _ => leaves_pure v

theorem leaves_put (blind : ∀ (m : VM σ) sp stack slots, view { m with sp, stack, slots } = view m)
    (v : U256) :
    Leaves view (put v : M σ Unit) := by
  unfold put
  refine leaves_bind (leaves_modify fun m => blind m _ m.stack m.slots) fun _ => ?_
  exact leaves_poke (fun m stack slots => blind m m.sp stack slots) 0 v

theorem leaves_advance (blind : ∀ (m : VM σ) pc, view { m with pc } = view m) (n : Nat) :
    Leaves view (advance n : M σ Unit) := leaves_modify fun m => blind m _

theorem leaves_readMem (blind : ∀ (m : VM σ) accesses, view { m with accesses } = view m)
    (offset size : Nat) :
    Leaves view (readMem offset size : M σ Bytes) := fun m => blind m _

theorem leaves_writeMem (blind : ∀ (m : VM σ) mem accesses, view { m with mem, accesses } = view m)
    (offset : Nat) (bytes : Bytes) : Leaves view (writeMem offset bytes : M σ Unit) :=
  fun m => blind m _ _

theorem leaves_add64 (blind : ∀ (m : VM σ) wrapped, view { m with wrapped } = view m) (a b : Nat) :
    Leaves view (add64 a b : M σ Nat) := fun m => blind m _

theorem leaves_mul64 (blind : ∀ (m : VM σ) wrapped, view { m with wrapped } = view m) (a b : Nat) :
    Leaves view (mul64 a b : M σ Nat) := fun m => blind m _

theorem leaves_toUint64 (v : Nat) : Leaves view (toUint64 v : M σ Nat) :=
  leaves_ite (leaves_throw _) (leaves_pure v)

theorem leaves_addRunGas (blind : ∀ (m : VM σ) runGas wrapped, view { m with runGas, wrapped } =
    view m) (gas : Nat) :
    Leaves view (addRunGas gas : M σ Unit) := by
  unfold addRunGas setRunGas
  refine leaves_bind leaves_get fun m =>
    leaves_bind (leaves_add64 (fun m w => blind m m.runGas w) _ _) fun sum => ?_
  exact leaves_modify fun m => blind m sum m.wrapped

theorem leaves_charge (blind : ∀ (m : VM σ) ioGas, view { m with ioGas } = view m) :
    Leaves view (charge : M σ Unit) := by
  unfold charge updateIOGas
  refine leaves_bind leaves_get fun m => leaves_ite (leaves_throw _) ?_
  exact leaves_modify fun m => blind m _

theorem leaves_updateGas (face : Face σ)
    (blind : ∀ (m : VM σ) runGas wrapped, view { m with runGas, wrapped } = view m) :
    Leaves view (updateGas face) := by
  have wrapped : ∀ (m : VM σ) wrapped, view { m with wrapped } = view m :=
    fun m w => blind m m.runGas w
  have gas : ∀ gas, Leaves view (addRunGas gas : M σ Unit) := leaves_addRunGas blind
  have costs : ∀ size, Leaves view (gasForMem face size) := fun size => leaves_toUint64 _
  unfold updateGas chargeMem chargeCopy throwOutOfGas
  refine leaves_bind ?_ fun _ => leaves_bind ?_ fun _ => ?_
  · refine leaves_bind leaves_get fun m => leaves_ite ?_ (leaves_pure _)
    refine leaves_bind (costs _) fun after => leaves_bind (costs _) fun before => ?_
    exact leaves_bind (leaves_toUint64 _) gas
  · refine leaves_bind leaves_get fun m => leaves_bind (leaves_add64 wrapped _ _) fun rounded => ?_
    exact leaves_bind (leaves_mul64 wrapped _ _) gas
  · exact leaves_bind leaves_get fun m => leaves_ite (leaves_throw _) (leaves_pure _)

theorem leaves_updateMem (face : Face σ)
    (blind : ∀ (m : VM σ) newMemSize runGas wrapped mem,
      view { m with newMemSize, runGas, wrapped, mem } = view m) :
      Leaves view (updateMem face) := by
  have wrapped : ∀ (m : VM σ) wrapped, view { m with wrapped } = view m := fun m w =>
    blind m m.newMemSize m.runGas w m.mem
  unfold updateMem setNewMemSize
  refine leaves_bind leaves_get fun m => leaves_bind (leaves_add64 wrapped _ _) fun rounded => ?_
  refine leaves_bind (leaves_modify fun m => blind m _ m.runGas m.wrapped m.mem) fun _ => ?_
  refine leaves_bind (leaves_updateGas face fun m g w => blind m m.newMemSize g w m.mem) fun _ => ?_
  exact leaves_modify fun m => blind m m.newMemSize m.runGas m.wrapped _

def Blind (view : VM σ → γ) : Prop :=
  ∀ (m : VM σ) ext stack sp slots, view { m with ext, stack, sp, slots } = view m

namespace Blind

variable (blind : Blind view)

include blind

theorem ask (q : Asks σ α) : Leaves view (Evm.ask q) :=
  leaves_ask (fun m ext => blind m ext m.stack m.sp m.slots) q

theorem peek (k : Nat) : Leaves view (Evm.peek k) :=
  leaves_peek (fun m => blind m m.ext m.stack m.sp) k

theorem poke (k : Nat) (v : U256) : Leaves view (Evm.poke k v) :=
  leaves_poke (fun m stack => blind m m.ext stack m.sp) k v

theorem drop (n : Nat) : Leaves view (Evm.drop n : M σ Unit) :=
  leaves_drop (fun m sp => blind m m.ext m.stack sp m.slots) n

theorem take : Leaves view (Evm.take : M σ U256) := leaves_take fun m sp => blind m m.ext m.stack sp

theorem put (v : U256) : Leaves view (Evm.put v : M σ Unit) :=
  leaves_put (fun m sp stack => blind m m.ext stack sp) v

theorem unary (f : U256 → U256) : Leaves view (Evm.unary f : M σ Unit) :=
  leaves_bind (blind.peek 0) fun _ => blind.poke 0 _

theorem binary (f : U256 → U256 → U256) : Leaves view (Evm.binary f : M σ Unit) :=
  leaves_bind (blind.peek 0) fun _ => leaves_bind (blind.peek 1) fun _ =>
    leaves_bind (blind.poke 1 _) fun _ => blind.drop 1

theorem ternary (f : U256 → U256 → U256 → U256) : Leaves view (Evm.ternary f : M σ Unit) := by
  unfold Evm.ternary
  refine leaves_bind (blind.peek 0) fun _ => leaves_bind (blind.peek 1) fun _ =>
    leaves_bind (blind.peek 2) fun _ => ?_
  exact leaves_bind (blind.poke 2 _) fun _ => blind.drop 2

theorem looked (q : U256 → Asks σ U256) : Leaves view (Evm.looked q) :=
  leaves_bind (blind.peek 0) fun _ => leaves_bind (blind.ask _) fun _ => blind.poke 0 _

theorem dup (n : Nat) : Leaves view (Evm.dup n : M σ Unit) :=
  leaves_bind (blind.peek _) fun _ => blind.put _

theorem swap (n : Nat) : Leaves view (Evm.swap n : M σ Unit) :=
  leaves_bind (blind.peek 0) fun _ => leaves_bind (blind.peek n) fun _ =>
    leaves_bind (blind.poke 0 _) fun _ => blind.poke n _

theorem topics (count k : Nat) : Leaves view (Evm.topics count k : M σ (List H256)) := by
  induction count generalizing k with
  | zero => exact leaves_pure _
  | succ count ih => exact leaves_bind (blind.peek k) fun t => leaves_bind (ih _) fun rest =>
          leaves_pure _

end Blind

end UtispaceChain.Evm
