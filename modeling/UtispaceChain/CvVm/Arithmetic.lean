import Mathlib.Data.BitVec
import UtispaceChain.CvVm.Steps

/-! The arithmetic of the interpreter, against the operations on numbers that it stands for. -/

namespace UtispaceChain.Evm

open Lib Accounts

section Words

variable (a b n : U256)

theorem lt_wider {v k w : Nat} (small : v < 2 ^ k) (le : k ≤ w) : v < 2 ^ w :=
  small.trans_le (Nat.pow_le_pow_right (by decide) le)

theorem value_s512_word : (s512 a).value = a.toNat :=
  SignMagnitude.value_ofInt (lt_wider a.isLt (by decide))

theorem value_s512_signed (v : S256) : (s512 v).value = v.value :=
  SignMagnitude.value_ofInt (lt_wider v.small (by decide))

theorem div_eq : div a b = if b = 0 then 0 else BitVec.ofNat 256 (a.toNat / b.toNat) := by
  unfold div divWorkaround
  rw [ite_not]
  congr 1
  change BitVec.ofInt 256 ((s512 a).div (s512 b)).value = _
  rw [SignMagnitude.value_div, value_s512_word, value_s512_word]
  exact BitVec.ofInt_natCast 256 _

theorem mod_eq : mod a b = if b = 0 then 0 else BitVec.ofNat 256 (a.toNat % b.toNat) := by
  unfold mod modWorkaround
  rw [ite_not]
  congr 1
  change BitVec.ofInt 256 ((s512 a).mod (s512 b)).value = _
  rw [SignMagnitude.value_mod, value_s512_word, value_s512_word]
  exact BitVec.ofInt_natCast 256 _

theorem sdiv_eq : sdiv a b = if b = 0 then 0 else BitVec.ofInt 256 (a.toInt.tdiv b.toInt) := by
  unfold sdiv divWorkaround
  rw [ite_not]
  congr 1
  change s2u (.ofInt 256 ((s512 (u2s a)).div (s512 (u2s b))).value) = _
  have fits : (a.toInt.tdiv b.toInt).natAbs < 2 ^ 256 := by
    rw [Int.natAbs_tdiv, ← value_u2s]
    exact (Nat.div_le_self _ _).trans_lt (u2s a).small
  rw [s2u_eq, SignMagnitude.value_div, value_s512_signed, value_s512_signed, value_u2s, value_u2s,
    SignMagnitude.value_ofInt fits]

theorem smod_eq : smod a b = if b = 0 then 0 else BitVec.ofInt 256 (a.toInt.tmod b.toInt) := by
  unfold smod modWorkaround
  rw [ite_not]
  congr 1
  change s2u (.ofInt 256 ((s512 (u2s a)).mod (s512 (u2s b))).value) = _
  have fits : (a.toInt.tmod b.toInt).natAbs < 2 ^ 256 := by
    rw [Int.natAbs_tmod, ← value_u2s]
    exact (Nat.mod_le _ _).trans_lt (u2s a).small
  rw [s2u_eq, SignMagnitude.value_mod, value_s512_signed, value_s512_signed, value_u2s, value_u2s,
    SignMagnitude.value_ofInt fits]

theorem toNat_u512 : (u512 a).toNat = a.toNat := by
  rw [u512, BitVec.toNat_setWidth]
  exact Nat.mod_eq_of_lt (lt_wider a.isLt (by decide))

theorem addmod_eq :
    addmod a b n = if n = 0 then 0 else BitVec.ofNat 256 ((a.toNat + b.toNat) % n.toNat) := by
  unfold addmod
  rw [ite_not]
  congr 1
  have low := a.isLt
  have high := b.isLt
  apply BitVec.eq_of_toNat_eq
  rw [BitVec.toNat_setWidth, BitVec.toNat_umod, BitVec.toNat_add, toNat_u512, toNat_u512,
    toNat_u512, BitVec.toNat_ofNat, Nat.mod_eq_of_lt (a := a.toNat + b.toNat) (by omega)]

theorem mulmod_eq :
    mulmod a b n = if n = 0 then 0 else BitVec.ofNat 256 (a.toNat * b.toNat % n.toNat) := by
  unfold mulmod
  rw [ite_not]
  congr 1
  have fits : a.toNat * b.toNat < 2 ^ 512 := by
    calc
      a.toNat * b.toNat < 2 ^ 256 * 2 ^ 256 := Nat.mul_lt_mul'' a.isLt b.isLt
      _ = 2 ^ 512 := by rw [← Nat.pow_add]
  apply BitVec.eq_of_toNat_eq
  rw [BitVec.toNat_setWidth, BitVec.toNat_umod, BitVec.toNat_mul, toNat_u512, toNat_u512,
    toNat_u512, BitVec.toNat_ofNat, Nat.mod_eq_of_lt fits]

theorem expFrom_eq (fuel : Nat) (result base exponent : U256) (fits : exponent.toNat < 2 ^ fuel) :
    expFrom fuel result base exponent = result * base ^ exponent.toNat := by
  induction fuel generalizing result base exponent with
  | zero =>
      have none : exponent.toNat = 0 := by omega
      rw [expFrom, none, pow_zero, mul_one]
  | succ fuel ih =>
      have half : (exponent >>> 1).toNat = exponent.toNat / 2 := by
        rw [BitVec.toNat_ushiftRight, Nat.shiftRight_one]
      have odd : exponent.getLsbD 0 = decide (exponent.toNat % 2 = 1) := by
        rw [BitVec.getLsbD, Nat.testBit_zero]
      unfold expFrom
      by_cases none : exponent = 0
      · rw [if_pos none, none]
        exact (mul_one result).symm
      · rw [if_neg none, ih _ _ _ (by rw [half]; omega), half, odd, ← sq, ← pow_mul]
        rcases Nat.mod_two_eq_zero_or_one exponent.toNat with even | one
        · rw [even, decide_eq_false (by decide), if_neg Bool.false_ne_true]
          congr 2
          omega
        · have split : exponent.toNat = 2 * (exponent.toNat / 2) + 1 := by omega
          rw [one, decide_eq_true rfl, if_pos rfl, mul_assoc, ← pow_succ', ← split]

theorem exp256_eq : exp256 a b = BitVec.ofNat 256 (a.toNat ^ b.toNat) := by
  rw [exp256, expFrom_eq 256 1 a b b.isLt, one_mul, ← BitVec.natCast_eq_ofNat, Nat.cast_pow,
    BitVec.natCast_eq_ofNat, BitVec.ofNat_toNat, BitVec.setWidth_eq]

def ofBits (bit : Nat → Bool) : U256 := BitVec.ofNat 256 (Nat.ofBits fun i : Fin 256 => bit i)

theorem getLsbD_ofBits (bit : Nat → Bool) {i : Nat} (inside : i < 256) :
    (ofBits bit).getLsbD i = bit i := by
  rw [ofBits, BitVec.getLsbD_ofNat, decide_eq_true inside, Bool.true_and,
    Nat.testBit_ofBits_lt _ _ inside]

theorem eq_ofBits {bit : Nat → Bool} (same : ∀ i < 256, a.getLsbD i = bit i) : a = ofBits bit := by
  apply BitVec.eq_of_getLsbD_eq
  intro i inside
  rw [getLsbD_ofBits bit inside, same i inside]

theorem byteOf_eq :
    byteOf a b = BitVec.ofNat 256 ((toBigEndian 32 b.toNat).getD a.toNat 0).toNat := by
  unfold byteOf toBigEndian
  rw [List.getD_eq_getElem?_getD, List.getElem?_map]
  split
  case isTrue inside =>
    have byte : (255 : U256).toNat = 2 ^ 8 - 1 := rfl
    rw [List.getElem?_range inside, Option.map_some, Option.getD_some, UInt8.toNat_ofNat']
    apply BitVec.eq_of_toNat_eq
    rw [BitVec.toNat_and, BitVec.toNat_ushiftRight, byte, Nat.and_two_pow_sub_one_eq_mod,
      Nat.shiftRight_eq_div_pow, BitVec.toNat_ofNat, Nat.pow_mul]
    exact (Nat.mod_eq_of_lt ((Nat.mod_lt _ (by decide)).trans (by decide))).symm
  case isFalse outside =>
    rw [List.getElem?_eq_none (by simpa using outside)]
    rfl

theorem getLsbD_mask (t : Nat) {i : Nat} (inside : i < 256) (place : t < 256) :
    (((1 : U256) <<< t) - 1).getLsbD i = decide (i < t) := by
  have power : ((1 : U256) <<< t) - 1 = BitVec.ofNat 256 (2 ^ t - 1) := by
    have low : 1 ≤ 2 ^ t := Nat.one_le_two_pow
    have high : 2 ^ t < 2 ^ 256 := Nat.pow_lt_pow_right (by decide) place
    apply BitVec.eq_of_toNat_eq
    change ((BitVec.twoPow 256 t) - 1#256).toNat = _
    rw [BitVec.toNat_sub, BitVec.toNat_twoPow_of_lt place, BitVec.toNat_ofNat, BitVec.toNat_ofNat]
    omega
  rw [power, BitVec.getLsbD_ofNat, decide_eq_true inside, Bool.true_and,
    Nat.testBit_two_pow_sub_one]

theorem signextend_eq : signextend a b =
    if a.toNat < 31 then (b.setWidth (8 * (a.toNat + 1))).signExtend 256 else b := by
  unfold signextend
  by_cases inside : a.toNat < 31
  · rw [if_pos inside, if_pos inside]
    have sign : (b.setWidth (8 * (a.toNat + 1))).msb = b.getLsbD (a.toNat * 8 + 7) := by
      have place : 8 * (a.toNat + 1) - 1 = a.toNat * 8 + 7 := by omega
      rw [BitVec.msb_setWidth, decide_eq_true (by omega), Bool.true_and, place]
    apply BitVec.eq_of_getLsbD_eq
    intro i small
    have bit := getLsbD_mask (a.toNat * 8 + 7) small (by omega)
    rw [BitVec.getLsbD_signExtend, BitVec.getLsbD_setWidth, sign, decide_eq_true small,
      Bool.true_and]
    dsimp only
    by_cases negative : b.getLsbD (a.toNat * 8 + 7) = true
    · rw [if_pos negative, BitVec.getLsbD_or, BitVec.getLsbD_not, bit, negative]
      grind
    · rw [if_neg negative, BitVec.getLsbD_and, bit]
      grind
  · rw [if_neg inside, if_neg inside]

theorem add_eq : b + a = BitVec.ofNat 256 (a.toNat + b.toNat) := by
  apply BitVec.eq_of_toNat_eq
  rw [BitVec.toNat_add, BitVec.toNat_ofNat, Nat.add_comm]

theorem mul_eq : b * a = BitVec.ofNat 256 (a.toNat * b.toNat) := by
  apply BitVec.eq_of_toNat_eq
  rw [BitVec.toNat_mul, BitVec.toNat_ofNat, Nat.mul_comm]

theorem sub_eq : a - b = BitVec.ofInt 256 (a.toNat - b.toNat) := by
  apply BitVec.eq_of_toInt_eq
  rw [BitVec.toInt_sub, BitVec.toInt_ofInt, BitVec.toInt_eq_toNat_bmod, BitVec.toInt_eq_toNat_bmod,
    ← Int.sub_bmod]

theorem slt_eq : ofBool (decide ((u2s a).value < (u2s b).value)) =
    ofBool (decide (a.toInt < b.toInt)) := by
  rw [value_u2s, value_u2s]

theorem eq_eq : ofBool (decide (a = b)) = ofBool (decide (a.toNat = b.toNat)) := by
  have same : a = b ↔ a.toNat = b.toNat := ⟨congrArg BitVec.toNat, BitVec.eq_of_toNat_eq⟩
  rw [decide_eq_decide.mpr same]

theorem and_eq : a &&& b = ofBits fun i => a.getLsbD i && b.getLsbD i :=
  eq_ofBits _ fun _ _ => BitVec.getLsbD_and

theorem or_eq : a ||| b = ofBits fun i => a.getLsbD i || b.getLsbD i :=
  eq_ofBits _ fun _ _ => BitVec.getLsbD_or

theorem xor_eq : a ^^^ b = ofBits fun i => a.getLsbD i ^^ b.getLsbD i :=
  eq_ofBits _ fun _ _ => BitVec.getLsbD_xor

theorem not_eq : ~~~a = ofBits fun i => !a.getLsbD i := by
  refine eq_ofBits _ fun i inside => ?_
  rw [BitVec.getLsbD_not, decide_eq_true inside, Bool.true_and]

end Words

/-- What an operation makes of its operands, by the numbers or the bits that they stand for; the
sign of a number is that of two's complement. -/
def Instruction.meaning (a b n : U256) : Instruction → Option U256
  | .add => some (BitVec.ofNat 256 (a.toNat + b.toNat))
  | .mul => some (BitVec.ofNat 256 (a.toNat * b.toNat))
  | .sub => some (BitVec.ofInt 256 (a.toNat - b.toNat))
  | .div => some (if b = 0 then 0 else BitVec.ofNat 256 (a.toNat / b.toNat))
  | .sdiv => some (if b = 0 then 0 else BitVec.ofInt 256 (a.toInt.tdiv b.toInt))
  | .mod => some (if b = 0 then 0 else BitVec.ofNat 256 (a.toNat % b.toNat))
  | .smod => some (if b = 0 then 0 else BitVec.ofInt 256 (a.toInt.tmod b.toInt))
  | .addmod => some (if n = 0 then 0 else BitVec.ofNat 256 ((a.toNat + b.toNat) % n.toNat))
  | .mulmod => some (if n = 0 then 0 else BitVec.ofNat 256 (a.toNat * b.toNat % n.toNat))
  | .exp => some (BitVec.ofNat 256 (a.toNat ^ b.toNat))
  | .signextend =>
      some (if a.toNat < 31 then (b.setWidth (8 * (a.toNat + 1))).signExtend 256 else b)
  | .byte => some (BitVec.ofNat 256 ((toBigEndian 32 b.toNat).getD a.toNat 0).toNat)
  | .lt => some (ofBool (decide (a.toNat < b.toNat)))
  | .gt => some (ofBool (decide (b.toNat < a.toNat)))
  | .slt => some (ofBool (decide (a.toInt < b.toInt)))
  | .sgt => some (ofBool (decide (b.toInt < a.toInt)))
  | .eq => some (ofBool (decide (a.toNat = b.toNat)))
  | .iszero => some (ofBool (decide (a.toNat = 0)))
  | .and => some (ofBits fun i => a.getLsbD i && b.getLsbD i)
  | .or => some (ofBits fun i => a.getLsbD i || b.getLsbD i)
  | .xor => some (ofBits fun i => a.getLsbD i ^^ b.getLsbD i)
  | .not => some (ofBits fun i => !a.getLsbD i)
  | _ => none

section Results

variable {σ : Type} {m n : VM σ} {E : Thrown → VM σ → Prop}

structure Replaced (args : Nat) (v : U256) (m n : VM σ) : Prop where
  top : n.item 0 = v
  rest : ∀ k, n.item (k + 1) = m.item (args + k)
  height : n.sp + args = m.sp + 1

theorem replaced_poke {args : Nat} {v : U256}
    (stack : n.stack = Function.update m.stack (m.sp - args) v) (sp : n.sp = m.sp - args) :
    Replaced (args + 1) v m n := by
  refine ⟨?_, fun k => ?_, by omega⟩
  · unfold VM.item
    rw [stack, sp, Int.natCast_zero, Int.sub_zero, Function.update_self]
  · unfold VM.item
    rw [stack, sp, Function.update_of_ne (by omega)]
    congr 1
    omega

/-- The instruction goes on with its result, or there is not enough gas. -/
def Computes (args : Nat) (v : U256) (x : M σ Bool) (m : VM σ) : Prop :=
  Ends x m (fun on n => on = true ∧ Replaced args v m n) fun e n => e = .vm .outOfGas ∧
  n.ioGas < n.runGas

theorem computes_plain {args : Nat} {v : U256} {x : M σ Unit}
    (replaces : ∀ ioGas, Ends x { m with ioGas } (fun _ => Replaced args v m) fun _ _ => False) :
    Computes args v (plain x) m := by
  unfold Computes plain onward
  rw [ends_bind, ends_bind]
  refine ends_charge (fun short => ⟨rfl, short⟩) fun _ => ?_
  refine (replaces _).mono (fun _ n replaced => ?_) fun _ _ never => never.elim
  rw [ends_bind, ends_advance, ends_pure]
  exact ⟨rfl, replaced.top, replaced.rest, replaced.height⟩

theorem computes_unary (m : VM σ) (f : U256 → U256) :
    Computes 1 (f (m.item 0)) (plain (unary f)) m := by
  refine computes_plain fun ioGas => ?_
  unfold unary
  rw [ends_bind, ends_peek, ends_poke]
  exact replaced_poke rfl (Int.sub_zero m.sp).symm

theorem computes_binary (m : VM σ) (f : U256 → U256 → U256) :
    Computes 2 (f (m.item 0) (m.item 1)) (plain (binary f)) m := by
  refine computes_plain fun ioGas => ?_
  unfold binary
  rw [ends_bind, ends_peek, ends_bind, ends_peek, ends_bind, ends_poke, ends_drop]
  exact replaced_poke rfl rfl

theorem computes_ternary (m : VM σ) (f : U256 → U256 → U256 → U256) :
    Computes 3 (f (m.item 0) (m.item 1) (m.item 2)) (plain (ternary f)) m := by
  refine computes_plain fun ioGas => ?_
  unfold ternary
  rw [ends_bind, ends_peek, ends_bind, ends_peek, ends_bind, ends_peek, ends_bind,
    ends_poke, ends_drop]
  exact replaced_poke rfl rfl

theorem computes_exp (face : Face σ) (m : VM σ) :
    Computes 2 (exp256 (m.item 0) (m.item 1)) (exp face) m := by
  unfold Computes exp onward take setRunGas
  rw [ends_bind, ends_bind, ends_peek, ends_bind]
  refine ends_toUint64 (fun large => ?_) fun _ => ?_
  · have small :=
      Nat.mod_lt (face.schedule.expGas + face.schedule.expByteGas *
        (32 - firstBitSet (m.item 1) / 8))
      (Nat.two_pow_pos 32)
    omega
  rw [ends_bind, ends_modify, ends_bind]
  refine ends_charge (fun short => ⟨rfl, short⟩) fun _ => ?_
  rw [ends_bind, ends_bind, ends_peek, ends_bind, ends_drop, ends_pure, ends_poke, ends_bind,
    ends_advance, ends_pure]
  refine ⟨rfl, replaced_poke ?_ ?_⟩
  · change Function.update m.stack (m.sp - (1 : Nat) - (0 : Nat)) _ = _
    rw [Int.natCast_zero, Int.sub_zero]
    rfl
  · rfl

theorem interpretCases_computes (C : Crypto) (face : Face σ) (m : VM σ)
    (op : Instruction) (v : U256) (means : op.meaning (m.item 0) (m.item 1) (m.item 2) = some v) :
    Computes op.info.args v (interpretCases C face op) m := by
  have one : ∀ f : U256 → U256, some (f (m.item 0)) = some v →
      Computes 1 v (plain (unary f)) m := by
    intro f same
    cases same
    exact computes_unary m f
  have two : ∀ f : U256 → U256 → U256, some (f (m.item 0) (m.item 1)) = some v →
      Computes 2 v (plain (binary f)) m := by
    intro f same
    cases same
    exact computes_binary m f
  have three : ∀ f : U256 → U256 → U256 → U256, some (f (m.item 0) (m.item 1) (m.item 2)) = some v →
      Computes 3 v (plain (ternary f)) m := by
    intro f same
    cases same
    exact computes_ternary m f
  cases op with
  | add => exact two _ ((congrArg some (add_eq _ _)).trans means)
  | mul => exact two _ ((congrArg some (mul_eq _ _)).trans means)
  | sub => exact two _ ((congrArg some (sub_eq _ _)).trans means)
  | div => exact two _ ((congrArg some (div_eq _ _)).trans means)
  | sdiv => exact two _ ((congrArg some (sdiv_eq _ _)).trans means)
  | mod => exact two _ ((congrArg some (mod_eq _ _)).trans means)
  | smod => exact two _ ((congrArg some (smod_eq _ _)).trans means)
  | addmod => exact three _ ((congrArg some (addmod_eq _ _ _)).trans means)
  | mulmod => exact three _ ((congrArg some (mulmod_eq _ _ _)).trans means)
  | exp =>
      have power : exp256 (m.item 0) (m.item 1) = v :=
        Option.some.inj ((congrArg some (exp256_eq _ _)).trans means)
      rw [← power]
      exact computes_exp face m
  | signextend => exact two _ ((congrArg some (signextend_eq _ _)).trans means)
  | byte => exact two _ ((congrArg some (byteOf_eq _ _)).trans means)
  | lt | gt => exact two _ means
  | slt | sgt => exact two _ ((congrArg some (slt_eq _ _)).trans means)
  | eq => exact two _ ((congrArg some (eq_eq _ _)).trans means)
  | iszero => exact one _ ((congrArg some (eq_eq _ 0)).trans means)
  | and => exact two _ ((congrArg some (and_eq _ _)).trans means)
  | or => exact two _ ((congrArg some (or_eq _ _)).trans means)
  | xor => exact two _ ((congrArg some (xor_eq _ _)).trans means)
  | not => exact one _ ((congrArg some (not_eq _)).trans means)
  | _ => cases means

/-- An operation of the arithmetic replaces its operands by exactly what it means, or it is refused:
there are too few of them, the stack is full, or there is not enough gas. -/
theorem arithmetic_exact (C : Crypto) (face : Face σ) (m : VM σ) (v : U256)
    (means : m.fetched.meaning (m.item 0) (m.item 1) (m.item 2) = some v) :
    Ends (step C face) m (fun on n => on = true ∧ Replaced m.fetched.info.args v m n) fun e n =>
      e = .vm .stackUnderflow ∧ m.sp + 1 < m.fetched.info.args ∨
      e = .vm .outOfStack ∧ 1024 < m.sp + 1 - m.fetched.info.args + m.fetched.info.ret ∨
      e = .vm .outOfGas ∧
        (2 ^ 63 - 1 < tierGas face.schedule m.fetched.info.gasPriceTier ∨ n.ioGas < n.runGas) := by
  refine ends_step (fun short => .inl ⟨rfl, short⟩) (fun _ full => .inr (.inl ⟨rfl, full⟩))
    (fun dear => .inr (.inr ⟨rfl, .inl dear⟩)) fun _ _ _ => ?_
  refine (interpretCases_computes C face (m.ready face) m.fetched v means).mono
    (fun on n done => ?_) fun e n gas => ?_
  · exact ⟨done.1, done.2.top, done.2.rest, done.2.height⟩
  · exact .inr (.inr ⟨gas.1, .inr gas.2⟩)

end Results

def leastByMinusOne : VM Unit where
  ext := ()
  code := [0x05]
  jumpDests := []
  stack := fun place => if place = 1 then BitVec.intMin 256 else BitVec.allOnes 256
  sp := 1
  gasRef := 5
  ioGas := 5

/-- The quotient wraps around to the least word. -/
theorem least_by_minus_one_exact :
    Ends (step .toy (.alone [0x05])) leastByMinusOne
      (fun on n => on = true ∧ Replaced 2 (BitVec.intMin 256) leastByMinusOne n) fun e n =>
      e = .vm .stackUnderflow ∧ (1 : Int) + 1 < 2 ∨ e = .vm .outOfStack ∧
      (1024 : Int) < 1 + 1 - 2 + 1 ∨
      e = .vm .outOfGas ∧ (2 ^ 63 - 1 < 5 ∨ n.ioGas < n.runGas) :=
  arithmetic_exact .toy (.alone [0x05]) leastByMinusOne (BitVec.intMin 256) (by decide +kernel)

end UtispaceChain.Evm
