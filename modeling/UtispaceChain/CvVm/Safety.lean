import UtispaceChain.CvVm.Stack

/-! The interpreter on any code: it fetches what the code starts instructions with, and keeps to its
stack. -/

namespace UtispaceChain.Evm

open Lib Accounts

/-! The code is decoded from its first byte on. -/

section Decoding

variable {code : Bytes}

def Follows (code : Bytes) (p q : Nat) : Prop :=
  p < code.length ∧ q = p + 1 + (Instruction.ofByte (code.getD p 0)).immediate

def IsStart (code : Bytes) : Nat → Prop := Relation.ReflTransGen (Follows code) 0

def IsDest (code : Bytes) (p : Nat) : Prop :=
  p < code.length ∧ IsStart code p ∧ Instruction.ofByte (code.getD p 0) = .jumpdest

def Synthetic (op : Instruction) : Prop := op = .pushc ∨ op = .jumpc ∨ op = .jumpci

theorem immediate_le (op : Instruction) : op.immediate ≤ 32 := by
  cases op with
  | push k => exact k.isLt
  | _ => exact Nat.zero_le _

/-- What one round of the loop of `optimize` leaves of a byte. -/
structure Rewritten (before after : UInt8) : Prop where
  immediate : (Instruction.ofByte after).immediate = (Instruction.ofByte before).immediate
  jumps : ∀ op, ¬Synthetic op → op ≠ .bad →
    (Instruction.ofByte after = op ↔ Instruction.ofByte before = op)

theorem Rewritten.refl (b : UInt8) : Rewritten b b := ⟨rfl, fun _ _ _ => Iff.rfl⟩

theorem Rewritten.trans {a b c : UInt8} (first : Rewritten a b) (second : Rewritten b c) :
    Rewritten a c :=
  ⟨second.immediate.trans first.immediate, fun op plain good => (second.jumps op plain good).trans
    (first.jumps op plain good)⟩

theorem rewritten_bad {b : UInt8} (synthetic : Synthetic (.ofByte b)) : Rewritten b 0xaf := by
  constructor
  · rcases synthetic with same | same | same <;> rw [same] <;> rfl
  · intro op plain good
    constructor
    · intro same
      exact absurd same.symm good
    · intro same
      exact absurd (same ▸ synthetic) plain

theorem getD_set (code : Bytes) (p q : Nat) (b : UInt8) :
    (code.set p b).getD q 0 = if p = q ∧ p < code.length then b else code.getD q 0 := by
  rw [List.getD_eq_getElem?_getD, List.getElem?_set, List.getD_eq_getElem?_getD]
  by_cases same : p = q
  · subst same
    by_cases inside : p < code.length
    · simp [inside]
    · simp [inside]
  · simp [same]

theorem optimizeFrom_spec (orig : Bytes) (fuel pc : Nat) (code : Bytes) (dests : List Nat)
    (enough : orig.length ≤ fuel + pc) (ahead : ∀ p, pc ≤ p → code.getD p 0 = orig.getD p 0) :
    let r := optimizeFrom orig.length fuel pc code dests
    (∀ p, p ∈ r.2 ↔ p ∈ dests ∨ p < orig.length ∧ Relation.ReflTransGen (Follows orig) pc p ∧
      Instruction.ofByte (orig.getD p 0) = .jumpdest) ∧
    (∀ p, orig.length ≤ p → r.1.getD p 0 = code.getD p 0) ∧
    ∀ p, Rewritten (code.getD p 0) (r.1.getD p 0) := by
  have finished : ∀ {pc}, orig.length ≤ pc →
    ∀ p, ¬(p < orig.length ∧ Relation.ReflTransGen (Follows orig) pc p ∧
      Instruction.ofByte (orig.getD p 0) = .jumpdest) := by
    rintro pc outside p ⟨inside, reached, -⟩
    rcases reached.cases_head with rfl | ⟨q, first, -⟩
    · omega
    · exact absurd first.1 (Nat.not_lt.mpr outside)
  induction fuel generalizing pc code dests with
  | zero =>
      unfold optimizeFrom
      refine ⟨fun p => ?_, fun p _ => rfl, fun p => .refl _⟩
      have outside : orig.length ≤ pc := by omega
      exact ⟨.inl, fun found => found.resolve_right (finished outside p)⟩
  | succ fuel ih =>
      unfold optimizeFrom
      split
      case isFalse done =>
        refine ⟨fun p => ?_, fun p _ => rfl, fun p => .refl _⟩
        exact ⟨.inl, fun found => found.resolve_right (finished (Nat.le_of_not_lt done) p)⟩
      case isTrue inside =>
        have here : code.getD pc 0 = orig.getD pc 0 := ahead pc le_rfl
        dsimp only
        rw [here]
        generalize written : (if Instruction.ofByte (orig.getD pc 0) = .pushc ∨
          Instruction.ofByte (orig.getD pc 0) = .jumpc ∨ Instruction.ofByte (orig.getD pc 0) =
            .jumpci then
          code.set pc 0xaf else code) = code₁
        have byte : ∀ p, code₁.getD p 0 = code.getD p 0 ∨
            p = pc ∧ Synthetic (.ofByte (code.getD p 0)) ∧ code₁.getD p 0 = 0xaf := by
          intro p
          rw [← written]
          split
          case isTrue synthetic =>
            rw [getD_set]
            split
            case isTrue same =>
              exact .inr ⟨same.1.symm, by rw [← same.1, here]; exact synthetic, rfl⟩
            case isFalse => exact .inl rfl
          case isFalse => exact .inl rfl
        have kept : ∀ p, Rewritten (code.getD p 0) (code₁.getD p 0) := by
          intro p
          rcases byte p with same | ⟨-, synthetic, bad⟩
          · rw [same]
            exact .refl _
          · rw [bad]
            exact rewritten_bad synthetic
        have ahead' : ∀ p, pc + (Instruction.ofByte (orig.getD pc 0)).immediate + 1 ≤ p →
            code₁.getD p 0 = orig.getD p 0 := by
          intro p past
          rcases byte p with same | ⟨rfl, -⟩
          · exact same.trans (ahead p (by omega))
          · omega
        rcases ih _ code₁ (if Instruction.ofByte (orig.getD pc 0) = .jumpdest then pc :: dests
          else dests) (by omega)
          ahead' with ⟨found, behind, rewritten⟩
        refine ⟨fun p => (found p).trans ?_, fun p outside => ?_,
          fun p => (kept p).trans (rewritten p)⟩
        · have next : Follows orig pc (pc + (Instruction.ofByte (orig.getD pc 0)).immediate + 1) :=
            ⟨inside, by omega⟩
          constructor
          · rintro (member | ⟨low, reached, dest⟩)
            · split at member
              case isTrue dest =>
                rcases List.mem_cons.mp member with rfl | member
                · exact .inr ⟨inside, .refl, dest⟩
                · exact .inl member
              case isFalse => exact .inl member
            · exact .inr ⟨low, .head next reached, dest⟩
          · rintro (member | ⟨low, reached, dest⟩)
            · refine .inl ?_
              split
              case isTrue => exact List.mem_cons_of_mem _ member
              case isFalse => exact member
            · rcases reached.cases_head with rfl | ⟨q, first, later⟩
              · rw [if_pos dest]
                exact .inl List.mem_cons_self
              · rw [first.2.trans next.2.symm] at later
                exact .inr ⟨low, later, dest⟩
        · rcases byte p with same | ⟨rfl, -⟩
          · exact (behind p outside).trans same
          · omega

theorem getD_padded (code : Bytes) (p : Nat) : (code ++ List.replicate 33 0).getD p 0 =
    code.getD p 0 := by
  simp only [List.getD_eq_getElem?_getD, List.getElem?_append, List.getElem?_replicate]
  by_cases inside : p < code.length
  · rw [if_pos inside]
  · rw [if_neg inside, List.getElem?_eq_none (Nat.le_of_not_lt inside)]
    split <;> rfl

theorem mem_optimize {p : Nat} : p ∈ (optimize code).2 ↔ IsDest code p := by
  have spec := optimizeFrom_spec code code.length 0 (code ++ List.replicate 33 0) [] (by omega)
    fun p _ => getD_padded code p
  unfold optimize
  dsimp only
  rw [List.mem_reverse, spec.1 p]
  exact ⟨fun found => found.resolve_left List.not_mem_nil, .inr⟩

theorem optimize_rewritten (code : Bytes) (p : Nat) :
    Rewritten (code.getD p 0) ((optimize code).1.getD p 0) := by
  have spec := optimizeFrom_spec code code.length 0 (code ++ List.replicate 33 0) [] (by omega)
    fun p _ => getD_padded code p
  have rewritten := spec.2.2 p
  rwa [getD_padded] at rewritten

theorem optimize_behind {p : Nat} (behind : code.length ≤ p) : (optimize code).1.getD p 0 = 0 := by
  have spec := optimizeFrom_spec code code.length 0 (code ++ List.replicate 33 0) [] (by omega)
    fun p _ => getD_padded code p
  have same : (optimize code).1.getD p 0 = (code ++ List.replicate 33 0).getD p 0 :=
    spec.2.1 p behind
  rw [same, getD_padded, List.getD_eq_getElem?_getD, List.getElem?_eq_none behind]
  rfl

end Decoding

section Runs

variable {σ : Type} {C : Crypto} {face : Face σ} {gas : U256} {ext : σ} {m m' : VM σ}

structure Safe (face : Face σ) (m : VM σ) : Prop where
  code : m.code = (optimize face.code).1
  jumpDests : m.jumpDests = (optimize face.code).2
  pc : m.pc < face.code.length + 33
  instruction : IsStart face.code m.pc ∨ face.code.length ≤ m.pc
  low : 0 ≤ m.sp + 1
  high : m.sp + 1 ≤ 1024

/-- Every place of the stack that has been touched is one of the items that the instruction takes,
or one of the places of those that it puts. -/
def InPlace (m m' : VM σ) : Prop :=
  ∀ s ∈ m'.slots, m.fetched.info.args ≤ m.sp + 1 ∧ m.sp + 1 - m.fetched.info.args ≤ s ∧
    s < m.sp + 1 - m.fetched.info.args + max m.fetched.info.args m.fetched.info.ret ∧
    0 ≤ s ∧ s < 1024

theorem Safe.start (face : Face σ) (gas : U256) (ext : σ) : Safe face (.start face gas ext) where
  code := rfl
  jumpDests := rfl
  pc := Nat.succ_pos _
  instruction := .inl .refl
  low := le_rfl
  high := by
    change (-1 : Int) + 1 ≤ 1024
    decide

theorem Safe.immediate (safe : Safe face m) :
    m.fetched.immediate = (Instruction.ofByte (face.code.getD m.pc 0)).immediate := by
  unfold VM.fetched
  rw [safe.code]
  exact (optimize_rewritten face.code m.pc).immediate

theorem Safe.stops (safe : Safe face m) (behind : face.code.length ≤ m.pc) : m.fetched = .stop := by
  unfold VM.fetched
  rw [safe.code, optimize_behind behind]
  rfl

theorem Safe.isDest (safe : Safe face m) (p : Nat) : p ∈ m.jumpDests ↔ IsDest face.code p := by
  rw [safe.jumpDests, mem_optimize]

theorem Safe.next {pc : Nat} (safe : Safe face m) (inside : m.pc < face.code.length)
    (next : m.fetched.next m.control pc) :
    pc < face.code.length + 33 ∧ (IsStart face.code pc ∨ face.code.length ≤ pc) := by
  rcases next with past | ⟨-, landed⟩
  · have start : IsStart face.code m.pc := safe.instruction.resolve_right (Nat.not_le.mpr inside)
    have follows : Follows face.code m.pc pc := ⟨inside, by rw [← safe.immediate]; exact past⟩
    have short : m.fetched.immediate ≤ 32 := immediate_le _
    have position : pc = m.pc + 1 + m.fetched.immediate := past
    exact ⟨by omega, .inl (start.tail follows)⟩
  · have dest : IsDest face.code pc := (safe.isDest pc).mp landed
    exact ⟨dest.1.trans (Nat.lt_add_of_pos_right (by decide)), .inl dest.2.1⟩

theorem Safe.step (safe : Safe face m) :
    Ends (Evm.step C face) m (fun on m' => InPlace m m' ∧ (on = true → Safe face m')) fun _ =>
      InPlace m := by
  have untouched : InPlace m m.cleared := nofun
  refine ends_step (fun _ => untouched) (fun _ _ => untouched) (fun _ => untouched)
    fun items room _ => ?_
  have sum : m.sp + 1 = m.sp + 1 - m.fetched.info.args + m.fetched.info.args := by omega
  have inPlace : ∀ m', Touched (max m.fetched.info.args m.fetched.info.ret)
    (m.sp + 1 - m.fetched.info.args)
      (m.ready face) m' → InPlace m m' := by
    intro m' touched s member
    rcases touched s member with none | inside
    · cases none
    · have high := safe.high
      exact ⟨items, inside.1, inside.2, by omega, by omega⟩
  by_cases inside : m.pc < face.code.length
  · refine (interpretCases_goes C face m.fetched _ (m.ready face) sum).mono (fun on m' went => ?_)
      fun _ m' => inPlace m'
    refine ⟨inPlace m' went.touched, fun goes => ?_⟩
    have sp := went.sp goes
    have next := safe.next inside (went.pc goes)
    exact ⟨went.code.trans safe.code, went.jumpDests.trans safe.jumpDests, next.1, next.2,
      by omega, by omega⟩
  · rw [safe.stops (Nat.le_of_not_lt inside)] at sum inPlace ⊢
    have goes : Goes (max 0 0) 0 0 (fun _ _ => False) (stop : M σ Bool) := goes_stop
    refine (goes _ (m.ready face) sum).mono (fun on m' went => ?_) fun _ m' => inPlace m'
    exact ⟨inPlace m' went.touched, fun goes => (went.pc goes).elim⟩

theorem Reached.safe (reached : Reached C face gas ext m) : Safe face m := by
  induction reached with
  | start => exact .start face gas ext
  | step _ went ih => exact (ih.step.ok went).2 rfl

/-- Why a jump throws: for the lack of items, for the lack of gas, or for its destination. -/
def JumpFails (face : Face σ) (m : VM σ) (wrong : Prop) (e : Thrown) : Prop :=
  e = .vm .stackUnderflow ∧ m.sp + 1 < m.fetched.info.args ∨
  e = .vm .outOfGas ∧ (m.ioGas < tierGas face.schedule m.fetched.info.gasPriceTier ∨
    2 ^ 63 - 1 < tierGas face.schedule m.fetched.info.gasPriceTier) ∨
  e = .vm .badJumpDestination ∧ wrong

theorem ends_verifyJumpDest {dest : U256} {Q : Nat → VM σ → Prop} {E : Thrown → VM σ → Prop}
    (safe : Safe face m) (size : face.code.length < 2 ^ 63)
    (bad : ¬IsDest face.code dest.toNat → E (.vm .badJumpDestination) m)
    (good : IsDest face.code dest.toNat → Q dest.toNat m) : Ends (verifyJumpDest dest) m Q E := by
  unfold verifyJumpDest
  rw [ends_bind, ends_get]
  split
  case isTrue found => exact good ((safe.isDest _).mp found.2)
  case isFalse missing =>
    refine bad fun dest => missing ⟨?_, (safe.isDest _).mpr dest⟩
    have inside := dest.1
    omega

theorem Safe.charged {m : VM σ} (safe : Safe face m) (ioGas : Nat) (slots : List Int) :
    Safe face { m with ioGas, slots } :=
  ⟨safe.code, safe.jumpDests, safe.pc, safe.instruction, safe.low, safe.high⟩

theorem Safe.ready (safe : Safe face m) : Safe face (m.ready face) :=
  ⟨safe.code, safe.jumpDests, safe.pc, safe.instruction, safe.low, safe.high⟩

theorem jumpTo_lands {m' : VM σ} {dest : U256} {k : Nat} {wrong : Prop} (safe : Safe face m')
    (size : face.code.length < 2 ^ 63) (reason : ¬IsDest face.code dest.toNat → wrong) :
    Ends (do
        let pc ← verifyJumpDest dest
        modify fun m => { m with pc }
        drop k
        pure true : M σ Bool) m'
      (fun on m' => on = true ∧ IsDest face.code dest.toNat ∧ m'.pc = dest.toNat)
      fun e _ => JumpFails face m wrong e := by
  rw [ends_bind]
  refine ends_verifyJumpDest safe size (fun missing => .inr (.inr ⟨rfl, reason missing⟩))
    fun found => ?_
  exact ⟨rfl, found, rfl⟩

theorem Safe.jump (safe : Safe face m) (size : face.code.length < 2 ^ 63)
    (jump : m.fetched = .jump) :
    Ends (Evm.step C face) m
      (fun on m' => on = true ∧ IsDest face.code (m.item 0).toNat ∧ m'.pc = (m.item 0).toNat)
      fun e _ => JumpFails face m (¬IsDest face.code (m.item 0).toNat) e := by
  have high := safe.high
  refine ends_step (fun short => .inl ⟨rfl, short⟩) ?_ (fun dear => .inr (.inl ⟨rfl, .inr dear⟩)) ?_
  · intro items full
    have args : m.fetched.info.args = 1 := by rw [jump]; rfl
    have ret : m.fetched.info.ret = 0 := by rw [jump]; rfl
    omega
  · intro items room small
    rw [jump]
    change Ends Evm.jump _ _ _
    unfold Evm.jump
    rw [ends_bind]
    refine ends_charge (fun short => .inr (.inl ⟨rfl, .inl short⟩)) fun enough => ?_
    rw [ends_bind, ends_peek]
    exact jumpTo_lands (safe.ready.charged _ _) size fun missing => missing

theorem Safe.jumpi (safe : Safe face m) (size : face.code.length < 2 ^ 63)
    (jumpi : m.fetched = .jumpi) :
    Ends (Evm.step C face) m
      (fun on m' => on = true ∧ (m.item 1 = 0 ∧ m'.pc = m.pc + 1 ∨
        m.item 1 ≠ 0 ∧ IsDest face.code (m.item 0).toNat ∧ m'.pc = (m.item 0).toNat))
      fun e _ => JumpFails face m (m.item 1 ≠ 0 ∧ ¬IsDest face.code (m.item 0).toNat) e := by
  have high := safe.high
  refine ends_step (fun short => .inl ⟨rfl, short⟩) ?_ (fun dear => .inr (.inl ⟨rfl, .inr dear⟩)) ?_
  · intro items full
    have args : m.fetched.info.args = 2 := by rw [jumpi]; rfl
    have ret : m.fetched.info.ret = 0 := by rw [jumpi]; rfl
    omega
  · intro items room small
    rw [jumpi]
    change Ends Evm.jumpi _ _ _
    unfold Evm.jumpi
    rw [ends_bind]
    refine ends_charge (fun short => .inr (.inl ⟨rfl, .inl short⟩)) fun enough => ?_
    rw [ends_bind, ends_peek]
    change Ends (if m.item 1 = 0 then _ else _) _ _ _
    split
    case isTrue none => exact ⟨rfl, .inl ⟨none, rfl⟩⟩
    case isFalse some =>
      rw [ends_bind, ends_peek]
      refine (jumpTo_lands (safe.ready.charged _ _) size fun missing => ⟨some, missing⟩).mono ?_
        fun _ _ fails => fails
      exact fun on m' landed => ⟨landed.1, .inr ⟨some, landed.2⟩⟩

/-- At every fetch the program counter is at an instruction or behind the code, the stack has its
size, and the instruction keeps to its items and their places; a jump goes to its destination
exactly if that is one. -/
theorem interpreter_keeps_in_place (C : Crypto) (face : Face σ) (gas : U256) (ext : σ)
    (size : face.code.length < 2 ^ 63) (m : VM σ) (reached : Reached C face gas ext m) :
    m.pc < face.code.length + 33 ∧ (IsStart face.code m.pc ∨ face.code.length ≤ m.pc) ∧
    0 ≤ m.sp + 1 ∧ m.sp + 1 ≤ 1024 ∧
    Ends (Evm.step C face) m (fun _ => InPlace m) (fun _ => InPlace m) ∧
    (m.fetched = .jump → Ends (Evm.step C face) m
      (fun on m' => on = true ∧ IsDest face.code (m.item 0).toNat ∧ m'.pc = (m.item 0).toNat)
      fun e _ => JumpFails face m (¬IsDest face.code (m.item 0).toNat) e) ∧
    (m.fetched = .jumpi → Ends (Evm.step C face) m
      (fun on m' => on = true ∧ (m.item 1 = 0 ∧ m'.pc = m.pc + 1 ∨
        m.item 1 ≠ 0 ∧ IsDest face.code (m.item 0).toNat ∧ m'.pc = (m.item 0).toNat))
      fun e _ => JumpFails face m (m.item 1 ≠ 0 ∧ ¬IsDest face.code (m.item 0).toNat) e) := by
  have safe := reached.safe
  refine ⟨safe.pc, safe.instruction, safe.low, safe.high, ?_, safe.jump size, safe.jumpi size⟩
  exact safe.step.mono (fun _ _ kept => kept.1) fun _ _ kept => kept

end Runs

/-- `PUSH1 3, JUMP, JUMPDEST`: what it is before the jump, which has one item. -/
theorem jump_after_push_in_place :
    ∃ m : VM Unit, Reached .toy (.alone [0x60, 0x03, 0x56, 0x5b]) 100 () m ∧ m.fetched = .jump ∧
    m.pc < 4 + 33 ∧
      Ends (Evm.step .toy (.alone [0x60, 0x03, 0x56, 0x5b])) m
        (fun on m' => on = true ∧ IsDest [0x60, 0x03, 0x56, 0x5b] (m.item 0).toNat ∧
          m'.pc = (m.item 0).toNat)
        fun e _ => JumpFails (.alone [0x60, 0x03, 0x56, 0x5b]) m
          (¬IsDest [0x60, 0x03, 0x56, 0x5b] (m.item 0).toNat) e := by
  have reached : Reached .toy (.alone [0x60, 0x03, 0x56, 0x5b]) 100 () _ := .step .start rfl
  have kept :=
    interpreter_keeps_in_place .toy (.alone [0x60, 0x03, 0x56, 0x5b]) 100 () (by decide) _ reached
  exact ⟨_, reached, rfl, kept.1, kept.2.2.2.2.2.1 rfl⟩

end UtispaceChain.Evm
