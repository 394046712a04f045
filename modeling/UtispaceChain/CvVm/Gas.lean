import UtispaceChain.CvVm.Steps

/-! Every instruction that goes on costs gas, and no sum of costs wraps around. -/

namespace UtispaceChain.Evm

open Lib Accounts

/-- The costs that a schedule may have: what an instruction that goes on costs is not zero, and
nothing is near to what 64 bits hold. -/
structure Sane (es : EVMSchedule) : Prop where
  tiers : ∀ tier, tierGas es tier ≤ 2 ^ 32
  paid : ∀ tier, tier ≠ .zero → tier ≠ .special → 0 < tierGas es tier
  priced : ∀ gas ∈ [es.balanceGas, es.extcodesizeGas, es.extcodecopyGas, es.sloadGas,
    es.sstoreSetGas, es.sstoreResetGas, es.createGas, es.callGas, es.sha3Gas], 0 < gas ∧
    gas ≤ 2 ^ 32
  added : ∀ gas ∈ [es.suicideGas, es.callNewAccountGas, es.callValueTransferGas], gas ≤ 2 ^ 32
  stipend : es.callStipend ≤ es.callValueTransferGas
  log : 0 < es.logGas ∧ es.logGas + es.logTopicGas * 4 < 2 ^ 32
  exp : 0 < es.expGas ∧ es.expGas + es.expByteGas * 32 < 2 ^ 32
  copy : es.copyGas ≤ 16

def schedules : List EVMSchedule := [{}, .frontier, .homestead, .eip150, .eip158]

theorem schedules_sane (es : EVMSchedule) (member : es ∈ schedules) : Sane es := by
  have tiers : ∀ tier, tier ∈ [Tier.zero, .base, .veryLow, .low, .mid, .high, .ext, .special,
      .invalid] := by
    intro tier
    cases tier <;> decide
  have checked : ∀ es ∈ schedules,
    (∀ tier ∈ [Tier.zero, .base, .veryLow, .low, .mid, .high, .ext, .special, .invalid],
      tierGas es tier ≤ 2 ^ 32 ∧ (tier ≠ .zero → tier ≠ .special → 0 < tierGas es tier)) := by
        decide
  have costs : ∀ es ∈ schedules,
    (∀ gas ∈ [es.balanceGas, es.extcodesizeGas, es.extcodecopyGas, es.sloadGas,
      es.sstoreSetGas, es.sstoreResetGas, es.createGas, es.callGas, es.sha3Gas], 0 < gas ∧
        gas ≤ 2 ^ 32) ∧
      (∀ gas ∈ [es.suicideGas, es.callNewAccountGas, es.callValueTransferGas], gas ≤ 2 ^ 32) ∧
      es.callStipend ≤ es.callValueTransferGas ∧
      (0 < es.logGas ∧ es.logGas + es.logTopicGas * 4 < 2 ^ 32) ∧
      (0 < es.expGas ∧ es.expGas + es.expByteGas * 32 < 2 ^ 32) ∧ es.copyGas ≤ 16 := by decide
  rcases costs es member with ⟨priced, added, stipend, log, exp, copy⟩
  refine ⟨fun tier => (checked es member tier (tiers tier)).1, ?_, priced, added, stipend,
    log, exp, copy⟩
  exact fun tier => (checked es member tier (tiers tier)).2

/-- Calls and creations give back at most the gas that they were given. -/
structure Frugal {σ : Type} (face : Face σ) : Prop where
  call : ∀ p ext success gas out ext', face.call p ext = some ((success, gas, out), ext') →
    gas ≤ p.gas
  create : ∀ endowment gas code ext newAddress gas' ext',
    face.create endowment gas code ext = some ((newAddress, gas'), ext') → gas' ≤ gas

/-- At least so much has been paid since, and no sum has wrapped around. -/
structure Paid {σ : Type} (cost : Nat) (m m' : VM σ) : Prop where
  ioGas : m'.ioGas + cost ≤ m.ioGas
  wrapped : m'.wrapped = m.wrapped

def Pays {σ α : Type} (cost : Nat) (x : M σ α) (m : VM σ) : Prop :=
  Ends x m (fun _ => Paid cost m) fun _ => Paid 0 m

def VM.purse {σ : Type} (m : VM σ) : Nat × Bool := (m.ioGas, m.wrapped)

section Parts

variable {σ α β : Type} {cost : Nat} {m m' m'' : VM σ} {x : M σ α} {f : α → M σ β} {face : Face σ}

theorem Paid.refl (m : VM σ) : Paid 0 m m := ⟨le_rfl, rfl⟩

theorem Paid.of_purse (same : m'.purse = m.purse) : Paid 0 m m' :=
  ⟨(congrArg (fun p => p.1) same).le, congrArg (fun p => p.2) same⟩

theorem Paid.trans {more : Nat} (first : Paid cost m m') (second : Paid more m' m'') :
    Paid (cost + more) m m'' := by
  have paid := first.ioGas
  have paid' := second.ioGas
  exact ⟨by omega, second.wrapped.trans first.wrapped⟩

theorem Paid.less {less : Nat} (paid : Paid cost m m') (le : less ≤ cost) : Paid less m m' :=
  ⟨(Nat.add_le_add_left le _).trans paid.ioGas, paid.wrapped⟩

theorem pays_of_leaves (leaves : Leaves VM.purse x) (m : VM σ) : Pays 0 x m :=
  (leaves m).mono (fun _ _ same => .of_purse same) fun _ _ same => .of_purse same

theorem Pays.bind (first : Pays cost x m) (second : ∀ a m', Paid cost m m' → Pays 0 (f a) m') :
    Pays cost (x >>= f) m := by
  unfold Pays
  rw [ends_bind]
  refine Ends.mono first (fun a m' paid => ?_) fun _ _ unpaid => unpaid
  refine Ends.mono (second a m' paid) (fun _ m'' later => paid.trans later) fun _ m'' later => ?_
  exact (paid.trans later).less (Nat.zero_le _)

theorem pays_charge (m : VM σ) : Pays m.runGas charge m := by
  refine ends_charge (fun _ => .refl m) fun enough => ⟨?_, rfl⟩
  change m.ioGas - m.runGas + m.runGas ≤ m.ioGas
  omega

theorem pays_charged (m : VM σ) {f : Unit → M σ β} (rest : ∀ a, Leaves VM.purse (f a)) :
    Pays m.runGas (charge >>= f) m := (pays_charge m).bind fun a m' _ => pays_of_leaves (rest a) m'

theorem ends_chargeMem {Q : Unit → VM σ → Prop} {E : Thrown → VM σ → Prop}
    (fits : m.runGas ≤ 2 ^ 63) (bad : E (.vm .outOfGas) m) (good : ∀ more, more ≤ 2 ^ 63 - 1 →
      Q () { m with runGas := m.runGas + more }) :
    Ends (chargeMem face) m Q E := by
  unfold chargeMem gasForMem
  rw [ends_bind, ends_get]
  split
  case isTrue =>
    rw [ends_bind]
    refine ends_toUint64 (fun _ => bad) fun _ => ?_
    rw [ends_bind]
    refine ends_toUint64 (fun _ => bad) fun _ => ?_
    rw [ends_bind]
    refine ends_toUint64 (fun _ => bad) fun small => ends_addRunGas (by omega) (good _ small)
  case isFalse => exact good 0 (Nat.zero_le _)

theorem ends_chargeCopy {Q : Unit → VM σ → Prop} {E : Thrown → VM σ → Prop}
    (copy : m.copyMemSize ≤ 2 ^ 63 - 1)
    (fits : m.runGas + face.schedule.copyGas * ((m.copyMemSize + 31) / 32) < 2 ^ 64)
    (good : Q () { m with runGas := m.runGas + face.schedule.copyGas *
      ((m.copyMemSize + 31) / 32) }) :
    Ends (chargeCopy face) m Q E := by
  unfold chargeCopy
  rw [ends_bind, ends_get, ends_bind]
  refine ends_add64 (by omega) ?_
  rw [ends_bind]
  exact ends_mul64 (by omega) (ends_addRunGas fits good)

theorem Pays.from_same {n : VM σ} {less : Nat} (pays : Pays cost x n) (same : n.purse = m.purse)
    (le : less ≤ cost) :
    Ends x n (fun _ => Paid less m) fun _ => Paid 0 m := by
  have free : Paid 0 m n := .of_purse same
  refine Ends.mono pays (fun _ m' paid => ?_) fun _ m' unpaid => ?_
  · exact (free.trans paid).less (by omega)
  · exact (free.trans unpaid).less (by omega)

theorem ends_updateMem (size : m.newMemSize ≤ 2 ^ 63 + 63) (copy : m.copyMemSize ≤ 2 ^ 63 - 1)
    (fits : m.runGas + face.schedule.copyGas * ((m.copyMemSize + 31) / 32) ≤ 2 ^ 63) :
    Ends (updateMem face) m (fun _ m' => m'.purse = m.purse ∧ m.runGas ≤ m'.runGas) fun _ m' =>
      m'.purse = m.purse := by
  unfold updateMem setNewMemSize
  rw [ends_bind, ends_get, ends_bind]
  refine ends_add64 (by omega) ?_
  rw [ends_bind, ends_modify, ends_bind]
  unfold updateGas throwOutOfGas
  rw [ends_bind]
  refine ends_chargeMem (by change m.runGas ≤ 2 ^ 63; omega) rfl fun more small => ?_
  have total : m.runGas + more + face.schedule.copyGas * ((m.copyMemSize + 31) / 32) < 2 ^ 64 := by
    omega
  rw [ends_bind]
  refine ends_chargeCopy copy total ?_
  rw [ends_bind, ends_get]
  split
  case isTrue => exact rfl
  case isFalse =>
    refine ⟨rfl, ?_⟩
    change m.runGas ≤ m.runGas + more + face.schedule.copyGas * ((m.copyMemSize + 31) / 32)
    omega

theorem pays_grown {size : Nat} {f : Unit → M σ α} (small : size ≤ 2 ^ 63 + 63)
    (copy : m.copyMemSize ≤ 2 ^ 63 - 1)
    (fits : m.runGas + face.schedule.copyGas * ((m.copyMemSize + 31) / 32) ≤ 2 ^ 63)
    (rest : ∀ a, Leaves VM.purse (f a)) :
    Pays m.runGas (do setNewMemSize size; updateMem face; let a ← charge; f a) m := by
  unfold Pays setNewMemSize
  rw [ends_bind, ends_modify, ends_bind]
  refine (ends_updateMem (m := { m with newMemSize := size }) small copy fits).mono
    (fun _ m' grown => ?_) fun _ m' same => ?_
  · exact (pays_charged m' rest).from_same grown.1 grown.2
  · exact .of_purse same

end Parts

section Instructions

variable {σ α : Type} {m : VM σ} {face : Face σ} (C : Crypto)

def PaysOn (x : M σ Bool) (m : VM σ) : Prop :=
  Ends x m (fun on => Paid on.toNat m) fun _ => Paid 0 m

theorem paysOn_onward {x : M σ Unit} (cost : Nat) (pays : Pays cost x m) (positive : 0 < cost) :
    PaysOn (onward x) m := by
  unfold PaysOn onward
  rw [ends_bind]
  refine Ends.mono pays (fun _ m' paid => ?_) fun _ _ unpaid => unpaid
  exact (⟨(paid.less positive).ioGas, paid.wrapped⟩ : Paid 1 m { m' with pc := m'.pc + 1 })

theorem paysOn_plain {x : M σ Unit} (positive : 0 < m.runGas) (rest : Leaves VM.purse x) :
    PaysOn (plain x) m :=
  paysOn_onward _ (pays_charged m fun _ => rest) positive

theorem paysOn_priced {gas : Nat} {x : M σ Unit} (positive : 0 < gas) (rest : Leaves VM.purse x) :
    PaysOn (priced gas x) m := by
  unfold priced setRunGas
  refine paysOn_onward gas ?_ positive
  unfold Pays
  rw [ends_bind]
  refine ends_toUint64 (fun _ => .refl m) fun _ => ?_
  rw [ends_bind, ends_modify]
  exact (pays_charged _ fun _ => rest).from_same rfl le_rfl

theorem purse_blind : Blind (VM.purse : VM σ → Nat × Bool) := fun _ _ _ _ _ => rfl

theorem purse_readMem (offset size : Nat) : Leaves VM.purse (readMem offset size : M σ Bytes) :=
  leaves_readMem (fun _ _ => rfl) offset size

theorem purse_writeMem (offset : Nat) (bytes : Bytes) :
    Leaves VM.purse (writeMem offset bytes : M σ Unit) :=
  leaves_writeMem (fun _ _ _ => rfl) offset bytes

theorem purse_copyDataToMemory (data : Bytes) :
    Leaves VM.purse (copyDataToMemory data : M σ Unit) := by
  unfold copyDataToMemory
  refine leaves_bind purse_blind.take fun _ => leaves_bind purse_blind.take fun _ => ?_
  exact leaves_bind purse_blind.take fun _ => purse_writeMem _ _

theorem pays_access {k : Nat} {f : Unit → M σ α} (k32 : k ≤ 32) (rest : ∀ a, Leaves VM.purse (f a))
    (fits : m.runGas ≤ 2 ^ 32) (none : m.copyMemSize = 0) :
    Pays m.runGas (do
      let a ← peek 0
      let offset ← toUint64 a.toNat
      let need ← add64 offset k
      setNewMemSize need
      updateMem face
      let a ← charge
      f a) m := by
  unfold Pays
  rw [ends_bind, ends_peek, ends_bind]
  refine ends_toUint64 (fun _ => .of_purse rfl) fun small => ?_
  rw [ends_bind]
  refine ends_add64 (by omega) ?_
  refine (pays_grown (by omega) ?_ ?_ rest).from_same rfl le_rfl
  · change m.copyMemSize ≤ 2 ^ 63 - 1
    omega
  · change m.runGas + face.schedule.copyGas * ((m.copyMemSize + 31) / 32) ≤ 2 ^ 63
    rw [none]
    omega

theorem paysOn_mload (positive : 0 < m.runGas) (fits : m.runGas ≤ 2 ^ 32)
    (none : m.copyMemSize = 0) :
    PaysOn (mload face) m := by
  refine paysOn_onward _ (pays_access (by decide) (fun _ => ?_) fits none) positive
  exact leaves_bind (purse_blind.peek 0) fun _ => leaves_bind (purse_readMem _ _) fun _ =>
    purse_blind.poke 0 _

theorem paysOn_mstore (positive : 0 < m.runGas) (fits : m.runGas ≤ 2 ^ 32)
    (none : m.copyMemSize = 0) :
    PaysOn (mstore face) m := by
  refine paysOn_onward _ (pays_access (by decide) (fun _ => ?_) fits none) positive
  refine leaves_bind (purse_blind.peek 1) fun _ => leaves_bind (purse_blind.peek 0) fun _ => ?_
  exact leaves_bind (purse_writeMem _ _) fun _ => purse_blind.drop 2

theorem paysOn_mstore8 (positive : 0 < m.runGas) (fits : m.runGas ≤ 2 ^ 32)
    (none : m.copyMemSize = 0) :
    PaysOn (mstore8 face) m := by
  refine paysOn_onward _ (pays_access (by decide) (fun _ => ?_) fits none) positive
  refine leaves_bind (purse_blind.peek 1) fun _ => leaves_bind (purse_blind.peek 0) fun _ => ?_
  exact leaves_bind (purse_writeMem _ _) fun _ => purse_blind.drop 2

theorem no_copy (none : m.copyMemSize = 0) :
    face.schedule.copyGas * ((m.copyMemSize + 31) / 32) = 0 := by
  rw [none]
  exact Nat.mul_zero _

theorem paysOn_sha3 (sane : Sane face.schedule) (none : m.copyMemSize = 0) :
    PaysOn (sha3 C face) m := by
  have price := sane.priced face.schedule.sha3Gas (by simp)
  refine paysOn_onward face.schedule.sha3Gas ?_ price.1
  unfold Pays setRunGas
  rw [ends_bind, ends_peek, ends_bind]
  refine ends_toUint64 (fun _ => .of_purse rfl) fun small => ?_
  rw [ends_bind, ends_modify, ends_bind, ends_peek, ends_bind, ends_peek, ends_bind]
  refine ends_memNeed (.of_purse rfl) fun need _ bound => ?_
  refine (pays_grown (by omega) ?_ ?_ fun _ => ?_).from_same rfl (Nat.le_add_right _ _)
  · change m.copyMemSize ≤ 2 ^ 63 - 1
    omega
  · change _ + face.schedule.copyGas * ((m.copyMemSize + 31) / 32) ≤ 2 ^ 63
    rw [no_copy none]
    exact small.trans (Nat.sub_le _ _)
  · refine leaves_bind purse_blind.take fun _ => leaves_bind purse_blind.take fun _ => ?_
    exact leaves_bind (purse_readMem _ _) fun _ => purse_blind.put _

theorem paysOn_log (sane : Sane face.schedule) (none : m.copyMemSize = 0) (k : Fin 5) :
    PaysOn (log face k) m := by
  have price := sane.log
  have narrow : face.schedule.logGas + face.schedule.logTopicGas * k < 2 ^ 32 := by
    have few : face.schedule.logTopicGas * k ≤ face.schedule.logTopicGas * 4 :=
      Nat.mul_le_mul_left _ (by omega)
    omega
  refine paysOn_onward face.schedule.logGas ?_ price.1
  unfold Pays logGasMem setRunGas setNewMemSize
  rw [ends_bind, ends_bind, ends_peek, ends_bind, ends_peek, ends_bind, Nat.mod_eq_of_lt narrow]
  refine ends_toUint64 (fun _ => .of_purse rfl) fun small => ?_
  rw [ends_bind, ends_modify, ends_bind]
  refine ends_memNeed (.of_purse rfl) fun need _ bound => ?_
  rw [ends_bind, ends_modify]
  refine (ends_updateMem (by dsimp only; omega) ?_ ?_).mono (fun _ m' grown => ?_) fun _ m' same =>
    .of_purse same
  · change m.copyMemSize ≤ 2 ^ 63 - 1
    omega
  · change _ + face.schedule.copyGas * ((m.copyMemSize + 31) / 32) ≤ 2 ^ 63
    rw [no_copy none]
    exact small.trans (Nat.sub_le _ _)
  · have first : face.schedule.logGas ≤ face.schedule.logGas + face.schedule.logTopicGas * k +
        face.schedule.logDataGas * (m.item 1).toNat := by omega
    refine (pays_charged m' fun _ => ?_).from_same grown.1 (first.trans grown.2)
    refine leaves_bind (purse_blind.topics _ _) fun _ => leaves_bind (purse_blind.peek 0) fun _ =>
      ?_
    refine leaves_bind (purse_blind.peek 1) fun _ => leaves_bind (purse_readMem _ _) fun _ => ?_
    exact leaves_bind (purse_blind.ask _) fun _ => purse_blind.drop _

theorem paysOn_exp (sane : Sane face.schedule) : PaysOn (exp face) m := by
  have price := sane.exp
  refine paysOn_onward face.schedule.expGas ?_ price.1
  unfold Pays setRunGas
  rw [ends_bind, ends_peek, ends_bind]
  refine ends_toUint64 (fun _ => .of_purse rfl) fun small => ?_
  rw [ends_bind, ends_modify]
  refine (pays_charged _ fun _ => ?_).from_same rfl ?_
  · exact leaves_bind purse_blind.take fun _ => purse_blind.poke 0 _
  · have few : face.schedule.expByteGas * (32 - firstBitSet (m.item 1) / 8) ≤
        face.schedule.expByteGas * 32 :=
      Nat.mul_le_mul_left _ (Nat.sub_le _ _)
    change _ ≤
      (face.schedule.expGas + face.schedule.expByteGas * (32 - firstBitSet (m.item 1) / 8)) % 2 ^ 32
    rw [Nat.mod_eq_of_lt (by omega)]
    exact Nat.le_add_right _ _

theorem copy_fits (sane : Sane face.schedule) {gas size : Nat} (fits : gas ≤ 2 ^ 32)
    (small : size ≤ 2 ^ 63 - 1) :
    gas + face.schedule.copyGas * ((size + 31) / 32) ≤ 2 ^ 63 := by
  have words : (size + 31) / 32 ≤ 2 ^ 58 := by omega
  have cost : face.schedule.copyGas * ((size + 31) / 32) ≤ 16 * 2 ^ 58 :=
    Nat.mul_le_mul sane.copy words
  omega

theorem paysOn_copy (sane : Sane face.schedule) (positive : 0 < m.runGas) (fits : m.runGas ≤ 2 ^ 32)
    (data : Bytes) :
    PaysOn (copy face data) m := by
  refine paysOn_onward m.runGas ?_ positive
  unfold Pays setCopyMemSize
  rw [ends_bind, ends_peek, ends_bind]
  refine ends_toUint64 (fun _ => .of_purse rfl) fun small => ?_
  rw [ends_bind, ends_modify, ends_bind, ends_peek, ends_bind, ends_peek, ends_bind]
  refine ends_memNeed (.of_purse rfl) fun need _ bound => ?_
  refine (pays_grown (by omega) ?_ ?_ fun _ => ?_).from_same rfl le_rfl
  · exact small
  · exact copy_fits sane fits small
  · exact purse_copyDataToMemory data

theorem paysOn_extcodecopy (sane : Sane face.schedule) : PaysOn (extcodecopy face) m := by
  have price := sane.priced face.schedule.extcodecopyGas (by simp)
  refine paysOn_onward face.schedule.extcodecopyGas ?_ price.1
  unfold Pays setRunGas setCopyMemSize
  rw [ends_bind]
  refine ends_toUint64 (fun _ => .of_purse rfl) fun _ => ?_
  rw [ends_bind, ends_modify, ends_bind, ends_peek, ends_bind]
  refine ends_toUint64 (fun _ => .of_purse rfl) fun small => ?_
  rw [ends_bind, ends_modify, ends_bind, ends_peek, ends_bind, ends_peek, ends_bind]
  refine ends_memNeed (.of_purse rfl) fun need _ bound => ?_
  refine (pays_grown (by omega) ?_ ?_ fun _ => ?_).from_same rfl le_rfl
  · exact small
  · exact copy_fits sane price.2 small
  · refine leaves_bind (purse_blind.peek 0) fun _ => leaves_bind (purse_blind.drop 1) fun _ => ?_
    exact leaves_bind (purse_blind.ask _) fun data => purse_copyDataToMemory data

theorem paysOn_charged {f : Unit → M σ Bool} (positive : 0 < m.runGas)
    (rest : ∀ a, Leaves VM.purse (f a)) :
    PaysOn (charge >>= f) m := by
  have pays := pays_charged m rest
  refine Ends.mono pays (fun on m' paid => paid.less ?_) fun _ _ unpaid => unpaid
  cases on with
  | false => exact Nat.zero_le _
  | true => exact positive

theorem purse_jumpTo (dest : U256) (k : Nat) :
    Leaves VM.purse (do
      let pc ← verifyJumpDest dest
      modify fun m => { m with pc }
      drop k
      pure true : M σ Bool) := by
  unfold verifyJumpDest
  refine leaves_bind (leaves_bind leaves_get fun m => leaves_ite (leaves_pure _) (leaves_throw _))
    fun pc => ?_
  refine leaves_bind (leaves_modify fun _ => rfl) fun _ => ?_
  exact leaves_bind (purse_blind.drop k) fun _ => leaves_pure true

theorem paysOn_push (positive : 0 < m.runGas) (k : Nat) : PaysOn (push k) m := by
  refine paysOn_charged positive fun _ => leaves_bind leaves_get fun m =>
    leaves_bind (purse_blind.put _) fun _ => ?_
  exact leaves_bind (leaves_advance (fun _ _ => rfl) _) fun _ => leaves_pure true

theorem paysOn_jump (positive : 0 < m.runGas) : PaysOn jump m :=
  paysOn_charged positive fun _ => leaves_bind (purse_blind.peek 0) fun dest => purse_jumpTo dest 1

theorem paysOn_jumpi (positive : 0 < m.runGas) : PaysOn jumpi m := by
  refine paysOn_charged positive fun _ => leaves_bind (purse_blind.peek 1) fun condition =>
    leaves_ite ?_ ?_
  · refine leaves_bind (leaves_advance (fun _ _ => rfl) 1) fun _ => ?_
    exact leaves_bind (purse_blind.drop 2) fun _ => leaves_pure true
  · exact leaves_bind (purse_blind.peek 0) fun dest => purse_jumpTo dest 2

theorem ends_sstoreGas (sane : Sane face.schedule) :
    Ends (sstoreGas face) m (fun gas m' => m'.purse = m.purse ∧ 0 < gas) fun _ m' => m'.purse =
      m.purse := by
  have set := sane.priced face.schedule.sstoreSetGas (by simp)
  have reset := sane.priced face.schedule.sstoreResetGas (by simp)
  unfold sstoreGas
  rw [ends_bind, ends_peek, ends_bind]
  refine ends_ask (fun _ => rfl) fun old ext _ => ?_
  rw [ends_bind, ends_peek]
  split
  · exact ends_toUint64 (fun _ => rfl) fun _ => ⟨rfl, set.1⟩
  · rw [ends_bind]
    refine ends_ask (fun _ => rfl) fun old ext _ => ?_
    split
    · rw [ends_bind]
      refine ends_toUint64 (fun _ => rfl) fun _ => ?_
      rw [ends_bind]
      exact ends_ask (fun _ => rfl) fun _ ext _ => ⟨rfl, reset.1⟩
    · exact ends_toUint64 (fun _ => rfl) fun _ => ⟨rfl, reset.1⟩

theorem paysOn_sstore (sane : Sane face.schedule) : PaysOn (sstore face) m := by
  refine paysOn_onward 1 ?_ Nat.one_pos
  unfold Pays setRunGas
  rw [ends_bind]
  refine (ends_sstoreGas sane).mono (fun gas m' priced => ?_) fun _ m' same => .of_purse same
  rw [ends_bind, ends_modify]
  refine (pays_charged { m' with runGas := gas } fun _ => ?_).from_same priced.1 priced.2
  refine leaves_bind (purse_blind.peek 0) fun key => leaves_bind (purse_blind.peek 1) fun v => ?_
  exact leaves_bind (purse_blind.ask _) fun _ => purse_blind.drop 2

theorem paysOn_halting {x : M σ Bool} (cost : Nat) (halts : Yields (· = false) x)
    (pays : Pays cost x m) :
    PaysOn x m := by
  refine (Ends.and (halts m) pays).mono (fun on m' both => ?_) fun _ _ both => both.2
  rw [both.1]
  exact both.2.less (Nat.zero_le _)

theorem paysOn_stop : PaysOn stop m :=
  paysOn_halting _ (yields_bind fun _ => yields_pure rfl)
    (pays_charged m fun _ => leaves_pure false)

theorem paysOn_return (fits : m.runGas ≤ 2 ^ 32) (none : m.copyMemSize = 0) :
    PaysOn (return_ face) m := by
  refine paysOn_halting m.runGas ?_ ?_
  · refine yields_bind fun _ => yields_bind fun _ => yields_bind fun _ => yields_bind fun _ =>
      yields_bind fun _ => ?_
    exact yields_bind fun _ => yields_bind fun _ => yields_bind fun _ => yields_bind fun _ =>
      yields_bind fun _ => yields_pure rfl
  · unfold Pays return_
    rw [ends_bind, ends_peek, ends_bind, ends_peek, ends_bind]
    refine ends_memNeed (.of_purse rfl) fun need _ bound => ?_
    refine (pays_grown (by omega) ?_ ?_ fun _ => ?_).from_same rfl le_rfl
    · change m.copyMemSize ≤ 2 ^ 63 - 1
      omega
    · change m.runGas + face.schedule.copyGas * ((m.copyMemSize + 31) / 32) ≤ 2 ^ 63
      rw [no_copy none]
      omega
    · refine leaves_bind purse_blind.take fun _ => leaves_bind purse_blind.take fun _ => ?_
      refine leaves_bind (purse_readMem _ _) fun _ => ?_
      exact leaves_bind (leaves_modify fun _ => rfl) fun _ => leaves_pure false

theorem ends_suicideNewAccountGas (dest : Nat) :
    Ends (suicideNewAccountGas face dest) m
      (fun gas m' => m'.purse = m.purse ∧ m'.runGas = m.runGas ∧
        gas ≤ face.schedule.callNewAccountGas)
      fun _ m' => m'.purse = m.purse := by
  unfold suicideNewAccountGas
  rw [ends_bind]
  refine ends_ask (fun _ => rfl) fun balance ext _ => ?_
  split
  · rw [ends_bind]
    refine ends_ask (fun _ => rfl) fun existing ext _ => ⟨rfl, rfl, ?_⟩
    split
    · exact Nat.zero_le _
    · exact le_rfl
  · exact ⟨rfl, rfl, Nat.zero_le _⟩

theorem paysOn_suicide (sane : Sane face.schedule) : PaysOn (suicide face) m := by
  have price := sane.added face.schedule.suicideGas (by simp)
  have account := sane.added face.schedule.callNewAccountGas (by simp)
  refine paysOn_halting 0 ?_ ?_
  · refine yields_bind fun _ => yields_bind fun _ => yields_bind fun _ => yields_bind fun _ =>
      yields_bind fun _ => ?_
    exact yields_bind fun _ => yields_bind fun _ => yields_pure rfl
  · unfold Pays suicide setRunGas
    rw [ends_bind]
    refine ends_toUint64 (fun _ => .refl m) fun _ => ?_
    rw [ends_bind, ends_modify, ends_bind, ends_peek, ends_bind]
    refine (ends_suicideNewAccountGas _).mono (fun gas m' more => ?_) fun _ m' same =>
      .of_purse same
    have runGas : m'.runGas = face.schedule.suicideGas := more.2.1
    rw [ends_bind]
    refine ends_addRunGas (by rw [runGas]; have := more.2.2; omega) ?_
    refine (pays_charged _ fun _ => ?_).from_same more.1 (Nat.zero_le _)
    exact leaves_bind (purse_blind.ask _) fun _ => leaves_pure false

theorem left_le {gas given back : U256} (part : given ≤ gas) (less : back ≤ given) :
    (gas - (given - back)).toNat ≤ gas.toNat := by
  have difference : (given - back).toNat = given.toNat - back.toNat := BitVec.toNat_sub_of_le less
  have low : given - back ≤ gas := by
    have bound : given.toNat ≤ gas.toNat := part
    change (given - back).toNat ≤ gas.toNat
    omega
  rw [BitVec.toNat_sub_of_le low]
  exact Nat.sub_le _ _

theorem most_le (gas : U256) (p : Prop) [Decidable p] :
    (if p then gas else gas - gas / 64) ≤ gas := by
  split
  · exact BitVec.le_refl gas
  · have share : gas / 64 ≤ gas := by
      change (gas / 64).toNat ≤ gas.toNat
      rw [BitVec.toNat_udiv]
      exact Nat.div_le_self _ _
    change (gas - gas / 64).toNat ≤ gas.toNat
    rw [BitVec.toNat_sub_of_le share]
    exact Nat.sub_le _ _

theorem pays_createFrame (frugal : Frugal face) (small : m.ioGas < 2 ^ 64) (endowment : U256)
    (initOff initSize : Nat) :
    Pays 0 (createFrame face endowment initOff initSize) m := by
  have whole : (BitVec.ofNat 256 m.ioGas).toNat = m.ioGas := by
    rw [BitVec.toNat_ofNat]
    exact Nat.mod_eq_of_lt (small.trans (by decide))
  unfold Pays createFrame
  rw [ends_bind, ends_modify, ends_bind, ends_get, ends_bind, ends_modify, ends_bind,
    ends_readMem, ends_bind]
  refine ends_ask (fun _ => .of_purse rfl) fun made ext asked => ?_
  rw [ends_bind, ends_poke, ends_bind, ends_modify, ends_modify]
  have back := frugal.create _ _ _ _ _ _ _ asked
  have left :=
    left_le (most_le (BitVec.ofNat 256 m.ioGas) (face.schedule.staticCallDepthLimit = true)) back
  refine ⟨(Nat.mod_le _ _).trans (left.trans whole.le), rfl⟩

theorem paysOn_caseCreate (sane : Sane face.schedule) (frugal : Frugal face)
    (small : m.ioGas < 2 ^ 64) (none : m.copyMemSize = 0) : PaysOn (caseCreate face) m := by
  have price := sane.priced face.schedule.createGas (by simp)
  refine paysOn_onward face.schedule.createGas ?_ price.1
  unfold Pays setNewMemSize setRunGas
  rw [ends_bind, ends_peek, ends_bind, ends_peek, ends_bind]
  refine ends_memNeed (.of_purse rfl) fun need _ bound => ?_
  rw [ends_bind, ends_modify, ends_bind]
  refine ends_toUint64 (fun _ => .of_purse rfl) fun _ => ?_
  rw [ends_bind, ends_modify, ends_bind]
  refine (ends_updateMem ?_ ?_ ?_).mono (fun _ m' grown => ?_) fun _ m' same => .of_purse same
  · change need ≤ 2 ^ 63 + 63
    omega
  · change m.copyMemSize ≤ 2 ^ 63 - 1
    omega
  · change face.schedule.createGas + face.schedule.copyGas * ((m.copyMemSize + 31) / 32) ≤ 2 ^ 63
    rw [no_copy none]
    omega
  · have enough : face.schedule.createGas ≤ m'.runGas := grown.2
    have io : m'.ioGas = m.ioGas := congrArg (fun p => p.1) grown.1
    have taken : ∀ n : VM σ, Pays 0 (take : M σ U256) n := pays_of_leaves purse_blind.take
    refine Pays.from_same ((pays_charge m').bind fun _ m₁ paid₁ => ?_) grown.1 enough
    refine (taken m₁).bind fun endowment m₂ paid₂ => ?_
    refine (taken m₂).bind fun initOff m₃ paid₃ => (taken m₃).bind fun initSize m₄ paid₄ => ?_
    refine (pays_of_leaves (purse_blind.ask _) m₄).bind fun balance m₅ paid₅ => ?_
    have later : m₅.ioGas < 2 ^ 64 := by
      have := paid₁.ioGas
      have := paid₂.ioGas
      have := paid₃.ioGas
      have := paid₄.ioGas
      have := paid₅.ioGas
      omega
    split
    · exact pays_createFrame frugal later _ _ _
    · exact pays_of_leaves (purse_blind.put 0) m₅

def VM.tray (m : VM σ) : (Nat × Bool) × (Int → U256) × Int × Nat :=
  (m.purse, m.stack, m.sp, m.copyMemSize)

theorem item_of_tray {m' : VM σ} (same : m'.tray = m.tray) (k : Nat) : m'.item k = m.item k := by
  have stack : m'.stack = m.stack := congrArg (fun t => t.2.1) same
  have sp : m'.sp = m.sp := congrArg (fun t => t.2.2.1) same
  unfold VM.item
  rw [stack, sp]

def Transfers (op : Instruction) (m : VM σ) : Prop := op ≠ .delegatecall ∧ m.item 2 ≠ 0

instance (op : Instruction) (m : VM σ) : Decidable (Transfers op m) :=
  inferInstanceAs (Decidable (_ ∧ _))

theorem ends_callStaticGas (sane : Sane face.schedule) (op : Instruction) :
    Ends (callStaticGas face op) m
      (fun _ m' => m'.tray = m.tray ∧ face.schedule.callGas ≤ m'.runGas ∧ m'.runGas ≤ 2 ^ 33)
      fun _ m' => m'.purse = m.purse := by
  have price := sane.priced face.schedule.callGas (by simp)
  have account := sane.added face.schedule.callNewAccountGas (by simp)
  unfold callStaticGas setRunGas
  rw [ends_bind]
  refine ends_toUint64 (fun _ => rfl) fun _ => ?_
  rw [ends_bind, ends_modify]
  have plain : face.schedule.callGas ≤ face.schedule.callGas ∧ face.schedule.callGas ≤ 2 ^ 33 :=
    ⟨le_rfl, by omega⟩
  split
  · rw [ends_bind, ends_peek, ends_bind]
    refine ends_ask (fun _ => rfl) fun existing ext _ => ?_
    rw [ends_bind, ends_peek]
    split
    · rw [ends_bind]
      refine ends_toUint64 (fun _ => rfl) fun _ => ends_addRunGas ?_ ⟨rfl, ?_, ?_⟩
      · change face.schedule.callGas + face.schedule.callNewAccountGas < 2 ^ 64
        omega
      · exact Nat.le_add_right _ _
      · change face.schedule.callGas + face.schedule.callNewAccountGas ≤ 2 ^ 33
        omega
    · exact ⟨rfl, plain⟩
  · exact ⟨rfl, plain⟩

theorem ends_callValueGas (sane : Sane face.schedule) (op : Instruction)
    (small : m.runGas ≤ 2 ^ 33) :
    Ends (callValueGas face op) m
      (fun _ m' => m'.tray = m.tray ∧
        m.runGas + (if Transfers op m then face.schedule.callValueTransferGas else 0) ≤ m'.runGas ∧
          m'.runGas ≤ 2 ^ 34)
      fun _ m' => m'.purse = m.purse := by
  have price := sane.added face.schedule.callValueTransferGas (by simp)
  unfold callValueGas
  split
  case isTrue same =>
    rw [if_neg fun transfers : Transfers op m => transfers.1 same]
    exact ⟨rfl, le_rfl, by omega⟩
  case isFalse other =>
    rw [ends_bind, ends_peek]
    change Ends (if m.item 2 ≠ 0 then _ else _) _ _ _
    split
    case isTrue some =>
      rw [if_pos ⟨other, some⟩, ends_bind]
      refine ends_toUint64 (fun _ => rfl) fun _ => ends_addRunGas ?_ ⟨rfl, le_rfl, ?_⟩
      · change m.runGas + face.schedule.callValueTransferGas < 2 ^ 64
        omega
      · change m.runGas + face.schedule.callValueTransferGas ≤ 2 ^ 34
        omega
    case isFalse none =>
      rw [if_neg fun transfers : Transfers op m => none transfers.2]
      exact ⟨rfl, le_rfl, by change m.runGas ≤ 2 ^ 34; omega⟩

theorem ends_callMem (k : Nat) :
    Ends (callMem k) m (fun _ m' => m'.tray = m.tray ∧ m'.runGas = m.runGas ∧
      m'.newMemSize ≤ 2 ^ 63 - 1)
      fun _ m' => m'.purse = m.purse := by
  unfold callMem setNewMemSize
  rw [ends_bind, ends_peek, ends_bind, ends_peek, ends_bind]
  refine ends_memNeed rfl fun outNeed _ outBound => ?_
  rw [ends_bind, ends_peek, ends_bind, ends_peek, ends_bind]
  exact ends_memNeed rfl fun inNeed _ inBound => ⟨rfl, rfl, max_le outBound inBound⟩

theorem ends_callStipend (op : Instruction) (gas : U256) :
    Ends (callStipend face op gas) m
      (fun gas' m' => m'.purse = m.purse ∧
        gas'.toNat ≤ gas.toNat + if Transfers op m then face.schedule.callStipend else 0)
      fun _ m' => m'.purse = m.purse := by
  unfold callStipend
  split
  case isTrue => exact ⟨rfl, Nat.le_add_right _ _⟩
  case isFalse other =>
    rw [ends_bind, ends_peek]
    refine ⟨rfl, ?_⟩
    by_cases some : m.item 2 ≠ 0
    · rw [if_pos some, if_pos ⟨other, some⟩, BitVec.toNat_add, BitVec.toNat_ofNat]
      exact (Nat.mod_le _ _).trans (Nat.add_le_add_left (Nat.mod_le _ _) _)
    · rw [if_neg some]
      exact Nat.le_add_right _ _

theorem pays_setup {n : VM σ} {x : M σ CallSetup} {gas : U256}
    (paid : Paid (gas.toNat + face.schedule.callGas) m n) (leaves : Leaves VM.purse x)
    (yields : Yields (fun setup => setup.params.gas = gas) x) :
    Ends x n (fun setup => Paid (setup.params.gas.toNat + face.schedule.callGas) m) fun _ =>
      Paid 0 m := by
  refine ((leaves n).and (yields n)).mono (fun setup m' both => ?_) fun _ m' both => ?_
  · rw [both.2]
    exact paid.trans (.of_purse both.1)
  · exact (paid.trans (.of_purse both.1)).less (Nat.zero_le _)

theorem ends_caseCallSetup (sane : Sane face.schedule) (op : Instruction)
    (none : m.copyMemSize = 0) :
    Ends (caseCallSetup face op) m
      (fun setup => Paid (setup.params.gas.toNat + face.schedule.callGas) m) fun _ => Paid 0 m := by
  have stipend := sane.stipend
  unfold caseCallSetup setRunGas
  rw [ends_bind]
  refine (ends_callStaticGas sane op).mono (fun _ m₁ static => ?_) fun _ _ same => .of_purse same
  rw [ends_bind]
  refine (ends_callValueGas sane op static.2.2).mono (fun _ m₂ value => ?_) fun _ _ same => ?_
  swap
  · exact .of_purse (same.trans (congrArg (fun t => t.1) static.1))
  have tray₂ : m₂.tray = m.tray := value.1.trans static.1
  rw [ends_bind]
  refine (ends_callMem _).mono (fun _ m₃ mem => ?_) fun _ _ same => ?_
  swap
  · exact .of_purse (same.trans (congrArg (fun t => t.1) tray₂))
  have tray₃ : m₃.tray = m.tray := mem.1.trans tray₂
  have none₃ : m₃.copyMemSize = 0 := (congrArg (fun t => t.2.2.2) tray₃).trans none
  have fits : m₃.runGas + face.schedule.copyGas * ((m₃.copyMemSize + 31) / 32) ≤ 2 ^ 63 := by
    rw [no_copy none₃, mem.2.1]
    have := value.2.2
    omega
  have copy : m₃.copyMemSize ≤ 2 ^ 63 - 1 := by omega
  have blind : Leaves (fun n : VM σ => (n.stack, n.sp)) (updateMem face) :=
    leaves_updateMem face fun _ _ _ _ _ => rfl
  rw [ends_bind]
  refine ((ends_updateMem (by have := mem.2.2; omega) copy fits).and (blind m₃)).mono
    (fun _ m₄ grown => ?_) fun _ _ same => ?_
  swap
  · exact .of_purse (same.1.trans (congrArg (fun t => t.1) tray₃))
  have io₄ : m₄.ioGas = m.ioGas :=
    (congrArg (fun p => p.1) grown.1.1).trans (congrArg (fun t => t.1.1) tray₃)
  have wrapped₄ : m₄.wrapped = m.wrapped :=
    (congrArg (fun p => p.2) grown.1.1).trans (congrArg (fun t => t.1.2) tray₃)
  have item₄ : m₄.item 2 = m₁.item 2 := by
    have stack : m₄.stack = m₃.stack := congrArg (fun p => p.1) grown.2
    have sp : m₄.sp = m₃.sp := congrArg (fun p => p.2) grown.2
    rw [← item_of_tray (mem.1.trans value.1) 2]
    unfold VM.item
    rw [stack, sp]
  have cost : face.schedule.callGas + (if Transfers op m₁ then face.schedule.callValueTransferGas
      else 0) ≤ m₄.runGas := by
    have first := static.2.1
    have second := value.2.1
    have third := grown.1.2
    rw [mem.2.1] at third
    omega
  have unpaid : Paid 0 m m₄ := ⟨io₄.le, wrapped₄⟩
  have left : Leaves (fun n : VM σ => (n.ioGas, n.wrapped, n.item 2)) (callGas face) := by
    refine leaves_bind leaves_get fun n => leaves_bind (leaves_peek (fun _ _ => rfl) 0) fun gas =>
      leaves_pure _
  rw [ends_bind]
  refine ends_charge (fun _ => unpaid) fun enough => ?_
  refine left.next (fun gas m₆ same => ?_) fun _ m₆ same => ?_
  swap
  · have io₆ : m₆.ioGas = m₄.ioGas - m₄.runGas := congrArg (fun t => t.1) same
    have wrapped₆ : m₆.wrapped = m₄.wrapped := congrArg (fun t => t.2.1) same
    exact ⟨by omega, wrapped₆.trans wrapped₄⟩
  have io₆ : m₆.ioGas = m₄.ioGas - m₄.runGas := congrArg (fun t => t.1) same
  have wrapped₆ : m₆.wrapped = m.wrapped := (congrArg (fun t => t.2.1) same).trans wrapped₄
  have item₆ : m₆.item 2 = m₁.item 2 := (congrArg (fun t => t.2.2) same).trans item₄
  have half : Paid 0 m m₆ := ⟨by omega, wrapped₆⟩
  rw [ends_bind]
  refine ends_toUint64 (fun _ => half) fun _ => ?_
  rw [ends_bind, ends_modify, ends_bind]
  refine ends_charge (fun _ => ⟨half.ioGas, wrapped₆⟩) fun afforded => ?_
  have given : gas.toNat ≤ m₆.ioGas := afforded
  rw [ends_bind]
  refine (ends_callStipend op gas).mono (fun gas' m₇ stipended => ?_) fun _ m₇ same => ?_
  swap
  · have io₇ : m₇.ioGas = m₆.ioGas - gas.toNat := congrArg (fun p => p.1) same
    exact ⟨by omega, (congrArg (fun p => p.2) same).trans wrapped₆⟩
  have io₇ : m₇.ioGas = m₆.ioGas - gas.toNat := congrArg (fun p => p.1) stipended.1
  have wrapped₇ : m₇.wrapped = m.wrapped := (congrArg (fun p => p.2) stipended.1).trans wrapped₆
  have whole : m₇.ioGas + (gas'.toNat + face.schedule.callGas) ≤ m.ioGas := by
    have gain := stipended.2
    have same : Transfers op { { m₆ with runGas := gas.toNat } with ioGas := m₆.ioGas - gas.toNat }
        ↔ Transfers op m₁ := by
      change (_ ∧ m₆.item 2 ≠ 0) ↔ (_ ∧ m₁.item 2 ≠ 0)
      rw [item₆]
    by_cases transfers : Transfers op m₁
    · rw [if_pos transfers] at cost
      rw [if_pos (same.mpr transfers)] at gain
      omega
    · rw [if_neg transfers] at cost
      rw [if_neg fun other => transfers (same.mp other)] at gain
      omega
  refine pays_setup ⟨whole, wrapped₇⟩ ?_ ?_
  · refine leaves_bind (purse_blind.drop 1) fun _ => leaves_bind purse_blind.take fun _ => ?_
    refine leaves_bind ?_ fun _ => leaves_bind purse_blind.take fun _ =>
      leaves_bind purse_blind.take fun _ => ?_
    · exact leaves_ite (leaves_pure _) (leaves_bind purse_blind.take fun _ => leaves_pure _)
    · refine leaves_bind purse_blind.take fun _ => leaves_bind purse_blind.take fun _ => ?_
      exact leaves_bind (purse_blind.ask _) fun _ => leaves_pure _
  · refine yields_bind fun _ => yields_bind fun _ => yields_bind fun _ => yields_bind fun _ =>
      yields_bind fun _ => ?_
    exact yields_bind fun _ => yields_bind fun _ => yields_bind fun _ => yields_pure rfl

theorem ends_callFrame (frugal : Frugal face) (setup : CallSetup) :
    Ends (callFrame face setup) m (fun gas m' => m'.purse = m.purse ∧ gas ≤ setup.params.gas)
      fun _ m' => m'.purse = m.purse := by
  unfold callFrame
  rw [ends_bind, ends_readMem, ends_bind]
  refine ends_ask (fun _ => rfl) fun answer ext asked => ?_
  have back := frugal.call _ _ _ _ _ _ asked
  refine Leaves.next (purse_writeMem _ _) (fun _ m₁ same₁ => ?_) fun _ m₁ same₁ => same₁
  exact (purse_blind.put _).next (fun _ m₂ same₂ => ⟨same₂.trans same₁, back⟩) fun _ m₂ same₂ =>
    same₂.trans same₁

theorem paysOn_caseCall (sane : Sane face.schedule) (frugal : Frugal face) (op : Instruction)
    (small : m.ioGas < 2 ^ 64) (none : m.copyMemSize = 0) : PaysOn (caseCall face op) m := by
  have price := sane.priced face.schedule.callGas (by simp)
  -- What comes back is added where it fits.
  have gained : ∀ {n : VM σ} (gas : U256), Paid (gas.toNat + face.schedule.callGas) m n →
      Ends (do
        let m ← get
        let sum ← add64 m.ioGas (low64 gas)
        modify fun m => { m with ioGas := sum } : M σ Unit) n
        (fun _ => Paid face.schedule.callGas m) fun _ => Paid 0 m := by
    intro n gas paid
    have low : low64 gas ≤ gas.toNat := Nat.mod_le _ _
    have enough := paid.ioGas
    rw [ends_bind, ends_get, ends_bind]
    refine ends_add64 (by omega) ⟨?_, paid.wrapped⟩
    change n.ioGas + low64 gas + face.schedule.callGas ≤ m.ioGas
    omega
  refine paysOn_onward face.schedule.callGas ?_ price.1
  unfold Pays
  rw [ends_bind]
  refine (ends_caseCallSetup sane op none).mono (fun setup m₁ paid => ?_) fun _ _ unpaid => unpaid
  have unpaid : ∀ m₂ : VM σ, m₂.purse = m₁.purse → Paid 0 m m₂ := fun m₂ same =>
    (paid.trans (.of_purse same)).less (Nat.zero_le _)
  dsimp only
  split
  · rw [ends_bind]
    refine (ends_callFrame frugal setup).mono (fun gas m₂ back => ?_) fun _ m₂ same =>
      unpaid m₂ same
    have less : gas.toNat ≤ setup.params.gas.toNat := back.2
    exact gained gas ((paid.trans (.of_purse back.1)).less (by omega))
  · refine (purse_blind.put 0).next (fun _ m₂ same => ?_) fun _ m₂ same => unpaid m₂ same
    exact gained setup.params.gas ((paid.trans (.of_purse same)).less (by omega))

theorem interpretCases_pays (sane : Sane face.schedule) (frugal : Frugal face) (op : Instruction)
    (price : m.runGas = tierGas face.schedule op.info.gasPriceTier) (none : m.copyMemSize = 0)
    (small : m.ioGas < 2 ^ 64) : PaysOn (interpretCases C face op) m := by
  have fits : m.runGas ≤ 2 ^ 32 := price ▸ sane.tiers _
  have paid : op.info.gasPriceTier ≠ .zero → op.info.gasPriceTier ≠ .special → 0 < m.runGas :=
    fun some plain =>
    price ▸ sane.paid _ some plain
  have cost : ∀ gas ∈ [face.schedule.balanceGas, face.schedule.extcodesizeGas,
      face.schedule.sloadGas], 0 < gas := by
    intro gas member
    refine (sane.priced gas ?_).1
    rcases List.mem_cons.mp member with rfl | member
    · simp
    rcases List.mem_cons.mp member with rfl | member
    · simp
    · rw [List.mem_singleton.mp member]
      simp
  cases op with
  | create => exact paysOn_caseCreate sane frugal small none
  | call => exact paysOn_caseCall sane frugal .call small none
  | callcode => exact paysOn_caseCall sane frugal .callcode small none
  | delegatecall =>
      change PaysOn (if face.schedule.haveDelegateCall = true then _ else _) m
      split
      · exact paysOn_caseCall sane frugal .delegatecall small none
      · exact .refl m
  | stop => exact paysOn_stop
  | «return» => exact paysOn_return fits none
  | suicide => exact paysOn_suicide sane
  | mload => exact paysOn_mload (paid nofun nofun) fits none
  | mstore => exact paysOn_mstore (paid nofun nofun) fits none
  | mstore8 => exact paysOn_mstore8 (paid nofun nofun) fits none
  | sha3 => exact paysOn_sha3 C sane none
  | log k => exact paysOn_log sane none k
  | exp => exact paysOn_exp sane
  | calldatacopy => exact paysOn_copy sane (paid nofun nofun) fits _
  | codecopy => exact paysOn_copy sane (paid nofun nofun) fits _
  | extcodecopy => exact paysOn_extcodecopy sane
  | sstore => exact paysOn_sstore sane
  | push k => exact paysOn_push (paid nofun nofun) _
  | jump => exact paysOn_jump (paid nofun nofun)
  | jumpi => exact paysOn_jumpi (paid nofun nofun)
  | balance => exact paysOn_priced (cost _ (by simp)) (purse_blind.looked _)
  | extcodesize => exact paysOn_priced (cost _ (by simp)) (purse_blind.looked _)
  | sload => exact paysOn_priced (cost _ (by simp)) (purse_blind.looked _)
  | jumpdest => exact paysOn_priced Nat.one_pos (leaves_pure _)
  | blockhash => exact paysOn_plain (paid nofun nofun) (purse_blind.looked _)
  | pop => exact paysOn_plain (paid nofun nofun) (purse_blind.drop 1)
  | dup k => exact paysOn_plain (paid nofun nofun) (purse_blind.dup _)
  | swap k => exact paysOn_plain (paid nofun nofun) (purse_blind.swap _)
  | pc | msize | gas =>
      exact paysOn_plain (paid nofun nofun) (leaves_bind leaves_get fun _ => purse_blind.put _)
  | not | iszero | calldataload => exact paysOn_plain (paid nofun nofun) (purse_blind.unary _)
  | addmod | mulmod => exact paysOn_plain (paid nofun nofun) (purse_blind.ternary _)
  | add | mul | sub | div | sdiv | mod | smod | signextend =>
      exact paysOn_plain (paid nofun nofun) (purse_blind.binary _)
  | lt | gt | slt | sgt | eq | and | or | xor | byte =>
      exact paysOn_plain (paid nofun nofun) (purse_blind.binary _)
  | address | origin | caller | callvalue =>
      exact paysOn_plain (paid nofun nofun) (purse_blind.put _)
  | calldatasize | codesize | gasprice => exact paysOn_plain (paid nofun nofun) (purse_blind.put _)
  | coinbase | timestamp | number => exact paysOn_plain (paid nofun nofun) (purse_blind.put _)
  | difficulty | gaslimit => exact paysOn_plain (paid nofun nofun) (purse_blind.put _)
  | jumpto | jumpif | jumpv | jumpsub | jumpsubv | returnsub => exact .refl m
  | beginsub | begindata | pushc | jumpc | jumpci | bad | ethcall | other => exact .refl m

theorem step_pays (sane : Sane face.schedule) (frugal : Frugal face) (small : m.ioGas < 2 ^ 64) :
    PaysOn (step C face) m := by
  refine ends_step (fun _ => .of_purse rfl) (fun _ _ => .of_purse rfl) (fun _ => .of_purse rfl)
    fun _ _ _ => ?_
  have pays := interpretCases_pays (m := m.ready face) C sane frugal m.fetched rfl rfl small
  refine Ends.mono pays (fun _ m' paid => ?_) fun _ m' paid => ?_
  · exact ⟨paid.ioGas, paid.wrapped⟩
  · exact ⟨paid.ioGas, paid.wrapped⟩

end Instructions

section Runs

variable {σ : Type} {C : Crypto} {face : Face σ} {gas : U256} {ext : σ} {m : VM σ}

theorem Reached.solvent (sane : Sane face.schedule) (frugal : Frugal face)
    (reached : Reached C face gas ext m) :
    m.ioGas ≤ low64 gas ∧ m.wrapped = false := by
  have low : low64 gas < 2 ^ 64 := Nat.mod_lt _ (by decide)
  induction reached with
  | start => exact ⟨le_rfl, rfl⟩
  | step _ went ih =>
      have paid := Ends.ok (step_pays C sane frugal (ih.1.trans_lt low)) went
      exact ⟨((Nat.le_add_right _ _).trans paid.ioGas).trans ih.1, paid.wrapped.trans ih.2⟩

theorem Reached.ends (sane : Sane face.schedule) (frugal : Frugal face)
    (reached : Reached C face gas ext m) {fuel : Nat} (enough : m.ioGas < fuel) :
    ∃ r, interpret C face fuel m = some r ∧
      ∀ m', (r = .ok () m' ∨ ∃ e, r = .error e m') → m'.ioGas ≤ m.ioGas ∧ m'.wrapped = false := by
  induction fuel generalizing m with
  | zero => cases enough
  | succ fuel ih =>
      have solvent := reached.solvent sane frugal
      have small : m.ioGas < 2 ^ 64 := solvent.1.trans_lt (Nat.mod_lt _ (by decide))
      have pays := step_pays C sane frugal small
      have same : ∀ {m' : VM σ} {cost : Nat}, Paid cost m m' → m'.ioGas ≤ m.ioGas ∧
          m'.wrapped = false := fun paid =>
        ⟨(Nat.le_add_right _ _).trans paid.ioGas, paid.wrapped.trans solvent.2⟩
      unfold interpret
      cases went : Evm.step C face m with
      | error e m' =>
          refine ⟨_, rfl, ?_⟩
          rintro m'' (other | ⟨e', other⟩)
          · cases other
          · cases other
            exact same (Ends.error pays went)
      | ok on m' =>
          have paid := Ends.ok pays went
          cases on with
          | false =>
              refine ⟨_, rfl, ?_⟩
              rintro m'' (other | ⟨e', other⟩)
              · cases other
                exact same paid
              · cases other
          | true =>
              have cost := paid.ioGas
              have less : m'.ioGas < m.ioGas := cost
              rcases ih (reached.step went) (by omega) with ⟨r, result, kept⟩
              exact ⟨r, result,
                fun m'' final => ⟨(kept m'' final).1.trans less.le, (kept m'' final).2⟩⟩

/-- Every instruction that does not halt costs gas, no sum wraps around, and with as much fuel as
gas the execution comes to its end, with no more gas than it has been started with. -/
theorem execution_ends_by_gas (C : Crypto) (face : Face σ) (gas : U256) (ext : σ)
    (schedule : face.schedule ∈ schedules) (frugal : Frugal face) :
    (∀ m, Reached C face gas ext m → Ends (step C face) m
      (fun on m' => m'.ioGas ≤ m.ioGas ∧ (on = true → m'.ioGas < m.ioGas) ∧ m'.wrapped = false)
      fun _ m' => m'.ioGas ≤ m.ioGas ∧ m'.wrapped = false) ∧
    ∃ r, interpret C face (low64 gas + 1) (.start face gas ext) = some r ∧
      ∀ m', (r = .ok () m' ∨ ∃ e, r = .error e m') →
        m'.ioGas ≤ low64 gas ∧ m'.ioGas ≤ gas.toNat ∧ m'.wrapped = false := by
  have sane := schedules_sane _ schedule
  constructor
  · intro m reached
    have solvent := reached.solvent sane frugal
    have small : m.ioGas < 2 ^ 64 := solvent.1.trans_lt (Nat.mod_lt _ (by decide))
    refine Ends.mono (step_pays C sane frugal small) (fun on m' paid => ?_) fun _ m' paid => ?_
    · refine ⟨(Nat.le_add_right _ _).trans paid.ioGas, ?_, paid.wrapped.trans solvent.2⟩
      rintro rfl
      exact paid.ioGas
    · exact ⟨paid.ioGas, paid.wrapped.trans solvent.2⟩
  · have begun : Reached C face gas ext (.start face gas ext) := .start
    rcases begun.ends sane frugal (Nat.lt_succ_self _) with ⟨r, result, kept⟩
    exact ⟨r, result, fun m' final => ⟨(kept m' final).1, (kept m' final).1.trans (Nat.mod_le _ _),
      (kept m' final).2⟩⟩

end Runs

theorem alone_frugal (code : Bytes) : Frugal (.alone code) where
  call _ _ _ _ _ _ answered := by
    cases answered
    exact Nat.zero_le _
  create _ _ _ _ _ _ _ answered := by
    cases answered
    exact Nat.zero_le _

/-- A loop, `JUMPDEST, PUSH1 0, JUMP`. -/
theorem loop_ends_by_gas :
    ∃ r, interpret .toy (.alone [0x5b, 0x60, 0x00, 0x56]) (low64 100 + 1)
      (.start (.alone [0x5b, 0x60, 0x00, 0x56]) 100 ()) =
      some r := by
  have ends :=
    execution_ends_by_gas .toy (.alone [0x5b, 0x60, 0x00, 0x56]) 100 () (by decide) (alone_frugal _)
  exact ends.2.imp fun _ result => result.1

end UtispaceChain.Evm
