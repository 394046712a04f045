import UtispaceChain.CvVm.Steps

/-! The stack under an instruction: it touches the items that it takes and the places of those that
it puts. -/

namespace UtispaceChain.Evm

open Lib Accounts

structure Control where
  pc : Nat
  code : Bytes
  jumpDests : List Nat

namespace VM

variable {σ : Type}

def control (m : VM σ) : Control := ⟨m.pc, m.code, m.jumpDests⟩

def desk (m : VM σ) : Int × List Int × Control := (m.sp, m.slots, m.control)

end VM

/-- Nothing but the `n` places from `base` on has been touched since. -/
def Touched {σ : Type} (n : Nat) (base : Int) (m m' : VM σ) : Prop :=
  ∀ s ∈ m'.slots, s ∈ m.slots ∨ base ≤ s ∧ s < base + n

/-- There are `height` items from `base` on. -/
structure Moved {σ : Type} (n : Nat) (base : Int) (height : Nat) (m m' : VM σ) : Prop where
  sp : m'.sp + 1 = base + height
  control : m'.control = m.control
  touched : Touched n base m m'

/-- With `before` items of its own, and room for `n`, a part of an instruction leaves `after`
items. -/
def Moves {σ α : Type} (n before after : Nat) (x : M σ α) : Prop :=
  ∀ (base : Int) m, m.sp + 1 = base + before →
  Ends x m (fun _ => Moved n base after m) fun _ => Touched n base m

section Parts

variable {σ α β : Type} {n before between after : Nat} {base : Int} {m m' m'' : VM σ} {x : M σ α}
    {f : α → M σ β}

theorem Touched.refl (n : Nat) (base : Int) (m : VM σ) : Touched n base m m :=
  fun _ member => .inl member

theorem Touched.trans (first : Touched n base m m') (second : Touched n base m' m'') :
    Touched n base m m'' := by
  intro s member
  rcases second s member with earlier | inside
  · exact first s earlier
  · exact .inr inside

theorem Touched.more (first : Touched n base m m') {s : Int} (low : base ≤ s) (high : s < base + n)
    (slots : m''.slots = m'.slots ++ [s]) : Touched n base m m'' := by
  intro t member
  rw [slots] at member
  rcases List.mem_append.mp member with earlier | last
  · exact first t earlier
  · rw [List.mem_singleton.mp last]
    exact .inr ⟨low, high⟩

theorem moves_of_leaves (leaves : Leaves VM.desk x) : Moves n before before x := by
  intro base m height
  have touched : ∀ m' : VM σ, m'.desk = m.desk → Touched n base m m' := by
    intro m' same s member
    have slots : m'.slots = m.slots := congrArg (fun d => d.2.1) same
    exact .inl (slots ▸ member)
  refine (leaves m).mono (fun a m' same => ?_) fun e m' => touched m'
  have sp : m'.sp = m.sp := congrArg (fun d => d.1) same
  exact ⟨by rw [sp, height], congrArg (fun d => d.2.2) same, touched m' same⟩

theorem moves_bind (first : Moves n before between x) (second : ∀ a, Moves n between after (f a)) :
    Moves n before after (x >>= f) := by
  intro base m height
  rw [ends_bind]
  refine (first base m height).mono (fun a m' moved => ?_) fun _ _ touched => touched
  refine (second a base m' moved.sp).mono (fun b m'' later => ?_) fun e m'' later =>
    moved.touched.trans later
  exact ⟨later.sp, later.control.trans moved.control, moved.touched.trans later.touched⟩

theorem moves_pure (a : α) : Moves n before before (pure a : M σ α) :=
  moves_of_leaves (leaves_pure a)

theorem moves_ite {p : Prop} [Decidable p] {y : M σ α} (yes : Moves n before after x)
    (no : Moves n before after y) :
    Moves n before after (if p then x else y) := by
  split
  · exact yes
  · exact no

theorem moves_peek (k : Nat) (own : k < before) (room : before ≤ n + k) :
    Moves n before before (peek k : M σ U256) := by
  intro base m height
  refine ⟨height, rfl, ?_⟩
  exact (Touched.refl n base m).more (by omega) (by omega) rfl

theorem moves_poke (k : Nat) (v : U256) (own : k < before) (room : before ≤ n + k) :
    Moves n before before (poke k v : M σ Unit) := by
  intro base m height
  refine ⟨height, rfl, ?_⟩
  exact (Touched.refl n base m).more (by omega) (by omega) rfl

theorem moves_drop (k : Nat) : Moves n (after + k) after (drop k : M σ Unit) := by
  intro base m height
  refine ⟨?_, rfl, .refl n base m⟩
  change m.sp - k + 1 = base + after
  omega

theorem moves_take (room : after < n) : Moves n (after + 1) after (take : M σ U256) := by
  unfold take
  refine moves_bind (moves_peek 0 (by omega) (by omega)) fun v => ?_
  exact moves_bind (moves_drop 1) fun _ => moves_pure v

theorem moves_put (v : U256) (room : before < n) :
    Moves n before (before + 1) (put v : M σ Unit) := by
  have up : Moves n before (before + 1) (modify fun m => { m with sp := m.sp + 1 } : M σ Unit) := by
    intro base m height
    refine ⟨?_, rfl, .refl n base m⟩
    change m.sp + 1 + 1 = base + (before + 1 : Nat)
    omega
  exact moves_bind up fun _ => moves_poke 0 v (by omega) (by omega)

theorem moves_ask (q : Asks σ α) : Moves n before before (ask q) :=
  moves_of_leaves (leaves_ask (fun _ _ => rfl) q)

theorem moves_charge : Moves n before before (charge : M σ Unit) :=
  moves_of_leaves (leaves_charge fun _ _ => rfl)

theorem moves_toUint64 (v : Nat) : Moves n before before (toUint64 v : M σ Nat) :=
  moves_of_leaves (leaves_toUint64 v)

theorem moves_memNeed (offset size : U256) :
    Moves n before before (memNeed offset size : M σ Nat) := moves_toUint64 _

theorem moves_addRunGas (gas : Nat) : Moves n before before (addRunGas gas : M σ Unit) :=
  moves_of_leaves (leaves_addRunGas (fun _ _ _ => rfl) gas)

theorem moves_modify {g : VM σ → VM σ} (blind : ∀ m, (g m).desk = m.desk) :
    Moves n before before (modify g : M σ Unit) := moves_of_leaves (leaves_modify blind)

theorem moves_get : Moves n before before (get : M σ (VM σ)) := moves_of_leaves leaves_get

theorem moves_readMem (offset size : Nat) :
    Moves n before before (readMem offset size : M σ Bytes) :=
  moves_of_leaves (leaves_readMem (fun _ _ => rfl) offset size)

theorem moves_writeMem (offset : Nat) (bytes : Bytes) :
    Moves n before before (writeMem offset bytes : M σ Unit) :=
  moves_of_leaves (leaves_writeMem (fun _ _ _ => rfl) offset bytes)

theorem moves_add64 (a b : Nat) : Moves n before before (add64 a b : M σ Nat) :=
  moves_of_leaves (leaves_add64 (fun _ _ => rfl) a b)

theorem moves_updateMem (face : Face σ) : Moves n before before (updateMem face) :=
  moves_of_leaves (leaves_updateMem face fun _ _ _ _ _ => rfl)

end Parts

section Families

variable {σ : Type} {n : Nat} (face : Face σ)

theorem moves_unary (f : U256 → U256) : Moves 1 1 1 (unary f : M σ Unit) := by
  unfold unary
  exact moves_bind (moves_peek 0 (by decide) (by decide)) fun a =>
    moves_poke 0 _ (by decide) (by decide)

theorem moves_binary (f : U256 → U256 → U256) : Moves 2 2 1 (binary f : M σ Unit) := by
  unfold binary
  refine moves_bind (moves_peek 0 (by decide) (by decide)) fun a => ?_
  refine moves_bind (moves_peek 1 (by decide) (by decide)) fun b => ?_
  exact moves_bind (moves_poke 1 _ (by decide) (by decide)) fun _ => moves_drop 1

theorem moves_ternary (f : U256 → U256 → U256 → U256) : Moves 3 3 1 (ternary f : M σ Unit) := by
  unfold ternary
  refine moves_bind (moves_peek 0 (by decide) (by decide)) fun a => ?_
  refine moves_bind (moves_peek 1 (by decide) (by decide)) fun b => ?_
  refine moves_bind (moves_peek 2 (by decide) (by decide)) fun c => ?_
  exact moves_bind (moves_poke 2 _ (by decide) (by decide)) fun _ => moves_drop 2

theorem moves_looked (q : U256 → Asks σ U256) : Moves 1 1 1 (looked q) := by
  unfold looked
  refine moves_bind (moves_peek 0 (by decide) (by decide)) fun a =>
    moves_bind (moves_ask _) fun v => ?_
  exact moves_poke 0 v (by decide) (by decide)

theorem moves_dup (k : Nat) : Moves (k + 2) (k + 1) (k + 2) (dup (k + 1) : M σ Unit) := by
  unfold dup
  exact moves_bind (moves_peek k (by omega) (by omega)) fun v => moves_put v (by omega)

theorem moves_swap (k : Nat) : Moves (k + 2) (k + 2) (k + 2) (swap (k + 1) : M σ Unit) := by
  unfold swap
  refine moves_bind (moves_peek 0 (by omega) (by omega)) fun d => ?_
  refine moves_bind (moves_peek (k + 1) (by omega) (by omega)) fun v => ?_
  exact moves_bind (moves_poke 0 v (by omega) (by omega)) fun _ =>
    moves_poke (k + 1) d (by omega) (by omega)

theorem moves_topics (size : Nat) {k count : Nat} (own : k + count = size) :
    Moves size size size (topics count k : M σ (List H256)) := by
  induction count generalizing k with
  | zero => exact moves_pure _
  | succ count ih =>
      unfold topics
      refine moves_bind (moves_peek k (by omega) (by omega)) fun t => ?_
      exact moves_bind (ih (by omega)) fun rest => moves_pure _

end Families

/-- Where an instruction that goes on leaves the stack and the program counter. -/
structure Went {σ : Type} (n : Nat) (base : Int) (height : Nat) (next : Control → Nat → Prop)
    (m : VM σ) (on : Bool) (m' : VM σ) : Prop where
  touched : Touched n base m m'
  code : m'.code = m.code
  jumpDests : m'.jumpDests = m.jumpDests
  sp : on = true → m'.sp + 1 = base + height
  pc : on = true → next m.control m'.pc

def Goes {σ : Type} (n before after : Nat) (next : Control → Nat → Prop) (x : M σ Bool) : Prop :=
  ∀ (base : Int) m, m.sp + 1 = base + before →
    Ends x m (fun on => Went n base after next m on) fun _ => Touched n base m

def past (k : Nat) (c : Control) (pc : Nat) : Prop := pc = c.pc + 1 + k

section Instructions

variable {σ α : Type} {n before between after : Nat} {next : Control → Nat → Prop} (C : Crypto)
    (face : Face σ)

theorem goes_bind {x : M σ α} {f : α → M σ Bool} (first : Moves n before between x)
    (second : ∀ a, Goes n between after next (f a)) : Goes n before after next (x >>= f) := by
  intro base m height
  rw [ends_bind]
  refine (first base m height).mono (fun a m' moved => ?_) fun _ _ touched => touched
  refine (second a base m' moved.sp).mono (fun on m'' went => ?_) fun e m'' later =>
    moved.touched.trans later
  have code : m'.code = m.code := congrArg Control.code moved.control
  have jumpDests : m'.jumpDests = m.jumpDests := congrArg Control.jumpDests moved.control
  refine ⟨moved.touched.trans went.touched, went.code.trans code, went.jumpDests.trans jumpDests,
    went.sp, ?_⟩
  intro goes
  exact moved.control ▸ went.pc goes

theorem goes_ite {p : Prop} [Decidable p] {x y : M σ Bool} (yes : Goes n before after next x)
    (no : Goes n before after next y) : Goes n before after next (if p then x else y) := by
  split
  · exact yes
  · exact no

theorem goes_throw (e : Thrown) : Goes n before after next (throw e : M σ Bool) :=
  fun base m _ => .refl n base m

theorem goes_halt : Goes n before after next (pure false : M σ Bool) := fun base m _ =>
  ⟨.refl n base m, rfl, rfl, nofun, nofun⟩

theorem goes_advance (k : Nat) :
    Goes n after after (past k) (do advance (1 + k); pure true : M σ Bool) := by
  intro base m height
  refine ⟨.refl n base m, rfl, rfl, fun _ => height, fun _ => ?_⟩
  change m.pc + (1 + k) = m.pc + 1 + k
  omega

theorem goes_onward {x : M σ Unit} (moves : Moves n before after x) :
    Goes n before after (past 0) (onward x) :=
  goes_bind moves fun _ => goes_advance 0

theorem goes_plain {x : M σ Unit} (moves : Moves n before after x) :
    Goes n before after (past 0) (plain x) :=
  goes_onward (moves_bind moves_charge fun _ => moves)

theorem goes_priced (gas : Nat) {x : M σ Unit} (moves : Moves n before after x) :
    Goes n before after (past 0) (priced gas x) := by
  unfold priced setRunGas
  refine goes_onward (moves_bind (moves_toUint64 _) fun gas => ?_)
  exact moves_bind (moves_modify fun _ => rfl) fun _ => moves_bind moves_charge fun _ => moves

theorem moves_grown (face : Face σ) (size : Nat) {x : M σ α} (moves : Moves n before after x) :
    Moves n before after (do setNewMemSize size; updateMem face; charge; x) := by
  unfold setNewMemSize
  refine moves_bind (moves_modify fun _ => rfl) fun _ => moves_bind (moves_updateMem face) fun _ =>
    ?_
  exact moves_bind moves_charge fun _ => moves

theorem goes_mload : Goes 1 1 1 (past 0) (mload face) := by
  unfold mload
  refine goes_onward (moves_bind (moves_peek 0 (by decide) (by decide)) fun a => ?_)
  refine moves_bind (moves_toUint64 _) fun offset => moves_bind (moves_add64 _ _) fun need => ?_
  refine moves_grown face need (moves_bind (moves_peek 0 (by decide) (by decide)) fun a => ?_)
  exact moves_bind (moves_readMem _ _) fun bytes => moves_poke 0 _ (by decide) (by decide)

theorem goes_mstore : Goes 2 2 0 (past 0) (mstore face) := by
  unfold mstore
  refine goes_onward (moves_bind (moves_peek 0 (by decide) (by decide)) fun a => ?_)
  refine moves_bind (moves_toUint64 _) fun offset => moves_bind (moves_add64 _ _) fun need => ?_
  refine moves_grown face need (moves_bind (moves_peek 1 (by decide) (by decide)) fun v => ?_)
  refine moves_bind (moves_peek 0 (by decide) (by decide)) fun a => ?_
  exact moves_bind (moves_writeMem _ _) fun _ => moves_drop 2

theorem goes_mstore8 : Goes 2 2 0 (past 0) (mstore8 face) := by
  unfold mstore8
  refine goes_onward (moves_bind (moves_peek 0 (by decide) (by decide)) fun a => ?_)
  refine moves_bind (moves_toUint64 _) fun offset => moves_bind (moves_add64 _ _) fun need => ?_
  refine moves_grown face need (moves_bind (moves_peek 1 (by decide) (by decide)) fun v => ?_)
  refine moves_bind (moves_peek 0 (by decide) (by decide)) fun a => ?_
  exact moves_bind (moves_writeMem _ _) fun _ => moves_drop 2

theorem goes_sha3 : Goes 2 2 1 (past 0) (sha3 C face) := by
  unfold sha3 setRunGas
  refine goes_onward (moves_bind (moves_peek 1 (by decide) (by decide)) fun size => ?_)
  refine moves_bind (moves_toUint64 _) fun gas => moves_bind (moves_modify fun _ => rfl) fun _ => ?_
  refine moves_bind (moves_peek 0 (by decide) (by decide)) fun offset => ?_
  refine moves_bind (moves_peek 1 (by decide) (by decide)) fun size => ?_
  refine moves_bind (moves_memNeed _ _) fun need => moves_grown face need ?_
  refine moves_bind (moves_take (by decide)) fun offset => moves_bind (moves_take (by decide))
    fun size => ?_
  exact moves_bind (moves_readMem _ _) fun bytes => moves_put _ (by decide)

theorem moves_logGasMem (k : Nat) : Moves (k + 2) (k + 2) (k + 2) (logGasMem face k) := by
  unfold logGasMem setRunGas setNewMemSize
  refine moves_bind (moves_peek 0 (by omega) (by omega)) fun offset => ?_
  refine moves_bind (moves_peek 1 (by omega) (by omega)) fun size => moves_bind (moves_toUint64 _)
    fun gas => ?_
  refine moves_bind (moves_modify fun _ => rfl) fun _ => moves_bind (moves_memNeed _ _)
    fun need => ?_
  exact moves_bind (moves_modify fun _ => rfl) fun _ => moves_updateMem face

theorem goes_log (k : Nat) : Goes (k + 2) (k + 2) 0 (past 0) (log face k) := by
  have dropped : Moves (k + 2) (0 + (k + 2)) 0 (drop (k + 2) : M σ Unit) := moves_drop (k + 2)
  rw [Nat.zero_add] at dropped
  unfold log
  refine goes_onward (moves_bind (moves_logGasMem face k) fun _ => moves_bind moves_charge
    fun _ => ?_)
  refine moves_bind (moves_topics (k + 2) (by omega)) fun ts => ?_
  refine moves_bind (moves_peek 0 (by omega) (by omega)) fun offset => ?_
  refine moves_bind (moves_peek 1 (by omega) (by omega)) fun size => ?_
  exact moves_bind (moves_readMem _ _) fun bytes => moves_bind (moves_ask _) fun _ => dropped

theorem goes_exp : Goes 2 2 1 (past 0) (exp face) := by
  unfold exp setRunGas
  refine goes_onward (moves_bind (moves_peek 1 (by decide) (by decide)) fun expon => ?_)
  refine moves_bind (moves_toUint64 _) fun gas => moves_bind (moves_modify fun _ => rfl) fun _ => ?_
  refine moves_bind moves_charge fun _ => moves_bind (moves_take (by decide)) fun base => ?_
  exact moves_poke 0 _ (by decide) (by decide)

theorem moves_copyDataToMemory (data : Bytes) (room : 3 ≤ n) :
    Moves n 3 0 (copyDataToMemory data : M σ Unit) := by
  unfold copyDataToMemory
  refine moves_bind (moves_take (by omega)) fun offset => moves_bind (moves_take (by omega))
    fun index => ?_
  exact moves_bind (moves_take (by omega)) fun size => moves_writeMem _ _

theorem goes_copy (data : Bytes) : Goes 3 3 0 (past 0) (copy face data) := by
  unfold copy setCopyMemSize
  refine goes_onward (moves_bind (moves_peek 2 (by decide) (by decide)) fun size => ?_)
  refine moves_bind (moves_toUint64 _) fun copy => moves_bind (moves_modify fun _ => rfl) fun _ =>
    ?_
  refine moves_bind (moves_peek 0 (by decide) (by decide)) fun offset => ?_
  refine moves_bind (moves_peek 2 (by decide) (by decide)) fun size => ?_
  exact moves_bind (moves_memNeed _ _) fun need =>
    moves_grown face need (moves_copyDataToMemory data le_rfl)

theorem goes_extcodecopy : Goes 4 4 0 (past 0) (extcodecopy face) := by
  unfold extcodecopy setRunGas setCopyMemSize
  refine goes_onward
    (moves_bind (moves_toUint64 _) fun gas => moves_bind (moves_modify fun _ => rfl) fun _ => ?_)
  refine moves_bind (moves_peek 3 (by decide) (by decide)) fun size => ?_
  refine moves_bind (moves_toUint64 _) fun copy => moves_bind (moves_modify fun _ => rfl) fun _ =>
    ?_
  refine moves_bind (moves_peek 1 (by decide) (by decide)) fun offset => ?_
  refine moves_bind (moves_peek 3 (by decide) (by decide)) fun size => ?_
  refine moves_bind (moves_memNeed _ _) fun need => moves_grown face need ?_
  refine moves_bind (moves_peek 0 (by decide) (by decide)) fun a =>
    moves_bind (moves_drop 1) fun _ => ?_
  exact moves_bind (moves_ask _) fun data => moves_copyDataToMemory data (by decide)

theorem goes_push (k : Nat) : Goes 1 0 1 (past k) (push k : M σ Bool) := by
  unfold push
  refine goes_bind moves_charge fun _ => goes_bind moves_get fun m => ?_
  exact goes_bind (moves_put _ (by decide)) fun _ => goes_advance k

def landed (c : Control) (pc : Nat) : Prop := pc ∈ c.jumpDests

theorem goes_jumpTo (dest : U256) (k : Nat) :
    Goes n (after + k) after landed (do
      let pc ← verifyJumpDest dest
      modify fun m => { m with pc }
      drop k
      pure true : M σ Bool) := by
  intro base m height
  unfold verifyJumpDest
  simp only [ends_bind, ends_get]
  split
  case isTrue found =>
    refine ⟨.refl n base m, rfl, rfl, fun _ => ?_, fun _ => found.2⟩
    change m.sp - k + 1 = base + after
    omega
  case isFalse => exact .refl n base m

theorem goes_jump : Goes 1 1 0 landed (jump : M σ Bool) := by
  unfold jump
  refine goes_bind moves_charge fun _ => goes_bind (moves_peek 0 (by decide) (by decide))
    fun dest => ?_
  exact goes_jumpTo dest 1

theorem Goes.mono {next' : Control → Nat → Prop} {x : M σ Bool} (goes : Goes n before after next x)
    (more : ∀ c pc, next c pc → next' c pc) : Goes n before after next' x := by
  intro base m height
  refine (goes base m height).mono (fun on m' went => ?_) fun _ _ touched => touched
  exact ⟨went.touched, went.code, went.jumpDests, went.sp, fun goes => more _ _ (went.pc goes)⟩

theorem goes_jumpi : Goes 2 2 0 (fun c pc => past 0 c pc ∨ landed c pc) (jumpi : M σ Bool) := by
  unfold jumpi
  refine goes_bind moves_charge fun _ => goes_bind (moves_peek 1 (by decide) (by decide))
    fun condition => goes_ite ?_ ?_
  · intro base m height
    refine ⟨.refl 2 base m, rfl, rfl, fun _ => ?_, fun _ => .inl rfl⟩
    change m.sp - (2 : Nat) + 1 = base + (0 : Nat)
    omega
  · refine goes_bind (moves_peek 0 (by decide) (by decide)) fun dest => ?_
    exact (goes_jumpTo dest 2).mono fun _ _ there => .inr there

theorem moves_sstoreGas : Moves 2 2 2 (sstoreGas face) := by
  unfold sstoreGas
  refine moves_bind (moves_peek 0 (by decide) (by decide)) fun key => moves_bind (moves_ask _)
    fun old => ?_
  refine moves_bind (moves_peek 1 (by decide) (by decide)) fun v => moves_ite (moves_toUint64 _) ?_
  refine moves_bind (moves_ask _) fun old => moves_ite ?_ (moves_toUint64 _)
  exact moves_bind (moves_toUint64 _) fun gas => moves_bind (moves_ask _) fun _ => moves_pure gas

theorem goes_sstore : Goes 2 2 0 (past 0) (sstore face) := by
  unfold sstore setRunGas
  refine goes_onward (moves_bind (moves_sstoreGas face)
    fun gas => moves_bind (moves_modify fun _ => rfl) fun _ => ?_)
  refine moves_bind moves_charge fun _ => moves_bind (moves_peek 0 (by decide) (by decide))
    fun key => ?_
  refine moves_bind (moves_peek 1 (by decide) (by decide)) fun v =>
    moves_bind (moves_ask _) fun _ => ?_
  exact moves_drop 2

theorem moves_suicideNewAccountGas (dest : Nat) :
    Moves n before before (suicideNewAccountGas face dest) := by
  unfold suicideNewAccountGas
  refine moves_bind (moves_ask _) fun balance => moves_ite ?_ (moves_pure 0)
  exact moves_bind (moves_ask _) fun existing => moves_pure _

theorem goes_suicide : Goes 1 1 0 next (suicide face) := by
  unfold suicide setRunGas
  refine goes_bind (moves_toUint64 _) fun gas => goes_bind (moves_modify fun _ => rfl) fun _ => ?_
  refine goes_bind (moves_peek 0 (by decide) (by decide)) fun dest => ?_
  refine goes_bind (moves_suicideNewAccountGas face _) fun more => goes_bind (moves_addRunGas _)
    fun _ => ?_
  exact goes_bind moves_charge fun _ => goes_bind (moves_ask _) fun _ => goes_halt

theorem goes_return : Goes 2 2 0 next (return_ face) := by
  unfold return_ setNewMemSize
  refine goes_bind (moves_peek 0 (by decide) (by decide)) fun offset => ?_
  refine goes_bind (moves_peek 1 (by decide) (by decide)) fun size => goes_bind (moves_memNeed _ _)
    fun need => ?_
  refine goes_bind (moves_modify fun _ => rfl) fun _ => goes_bind (moves_updateMem face) fun _ => ?_
  refine goes_bind moves_charge fun _ => goes_bind (moves_take (by decide)) fun b => ?_
  refine goes_bind (moves_take (by decide)) fun s => goes_bind (moves_readMem _ _) fun bytes => ?_
  exact goes_bind (moves_modify fun _ => rfl) fun _ => goes_halt

theorem goes_stop : Goes n before after next (stop : M σ Bool) :=
  goes_bind moves_charge fun _ => goes_halt

theorem moves_createFrame (endowment : U256) (initOff initSize : Nat) :
    Moves 3 0 1 (createFrame face endowment initOff initSize) := by
  have up : Moves 3 0 1 (modify fun m => { m with sp := m.sp + 1 } : M σ Unit) := by
    intro base m height
    refine ⟨?_, rfl, .refl 3 base m⟩
    change m.sp + 1 + 1 = base + (1 : Nat)
    omega
  unfold createFrame
  refine moves_bind (moves_modify fun _ => rfl) fun _ => moves_bind moves_get fun m =>
    moves_bind up fun _ => ?_
  refine moves_bind (moves_readMem _ _) fun init => moves_bind (moves_ask _) fun made => ?_
  refine moves_bind (moves_poke 0 _ (by decide) (by decide)) fun _ =>
    moves_bind (moves_modify fun _ => rfl) fun _ => ?_
  exact moves_modify fun _ => rfl

theorem goes_caseCreate : Goes 3 3 1 (past 0) (caseCreate face) := by
  unfold caseCreate setNewMemSize setRunGas
  refine goes_onward (moves_bind (moves_peek 1 (by decide) (by decide)) fun offset => ?_)
  refine moves_bind (moves_peek 2 (by decide) (by decide)) fun size =>
    moves_bind (moves_memNeed _ _) fun need => ?_
  refine moves_bind (moves_modify fun _ => rfl) fun _ => moves_bind (moves_toUint64 _) fun gas => ?_
  refine moves_bind (moves_modify fun _ => rfl) fun _ => moves_bind (moves_updateMem face) fun _ =>
    ?_
  refine moves_bind moves_charge fun _ => moves_bind (moves_take (by decide)) fun endowment => ?_
  refine moves_bind (moves_take (by decide)) fun initOff => moves_bind (moves_take (by decide))
    fun initSize => ?_
  exact moves_bind (moves_ask _) fun balance => moves_ite (moves_createFrame face _ _ _)
    (moves_put 0 (by decide))

def callArgs (op : Instruction) : Nat := if op = .delegatecall then 6 else 7

theorem moves_callStaticGas (op : Instruction) (own : op = .call → 2 < before) (room : before ≤ n) :
    Moves n before before (callStaticGas face op) := by
  unfold callStaticGas setRunGas
  refine moves_bind (moves_toUint64 _) fun gas => moves_bind (moves_modify fun _ => rfl) fun _ => ?_
  split
  case isTrue call =>
    have items : 2 < before := own call
    refine moves_bind (moves_peek 1 (by omega) (by omega)) fun a => moves_bind (moves_ask _)
      fun existing => ?_
    refine moves_bind (moves_peek 2 (by omega) (by omega)) fun value => moves_ite ?_ (moves_pure _)
    exact moves_bind (moves_toUint64 _) fun more => moves_addRunGas more
  case isFalse => exact moves_pure _

theorem moves_callValueGas (op : Instruction) (own : op ≠ .delegatecall → 2 < before)
    (room : before ≤ n) :
    Moves n before before (callValueGas face op) := by
  unfold callValueGas
  split
  case isTrue => exact moves_pure _
  case isFalse other =>
    have items : 2 < before := own other
    refine moves_bind (moves_peek 2 (by omega) (by omega)) fun value => moves_ite ?_ (moves_pure _)
    exact moves_bind (moves_toUint64 _) fun more => moves_addRunGas more

theorem moves_callMem {k : Nat} (own : k + 2 < before) (room : before ≤ n) :
    Moves n before before (callMem k : M σ Unit) := by
  unfold callMem setNewMemSize
  refine moves_bind (moves_peek (k + 1) (by omega) (by omega)) fun outOff => ?_
  refine moves_bind (moves_peek (k + 2) (by omega) (by omega)) fun outSize => ?_
  refine moves_bind (moves_memNeed _ _) fun outNeed => ?_
  refine moves_bind (moves_peek (k - 1) (by omega) (by omega)) fun inOff => ?_
  refine moves_bind (moves_peek k (by omega) (by omega)) fun inSize => ?_
  exact moves_bind (moves_memNeed _ _) fun inNeed => moves_modify fun _ => rfl

theorem moves_callGas (own : 0 < before) (room : before ≤ n) :
    Moves n before before (callGas face) := by
  unfold callGas
  exact moves_bind moves_get fun m => moves_bind (moves_peek 0 own (by omega)) fun gas =>
    moves_pure _

theorem moves_callStipend (op : Instruction) (gas : U256) (own : op ≠ .delegatecall → 2 < before)
    (room : before ≤ n) :
    Moves n before before (callStipend face op gas) := by
  unfold callStipend
  split
  case isTrue => exact moves_pure gas
  case isFalse other =>
    have items : 2 < before := own other
    exact moves_bind (moves_peek 2 (by omega) (by omega)) fun value => moves_pure _

theorem moves_callValue (op : Instruction) :
    Moves (callArgs op) (callArgs op - 2) 4 (callValue face op) := by
  unfold callValue callArgs
  split
  case isTrue => exact moves_pure _
  case isFalse => exact moves_bind (moves_take (by decide)) fun value => moves_pure _

theorem moves_caseCallSetup (op : Instruction) :
    Moves (callArgs op) (callArgs op) 0 (caseCallSetup face op) := by
  have items : (op = .delegatecall ∧ callArgs op = 6) ∨ (op ≠ .delegatecall ∧ callArgs op = 7) := by
    unfold callArgs
    split
    case isTrue same => exact .inl ⟨same, rfl⟩
    case isFalse other => exact .inr ⟨other, rfl⟩
  have value : op ≠ .delegatecall → 2 < callArgs op := by omega
  have sizes : (if op = .delegatecall then 3 else 4) + 2 < callArgs op := by
    rcases items with ⟨same, six⟩ | ⟨other, seven⟩
    · rw [if_pos same, six]
      decide
    · rw [if_neg other, seven]
      decide
  have first : Moves (callArgs op) (callArgs op) (callArgs op - 1) (drop 1 : M σ Unit) := by
    have dropped : Moves (callArgs op) (callArgs op - 1 + 1) (callArgs op - 1)
        (drop 1 : M σ Unit) := moves_drop 1
    rwa [show callArgs op - 1 + 1 = callArgs op by omega] at dropped
  have second : Moves (callArgs op) (callArgs op - 1) (callArgs op - 2) (take : M σ U256) := by
    have taken : Moves (callArgs op) (callArgs op - 2 + 1) (callArgs op - 2) (take : M σ U256) :=
      moves_take (by omega)
    rwa [show callArgs op - 2 + 1 = callArgs op - 1 by omega] at taken
  unfold caseCallSetup setRunGas updateIOGas
  refine moves_bind (moves_callStaticGas face op (by omega) le_rfl) fun _ => ?_
  refine moves_bind (moves_callValueGas face op value le_rfl) fun _ =>
    moves_bind (moves_callMem sizes le_rfl) fun _ => ?_
  refine moves_bind (moves_updateMem face) fun _ => moves_bind moves_charge fun _ => ?_
  refine moves_bind (moves_callGas face (by omega) le_rfl) fun gas => moves_bind (moves_toUint64 _)
    fun runGas => ?_
  refine moves_bind (moves_modify fun _ => rfl) fun _ => moves_bind moves_charge fun _ => ?_
  refine moves_bind (moves_callStipend face op gas value le_rfl) fun gas =>
    moves_bind first fun _ => ?_
  refine moves_bind second fun a => moves_bind (moves_callValue face op) fun values => ?_
  refine moves_bind (moves_take (by omega)) fun inOff => moves_bind (moves_take (by omega))
    fun inSize => ?_
  refine moves_bind (moves_take (by omega)) fun outOff => moves_bind (moves_take (by omega))
    fun outSize => ?_
  exact moves_bind (moves_ask _) fun balance => moves_pure _

theorem moves_callFrame (setup : CallSetup) (room : 0 < n) :
    Moves n 0 1 (callFrame face setup) := by
  unfold callFrame
  refine moves_bind (moves_readMem _ _) fun data => moves_bind (moves_ask _) fun answer => ?_
  exact moves_bind (moves_writeMem _ _) fun _ => moves_bind (moves_put _ room) fun _ => moves_pure _

theorem goes_caseCall (op : Instruction) :
    Goes (callArgs op) (callArgs op) 1 (past 0) (caseCall face op) := by
  have room : 0 < callArgs op := by
    unfold callArgs
    split <;> decide
  unfold caseCall
  refine goes_onward (moves_bind (moves_caseCallSetup face op) fun setup => ?_)
  have gained : ∀ gas : U256, Moves (callArgs op) 1 1 (do
      let m ← get
      let sum ← add64 m.ioGas (low64 gas)
      modify fun m => { m with ioGas := sum } : M σ Unit) := by
    intro gas
    refine moves_bind moves_get fun m => moves_bind (moves_add64 _ _) fun sum => ?_
    exact moves_modify fun _ => rfl
  dsimp only
  refine moves_ite (moves_bind (moves_callFrame face setup room) gained) ?_
  exact moves_bind (moves_put 0 room) fun _ => moves_bind (moves_pure _) gained

end Instructions

/-- Where an instruction that is no jump goes on, and one that is. -/
def Instruction.next (op : Instruction) (c : Control) (pc : Nat) : Prop :=
  past op.immediate c pc ∨ (op = .jump ∨ op = .jumpi) ∧ landed c pc

theorem interpretCases_goes {σ : Type} (C : Crypto) (face : Face σ) (op : Instruction) :
    Goes (max op.info.args op.info.ret) op.info.args op.info.ret op.next
      (interpretCases C face op) := by
  have onward : ∀ {n args ret : Nat} {x : M σ Bool}, op.immediate = 0 → Goes n args ret (past 0) x →
      Goes n args ret op.next x := fun none goes => goes.mono fun c pc there => .inl (none ▸ there)
  cases op with
  | jump => exact goes_jump.mono fun c pc there => .inr ⟨.inl rfl, there⟩
  | jumpi => exact goes_jumpi.mono fun c pc there => there.imp id fun there => ⟨.inr rfl, there⟩
  | push k => exact (goes_push (k + 1)).mono fun c pc there => .inl there
  | stop => exact goes_stop
  | «return» => exact goes_return face
  | suicide => exact goes_suicide face
  | create => exact onward rfl (goes_caseCreate face)
  | call => exact onward rfl (goes_caseCall face .call)
  | callcode => exact onward rfl (goes_caseCall face .callcode)
  | delegatecall => exact goes_ite (onward rfl (goes_caseCall face .delegatecall)) (goes_throw _)
  | mload => exact onward rfl (goes_mload face)
  | mstore => exact onward rfl (goes_mstore face)
  | mstore8 => exact onward rfl (goes_mstore8 face)
  | sha3 => exact onward rfl (goes_sha3 C face)
  | log k => exact onward rfl (goes_log face k)
  | exp => exact onward rfl (goes_exp face)
  | calldatacopy => exact onward rfl (goes_copy face _)
  | codecopy => exact onward rfl (goes_copy face _)
  | extcodecopy => exact onward rfl (goes_extcodecopy face)
  | sstore => exact onward rfl (goes_sstore face)
  | dup k =>
      have room : max (k + 1 : Nat) (k + 2) = k + 2 := by omega
      change Goes (max (k + 1 : Nat) (k + 2)) _ _ _ _
      rw [room]
      exact onward rfl (goes_plain (moves_dup k))
  | swap k =>
      change Goes (max (k + 2 : Nat) (k + 2)) _ _ _ _
      rw [Nat.max_self]
      exact onward rfl (goes_plain (moves_swap k))
  | pop => exact onward rfl (goes_plain (moves_drop 1))
  | balance => exact onward rfl (goes_priced _ (moves_looked _))
  | extcodesize => exact onward rfl (goes_priced _ (moves_looked _))
  | sload => exact onward rfl (goes_priced _ (moves_looked _))
  | blockhash => exact onward rfl (goes_plain (moves_looked _))
  | jumpdest => exact onward rfl (goes_priced _ (moves_pure _))
  | pc => exact onward rfl (goes_plain (moves_bind moves_get fun m => moves_put _ (by decide)))
  | msize => exact onward rfl (goes_plain (moves_bind moves_get fun m => moves_put _ (by decide)))
  | gas => exact onward rfl (goes_plain (moves_bind moves_get fun m => moves_put _ (by decide)))
  | not => exact onward rfl (goes_plain (moves_unary _))
  | iszero => exact onward rfl (goes_plain (moves_unary _))
  | calldataload => exact onward rfl (goes_plain (moves_unary _))
  | addmod => exact onward rfl (goes_plain (moves_ternary _))
  | mulmod => exact onward rfl (goes_plain (moves_ternary _))
  | add | mul | sub | div | sdiv | mod | smod | signextend =>
      exact onward rfl (goes_plain (moves_binary _))
  | lt | gt | slt | sgt | eq | and | or | xor | byte =>
      exact onward rfl (goes_plain (moves_binary _))
  | address | origin | caller | callvalue => exact onward rfl (goes_plain (moves_put _ (by decide)))
  | calldatasize | codesize | gasprice => exact onward rfl (goes_plain (moves_put _ (by decide)))
  | coinbase | timestamp | number => exact onward rfl (goes_plain (moves_put _ (by decide)))
  | difficulty | gaslimit => exact onward rfl (goes_plain (moves_put _ (by decide)))
  | jumpto | jumpif | jumpv | jumpsub | jumpsubv | returnsub => exact goes_throw _
  | beginsub | begindata | pushc | jumpc | jumpci | bad | ethcall | other => exact goes_throw _

end UtispaceChain.Evm
