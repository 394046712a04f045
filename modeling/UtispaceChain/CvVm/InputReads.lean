import UtispaceChain.CvVm.Arithmetic
import UtispaceChain.CvVm.MemoryAccess

/-! What an instruction reads of the call data and of code: the bytes that are there, and zeros
behind them. -/

namespace UtispaceChain.Evm

open Lib Accounts

def extended (data : Bytes) (index size : Nat) : Bytes :=
  (List.range size).map fun i => data.getD (index + i) 0

def within (data : Bytes) (index size : Nat) : Option Bytes :=
  if index + size ≤ data.length then some ((data.drop index).take size) else none

/-- What `CALLDATALOAD` makes of the data; none when it reads a byte that is not there. -/
def loadRead (data : Bytes) (a : U256) : Option Bytes :=
  if a.toNat + 31 < data.length then within data (low64 a) 32
  else if data.length ≤ a.toNat then some (List.replicate 32 0)
  else
    let e := (low64 a + 32) % 2 ^ 64
    (List.range 32).mapM fun j =>
      if low64 a + j < e ∧ low64 a + j < data.length then data[low64 a + j]? else some 0

/-- What `copyDataToMemory` makes of the data; none when it reads a byte that is not there. -/
def copyRead (data : Bytes) (bigIndex size : Nat) : Option Bytes :=
  let index := bigIndex % 2 ^ 64
  let sizeToBeCopied := if data.length < bigIndex + size then
    (if data.length < bigIndex then 0 else (data.length + 2 ^ 64 - index) % 2 ^ 64) else size
  if 0 < sizeToBeCopied then
    (within data index sizeToBeCopied).map (· ++ List.replicate (size - sizeToBeCopied) 0)
  else some (List.replicate size 0)

/-- An array has no more bytes than there are addresses for. -/
def Addressable (data : Bytes) : Prop := data.length < 2 ^ 63

instance (data : Bytes) : Decidable (Addressable data) :=
  inferInstanceAs (Decidable (data.length < 2 ^ 63))

section Data

variable {data : Bytes} {index size : Nat}

theorem length_extended (data : Bytes) (index size : Nat) :
    (extended data index size).length = size := by
  rw [extended, List.length_map, List.length_range]

theorem getElem_extended {i : Nat} (inside : i < (extended data index size).length) :
    (extended data index size)[i] = data.getD (index + i) 0 := by simp [extended]

theorem getD_beyond {i : Nat} (beyond : data.length ≤ i) : data.getD i 0 = 0 := by
  rw [List.getD_eq_getElem?_getD, List.getElem?_eq_none beyond]
  rfl

theorem extended_eq {n : Nat} (few : n ≤ size) (inside : n = 0 ∨ index + n ≤ data.length)
    (all : n < size → data.length ≤ index + n) :
    (data.drop index).take n ++ List.replicate (size - n) 0 = extended data index size := by
  have taken : ((data.drop index).take n).length = n := by
    rw [List.length_take, List.length_drop]
    omega
  apply List.ext_getElem
  · rw [length_extended, List.length_append, taken, List.length_replicate]
    omega
  · intro i left right
    rw [getElem_extended, List.getElem_append]
    rw [length_extended] at right
    split
    case isTrue there =>
      have place : index + i < data.length := by omega
      rw [List.getElem_take, List.getElem_drop, List.getD_eq_getElem?_getD,
        List.getElem?_eq_getElem place]
      rfl
    case isFalse behind =>
      rw [List.getElem_replicate, getD_beyond (by omega)]

theorem extended_zeros (beyond : data.length ≤ index) :
    List.replicate size 0 = extended data index size :=
  extended_eq (Nat.zero_le size) (.inl rfl) fun _ => beyond

theorem within_eq (inside : index + size ≤ data.length) :
    within data index size = some (extended data index size) := by
  rw [within, if_pos inside, ← extended_eq le_rfl (.inr inside)
    fun less => absurd less (lt_irrefl _), Nat.sub_self, List.replicate_zero, List.append_nil]

/-- `sizeToBeCopied`, where the data is addressable. -/
def there (data : Bytes) (index size : Nat) : Nat :=
  if data.length < index + size then (if data.length < index then 0 else data.length - index)
    else size

theorem there_cases (data : Bytes) (index size : Nat) :
    there data index size ≤ size ∧
    (there data index size = 0 ∨ index + there data index size ≤ data.length) ∧
      (there data index size < size → data.length ≤ index + there data index size) := by
  unfold there
  split
  case isTrue past =>
    split
    case isTrue => omega
    case isFalse => omega
  case isFalse => omega

theorem copied_eq (addressable : Addressable data) (index size : Nat) :
    copied data index size = extended data index size := by
  rcases there_cases data index size with ⟨few, inside, all⟩
  unfold Addressable at addressable
  change (data.drop (index % 2 ^ 64)).take (there data index size) ++
    List.replicate (size - there data index size) 0 = _
  rw [← extended_eq few inside all]
  rcases inside with none | inside
  · rw [none, List.take_zero, List.take_zero]
  · rw [Nat.mod_eq_of_lt (by omega)]

theorem copyRead_eq (addressable : Addressable data) (index size : Nat) :
    copyRead data index size = some (extended data index size) := by
  rcases there_cases data index size with ⟨few, inside, all⟩
  unfold Addressable at addressable
  unfold copyRead
  have same : (if data.length < index + size then
      (if data.length < index then 0 else (data.length + 2 ^ 64 - index % 2 ^ 64) % 2 ^ 64)
        else size) =
      there data index size := by
    unfold there
    congr 1
    split
    case isTrue => rfl
    case isFalse => omega
  dsimp only
  rw [same]
  split
  case isTrue some =>
    have place : index + there data index size ≤ data.length := inside.resolve_left some.ne'
    rw [Nat.mod_eq_of_lt (by omega), within, if_pos place, Option.map_some,
      extended_eq few inside all]
  case isFalse none =>
    have zero : there data index size = 0 := by omega
    rw [zero] at few inside all
    rw [← extended_eq few inside all, List.take_zero, Nat.sub_zero, List.nil_append]

theorem mapM_of_some {α β : Type} {f : α → Option β} {g : α → β} {l : List α}
    (some : ∀ j ∈ l, f j = some (g j)) :
    l.mapM f = Option.some (l.map g) := by
  induction l with
  | nil => rfl
  | cons j l ih =>
      rw [List.mapM_cons, some j (List.mem_cons_self ..),
        ih fun k member => some k (List.mem_cons_of_mem _ member)]
      rfl

theorem loadRead_eq (addressable : Addressable data) (a : U256) :
    loadRead data a = some (extended data a.toNat 32) := by
  unfold Addressable at addressable
  unfold loadRead
  by_cases full : a.toNat + 31 < data.length
  · have low : low64 a = a.toNat := Nat.mod_eq_of_lt (by omega)
    rw [if_pos full, low, within_eq (by omega)]
  · rw [if_neg full]
    by_cases beyond : data.length ≤ a.toNat
    · rw [if_pos beyond, extended_zeros beyond]
    · have low : low64 a = a.toNat := Nat.mod_eq_of_lt (by omega)
      rw [if_neg beyond, low]
      dsimp only
      have byte : ∀ j ∈ List.range 32, (if a.toNat + j < (a.toNat + 32) % 2 ^ 64 ∧
        a.toNat + j < data.length then
          data[a.toNat + j]? else some 0) = some (data.getD (a.toNat + j) 0) := by
        intro j member
        have inside : j < 32 := List.mem_range.mp member
        by_cases there : a.toNat + j < data.length
        · rw [if_pos ⟨by omega, there⟩, List.getD_eq_getElem?_getD, List.getElem?_eq_getElem there]
          rfl
        · rw [if_neg fun both => there both.2, getD_beyond (Nat.le_of_not_lt there)]
      exact mapM_of_some byte

theorem calldataload_eq {σ : Type} (face : Face σ) (a : U256) :
    calldataload face a = word (extended face.data a.toNat 32) := by
  unfold calldataload
  by_cases full : a.toNat + 31 < face.data.length
  · have all : within face.data a.toNat 32 = some (extended face.data a.toNat 32) :=
      within_eq (by omega)
    rw [within, if_pos (by omega)] at all
    rw [if_pos full, Option.some.inj all]
  · rw [if_neg full]
    split
    case isTrue beyond =>
      rw [← extended_zeros beyond]
      rfl
    case isFalse => rfl

end Data

section Copies

variable {σ α : Type} {m n o : VM σ} {face : Face σ}

/-- The bytes of the memory are those that a copy should write, and the data is only read where it
is. -/
structure Copied (data : Bytes) (offset index size : U256) (m n : VM σ) : Prop where
  read : copyRead data index.toNat (low64 size) = some (extended data index.toNat size.toNat)
  byte : n.mem.byte = writeBytes m.mem.byte offset.toNat (extended data index.toNat size.toNat)
  inside : 0 < size.toNat → offset.toNat + size.toNat ≤ n.mem.size

theorem copied_of_accessed {data : Bytes} {offset index size : U256}
    (addressable : Addressable data)
    (accesses : n.accesses = [⟨true, low64 offset, copied data index.toNat (low64 size)⟩])
    (accessed : Accessed [⟨true, true, offset.toNat, size.toNat⟩] m.mem n.mem n.accesses) :
    Copied data offset index size m n := by
  rw [accesses, copied_eq addressable] at accessed
  rcases accessed with ⟨served, byte, inside⟩
  rcases List.forall₂_cons_left_iff.mp served with ⟨a, rest, served, -, same⟩
  cases same
  have length : low64 size = size.toNat := (length_extended _ _ _).symm.trans (served.whole rfl)
  rw [length] at served byte inside
  have place : size.toNat ≠ 0 → low64 offset = offset.toNat := by
    intro some
    refine served.offset fun none => some ?_
    rw [← length_extended data index.toNat size.toNat]
    exact congrArg List.length none
  refine ⟨?_, byte.trans ?_, fun some => ?_⟩
  · rw [copyRead_eq addressable, length]
  · change writeBytes m.mem.byte (low64 offset) _ = _
    by_cases none : size.toNat = 0
    · rw [none]
      exact (writeBytes_nil _ _).trans (writeBytes_nil _ _).symm
    · rw [place none]
  · have bound := inside _ (List.mem_singleton.mpr rfl)
    rw [length_extended, place some.ne'] at bound
    refine bound.resolve_left fun none => some.ne' ?_
    rw [← length_extended data index.toNat size.toNat]
    exact congrArg List.length none

/-- What a copy is given: the surroundings, the operands, and the accesses so far. -/
def VM.board (m : VM σ) : σ × (Int → U256) × Int × List Access := (m.ext, m.stack, m.sp, m.accesses)

theorem ends_board {β : Type} {x : M σ α} {f : α → M σ β} {Q : β → VM σ → Prop}
    (same : n.board = m.board) (leaves : Leaves VM.board x) (good : ∀ a n, n.board = m.board →
      Ends (f a) n Q fun _ _ => True) :
    Ends (x >>= f) n Q fun _ _ => True :=
  leaves.next (fun a o later => good a o (later.trans same)) fun _ _ _ => trivial

theorem ends_board_peek {β : Type} {k : Nat} {f : U256 → M σ β} {Q : β → VM σ → Prop}
    (same : n.board = m.board) (good : ∀ n, n.board = m.board →
      Ends (f (m.item k)) n Q fun _ _ => True) :
    Ends (peek k >>= f) n Q fun _ _ => True := by
  have stack : n.stack = m.stack := congrArg (fun v => v.2.1) same
  have sp : n.sp = m.sp := congrArg (fun v => v.2.2.1) same
  have item : n.item k = m.item k := by
    unfold VM.item
    rw [stack, sp]
  rw [ends_bind, ends_peek, item]
  exact good _ same

theorem board_updateMem : Leaves VM.board (updateMem face) :=
  leaves_updateMem face fun _ _ _ _ _ => rfl

theorem board_charge : Leaves VM.board (charge : M σ Unit) := leaves_charge fun _ _ => rfl

theorem board_toUint64 (v : Nat) : Leaves VM.board (toUint64 v : M σ Nat) := leaves_toUint64 v

theorem ends_copy_access (data : Bytes) (fresh : o.accesses = []) :
    Ends (copyDataToMemory data) o
      (fun _ p => p.accesses =
        [⟨true, low64 (o.item 0), copied data (o.item 1).toNat (low64 (o.item 2))⟩])
      fun _ _ => True := by
  unfold copyDataToMemory
  refine ends_take fun o₁ s₁ => ends_take fun o₂ s₂ => ends_take fun o₃ s₃ => ?_
  rw [ends_writeMem, s₂.item, s₁.item, s₁.item]
  change o₃.accesses ++ _ = _
  rw [s₃.accesses, s₂.accesses, s₁.accesses, fresh]
  rfl

theorem item_of_board (same : n.board = m.board) (k : Nat) : n.item k = m.item k := by
  have stack : n.stack = m.stack := congrArg (fun v => v.2.1) same
  have sp : n.sp = m.sp := congrArg (fun v => v.2.2.1) same
  unfold VM.item
  rw [stack, sp]

theorem ends_copy (data : Bytes) (fresh : m.accesses = []) :
    Ends (copy face data) m
      (fun _ p => p.accesses =
        [⟨true, low64 (m.item 0), copied data (m.item 1).toNat (low64 (m.item 2))⟩])
      fun _ _ => True := by
  unfold copy onward setCopyMemSize setNewMemSize
  rw [ends_bind]
  refine ends_board_peek rfl fun n₁ s₁ => ends_board s₁ (board_toUint64 _) fun size n₂ s₂ => ?_
  refine ends_board s₂ (leaves_modify fun _ => rfl) fun _ n₃ s₃ => ?_
  refine ends_board_peek s₃ fun n₄ s₄ => ends_board_peek s₄ fun n₅ s₅ => ?_
  refine ends_board s₅ (board_toUint64 _) fun need n₆ s₆ =>
    ends_board s₆ (leaves_modify fun _ => rfl) fun _ n₇ s₇ => ?_
  refine ends_board s₇ board_updateMem fun _ n₈ s₈ => ends_board s₈ board_charge fun _ n₉ s₉ => ?_
  have accesses : n₉.accesses = m.accesses := congrArg (fun v => v.2.2.2) s₉
  refine (ends_copy_access data (accesses.trans fresh)).mono (fun _ p written => ?_)
    fun _ _ _ => trivial
  rw [item_of_board s₉, item_of_board s₉, item_of_board s₉] at written
  exact written

theorem ends_extcodecopy (fresh : m.accesses = []) :
    Ends (extcodecopy face) m
      (fun _ p => ∃ code ext, face.codeAt (asAddress (m.item 0)) m.ext = some (code, ext) ∧
        p.accesses = [⟨true, low64 (m.item 1), copied code (m.item 2).toNat (low64 (m.item 3))⟩])
      fun _ _ => True := by
  unfold extcodecopy onward setCopyMemSize setNewMemSize setRunGas
  rw [ends_bind]
  refine ends_board rfl (board_toUint64 _) fun gas n₁ s₁ =>
    ends_board s₁ (leaves_modify fun _ => rfl) fun _ n₂ s₂ => ?_
  refine ends_board_peek s₂ fun n₃ s₃ => ends_board s₃ (board_toUint64 _) fun size n₄ s₄ => ?_
  refine ends_board s₄ (leaves_modify fun _ => rfl) fun _ n₅ s₅ => ?_
  refine ends_board_peek s₅ fun n₆ s₆ => ends_board_peek s₆ fun n₇ s₇ => ?_
  refine ends_board s₇ (board_toUint64 _) fun need n₈ s₈ =>
    ends_board s₈ (leaves_modify fun _ => rfl) fun _ n₉ s₉ => ?_
  refine ends_board s₉ board_updateMem fun _ n₁₀ s₁₀ => ends_board s₁₀ board_charge
    fun _ n₁₁ s₁₁ => ?_
  refine ends_board_peek s₁₁ fun n₁₂ s₁₂ => ?_
  have ext : n₁₂.ext = m.ext := congrArg (fun v => v.1) s₁₂
  have accesses : n₁₂.accesses = m.accesses := congrArg (fun v => v.2.2.2) s₁₂
  rw [ends_bind, ends_drop, ends_bind]
  refine ends_ask (fun _ => trivial) fun code later asked => ?_
  have asked : face.codeAt (asAddress (m.item 0)) m.ext = some (code, later) := ext ▸ asked
  refine Ends.mono (ends_copy_access code ?_) (fun _ p written => ?_) fun _ _ _ => trivial
  · exact accesses.trans fresh
  have item : ∀ k, ({ n₁₂ with sp := n₁₂.sp - 1, ext := later } : VM σ).item k =
      m.item (1 + k) := by
    intro k
    have dropped := (shifted_drop n₁₂ 1 n₁₂.slots).item k
    exact dropped.trans (item_of_board s₁₂ _)
  refine ⟨code, later, asked, ?_⟩
  rw [← item 0, ← item 1, ← item 2]
  exact written

def ReadsInput (face : Face σ) (m n : VM σ) : Instruction → Prop
  | .calldataload =>
      loadRead face.data (m.item 0) = some (extended face.data (m.item 0).toNat 32) ∧
        Replaced 1 (word (extended face.data (m.item 0).toNat 32)) m n
  | .calldatacopy => Copied face.data (m.item 0) (m.item 1) (m.item 2) m n
  | .codecopy => Copied face.code (m.item 0) (m.item 1) (m.item 2) m n
  | .extcodecopy => ∃ code ext, face.codeAt (asAddress (m.item 0)) m.ext = some (code, ext) ∧
      Copied code (m.item 1) (m.item 2) (m.item 3) m n
  | _ => True

theorem interpretCases_reads (C : Crypto) (face : Face σ) (fresh : m.accesses = [])
    (data : Addressable face.data) (code : Addressable face.code)
    (codes : ∀ a ext code later, face.codeAt a ext = some (code, later) → Addressable code)
    (op : Instruction) :
    Ends (interpretCases C face op) m (fun _ n => ReadsInput face m n op) fun _ _ => True := by
  have any : ∀ x : M σ Bool, Ends x m (fun _ _ => True) fun _ _ => True := by
    intro x
    unfold Ends
    cases x m <;> trivial
  cases op with
  | calldataload =>
      have computes := computes_unary m (calldataload face)
      rw [calldataload_eq] at computes
      exact Ends.mono computes (fun _ n done => ⟨loadRead_eq data _, done.2⟩) fun _ _ _ => trivial
  | calldatacopy =>
      have both := (ends_copy face.data fresh).and (does_copy face fresh face.data)
      exact both.mono (fun _ n done => copied_of_accessed data done.1 done.2.2) fun _ _ _ => trivial
  | codecopy =>
      have both := (ends_copy face.code fresh).and (does_copy face fresh face.code)
      exact both.mono (fun _ n done => copied_of_accessed code done.1 done.2.2) fun _ _ _ => trivial
  | extcodecopy =>
      have both := (ends_extcodecopy fresh).and (does_extcodecopy face fresh)
      refine both.mono (fun _ n done => ?_) fun _ _ _ => trivial
      rcases done.1 with ⟨there, later, asked, accesses⟩
      exact ⟨there, later, asked, copied_of_accessed (codes _ _ _ _ asked) accesses done.2.2⟩
  | _ => exact any _

theorem ReadsInput.of_ready {op : Instruction} (reads : ReadsInput face (m.ready face) n op) :
    ReadsInput face m n op := by
  cases op with
  | calldataload => exact ⟨reads.1, reads.2.top, reads.2.rest, reads.2.height⟩
  | calldatacopy => exact ⟨reads.read, reads.byte, reads.inside⟩
  | codecopy => exact ⟨reads.read, reads.byte, reads.inside⟩
  | extcodecopy =>
      rcases reads with ⟨code, later, asked, done⟩
      exact ⟨code, later, asked, done.read, done.byte, done.inside⟩
  | _ => trivial

/-- An instruction that reads input and goes through gets the bytes that are there and zeros behind
them. -/
theorem input_reads_zero_extended (C : Crypto) (face : Face σ) (m m' : VM σ) (on : Bool)
    (data : Addressable face.data) (code : Addressable face.code)
    (codes : ∀ a ext code later, face.codeAt a ext = some (code, later) → Addressable code)
    (went : step C face m = .ok on m') : ReadsInput face m m' m.fetched := by
  have reads : Ends (step C face) m (fun _ n => ReadsInput face m n m.fetched) fun _ _ => True := by
    refine ends_step (fun _ => trivial) (fun _ _ => trivial) (fun _ => trivial) fun _ _ _ => ?_
    refine (interpretCases_reads C face (m := m.ready face) rfl data code codes m.fetched).mono
      (fun _ n done => ?_)
      fun _ _ _ => trivial
    exact done.of_ready
  exact reads.ok went

end Copies

def shortData (op : UInt8) : Face Unit :=
  { Face.alone [0x60, 0x03, 0x60, 0x01, 0x60, 0x00, op] with data := [0xab, 0xcd] }

/-- `PUSH1 3, PUSH1 1, PUSH1 0, CALLDATACOPY`: the byte at 1 and two zeros. -/
theorem short_data_zero_extended :
    ReadsInput (shortData 0x37) (machine .toy (shortData 0x37) 100 () 3)
      (machine .toy (shortData 0x37) 100 () 4)
      .calldatacopy :=
  input_reads_zero_extended .toy (shortData 0x37) (machine .toy (shortData 0x37) 100 () 3)
    (machine .toy (shortData 0x37) 100 () 4) true (by decide) (by decide) (by
      intro a ext code later asked
      cases asked
      decide) rfl

example : extended [0xab, 0xcd] 1 3 = [0xcd, 0, 0] := by decide

end UtispaceChain.Evm
