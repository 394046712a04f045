import UtispaceChain.DevCore.RlpItems
import UtispaceChain.P2p.RLPXFrameWriter

/-! What the inner loop of `mux` puts into a frame. -/

namespace UtispaceChain.P2p

open Lib

/-! Packets -/

theorem strictSize_eq (d : Bytes) :
    (Rlp.construct d).bind Rlp.actualSize = some d.length ↔ Rlp.actualSize d = some d.length := by
  rw [Rlp.construct]
  cases read : Rlp.actualSize d with
  | none => simp
  | some size =>
      rw [Option.bind_some]
      split_ifs with same
      · rw [Option.bind_some, read]
      · simp only [Option.bind_none, reduceCtorEq, Option.some.injEq, same]

theorem RLPXPacket.isValid_iff (p : RLPXPacket) : p.isValid = true ↔
    (p.m_type ≠ [] ∨ p.m_data ≠ []) ∧
    Rlp.actualSize p.m_type = some p.m_type.length ∧
    Rlp.actualSize p.m_data = some p.m_data.length := by
  simp only [isValid, Bool.and_eq_true, beq_iff_eq, strictSize_eq, and_assoc, Bool.not_eq_true',
    Bool.and_eq_false_iff, List.isEmpty_eq_false_iff]

theorem RLPXPacket.size_eq {p : RLPXPacket} (valid : p.isValid = true) :
    p.size = p.m_type.length + p.m_data.length := by
  rcases (p.isValid_iff).mp valid with ⟨_, type, data⟩
  rw [size, (strictSize_eq _).mpr type, data]
  rfl

/-- A packet that is queued, of the sizes that a frame's header can tell. -/
structure RLPXPacket.Sound (p : RLPXPacket) : Prop where
  valid : p.isValid = true
  small : p.size < 2 ^ 24

instance (p : RLPXPacket) : Decidable p.Sound :=
  decidable_of_iff (p.isValid = true ∧ p.size < 2 ^ 24) ⟨fun both => ⟨both.1, both.2⟩,
    fun sound => ⟨sound.1, sound.2⟩⟩

/-! The arithmetic of `size_t` -/

theorem minus_eq {a b : Nat} (small : a < 2 ^ 64) (below : b ≤ a) : minus a b = a - b := by
  rw [minus]
  omega

theorem wraps_eq {a b : Nat} (below : b ≤ a) : wraps a b = [] := if_neg (Nat.not_lt.mpr below)

theorem asserts_eq {p : Prop} [Decidable p] (holds : p) : asserts p = [] := if_pos holds

namespace Filling

variable {s : Filling} {p : RLPXPacket} {q : List RLPXPacket}

@[simp] theorem blame_nil (s : Filling) : s.blame [] = s := by
  rw [blame, List.append_nil]

/-! The parts of a round -/

def opened (p : RLPXPacket) (s : Filling) : Filling :=
  { s with
    qs := { s.qs with
      writing := true
      multiFrame := decide (s.frameAllot < p.size)
      sequence := if s.frameAllot < p.size then s.m_sequenceId + 1 else s.qs.sequence
      remaining := p.m_data.length }
    m_sequenceId := if s.frameAllot < p.size then s.m_sequenceId + 1 else s.m_sequenceId
    frameAllot := s.frameAllot - p.m_type.length
    payload := s.payload ++ p.m_type }

def moved (p : RLPXPacket) (s : Filling) : Filling :=
  { s with
    qs := { s.qs with remaining := s.qs.remaining - min s.qs.remaining s.frameAllot }
    frameAllot := s.frameAllot - min s.qs.remaining s.frameAllot
    offset := p.m_data.length - s.qs.remaining
    payload := s.payload ++ (p.m_data.drop (p.m_data.length - s.qs.remaining)).take
      (min s.qs.remaining s.frameAllot) }

def ended (q : List RLPXPacket) (s : Filling) : Filling :=
  { s with qs := { s.qs with writing := false, q }, ret := s.ret + 1 }

theorem writeType_eq (idle : s.qs.writing = false) (queued : s.qs.q = p :: q)
    (small : s.frameAllot < 2 ^ 64) (typed : p.m_type ≠ []) (room : p.m_type.length ≤ s.frameAllot)
    (alone : s.frameAllot < p.size → s.payload = []) :
    s.writeType = (s.opened p, true) := by
  have goes : ¬ (s.frameAllot < p.m_type.length ∨ (s.frameAllot < p.size ∧ s.payload ≠ [])) := by
    rintro (long | ⟨large, behind⟩)
    · omega
    · exact behind (alone large)
  rw [writeType, idle, if_neg Bool.false_ne_true]
  simp only [queued, asserts_eq typed, blame_nil, wraps_eq room, minus_eq small room,
    decide_eq_true_eq]
  rw [if_neg goes]
  by_cases large : s.frameAllot < p.size
  · simp only [opened, queued, large, if_true]
  · simp only [opened, queued, large, if_false]

theorem writePortion_eq (queued : s.qs.q = p :: q) (fits : s.qs.multiFrame = true ∨
    s.qs.remaining ≤ s.frameAllot) (room : 0 < s.frameAllot) (due : 0 < s.qs.remaining)
    (within : s.qs.remaining ≤ p.m_data.length) (short : p.m_data.length < 2 ^ 64)
    (small : s.frameAllot < 2 ^ 64) : s.writePortion = s.moved p := by
  have portion : (if s.qs.remaining ≤ s.frameAllot then s.qs.remaining else s.frameAllot) =
      min s.qs.remaining s.frameAllot := (Nat.min_def ..).symm
  have size : ((p.m_data.drop (p.m_data.length - s.qs.remaining)).take
    (min s.qs.remaining s.frameAllot)).length =
      min s.qs.remaining s.frameAllot := by
    rw [List.length_take, List.length_drop]
    omega
  have left : min s.qs.remaining s.frameAllot ≤ s.qs.remaining := Nat.min_le_left ..
  have right : min s.qs.remaining s.frameAllot ≤ s.frameAllot := Nat.min_le_right ..
  rw [writePortion, asserts_eq fits, blame_nil, if_pos ⟨room, due⟩]
  simp only [queued, List.headD_cons, portion, minus_eq short within, size, wraps_eq within,
    wraps_eq left, wraps_eq right, minus_eq (Nat.lt_of_le_of_lt within short) left,
    minus_eq small right, List.append_nil, blame_nil, moved]

theorem writePortion_none (fits : s.qs.multiFrame = true ∨ s.qs.remaining ≤ s.frameAllot)
    (done : s.qs.remaining = 0) : s.writePortion = s := by
  rw [writePortion, asserts_eq fits, blame_nil, if_neg (by omega)]

theorem endPacket_done (queued : s.qs.q = p :: q) (done : s.qs.remaining = 0)
    (cut : 0 < s.offset ∨ s.qs.multiFrame = false) : s.endPacket = s.ended q := by
  rw [endPacket, asserts_eq (.inl ⟨done, cut⟩), blame_nil, if_pos done, queued]
  rfl

theorem endPacket_more (due : s.qs.remaining ≠ 0) (multi : s.qs.multiFrame = true) :
    s.endPacket = s := by
  rw [endPacket, asserts_eq (.inr ⟨due, multi⟩), blame_nil, if_neg due]

/-! The rounds -/

theorem fill_round (t : Filling) (fuel : Nat) (room : 16 ≤ s.frameAllot)
    (apart : s.qs.writing = true → s.payload = []) (wrote : s.writeType = (t, true)) :
    s.fill (fuel + 1) =
      if t.writePortion.endPacket.qs.multiFrame then t.writePortion.endPacket
        else fill fuel t.writePortion.endPacket := by
  have holds : ¬ (s.qs.writing = true ∧ s.payload ≠ []) := fun opened => opened.2 (apart opened.1)
  rw [fill, if_neg (show ¬ s.frameAllot < c_blockSize from Nat.not_lt.mpr room),
    asserts_eq holds, blame_nil]
  simp only [wrote]

def wire (packets : List RLPXPacket) : Bytes := (packets.map fun p => p.m_type ++ p.m_data).flatten

def packed (packets q : List RLPXPacket) (s : Filling) : Filling :=
  { s with
    qs := { s.qs with q, writing := false, multiFrame := false, remaining := 0 }
    frameAllot := s.frameAllot - (wire packets).length
    payload := s.payload ++ wire packets
    ret := s.ret + packets.length }

theorem packed_nil (idle : s.qs.writing = false) (single : s.qs.multiFrame = false)
    (settled : s.qs.remaining = 0) :
    s.packed [] s.qs.q = s := by
  rcases s with ⟨⟨q, writing, remaining, multiFrame, sequence⟩, m_sequenceId, frameAllot, offset,
    payload, ret, faults⟩
  cases idle
  cases single
  cases settled
  simp [packed, wire]

theorem length_wire_cons (valid : p.isValid = true) (packets : List RLPXPacket) :
    (wire (p :: packets)).length = p.size + (wire packets).length := by
  rw [wire, List.map_cons, List.flatten_cons, List.length_append, List.length_append,
    p.size_eq valid]
  rfl

theorem packed_packed (packets more q q' : List RLPXPacket) (s : Filling) :
    (s.packed packets q).packed more q' = s.packed (packets ++ more) q' := by
  simp [packed, wire, Nat.sub_sub, Nat.add_assoc]

theorem fill_pack (fuel : Nat) (idle : s.qs.writing = false) (queued : s.qs.q = p :: q)
    (room : 16 ≤ s.frameAllot) (small : s.frameAllot < 2 ^ 64) (valid : p.isValid = true)
    (typed : p.m_type ≠ []) (fits : p.size ≤ s.frameAllot) (fresh : s.offset = 0) :
    s.fill (fuel + 1) = fill fuel (s.packed [p] q) := by
  have size := p.size_eq valid
  have type : p.m_type.length ≤ s.frameAllot := by omega
  have whole : ¬ s.frameAllot < p.size := Nat.not_lt.mpr fits
  have rest : (s.opened p).qs.remaining ≤ (s.opened p).frameAllot :=
    show p.m_data.length ≤ s.frameAllot - p.m_type.length by omega
  have single : (s.opened p).qs.multiFrame = false := decide_eq_false whole
  rw [fill_round (s.opened p) fuel room (by simp [idle])
    (writeType_eq idle queued small typed type (fun large => absurd large whole))]
  by_cases empty : p.m_data = []
  · have done : (s.opened p).qs.remaining = 0 := List.length_eq_zero_iff.mpr empty
    rw [writePortion_none (.inr rest) done,
      endPacket_done (s := s.opened p) queued done (.inr single)]
    simp [packed, wire, ended, opened, whole, empty]
  · have positive := List.length_pos_of_ne_nil empty
    have least : min p.m_data.length (s.frameAllot - p.m_type.length) = p.m_data.length :=
      Nat.min_eq_left rest
    have done : ((s.opened p).moved p).qs.remaining = 0 :=
      show p.m_data.length - min p.m_data.length (s.frameAllot - p.m_type.length) = 0 by omega
    rw [writePortion_eq (s := s.opened p) queued (.inr rest) (Nat.lt_of_lt_of_le positive rest)
      positive le_rfl
        (Nat.lt_of_le_of_lt (by omega) small) (Nat.lt_of_le_of_lt (Nat.sub_le ..) small),
      endPacket_done (s := (s.opened p).moved p) queued done (.inr single)]
    simp [packed, wire, ended, moved, opened, whole, fresh, least, Nat.sub_sub]

theorem fill_wait (fuel : Nat) (idle : s.qs.writing = false) (queued : s.qs.q = p :: q)
    (room : 16 ≤ s.frameAllot) (typed : p.m_type ≠ [])
    (waits : s.frameAllot < p.m_type.length ∨ (s.frameAllot < p.size ∧ s.payload ≠ [])) :
    s.fill (fuel + 1) = s.packed [] (p :: q) := by
  have holds : ¬ (s.qs.writing = true ∧ s.payload ≠ []) := by simp [idle]
  have stays : s.writeType =
      ({ s with qs := { s.qs with writing := false, remaining := 0, multiFrame := false } },
        false) := by
    rw [writeType, idle, if_neg Bool.false_ne_true]
    simp only [queued, asserts_eq typed, blame_nil, decide_eq_true_eq]
    rw [if_pos waits]
  rw [fill, if_neg (show ¬ s.frameAllot < c_blockSize from Nat.not_lt.mpr room),
    asserts_eq holds, blame_nil]
  simp [stays, packed, wire, queued]

/-- The frame has the type of a packet and so many bytes of its data. -/
def begun (p : RLPXPacket) (count : Nat) (s : Filling) : Filling :=
  { s with
    qs := { s.qs with
      writing := true, multiFrame := true, sequence := s.m_sequenceId + 1, remaining :=
      p.m_data.length - count }
    m_sequenceId := s.m_sequenceId + 1
    frameAllot := 0
    payload := p.m_type ++ p.m_data.take count }

theorem fill_first (fuel : Nat) (idle : s.qs.writing = false) (queued : s.qs.q = p :: q)
    (room : 16 ≤ s.frameAllot) (small : s.frameAllot < 2 ^ 64) (sound : p.Sound)
    (typed : p.m_type ≠ []) (large : s.frameAllot < p.size) (type : p.m_type.length < s.frameAllot)
    (alone : s.payload = []) (fresh : s.offset = 0) :
    s.fill (fuel + 1) = s.begun p (s.frameAllot - p.m_type.length) := by
  have size := p.size_eq sound.valid
  have bound := sound.small
  have least : min p.m_data.length (s.frameAllot - p.m_type.length) =
      s.frameAllot - p.m_type.length :=
    Nat.min_eq_right (by omega)
  have multi : (s.opened p).qs.multiFrame = true := decide_eq_true large
  have due : ((s.opened p).moved p).qs.remaining ≠ 0 :=
    show p.m_data.length - min p.m_data.length (s.frameAllot - p.m_type.length) ≠ 0 by omega
  rw [fill_round (s.opened p) fuel room (by simp [idle])
      (writeType_eq idle queued small typed (Nat.le_of_lt type) (fun _ => alone)),
    writePortion_eq (s := s.opened p) queued (.inl multi) (Nat.sub_pos_of_lt type)
      (show 0 < p.m_data.length by omega) le_rfl
      (by omega) (Nat.lt_of_le_of_lt (Nat.sub_le ..) small),
    endPacket_more (s := (s.opened p).moved p) due multi]
  simp [begun, moved, opened, large, least, alone, fresh]

theorem fill_next (fuel : Nat) (busy : s.qs.writing = true) (multi : s.qs.multiFrame = true)
    (queued : s.qs.q = p :: q) (room : 16 ≤ s.frameAllot) (small : s.frameAllot < 2 ^ 64)
    (sound : p.Sound) (due : 0 < s.qs.remaining) (within : s.qs.remaining < p.m_data.length)
    (alone : s.payload = []) : s.fill (fuel + 1) =
      if s.qs.remaining ≤ s.frameAllot then (s.moved p).ended q else s.moved p := by
  have size := p.size_eq sound.valid
  have bound := sound.small
  have wrote : s.writeType = (s, true) := by rw [writeType, if_pos busy]
  rw [fill_round s fuel room (fun _ => alone) wrote,
    writePortion_eq queued (.inl multi) (by omega) due (Nat.le_of_lt within) (by omega) small]
  by_cases last : s.qs.remaining ≤ s.frameAllot
  · have done : (s.moved p).qs.remaining = 0 :=
      show s.qs.remaining - min s.qs.remaining s.frameAllot = 0 by omega
    rw [endPacket_done (s := s.moved p) queued done (.inl (Nat.sub_pos_of_lt within)), if_pos last]
    exact if_pos multi
  · have more : (s.moved p).qs.remaining ≠ 0 :=
      show s.qs.remaining - min s.qs.remaining s.frameAllot ≠ 0 by omega
    rw [endPacket_more (s := s.moved p) more multi, if_neg last]
    exact if_pos multi

/-! A queue without a packet in progress -/

/-- The packets at the front of a queue go into a frame unharmed: a type takes up some of the frame,
no packet comes behind one without data, and one that is cut has data in its first frame and a
sequence of its own. -/
def Packable (fresh : Bool) : Nat → Option RLPXPacket → List RLPXPacket → Prop
  | _, _, [] => True
  | allot, front, p :: q => 16 ≤ allot → p.m_type ≠ [] ∧
      if p.size ≤ allot then (∀ packet ∈ front, packet.m_data ≠ []) ∧
      Packable fresh (allot - p.size) (some p) q
      else front = none → p.m_type.length ≤ allot → p.m_type.length < allot ∧ fresh = true

instance decidablePackable (fresh : Bool) : (allot : Nat) → (front : Option RLPXPacket) →
    (q : List RLPXPacket) →
    Decidable (Packable fresh allot front q)
  | _, _, [] => .isTrue trivial
  | allot, front, p :: q =>
      have := decidablePackable fresh (allot - p.size) (some p) q
      inferInstanceAs (Decidable (16 ≤ allot → p.m_type ≠ [] ∧ if p.size ≤ allot then
        (∀ packet ∈ front, packet.m_data ≠ []) ∧ Packable fresh (allot - p.size) (some p) q
        else front = none → p.m_type.length ≤ allot → p.m_type.length < allot ∧ fresh = true))

theorem fill_stop {fuel : Nat} (room : 16 ≤ s.frameAllot → s.qs.q = [])
    (idle : s.qs.writing = false) :
    s.fill (fuel + 1) = s := by
  by_cases more : 16 ≤ s.frameAllot
  · have holds : ¬ (s.qs.writing = true ∧ s.payload ≠ []) := by simp [idle]
    have empty : s.writeType = (s, false) := by
      rw [writeType, idle, if_neg Bool.false_ne_true]
      simp only [room more]
    rw [fill, if_neg (show ¬ s.frameAllot < c_blockSize from Nat.not_lt.mpr more),
      asserts_eq holds, blame_nil]
    simp only [empty]
  · rw [fill, if_pos (show s.frameAllot < c_blockSize from Nat.lt_of_not_le more)]

theorem fill_idle {fresh : Bool} (q : List RLPXPacket) (front : Option RLPXPacket) {s : Filling}
    (idle : s.qs.writing = false) (single : s.qs.multiFrame = false) (settled : s.qs.remaining = 0)
    (queued : s.qs.q = q) (small : s.frameAllot < 2 ^ 64) (sound : ∀ p ∈ q, p.Sound)
    (fresh_offset : s.offset = 0) (behind : front = none ↔ s.payload = [])
    (packable : Packable fresh s.frameAllot front q) :
    (∃ packets rest, q = packets ++ rest ∧ (∀ p ∈ packets, p.m_type ≠ []) ∧
        (front.toList ++ packets).IsChain (fun p _ => p.m_data ≠ []) ∧
          (wire packets).length ≤ s.frameAllot ∧
        s.fill (q.length + 1) = s.packed packets rest) ∨
      ∃ p rest count, q = p :: rest ∧ p.m_type ≠ [] ∧ s.payload = [] ∧ fresh = true ∧ 0 < count ∧
      count < p.m_data.length ∧
        p.m_type.length + count = s.frameAllot ∧ s.fill (q.length + 1) = s.begun p count := by
  induction q generalizing front s with
  | nil =>
      refine .inl ⟨[], [], rfl, by simp, ?_, Nat.zero_le _, ?_⟩
      · cases front <;> simp
      · rw [List.length_nil, fill_stop (fun _ => queued) idle]
        exact (queued ▸ packed_nil idle single settled).symm
  | cons p q ih =>
      have here := sound p List.mem_cons_self
      have size := p.size_eq here.valid
      have still : s.packed [] (p :: q) = s := by rw [← queued, packed_nil idle single settled]
      have stopped (stops : s.fill ((p :: q).length + 1) = s) : ∃ packets rest, p :: q =
        packets ++ rest ∧
          (∀ p ∈ packets, p.m_type ≠ []) ∧
          (front.toList ++ packets).IsChain (fun p _ => p.m_data ≠ []) ∧
          (wire packets).length ≤ s.frameAllot ∧ s.fill ((p :: q).length + 1) =
            s.packed packets rest := by
        refine ⟨[], p :: q, rfl, by simp, ?_, Nat.zero_le _, stops.trans still.symm⟩
        cases front <;> simp
      by_cases room : 16 ≤ s.frameAllot
      · rcases packable room with ⟨typed, next⟩
        by_cases fits : p.size ≤ s.frameAllot
        · rw [if_pos fits] at next
          have length : (wire [p]).length = p.size := length_wire_cons here.valid []
          have more := ih (s := s.packed [p] q) (some p) rfl rfl rfl rfl
            (Nat.lt_of_le_of_lt (Nat.sub_le ..) small)
            (fun packet member => sound packet (List.mem_cons_of_mem _ member)) fresh_offset
              (by simp [packed, wire, typed])
            (by rw [packed, length]; exact next.2)
          rw [List.length_cons,
            fill_pack _ idle queued room small here.valid typed fits fresh_offset]
          rcases more with ⟨packets, rest, rfl, others, chain, within, result⟩
            | ⟨_, _, _, _, _, none, _⟩
          · refine .inl ⟨p :: packets, rest, rfl, List.forall_mem_cons.mpr ⟨typed, others⟩, ?_, ?_,
              ?_⟩
            · cases front with
              | none => exact chain
              | some packet => exact List.isChain_cons_cons.mpr ⟨next.1 packet rfl, chain⟩
            · rw [length_wire_cons here.valid]
              rw [packed, length] at within
              simp only at within
              omega
            · rw [result, packed_packed]
              rfl
          · simp [packed, wire, typed] at none
        · rw [if_neg fits] at next
          by_cases waits : s.frameAllot < p.m_type.length ∨ s.payload ≠ []
          · refine .inl (stopped ?_)
            rw [List.length_cons,
              fill_wait _ idle queued room typed
                (waits.imp_right fun more => ⟨Nat.lt_of_not_le fits, more⟩), still]
          · have alone : s.payload = [] := by
              by_contra more
              exact waits (.inr more)
            rcases next (behind.mpr alone) (by omega) with ⟨type, new⟩
            refine .inr ⟨p, q, s.frameAllot - p.m_type.length, rfl, typed, alone, new, by omega,
              by omega, by omega, ?_⟩
            exact fill_first _ idle queued room small here typed (Nat.lt_of_not_le fits) type alone
              fresh_offset
      · exact .inl (stopped (fill_stop (fun more => absurd more room) idle))

end Filling

end UtispaceChain.P2p
