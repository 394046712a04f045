import UtispaceChain.Lib.Streams
import UtispaceChain.P2p.FrameReading

/-! What the outer loop of `mux` does to the queues. -/

namespace UtispaceChain.P2p

open Lib

/-! Queues between two frames -/

namespace RLPXFrameWriter

variable {w : RLPXFrameWriter} {high : Bool} {qs : WriterState}

theorem queue_setQueue (other : Bool) : (w.setQueue high qs).queue other = if other = high then qs
    else w.queue other := by
  cases high <;> cases other <;> rfl

@[simp] theorem m_sequenceId_setQueue : (w.setQueue high qs).m_sequenceId = w.m_sequenceId := by
  cases high <;> rfl

@[simp] theorem m_protocolId_setQueue : (w.setQueue high qs).m_protocolId = w.m_protocolId := by
  cases high <;> rfl

/-- The next sequence is not the one of a packet in progress in the other queue. -/
def fresh (w : RLPXFrameWriter) (high : Bool) : Bool :=
  !((w.queue !high).writing && (w.queue !high).sequence == w.m_sequenceId + 1)

theorem setQueue_queue (w : RLPXFrameWriter) (high : Bool) :
    w.setQueue high (w.queue high) = w := by
  cases high <;> rfl

end RLPXFrameWriter

/-- Nothing is left of a packet that is not being written, and something of one that is. -/
structure WriterState.Tidy (qs : WriterState) : Prop where
  sound : ∀ p ∈ qs.q, p.Sound
  idle : qs.writing = false → qs.multiFrame = false ∧ qs.remaining = 0
  busy : qs.writing = true → qs.multiFrame = true ∧
    ∃ p q, qs.q = p :: q ∧ 0 < qs.remaining ∧ qs.remaining < p.m_data.length

/-- A queue before and after a frame, with the id of the last sequence. -/
inductive WriterState.Sends (fresh : Bool) (qs : WriterState) (m_sequenceId : UInt16) :
    Portion → WriterState → UInt16 → Prop
  | packed {packets q : List RLPXPacket} (idle : qs.writing = false) (queued : qs.q =
      packets ++ q) :
      Sends fresh qs m_sequenceId (.packed packets)
        { qs with q, writing := false, multiFrame := false, remaining := 0 } m_sequenceId
  | first {p : RLPXPacket} {q : List RLPXPacket} {count : Nat} (idle : qs.writing = false)
      (queued : qs.q = p :: q)
      (new : fresh = true) : Sends fresh qs m_sequenceId (.first (m_sequenceId + 1) p count)
        { qs with writing := true, multiFrame := true, sequence := m_sequenceId + 1
                  remaining := p.m_data.length - count } (m_sequenceId + 1)
  | next {p : RLPXPacket} {q : List RLPXPacket} {count : Nat} (busy : qs.writing = true)
      (queued : qs.q = p :: q)
      (more : count < qs.remaining) :
      Sends fresh qs m_sequenceId (.next qs.sequence p (p.m_data.length - qs.remaining) count)
        { qs with remaining := qs.remaining - count } m_sequenceId
  | last {p : RLPXPacket} {q : List RLPXPacket} (busy : qs.writing = true)
      (queued : qs.q = p :: q) :
      Sends fresh qs m_sequenceId
        (.next qs.sequence p (p.m_data.length - qs.remaining) qs.remaining)
        { qs with q, writing := false, multiFrame := false, remaining := 0 } m_sequenceId

namespace WriterState

/-- The packet that is being written, by its sequence, as a reader knows it. -/
def progress (capId : UInt8) (qs : WriterState) : Option (Nat × (RLPXPacket × Nat)) :=
  if qs.writing = true then
    some
      (qs.sequence.toNat, (qs.q.headD {}).part capId ((qs.q.headD {}).m_data.length - qs.remaining))
  else none

variable {fresh : Bool} {qs qs' : WriterState} {id id' : UInt16} {x : Portion}

theorem Sends.queued (sends : qs.Sends fresh id x qs' id') (tidy : qs.Tidy) :
    qs.q = x.complete ++ qs'.q := by
  cases sends with
  | packed idle queued => exact queued
  | first idle queued new => rfl
  | next busy queued more =>
      rcases tidy.busy busy with ⟨_, p, q, queued', _, within⟩
      rw [queued] at queued'
      cases queued'
      rw [Portion.complete, if_neg (by omega)]
      rfl
  | last busy queued =>
      rcases tidy.busy busy with ⟨_, p, q, queued', _, within⟩
      rw [queued] at queued'
      cases queued'
      rw [Portion.complete, if_pos (by omega), queued]
      rfl

theorem Sends.tidy (sends : qs.Sends fresh id x qs' id') (tidy : qs.Tidy) (proper : x.Proper) :
    qs'.Tidy := by
  have sound : ∀ p ∈ qs'.q, p.Sound := by
    intro p member
    apply tidy.sound
    rw [sends.queued tidy]
    exact List.mem_append_right _ member
  cases sends with
  | packed idle queued =>
      exact ⟨sound, fun _ => ⟨rfl, rfl⟩, fun writing => absurd writing Bool.false_ne_true⟩
  | first idle queued new =>
      rcases proper with ⟨_, _, pos, cut⟩
      exact ⟨sound, fun writing => absurd writing.symm Bool.false_ne_true,
        fun _ => ⟨rfl, _, _, queued, Nat.sub_pos_of_lt cut, Nat.sub_lt (Nat.lt_trans pos cut) pos⟩⟩
  | next busy queued more =>
      rcases tidy.busy busy with ⟨multi, p, q, queued', due, within⟩
      refine ⟨sound, fun idle => absurd (busy.symm.trans idle) Bool.noConfusion,
        fun _ => ⟨multi, p, q, queued', ?_, ?_⟩⟩
      · exact Nat.sub_pos_of_lt more
      · exact Nat.lt_of_le_of_lt (Nat.sub_le ..) within
  | last busy queued =>
      exact ⟨sound, fun _ => ⟨rfl, rfl⟩, fun writing => absurd writing Bool.false_ne_true⟩

theorem progress_idle (capId : UInt8) (idle : qs.writing = false) : qs.progress capId = none := by
  rw [progress, idle, if_neg Bool.false_ne_true]

theorem progress_busy (capId : UInt8) (busy : qs.writing = true) {p : RLPXPacket}
    {q : List RLPXPacket} (queued : qs.q = p :: q) :
    qs.progress capId =
      some (qs.sequence.toNat, p.part capId (p.m_data.length - qs.remaining)) := by
  rw [progress, if_pos busy, queued, List.headD_cons]

end WriterState

def RLPXFrameReader.Follows (r : RLPXFrameReader) (w : RLPXFrameWriter) : Prop :=
  Owned (fun high => (w.queue high).progress (UInt8.ofNat r.m_protocolType.toNat)) r.m_incomplete

theorem RLPXFrameWriter.fresh_sequence {w : RLPXFrameWriter} {high : Bool}
    (fresh : w.fresh high = true) (idle : (w.queue high).writing = false) (capId : UInt8)
    (other : Bool) (value : RLPXPacket × Nat) :
    (w.queue other).progress capId ≠ some ((w.m_sequenceId + 1).toNat, value) := by
  intro held
  by_cases same : other = high
  · rw [same, WriterState.progress_idle capId idle] at held
    cases held
  · have opposite : other = !high := Bool.eq_not.mpr same
    rw [WriterState.progress] at held
    split_ifs at held with busy
    have sequence : (w.queue other).sequence = w.m_sequenceId + 1 := by
      apply UInt16.toNat_inj.mp
      exact (Prod.mk.inj (Option.some.inj held)).1
    simp [RLPXFrameWriter.fresh, ← opposite, busy, sequence] at fresh

theorem RLPXFrameReader.Follows.sends {r : RLPXFrameReader} {w w' : RLPXFrameWriter}
    (follows : r.Follows w) {high : Bool} {x : Portion} {qs' : WriterState} {id' : UInt16}
    (tidy : (w.queue high).Tidy)
    (sends : (w.queue high).Sends (w.fresh high) w.m_sequenceId x qs' id') (proper : x.Proper)
    (later : ∀ other, w'.queue other = if other = high then qs' else w.queue other) :
    x.Known r ∧ (x.after r).Follows w' := by
  have owners (capId : UInt8) : (fun other => (w'.queue other).progress capId) =
      Function.update (fun other => (w.queue other).progress capId) high (qs'.progress capId) := by
    funext other
    by_cases same : other = high
    · rw [later, if_pos same, same, Function.update_self]
    · rw [later, if_neg same, Function.update_of_ne same]
  cases sends with
  | packed idle queued =>
      have before := WriterState.progress_idle (UInt8.ofNat r.m_protocolType.toNat) idle
      refine ⟨trivial, ?_⟩
      rw [Follows, Portion.after, owners, WriterState.progress_idle _ rfl, ← before,
        Function.update_eq_self]
      exact follows
  | @first p q count idle queued new =>
      rcases proper with ⟨_, _, pos, cut⟩
      have free := RLPXFrameWriter.fresh_sequence new idle (UInt8.ofNat r.m_protocolType.toNat)
      have after : WriterState.progress (UInt8.ofNat r.m_protocolType.toNat) { w.queue high with
          writing := true, multiFrame := true, sequence := w.m_sequenceId + 1,
            remaining := p.m_data.length - count } =
            some ((w.m_sequenceId + 1).toNat,
              p.part (UInt8.ofNat r.m_protocolType.toNat) count) := by
        rw [WriterState.progress, if_pos rfl]
        simp only [queued, List.headD_cons, Nat.sub_sub_self (Nat.le_of_lt cut)]
      refine ⟨follows.absent free, ?_⟩
      show Owned (fun other => (w'.queue other).progress (UInt8.ofNat r.m_protocolType.toNat))
        (Function.update _ _ _)
      rw [owners, after]
      refine Owned.set follows _ ?_ ?_
      · intro k value held
        rw [WriterState.progress_idle _ idle] at held
        cases held
      · exact fun other value held => absurd held (free other value)
  | @next p q count busy queued more =>
      rcases tidy.busy busy with ⟨_, p, q, queued', _, within⟩
      rw [queued] at queued'
      cases queued'
      have before := WriterState.progress_busy (UInt8.ofNat r.m_protocolType.toNat) busy queued
      have partly : p.m_data.length - (w.queue high).remaining + count ≠ p.m_data.length := by omega
      have sent : p.m_data.length - ((w.queue high).remaining - count) =
          p.m_data.length - (w.queue high).remaining + count := by omega
      have after : WriterState.progress (UInt8.ofNat r.m_protocolType.toNat)
          { w.queue high with remaining := (w.queue high).remaining - count } =
          some ((w.queue high).sequence.toNat,
            p.part (UInt8.ofNat r.m_protocolType.toNat)
              (p.m_data.length - (w.queue high).remaining + count)) := by
        rw [WriterState.progress, if_pos busy]
        simp only [queued, List.headD_cons, sent]
      refine ⟨(follows.entry _ _).mpr ⟨high, before⟩, ?_⟩
      rw [Portion.after, if_neg partly]
      show Owned (fun other => (w'.queue other).progress (UInt8.ofNat r.m_protocolType.toNat))
        (Function.update _ _ _)
      rw [owners, after]
      refine Owned.set follows _ ?_ ?_
      · intro k value held
        rw [before] at held
        cases held
        rfl
      · exact fun other value held => follows.apart other high _ value _ held before
  | @last p q busy queued =>
      rcases tidy.busy busy with ⟨_, p, q, queued', _, within⟩
      rw [queued] at queued'
      cases queued'
      have before := WriterState.progress_busy (UInt8.ofNat r.m_protocolType.toNat) busy queued
      have whole : p.m_data.length - (w.queue high).remaining + (w.queue high).remaining =
          p.m_data.length := by omega
      refine ⟨(follows.entry _ _).mpr ⟨high, before⟩, ?_⟩
      rw [Portion.after, if_pos whole]
      show Owned (fun other => (w'.queue other).progress (UInt8.ofNat r.m_protocolType.toNat))
        (Function.update _ _ _)
      rw [owners, WriterState.progress_idle _ rfl]
      exact Owned.clear follows before

namespace Filling

variable {s : Filling}

def left (t : Filling) : WriterState :=
  if t.qs.remaining = 0 ∧ t.qs.multiFrame = true then { t.qs with multiFrame := false } else t.qs

/-- What the inner loop has put into a frame, and what it leaves of the queue. -/
structure Fills (fresh : Bool) (s t : Filling) (x : Portion) : Prop where
  sends : s.qs.Sends fresh s.m_sequenceId x t.left t.m_sequenceId
  proper : x.Proper
  payload : t.payload = x.payload
  numbers : ∀ m : Muxing, m.numbers t = x.numbers m.writer.m_protocolId
  short : x.payload.length ≤ s.frameAllot
  faults : t.faults = s.faults

theorem numbers_next {t : Filling} (later : 0 < t.offset) (multi : t.qs.multiFrame = true)
    (m : Muxing) (p : RLPXPacket) (sent count : Nat) :
    m.numbers t = (Portion.next t.qs.sequence p sent count).numbers m.writer.m_protocolId := by
  have behind : ¬ (t.offset = 0 ∧ t.qs.writing = true) := fun first => Nat.ne_of_gt later first.1
  rw [Muxing.numbers, if_pos multi, if_neg behind]
  rfl

theorem fills_busy (fresh : Bool) (tidy : s.qs.Tidy) (busy : s.qs.writing = true)
    (room : 16 ≤ s.frameAllot) (small : s.frameAllot < 2 ^ 64) (alone : s.payload = [])
    (fuel : Nat) :
    ∃ x, Fills fresh s (s.fill (fuel + 1)) x := by
  rcases tidy.busy busy with ⟨multi, p, q, queued, due, within⟩
  have sound := tidy.sound p (queued ▸ List.mem_cons_self)
  rw [fill_next fuel busy multi queued room small sound due within alone]
  by_cases last : s.qs.remaining ≤ s.frameAllot
  · have least : min s.qs.remaining s.frameAllot = s.qs.remaining := Nat.min_eq_left last
    have after : ((s.moved p).ended q).left =
        { s.qs with q, writing := false, multiFrame := false, remaining := 0 } := by
      simp [left, ended, moved, least, multi]
    rw [if_pos last]
    refine ⟨.next s.qs.sequence p (p.m_data.length - s.qs.remaining) s.qs.remaining, ?_⟩
    constructor
    · rw [after]
      exact .last busy queued
    · exact ⟨sound, due, by omega⟩
    · simp [ended, moved, least, alone, Portion.payload]
    · exact fun m => numbers_next (t := (s.moved p).ended q) (Nat.sub_pos_of_lt within)
        multi m p _ _
    · rw [Portion.payload, List.length_take]
      omega
    · rfl
  · have least : min s.qs.remaining s.frameAllot = s.frameAllot := Nat.min_eq_right (by omega)
    have after : (s.moved p).left = { s.qs with remaining := s.qs.remaining - s.frameAllot } := by
      have more : s.qs.remaining - s.frameAllot ≠ 0 := by omega
      simp [left, moved, least, more]
    rw [if_neg last]
    refine ⟨.next s.qs.sequence p (p.m_data.length - s.qs.remaining) s.frameAllot, ?_⟩
    constructor
    · rw [after]
      exact .next busy queued (Nat.lt_of_not_le last)
    · exact ⟨sound, by omega, by omega⟩
    · simp [moved, least, alone, Portion.payload]
    · exact fun m => numbers_next (t := s.moved p) (Nat.sub_pos_of_lt within) multi m p _ _
    · rw [Portion.payload, List.length_take]
      omega
    · rfl

theorem fills_idle {fresh : Bool} (tidy : s.qs.Tidy) (idle : s.qs.writing = false)
    (small : s.frameAllot < 2 ^ 64) (alone : s.payload = []) (offset : s.offset = 0)
    (packable : Packable fresh s.frameAllot none s.qs.q) :
    s.fill (s.qs.q.length + 1) = s ∨ ∃ x, Fills fresh s (s.fill (s.qs.q.length + 1)) x := by
  rcases tidy.idle idle with ⟨single, settled⟩
  rcases fill_idle s.qs.q none idle single settled rfl small tidy.sound offset
    (by simp [alone]) packable with
    ⟨packets, q, queued, typed, chain, within, result⟩ | ⟨p, q, count, queued, typed, _, new, pos,
      cut, whole, result⟩
  · by_cases full : packets = []
    · subst full
      have same : q = s.qs.q := queued.symm
      refine .inl ?_
      rw [result, same]
      exact packed_nil idle single settled
    · refine .inr ⟨.packed packets, ?_⟩
      rw [result]
      have after : (s.packed packets q).left =
          { s.qs with q, writing := false, multiFrame := false, remaining := 0 } := by
            simp [left, packed]
      constructor
      · rw [after]
        exact .packed idle queued
      · refine ⟨full, fun p member => ⟨?_, typed p member⟩, chain⟩
        exact (tidy.sound p (queued ▸ List.mem_append_left _ member)).valid
      · simp [packed, alone, Portion.payload]
      · exact fun m => if_neg Bool.false_ne_true
      · exact within
      · rfl
  · have sound := tidy.sound p (queued ▸ List.mem_cons_self)
    have more : p.m_data.length - count ≠ 0 := by omega
    have after : (s.begun p count).left = { s.qs with
        writing := true, multiFrame := true, sequence := s.m_sequenceId + 1,
          remaining := p.m_data.length - count } := by
      simp [left, begun, more]
    refine .inr ⟨.first (s.m_sequenceId + 1) p count, ?_⟩
    rw [result]
    constructor
    · rw [after]
      exact .first idle queued new
    · exact ⟨sound, typed, pos, cut⟩
    · rfl
    · intro m
      have total : p.size % 2 ^ 32 = p.size :=
        Nat.mod_eq_of_lt (Nat.lt_trans sound.small (by decide))
      have first : (s.begun p count).offset = 0 ∧ (s.begun p count).qs.writing = true :=
        ⟨offset, rfl⟩
      have head : (s.begun p count).qs.q = p :: q := queued
      rw [Muxing.numbers, if_pos (show (s.begun p count).qs.multiFrame = true from rfl),
        if_pos first, head, List.headD_cons, total]
      rfl
    · rw [Portion.payload, List.length_append, List.length_take]
      omega
    · rfl

end Filling

namespace Muxing

/-- Before a round: a frame that both queues share has room for two, and what stands at the front of
the queue goes into the frame unharmed. -/
def Ready (m : Muxing) (high : Bool) : Prop :=
  (m.shares = true → 128 ≤ m.frameLen) ∧
    ((m.writer.queue high).writing = false →
      Filling.Packable (m.writer.fresh high) (minus m.room c_overhead) none (m.writer.queue high).q)

/-- Every round of the outer loop is one that is ready for it. -/
def Orderly (c : Crypto) : Nat → Muxing → Prop
  | 0, _ => True
  | fuel + 1, m => c_overhead + c_blockSize ≤ m.frameLen → ∀ high ∈ m.chosen, m.Ready high ∧
      ((m.filled high).payload ≠ [] → Orderly c fuel (m.flush c high (m.filled high))) ∧
      ((m.filled high).payload = [] → m.swapQueues = false →
        Orderly c fuel { m.put high (m.filled high) with swapQueues := true })

instance (m : Muxing) (high : Bool) : Decidable (m.Ready high) :=
  inferInstanceAs (Decidable (_ ∧ _))

instance decidableOrderly (c : Crypto) : (fuel : Nat) → (m : Muxing) → Decidable (Orderly c fuel m)
  | 0, _ => .isTrue trivial
  | fuel + 1, m =>
      have (high : Bool) := decidableOrderly c fuel (m.flush c high (m.filled high))
      have (high : Bool) :=
        decidableOrderly c fuel { m.put high (m.filled high) with swapQueues := true }
      inferInstanceAs
        (Decidable (c_overhead + c_blockSize ≤ m.frameLen → ∀ high ∈ m.chosen, m.Ready high ∧
        ((m.filled high).payload ≠ [] → Orderly c fuel (m.flush c high (m.filled high))) ∧
        ((m.filled high).payload = [] → m.swapQueues = false →
          Orderly c fuel { m.put high (m.filled high) with swapQueues := true })))

variable {m : Muxing} {high : Bool}

theorem room_bounds (large : 64 ≤ m.frameLen) (small : m.frameLen < 2 ^ 32) (ready : m.Ready high) :
    64 ≤ m.room ∧ m.room ≤ m.frameLen ∧ (m.start high).faults = m.faults := by
  have above : ∀ a, 48 ≤ a → wraps a c_overhead = [] := fun a enough => wraps_eq enough
  by_cases shared : m.shares = true
  · have half := ready.1 shared
    have enough : c_overhead + c_blockSize ≤ m.frameLen / 2 := show 64 ≤ m.frameLen / 2 by omega
    have bounds : 64 ≤ m.room ∧ m.room ≤ m.frameLen := by
      rw [room, if_pos shared]
      split_ifs <;> omega
    refine ⟨bounds.1, bounds.2, ?_⟩
    rw [start, if_pos shared, wraps_eq enough, above _ (by omega), List.append_nil, List.append_nil]
  · have bounds : m.room = m.frameLen := by rw [room, if_neg shared]
    refine ⟨by omega, by omega, ?_⟩
    rw [start, if_neg shared, above _ (by omega), List.append_nil, List.append_nil]

theorem allot_eq (large : 64 ≤ m.frameLen) (small : m.frameLen < 2 ^ 32) (ready : m.Ready high) :
    (m.start high).frameAllot = m.room - 48 ∧ 64 ≤ m.room ∧ m.room ≤ m.frameLen := by
  rcases room_bounds large small ready with ⟨least, most, _⟩
  exact ⟨minus_eq (by omega) (show 48 ≤ m.room by omega), least, most⟩

theorem filled_cases (tidy : (m.writer.queue high).Tidy) (large : 64 ≤ m.frameLen)
    (small : m.frameLen < 2 ^ 32) (ready : m.Ready high) : m.filled high = m.start high ∨
      ∃ x, Filling.Fills (m.writer.fresh high) (m.start high) (m.filled high) x := by
  rcases allot_eq large small ready with ⟨allot, least, most⟩
  by_cases busy : (m.writer.queue high).writing = true
  · exact .inr (Filling.fills_busy (m.writer.fresh high) (s := m.start high) tidy busy (by omega)
      (by omega) rfl _)
  · have idle := Bool.eq_false_iff.mpr busy
    exact Filling.fills_idle (s := m.start high) tidy idle (by omega) rfl rfl (ready.2 idle)

def written (c : Crypto) (high : Bool) (s : Filling) (x : Portion) (m : Muxing) : Muxing where
  writer := { m.writer.setQueue high s.left with m_sequenceId := s.m_sequenceId }
  coder := (RLPXFrameCoder.writeNumbered c (x.numbers m.writer.m_protocolId) x.payload m.coder).1
  frameLen :=
    m.frameLen -
      (RLPXFrameCoder.writeNumbered c (x.numbers m.writer.m_protocolId) x.payload m.coder).2.length
  swapQueues := true
  ret := s.ret
  o_toWrite := m.o_toWrite ++
    [(RLPXFrameCoder.writeNumbered c (x.numbers m.writer.m_protocolId) x.payload m.coder).2]
  faults := m.faults

theorem length_writeNumbered (c : Crypto) (numbers : List Nat) (payload : Bytes)
    (coder : RLPXFrameCoder) :
    (RLPXFrameCoder.writeNumbered c numbers payload coder).2.length =
      48 + (payload.length + RLPXFrameCoder.paddingOf payload.length) := by
  simp only [RLPXFrameCoder.writeNumbered, RLPXFrameCoder.writeFrame, List.length_append,
    RLPXFrameCoder.length_writeHeader, RLPXFrameCoder.length_writePayload]
  omega

theorem flush_written (c : Crypto) {s : Filling} {x : Portion} (payload : s.payload = x.payload)
    (numbers : m.numbers s = x.numbers m.writer.m_protocolId) (faults : s.faults = m.faults)
    (inside : (RLPXFrameCoder.writeNumbered c (x.numbers m.writer.m_protocolId) x.payload
      m.coder).2.length ≤ m.frameLen) (small : m.frameLen < 2 ^ 64) :
      m.flush c high s = m.written c high s x := by
  simp only [flush, put, written, Filling.left, payload, numbers, faults, asserts_eq inside,
    wraps_eq inside, minus_eq small inside, List.append_nil]

theorem flush_eq (c : Crypto) {x : Portion} (large : 64 ≤ m.frameLen) (small : m.frameLen < 2 ^ 32)
    (blocks : m.frameLen % 16 = 0) (ready : m.Ready high)
    (fills : Filling.Fills (m.writer.fresh high) (m.start high) (m.filled high) x) :
    m.flush c high (m.filled high) = m.written c high (m.filled high) x ∧
      (m.written c high (m.filled high) x).frameLen + 48 ≤ m.frameLen ∧
      (m.written c high (m.filled high) x).frameLen % 16 = 0 ∧ x.payload.length < 2 ^ 32 := by
  rcases allot_eq large small ready with ⟨allot, least, most⟩
  have short := fills.short
  have faults := fills.faults.trans (room_bounds large small ready).2.2
  have length := length_writeNumbered c (x.numbers m.writer.m_protocolId) x.payload m.coder
  have fits : x.payload.length + RLPXFrameCoder.paddingOf x.payload.length + 48 ≤ m.frameLen := by
    rw [RLPXFrameCoder.paddingOf]
    omega
  have whole : (x.payload.length + RLPXFrameCoder.paddingOf x.payload.length) % 16 = 0 := by
    rw [RLPXFrameCoder.paddingOf]
    omega
  have inside : (RLPXFrameCoder.writeNumbered c (x.numbers m.writer.m_protocolId) x.payload
    m.coder).2.length ≤
      m.frameLen := by omega
  refine ⟨?_, ?_, ?_, by omega⟩
  · exact flush_written c fills.payload (fills.numbers m) faults inside
      (Nat.lt_trans small (by decide))
  · show m.frameLen - _ + 48 ≤ m.frameLen
    omega
  · show (m.frameLen - _) % 16 = 0
    omega

end Muxing

end UtispaceChain.P2p
