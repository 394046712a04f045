import UtispaceChain.Lib.Run
import UtispaceChain.P2p.FrameRounds

/-! Packets that are queued at one end of a connection, and handed on at the other. -/

namespace UtispaceChain.P2p

open Lib

/-- Both ends, with all that was queued and all that was handed on. -/
structure Link where
  writer : RLPXFrameWriter
  egress : RLPXFrameCoder
  ingress : RLPXFrameCoder
  reader : RLPXFrameReader
  queued : Bool → List RLPXPacket := fun _ => []
  delivered : List RLPXPacket := []
  thrown : Bool := false
  faults : List Fault := []

inductive MuxCall
  | enque (p : {p : RLPXPacket // p.Sound}) (high : Bool)
  | mux (size : UInt32)

namespace Link

variable (c : Crypto)

def receive (l : Link) (frame : Bytes) : Link :=
  match l.reader.receive c frame l.ingress with
  | none => { l with thrown := true }
  | some (ingress, reader, packets) =>
      { l with ingress, reader, delivered := l.delivered ++ packets }

/-- All that was written comes to the other end, in its order. -/
def step (l : Link) : MuxCall → Link
  | .enque p high =>
      { l with writer := l.writer.enque p.val high
               queued := Function.update l.queued high (l.queued high ++ [p.val]) }
  | .mux size =>
      let m := l.writer.mux c size l.egress
      m.o_toWrite.foldl (receive c)
        { l with writer := m.writer, egress := m.coder, faults := l.faults ++ m.faults }

/-- The packets that are off the queues are handed on, each of them once and as it was, and in the
order of their queue; nothing was thrown, and nothing went wrong in `mux`. -/
def Delivers (l : Link) : Prop :=
  l.thrown = false ∧ l.faults = [] ∧ ∃ gone : Bool → List RLPXPacket,
    (∀ high, l.queued high = gone high ++ (l.writer.queue high).q) ∧
      Interleaves (fun high => (gone high).map fun p => (p.m_type, p.m_data))
        (l.delivered.map fun p => (p.m_type, p.m_data))

/-- Before a call of `mux`: no round of its outer loop comes to one of the cases that go wrong. -/
def Clear (l : Link) : MuxCall → Prop
  | .enque _ _ => True
  | .mux size => size.toNat < c_overhead + c_blockSize ∨
      Muxing.Orderly c (size.toNat / 16 * 16 +
          ((l.writer.high.q ++ l.writer.low.q).map fun p => p.m_type.length + p.m_data.length).sum +
            2)
        { writer := l.writer, coder := l.egress, frameLen := size.toNat / 16 * 16 }

instance (l : Link) (call : MuxCall) : Decidable (l.Clear c call) :=
  match call with
  | .enque _ _ => .isTrue trivial
  | .mux _ => inferInstanceAs (Decidable (_ ∨ _))

structure Sound (l : Link) : Prop where
  inStep : RLPXFrameCoder.InStep l.egress l.ingress
  tidy : ∀ high, (l.writer.queue high).Tidy
  follows : l.reader.Follows l.writer
  delivers : l.Delivers

variable {c} {l : Link}

theorem Delivers.more (delivers : l.Delivers) {l' : Link} (thrown : l'.thrown = l.thrown)
    (faults : l'.faults = l.faults) (queued : l'.queued = l.queued) (high : Bool)
    (complete : List RLPXPacket)
    (front : (l.writer.queue high).q = complete ++ (l'.writer.queue high).q)
    (others : ∀ other, other ≠ high → l'.writer.queue other = l.writer.queue other) (capId : UInt8)
    (delivered : l'.delivered = l.delivered ++ complete.map (RLPXPacket.handed capId)) :
    l'.Delivers := by
  rcases delivers with ⟨calm, clean, gone, order, interleaves⟩
  refine ⟨thrown.trans calm, faults.trans clean, Function.update gone high (gone high ++ complete),
    ?_, ?_⟩
  · intro other
    by_cases same : other = high
    · rw [same, Function.update_self, queued, order high, front, List.append_assoc]
    · rw [Function.update_of_ne same, queued, others other same, order other]
  · have parts : (fun other => (Function.update gone high (gone high ++ complete) other).map
        fun p : RLPXPacket => (p.m_type, p.m_data)) =
          Function.update (fun other => (gone other).map fun p : RLPXPacket => (p.m_type, p.m_data))
            high
            ((gone high).map (fun p => (p.m_type, p.m_data)) ++
              complete.map fun p => (p.m_type, p.m_data)) := by
      funext other
      by_cases same : other = high
      · rw [same, Function.update_self, Function.update_self, List.map_append]
      · rw [Function.update_of_ne same, Function.update_of_ne same]
    have contents : (complete.map (RLPXPacket.handed capId)).map (fun p => (p.m_type, p.m_data)) =
        complete.map fun p => (p.m_type, p.m_data) := by
      rw [List.map_map]
      rfl
    rw [delivered, List.map_append, contents, parts]
    exact interleaves.append high _

theorem receive_ends (l : Link) (writer : RLPXFrameWriter) (egress : RLPXFrameCoder)
    (frame : Bytes) :
    receive c { l with writer, egress } frame = { receive c l frame with writer, egress } := by
  rw [receive, receive]
  cases l.reader.receive c frame l.ingress <;> rfl

theorem Sound.written (sound : l.Sound) {m : Muxing} (writer : m.writer = l.writer)
    (coder : m.coder = l.egress) {high : Bool} {s : Filling} {x : Portion}
    (short : x.payload.length < 2 ^ 32) (proper : x.Proper)
    (sends : (l.writer.queue high).Sends (l.writer.fresh high) l.writer.m_sequenceId x s.left
      s.m_sequenceId) :
    ∃ frame, (m.written c high s x).o_toWrite = m.o_toWrite ++ [frame] ∧ Sound
      { receive c l frame with writer := (m.written c high s x).writer, egress :=
        (m.written c high s x).coder } := by
  refine ⟨_, rfl, ?_⟩
  have tidy := sound.tidy high
  have later (other : Bool) : (m.written c high s x).writer.queue other =
      if other = high then s.left else l.writer.queue other := by
    rw [← writer, ← RLPXFrameWriter.queue_setQueue]
    cases other <;> rfl
  rcases sound.follows.sends tidy sends proper later with ⟨known, follows⟩
  rcases RLPXFrameReader.receive_written (c := c) sound.inStep proper known short
    l.writer.m_protocolId with
    ⟨reader, inStep, received⟩
  rw [← writer, ← coder] at received inStep
  simp only [receive, received]
  refine ⟨inStep, ?_, follows, ?_⟩
  · intro other
    rw [later]
    split_ifs with same
    · exact sends.tidy tidy proper
    · exact sound.tidy other
  · have front : (l.writer.queue high).q = x.complete ++
        ((m.written c high s x).writer.queue high).q := by
      rw [later, if_pos rfl]
      exact sends.queued tidy
    refine sound.delivers.more rfl rfl rfl high x.complete front ?_ _ rfl
    intro other apart
    exact (later other).trans (if_neg apart)

/-- The frames that are written between two states of the outer loop bring the other end along. -/
def Carries (c : Crypto) (l : Link) (m m' : Muxing) : Prop :=
  ∃ frames, m'.o_toWrite = m.o_toWrite ++ frames ∧ m'.faults = m.faults ∧
    (frames.foldl (receive c) { l with writer := m'.writer, egress := m'.coder }).Sound

theorem Sound.carries (sound : l.Sound) {m : Muxing} (writer : m.writer = l.writer)
    (coder : m.coder = l.egress) :
    l.Carries c m m := by
  refine ⟨[], (List.append_nil _).symm, rfl, ?_⟩
  rw [writer, coder]
  exact sound

theorem Carries.cons {m m' m'' : Muxing} {frame : Bytes}
    (wrote : m'.o_toWrite = m.o_toWrite ++ [frame]) (faults : m'.faults = m.faults)
    (later : Carries c { receive c l frame with writer := m'.writer, egress := m'.coder } m' m'') :
    l.Carries c m m'' := by
  rcases later with ⟨frames, wrote', faults', sound⟩
  refine ⟨frame :: frames, ?_, faults'.trans faults, ?_⟩
  · rw [wrote', wrote, List.append_assoc]
    rfl
  · rw [List.foldl_cons, receive_ends]
    exact sound

theorem put_start {m : Muxing} {high : Bool} (faults : (m.start high).faults = m.faults) :
    m.put high (m.start high) = m := by
  have writer : { m.writer.setQueue high (m.writer.queue high) with m_sequenceId :=
      m.writer.m_sequenceId } = m.writer := by
    rw [RLPXFrameWriter.setQueue_queue]
  rw [Muxing.put, faults]
  show { m with writer := { m.writer.setQueue high (m.writer.queue high) with m_sequenceId :=
    m.writer.m_sequenceId } } = m
  rw [writer]

theorem Sound.rounds (fuel : Nat) {m : Muxing} (sound : l.Sound) (writer : m.writer = l.writer)
    (coder : m.coder = l.egress) (small : m.frameLen < 2 ^ 32) (blocks : m.frameLen % 16 = 0)
    (orderly : Muxing.Orderly c fuel m)
    (enough : m.frameLen + (if m.swapQueues = true then 1 else 2) ≤ fuel) :
    l.Carries c m (m.rounds c fuel) := by
  induction fuel generalizing l m with
  | zero => split_ifs at enough <;> omega
  | succ fuel ih =>
      rw [Muxing.rounds]
      by_cases little : m.frameLen < c_overhead + c_blockSize
      · rw [if_pos little]
        exact sound.carries writer coder
      rw [if_neg little]
      have large : 64 ≤ m.frameLen := Nat.le_of_not_lt little
      cases chosen : m.chosen with
      | none => exact sound.carries writer coder
      | some high =>
          rcases orderly large high chosen with ⟨ready, frame, wait⟩
          have tidy : (m.writer.queue high).Tidy := writer ▸ sound.tidy high
          simp only
          rcases Muxing.filled_cases tidy large small ready with same | ⟨x, fills⟩
          · have idle : ¬ (m.filled high).payload ≠ [] := by rw [same]; exact not_not.mpr rfl
            have put := put_start (Muxing.room_bounds large small ready).2.2
            rw [same, put] at wait
            rw [if_neg idle, same, put]
            by_cases swapped : m.swapQueues = true
            · rw [if_pos swapped]
              exact sound.carries writer coder
            · rw [if_neg swapped] at enough ⊢
              exact ih (m := { m with swapQueues := true }) sound writer coder small blocks
                (wait rfl (Bool.eq_false_iff.mpr swapped)) (by simpa using enough)
          · have full : (m.filled high).payload ≠ [] := fills.payload ▸ fills.proper.payload
            rcases Muxing.flush_eq c large small blocks ready fills with
              ⟨flush, shorter, blocks', short⟩
            rw [flush] at frame
            rw [if_pos full, flush]
            have sends := fills.sends
            rw [show (m.start high).qs = l.writer.queue high from writer ▸ rfl,
              show (m.start high).m_sequenceId = l.writer.m_sequenceId from writer ▸ rfl,
                writer] at sends
            rcases sound.written (c := c) writer coder short fills.proper sends with
              ⟨bytes, wrote, sound'⟩
            refine Carries.cons wrote rfl (ih sound' rfl rfl (by omega) blocks' (frame full) ?_)
            rw [show (m.written c high (m.filled high) x).swapQueues = true from rfl, if_pos rfl]
            split_ifs at enough <;> omega

theorem Sound.enque (sound : l.Sound) (p : {p : RLPXPacket // p.Sound}) (high : Bool) :
    (step c l (.enque p high)).Sound := by
  have later (other : Bool) : (l.writer.enque p.val high).queue other =
      if other = high then { l.writer.queue high with q := (l.writer.queue high).q ++ [p.val] }
      else l.writer.queue other := by
    rw [RLPXFrameWriter.enque, p.property.valid, Bool.not_true, if_neg Bool.false_ne_true,
      RLPXFrameWriter.queue_setQueue]
  have tidy := sound.tidy high
  refine ⟨sound.inStep, ?_, ?_, ?_⟩
  · intro other
    show ((l.writer.enque p.val high).queue other).Tidy
    rw [later]
    split_ifs with same
    · refine ⟨?_, tidy.idle, ?_⟩
      · intro packet member
        rcases List.mem_append.mp member with before | new
        · exact tidy.sound packet before
        · exact List.mem_singleton.mp new ▸ p.property
      · intro busy
        rcases tidy.busy busy with ⟨multi, packet, q, queued, due, within⟩
        refine ⟨multi, packet, q ++ [p.val], ?_, due, within⟩
        rw [queued]
        rfl
    · exact sound.tidy other
  · have owners : (fun other => ((l.writer.enque p.val high).queue other).progress
        (UInt8.ofNat l.reader.m_protocolType.toNat)) =
          fun other => (l.writer.queue other).progress
            (UInt8.ofNat l.reader.m_protocolType.toNat) := by
      funext other
      rw [later]
      split_ifs with same
      · subst same
        by_cases busy : (l.writer.queue other).writing = true
        · rcases tidy.busy busy with ⟨_, packet, q, queued, _⟩
          rw [WriterState.progress, WriterState.progress, if_pos busy, if_pos busy, queued]
          rfl
        · rw [WriterState.progress, WriterState.progress, if_neg busy, if_neg busy]
      · rfl
    show Owned (fun other => ((l.writer.enque p.val high).queue other).progress
      (UInt8.ofNat l.reader.m_protocolType.toNat))
      l.reader.m_incomplete
    rw [owners]
    exact sound.follows
  · rcases sound.delivers with ⟨calm, clean, gone, order, interleaves⟩
    refine ⟨calm, clean, gone, ?_, interleaves⟩
    intro other
    show Function.update l.queued high (l.queued high ++ [p.val]) other =
      gone other ++ ((l.writer.enque p.val high).queue other).q
    rw [later]
    by_cases same : other = high
    · rw [same, Function.update_self, if_pos rfl, order high, List.append_assoc]
    · rw [Function.update_of_ne same, if_neg same, order other]

theorem Sound.mux (sound : l.Sound) (size : UInt32) (clear : l.Clear c (.mux size)) :
    (step c l (.mux size)).Sound := by
  have carries : l.Carries c { writer := l.writer, coder := l.egress, frameLen := size.toNat / 16 *
    16 }
      (l.writer.mux c size l.egress) := by
    rw [RLPXFrameWriter.mux]
    by_cases little : size.toNat < c_overhead + c_blockSize
    · rw [if_pos little]
      exact sound.carries rfl rfl
    · rw [if_neg little]
      have bound := size.toNat_lt
      refine sound.rounds _ rfl rfl ?_ ?_ (clear.resolve_left little) ?_
      · show size.toNat / 16 * 16 < 2 ^ 32
        omega
      · exact Nat.mul_mod_left ..
      · show size.toNat / 16 * 16 + 2 ≤ _
        omega
  rcases carries with ⟨frames, wrote, faults, sound'⟩
  rw [step, wrote, faults]
  simpa using sound'

def start (protocolId protocolType : UInt16) (egress ingress : RLPXFrameCoder) : Link where
  writer := { m_protocolId := protocolId }
  egress := egress
  ingress := ingress
  reader := { m_protocolType := protocolType }

theorem sound_start (protocolId protocolType : UInt16) {egress ingress : RLPXFrameCoder}
    (inStep : RLPXFrameCoder.InStep egress ingress) :
    (start protocolId protocolType egress ingress).Sound := by
  have idle (high : Bool) : (start protocolId protocolType egress ingress).writer.queue high =
      {} := by
    cases high <;> rfl
  refine ⟨inStep, ?_, ?_, rfl, rfl, fun _ => [], ?_, interleaves_nil⟩
  · intro high
    rw [idle]
    exact ⟨by simp, fun _ => ⟨rfl, rfl⟩, fun busy => absurd busy Bool.false_ne_true⟩
  · rw [RLPXFrameReader.Follows]
    simp only [idle]
    exact owned_none
  · intro high
    rw [idle]
    rfl

/-- In every run of calls, each made where no round comes to a case that goes wrong, what is off the
queues is handed on. -/
theorem packets_delivered (c : Crypto) (protocolId protocolType : UInt16)
    (egress ingress : RLPXFrameCoder) (inStep : RLPXFrameCoder.InStep egress ingress)
    (calls : List MuxCall)
    (clear : ∀ entry ∈ trace (step c) (start protocolId protocolType egress ingress) calls,
      entry.1.Clear c entry.2) :
    (run (step c) (start protocolId protocolType egress ingress) calls).Delivers := by
  have sound := run_invariant (step c) (fun _ l => l.Sound) (Clear c)
    (start protocolId protocolType egress ingress)
    (sound_start protocolId protocolType inStep) (fun before call sound clear => by
      cases call with
      | enque p high => exact sound.enque p high
      | mux size => exact sound.mux size clear) calls clear
  exact sound.delivers

/-! A run that is clear, and one that is not -/

def toyStart : Link :=
  start 0 0 (RLPXFrameCoder.setup toyCrypto true (populate [] 32) (populate [1] 32)
    (populate [2] 32) [] [])
    (RLPXFrameCoder.setup toyCrypto false (populate [] 32) (populate [2] 32)
      (populate [1] 32) [] [])

def cutCalls : List MuxCall :=
  [.enque ⟨{ m_type := [1], m_data := Rlp.appendBytes (List.replicate 90 7) }, by decide⟩ true,
    .enque ⟨{ m_type := [2], m_data := [3] }, by decide⟩ false, .mux 128, .mux 128]

theorem packets_delivered_cut : (run (step toyCrypto) toyStart cutCalls).Delivers :=
  packets_delivered toyCrypto 0 0 _ _ (RLPXFrameCoder.setup_inStep true _ _ _ _ _) cutCalls
    (by decide +kernel)

def bareCalls : List MuxCall :=
  [.enque ⟨{ m_type := [1], m_data := [] }, by decide⟩ false,
    .enque ⟨{ m_type := [2], m_data := [3] }, by decide⟩ false, .mux 128]

/-- The type of the packet behind is taken for the data of the one without. -/
theorem bare_packet_swallows : ¬ (run (step toyCrypto) toyStart bareCalls).Delivers := by
  rintro ⟨_, _, gone, order, interleaves⟩
  have delivered : (run (step toyCrypto) toyStart bareCalls).delivered.map
    (fun p => (p.m_type, p.m_data)) =
      [([1], [2]), ([3], [])] := by decide +kernel
  have queued : ∀ high, ∀ p ∈ (run (step toyCrypto) toyStart bareCalls).queued high,
      (p.m_type, p.m_data) ≠ ([1], [2]) := by
    decide +kernel
  rw [delivered] at interleaves
  rcases interleaves.mem List.mem_cons_self with ⟨high, member⟩
  rcases List.mem_map.mp member with ⟨p, inside, same⟩
  apply queued high p _ same
  rw [order high]
  exact List.mem_append_left _ inside

end Link

end UtispaceChain.P2p
