import UtispaceChain.Lib.BigEndian
import UtispaceChain.Lib.Framing

/-! The messages of the channel between a node and its SDK clients, as they stand in the stream. -/

namespace UtispaceChain.Channel

open Lib

structure Message where
  length : UInt32 := 0
  type : UInt16 := 0
  seq : Bytes := []
  result : Int32 := 0
  data : Bytes := []
  deriving DecidableEq, Repr

namespace Message

def HEADER_LENGTH : Nat := 4 + 2 + 32 + 4

def MAX_LENGTH : Nat := 1024 * 1024 * 1024

/-- `htonl` and `htons` are big-endian; the length is cut to 32 bits. -/
def encode (m : Message) : Bytes :=
  toBigEndian 4 (HEADER_LENGTH + m.data.length) ++ (toBigEndian 2 m.type.toNat ++ (m.seq ++
    (toBigEndian 4 m.result.toUInt32.toNat ++ m.data)))

/-- The bytes from `&buffer[first]` up to `&buffer[last]`; `none` outside the buffer, and where the
range is reversed. -/
def range (buffer : Bytes) (first last : Nat) : Option Bytes :=
  if first ≤ last ∧ last ≤ buffer.length then some ((buffer.take last).drop first) else none

/-- The returned number is 0 for an incomplete and -1 for a malformed message. -/
def decode (buffer : Bytes) (m : Message) : Option (Int × Message) :=
  if buffer.length < HEADER_LENGTH then some (0, m)
  else (range buffer 0 4).bind fun word =>
    let m := { m with length := UInt32.ofNat (fromBigEndian word) }
    if MAX_LENGTH < m.length.toNat then some (-1, m)
    else if buffer.length < m.length.toNat then some (0, m)
    else
      (range buffer 4 6).bind fun type => (range buffer 6 38).bind fun seq =>
        (range buffer 38 42).bind fun result =>
        -- the end of the data is reckoned from the length before the header is taken off
        (range buffer HEADER_LENGTH m.length.toNat).map fun data =>
          ((m.length.toNat : Int), { m with
            type := UInt16.ofNat (fromBigEndian type), seq
            result := ⟨UInt32.ofNat (fromBigEndian result)⟩, data })

end Message

/-- What `onRead` did last: it asked for more, it disconnected, or what it did is not defined. -/
inductive ReadStatus
  | reading
  | disconnected
  | undefined
  deriving DecidableEq, Repr

/-- The part of a session that `onRead` works on, and the messages given to `onMessage`. -/
structure ReadState where
  recvProtocolBuffer : Bytes := []
  delivered : List Message := []
  status : ReadStatus := .reading
  deriving DecidableEq, Repr

namespace ReadState

/-- The loop of `onRead`; each round but the last takes something off the buffer. -/
def loop : Nat → ReadState → ReadState
  | 0, s => s
  | fuel + 1, s =>
      match Message.decode s.recvProtocolBuffer {} with
      | none => { s with status := .undefined }
      | some (result, message) =>
          if 0 < result then
            loop fuel { s with
              delivered := s.delivered ++ [message]
              recvProtocolBuffer := s.recvProtocolBuffer.drop result.toNat }
          else if result = 0 then { s with status := .reading }
          else { s with status := .disconnected }

/-- `onRead` without an error, with the bytes that were read. -/
def onRead (bytes : Bytes) (s : ReadState) : ReadState :=
  let s := { s with recvProtocolBuffer := s.recvProtocolBuffer ++ bytes }
  s.loop (s.recvProtocolBuffer.length + 1)

/-- The reads of a session; there is no further one unless the last asked for it. -/
def reads (pieces : List Bytes) : ReadState :=
  pieces.foldl (fun s bytes => if s.status = .reading then s.onRead bytes else s) {}

end ReadState

namespace Message

variable {buffer : Bytes} {m : Message}

def lengthField (buffer : Bytes) : Nat := fromBigEndian (buffer.take 4)

theorem lengthField_lt (buffer : Bytes) : lengthField buffer < 2 ^ 32 := by
  have bound := fromBigEndian_lt (buffer.take 4)
  have short : (buffer.take 4).length ≤ 4 := List.length_take_le 4 buffer
  exact Nat.lt_of_lt_of_le bound (Nat.pow_le_pow_right (by decide) short)

/-- The message whose encoding stands at the front of a buffer. -/
def parsed (buffer : Bytes) : Message where
  length := UInt32.ofNat (lengthField buffer)
  type := UInt16.ofNat (fromBigEndian ((buffer.take 6).drop 4))
  seq := (buffer.take 38).drop 6
  result := ⟨UInt32.ofNat (fromBigEndian ((buffer.take 42).drop 38))⟩
  data := (buffer.take (lengthField buffer)).drop HEADER_LENGTH

theorem range_some {first last : Nat} (ordered : first ≤ last) (within : last ≤ buffer.length) :
    range buffer first last = some ((buffer.take last).drop first) := if_pos ⟨ordered, within⟩

theorem decode_eq (buffer : Bytes) (m : Message) : decode buffer m =
    if buffer.length < HEADER_LENGTH then some (0, m)
    else if MAX_LENGTH < lengthField buffer then
      some (-1, { m with length := UInt32.ofNat (lengthField buffer) })
    else if buffer.length < lengthField buffer then
      some (0, { m with length := UInt32.ofNat (lengthField buffer) })
    else if lengthField buffer < HEADER_LENGTH then none
    else some ((lengthField buffer : Int), parsed buffer) := by
  unfold decode
  by_cases short : buffer.length < HEADER_LENGTH
  · rw [if_pos short, if_pos short]
  · have header : 42 ≤ buffer.length := Nat.le_of_not_lt short
    have field : (UInt32.ofNat (lengthField buffer)).toNat = lengthField buffer :=
      UInt32.toNat_ofNat_of_lt' (lengthField_lt buffer)
    have value : fromBigEndian (buffer.take 4) = lengthField buffer := rfl
    rw [if_neg short, if_neg short, range_some (by omega) (by omega),
      range_some (by omega) (by omega), range_some (by omega) (by omega),
      range_some (by omega) (by omega)]
    simp only [Option.bind_some, List.drop_zero, value, field]
    split_ifs with _ long shortest
    · rfl
    · rfl
    · rw [range, if_neg fun inside => Nat.not_lt.mpr inside.1 shortest]
      rfl
    · rw [range_some (Nat.le_of_not_lt shortest) (Nat.le_of_not_lt long)]
      rfl

theorem decode_eq_none (buffer : Bytes) (m : Message) :
    decode buffer m = none ↔ HEADER_LENGTH ≤ buffer.length ∧
    lengthField buffer < HEADER_LENGTH := by
  have header : HEADER_LENGTH = 42 := rfl
  have largest : MAX_LENGTH = 1073741824 := rfl
  rw [decode_eq]
  split_ifs with short long partial_ shortest
  · simp [Nat.not_le.mpr short]
  · simp only [false_iff, not_and]
    omega
  · simp only [false_iff, not_and]
    omega
  · simp [Nat.le_of_not_lt short, shortest]
  · simp [shortest]

end Message

inductive StreamFault
  | malformed
  | undefined
  deriving DecidableEq, Repr

def verdict (buffer : Bytes) : Verdict StreamFault Message :=
  match Message.decode buffer {} with
  | none => .fault .undefined
  | some (result, message) =>
      if 0 < result then .accept result.toNat message else if result = 0 then .wait
        else .fault .malformed

open Message

theorem verdict_eq (buffer : Bytes) : verdict buffer =
    if buffer.length < HEADER_LENGTH then .wait
    else if MAX_LENGTH < lengthField buffer then .fault .malformed
    else if buffer.length < lengthField buffer then .wait
    else if lengthField buffer < HEADER_LENGTH then .fault .undefined
    else .accept (lengthField buffer) (parsed buffer) := by
  have header : HEADER_LENGTH = 42 := rfl
  unfold verdict
  rw [decode_eq]
  split_ifs with short long partial_ shortest
  · simp
  · simp
  · simp
  · rfl
  · have positive : (0 : Int) < lengthField buffer := by omega
    simp only [if_pos positive, Int.toNat_natCast]

theorem lengthField_append {buffer : Bytes} (header : HEADER_LENGTH ≤ buffer.length)
    (more : Bytes) :
    lengthField (buffer ++ more) = lengthField buffer := by
  have inside : 4 ≤ buffer.length := Nat.le_trans (by decide) header
  rw [lengthField, List.take_append_of_le_length inside, lengthField]

theorem parsed_append {buffer : Bytes} (header : HEADER_LENGTH ≤ buffer.length)
    (whole : lengthField buffer ≤ buffer.length) (more : Bytes) :
    parsed (buffer ++ more) = parsed buffer := by
  have inside : 42 ≤ buffer.length := header
  unfold parsed
  rw [lengthField_append header, List.take_append_of_le_length whole,
    List.take_append_of_le_length (by omega), List.take_append_of_le_length (by omega),
    List.take_append_of_le_length (by omega)]

def framing : Framing UInt8 StreamFault Message where
  judge := verdict
  consumes := by
    intro buffer size message accepted
    rw [verdict_eq] at accepted
    split_ifs at accepted with short long partial_ shortest
    cases accepted
    exact ⟨Nat.lt_of_lt_of_le (by decide) (Nat.le_of_not_lt shortest), Nat.le_of_not_lt partial_⟩
  accepts_more := by
    intro buffer size message accepted more
    rw [verdict_eq] at accepted ⊢
    split_ifs at accepted with short long partial_ shortest
    cases accepted
    have header := Nat.le_of_not_lt short
    have whole := Nat.le_of_not_lt partial_
    rw [lengthField_append header, parsed_append header whole, List.length_append,
      if_neg (by omega), if_neg long, if_neg (by omega), if_neg shortest]
  faults_more := by
    intro buffer f faulty more
    rw [verdict_eq] at faulty ⊢
    split_ifs at faulty with short long partial_ shortest
    · rw [lengthField_append (Nat.le_of_not_lt short), List.length_append, if_neg (by omega),
        if_pos long]
      exact faulty
    · rw [lengthField_append (Nat.le_of_not_lt short), List.length_append, if_neg (by omega),
        if_neg long, if_neg (by omega), if_pos shortest]
      exact faulty

/-! The loop of `onRead` is the reading of the buffer -/

namespace ReadState

/-- What `onRead` does at the end of a reading. -/
def statusOf : Option StreamFault → ReadStatus
  | none => .reading
  | some .malformed => .disconnected
  | some .undefined => .undefined

theorem loop_succ (s : ReadState) (fuel : Nat) : s.loop (fuel + 1) =
    match verdict s.recvProtocolBuffer with
    | .wait => { s with status := .reading }
    | .fault f => { s with status := statusOf (some f) }
    | .accept size message => loop fuel { s with
        delivered := s.delivered ++ [message]
        recvProtocolBuffer := s.recvProtocolBuffer.drop size } := by
  rw [loop, verdict]
  cases Message.decode s.recvProtocolBuffer {} with
  | none => rfl
  | some decoded =>
      rcases decoded with ⟨result, message⟩
      simp only
      split_ifs <;> rfl

theorem loop_reads {buffer : Bytes} {messages : List Message} {rest : Bytes}
    {f : Option StreamFault} (whole : Framing.Reads framing buffer messages rest f) (s : ReadState)
    (here : s.recvProtocolBuffer = buffer) (fuel : Nat) (enough : buffer.length < fuel) :
    s.loop fuel = { recvProtocolBuffer := rest, delivered := s.delivered ++
          messages, status := statusOf f } := by
  induction whole generalizing s fuel with
  | wait judged =>
      rcases Nat.exists_eq_add_one_of_ne_zero (Nat.ne_of_gt (Nat.zero_lt_of_lt enough)) with
        ⟨fuel, rfl⟩
      rw [loop_succ, here, show verdict _ = _ from judged]
      simp [statusOf, ← here]
  | fault judged =>
      rcases Nat.exists_eq_add_one_of_ne_zero (Nat.ne_of_gt (Nat.zero_lt_of_lt enough)) with
        ⟨fuel, rfl⟩
      rw [loop_succ, here, show verdict _ = _ from judged]
      simp [← here]
  | accept judged _ ih =>
      rcases Nat.exists_eq_add_one_of_ne_zero (Nat.ne_of_gt (Nat.zero_lt_of_lt enough)) with
        ⟨fuel, rfl⟩
      have less := framing.consumes judged
      rw [loop_succ, here, show verdict _ = _ from judged]
      simp only
      rw [ih _ rfl fuel (by rw [List.length_drop]; omega)]
      simp

theorem reads_spec (pieces : List Bytes) :
    ∃ messages rest f, Framing.Reads framing pieces.flatten messages rest f ∧
    (reads pieces).delivered = messages ∧ (reads pieces).status = statusOf f ∧
    (f = none → (reads pieces).recvProtocolBuffer = rest) := by
  induction pieces using List.reverseRecOn with
  | nil => exact ⟨[], [], none, .wait rfl, rfl, rfl, fun _ => rfl⟩
  | append_singleton pieces bytes ih =>
      rcases ih with ⟨messages, rest, f, whole, delivered, status, buffer⟩
      have last : reads (pieces ++ [bytes]) =
          if (reads pieces).status = .reading then (reads pieces).onRead bytes
            else reads pieces := by
        rw [reads, List.foldl_append]
        rfl
      rw [List.flatten_append, List.flatten_singleton]
      cases f with
      | none =>
          rcases framing.exists_reads (rest ++ bytes) with ⟨messages', rest', f', later⟩
          have reading : (reads pieces).status = .reading := status
          have after :=
            loop_reads later
              { reads pieces with recvProtocolBuffer := (reads pieces).recvProtocolBuffer ++ bytes }
            (by rw [buffer rfl]) ((rest ++ bytes).length + 1) (Nat.lt_succ_self _)
          have read : reads (pieces ++ [bytes]) =
              { recvProtocolBuffer := rest', delivered := messages ++ messages',
                status := statusOf f' } := by
            rw [last, if_pos reading, onRead, buffer rfl, ← delivered]
            rw [buffer rfl] at after
            exact after
          refine ⟨messages ++ messages', rest', f', whole.append later, ?_⟩
          rw [read]
          exact ⟨rfl, rfl, fun _ => rfl⟩
      | some fault =>
          have stopped : (reads pieces).status ≠ .reading := by
            rw [status]
            cases fault <;> decide
          rw [last, if_neg stopped]
          exact ⟨messages, _, some fault, whole.append_fault bytes, delivered, status, by simp⟩

end ReadState

/-! Messages sent are the messages delivered -/

namespace Message

def measured (m : Message) : Message :=
  { m with length := UInt32.ofNat (HEADER_LENGTH + m.data.length) }

/-- A sequence number of 32 bytes, and data within the limit. -/
structure Sendable (m : Message) : Prop where
  seq : m.seq.length = 32
  data : HEADER_LENGTH + m.data.length ≤ MAX_LENGTH

theorem slice_append {front field back : Bytes} {first last : Nat} (start : front.length = first)
    (stop : first + field.length = last) :
    ((front ++ (field ++ back)).take last).drop first = field := by
  rw [List.drop_take, ← start, List.drop_left, ← stop, start, Nat.add_sub_cancel_left,
    List.take_left]

variable {m : Message}

theorem length_encode (sendable : m.Sendable) :
    m.encode.length = HEADER_LENGTH + m.data.length := by
  simp only [encode, List.length_append, toBigEndian_length, sendable.seq, HEADER_LENGTH]
  omega

theorem Sendable.small (sendable : m.Sendable) : HEADER_LENGTH + m.data.length < 2 ^ 32 :=
  Nat.lt_of_le_of_lt sendable.data (by decide)

theorem lengthField_encode (sendable : m.Sendable) :
    lengthField m.encode = HEADER_LENGTH + m.data.length := by
  rw [lengthField, encode, List.take_left' (toBigEndian_length _ _)]
  exact fromBigEndian_toBigEndian 4 _ sendable.small

theorem parsed_encode (sendable : m.Sendable) : parsed m.encode = m.measured := by
  have type : (m.encode.take 6).drop 4 = toBigEndian 2 m.type.toNat :=
    slice_append (toBigEndian_length _ _) (by rw [toBigEndian_length])
  have seq : (m.encode.take 38).drop 6 = m.seq := by
    rw [encode, ← List.append_assoc]
    exact slice_append (by simp) (by rw [sendable.seq])
  have result : (m.encode.take 42).drop 38 = toBigEndian 4 m.result.toUInt32.toNat := by
    rw [encode, ← List.append_assoc, ← List.append_assoc]
    exact slice_append (by simp [sendable.seq]) (by rw [toBigEndian_length])
  have data : (m.encode.take (lengthField m.encode)).drop HEADER_LENGTH = m.data := by
    rw [lengthField_encode sendable, ← length_encode sendable, List.take_length, encode,
      ← List.append_assoc, ← List.append_assoc, ← List.append_assoc]
    exact List.drop_left' (by simp [sendable.seq, HEADER_LENGTH])
  have typed : UInt16.ofNat (fromBigEndian (toBigEndian 2 m.type.toNat)) = m.type := by
    rw [fromBigEndian_toBigEndian 2 _ m.type.toNat_lt, UInt16.ofNat_toNat]
  have resulted : (⟨UInt32.ofNat (fromBigEndian (toBigEndian 4 m.result.toUInt32.toNat))⟩ : Int32) =
      m.result := by
    rw [fromBigEndian_toBigEndian 4 _ m.result.toUInt32.toNat_lt, UInt32.ofNat_toNat]
  rw [parsed, type, seq, result, data, typed, resulted, lengthField_encode sendable, measured]

theorem verdict_encode (sendable : m.Sendable) :
    verdict m.encode = .accept m.encode.length m.measured := by
  have header : HEADER_LENGTH = 42 := rfl
  have small := sendable.data
  rw [verdict_eq, lengthField_encode sendable, length_encode sendable, parsed_encode sendable,
    if_neg (by omega), if_neg (by omega), if_neg (by omega), if_neg (by omega)]

end Message

theorem messages_delivered {messages : List Message} (sendable : ∀ m ∈ messages, m.Sendable)
    {pieces : List Bytes} (stream : pieces.flatten = (messages.map encode).flatten) :
    ReadState.reads pieces =
      { recvProtocolBuffer := [], delivered := messages.map measured, status := .reading } := by
  have whole := Framing.reads_pieces framing (messages.map fun m => (m.encode, m.measured))
    (by
      intro piece member
      rcases List.mem_map.mp member with ⟨m, sent, rfl⟩
      exact verdict_encode (sendable m sent)) rfl
  rw [List.map_map, List.map_map, show (messages.map (Prod.fst ∘ fun m => (m.encode, m.measured))) =
    messages.map encode from rfl, ← stream] at whole
  rcases ReadState.reads_spec pieces with ⟨read, rest, f, reads, delivered, status, buffer⟩
  rcases reads.unique whole with ⟨rfl, rfl, rfl⟩
  rw [ReadState.statusOf] at status
  have left := buffer rfl
  generalize ReadState.reads pieces = s at *
  cases s
  subst delivered status left
  rfl

/-! Any stream at all -/

/-- What is left of a stream after some complete messages, by the length fields alone. -/
inductive Remainder (stream : Bytes) : Bytes → Prop
  | all : Remainder stream stream
  | next {rest : Bytes} : Remainder stream rest → HEADER_LENGTH ≤ lengthField rest →
      lengthField rest ≤ MAX_LENGTH →
      lengthField rest ≤ rest.length → Remainder stream (rest.drop (lengthField rest))

def NeverShort (stream : Bytes) : Prop :=
  ∀ rest, Remainder stream rest → HEADER_LENGTH ≤ rest.length → HEADER_LENGTH ≤ lengthField rest

/-- All that `onRead` does is defined, and where the next complete header has a length that is out
of bounds the session is disconnected. -/
structure RejectsBadLengths (pieces : List Bytes) : Prop where
  defined : (ReadState.reads pieces).status ≠ .undefined
  rejected : HEADER_LENGTH ≤ (ReadState.reads pieces).recvProtocolBuffer.length →
    lengthField (ReadState.reads pieces).recvProtocolBuffer < HEADER_LENGTH ∨
      MAX_LENGTH < lengthField (ReadState.reads pieces).recvProtocolBuffer →
    (ReadState.reads pieces).status = .disconnected

theorem remainder_iff (stream rest : Bytes) : Remainder stream rest ↔
    Framing.Left framing stream rest := by
  have accepted : ∀ (rest : Bytes) (size : Nat) (m : Message), framing.judge rest = .accept size m ↔
      HEADER_LENGTH ≤ lengthField rest ∧ lengthField rest ≤ MAX_LENGTH ∧
      lengthField rest ≤ rest.length ∧
        size = lengthField rest ∧ m = parsed rest := by
    intro rest size m
    rw [show framing.judge rest = verdict rest from rfl, verdict_eq]
    split_ifs with short long partial_ shortest
    · simp only [false_iff]
      omega
    · simp only [false_iff]
      omega
    · simp only [false_iff]
      omega
    · simp only [false_iff]
      omega
    · simp only [Verdict.accept.injEq]
      constructor
      · rintro ⟨rfl, rfl⟩
        exact ⟨by omega, by omega, by omega, rfl, rfl⟩
      · rintro ⟨_, _, _, rfl, rfl⟩
        exact ⟨rfl, rfl⟩
  constructor
  · intro remainder
    induction remainder with
    | all => exact .all
    | next _ low high whole ih => exact ih.next ((accepted _ _ _).mpr ⟨low, high, whole, rfl, rfl⟩)
  · intro left
    induction left with
    | all => exact .all
    | next _ judged ih =>
        rcases (accepted _ _ _).mp judged with ⟨low, high, whole, rfl, _⟩
        exact ih.next low high whole

/-- Messages are delivered as they were sent. Any other stream is read or rejected just when it
comes to no complete header with a length shorter than itself; each message takes at least a header
off it. -/
theorem channel_framing (pieces : List Bytes) :
    (∀ messages : List Message, (∀ m ∈ messages, m.Sendable) →
      pieces.flatten = (messages.map encode).flatten →
      ReadState.reads pieces =
        { recvProtocolBuffer := [], delivered := messages.map measured, status := .reading }) ∧
    (∀ buffer : Bytes, ∀ m : Message, decode buffer m = none ↔
      HEADER_LENGTH ≤ buffer.length ∧ lengthField buffer < HEADER_LENGTH) ∧
    (∀ buffer : Bytes, ∀ result m, decode buffer {} = some (result, m) → 0 < result →
      (HEADER_LENGTH : Int) ≤ result ∧ result ≤ buffer.length) ∧
    (RejectsBadLengths pieces ↔ NeverShort pieces.flatten) := by
  refine ⟨fun messages sendable stream => messages_delivered sendable stream,
    decode_eq_none, ?_, ?_⟩
  · intro buffer result m decoded positive
    rw [decode_eq] at decoded
    split_ifs at decoded <;> cases decoded <;> omega
  · rcases ReadState.reads_spec pieces with ⟨messages, rest, f, whole, delivered, status, buffer⟩
    constructor
    · intro sound remainder left header
      by_contra short
      have faulty : framing.judge remainder = .fault .undefined := by
        have largest : MAX_LENGTH = 1073741824 := rfl
        have small : HEADER_LENGTH = 42 := rfl
        rw [show framing.judge remainder = verdict remainder from rfl, verdict_eq,
          if_neg (by omega), if_neg (by omega), if_neg (by omega), if_pos (by omega)]
      rcases ((remainder_iff _ _).mp left).reads (.fault faulty) with ⟨before, reads⟩
      rcases whole.unique reads with ⟨_, _, rfl⟩
      exact sound.defined status
    · intro never
      have ends := whole.judge_rest
      rw [show framing.judge rest = verdict rest from rfl, verdict_eq] at ends
      have defined : f ≠ some .undefined := by
        rintro rfl
        have enough := never rest ((remainder_iff _ _).mpr whole.left)
        simp only [Option.elim_some] at ends
        split_ifs at ends
        · cases ends
        · omega
      constructor
      · rw [status]
        rcases f with _ | _ | _
        · decide
        · decide
        · exact absurd rfl defined
      · intro header bad
        rw [status]
        rcases f with _ | _ | _
        · rw [buffer rfl] at header bad
          have enough := never rest ((remainder_iff _ _).mpr whole.left) header
          rw [if_neg (Nat.not_lt.mpr header), if_pos (bad.resolve_left (Nat.not_lt.mpr enough))]
            at ends
          cases ends
        · rfl
        · exact absurd rfl defined

def toyMessages : List Message :=
  [{ type := 0x30, seq := List.replicate 32 7, data := [1, 2] },
    { type := 0x31, seq := List.replicate 32 8, result := -1 }]

def toyPieces : List Bytes :=
  [((toyMessages.map encode).flatten).take 50, [], ((toyMessages.map encode).flatten).drop 50]

/-- Two messages in three reads, and the first of them decoded. -/
theorem channel_framing_toy :
    ReadState.reads toyPieces =
      { recvProtocolBuffer := [], delivered := toyMessages.map measured, status := .reading } ∧
    ∃ result m, decode toyPieces.flatten {} = some (result, m) ∧ 0 < result ∧
      (HEADER_LENGTH : Int) ≤ result ∧ result ≤ toyPieces.flatten.length := by
  rcases channel_framing toyPieces with ⟨delivered, -, taken, -⟩
  refine ⟨delivered toyMessages ?_ (by decide +kernel), 44, _, rfl, by decide,
    taken toyPieces.flatten 44 _ rfl (by decide)⟩
  simp only [toyMessages, List.forall_mem_cons]
  exact ⟨⟨rfl, by decide⟩, ⟨rfl, by decide⟩, fun m none => absurd none List.not_mem_nil⟩

def shortHeader : Bytes := toBigEndian 4 1 ++ List.replicate 38 0

/-- What is done with it is not defined. -/
theorem short_header_undefined :
    ¬ ((∀ buffer : Bytes, ∀ m : Message, (decode buffer m).isSome = true) ∧
    ∀ pieces : List Bytes, RejectsBadLengths pieces) := by
  rintro ⟨_, streams⟩
  exact (streams [shortHeader]).defined (by decide +kernel)

end UtispaceChain.Channel
