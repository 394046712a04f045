import UtispaceChain.ChannelServer.ChannelMessage

/-! Requests that a session sends with a callback, their replies and their timers. -/

namespace UtispaceChain.Channel

structure ChannelException where
  errorCode : Int := 0
  msg : String := ""
  deriving DecidableEq, Repr

/-- The callback and the timer are pointers, each `none` where the source leaves it empty. -/
structure ResponseCallback where
  seq : Bytes := []
  callback : Option Nat := none
  timeoutHandler : Option Nat := none
  deriving DecidableEq, Repr

/-- An `async_wait` that has not ended, bound to `onTimeout` with this number. -/
structure Wait where
  timer : Nat
  seq : Bytes
  deriving DecidableEq, Repr

/-- What a handler does besides changing the session; `missingTimer` is the use of an empty timer
pointer. -/
inductive Effect
  | written (buffer : Bytes)
  | invoked (seq : Bytes) (callback : Nat) (e : ChannelException) (reply : Option Message)
  | handled (message : Message)
  | missingTimer
  deriving DecidableEq, Repr

/-- The part of a session that requests and replies work on. The waits that have been cancelled
still have their handler to run; `timers` counts the timers made so far. -/
structure ChannelSession where
  actived : Bool := true
  messageHandler : Bool := true
  responseCallbacks : List (Bytes × ResponseCallback) := []
  waits : List Wait := []
  cancelled : List Bytes := []
  timers : Nat := 0
  deriving DecidableEq, Repr

namespace ChannelSession

variable {s : ChannelSession}

def find (s : ChannelSession) (seq : Bytes) : Option ResponseCallback :=
  (s.responseCallbacks.find? fun entry => entry.1 = seq).map Prod.snd

def erase (s : ChannelSession) (seq : Bytes) : ChannelSession :=
  { s with responseCallbacks := s.responseCallbacks.filter fun entry => entry.1 ≠ seq }

def Owned (s : ChannelSession) (timer : Nat) : Prop :=
  ∃ entry ∈ s.responseCallbacks, entry.2.timeoutHandler = some timer

instance (s : ChannelSession) (timer : Nat) : Decidable (s.Owned timer) :=
  inferInstanceAs (Decidable (∃ entry ∈ s.responseCallbacks, entry.2.timeoutHandler = some timer))

/-- Cancels the waits of some timers; their handlers are run with `operation_aborted`. -/
def cancel (s : ChannelSession) (gone : Nat → Bool) : ChannelSession :=
  { s with
    waits := s.waits.filter fun wait => !gone wait.timer
    cancelled := s.cancelled ++ (s.waits.filter fun wait => gone wait.timer).map Wait.seq }

/-- A handler's own pointers are gone at its end, and a timer is destroyed with the last pointer to
it. -/
def release (s : ChannelSession) : ChannelSession := s.cancel fun timer => !decide (s.Owned timer)

/-- What is called in the place of a callback, if there is one. -/
def invoke (seq : Bytes) (callback : Option Nat) (e : ChannelException) (reply : Option Message) :
    List Effect :=
  (callback.map fun callback => Effect.invoked seq callback e reply).toList

def asyncSendMessage (request : Message) (callback : Option Nat) (timeout : UInt32)
    (s : ChannelSession) :
    ChannelSession × List Effect :=
  if !s.actived then (s, invoke request.seq callback ⟨-3, "session已失效"⟩ none)
  else
    -- the record of the callback is a local of the source, and nothing there puts it into
    -- `_responseCallbacks`
    let s := if callback.isSome ∧ 0 < timeout then
        { s with waits := s.waits ++ [⟨s.timers, request.seq⟩], timers := s.timers + 1 }
      else s
    (s.release, [.written request.encode])

def onMessage (e : ChannelException) (message : Message) (s : ChannelSession) :
    ChannelSession × List Effect :=
  match s.find message.seq with
  | some entry =>
      match entry.timeoutHandler with
      | none => (s, [.missingTimer])
      | some timer =>
          let s := s.cancel fun other => other = timer
          ((s.erase message.seq).release, invoke entry.seq entry.callback e (some message))
  | none => (s, if s.messageHandler then [.handled message] else [])

def onTimeout (_error : Bool) (seq : Bytes) (s : ChannelSession) : ChannelSession × List Effect :=
  match s.find seq with
  | some entry => ((s.erase seq).release, invoke entry.seq entry.callback ⟨-2, "回包超时"⟩ none)
  | none => (s, [])

end ChannelSession

/-- What happens to a session: a request is sent, a message comes in, the timeout of a request
passes, and the handler of a cancelled wait is run. -/
inductive SessionEvent
  | asyncSendMessage (request : Message) (callback : Option Nat) (timeout : UInt32)
  | message (message : Message)
  | expiry (seq : Bytes)
  | cancellation (index : Nat)
  deriving DecidableEq, Repr

namespace ChannelSession

def step (s : ChannelSession) : SessionEvent → ChannelSession × List Effect
  | .asyncSendMessage request callback timeout => s.asyncSendMessage request callback timeout
  | .message message => s.onMessage {} message
  | .expiry seq =>
      match s.waits.find? fun wait => wait.seq = seq with
      | some wait => { s with waits := s.waits.erase wait }.onTimeout false seq
      | none => (s, [])
  | .cancellation index =>
      match s.cancelled[index]? with
      | some seq => { s with cancelled := s.cancelled.eraseIdx index }.onTimeout true seq
      | none => (s, [])

def run (events : List SessionEvent) : ChannelSession × List Effect :=
  events.foldl (fun sofar event => ((sofar.1.step event).1, sofar.2 ++ (sofar.1.step event).2))
    ({}, [])

theorem run_snoc (events : List SessionEvent) (event : SessionEvent) : run (events ++ [event]) =
    (((run events).1.step event).1, (run events).2 ++ ((run events).1.step event).2) := by
  rw [run, List.foldl_append]
  rfl

/-- What `sendMessage` returns once its callback was called, an empty pointer for the error that it
catches itself; without a call it does not return. -/
def sendMessage (seq : Bytes) (effects : List Effect) : Option (Option Message) :=
  effects.findSome? fun
    | .invoked called _ e reply =>
        if called = seq then some (if e.errorCode ≠ 0 then none else reply) else none
    | _ => none

end ChannelSession

/-! What a session should do, by the events alone -/

/-- A request that waits for its reply: its callback, and whether there is a timeout. -/
structure Pending where
  callback : Nat
  timed : Bool
  deriving DecidableEq, Repr

def Pending.after (waiting : Bytes → Option Pending) : SessionEvent → Bytes → Option Pending
  | .asyncSendMessage request (some callback) timeout =>
      Function.update waiting request.seq (some ⟨callback, decide (0 < timeout)⟩)
  | .asyncSendMessage _ none _ | .cancellation _ => waiting
  | .message message => Function.update waiting message.seq none
  | .expiry seq => if (waiting seq).any Pending.timed then Function.update waiting seq none
      else waiting

/-- Sent with a callback, and since then neither answered nor timed out. -/
def waiting (events : List SessionEvent) : Bytes → Option Pending :=
  events.foldl Pending.after fun _ => none

def doneAt (before : List SessionEvent) (event : SessionEvent) : List Effect :=
  ((ChannelSession.run before).1.step event).2

def calls (seq : Bytes) (effects : List Effect) : List Effect :=
  effects.filter fun
    | .invoked called _ _ _ => called = seq
    | _ => false

structure FiresOnce (events : List SessionEvent) : Prop where
  once : ∀ seq, (calls seq (ChannelSession.run events).2).length ≤ 1
  replied : ∀ before message, before ++ [.message message] <+: events → ∀ pending,
    waiting before message.seq = some pending →
    .invoked message.seq pending.callback {} (some message) ∈ doneAt before (.message message)
  timedOut : ∀ before seq, before ++ [.expiry seq] <+: events → ∀ pending,
    waiting before seq = some pending → pending.timed = true →
    .invoked seq pending.callback ⟨-2, "回包超时"⟩ none ∈ doneAt before (.expiry seq)
  handled : ∀ before message, before ++ [.message message] <+: events →
    waiting before message.seq = none → .handled message ∈ doneAt before (.message message)
  timers : .missingTimer ∉ (ChannelSession.run events).2

/-- No message comes in for a request that waits, and no timeout of one passes. -/
structure NeverAnswered (events : List SessionEvent) : Prop where
  message : ∀ before message, before ++ [.message message] <+: events →
    waiting before message.seq = none
  expiry : ∀ before seq, before ++ [.expiry seq] <+: events → ∀ pending,
    waiting before seq = some pending → pending.timed = false

/-! No callback is kept -/

namespace ChannelSession

structure Forgetful (s : ChannelSession) : Prop where
  actived : s.actived = true
  messageHandler : s.messageHandler = true
  empty : s.responseCallbacks = []

/-- What such a session does is writing and handing messages to the message handler. -/
def Plain : SessionEvent → List Effect
  | .asyncSendMessage request _ _ => [.written request.encode]
  | .message message => [.handled message]
  | .expiry _ | .cancellation _ => []

variable {s : ChannelSession}

theorem Forgetful.cancel (forgetful : s.Forgetful) (gone : Nat → Bool) :
    (s.cancel gone).Forgetful :=
  ⟨forgetful.actived, forgetful.messageHandler, forgetful.empty⟩

theorem Forgetful.release (forgetful : s.Forgetful) : s.release.Forgetful := forgetful.cancel _

theorem Forgetful.find (forgetful : s.Forgetful) (seq : Bytes) : s.find seq = none := by
  rw [ChannelSession.find, forgetful.empty]
  rfl

theorem Forgetful.asyncSendMessage (forgetful : s.Forgetful) (request : Message)
    (callback : Option Nat) (timeout : UInt32) :
    (s.asyncSendMessage request callback timeout).1.Forgetful ∧
      (s.asyncSendMessage request callback timeout).2 = [.written request.encode] := by
  rw [ChannelSession.asyncSendMessage, if_neg (by rw [forgetful.actived]; decide)]
  refine ⟨Forgetful.release ?_, rfl⟩
  split_ifs
  · exact ⟨forgetful.actived, forgetful.messageHandler, forgetful.empty⟩
  · exact forgetful

theorem Forgetful.onMessage (forgetful : s.Forgetful) (e : ChannelException) (message : Message) :
    s.onMessage e message = (s, [.handled message]) := by
  rw [ChannelSession.onMessage, forgetful.find]
  simp only
  rw [if_pos forgetful.messageHandler]

theorem Forgetful.onTimeout (forgetful : s.Forgetful) (error : Bool) (seq : Bytes) :
    s.onTimeout error seq = (s, []) := by
  rw [ChannelSession.onTimeout, forgetful.find]

theorem Forgetful.step (forgetful : s.Forgetful) (event : SessionEvent) :
    (s.step event).1.Forgetful ∧ (s.step event).2 = Plain event := by
  cases event with
  | asyncSendMessage request callback timeout =>
      exact forgetful.asyncSendMessage request callback timeout
  | message message =>
      rw [ChannelSession.step, forgetful.onMessage]
      exact ⟨forgetful, rfl⟩
  | expiry seq =>
      rw [ChannelSession.step]
      cases s.waits.find? fun wait => wait.seq = seq with
      | none => exact ⟨forgetful, rfl⟩
      | some wait =>
          have ended : Forgetful { s with waits := s.waits.erase wait } :=
            ⟨forgetful.actived, forgetful.messageHandler, forgetful.empty⟩
          simp only
          rw [ended.onTimeout]
          exact ⟨ended, rfl⟩
  | cancellation index =>
      rw [ChannelSession.step]
      split
      · have ended : Forgetful { s with cancelled := s.cancelled.eraseIdx index } :=
          ⟨forgetful.actived, forgetful.messageHandler, forgetful.empty⟩
        rw [ended.onTimeout]
        exact ⟨ended, rfl⟩
      · exact ⟨forgetful, rfl⟩

theorem run_forgetful (events : List SessionEvent) :
    (run events).1.Forgetful ∧ (run events).2 = events.flatMap Plain := by
  induction events using List.reverseRecOn with
  | nil => exact ⟨⟨rfl, rfl, rfl⟩, rfl⟩
  | append_singleton events event ih =>
      rw [run_snoc, List.flatMap_append, List.flatMap_singleton, ih.2, (ih.1.step event).2]
      exact ⟨(ih.1.step event).1, rfl⟩

theorem doneAt_eq (before : List SessionEvent) (event : SessionEvent) :
    doneAt before event = Plain event :=
  ((run_forgetful before).1.step event).2

theorem plain_cases {event : SessionEvent} {effect : Effect} (done : effect ∈ Plain event) :
    (∃ buffer, effect = .written buffer) ∨ ∃ message, effect = .handled message := by
  cases event with
  | asyncSendMessage request _ _ => exact .inl ⟨request.encode, List.mem_singleton.mp done⟩
  | message message => exact .inr ⟨message, List.mem_singleton.mp done⟩
  | expiry _ => cases done
  | cancellation _ => cases done

theorem run_cases {events : List SessionEvent} {effect : Effect} (done : effect ∈ (run events).2) :
    (∃ buffer, effect = .written buffer) ∨ ∃ message, effect = .handled message := by
  rw [(run_forgetful events).2] at done
  rcases List.mem_flatMap.mp done with ⟨event, _, plain⟩
  exact plain_cases plain

theorem calls_run (seq : Bytes) (events : List SessionEvent) : calls seq (run events).2 = [] := by
  apply List.filter_eq_nil_iff.mpr
  intro effect done
  rcases run_cases done with ⟨buffer, rfl⟩ | ⟨message, rfl⟩
  · exact Bool.false_ne_true
  · exact Bool.false_ne_true

theorem sendMessage_blocks (seq : Bytes) (events : List SessionEvent) :
    sendMessage seq (run events).2 = none := by
  apply List.findSome?_eq_none_iff.mpr
  intro effect done
  rcases run_cases done with ⟨buffer, rfl⟩ | ⟨message, rfl⟩
  · rfl
  · rfl

end ChannelSession

open ChannelSession

theorem not_invoked_doneAt (before : List SessionEvent) (event : SessionEvent) (seq : Bytes)
    (callback : Nat) (e : ChannelException) (reply : Option Message) :
    .invoked seq callback e reply ∉ doneAt before event := by
  intro done
  rw [doneAt_eq] at done
  rcases plain_cases done with ⟨_, written⟩ | ⟨_, handled⟩
  · cases written
  · cases handled

/-- The callbacks fire as they should just in the runs in which none has to. -/
theorem fires_once_iff (events : List SessionEvent) : FiresOnce events ↔ NeverAnswered events := by
  constructor
  · intro fires
    constructor
    · intro before message first
      cases here : waiting before message.seq with
      | none => rfl
      | some pending =>
          exact absurd (fires.replied before message first pending here)
            (not_invoked_doneAt _ _ _ _ _ _)
    · intro before seq first pending here
      by_contra timed
      exact not_invoked_doneAt _ _ _ _ _ _
        (fires.timedOut before seq first pending here (Bool.eq_true_of_not_eq_false timed))
  · intro never
    constructor
    · intro seq
      rw [calls_run]
      exact Nat.zero_le 1
    · intro before message first pending here
      rw [never.message before message first] at here
      cases here
    · intro before seq first pending here timed
      rw [never.expiry before seq first pending here] at timed
      cases timed
    · intro before message _ _
      rw [doneAt_eq]
      exact List.mem_singleton.mpr rfl
    · intro done
      rcases run_cases done with ⟨_, written⟩ | ⟨_, handled⟩
      · cases written
      · cases handled

def askedAndAnswered : List SessionEvent :=
  [.asyncSendMessage { type := 0x30, seq := List.replicate 32 7 } (some 9) 0,
    .message { type := 0x31, seq := List.replicate 32 7 }]

/-- The reply does not reach the callback, and is handed to the message handler. -/
theorem reply_not_called_back : ¬ FiresOnce askedAndAnswered := by
  intro fires
  have waits : waiting [.asyncSendMessage { type := 0x30, seq := List.replicate 32 7 } (some 9) 0]
      (List.replicate 32 7) = some ⟨9, false⟩ := by decide
  have called :=
    fires.replied _ { type := 0x31, seq := List.replicate 32 7 } (List.prefix_refl _) _ waits
  exact absurd called (by decide)

end UtispaceChain.Channel
