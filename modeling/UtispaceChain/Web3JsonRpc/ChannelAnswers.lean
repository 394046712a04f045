import UtispaceChain.Web3JsonRpc.ChannelRPCServer

/-! How the channel requests of a server are answered and retried, over all that happens to it. -/

namespace UtispaceChain.ChannelRPC

open Lib
open Channel (Message)

/-- The party that an event has a request from, with the request. -/
def ChannelEvent.request (seq : Bytes) : ChannelEvent → Option (Party × Message)
  | .client session message _ =>
      if message.type = 0x30 ∧ message.seq = seq then some (.session session, message) else none
  | .node nodeID message _ =>
      if message.type = 0x30 ∧ message.seq = seq then some (.node nodeID, message) else none
  | .world .. => none

def ChannelEvent.requestSeq : ChannelEvent → Option Bytes
  | .client _ message _ | .node _ message _ =>
      if message.type = 0x30 then some message.seq else none
  | .world .. => none

structure LogEntry where
  before : ChannelRPCServer
  event : ChannelEvent
  sent : List Sent

abbrev Log := List LogEntry

def asked (log : Log) (seq : Bytes) : Option (Party × Message) :=
  log.findSome? fun entry => entry.event.request seq

def sentFor (log : Log) (seq : Bytes) : List Sent :=
  (log.flatMap LogEntry.sent).filter fun sent => sent.message.seq = seq

def toAsker (log : Log) (seq : Bytes) (sent : Sent) : Bool :=
  (asked log seq).any fun request => request.1 = sent.to_

def answers (log : Log) (seq : Bytes) : List Sent := (sentFor log seq).filter (toAsker log seq)

def forwards (log : Log) (seq : Bytes) : List Party :=
  ((sentFor log seq).filter fun sent => !toAsker log seq sent).map Sent.to_

def Failure (reply : Message) : Prop :=
  reply.type = 0x31 ∧ reply.result = REMOTE_CLIENT_PEER_UNAVAILBLE ∧
    (reply.data = [] ∨ ∃ topic, topicOf reply.data = some (some topic))

/-- The request goes to one that it was not sent to before, or who made it gets an error. -/
def Redirected (earlier : Log) (seq : Bytes) (sent : List Sent) : Prop :=
  ∃ asker original, asked earlier seq = some (asker, original) ∧
    ((∃ target, sent = [⟨target, original⟩] ∧ target ∉ forwards earlier seq) ∨
      ∃ error, sent = [⟨asker, error⟩] ∧ error.type = 0x31 ∧ error.result ≠ 0)

/-- No request is answered twice, the entry of an answered one is gone, none is sent to the same
party twice (so never again to one that failed), and the failure replies of peer servers to pending
requests have their effect. -/
structure Handled (s : ChannelRPCServer) (log : Log) : Prop where
  once : ∀ seq, (answers log seq).length ≤ 1
  gone : ∀ seq, answers log seq ≠ [] → s.seq2MessageSession seq = none
  untried : ∀ seq, (forwards log seq).Nodup
  failures : ∀ earlier entry later nodeID reply choice, log = earlier ++ entry :: later →
    entry.event = .node nodeID reply choice → Failure reply →
    (entry.before.seq2MessageSession reply.seq).isSome →
      Redirected earlier reply.seq entry.sent

namespace ChannelRPCServer

variable {s s' : ChannelRPCServer}

def run : ChannelRPCServer → Log → List ChannelEvent → Option (ChannelRPCServer × Log)
  | s, log, [] => some (s, log)
  | s, log, event :: events =>
      (s.step event).bind fun (s', sent) => run s' (log ++ [⟨s, event, sent⟩]) events

/-- A peer with the topic is drawn, and is still there when the message is sent. -/
def NodeFound (s : ChannelRPCServer) (topic : Bytes) (exclude : List NodeID) (choice : Choice) :
    Prop :=
  ∃ node, draw choice (s.nodesLeft topic exclude) = some node ∧ node ∉ choice.lost

/-- No error has to be answered and no empty pointer is used: a request finds its target, a reply
comes from the side that the request was sent to, a failure finds another target, and its body
begins with a topic. -/
def Harmless (s : ChannelRPCServer) : ChannelEvent → Prop
  | .client _ message choice =>
      message.data ≠ [] → topicOf message.data ≠ none ∧ ∀ topic, topicOf message.data =
        some (some topic) →
        (message.type = 0x30 → s.NodeFound topic [] choice) ∧
        (message.type = 0x31 → ∀ entry, s.seq2MessageSession message.seq = some entry →
          ∃ tried, entry.toSession = some tried ∧
            (message.result ≠ 0 → s.sessionsLeft topic (tried :: entry.failedSessions) ≠ []))
  | .node _ message choice =>
      (message.data = [] → Failure message → s.seq2MessageSession message.seq = none) ∧
      (message.data ≠ [] → topicOf message.data ≠ none ∧ ∀ topic, topicOf message.data =
        some (some topic) →
        (message.type = 0x30 → s.sessionsLeft topic [] ≠ []) ∧
        (message.type = 0x31 → ∀ entry, s.seq2MessageSession message.seq = some entry →
          ∃ session, entry.fromSession = some session ∧
            (message.result ≠ 0 →
              s.NodeFound topic (entry.toNodeID :: entry.failedNodeIDs) choice)))
  | .world .. => True

def HarmlessRun : ChannelRPCServer → List ChannelEvent → Prop
  | _, [] => True
  | s, event :: events => s.Harmless event ∧ ∀ s' sent, s.step event = some (s', sent) →
      HarmlessRun s' events

/-! What a harmless step does -/

inductive Outcome (s : ChannelRPCServer) : ChannelEvent → ChannelRPCServer → List Sent → Prop
  | quiet {event : ChannelEvent} {s' : ChannelRPCServer} (same : s'.seq2MessageSession =
    s.seq2MessageSession)
      (idle : ∀ nodeID reply choice, event = .node nodeID reply choice → Failure reply →
        s.seq2MessageSession reply.seq = none) : Outcome s event s' []
  | fromClient {session : Nat} {message : Message} {choice : Choice} {node : NodeID}
      (request : message.type = 0x30) :
      Outcome s (.client session message choice)
        (s.setEntry message.seq { fromSession := some session, toNodeID := node, message })
        [⟨.node node, message⟩]
  | fromNode {nodeID : NodeID} {message : Message} {choice : Choice} {session : Nat}
      (request : message.type = 0x30) :
      Outcome s (.node nodeID message choice)
        (s.setEntry message.seq { fromNodeID := nodeID, toSession := some session, message })
        [⟨.session session, message⟩]
  | nextNode {nodeID : NodeID} {message : Message} {choice : Choice} {entry : ChannelMessageSession}
      {session : Nat}
      {node : NodeID} (reply : message.type = 0x31) (found : s.seq2MessageSession message.seq =
        some entry)
      (origin : entry.fromSession = some session)
        (untried : node ∉ entry.toNodeID :: entry.failedNodeIDs) :
      Outcome s (.node nodeID message choice)
        (s.setEntry message.seq
          { entry with failedNodeIDs := entry.toNodeID :: entry.failedNodeIDs, toNodeID := node })
        [⟨.node node, entry.message⟩]
  | nextSession {session : Nat} {message : Message} {choice : Choice}
      {entry : ChannelMessageSession} {tried other : Nat}
      (reply : message.type = 0x31) (found : s.seq2MessageSession message.seq = some entry)
      (last : entry.toSession = some tried) (untried : other ∉ tried :: entry.failedSessions) :
      Outcome s (.client session message choice)
        (s.setEntry message.seq
          { entry with failedSessions := tried :: entry.failedSessions, toSession := some other })
        [⟨.session other, message⟩]
  | toSession {nodeID : NodeID} {message : Message} {choice : Choice}
      {entry : ChannelMessageSession} {session : Nat}
      {sent : List Sent} (reply : message.type = 0x31) (success : message.result = 0)
      (found : s.seq2MessageSession message.seq = some entry) (origin : entry.fromSession =
        some session)
      (only : sent = [] ∨ sent = [⟨.session session, message⟩]) :
      Outcome s (.node nodeID message choice) (s.eraseEntry message.seq) sent
  | toNode {session : Nat} {message : Message} {choice : Choice} {entry : ChannelMessageSession}
      {tried : Nat}
      (reply : message.type = 0x31) (found : s.seq2MessageSession message.seq = some entry)
      (last : entry.toSession = some tried) :
      Outcome s (.client session message choice) (s.eraseEntry message.seq)
        [⟨.node entry.fromNodeID, message⟩]

theorem sendChannelMessageToNode_found {topic : Bytes} {exclude : List NodeID} {choice : Choice}
    (message : Message) (found : s.NodeFound topic exclude choice) :
    ∃ node ∉ exclude, s.sendChannelMessageToNode topic message exclude choice =
      some (node, [⟨.node node, message⟩]) := by
  rcases found with ⟨node, drawn, there⟩
  have member : node ∈ s.nodesLeft topic exclude := List.mem_of_getElem? drawn
  rcases List.mem_filter.mp member with ⟨listed, left⟩
  have peer : node ∈ s.peers.map Prod.fst := by
    rcases List.mem_map.mp listed with ⟨peer, kept, rfl⟩
    exact List.mem_map_of_mem (List.mem_of_mem_filter kept)
  refine ⟨node, of_decide_eq_true left, ?_⟩
  rw [sendChannelMessageToNode, drawn, Option.bind_some, sendCustomMessage, if_pos ⟨peer, there⟩,
    Option.map_some]

theorem draw_some {α : Type} {from_ : List α} (choice : Choice) (some_ : from_ ≠ []) :
    ∃ a ∈ from_, draw choice from_ = some a := by
  have inside : choice.index % from_.length < from_.length :=
    Nat.mod_lt _ (List.length_pos_iff.mpr some_)
  exact ⟨_, List.getElem_mem inside, List.getElem?_eq_getElem inside⟩

theorem sendChannelMessageToSession_found {topic : Bytes} {exclude : List Nat} (message : Message)
    (choice : Choice) (left : s.sessionsLeft topic exclude ≠ []) :
    ∃ session ∉ exclude,
      s.sendChannelMessageToSession topic message exclude choice =
        some (session, [⟨.session session, message⟩]) := by
  rcases draw_some choice left with ⟨session, member, drawn⟩
  rcases List.mem_filter.mp member with ⟨listed, apart⟩
  have live : s.actived session = true := by
    have good := (List.mem_filter.mp listed).2
    simp only [Bool.and_eq_true] at good
    exact good.1.2
  refine ⟨session, of_decide_eq_true apart, ?_⟩
  rw [sendChannelMessageToSession, drawn, Option.map_some, asyncSendMessage, if_pos live]

theorem step_client {session : Nat} {message : Message} {choice : Choice}
    (fresh : message.type = 0x30 → s.seq2MessageSession message.seq = none)
    (harmless : s.Harmless (.client session message choice)) :
    ∃ s' sent, s.step (.client session message choice) = some (s', sent) ∧
      Outcome s (.client session message choice) s' sent := by
  have quiet : Outcome s (.client session message choice) s [] :=
    .quiet rfl fun _ _ _ other => by cases other
  rw [step, onClientChannelRequest]
  by_cases empty : message.data = []
  · rw [empty, if_pos (by decide)]
    exact ⟨s, [], rfl, quiet⟩
  · rw [if_neg (by simpa using empty)]
    rcases harmless empty with ⟨inside, harmless⟩
    rcases Option.ne_none_iff_exists'.mp inside with ⟨parsed, read⟩
    rw [read, Option.bind_some]
    cases parsed with
    | none => exact ⟨s, [], rfl, quiet⟩
    | some topic =>
        rcases harmless topic read with ⟨request, reply⟩
        dsimp only
        by_cases asks : message.type = 0x30
        · rw [if_pos asks, fresh asks]
          rcases sendChannelMessageToNode_found message (request asks) with ⟨node, _, sent⟩
          dsimp only
          rw [sent]
          exact ⟨_, _, rfl, .fromClient asks⟩
        · rw [if_neg asks]
          by_cases replies : message.type = 0x31
          · rw [if_pos replies]
            cases found : s.seq2MessageSession message.seq with
            | none => exact ⟨s, [], rfl, quiet⟩
            | some entry =>
                rcases reply replies entry found with ⟨tried, last, another⟩
                dsimp only
                by_cases failed : message.result ≠ 0
                · rcases sendChannelMessageToSession_found message choice (another failed) with
                    ⟨other, untried, sent⟩
                  rw [if_pos failed, last, Option.map_some, sent]
                  exact ⟨_, _, rfl, .nextSession replies found last untried⟩
                · rw [if_neg failed]
                  cases delivered : s.sendCustomMessage choice entry.fromNodeID message with
                  | none => exact ⟨s, [], rfl, quiet⟩
                  | some sent =>
                      rw [sendCustomMessage] at delivered
                      split_ifs at delivered
                      cases delivered
                      exact ⟨_, _, rfl, .toNode replies found last⟩
          · rw [if_neg replies]
            exact ⟨s, [], rfl, quiet⟩

theorem step_node {nodeID : NodeID} {message : Message} {choice : Choice}
    (fresh : message.type = 0x30 → s.seq2MessageSession message.seq = none)
    (harmless : s.Harmless (.node nodeID message choice)) :
    ∃ s' sent, s.step (.node nodeID message choice) = some (s', sent) ∧
      Outcome s (.node nodeID message choice) s' sent := by
  rw [step, onNodeChannelRequest]
  by_cases empty : message.data = []
  · rw [empty, if_pos (by decide)]
    refine ⟨s, [], rfl, .quiet rfl ?_⟩
    rintro _ _ _ ⟨⟩ failure
    exact harmless.1 empty failure
  · rw [if_neg (by simpa using empty)]
    rcases harmless.2 empty with ⟨inside, harmless⟩
    rcases Option.ne_none_iff_exists'.mp inside with ⟨parsed, read⟩
    rw [read, Option.bind_some]
    cases parsed with
    | none =>
        refine ⟨s, [], rfl, .quiet rfl ?_⟩
        rintro _ _ _ ⟨⟩ ⟨_, _, nothing | ⟨topic, begun⟩⟩
        · exact absurd nothing empty
        · exact absurd (read.symm.trans begun) (by simp)
    | some topic =>
        rcases harmless topic read with ⟨request, reply⟩
        dsimp only
        by_cases asks : message.type = 0x30
        · rw [if_pos asks, fresh asks]
          rcases sendChannelMessageToSession_found message choice (request asks) with
            ⟨session, _, sent⟩
          dsimp only
          rw [sent]
          exact ⟨_, _, rfl, .fromNode asks⟩
        · rw [if_neg asks]
          by_cases replies : message.type = 0x31
          · rw [if_pos replies]
            cases found : s.seq2MessageSession message.seq with
            | none =>
                refine ⟨s, [], rfl, .quiet rfl ?_⟩
                rintro _ _ _ ⟨⟩ _
                exact found
            | some entry =>
                rcases reply replies entry found with ⟨session, origin, another⟩
                dsimp only
                by_cases failed : message.result ≠ 0
                · rcases sendChannelMessageToNode_found entry.message (another failed) with
                    ⟨node, untried, sent⟩
                  rw [if_pos failed, sent]
                  exact ⟨_, _, rfl, .nextNode replies found origin untried⟩
                · rw [if_neg failed, origin, Option.map_some]
                  refine ⟨_, _, rfl, .toSession replies (not_not.mp failed) found origin ?_⟩
                  rw [asyncSendMessage]
                  split_ifs
                  · exact .inr rfl
                  · exact .inl rfl
          · rw [if_neg replies]
            refine ⟨s, [], rfl, .quiet rfl ?_⟩
            rintro _ _ _ ⟨⟩ failure
            exact absurd failure.1 replies

theorem step_cases {event : ChannelEvent}
    (fresh : ∀ seq, event.requestSeq = some seq → s.seq2MessageSession seq = none)
    (harmless : s.Harmless event) :
    ∃ s' sent, s.step event = some (s', sent) ∧ Outcome s event s' sent := by
  cases event with
  | client session message choice => exact step_client (fun asks => fresh _ (if_pos asks)) harmless
  | node nodeID message choice => exact step_node (fun asks => fresh _ (if_pos asks)) harmless
  | world sessions actived topics peers =>
      exact ⟨_, _, rfl, .quiet rfl fun _ _ _ other => by cases other⟩

/-! The failure replies of a server -/

/-- What is sent to a node is a `Failure` where it is a failure reply. -/
def Fails (sent : List Sent) : Prop :=
  ∀ o ∈ sent, ∀ nodeID, o.to_ = .node nodeID → o.message.type = 0x31 → o.message.result ≠ 0 →
  Failure o.message

def OnlyRequests (s : ChannelRPCServer) : Prop :=
  ∀ seq entry, s.seq2MessageSession seq = some entry → entry.message.type = 0x30

theorem fails_nil : Fails [] := fun _ member => absurd member List.not_mem_nil

theorem fails_session (session : Nat) (message : Message) :
    Fails (s.asyncSendMessage session message) := by
  intro o member nodeID to_
  unfold asyncSendMessage at member
  split at member
  · rw [List.mem_singleton.mp member] at to_
    cases to_
  · cases member

theorem fails_node {choice : Choice} {nodeID : NodeID} {message : Message}
    (fails : message.type = 0x31 → message.result ≠ 0 → Failure message) (sent : List Sent)
    (done : s.sendCustomMessage choice nodeID message = some sent) : Fails sent := by
  unfold sendCustomMessage at done
  split_ifs at done
  cases done
  intro o member _ _
  rw [List.mem_singleton.mp member]
  exact fails

theorem fails_getD {sent : Option (List Sent)} (fails : ∀ out, sent = some out → Fails out) :
    Fails (sent.getD []) := by
  cases sent with
  | none => exact fails_nil
  | some out => exact fails out rfl

theorem fails_request {topic : Bytes} {message : Message} {exclude : List NodeID} {choice : Choice}
    {target : NodeID} {sent : List Sent} (request : message.type = 0x30)
    (done : s.sendChannelMessageToNode topic message exclude choice = some (target, sent)) :
    Fails sent := by
  rcases Option.bind_eq_some_iff.mp done with ⟨drawn, _, rest⟩
  rcases Option.map_eq_some_iff.mp rest with ⟨there, delivered, same⟩
  cases same
  exact fails_node (fun reply => absurd (request.symm.trans reply) (by decide)) _ delivered

theorem fails_toSession {topic : Bytes} {message : Message} {exclude : List Nat} {choice : Choice}
    {session : Nat} {sent : List Sent}
    (done : s.sendChannelMessageToSession topic message exclude choice = some (session, sent)) :
    Fails sent := by
  rcases Option.map_eq_some_iff.mp done with ⟨drawn, _, same⟩
  cases same
  exact fails_session _ message

theorem client_fails (requests : s.OnlyRequests) {session : Nat} {message : Message}
    {choice : Choice} {sent : List Sent}
    (done : s.onClientChannelRequest session message choice = some (s', sent)) : Fails sent := by
  unfold onClientChannelRequest at done
  by_cases empty : message.data.length < 1
  · rw [if_pos empty] at done
    cases done
    exact fails_nil
  · rw [if_neg empty] at done
    rcases Option.bind_eq_some_iff.mp done with ⟨parsed, read, done⟩
    rcases parsed with _ | topic
    · cases done
      exact fails_nil
    · dsimp only at done
      by_cases asks : message.type = 0x30
      · rw [if_pos asks] at done
        cases found : s.seq2MessageSession message.seq with
        | none =>
            rw [found] at done
            split at done
            case h_1 delivered =>
              cases done
              exact fails_request asks delivered
            case h_2 =>
              cases done
              exact fails_session session _
        | some entry =>
            rw [found] at done
            split at done
            case h_1 delivered =>
              cases done
              exact fails_request (requests _ _ found) delivered
            case h_2 =>
              cases done
              exact fails_session session _
      · rw [if_neg asks] at done
        by_cases replies : message.type = 0x31
        · rw [if_pos replies] at done
          rcases found : s.seq2MessageSession message.seq with _ | entry
          · rw [found] at done
            cases done
            exact fails_nil
          · rw [found] at done
            dsimp only at done
            by_cases failed : message.result ≠ 0
            · rw [if_pos failed] at done
              rcases Option.map_eq_some_iff.mp done with ⟨tried, _, done⟩
              split at done
              case h_1 delivered =>
                cases done
                exact fails_toSession delivered
              case h_2 =>
                cases done
                exact fails_getD (fails_node fun _ _ => ⟨rfl, rfl, .inr ⟨topic, read⟩⟩)
            · rw [if_neg failed] at done
              split at done
              case h_1 delivered =>
                cases done
                exact fails_node (fun _ other => absurd other failed) _ delivered
              case h_2 =>
                cases done
                exact fails_nil
        · rw [if_neg replies] at done
          cases done
          exact fails_nil

theorem node_fails (requests : s.OnlyRequests) {nodeID : NodeID} {message : Message}
    {choice : Choice} {sent : List Sent}
    (done : s.onNodeChannelRequest nodeID message choice = some (s', sent)) : Fails sent := by
  unfold onNodeChannelRequest at done
  by_cases empty : message.data.length < 1
  · rw [if_pos empty] at done
    cases done
    exact fails_nil
  · rw [if_neg empty] at done
    rcases Option.bind_eq_some_iff.mp done with ⟨parsed, _, done⟩
    rcases parsed with _ | topic
    · cases done
      exact fails_nil
    · dsimp only at done
      by_cases asks : message.type = 0x30
      · rw [if_pos asks] at done
        split at done
        case h_1 delivered =>
          cases done
          exact fails_toSession delivered
        case h_2 =>
          cases done
          exact fails_getD (fails_node fun _ _ => ⟨rfl, rfl, .inl rfl⟩)
      · rw [if_neg asks] at done
        by_cases replies : message.type = 0x31
        · rw [if_pos replies] at done
          rcases found : s.seq2MessageSession message.seq with _ | entry
          · rw [found] at done
            cases done
            exact fails_nil
          · rw [found] at done
            dsimp only at done
            by_cases failed : message.result ≠ 0
            · rw [if_pos failed] at done
              split at done
              case h_1 delivered =>
                cases done
                exact fails_request (requests _ _ found) delivered
              case h_2 =>
                rcases Option.map_eq_some_iff.mp done with ⟨session, _, same⟩
                cases same
                exact fails_session session _
            · rw [if_neg failed] at done
              rcases Option.map_eq_some_iff.mp done with ⟨session, _, same⟩
              cases same
              exact fails_session session _
        · rw [if_neg replies] at done
          cases done
          exact fails_nil

/-- The failure replies that a server makes, to a request or after the last session has failed, are
such as the nodes it sends them to take note of. -/
theorem step_fails (requests : s.OnlyRequests) {event : ChannelEvent} {sent : List Sent}
    (done : s.step event = some (s', sent)) : Fails sent := by
  cases event with
  | client session message choice => exact client_fails requests done
  | node nodeID message choice => exact node_fails requests done
  | world sessions actived topics peers =>
      cases done
      exact fails_nil

/-! What the log tells of a request -/

variable {log : Log} {entry : LogEntry} {seq : Bytes}

theorem request_eq_none (other : entry.event.requestSeq ≠ some seq) :
    entry.event.request seq = none := by
  cases event : entry.event with
  | client session message choice =>
      rw [event] at other
      refine if_neg fun both => other ?_
      rw [ChannelEvent.requestSeq, if_pos both.1, both.2]
  | node nodeID message choice =>
      rw [event] at other
      refine if_neg fun both => other ?_
      rw [ChannelEvent.requestSeq, if_pos both.1, both.2]
  | world sessions actived topics peers => rfl

theorem asked_concat (log : Log) (entry : LogEntry) (seq : Bytes) :
    asked (log ++ [entry]) seq = (asked log seq).or (entry.event.request seq) := by
  simp only [asked, List.findSome?_append, List.findSome?_cons, List.findSome?_nil]
  cases entry.event.request seq <;> rfl

theorem sentFor_concat (log : Log) (entry : LogEntry) (seq : Bytes) :
    sentFor (log ++ [entry]) seq = sentFor log seq ++ entry.sent.filter fun sent =>
      sent.message.seq = seq := by
  simp only [sentFor, List.flatMap_append, List.filter_append, List.flatMap_singleton]

theorem toAsker_concat (known : (asked log seq).isSome) :
    toAsker (log ++ [entry]) seq = toAsker log seq := by
  funext sent
  rcases Option.isSome_iff_exists.mp known with ⟨request, made⟩
  rw [toAsker, toAsker, asked_concat, made, Option.some_or]

theorem answers_concat (known : (asked log seq).isSome) : answers (log ++ [entry]) seq =
    answers log seq ++ (entry.sent.filter fun sent => sent.message.seq = seq).filter
      (toAsker log seq) := by
  rw [answers, answers, toAsker_concat known, sentFor_concat, List.filter_append]

theorem forwards_concat (known : (asked log seq).isSome) : forwards (log ++ [entry]) seq =
    forwards log seq ++
      ((entry.sent.filter fun sent => sent.message.seq = seq).filter
        fun sent => !toAsker log seq sent).map Sent.to_ := by
  rw [forwards, forwards, toAsker_concat known, sentFor_concat, List.filter_append, List.map_append]

/-- A request that waits for its reply, from the one side or the other. -/
inductive Waiting (log : Log) (seq : Bytes) (entry : ChannelMessageSession) : Prop
  | ofSession (session : Nat) (made : asked log seq = some (.session session, entry.message))
      (own : entry.message.seq = seq) (origin : entry.fromSession = some session)
      (unsent : entry.toSession = none)
      (tried : ∀ party ∈ forwards log seq, ∃ node ∈ entry.toNodeID :: entry.failedNodeIDs,
        party = .node node)
  | ofNode (original : Message) (made : asked log seq = some (.node entry.fromNodeID, original))
      (origin : entry.fromSession = none)
      (tried : ∀ party ∈ forwards log seq, ∃ session,
        (entry.toSession = some session ∨ session ∈ entry.failedSessions) ∧
        party = .session session)

structure Kept (log : Log) (seq : Bytes) (value : Option ChannelMessageSession) : Prop where
  unasked : asked log seq = none → value = none ∧ sentFor log seq = []
  waiting : ∀ entry, value = some entry → answers log seq = [] ∧ Waiting log seq entry
  once : (answers log seq).length ≤ 1
  untried : (forwards log seq).Nodup

theorem Kept.closed (empty : sentFor log seq = []) : Kept log seq none where
  unasked := fun _ => ⟨rfl, empty⟩
  waiting := fun _ some_ => by cases some_
  once := by
    rw [answers, empty]
    exact Nat.zero_le 1
  untried := by
    rw [forwards, empty]
    exact List.nodup_nil

theorem Kept.erased {value : Option ChannelMessageSession} {request : Party × Message}
    (kept : Kept log seq value) (made : asked log seq = some request) : Kept log seq none :=
  ⟨fun none_ => absurd (made.symm.trans none_) (by simp), fun _ some_ => absurd some_ (by simp),
    kept.once, kept.untried⟩

theorem Kept.silent {value : Option ChannelMessageSession} (kept : Kept log seq value)
    (silent : ∀ sent ∈ entry.sent, sent.message.seq ≠ seq) : Kept (log ++ [entry]) seq value := by
  have nothing : (entry.sent.filter fun sent => sent.message.seq = seq) = [] :=
    List.filter_eq_nil_iff.mpr fun sent member => by simp [silent sent member]
  cases made : asked log seq with
  | none =>
      rcases kept.unasked made with ⟨rfl, empty⟩
      apply Kept.closed
      rw [sentFor_concat, nothing, empty, List.append_nil]
  | some request =>
      have known : (asked log seq).isSome := made ▸ rfl
      have same : asked (log ++ [entry]) seq = asked log seq := by
        rw [asked_concat, made, Option.some_or]
      have answered : answers (log ++ [entry]) seq = answers log seq := by
        rw [answers_concat known, nothing, List.filter_nil, List.append_nil]
      have forwarded : forwards (log ++ [entry]) seq = forwards log seq := by
        rw [forwards_concat known, nothing, List.filter_nil, List.map_nil, List.append_nil]
      refine ⟨?_, ?_, answered ▸ kept.once, forwarded ▸ kept.untried⟩
      · rw [same, made]
        exact fun none_ => by cases none_
      · intro found some_
        rw [answered]
        refine ⟨(kept.waiting found some_).1, ?_⟩
        cases (kept.waiting found some_).2 with
        | ofSession session made own origin unsent tried =>
            exact .ofSession session (same.trans made) own origin unsent (forwarded ▸ tried)
        | ofNode original made origin tried =>
            exact .ofNode original (same.trans made) origin (forwarded ▸ tried)

theorem Kept.begun (entry : LogEntry) {asker target : Party} {message : Message}
    (kept : Kept log message.seq none) (fresh : asked log message.seq = none)
    (request : entry.event.request message.seq = some (asker, message))
    (sent : entry.sent = [⟨target, message⟩]) (other : asker ≠ target) :
    asked (log ++ [entry]) message.seq = some (asker, message) ∧
    answers (log ++ [entry]) message.seq = [] ∧
      forwards (log ++ [entry]) message.seq = [target] := by
  have made : asked (log ++ [entry]) message.seq = some (asker, message) := by
    rw [asked_concat, fresh, Option.none_or, request]
  have only : sentFor (log ++ [entry]) message.seq = [⟨target, message⟩] := by
    rw [sentFor_concat, (kept.unasked fresh).2, sent]
    simp
  refine ⟨made, ?_, ?_⟩
  · rw [answers, only]
    simp [toAsker, made, other]
  · rw [forwards, only]
    simp [toAsker, made, other]

theorem Kept.forwarded (entry : LogEntry) {asker target : Party} {original message : Message}
    (made : asked log seq = some (asker, original)) (sent : entry.sent = [⟨target, message⟩])
    (own : message.seq = seq) (other : asker ≠ target) :
    asked (log ++ [entry]) seq = some (asker, original) ∧ answers (log ++ [entry]) seq =
      answers log seq ∧
      forwards (log ++ [entry]) seq = forwards log seq ++ [target] := by
  have known : (asked log seq).isSome := made ▸ rfl
  refine ⟨by rw [asked_concat, made, Option.some_or], ?_, ?_⟩
  · rw [answers_concat known, sent]
    simp [toAsker, made, own, other]
  · rw [forwards_concat known, sent]
    simp [toAsker, made, own, other]

theorem Kept.answered {asker : Party} {original message : Message}
    {value : Option ChannelMessageSession} (kept : Kept log seq value)
    (unanswered : answers log seq = []) (made : asked log seq = some (asker, original))
    (sent : entry.sent = [⟨asker, message⟩]) (own : message.seq = seq) :
    Kept (log ++ [entry]) seq none := by
  have known : (asked log seq).isSome := made ▸ rfl
  have forwarded : forwards (log ++ [entry]) seq = forwards log seq := by
    rw [forwards_concat known, sent]
    simp [toAsker, made, own]
  refine ⟨?_, (fun _ some_ => by cases some_), ?_, forwarded ▸ kept.untried⟩
  · rw [asked_concat, made, Option.some_or]
    exact fun none_ => by cases none_
  · rw [answers_concat known, unanswered, sent, List.nil_append]
    exact Nat.le_trans (List.length_filter_le _ _) (List.length_filter_le _ _)

theorem Waiting.of_session {value : ChannelMessageSession} {session : Nat}
    (waiting : Waiting log seq value) (origin : value.fromSession = some session) :
    asked log seq = some (.session session, value.message) ∧ value.message.seq = seq ∧
    value.toSession = none ∧
      ∀ party ∈ forwards log seq, ∃ node ∈ value.toNodeID :: value.failedNodeIDs, party =
        .node node := by
  cases waiting with
  | ofSession asker made own same unsent tried =>
      cases origin.symm.trans same
      exact ⟨made, own, unsent, tried⟩
  | ofNode original made none_ tried => exact absurd (origin.symm.trans none_) (by simp)

theorem Waiting.of_node {value : ChannelMessageSession} {last : Nat}
    (waiting : Waiting log seq value) (sent : value.toSession = some last) :
    ∃ original, asked log seq = some (.node value.fromNodeID, original) ∧ value.fromSession = none ∧
      ∀ party ∈ forwards log seq, ∃ session ∈ last :: value.failedSessions, party =
        .session session := by
  cases waiting with
  | ofSession asker made own origin unsent tried => exact absurd (sent.symm.trans unsent) (by simp)
  | ofNode original made origin tried =>
      refine ⟨original, made, origin, ?_⟩
      intro party member
      rcases tried party member with ⟨session, here | failed, same⟩
      · cases sent.symm.trans here
        exact ⟨last, List.mem_cons_self, same⟩
      · exact ⟨session, List.mem_cons_of_mem last failed, same⟩

theorem Kept.concat {value : Option ChannelMessageSession} {party : Party}
    (kept : Kept log seq value) (new : party ∉ forwards log seq) :
    (forwards log seq ++ [party]).Nodup := by
  rw [← List.concat_eq_append]
  exact kept.untried.concat new

theorem untried_node {nodes : List NodeID} {node : NodeID}
    (tried : ∀ party ∈ forwards log seq, ∃ before ∈ nodes, party = .node before)
    (untried : node ∉ nodes) :
    Party.node node ∉ forwards log seq := by
  intro member
  rcases tried _ member with ⟨before, among, same⟩
  cases same
  exact untried among

theorem untried_session {sessions : List Nat} {session : Nat}
    (tried : ∀ party ∈ forwards log seq, ∃ before ∈ sessions, party = .session before)
    (untried : session ∉ sessions) :
    Party.session session ∉ forwards log seq := by
  intro member
  rcases tried _ member with ⟨before, among, same⟩
  cases same
  exact untried among

theorem Outcome.kept {event : ChannelEvent} {sent : List Sent}
    (kept : ∀ seq, Kept log seq (s.seq2MessageSession seq)) (fresh : ∀ seq, event.requestSeq =
      some seq → asked log seq = none) (outcome : Outcome s event s' sent) (seq : Bytes) :
    Kept (log ++ [⟨s, event, sent⟩]) seq (s'.seq2MessageSession seq) := by
  have elsewhere : ∀ (key : Bytes) value, (∀ o ∈ sent, o.message.seq = key) →
      Kept (log ++ [⟨s, event, sent⟩]) key value →
      Kept (log ++ [⟨s, event, sent⟩]) seq
        (Function.update s.seq2MessageSession key value seq) := by
    intro key value only here
    by_cases same : seq = key
    · rw [same, Function.update_self]
      exact here
    · rw [Function.update_of_ne same]
      exact (kept seq).silent fun o member own => same (own.symm.trans (only o member))
  cases outcome with
  | quiet same idle =>
      rw [same]
      exact (kept seq).silent fun o member => absurd member List.not_mem_nil
  | @fromClient session message choice node request =>
      have new : asked log message.seq = none := fresh _ (if_pos request)
      have before := kept message.seq
      rw [((kept message.seq).unasked new).1] at before
      rcases before.begun ⟨s, .client session message choice, [⟨.node node, message⟩]⟩ new
        (if_pos ⟨request, rfl⟩) rfl (by simp) with ⟨made, unanswered, forwarded⟩
      apply elsewhere message.seq _ (by simp)
      refine ⟨fun none_ => absurd (made.symm.trans none_) (by simp), ?_,
        by rw [unanswered]; exact Nat.zero_le 1, by simp [forwarded]⟩
      rintro _ ⟨⟩
      exact ⟨unanswered, .ofSession session made rfl rfl rfl (by simp [forwarded])⟩
  | @fromNode nodeID message choice session request =>
      have new : asked log message.seq = none := fresh _ (if_pos request)
      have before := kept message.seq
      rw [((kept message.seq).unasked new).1] at before
      rcases before.begun ⟨s, .node nodeID message choice, [⟨.session session, message⟩]⟩ new
        (if_pos ⟨request, rfl⟩) rfl (by simp) with ⟨made, unanswered, forwarded⟩
      apply elsewhere message.seq _ (by simp)
      refine ⟨fun none_ => absurd (made.symm.trans none_) (by simp), ?_,
        by rw [unanswered]; exact Nat.zero_le 1, by simp [forwarded]⟩
      rintro _ ⟨⟩
      exact ⟨unanswered, .ofNode message made rfl (by simp [forwarded])⟩
  | @nextNode nodeID message choice value session node reply found origin untried =>
      rcases (kept message.seq).waiting value found with ⟨unanswered, waiting⟩
      rcases waiting.of_session origin with ⟨made, own, unsent, tried⟩
      rcases Kept.forwarded ⟨s, .node nodeID message choice, [⟨.node node, value.message⟩]⟩
        made rfl own
        (by simp) with ⟨made', answered, forwarded⟩
      apply elsewhere message.seq _ (by simp [own])
      refine ⟨fun none_ => absurd (made'.symm.trans none_) (by simp), ?_,
        by rw [answered, unanswered]; exact Nat.zero_le 1, ?_⟩
      · rintro _ ⟨⟩
        refine ⟨answered.trans unanswered, .ofSession session made' own origin unsent ?_⟩
        intro party member
        rw [forwarded] at member
        rcases List.mem_append.mp member with old | last
        · rcases tried party old with ⟨before, among, same⟩
          exact ⟨before, List.mem_cons_of_mem node among, same⟩
        · exact ⟨node, List.mem_cons_self, List.mem_singleton.mp last⟩
      · rw [forwarded]
        exact (kept message.seq).concat (untried_node tried untried)
  | @nextSession session message choice value last other reply found sent untried =>
      rcases (kept message.seq).waiting value found with ⟨unanswered, waiting⟩
      rcases waiting.of_node sent with ⟨original, made, origin, tried⟩
      rcases Kept.forwarded ⟨s, .client session message choice, [⟨.session other, message⟩]⟩
        made rfl rfl
        (by simp) with ⟨made', answered, forwarded⟩
      apply elsewhere message.seq _ (by simp)
      refine ⟨fun none_ => absurd (made'.symm.trans none_) (by simp), ?_,
        by rw [answered, unanswered]; exact Nat.zero_le 1, ?_⟩
      · rintro _ ⟨⟩
        refine ⟨answered.trans unanswered, .ofNode original made' origin ?_⟩
        intro party member
        rw [forwarded] at member
        rcases List.mem_append.mp member with old | new
        · rcases tried party old with ⟨before, among, same⟩
          exact ⟨before, .inr among, same⟩
        · exact ⟨other, .inl rfl, List.mem_singleton.mp new⟩
      · rw [forwarded]
        exact (kept message.seq).concat (untried_session tried untried)
  | @toSession nodeID message choice value session sent reply success found origin only =>
      rcases (kept message.seq).waiting value found with ⟨unanswered, waiting⟩
      rcases waiting.of_session origin with ⟨made, _, _, _⟩
      rcases only with rfl | rfl
      · apply elsewhere message.seq _ (by simp)
        exact ((kept message.seq).erased made).silent (by simp)
      · apply elsewhere message.seq _ (by simp)
        exact (kept message.seq).answered unanswered made rfl rfl
  | @toNode session message choice value last reply found sent =>
      rcases (kept message.seq).waiting value found with ⟨unanswered, waiting⟩
      rcases waiting.of_node sent with ⟨original, made, _, _⟩
      apply elsewhere message.seq _ (by simp)
      exact (kept message.seq).answered unanswered made rfl rfl

theorem Outcome.redirected {event : ChannelEvent} {sent : List Sent} {nodeID : NodeID}
    {reply : Message} {choice : Choice} (kept : ∀ seq, Kept log seq (s.seq2MessageSession seq))
    (outcome : Outcome s event s' sent) (comes : event = .node nodeID reply choice)
    (failure : Failure reply) (pending : (s.seq2MessageSession reply.seq).isSome) :
    Redirected log reply.seq sent := by
  cases outcome with
  | quiet same idle =>
      rw [idle nodeID reply choice comes failure] at pending
      cases pending
  | fromNode request =>
      cases comes
      exact absurd (request.symm.trans failure.1) (by decide)
  | @nextNode _ _ _ value session node replied found origin untried =>
      cases comes
      rcases ((kept reply.seq).waiting value found).2.of_session origin with ⟨made, _, _, tried⟩
      exact ⟨_, _, made, .inl ⟨_, rfl, untried_node tried untried⟩⟩
  | toSession replied success found origin only =>
      cases comes
      exact absurd (success.symm.trans failure.2.1) (by decide)
  | fromClient request => cases comes
  | nextSession replied found last untried => cases comes
  | toNode replied found last => cases comes

def Failures (log : Log) : Prop :=
  ∀ earlier entry later nodeID reply choice, log = earlier ++ entry :: later →
    entry.event = .node nodeID reply choice → Failure reply →
    (entry.before.seq2MessageSession reply.seq).isSome →
      Redirected earlier reply.seq entry.sent

theorem Failures.concat (failures : Failures log)
    (last : ∀ nodeID reply choice, entry.event = .node nodeID reply choice → Failure reply →
      (entry.before.seq2MessageSession reply.seq).isSome → Redirected log reply.seq entry.sent) :
    Failures (log ++ [entry]) := by
  intro earlier one later nodeID reply choice split comes failure pending
  rcases List.eq_nil_or_concat later with rfl | ⟨later, final, rfl⟩
  · rcases List.append_inj' split rfl with ⟨rfl, same⟩
    cases same
    exact last nodeID reply choice comes failure pending
  · have split' : log ++ [entry] = (earlier ++ one :: later) ++ [final] := by
      rw [split, List.concat_eq_append, List.append_assoc, List.cons_append]
    rcases List.append_inj' split' rfl with ⟨inner, _⟩
    exact failures earlier one later nodeID reply choice inner comes failure pending

theorem run_handled (events : List ChannelEvent)
    (kept : ∀ seq, Kept log seq (s.seq2MessageSession seq)) (failures : Failures log)
    (distinct : (events.filterMap ChannelEvent.requestSeq).Nodup)
    (fresh : ∀ event ∈ events, ∀ seq, event.requestSeq = some seq → asked log seq = none)
    (harmless : s.HarmlessRun events) :
    ∃ s' log', run s log events = some (s', log') ∧ Handled s' log' := by
  induction events generalizing s log with
  | nil =>
      refine ⟨s, log, rfl, fun seq => (kept seq).once, ?_, fun seq => (kept seq).untried, failures⟩
      intro seq answered
      by_contra there
      rcases Option.ne_none_iff_exists'.mp there with ⟨entry, found⟩
      exact answered ((kept seq).waiting entry found).1
  | cons event events ih =>
      rcases harmless with ⟨now, later⟩
      have new : ∀ seq, event.requestSeq = some seq → asked log seq = none :=
        fresh event List.mem_cons_self
      rcases step_cases (fun seq request => ((kept seq).unasked (new seq request)).1) now with
        ⟨s', sent, step, outcome⟩
      have kept' := outcome.kept kept new
      have failures' : Failures (log ++ [⟨s, event, sent⟩]) :=
        failures.concat fun nodeID reply choice comes failure pending =>
          outcome.redirected kept comes failure pending
      have fresh' : ∀ other ∈ events, ∀ seq, other.requestSeq = some seq →
          asked (log ++ [⟨s, event, sent⟩]) seq = none := by
        intro other member seq request
        rw [asked_concat, fresh other (List.mem_cons_of_mem event member) seq request,
          Option.none_or]
        apply request_eq_none
        intro same
        rw [List.filterMap_cons_some same] at distinct
        exact (List.nodup_cons.mp distinct).1 (List.mem_filterMap.mpr ⟨other, member, request⟩)
      have distinct' : (events.filterMap ChannelEvent.requestSeq).Nodup := by
        cases made : event.requestSeq with
        | none => rwa [List.filterMap_cons_none made] at distinct
        | some seq =>
            rw [List.filterMap_cons_some made] at distinct
            exact (List.nodup_cons.mp distinct).2
      rcases ih kept' failures' distinct' fresh' (later s' sent step) with
        ⟨s'', log', rest, handled⟩
      refine ⟨s'', log', ?_, handled⟩
      rw [run, step]
      exact rest

/-- Where all requests have sequence numbers of their own and every step is harmless, the server
answers and retries them as it should. -/
theorem channel_requests_handled (events : List ChannelEvent)
    (distinct : (events.filterMap ChannelEvent.requestSeq).Nodup)
    (harmless : HarmlessRun {} events) :
    ∃ s log, run {} [] events = some (s, log) ∧ Handled s log :=
  run_handled events (fun _ => .closed rfl)
    (fun earlier entry later _ _ _ split => absurd split (by simp)) distinct
    (fun _ _ _ _ => rfl) harmless

def requestOfOne : Message := { type := 0x30, seq := [9], data := [2, 7] }

def replyOf (result : Int32) : Message := { requestOfOne with type := 0x31, result }

def retried : List ChannelEvent :=
  [.world [1] (fun _ => true) (fun _ => []) [(5, [[7]]), (6, [[7]])], .client 1 requestOfOne {},
    .node 5 (replyOf 101) {}, .node 6 (replyOf 0) {}]

/-- The request of session 1 goes to node 5, which fails, and then to node 6, which answers. -/
theorem channel_requests_handled_retried : ∃ s log, run {} [] retried = some (s, log) ∧
    forwards log [9] = [.node 5, .node 6] ∧ answers log [9] = [⟨.session 1, replyOf 0⟩] ∧
    Handled s log := by
  have harmless : HarmlessRun {} retried := by
    refine ⟨trivial, ?_⟩
    rintro s₁ sent₁ ⟨⟩
    refine ⟨fun _ => ⟨by decide, ?_⟩, fun s₂ sent₂ step₂ => ?_⟩
    · rintro topic ⟨⟩
      exact ⟨fun _ => ⟨5, by decide +kernel, List.not_mem_nil⟩,
        fun reply => absurd reply (by decide)⟩
    simp [step, onClientChannelRequest, topicOf, sendChannelMessageToNode, draw, nodesLeft,
      getPeersByTopic, sendCustomMessage, requestOfOne] at step₂
    rcases step₂ with ⟨rfl, rfl⟩
    refine ⟨⟨fun empty => absurd empty (by decide), fun _ => ⟨by decide, ?_⟩⟩,
      fun s₃ sent₃ step₃ => ?_⟩
    · rintro topic ⟨⟩
      refine ⟨fun request => absurd request (by decide), ?_⟩
      intro _ entry found
      simp [setEntry, replyOf, requestOfOne] at found
      rw [← found]
      exact ⟨1, rfl, fun _ => ⟨6, by decide +kernel, List.not_mem_nil⟩⟩
    simp [step, onNodeChannelRequest, topicOf, sendChannelMessageToNode, draw, nodesLeft,
      getPeersByTopic, sendCustomMessage, replyOf, requestOfOne, setEntry] at step₃
    rcases step₃ with ⟨rfl, rfl⟩
    refine ⟨⟨fun empty => absurd empty (by decide), fun _ => ⟨by decide, ?_⟩⟩, fun _ _ _ => trivial⟩
    rintro topic ⟨⟩
    refine ⟨fun request => absurd request (by decide), ?_⟩
    intro _ entry found
    simp [replyOf, requestOfOne] at found
    rw [← found]
    exact ⟨1, rfl, fun failed => absurd rfl failed⟩
  rcases channel_requests_handled retried (by decide) harmless with ⟨s, log, done, handled⟩
  have shown : (run {} [] retried).any fun r => forwards r.2 [9] == [.node 5, .node 6] &&
      answers r.2 [9] == [⟨.session 1, replyOf 0⟩] := by decide +kernel
  rw [done, Option.any_some, Bool.and_eq_true, beq_iff_eq, beq_iff_eq] at shown
  exact ⟨s, log, done, shown.1, shown.2, handled⟩

/-- A peer server without a session for the topic answers with an empty body, and that answer is not
taken note of. -/
theorem empty_failure_ignored :
    (({ peers := [(8, [])] } : ChannelRPCServer).step
      (.node 8 { type := 0x30, seq := [9], data := [2, 7] } {})).map Prod.snd =
      some [⟨.node 8, { type := 0x31, seq := [9], result := 101 }⟩] ∧
    ∃ s log, run {} [] [.world [1] (fun _ => true) (fun _ => []) [(5, [[7]]), (6, [[7]])],
      .client 1 { type := 0x30, seq := [9], data := [2, 7] } {},
      .node 5 { type := 0x31, seq := [9], result := 101 } {}] = some (s, log) ∧
      ¬ Handled s log := by
  refine ⟨by decide +kernel, ?_⟩
  generalize asks : (ChannelEvent.client 1 { type := 0x30, seq := [9], data := [2, 7] } {}) =
    request
  generalize world : (⟨[1], fun _ => true, fun _ => [], [(5, [[7]]), (6, [[7]])],
    fun _ => none⟩ : ChannelRPCServer) = s₁
  have begun : step {} (.world [1] (fun _ => true) (fun _ => []) [(5, [[7]]), (6, [[7]])]) =
      some (s₁, []) :=
    congrArg (fun s => some (s, [])) world
  have forwarded : s₁.step request = some
      (s₁.setEntry [9] { fromSession := some 1, toNodeID := 5, message :=
        { type := 0x30, seq := [9], data := [2, 7] } },
        [⟨.node 5, { type := 0x30, seq := [9], data := [2, 7] }⟩]) := by
    subst asks world
    simp [step, onClientChannelRequest, topicOf, sendChannelMessageToNode, draw, nodesLeft,
      getPeersByTopic, sendCustomMessage]
  refine ⟨_, _, by simp only [run, begun, Option.bind_some, forwarded]; rfl, ?_⟩
  intro handled
  rcases handled.failures [_, _] _ [] 5 { type := 0x31, seq := [9], result := 101 } {} rfl rfl
    ⟨rfl, rfl, .inl rfl⟩ rfl with
    ⟨_, _, _, ⟨_, sent, _⟩ | ⟨_, sent, _⟩⟩
  · cases sent
  · cases sent

end ChannelRPCServer

end UtispaceChain.ChannelRPC
