import Mathlib.Logic.Function.Basic
import UtispaceChain.ChannelServer.ChannelMessage

/-! The channel requests (0x30) of SDK sessions and peer nodes, and their replies (0x31).

A session is a number. One map keeps the requests of both sides, each side with fields of its
own. -/

namespace UtispaceChain.ChannelRPC

open Lib
open Channel (Message)

abbrev NodeID := BitVec 512

def REMOTE_PEER_UNAVAILIBLE : Int32 := 100
def REMOTE_CLIENT_PEER_UNAVAILBLE : Int32 := 101

structure ChannelMessageSession where
  fromSession : Option Nat := none
  toNodeID : NodeID := 0
  failedNodeIDs : List NodeID := []
  fromNodeID : NodeID := 0
  toSession : Option Nat := none
  failedSessions : List Nat := []
  message : Message

/-- The map of requests, the sessions with what they tell of themselves, and the peers of the host
with their topics. -/
structure ChannelRPCServer where
  sessions : List Nat := []
  actived : Nat → Bool := fun _ => false
  topics : Nat → List Bytes := fun _ => []
  peers : List (NodeID × List Bytes) := []
  seq2MessageSession : Bytes → Option ChannelMessageSession := fun _ => none

inductive Party
  | session (id : Nat)
  | node (id : NodeID)
  deriving DecidableEq, Repr

structure Sent where
  to_ : Party
  message : Message
  deriving DecidableEq, Repr

/-- The number that is drawn, and the peers that are lost before they are sent to. -/
structure Choice where
  index : Nat := 0
  lost : List NodeID := []
  deriving DecidableEq, Repr

def failure (result : Int32) (message : Message) : Message :=
  { message with type := 0x31, result, data := [] }

/-- The topic at the front of a body. The inner `none` is the exception of a string of length -1,
the outer one a read behind the body. -/
def topicOf : Bytes → Option (Option Bytes)
  | [] => none
  | topicLen :: rest =>
      if topicLen = 0 then some none
      else if rest.length < topicLen.toNat - 1 then none
      else some (some (rest.take (topicLen.toNat - 1)))

namespace ChannelRPCServer

def setEntry (seq : Bytes) (entry : ChannelMessageSession) (s : ChannelRPCServer) :
    ChannelRPCServer :=
  { s with seq2MessageSession := Function.update s.seq2MessageSession seq (some entry) }

def eraseEntry (seq : Bytes) (s : ChannelRPCServer) : ChannelRPCServer :=
  { s with seq2MessageSession := Function.update s.seq2MessageSession seq none }

def getSessionByTopic (s : ChannelRPCServer) (topic : Bytes) : List Nat :=
  s.sessions.filter fun session => !(s.topics session).isEmpty && s.actived session &&
  decide (topic ∈ s.topics session)

def getPeersByTopic (s : ChannelRPCServer) (topic : Bytes) : List NodeID :=
  (s.peers.filter fun peer => topic ∈ peer.2).map Prod.fst

def asyncSendMessage (session : Nat) (message : Message) (s : ChannelRPCServer) : List Sent :=
  if s.actived session then [⟨.session session, message⟩] else []

/-- `none` is the exception. -/
def sendCustomMessage (choice : Choice) (nodeID : NodeID) (message : Message)
    (s : ChannelRPCServer) : Option (List Sent) :=
  if nodeID ∈ s.peers.map Prod.fst ∧ nodeID ∉ choice.lost then some [⟨.node nodeID, message⟩]
    else none

def nodesLeft (s : ChannelRPCServer) (topic : Bytes) (exclude : List NodeID) : List NodeID :=
  (s.getPeersByTopic topic).filter fun nodeID => nodeID ∉ exclude

def sessionsLeft (s : ChannelRPCServer) (topic : Bytes) (exclude : List Nat) : List Nat :=
  (s.getSessionByTopic topic).filter fun session => session ∉ exclude

def draw {α : Type} (choice : Choice) (from_ : List α) : Option α :=
  from_[choice.index % from_.length]?

/-- `none` is the exception. -/
def sendChannelMessageToNode (topic : Bytes) (message : Message) (exclude : List NodeID)
    (choice : Choice) (s : ChannelRPCServer) : Option (NodeID × List Sent) :=
  (draw choice (s.nodesLeft topic exclude)).bind fun target =>
    (s.sendCustomMessage choice target message).map fun sent => (target, sent)

/-- `none` is the exception. -/
def sendChannelMessageToSession (topic : Bytes) (message : Message) (exclude : List Nat)
    (choice : Choice) (s : ChannelRPCServer) : Option (Nat × List Sent) :=
  (draw choice (s.sessionsLeft topic exclude)).map fun session =>
    (session, s.asyncSendMessage session message)

/-- `none` where the source is not defined: a read behind the body, or the use of an empty
pointer. -/
def onClientChannelRequest (session : Nat) (message : Message) (choice : Choice)
    (s : ChannelRPCServer) :
    Option (ChannelRPCServer × List Sent) :=
  if message.data.length < 1 then some (s, [])
  else (topicOf message.data).bind fun parsed =>
    match parsed with
    | none => some (s, [])
    | some topic =>
        let found := s.seq2MessageSession message.seq
        if message.type = 0x30 then
          let entry : ChannelMessageSession := match found with
            | some entry => { entry with fromSession := some session }
            | none => { fromSession := some session, message }
          match s.sendChannelMessageToNode topic entry.message entry.failedNodeIDs choice with
          | some (nodeID, sent) =>
              some (s.setEntry message.seq { entry with toNodeID := nodeID }, sent)
          | none =>
              let reply := failure REMOTE_PEER_UNAVAILIBLE message
              -- a new entry points to the message that has become the reply
              let entry := if found.isNone then { entry with message := reply } else entry
              some (s.setEntry message.seq entry, s.asyncSendMessage session reply)
        else if message.type = 0x31 then
          match found with
          | none => some (s, [])
          | some entry =>
              if message.result ≠ 0 then
                entry.toSession.map fun toSession =>
                  let entry := { entry with failedSessions := toSession :: entry.failedSessions }
                  -- it is the reply that is sent to the next session
                  match s.sendChannelMessageToSession topic message entry.failedSessions choice with
                  | some (session, sent) =>
                      (s.setEntry message.seq { entry with toSession := some session }, sent)
                  | none =>
                      let reply :=
                        { message with type := 0x31, result := REMOTE_CLIENT_PEER_UNAVAILBLE }
                      (s.setEntry message.seq entry,
                        (s.sendCustomMessage choice entry.fromNodeID reply).getD [])
              else
                match s.sendCustomMessage choice entry.fromNodeID message with
                | some sent => some (s.eraseEntry message.seq, sent)
                | none => some (s, [])
        else some (s, [])

/-- `none` where the source is not defined: a read behind the body, or the use of an empty
pointer. -/
def onNodeChannelRequest (nodeID : NodeID) (message : Message) (choice : Choice)
    (s : ChannelRPCServer) :
    Option (ChannelRPCServer × List Sent) :=
  if message.data.length < 1 then some (s, [])
  else (topicOf message.data).bind fun parsed =>
    match parsed with
    | none => some (s, [])
    | some topic =>
        let found := s.seq2MessageSession message.seq
        if message.type = 0x30 then
          let entry : ChannelMessageSession := match found with
            | some entry => entry
            | none => { fromNodeID := nodeID, message }
          match s.sendChannelMessageToSession topic message entry.failedSessions choice with
          | some (session, sent) =>
              some (s.setEntry message.seq { entry with toSession := some session }, sent)
          | none =>
              let reply := failure REMOTE_CLIENT_PEER_UNAVAILBLE message
              let entry := if found.isNone then { entry with message := reply } else entry
              some (s.setEntry message.seq entry, (s.sendCustomMessage choice nodeID reply).getD [])
        else if message.type = 0x31 then
          match found with
          | none => some (s, [])
          | some entry =>
              if message.result ≠ 0 then
                let entry := { entry with failedNodeIDs := entry.toNodeID :: entry.failedNodeIDs }
                match s.sendChannelMessageToNode topic entry.message entry.failedNodeIDs choice with
                | some (nodeID, sent) =>
                    some (s.setEntry message.seq { entry with toNodeID := nodeID }, sent)
                | none => entry.fromSession.map fun session =>
                    (s.setEntry message.seq entry,
                      s.asyncSendMessage session (failure REMOTE_PEER_UNAVAILIBLE message))
              else entry.fromSession.map fun session =>
                (s.eraseEntry message.seq, s.asyncSendMessage session message)
        else some (s, [])

end ChannelRPCServer

inductive ChannelEvent
  | client (session : Nat) (message : Message) (choice : Choice)
  | node (nodeID : NodeID) (message : Message) (choice : Choice)
  | world (sessions : List Nat) (actived : Nat → Bool) (topics : Nat →
      List Bytes) (peers : List (NodeID × List Bytes))

namespace ChannelRPCServer

def step (s : ChannelRPCServer) : ChannelEvent → Option (ChannelRPCServer × List Sent)
  | .client session message choice => s.onClientChannelRequest session message choice
  | .node nodeID message choice => s.onNodeChannelRequest nodeID message choice
  | .world sessions actived topics peers => some ({ s with sessions, actived, topics, peers }, [])

end ChannelRPCServer

end UtispaceChain.ChannelRPC
