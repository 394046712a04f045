import UtispaceChain.Cv.BlockQueue
import UtispaceChain.Cv.DownloadMap
import UtispaceChain.DevCore.TrieCommon
import Mathlib.Data.Finset.Basic

/-! The block chain synchronization: headers and bodies are downloaded from several peers, paired
and handed to the block queue. A handler runs under `x_sync`, so that nothing else happens before
its agenda is empty. -/

namespace UtispaceChain

open Lib Chunks Rlp

inductive Asking
  | state
  | blockHeaders
  | blockBodies
  | nodeData
  | receipts
  | nothing
  deriving DecidableEq, Repr

inductive SyncState
  | notSynced
  | idle
  | waiting
  | blocks
  | state
  | newBlocks
  deriving DecidableEq, Repr

inductive QueueStatus
  | ready
  | importing
  | unknownParent
  | bad
  | unknown
  deriving DecidableEq, Repr

/-- What the synchronization reads of an `EthereumPeer`. -/
structure SyncPeer where
  id : Nat
  asking : Asking := .nothing
  protocolVersion : Nat := 62
  networkId : Nat := 0
  clientVersion : String := ""
  genesisHash : H256 := 0
  latestHash : H256 := 0
  totalDifficulty : Nat := 0
  height : Nat := 0
  unknownNewBlocks : Nat := 0

namespace BlockChainSync

def c_maxPeerUknownNewBlocks : Nat := 1024

def c_maxRequestHeaders : Nat := 1024

def c_maxRequestBodies : Nat := 1024

def toUnsigned (n : Nat) : Nat := n % 2 ^ 32

structure Header where
  data : Bytes
  hash : H256
  parent : H256
  deriving DecidableEq, Repr

/-- What the peers and the block queue are asked for, and the sessions that are ended. -/
inductive Call
  | requestBlockHeader (peer : Nat) (startHash : H256)
  | requestBlockHeaders (peer : Nat) (startNumber count : Nat)
  | requestBlockBodies (peer : Nat) (hashes : List H256)
  | disable (peer : Nat) (reason : String)
  | clear
  /-- The block that `collectBlocks` makes of a header and a body. -/
  | importCollected (header : Header) (body block : Bytes)
  | importReceived (block : Bytes)
  deriving DecidableEq, Repr

/-- The host at the time of a step: its chain and its block queue. -/
structure Host where
  number : Nat := 0
  currentHash : H256 := 0
  numberHash : Nat → H256 := fun _ => 0
  genesisHash : H256 := 0
  isKnown : H256 → Bool := fun _ => false
  totalDifficulty : Nat := 0
  /-- `bq().isActive()` and `bq().difficulty()`. -/
  active : Bool := false
  difficulty : Nat := 0
  knownFull : Bool := false
  unknownFull : Bool := false
  blockStatus : H256 → QueueStatus := fun _ => .unknown
  /-- `bq().import`; none is an exception. -/
  imports : Bytes → Option ImportResult := fun _ => some .success
  protocolVersion : Nat := 63
  networkId : Nat := 0
  isBanned : Nat → Bool := fun _ => false

def Host.has (host : Host) (hash : H256) : Bool :=
  decide (host.blockStatus hash = .importing) || decide (host.blockStatus hash = .ready) ||
  host.isKnown hash

abbrev PeerBlocks := List (Nat × List Nat)

namespace PeerBlocks

def blocks (table : PeerBlocks) (peer : Nat) : List Nat := (table.lookup peer).getD []

def erase (table : PeerBlocks) (peer : Nat) : PeerBlocks :=
  table.filter fun entry => decide (entry.1 ≠ peer)

def assign (table : PeerBlocks) (peer : Nat) (numbers : List Nat) : PeerBlocks :=
  (peer, numbers) :: erase table peer

def pushBack (table : PeerBlocks) (peer number : Nat) : PeerBlocks :=
  assign table peer (blocks table peer ++ [number])

end PeerBlocks

end BlockChainSync

open BlockChainSync

structure BlockChainSync where
  state : SyncState := .idle
  startingBlock : Nat := 0
  highestBlock : Nat := 0
  downloadingHeaders : Finset Nat := ∅
  downloadingBodies : Finset Nat := ∅
  headers : Chunks Header := []
  bodies : Chunks Bytes := []
  headerSyncPeers : PeerBlocks := []
  bodySyncPeers : PeerBlocks := []
  headerIdToNumber : H256 → Option Nat := fun _ => none
  haveCommonHeader : Bool := false
  lastImportedBlock : Nat := 0
  lastImportedBlockHash : H256 := 0
  syncingTotalDifficulty : Nat := 0
  calls : List Call := []

namespace BlockChainSync

def opened (host : Host) : BlockChainSync where
  startingBlock := host.number
  lastImportedBlock := host.number
  lastImportedBlockHash := host.currentHash

def call (s : BlockChainSync) (made : Call) : BlockChainSync :=
  { s with calls := s.calls ++ [made] }

def resetSync (s : BlockChainSync) : BlockChainSync :=
  { s with
    downloadingHeaders := ∅
    downloadingBodies := ∅
    headers := []
    bodies := []
    headerSyncPeers := []
    bodySyncPeers := []
    headerIdToNumber := fun _ => none
    syncingTotalDifficulty := 0
    state := .notSynced }

def restartSync (host : Host) (s : BlockChainSync) : BlockChainSync :=
  { s.resetSync.call .clear with
    highestBlock := 0
    haveCommonHeader := false
    startingBlock := host.number
    lastImportedBlock := host.number
    lastImportedBlockHash := host.currentHash }

def completeSync (s : BlockChainSync) : BlockChainSync := { s.resetSync with state := .idle }

def pauseSync (s : BlockChainSync) : BlockChainSync := { s with state := .waiting }

/-- Without headers left the bodies are cleared and the synchronization is complete. -/
def completeWhenEmpty (s : BlockChainSync) : BlockChainSync :=
  if s.headers.isEmpty then { s with bodies := [] }.completeSync else s

def clearPeerDownload (peer : Nat) (s : BlockChainSync) : BlockChainSync :=
  { s with
    downloadingHeaders := s.downloadingHeaders \ (s.headerSyncPeers.blocks peer).toFinset
    headerSyncPeers := s.headerSyncPeers.erase peer
    downloadingBodies := s.downloadingBodies \ (s.bodySyncPeers.blocks peer).toFinset
    bodySyncPeers := s.bodySyncPeers.erase peer }

def clearExpired (expired : Nat → Bool) (s : BlockChainSync) : BlockChainSync :=
  let gone (table : PeerBlocks) : PeerBlocks := table.filter fun entry => expired entry.1
  let kept (table : PeerBlocks) : PeerBlocks := table.filter fun entry => !expired entry.1
  { s with
    downloadingHeaders :=
    s.downloadingHeaders \ ((gone s.headerSyncPeers).flatMap Prod.snd).toFinset
    headerSyncPeers := kept s.headerSyncPeers
    downloadingBodies := s.downloadingBodies \ ((gone s.bodySyncPeers).flatMap Prod.snd).toFinset
    bodySyncPeers := kept s.bodySyncPeers }

/-! Asking a peer for blocks. -/

section Requests

variable (host : Host) (peer : SyncPeer)

/-- The blocks of the first run that follow the last imported one and miss a body. -/
def neededBodies (s : BlockChainSync) : List (Nat × H256) :=
  match s.headers with
  | [] => []
  | (first, headers) :: _ =>
      if s.haveCommonHeader ∧ first = toUnsigned (s.lastImportedBlock + 1) then
        let numbered := headers.zipIdx.map fun entry => (first + entry.2, entry.1.hash)
        (numbered.filter fun entry => decide (entry.1 ∉ s.downloadingBodies) &&
          !DownloadMap.haveItem s.bodies entry.1 && decide (entry.1 ≤ peer.height)).take
            c_maxRequestBodies
      else []

/-- The numbers at the front of a window that are being downloaded or that the peer does not have
are skipped. -/
def skipped (s : BlockChainSync) : Nat → Nat → Nat × Nat
  | start, 0 => (start, 0)
  | start, count + 1 =>
      if start ∈ s.downloadingHeaders ∨ peer.height < start then skipped s (start + 1) count
      else (start, count + 1)

def windows (s : BlockChainSync) (limit : Nat) : Nat → Nat → Nat × Nat
  | 0, start => (start, 0)
  | more + 1, start =>
      let window := s.skipped peer start (min c_maxRequestHeaders (limit - start))
      if window.2 = 0 then windows s limit more window.1 else window

def missingHeaders (s : BlockChainSync) : Chunks Header → Nat → Option (Nat × Nat)
  | [], _ => none
  | (first, headers) :: later, start =>
      let window := s.windows peer first ((first - start) / c_maxRequestHeaders + 1) start
      if window.2 = 0 then missingHeaders s later (first + headers.length) else some window

def requestHeaders (s : BlockChainSync) : BlockChainSync × Bool :=
  let start := toUnsigned (s.lastImportedBlock + 1)
  let found := match s.headers with
    | [] => none
    | (first, headers) :: later =>
        if first ≤ start then s.missingHeaders peer later (first + headers.length)
        else s.missingHeaders peer s.headers start
  match found with
  | none => (s, false)
  | some (start, count) =>
      ({ s with
          downloadingHeaders := s.downloadingHeaders ∪ (List.range' start count).toFinset
          headerSyncPeers := s.headerSyncPeers.assign peer.id (List.range' start count)
          calls := s.calls ++ [.requestBlockHeaders peer.id start count] }, true)

/-- Backwards, one header at a time, until the common block is found. -/
def previousBlock (s : BlockChainSync) : Nat :=
  match s.headers with
  | [] => s.lastImportedBlock
  | (first, _) :: _ => min s.lastImportedBlock (toUnsigned (first + (2 ^ 32 - 1)))

/-- `requestBlocks`, with its call of itself at genesis as a parameter. -/
def requestLevel (again : BlockChainSync → BlockChainSync × Bool) (s : BlockChainSync) :
    BlockChainSync × Bool :=
  let s := s.clearPeerDownload peer.id
  if host.knownFull then (s.pauseSync, false)
  else
    let needed := s.neededBodies peer
    if needed ≠ [] then
      ({ s with
          downloadingBodies := s.downloadingBodies ∪ (needed.map Prod.fst).toFinset
          bodySyncPeers := s.bodySyncPeers.assign peer.id (needed.map Prod.fst)
          calls := s.calls ++ [.requestBlockBodies peer.id (needed.map Prod.snd)] }, true)
    else if s.haveCommonHeader then s.requestHeaders peer
    else
      let start := s.previousBlock
      let s := { s with lastImportedBlock := start, lastImportedBlockHash := host.numberHash start }
      if start = 0 then again { s with haveCommonHeader := true }
      else
        ({ s with
            downloadingHeaders := insert start s.downloadingHeaders
            headerSyncPeers := s.headerSyncPeers.pushBack peer.id start
            calls := s.calls ++ [.requestBlockHeaders peer.id start 1] }, true)

def requestBlocks : BlockChainSync → BlockChainSync × Bool :=
  requestLevel host peer (requestLevel host peer fun s => (s, false))

def syncPeer (force : Bool) (s : BlockChainSync) : BlockChainSync × Bool :=
  if peer.asking ≠ .nothing then (s, false)
  else if s.state = .waiting then (s, false)
  else
    let td := if host.active then u256Add host.totalDifficulty host.difficulty
      else host.totalDifficulty
    if force ∨ max s.syncingTotalDifficulty td < peer.totalDifficulty then
      let height := toUnsigned peer.height
      ({ s with
          syncingTotalDifficulty := peer.totalDifficulty
          state := if s.state = .idle ∨ s.state = .notSynced then .blocks else s.state
          downloadingHeaders := insert height s.downloadingHeaders
          headerSyncPeers := s.headerSyncPeers.pushBack peer.id height
          calls := s.calls ++ [.requestBlockHeader peer.id peer.latestHash] }, true)
    else if s.state = .blocks then s.requestBlocks host peer
    else (s, false)

end Requests

/-! What the handlers do. -/

inductive Work
  /-- The item of a message with headers. -/
  | header (r : Bytes) (i : Nat)
  | body (r : Bytes) (i : Nat)
  | collectBlocks
  /-- The block of the first runs that `collectBlocks` imports next. -/
  | importBlock (i : Nat)
  | syncPeer (peer : SyncPeer) (force : Bool)
  | continueSync
  /-- Back to the state before, unless a peer was asked. -/
  | restore (rawState : SyncState)

/-- A part of a handler ends with more to do in its place, or with a return or an exception. -/
inductive Flow
  | goes (s : BlockChainSync) (more : List Work)
  | leaves (s : BlockChainSync)

section Handlers

variable (C : Crypto) (trieRootOver : List Bytes → H256) (host : Host)

def removeBlock (number : Nat) (s : BlockChainSync) : Option BlockChainSync :=
  (DownloadMap.removeItem s.headers number).bind fun headers =>
    (DownloadMap.removeItem s.bodies number).map fun bodies => { s with headers, bodies }

def onBlockImported (info : BlockHeader) (s : BlockChainSync) : Option BlockChainSync :=
  if s.lastImportedBlock < info.number then
    let number := toUnsigned info.number
    let hash := info.hash C .withSeal
    let s := { s with
      lastImportedBlock := number
      lastImportedBlockHash := hash
      highestBlock := max number s.highestBlock }
    (DownloadMap.findItem s.headers number).bind fun head =>
      (if head.any fun header => decide (header.hash = hash) then s.removeBlock number
        else some s).map fun s =>
        { s with
          headerIdToNumber := Function.update s.headerIdToNumber hash none
          downloadingBodies := s.downloadingBodies.erase number
          downloadingHeaders := s.downloadingHeaders.erase number }.completeWhenEmpty
  else some s

/-- The check of a new peer, with the reason it is disabled for. -/
def statusRefusal (peer : SyncPeer) : Option String :=
  if peer.genesisHash ≠ host.genesisHash then some "Invalid genesis hash"
  else if peer.protocolVersion ≠ host.protocolVersion ∧
    peer.protocolVersion ≠ 62 then some "Invalid protocol version."
  else if peer.networkId ≠ host.networkId then some "Invalid network identifier."
  else if "/v0.7.0/".toList <:+: peer.clientVersion.toList then some "Blacklisted client version."
  else if host.isBanned peer.id then some "Peer banned for previous bad behaviour."
  else if peer.asking ≠ .state ∧
    peer.asking ≠ .nothing then some "Peer banned for unexpected status message."
  else none

def onPeerStatus (peer : SyncPeer) (s : BlockChainSync) : Flow :=
  match statusRefusal host peer with
  | some reason => .leaves (s.call (.disable peer.id reason))
  | none => .goes s [.syncPeer peer false]

/-- The headers that follow one that they do not descend from. -/
def dropFollowing (number : Nat) (headers : List Header) (s : BlockChainSync) :
    Option BlockChainSync :=
  let numbers := (List.range' number headers.length).toFinset
  (DownloadMap.removeAllStartingWith s.headers number).bind fun left =>
    (DownloadMap.removeAllStartingWith s.bodies number).map fun bodies =>
      { s with
        headerIdToNumber := fun hash => if ∃ h ∈ headers, h.hash = hash then none
        else s.headerIdToNumber hash
        downloadingBodies := s.downloadingBodies \ numbers
        downloadingHeaders := s.downloadingHeaders \ numbers
        headers := left
        bodies }

def mergeHeader (number : Nat) (header : Header) (s : BlockChainSync) : BlockChainSync :=
  { s with
    headers := DownloadMap.mergeInto s.headers number header
    headerIdToNumber := Function.update s.headerIdToNumber header.hash (some number) }

/-- One header of a message, once a common header is there: its links are checked. -/
def linkHeader (number : Nat) (header : Header) (s : BlockChainSync) : Option Flow :=
  (DownloadMap.findItem s.headers (toUnsigned (number + (2 ^ 32 - 1)))).bind fun prevBlock =>
    if (prevBlock.any fun prev => decide (prev.hash ≠ header.parent)) ∨
        (number = toUnsigned (s.lastImportedBlock + 1) ∧
          header.parent ≠ s.lastImportedBlockHash) then
      some (.leaves (s.restartSync host))
    else
      let following := toUnsigned (number + 1)
      (DownloadMap.findItem s.headers following).bind fun nextBlock =>
        if nextBlock.any fun next => decide (next.parent ≠ header.hash) then
          match DownloadMap.itemsAt (DownloadMap.lowerBound s.headers following).2 following with
          | none => some (.leaves s)
          | some headers => (s.dropFollowing following headers).map fun s =>
              .goes (s.mergeHeader number header) []
        else some (.goes (s.mergeHeader number header) [])

def onHeader (data : Option Bytes) (s : BlockChainSync) : Option Flow :=
  match data.bind fun data => (BlockHeader.ofHeaderData C data 0).map fun info => (data, info) with
  | none => some (.leaves s)
  | some (data, info) =>
      let number := toUnsigned info.number
      let hash := info.hash C .withSeal
      if DownloadMap.haveItem s.headers number then some (.goes s [])
      else if number ≤ s.lastImportedBlock ∧ s.haveCommonHeader then some (.goes s [])
      else
        let s := { s with highestBlock := max number s.highestBlock }
        if host.has hash then
          some (.goes { s with
            haveCommonHeader := true
            lastImportedBlock := number
            lastImportedBlockHash := hash } [])
        else
          let header : Header := ⟨data, hash, info.parentHash⟩
          if s.haveCommonHeader then s.linkHeader host number header
          else some (.goes (s.mergeHeader number header) [])

def expecting (s : BlockChainSync) : Bool :=
  decide (s.state = .blocks) || decide (s.state = .newBlocks)

/-- A message with headers or bodies, whose items are looked at one after the other. -/
def onItems (work : Bytes → Nat → Work) (peer : SyncPeer) (r : Bytes) (s : BlockChainSync) : Flow :=
  match items r with
  | none => .leaves s
  | some all =>
      let s := s.clearPeerDownload peer.id
      if s.expecting then
        .goes s ((List.range all.length).map (work r) ++ [.collectBlocks, .continueSync])
      else .leaves s

def onPeerBlockHeaders (peer : SyncPeer) (r : Bytes) (s : BlockChainSync) : Flow :=
  s.onItems .header peer r

def onPeerBlockBodies (peer : SyncPeer) (r : Bytes) (s : BlockChainSync) : Flow :=
  s.onItems .body peer r

def bodyRoots (body : Bytes) : Option (H256 × H256) :=
  ((item body 0).bind items).bind fun transactions =>
    (item body 1).map fun uncles => (trieRootOver transactions, C.sha3 uncles)

def onBody (data : Option Bytes) (s : BlockChainSync) : Option Flow :=
  match data.bind fun data => ((item data 2).bind (toHashStrict 32)).map fun id => (data, id) with
  | none => some (.leaves s)
  | some (data, id) =>
      match s.headerIdToNumber id with
      | none => some (.goes s [])
      | some number =>
          (DownloadMap.findItem s.headers number).map fun header =>
            match header with
            | none => .goes s []
            | some header =>
                if DownloadMap.haveItem s.bodies number then .goes s []
                else
                  match bodyRoots C trieRootOver data, BlockHeader.ofHeaderData C header.data 0 with
                  | some roots, some info =>
                      if roots = (info.transactionsRoot, info.sha3Uncles) then
                        .goes { s with
                          headerIdToNumber := Function.update s.headerIdToNumber id none
                          bodies := DownloadMap.mergeInto s.bodies number data } []
                      else .goes s []
                  | _, _ => .leaves s

/-- Whether the headers and bodies at the front are imported. -/
def collectBlocks (s : BlockChainSync) : BlockChainSync × Bool :=
  if s.haveCommonHeader ∧ s.headers.isEmpty ∧ s.downloadingHeaders = ∅ ∧
  s.downloadingBodies = ∅ then
    ({ s with bodies := [] }.completeSync, false)
  else
    match s.headers, s.bodies with
    | (firstHeader, _) :: _, (firstBody, _) :: _ =>
        (s, s.haveCommonHeader && decide (firstHeader = firstBody) &&
          decide (firstHeader = toUnsigned (s.lastImportedBlock + 1)))
    | _, _ => (s, false)

def blockOf (header : Header) (body : Bytes) : Option Bytes :=
  (construct body).bind fun body =>
    (item body 0).bind fun transactions => (item body 1).bind fun uncles =>
      (item body 2).bind fun hash => (item body 3).map fun signList =>
        appendList (header.data ++ transactions ++ uncles ++ hash ++ signList)

/-- What an imported block of `collectBlocks` leads to. -/
def onImported (number : Nat) (header : Header) (i : Nat) (result : ImportResult)
    (s : BlockChainSync) : Flow :=
  match result with
  | .success =>
      let s := if s.lastImportedBlock < number then
        { s with lastImportedBlock := number, lastImportedBlockHash := header.hash } else s
      .goes { s with
        highestBlock := max s.lastImportedBlock s.highestBlock
        downloadingBodies := s.downloadingBodies.erase number
        downloadingHeaders := s.downloadingHeaders.erase number } [.importBlock (i + 1)]
  | .malformed | .badChain => .goes (s.restartSync host) []
  | .futureTimeKnown | .alreadyInChain | .alreadyKnown => .goes s [.importBlock (i + 1)]
  | .futureTimeUnknown | .unknownParent =>
      -- a fork: the common header is searched for again
      .goes (if s.lastImportedBlock < number then { s.resetSync with haveCommonHeader := false }
        else s) []

def onCollected (i : Nat) (s : BlockChainSync) : BlockChainSync :=
  if host.unknownFull then s.restartSync host
  else
    let s :=
      { s with headers := DownloadMap.dropFront s.headers i, bodies :=
        DownloadMap.dropFront s.bodies i }
    if s.headers.isEmpty then s.completeSync else s

def onImport (i : Nat) (s : BlockChainSync) : Flow :=
  match s.headers, s.bodies with
  | (first, headers) :: _, (_, bodies) :: _ =>
      match headers[i]?, bodies[i]? with
      | some header, some body =>
          match blockOf header body with
          | none => .leaves s
          | some block =>
              let s := s.call (.importCollected header body block)
              match host.imports block with
              | none => .leaves s
              | some result => s.onImported host (toUnsigned (first + i)) header i result
      | _, _ => .goes (s.onCollected host i) []
  | _, _ => .goes s []

def learned (peer : SyncPeer) (number : Nat) (hash : H256) (totalDifficulty : Nat) : SyncPeer :=
  { peer with
    height := max peer.height number
    latestHash := if peer.height < number then hash else peer.latestHash
    totalDifficulty := max peer.totalDifficulty totalDifficulty }

def onOwnBlock (number : Nat) (hash : H256) (s : BlockChainSync) : Option BlockChainSync :=
  let s := if s.lastImportedBlock < number then
    { s with lastImportedBlock := number, lastImportedBlockHash := hash } else s
  ({ s with
      highestBlock := max s.lastImportedBlock s.highestBlock
      downloadingBodies := s.downloadingBodies.erase number
      downloadingHeaders := s.downloadingHeaders.erase number }.removeBlock number).map
        completeWhenEmpty

/-- The block with its header and total difficulty, of a message with a new block. -/
def newBlock (r : Bytes) : Option (Bytes × BlockHeader × Nat) :=
  (item r 0).bind fun block => (item block 0).bind fun data =>
    (BlockHeader.ofHeaderData C data 0).bind fun info =>
      ((item r 1).bind (toInt 32)).map fun totalDifficulty => (block, info, totalDifficulty)

def onPeerNewBlock (peer : SyncPeer) (r : Bytes) (s : BlockChainSync) : Option Flow :=
  match items r with
  | none => some (.leaves s)
  | some all =>
      if all.length ≠ 2 then
        some (.leaves (s.call (.disable peer.id "NewBlock without 2 data fields.")))
      else
        match newBlock C r with
        | none => some (.leaves s)
        | some (block, info, totalDifficulty) =>
            let number := toUnsigned info.number
            let hash := info.hash C .withSeal
            let known := learned peer info.number hash totalDifficulty
            if toUnsigned (s.lastImportedBlock + 1) < number then
              some (.goes s [.syncPeer known true])
            else
              let s := s.call (.importReceived block)
              match host.imports block with
              | none => some (.leaves s)
              | some .success => (s.onOwnBlock number hash).map fun s => .goes s []
              | some .malformed | some .badChain =>
                  some (.leaves (s.call (.disable peer.id "Malformed block received.")))
              | some .futureTimeKnown | some .alreadyInChain | some .alreadyKnown =>
                  some (.goes s [])
              | some .futureTimeUnknown | some .unknownParent =>
                  let s := if c_maxPeerUknownNewBlocks < peer.unknownNewBlocks + 1 then
                    (s.call (.disable peer.id "Too many uknown new blocks")).restartSync host else s
                  some (.goes s (if peer.totalDifficulty < totalDifficulty then
                    [.syncPeer { known with unknownNewBlocks := peer.unknownNewBlocks + 1 } true]
                      else []))

/-- The new hashes of a message, up to a bad one: what is known of the peer then, and how many are
unknown. -/
def learnHashes : List (H256 × Nat) → SyncPeer → Nat → Option (SyncPeer × Nat)
  | [], peer, unknowns => some (peer, unknowns)
  | (hash, number) :: rest, peer, unknowns =>
      let peer := if peer.height < number then { peer with height := number, latestHash := hash }
        else peer
      if host.has hash then learnHashes rest peer unknowns
      else if host.blockStatus hash = .bad then none
      else learnHashes rest peer (if host.blockStatus hash = .unknown then unknowns + 1
        else unknowns)

def newHash (d : Bytes) : Option (H256 × Nat) :=
  ((item d 0).bind (toHashStrict 32)).bind fun hash => ((item d 1).bind (toInt 32)).map
    fun number => (hash, number)

def onPeerNewHashes (peer : SyncPeer) (r : Bytes) (s : BlockChainSync) : Flow :=
  match (items r).bind fun all => all.mapM newHash with
  | none => .leaves s
  | some hashes =>
      if peer.asking ≠ .nothing then .leaves s
      else
        match learnHashes host hashes peer 0 with
        | none => .leaves s
        | some (peer, unknowns) => .goes s (if 0 < unknowns then [.syncPeer peer true] else [])

end Handlers

/-! Steps. -/

inductive Event
  | roomAvailable
  | forceSync
  | blockImported (info : BlockHeader)
  | peerStatus (peer : SyncPeer)
  | peerBlockHeaders (peer : SyncPeer) (r : Bytes)
  | peerBlockBodies (peer : SyncPeer) (r : Bytes)
  | peerNewBlock (peer : SyncPeer) (r : Bytes)
  | peerNewHashes (peer : SyncPeer) (r : Bytes)
  | peerAborting (expired : Nat → Bool)
  | restart
  /-- The handler that is running goes on. -/
  | next
  /-- `continueSync` comes to a peer. -/
  | turn (peer : SyncPeer)

/-- The synchronization with the handler that is running, and whether a peer was asked in
`continueSync`. -/
structure Machine where
  sync : BlockChainSync
  agenda : List Work := []
  asked : Bool := false

section Steps

variable (C : Crypto) (trieRootOver : List Bytes → H256) (host : Host)

def handle (event : Event) (s : BlockChainSync) : Option Flow :=
  match event with
  | .roomAvailable => some (.goes { s with state := .blocks } [.continueSync, .restore s.state])
  | .forceSync =>
      if s.state = .blocks then some (.goes s [])
      else some (.goes { s with state := .blocks } [.continueSync, .restore s.state])
  | .blockImported info => (s.onBlockImported C info).map fun s => .goes s []
  | .peerStatus peer => some (s.onPeerStatus host peer)
  | .peerBlockHeaders peer r => some (s.onPeerBlockHeaders peer r)
  | .peerBlockBodies peer r => some (s.onPeerBlockBodies peer r)
  | .peerNewBlock peer r => s.onPeerNewBlock C host peer r
  | .peerNewHashes peer r => some (s.onPeerNewHashes host peer r)
  | .peerAborting expired => some (.goes (s.clearExpired expired) [.continueSync])
  | .restart => some (.goes (s.restartSync host) [])
  | .next | .turn _ => some (.goes s [])

def proceed (asked : Bool) (work : Work) (s : BlockChainSync) : Option Flow :=
  match work with
  | .header r i => s.onHeader C host (item r i)
  | .body r i => s.onBody C trieRootOver (item r i)
  | .collectBlocks =>
      let collected := s.collectBlocks
      some (.goes collected.1 (if collected.2 then [.importBlock 0] else []))
  | .importBlock i => some (s.onImport host i)
  | .syncPeer peer force => some (.goes (s.syncPeer host peer force).1 [])
  | .continueSync => some (.goes s [])
  | .restore rawState => some (.goes (if asked then s else { s with state := rawState }) [])

def Machine.follow (m : Machine) (rest : List Work) : Flow → Machine
  | .goes s more => { m with sync := s, agenda := more ++ rest }
  | .leaves s => { m with sync := s, agenda := [] }

def Machine.step (m : Machine) (event : Event) : Option Machine :=
  match m.agenda, event with
  | [], event => (handle C host event m.sync).map ({ m with asked := false }.follow [])
  | work :: rest, .next => (proceed C trieRootOver host m.asked work m.sync).map (m.follow rest)
  | .continueSync :: _, .turn peer =>
      let turned := m.sync.syncPeer host peer false
      some { m with sync := turned.1, asked := m.asked || turned.2 }
  | _ :: _, _ => some m

end Steps

end BlockChainSync

end UtispaceChain
