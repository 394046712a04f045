import UtispaceChain.Cv.BlockChain
import UtispaceChain.Cv.SyncSteps

/-! The downloaded bodies stand beside their headers, and the blocks that are handed to the queue
are made of such pairs. -/

namespace UtispaceChain.BlockChainSync

open Lib Chunks Rlp
open DownloadMap (Severs Sound)

section Pairs

variable (C : Crypto) (trieRootOver : List Bytes → H256)

/-- Every body is one that the header beside it commits to, and so is every body of a block that was
handed on. -/
structure Paired (s : BlockChainSync) : Prop where
  held : ∀ n body, get s.bodies n = some body →
    ∃ header, get s.headers n = some header ∧ Genuine C n header ∧
    Matches C trieRootOver header body
  handed : ∀ pair ∈ s.handed, blockOf pair.1 pair.2.1 = some pair.2.2 ∧
    Matches C trieRootOver pair.1 pair.2.1

variable {C trieRootOver} {host : Host} {s t : BlockChainSync} {new : Option (Nat × Header)}
    {arrival : Option (Nat × H256)} {searches : Prop}

theorem Paired.same (paired : s.Paired C trieRootOver) (headers : t.headers = s.headers)
    (bodies : t.bodies = s.bodies) (handed : t.handed = s.handed) : t.Paired C trieRootOver where
  held := headers ▸ bodies ▸ paired.held
  handed := handed ▸ paired.handed

theorem Paired.lost (paired : s.Paired C trieRootOver)
    (bodies : ∀ n body, get t.bodies n = some body → get s.bodies n = some body ∧
      get t.headers n = get s.headers n) (handed : t.handed = s.handed) :
      t.Paired C trieRootOver where
  held n body held := by
    rcases bodies n body held with ⟨before, same⟩
    exact same ▸ paired.held n body before
  handed := handed ▸ paired.handed

theorem Paired.cleared (paired : s.Paired C trieRootOver) (cleared : s.Cleared t) :
    t.Paired C trieRootOver := by
  apply paired.lost _ cleared.handed
  intro n body held
  rw [cleared.bodies] at held
  cases held

theorem Paired.hands {number : Nat} {header : Header} {body block : Bytes}
    (paired : s.Paired C trieRootOver) (hands : s.Hands number header body block t) :
    t.Paired C trieRootOver := by
  refine ⟨hands.headers ▸ hands.bodies ▸ paired.held, fun pair member => ?_⟩
  rw [hands.handed] at member
  rcases List.mem_append.mp member with old | new
  · exact paired.handed pair old
  · rw [List.mem_singleton.mp new]
    rcases paired.held number body hands.heldBody with ⟨other, beside, -, fits⟩
    rw [hands.heldHeader] at beside
    cases beside
    exact ⟨hands.made, fits⟩

theorem Paired.change (steady : s.Steady C) (paired : s.Paired C trieRootOver)
    (change : s.Change C trieRootOver host new arrival searches t) : t.Paired C trieRootOver := by
  cases change with
  | quiet quiet => exact paired.same quiet.headers quiet.bodies quiet.handed
  | cleared cleared => exact paired.cleared cleared
  | searched _ quiet => exact paired.same quiet.headers quiet.bodies quiet.handed
  | known _ _ reaches => exact paired.same reaches.headers reaches.bodies reaches.handed
  | merged _ _ free _ _ merges =>
      exact paired.lost (fun _ _ held => merges.body steady free held) merges.handed
  | @joined number header body joins =>
      refine ⟨fun n other held => ?_, joins.handed ▸ paired.handed⟩
      rw [joins.headers]
      by_cases here : n = number
      · rw [joins.bodies, here, Function.update_self] at held
        cases held
        exact ⟨header, here ▸ joins.held, here ▸ steady.genuine number header joins.held,
          joins.fitting⟩
      · rw [joins.bodies, Function.update_of_ne here] at held
        exact paired.held n other held
  | handed hands _ => exact paired.hands hands
  | refused hands cleared => exact (paired.hands hands).cleared cleared
  | @dropped number drops =>
      apply paired.lost _ drops.handed
      intro n body held
      rw [drops.bodies] at held
      rw [drops.headers]
      split at held
      case isTrue => cases held
      case isFalse kept => exact ⟨held, if_neg kept⟩
  | arrived loses _ => exact paired.lost loses.bodies loses.handed

theorem paired_opened (host : Host) : (opened host).Paired C trieRootOver where
  held n body held := by cases held
  handed pair member := by cases member

end Pairs

/-- In every state of a run every body stands beside a header that commits to it, and the blocks
handed to the queue were made of such pairs, if and only if no block that comes by another way is
taken out of a run of downloads. -/
theorem bodies_beside_headers (C : Crypto) (trieRootOver : List Bytes → H256) (host : Host)
    (events : List (Host × Event)) :
    (∃ m, run (advance C trieRootOver) (start host) events = some m ∧
      m.sync.Paired C trieRootOver) ↔
      ∀ entry ∈ trace (advance C trieRootOver) (start host) events, ∀ m ∈ entry.1,
      m.Clean C entry.2.1 entry.2.2 := by
  constructor
  · rintro ⟨m, reached, -⟩
    exact (clean_of_run host events reached).2
  · intro clean
    rcases run_keeps (Paired C trieRootOver) (fun _ _ _ => True) host (paired_opened host)
        (fun _ _ _ _ steady paired _ change => paired.change steady.sync change) events
        (fun entry member m here => ⟨clean entry member m here, trivial⟩)
          with ⟨m, reached, -, paired⟩
    exact ⟨m, reached, paired⟩

/-! A host at block 1, while a peer is at block 2 and another one has a block 1 of its own. -/

def forkHost : Host := { number := 1, currentHash := 7 }

def forkHeader (parent : H256) (number : Nat) : BlockHeader :=
  { parentHash := parent, number, timestamp := 2 }

def headersMessage (headers : List BlockHeader) : Bytes :=
  appendList (headers.map fun header => header.streamRLP .withSeal).flatten

def farPeer : SyncPeer :=
  { id := 1, protocolVersion := 63, height := 2, latestHash := 8, totalDifficulty := 5 }

def nearPeer : SyncPeer :=
  { id := 2, protocolVersion := 63, height := 1, latestHash := 9, totalDifficulty := 1 }

/-- The one is asked for its latest header and the other one for header 1. -/
def forkDownload (host : Host) (parent : H256) : List (Host × Event) :=
  ([.peerStatus farPeer, .next, .peerBlockHeaders farPeer (headersMessage [forkHeader parent 2]),
    .next, .next, .turn nearPeer, .next,
      .peerBlockHeaders nearPeer (headersMessage [forkHeader 3 1]), .next, .next] : List Event).map
      fun event => (host, event)

/-- Then block 2, over the host's own block 1, is imported. -/
theorem fork_import_undefined :
    ((run (advance Crypto.toy fun _ => 0) (start forkHost) (forkDownload forkHost 7)).map fun m =>
      m.sync.headers.map fun chunk => (chunk.1, chunk.2.map Header.parent)) = some [(1, [3, 7])] ∧
    ¬ ∃ m, run (advance Crypto.toy fun _ => 0) (start forkHost)
        (forkDownload forkHost 7 ++
          [(forkHost, .next), (forkHost, .blockImported (forkHeader 7 2))]) = some m ∧
      m.sync.Paired Crypto.toy fun _ => 0 := by
  have undefined : (run (advance Crypto.toy fun _ => 0) (start forkHost)
      (forkDownload forkHost 7 ++
        [(forkHost, .next), (forkHost, .blockImported (forkHeader 7 2))])).isNone = true := by
    decide +kernel
  refine ⟨by decide +kernel, ?_⟩
  rintro ⟨m, reached, -⟩
  rw [reached] at undefined
  cases undefined

end UtispaceChain.BlockChainSync
