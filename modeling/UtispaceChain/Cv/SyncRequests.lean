import UtispaceChain.Cv.BlockChainSync

/-! The requests of the block chain synchronization touch no header and no body. -/

namespace UtispaceChain.BlockChainSync

open Lib Chunks Rlp

def Call.collected : Call → Option (Header × Bytes × Bytes)
  | .importCollected header body block => some (header, body, block)
  | _ => none

def handed (s : BlockChainSync) : List (Header × Bytes × Bytes) := s.calls.filterMap Call.collected

structure Quiet (s t : BlockChainSync) : Prop where
  headers : t.headers = s.headers
  bodies : t.bodies = s.bodies
  common : t.haveCommonHeader = s.haveCommonHeader
  last : t.lastImportedBlock = s.lastImportedBlock
  lastHash : t.lastImportedBlockHash = s.lastImportedBlockHash
  handed : t.handed = s.handed

structure Cleared (s t : BlockChainSync) : Prop where
  headers : t.headers = []
  bodies : t.bodies = []
  handed : t.handed = s.handed

variable {s t u : BlockChainSync} {host : Host} {peer : SyncPeer}

theorem Quiet.refl (s : BlockChainSync) : s.Quiet s := ⟨rfl, rfl, rfl, rfl, rfl, rfl⟩

theorem Quiet.trans (first : s.Quiet t) (later : t.Quiet u) : s.Quiet u where
  headers := later.headers.trans first.headers
  bodies := later.bodies.trans first.bodies
  common := later.common.trans first.common
  last := later.last.trans first.last
  lastHash := later.lastHash.trans first.lastHash
  handed := later.handed.trans first.handed

theorem handed_of_calls {more : List Call} (calls : t.calls = s.calls ++ more)
    (other : more.filterMap Call.collected = []) :
    t.handed = s.handed := by
  rw [BlockChainSync.handed, calls, List.filterMap_append, other, List.append_nil]
  rfl

theorem cleared_restartSync (s : BlockChainSync) (host : Host) : s.Cleared (s.restartSync host) :=
  ⟨rfl, rfl, handed_of_calls rfl rfl⟩

theorem quiet_clearPeerDownload (s : BlockChainSync) (id : Nat) :
    s.Quiet (s.clearPeerDownload id) :=
  ⟨rfl, rfl, rfl, rfl, rfl, rfl⟩

theorem quiet_clearExpired (s : BlockChainSync) (expired : Nat → Bool) :
    s.Quiet (s.clearExpired expired) :=
  ⟨rfl, rfl, rfl, rfl, rfl, rfl⟩

theorem quiet_call (s : BlockChainSync) {made : Call} (other : made.collected = none) :
    s.Quiet (s.call made) :=
  ⟨rfl, rfl, rfl, rfl, rfl,
    handed_of_calls rfl (by rw [List.filterMap_cons, other, List.filterMap_nil])⟩

theorem quiet_requestHeaders (s : BlockChainSync) (peer : SyncPeer) :
    s.Quiet (s.requestHeaders peer).1 := by
  unfold requestHeaders
  dsimp only
  split
  · exact .refl s
  · exact ⟨rfl, rfl, rfl, rfl, rfl, handed_of_calls rfl rfl⟩

def searched (host : Host) (s : BlockChainSync) : BlockChainSync :=
  { s with
    lastImportedBlock := s.previousBlock
    lastImportedBlockHash := host.numberHash s.previousBlock
    haveCommonHeader := decide (s.previousBlock = 0) }

theorem neededBodies_searching (searching : s.haveCommonHeader = false) :
    s.neededBodies peer = [] := by
  unfold neededBodies
  split
  · rfl
  · rw [if_neg fun here => Bool.false_ne_true (searching.symm.trans here.1)]

theorem requestLevel_quiet (again : BlockChainSync → BlockChainSync × Bool)
    (common : s.haveCommonHeader = true) :
    s.Quiet (requestLevel host peer again s).1 := by
  unfold requestLevel
  dsimp only
  have cleared := quiet_clearPeerDownload s peer.id
  generalize s.clearPeerDownload peer.id = t at cleared
  have common' : t.haveCommonHeader = true := cleared.common.trans common
  refine cleared.trans ?_
  split
  case isTrue => exact ⟨rfl, rfl, rfl, rfl, rfl, rfl⟩
  case isFalse =>
    split
    case isTrue => exact ⟨rfl, rfl, rfl, rfl, rfl, handed_of_calls rfl rfl⟩
    case isFalse => exact quiet_requestHeaders t peer

theorem requestLevel_searching (peer : SyncPeer) (again : BlockChainSync → BlockChainSync × Bool)
    (searching : s.haveCommonHeader = false) (room : host.knownFull = false) :
    ∃ t, (s.searched host).Quiet t ∧
    (t.haveCommonHeader = false ∧ (requestLevel host peer again s).1 = t ∨
      t.haveCommonHeader = true ∧ requestLevel host peer again s = again t) := by
  unfold requestLevel
  dsimp only
  have cleared := quiet_clearPeerDownload s peer.id
  have previous : (s.clearPeerDownload peer.id).previousBlock = s.previousBlock := rfl
  have none : (s.clearPeerDownload peer.id).neededBodies peer = [] :=
    neededBodies_searching (cleared.common.trans searching)
  rw [room, if_neg Bool.false_ne_true, none, if_neg (not_not_intro rfl), cleared.common, searching,
    if_neg Bool.false_ne_true, previous]
  by_cases genesis : s.previousBlock = 0
  · rw [if_pos genesis]
    refine ⟨_, ?_, .inr ⟨rfl, rfl⟩⟩
    exact ⟨rfl, rfl, (decide_eq_true genesis).symm, rfl, rfl, rfl⟩
  · rw [if_neg genesis]
    refine ⟨_, ?_, .inl ⟨rfl, rfl⟩⟩
    exact ⟨rfl, rfl, (decide_eq_false genesis).symm, rfl, rfl, handed_of_calls rfl rfl⟩

theorem requestBlocks_cases (host : Host) (peer : SyncPeer) (s : BlockChainSync) :
    s.Quiet (s.requestBlocks host peer).1 ∨ s.haveCommonHeader = false ∧ host.knownFull = false ∧
      (s.searched host).Quiet (s.requestBlocks host peer).1 := by
  cases searching : s.haveCommonHeader with
  | true => exact .inl (requestLevel_quiet _ searching)
  | false =>
      cases full : host.knownFull with
      | true =>
          left
          unfold requestBlocks requestLevel
          dsimp only
          rw [full, if_pos rfl]
          exact ⟨rfl, rfl, rfl, rfl, rfl, rfl⟩
      | false =>
          right
          refine ⟨rfl, rfl, ?_⟩
          rcases requestLevel_searching peer (requestLevel host peer fun s => (s, false))
            searching full with
            ⟨t, quiet, ⟨-, same⟩ | ⟨common, same⟩⟩
          · exact same ▸ quiet
          · unfold requestBlocks
            rw [same]
            exact quiet.trans (requestLevel_quiet _ common)

/-- The peer is asked for the block before, because nothing better is known of it. -/
def Searches (host : Host) (peer : SyncPeer) (force : Bool) (s : BlockChainSync) : Prop :=
  s.haveCommonHeader = false ∧ host.knownFull = false ∧ peer.asking = .nothing ∧ s.state = .blocks ∧
  force = false ∧
    peer.totalDifficulty ≤ max s.syncingTotalDifficulty
      (if host.active then u256Add host.totalDifficulty host.difficulty else host.totalDifficulty)

instance (host : Host) (peer : SyncPeer) (force : Bool) (s : BlockChainSync) :
    Decidable (s.Searches host peer force) :=
  inferInstanceAs (Decidable (_ ∧ _ ∧ _ ∧ _ ∧ _ ∧ _))

theorem syncPeer_cases (host : Host) (peer : SyncPeer) (force : Bool) (s : BlockChainSync) :
    s.Quiet (s.syncPeer host peer force).1 ∨
      s.Searches host peer force ∧ (s.searched host).Quiet (s.syncPeer host peer force).1 := by
  unfold syncPeer
  by_cases asking : peer.asking = .nothing
  · rw [if_neg (not_not_intro asking)]
    by_cases waits : s.state = .waiting
    · rw [if_pos waits]
      exact .inl (.refl s)
    · rw [if_neg waits]
      dsimp only
      by_cases better : force = true ∨ max s.syncingTotalDifficulty
          (if host.active then u256Add host.totalDifficulty host.difficulty
            else host.totalDifficulty) <
            peer.totalDifficulty
      · rw [if_pos better]
        exact .inl ⟨rfl, rfl, rfl, rfl, rfl, handed_of_calls rfl rfl⟩
      · rw [if_neg better]
        by_cases blocks : s.state = .blocks
        · rw [if_pos blocks]
          rw [not_or, Bool.not_eq_true, Nat.not_lt] at better
          rcases requestBlocks_cases host peer s with quiet | ⟨searching, room, went⟩
          · exact .inl quiet
          · exact .inr ⟨⟨searching, room, asking, blocks, better⟩, went⟩
        · rw [if_neg blocks]
          exact .inl (.refl s)
  · rw [if_pos asking]
    exact .inl (.refl s)

end UtispaceChain.BlockChainSync
