import UtispaceChain.Cv.BodyPairing

/-! The downloaded headers are linked, and they follow the last imported block once a common header
is known. -/

namespace UtispaceChain.BlockChainSync

open Lib Chunks Rlp
open DownloadMap (Severs Sound)

section Links

variable (C : Crypto) (host : Host)

/-- The header held above the number has the hash as its parent. -/
def Follows (number : Nat) (hash : H256) (s : BlockChainSync) : Prop :=
  ∀ header ∈ get s.headers (number + 1), header.parent = hash

instance (number : Nat) (hash : H256) (s : BlockChainSync) : Decidable (s.Follows number hash) :=
  inferInstanceAs (Decidable (∀ header ∈ get s.headers (number + 1), header.parent = hash))

instance (number limit : Nat) (header : Header) (s : BlockChainSync) :
    Decidable (s.Fits number limit header) :=
  decidable_of_iff ((0 < number → ∀ prev ∈ get s.headers (number - 1), prev.hash = header.parent) ∧
      (number + 1 < limit → ∀ next ∈ get s.headers (number + 1), next.parent = header.hash))
    ⟨fun both => ⟨both.1, both.2⟩, fun fits => ⟨fits.previous, fits.next⟩⟩

/-- With a common header the headers are a chain over the last imported block. -/
structure Chained (s : BlockChainSync) : Prop where
  genuine : ∀ n header, get s.headers n = some header → Genuine C n header
  links : s.haveCommonHeader = true → ∀ n header, get s.headers n = some header →
    s.Follows n header.hash
  anchored : s.haveCommonHeader = true → s.Follows s.lastImportedBlock s.lastImportedBlockHash

/-- The headers are linked also in the search for the common one. -/
structure Linked (s : BlockChainSync) : Prop where
  links : ∀ n header, get s.headers n = some header → s.Follows n header.hash
  anchored : s.haveCommonHeader = true → s.Follows s.lastImportedBlock s.lastImportedBlockHash

structure Machine.Fitting (m : Machine) (event : Event) : Prop where
  /-- A header that is stored in the search. -/
  stored : ∀ new ∈ m.incoming C event, host.has new.2.hash = false →
    m.sync.haveCommonHeader = false →
    m.sync.Fits new.1 (2 ^ 32) new.2
  /-- The common header. -/
  known : ∀ new ∈ m.incoming C event, host.has new.2.hash = true → m.sync.Follows new.1 new.2.hash
  /-- The genesis block, at the end of the search. -/
  searched : m.Searches host event → m.sync.previousBlock = 0 → m.sync.Follows 0 (host.numberHash 0)
  /-- A block that comes by another way. -/
  arrived : ∀ arrival ∈ m.arrival C host event, m.sync.haveCommonHeader = true →
    m.sync.Follows arrival.1 arrival.2

variable {C} {trieRootOver : List Bytes → H256} {host} {s t : BlockChainSync}

instance (m : Machine) (event : Event) : Decidable (m.Fitting C host event) :=
  decidable_of_iff
    ((∀ new ∈ m.incoming C event, host.has new.2.hash = false → m.sync.haveCommonHeader = false →
        m.sync.Fits new.1 (2 ^ 32) new.2) ∧
      (∀ new ∈ m.incoming C event, host.has new.2.hash = true → m.sync.Follows new.1 new.2.hash) ∧
      (m.Searches host event → m.sync.previousBlock = 0 → m.sync.Follows 0 (host.numberHash 0)) ∧
      ∀ arrival ∈ m.arrival C host event, m.sync.haveCommonHeader = true →
      m.sync.Follows arrival.1 arrival.2)
    ⟨fun all => ⟨all.1, all.2.1, all.2.2.1, all.2.2.2⟩,
      fun fits => ⟨fits.stored, fits.known, fits.searched, fits.arrived⟩⟩

theorem Follows.lost {number : Nat} {hash : H256} (follows : s.Follows number hash)
    (headers : ∀ n header, get t.headers n = some header → get s.headers n = some header) :
    t.Follows number hash :=
  fun header held => follows header (headers _ header held)

theorem Linked.lost (linked : s.Linked) (headers : ∀ n header, get t.headers n = some header →
    get s.headers n = some header) (anchored : t.haveCommonHeader = true →
      s.Follows t.lastImportedBlock t.lastImportedBlockHash) : t.Linked where
  links n header held := (linked.links n header (headers n header held)).lost headers
  anchored common := (anchored common).lost headers

theorem Linked.same (linked : s.Linked) (headers : t.headers = s.headers)
    (anchored : t.haveCommonHeader = true → s.Follows t.lastImportedBlock t.lastImportedBlockHash) :
    t.Linked :=
  linked.lost (fun _ _ held => headers ▸ held) anchored

theorem Linked.still (linked : s.Linked) (headers : ∀ n header, get t.headers n = some header →
    get s.headers n = some header) (common : t.haveCommonHeader = s.haveCommonHeader)
    (last : t.lastImportedBlock = s.lastImportedBlock)
    (lastHash : t.lastImportedBlockHash = s.lastImportedBlockHash) : t.Linked := by
  apply linked.lost headers
  rw [common, last, lastHash]
  exact linked.anchored

theorem Linked.empty (headers : s.headers = []) : s.Linked where
  links n header held := by
    rw [headers] at held
    cases held
  anchored _ header held := by
    rw [headers] at held
    cases held

theorem Quiet.linked (quiet : s.Quiet t) (linked : s.Linked) : t.Linked :=
  linked.still (fun _ _ held => quiet.headers ▸ held) quiet.common quiet.last quiet.lastHash

theorem Linked.merges {number limit : Nat} {header : Header} (linked : s.Linked)
    (merges : s.Merges number limit header t) (fits : s.Fits number limit header)
    (anchored : s.haveCommonHeader = true → number = s.lastImportedBlock + 1 →
      header.parent = s.lastImportedBlockHash) :
    t.Linked := by
  have before : ∀ n other, n ≠ number → get t.headers n = some other → n < limit ∧
      get s.headers n = some other := by
    intro n other elsewhere held
    rw [merges.headers_of_ne elsewhere] at held
    split at held
    case isTrue below => exact ⟨below, held⟩
    case isFalse => cases held
  refine ⟨fun n prev held next above => ?_, fun common next above => ?_⟩
  · by_cases upper : n + 1 = number
    · rw [upper, merges.headers, Function.update_self] at above
      cases above
      rcases before n prev (by omega) held with ⟨-, held⟩
      exact (fits.previous (by omega) prev (by rwa [← upper])).symm
    · rcases before (n + 1) next upper above with ⟨below, above⟩
      by_cases lower : n = number
      · rw [lower, merges.headers, Function.update_self] at held
        cases held
        exact fits.next (lower ▸ below) next (lower ▸ above)
      · exact linked.links n prev (before n prev lower held).2 next above
  · rw [merges.common] at common
    rw [merges.last] at above
    rw [merges.lastHash]
    by_cases here : s.lastImportedBlock + 1 = number
    · rw [here, merges.headers, Function.update_self] at above
      cases above
      exact anchored common here.symm
    · exact linked.anchored common next (before _ next here above).2

theorem Linked.changes {m : Machine} {event : Event} (linked : m.sync.Linked)
    (fitting : m.Fitting C host event) (change : m.Changes C trieRootOver host event t) :
    t.Linked := by
  cases change with
  | quiet quiet => exact quiet.linked linked
  | cleared cleared => exact .empty cleared.headers
  | searched searches quiet =>
      apply quiet.linked
      refine linked.same (t := m.sync.searched host) rfl fun genesis => ?_
      have ended : m.sync.previousBlock = 0 := of_decide_eq_true genesis
      unfold searched
      dsimp only
      rw [ended]
      exact fitting.searched searches ended
  | @known number header incoming has reaches =>
      apply linked.same reaches.headers
      intro _
      rw [reaches.last, reaches.lastHash]
      exact fitting.known (number, header) incoming has
  | @merged number limit header incoming genuine free unknown checked merges =>
      cases common : m.sync.haveCommonHeader with
      | true => exact linked.merges merges (checked.fits common) checked.anchored
      | false =>
          rw [checked.all common] at merges
          exact linked.merges merges (fitting.stored (number, header) incoming unknown common)
            checked.anchored
  | joined joins =>
      exact linked.still (fun _ _ held => joins.headers ▸ held) joins.common joins.last
        joins.lastHash
  | @handed number header _ _ hands advances =>
      apply linked.same hands.headers
      intro common
      rcases advances with ⟨last, lastHash⟩ | ⟨last, lastHash⟩
      · rw [last, lastHash]
        exact linked.links number header hands.heldHeader
      · rw [last, lastHash]
        exact linked.anchored (hands.common ▸ common)
  | refused _ cleared => exact .empty cleared.headers
  | @dropped number drops =>
      refine linked.still (fun n header held => ?_) drops.common drops.last drops.lastHash
      rw [drops.headers] at held
      split at held
      case isTrue => cases held
      case isFalse => exact held
  | arrived loses lands =>
      apply linked.lost loses.headers
      intro common
      rcases lands with here | ⟨last, lastHash⟩
      · exact fitting.arrived _ here (loses.common ▸ common)
      · rw [last, lastHash]
        exact linked.anchored (loses.common ▸ common)

end Links

/-- In every state of a run the downloaded headers are a chain, if those that are stored in the
search fit, and what becomes the last imported block, while or by which there is a common one, is
the parent of the header above it. -/
theorem headers_chained (C : Crypto) (trieRootOver : List Bytes → H256) (host : Host)
    (events : List (Host × Event))
    (fitting : ∀ entry ∈ trace (advance C trieRootOver) (start host) events, ∀ m ∈ entry.1,
      m.Clean C entry.2.1 entry.2.2 ∧ m.Fitting C entry.2.1 entry.2.2) :
    ∃ m, run (advance C trieRootOver) (start host) events = some m ∧ m.sync.Chained C := by
  rcases run_keeps Linked (fun m host event => m.Fitting C host event) host (.empty rfl)
      (fun _ _ _ _ _ linked fits change => linked.changes fits change) events fitting
      with ⟨m, reached, steady, linked⟩
  exact ⟨m, reached, steady.sync.genuine, fun _ => linked.links, linked.anchored⟩

def shortHash : Crypto :=
  { Crypto.toy with sha3 := fun bytes => fromBigEndian bytes % (2 ^ 256 - 189) }

def knownHash : H256 := shortHash.sha3 ((forkHeader 3 1).streamRLP .withSeal)

def knownHost : Host := { forkHost with isKnown := fun hash => decide (hash = knownHash) }

/-- The host has block 1 of the second peer, and block 2 of the first one is over it. -/
theorem headers_chained_known :
    (run (advance shortHash fun _ => 0) (start knownHost) (forkDownload knownHost knownHash)).map
      (fun m => (m.sync.haveCommonHeader, m.sync.lastImportedBlock, m.sync.headers.map Prod.fst)) =
        some (true, 1, [2]) ∧
    ∃ m, run (advance shortHash fun _ => 0) (start knownHost) (forkDownload knownHost knownHash) =
      some m ∧
      m.sync.Chained shortHash :=
  ⟨by decide +kernel, headers_chained shortHash (fun _ => 0) knownHost _ (by decide +kernel)⟩

/-- Header 1 of the second peer and header 2, which is not over it, are held when the search ends at
the genesis block. -/
theorem searched_headers_unlinked :
    ∃ m, run (advance Crypto.toy fun _ => 0) (start forkHost)
        (forkDownload forkHost 7 ++ [(forkHost, .turn nearPeer)]) = some m ∧
      m.sync.haveCommonHeader = true ∧ ¬ m.sync.Chained Crypto.toy := by
  have unlinked : ∃ m ∈ run (advance Crypto.toy fun _ => 0) (start forkHost)
      (forkDownload forkHost 7 ++ [(forkHost, .turn nearPeer)]), m.sync.haveCommonHeader = true ∧
        ∃ header ∈ get m.sync.headers 1, ¬ m.sync.Follows 1 header.hash := by
    decide +kernel
  rcases unlinked with ⟨m, reached, common, header, held, unlinked⟩
  exact ⟨m, reached, common, fun chained => unlinked (chained.links common 1 header held)⟩

end UtispaceChain.BlockChainSync
