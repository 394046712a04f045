import UtispaceChain.Cv.SyncChanges
import UtispaceChain.Lib.Run

/-! The steps of the block chain synchronization: each is one of the changes, unless it takes a
number out of a run. -/

namespace UtispaceChain.BlockChainSync

open Lib Chunks Rlp
open DownloadMap (Severs Sound)

section Inputs

variable (C : Crypto) (trieRootOver : List Bytes → H256) (host : Host)

def Machine.incoming (m : Machine) (event : Event) : Option (Nat × Header) :=
  match m.agenda, event with
  | .header r i :: _, .next => m.sync.incoming C (item r i)
  | _, _ => none

/-- The block that comes by another way and becomes the last imported one. -/
def Machine.arrival (m : Machine) (event : Event) : Option (Nat × H256) :=
  match m.agenda, event with
  | [], .blockImported info => m.sync.imported C info
  | [], .peerNewBlock _ r => m.sync.landed C host r
  | _, _ => none

/-- The number that such a block takes out of the downloads. -/
def Machine.removal (m : Machine) (event : Event) : Option Nat :=
  match m.agenda, event with
  | [], .blockImported info => m.sync.importedHeld C info
  | [], .peerNewBlock _ r => (m.sync.received C host r).map Prod.fst
  | _, _ => none

def Machine.synced (m : Machine) (event : Event) : Option (SyncPeer × Bool) :=
  match m.agenda, event with
  | .syncPeer peer force :: _, .next => some (peer, force)
  | .continueSync :: _, .turn peer => some (peer, false)
  | _, _ => none

def Machine.Searches (m : Machine) (event : Event) : Prop :=
  ∃ synced ∈ m.synced event, m.sync.Searches host synced.1 synced.2

instance (m : Machine) (event : Event) : Decidable (m.Searches host event) :=
  inferInstanceAs (Decidable (∃ synced ∈ m.synced event, m.sync.Searches host synced.1 synced.2))

def Machine.Clean (m : Machine) (event : Event) : Prop :=
  ∀ number ∈ m.removal C host event, ¬ Severs (get m.sync.headers) number

instance (m : Machine) (event : Event) : Decidable (m.Clean C host event) :=
  inferInstanceAs
    (Decidable (∀ number ∈ m.removal C host event, ¬ Severs (get m.sync.headers) number))

abbrev Machine.Changes (m : Machine) (event : Event) (t : BlockChainSync) : Prop :=
  m.sync.Change C trieRootOver host (m.incoming C event) (m.arrival C host event)
    (m.Searches host event) t

structure Machine.Steady (m : Machine) : Prop where
  sync : m.sync.Steady C
  ready : m.sync.Ready m.agenda

end Inputs

variable {C : Crypto} {trieRootOver : List Bytes → H256} {host : Host} {s : BlockChainSync}
    {m : Machine} {new : Option (Nat × Header)} {arrival : Option (Nat × H256)} {searches : Prop}

theorem syncPeer_change (peer : SyncPeer) (force : Bool)
    (searching : s.Searches host peer force → searches) :
    s.Change C trieRootOver host new arrival searches (s.syncPeer host peer force).1 := by
  rcases syncPeer_cases host peer force s with quiet | ⟨here, went⟩
  · exact .quiet quiet
  · exact .searched (searching here) went

theorem waits_items {r : Bytes} {work : Bytes → Nat → Work} {count : Nat}
    (other : ∀ i j, work r i ≠ .importBlock j) :
    Waits ((List.range count).map (work r) ++ [.collectBlocks, .continueSync]) := by
  intro i member
  rcases List.mem_append.mp member with items | rest
  · rcases List.mem_map.mp items with ⟨j, -, same⟩
    exact other j i same
  · rcases List.mem_cons.mp rest with same | last
    · cases same
    · cases List.mem_singleton.mp last

theorem onItems_change {work : Bytes → Nat → Work} (peer : SyncPeer) (r : Bytes)
    (other : ∀ i j, work r i ≠ .importBlock j) :
    Waits (s.onItems work peer r).more ∧
    s.Change C trieRootOver host new arrival searches (s.onItems work peer r).after := by
  unfold onItems
  split
  · exact ⟨waits_nil, .quiet (.refl s)⟩
  · dsimp only
    split
    · exact ⟨waits_items other, .quiet (quiet_clearPeerDownload s peer.id)⟩
    · exact ⟨waits_nil, .quiet (quiet_clearPeerDownload s peer.id)⟩

theorem onPeerStatus_change (peer : SyncPeer) :
    Waits (s.onPeerStatus host peer).more ∧
      s.Change C trieRootOver host new arrival searches (s.onPeerStatus host peer).after := by
  unfold onPeerStatus
  split
  · exact ⟨waits_nil, .quiet (quiet_call s rfl)⟩
  · exact ⟨waits_nil.cons fun _ same => Work.noConfusion same, .quiet (.refl s)⟩

theorem onPeerNewHashes_change (peer : SyncPeer) (r : Bytes) :
    Waits (s.onPeerNewHashes host peer r).more ∧
      s.Change C trieRootOver host new arrival searches (s.onPeerNewHashes host peer r).after := by
  unfold onPeerNewHashes
  split
  · exact ⟨waits_nil, .quiet (.refl s)⟩
  · split
    · exact ⟨waits_nil, .quiet (.refl s)⟩
    · split
      · exact ⟨waits_nil, .quiet (.refl s)⟩
      · refine ⟨?_, .quiet (.refl s)⟩
        dsimp only [Flow.more]
        split
        · exact waits_nil.cons fun _ same => Work.noConfusion same
        · exact waits_nil

theorem onPeerNewBlock_change (steady : s.Steady C) {peer : SyncPeer} {r : Bytes}
    (clean : ∀ n ∈ (s.received C host r).map Prod.fst, ¬ Severs (get s.headers) n) :
    ∃ flow, s.onPeerNewBlock C host peer r = some flow ∧ Waits flow.more ∧
      s.Change C trieRootOver host new (s.landed C host r) searches flow.after := by
  unfold landed
  cases here : s.received C host r with
  | none => exact onPeerNewBlock_other here
  | some arrival =>
      rcases arrival with ⟨number, hash⟩
      rw [here, Option.map_some] at clean
      rcases onPeerNewBlock_received peer here with ⟨block, same⟩
      have landing : s.lastImportedBlock < number → (some (number, hash)).filter
          (fun arrival => decide (s.lastImportedBlock < arrival.1)) = some (number, hash) :=
        fun higher => Option.filter_some_pos (decide_eq_true higher)
      have quiet : s.Quiet (s.call (.importReceived block)) := quiet_call s rfl
      rcases onOwnBlock_change steady quiet landing (clean number rfl) with ⟨u, owned, change⟩
      rw [same, owned, Option.map_some]
      exact ⟨_, rfl, waits_nil, change⟩

theorem handle_change (trieRootOver : List Bytes → H256) {event : Event} {asked : Bool}
    (steady : s.Steady C) (clean : Machine.Clean C host ⟨s, [], asked⟩ event) :
    ∃ flow, handle C host event s = some flow ∧ Waits flow.more ∧
      Machine.Changes C trieRootOver host ⟨s, [], asked⟩ event flow.after := by
  cases event with
  | roomAvailable =>
      exact ⟨_, rfl, (waits_nil.cons fun _ same => Work.noConfusion same).cons
        fun _ same => Work.noConfusion same, .quiet ⟨rfl, rfl, rfl, rfl, rfl, rfl⟩⟩
  | forceSync =>
      dsimp only [handle]
      split
      · exact ⟨_, rfl, waits_nil, .quiet (.refl s)⟩
      · exact ⟨_, rfl, (waits_nil.cons fun _ same => Work.noConfusion same).cons
          fun _ same => Work.noConfusion same, .quiet ⟨rfl, rfl, rfl, rfl, rfl, rfl⟩⟩
  | blockImported info =>
      rcases onBlockImported_change steady clean with ⟨t, imported, change⟩
      dsimp only [handle]
      rw [imported, Option.map_some]
      exact ⟨_, rfl, waits_nil, change⟩
  | peerStatus peer => exact ⟨_, rfl, onPeerStatus_change peer⟩
  | peerBlockHeaders peer r =>
      exact ⟨_, rfl, onItems_change peer r fun _ _ same => Work.noConfusion same⟩
  | peerBlockBodies peer r =>
      exact ⟨_, rfl, onItems_change peer r fun _ _ same => Work.noConfusion same⟩
  | peerNewBlock peer r => exact onPeerNewBlock_change steady clean
  | peerNewHashes peer r => exact ⟨_, rfl, onPeerNewHashes_change peer r⟩
  | peerAborting expired =>
      exact ⟨_, rfl, waits_nil.cons fun _ same => Work.noConfusion same,
        .quiet (quiet_clearExpired s expired)⟩
  | restart => exact ⟨_, rfl, waits_nil, .cleared (cleared_restartSync s host)⟩
  | next => exact ⟨_, rfl, waits_nil, .quiet (.refl s)⟩
  | turn peer => exact ⟨_, rfl, waits_nil, .quiet (.refl s)⟩

theorem proceed_change {work : Work} {rest : List Work} {asked : Bool} (steady : s.Steady C)
    (ready : s.Ready (work :: rest)) :
    ∃ flow, proceed C trieRootOver host asked work s = some flow ∧ flow.after.Ready flow.more ∧
      Machine.Changes C trieRootOver host ⟨s, work :: rest, asked⟩ .next flow.after := by
  cases work with
  | header r i =>
      rcases onHeader_change host steady (item r i) with ⟨flow, taken, more, change⟩
      exact ⟨flow, taken, more ▸ .inl waits_nil, change⟩
  | body r i =>
      rcases onBody_change trieRootOver steady (item r i) with ⟨flow, taken, more, change⟩
      exact ⟨flow, taken, more ▸ .inl waits_nil, change⟩
  | collectBlocks =>
      rcases collectBlocks_change s with ⟨change, fronts⟩
      refine ⟨_, rfl, ?_, change⟩
      dsimp only [Flow.more, Flow.after]
      split
      case isTrue collects => exact .inr ⟨0, [], rfl, waits_nil, fronts collects⟩
      case isFalse => exact .inl waits_nil
  | importBlock i =>
      have fronts : s.Fronts i := by
        rcases ready with waits | ⟨j, later, same, -, fronts⟩
        · exact absurd List.mem_cons_self (waits i)
        · cases same
          exact fronts
      rcases onImport_change steady fronts with ⟨change, ready⟩
      exact ⟨_, rfl, ready, change⟩
  | syncPeer peer force =>
      exact ⟨_, rfl, .inl waits_nil, syncPeer_change peer force fun here => ⟨_, rfl, here⟩⟩
  | continueSync => exact ⟨_, rfl, .inl waits_nil, .quiet (.refl s)⟩
  | restore rawState =>
      refine ⟨_, rfl, .inl waits_nil, ?_⟩
      dsimp only [Flow.after]
      split
      · exact .quiet (.refl s)
      · exact .quiet ⟨rfl, rfl, rfl, rfl, rfl, rfl⟩

theorem Ready.rest {work : Work} {rest : List Work} (ready : s.Ready (work :: rest)) :
    Waits rest := by
  rcases ready with waits | ⟨i, later, same, waits, -⟩
  · exact fun i member => waits i (List.mem_cons_of_mem work member)
  · cases same
    exact waits

theorem follow_sync (m : Machine) (rest : List Work) (flow : Flow) :
    (m.follow rest flow).sync = flow.after := by
  cases flow <;> rfl

theorem follow_ready {flow : Flow} {rest : List Work} (ready : flow.after.Ready flow.more)
    (waits : Waits rest) :
    flow.after.Ready (m.follow rest flow).agenda := by
  cases flow with
  | goes s more => exact ready.append waits
  | leaves s => exact .inl waits_nil

theorem follow_steady {event : Event} {rest : List Work} {flow : Flow} {m' : Machine}
    (steady : m.Steady C) (ready : flow.after.Ready flow.more) (waits : Waits rest)
    (change : m.Changes C trieRootOver host event flow.after) :
    (m'.follow rest flow).Steady C ∧
    m.Changes C trieRootOver host event (m'.follow rest flow).sync := by
  rw [follow_sync]
  refine ⟨⟨?_, ?_⟩, change⟩
  · rw [follow_sync]
    exact change.steady steady.sync
  · rw [follow_sync]
    exact follow_ready ready waits

theorem step_changes (trieRootOver : List Bytes → H256) {event : Event} (steady : m.Steady C)
    (clean : m.Clean C host event) :
    ∃ m', m.step C trieRootOver host event = some m' ∧ m'.Steady C ∧
    m.Changes C trieRootOver host event m'.sync := by
  rcases m with ⟨s, agenda, asked⟩
  unfold Machine.step
  dsimp only
  split
  case h_1 =>
    rcases handle_change trieRootOver steady.sync clean with ⟨flow, handled, waits, change⟩
    rw [handled, Option.map_some]
    exact ⟨_, rfl, follow_steady steady (.inl waits) waits_nil change⟩
  case h_2 work rest =>
    rcases proceed_change steady.sync steady.ready with ⟨flow, proceeded, ready, change⟩
    rw [proceeded, Option.map_some]
    exact ⟨_, rfl, follow_steady steady ready steady.ready.rest change⟩
  case h_3 rest peer =>
    have change : Machine.Changes C trieRootOver host ⟨s, .continueSync :: rest, asked⟩ (.turn peer)
        (s.syncPeer host peer false).1 := syncPeer_change peer false fun here => ⟨_, rfl, here⟩
    refine ⟨_, rfl, ⟨change.steady steady.sync, .inl ?_⟩, change⟩
    exact steady.ready.rest.cons fun _ same => Work.noConfusion same
  case h_4 => exact ⟨_, rfl, steady, .quiet (.refl s)⟩

theorem step_severs {event : Event} (steady : m.Steady C) (unclean : ¬ m.Clean C host event) :
    m.step C trieRootOver host event = none := by
  rcases m with ⟨s, agenda, asked⟩
  simp only [Machine.Clean, not_forall, not_not] at unclean
  rcases unclean with ⟨number, removed, severs⟩
  unfold Machine.removal at removed
  dsimp only at removed
  unfold Machine.step
  split at removed
  case h_1 info =>
    dsimp only [handle]
    rw [onBlockImported_severs steady.sync removed severs, Option.map_none, Option.map_none]
  case h_2 peer r =>
    rcases Option.map_eq_some_iff.mp removed with ⟨⟨n, hash⟩, here, rfl⟩
    rcases onPeerNewBlock_received peer here with ⟨block, same⟩
    dsimp only [handle]
    rw [same, onOwnBlock_severs steady.sync (quiet_call s rfl) severs, Option.map_none,
      Option.map_none]
  case h_3 => cases removed

/-! The runs. -/

section Runs

variable (C : Crypto) (trieRootOver : List Bytes → H256)

/-- A step with what the host is then; nothing follows undefined behaviour. -/
def advance (m : Option Machine) (input : Host × Event) : Option Machine :=
  m.bind fun m => m.step C trieRootOver input.1 input.2

def start (host : Host) : Option Machine := some { sync := opened host }

theorem steady_opened (host : Host) : Machine.Steady C { sync := opened host } :=
  ⟨.empty rfl rfl, .inl waits_nil⟩

variable {C trieRootOver}

theorem run_keeps (P : BlockChainSync → Prop) (admitted : Machine → Host → Event → Prop)
    (host : Host) (initial : P (opened host))
    (preserved : ∀ m host event t, m.Steady C → P m.sync → admitted m host event →
      m.Changes C trieRootOver host event t → P t)
    (events : List (Host × Event))
    (clean : ∀ entry ∈ trace (advance C trieRootOver) (start host) events, ∀ m ∈ entry.1,
      m.Clean C entry.2.1 entry.2.2 ∧ admitted m entry.2.1 entry.2.2) :
    ∃ m, run (advance C trieRootOver) (start host) events = some m ∧ m.Steady C ∧ P m.sync := by
  apply run_invariant (advance C trieRootOver)
    (fun _ reached => ∃ m, reached = some m ∧ m.Steady C ∧ P m.sync)
    (fun reached input => ∀ m ∈ reached, m.Clean C input.1 input.2 ∧ admitted m input.1 input.2)
    (start host) ⟨_, rfl, steady_opened C host, initial⟩ _ events clean
  intro events input s before fine
  rcases before with ⟨m, reached, steady, holds⟩
  rcases fine m reached with ⟨clean, admits⟩
  rcases step_changes trieRootOver steady clean with ⟨m', stepped, steady', change⟩
  refine ⟨m', ?_, steady', preserved m _ _ _ steady holds admits change⟩
  rw [reached]
  exact stepped

theorem clean_of_run (host : Host) (events : List (Host × Event)) {m : Machine}
    (reached : run (advance C trieRootOver) (start host) events = some m) :
    m.Steady C ∧ ∀ entry ∈ trace (advance C trieRootOver) (start host) events, ∀ m ∈ entry.1,
      m.Clean C entry.2.1 entry.2.2 := by
  induction events using List.reverseRecOn generalizing m with
  | nil =>
      cases reached
      exact ⟨steady_opened C host, fun entry member => absurd member List.not_mem_nil⟩
  | append_singleton events input ih =>
      rw [run_append_singleton] at reached
      rcases Option.bind_eq_some_iff.mp reached with ⟨before, earlier, stepped⟩
      rcases ih earlier with ⟨steady, clean⟩
      have last : before.Clean C input.1 input.2 := by
        by_contra unclean
        rw [step_severs steady unclean] at stepped
        cases stepped
      rcases step_changes trieRootOver steady last with ⟨m', same, steady', -⟩
      rw [stepped] at same
      cases same
      refine ⟨steady', fun entry member => ?_⟩
      rw [trace_append_singleton] at member
      rcases List.mem_append.mp member with old | new
      · exact clean entry old
      · rw [List.mem_singleton.mp new, earlier]
        rintro _ ⟨⟩
        exact last

end Runs

end UtispaceChain.BlockChainSync
