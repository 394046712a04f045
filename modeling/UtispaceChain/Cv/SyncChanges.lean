import UtispaceChain.Cv.SyncRequests

/-! What a step of the block chain synchronization can do to the downloads and to the last imported
block. -/

namespace UtispaceChain.BlockChainSync

open Lib Chunks Rlp
open DownloadMap (Severs Sound)

section Changes

variable (C : Crypto) (trieRootOver : List Bytes → H256) (host : Host)

/-- The header is held under its own number, with its own hash and parent. -/
def Genuine (number : Nat) (header : Header) : Prop :=
  ∃ info, BlockHeader.ofHeaderData C header.data 0 = some info ∧ number = toUnsigned info.number ∧
    header.hash = info.hash C .withSeal ∧ header.parent = info.parentHash

def readHeader (data : Option Bytes) : Option (Nat × Header) :=
  data.bind fun data => (BlockHeader.ofHeaderData C data 0).map fun info =>
    (toUnsigned info.number, ⟨data, info.hash C .withSeal, info.parentHash⟩)

/-- It is neither held nor, with a common header, below the last imported block. -/
def incoming (data : Option Bytes) (s : BlockChainSync) : Option (Nat × Header) :=
  (readHeader C data).filter fun new =>
    (get s.headers new.1).isNone && (!s.haveCommonHeader || decide (s.lastImportedBlock < new.1))

/-- The header fits to what is held of its neighbours below the limit. -/
structure Fits (number limit : Nat) (header : Header) (s : BlockChainSync) : Prop where
  previous : 0 < number → ∀ prev ∈ get s.headers (number - 1), prev.hash = header.parent
  next : number + 1 < limit → ∀ next ∈ get s.headers (number + 1), next.parent = header.hash

/-- What is held below the limit stays, and the header is added. -/
structure Merges (number limit : Nat) (header : Header) (s t : BlockChainSync) : Prop where
  soundHeaders : Sound t.headers
  soundBodies : Sound t.bodies
  headers : get t.headers =
    Function.update (fun n => if n < limit then get s.headers n else none) number (some header)
  bodies : ∀ n, get t.bodies n = if n < limit then get s.bodies n else none
  common : t.haveCommonHeader = s.haveCommonHeader
  last : t.lastImportedBlock = s.lastImportedBlock
  lastHash : t.lastImportedBlockHash = s.lastImportedBlockHash
  handed : t.handed = s.handed

/-- With a common header the links of a new one are checked, and what does not descend from it is
dropped. -/
structure Checked (number limit : Nat) (header : Header) (s : BlockChainSync) : Prop where
  fits : s.haveCommonHeader = true → s.Fits number limit header
  anchored : s.haveCommonHeader = true → number = s.lastImportedBlock + 1 →
    header.parent = s.lastImportedBlockHash
  all : s.haveCommonHeader = false → limit = 2 ^ 32

structure Reaches (number : Nat) (hash : H256) (s t : BlockChainSync) : Prop where
  headers : t.headers = s.headers
  bodies : t.bodies = s.bodies
  common : t.haveCommonHeader = true
  last : t.lastImportedBlock = number
  lastHash : t.lastImportedBlockHash = hash
  handed : t.handed = s.handed

def Matches (header : Header) (body : Bytes) : Prop :=
  ∃ info, BlockHeader.ofHeaderData C header.data 0 = some info ∧
    bodyRoots C trieRootOver body = some (info.transactionsRoot, info.sha3Uncles)

structure Joins (number : Nat) (header : Header) (body : Bytes) (s t : BlockChainSync) : Prop where
  held : get s.headers number = some header
  fitting : Matches C trieRootOver header body
  soundBodies : Sound t.bodies
  bodies : get t.bodies = Function.update (get s.bodies) number (some body)
  headers : t.headers = s.headers
  common : t.haveCommonHeader = s.haveCommonHeader
  last : t.lastImportedBlock = s.lastImportedBlock
  lastHash : t.lastImportedBlockHash = s.lastImportedBlockHash
  handed : t.handed = s.handed

structure Hands (number : Nat) (header : Header) (body block : Bytes) (s t : BlockChainSync) :
    Prop where
  heldHeader : get s.headers number = some header
  heldBody : get s.bodies number = some body
  made : blockOf header body = some block
  headers : t.headers = s.headers
  bodies : t.bodies = s.bodies
  common : t.haveCommonHeader = s.haveCommonHeader
  handed : t.handed = s.handed ++ [(header, body, block)]

/-- The last imported block moves, or it stays where it is. -/
def Advances (number : Nat) (hash : H256) (s t : BlockChainSync) : Prop :=
  t.lastImportedBlock = number ∧ t.lastImportedBlockHash = hash ∨
    t.lastImportedBlock = s.lastImportedBlock ∧ t.lastImportedBlockHash = s.lastImportedBlockHash

/-- A block that arrives is the last imported one then, or that stays as it is. -/
def Lands (arrival : Option (Nat × H256)) (s t : BlockChainSync) : Prop :=
  arrival = some (t.lastImportedBlock, t.lastImportedBlockHash) ∨
    t.lastImportedBlock = s.lastImportedBlock ∧ t.lastImportedBlockHash = s.lastImportedBlockHash

structure Drops (number : Nat) (s t : BlockChainSync) : Prop where
  soundHeaders : Sound t.headers
  soundBodies : Sound t.bodies
  headers : ∀ n, get t.headers n = if n < number then none else get s.headers n
  bodies : ∀ n, get t.bodies n = if n < number then none else get s.bodies n
  common : t.haveCommonHeader = s.haveCommonHeader
  last : t.lastImportedBlock = s.lastImportedBlock
  lastHash : t.lastImportedBlockHash = s.lastImportedBlockHash
  handed : t.handed = s.handed

structure Loses (s t : BlockChainSync) : Prop where
  soundHeaders : Sound t.headers
  soundBodies : Sound t.bodies
  headers : ∀ n header, get t.headers n = some header → get s.headers n = some header
  bodies : ∀ n body, get t.bodies n = some body → get s.bodies n = some body ∧
    get t.headers n = get s.headers n
  common : t.haveCommonHeader = s.haveCommonHeader
  handed : t.handed = s.handed

/-- What the handlers do, with the header, the block and the search that are their input. -/
inductive Change (incoming : Option (Nat × Header)) (arrival : Option (Nat × H256))
    (searches : Prop) (s t : BlockChainSync) : Prop
  | quiet : s.Quiet t → Change incoming arrival searches s t
  | cleared : s.Cleared t → Change incoming arrival searches s t
  | searched : searches → (s.searched host).Quiet t → Change incoming arrival searches s t
  | known {number : Nat} {header : Header} : incoming = some (number, header) →
      host.has header.hash = true →
      s.Reaches number header.hash t → Change incoming arrival searches s t
  | merged {number limit : Nat} {header : Header} : incoming = some (number, header) →
      Genuine C number header →
      get s.headers number = none → host.has header.hash = false → s.Checked number limit header →
        s.Merges number limit header t → Change incoming arrival searches s t
  | joined {number : Nat} {header : Header} {body : Bytes} : s.Joins C trieRootOver number
      header body t →
      Change incoming arrival searches s t
  | handed {number : Nat} {header : Header} {body block : Bytes} : s.Hands number header
      body block t →
      s.Advances number header.hash t → Change incoming arrival searches s t
  | refused {number : Nat} {header : Header} {body block : Bytes} {u : BlockChainSync} :
      s.Hands number header body block u → u.Cleared t → Change incoming arrival searches s t
  | dropped {number : Nat} : s.Drops number t → Change incoming arrival searches s t
  | arrived : s.Loses t → s.Lands arrival t → Change incoming arrival searches s t

/-- The maps are sound, the headers genuine, and beside every body there is a header. -/
structure Steady (s : BlockChainSync) : Prop where
  soundHeaders : Sound s.headers
  soundBodies : Sound s.bodies
  genuine : ∀ n header, get s.headers n = some header → Genuine C n header
  covered : ∀ n body, get s.bodies n = some body → ∃ header, get s.headers n = some header

end Changes

variable {C : Crypto} {trieRootOver : List Bytes → H256} {host : Host} {s t u : BlockChainSync}
  {new : Option (Nat × Header)} {arrival : Option (Nat × H256)} {searches : Prop}

theorem Genuine.small {number : Nat} {header : Header} (genuine : Genuine C number header) :
    number < 2 ^ 32 := by
  rcases genuine with ⟨info, -, same, -⟩
  rw [same]
  exact Nat.mod_lt _ (Nat.two_pow_pos 32)

theorem Steady.same (steady : s.Steady C) (headers : t.headers = s.headers)
    (bodies : t.bodies = s.bodies) : t.Steady C where
  soundHeaders := headers ▸ steady.soundHeaders
  soundBodies := bodies ▸ steady.soundBodies
  genuine := headers ▸ steady.genuine
  covered := headers ▸ bodies ▸ steady.covered

theorem Steady.empty (headers : s.headers = []) (bodies : s.bodies = []) : s.Steady C where
  soundHeaders := headers ▸ .nil
  soundBodies := bodies ▸ .nil
  genuine n header held := by
    rw [headers] at held
    cases held
  covered n body held := by
    rw [bodies] at held
    cases held

theorem Merges.headers_of_ne {number limit n : Nat} {header : Header}
    (merges : s.Merges number limit header t) (other : n ≠ number) :
    get t.headers n = if n < limit then get s.headers n else none := by
  rw [merges.headers, Function.update_of_ne other]

theorem Merges.body {number limit n : Nat} {header : Header} {body : Bytes}
    (merges : s.Merges number limit header t) (steady : s.Steady C)
    (free : get s.headers number = none) (held : get t.bodies n = some body) :
    get s.bodies n = some body ∧ get t.headers n = get s.headers n := by
  rw [merges.bodies] at held
  split at held
  case isFalse => cases held
  case isTrue below =>
    rcases steady.covered n body held with ⟨beside, there⟩
    have other : n ≠ number := by
      rintro rfl
      rw [free] at there
      cases there
    rw [merges.headers_of_ne other, if_pos below]
    exact ⟨held, rfl⟩

theorem Change.steady (steady : s.Steady C)
    (change : s.Change C trieRootOver host new arrival searches t) : t.Steady C := by
  cases change with
  | quiet quiet => exact steady.same quiet.headers quiet.bodies
  | cleared cleared => exact .empty cleared.headers cleared.bodies
  | searched _ quiet => exact steady.same quiet.headers quiet.bodies
  | known _ _ reaches => exact steady.same reaches.headers reaches.bodies
  | @merged number limit header _ genuine free _ _ merges =>
      refine ⟨merges.soundHeaders, merges.soundBodies, fun n other held => ?_,
        fun n body held => ?_⟩
      · by_cases here : n = number
        · rw [here, merges.headers, Function.update_self] at held
          cases held
          exact here ▸ genuine
        · rw [merges.headers_of_ne here] at held
          split at held
          case isTrue => exact steady.genuine n other held
          case isFalse => cases held
      · rcases merges.body steady free held with ⟨before, same⟩
        exact same ▸ steady.covered n body before
  | @joined number header body joins =>
      refine ⟨joins.headers ▸ steady.soundHeaders, joins.soundBodies,
        joins.headers ▸ steady.genuine, fun n other held => ?_⟩
      rw [joins.headers]
      by_cases here : n = number
      · exact ⟨header, here ▸ joins.held⟩
      · rw [joins.bodies, Function.update_of_ne here] at held
        exact steady.covered n other held
  | handed hands _ => exact steady.same hands.headers hands.bodies
  | refused _ cleared => exact .empty cleared.headers cleared.bodies
  | @dropped number drops =>
      refine ⟨drops.soundHeaders, drops.soundBodies, fun n header held => ?_, fun n body held => ?_⟩
      · rw [drops.headers] at held
        split at held
        case isTrue => cases held
        case isFalse => exact steady.genuine n header held
      · rw [drops.bodies] at held
        rw [drops.headers]
        split at held
        case isTrue => cases held
        case isFalse kept =>
          rw [if_neg kept]
          exact steady.covered n body held
  | arrived loses _ =>
      refine ⟨loses.soundHeaders, loses.soundBodies, fun n header held => ?_, fun n body held => ?_⟩
      · exact steady.genuine n header (loses.headers n header held)
      · rcases loses.bodies n body held with ⟨before, same⟩
        exact same ▸ steady.covered n body before

/-! What becomes of an item of a message. -/

def Flow.after : Flow → BlockChainSync
  | .goes s _ => s
  | .leaves s => s

def Flow.more : Flow → List Work
  | .goes _ more => more
  | .leaves _ => []

theorem within_limit {α : Type} {container : Chunks α} (sound : Sound container) (n : Nat) :
    (if n < 2 ^ 32 then get container n else none) = get container n := by
  split
  case isTrue => rfl
  case isFalse beyond =>
    by_contra held
    exact beyond (sound.fits n (Option.isSome_iff_ne_none.mpr fun none => held none.symm))

theorem merges_mergeHeader (steady : s.Steady C) {number : Nat} (header : Header)
    (free : get s.headers number = none) (small : number < 2 ^ 32) (top : Nat) :
    s.Merges number (2 ^ 32) header
      (({ s with highestBlock := top } : BlockChainSync).mergeHeader number header) := by
  rcases steady.soundHeaders.mergeInto number header free small with ⟨sound, contents⟩
  refine ⟨sound, steady.soundBodies, ?_, fun n => (within_limit steady.soundBodies n).symm, rfl,
    rfl, rfl, rfl⟩
  have same : (fun n => if n < 2 ^ 32 then get s.headers n else none) = get s.headers :=
    funext (within_limit steady.soundHeaders)
  rw [same]
  exact contents

theorem predecessor {number : Nat} (small : number < 2 ^ 32) (positive : 0 < number) :
    toUnsigned (number + (2 ^ 32 - 1)) = number - 1 := by
  have wraps : number + (2 ^ 32 - 1) = number - 1 + 2 ^ 32 := by omega
  rw [toUnsigned, wraps, Nat.add_mod_right]
  exact Nat.mod_eq_of_lt (by omega)

theorem merges_dropFollowing (steady : s.Steady C) {number : Nat} (header : Header)
    (free : get s.headers number = none) (small : number < 2 ^ 32) (top limit : Nat)
    (following : List Header) :
    ∃ t, (({ s with highestBlock := top } : BlockChainSync).dropFollowing limit following).map
        (fun s => Flow.goes (s.mergeHeader number header) []) = some (.goes t []) ∧
        s.Merges number limit header t := by
  rcases steady.soundHeaders.removeAllStartingWith limit with ⟨left, dropped, sound, contents⟩
  rcases steady.soundBodies.removeAllStartingWith limit with ⟨left', dropped', sound', contents'⟩
  have free' : get left number = none := by rw [contents, free, ite_self]
  rcases sound.mergeInto number header free' small with ⟨merged, updated⟩
  unfold dropFollowing
  rw [dropped, dropped', Option.bind_some, Option.map_some, Option.map_some]
  refine ⟨_, rfl, merged, sound', ?_, contents', rfl, rfl, rfl, rfl⟩
  rw [← show get left = fun n => if n < limit then get s.headers n else none from funext contents]
  exact updated

theorem linkHeader_change (steady : s.Steady C) {number : Nat} {header : Header}
    (incoming : new = some (number, header)) (genuine : Genuine C number header)
    (free : get s.headers number = none) (unknown : host.has header.hash = false)
    (common : s.haveCommonHeader = true) (top : Nat) :
    ∃ flow, ({ s with highestBlock := top } : BlockChainSync).linkHeader host number header =
      some flow ∧
      flow.more = [] ∧ s.Change C trieRootOver host new arrival searches flow.after := by
  have small := genuine.small
  have here : ¬ s.haveCommonHeader = false :=
    fun none => Bool.false_ne_true (none.symm.trans common)
  unfold linkHeader
  dsimp only
  rw [DownloadMap.findItem_eq _ _ steady.soundHeaders.proper, Option.bind_some]
  split
  case isTrue => exact ⟨_, rfl, rfl, .cleared ⟨rfl, rfl, handed_of_calls rfl rfl⟩⟩
  case isFalse linked =>
    rw [not_or] at linked
    rcases linked with ⟨below, anchored⟩
    have anchored : number = s.lastImportedBlock + 1 → header.parent = s.lastImportedBlockHash := by
      intro next
      have wraps : number = toUnsigned (s.lastImportedBlock + 1) := by
        rw [← next]
        exact (Nat.mod_eq_of_lt small).symm
      by_contra other
      exact anchored ⟨wraps, other⟩
    have previous : 0 < number → ∀ prev ∈ get s.headers (number - 1), prev.hash =
        header.parent := by
      intro positive prev held
      rw [predecessor small positive, Option.mem_def.mp held, Option.any_some, decide_eq_true_iff,
        not_not] at below
      exact below
    rw [DownloadMap.findItem_eq _ _ steady.soundHeaders.proper, Option.bind_some]
    split
    case isTrue crossed =>
      split
      · exact ⟨_, rfl, rfl, .quiet ⟨rfl, rfl, rfl, rfl, rfl, rfl⟩⟩
      case h_2 following _ =>
        rcases merges_dropFollowing steady header free small top (toUnsigned (number + 1)) following
          with
          ⟨t, dropped, merges⟩
        have short : toUnsigned (number + 1) ≤ number + 1 := Nat.mod_le _ _
        have checked : s.Checked number (toUnsigned (number + 1)) header :=
          ⟨fun _ => ⟨previous, fun below => absurd below (Nat.not_lt.mpr short)⟩, fun _ => anchored,
            fun none => absurd none here⟩
        exact ⟨_, dropped, rfl, .merged incoming genuine free unknown checked merges⟩
    case isFalse joined =>
      have checked : s.Checked number (2 ^ 32) header := by
        refine ⟨fun _ => ⟨previous, fun below next held => ?_⟩, fun _ => anchored,
          fun none => absurd none here⟩
        rw [toUnsigned, Nat.mod_eq_of_lt below, Option.mem_def.mp held, Option.any_some,
          decide_eq_true_iff, not_not] at joined
        exact joined
      exact ⟨_, rfl, rfl, .merged incoming genuine free unknown checked
        (merges_mergeHeader steady header free small top)⟩

theorem onHeader_change (host : Host) (steady : s.Steady C) (data : Option Bytes) :
    ∃ flow, s.onHeader C host data = some flow ∧ flow.more = [] ∧
      s.Change C trieRootOver host (s.incoming C data) arrival searches flow.after := by
  unfold onHeader
  cases parsed : data.bind fun data => (BlockHeader.ofHeaderData C data 0).map fun info =>
    (data, info) with
  | none => exact ⟨_, rfl, rfl, .quiet (.refl s)⟩
  | some entry =>
      rcases entry with ⟨bytes, info⟩
      obtain ⟨item, here, read⟩ := Option.bind_eq_some_iff.mp parsed
      obtain ⟨info', read, same⟩ := Option.map_eq_some_iff.mp read
      cases same
      dsimp only
      rw [DownloadMap.haveItem_eq _ _ steady.soundHeaders.proper]
      cases held : get s.headers (toUnsigned info.number) with
      | some header => exact ⟨_, rfl, rfl, .quiet (.refl s)⟩
      | none =>
          rw [Option.isSome_none, if_neg Bool.false_ne_true]
          by_cases old : toUnsigned info.number ≤ s.lastImportedBlock ∧ s.haveCommonHeader = true
          · rw [if_pos old]
            exact ⟨_, rfl, rfl, .quiet (.refl s)⟩
          · rw [if_neg old]
            have incoming : s.incoming C data =
                some (toUnsigned info.number, ⟨bytes, info.hash C .withSeal, info.parentHash⟩) := by
              have above : (!s.haveCommonHeader ||
                  decide (s.lastImportedBlock < toUnsigned info.number)) = true := by
                rw [Bool.or_eq_true, Bool.not_eq_true', decide_eq_true_iff, ← Nat.not_le,
                  ← Bool.not_eq_true]
                exact not_and_or.mp fun both => old ⟨both.2, both.1⟩
              have taken : readHeader C data =
                  some (toUnsigned info.number,
                    ⟨bytes, info.hash C .withSeal, info.parentHash⟩) := by
                rw [readHeader, here, Option.bind_some, read, Option.map_some]
              rw [BlockChainSync.incoming, taken]
              exact Option.filter_some_pos (by rw [held, above]; rfl)
            have genuine : Genuine C (toUnsigned info.number) ⟨bytes, info.hash C .withSeal,
                info.parentHash⟩ :=
              ⟨info, read, rfl, rfl, rfl⟩
            cases known : host.has (info.hash C .withSeal) with
            | true =>
                rw [if_pos rfl]
                exact ⟨_, rfl, rfl, .known incoming known ⟨rfl, rfl, rfl, rfl, rfl, rfl⟩⟩
            | false =>
                rw [if_neg Bool.false_ne_true]
                by_cases common : s.haveCommonHeader = true
                · rw [if_pos common]
                  exact linkHeader_change steady incoming genuine held known common _
                · rw [if_neg common]
                  exact ⟨_, rfl, rfl, .merged incoming genuine held known
                    ⟨fun here => absurd here common, fun here => absurd here common, fun _ => rfl⟩
                    (merges_mergeHeader steady _ held genuine.small _)⟩

theorem onBody_change (trieRootOver : List Bytes → H256) (steady : s.Steady C)
    (item : Option Bytes) :
    ∃ flow, s.onBody C trieRootOver item = some flow ∧ flow.more = [] ∧
      s.Change C trieRootOver host new arrival searches flow.after := by
  unfold onBody
  split
  · exact ⟨_, rfl, rfl, .quiet (.refl s)⟩
  case h_2 body id _ =>
    split
    · exact ⟨_, rfl, rfl, .quiet (.refl s)⟩
    case h_2 number _ =>
      rw [DownloadMap.findItem_eq _ _ steady.soundHeaders.proper, Option.map_some]
      cases held : get s.headers number with
      | none => exact ⟨_, rfl, rfl, .quiet (.refl s)⟩
      | some header =>
          dsimp only
          rw [DownloadMap.haveItem_eq _ _ steady.soundBodies.proper]
          cases there : get s.bodies number with
          | some other => exact ⟨_, rfl, rfl, .quiet (.refl s)⟩
          | none =>
              rw [Option.isSome_none, if_neg Bool.false_ne_true]
              split
              case h_1 roots info roots_eq read =>
                by_cases same : roots = (info.transactionsRoot, info.sha3Uncles)
                · have small : number < 2 ^ 32 := (steady.genuine number header held).small
                  rcases steady.soundBodies.mergeInto number body there small with ⟨sound, contents⟩
                  rw [if_pos same]
                  exact ⟨_, rfl, rfl,
                    .joined ⟨held, ⟨info, read, roots_eq.trans (congrArg some same)⟩,
                      sound, contents, rfl, rfl, rfl, rfl, rfl⟩⟩
                · rw [if_neg same]
                  exact ⟨_, rfl, rfl, .quiet (.refl s)⟩
              · exact ⟨_, rfl, rfl, .quiet (.refl s)⟩

/-! The import of the first pairs. -/

/-- The first headers and bodies have the same numbers, and so many of them are imported. -/
def Fronts (i : Nat) (s : BlockChainSync) : Prop :=
  ∃ first headers later bodies later', s.headers = (first, headers) :: later ∧
  s.bodies = (first, bodies) :: later' ∧
    i ≤ headers.length ∧ i ≤ bodies.length

def Waits (agenda : List Work) : Prop := ∀ i, Work.importBlock i ∉ agenda

def Ready (agenda : List Work) (s : BlockChainSync) : Prop :=
  Waits agenda ∨ ∃ i rest, agenda = .importBlock i :: rest ∧ Waits rest ∧ s.Fronts i

theorem waits_nil : Waits [] := fun _ => List.not_mem_nil

theorem Waits.cons {work : Work} {agenda : List Work} (other : ∀ i, work ≠ .importBlock i)
    (waits : Waits agenda) :
    Waits (work :: agenda) := by
  intro i member
  rcases List.mem_cons.mp member with here | later
  · exact other i here.symm
  · exact waits i later

theorem Waits.append {agenda later : List Work} (waits : Waits agenda) (waits' : Waits later) :
    Waits (agenda ++ later) := by
  intro i member
  rcases List.mem_append.mp member with first | second
  · exact waits i first
  · exact waits' i second

theorem Ready.append {agenda later : List Work} (ready : s.Ready agenda) (waits : Waits later) :
    s.Ready (agenda ++ later) := by
  rcases ready with free | ⟨i, rest, rfl, behind, fronts⟩
  · exact .inl (free.append waits)
  · exact .inr ⟨i, rest ++ later, rfl, behind.append waits, fronts⟩

theorem collectBlocks_change (s : BlockChainSync) :
    s.Change C trieRootOver host new arrival searches s.collectBlocks.1 ∧
      (s.collectBlocks.2 = true → s.collectBlocks.1.Fronts 0) := by
  unfold collectBlocks
  split
  case isTrue =>
    exact ⟨.cleared ⟨rfl, rfl, rfl⟩, fun collects => absurd collects Bool.false_ne_true⟩
  case isFalse =>
    split
    case h_1 first headers later first' bodies later' front front' =>
      refine ⟨.quiet (.refl s), fun collects => ?_⟩
      rw [Bool.and_eq_true, Bool.and_eq_true, decide_eq_true_iff] at collects
      rcases collects with ⟨⟨-, same⟩, -⟩
      exact ⟨first, headers, later, bodies, later', front, same ▸ front', Nat.zero_le _,
        Nat.zero_le _⟩
    · exact ⟨.quiet (.refl s), fun collects => absurd collects Bool.false_ne_true⟩

theorem get_front {α : Type} {first i : Nat} {items : List α} {later : Chunks α} {item : α}
    (here : items[i]? = some item) :
    get ((first, items) :: later) (first + i) = some item := by
  rcases List.getElem?_eq_some_iff.mp here with ⟨inside, -⟩
  rw [get_cons, if_pos ⟨Nat.le_add_right _ _, Nat.add_lt_add_left inside _⟩,
    Nat.add_sub_cancel_left]
  exact here

theorem onCollected_change (steady : s.Steady C) {i : Nat} (fronts : s.Fronts i) :
    s.Change C trieRootOver host new arrival searches (s.onCollected host i) := by
  rcases steady with ⟨headers, bodies, -, -⟩
  rcases fronts with ⟨first, items, later, items', later', front, front', inside, inside'⟩
  rw [front] at headers
  rw [front'] at bodies
  rcases headers.dropFront i with ⟨sound, contents⟩
  rcases bodies.dropFront i with ⟨sound', contents'⟩
  rw [← front, Nat.min_eq_left inside] at contents
  rw [← front', Nat.min_eq_left inside'] at contents'
  rw [← front] at sound
  rw [← front'] at sound'
  unfold onCollected
  dsimp only
  split
  · exact .cleared (cleared_restartSync s host)
  · split
    · exact .cleared ⟨rfl, rfl, rfl⟩
    · exact .dropped ⟨sound, sound', contents, contents', rfl, rfl, rfl, rfl⟩

theorem onImport_change (steady : s.Steady C) {i : Nat} (fronts : s.Fronts i) :
    s.Change C trieRootOver host new arrival searches (s.onImport host i).after ∧
      (s.onImport host i).after.Ready (s.onImport host i).more := by
  have collected : s.Change C trieRootOver host new arrival searches (s.onCollected host i) :=
    onCollected_change steady fronts
  rcases fronts with ⟨first, items, later, items', later', front, front', inside, inside'⟩
  unfold onImport
  rw [front, front']
  dsimp only
  cases here : items[i]? with
  | none => exact ⟨collected, .inl waits_nil⟩
  | some header =>
      cases here' : items'[i]? with
      | none => exact ⟨collected, .inl waits_nil⟩
      | some body =>
          have heldHeader : get s.headers (first + i) = some header := front ▸ get_front here
          have heldBody : get s.bodies (first + i) = some body := front' ▸ get_front here'
          have number : toUnsigned (first + i) = first + i :=
            Nat.mod_eq_of_lt (steady.genuine _ header heldHeader).small
          dsimp only
          cases made : blockOf header body with
          | none => exact ⟨.quiet (.refl s), .inl waits_nil⟩
          | some block =>
              dsimp only
              rw [number]
              have next : ∀ {t : BlockChainSync}, t.headers = s.headers → t.bodies = s.bodies →
                  t.Ready [.importBlock (i + 1)] :=
                fun same same' => .inr ⟨i + 1, [], rfl, waits_nil, first, items, later, items',
                  later', same.trans front, same'.trans front',
                  (List.getElem?_eq_some_iff.mp here).1, (List.getElem?_eq_some_iff.mp here').1⟩
              have hands : ∀ {t : BlockChainSync}, t.headers = s.headers → t.bodies = s.bodies →
                  t.haveCommonHeader = s.haveCommonHeader →
                  t.calls = s.calls ++ [.importCollected header body block] →
                    s.Hands (first + i) header body block t :=
                fun same same' common calls => ⟨heldHeader, heldBody, made, same, same', common, by
                  rw [BlockChainSync.handed, calls, List.filterMap_append]
                  rfl⟩
              cases host.imports block with
              | none => exact ⟨.handed (hands rfl rfl rfl rfl) (.inr ⟨rfl, rfl⟩), .inl waits_nil⟩
              | some result =>
                  cases result with
                  | success =>
                      unfold onImported
                      dsimp only
                      split
                      · exact ⟨.handed (hands rfl rfl rfl rfl) (.inl ⟨rfl, rfl⟩), next rfl rfl⟩
                      · exact ⟨.handed (hands rfl rfl rfl rfl) (.inr ⟨rfl, rfl⟩), next rfl rfl⟩
                  | malformed | badChain =>
                      exact ⟨.refused (u := s.call (.importCollected header body block))
                        (hands rfl rfl rfl rfl)
                        (cleared_restartSync _ host), .inl waits_nil⟩
                  | futureTimeKnown | alreadyInChain | alreadyKnown =>
                      exact ⟨.handed (hands rfl rfl rfl rfl) (.inr ⟨rfl, rfl⟩), next rfl rfl⟩
                  | futureTimeUnknown | unknownParent =>
                      unfold onImported
                      dsimp only
                      split
                      · exact ⟨.refused (u := s.call (.importCollected header body block))
                          (hands rfl rfl rfl rfl)
                          ⟨rfl, rfl, rfl⟩, .inl waits_nil⟩
                      · exact ⟨.handed (hands rfl rfl rfl rfl) (.inr ⟨rfl, rfl⟩), .inl waits_nil⟩

/-! Blocks that come by another way. -/

section Arrivals

variable (C : Crypto) (host : Host)

def imported (info : BlockHeader) (s : BlockChainSync) : Option (Nat × H256) :=
  if s.lastImportedBlock < info.number then some (toUnsigned info.number, info.hash C .withSeal)
    else none

def importedHeld (info : BlockHeader) (s : BlockChainSync) : Option Nat :=
  (s.imported C info).bind fun arrival =>
    if (get s.headers arrival.1).any fun header => decide (header.hash = arrival.2) then
      some arrival.1 else none

def received (r : Bytes) (s : BlockChainSync) : Option (Nat × H256) :=
  (items r).bind fun all =>
    if all.length ≠ 2 then none
    else (newBlock C r).bind fun new =>
      if toUnsigned (s.lastImportedBlock + 1) < toUnsigned new.2.1.number then none
      else if host.imports new.1 = some .success then
        some (toUnsigned new.2.1.number, new.2.1.hash C .withSeal) else none

def landed (r : Bytes) (s : BlockChainSync) : Option (Nat × H256) :=
  (s.received C host r).filter fun arrival => decide (s.lastImportedBlock < arrival.1)

variable {C host}

theorem Steady.severs (steady : s.Steady C) {number : Nat} (severs : Severs (get s.bodies) number) :
    Severs (get s.headers) number := by
  rcases severs with ⟨here, positive, before⟩
  rcases Option.isSome_iff_exists.mp here with ⟨body, held⟩
  rcases Option.isSome_iff_exists.mp before with ⟨body', held'⟩
  rcases steady.covered number body held with ⟨header, beside⟩
  rcases steady.covered (number - 1) body' held' with ⟨header', beside'⟩
  exact ⟨Option.isSome_of_eq_some beside, positive, Option.isSome_of_eq_some beside'⟩

theorem loses_removeBlock (steady : s.Steady C) {number : Nat}
    (clean : ¬ Severs (get s.headers) number) :
    ∃ left left', s.removeBlock number = some { s with headers := left, bodies := left' } ∧
      s.Loses { s with headers := left, bodies := left' } := by
  have clean' : ¬ Severs (get s.bodies) number := fun severs => clean (steady.severs severs)
  rcases steady.soundHeaders.removeItem number clean with ⟨left, removed, sound, contents⟩
  rcases steady.soundBodies.removeItem number clean' with ⟨left', removed', sound', contents'⟩
  refine ⟨left, left', ?_, sound, sound', fun n header held => ?_, fun n body held => ?_, rfl, rfl⟩
  · unfold removeBlock
    rw [removed, removed', Option.bind_some, Option.map_some]
  · rw [contents] at held
    by_cases here : n = number
    · rw [here, Function.update_self] at held
      cases held
    · rwa [Function.update_of_ne here] at held
  · rw [contents'] at held
    by_cases here : n = number
    · rw [here, Function.update_self] at held
      cases held
    · rw [Function.update_of_ne here] at held
      exact ⟨held, by rw [contents, Function.update_of_ne here]⟩

theorem removeBlock_severs (steady : s.Steady C) {number : Nat}
    (severs : Severs (get s.headers) number) :
    s.removeBlock number = none := by
  unfold removeBlock
  rw [DownloadMap.removeItem_severs s.headers number steady.soundHeaders.proper severs,
    Option.bind_none]

theorem arrived_completeWhenEmpty (loses : s.Loses t) (lands : s.Lands arrival t) :
    s.Change C trieRootOver host new arrival searches t.completeWhenEmpty := by
  unfold completeWhenEmpty
  split
  · exact .cleared ⟨rfl, rfl, loses.handed⟩
  · exact .arrived loses lands

theorem onBlockImported_other {info : BlockHeader} (other : s.imported C info = none) :
    s.onBlockImported C info = some s := by
  unfold imported at other
  unfold onBlockImported
  split at other
  case isTrue => cases other
  case isFalse low => rw [if_neg low]

theorem onBlockImported_change (steady : s.Steady C) {info : BlockHeader}
    (clean : ∀ n ∈ s.importedHeld C info, ¬ Severs (get s.headers) n) :
    ∃ t, s.onBlockImported C info = some t ∧
    s.Change C trieRootOver host new (s.imported C info) searches t := by
  by_cases higher : s.lastImportedBlock < info.number
  · have here : s.imported C info = some (toUnsigned info.number, info.hash C .withSeal) :=
      if_pos higher
    unfold importedHeld at clean
    rw [here, Option.bind_some] at clean
    rw [here]
    unfold onBlockImported
    rw [if_pos higher]
    dsimp only
    rw [DownloadMap.findItem_eq _ _ steady.soundHeaders.proper, Option.bind_some]
    split
    case isTrue held =>
      rw [if_pos held] at clean
      have moved : ({ s with
          lastImportedBlock := toUnsigned info.number
          lastImportedBlockHash := info.hash C .withSeal
          highestBlock := max (toUnsigned info.number) s.highestBlock } : BlockChainSync).Steady
            C := steady.same rfl rfl
      rcases loses_removeBlock moved (clean _ rfl) with ⟨left, left', removed, loses⟩
      rw [removed, Option.map_some]
      exact ⟨_, rfl, arrived_completeWhenEmpty ⟨loses.soundHeaders, loses.soundBodies,
        loses.headers, loses.bodies, rfl, rfl⟩ (.inl rfl)⟩
    case isFalse =>
      rw [Option.map_some]
      exact ⟨_, rfl, arrived_completeWhenEmpty ⟨steady.soundHeaders, steady.soundBodies,
        fun _ _ held => held, fun _ _ held => ⟨held, rfl⟩, rfl, rfl⟩ (.inl rfl)⟩
  · exact ⟨s, onBlockImported_other (if_neg higher), .quiet (.refl s)⟩

theorem onBlockImported_severs (steady : s.Steady C) {info : BlockHeader} {number : Nat}
    (held : number ∈ s.importedHeld C info) (severs : Severs (get s.headers) number) :
    s.onBlockImported C info = none := by
  unfold importedHeld imported at held
  split at held
  case isFalse => cases held
  case isTrue higher =>
    rw [Option.bind_some] at held
    split at held
    case isFalse => cases held
    case isTrue here =>
      cases held
      unfold onBlockImported
      rw [if_pos higher]
      dsimp only
      have moved : ({ s with
          lastImportedBlock := toUnsigned info.number
          lastImportedBlockHash := info.hash C .withSeal
          highestBlock := max (toUnsigned info.number) s.highestBlock } : BlockChainSync).Steady
            C := steady.same rfl rfl
      rw [DownloadMap.findItem_eq _ _ steady.soundHeaders.proper, Option.bind_some, if_pos here,
        removeBlock_severs moved severs, Option.map_none]

/-- The block that the queue has taken is the last imported one, unless there is a higher one. -/
def taken (number : Nat) (hash : H256) (s : BlockChainSync) : BlockChainSync :=
  let s := if s.lastImportedBlock < number then
    { s with lastImportedBlock := number, lastImportedBlockHash := hash } else s
  { s with
    highestBlock := max s.lastImportedBlock s.highestBlock
    downloadingBodies := s.downloadingBodies.erase number
    downloadingHeaders := s.downloadingHeaders.erase number }

theorem onOwnBlock_eq (s : BlockChainSync) (number : Nat) (hash : H256) :
    s.onOwnBlock number hash = ((s.taken number hash).removeBlock number).map completeWhenEmpty :=
  rfl

theorem taken_headers (s : BlockChainSync) (number : Nat) (hash : H256) :
    (s.taken number hash).headers = s.headers := by
  unfold taken
  dsimp only
  split <;> rfl

theorem taken_bodies (s : BlockChainSync) (number : Nat) (hash : H256) :
    (s.taken number hash).bodies = s.bodies := by
  unfold taken
  dsimp only
  split <;> rfl

theorem Quiet.loses (quiet : s.Quiet t) (loses : t.Loses u) : s.Loses u where
  soundHeaders := loses.soundHeaders
  soundBodies := loses.soundBodies
  headers := quiet.headers ▸ loses.headers
  bodies := quiet.headers ▸ quiet.bodies ▸ loses.bodies
  common := loses.common.trans quiet.common
  handed := loses.handed.trans quiet.handed

theorem lands_taken (quiet : s.Quiet t) {number : Nat} {hash : H256}
    (landing : s.lastImportedBlock < number → arrival = some (number, hash)) :
    s.Lands arrival (t.taken number hash) := by
  unfold taken
  dsimp only
  split
  case isTrue higher => exact .inl (landing (quiet.last ▸ higher))
  case isFalse => exact .inr ⟨quiet.last, quiet.lastHash⟩

theorem loses_taken (steady : s.Steady C) (number : Nat) (hash : H256) :
    s.Loses (s.taken number hash) := by
  unfold taken
  dsimp only
  split <;> exact ⟨steady.soundHeaders, steady.soundBodies, fun _ _ held => held,
    fun _ _ held => ⟨held, rfl⟩, rfl, rfl⟩

theorem Loses.trans (first : s.Loses t) (later : t.Loses u) : s.Loses u where
  soundHeaders := later.soundHeaders
  soundBodies := later.soundBodies
  headers n header held := first.headers n header (later.headers n header held)
  bodies n body held := by
    rcases later.bodies n body held with ⟨before, same⟩
    rcases first.bodies n body before with ⟨before', same'⟩
    exact ⟨before', same.trans same'⟩
  common := later.common.trans first.common
  handed := later.handed.trans first.handed

theorem onOwnBlock_change (steady : s.Steady C) (quiet : s.Quiet t) {number : Nat} {hash : H256}
    (landing : s.lastImportedBlock < number → arrival = some (number, hash))
    (clean : ¬ Severs (get s.headers) number) :
    ∃ u, t.onOwnBlock number hash = some u ∧
    s.Change C trieRootOver host new arrival searches u := by
  have headers : (t.taken number hash).headers = s.headers :=
    (taken_headers t number hash).trans quiet.headers
  have bodies : (t.taken number hash).bodies = s.bodies :=
    (taken_bodies t number hash).trans quiet.bodies
  rcases loses_removeBlock (steady.same headers bodies) (headers.symm ▸ clean) with
    ⟨left, left', removed, loses⟩
  rw [onOwnBlock_eq, removed, Option.map_some]
  have taken := loses_taken (steady.same quiet.headers quiet.bodies) number hash
  exact ⟨_, rfl, arrived_completeWhenEmpty (quiet.loses (taken.trans loses))
    (lands_taken quiet landing)⟩

theorem onOwnBlock_severs (steady : s.Steady C) (quiet : s.Quiet t) {number : Nat} {hash : H256}
    (severs : Severs (get s.headers) number) : t.onOwnBlock number hash = none := by
  have headers : (t.taken number hash).headers = s.headers :=
    (taken_headers t number hash).trans quiet.headers
  have bodies : (t.taken number hash).bodies = s.bodies :=
    (taken_bodies t number hash).trans quiet.bodies
  rw [onOwnBlock_eq, removeBlock_severs (steady.same headers bodies) (headers.symm ▸ severs),
    Option.map_none]

theorem onPeerNewBlock_other {peer : SyncPeer} {r : Bytes} (other : s.received C host r = none) :
    ∃ flow, s.onPeerNewBlock C host peer r = some flow ∧ Waits flow.more ∧
      s.Change C trieRootOver host new arrival searches flow.after := by
  unfold received at other
  unfold onPeerNewBlock
  cases parsed : items r with
  | none => exact ⟨_, rfl, waits_nil, .quiet (.refl s)⟩
  | some all =>
      rw [parsed, Option.bind_some] at other
      dsimp only
      split
      case isTrue => exact ⟨_, rfl, waits_nil, .quiet (quiet_call s rfl)⟩
      case isFalse two =>
        rw [if_neg two] at other
        cases read : newBlock C r with
        | none => exact ⟨_, rfl, waits_nil, .quiet (.refl s)⟩
        | some new =>
            rcases new with ⟨block, info, totalDifficulty⟩
            rw [read, Option.bind_some] at other
            dsimp only at other ⊢
            split
            case isTrue => exact ⟨_, rfl, waits_nil.cons fun _ same => Work.noConfusion same,
              .quiet (.refl s)⟩
            case isFalse low =>
              rw [if_neg low] at other
              cases answer : host.imports block with
              | none => exact ⟨_, rfl, waits_nil, .quiet (quiet_call s rfl)⟩
              | some result =>
                  rw [answer] at other
                  cases result with
                  | success =>
                      rw [if_pos rfl] at other
                      cases other
                  | malformed | badChain =>
                      exact ⟨_, rfl, waits_nil,
                        .quiet ((quiet_call s rfl).trans (quiet_call _ rfl))⟩
                  | futureTimeKnown | alreadyInChain | alreadyKnown =>
                      exact ⟨_, rfl, waits_nil, .quiet (quiet_call s rfl)⟩
                  | futureTimeUnknown | unknownParent =>
                      refine ⟨_, rfl, ?_, ?_⟩
                      · dsimp only [Flow.more]
                        split
                        · exact waits_nil.cons fun _ same => Work.noConfusion same
                        · exact waits_nil
                      · dsimp only [Flow.after]
                        split
                        · exact .cleared ⟨rfl, rfl, ((cleared_restartSync _ host).handed.trans
                            (quiet_call _ rfl).handed).trans (quiet_call s rfl).handed⟩
                        · exact .quiet (quiet_call s rfl)

theorem onPeerNewBlock_received (peer : SyncPeer) {r : Bytes} {number : Nat} {hash : H256}
    (here : s.received C host r = some (number, hash)) :
    ∃ block, s.onPeerNewBlock C host peer r =
      ((s.call (.importReceived block)).onOwnBlock number hash).map fun s => .goes s [] := by
  unfold received at here
  rcases Option.bind_eq_some_iff.mp here with ⟨all, parsed, here⟩
  split at here
  case isTrue => cases here
  case isFalse two =>
    rcases Option.bind_eq_some_iff.mp here with ⟨⟨block, info, totalDifficulty⟩, read, here⟩
    dsimp only at here
    split at here
    case isTrue => cases here
    case isFalse low =>
      split at here
      case isFalse => cases here
      case isTrue success =>
        cases here
        unfold onPeerNewBlock
        rw [parsed]
        dsimp only
        rw [if_neg two, read]
        dsimp only
        rw [if_neg low, success]
        exact ⟨block, rfl⟩

end Arrivals

end UtispaceChain.BlockChainSync
