import UtispaceChain.Cv.StoredRecords
import UtispaceChain.Cv.Watches
import UtispaceChain.Lib.BitSet

/-! Log filters: the entries of a receipt that match, and the blooms that pick out blocks. -/

namespace UtispaceChain

open Lib

/-- `FixedHash<M>`: the bit of weight `2 ^ i` is bit `i % 8` of byte `M - 1 - i / 8`. -/
abbrev LogBloom := Nat

/-- `bloomPart<P, M>` of a hash: its first bytes name `P` of `8 * M` bits. -/
def bloomPart (P M : Nat) (h : H256) : LogBloom :=
  let c_bloomBits := M * 8
  let c_mask := c_bloomBits - 1
  let c_bloomBytes := (Nat.log2 c_bloomBits + 7) / 8
  (List.range P).foldl (fun ret i =>
    let p := ((toBigEndian 32 h).drop (i * c_bloomBytes)).take c_bloomBytes
    let index := p.foldl (fun index byte => index <<< 8 ||| byte.toNat) 0 &&& c_mask
    ret ||| 2 ^ index) 0

def shiftBloom (h : H256) (b : LogBloom) : LogBloom := b ||| bloomPart 3 256 h

def containsBloom (h : H256) (b : LogBloom) : Bool := contains b (bloomPart 3 256 h)

namespace Crypto

variable (C : Crypto)

def addressHash (a : Nat) : H256 := C.sha3 (toBigEndian 20 a)

def topicHash (t : H256) : H256 := C.sha3 (toBigEndian 32 t)

def addressBits (a : Nat) : LogBloom := bloomPart 3 256 (C.addressHash a)

def topicBits (t : H256) : LogBloom := bloomPart 3 256 (C.topicHash t)

end Crypto

open Accounts (LogEntry)
open Stored (TransactionReceipt)

variable (C : Crypto)

def Accounts.LogEntry.bloom (e : LogEntry) : LogBloom :=
  e.topics.foldl (fun ret t => shiftBloom (C.topicHash t) ret)
    (shiftBloom (C.addressHash e.address) 0)

def bloom (logs : List LogEntry) : LogBloom := logs.foldl (fun ret l => ret ||| l.bloom C) 0

def Stored.TransactionReceipt.ofLogs (root : H256) (gasUsed : Nat) (log : List LogEntry)
    (contractAddress : Nat) : TransactionReceipt :=
  { stateRoot := root, gasUsed, contractAddress, bloom := UtispaceChain.bloom C log, log }

/-- `Block::logBloom`, of the receipts of the block. -/
def logBloom (receipts : List TransactionReceipt) : LogBloom :=
  receipts.foldl (fun ret r => ret ||| r.bloom) 0

namespace LogFilter

variable (f : LogFilter)

def isRangeFilter : Bool :=
  f.addresses.isEmpty && (List.finRange 4).all fun i => (f.topics i).isEmpty

def matchesBloom (bloom : LogBloom) : Bool :=
  (f.addresses.isEmpty || f.addresses.any fun a => containsBloom (C.addressHash a) bloom) &&
    (List.finRange 4).all fun i =>
      (f.topics i).isEmpty || (f.topics i).any fun t => containsBloom (C.topicHash t) bloom

def given : List (Fin 4) := (List.finRange 4).filter fun i => !(f.topics i).isEmpty

def bloomPossibilities : List LogBloom :=
  let topicsOver :=
    fun (b : LogBloom) (i : Fin 4) => (f.topics i).foldl (fun b j => shiftBloom (C.topicHash j) b) b
  -- every address with every topic set
  let ret := f.addresses.flatMap fun a => f.given.map (topicsOver (shiftBloom (C.addressHash a) 0))
  -- no topics
  let ret := if ret.isEmpty then f.addresses.map fun a => shiftBloom (C.addressHash a) 0 else ret
  -- no addresses
  if f.addresses.isEmpty then ret ++ f.given.map (topicsOver 0) else ret

/-- The test of one position; `none` when it reads a topic that the entry does not have. -/
def topicFits (e : LogEntry) (i : Fin 4) : Option Bool :=
  if (f.topics i).isEmpty then some true
  else if e.topics.length < i then some false
  else e.topics[i.val]?.map fun t => (f.topics i).contains t

def topicsFit (e : LogEntry) : List (Fin 4) → Option Bool
  | [] => some true
  | i :: rest => (f.topicFits e i).bind fun fits => if fits then topicsFit e rest else some false

def entryFits (e : LogEntry) : Option Bool :=
  if !f.addresses.isEmpty && !f.addresses.contains e.address then some false
  else f.topicsFit e (List.finRange 4)

def fitting : List LogEntry → Option (List LogEntry)
  | [] => some []
  | e :: rest => (f.entryFits e).bind fun fits =>
      (fitting rest).map fun ret => if fits then e :: ret else ret

/-- `matches(TransactionReceipt)`. -/
def matchesReceipt (m : TransactionReceipt) : Option (List LogEntry) :=
  if f.isRangeFilter then some m.log
  else if f.matchesBloom C m.bloom then f.fitting m.log
  else some []

/-! What the filter asks for -/

def AdmitsAddress (a : Nat) : Prop := f.addresses = [] ∨ a ∈ f.addresses

def AdmitsTopic (e : LogEntry) (i : Fin 4) : Prop :=
  f.topics i ≠ [] → ∃ t ∈ f.topics i, e.topics[i.val]? = some t

/-- The address is one of the filter's, and so is the topic at each position that has a set. -/
def Selects (e : LogEntry) : Prop := f.AdmitsAddress e.address ∧ ∀ i, f.AdmitsTopic e i

instance (a : Nat) : Decidable (f.AdmitsAddress a) := inferInstanceAs (Decidable (_ ∨ _))

instance (e : LogEntry) (i : Fin 4) : Decidable (f.AdmitsTopic e i) :=
  inferInstanceAs (Decidable (_ → _))

instance (e : LogEntry) : Decidable (f.Selects e) := inferInstanceAs (Decidable (_ ∧ _))

/-- The walk over the positions comes to one that has a set, with just as many topics as there are
positions before. -/
def Overruns (e : LogEntry) : Prop :=
  f.AdmitsAddress e.address ∧
    ∃ i : Fin 4, f.topics i ≠ [] ∧ e.topics.length = i.val ∧ ∀ j < i, f.AdmitsTopic e j

instance (e : LogEntry) : Decidable (f.Overruns e) := inferInstanceAs (Decidable (_ ∧ _))

end LogFilter

/-! Blooms as sets of bits -/

variable {C}

theorem addressBits_eq (a : Nat) : shiftBloom (C.addressHash a) 0 = C.addressBits a := Nat.zero_or _

theorem Accounts.LogEntry.bloom_eq (e : LogEntry) :
    e.bloom C = unite C.topicBits (C.addressBits e.address) e.topics := by
  rw [LogEntry.bloom, addressBits_eq]
  rfl

theorem contains_bloom {logs : List LogEntry} {e : LogEntry} (member : e ∈ logs) :
    contains (bloom C logs) (e.bloom C) = true :=
  unite_contains (Accounts.LogEntry.bloom C) 0 member

theorem contains_logBloom {receipts : List TransactionReceipt} {r : TransactionReceipt}
    (member : r ∈ receipts) :
    contains (logBloom receipts) r.bloom = true := unite_contains TransactionReceipt.bloom 0 member

namespace LogFilter

variable {f : LogFilter} {e : LogEntry}

theorem mem_given {i : Fin 4} : i ∈ f.given ↔ f.topics i ≠ [] := by simp [given]

theorem isRangeFilter_iff : f.isRangeFilter = true ↔ f.addresses = [] ∧ ∀ i, f.topics i = [] := by
  simp [isRangeFilter]

theorem Selects.of_range (range : f.isRangeFilter = true) (e : LogEntry) : f.Selects e := by
  rcases isRangeFilter_iff.mp range with ⟨noAddress, noTopic⟩
  exact ⟨Or.inl noAddress, fun i wanted => absurd (noTopic i) wanted⟩

theorem Selects.matchesBloom (selected : f.Selects e) {b : LogBloom}
    (covers : contains b (e.bloom C) = true) :
    f.matchesBloom C b = true := by
  rw [e.bloom_eq, contains_unite] at covers
  rcases covers with ⟨address, topics⟩
  simp only [LogFilter.matchesBloom, containsBloom, Bool.and_eq_true, Bool.or_eq_true,
    List.isEmpty_iff, List.any_eq_true, List.all_eq_true]
  constructor
  · exact selected.1.imp_right fun inside => ⟨_, inside, address⟩
  · intro i _
    by_cases empty : f.topics i = []
    · exact Or.inl empty
    · rcases selected.2 i empty with ⟨t, inside, here⟩
      exact Or.inr ⟨t, inside, topics t (List.mem_of_getElem? here)⟩

/-! The walk over the positions -/

theorem topicFits_some (i : Fin 4) (within : f.topics i ≠ [] → e.topics.length ≠ i.val) :
    f.topicFits e i = some (decide (f.AdmitsTopic e i)) := by
  unfold topicFits
  by_cases empty : f.topics i = []
  · simp [empty, AdmitsTopic]
  · rw [if_neg (by simpa using empty)]
    rcases Nat.lt_or_ge e.topics.length i.val with short | long
    · have none : e.topics[i.val]? = none := List.getElem?_eq_none (Nat.le_of_lt short)
      simp [short, AdmitsTopic, empty, none]
    · have inside : i.val < e.topics.length := Nat.lt_of_le_of_ne long (Ne.symm (within empty))
      rw [if_neg (Nat.not_lt.mpr long), List.getElem?_eq_getElem inside, Option.map_some]
      congr 1
      simp [AdmitsTopic, empty, List.getElem?_eq_getElem inside, List.contains_eq_mem]

theorem topicFits_none {i : Fin 4} (wanted : f.topics i ≠ []) (ends : e.topics.length = i.val) :
    f.topicFits e i = none := by
  simp [topicFits, wanted, ends]

theorem topicsFit_some (positions : List (Fin 4))
    (within : ∀ before i after, positions = before ++ i :: after →
      (∀ j ∈ before, f.AdmitsTopic e j) →
      f.topics i ≠ [] → e.topics.length ≠ i.val) :
    f.topicsFit e positions = some (decide (∀ i ∈ positions, f.AdmitsTopic e i)) := by
  induction positions with
  | nil => simp [topicsFit]
  | cons i rest ih =>
      have first := topicFits_some i (within [] i rest rfl (by simp))
      rw [topicsFit, first, Option.bind_some]
      by_cases admitted : f.AdmitsTopic e i
      · have later :=
          ih fun before j after split admits => within (i :: before) j after (by rw [split]; rfl)
          (List.forall_mem_cons.mpr ⟨admitted, admits⟩)
        rw [if_pos (decide_eq_true admitted), later]
        simp [admitted]
      · simp [admitted]

theorem topicsFit_none {before after : List (Fin 4)} {i : Fin 4}
    (admits : ∀ j ∈ before, f.AdmitsTopic e j) (wanted : f.topics i ≠ [])
    (ends : e.topics.length = i.val) :
    f.topicsFit e (before ++ i :: after) = none := by
  induction before with
  | nil => rw [List.nil_append, topicsFit, topicFits_none wanted ends, Option.bind_none]
  | cons j before ih =>
      rcases List.forall_mem_cons.mp admits with ⟨admitted, rest⟩
      have inside : f.topicFits e j = some true := by
        rw [topicFits_some j, decide_eq_true admitted]
        intro filled same
        rcases admitted filled with ⟨t, _, here⟩
        rw [List.getElem?_eq_none (Nat.le_of_eq same)] at here
        cases here
      rw [List.cons_append, topicsFit, inside]
      exact ih rest

theorem finRange_split {before after : List (Fin 4)} {i : Fin 4}
    (split : List.finRange 4 = before ++ i :: after) (j : Fin 4) : j ∈ before ↔ j < i := by
  have sorted := List.pairwise_lt_finRange 4
  rw [split, List.pairwise_append, List.pairwise_cons] at sorted
  rcases sorted with ⟨_, ⟨above, _⟩, below⟩
  constructor
  · exact fun member => below j member i List.mem_cons_self
  · intro less
    have member : j ∈ before ++ i :: after := split ▸ List.mem_finRange j
    rcases List.mem_append.mp member with first | rest
    · exact first
    · rcases List.mem_cons.mp rest with rfl | later
      · exact absurd less (lt_irrefl _)
      · exact absurd less (lt_asymm (above j later))

theorem entryFits_some (within : ¬ f.Overruns e) : f.entryFits e = some (decide (f.Selects e)) := by
  unfold entryFits
  by_cases admitted : f.AdmitsAddress e.address
  · have passes : (!f.addresses.isEmpty && !f.addresses.contains e.address) = false := by
      rcases admitted with none | inside
      · simp [none]
      · simp [inside]
    rw [passes, if_neg Bool.false_ne_true, topicsFit_some]
    · simp [Selects, admitted]
    · intro before i after split admits wanted ends
      exact within ⟨admitted, i, wanted, ends,
        fun j less => admits j ((finRange_split split j).mpr less)⟩
  · have fails : (!f.addresses.isEmpty && !f.addresses.contains e.address) = true := by
      simp only [AdmitsAddress, not_or] at admitted
      simp [admitted.1, admitted.2]
    rw [if_pos fails]
    simp [Selects, admitted]

theorem entryFits_none (beyond : f.Overruns e) : f.entryFits e = none := by
  rcases beyond with ⟨admitted, i, wanted, ends, admits⟩
  have passes : (!f.addresses.isEmpty && !f.addresses.contains e.address) = false := by
    rcases admitted with none | inside
    · simp [none]
    · simp [inside]
  rcases List.append_of_mem (List.mem_finRange i) with ⟨before, after, split⟩
  rw [entryFits, passes, if_neg Bool.false_ne_true, split]
  exact topicsFit_none (fun j member => admits j ((finRange_split split j).mp member)) wanted ends

theorem fitting_some {logs : List LogEntry} (within : ∀ e ∈ logs, ¬ f.Overruns e) :
    f.fitting logs = some (logs.filter fun e => decide (f.Selects e)) := by
  induction logs with
  | nil => rfl
  | cons e rest ih =>
      rcases List.forall_mem_cons.mp within with ⟨first, later⟩
      rw [fitting, entryFits_some first, ih later]
      simp [List.filter_cons]

theorem fitting_none {logs : List LogEntry} (member : e ∈ logs) (beyond : f.Overruns e) :
    f.fitting logs = none := by
  induction logs with
  | nil => cases member
  | cons first rest ih =>
      rw [fitting]
      rcases List.mem_cons.mp member with rfl | later
      · rw [entryFits_none beyond, Option.bind_none]
      · rw [ih later]
        cases f.entryFits first <;> rfl

/-- The selected entries are found, and no missing topic is read, just when the bloom turns the
receipt away or the walk over no entry comes to a set with one topic too few. -/
theorem matches_exact_iff (C : Crypto) (f : LogFilter) (m : TransactionReceipt)
    (true_bloom : m.bloom = bloom C m.log) :
    f.matchesReceipt C m = some (m.log.filter fun e => decide (f.Selects e)) ↔
      (f.matchesBloom C m.bloom = true → ∀ e ∈ m.log, ¬ f.Overruns e) := by
  unfold matchesReceipt
  by_cases range : f.isRangeFilter = true
  · have all : (m.log.filter fun e => decide (f.Selects e)) = m.log :=
      List.filter_eq_self.mpr fun e _ => decide_eq_true (Selects.of_range range e)
    rw [if_pos range, all]
    refine iff_of_true rfl fun _ e _ beyond => ?_
    rcases beyond with ⟨_, i, wanted, _⟩
    exact wanted ((isRangeFilter_iff.mp range).2 i)
  · rw [if_neg range]
    by_cases passes : f.matchesBloom C m.bloom = true
    · rw [if_pos passes]
      constructor
      · intro exact_result _ e member beyond
        rw [fitting_none member beyond] at exact_result
        cases exact_result
      · exact fun within => fitting_some (within passes)
    · rw [if_neg passes]
      refine iff_of_true ?_ fun passed => absurd passed passes
      symm
      congr 1
      apply List.filter_eq_nil_iff.mpr
      intro e member selected
      apply passes
      rw [true_bloom]
      exact (of_decide_eq_true selected).matchesBloom (contains_bloom member)

def toyLogs : List LogEntry := [⟨7, [1, 2], []⟩, ⟨7, [], []⟩]

def toyFirstTopic : LogFilter :=
  { topics := Function.update (fun _ => []) 0 [1], earliest := 0, latest := 0 }

def toySecondTopic : LogFilter :=
  { topics := Function.update (fun _ => []) 1 [2], earliest := 0, latest := 0 }

/-- A set for the second topic alone is decided at every entry. -/
theorem matches_second_topic : toySecondTopic.matchesReceipt .toy (.ofLogs .toy 0 0 toyLogs 0) =
    some [⟨7, [1, 2], []⟩] :=
  ((matches_exact_iff .toy toySecondTopic (.ofLogs .toy 0 0 toyLogs 0) rfl).mpr
    (by decide +kernel)).trans (by decide +kernel)

/-- A set for the first topic reads it of an entry that has none. -/
theorem missing_topic_read : ¬ ∀ (C : Crypto) (f : LogFilter) (m : TransactionReceipt), m.bloom =
    bloom C m.log →
    f.matchesReceipt C m = some (m.log.filter fun e => decide (f.Selects e)) := by
  intro allRead
  have read : toyFirstTopic.matchesReceipt .toy (.ofLogs .toy 0 0 toyLogs 0) = none := by
    decide +kernel
  rw [allRead .toy toyFirstTopic (.ofLogs .toy 0 0 toyLogs 0) rfl] at read
  cases read

/-! Blocks picked out by their bloom -/

/-- Every block with a selected entry shows one of the blooms. -/
def FindsBlocks (C : Crypto) (f : LogFilter) : Prop :=
  ∀ receipts : List TransactionReceipt, (∀ r ∈ receipts, r.bloom = bloom C r.log) →
    (∃ r ∈ receipts, ∃ e ∈ r.log, f.Selects e) →
    ∃ b ∈ f.bloomPossibilities C, contains (logBloom receipts) b = true

def Picks (f : LogFilter) (pick : Fin 4 → H256) : Prop := ∀ i, f.topics i ≠ [] → pick i ∈ f.topics i

/-- The bits of an address and of one topic out of each set. -/
def pickedBits (C : Crypto) (f : LogFilter) (a : Nat) (pick : Fin 4 → H256) : LogBloom :=
  unite (fun i => C.topicBits (pick i)) (C.addressBits a) f.given

/-- Whatever is picked, the bits of the picks are those of a whole set. -/
def WholeSetShown (C : Crypto) (f : LogFilter) : Prop :=
  ∀ a pick, f.AdmitsAddress a → f.Picks pick →
    ∃ i ∈ f.given, ∀ t ∈ f.topics i, contains (f.pickedBits C a pick) (C.topicBits t) = true

theorem wholeSetShown_of_single (C : Crypto) {i : Fin 4} {t : H256} (single : f.topics i = [t]) :
    f.WholeSetShown C := by
  intro a pick _ picks
  have wanted : f.topics i ≠ [] := by simp [single]
  refine ⟨i, mem_given.mpr wanted, fun u member => ?_⟩
  have same : u = pick i := by
    have picked := picks i wanted
    rw [single, List.mem_singleton] at member picked
    rw [member, picked]
  rw [same]
  exact unite_contains (fun i => C.topicBits (pick i)) _ (mem_given.mpr wanted)

theorem topicsOver_eq (b : LogBloom) (i : Fin 4) :
    (f.topics i).foldl (fun b j => shiftBloom (C.topicHash j) b) b =
      unite C.topicBits b (f.topics i) := rfl

theorem mem_bloomPossibilities (b : LogBloom) (some_set : f.given ≠ []) :
    b ∈ f.bloomPossibilities C ↔
    ∃ i ∈ f.given, (f.addresses = [] ∧ b = unite C.topicBits 0 (f.topics i)) ∨
      ∃ a ∈ f.addresses, b = unite C.topicBits (C.addressBits a) (f.topics i) := by
  simp only [bloomPossibilities, topicsOver_eq, addressBits_eq]
  by_cases none : f.addresses = []
  · simp [none, eq_comm]
  · have more : (f.addresses.flatMap fun a => f.given.map fun i => unite C.topicBits
        (C.addressBits a) (f.topics i)) ≠ [] := by
      rcases List.exists_mem_of_ne_nil _ none with ⟨a, address⟩
      rcases List.exists_mem_of_ne_nil _ some_set with ⟨i, set⟩
      exact List.ne_nil_of_mem (List.mem_flatMap.mpr ⟨a, address, List.mem_map_of_mem set⟩)
    rw [if_neg (by rwa [List.isEmpty_iff]), if_neg (by rwa [List.isEmpty_iff]), List.mem_flatMap]
    simp only [List.mem_map, none, false_and, false_or]
    constructor
    · rintro ⟨a, address, i, set, rfl⟩
      exact ⟨i, set, a, address, rfl⟩
    · rintro ⟨i, set, a, address, rfl⟩
      exact ⟨a, address, i, set, rfl⟩

theorem bloomPossibilities_bare (no_set : f.given = []) :
    f.bloomPossibilities C = f.addresses.map C.addressBits := by
  simp only [bloomPossibilities, no_set, addressBits_eq]
  by_cases none : f.addresses = []
  · simp [none]
  · simp [none]

def pickedEntry (a : Nat) (pick : Fin 4 → H256) (other : Fin 4) : LogEntry :=
  ⟨a, (List.finRange 4).map fun i => if f.topics i = [] then pick other else pick i, []⟩

theorem pickedEntry_selected {a : Nat} {pick : Fin 4 → H256} (other : Fin 4)
    (admitted : f.AdmitsAddress a) (picks : f.Picks pick) :
    f.Selects (f.pickedEntry a pick other) := by
  refine ⟨admitted, fun i wanted => ⟨pick i, picks i wanted, ?_⟩⟩
  have here : (List.finRange 4)[i.val]? = some i := by simp
  rw [pickedEntry, List.getElem?_map, here, Option.map_some, if_neg wanted]

theorem pickedEntry_bloom {a : Nat} {pick : Fin 4 → H256} {other : Fin 4} (set : other ∈ f.given) :
    contains (f.pickedBits C a pick) ((f.pickedEntry a pick other).bloom C) = true := by
  rw [Accounts.LogEntry.bloom_eq, contains_unite]
  refine ⟨unite_contains_start _ _ _, fun t member => ?_⟩
  rcases List.mem_map.mp member with ⟨i, _, rfl⟩
  split_ifs with empty
  · exact unite_contains (fun i => C.topicBits (pick i)) _ set
  · exact unite_contains (fun i => C.topicBits (pick i)) _ (mem_given.mpr empty)

theorem Selects.picks (selected : f.Selects e) :
    ∃ pick, f.Picks pick ∧ contains (e.bloom C) (f.pickedBits C e.address pick) = true := by
  refine ⟨fun i => (e.topics[i.val]?).getD 0, ?_, ?_⟩
  · intro i wanted
    rcases selected.2 i wanted with ⟨t, inside, here⟩
    simpa only [here, Option.getD_some] using inside
  · rw [pickedBits, contains_unite, e.bloom_eq]
    refine ⟨unite_contains_start _ _ _, fun i set => ?_⟩
    rcases selected.2 i (mem_given.mp set) with ⟨t, _, here⟩
    simp only [here, Option.getD_some]
    exact unite_contains C.topicBits _ (List.mem_of_getElem? here)

theorem block_shows {receipts : List TransactionReceipt}
    (true_blooms : ∀ r ∈ receipts, r.bloom = bloom C r.log) {r : TransactionReceipt}
    (inBlock : r ∈ receipts) (inReceipt : e ∈ r.log) :
    contains (logBloom receipts) (e.bloom C) = true := by
  apply contains_trans (contains_logBloom inBlock)
  rw [true_blooms r inBlock]
  exact contains_bloom inReceipt

/-- A filter that names an address or a topic finds every block just when it names no topics, or
whatever is picked out of its sets shows one of them whole. -/
theorem finds_blocks_iff (C : Crypto) (f : LogFilter) (specific : f.isRangeFilter = false) :
    f.FindsBlocks C ↔ (∀ i, f.topics i = []) ∨ f.WholeSetShown C := by
  constructor
  · intro finds
    by_cases no_set : ∀ i, f.topics i = []
    · exact Or.inl no_set
    · refine Or.inr fun a pick admitted picks => ?_
      push Not at no_set
      rcases no_set with ⟨other, wanted⟩
      have set : other ∈ f.given := mem_given.mpr wanted
      let e := f.pickedEntry a pick other
      rcases finds [.ofLogs C 0 0 [e] 0] (by simp [TransactionReceipt.ofLogs])
        ⟨_, List.mem_cons_self, e, List.mem_cons_self, pickedEntry_selected other admitted picks⟩
        with ⟨b, possible, shown⟩
      have block : contains (f.pickedBits C a pick) b = true := by
        apply contains_trans (pickedEntry_bloom set)
        simpa [logBloom, TransactionReceipt.ofLogs, bloom] using shown
      rcases (mem_bloomPossibilities b (List.ne_nil_of_mem set)).mp possible with
        ⟨i, given, ⟨_, rfl⟩ | ⟨_, _, rfl⟩⟩
      · exact ⟨i, given, ((contains_unite _ _ _ _).mp block).2⟩
      · exact ⟨i, given, ((contains_unite _ _ _ _).mp block).2⟩
  · intro whole receipts true_blooms
    rintro ⟨r, inBlock, e, inReceipt, selected⟩
    have shows := block_shows true_blooms inBlock inReceipt
    by_cases no_set : f.given = []
    · rw [bloomPossibilities_bare no_set]
      have topics : ∀ i, f.topics i = [] := by
        intro i
        by_contra wanted
        exact List.not_mem_nil (no_set ▸ mem_given.mpr wanted)
      rcases selected.1 with none | inside
      · rw [isRangeFilter_iff.mpr ⟨none, topics⟩] at specific
        cases specific
      · refine ⟨C.addressBits e.address, List.mem_map_of_mem inside, contains_trans shows ?_⟩
        rw [e.bloom_eq]
        exact unite_contains_start _ _ _
    · rcases List.exists_mem_of_ne_nil _ no_set with ⟨other, set⟩
      have shown := whole.resolve_left fun empty => mem_given.mp set (empty other)
      rcases selected.picks (C := C) with ⟨pick, picks, picked⟩
      rcases shown e.address pick selected.1 picks with ⟨i, given, covered⟩
      have topics : ∀ t ∈ f.topics i, contains (logBloom receipts) (C.topicBits t) = true :=
        fun t member =>
        contains_trans shows (contains_trans picked (covered t member))
      rcases selected.1 with none | inside
      · exact ⟨_, (mem_bloomPossibilities _ no_set).mpr ⟨i, given, Or.inl ⟨none, rfl⟩⟩,
          (contains_unite _ _ _ _).mpr ⟨contains_zero _, topics⟩⟩
      · refine ⟨_, (mem_bloomPossibilities _ no_set).mpr ⟨i, given, Or.inr ⟨_, inside, rfl⟩⟩,
          (contains_unite _ _ _ _).mpr ⟨contains_trans shows ?_, topics⟩⟩
        rw [e.bloom_eq]
        exact unite_contains_start _ _ _

def toyEither : LogFilter :=
  { topics := Function.update (fun _ => []) 0 [2 ^ 240, 2 ^ 241], earliest := 0, latest := 0 }

theorem finds_blocks_single : toyFirstTopic.FindsBlocks .toy :=
  (finds_blocks_iff .toy toyFirstTopic (by decide)).mpr
    (Or.inr (wholeSetShown_of_single .toy (i := 0) (t := 1) rfl))

/-- A block whose one entry has the first of two topics asked for shows neither both nor anything
else. -/
theorem either_topic_missed : ¬ ∀ (C : Crypto) (f : LogFilter), f.isRangeFilter = false →
    f.FindsBlocks C := by
  intro blocksFound
  rcases blocksFound .toy toyEither (by decide) [.ofLogs .toy 0 0 [⟨7, [2 ^ 240], []⟩] 0]
    (by decide +kernel)
    ⟨_, List.mem_cons_self, _, List.mem_cons_self, by decide +kernel⟩ with ⟨b, possible, shown⟩
  have missed : ∀ b ∈ toyEither.bloomPossibilities .toy,
      contains (logBloom [.ofLogs .toy 0 0 [⟨7, [2 ^ 240], []⟩] 0]) b = false := by decide +kernel
  rw [missed b possible] at shown
  cases shown

end LogFilter

end UtispaceChain
