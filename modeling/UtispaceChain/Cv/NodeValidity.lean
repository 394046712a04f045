import Mathlib.Data.Finset.Card
import UtispaceChain.Cv.NodeConnParamsManager
import UtispaceChain.PbftSeal.Configuration

/-! The check of a list of nodes, and the miner lists that are made of the tables it lets
through. -/

namespace UtispaceChain

open Lib

namespace NodeTable

/-- The miner list of `checkBlockValid`, which throws at an index out of bounds. -/
def blockMinerList (nodes : NodeTable) : Option (List Public) :=
  let filled := fillMinerList nodes.getMinerNum (nodes.entries.filter NodeConnParams.isMiner)
    (resize [] nodes.getMinerNum)
  if filled.1 then some filled.2 else none

/-- Every slot of the list is written by exactly one miner. -/
structure Assigned (nodes : NodeTable) (list : List Public) : Prop where
  length : list.length = nodes.getMinerNum
  once : ∀ i < nodes.getMinerNum, ∃! node, node ∈ nodes.entries ∧ node.isMiner = true ∧
    node.idx % 2 ^ 32 = i
  slots : ∀ node ∈ nodes.entries, node.isMiner = true → list[node.idx % 2 ^ 32]? = some node.nodeId

/-- Both miner lists are made, whatever the one of `PBFT` was before. -/
def Serves (nodes : NodeTable) : Prop :=
  (∀ list, (nodes.getMinerList list).1 = true ∧ nodes.Assigned (nodes.getMinerList list).2) ∧
    ∃ list, nodes.blockMinerList = some list ∧ nodes.Assigned list

theorem Numbered.assigned {nodes : NodeTable} (numbered : nodes.Numbered) {list : List Public}
    (listed : nodes.IsMinerList list) : nodes.Assigned list := by
  have slot : ∀ node ∈ nodes.entries, node.isMiner = true → node.idx % 2 ^ 32 = node.idx :=
    fun node member miner =>
      Nat.mod_eq_of_lt (Nat.lt_trans (numbered.bound node member miner) numbered.small)
  let indices := ((nodes.entries.filter NodeConnParams.isMiner).map NodeConnParams.idx).toFinset
  have count : indices.card = nodes.getMinerNum := by
    rw [List.toFinset_card_of_nodup numbered.distinct, List.length_map, getMinerNum]
  have below : indices ⊆ Finset.range nodes.getMinerNum := by
    intro i member
    rcases List.mem_map.mp (List.mem_toFinset.mp member) with ⟨node, inside, rfl⟩
    exact Finset.mem_range.mpr
      (numbered.bound node (List.mem_filter.mp inside).1 (List.mem_filter.mp inside).2)
  have whole : indices = Finset.range nodes.getMinerNum :=
    Finset.eq_of_subset_of_card_le below (by rw [count, Finset.card_range])
  refine ⟨listed.length, ?_, ?_⟩
  · intro i small
    have member : i ∈ indices := by
      rw [whole]
      exact Finset.mem_range.mpr small
    rcases List.mem_map.mp (List.mem_toFinset.mp member) with ⟨node, inside, same⟩
    rcases List.mem_filter.mp inside with ⟨present, miner⟩
    refine ⟨node, ⟨present, miner, (slot node present miner).trans same⟩, ?_⟩
    rintro other ⟨present', miner', same'⟩
    apply List.inj_on_of_nodup_map numbered.distinct (List.mem_filter.mpr ⟨present', miner'⟩) inside
    rw [same, ← same', slot other present' miner']
  · intro node member miner
    rw [slot node member miner]
    exact listed.slots node member miner

theorem Numbered.serves {nodes : NodeTable} (numbered : nodes.Numbered) : nodes.Serves := by
  refine ⟨fun list => ?_, (nodes.getMinerList []).2, ?_, ?_⟩
  · rcases nodes.getMinerList_spec list numbered with ⟨complete, listed⟩
    exact ⟨complete, numbered.assigned listed⟩
  · exact if_pos (nodes.getMinerList_spec [] numbered).1
  · exact numbered.assigned (nodes.getMinerList_spec [] numbered).2

end NodeTable

namespace NodeList

def Counted (nodes : List NodeConnParams) : Prop :=
  nodes.map NodeConnParams.idx = List.range nodes.length

def MinersFirst (nodes : List NodeConnParams) : Prop :=
  nodes.Pairwise fun first later => later.isMiner = true → first.isMiner = true

structure Documented (nodes : List NodeConnParams) : Prop where
  nonempty : nodes ≠ []
  counted : Counted nodes
  ordered : MinersFirst nodes

/-- The check decides the documented conditions, and what it accepts serves as a table. -/
def Checked (nodes : List NodeConnParams) : Prop :=
  (checkNodesValid nodes = true ↔ Documented nodes) ∧
    (checkNodesValid nodes = true → (NodeTable.ofNodes nodes).Serves)

def Kept (nodes : List NodeConnParams) (node : NodeConnParams) : Prop :=
  node ∈ nodes ∧ ∀ other ∈ nodes, other.nodeId = node.nodeId → other.idx ≤ node.idx

/-- A miner whose id comes again stands after every miner that is kept. -/
def KeptFirst (nodes : List NodeConnParams) : Prop :=
  ∀ first ∈ nodes, ∀ later ∈ nodes, first.isMiner = true → later.isMiner = true →
  first.idx ≤ later.idx →
    Kept nodes later → Kept nodes first

def lastIdx (kind : NodeConnParams → Bool) (start : Nat) (nodes : List NodeConnParams) : Nat :=
  nodes.foldl (fun last node => if kind node then node.idx else last) start

section Scan

theorem scanNodes_eq (nodes : List NodeConnParams) (i sign notSign : Nat)
    (counted : nodes.map NodeConnParams.idx = List.range' i nodes.length) :
    scanNodes i sign notSign nodes =
      some (lastIdx NodeConnParams.isMiner sign nodes,
        lastIdx (fun node => !node.isMiner) notSign nodes) := by
  induction nodes generalizing i sign notSign with
  | nil => rfl
  | cons node rest ih =>
      rw [List.map_cons, List.length_cons, List.range'_succ, List.cons.injEq] at counted
      rcases counted with ⟨here, others⟩
      rw [scanNodes, if_neg (not_not.mpr here), ih _ _ _ others, ih _ _ _ others]
      cases kind : node.isMiner <;> simp [lastIdx, kind]

theorem scanNodes_counted (nodes : List NodeConnParams) (i sign notSign : Nat) {result : Nat × Nat}
    (scanned : scanNodes i sign notSign nodes = some result) :
    nodes.map NodeConnParams.idx = List.range' i nodes.length := by
  induction nodes generalizing i sign notSign with
  | nil => rfl
  | cons node rest ih =>
      rw [scanNodes] at scanned
      split at scanned
      · cases scanned
      · rename_i here
        have others : rest.map NodeConnParams.idx = List.range' (i + 1) rest.length := by
          split at scanned
          · exact ih _ _ _ scanned
          · exact ih _ _ _ scanned
        rw [List.map_cons, List.length_cons, List.range'_succ, others, not_not.mp here]

theorem lastIdx_none {kind : NodeConnParams → Bool} (start : Nat) {nodes : List NodeConnParams}
    (others : ∀ node ∈ nodes, kind node = false) : lastIdx kind start nodes = start := by
  induction nodes with
  | nil => rfl
  | cons node rest ih =>
      rcases List.forall_mem_cons.mp others with ⟨here, later⟩
      rw [lastIdx, List.foldl_cons, here]
      exact ih later

theorem lastIdx_append (kind : NodeConnParams → Bool) (start : Nat) (nodes : List NodeConnParams)
    (last : NodeConnParams) : lastIdx kind start (nodes ++ [last]) =
      if kind last then last.idx else lastIdx kind start nodes := by
  simp [lastIdx]

theorem lastIdx_mem {kind : NodeConnParams → Bool} (start : Nat) {nodes : List NodeConnParams}
    (some_one : ∃ node ∈ nodes, kind node = true) :
    ∃ node ∈ nodes, kind node = true ∧ lastIdx kind start nodes = node.idx := by
  induction nodes using List.reverseRecOn with
  | nil => simp at some_one
  | append_singleton nodes node ih =>
      rw [lastIdx_append]
      cases held : kind node with
      | true => exact ⟨node, by simp, held, rfl⟩
      | false =>
          have earlier : ∃ node ∈ nodes, kind node = true := by
            rcases some_one with ⟨other, member, same⟩
            rcases List.mem_append.mp member with inside | last
            · exact ⟨other, inside, same⟩
            · rw [List.mem_singleton.mp last, held] at same
              cases same
          rcases ih earlier with ⟨other, member, same, last⟩
          exact ⟨other, List.mem_append_left _ member, same, last⟩

end Scan

section Counting

variable {nodes : List NodeConnParams}

theorem Counted.idx_lt (counted : Counted nodes) {node : NodeConnParams} (member : node ∈ nodes) :
    node.idx < nodes.length := by
  have listed : node.idx ∈ nodes.map NodeConnParams.idx := List.mem_map_of_mem member
  rw [counted] at listed
  exact List.mem_range.mp listed

theorem Counted.eq_of_idx (counted : Counted nodes) {left right : NodeConnParams}
    (first : left ∈ nodes) (second : right ∈ nodes) (same : left.idx = right.idx) : left = right :=
  List.inj_on_of_nodup_map (counted ▸ List.nodup_range) first second same

theorem Counted.at_idx (counted : Counted nodes) {i : Nat} (inside : i < nodes.length) :
    ∃ node ∈ nodes, node.idx = i := by
  have listed : i ∈ nodes.map NodeConnParams.idx := by
    rw [counted]
    exact List.mem_range.mpr inside
  exact List.mem_map.mp listed

theorem counted_append {last : NodeConnParams} :
    Counted (nodes ++ [last]) ↔ Counted nodes ∧ last.idx = nodes.length := by
  simp only [Counted, List.map_append, List.map_cons, List.map_nil, List.length_append,
    List.length_singleton, List.range_succ]
  constructor
  · intro same
    rcases List.append_inj same (by simp) with ⟨first, final⟩
    exact ⟨first, by simpa using final⟩
  · rintro ⟨first, final⟩
    rw [first, final]

theorem Counted.ordered_iff (counted : Counted nodes) : MinersFirst nodes ↔
    ∀ first ∈ nodes, ∀ later ∈ nodes, first.idx < later.idx → later.isMiner = true →
    first.isMiner = true := by
  induction nodes using List.reverseRecOn with
  | nil => simp [MinersFirst]
  | append_singleton nodes last ih =>
      rcases counted_append.mp counted with ⟨before, final⟩
      rw [MinersFirst, List.pairwise_append]
      have inner := ih before
      rw [MinersFirst] at inner
      rw [inner]
      constructor
      · rintro ⟨earlier, -, across⟩ first inFirst later inLater less miner
        rcases List.mem_append.mp inLater with old | new
        · rcases List.mem_append.mp inFirst with old' | new'
          · exact earlier first old' later old less miner
          · have bound := before.idx_lt old
            rw [List.mem_singleton.mp new', final] at less
            omega
        · rcases List.mem_append.mp inFirst with old' | new'
          · exact across first old' later new miner
          · rw [List.mem_singleton.mp new, List.mem_singleton.mp new'] at less
            omega
      · intro ordered
        refine ⟨?_, List.pairwise_singleton _ _, ?_⟩
        · intro first inFirst later inLater
          exact ordered first (List.mem_append_left _ inFirst) later
            (List.mem_append_left _ inLater)
        · intro first inFirst later inLater
          have bound := before.idx_lt inFirst
          apply ordered first (List.mem_append_left _ inFirst) later
            (List.mem_append_right _ inLater)
          rw [List.mem_singleton.mp inLater, final]
          exact bound

theorem valid_append {last : NodeConnParams} (counted : Counted (nodes ++ [last]))
    (fits : (nodes ++ [last]).length < 2 ^ 31) : checkNodesValid (nodes ++ [last]) = true ↔
      if last.isMiner then ∀ node ∈ nodes, node.isMiner = true else ∃ node ∈ nodes, node.isMiner =
        true := by
  rcases counted_append.mp counted with ⟨before, final⟩
  have started : (nodes ++ [last]).map NodeConnParams.idx =
      List.range' 0 (nodes ++ [last]).length := by
    rw [counted, List.range_eq_range']
  have few : nodes.length < Invalid256 := by
    rw [List.length_append, List.length_singleton] at fits
    exact Nat.lt_of_lt_of_le (Nat.lt_of_succ_lt fits) (by decide)
  rw [checkNodesValid, if_neg (by simp), scanNodes_eq _ 0 _ _ started, lastIdx_append,
    lastIdx_append, final]
  simp only [Bool.or_eq_true, decide_eq_true_eq]
  cases miner : last.isMiner with
  | true =>
      simp only [Bool.not_true, Bool.false_eq_true, if_true, if_false]
      by_cases observer : ∃ node ∈ nodes, (!node.isMiner) = true
      · rcases lastIdx_mem Invalid256 observer with ⟨other, member, none, same⟩
        have bound := before.idx_lt member
        rw [same]
        constructor
        · rintro (less | sentinel)
          · omega
          · omega
        · intro all
          rw [all other member] at none
          cases none
      · have all : ∀ node ∈ nodes, node.isMiner = true := by simpa using observer
        rw [lastIdx_none Invalid256 fun node member => by rw [all node member]; rfl]
        exact ⟨fun _ => all, fun _ => Or.inr rfl⟩
  | false =>
      simp only [Bool.not_false, Bool.false_eq_true, if_true, if_false]
      by_cases worker : ∃ node ∈ nodes, node.isMiner = true
      · rcases lastIdx_mem Invalid256 worker with ⟨other, member, -, same⟩
        rw [same]
        exact ⟨fun _ => worker, fun _ => Or.inl (before.idx_lt member)⟩
      · have none : ∀ node ∈ nodes, node.isMiner = false := by simpa using worker
        rw [lastIdx_none Invalid256 none]
        constructor
        · rintro (less | sentinel)
          · omega
          · omega
        · intro one
          exact absurd one worker

theorem Counted.of_valid (valid : checkNodesValid nodes = true) : nodes ≠ [] ∧ Counted nodes := by
  rw [checkNodesValid] at valid
  split at valid
  · cases valid
  · rename_i nonempty
    split at valid
    · cases valid
    · rename_i scanned
      have started := scanNodes_counted nodes 0 _ _ scanned
      exact ⟨nonempty, started.trans List.range_eq_range'.symm⟩

end Counting

section Table

theorem mem_assignEntry_iff (node other : NodeConnParams) (entries : List NodeConnParams)
    (sorted : (entries.map NodeConnParams.nodeId).Pairwise (· < ·)) :
    other ∈ NodeTable.assignEntry node entries ↔ other = node ∨ other ∈ entries ∧
    other.nodeId ≠ node.nodeId := by
  induction entries with
  | nil => simp [NodeTable.assignEntry]
  | cons first rest ih =>
      rw [List.map_cons, List.pairwise_cons] at sorted
      rcases sorted with ⟨least, tail⟩
      have above : ∀ entry ∈ rest, first.nodeId < entry.nodeId :=
        fun entry member => least _ (List.mem_map_of_mem member)
      unfold NodeTable.assignEntry
      split_ifs with below same
      · have apart : ∀ entry ∈ first :: rest, entry.nodeId ≠ node.nodeId := by
          intro entry member
          rcases List.mem_cons.mp member with rfl | later
          · exact (Nat.ne_of_lt below).symm
          · exact (Nat.ne_of_lt (below.trans (above entry later))).symm
        rw [List.mem_cons]
        exact or_congr_right ⟨fun member => ⟨member, apart other member⟩, And.left⟩
      · rw [List.mem_cons, List.mem_cons]
        apply or_congr_right
        constructor
        · intro later
          exact ⟨Or.inr later, same ▸ (Nat.ne_of_lt (above other later)).symm⟩
        · rintro ⟨rfl | later, apart⟩
          · exact absurd same.symm apart
          · exact later
      · rw [List.mem_cons, ih tail, List.mem_cons]
        constructor
        · rintro (rfl | new | ⟨old, apart⟩)
          · exact Or.inr ⟨Or.inl rfl, Ne.symm same⟩
          · exact Or.inl new
          · exact Or.inr ⟨Or.inr old, apart⟩
        · rintro (new | ⟨rfl | old, apart⟩)
          · exact Or.inr (Or.inl new)
          · exact Or.inl rfl
          · exact Or.inr (Or.inr ⟨old, apart⟩)

variable {nodes : List NodeConnParams}

theorem kept_append {last : NodeConnParams} (counted : Counted (nodes ++ [last]))
    (node : NodeConnParams) :
    Kept (nodes ++ [last]) node ↔ node = last ∨ Kept nodes node ∧ node.nodeId ≠ last.nodeId := by
  rcases counted_append.mp counted with ⟨before, final⟩
  constructor
  · rintro ⟨member, latest⟩
    rcases List.mem_append.mp member with old | new
    · refine Or.inr ⟨⟨old, fun other inside => latest other (List.mem_append_left _ inside)⟩,
        fun same => ?_⟩
      have later := latest last (by simp) same.symm
      have bound := before.idx_lt old
      omega
    · exact Or.inl (List.mem_singleton.mp new)
  · rintro (rfl | ⟨⟨member, latest⟩, apart⟩)
    · refine ⟨by simp, fun other inside _ => ?_⟩
      have bound := counted.idx_lt inside
      rw [List.length_append, List.length_singleton] at bound
      omega
    · refine ⟨List.mem_append_left _ member, fun other inside same => ?_⟩
      rcases List.mem_append.mp inside with old | new
      · exact latest other old same
      · rw [List.mem_singleton.mp new] at same
        exact absurd same.symm apart

theorem mem_ofNodes (counted : Counted nodes) (node : NodeConnParams) :
    node ∈ (NodeTable.ofNodes nodes).entries ↔ Kept nodes node := by
  induction nodes using List.reverseRecOn with
  | nil => simp [NodeTable.ofNodes, NodeTable.empty, Kept]
  | append_singleton nodes last ih =>
      have assigned : NodeTable.ofNodes (nodes ++ [last]) =
          (NodeTable.ofNodes nodes).assign last := by
        simp [NodeTable.ofNodes]
      rw [assigned, kept_append counted, ← ih (counted_append.mp counted).1]
      exact mem_assignEntry_iff last node _ (NodeTable.ofNodes nodes).sorted

theorem minerIdx_nodup (counted : Counted nodes) :
    (((NodeTable.ofNodes nodes).entries.filter NodeConnParams.isMiner).map
      NodeConnParams.idx).Nodup := by
  have ids : ((NodeTable.ofNodes nodes).entries.map NodeConnParams.nodeId).Nodup :=
    (NodeTable.ofNodes nodes).sorted.imp fun less => Nat.ne_of_lt less
  apply List.Nodup.map_on
  · intro left first right second same
    exact counted.eq_of_idx ((mem_ofNodes counted left).mp (List.mem_filter.mp first).1).1
      ((mem_ofNodes counted right).mp (List.mem_filter.mp second).1).1 same
  · exact (List.Nodup.of_map _ ids).filter _

theorem numbered_of_kept (counted : Counted nodes) (fits : nodes.length < 2 ^ 31)
    (ordered : MinersFirst nodes) (kept : KeptFirst nodes) :
    (NodeTable.ofNodes nodes).Numbered := by
  let indices :=
    (((NodeTable.ofNodes nodes).entries.filter NodeConnParams.isMiner).map
      NodeConnParams.idx).toFinset
  have count : indices.card = (NodeTable.ofNodes nodes).getMinerNum := by
    rw [List.toFinset_card_of_nodup (minerIdx_nodup counted), List.length_map,
      NodeTable.getMinerNum]
  have mem_indices : ∀ i, i ∈ indices ↔ ∃ node, Kept nodes node ∧ node.isMiner = true ∧
      node.idx = i := by
    intro i
    simp only [indices, List.mem_toFinset, List.mem_map, List.mem_filter,
      mem_ofNodes counted, and_assoc]
  have closed : ∀ node, Kept nodes node → node.isMiner = true →
      Finset.range (node.idx + 1) ⊆ indices := by
    intro node keeps miner i member
    have upto : i ≤ node.idx := Nat.le_of_lt_succ (Finset.mem_range.mp member)
    rcases counted.at_idx (Nat.lt_of_le_of_lt upto (counted.idx_lt keeps.1)) with
      ⟨first, inside, rfl⟩
    have also : first.isMiner = true := by
      rcases Nat.eq_or_lt_of_le upto with same | less
      · rw [counted.eq_of_idx inside keeps.1 same]
        exact miner
      · exact counted.ordered_iff.mp ordered first inside node keeps.1 less miner
    exact (mem_indices _).mpr ⟨first, kept first inside node keeps.1 also miner upto keeps, also,
      rfl⟩
  have all : indices ⊆ Finset.range nodes.length := by
    intro i member
    rcases (mem_indices i).mp member with ⟨node, keeps, -, rfl⟩
    exact Finset.mem_range.mpr (counted.idx_lt keeps.1)
  refine ⟨?_, ?_, minerIdx_nodup counted⟩
  · have few := Finset.card_le_card all
    rw [count, Finset.card_range] at few
    omega
  · intro node member miner
    have inside := Finset.card_le_card (closed node ((mem_ofNodes counted node).mp member) miner)
    rw [count, Finset.card_range] at inside
    exact inside

theorem kept_of_serves (counted : Counted nodes) (fits : nodes.length < 2 ^ 31)
    (serves : (NodeTable.ofNodes nodes).Serves) : KeptFirst nodes := by
  rcases (serves.1 []).2 with ⟨length, once, slots⟩
  have slot : ∀ node ∈ nodes, node.idx % 2 ^ 32 = node.idx := by
    intro node member
    have bound := counted.idx_lt member
    exact Nat.mod_eq_of_lt (by omega)
  intro first inFirst later inLater _ miner upto keeps
  have listed := slots later ((mem_ofNodes counted later).mpr keeps) miner
  have bound := (List.getElem?_eq_some_iff.mp listed).1
  rw [length, slot later inLater] at bound
  rcases once first.idx (Nat.lt_of_le_of_lt upto bound) with ⟨node, ⟨member, -, same⟩, -⟩
  have keeps' := (mem_ofNodes counted node).mp member
  rw [slot node keeps'.1] at same
  rw [← counted.eq_of_idx keeps'.1 inFirst same]
  exact keeps'

end Table

/-- The list ends with a miner although other nodes stand before. -/
def EndsMixed (nodes : List NodeConnParams) : Prop :=
  (∃ node ∈ nodes, node.isMiner = false) ∧ ∃ last, nodes.getLast? = some last ∧ last.isMiner = true

/-- A list in order has a miner; and it ends with a miner after other nodes, or has the miners
first, those whose id comes again behind those that stay. -/
def Sound (nodes : List NodeConnParams) : Prop :=
  nodes ≠ [] → Counted nodes →
    (∃ node ∈ nodes, node.isMiner = true) ∧ (EndsMixed nodes ∨ MinersFirst nodes ∧ KeptFirst nodes)

theorem minersFirst_append {nodes : List NodeConnParams} {last : NodeConnParams} :
    MinersFirst (nodes ++ [last]) ↔
      MinersFirst nodes ∧ (last.isMiner = true → ∀ node ∈ nodes, node.isMiner = true) := by
  rw [MinersFirst, List.pairwise_append]
  simp only [List.pairwise_singleton, List.mem_singleton, forall_eq, true_and]
  exact and_congr_right fun _ => ⟨fun all miner node member => all node member miner,
    fun all node member miner => all miner node member⟩

theorem checked_of_accepted {nodes : List NodeConnParams} (counted : Counted nodes)
    (fits : nodes.length < 2 ^ 31) (nonempty : nodes ≠ []) (accepted : checkNodesValid nodes = true)
    (worker : ∃ node ∈ nodes, node.isMiner = true) (unmixed : ¬ EndsMixed nodes) : Checked nodes ↔
    Sound nodes := by
  constructor
  · rintro ⟨decides, serves⟩ _ _
    exact ⟨worker,
      Or.inr ⟨(decides.mp accepted).ordered, kept_of_serves counted fits (serves accepted)⟩⟩
  · intro sound
    rcases (sound nonempty counted).2 with mixed | ⟨ordered, kept⟩
    · exact absurd mixed unmixed
    · exact ⟨⟨fun _ => ⟨nonempty, counted, ordered⟩, fun _ => accepted⟩,
        fun _ => (numbered_of_kept counted fits ordered kept).serves⟩

/-- The check decides the documented conditions, and lets only fitting tables through, exactly on
the sound lists. The indices are counted in an `int`. -/
theorem checked_iff (nodes : List NodeConnParams) (fits : nodes.length < 2 ^ 31) : Checked nodes ↔
    Sound nodes := by
  by_cases counted : Counted nodes
  · rcases List.eq_nil_or_concat nodes with rfl | ⟨init, last, rfl⟩
    · simp [Checked, Sound, checkNodesValid, show ¬ Documented [] from fun all => all.nonempty rfl]
    · rw [List.concat_eq_append] at counted fits ⊢
      have valid := valid_append counted fits
      have nonempty : init ++ [last] ≠ [] := by simp
      have ending : (init ++ [last]).getLast? = some last := by simp
      cases miner : last.isMiner with
      | true =>
          rw [miner, if_pos rfl] at valid
          have worker : ∃ node ∈ init ++ [last], node.isMiner = true := ⟨last, by simp, miner⟩
          by_cases all : ∀ node ∈ init, node.isMiner = true
          · apply checked_of_accepted counted fits nonempty (valid.mpr all) worker
            rintro ⟨⟨node, member, other⟩, -⟩
            have inside : node.isMiner = true := by
              rcases List.mem_append.mp member with old | new
              · exact all node old
              · rw [List.mem_singleton.mp new, miner]
            rw [inside] at other
            cases other
          · have refused := mt valid.mp all
            have undocumented : ¬ Documented (init ++ [last]) :=
              fun documented => all ((minersFirst_append.mp documented.ordered).2 miner)
            have mixed : EndsMixed (init ++ [last]) := by
              push Not at all
              rcases all with ⟨node, member, other⟩
              exact ⟨⟨node, List.mem_append_left _ member, by simpa using other⟩, last,
                ending, miner⟩
            exact ⟨fun _ _ _ => ⟨worker, Or.inl mixed⟩, fun _ => ⟨iff_of_false refused undocumented,
              fun accepted => absurd accepted refused⟩⟩
      | false =>
          rw [miner, if_neg (by decide)] at valid
          by_cases worker : ∃ node ∈ init, node.isMiner = true
          · rcases worker with ⟨node, member, works⟩
            apply checked_of_accepted counted fits nonempty (valid.mpr ⟨node, member, works⟩)
              ⟨node, List.mem_append_left _ member, works⟩
            rintro ⟨-, final, same, miner'⟩
            rw [ending, Option.some.injEq] at same
            rw [← same, miner] at miner'
            cases miner'
          · have refused := mt valid.mp worker
            have none : ∀ node ∈ init ++ [last], ¬ node.isMiner = true := by
              intro node member works
              rcases List.mem_append.mp member with old | new
              · exact worker ⟨node, old, works⟩
              · rw [List.mem_singleton.mp new, miner] at works
                cases works
            have documented : Documented (init ++ [last]) :=
              ⟨nonempty, counted,
                List.Pairwise.imp_of_mem (fun _ later _ works => absurd works (none _ later))
                (List.pairwise_of_forall fun _ _ => trivial)⟩
            constructor
            · intro checked
              exact absurd (checked.1.mpr documented) refused
            · intro sound
              rcases (sound nonempty counted).1 with ⟨node, member, works⟩
              exact absurd works (none node member)
  · have refused : ¬ checkNodesValid nodes = true := fun valid => counted (Counted.of_valid valid).2
    have undocumented : ¬ Documented nodes := fun all => counted all.counted
    simp [Checked, Sound, counted, refused, undocumented]

def orderedNodes : List NodeConnParams := [⟨1, 1, 0⟩, ⟨2, 1, 1⟩, ⟨3, 0, 2⟩]

theorem checked_ordered : Checked orderedNodes ↔ Sound orderedNodes :=
  checked_iff orderedNodes (by decide)

/-- A miner behind an observer passes, because another observer comes after it. -/
theorem miner_behind_observer : ¬ ∀ nodes : List NodeConnParams, nodes.length < 2 ^ 31 →
    Checked nodes := by
  intro all
  have checked := all [⟨1, 1, 0⟩, ⟨2, 0, 1⟩, ⟨3, 1, 2⟩, ⟨4, 0, 3⟩] (by decide)
  have ordered := (checked.1.mp (by decide)).ordered
  simp [MinersFirst, NodeConnParams.isMiner, EN_ACCOUNT_TYPE_MINER] at ordered

end NodeList

end UtispaceChain
