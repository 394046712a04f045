import Mathlib.Data.Finset.Sort
import UtispaceChain.PbftSeal.ViewState

/-! The walk of `handleViewChangeMsg` over the requests for later views, in the order of the hash
maps. -/

namespace UtispaceChain

open Lib

/-- An order in which a map of maps can be walked: the views one after the other, and within
a view its requests one after the other. -/
structure MapOrder (requests walk : List ViewChangeReq) : Prop where
  perm : walk.Perm requests
  grouped : ∃ views : List Nat, views.Nodup ∧ ∃ inner : Nat → List ViewChangeReq,
    (∀ view, ∀ m ∈ inner view, m.view = view) ∧ walk = views.flatMap inner

/-- `min_view` and `min_height` of some requests. -/
def lowest (values : List Nat) : Nat := values.foldl min Invalid256

namespace Node

variable (s : Node)

def later : List ViewChangeReq :=
  s.recvViewChangeReq.entries.filter fun m => decide (s.toView < m.view)

def admissible : List ViewChangeReq :=
  s.later.filter fun m => decide (s.highestBlock.number ≤ m.height)

/-- The admissible request of each sender for the highest view. -/
def highest : List ViewChangeReq :=
  s.admissible.filter fun m => s.admissible.all fun other => !decide (other.idx = m.idx) ||
  decide (other.view ≤ m.view)

def fastView (ctx : Ctx) : FastView :=
  (ctx.order s.later).foldl (fastViewStep s.highestBlock.number) {}

/-- Whatever the order, the walk counts the senders, finds the lowest of the views that each of them
asks for at most, and a height; and so it comes to one view. -/
structure WellDefined : Prop where
  same : ∀ ctx ctx' : Ctx, MapOrder s.later (ctx.order s.later) →
    MapOrder s.later (ctx'.order s.later) →
    (s.fastView ctx).idxView.length = (s.fastView ctx').idxView.length ∧
      (s.fastView ctx).minView = (s.fastView ctx').minView ∧
      (s.fastView ctx).minHeight = (s.fastView ctx').minHeight ∧
      (s.fastViewChange ctx).toView = (s.fastViewChange ctx').toView
  exact : ∀ ctx : Ctx, MapOrder s.later (ctx.order s.later) →
    (s.fastView ctx).idxView.length = (s.admissible.map PBFTMsg.idx).dedup.length ∧
      (s.fastView ctx).minView = lowest (s.highest.map PBFTMsg.view)

end Node

/-! The lowest of some numbers -/

theorem lowest_append (left right : List Nat) :
    lowest (left ++ right) = min (lowest left) (lowest right) := by
  have start : ∀ (values : List Nat) (a b : Nat), values.foldl min (min a b) =
      min a (values.foldl min b) := by
    intro values
    induction values with
    | nil => simp
    | cons value values ih =>
        intro a b
        rw [List.foldl_cons, List.foldl_cons, Nat.min_assoc, ih]
  have bounded : lowest left ≤ Invalid256 := by
    induction left using List.reverseRecOn with
    | nil => exact Nat.le_refl _
    | append_singleton left value ih =>
        rw [lowest, List.foldl_append]
        exact Nat.le_trans (Nat.min_le_left _ _) ih
  calc
    _ = right.foldl min (min (lowest left) Invalid256) := by
      rw [lowest, List.foldl_append, Nat.min_eq_left bounded]
      rfl
    _ = _ := start _ _ _

theorem le_lowest {bound : Nat} {values : List Nat} :
    bound ≤ lowest values ↔ bound ≤ Invalid256 ∧ ∀ value ∈ values, bound ≤ value := by
  induction values using List.reverseRecOn with
  | nil => simp [lowest]
  | append_singleton values value ih =>
      have last : lowest [value] = min Invalid256 value := rfl
      rw [lowest_append, Nat.le_min, ih, last, Nat.le_min]
      simp only [List.mem_append, List.mem_singleton, or_imp, forall_and, forall_eq]
      tauto

theorem lowest_anti {some all : List Nat} (inside : ∀ value ∈ some, value ∈ all) :
    lowest all ≤ lowest some := by
  rw [le_lowest]
  have below := le_lowest.mp (Nat.le_refl (lowest all))
  exact ⟨below.1, fun value member => below.2 value (inside value member)⟩

theorem lowest_congr {left right : List Nat} (same : ∀ value, value ∈ left ↔ value ∈ right) :
    lowest left = lowest right :=
  Nat.le_antisymm (lowest_anti fun value => (same value).mpr)
    (lowest_anti fun value => (same value).mp)

namespace Node

/-! The walk -/

/-- The request is admissible, and when the walk comes to it, it has only passed requests of its
sender for lower views. -/
def Counts (highest : Nat) (walk : List ViewChangeReq) (m : ViewChangeReq) : Prop :=
  highest ≤ m.height ∧ ∃ before after, walk = before ++ m :: after ∧
    ∀ other ∈ before, highest ≤ other.height → other.idx = m.idx → other.view < m.view

theorem counts_append {highest : Nat} {walk : List ViewChangeReq} {last m : ViewChangeReq} :
    Counts highest (walk ++ [last]) m ↔ Counts highest walk m ∨
      (m = last ∧ highest ≤ last.height ∧
        ∀ other ∈ walk, highest ≤ other.height → other.idx = last.idx →
          other.view < last.view) := by
  constructor
  · rintro ⟨high, before, after, split, newer⟩
    rcases List.eq_nil_or_concat after with rfl | ⟨after, end_, rfl⟩
    · have same := List.append_inj_left' split rfl
      have equal := List.append_inj_right' split rfl
      cases equal
      subst same
      exact Or.inr ⟨rfl, high, newer⟩
    · rw [List.concat_eq_append, ← List.cons_append, ← List.append_assoc] at split
      exact Or.inl ⟨high, before, after, List.append_inj_left' split rfl, newer⟩
  · rintro (⟨high, before, after, rfl, newer⟩ | ⟨rfl, high, newer⟩)
    · exact ⟨high, before, after ++ [last], by simp, newer⟩
    · exact ⟨high, walk, [], rfl, newer⟩

structure Noted (highest : Nat) (walk : List ViewChangeReq) (acc : FastView) : Prop where
  keys : (acc.idxView.map Prod.fst).Nodup
  senders : ∀ idx, idx ∈ acc.idxView.map Prod.fst ↔ ∃ m ∈ walk, highest ≤ m.height ∧ m.idx = idx
  reached : ∀ idx view, acc.idxView.lookup idx = some view → ∃ m ∈ walk, highest ≤ m.height ∧
    m.idx = idx ∧ m.view = view
  above : ∀ idx view, acc.idxView.lookup idx = some view → ∀ m ∈ walk, highest ≤ m.height →
    m.idx = idx → m.view ≤ view
  lowest : ∃ taken : List ViewChangeReq, (∀ m, m ∈ taken ↔ Counts highest walk m) ∧
    acc.minView = lowest (taken.map PBFTMsg.view) ∧
    acc.minHeight = lowest (taken.map PBFTMsg.height)

theorem lookup_isSome {idx : Nat} (entries : List (Nat × Nat)) :
    (entries.lookup idx).isSome = true ↔ idx ∈ entries.map Prod.fst := by
  induction entries with
  | nil => simp
  | cons entry rest ih =>
      rw [List.lookup_cons, List.map_cons, List.mem_cons]
      by_cases same : idx = entry.1
      · simp [same]
      · rw [show (idx == entry.1) = false by simpa using same, or_iff_right same]
        exact ih

theorem lookup_replaced {idx key view : Nat} (entries : List (Nat × Nat)) :
    ((key, view) :: entries.filter fun entry => decide (entry.1 ≠ key)).lookup idx =
      if idx = key then some view else entries.lookup idx := by
  rw [List.lookup_cons]
  by_cases same : idx = key
  · simp [same]
  · rw [if_neg same, show (idx == key) = false by simpa using same]
    change (entries.filter fun entry => decide (entry.1 ≠ key)).lookup idx = entries.lookup idx
    induction entries with
    | nil => rfl
    | cons entry rest ih =>
        by_cases gone : entry.1 = key
        · have other : (idx == entry.1) = false := by simpa [gone] using same
          rw [List.filter_cons_of_neg (by simp [gone]), ih, List.lookup_cons, other]
        · rw [List.filter_cons_of_pos (by simp [gone]), List.lookup_cons, List.lookup_cons, ih]

theorem mem_replaced {idx key : Nat} (entries : List (Nat × Nat)) :
    idx ∈ (entries.filter fun entry => decide (entry.1 ≠ key)).map Prod.fst ↔
      idx ∈ entries.map Prod.fst ∧ idx ≠ key := by
  simp only [List.mem_map, List.mem_filter, decide_eq_true_eq]
  constructor
  · rintro ⟨entry, ⟨member, other⟩, rfl⟩
    exact ⟨⟨entry, member, rfl⟩, other⟩
  · rintro ⟨⟨entry, member, rfl⟩, other⟩
    exact ⟨entry, ⟨member, other⟩, rfl⟩

/-- `!found || it->first > idx_view_map[it2->first]` -/
def newer (acc : FastView) (m : ViewChangeReq) : Bool :=
  match acc.idxView.lookup m.idx with
  | none => true
  | some view => decide (view < m.view)

theorem fastViewStep_eq (highest : Nat) (acc : FastView) (m : ViewChangeReq) :
    fastViewStep highest acc m =
    if highest ≤ m.height ∧ newer acc m = true then
      { idxView := (m.idx, m.view) :: acc.idxView.filter (fun entry => decide (entry.1 ≠ m.idx))
        minView := min acc.minView m.view
        minHeight := min acc.minHeight m.height }
    else acc := rfl

section Walk

variable {highest : Nat} {walk : List ViewChangeReq} {acc : FastView} {last : ViewChangeReq}

theorem mem_append_last (p : ViewChangeReq → Prop) : (∃ m ∈ walk ++ [last], p m) ↔
    (∃ m ∈ walk, p m) ∨ p last := by
  simp only [List.mem_append, List.mem_singleton, or_and_right, exists_or, exists_eq_left]

theorem Noted.newer_iff (noted : Noted highest walk acc) (m : ViewChangeReq) : newer acc m = true ↔
    ∀ other ∈ walk, highest ≤ other.height → other.idx = m.idx → other.view < m.view := by
  unfold newer
  cases entry : acc.idxView.lookup m.idx with
  | none =>
      refine iff_of_true rfl fun other member high same => ?_
      have present := (noted.senders m.idx).mpr ⟨other, member, high, same⟩
      rw [← lookup_isSome, entry] at present
      cases present
  | some view =>
      rw [decide_eq_true_iff]
      constructor
      · intro below other member high same
        exact Nat.lt_of_le_of_lt (noted.above _ _ entry other member high same) below
      · intro above
        rcases noted.reached _ _ entry with ⟨other, member, high, same, rfl⟩
        exact above other member high same

theorem lowest_last (values : List Nat) (value : Nat) :
    lowest (values ++ [value]) = min (lowest values) value := by
  have bounded : lowest values ≤ Invalid256 := (le_lowest.mp (Nat.le_refl _)).1
  have last : lowest [value] = min Invalid256 value := rfl
  rw [lowest_append, last]
  omega

theorem Noted.accept (noted : Noted highest walk acc) (high : highest ≤ last.height)
    (above : ∀ other ∈ walk, highest ≤ other.height → other.idx = last.idx →
      other.view < last.view) :
    Noted highest (walk ++ [last])
      { idxView := (last.idx, last.view) ::
        acc.idxView.filter (fun entry => decide (entry.1 ≠ last.idx))
        minView := min acc.minView last.view
        minHeight := min acc.minHeight last.height } where
  keys := by
    rw [List.map_cons, List.nodup_cons, mem_replaced]
    exact ⟨fun inside => inside.2 rfl, noted.keys.sublist (List.filter_sublist.map _)⟩
  senders := by
    intro idx
    rw [List.map_cons, List.mem_cons, mem_replaced, noted.senders, mem_append_last]
    by_cases same : idx = last.idx
    · simp [same, high]
    · simp [same, Ne.symm same]
  reached := by
    intro idx view entry
    rw [lookup_replaced] at entry
    rw [mem_append_last]
    split_ifs at entry with same
    · cases entry
      exact Or.inr ⟨high, same.symm, rfl⟩
    · exact Or.inl (noted.reached idx view entry)
  above := by
    intro idx view entry m member admissible sender
    rw [lookup_replaced] at entry
    rcases List.mem_append.mp member with old | here
    · split_ifs at entry with same
      · cases entry
        exact Nat.le_of_lt (above m old admissible (sender.trans same))
      · exact noted.above idx view entry m old admissible sender
    · rw [List.mem_singleton.mp here] at sender ⊢
      rw [if_pos sender.symm] at entry
      cases entry
      exact Nat.le_refl _
  lowest := by
    rcases noted.lowest with ⟨taken, counts, minView, minHeight⟩
    refine ⟨taken ++ [last], ?_, ?_, ?_⟩
    · intro m
      rw [counts_append, List.mem_append, List.mem_singleton, counts]
      exact or_congr_right ⟨fun same => ⟨same, high, above⟩, And.left⟩
    · rw [List.map_append, List.map_singleton, lowest_last, minView]
    · rw [List.map_append, List.map_singleton, lowest_last, minHeight]

theorem Noted.refuse (noted : Noted highest walk acc)
    (refused : ¬ (highest ≤ last.height ∧ newer acc last = true)) :
    Noted highest (walk ++ [last]) acc where
  keys := noted.keys
  senders := by
    intro idx
    rw [noted.senders, mem_append_last]
    refine (or_iff_left_of_imp ?_).symm
    rintro ⟨high, rfl⟩
    by_contra absent
    exact refused ⟨high, (noted.newer_iff last).mpr fun other member high' same =>
      absurd ⟨other, member, high', same⟩ absent⟩
  reached := by
    intro idx view entry
    exact (mem_append_last _).mpr (Or.inl (noted.reached idx view entry))
  above := by
    intro idx view entry m member high sender
    rcases List.mem_append.mp member with old | here
    · exact noted.above idx view entry m old high sender
    · rw [List.mem_singleton.mp here] at high sender ⊢
      by_contra more
      apply refused
      refine ⟨high, ?_⟩
      rw [newer, sender, entry]
      exact decide_eq_true (Nat.lt_of_not_le more)
  lowest := by
    rcases noted.lowest with ⟨taken, counts, minimal⟩
    refine ⟨taken, ?_, minimal⟩
    intro m
    rw [counts_append, counts, or_iff_left]
    rintro ⟨_, high, above⟩
    exact refused ⟨high, (noted.newer_iff last).mpr above⟩

theorem noted_walk (highest : Nat) (walk : List ViewChangeReq) :
    Noted highest walk (walk.foldl (fastViewStep highest) {}) := by
  induction walk using List.reverseRecOn with
  | nil =>
      refine ⟨List.nodup_nil, by simp, by simp, by simp, [], ?_, rfl, rfl⟩
      intro m
      simp [Counts]
  | append_singleton walk last ih =>
      rw [List.foldl_append, List.foldl_cons, List.foldl_nil, fastViewStep_eq]
      split_ifs with accepted
      · exact ih.accept accepted.1 ((ih.newer_iff last).mp accepted.2)
      · exact ih.refuse accepted

end Walk

/-! Walks by ascending and by descending views -/

/-- The requests for the first view, then those for the second, and so on. -/
def walkBy (requests : List ViewChangeReq) (views : List Nat) : List ViewChangeReq :=
  views.flatMap fun view => requests.filter fun m => decide (m.view = view)

theorem walkBy_perm (requests : List ViewChangeReq) {views : List Nat} (distinct : views.Nodup) :
    (walkBy requests views).Perm (requests.filter fun m => decide (m.view ∈ views)) := by
  induction views with
  | nil => simp [walkBy]
  | cons view views ih =>
      rcases List.nodup_cons.mp distinct with ⟨fresh, rest⟩
      have here : (requests.filter fun m => decide (m.view = view)) =
          (requests.filter fun m => decide (m.view ∈ view :: views)).filter fun m =>
            decide (m.view = view) := by
        rw [List.filter_filter]
        apply List.filter_congr
        intro m _
        by_cases same : m.view = view <;> simp [same]
      have there : (requests.filter fun m => decide (m.view ∈ views)) =
          (requests.filter fun m => decide (m.view ∈ view :: views)).filter fun m =>
            !decide (m.view = view) := by
        rw [List.filter_filter]
        apply List.filter_congr
        intro m _
        by_cases same : m.view = view
        · simp [same, fresh]
        · simp [same]
      calc
        _ = (requests.filter fun m => decide (m.view = view)) ++ walkBy requests views := rfl
        List.Perm _ ((requests.filter fun m => decide (m.view = view)) ++
            requests.filter fun m => decide (m.view ∈ views)) := (ih rest).append_left _
        List.Perm _ (requests.filter fun m => decide (m.view ∈ view :: views)) := by
          rw [here, there]
          exact List.filter_append_perm _ _

theorem walkBy_order (requests : List ViewChangeReq) {views : List Nat} (distinct : views.Nodup)
    (all : ∀ m ∈ requests, m.view ∈ views) : MapOrder requests (walkBy requests views) := by
  constructor
  · have whole : (requests.filter fun m => decide (m.view ∈ views)) = requests :=
      List.filter_eq_self.mpr fun m member => decide_eq_true (all m member)
    exact (walkBy_perm requests distinct).trans (List.Perm.of_eq whole)
  · refine ⟨views, distinct, _, ?_, rfl⟩
    intro view m member
    exact of_decide_eq_true (List.mem_filter.mp member).2

theorem walkBy_pairwise (requests : List ViewChangeReq) {views : List Nat} {R : Nat → Nat → Prop}
    (reflexive : ∀ view, R view view) (sorted : views.Pairwise R) :
    (walkBy requests views).Pairwise fun m other => R m.view other.view := by
  have group : ∀ view m, m ∈ (requests.filter fun m => decide (m.view = view)) → m.view = view :=
    fun view m member =>
    of_decide_eq_true (List.mem_filter.mp member).2
  induction views with
  | nil => exact List.Pairwise.nil
  | cons view views ih =>
      rcases List.pairwise_cons.mp sorted with ⟨first, rest⟩
      refine List.pairwise_append.mpr ⟨?_, ih rest, ?_⟩
      · apply List.pairwise_of_forall_mem_list
        intro m member other member'
        rw [group view m member, group view other member']
        exact reflexive view
      · intro m member other member'
        rcases List.mem_flatMap.mp member' with ⟨view', inside, there⟩
        rw [group view m member, group view' other there]
        exact first view' inside

def ascending (requests : List ViewChangeReq) : List Nat :=
  (requests.map PBFTMsg.view).toFinset.sort (· ≤ ·)

section Orders

variable {s : Node} {walk : List ViewChangeReq} {m other : ViewChangeReq}

theorem mem_ascending (requests : List ViewChangeReq) (member : m ∈ requests) :
    m.view ∈ ascending requests :=
  (Finset.mem_sort _).mpr (List.mem_toFinset.mpr (List.mem_map_of_mem member))

theorem ascending_order (requests : List ViewChangeReq) :
    MapOrder requests (walkBy requests (ascending requests)) :=
  walkBy_order requests (Finset.sort_nodup _ _) fun _ member => mem_ascending requests member

theorem descending_order (requests : List ViewChangeReq) :
    MapOrder requests (walkBy requests (ascending requests).reverse) :=
  walkBy_order requests (List.nodup_reverse.mpr (Finset.sort_nodup _ _)) fun _ member =>
    List.mem_reverse.mpr (mem_ascending requests member)

theorem mem_admissible : m ∈ s.admissible ↔ m ∈ s.later ∧ s.highestBlock.number ≤ m.height := by
  rw [admissible, List.mem_filter, decide_eq_true_iff]

theorem mem_highest : m ∈ s.highest ↔
    m ∈ s.admissible ∧ ∀ other ∈ s.admissible, other.idx = m.idx → other.view ≤ m.view := by
  simp [highest, imp_iff_not_or]

theorem later_eq (first : m ∈ s.later) (second : other ∈ s.later) (view : m.view = other.view)
    (idx : m.idx = other.idx) : m = other :=
  s.recvViewChangeReq.eq_of_key (List.mem_filter.mp first).1 (List.mem_filter.mp second).1
    (Prod.ext view idx)

theorem later_nodup (s : Node) : s.later.Nodup :=
  (List.Nodup.of_map _ s.recvViewChangeReq.nodup).filter _

theorem Counts.admissible (order : MapOrder s.later walk)
    (counts : Counts s.highestBlock.number walk m) :
    m ∈ s.admissible := by
  rcases counts with ⟨high, before, after, rfl, _⟩
  exact mem_admissible.mpr ⟨order.perm.mem_iff.mp (by simp), high⟩

theorem counts_highest (order : MapOrder s.later walk) (top : m ∈ s.highest) :
    Counts s.highestBlock.number walk m := by
  rcases mem_highest.mp top with ⟨admitted, above⟩
  rcases mem_admissible.mp admitted with ⟨present, high⟩
  rcases List.append_of_mem (order.perm.mem_iff.mpr present) with ⟨before, after, rfl⟩
  refine ⟨high, before, after, rfl, fun other member high' same => ?_⟩
  have present' : other ∈ s.later := order.perm.mem_iff.mp (List.mem_append_left _ member)
  refine Nat.lt_of_le_of_ne (above other (mem_admissible.mpr ⟨present', high'⟩) same)
    fun equal => ?_
  rw [later_eq present' present equal same] at member
  have distinct := order.perm.nodup_iff.mpr (later_nodup s)
  exact (List.nodup_append.mp distinct).2.2 m member m List.mem_cons_self rfl

theorem counts_ascending (order : MapOrder s.later walk)
    (sorted : walk.Pairwise fun m other => m.view ≤ other.view) (admitted : m ∈ s.admissible) :
    Counts s.highestBlock.number walk m := by
  rcases mem_admissible.mp admitted with ⟨present, high⟩
  rcases List.append_of_mem (order.perm.mem_iff.mpr present) with ⟨before, after, rfl⟩
  refine ⟨high, before, after, rfl, fun other member _ same => ?_⟩
  have below := (List.pairwise_append.mp sorted).2.2 other member m List.mem_cons_self
  have present' : other ∈ s.later := order.perm.mem_iff.mp (List.mem_append_left _ member)
  refine Nat.lt_of_le_of_ne below fun equal => ?_
  rw [later_eq present' present equal same] at member
  have distinct := order.perm.nodup_iff.mpr (later_nodup s)
  exact (List.nodup_append.mp distinct).2.2 m member m List.mem_cons_self rfl

theorem counts_descending (order : MapOrder s.later walk)
    (sorted : walk.Pairwise fun m other => other.view ≤ m.view)
    (counts : Counts s.highestBlock.number walk m) : m ∈ s.highest := by
  refine mem_highest.mpr ⟨counts.admissible order, fun other admitted same => ?_⟩
  rcases counts with ⟨_, before, after, rfl, newer⟩
  rcases mem_admissible.mp admitted with ⟨present, high⟩
  rcases List.mem_append.mp (order.perm.mem_iff.mpr present) with first | rest
  · exact Nat.le_of_lt (newer other first high same)
  · rcases List.mem_cons.mp rest with rfl | last
    · exact Nat.le_refl _
    · exact (List.pairwise_cons.mp (List.pairwise_append.mp sorted).2.1).1 other last

end Orders

/-- Some request for the lowest admissible view is the highest of its sender, and so is one with the
lowest height. -/
structure HighestAreLowest (s : Node) : Prop where
  view : lowest (s.highest.map PBFTMsg.view) = lowest (s.admissible.map PBFTMsg.view)
  height : lowest (s.highest.map PBFTMsg.height) = lowest (s.admissible.map PBFTMsg.height)

section Results

variable {s : Node} {ctx ctx' : Ctx}

theorem fastView_lowest_counts (s : Node) (ctx : Ctx) : ∃ taken : List ViewChangeReq,
    (∀ m, m ∈ taken ↔ Counts s.highestBlock.number (ctx.order s.later) m) ∧
      (s.fastView ctx).minView = lowest (taken.map PBFTMsg.view) ∧
      (s.fastView ctx).minHeight = lowest (taken.map PBFTMsg.height) :=
  (noted_walk s.highestBlock.number (ctx.order s.later)).lowest

theorem lowest_map_congr {left right : List ViewChangeReq} (same : ∀ m, m ∈ left ↔ m ∈ right)
    (field : ViewChangeReq → Nat) : lowest (left.map field) = lowest (right.map field) :=
  lowest_congr fun value => by simp only [List.mem_map, same]

theorem fastView_ascending (s : Node) (ctx : Ctx) (order : MapOrder s.later (ctx.order s.later))
    (sorted : (ctx.order s.later).Pairwise fun m other => m.view ≤ other.view) :
    (s.fastView ctx).minView = lowest (s.admissible.map PBFTMsg.view) ∧
      (s.fastView ctx).minHeight = lowest (s.admissible.map PBFTMsg.height) := by
  rcases s.fastView_lowest_counts ctx with ⟨taken, counts, minView, minHeight⟩
  have same : ∀ m, m ∈ taken ↔ m ∈ s.admissible := fun m =>
    (counts m).trans ⟨Counts.admissible order, counts_ascending order sorted⟩
  exact ⟨minView.trans (lowest_map_congr same _), minHeight.trans (lowest_map_congr same _)⟩

theorem fastView_descending (s : Node) (ctx : Ctx) (order : MapOrder s.later (ctx.order s.later))
    (sorted : (ctx.order s.later).Pairwise fun m other => other.view ≤ m.view) :
    (s.fastView ctx).minView = lowest (s.highest.map PBFTMsg.view) ∧
      (s.fastView ctx).minHeight = lowest (s.highest.map PBFTMsg.height) := by
  rcases s.fastView_lowest_counts ctx with ⟨taken, counts, minView, minHeight⟩
  have same : ∀ m, m ∈ taken ↔ m ∈ s.highest := fun m =>
    (counts m).trans ⟨counts_descending order sorted, counts_highest order⟩
  exact ⟨minView.trans (lowest_map_congr same _), minHeight.trans (lowest_map_congr same _)⟩

theorem HighestAreLowest.fastView (agree : s.HighestAreLowest)
    (order : MapOrder s.later (ctx.order s.later)) :
    (s.fastView ctx).minView = lowest (s.highest.map PBFTMsg.view) ∧
      (s.fastView ctx).minHeight = lowest (s.highest.map PBFTMsg.height) := by
  rcases s.fastView_lowest_counts ctx with ⟨taken, counts, minView, minHeight⟩
  have between : ∀ field : ViewChangeReq → Nat,
      lowest (s.highest.map field) = lowest (s.admissible.map field) →
        lowest (taken.map field) = lowest (s.highest.map field) := by
    intro field equal
    apply Nat.le_antisymm
    · apply lowest_anti
      intro value member
      rcases List.mem_map.mp member with ⟨m, top, rfl⟩
      exact List.mem_map_of_mem ((counts m).mpr (counts_highest order top))
    · rw [equal]
      apply lowest_anti
      intro value member
      rcases List.mem_map.mp member with ⟨m, inside, rfl⟩
      exact List.mem_map_of_mem (((counts m).mp inside).admissible order)
  exact ⟨minView.trans (between _ agree.view), minHeight.trans (between _ agree.height)⟩

theorem fastView_count (order : MapOrder s.later (ctx.order s.later)) :
    (s.fastView ctx).idxView.length = (s.admissible.map PBFTMsg.idx).dedup.length := by
  have noted := noted_walk s.highestBlock.number (ctx.order s.later)
  rw [← fastView] at noted
  have same : ((s.fastView ctx).idxView.map Prod.fst).Perm
      (s.admissible.map PBFTMsg.idx).dedup := by
    rw [List.perm_ext_iff_of_nodup noted.keys (List.nodup_dedup _)]
    intro idx
    rw [noted.senders, List.mem_dedup, List.mem_map]
    constructor
    · rintro ⟨m, present, high, sender⟩
      exact ⟨m, mem_admissible.mpr ⟨order.perm.mem_iff.mp present, high⟩, sender⟩
    · rintro ⟨m, admitted, sender⟩
      rcases mem_admissible.mp admitted with ⟨present, high⟩
      exact ⟨m, order.perm.mem_iff.mpr present, high, sender⟩
  rw [← same.length_eq, List.length_map]

theorem fastViewChange_toView
    (count : (s.fastView ctx).idxView.length = (s.fastView ctx').idxView.length)
    (minView : (s.fastView ctx).minView = (s.fastView ctx').minView)
    (minHeight : (s.fastView ctx).minHeight = (s.fastView ctx').minHeight) :
    (s.fastViewChange ctx).toView = (s.fastViewChange ctx').toView := by
  have unfolded : ∀ ctx : Ctx, (s.fastViewChange ctx).toView =
      if s.f < (s.fastView ctx).idxView.length ∧
      ¬ ((s.fastView ctx).minHeight = s.consensusBlockNumber ∧
        (s.fastView ctx).minHeight = s.committedPrepareCache.height) then
          u256Sub (s.fastView ctx).minView 1
      else s.toView := by
    intro ctx
    unfold fastViewChange
    change (ite _ _ s).toView = _
    split_ifs with many many' many'
    · rfl
    · exact absurd many many'
    · exact absurd many' many
    · rfl
  rw [unfolded, unfolded, count, minView, minHeight]

/-- The walk comes to one result in every order, and to the right one, just when the lowest view and
the lowest height that are asked for are those of the senders' highest requests. -/
theorem fast_view_well_defined_iff (s : Node) : s.WellDefined ↔ s.HighestAreLowest := by
  constructor
  · intro defined
    let surroundings := fun walk : List ViewChangeReq =>
      { Ctx.quiet (NodeTable.consecutive 1 0) with order := fun _ => walk }
    let up := surroundings (walkBy s.later (ascending s.later))
    let down := surroundings (walkBy s.later (ascending s.later).reverse)
    have climbs := s.fastView_ascending up (ascending_order s.later)
      (walkBy_pairwise _ Nat.le_refl (Finset.pairwise_sort _ _))
    have falls := s.fastView_descending down (descending_order s.later)
      (walkBy_pairwise (R := fun a b => b ≤ a) _ Nat.le_refl
        (List.pairwise_reverse.mpr (Finset.pairwise_sort _ _)))
    rcases defined.same up down (ascending_order s.later) (descending_order s.later) with
      ⟨_, view, height, _⟩
    exact ⟨falls.1.symm.trans (view.symm.trans climbs.1),
      falls.2.symm.trans (height.symm.trans climbs.2)⟩
  · intro agree
    constructor
    · intro ctx ctx' order order'
      have count := (fastView_count order).trans (fastView_count order').symm
      have view := (agree.fastView order).1.trans (agree.fastView order').1.symm
      have height := (agree.fastView order).2.trans (agree.fastView order').2.symm
      exact ⟨count, view, height, fastViewChange_toView count view height⟩
    · exact fun ctx order => ⟨fastView_count order, (agree.fastView order).1⟩

end Results

def twiceAsked : Node where
  sec := 1
  pub := 1
  accountType := EN_ACCOUNT_TYPE_MINER
  viewTimeout := 1000
  lastConsensusTime := 0
  lastCollectTime := 0
  lastExecFinishTime := 0
  emptyBlockFlag := false
  omitEmptyBlock := false
  highestBlock := { number := 3, hash := 7 }
  consensusBlockNumber := 4
  recvViewChangeReq :=
    (KeyedTable.empty.insert { view := 1, idx := 2, height := 3, blockHash := 7 }).insert
    { view := 2, idx := 2, height := 3, blockHash := 7 }

/-- The view wanted is 0 where the map gives the request for view 1 first, and 1 where it gives it
last. -/
theorem order_decides_view : ¬ ∀ s : Node, s.WellDefined := by
  intro wellDefined
  let surroundings := fun views : List Nat =>
    { Ctx.quiet (NodeTable.consecutive 4 0) with order := fun _ => walkBy twiceAsked.later views }
  have up : MapOrder twiceAsked.later (walkBy twiceAsked.later [1, 2]) :=
    walkBy_order _ (by decide) (by decide)
  have down : MapOrder twiceAsked.later (walkBy twiceAsked.later [2, 1]) :=
    walkBy_order _ (by decide) (by decide)
  have differ : (twiceAsked.fastViewChange (surroundings [1, 2])).toView ≠
      (twiceAsked.fastViewChange (surroundings [2, 1])).toView := by decide +kernel
  exact differ
    ((wellDefined twiceAsked).same (surroundings [1, 2]) (surroundings [2, 1]) up down).2.2.2

end Node

end UtispaceChain
