import Mathlib.Data.BitVec
import UtispaceChain.Lib.SortedList
import UtispaceChain.P2p.NodeBuckets

/-! `nearestNodeEntries`: the buckets that the search goes through, and what it finds. -/

namespace UtispaceChain.P2p

namespace NodeTable

open Lib

variable {c : NodeTableParams} {s s' : NodeTable}

/-- The array has its size, and no entry stands at two places of it. -/
structure Content (s : NodeTable) : Prop where
  bins : s.m_state.length = s_bins
  distinct : ∀ i, (s.bucket i).Nodup
  apart : ∀ i j n, n ∈ s.bucket i → n ∈ s.bucket j → i = j

/-- The entry lives, and its endpoint is one to answer with. -/
def usable (c : NodeTableParams) (s : NodeTable) (n : Nat) : Bool :=
  s.alive n && ((s.entry n).endpoint.good && (s.entry n).endpoint.isAllowed c)

/-- The live entries with usable endpoints that are closest to the target, all of them if they are
few. -/
structure Nearest (c : NodeTableParams) (s : NodeTable) (target : NodeID) (nearest : List Nat) :
    Prop where
  distinct : nearest.Nodup
  few : nearest.length ≤ s_bucketSize
  stored : ∀ n ∈ nearest, ∃ i, n ∈ s.bucket i
  usable : ∀ n ∈ nearest, s.usable c n = true
  sorted : nearest.Pairwise fun m n => c.distance target (s.entry m).id ≤
    c.distance target (s.entry n).id
  closest : ∀ i, ∀ n ∈ s.bucket i, s.usable c n = true → n ∉ nearest →
    nearest.length = s_bucketSize ∧ ∀ m ∈ nearest, c.distance target (s.entry m).id ≤
      c.distance target (s.entry n).id

/-- A bucket that is not gone through when the target has this distance: the first one, unless the
distance is zero, and those further below the distance than the last bucket is above it. -/
def Skipped (head i : Nat) : Prop := (i = 0 ∧ head ≠ 0) ∨ (head < s_bins ∧ s_bins + i < 2 * head)

instance (head i : Nat) : Decidable (Skipped head i) := inferInstanceAs (Decidable (_ ∨ _))

def visited (s : NodeTable) (head : Nat) : List Nat :=
  ((List.range s_bins).filter fun i => ¬ Skipped head i).flatMap s.bucket

/-- What is usable in a skipped bucket is not among the closest, for the entries that are gone
through. -/
def Covered (c : NodeTableParams) (s : NodeTable) (target : NodeID) : Prop :=
  ∀ i, Skipped (c.distance s.m_node.id target) i → ∀ n ∈ s.bucket i, s.usable c n = true →
    s_bucketSize ≤ ((s.visited (c.distance s.m_node.id target)).filter fun m => s.usable c m &&
      decide (c.distance target (s.entry m).id ≤ c.distance target (s.entry n).id)).length

/-! The buckets that are gone through -/

theorem mem_spread {steps head tail i : Nat} (below : tail < head) :
    i ∈ spread steps head tail ↔ ∃ k < steps, head + k < s_bins ∧
    (i = head + k ∨ i + k = tail ∧ i ≠ 0) := by
  induction steps generalizing head tail with
  | zero => simp [spread]
  | succ steps ih =>
      rw [spread]
      by_cases going : head < s_bins
      · rw [if_pos ⟨by omega, going⟩]
        have later := @ih (head + 1) (tail - 1) (by omega)
        have first : i ∈ head :: (if tail ≠ 0 then [tail] else []) ++
          spread steps (head + 1) (tail - 1) ↔
            (i = head ∨ i = tail ∧ i ≠ 0) ∨ i ∈ spread steps (head + 1) (tail - 1) := by
          by_cases zero : tail = 0
          · rw [if_neg (not_not.mpr zero), List.singleton_append, List.mem_cons]
            have gone : ¬(i = tail ∧ i ≠ 0) := by omega
            rw [or_iff_left gone]
          · rw [if_pos zero]
            simp only [List.cons_append, List.nil_append, List.mem_cons]
            have same : i = tail ∧ i ≠ 0 ↔ i = tail := by omega
            rw [same, or_assoc]
        rw [first, later]
        constructor
        · rintro ((here | here) | ⟨k, less, within, there⟩)
          · exact ⟨0, by omega, by omega, .inl (by omega)⟩
          · exact ⟨0, by omega, by omega, .inr (by omega)⟩
          · exact ⟨k + 1, by omega, by omega, by omega⟩
        · rintro ⟨k, less, within, there⟩
          cases k with
          | zero => exact .inl (by omega)
          | succ k => exact .inr ⟨k, by omega, by omega, by omega⟩
      · rw [if_neg fun both => going both.2]
        constructor
        · exact fun member => absurd member List.not_mem_nil
        · rintro ⟨k, -, within, -⟩
          omega

theorem spread_nodup {steps head tail : Nat} (below : tail < head) :
    (spread steps head tail).Nodup := by
  induction steps generalizing head tail with
  | zero => exact List.nodup_nil
  | succ steps ih =>
      rw [spread]
      split_ifs with going more
      · have later := @ih (head + 1) (tail - 1) (by omega)
        have away : ∀ i ∈ spread steps (head + 1) (tail - 1), i ≠ head ∧ i ≠ tail := by
          intro i member
          rcases (mem_spread (by omega)).mp member with ⟨k, -, -, there⟩
          omega
        simp only [List.cons_append, List.nil_append, List.nodup_cons, List.mem_cons, not_or]
        exact ⟨⟨by omega, fun member => (away head member).1 rfl⟩,
          fun member => (away tail member).2 rfl, later⟩
      · have later := @ih (head + 1) (tail - 1) (by omega)
        simp only [List.cons_append, List.nil_append, List.nodup_cons]
        refine ⟨fun member => ?_, later⟩
        rcases (mem_spread (by omega)).mp member with ⟨k, -, -, there⟩
        omega
      · exact List.nodup_nil

theorem spread_enough {steps head : Nat} (enough : s_bins ≤ head + steps) (more tail : Nat) :
    spread (steps + more) head tail = spread steps head tail := by
  induction steps generalizing head tail with
  | zero =>
      rw [Nat.zero_add]
      cases more with
      | zero => rfl
      | succ more =>
          rw [spread, spread, if_neg]
          omega
  | succ steps ih =>
      rw [Nat.add_right_comm, spread, spread, ih (by omega)]

theorem bins_spec (target : NodeID) (s : NodeTable) :
    (bins c s target).Nodup ∧ ∀ i, i ∈ bins c s target ↔
    i < s_bins ∧ ¬ Skipped (c.distance s.m_node.id target) i := by
  have most := distance_lt c s.m_node.id target
  have count : s_bins = 255 := rfl
  unfold bins Skipped
  generalize c.distance s.m_node.id target = head at most
  dsimp only
  by_cases low : head < 2
  · rw [if_neg (by omega), if_pos low]
    refine ⟨List.nodup_range.sublist (List.drop_sublist _ _), fun i => ?_⟩
    have range : i ∈ (List.range s_bins).drop head ↔ head ≤ i ∧ i < s_bins := by
      rw [List.range_eq_range', List.drop_range', List.mem_range'_1]
      omega
    rw [range]
    omega
  · have one : ¬ head = 0 := by omega
    rw [if_neg one]
    by_cases last : head = s_bins
    · have tail : (head - 1) % s_bins = s_bins - 1 := by rw [last]; rfl
      rw [tail, if_neg (fun both => both.2 rfl), if_neg low]
      refine ⟨List.nodup_reverse.mpr List.nodup_range', fun i => ?_⟩
      rw [List.mem_reverse, List.mem_range'_1]
      omega
    · have tail : (head - 1) % s_bins = head - 1 := Nat.mod_eq_of_lt (by omega)
      rw [tail, if_pos (by omega)]
      refine ⟨spread_nodup (by omega), fun i => ?_⟩
      rw [mem_spread (by omega)]
      constructor
      · rintro ⟨k, -, within, there⟩
        omega
      · rintro ⟨inside, gone⟩
        by_cases above : head ≤ i
        · exact ⟨i - head, by omega, by omega, .inl (by omega)⟩
        · exact ⟨head - 1 - i, by omega, by omega, .inr (by omega)⟩

/-! What the search finds -/

/-- All that is usable in the buckets that are gone through, the closest first. -/
def found (c : NodeTableParams) (s : NodeTable) (target : NodeID) : List Nat :=
  ((((bins c s target).flatMap s.bucket).filter s.alive).mergeSort fun m n =>
    c.distance target (s.entry m).id ≤ c.distance target (s.entry n).id).filter fun n =>
      (s.entry n).endpoint.good && (s.entry n).endpoint.isAllowed c

theorem nearestNodeEntries_eq (content : Content s) (target : NodeID) :
    s.nearestNodeEntries c target = some ((s.found c target).take s_bucketSize) := by
  have read : ∀ l : List Nat, (∀ i ∈ l, i < s_bins) → l.mapM (fun i => s.m_state[i]?) =
      some (l.map s.bucket) := by
    intro l
    induction l with
    | nil => intro _; rfl
    | cons i l ih =>
        intro inside
        have here : i < s.m_state.length := by
          rw [content.bins]
          exact inside i List.mem_cons_self
        have first : s.m_state[i]? = some (s.bucket i) := by
          rw [bucket, List.getD_eq_getElem?_getD, List.getElem?_eq_getElem here, Option.getD_some]
        rw [List.mapM_cons, first, ih fun i member => inside i (List.mem_cons_of_mem _ member)]
        rfl
  rw [nearestNodeEntries, read _ (bins_bounded target s), Option.map_some, found, List.flatMap_def]

theorem flatMap_nodup (content : Content s) {l : List Nat} (distinct : l.Nodup) :
    (l.flatMap s.bucket).Nodup := by
  rw [List.nodup_flatMap]
  refine ⟨fun i _ => content.distinct i, distinct.imp fun {i j} other n here there => ?_⟩
  exact other (content.apart i j n here there)

theorem visited_perm (c : NodeTableParams) (s : NodeTable) (target : NodeID) :
    ((bins c s target).flatMap s.bucket).Perm (s.visited (c.distance s.m_node.id target)) := by
  rcases bins_spec (c := c) target s with ⟨distinct, member⟩
  apply List.Perm.flatMap_right
  apply (List.perm_ext_iff_of_nodup distinct (List.nodup_range.filter _)).mpr
  intro i
  rw [member, List.mem_filter, List.mem_range, decide_eq_true_eq]

theorem found_perm (c : NodeTableParams) (s : NodeTable) (target : NodeID) :
    (s.found c target).Perm ((s.visited (c.distance s.m_node.id target)).filter (s.usable c)) := by
  have sorted :=
    (List.mergeSort_perm (((bins c s target).flatMap s.bucket).filter s.alive) fun m n =>
    decide (c.distance target (s.entry m).id ≤ c.distance target (s.entry n).id)).filter fun n =>
      (s.entry n).endpoint.good && (s.entry n).endpoint.isAllowed c
  rw [List.filter_filter] at sorted
  have usable : ∀ n, ((s.entry n).endpoint.good && (s.entry n).endpoint.isAllowed c && s.alive n) =
      s.usable c n :=
    fun n => Bool.and_comm _ _
  simp only [usable] at sorted
  exact sorted.trans ((visited_perm c s target).filter _)

theorem found_sorted (c : NodeTableParams) (s : NodeTable) (target : NodeID) :
    (s.found c target).Pairwise fun m n => c.distance target (s.entry m).id ≤
      c.distance target (s.entry n).id := by
  have sorted : ((((bins c s target).flatMap s.bucket).filter s.alive).mergeSort fun m n =>
      c.distance target (s.entry m).id ≤ c.distance target (s.entry n).id).Pairwise fun m n =>
        decide (c.distance target (s.entry m).id ≤ c.distance target (s.entry n).id) = true := by
    apply List.pairwise_mergeSort
    · intro a b d first second
      simp only [decide_eq_true_eq] at first second ⊢
      omega
    · intro a b
      simp only [Bool.or_eq_true, decide_eq_true_eq]
      omega
  exact (sorted.imp fun le => of_decide_eq_true le).filter _

theorem mem_found (target : NodeID) {n : Nat} :
    n ∈ s.found c target ↔ ∃ i, i < s_bins ∧ ¬ Skipped (c.distance s.m_node.id target) i ∧
    n ∈ s.bucket i ∧ s.usable c n = true := by
  rw [(found_perm c s target).mem_iff, List.mem_filter, visited, List.mem_flatMap]
  constructor
  · rintro ⟨⟨i, inside, member⟩, use⟩
    rw [List.mem_filter, List.mem_range, decide_eq_true_eq] at inside
    exact ⟨i, inside.1, inside.2, member, use⟩
  · rintro ⟨i, inside, gone, member, use⟩
    refine ⟨⟨i, ?_, member⟩, use⟩
    rw [List.mem_filter, List.mem_range, decide_eq_true_eq]
    exact ⟨inside, gone⟩

theorem Content.inside (content : Content s) {i n : Nat} (member : n ∈ s.bucket i) :
    i < s_bins := by
  by_contra outside
  rw [bucket, List.getD_eq_getElem?_getD, List.getElem?_eq_none (by rw [content.bins]; omega)]
    at member
  exact absurd member List.not_mem_nil

theorem nearest_iff (content : Content s) (target : NodeID) :
    Nearest c s target ((s.found c target).take s_bucketSize) ↔ Covered c s target := by
  have sorted := found_sorted c s target
  have counted : ∀ bound,
    ((s.found c target).filter fun m => decide (c.distance target (s.entry m).id ≤ bound)).length =
      ((s.visited (c.distance s.m_node.id target)).filter fun m => s.usable c m &&
        decide (c.distance target (s.entry m).id ≤ bound)).length := by
    intro bound
    rw [((found_perm c s target).filter _).length_eq, List.filter_filter]
    congr 2
    funext m
    exact Bool.and_comm _ _
  constructor
  · intro nearest i skipped n member use
    have away : n ∉ s.found c target := by
      intro found
      rcases (mem_found target).mp found with ⟨j, -, gone, there, -⟩
      rw [content.apart j i n there member] at gone
      exact gone skipped
    have closest := nearest.closest i n member use fun taken => away (List.mem_of_mem_take taken)
    rw [← counted]
    exact (take_bounded_iff (fun m => c.distance target (s.entry m).id) sorted s_bucketSize _).mp
      closest
  · intro covered
    have distinct : (s.found c target).Nodup :=
      (found_perm c s target).nodup_iff.mpr
        ((flatMap_nodup content (List.nodup_range.filter _)).filter _)
    refine ⟨distinct.sublist (List.take_sublist _ _), List.length_take_le _ _, fun n taken => ?_,
      fun n taken => ?_, sorted.sublist (List.take_sublist _ _), fun i n member use left => ?_⟩
    · rcases (mem_found target).mp (List.mem_of_mem_take taken) with ⟨i, -, -, there, -⟩
      exact ⟨i, there⟩
    · rcases (mem_found target).mp (List.mem_of_mem_take taken) with ⟨i, -, -, -, use⟩
      exact use
    · by_cases skipped : Skipped (c.distance s.m_node.id target) i
      · have many := covered i skipped n member use
        rw [← counted] at many
        exact (take_bounded_iff (fun m => c.distance target (s.entry m).id) sorted
          s_bucketSize _).mpr many
      · have found :=
          (mem_found (c := c) target).mpr ⟨i, content.inside member, skipped, member, use⟩
        rw [← List.take_append_drop s_bucketSize (s.found c target), List.mem_append] at found
        exact take_least (fun m => c.distance target (s.entry m).id) sorted s_bucketSize
          (found.resolve_left left)

/-! The content of every table that is reached -/

theorem Sound.content (sound : Sound c s) : Content s := by
  refine ⟨sound.bins, sound.distinct, fun i j n here there => ?_⟩
  have first := (sound.placed i n here).2
  have second := (sound.placed j n there).2
  omega

theorem Sound.step (sound : Sound c s) {now : Nat} {event : NodeTableEvent}
    (run : s.step c now event = some s') :
    Sound c s' := by
  have positive : ∀ n ∈ s.drops now event, 0 < (s.entry n).distance := by
    intro n dropped
    by_contra zero
    rw [NodeTable.step, prepare_none sound now event dropped (Nat.eq_zero_of_not_pos zero)] at run
    cases run
  rcases prepare_spec sound now event positive with ⟨s₁, call, prepared, dropped⟩
  rw [NodeTable.step, prepared, Option.bind_some] at run
  cases call with
  | none =>
      cases run
      exact dropped.sound
  | some call =>
      dsimp only at run
      rw [noteActiveNode_eq] at run
      cases taken : s₁.takes c call.1 call.2 with
      | none =>
          rw [taken] at run
          cases run
          exact dropped.sound
      | some n =>
          rw [taken] at run
          have apart : 0 < (s₁.entry n).distance := by
            by_contra zero
            rw [Option.elim_some, noteEntry_none dropped.sound (Nat.eq_zero_of_not_pos zero)] at run
            cases run
          rcases noteEntry_spec dropped.sound (dropped.sound.takes taken) apart now call.2 with
            ⟨s'', after, noted⟩
          cases after.symm.trans run
          exact noted.sound

def after (c : NodeTableParams) (s : NodeTable) (events : List (Nat × NodeTableEvent)) :
    Option NodeTable :=
  events.foldlM (fun s event => s.step c event.1 event.2) s

theorem Sound.after (sound : Sound c s) {events : List (Nat × NodeTableEvent)}
    (run : s.after c events = some s') : Sound c s' := by
  induction events generalizing s with
  | nil =>
      cases run
      exact sound
  | cons event events ih =>
      rw [NodeTable.after, List.foldlM_cons] at run
      rcases Option.bind_eq_some_iff.mp run with ⟨s₁, first, rest⟩
      exact ih (sound.step first) rest

theorem content_of_run (node : Node) {events : List (Nat × NodeTableEvent)}
    (run : ({ m_node := node } : NodeTable).after c events = some s') : Content s' :=
  ((start_sound (c := c) node).after run).content

/-- The search terminates and stays in the array. It gives the live entries with usable endpoints
that are closest to the target, in their order, exactly if none that is closer stands in a bucket
that it skips. -/
theorem nearestNodeEntries_iff (c : NodeTableParams) {s : NodeTable} (content : Content s)
    (target : NodeID) :
    (∀ more, 1 < c.distance s.m_node.id target →
      spread (s_bins + more) (c.distance s.m_node.id target) (c.distance s.m_node.id target - 1) =
        spread s_bins (c.distance s.m_node.id target) (c.distance s.m_node.id target - 1)) ∧
    (∀ i ∈ bins c s target, i < s.m_state.length) ∧
    ∃ nearest, s.nearestNodeEntries c target = some nearest ∧
    (Nearest c s target nearest ↔ Covered c s target) := by
  refine ⟨fun more _ => spread_enough (by omega) more _, fun i member => ?_, _,
    nearestNodeEntries_eq content target, nearest_iff content target⟩
  rw [content.bins]
  exact bins_bounded target s i member

def lastBits : NodeTableParams := ⟨fun id => id.setWidth 256, false⟩

def threeNodes : List (Nat × NodeTableEvent) :=
  [(0, .addNode ⟨17, ⟨1, 1, 1⟩⟩ true), (1, .addNode ⟨9, ⟨2, 1, 1⟩⟩ true),
    (2, .addNode ⟨5, ⟨3, 1, 1⟩⟩ true)]

/-- Of three usable nodes the nearest are found. -/
theorem nearestNodeEntries_iff_three :
    ∃ s nearest, ({ m_node := { id := 1 } } : NodeTable).after lastBits threeNodes = some s ∧
      [s.bucket 1, s.bucket 2, s.bucket 3] = [[2], [1], [0]] ∧
      [0, 1, 2].all (s.usable lastBits) = true ∧
      s.nearestNodeEntries lastBits 4 = some nearest ∧ Nearest lastBits s 4 nearest := by
  generalize known : threeNodes = events
  have run : (({ m_node := { id := 1 } } : NodeTable).after lastBits events).any (fun s =>
      s.bucket 0 == [] && ([s.bucket 1, s.bucket 2, s.bucket 3] == [[2], [1], [0]] &&
        ([0, 1, 2].all (s.usable lastBits) && lastBits.distance s.m_node.id 4 == 2))) = true := by
    subst known
    decide +kernel
  simp only [Option.any_eq_true, Bool.and_eq_true, beq_iff_eq] at run
  rcases run with ⟨s, done, first, stored, use, away⟩
  rcases nearestNodeEntries_iff lastBits (content_of_run _ done) 4 with
    ⟨-, -, nearest, found, closest⟩
  refine ⟨s, nearest, done, stored, use, found, closest.mpr fun i skipped n member _ => ?_⟩
  have zero : i = 0 := by
    rw [away] at skipped
    rcases skipped with ⟨bottom, -⟩ | ⟨-, far⟩
    · exact bottom
    · have most : s_bins = 255 := rfl
      omega
  rw [zero, first] at member
  cases member

theorem one_known_node :
    ∃ s, ({ m_node := { id := 1 } } : NodeTable).step lastBits 0 (.addNode ⟨5, ⟨1, 1, 1⟩⟩ true) =
      some s ∧ Content s ∧ s.bucket 1 = [0] ∧ s.usable lastBits 0 = true ∧
      s.nearestNodeEntries lastBits (2 ^ 254 + 1) = some [] := by
  generalize event : NodeTableEvent.addNode ⟨5, ⟨1, 1, 1⟩⟩ true = e
  generalize far : (2 ^ 254 + 1 : NodeID) = target
  have run : (({ m_node := { id := 1 } } : NodeTable).step lastBits 0 e).any (fun s =>
      s.bucket 1 == [0] && (s.usable lastBits 0 &&
        s.nearestNodeEntries lastBits target == some [])) = true := by
    subst event far
    decide +kernel
  simp only [Option.any_eq_true, Bool.and_eq_true, beq_iff_eq] at run
  rcases run with ⟨s, done, stored, use, none⟩
  exact ⟨s, done, ((start_sound _).step done).content, stored, use, none⟩

theorem near_node_skipped :
    ∃ s, ({ m_node := { id := 1 } } : NodeTable).step lastBits 0 (.addNode ⟨5, ⟨1, 1, 1⟩⟩ true) =
      some s ∧ Content s ∧
      s.nearestNodeEntries lastBits (2 ^ 254 + 1) = some [] ∧
      ¬ Nearest lastBits s (2 ^ 254 + 1) [] := by
  rcases one_known_node with ⟨s, done, content, stored, use, none⟩
  refine ⟨s, done, content, none, fun nearest => ?_⟩
  have closest :=
    nearest.closest 1 0 (by rw [stored]; exact List.mem_cons_self) use List.not_mem_nil
  cases closest.1

end NodeTable

end UtispaceChain.P2p
