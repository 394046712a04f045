import Mathlib.Logic.Function.Basic
import Mathlib.Data.List.Basic
import Mathlib.Tactic.Common

/-! Values under consecutive numbers, stored run by run in the order of the first numbers. -/

namespace UtispaceChain.Lib

abbrev Chunks (α : Type) := List (Nat × List α)

namespace Chunks

variable {α : Type}

def get : Chunks α → Nat → Option α
  | [], _ => none
  | (first, items) :: rest, n =>
      if first ≤ n ∧ n < first + items.length then items[n - first]? else get rest n

/-- No run is empty, and a number between two runs is free: the runs are disjoint and maximal. -/
structure Proper (c : Chunks α) : Prop where
  filled : ∀ run ∈ c, run.2 ≠ []
  apart : c.Pairwise fun run later => run.1 + run.2.length < later.1

def Below (c : Chunks α) (n : Nat) : Prop := ∀ run ∈ c, run.1 + run.2.length ≤ n

def Above (c : Chunks α) (n : Nat) : Prop := ∀ run ∈ c, n < run.1

theorem Below.mono {c : Chunks α} {n m : Nat} (below : Below c n) (le : n ≤ m) : Below c m :=
  fun run member => Nat.le_trans (below run member) le

theorem Above.anti {c : Chunks α} {n m : Nat} (above : Above c n) (le : m ≤ n) : Above c m :=
  fun run member => Nat.lt_of_le_of_lt le (above run member)

theorem proper_nil : Proper ([] : Chunks α) := ⟨by simp, List.Pairwise.nil⟩

theorem proper_append_cons (before after : Chunks α) (first : Nat) (items : List α) :
    Proper (before ++ (first, items) :: after) ↔ Proper before ∧ Proper after ∧ items ≠ [] ∧
      (∀ run ∈ before, run.1 + run.2.length < first) ∧ Above after (first + items.length) := by
  constructor
  · intro proper
    rcases List.pairwise_append.mp proper.apart with ⟨early, late, between⟩
    rcases List.pairwise_cons.mp late with ⟨next, rest⟩
    refine ⟨⟨?_, early⟩, ⟨?_, rest⟩, ?_, ?_, next⟩
    · intro run member
      exact proper.filled run (List.mem_append_left _ member)
    · intro run member
      exact proper.filled run (List.mem_append_right _ (List.mem_cons_of_mem _ member))
    · exact proper.filled (first, items) (by simp)
    · intro run member
      exact between run member (first, items) List.mem_cons_self
  · rintro ⟨early, late, filled, below, above⟩
    refine ⟨?_,
      List.pairwise_append.mpr ⟨early.apart, List.pairwise_cons.mpr ⟨above, late.apart⟩, ?_⟩⟩
    · intro run member
      rcases List.mem_append.mp member with old | new
      · exact early.filled run old
      · rcases List.mem_cons.mp new with rfl | old
        · exact filled
        · exact late.filled run old
    · intro run member later reached
      have short : run.1 + run.2.length < first := below run member
      rcases List.mem_cons.mp reached with rfl | further
      · exact short
      · have beyond : first + items.length < later.1 := above later further
        omega

theorem proper_append (before after : Chunks α) (early : Proper before) (late : Proper after)
    (between : ∀ run ∈ before, ∀ later ∈ after, run.1 + run.2.length < later.1) :
    Proper (before ++ after) := by
  refine ⟨?_, List.pairwise_append.mpr ⟨early.apart, late.apart, between⟩⟩
  intro run member
  rcases List.mem_append.mp member with old | new
  · exact early.filled run old
  · exact late.filled run new

theorem Proper.left {before after : Chunks α} (proper : Proper (before ++ after)) : Proper before :=
  ⟨fun run member => proper.filled run (List.mem_append_left _ member),
    (List.pairwise_append.mp proper.apart).1⟩

/-! Lookup. -/

@[simp] theorem get_nil (n : Nat) : get ([] : Chunks α) n = none := rfl

theorem get_cons (first : Nat) (items : List α) (rest : Chunks α) (n : Nat) :
    get ((first, items) :: rest) n =
      if first ≤ n ∧ n < first + items.length then items[n - first]? else get rest n := rfl

theorem get_append (before after : Chunks α) (n : Nat) :
    get (before ++ after) n = (get before n).or (get after n) := by
  induction before with
  | nil => rfl
  | cons run rest ih =>
      obtain ⟨first, items⟩ := run
      by_cases inside : first ≤ n ∧ n < first + items.length
      · have bound : n - first < items.length := by omega
        simp [get_cons, inside, List.getElem?_eq_getElem bound]
      · simp [get_cons, inside, ih]

theorem Below.get {c : Chunks α} {n : Nat} (below : Below c n) : get c n = none := by
  induction c with
  | nil => rfl
  | cons run rest ih =>
      have outside : ¬ (run.1 ≤ n ∧ n < run.1 + run.2.length) := by
        have ends : run.1 + run.2.length ≤ n := below run List.mem_cons_self
        omega
      rw [Chunks.get, if_neg outside]
      exact ih fun other member => below other (List.mem_cons_of_mem _ member)

theorem Above.get {c : Chunks α} {n : Nat} (above : Above c n) : get c n = none := by
  induction c with
  | nil => rfl
  | cons run rest ih =>
      have outside : ¬ (run.1 ≤ n ∧ n < run.1 + run.2.length) := by
        have starts : n < run.1 := above run List.mem_cons_self
        omega
      rw [Chunks.get, if_neg outside]
      exact ih fun other member => above other (List.mem_cons_of_mem _ member)

theorem get_replace (before after part other : Chunks α) (n : Nat) (value : Option α)
    (early : get before n = none) (late : get after n = none)
    (changed : get other = Function.update (get part) n value) :
    get (before ++ (other ++ after)) =
      Function.update (get (before ++ (part ++ after))) n value := by
  funext m
  by_cases same : m = n
  · subst same
    simp [get_append, changed, early, late]
  · simp [get_append, changed, Function.update_of_ne same]

/-! The changes of one run. -/

theorem get_extend (first : Nat) (items : List α) (data : α) :
    get [(first, items ++ [data])] =
      Function.update (get [(first, items)]) (first + items.length) (some data) := by
  funext n
  rcases Nat.lt_trichotomy n (first + items.length) with less | same | more
  · rw [Function.update_of_ne (Nat.ne_of_lt less)]
    by_cases reached : first ≤ n
    · have inside : n - first < items.length := by omega
      have longer : n < first + (items.length + 1) := by omega
      simp [get_cons, reached, less, longer, List.getElem?_append_left inside]
    · simp [get_cons, reached]
  · subst same
    simp [get_cons]
  · have outside : ¬ n < first + (items.length + 1) := by omega
    rw [Function.update_of_ne (Nat.ne_of_gt more)]
    simp [get_cons, outside, Nat.not_lt_of_gt more]

theorem get_join (first : Nat) (items more : List α) :
    get [(first, items ++ more)] = get [(first, items), (first + items.length, more)] := by
  funext n
  by_cases early : n < first + items.length
  · by_cases reached : first ≤ n
    · have inside : n - first < items.length := by omega
      have longer : n < first + (items.length + more.length) := by omega
      simp [get_cons, reached, early, longer, List.getElem?_append_left inside]
    · have unreached : ¬ first + items.length ≤ n := by omega
      simp [get_cons, reached, unreached]
  · have reached : first ≤ n := by omega
    have past : first + items.length ≤ n := by omega
    have beyond : items.length ≤ n - first := by omega
    have index : n - first - items.length = n - (first + items.length) := by omega
    have bound : n < first + (items.length + more.length) ↔
        n < first + items.length + more.length := by omega
    simp [get_cons, reached, early, past, List.getElem?_append_right beyond, index, bound]

theorem get_singleton (n : Nat) (data : α) :
    get [(n, [data])] = Function.update (get []) n (some data) := by
  have extended := get_extend n [] data
  have unfilled : get [(n, ([] : List α))] = get [] := by
    funext m
    simp [get_cons]
  rw [unfilled] at extended
  exact extended

theorem get_tail (first : Nat) (head : α) (items : List α) :
    get [(first + 1, items)] = Function.update (get [(first, head :: items)]) first none := by
  funext n
  rcases Nat.lt_trichotomy n first with less | same | more
  · have early : ¬ first ≤ n := by omega
    have earlier : ¬ first + 1 ≤ n := by omega
    rw [Function.update_of_ne (Nat.ne_of_lt less)]
    simp [get_cons, early, earlier]
  · subst same
    have early : ¬ n + 1 ≤ n := by omega
    simp [get_cons, early]
  · have index : n - first = n - (first + 1) + 1 := by omega
    have reached : first + 1 ≤ n := more
    have bound : n < first + (items.length + 1) ↔ n < first + 1 + items.length := by omega
    rw [Function.update_of_ne (Nat.ne_of_gt more)]
    simp [get_cons, reached, Nat.le_of_lt more, index, bound]

theorem get_take (first length : Nat) (items : List α) (short : length ≤ items.length) (n : Nat) :
    get [(first, items.take length)] n = if n < first + length then get [(first, items)] n
      else none := by
  have taken : (items.take length).length = length := List.length_take_of_le short
  by_cases early : n < first + length
  · rw [if_pos early]
    by_cases reached : first ≤ n
    · have inside : n - first < length := by omega
      have longer : n < first + items.length := by omega
      simp [get_cons, taken, reached, early, longer, inside]
    · simp [get_cons, reached]
  · simp [get_cons, taken, early]

end Chunks

end UtispaceChain.Lib
