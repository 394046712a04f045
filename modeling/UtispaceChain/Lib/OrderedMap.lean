import Mathlib.Data.List.Sort
import Mathlib.Order.Defs.Unbundled
import Mathlib.Tactic.Common

/-! Ordered maps as their entries in the order of the keys. -/

namespace UtispaceChain.Lib

variable {K V : Type} [LT K]

def assign [DecidableLT K] [DecidableEq K] (k : K) (v : V) : List (K × V) → List (K × V)
  | [] => [(k, v)]
  | e :: m => if k < e.1 then (k, v) :: e :: m else if k = e.1 then (k, v) :: m
      else e :: assign k v m

def assignAll [DecidableLT K] [DecidableEq K] (es : List (K × V)) : List (K × V) :=
  es.foldl (fun m e => assign e.1 e.2 m) []

def Sorted (m : List (K × V)) : Prop := m.Pairwise fun a b => a.1 < b.1

theorem Sorted.head {e : K × V} {m : List (K × V)} (sorted : Sorted (e :: m)) :
    ∀ a ∈ m, e.1 < a.1 :=
  (List.pairwise_cons.mp sorted).1

theorem Sorted.tail {e : K × V} {m : List (K × V)} (sorted : Sorted (e :: m)) : Sorted m :=
  (List.pairwise_cons.mp sorted).2

section Order

variable [IsTrans K (· < ·)] [Std.Irrefl fun a b : K => a < b]

theorem Sorted.unique {m n : List (K × V)} (left : Sorted m) (right : Sorted n) (same : ∀ e, e ∈ m ↔
    e ∈ n) : m = n := by
  have irrefl : Std.Irrefl fun a b : K × V => a.1 < b.1 := ⟨fun a => Std.Irrefl.irrefl a.1⟩
  have antisymm : Std.Antisymm fun a b : K × V => a.1 < b.1 :=
    ⟨fun a b less more => absurd (Trans.trans less more) (Std.Irrefl.irrefl a.1)⟩
  exact List.Pairwise.eq_of_mem_iff left right same

omit [IsTrans K (· < ·)] in
theorem Sorted.nodup {m : List (K × V)} (sorted : Sorted m) : (m.map Prod.fst).Nodup := by
  refine List.pairwise_map.mpr (List.Pairwise.imp ?_ sorted)
  intro a b less same
  rw [same] at less
  exact Std.Irrefl.irrefl b.1 less

variable [DecidableLT K] [DecidableEq K]

theorem mem_assign {m : List (K × V)} (sorted : Sorted m) {k : K} {v : V} {e : K × V} :
    e ∈ assign k v m ↔ e = (k, v) ∨ e ∈ m ∧ e.1 ≠ k := by
  induction m with
  | nil => simp [assign]
  | cons a m ih =>
      have apart : ∀ x y : K, x < y → y ≠ x :=
        fun x y less same => Std.Irrefl.irrefl x (same ▸ less)
      rw [assign]
      split_ifs with less same
      · have later : e ∈ a :: m → e.1 ≠ k := by
          intro member
          rcases List.mem_cons.mp member with rfl | inside
          · exact apart k e.1 less
          · exact apart k e.1 (Trans.trans less (sorted.head e inside))
        rw [List.mem_cons]
        exact or_congr_right ⟨fun member => ⟨member, later member⟩, And.left⟩
      · subst same
        rw [List.mem_cons, List.mem_cons]
        refine or_congr_right ⟨fun inside => ⟨.inr inside, apart a.1 e.1 (sorted.head e inside)⟩,
          fun both => ?_⟩
        rcases both.1 with rfl | inside
        · exact absurd rfl both.2
        · exact inside
      · rw [List.mem_cons, ih sorted.tail, List.mem_cons]
        constructor
        · rintro (rfl | rfl | ⟨inside, differ⟩)
          · exact .inr ⟨.inl rfl, Ne.symm same⟩
          · exact .inl rfl
          · exact .inr ⟨.inr inside, differ⟩
        · rintro (rfl | ⟨rfl | inside, differ⟩)
          · exact .inr (.inl rfl)
          · exact .inl rfl
          · exact .inr (.inr ⟨inside, differ⟩)

variable [Std.Trichotomous fun a b : K => a < b]

theorem Sorted.assign {m : List (K × V)} (sorted : Sorted m) (k : K) (v : V) :
    Sorted (assign k v m) := by
  induction m with
  | nil => exact List.pairwise_singleton _ _
  | cons a m ih =>
      rw [Lib.assign]
      split_ifs with less same
      · refine List.pairwise_cons.mpr ⟨fun e member => ?_, sorted⟩
        rcases List.mem_cons.mp member with rfl | inside
        · exact less
        · exact Trans.trans less (sorted.head e inside)
      · subst same
        exact List.pairwise_cons.mpr ⟨sorted.head, sorted.tail⟩
      · refine List.pairwise_cons.mpr ⟨fun e member => ?_, ih sorted.tail⟩
        rcases (mem_assign sorted.tail).mp member with rfl | ⟨inside, -⟩
        · by_contra none
          exact same (Std.Trichotomous.trichotomous k a.1 less none)
        · exact sorted.head e inside

theorem mem_assignAll {es : List (K × V)} (distinct : (es.map Prod.fst).Nodup) :
    Sorted (assignAll es) ∧ ∀ e, e ∈ assignAll es ↔ e ∈ es := by
  have general : ∀ (es m : List (K × V)), Sorted m → (es.map Prod.fst).Nodup →
    (∀ e ∈ es, ∀ a ∈ m, a.1 ≠ e.1) →
      Sorted (es.foldl (fun m e => Lib.assign e.1 e.2 m) m) ∧
        ∀ e, e ∈ es.foldl (fun m e => Lib.assign e.1 e.2 m) m ↔ e ∈ es ∨ e ∈ m := by
    intro es
    induction es with
    | nil => exact fun m sorted _ _ => ⟨sorted, fun e => by simp⟩
    | cons a es ih =>
        intro m sorted distinct apart
        rw [List.map_cons, List.nodup_cons] at distinct
        have further : ∀ e ∈ es, ∀ b ∈ Lib.assign a.1 a.2 m, b.1 ≠ e.1 := by
          intro e member b inside
          rcases (mem_assign sorted).mp inside with rfl | ⟨before, -⟩
          · exact fun same => distinct.1 (same ▸ List.mem_map_of_mem member)
          · exact apart e (List.mem_cons_of_mem a member) b before
        rcases ih _ (sorted.assign a.1 a.2) distinct.2 further with ⟨sorted', members⟩
        refine ⟨sorted', fun e => ?_⟩
        rw [List.foldl_cons, members, mem_assign sorted, List.mem_cons]
        have free : e ∈ m → e.1 ≠ a.1 := apart a List.mem_cons_self e
        tauto
  rcases general es [] List.Pairwise.nil distinct (fun _ _ _ none => (nomatch none)) with
    ⟨sorted, members⟩
  exact ⟨sorted, fun e => (members e).trans (by simp)⟩

end Order

end UtispaceChain.Lib
