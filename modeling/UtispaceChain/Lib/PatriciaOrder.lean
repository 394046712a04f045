import Mathlib.Data.List.Lex
import Mathlib.Order.Fin.Basic
import UtispaceChain.Lib.Patricia

/-! Patricia trees in order: their strings one after the other, and those from a given string on. -/

namespace UtispaceChain.Lib

section Strings

variable {r : Nat}

theorem append_lt_append_iff (p k l : List (Fin r)) : p ++ k < p ++ l ↔ k < l := by
  induction p with
  | nil => rfl
  | cons a p ih => rw [List.cons_append, List.cons_append, List.cons_lt_cons_iff, ih]; simp

theorem lt_append_of_lt {s k : List (Fin r)} (before : s < k) (l : List (Fin r)) : s < k ++ l := by
  induction k generalizing s with
  | nil => exact absurd before (List.not_lt_nil s)
  | cons b k ih =>
      cases s with
      | nil => exact List.nil_lt_cons b (k ++ l)
      | cons a s =>
          rw [List.cons_append, List.cons_lt_cons_iff]
          exact (List.cons_lt_cons_iff.mp before).imp_right fun later => ⟨later.1, ih later.2⟩

theorem append_lt_of_not_prefix {s k : List (Fin r)} (apart : ¬k <+: s) (order : ¬s < k)
    (l : List (Fin r)) :
    k ++ l < s := by
  induction k generalizing s with
  | nil => exact absurd List.nil_prefix apart
  | cons b k ih =>
      cases s with
      | nil => exact absurd (List.nil_lt_cons b k) order
      | cons a s =>
          rw [List.cons_lt_cons_iff, not_or] at order
          rw [List.cons_append, List.cons_lt_cons_iff]
          rcases lt_or_eq_of_le (not_lt.mp order.1) with less | same
          · exact .inl less
          · subst same
            exact .inr ⟨rfl, ih (fun start => apart ((List.prefix_cons_inj b).mpr start))
              fun less => order.2 ⟨rfl, less⟩⟩

end Strings

namespace Patricia

variable {r : Nat} {V : Type}

def under (k : List (Fin r)) (e : List (Fin r) × V) : List (Fin r) × V := (k ++ e.1, e.2)

def entries : Patricia r V → List (List (Fin r) × V)
  | empty => []
  | leaf k v => [(k, v)]
  | ext k c => c.entries.map (under k)
  | branch cs => (List.finRange r).flatMap fun d => (cs d).entries.map (under [d])

def later (cs : Fin r → Patricia r V) (j : Nat) : List (List (Fin r) × V) :=
  ((List.finRange r).drop j).flatMap fun d => (cs d).entries.map (under [d])

def entriesFrom (s : List (Fin r)) (n : Patricia r V) : List (List (Fin r) × V) :=
  n.entries.filter fun e => ¬e.1 < s

/-- Every string has the given length, and every way is open that far. -/
def Depth : Nat → Patricia r V → Prop
  | _, empty => True
  | m, leaf k _ => k.length = m
  | m, ext k c => ∃ rest, m = k.length + rest ∧ c.Depth rest
  | m, branch cs => ∃ rest, m = rest + 1 ∧ ∀ d, (cs d).Depth rest

theorem under_under (k l : List (Fin r)) (e : List (Fin r) × V) :
    under k (under l e) = under (k ++ l) e :=
  Prod.ext (List.append_assoc k l e.1).symm rfl

theorem map_under (k l : List (Fin r)) (es : List (List (Fin r) × V)) :
    (es.map (under l)).map (under k) = es.map (under (k ++ l)) := by
  rw [List.map_map]
  exact List.map_congr_left fun e _ => under_under k l e

theorem mem_map_under {k s : List (Fin r)} {w : V} {es : List (List (Fin r) × V)} :
    (s, w) ∈ es.map (under k) ↔ ∃ s', s = k ++ s' ∧ (s', w) ∈ es := by
  constructor
  · intro member
    rcases List.mem_map.mp member with ⟨⟨s', w'⟩, present, same⟩
    cases same
    exact ⟨s', rfl, present⟩
  · rintro ⟨s', rfl, present⟩
    exact List.mem_map.mpr ⟨(s', w), present, rfl⟩

theorem mem_entries {n : Patricia r V} {s : List (Fin r)} {w : V} : (s, w) ∈ n.entries ↔
    n.find s = some w := by
  induction n generalizing s with
  | empty => simp [entries]
  | leaf k v =>
      rw [entries, List.mem_singleton, find_leaf, Prod.mk.injEq]
      exact and_congr_right fun _ => eq_comm
  | ext k c ih =>
      rw [entries, mem_map_under, find_ext]
      exact exists_congr fun s' => and_congr_right fun _ => ih
  | branch cs ih =>
      rw [entries, List.mem_flatMap, find_branch]
      refine exists_congr fun d => ?_
      rw [mem_map_under]
      simp only [List.mem_finRange, true_and, List.singleton_append]
      exact exists_congr fun s' => and_congr_right fun _ => ih d

theorem entries_sorted (n : Patricia r V) : n.entries.Pairwise fun a b => a.1 < b.1 := by
  have moved : ∀ (k : List (Fin r)) (es : List (List (Fin r) × V)),
    es.Pairwise (fun a b => a.1 < b.1) →
      (es.map (under k)).Pairwise fun a b => a.1 < b.1 := by
    intro k es sorted
    rw [List.pairwise_map]
    exact sorted.imp fun less => (append_lt_append_iff k _ _).mpr less
  induction n with
  | empty => exact List.Pairwise.nil
  | leaf k v => exact List.pairwise_singleton _ _
  | ext k c ih => exact moved k _ ih
  | branch cs ih =>
      rw [entries, List.pairwise_flatMap]
      refine ⟨fun d _ => moved [d] _ (ih d), (List.pairwise_lt_finRange r).imp
        fun {d e} less a left b right => ?_⟩
      rcases List.mem_map.mp left with ⟨a', -, rfl⟩
      rcases List.mem_map.mp right with ⟨b', -, rfl⟩
      exact List.cons_lt_cons_iff.mpr (.inl less)

theorem Canonical.depth {n : Patricia r V} {m : Nat} (canonical : n.Canonical)
    (length : ∀ s w, n.find s = some w → s.length = m) : n.Depth m := by
  induction n generalizing m with
  | empty => trivial
  | leaf k v => exact length k v (find_leaf.mpr ⟨rfl, rfl⟩)
  | ext k c ih =>
      have full : c.isEmpty = false := by
        have shape := canonical.2.1
        cases c <;> first | rfl | cases shape
      rcases canonical.2.2.inhabited full with ⟨s, w, found⟩
      have whole := length (k ++ s) w (by rw [find_ext_append, found])
      rw [List.length_append] at whole
      refine ⟨m - k.length, by omega, ih canonical.2.2 fun s' w' found' => ?_⟩
      have whole' := length (k ++ s') w' (by rw [find_ext_append, found'])
      rw [List.length_append] at whole'
      omega
  | branch cs ih =>
      rcases canonical with ⟨⟨a, -, -, full, -⟩, each⟩
      rcases (each a).inhabited full with ⟨s, w, found⟩
      have whole := length (a :: s) w (find_branch.mpr ⟨a, s, rfl, found⟩)
      rw [List.length_cons] at whole
      refine ⟨m - 1, by omega, fun d => ih d (each d) fun s' w' found' => ?_⟩
      have whole' := length (d :: s') w' (find_branch.mpr ⟨d, s', rfl, found'⟩)
      rw [List.length_cons] at whole'
      omega

theorem Depth.length {n : Patricia r V} {m : Nat} (depth : n.Depth m) {s : List (Fin r)} {w : V}
    (found : n.find s = some w) : s.length = m := by
  induction n generalizing m s with
  | empty => cases found
  | leaf k v =>
      rw [(find_leaf.mp found).1]
      exact depth
  | ext k c ih =>
      rcases depth with ⟨rest, rfl, below⟩
      rcases find_ext.mp found with ⟨s', rfl, found'⟩
      rw [List.length_append, ih below found']
  | branch cs ih =>
      rcases depth with ⟨rest, rfl, below⟩
      rcases find_branch.mp found with ⟨d, s', rfl, found'⟩
      rw [List.length_cons, ih d (below d) found']

/-! The entries from a string on, by what the node is. -/

theorem later_cons (cs : Fin r → Patricia r V) {j : Nat} (inside : j < r) :
    later cs j = (cs ⟨j, inside⟩).entries.map (under [⟨j, inside⟩]) ++ later cs (j + 1) := by
  have way : j < (List.finRange r).length := by rw [List.length_finRange]; exact inside
  rw [later, List.drop_eq_getElem_cons way, List.flatMap_cons, List.getElem_finRange]
  rfl

theorem later_end (cs : Fin r → Patricia r V) : later cs r = [] := by
  have none : (List.finRange r).drop r = [] := List.drop_eq_nil_of_le (by rw [List.length_finRange])
  rw [later, none]
  rfl

theorem entriesFrom_nil (n : Patricia r V) : n.entriesFrom [] = n.entries := by
  refine List.filter_eq_self.mpr fun e _ => ?_
  exact decide_eq_true (List.not_lt_nil e.1)

theorem filter_map_under (k s : List (Fin r)) (es : List (List (Fin r) × V)) :
    (es.map (under k)).filter (fun e => ¬e.1 < k ++ s) =
      (es.filter fun e => ¬e.1 < s).map (under k) := by
  rw [List.filter_map]
  refine congrArg (List.map (under k)) (List.filter_congr fun e _ => ?_)
  exact decide_eq_decide.mpr (not_congr (append_lt_append_iff k e.1 s))

theorem entriesFrom_ext_append (k s : List (Fin r)) (c : Patricia r V) :
    (ext k c).entriesFrom (k ++ s) = (c.entriesFrom s).map (under k) :=
  filter_map_under k s c.entries

theorem entriesFrom_earlier {n : Patricia r V} {k s : List (Fin r)}
    (all : ∀ e ∈ n.entries, k <+: e.1) (before : s < k) :
    n.entriesFrom s = n.entries := by
  refine List.filter_eq_self.mpr fun e member => decide_eq_true ?_
  rcases all e member with ⟨l, same⟩
  have less := lt_append_of_lt before l
  rw [same] at less
  exact List.lt_asymm less

theorem entriesFrom_behind {n : Patricia r V} {k s : List (Fin r)}
    (all : ∀ e ∈ n.entries, k <+: e.1) (apart : ¬k <+: s) (order : ¬s < k) :
    n.entriesFrom s = [] := by
  refine List.filter_eq_nil_iff.mpr fun e member => ?_
  rcases all e member with ⟨l, same⟩
  have less := append_lt_of_not_prefix apart order l
  rw [same] at less
  simpa using less

theorem entriesFrom_branch (cs : Fin r → Patricia r V) (d : Fin r) (s : List (Fin r)) :
    (branch cs).entriesFrom (d :: s) = ((cs d).entriesFrom s).map (under [d]) ++
      later cs (d + 1) := by
  have split : (branch cs).entries =
    ((List.finRange r).take d).flatMap (fun e => (cs e).entries.map (under [e])) ++
      later cs d := by
    rw [later, ← List.flatMap_append, List.take_append_drop]
    rfl
  rw [entriesFrom, split, later_cons cs d.isLt, List.filter_append, List.filter_append]
  have before : (((List.finRange r).take d).flatMap fun e => (cs e).entries.map (under [e])).filter
      (fun e => ¬e.1 < d :: s) = [] := by
    refine List.filter_eq_nil_iff.mpr fun e member => ?_
    rcases List.mem_flatMap.mp member with ⟨way, early, present⟩
    rcases List.mem_map.mp present with ⟨e', -, rfl⟩
    rcases List.mem_iff_getElem.mp early with ⟨i, small, same⟩
    have few := small
    rw [List.length_take] at few
    have less : way < d := by
      rw [← same, List.getElem_take, List.getElem_finRange]
      exact Fin.mk_lt_of_lt_val (by change i < d.val; omega)
    simpa [under] using List.cons_lt_cons_iff.mpr (.inl less)
  have behind : (later cs (d + 1)).filter (fun e => ¬e.1 < d :: s) = later cs (d + 1) := by
    refine List.filter_eq_self.mpr fun e member => decide_eq_true fun less => ?_
    rcases List.mem_flatMap.mp member with ⟨way, late, present⟩
    rcases List.mem_map.mp present with ⟨e', -, rfl⟩
    rcases List.mem_iff_getElem.mp late with ⟨i, small, same⟩
    have more : d < way := by
      rw [← same, List.getElem_drop, List.getElem_finRange]
      exact Fin.lt_def.mpr (by change d.val < d + 1 + i; omega)
    rcases List.cons_lt_cons_iff.mp less with first | equal
    · exact lt_asymm first more
    · exact more.ne equal.1.symm
  have here := filter_map_under [d] s (cs d).entries
  rw [List.singleton_append] at here
  rw [before, behind, List.nil_append, here]
  rfl

end Patricia

end UtispaceChain.Lib
