import Mathlib.Data.List.FinRange
import Mathlib.Data.List.Infix
import Mathlib.Logic.Function.Basic
import Mathlib.Tactic.Common

/-! Patricia trees: a map from strings of digits, with one tree for each map. -/

namespace UtispaceChain.Lib

/-- The number of digits that two strings share at their start. -/
def shared {α : Type} [DecidableEq α] : List α → List α → Nat
  | a :: k, b :: l => if a = b then shared k l + 1 else 0
  | _, _ => 0

section Shared

variable {α : Type} [DecidableEq α]

theorem shared_append (p k l : List α) : shared (p ++ k) (p ++ l) = p.length + shared k l := by
  induction p with
  | nil => simp
  | cons a p ih =>
      rw [List.cons_append, List.cons_append, shared, if_pos rfl, ih, List.length_cons]
      omega

theorem shared_ne {a b : α} (differ : a ≠ b) (k l : List α) : shared (a :: k) (b :: l) = 0 := by
  rw [shared, if_neg differ]

theorem shared_nil (k : List α) : shared k [] = 0 := by
  cases k <;> rfl

theorem parts (k l : List α) :
    l <+: k ∨ k <+: l ∨ ∃ p a b k' l', a ≠ b ∧ k = p ++ a :: k' ∧ l = p ++ b :: l' := by
  induction k generalizing l with
  | nil => exact .inr (.inl List.nil_prefix)
  | cons a k ih =>
      cases l with
      | nil => exact .inl List.nil_prefix
      | cons b l =>
          by_cases same : a = b
          · subst same
            rcases ih l with before | after | ⟨p, x, y, k', l', differ, left, right⟩
            · exact .inl ((List.prefix_cons_inj a).mpr before)
            · exact .inr (.inl ((List.prefix_cons_inj a).mpr after))
            · exact .inr
                (.inr ⟨a :: p, x, y, k', l', differ, by rw [left]; rfl, by rw [right]; rfl⟩)
          · exact .inr (.inr ⟨[], a, b, k, l, same, rfl, rfl⟩)

theorem shared_eq_length_iff (k l : List α) : shared k l = l.length ↔ l <+: k := by
  rcases parts k l with ⟨s, rfl⟩ | ⟨s, rfl⟩ | ⟨p, a, b, k', l', differ, rfl, rfl⟩
  · have whole : shared (l ++ s) l = l.length := by simpa [shared_nil] using shared_append l s []
    simp [whole]
  · have whole : shared k (k ++ s) = k.length := by
      have none : shared ([] : List α) s = 0 := by cases s <;> rfl
      simpa [none] using shared_append k [] s
    rw [whole, List.length_append]
    constructor
    · intro same
      rw [List.length_eq_zero_iff.mp (by omega : s.length = 0), List.append_nil]
    · intro start
      have := start.length_le
      rw [List.length_append] at this
      omega
  · rw [shared_append, shared_ne differ, List.length_append, List.length_cons]
    constructor
    · intro same
      omega
    · intro start
      exact absurd ((List.prefix_append_right_inj p).mp start) (by simp [Ne.symm differ])

end Shared

/-- A leaf has the rest of its string, an extension a part that all strings below have. -/
inductive Patricia (r : Nat) (V : Type) where
  | empty
  | leaf (k : List (Fin r)) (v : V)
  | ext (k : List (Fin r)) (child : Patricia r V)
  | branch (children : Fin r → Patricia r V)

namespace Patricia

variable {r : Nat} {V : Type}

def find : Patricia r V → List (Fin r) → Option V
  | empty, _ => none
  | leaf k v, s => if s = k then some v else none
  | ext k c, s => if k <+: s then c.find (s.drop k.length) else none
  | branch _, [] => none
  | branch cs, d :: s => (cs d).find s

def isEmpty : Patricia r V → Bool
  | empty => true
  | _ => false

def isPair : Patricia r V → Bool
  | leaf _ _ => true
  | ext _ _ => true
  | _ => false

def isBranch : Patricia r V → Bool
  | branch _ => true
  | _ => false

theorem eq_empty {n : Patricia r V} (none : n.isEmpty = true) : n = empty := by
  cases n <;> first | rfl | cases none

theorem isBranch_full {n : Patricia r V} (shape : n.isBranch = true) : n.isEmpty = false := by
  cases n <;> first | rfl | cases shape

@[simp] theorem find_empty (s : List (Fin r)) : (empty : Patricia r V).find s = none := rfl

theorem find_leaf {k s : List (Fin r)} {v w : V} : (leaf k v).find s = some w ↔ s = k ∧ v = w := by
  simp [find]

theorem find_ext_append (k s : List (Fin r)) (c : Patricia r V) :
    (ext k c).find (k ++ s) = c.find s := by
  simp [find]

theorem find_ext {k s : List (Fin r)} {c : Patricia r V} {w : V} :
    (ext k c).find s = some w ↔ ∃ s', s = k ++ s' ∧ c.find s' = some w := by
  constructor
  · intro found
    by_cases start : k <+: s
    · rcases start with ⟨s', rfl⟩
      exact ⟨s', rfl, by rw [← found, find_ext_append]⟩
    · simp [find, start] at found
  · rintro ⟨s', rfl, found⟩
    rw [find_ext_append, found]

theorem find_branch {cs : Fin r → Patricia r V} {s : List (Fin r)} {w : V} :
    (branch cs).find s = some w ↔ ∃ d s', s = d :: s' ∧ (cs d).find s' = some w := by
  cases s with
  | nil => simp [find]
  | cons d s => simp [find]

/-- Every node is needed: an extension stands before a branch, a branch has two ways. -/
def Canonical : Patricia r V → Prop
  | empty => True
  | leaf _ _ => True
  | ext k c => k ≠ [] ∧ c.isBranch = true ∧ c.Canonical
  | branch cs =>
      (∃ a b, a ≠ b ∧ (cs a).isEmpty = false ∧ (cs b).isEmpty = false) ∧ ∀ d, (cs d).Canonical

theorem Canonical.inhabited {n : Patricia r V} (canonical : n.Canonical)
    (full : n.isEmpty = false) :
    ∃ s w, n.find s = some w := by
  induction n with
  | empty => cases full
  | leaf k v => exact ⟨k, v, find_leaf.mpr ⟨rfl, rfl⟩⟩
  | ext k c ih =>
      have filled : c.isEmpty = false := by
        have shape := canonical.2.1
        cases c <;> first | rfl | cases shape
      rcases ih canonical.2.2 filled with ⟨s, w, found⟩
      exact ⟨k ++ s, w, by rw [find_ext_append, found]⟩
  | branch cs ih =>
      rcases canonical with ⟨⟨a, -, -, filled, -⟩, each⟩
      rcases ih a (each a) filled with ⟨s, w, found⟩
      exact ⟨a :: s, w, found⟩

theorem Canonical.forks {c : Patricia r V} (canonical : c.Canonical) (shape : c.isBranch = true) :
    ∃ a b s t v w, a ≠ b ∧ c.find (a :: s) = some v ∧ c.find (b :: t) = some w := by
  cases c with
  | branch cs =>
      rcases canonical with ⟨⟨a, b, differ, left, right⟩, each⟩
      rcases (each a).inhabited left with ⟨s, v, first⟩
      rcases (each b).inhabited right with ⟨t, w, second⟩
      exact ⟨a, b, s, t, v, w, differ, first, second⟩
  | _ => cases shape

theorem Canonical.ext_le {k l : List (Fin r)} {c d : Patricia r V} (canonical : c.Canonical)
    (shape : c.isBranch = true) (same : ∀ s, (ext k c).find s = (ext l d).find s) : l <+: k := by
  rcases canonical.forks shape with ⟨a, b, s, t, v, w, differ, first, second⟩
  have left : (ext l d).find (k ++ a :: s) = some v := by rw [← same, find_ext_append, first]
  have right : (ext l d).find (k ++ b :: t) = some w := by rw [← same, find_ext_append, second]
  rcases find_ext.mp left with ⟨s', atLeft, -⟩
  rcases find_ext.mp right with ⟨t', atRight, -⟩
  rcases parts k l with before | ⟨e, rfl⟩ | ⟨p, x, y, k', l', apart, rfl, rfl⟩
  · exact before
  · cases e with
    | nil => simp
    | cons e es =>
        -- both digits after the part would be the next one of the longer part
        have one : a = e := by simpa using congrArg (fun s => s[k.length]?) atLeft
        have two : b = e := by simpa using congrArg (fun s => s[k.length]?) atRight
        exact absurd (one.trans two.symm) differ
  · have meet : x = y := by simpa using congrArg (fun s => s[p.length]?) atLeft
    exact absurd meet apart

theorem Canonical.eq_leaf {n : Patricia r V} (canonical : n.Canonical) (full : n.isEmpty = false)
    (k : List (Fin r)) (only : ∀ s w, n.find s = some w → s = k) : ∃ v, n = leaf k v := by
  cases n with
  | empty => cases full
  | leaf l v =>
      have same : l = k := only l v (find_leaf.mpr ⟨rfl, rfl⟩)
      exact ⟨v, by rw [same]⟩
  | ext l c =>
      rcases canonical.2.2.forks canonical.2.1 with ⟨a, b, s, t, v, w, differ, first, second⟩
      have left := only (l ++ a :: s) v (by rw [find_ext_append, first])
      have right := only (l ++ b :: t) w (by rw [find_ext_append, second])
      have meet : a = b := (List.cons.inj (List.append_cancel_left (left.trans right.symm))).1
      exact absurd meet differ
  | branch cs =>
      rcases canonical.forks rfl with ⟨a, b, s, t, v, w, differ, first, second⟩
      have meet : a = b := (List.cons.inj ((only _ _ first).trans (only _ _ second).symm)).1
      exact absurd meet differ

theorem Canonical.ext_ne_branch {k : List (Fin r)} {c : Patricia r V} {cs : Fin r → Patricia r V}
    (left : (ext k c).Canonical) (right : (branch cs).Canonical)
    (same : ∀ s, (ext k c).find s = (branch cs).find s) : False := by
  rcases right.forks rfl with ⟨a, b, s, t, v, w, differ, first, second⟩
  rw [← same] at first second
  rcases find_ext.mp first with ⟨s', atFirst, -⟩
  rcases find_ext.mp second with ⟨t', atSecond, -⟩
  cases k with
  | nil => exact left.1 rfl
  | cons d k =>
      have one : a = d := (List.cons.inj atFirst).1
      have two : b = d := (List.cons.inj atSecond).1
      exact differ (one.trans two.symm)

theorem Canonical.unique {n m : Patricia r V} (left : n.Canonical) (right : m.Canonical)
    (same : ∀ s, n.find s = m.find s) : n = m := by
  induction n generalizing m with
  | empty =>
      cases shape : m.isEmpty with
      | true => cases m <;> first | rfl | cases shape
      | false =>
          rcases right.inhabited shape with ⟨s, w, found⟩
          rw [← same] at found
          cases found
  | leaf k v =>
      have here : m.find k = some v := by rw [← same]; exact find_leaf.mpr ⟨rfl, rfl⟩
      have full : m.isEmpty = false := by cases m <;> first | rfl | cases here
      have only : ∀ s w, m.find s = some w → s = k := by
        intro s w found
        rw [← same] at found
        exact (find_leaf.mp found).1
      rcases right.eq_leaf full k only with ⟨w, rfl⟩
      rw [(find_leaf.mp here).2]
  | ext k c ih =>
      cases m with
      | empty =>
          rcases left.inhabited rfl with ⟨s, w, found⟩
          rw [same] at found
          cases found
      | leaf l w =>
          rcases left.eq_leaf rfl l (fun s w found => (find_leaf.mp ((same s).symm.trans found)).1)
            with ⟨v, shape⟩
          cases shape
      | ext l d =>
          have below := ext_le left.2.2 left.2.1 same
          have above := ext_le right.2.2 right.2.1 fun s => (same s).symm
          have equal : k = l := (above.eq_of_length (le_antisymm above.length_le below.length_le))
          subst equal
          have inner : c = d := ih left.2.2 right.2.2 fun s => by
            rw [← find_ext_append k, same, find_ext_append]
          rw [inner]
      | branch cs => exact (ext_ne_branch left right same).elim
  | branch cs ih =>
      cases m with
      | empty =>
          rcases left.inhabited rfl with ⟨s, w, found⟩
          rw [same] at found
          cases found
      | leaf l w =>
          rcases left.eq_leaf rfl l (fun s w found => (find_leaf.mp ((same s).symm.trans found)).1)
            with ⟨v, shape⟩
          cases shape
      | ext l d => exact (ext_ne_branch right left fun s => (same s).symm).elim
      | branch ds =>
          have inner : ∀ d, cs d = ds d :=
            fun d => ih d (left.2 d) (right.2 d) fun s => same (d :: s)
          rw [funext inner]

/-! Insertion -/

def key : Patricia r V → List (Fin r)
  | leaf k _ => k
  | ext k _ => k
  | _ => []

def extend : List (Fin r) → Patricia r V → Patricia r V
  | [], c => c
  | d :: k, c => ext (d :: k) c

def retail : Patricia r V → List (Fin r) → Patricia r V
  | leaf _ v, k => leaf k v
  | ext _ c, k => extend k c
  | n, _ => n

def single (d : Fin r) (n : Patricia r V) : Fin r → Patricia r V :=
  Function.update (fun _ => empty) d n

/-- A new string beside the part of a leaf or an extension. -/
def diverge (n : Patricia r V) (k : List (Fin r)) (v : V) : Patricia r V :=
  let s := shared k n.key
  match n.key.drop s, k.drop s with
  | a :: l, b :: k' =>
      extend (n.key.take s) (branch (Function.update (single a (n.retail l)) b (leaf k' v)))
  | _, _ => n

def insert : Patricia r V → List (Fin r) → V → Patricia r V
  | empty, k, v => leaf k v
  | leaf l w, k, v => if l = k then leaf l v else (leaf l w).diverge k v
  | ext l c, k, v => if l <+: k then ext l (c.insert (k.drop l.length) v) else (ext l c).diverge k v
  | branch cs, [], _ => branch cs
  | branch cs, d :: k, v => branch (Function.update cs d ((cs d).insert k v))

/-- The string is no start of one in the tree, and none is a start of it. -/
def Apart (k : List (Fin r)) (n : Patricia r V) : Prop :=
  ∀ s w, n.find s = some w → s <+: k ∨ k <+: s → s = k

theorem Apart.ext {l k : List (Fin r)} {c : Patricia r V} (apart : Apart (l ++ k) (ext l c)) :
    Apart k c := by
  intro s w found near
  have same := apart (l ++ s) w (by rw [find_ext_append, found])
    (near.imp (List.prefix_append_right_inj l).mpr (List.prefix_append_right_inj l).mpr)
  exact List.append_cancel_left same

theorem Apart.branch {d : Fin r} {k : List (Fin r)} {cs : Fin r → Patricia r V}
    (apart : Apart (d :: k) (branch cs)) : Apart k (cs d) := by
  intro s w found near
  have same :=
    apart (d :: s) w found (near.imp (List.prefix_cons_inj d).mpr (List.prefix_cons_inj d).mpr)
  exact (List.cons.inj same).2

theorem Apart.split {k : List (Fin r)} {cs : Fin r → Patricia r V} (apart : Apart k (.branch cs))
    (canonical : (Patricia.branch cs).Canonical) : ∃ d l, k = d :: l := by
  rcases canonical.inhabited rfl with ⟨s, w, found⟩
  cases k with
  | nil =>
      rw [apart s w found (.inr List.nil_prefix)] at found
      cases found
  | cons d l => exact ⟨d, l, rfl⟩

theorem find_extend (k : List (Fin r)) (c : Patricia r V) (s : List (Fin r)) :
    (extend k c).find s = (ext k c).find s := by
  cases k with
  | nil => simp [extend, find]
  | cons d k => rfl

theorem canonical_extend {k : List (Fin r)} {c : Patricia r V} (shape : c.isBranch = true)
    (canonical : c.Canonical) :
    (extend k c).Canonical := by
  cases k with
  | nil => exact canonical
  | cons d k => exact ⟨List.cons_ne_nil d k, shape, canonical⟩

theorem single_apply (d e : Fin r) (n : Patricia r V) :
    single d n e = if e = d then n else empty := by
  simp [single, Function.update_apply]

theorem diverge_eq {n : Patricia r V} {p k' l' : List (Fin r)} {a b : Fin r} (v : V)
    (differ : a ≠ b) (key : n.key = p ++ a :: l') :
    n.diverge (p ++ b :: k') v =
      extend p (.branch (Function.update (single a (n.retail l')) b (leaf k' v))) := by
  have length : shared (p ++ b :: k') (p ++ a :: l') = p.length := by
    rw [shared_append, shared_ne (Ne.symm differ), Nat.add_zero]
  simp only [diverge, key, length, List.drop_left, List.take_left]

theorem find_retail {n : Patricia r V} {p l s : List (Fin r)} (pair : n.isPair = true)
    (key : n.key = p ++ l) :
    (n.retail l).find s = n.find (p ++ s) := by
  cases n with
  | leaf k w =>
      have shape : k = p ++ l := key
      simp [retail, find, shape]
  | ext k c =>
      have shape : k = p ++ l := key
      rw [retail, find_extend, shape, find, find]
      by_cases start : l <+: s
      · rcases start with ⟨t, rfl⟩
        simp [← List.append_assoc]
      · have longer : ¬ p ++ l <+: p ++ s :=
          fun far => start ((List.prefix_append_right_inj p).mp far)
        rw [if_neg start, if_neg longer]
  | empty => cases pair
  | branch cs => cases pair

theorem canonical_retail {n : Patricia r V} (canonical : n.Canonical) (l : List (Fin r)) :
    (n.retail l).Canonical := by
  cases n with
  | leaf k w => trivial
  | ext k c => exact canonical_extend canonical.2.1 canonical.2.2
  | empty => trivial
  | branch cs => exact canonical

theorem key_prefix {n : Patricia r V} {s : List (Fin r)} {w : V} (pair : n.isPair = true)
    (found : n.find s = some w) :
    n.key <+: s := by
  cases n with
  | leaf k v => rw [(find_leaf.mp found).1]; exact List.prefix_rfl
  | ext k c =>
      rcases find_ext.mp found with ⟨s', rfl, -⟩
      exact List.prefix_append k s'
  | empty => cases pair
  | branch cs => cases pair

theorem find_diverge {n : Patricia r V} {k : List (Fin r)} (v : V) (pair : n.isPair = true)
    (behind : ¬ n.key <+: k) (ahead : ¬ k <+: n.key) :
    (n.diverge k v).find = Function.update n.find k (some v) := by
  rcases parts n.key k with before | after | ⟨p, a, b, l', k', differ, key, rfl⟩
  · exact absurd before ahead
  · exact absurd after behind
  · rw [diverge_eq v differ key]
    funext s
    rw [find_extend]
    by_cases start : p <+: s
    · rcases start with ⟨t, rfl⟩
      rw [find_ext_append]
      cases t with
      | nil =>
          have distinct : p ++ [] ≠ p ++ b :: k' := fun same => by simp at same
          rw [Function.update_of_ne distinct]
          cases found : n.find (p ++ []) with
          | none => rfl
          | some w =>
              have start := key_prefix pair found
              rw [key, List.prefix_append_right_inj] at start
              exact absurd (List.prefix_nil.mp start) (List.cons_ne_nil a l')
      | cons d t =>
          have parted : n.key = (p ++ [a]) ++ l' := by rw [key, List.append_assoc]; rfl
          rw [find, Function.update_apply, Function.update_apply]
          by_cases new : d = b
          · subst new
            have off : n.find (p ++ d :: t) = none := by
              cases found : n.find (p ++ d :: t) with
              | none => rfl
              | some w =>
                  have start := key_prefix pair found
                  rw [key, List.prefix_append_right_inj] at start
                  exact absurd (List.cons_prefix_cons.mp start).1 differ
            simp [find, off]
          · rw [if_neg new, single_apply]
            have distinct : p ++ d :: t ≠ p ++ b :: k' := fun same =>
              new (List.cons.inj (List.append_cancel_left same)).1
            rw [if_neg distinct]
            by_cases old : d = a
            · subst old
              rw [if_pos rfl, find_retail pair parted, List.append_assoc]
              rfl
            · rw [if_neg old]
              cases found : n.find (p ++ d :: t) with
              | none => rfl
              | some w =>
                  have start := key_prefix pair found
                  rw [key, List.prefix_append_right_inj] at start
                  exact absurd (List.cons_prefix_cons.mp start).1.symm old
    · have off : n.find s = none := by
        cases found : n.find s with
        | none => rfl
        | some w =>
            have longer := key_prefix pair found
            rw [key] at longer
            exact absurd ((List.prefix_append p _).trans longer) start
      have distinct : s ≠ p ++ b :: k' := fun same => start (same ▸ List.prefix_append p _)
      rw [find, if_neg start, Function.update_apply, if_neg distinct, off]

theorem canonical_diverge {n : Patricia r V} {k : List (Fin r)} (v : V) (pair : n.isPair = true)
    (canonical : n.Canonical) (behind : ¬ n.key <+: k) (ahead : ¬ k <+: n.key) :
    (n.diverge k v).Canonical := by
  rcases parts n.key k with before | after | ⟨p, a, b, l', k', differ, key, rfl⟩
  · exact absurd before ahead
  · exact absurd after behind
  · rw [diverge_eq v differ key]
    apply canonical_extend rfl
    refine ⟨⟨a, b, differ, ?_, ?_⟩, ?_⟩
    · rw [Function.update_of_ne differ, single_apply, if_pos rfl]
      cases n with
      | leaf l w => rfl
      | ext l c =>
          have shape := canonical.2.1
          cases l' with
          | nil => cases c <;> first | rfl | cases shape
          | cons d l' => rfl
      | empty => cases pair
      | branch cs => cases pair
    · rw [Function.update_self]
      rfl
    · intro d
      rw [Function.update_apply]
      split
      · trivial
      · rw [single_apply]
        split
        · exact canonical_retail canonical l'
        · trivial

theorem Apart.beside {n : Patricia r V} {k : List (Fin r)} (apart : Apart k n)
    (canonical : n.Canonical) (pair : n.isPair = true) (off : ¬ n.key <+: k) : ¬ k <+: n.key := by
  intro ahead
  have full : n.isEmpty = false := by cases n <;> first | rfl | cases pair
  rcases canonical.inhabited full with ⟨s, w, found⟩
  have start := key_prefix pair found
  have same := apart s w found (.inr (ahead.trans start))
  exact off (same ▸ start)

theorem insert_spec {n : Patricia r V} {k : List (Fin r)} (v : V) (canonical : n.Canonical)
    (apart : Apart k n) :
    (n.insert k v).Canonical ∧ (n.insert k v).find = Function.update n.find k (some v) := by
  induction n generalizing k with
  | empty =>
      refine ⟨trivial, funext fun s => ?_⟩
      simp [insert, find, Function.update_apply]
  | leaf l w =>
      by_cases same : l = k
      · subst same
        refine ⟨by simp [insert, Canonical], funext fun s => ?_⟩
        by_cases here : s = l <;> simp [insert, find, Function.update_apply, here]
      · rw [insert, if_neg same]
        have off : ¬ l <+: k :=
          fun start => same (apart l w (find_leaf.mpr ⟨rfl, rfl⟩) (.inl start))
        have beside := apart.beside canonical rfl off
        exact ⟨canonical_diverge v rfl canonical off beside, find_diverge v rfl off beside⟩
  | ext l c ih =>
      by_cases start : l <+: k
      · rcases start with ⟨k', rfl⟩
        rw [insert, if_pos (List.prefix_append l k'), List.drop_left]
        rcases ih canonical.2.2 apart.ext with ⟨inner, found⟩
        refine ⟨⟨canonical.1, ?_, inner⟩, funext fun s => ?_⟩
        · have shape := canonical.2.1
          cases c with
          | branch cs => cases k' <;> rfl
          | _ => cases shape
        · by_cases below : l <+: s
          · rcases below with ⟨t, rfl⟩
            rw [find_ext_append, found, Function.update_apply, Function.update_apply,
              find_ext_append]
            simp
          · have distinct : s ≠ l ++ k' := fun same => below (same ▸ List.prefix_append l k')
            rw [Function.update_of_ne distinct, find, find, if_neg below, if_neg below]
      · rw [insert, if_neg start]
        have beside := apart.beside canonical rfl start
        exact ⟨canonical_diverge v rfl canonical start beside, find_diverge v rfl start beside⟩
  | branch cs ih =>
      cases k with
      | nil =>
          rcases canonical.inhabited rfl with ⟨s, w, found⟩
          have same := apart s w found (.inr List.nil_prefix)
          rw [same] at found
          cases found
      | cons d k =>
          rcases ih d (canonical.2 d) apart.branch with ⟨inner, found⟩
          have filled : ((cs d).insert k v).isEmpty = false := by
            have here : ((cs d).insert k v).find k = some v := by rw [found, Function.update_self]
            cases shape : (cs d).insert k v with
            | empty =>
                rw [shape] at here
                cases here
            | _ => rfl
          have kept : ∀ e, (cs e).isEmpty = false →
              (Function.update cs d ((cs d).insert k v) e).isEmpty = false := by
            intro e full
            rw [Function.update_apply]
            split
            · exact filled
            · exact full
          rcases canonical.1 with ⟨a, b, differ, left, right⟩
          refine ⟨⟨⟨a, b, differ, kept a left, kept b right⟩, fun e => ?_⟩, funext fun s => ?_⟩
          · rw [Function.update_apply]
            split
            · exact inner
            · exact canonical.2 e
          · cases s with
            | nil => simp [insert, find]
            | cons e s =>
                rw [insert, find, Function.update_apply, Function.update_apply]
                by_cases here : e = d
                · subst here
                  rw [if_pos rfl, found, Function.update_apply]
                  simp [find]
                · have distinct : e :: s ≠ d :: k := fun same => here (List.cons.inj same).1
                  rw [if_neg here, if_neg distinct]
                  rfl

/-! Removal -/

def sole (cs : Fin r → Patricia r V) : Option (Fin r) :=
  match (List.finRange r).filter fun d => !(cs d).isEmpty with
  | [d] => some d
  | _ => none

/-- An extension before a tree becomes one with it, unless that is a branch. -/
def graft (l : List (Fin r)) : Patricia r V → Patricia r V
  | leaf k v => leaf (l ++ k) v
  | ext k c => ext (l ++ k) c
  | c => ext l c

def collapse (cs : Fin r → Patricia r V) : Patricia r V :=
  match sole cs with
  | some d => graft [d] (cs d)
  | none => branch cs

def remove : Patricia r V → List (Fin r) → Option (Patricia r V)
  | empty, _ => none
  | leaf l _, k => if l = k then some empty else none
  | ext l c, k => if l <+: k then (c.remove (k.drop l.length)).map (graft l) else none
  | branch _, [] => none
  | branch cs, d :: k => ((cs d).remove k).map fun c => collapse (Function.update cs d c)

theorem find_graft (l : List (Fin r)) (c : Patricia r V) (s : List (Fin r)) :
    (graft l c).find s = (ext l c).find s := by
  by_cases start : l <+: s
  · rcases start with ⟨t, rfl⟩
    rw [find_ext_append]
    cases c with
    | leaf k v => simp [graft, find]
    | ext k c => simp [graft, find]
    | empty => exact find_ext_append l t empty
    | branch cs => exact find_ext_append l t (branch cs)
  · have short : ∀ k, ¬ l ++ k <+: s := fun k far => start ((List.prefix_append l k).trans far)
    cases c with
    | leaf k v =>
        have distinct : s ≠ l ++ k := fun same => start (same ▸ List.prefix_append l k)
        simp [graft, find, distinct, start]
    | ext k c => simp [graft, find, short, start]
    | empty => rfl
    | branch cs => rfl

theorem canonical_graft {l : List (Fin r)} {c : Patricia r V} (part : l ≠ [])
    (full : c.isEmpty = false) (canonical : c.Canonical) : (graft l c).Canonical := by
  cases c with
  | leaf k v => trivial
  | ext k c => exact ⟨by simp [part], canonical.2⟩
  | empty => cases full
  | branch cs => exact ⟨part, rfl, canonical⟩

theorem graft_full (l : List (Fin r)) (c : Patricia r V) : (graft l c).isEmpty = false := by
  cases c <;> rfl

theorem mem_ways {cs : Fin r → Patricia r V} {d : Fin r} :
    d ∈ (List.finRange r).filter (fun d => !(cs d).isEmpty) ↔ (cs d).isEmpty = false := by
  simp

theorem sole_eq_some {cs : Fin r → Patricia r V} {d : Fin r} (alone : sole cs = some d) :
    (cs d).isEmpty = false ∧ ∀ e, (cs e).isEmpty = false → e = d := by
  unfold sole at alone
  split at alone
  case h_1 e ways =>
    cases alone
    have member : ∀ e, (cs e).isEmpty = false ↔ e ∈ [d] := fun e => by rw [← ways, mem_ways]
    exact ⟨(member d).mpr (by simp), fun e full => by simpa using (member e).mp full⟩
  · cases alone

theorem sole_eq_none {cs : Fin r → Patricia r V} (none : sole cs = none) {d : Fin r}
    (full : (cs d).isEmpty = false) :
    ∃ a b, a ≠ b ∧ (cs a).isEmpty = false ∧ (cs b).isEmpty = false := by
  have member : ∀ e, (cs e).isEmpty = false ↔
      e ∈ (List.finRange r).filter fun d => !(cs d).isEmpty :=
    fun e => mem_ways.symm
  have once : ((List.finRange r).filter fun d => !(cs d).isEmpty).Nodup :=
    (List.nodup_finRange r).filter _
  unfold sole at none
  generalize (List.finRange r).filter (fun d => !(cs d).isEmpty) = ways at none member once
  match ways, none with
  | [], _ => exact absurd ((member d).mp full) (List.not_mem_nil)
  | a :: b :: rest, _ =>
      have differ : a ≠ b := fun same => (List.nodup_cons.mp once).1 (same ▸ List.mem_cons_self)
      exact ⟨a, b, differ, (member a).mpr (by simp), (member b).mpr (by simp)⟩

theorem find_collapse (cs : Fin r → Patricia r V) (s : List (Fin r)) :
    (collapse cs).find s = (branch cs).find s := by
  unfold collapse
  split
  case h_1 d alone =>
    rw [find_graft]
    cases s with
    | nil => simp [find]
    | cons e s =>
        by_cases here : e = d
        · subst here
          exact find_ext_append [e] s (cs e)
        · have bare : cs e = empty := by
            cases shape : cs e with
            | empty => rfl
            | _ => exact absurd ((sole_eq_some alone).2 e (by rw [shape]; rfl)) here
          have off : ¬ [d] <+: e :: s := fun start => here (List.cons_prefix_cons.mp start).1.symm
          rw [find, if_neg off, find, bare]
          rfl
  · rfl

theorem canonical_collapse {cs : Fin r → Patricia r V} {d : Fin r} (full : (cs d).isEmpty = false)
    (each : ∀ d, (cs d).Canonical) : (collapse cs).Canonical := by
  unfold collapse
  split
  case h_1 e alone => exact canonical_graft (List.cons_ne_nil e []) (sole_eq_some alone).1 (each e)
  case h_2 none => exact ⟨sole_eq_none none full, each⟩

theorem collapse_full (cs : Fin r → Patricia r V) : (collapse cs).isEmpty = false := by
  unfold collapse
  split
  · exact graft_full _ _
  · rfl

theorem remove_eq_none {n : Patricia r V} {k : List (Fin r)} : n.remove k = none ↔
    n.find k = none := by
  induction n generalizing k with
  | empty => simp [remove]
  | leaf l v => by_cases same : l = k <;> simp [remove, find, same, eq_comm]
  | ext l c ih => by_cases start : l <+: k <;> simp [remove, find, start, ih]
  | branch cs ih =>
      cases k with
      | nil => simp [remove, find]
      | cons d k => simp [remove, find, ih]

theorem remove_spec {n m : Patricia r V} {k : List (Fin r)} (canonical : n.Canonical)
    (removed : n.remove k = some m) :
    m.Canonical ∧ m.find = Function.update n.find k none := by
  induction n generalizing k m with
  | empty => cases removed
  | leaf l v =>
      rcases Option.ite_none_right_eq_some.mp removed with ⟨rfl, same⟩
      cases same
      refine ⟨trivial, funext fun s => ?_⟩
      by_cases here : s = l <;> simp [find, Function.update_apply, here]
  | ext l c ih =>
      rcases Option.ite_none_right_eq_some.mp removed with ⟨⟨k', rfl⟩, rest⟩
      rw [List.drop_left] at rest
      rcases Option.map_eq_some_iff.mp rest with ⟨c', inner, rfl⟩
      rcases ih canonical.2.2 inner with ⟨wf, found⟩
      have full : c'.isEmpty = false := by
        have shape := canonical.2.1
        cases c with
        | branch cs =>
            cases k' with
            | nil => cases inner
            | cons d k =>
                rcases Option.map_eq_some_iff.mp inner with ⟨c, -, rfl⟩
                exact collapse_full _
        | _ => cases shape
      refine ⟨canonical_graft canonical.1 full wf, funext fun s => ?_⟩
      rw [find_graft]
      by_cases below : l <+: s
      · rcases below with ⟨t, rfl⟩
        rw [find_ext_append, found, Function.update_apply, Function.update_apply, find_ext_append]
        simp
      · have distinct : s ≠ l ++ k' := fun same => below (same ▸ List.prefix_append l k')
        rw [Function.update_of_ne distinct, find, find, if_neg below, if_neg below]
  | branch cs ih =>
      cases k with
      | nil => cases removed
      | cons d k =>
          rcases Option.map_eq_some_iff.mp removed with ⟨c', inner, rfl⟩
          rcases ih d (canonical.2 d) inner with ⟨wf, found⟩
          rcases canonical.1 with ⟨a, b, differ, left, right⟩
          have other : ∃ e, (Function.update cs d c' e).isEmpty = false := by
            by_cases same : a = d
            · exact ⟨b, by rw [Function.update_of_ne (same ▸ differ.symm)]; exact right⟩
            · exact ⟨a, by rw [Function.update_of_ne same]; exact left⟩
          rcases other with ⟨e, full⟩
          refine ⟨canonical_collapse full fun e => ?_, funext fun s => ?_⟩
          · rw [Function.update_apply]
            split
            · exact wf
            · exact canonical.2 e
          · rw [find_collapse]
            cases s with
            | nil => simp [find]
            | cons e s =>
                rw [find, Function.update_apply, Function.update_apply]
                by_cases here : e = d
                · subst here
                  rw [if_pos rfl, found, Function.update_apply]
                  simp [find]
                · have distinct : e :: s ≠ d :: k := fun same => here (List.cons.inj same).1
                  rw [if_neg here, if_neg distinct]
                  rfl

end Patricia

end UtispaceChain.Lib
