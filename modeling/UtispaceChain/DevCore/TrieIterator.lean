import Mathlib.Algebra.Order.BigOperators.Group.List
import UtispaceChain.DevCore.TrieDB
import UtispaceChain.Lib.PatriciaOrder

/-! The iterator of `GenericTrieDB`: from `begin` and from `lower_bound` to `end`. -/

namespace UtispaceChain

namespace Trie

open Lib Lib.Patricia

namespace NibbleSlice

variable {s k : NibbleSlice}

theorem fits_cleared : (⟨[], 0⟩ : NibbleSlice).Fits := ⟨by decide, le_rfl⟩

theorem Fits.size_eq_zero (fits : s.Fits) : s.size = 0 ↔ s.toList = [] := by
  rw [fits.size]
  exact List.length_eq_zero_iff

theorem Fits.uncons {d : Nibble} {left : List Nibble} (fits : s.Fits)
    (split : s.toList = d :: left) :
    s.get 0 = some d ∧ (s.mid 1).Fits ∧ (s.mid 1).toList = left := by
  have inside : 1 ≤ s.toList.length := by
    rw [split, List.length_cons]
    exact Nat.le_add_left 1 _
  rcases fits.mid inside with ⟨fitsLeft, toListLeft⟩
  refine ⟨?_, fitsLeft, ?_⟩
  · rw [fits.get inside, split]
    rfl
  · rw [toListLeft, split, List.drop_one, List.tail_cons]

theorem Fits.earlierFrom (fits : s.Fits) (fitsPart : k.Fits) (left i : Nat)
    (enough : k.toList.length ≤ i + left) :
    s.earlierFrom k left i = some (decide (s.toList.drop i < k.toList.drop i)) := by
  have ends : ∀ i, ¬(i < k.toList.length ∧ i < s.toList.length) →
      (i < k.toList.length ↔ s.toList.drop i < k.toList.drop i) := by
    intro i out
    by_cases inside : i < k.toList.length
    · have spent : s.toList.drop i = [] := List.drop_eq_nil_of_le (by omega)
      rw [spent, List.drop_eq_getElem_cons inside]
      exact iff_of_true inside (List.nil_lt_cons _ _)
    · have spent : k.toList.drop i = [] := List.drop_eq_nil_of_le (by omega)
      rw [spent]
      exact iff_of_false inside (List.not_lt_nil _)
  induction left generalizing i with
  | zero =>
      rw [NibbleSlice.earlierFrom, fitsPart.size]
      exact congrArg some (decide_eq_decide.mpr (ends i (by omega)))
  | succ left ih =>
      rw [NibbleSlice.earlierFrom, fitsPart.size, fits.size]
      by_cases inside : i < k.toList.length ∧ i < s.toList.length
      · rw [if_pos inside, fits.get inside.2, fitsPart.get inside.1,
          List.getElem?_eq_getElem inside.2, List.getElem?_eq_getElem inside.1, Option.bind_some,
          Option.bind_some, List.drop_eq_getElem_cons inside.2, List.drop_eq_getElem_cons inside.1]
        by_cases less : s.toList[i] < k.toList[i]
        · rw [if_pos less, decide_eq_true (List.cons_lt_cons_iff.mpr (.inl less))]
        · rw [if_neg less]
          by_cases more : k.toList[i] < s.toList[i]
          · rw [if_pos more]
            refine congrArg some (decide_eq_false fun order => ?_).symm
            rcases List.cons_lt_cons_iff.mp order with first | same
            · exact less first
            · exact more.ne same.1.symm
          · have same : s.toList[i] = k.toList[i] := le_antisymm (not_lt.mp more) (not_lt.mp less)
            rw [if_neg more, ih (i + 1) (by omega)]
            refine congrArg some (decide_eq_decide.mpr ?_)
            rw [List.cons_lt_cons_iff]
            exact ⟨fun rest => .inr ⟨same, rest⟩, fun either => (either.resolve_left less).2⟩
      · rw [if_neg inside]
        exact congrArg some (decide_eq_decide.mpr (ends i inside))

theorem Fits.isEarlierThan (fits : s.Fits) (fitsPart : k.Fits) :
    s.isEarlierThan k = some (decide (s.toList < k.toList)) := by
  rw [NibbleSlice.isEarlierThan, fitsPart.size]
  exact fits.earlierFrom fitsPart _ 0 (by omega)

inductive Remains (s k : NibbleSlice) : Option NibbleSlice → Prop
  | behind {rest : NibbleSlice} (fits : rest.Fits) (split : s.toList =
    k.toList ++ rest.toList) : Remains s k (some rest)
  | earlier {rest : NibbleSlice} (fits : rest.Fits) (cleared : rest.toList = [])
      (apart : ¬k.toList <+: s.toList)
      (order : s.toList < k.toList) : Remains s k (some rest)
  | later (apart : ¬k.toList <+: s.toList) (order : ¬s.toList < k.toList) : Remains s k none

theorem Fits.bounded (fits : s.Fits) (fitsPart : k.Fits) : ∃ rest, s.bounded k = some rest ∧
    Remains s k rest := by
  unfold NibbleSlice.bounded
  rw [fits.contains fitsPart, fits.isEarlierThan fitsPart, Option.map_some]
  by_cases start : k.toList <+: s.toList
  · have inside := start.length_le
    rw [if_pos (decide_eq_true start), fits.size, fitsPart.size, min_eq_right inside]
    rcases fits.mid inside with ⟨fits', rest⟩
    refine ⟨_, rfl, .behind fits' ?_⟩
    rw [rest]
    exact List.prefix_iff_eq_append.mp start |>.symm
  · rw [if_neg fun same => start (of_decide_eq_true same)]
    by_cases order : s.toList < k.toList
    · rw [if_pos (decide_eq_true order)]
      exact ⟨_, rfl, .earlier (fits_cleared.mid (Nat.min_le_left _ _)).1
        ((fits_cleared.mid (Nat.min_le_left _ _)).2.trans List.drop_nil) start order⟩
    · rw [if_neg fun same => order (of_decide_eq_true same)]
      exact ⟨_, rfl, .later start order⟩

end NibbleSlice

/-! What is still to come of a trail, and how many turns it takes at most -/

def weight : Patricia 16 Bytes → Nat
  | .empty => 1
  | .leaf _ _ => 2
  | .ext _ c => weight c + 1
  | .branch cs => ((List.finRange 16).map fun d => weight (cs d) + 1).sum + 2

def laterWeight (cs : Fin 16 → Patricia 16 Bytes) (j : Nat) : Nat :=
  (((List.finRange 16).drop j).map fun d => weight (cs d) + 1).sum

theorem laterWeight_cons (cs : Fin 16 → Patricia 16 Bytes) {j : Nat} (inside : j < 16) :
    laterWeight cs j = weight (cs ⟨j, inside⟩) + 1 + laterWeight cs (j + 1) := by
  have way : j < (List.finRange 16).length := by rw [List.length_finRange]; exact inside
  rw [laterWeight, List.drop_eq_getElem_cons way, List.map_cons, List.sum_cons,
    List.getElem_finRange]
  rfl

theorem laterWeight_le (cs : Fin 16 → Patricia 16 Bytes) {i j : Nat} (order : i ≤ j) :
    laterWeight cs j ≤ laterWeight cs i := by
  apply List.Sublist.sum_le_sum
  · exact (List.drop_sublist_drop_left (List.finRange 16) order).map fun d => weight (cs d) + 1
  · exact fun _ _ => Nat.zero_le _

theorem weight_child (cs : Fin 16 → Patricia 16 Bytes) (d : Fin 16) :
    weight (cs d) + laterWeight cs (d + 1) + 1 < weight (.branch cs) := by
  have whole : weight (.branch cs) = laterWeight cs 0 + 2 := rfl
  have less := laterWeight_le cs (Nat.zero_le d.val)
  rw [laterWeight_cons cs d.isLt, Fin.eta] at less
  omega

theorem ReadsBranch.entries_eq_nil {node : H256 → Bytes} {cs : Fin 16 → Patricia 16 Bytes}
    {rlp : Bytes} {entries : Fin 16 → Bytes} (reads : ReadsBranch node cs rlp entries) {d : Fin 16}
    (empty : Rlp.isEmpty (entries d) = true) : (cs d).entries = [] := by
  have nothing : (cs d).isEmpty = true := by
    rcases reads.child d with ⟨nothing, -⟩ | ⟨other, -⟩
    · exact nothing
    · rw [empty] at other
      cases other
  cases shape : cs d with
  | empty => rfl
  | leaf k v =>
      rw [shape] at nothing
      cases nothing
  | ext k c =>
      rw [shape] at nothing
      cases nothing
  | branch below =>
      rw [shape] at nothing
      cases nothing

section Trails

variable (node : H256 → Bytes) (m : Nat)

/-- What one node of a trail adds; all strings of the trie have the length `m`. -/
inductive Frame : IterNode → List (List Nibble × Bytes) → Nat → Prop
  | entering {t : Patricia 16 Bytes} {rlp : Bytes} {pre : List Nibble} {rest : Nat}
  (stored : Stored node t rlp)
      (depth : t.Depth rest) (total : pre.length + rest = m) :
      Frame ⟨rlp, hexPrefix false pre, 255⟩ (t.entries.map (under pre)) (weight t)
  | inside {cs : Fin 16 → Patricia 16 Bytes} {rlp : Bytes} {pre : List Nibble} {rest : Nat}
      (d : Fin 16)
      (stored : Stored node (.branch cs) rlp) (depth : ∀ d, (cs d).Depth rest)
        (total : pre.length + 1 + rest = m) :
      Frame ⟨rlp, hexPrefix false pre, UInt8.ofNat d⟩ ((later cs (d + 1)).map (under pre))
        (laterWeight cs (d + 1) + 1)
  | visited {rlp key : Bytes} (construct : Rlp.construct rlp = some rlp) (size : nodeSize rlp =
      some (some 2)) :
      Frame ⟨rlp, key, 0⟩ [] 1

inductive Trail : List IterNode → List (List Nibble × Bytes) → Nat → Prop
  | nil : Trail [] [] 0
  | cons {b : IterNode} {trail : List IterNode} {es es' : List (List Nibble × Bytes)} {w w' : Nat}
      (frame : Frame node m b es w) (below : Trail trail es' w') : Trail (b :: trail)
      (es ++ es') (w + w')

/-- A trail with what is left of a key: the key is for the node that is entered. -/
inductive Bounded : NibbleSlice → List IterNode → List (List Nibble × Bytes) → Nat → Prop
  | free {k : NibbleSlice} {trail : List IterNode} {es : List (List Nibble × Bytes)} {w : Nat}
  (fits : k.Fits)
      (cleared : k.toList = []) (pending : Trail node m trail es w) : Bounded k trail es w
  | entering {k : NibbleSlice} {t : Patricia 16 Bytes} {rlp : Bytes} {pre : List Nibble}
      {rest : Nat}
      {trail : List IterNode} {es : List (List Nibble × Bytes)} {w : Nat} (fits : k.Fits)
        (stored : Stored node t rlp)
      (depth : t.Depth rest) (total : pre.length + rest = m) (below : Trail node m trail es w) :
      Bounded k (⟨rlp, hexPrefix false pre, 255⟩ :: trail)
        ((t.entriesFrom k.toList).map (under pre) ++ es) (weight t + w)

structure AtLeaf (b : IterNode) (s : List Nibble) (v : Bytes) : Prop where
  key : b.key = hexPrefix false s
  construct : Rlp.construct b.rlp = some b.rlp
  items : (Rlp.items b.rlp).map List.length = some 2
  value : (Rlp.item b.rlp 1).bind Rlp.payload = some v
  length : s.length = m

/-- The iterator where `next` returns: at the first of the entries, with the others to come. -/
inductive Reached (es : List (List Nibble × Bytes)) (w : Nat) : Iterator → Prop
  | ended (none : es = []) : Reached es w ⟨false, []⟩
  | found {b : IterNode} {trail : List IterNode} {s : List Nibble} {v : Bytes}
      {es' : List (List Nibble × Bytes)} {w' : Nat}
      (first : es = (s, v) :: es') (leaf : AtLeaf m b s v)
        (pending : Trail node m (b :: trail) es' w') (less : w' ≤ w) :
      Reached es w ⟨true, b :: trail⟩

/-- What a turn makes of the entries that are still to come. -/
inductive Step (es : List (List Nibble × Bytes)) (w : Nat) : NibbleSlice × Turn → Prop
  | again {k : NibbleSlice} {trail : List IterNode} {w' : Nat}
  (pending : Bounded node m k trail es w') (less : w' < w) :
      Step es w (k, .again trail)
  | done {k : NibbleSlice} {it : Iterator} (reached : Reached node m es w it) : Step es w
      (k, .done it)

variable {node m} {es : List (List Nibble × Bytes)} {w w' : Nat}

theorem Reached.mono {it : Iterator} (reached : Reached node m es w it) (more : w ≤ w') :
    Reached node m es w' it := by
  cases reached with
  | ended none => exact .ended none
  | found first leaf pending less => exact .found first leaf pending (less.trans more)

theorem Step.mono {r : NibbleSlice × Turn} (step : Step node m es w r) (more : w ≤ w') :
    Step node m es w' r := by
  cases step with
  | again pending less => exact .again pending (less.trans_le more)
  | done reached => exact .done (reached.mono more)

end Trails

/-! The loop over the children -/

def childAt (j : Nat) : UInt8 := if j = 16 then 17 else UInt8.ofNat j

theorem childAt_next (d : Nibble) (rlp key : Bytes) :
    IterNode.incrementChild ⟨rlp, key, UInt8.ofNat d⟩ = ⟨rlp, key, childAt (d + 1)⟩ := by
  have each : ∀ d : Nibble, (if UInt8.ofNat d = 16 then 0 else if UInt8.ofNat d = 15 then 17
    else UInt8.ofNat d + 1) =
      childAt (d + 1) := by decide
  exact congrArg (IterNode.mk rlp key) (each d)

theorem childAt_inside (d : Nibble) :
    childAt d = UInt8.ofNat d ∧ UInt8.ofNat d ≠ 17 ∧ UInt8.ofNat d ≠ 16 ∧ UInt8.ofNat d ≠ 255 ∧
      (UInt8.ofNat d.val).toNat = d.val := by
  revert d
  decide

section Scanning

variable {node : H256 → Bytes} {m w rest : Nat} {cs : Fin 16 → Patricia 16 Bytes} {rlp : Bytes}
    {pre : List Nibble} {trail : List IterNode} {es : List (List Nibble × Bytes)} {k : NibbleSlice}
    {entries : Fin 16 → Bytes}

theorem push_eq {entry child : Bytes} (d : Nibble) (refers : deref node entry = some child)
    (short : pre.length + 2 < 2 ^ 32) :
    push node true entry ⟨rlp, hexPrefix false pre, UInt8.ofNat d⟩ trail =
      some (⟨child, hexPrefix false (pre ++ [d]), 255⟩ :: ⟨rlp, hexPrefix false pre, UInt8.ofNat d⟩
        :: trail) := by
  rcases keyOfHex_hexPrefix false pre short with ⟨fits, toList⟩
  have fitsChild : (⟨[UInt8.ofNat d], 1⟩ : NibbleSlice).Fits := by
    constructor
    · change 2 * 1 < 2 ^ 32
      decide
    · exact Nat.le_succ 1
  have each : ∀ d : Nibble, (⟨[UInt8.ofNat d], 1⟩ : NibbleSlice).toList = [d] := by decide
  have one := each d
  rw [push, if_pos rfl, refers, Option.bind_some, fits.join fitsChild, toList, one]
  rfl

theorem scanFrom_child (left : Nat) (d : Nibble) (reads : ReadsBranch node cs rlp entries)
    (depth : ∀ d, (cs d).Depth rest) (full : Rlp.isEmpty (entries d) = false)
    (stored : Stored node (.branch cs) rlp) (total : pre.length + 1 + rest = m)
    (short : m + 2 < 2 ^ 32) (fits : k.Fits) (below : Trail node m trail es w) :
    ∃ trail', scanFrom node true rlp (left + 1) k ⟨rlp, hexPrefix false pre, UInt8.ofNat d⟩ trail =
      some (k, .again trail') ∧
      Bounded node m k trail'
        ((((cs d).entriesFrom k.toList).map (under (pre ++ [d]))) ++
          ((later cs (d + 1)).map (under pre) ++ es))
        (weight (cs d) + (laterWeight cs (d + 1) + 1 + w)) := by
  rcases childAt_inside d with ⟨-, exit, here, -, index⟩
  have there : ¬((cs d).isEmpty = true ∧ Rlp.isEmpty (entries d) = true) := by
    rintro ⟨-, other⟩
    rw [full] at other
    cases other
  rcases (reads.child d).resolve_left there with ⟨-, child, refers, inner⟩
  refine ⟨_, ?_, .entering fits inner (depth d) ?_ (.cons (.inside d stored depth total) below)⟩
  · rw [scanFrom, if_neg exit, index, reads.item, Option.bind_some, if_pos full, if_neg here,
      push_eq d refers (by omega)]
    rfl
  · rw [List.length_append, List.length_singleton]
    exact total

theorem scanFrom_free (left : Nat) {j : Nat} (reads : ReadsBranch node cs rlp entries)
    (depth : ∀ d, (cs d).Depth rest) (stored : Stored node (.branch cs) rlp)
    (total : pre.length + 1 + rest = m) (short : m + 2 < 2 ^ 32)
    (fits : k.Fits) (cleared : k.toList = []) (below : Trail node m trail es w) (within : j ≤ 16)
    (enough : 17 ≤ left + j) :
    ∃ r, scanFrom node true rlp left k ⟨rlp, hexPrefix false pre, childAt j⟩ trail = some r ∧
      Step node m ((later cs j).map (under pre) ++ es) (laterWeight cs j + 1 + w) r := by
  induction left generalizing j k with
  | zero => omega
  | succ left ih =>
      by_cases exit : j = 16
      · subst exit
        refine ⟨_, by rw [scanFrom]; exact if_pos rfl, ?_⟩
        rw [later_end]
        exact .again (.free NibbleSlice.fits_cleared rfl below) (by omega)
      · have inside : j < 16 := by omega
        rcases childAt_inside ⟨j, inside⟩ with ⟨at_, out, here, -, index⟩
        have position : childAt j = UInt8.ofNat (⟨j, inside⟩ : Nibble) := at_
        rw [position, later_cons cs inside, laterWeight_cons cs inside, List.map_append, map_under,
          List.append_assoc]
        cases full : Rlp.isEmpty (entries ⟨j, inside⟩) with
        | false =>
            rcases scanFrom_child left ⟨j, inside⟩ reads depth full stored total short fits below
              with
              ⟨trail', done, pending⟩
            rw [cleared, entriesFrom_nil] at pending
            refine ⟨_, done, .again pending ?_⟩
            change weight (cs ⟨j, inside⟩) + (laterWeight cs (j + 1) + 1 + w) < _
            omega
        | true =>
            have none := reads.entries_eq_nil full
            rcases ih (j := j + 1) NibbleSlice.fits_cleared rfl (by omega) (by omega) with
              ⟨r, done, step⟩
            refine ⟨r, ?_, ?_⟩
            · rw [scanFrom, if_neg out, index, reads.item, Option.bind_some, full,
                if_neg (by decide), childAt_next]
              exact done
            · rw [none, List.map_nil, List.nil_append]
              exact step.mono (by omega)

theorem scanFrom_bounded (d : Nibble) (reads : ReadsBranch node cs rlp entries)
    (depth : ∀ d, (cs d).Depth rest) (stored : Stored node (.branch cs) rlp)
    (total : pre.length + 1 + rest = m) (short : m + 2 < 2 ^ 32) (fits : k.Fits)
    (below : Trail node m trail es w) :
    ∃ r, scanFrom node true rlp 18 k ⟨rlp, hexPrefix false pre, UInt8.ofNat d⟩ trail = some r ∧
      Step node m (((branch cs).entriesFrom (d :: k.toList)).map (under pre) ++ es)
        (weight (branch cs) + w) r := by
  have part := weight_child cs d
  rw [entriesFrom_branch, List.map_append, map_under, List.append_assoc]
  cases full : Rlp.isEmpty (entries d) with
  | false =>
      rcases scanFrom_child 17 d reads depth full stored total short fits below with
        ⟨trail', done, pending⟩
      exact ⟨_, done, .again pending (by omega)⟩
  | true =>
      have none := reads.entries_eq_nil full
      rcases childAt_inside d with ⟨-, out, -, -, index⟩
      rcases scanFrom_free 17 (j := d + 1) reads depth stored total short
        NibbleSlice.fits_cleared rfl below
        (by omega) (by omega) with ⟨r, done, step⟩
      refine ⟨r, ?_, ?_⟩
      · rw [scanFrom, if_neg out, index, reads.item, Option.bind_some, full, if_neg (by decide),
          childAt_next]
        exact done
      · have nothing : (cs d).entriesFrom k.toList = [] := by
          rw [entriesFrom, none]
          rfl
        rw [nothing, List.map_nil, List.nil_append]
        exact step.mono (by omega)

theorem scanFrom_here (reads : ReadsBranch node cs rlp entries) (depth : ∀ d, (cs d).Depth rest)
    (stored : Stored node (.branch cs) rlp) (total : pre.length + 1 + rest = m)
    (short : m + 2 < 2 ^ 32) (below : Trail node m trail es w) :
    ∃ r, scanFrom node true rlp 18 k ⟨rlp, hexPrefix false pre, 16⟩ trail = some r ∧
      Step node m ((branch cs).entries.map (under pre) ++ es) (weight (branch cs) + w) r := by
  rcases scanFrom_free 17 (j := 0) reads depth stored total short NibbleSlice.fits_cleared rfl below
    (by omega) (by omega) with ⟨r, done, step⟩
  refine ⟨r, ?_, ?_⟩
  · have value : Rlp.item rlp (UInt8.toNat 16) = some [0x80] := reads.value
    have inside : ¬(16 : UInt8) = 17 := by decide
    rw [scanFrom, if_neg inside, value, Option.bind_some, if_neg (by decide)]
    exact done
  · have whole : weight (branch cs) = laterWeight cs 0 + 2 := rfl
    exact step.mono (by omega)

end Scanning

/-! One turn of `next`, by the node on top of the trail -/

section Turns

variable {node : H256 → Bytes} {m w rest : Nat} {rlp : Bytes} {pre : List Nibble}
    {trail : List IterNode} {es : List (List Nibble × Bytes)} {k : NibbleSlice}

theorem turnFrom_empty (stored : Stored node .empty rlp) (below : Trail node m trail es w) :
    ∃ r, turnFrom node true k (⟨rlp, hexPrefix false pre, 255⟩ :: trail) = some r ∧
      Step node m (((Patricia.empty : Patricia 16 Bytes).entriesFrom k.toList).map (under pre) ++
        es) (weight .empty + w) r := by
  cases stored
  refine ⟨(⟨[], 0⟩, .again trail), rfl, .again (.free NibbleSlice.fits_cleared rfl below) ?_⟩
  exact Nat.lt_add_of_pos_left Nat.one_pos

theorem turnFrom_leaf {key : List Nibble} {v : Bytes} (stored : Stored node (.leaf key v) rlp)
    (total : pre.length + key.length = m) (short : m + 2 < 2 ^ 32) (fits : k.Fits)
    (below : Trail node m trail es w) :
    ∃ r, turnFrom node true k (⟨rlp, hexPrefix false pre, 255⟩ :: trail) = some r ∧
      Step node m (((Patricia.leaf key v).entriesFrom k.toList).map (under pre) ++ es)
        (weight (.leaf key v) + w) r := by
  rcases stored.leaf (by omega) with ⟨part, reads, payload⟩
  rcases keyOfHex_hexPrefix false pre (by omega) with ⟨fitsPre, toListPre⟩
  have join : hexPrefixJoin (keyOfHex (hexPrefix false pre)) part false =
      some (hexPrefix false (pre ++ key)) := by
    rw [fitsPre.join reads.fits, toListPre, reads.toList]
  have start : turnFrom node true k (⟨rlp, hexPrefix false pre, 255⟩ :: trail) =
    (k.bounded part).bind fun left =>
      left.elim (some (⟨[], 0⟩, .again trail)) fun k =>
        if k.size = 0 then some (k, .done ⟨true, ⟨rlp, hexPrefix false (pre ++ key), 0⟩ :: trail⟩)
        else some (⟨[], 0⟩, .again trail) := by
    have shape : ¬(some 2 : Option Nat) = none := Option.some_ne_none 2
    simp only [turnFrom, reads.construct, reads.full, reads.size, reads.keyOf, join, reads.isLeaf,
      shape, Option.bind_some, if_true, if_false, Bool.false_eq_true]
    refine Option.bind_congr fun left _ => ?_
    cases left with
    | none => rfl
    | some k => rfl
  have found : ∀ left : NibbleSlice, left.Fits → left.toList = [] →
      (Patricia.leaf key v).entriesFrom k.toList = [(key, v)] →
      Step node m (((Patricia.leaf key v).entriesFrom k.toList).map (under pre) ++ es)
        (weight (.leaf key v) + w)
        (left, .done ⟨true, ⟨rlp, hexPrefix false (pre ++ key), 0⟩ :: trail⟩) := by
    intro left fits cleared here
    rw [here]
    refine .done (.found rfl ⟨rfl, reads.construct, reads.items, ?_, ?_⟩
      (.cons (.visited reads.construct reads.size) below) ?_)
    · rw [reads.item]
      exact payload
    · rw [List.length_append]
      exact total
    · change 1 + w ≤ 2 + w
      omega
  have passed : (Patricia.leaf key v).entriesFrom k.toList = [] →
      Step node m (((Patricia.leaf key v).entriesFrom k.toList).map (under pre) ++ es)
        (weight (.leaf key v) + w)
        (⟨[], 0⟩, .again trail) := by
    intro none
    rw [none]
    refine .again (.free NibbleSlice.fits_cleared rfl below) ?_
    change w < 2 + w
    omega
  have all : ∀ e ∈ (Patricia.leaf key v).entries, key <+: e.1 := by
    intro e member
    rw [List.mem_singleton.mp member]
  rcases fits.bounded reads.fits with ⟨left, bounded, remains⟩
  rw [start, bounded, Option.bind_some]
  cases remains with
  | @behind left fitsLeft split =>
      rw [reads.toList] at split
      by_cases spent : left.size = 0
      · have cleared := fitsLeft.size_eq_zero.mp spent
        refine ⟨_, if_pos spent, found left fitsLeft cleared ?_⟩
        rw [split, cleared, List.append_nil]
        refine List.filter_eq_self.mpr fun e member => ?_
        rw [List.mem_singleton.mp member]
        exact decide_eq_true (lt_irrefl key)
      · refine ⟨_, if_neg spent, passed ?_⟩
        refine List.filter_eq_nil_iff.mpr fun e member => ?_
        have less : key ++ [] < key ++ left.toList := by
          rcases List.exists_cons_of_ne_nil fun none => spent (fitsLeft.size_eq_zero.mpr none) with
            ⟨d, more, shape⟩
          rw [shape]
          exact (append_lt_append_iff key [] _).mpr (List.nil_lt_cons d more)
        rw [List.append_nil] at less
        rw [List.mem_singleton.mp member, split]
        exact fun kept => of_decide_eq_true kept less
  | @earlier left fitsLeft cleared apart order =>
      rw [reads.toList] at apart order
      refine ⟨_, if_pos (fitsLeft.size_eq_zero.mpr cleared), found left fitsLeft cleared ?_⟩
      exact entriesFrom_earlier all order
  | later apart order =>
      rw [reads.toList] at apart order
      exact ⟨_, rfl, passed (entriesFrom_behind all apart order)⟩

theorem turnFrom_ext {key : List Nibble} {c : Patricia 16 Bytes}
    (stored : Stored node (.ext key c) rlp) (depth : c.Depth rest)
    (total : pre.length + (key.length + rest) = m) (short : m + 2 < 2 ^ 32) (fits : k.Fits)
    (below : Trail node m trail es w) :
    ∃ r, turnFrom node true k (⟨rlp, hexPrefix false pre, 255⟩ :: trail) = some r ∧
      Step node m (((Patricia.ext key c).entriesFrom k.toList).map (under pre) ++ es)
        (weight (.ext key c) + w) r := by
  rcases stored.ext (by omega) with ⟨part, entry, child, reads, refers, inner⟩
  rcases keyOfHex_hexPrefix false pre (by omega) with ⟨fitsPre, toListPre⟩
  have join : hexPrefixJoin (keyOfHex (hexPrefix false pre)) part false =
      some (hexPrefix false (pre ++ key)) := by
    rw [fitsPre.join reads.fits, toListPre, reads.toList]
  have start : turnFrom node true k (⟨rlp, hexPrefix false pre, 255⟩ :: trail) =
    (k.bounded part).bind fun left =>
      left.elim (some (⟨[], 0⟩, .again trail)) fun k =>
        some (k, .again (⟨child, hexPrefix false (pre ++ key), 255⟩ :: trail)) := by
    have shape : ¬(some 2 : Option Nat) = none := Option.some_ne_none 2
    simp only [turnFrom, reads.construct, reads.full, reads.size, reads.keyOf, join, reads.isLeaf,
      reads.item, refers, extend, shape, Option.bind_some, Option.map_some, if_true, if_false,
      Bool.false_eq_true]
    refine Option.bind_congr fun left _ => ?_
    cases left with
    | none => rfl
    | some k => rfl
  have entered : ∀ left : NibbleSlice, left.Fits →
      (Patricia.ext key c).entriesFrom k.toList = (c.entriesFrom left.toList).map (under key) →
      Step node m (((Patricia.ext key c).entriesFrom k.toList).map (under pre) ++ es)
        (weight (.ext key c) + w)
        (left, .again (⟨child, hexPrefix false (pre ++ key), 255⟩ :: trail)) := by
    intro left fits here
    rw [here, map_under]
    refine .again (.entering fits inner depth ?_ below) ?_
    · rw [List.length_append, Nat.add_assoc]
      exact total
    · change weight c + w < weight c + 1 + w
      omega
  have all : ∀ e ∈ (Patricia.ext key c).entries, key <+: e.1 := by
    intro e member
    rcases List.mem_map.mp member with ⟨e', -, rfl⟩
    exact List.prefix_append key e'.1
  rcases fits.bounded reads.fits with ⟨left, bounded, remains⟩
  rw [start, bounded, Option.bind_some]
  cases remains with
  | @behind left fitsLeft split =>
      rw [reads.toList] at split
      refine ⟨_, rfl, entered left fitsLeft ?_⟩
      rw [split]
      exact entriesFrom_ext_append key left.toList c
  | @earlier left fitsLeft cleared apart order =>
      rw [reads.toList] at apart order
      refine ⟨_, rfl, entered left fitsLeft ?_⟩
      rw [cleared, entriesFrom_nil]
      exact entriesFrom_earlier all order
  | later apart order =>
      rw [reads.toList] at apart order
      refine ⟨_, rfl, ?_⟩
      rw [entriesFrom_behind all apart order]
      refine .again (.free NibbleSlice.fits_cleared rfl below) ?_
      change w < weight c + 1 + w
      omega

theorem turnFrom_branch {cs : Fin 16 → Patricia 16 Bytes} (stored : Stored node (.branch cs) rlp)
    (depth : ∀ d, (cs d).Depth rest) (total : pre.length + 1 + rest = m) (short : m + 2 < 2 ^ 32)
    (fits : k.Fits) (below : Trail node m trail es w) :
    ∃ r, turnFrom node true k (⟨rlp, hexPrefix false pre, 255⟩ :: trail) = some r ∧
      Step node m (((Patricia.branch cs).entriesFrom k.toList).map (under pre) ++ es)
        (weight (.branch cs) + w) r := by
  rcases stored.branch with ⟨entries, reads⟩
  have start : turnFrom node true k (⟨rlp, hexPrefix false pre, 255⟩ :: trail) =
      if k.size = 0 then scanFrom node true rlp 18 k ⟨rlp, hexPrefix false pre, 16⟩ trail
      else (k.get 0).bind fun d =>
        scanFrom node true rlp 18 (k.mid 1) ⟨rlp, hexPrefix false pre, UInt8.ofNat d⟩ trail := by
    have shape : ¬(some 17 : Option Nat) = none := Option.some_ne_none 17
    have pair : ¬(some 17 : Option Nat) = some 2 := by decide
    simp only [turnFrom, reads.construct, reads.full, reads.size, shape, pair, Option.bind_some,
      if_true, if_false, Bool.false_eq_true]
  rw [start]
  by_cases spent : k.size = 0
  · rw [if_pos spent, fits.size_eq_zero.mp spent, entriesFrom_nil]
    exact scanFrom_here reads depth stored total short below
  · rw [if_neg spent]
    rcases List.exists_cons_of_ne_nil fun none => spent (fits.size_eq_zero.mpr none) with
      ⟨d, left, split⟩
    rcases fits.uncons split with ⟨first, fitsLeft, toListLeft⟩
    rw [first, Option.bind_some, split, ← toListLeft]
    exact scanFrom_bounded d reads depth stored total short fitsLeft below

theorem turnFrom_entering {t : Patricia 16 Bytes} (stored : Stored node t rlp)
    (depth : t.Depth rest) (total : pre.length + rest = m) (short : m + 2 < 2 ^ 32) (fits : k.Fits)
    (below : Trail node m trail es w) :
    ∃ r, turnFrom node true k (⟨rlp, hexPrefix false pre, 255⟩ :: trail) = some r ∧
      Step node m ((t.entriesFrom k.toList).map (under pre) ++ es) (weight t + w) r := by
  cases t with
  | empty => exact turnFrom_empty stored below
  | leaf key v =>
      cases depth
      exact turnFrom_leaf stored total short fits below
  | ext key c =>
      rcases depth with ⟨rest, rfl, inner⟩
      exact turnFrom_ext stored inner total short fits below
  | branch cs =>
      rcases depth with ⟨rest, rfl, inner⟩
      exact turnFrom_branch stored inner (by omega) short fits below

theorem turnFrom_step (state : Bounded node m k trail es w) (short : m + 2 < 2 ^ 32) :
    ∃ r, turnFrom node true k trail = some r ∧ Step node m es w r := by
  cases state with
  | entering fits stored depth total below =>
      exact turnFrom_entering stored depth total short fits below
  | free fits cleared pending =>
      cases pending with
      | nil => exact ⟨_, rfl, .done (.ended rfl)⟩
      | cons frame below =>
          cases frame with
          | @entering t rlp pre rest stored depth total =>
              have step := turnFrom_entering (k := k) stored depth total short fits below
              rw [cleared, entriesFrom_nil] at step
              exact step
          | @inside cs rlp pre rest d stored depth total =>
              rcases stored.branch with ⟨entries, reads⟩
              rcases childAt_inside d with ⟨-, -, -, entered, -⟩
              rcases scanFrom_free 18 (j := d + 1) reads depth stored total short fits cleared
                below (by omega)
                (by omega) with ⟨r, done, step⟩
              refine ⟨r, ?_, step⟩
              rw [turnFrom, reads.construct, Option.bind_some, if_neg entered, reads.size,
                Option.bind_some, if_pos rfl, childAt_next]
              exact done
          | visited construct size =>
              have entered : ¬(0 : UInt8) = 255 := by decide
              have pair : ¬(some 2 : Option Nat) = some 17 := by decide
              refine ⟨(⟨[], 0⟩, .again _), ?_,
                .again (.free NibbleSlice.fits_cleared rfl below) (by omega)⟩
              rw [turnFrom, construct, Option.bind_some, if_neg entered, size, Option.bind_some,
                if_neg pair]

end Turns

/-! The loop of `next` -/

section Runs

variable {node : H256 → Bytes} {m : Nat}

theorem nextFrom_reaches {k : NibbleSlice} {trail : List IterNode} {es : List (List Nibble × Bytes)}
    {w turns : Nat} (state : Bounded node m k trail es w) (short : m + 2 < 2 ^ 32)
    (enough : w < turns) :
    ∃ it, nextFrom node true turns k trail = some it ∧ Reached node m es w it := by
  induction turns generalizing k trail w with
  | zero => omega
  | succ turns ih =>
      rcases turnFrom_step state short with ⟨r, done, step⟩
      cases step with
      | @again k trail w' pending less =>
          rcases ih pending (by omega) with ⟨it, rest, reached⟩
          refine ⟨it, ?_, reached.mono less.le⟩
          rw [nextFrom, done]
          exact rest
      | @done k it reached =>
          refine ⟨it, ?_, reached⟩
          rw [nextFrom, done]
          rfl

/-! Without a key the two loops are one -/

theorem shared_cleared (part : NibbleSlice) : (⟨[], 0⟩ : NibbleSlice).shared part = 0 := rfl

theorem bounded_cleared (part : NibbleSlice) :
    (⟨[], 0⟩ : NibbleSlice).bounded part = some (some ⟨[], 0⟩) := by
  have cut : (⟨[], 0⟩ : NibbleSlice).mid (min (⟨[], 0⟩ : NibbleSlice).size part.size) =
      ⟨[], 0⟩ := by
    have none : min (⟨[], 0⟩ : NibbleSlice).size part.size = 0 := Nat.zero_min _
    rw [none]
    rfl
  unfold NibbleSlice.bounded NibbleSlice.contains
  rw [shared_cleared, cut]
  by_cases spent : part.size = 0
  · rw [if_pos (decide_eq_true spent.symm)]
  · have earlier : (⟨[], 0⟩ : NibbleSlice).isEarlierThan part = some true := by
      rcases Nat.exists_eq_succ_of_ne_zero spent with ⟨left, size⟩
      have out : ¬(0 < part.size ∧ 0 < (⟨[], 0⟩ : NibbleSlice).size) :=
        fun both => absurd both.2 (by decide)
      rw [NibbleSlice.isEarlierThan, size, NibbleSlice.earlierFrom, if_neg out, size]
      exact congrArg some (decide_eq_true (Nat.succ_pos left))
    rw [if_neg fun same => spent (of_decide_eq_true same).symm, earlier]
    rfl

theorem scanFrom_cleared (that : Bool) (rlp : Bytes) (left : Nat) (b : IterNode)
    (trail : List IterNode) :
    scanFrom node that rlp left ⟨[], 0⟩ b trail =
      (scan node that rlp left b trail).map (Prod.mk ⟨[], 0⟩) := by
  induction left generalizing b with
  | zero => rfl
  | succ left ih =>
      rw [scanFrom, scan]
      by_cases exit : b.child = 17
      · rw [if_pos exit, if_pos exit]
        rfl
      · rw [if_neg exit, if_neg exit]
        cases Rlp.item rlp b.child.toNat with
        | none => rfl
        | some n =>
            rw [Option.bind_some, Option.bind_some]
            by_cases full : Rlp.isEmpty n = false
            · rw [if_pos full, if_pos full]
              by_cases here : b.child = 16
              · rw [if_pos here, if_pos here]
                rfl
              · rw [if_neg here, if_neg here, Option.map_map]
                rfl
            · rw [if_neg full, if_neg full]
              exact ih b.incrementChild

theorem turnFrom_cleared (that : Bool) (trail : List IterNode) :
    turnFrom node that ⟨[], 0⟩ trail = (turn node that trail).map (Prod.mk ⟨[], 0⟩) := by
  have spent : (⟨[], 0⟩ : NibbleSlice).size = 0 := rfl
  cases trail with
  | nil => rfl
  | cons b trail =>
      rw [turnFrom, turn, Option.map_bind]
      refine Option.bind_congr fun rlp _ => ?_
      simp only [Function.comp_apply, spent, bounded_cleared, scanFrom_cleared, if_true,
        Option.bind_some]
      by_cases entering : b.child = 255
      · rw [if_pos entering, if_pos entering]
        by_cases empty : Rlp.isEmpty rlp = true
        · rw [if_pos empty, if_pos empty]
          rfl
        · rw [if_neg empty, if_neg empty, Option.map_bind]
          refine Option.bind_congr fun size _ => ?_
          rw [Function.comp_apply]
          by_cases other : size = none
          · rw [if_pos other, if_pos other]
            rfl
          · rw [if_neg other, if_neg other]
            by_cases pair : size = some 2
            · rw [if_pos pair, if_pos pair]
              simp only [Option.map_bind]
              refine Option.bind_congr fun part _ => ?_
              simp only [Function.comp_apply, Option.map_bind]
              refine Option.bind_congr fun key _ => Option.bind_congr fun leaf _ => ?_
              by_cases last : leaf = true
              · rw [if_pos last, if_pos last]
                rfl
              · rw [if_neg last, if_neg last, Option.map_map]
                rfl
            · rw [if_neg pair, if_neg pair]
      · rw [if_neg entering, if_neg entering, Option.map_bind]
        refine Option.bind_congr fun size _ => ?_
        rw [Function.comp_apply]
        by_cases branch : size = some 17
        · rw [if_pos branch, if_pos branch]
        · rw [if_neg branch, if_neg branch]
          rfl

theorem nextFrom_cleared (that : Bool) (turns : Nat) (trail : List IterNode) :
    nextFrom node that turns ⟨[], 0⟩ trail = next node that turns trail := by
  induction turns generalizing trail with
  | zero => rfl
  | succ turns ih =>
      rw [nextFrom, next, turnFrom_cleared]
      cases turn node that trail with
      | none => rfl
      | some r =>
          cases r with
          | again trail => exact ih trail
          | done it => rfl

end Runs

end Trie

end UtispaceChain
