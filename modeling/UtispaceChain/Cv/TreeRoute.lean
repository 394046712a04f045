import UtispaceChain.Cv.CanonChain

/-! `treeRoute` with its flags: the path between two blocks, and where it is not the documented
one. -/

namespace UtispaceChain

open Lib

namespace ChainIndex

section Code

variable (bc : ChainIndex)

def climbWith (keep : Bool) : Nat → H256 → List H256 → List H256 × H256
  | 0, hash, passed => (passed, hash)
  | steps + 1, hash, passed =>
      climbWith keep steps (bc.parentOf hash) (if keep then passed ++ [hash] else passed)

/-- The loop over two blocks of one height; `none` where an assertion fails or the fuel runs out. -/
def meetWith (common pre post : Bool) : Nat → H256 → H256 → List H256 → List H256 →
    Option (List H256 × List H256 × H256)
  | 0, _, _, _, _ => none
  | fuel + 1, fromHash, toHash, ret, back =>
      let ret := if pre && (decide (fromHash ≠ toHash) || common) then ret ++ [fromHash] else ret
      let back := if post && (decide (fromHash ≠ toHash) || !pre && common) then back ++
        [toHash] else back
      if fromHash = toHash then some (ret, back, fromHash)
      else if fromHash = 0 ∨ toHash = 0 then none
      else meetWith common pre post fuel (bc.parentOf fromHash) (bc.parentOf toHash) ret back

def treeRouteWith (fuel : Nat) (fromHash toHash : H256) (common pre post : Bool) :
    Option (List H256 × H256 × Nat) :=
  if fromHash = 0 ∨ toHash = 0 then some ([], 0, 0)
  else
    let fn := bc.numberOf fromHash
    let tn := bc.numberOf toHash
    let first := bc.climbWith pre (fn - tn) fromHash []
    let second := bc.climbWith post (tn - fn) toHash []
    (bc.meetWith common pre post fuel first.2 second.2 first.1 second.1).map
      fun (ret, back, fromHash) =>
      let i := (ret.length - if common && !ret.isEmpty && !back.isEmpty then 1 else 0) % 2 ^ 32
      (ret ++ back.reverse, fromHash, i)

end Code

section Documented

variable (bc : ChainIndex)

def Ancestor (a h : H256) : Prop := ∃ steps ≤ bc.numberOf h, bc.parentOf^[steps] h = a

structure LowestCommon (a left right : H256) : Prop where
  first : bc.Ancestor a left
  second : bc.Ancestor a right
  lowest : ∀ c, bc.Ancestor c left → bc.Ancestor c right → bc.Ancestor c a

def branch (a h : H256) : List H256 :=
  (List.range (bc.numberOf h - bc.numberOf a)).map fun i => bc.parentOf^[i] h

structure IsRoute (left right : H256) (common pre post : Bool) (route : List H256 × H256 × Nat) :
    Prop where
  ancestor : bc.LowestCommon route.2.1 left right
  list : route.1 = (if pre then bc.branch route.2.1 left else []) ++
    (if common then [route.2.1] else []) ++
    if post then (bc.branch route.2.1 right).reverse else []
  index : route.2.2 = if pre then (bc.branch route.2.1 left).length else 0

end Documented

section Loops

variable (bc : ChainIndex)

theorem climbWith_eq (keep : Bool) (steps : Nat) (hash : H256) (passed : List H256) :
    bc.climbWith keep steps hash passed =
      (passed ++ (if keep then (List.range steps).map (fun i => bc.parentOf^[i] hash) else []),
        bc.parentOf^[steps] hash) := by
  induction steps generalizing hash passed with
  | zero => cases keep <;> simp [climbWith]
  | succ steps ih =>
      rw [climbWith, ih, List.range_succ_eq_map]
      cases keep <;> simp [Function.comp_def]

theorem kept_append (keep : Bool) (steps k : Nat) (h : H256) :
    (if keep then (List.range k).map (fun i => bc.parentOf^[i] h) else []) ++
        (if keep then (List.range steps).map (fun i => bc.parentOf^[i] (bc.parentOf^[k] h)) else [])
          =
      if keep then (List.range (steps + k)).map (fun i => bc.parentOf^[i] h) else [] := by
  cases keep with
  | false => rfl
  | true => rw [if_pos rfl, if_pos rfl, if_pos rfl, ancestors_append, Nat.add_comm]

variable {bc}

theorem meetWith_spec (common pre post : Bool) (steps extra : Nat) (left right : H256)
    (ret back : List H256) (joined : bc.parentOf^[steps] left = bc.parentOf^[steps] right)
    (apart : ∀ i < steps, bc.parentOf^[i] left ≠ bc.parentOf^[i] right)
    (nonzero : ∀ i < steps, bc.parentOf^[i] left ≠ 0 ∧ bc.parentOf^[i] right ≠ 0) :
    bc.meetWith common pre post (steps + 1 + extra) left right ret back =
      some (ret ++ (if pre then (List.range steps).map (fun i => bc.parentOf^[i] left) else []) ++
          (if pre && common then [bc.parentOf^[steps] left] else []),
        back ++ (if post then (List.range steps).map (fun i => bc.parentOf^[i] right) else []) ++
          (if post && !pre && common then [bc.parentOf^[steps] left] else []),
            bc.parentOf^[steps] left) := by
  induction steps generalizing left right ret back with
  | zero =>
      have same : left = right := joined
      rw [Nat.add_right_comm, meetWith, same]
      cases common <;> cases pre <;> cases post <;> simp
  | succ steps ih =>
      have differ : left ≠ right := apart 0 (Nat.succ_pos steps)
      have filled : ¬(left = 0 ∨ right = 0) := not_or.mpr (nonzero 0 (Nat.succ_pos steps))
      have further := ih (bc.parentOf left) (bc.parentOf right) (if pre then ret ++ [left] else ret)
        (if post then back ++ [right] else back) joined
        (fun i small => apart (i + 1) (Nat.succ_lt_succ small))
          (fun i small => nonzero (i + 1) (Nat.succ_lt_succ small))
      rw [Nat.add_right_comm, meetWith, if_neg differ, if_neg filled]
      simp only [decide_eq_true differ, Bool.true_or, Bool.and_true]
      rw [further, List.range_succ_eq_map]
      cases common <;> cases pre <;> cases post <;> simp [Function.comp_def]

end Loops

/-- The first block of two branches that is on both, by its distance from their ends. -/
structure Meeting (bc : ChainIndex) (left right : H256) (up down : Nat) : Prop where
  above : up ≤ bc.numberOf left
  below : down ≤ bc.numberOf right
  level : bc.numberOf left - up = bc.numberOf right - down
  joined : bc.parentOf^[up] left = bc.parentOf^[down] right
  first : ∀ i ≤ bc.numberOf left, ∀ j ≤ bc.numberOf right, bc.parentOf^[i] left =
    bc.parentOf^[j] right → up ≤ i

section Route

variable {bc : ChainIndex} (tree : bc.Tree) {left right : H256}
include tree

theorem Tree.ancestor_nonzero {h : H256} (known : (bc.blocks h).isSome = true) {steps : Nat}
    (bound : steps ≤ bc.numberOf h) : bc.parentOf^[steps] h ≠ 0 := by
  intro zero
  have stored := (tree.ancestor known steps bound).1
  rw [zero, tree.nonzero] at stored
  cases stored

theorem Tree.joined (knownLeft : (bc.blocks left).isSome = true)
    (knownRight : (bc.blocks right).isSome = true) :
    bc.parentOf^[bc.numberOf left] left = bc.parentOf^[bc.numberOf right] right :=
  (tree.ancestor_genesis knownLeft).trans (tree.ancestor_genesis knownRight).symm

theorem Tree.same_height (knownLeft : (bc.blocks left).isSome = true)
    (knownRight : (bc.blocks right).isSome = true) {i j : Nat} (upper : i ≤ bc.numberOf left)
    (lower : j ≤ bc.numberOf right) (same : bc.parentOf^[i] left = bc.parentOf^[j] right) :
    bc.numberOf left - i = bc.numberOf right - j := by
  calc
    _ = bc.numberOf (bc.parentOf^[i] left) := (tree.ancestor knownLeft i upper).2.symm
    _ = bc.numberOf (bc.parentOf^[j] right) := by rw [same]
    _ = _ := (tree.ancestor knownRight j lower).2

theorem Tree.treeRouteWith_spec (knownLeft : (bc.blocks left).isSome = true)
    (knownRight : (bc.blocks right).isSome = true) (common pre post : Bool) {fuel : Nat}
    (enough : min (bc.numberOf left) (bc.numberOf right) < fuel) :
    ∃ up down, Meeting bc left right up down ∧
      let ret := (if pre then (List.range up).map (fun i => bc.parentOf^[i] left) else []) ++
        if pre && common then [bc.parentOf^[up] left] else []
      let back := (if post then (List.range down).map (fun i => bc.parentOf^[i] right) else []) ++
        if post && !pre && common then [bc.parentOf^[up] left] else []
      bc.treeRouteWith fuel left right common pre post =
        some (ret ++ back.reverse, bc.parentOf^[up] left,
          (ret.length - if common && !ret.isEmpty && !back.isEmpty then 1 else 0) % 2 ^ 32) := by
  obtain ⟨m, further⟩ : ∃ m, m = bc.numberOf left - bc.numberOf right := ⟨_, rfl⟩
  obtain ⟨n, further'⟩ : ∃ n, n = bc.numberOf right - bc.numberOf left := ⟨_, rfl⟩
  obtain ⟨low, lower⟩ : ∃ low, low = min (bc.numberOf left) (bc.numberOf right) := ⟨_, rfl⟩
  have shared : bc.parentOf^[low] (bc.parentOf^[m] left) =
      bc.parentOf^[low] (bc.parentOf^[n] right) := by
    have whole : low + m = bc.numberOf left := by omega
    have whole' : low + n = bc.numberOf right := by omega
    rw [← Function.iterate_add_apply, ← Function.iterate_add_apply, whole, whole']
    exact tree.joined knownLeft knownRight
  have meets : ∃ steps, bc.parentOf^[steps] (bc.parentOf^[m] left) =
      bc.parentOf^[steps] (bc.parentOf^[n] right) :=
    ⟨low, shared⟩
  have least := fun steps small => Nat.find_min meets (m := steps) small
  have joined := Nat.find_spec meets
  have bound : Nat.find meets ≤ low := Nat.find_min' meets shared
  generalize Nat.find meets = steps at least joined bound
  have nonzero : ¬(left = 0 ∨ right = 0) :=
    not_or.mpr ⟨tree.ancestor_nonzero knownLeft (Nat.zero_le _),
      tree.ancestor_nonzero knownRight (Nat.zero_le _)⟩
  have filled : ∀ i < steps,
      bc.parentOf^[i] (bc.parentOf^[m] left) ≠ 0 ∧ bc.parentOf^[i] (bc.parentOf^[n] right) ≠ 0 := by
    intro i small
    rw [← Function.iterate_add_apply, ← Function.iterate_add_apply]
    exact ⟨tree.ancestor_nonzero knownLeft (by omega), tree.ancestor_nonzero knownRight (by omega)⟩
  obtain ⟨extra, rfl⟩ : ∃ extra, fuel = steps + 1 + extra := ⟨fuel - (steps + 1), by omega⟩
  refine ⟨steps + m, steps + n, ⟨by omega, by omega, by omega, ?_, ?_⟩, ?_⟩
  · rw [Function.iterate_add_apply, Function.iterate_add_apply]
    exact joined
  · intro i upper j lower same
    have height := tree.same_height knownLeft knownRight upper lower same
    by_contra early
    apply least (i - m) (by omega)
    have whole : i - m + m = i := by omega
    have whole' : i - m + n = j := by omega
    rw [← Function.iterate_add_apply, ← Function.iterate_add_apply, whole, whole']
    exact same
  · intro ret back
    rw [treeRouteWith, if_neg nonzero]
    simp only [climbWith_eq, List.nil_append, ← further, ← further']
    rw [meetWith_spec common pre post steps extra _ _ _ _ joined least filled, Option.map_some]
    simp only [ret, back, kept_append, Function.iterate_add_apply]

theorem Tree.lowestCommon (knownLeft : (bc.blocks left).isSome = true) {up down : Nat}
    (meeting : Meeting bc left right up down) :
    bc.LowestCommon (bc.parentOf^[up] left) left right := by
  have height := (tree.ancestor knownLeft up meeting.above).2
  refine ⟨⟨up, meeting.above, rfl⟩, ⟨down, meeting.below, meeting.joined.symm⟩, ?_⟩
  rintro c ⟨i, upper, rfl⟩ ⟨j, lower, same⟩
  have later := meeting.first i upper j lower same.symm
  refine ⟨i - up, by omega, ?_⟩
  have whole : i - up + up = i := by omega
  rw [← Function.iterate_add_apply, whole]

theorem Tree.branch_eq {h : H256} (known : (bc.blocks h).isSome = true) {steps : Nat}
    (bound : steps ≤ bc.numberOf h) :
    bc.branch (bc.parentOf^[steps] h) h = (List.range steps).map fun i => bc.parentOf^[i] h := by
  have apart : bc.numberOf h - bc.numberOf (bc.parentOf^[steps] h) = steps := by
    rw [(tree.ancestor known steps bound).2]
    omega
  rw [branch, apart]

theorem Tree.down_zero (knownLeft : (bc.blocks left).isSome = true) {up down : Nat}
    (meeting : Meeting bc left right up down) : down = 0 ↔ bc.Ancestor right left := by
  constructor
  · rintro rfl
    exact ⟨up, meeting.above, meeting.joined⟩
  · rintro ⟨i, upper, rfl⟩
    have later := meeting.first i upper 0 (Nat.zero_le _) rfl
    have height := (tree.ancestor knownLeft i upper).2
    have level := meeting.level
    have above := meeting.above
    have below := meeting.below
    omega

end Route

/-- What the code puts together of the two branches is what is documented, but for the index where
nothing follows the common block, and for the list where neither branch is asked for. -/
theorem assembled_iff (common pre post : Bool) (ancestor : H256) (up down : List H256)
    (few : up.length < 2 ^ 32) :
    (let ret := (if pre then up else []) ++ if pre && common then [ancestor] else []
     let back := (if post then down else []) ++ if post && !pre && common then [ancestor] else []
     ret ++ back.reverse = (if pre then up else []) ++ (if common then [ancestor] else []) ++
         (if post then down.reverse else []) ∧
       (ret.length - if common && !ret.isEmpty && !back.isEmpty then 1 else 0) % 2 ^ 32 =
         if pre then up.length else 0) ↔
      (common = true → post = true ∧ (pre = true → down ≠ [])) := by
  cases common with
  | false => cases pre <;> cases post <;> simp <;> omega
  | true =>
      cases pre with
      | false => cases post <;> simp
      | true =>
          cases post with
          | false =>
              simp
              omega
          | true => cases down <;> simp <;> omega

/-- The route is the documented one unless the common block is asked for and it ends the list or,
without either branch, should make it up. -/
theorem treeRoute_exact_iff (bc : ChainIndex) (tree : bc.Tree) (left right : H256)
    (knownLeft : (bc.blocks left).isSome = true) (knownRight : (bc.blocks right).isSome = true)
    (numbered : bc.numberOf left < 2 ^ 32) (common pre post : Bool) (fuel : Nat)
    (enough : min (bc.numberOf left) (bc.numberOf right) < fuel) :
    ∃ route, bc.treeRouteWith fuel left right common pre post = some route ∧
      (bc.IsRoute left right common pre post route ↔
        (common = true → post = true ∧ (pre = true → ¬ bc.Ancestor right left))) := by
  obtain ⟨up, down, meeting, run⟩ :=
    tree.treeRouteWith_spec knownLeft knownRight common pre post enough
  refine ⟨_, run, ?_⟩
  have lowest := tree.lowestCommon knownLeft meeting
  have first := tree.branch_eq knownLeft meeting.above
  have second := tree.branch_eq knownRight meeting.below
  rw [← meeting.joined] at second
  have hanging : ((List.range down).map fun i => bc.parentOf^[i] right) ≠ [] ↔
      ¬ bc.Ancestor right left := by
    rw [← tree.down_zero knownLeft meeting]
    simp
  have few : ((List.range up).map fun i => bc.parentOf^[i] left).length < 2 ^ 32 := by
    rw [List.length_map, List.length_range]
    exact Nat.lt_of_le_of_lt meeting.above numbered
  rw [← hanging, ← assembled_iff common pre post (bc.parentOf^[up] left) _ _ few]
  constructor
  · rintro ⟨-, list, index⟩
    rw [first, second] at list
    rw [first] at index
    exact ⟨list, index⟩
  · rintro ⟨list, index⟩
    refine ⟨lowest, ?_, ?_⟩
    · rw [first, second]
      exact list
    · rw [first]
      exact index

def documented : ChainIndex :=
  ((opened 1 0 0 1000).insertBlock ⟨2, 1, 1, 0, 0, []⟩ 0).insertBlock ⟨3, 2, 2, 0, 0, []⟩ 0

theorem documented_tree : documented.Tree := by
  have genesis := (Indexed.opened 1 0 0 1000 (by decide)).tree
  have first : Fits (opened 1 0 0 1000) ⟨2, 1, 1, 0, 0, []⟩ :=
    ⟨rfl, rfl, by decide, fun other found => by simp [opened] at found⟩
  have second : Fits ((opened 1 0 0 1000).insertBlock ⟨2, 1, 1, 0, 0, []⟩ 0) ⟨3, 2, 2, 0, 0, []⟩ :=
    ⟨rfl, rfl, by decide, fun other found => by simp [opened, insertBlock] at found⟩
  exact second.insert (first.insert genesis 0) 0

theorem treeRoute_exact_upwards : ∃ route, documented.treeRouteWith 3 2 3 true true true =
    some route ∧
    (documented.IsRoute 2 3 true true true route ↔
      (true = true → true = true ∧ (true = true → ¬ documented.Ancestor 3 2))) :=
  treeRoute_exact_iff documented documented_tree 2 3 rfl rfl (by decide) true true true
    3 (by decide)

/-- `treeRoute(2a, 1a, true)` has index 2, the documentation 1. -/
theorem treeRoute_index_behind :
    ¬ ∀ (bc : ChainIndex) (left right : H256) (common pre post : Bool), bc.Tree →
    (bc.blocks left).isSome = true → (bc.blocks right).isSome = true →
      ∃ fuel route, bc.treeRouteWith fuel left right common pre post = some route ∧
        bc.IsRoute left right common pre post route := by
  intro exact
  obtain ⟨fuel, route, run, documents⟩ :=
    exact documented 3 2 true true true documented_tree rfl rfl
  cases fuel with
  | zero => exact absurd run (by simp [treeRouteWith, meetWith])
  | succ fuel =>
      have result : route = ([3, 2], 2, 2) := (Option.some.inj run).symm
      rw [result] at documents
      exact absurd documents.index (by decide)

end ChainIndex

end UtispaceChain
