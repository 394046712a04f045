import UtispaceChain.Cv.LogFilter

/-! The two-level index of block blooms, and the search for the blocks whose bloom contains
another. -/

namespace UtispaceChain

open Lib Stored

section Ranges

variable {α : Type}

theorem flatMap_guarded (p : α → Bool) (f : α → List Nat) (items : List α) :
    (items.flatMap fun item => if p item then f item else []) = (items.filter p).flatMap f := by
  induction items with
  | nil => rfl
  | cons item items ih => cases held : p item <;> simp [held, ih]

theorem range_filter_window (a b n : Nat) :
    (List.range n).filter (fun o => decide (a ≤ o ∧ o < b)) = List.range' a (min b n - a) := by
  induction n with
  | zero => simp
  | succ n ih =>
      rw [List.range_succ, List.filter_append, ih, List.filter_singleton]
      by_cases inside : a ≤ n ∧ n < b
      · have before : min b n - a = n - a := by omega
        have after : min b (n + 1) - a = n - a + 1 := by omega
        have last : a + 1 * (n - a) = n := by omega
        rw [before, after, List.range'_concat, last, decide_eq_true inside, cond_true]
      · have same : min b (n + 1) - a = min b n - a := by omega
        simp [inside, same]

theorem blocks_flatMap (w : Nat) (p : Nat → Bool) (first count : Nat) :
    ((List.range' first count).flatMap fun k => (List.range' (w * k) w).filter p) =
      (List.range' (w * first) (w * count)).filter p := by
  induction count generalizing first with
  | zero => simp
  | succ count ih =>
      have join : List.range' (w * first) (w * (count + 1)) =
          List.range' (w * first) w ++ List.range' (w * (first + 1)) (w * count) := by
        rw [Nat.mul_succ w first, Nat.mul_succ w count, Nat.add_comm (w * count),
          ← List.range'_append_1]
      rw [List.range'_succ, List.flatMap_cons, ih, join, List.filter_append]

end Ranges

def c_bloomIndexLevels : Nat := 2

/-- `unsigned` arithmetic: the loop squares, so it is the power only for `b ≤ 2`. -/
def upow (a : Nat) : Nat → Nat
  | 0 => 1
  | b + 1 => (fun a => a * a % 2 ^ 32)^[b] a

def ceilDiv (n d : Nat) : Nat := (n + d - 1) % 2 ^ 32 / d

namespace BlockChain

def chunkId (level index : Nat) : H256 := (index * 0xff + level) % 2 ^ 32

abbrev BloomIndex := H256 → BlocksBlooms

namespace BloomIndex

variable (x : BloomIndex) (b : LogBloom) (earliest latest : Nat)

def blocksBlooms (level index : Nat) : BlocksBlooms := x (chunkId level index)

def bloomAt (level n : Nat) : LogBloom :=
  (x.blocksBlooms level (n / c_bloomIndexSize)).blooms.toList.getD (n % c_bloomIndexSize) 0

def blockBloom (number : Nat) : LogBloom := x.bloomAt 0 number

def withBlockBloomAt : Nat → Nat → List Nat
  | level, index =>
      let uCourse := upow c_bloomIndexSize (level + 1)
      let uFine := upow c_bloomIndexSize level
      let obegin := if index = earliest / uCourse then earliest / uFine % c_bloomIndexSize else 0
      let oend := if index = latest / uCourse then latest / uFine % c_bloomIndexSize + 1
        else c_bloomIndexSize
      let bb := x.blocksBlooms level index
      (List.range' obegin (oend - obegin)).flatMap fun o =>
        if contains (bb.blooms.toList.getD o 0) b then
          match level with
          | below + 1 => withBlockBloomAt below ((o + index * c_bloomIndexSize) % 2 ^ 32)
          | 0 => [(o + index * c_bloomIndexSize) % 2 ^ 32]
        else []

def withBlockBloom : List Nat :=
  let u := upow c_bloomIndexSize c_bloomIndexLevels
  (List.range' (earliest / u) (ceilDiv latest u + 1 - earliest / u)).flatMap
    (x.withBlockBloomAt b earliest latest (c_bloomIndexLevels - 1))

/-- Every bloom of level 1 has the union of the 16 blooms of the chunk under it. -/
def Covers : Prop :=
  ∀ n < 2 ^ 28, contains (x.bloomAt 1 n) (unite id 0 (x.blocksBlooms 0 n).blooms.toList) = true

/-- In increasing order, the numbers of the range whose bloom contains the one sought. -/
def Exact (found : List Nat) : Prop :=
  found.Pairwise (· < ·) ∧
    ∀ n, n ∈ found ↔ earliest ≤ n ∧ n ≤ latest ∧ contains (x.blockBloom n) b = true

def reached (w n : Nat) : Bool :=
  decide (earliest ≤ n ∧ (n / w = latest / w → n ≤ latest)) && contains (x.blockBloom n) b

theorem offsets_window {index first last o : Nat} (start : first / 16 ≤ index) (small : o < 16) :
    ((if index = first / 16 then first % 16 else 0) ≤ o ∧
        o < if index = last / 16 then last % 16 + 1 else 16) ↔
      first ≤ 16 * index + o ∧ ((16 * index + o) / 16 = last / 16 → 16 * index + o ≤ last) := by
  split <;> split <;> omega

variable {x b earliest latest}

theorem chunk_flatMap {first last index : Nat} (start : first / 16 ≤ index) (f : Nat → List Nat) :
    let obegin := if index = first / 16 then first % 16 else 0
    let oend := if index = last / 16 then last % 16 + 1 else 16
    (List.range' obegin (oend - obegin)).flatMap (fun o => f (16 * index + o)) =
      (List.range' (16 * index) 16).flatMap fun k =>
        if first ≤ k ∧ (k / 16 = last / 16 → k ≤ last) then f k else [] := by
  intro obegin oend
  have few : min oend 16 = oend := by
    simp only [oend]
    split <;> omega
  rw [← few, ← range_filter_window, ← flatMap_guarded, List.range'_eq_map_range, List.flatMap_map]
  apply List.flatMap_congr
  intro o member
  simp only [decide_eq_true_eq, obegin, oend, offsets_window start (List.mem_range.mp member)]

theorem reached_fine {k n : Nat} (inside : n / 16 = k)
    (window : earliest / 16 ≤ k ∧ (k / 16 = latest / 16 / 16 → k ≤ latest / 16)) :
    x.reached b earliest latest 16 n = x.reached b earliest latest 256 n := by
  have same : (earliest ≤ n ∧ (n / 16 = latest / 16 → n ≤ latest)) ↔
      earliest ≤ n ∧ (n / 256 = latest / 256 → n ≤ latest) := by omega
  simp only [reached, same]

theorem not_reached {k n : Nat} (inside : n / 16 = k)
    (outside : ¬ (earliest / 16 ≤ k ∧ (k / 16 = latest / 16 / 16 → k ≤ latest / 16))) :
    x.reached b earliest latest 256 n = false := by
  have beyond : ¬ (earliest ≤ n ∧ (n / 256 = latest / 256 → n ≤ latest)) := by omega
  simp [reached, beyond]

@[simp] theorem upow_zero (a : Nat) : upow a 0 = 1 := rfl

@[simp] theorem upow_one (a : Nat) : upow a 1 = a := rfl

theorem upow_two : upow c_bloomIndexSize 2 = 256 := rfl

theorem bloomAt_offset (level index : Nat) {o : Nat} (small : o < 16) :
    (x.blocksBlooms level index).blooms.toList.getD o 0 = x.bloomAt level (16 * index + o) := by
  have chunk : (16 * index + o) / c_bloomIndexSize = index := by
    simp only [c_bloomIndexSize]
    omega
  have slot : (16 * index + o) % c_bloomIndexSize = o := by
    simp only [c_bloomIndexSize]
    omega
  rw [bloomAt, chunk, slot]

variable (x b earliest latest) in
def under (level k : Nat) : List Nat :=
  if contains (x.bloomAt level k) b then
    match level with
    | below + 1 => x.withBlockBloomAt b earliest latest below k
    | 0 => [k]
  else []

theorem withBlockBloomAt_eq {level index fine : Nat} (width : upow c_bloomIndexSize level = fine)
    (course : upow c_bloomIndexSize (level + 1) = fine * 16) (start : earliest / fine / 16 ≤ index)
    (small : index < 2 ^ 28) :
    x.withBlockBloomAt b earliest latest level index =
      (List.range' (16 * index) 16).flatMap fun k =>
        if earliest / fine ≤ k ∧ (k / 16 = latest / fine / 16 → k ≤ latest / fine) then
          x.under b earliest latest level k else [] := by
  rw [← chunk_flatMap start, withBlockBloomAt.eq_def]
  simp only [width, course, ← Nat.div_div_eq_div_mul]
  apply List.flatMap_congr
  intro o member
  have inside : o < 16 := by
    rcases List.mem_range'_1.mp member with ⟨_, upper⟩
    simp only [c_bloomIndexSize] at upper
    split at upper <;> split at upper <;> omega
  have place : (o + index * c_bloomIndexSize) % 2 ^ 32 = 16 * index + o := by
    simp only [c_bloomIndexSize]
    omega
  rw [bloomAt_offset level index inside, place]
  rfl

theorem withBlockBloomAt_zero {index : Nat} (start : earliest / 16 ≤ index)
    (small : index < 2 ^ 28) :
    x.withBlockBloomAt b earliest latest 0 index =
      (List.range' (16 * index) 16).filter (x.reached b earliest latest 16) := by
  rw [withBlockBloomAt_eq (upow_zero _) (upow_one _) (by rwa [Nat.div_one]) small,
    ← List.flatMap_singleton' (List.filter _ _), ← flatMap_guarded]
  apply List.flatMap_congr
  intro k _
  simp only [Nat.div_one, under, reached, blockBloom, Bool.and_eq_true, decide_eq_true_eq, ite_and]

theorem Covers.blockBloom (covers : x.Covers) {n : Nat} (small : n / 16 < 2 ^ 28) :
    contains (x.bloomAt 1 (n / 16)) (x.blockBloom n) = true := by
  have slot : n % 16 < (x.blocksBlooms 0 (n / 16)).blooms.toList.length := by
    rw [List.Vector.toList_length]
    exact Nat.mod_lt _ (by decide)
  have member : x.blockBloom n ∈ (x.blocksBlooms 0 (n / 16)).blooms.toList := by
    change (x.blocksBlooms 0 (n / 16)).blooms.toList.getD (n % 16) 0 ∈ _
    rw [List.getD_eq_getElem _ _ slot]
    exact List.getElem_mem slot
  exact contains_trans (covers (n / 16) small) (unite_contains id 0 member)

theorem under_one (covers : x.Covers) {k : Nat} (small : k < 2 ^ 28) :
    (if earliest / 16 ≤ k ∧ (k / 16 = latest / 16 / 16 → k ≤ latest / 16) then
        x.under b earliest latest 1 k else []) =
      (List.range' (16 * k) 16).filter (x.reached b earliest latest 256) := by
  have block : ∀ n ∈ List.range' (16 * k) 16, n / 16 = k := by
    intro n member
    have bounds := List.mem_range'_1.mp member
    omega
  by_cases window : earliest / 16 ≤ k ∧ (k / 16 = latest / 16 / 16 → k ≤ latest / 16)
  · rw [if_pos window]
    cases shown : contains (x.bloomAt 1 k) b with
    | true =>
        rw [under, if_pos shown, withBlockBloomAt_zero window.1 small]
        apply List.filter_congr
        intro n member
        exact reached_fine (block n member) window
    | false =>
        rw [under, if_neg (by simp [shown]), eq_comm, List.filter_eq_nil_iff]
        intro n member held
        have below : contains (x.blockBloom n) b = true := (Bool.and_eq_true _ _ ▸ held).2
        have part := covers.blockBloom (block n member ▸ small)
        rw [block n member] at part
        rw [contains_trans part below] at shown
        cases shown
  · rw [if_neg window, eq_comm, List.filter_eq_nil_iff]
    intro n member
    simp [not_reached (block n member) window]

theorem withBlockBloomAt_one (covers : x.Covers) {index : Nat} (start : earliest / 256 ≤ index)
    (small : index < 2 ^ 24) :
    x.withBlockBloomAt b earliest latest 1 index =
      (List.range' (256 * index) 256).filter (x.reached b earliest latest 256) := by
  have chunk : earliest / 16 / 16 ≤ index := by omega
  rw [withBlockBloomAt_eq (upow_one _) upow_two chunk (by omega)]
  calc
    _ = (List.range' (16 * index) 16).flatMap fun k =>
        (List.range' (16 * k) 16).filter (x.reached b earliest latest 256) := by
      apply List.flatMap_congr
      intro k member
      have bounds := List.mem_range'_1.mp member
      exact under_one covers (by omega)
    _ = _ := by rw [blocks_flatMap, ← Nat.mul_assoc]

theorem withBlockBloom_eq (covers : x.Covers) :
    x.withBlockBloom b earliest latest =
      (List.range' (256 * (earliest / 256))
        (256 * (ceilDiv latest 256 + 1 - earliest / 256))).filter
        (x.reached b earliest latest 256) := by
  have top : ceilDiv latest 256 < 2 ^ 24 := by
    rw [ceilDiv]
    omega
  rw [withBlockBloom, ← blocks_flatMap]
  apply List.flatMap_congr
  intro index member
  have bounds := List.mem_range'_1.mp member
  simp only [c_bloomIndexLevels, upow_two] at bounds
  exact withBlockBloomAt_one covers bounds.1 (by omega)

theorem mem_withBlockBloom (covers : x.Covers) (n : Nat) :
    n ∈ x.withBlockBloom b earliest latest ↔ earliest ≤ n ∧ n / 256 ≤ ceilDiv latest 256 ∧
      (n / 256 = latest / 256 → n ≤ latest) ∧ contains (x.blockBloom n) b = true := by
  rw [withBlockBloom_eq covers, List.mem_filter, List.mem_range'_1, reached, Bool.and_eq_true,
    decide_eq_true_eq]
  constructor
  · rintro ⟨⟨lower, upper⟩, ⟨after, before⟩, held⟩
    exact ⟨after, by omega, before, held⟩
  · rintro ⟨after, upper, before, held⟩
    exact ⟨by omega, ⟨after, before⟩, held⟩

theorem withBlockBloom_sorted (covers : x.Covers) :
    (x.withBlockBloom b earliest latest).Pairwise (· < ·) := by
  rw [withBlockBloom_eq covers]
  exact (List.pairwise_lt_range').filter _

theorem ceilDiv_within (within : latest ≤ 2 ^ 32 - 256) :
    ceilDiv latest 256 = if latest % 256 = 0 then latest / 256 else latest / 256 + 1 := by
  rw [ceilDiv]
  split <;> omega

theorem ceilDiv_wraps (beyond : 2 ^ 32 - 256 < latest) (bounded : latest < 2 ^ 32) :
    ceilDiv latest 256 = 0 := by
  rw [ceilDiv]
  omega

variable (x b earliest latest) in
/-- No block after `latest` in the chunk read on its account has the bloom, and none is left unread
where the bound of the loop wraps. -/
def Clear : Prop :=
  (latest ≤ 2 ^ 32 - 256 → latest % 256 = 0 ∨
    ∀ n, n / 256 = latest / 256 + 1 → contains (x.blockBloom n) b = false) ∧
  (2 ^ 32 - 256 < latest → ∀ n, max earliest 256 ≤ n → n ≤ latest →
    contains (x.blockBloom n) b = false)

/-- Exact unless the loop reads a chunk beyond `latest`, or none but the first. -/
theorem withBlockBloom_exact_iff (x : BloomIndex) (b : LogBloom) (earliest latest : Nat)
    (covers : x.Covers) (bounded : latest < 2 ^ 32) (ordered : earliest ≤ latest) :
    x.Exact b earliest latest (x.withBlockBloom b earliest latest) ↔ x.Clear b earliest latest := by
  simp only [Exact, withBlockBloom_sorted covers, true_and, mem_withBlockBloom covers]
  constructor
  · intro exact
    refine ⟨fun within => ?_, fun beyond n lower upper => ?_⟩
    · by_cases aligned : latest % 256 = 0
      · exact Or.inl aligned
      · refine Or.inr fun n next => Bool.eq_false_iff.mpr fun held => ?_
        have listed := (exact n).mp ⟨by omega, by rw [ceilDiv_within within, if_neg aligned, next],
          by omega, held⟩
        omega
    · refine Bool.eq_false_iff.mpr fun held => ?_
      have found := (exact n).mpr ⟨by omega, upper, held⟩
      rw [ceilDiv_wraps beyond bounded] at found
      omega
  · rintro ⟨inside, wrapped⟩ n
    by_cases within : latest ≤ 2 ^ 32 - 256
    · rw [ceilDiv_within within]
      constructor
      · rintro ⟨after, chunk, before, held⟩
        refine ⟨after, ?_, held⟩
        split at chunk
        · omega
        · rename_i unaligned
          rcases inside within with aligned | clear
          · exact absurd aligned unaligned
          · by_contra late
            have none_held := clear n (by omega)
            rw [held] at none_held
            cases none_held
      · rintro ⟨after, before, held⟩
        refine ⟨after, ?_, fun _ => before, held⟩
        split <;> omega
    · rw [ceilDiv_wraps (by omega) bounded]
      constructor
      · rintro ⟨after, chunk, _, held⟩
        exact ⟨after, by omega, held⟩
      · rintro ⟨after, before, held⟩
        by_cases first : n < 256
        · exact ⟨after, by omega, by omega, held⟩
        · have none_held := wrapped (by omega) n (by omega) before
          rw [held] at none_held
          cases none_held

def uniform (bloom : LogBloom) : BloomIndex :=
  fun _ => ⟨List.Vector.replicate c_bloomIndexSize bloom⟩

theorem uniform_bloomAt (bloom : LogBloom) (level n : Nat) :
    (uniform bloom).bloomAt level n = bloom := by
  have slot : n % c_bloomIndexSize < (List.replicate c_bloomIndexSize bloom).length := by
    rw [List.length_replicate]
    exact Nat.mod_lt _ (by decide)
  change (List.replicate c_bloomIndexSize bloom).getD _ 0 = bloom
  rw [List.getD_eq_getElem _ _ slot, List.getElem_replicate]

theorem uniform_covers (bloom : LogBloom) : (uniform bloom).Covers := by
  intro n _
  rw [uniform_bloomAt, contains_unite]
  refine ⟨contains_zero bloom, fun item member => ?_⟩
  rw [List.eq_of_mem_replicate member]
  exact contains_refl bloom

theorem withBlockBloom_exact_uniform :
    (uniform 1).Exact 1 0 256 ((uniform 1).withBlockBloom 1 0 256) :=
  (withBlockBloom_exact_iff (uniform 1) 1 0 256 (uniform_covers 1) (by decide) (by decide)).mpr
    ⟨fun _ => Or.inl rfl, fun beyond => absurd beyond (by decide)⟩

/-- Block 256 is found between 0 and 5. -/
theorem next_chunk_read : ¬ ∀ (x : BloomIndex) (b : LogBloom) (earliest latest : Nat), x.Covers →
    latest < 2 ^ 32 →
    earliest ≤ latest → x.Exact b earliest latest (x.withBlockBloom b earliest latest) := by
  intro exact
  have found := (exact (uniform 1) 1 0 5 (uniform_covers 1) (by decide) (by decide)).2 256
  rw [mem_withBlockBloom (uniform_covers 1), blockBloom, uniform_bloomAt] at found
  exact absurd (found.mp (by decide)).2.1 (by decide)

end BloomIndex

end BlockChain

end UtispaceChain
