import UtispaceChain.DevCore.Rlp

/-! Sequences of items: what the reader splits off a payload, and how the typed readers
pin an item down. -/

namespace UtispaceChain.Rlp

open Lib

/-- `toVector<T>()` with the default `LaissezFaire` flags: anything but a list reads as empty. -/
def toVector {α : Type} (read : Bytes → Option α) (d : Bytes) : Option (List α) :=
  if isList d then (items d).bind fun l => l.mapM read else some []

/-- `toInt<u256>(LaissezFaire)`: a list reads as zero, and high bytes are dropped. -/
def toIntLax (d : Bytes) : Option Nat :=
  (requireGood d).bind fun _ =>
    if isList d then some 0 else (payload d).map fun p => fromBigEndian p % 2 ^ 256

/-- `toPair<u256, T>(LaissezFaire)` for a hash type of `size` bytes: a list of another length
reads as zeros. -/
def toPairLax (size : Nat) (d : Bytes) : Option (Nat × Nat) :=
  if isList d = false then none
  else (items d).bind fun l =>
    if l.length ≠ 2 then some (0, 0)
    else ((item d 0).bind toIntLax).bind fun first =>
      ((item d 1).bind (toHashLax size)).map fun second => (first, second)

def Items (l : List Bytes) : Prop := ∀ d ∈ l, Item d

instance (l : List Bytes) : Decidable (Items l) := inferInstanceAs (Decidable (∀ d ∈ l, Item d))

theorem actualSize_take (d : Bytes) (size : Nat) (read : actualSize d = some size)
    (fits : size ≤ d.length) : actualSize (d.take size) = some size := by
  cases d with
  | nil =>
      cases read
      rfl
  | cons n rest =>
      by_cases single : n.toNat < 0x80
      · simp only [actualSize, if_pos single] at read
        cases read
        simp [actualSize, single]
      simp only [actualSize, if_neg single] at read
      obtain ⟨l, lengthRead, total⟩ := Option.map_eq_some_iff.mp read
      obtain ⟨good, checked, tail⟩ := Option.bind_eq_some_iff.mp lengthRead
      rw [if_neg single] at tail
      rw [List.length_cons] at fits
      have front : ∀ k, (n :: rest).take (k + 1) = n :: rest.take k := fun k => rfl
      have split : ∀ k, rest.take k ++ rest.drop k = rest := fun k => List.take_append_drop k rest
      by_cases short : n.toNat ≤ 0xb7
      · rw [if_pos short] at tail
        have offset : payloadOffset (n :: rest) = 1 := by simp [payloadOffset, single, short]
        obtain rfl : n.toNat - 0x80 = l := Option.some.inj tail
        rw [offset, Nat.add_comm] at total
        have same :=
          requireGood_append n (rest.take (n.toNat - 0x80)) (rest.drop (n.toNat - 0x80)) (by
          intro form empty
          have width : (rest.take (n.toNat - 0x80)).length = n.toNat - 0x80 := by
            rw [List.length_take]
            omega
          rw [empty, List.length_nil] at width
          omega)
        rw [split, checked] at same
        rw [← total, front]
        simp [actualSize, length, payloadOffset, single, short, ← same]
        omega
      rw [if_neg short] at tail
      have other : n.toNat ≠ 0x81 := by omega
      by_cases data : n.toNat < 0xc0
      · rw [if_pos data] at tail
        have offset : payloadOffset (n :: rest) = 1 + (n.toNat - 0xb7) := by
          simp [payloadOffset, single, short, data]
        rw [offset, Nat.add_assoc, Nat.add_comm] at total
        have same := longLength_append (n.toNat - 0xb7) (rest.take (n.toNat - 0xb7 + l))
          (rest.drop (n.toNat - 0xb7 + l)) (by rw [List.length_take]; omega) (by omega)
        rw [split, tail] at same
        rw [← total, front]
        simp [actualSize, length, payloadOffset, requireGood, single, short, data, other, ← same]
        omega
      rw [if_neg data] at tail
      by_cases list : n.toNat ≤ 0xf7
      · rw [if_pos list] at tail
        have offset : payloadOffset (n :: rest) = 1 := by
          simp [payloadOffset, single, short, data, list]
        obtain rfl : n.toNat - 0xc0 = l := Option.some.inj tail
        rw [offset, Nat.add_comm] at total
        rw [← total, front]
        simp [actualSize, length, payloadOffset, requireGood, single, short, data, list, other]
        omega
      · rw [if_neg list] at tail
        have offset : payloadOffset (n :: rest) = 1 + (n.toNat - 0xf7) := by
          simp [payloadOffset, single, short, data, list]
        rw [offset, Nat.add_assoc, Nat.add_comm] at total
        have same := longLength_append (n.toNat - 0xf7) (rest.take (n.toNat - 0xf7 + l))
          (rest.drop (n.toNat - 0xf7 + l)) (by rw [List.length_take]; omega) (by omega)
        rw [split, tail] at same
        rw [← total, front]
        simp [actualSize, length, payloadOffset, requireGood, single, short, data, list,
          other, ← same]
        omega

theorem sizeAsEncoded_pos (d : Bytes) (size : Nat) (full : d ≠ [])
    (read : sizeAsEncoded d = some size) :
    0 < size ∧ size ≤ d.length ∧ actualSize d = some size := by
  obtain ⟨n, found, bound⟩ := Option.bind_eq_some_iff.mp read
  by_cases long : d.length < n
  · rw [if_pos long] at bound
    cases bound
  rw [if_neg long] at bound
  cases bound
  refine ⟨?_, by omega, found⟩
  cases d with
  | nil => exact absurd rfl full
  | cons b rest =>
      by_cases single : b.toNat < 0x80
      · simp only [actualSize, if_pos single, Option.some.injEq] at found
        omega
      · simp only [actualSize, if_neg single] at found
        obtain ⟨l, -, total⟩ := Option.map_eq_some_iff.mp found
        have offset : 1 ≤ payloadOffset (b :: rest) := by
          simp only [payloadOffset, if_neg single]
          split_ifs <;> omega
        omega

theorem item_take (d : Bytes) (size : Nat) (full : d ≠ []) (read : sizeAsEncoded d = some size) :
    Item (d.take size) := by
  obtain ⟨pos, fits, whole⟩ := sizeAsEncoded_pos d size full read
  have width : (d.take size).length = size := by
    rw [List.length_take]
    omega
  refine ⟨fun empty => ?_, ?_⟩
  · rw [empty, List.length_nil] at width
    omega
  · rw [width]
    exact actualSize_take d size whole fits

theorem itemsOf_spec (fuel : Nat) (p : Bytes) (l : List Bytes) (read : itemsOf fuel p = some l) :
    p = l.flatten ∧ Items l := by
  induction fuel generalizing p l with
  | zero =>
      cases p with
      | nil =>
          cases read
          exact ⟨rfl, fun d member => nomatch member⟩
      | cons b rest => cases read
  | succ fuel ih =>
      cases p with
      | nil =>
          cases read
          exact ⟨rfl, fun d member => nomatch member⟩
      | cons b rest =>
          obtain ⟨size, encoded, tail⟩ := Option.bind_eq_some_iff.mp read
          obtain ⟨later, laterRead, rfl⟩ := Option.map_eq_some_iff.mp tail
          obtain ⟨joined, whole⟩ := ih _ later laterRead
          refine ⟨?_, ?_⟩
          · rw [List.flatten_cons, ← joined, List.take_append_drop]
          · intro d member
            rcases List.mem_cons.mp member with rfl | old
            · exact item_take (b :: rest) size (List.cons_ne_nil b rest) encoded
            · exact whole d old

theorem Item.sizeAsEncoded_append (d r : Bytes) (whole : Item d) :
    sizeAsEncoded (d ++ r) = some d.length := by
  have fits : ¬ (d ++ r).length < d.length := by
    rw [List.length_append]
    omega
  simp only [sizeAsEncoded, whole.actualSize_append, Option.bind_some, if_neg fits]

theorem nthItem_flatten (l : List Bytes) (whole : Items l) (i : Nat) :
    nthItem i l.flatten = some ((l[i]?).getD []) := by
  induction l generalizing i with
  | nil => cases i <;> rfl
  | cons d rest ih =>
      have first : Item d := whole d List.mem_cons_self
      have others : Items rest := fun e member => whole e (List.mem_cons_of_mem _ member)
      have size := first.sizeAsEncoded_append d rest.flatten
      cases i with
      | zero => simp [nthItem, size]
      | succ i =>
          have full : d.length ≠ 0 := fun empty => first.1 (List.length_eq_zero_iff.mp empty)
          simp [nthItem, size, full, ih others i]

theorem flatten_inj (l m : List Bytes) (left : Items l) (right : Items m)
    (same : l.flatten = m.flatten) : l = m := by
  induction l generalizing m with
  | nil =>
      cases m with
      | nil => rfl
      | cons e more =>
          have empty : e = [] := (List.append_eq_nil_iff.mp same.symm).1
          exact absurd empty (right e List.mem_cons_self).1
  | cons d rest ih =>
      cases m with
      | nil =>
          have empty : d = [] := (List.append_eq_nil_iff.mp same).1
          exact absurd empty (left d List.mem_cons_self).1
      | cons e more =>
          rw [List.flatten_cons, List.flatten_cons] at same
          obtain ⟨first, later⟩ := Item.append_inj d e _ _ (left d List.mem_cons_self)
            (right e List.mem_cons_self) same
          rw [first, ih more (fun x h => left x (List.mem_cons_of_mem _ h))
            (fun x h => right x (List.mem_cons_of_mem _ h)) later]

theorem read_nth {α : Type} (read : Bytes → Option α) (null : read [] = none) (l : List Bytes)
    (whole : Items l) (i : Nat) (value : α) (found : read ((l[i]?).getD []) = some value) :
    ∃ d, l[i]? = some d ∧ Item d ∧ read d = some value := by
  cases here : l[i]? with
  | none =>
      rw [here, Option.getD_none, null] at found
      cases found
  | some d =>
      rw [here, Option.getD_some] at found
      exact ⟨d, rfl, whole d (List.mem_of_getElem? here), found⟩

theorem items_spec (d : Bytes) (l : List Bytes) (whole : Item d) (list : isList d = true)
    (read : items d = some l) :
    d = appendList l.flatten ∧ Items l ∧ ∀ i, item d i = some ((l[i]?).getD []) := by
  obtain ⟨p, found, shape⟩ := whole.eq_appendList d list
  rw [items, if_pos list, found, Option.bind_some] at read
  obtain ⟨joined, split⟩ := itemsOf_spec _ p l read
  refine ⟨by rw [← joined]; exact shape, split, ?_⟩
  intro i
  rw [item, found, Option.bind_some, joined]
  exact nthItem_flatten l split i

/-! Sizes -/

theorem Items.length_le (l : List Bytes) (whole : Items l) : l.length ≤ l.flatten.length := by
  induction l with
  | nil => exact Nat.zero_le _
  | cons d rest ih =>
      have pos : 0 < d.length := List.length_pos_of_ne_nil (whole d List.mem_cons_self).1
      have others := ih (fun e member => whole e (List.mem_cons_of_mem _ member))
      rw [List.length_cons, List.flatten_cons, List.length_append]
      omega

theorem length_le_flatten (l : List Bytes) (d : Bytes) (member : d ∈ l) :
    d.length ≤ l.flatten.length := by
  obtain ⟨front, back, rfl⟩ := List.append_of_mem member
  simp only [List.flatten_append, List.flatten_cons, List.length_append]
  omega

theorem flatten_length_le (l : List Bytes) (bound : Nat) (each : ∀ d ∈ l, d.length ≤ bound) :
    l.flatten.length ≤ l.length * bound := by
  induction l with
  | nil => simp
  | cons d rest ih =>
      have first := each d List.mem_cons_self
      have others := ih (fun e member => each e (List.mem_cons_of_mem _ member))
      rw [List.flatten_cons, List.length_append, List.length_cons, Nat.succ_mul]
      omega

theorem payload_length (d p : Bytes) (read : payload d = some p) : p.length ≤ d.length := by
  obtain ⟨l, -, rest⟩ := Option.bind_eq_some_iff.mp read
  by_cases long : d.length < l
  · rw [if_pos long] at rest
    cases rest
  rw [if_neg long] at rest
  cases rest
  unfold cropped
  split_ifs with inside
  · rw [List.length_take]
    omega
  · exact Nat.zero_le _

theorem pushCount_length (count base : Nat) (bound : count < 2 ^ 64) :
    (pushCount count base).length ≤ 9 := by
  have width : (toCompactBigEndian count).length ≤ 8 :=
    toCompactBigEndian_length_le 8 count (by simpa using bound)
  rw [pushCount, List.length_cons]
  omega

theorem appendBytes_length (s : Bytes) (bound : s.length < 2 ^ 64) :
    (appendBytes s).length ≤ s.length + 9 := by
  have header := pushCount_length s.length 0xb7 bound
  unfold appendBytes
  split_ifs
  · omega
  · rw [List.length_cons]
    omega
  · rw [List.length_append]
    omega

theorem length_le_appendBytes (s : Bytes) : s.length ≤ (appendBytes s).length := by
  unfold appendBytes
  split_ifs
  · exact le_rfl
  · rw [List.length_cons]
    omega
  · rw [List.length_append]
    omega

theorem length_le_appendList (s : Bytes) : s.length ≤ (appendList s).length := by
  unfold appendList
  split_ifs
  · rw [List.length_cons]
    omega
  · rw [List.length_append]
    omega

theorem appendList_length (s : Bytes) (bound : s.length < 2 ^ 64) :
    (appendList s).length ≤ s.length + 9 := by
  have header := pushCount_length s.length 0xf7 bound
  unfold appendList
  split_ifs
  · rw [List.length_cons]
    omega
  · rw [List.length_append]
    omega

/-! Typed readers -/

theorem toHash_canonical (size : Nat) (d : Bytes) (value : Nat) (whole : Item d)
    (read : toHash size d = some value) : d = appendBytes (toBigEndian size value) := by
  obtain ⟨good, -, rest⟩ := Option.bind_eq_some_iff.mp read
  obtain ⟨p, found, checked⟩ := Option.bind_eq_some_iff.mp rest
  by_cases strict : isData d = true ∧ p.length = size
  swap
  · rw [if_neg strict] at checked
    cases checked
  rw [if_pos strict] at checked
  cases checked
  obtain ⟨p', found', shape⟩ := whole.eq_appendBytes d strict.1
  rw [found] at found'
  cases found'
  rw [shape, ← strict.2, toBigEndian_fromBigEndian]

theorem toInt_canonical (width : Nat) (d : Bytes) (value : Nat) (whole : Item d)
    (read : toInt width d = some value) : d = appendInt value := by
  obtain ⟨good, -, started⟩ := Option.bind_eq_some_iff.mp read
  obtain ⟨canonical, int, checked⟩ := Option.bind_eq_some_iff.mp started
  by_cases refused : canonical = false ∨ isList d = true
  · rw [if_pos refused] at checked
    cases checked
  rw [if_neg refused] at checked
  obtain ⟨p, found, bounded⟩ := Option.bind_eq_some_iff.mp checked
  by_cases wide : width < p.length
  · rw [if_pos wide] at bounded
    cases bounded
  rw [if_neg wide] at bounded
  cases bounded
  have data : isData d = true := by
    cases d with
    | nil => exact absurd rfl whole.1
    | cons n rest =>
        have notList : ¬ isList (n :: rest) = true := fun list => refused (Or.inr list)
        simp only [isList, decide_eq_true_eq, Nat.not_le] at notList
        simpa [isData] using notList
  obtain ⟨p', found', shape⟩ := whole.eq_appendBytes d data
  rw [found] at found'
  cases found'
  rw [appendInt_eq, toCompact_fromBigEndian p, ← shape]
  intro byte tail start zero
  -- the reader looked at the first payload byte, in each of the three forms of a string
  have whole' := payload_of_item d whole
  rw [found] at whole'
  have payloadShape : p = d.drop (payloadOffset d) := Option.some.inj whole'
  cases d with
  | nil => exact absurd rfl whole.1
  | cons n rest =>
      have yes : canonical = true := by
        cases canonical with
        | true => rfl
        | false => exact absurd (Or.inl rfl) refused
      subst yes
      obtain ⟨-, -, form⟩ := Option.bind_eq_some_iff.mp int
      have low : n.toNat < 0xc0 := by simpa [isData] using data
      by_cases single : n.toNat < 0x80
      · simp only [if_pos single, Option.some.injEq, decide_eq_true_eq] at form
        simp only [payloadOffset, if_pos single, List.drop_zero] at payloadShape
        rw [payloadShape] at start
        exact form ((List.cons.inj start).1.trans zero)
      by_cases empty : n.toNat = 0x80
      · rcases Item.forms n rest whole with ⟨small, -⟩ | ⟨-, -, -, size⟩ | ⟨big, -⟩
          | ⟨big, -⟩ | ⟨big, -⟩
        · omega
        · have none : rest = [] := List.length_eq_zero_iff.mp (by omega)
          simp [payloadOffset, empty, none] at payloadShape
          rw [payloadShape] at start
          cases start
        · omega
        · omega
        · omega
      by_cases short : n.toNat ≤ 0xb7
      · simp only [if_neg single, if_neg empty, if_pos short] at form
        simp only [payloadOffset, if_neg single, if_pos short, List.drop_succ_cons,
          List.drop_zero] at payloadShape
        rw [← payloadShape, start, List.head?_cons, Option.map_some, Option.some.injEq,
          decide_eq_true_eq] at form
        exact form zero
      · simp only [if_neg single, if_neg empty, if_neg short, if_pos low] at form
        simp only [payloadOffset, if_neg single, if_neg short, if_pos low, Nat.add_comm 1,
          List.drop_succ_cons] at payloadShape
        have head : rest[n.toNat - 0xb7]? = some byte := by
          rw [← List.head?_drop, ← payloadShape, start, List.head?_cons]
        rw [head, Option.map_some, Option.some.injEq, decide_eq_true_eq] at form
        exact form zero

/-! The reader takes back what the writer emits -/

theorem Item.requireGood (d : Bytes) (whole : Item d) : Rlp.requireGood d = some () := by
  cases d with
  | nil => exact absurd rfl whole.1
  | cons n rest =>
      by_cases marked : n.toNat = 0x81
      · rcases Item.forms n rest whole with ⟨small, -⟩ | ⟨-, -, good, -⟩ | ⟨big, -⟩
          | ⟨big, -⟩ | ⟨big, -⟩
        · omega
        · exact good
        · omega
        · omega
        · omega
      · simp [Rlp.requireGood, marked]

theorem Item.construct (d : Bytes) (whole : Item d) : Rlp.construct d = some d := by
  simp only [Rlp.construct, whole.2, Option.bind_some, if_true]

theorem isList_eq_false (d : Bytes) (data : isData d = true) : isList d = false := by
  cases d with
  | nil => rfl
  | cons n rest =>
      simp only [isData, decide_eq_true_eq] at data
      simp only [isList, decide_eq_false_iff_not]
      omega

theorem itemsOf_flatten (l : List Bytes) (whole : Items l) (fuel : Nat)
    (enough : l.flatten.length ≤ fuel) : itemsOf fuel l.flatten = some l := by
  induction l generalizing fuel with
  | nil => cases fuel <;> rfl
  | cons d rest ih =>
      have first : Item d := whole d List.mem_cons_self
      have others : Items rest := fun e member => whole e (List.mem_cons_of_mem _ member)
      have size := first.sizeAsEncoded_append d rest.flatten
      rw [List.flatten_cons, List.length_append] at enough
      have pos : 0 < d.length := List.length_pos_of_ne_nil first.1
      cases fuel with
      | zero => omega
      | succ fuel =>
          have later := ih others fuel (by omega)
          obtain ⟨n, more, shape⟩ := List.exists_cons_of_ne_nil first.1
          rw [List.flatten_cons]
          have unfolded : itemsOf (fuel + 1) (d ++ rest.flatten) =
              (sizeAsEncoded (d ++ rest.flatten)).bind fun size =>
                (itemsOf fuel ((d ++ rest.flatten).drop size)).map fun tail =>
                  (d ++ rest.flatten).take size :: tail := by
            rw [shape]
            rfl
          rw [unfolded, size, Option.bind_some, List.drop_left, later, Option.map_some,
            List.take_left]

theorem items_appendList (l : List Bytes) (whole : Items l) (bound : l.flatten.length < maxLength) :
    items (appendList l.flatten) = some l := by
  rw [items, if_pos (item_appendList _ bound).2, payload_appendList _ bound, Option.bind_some]
  exact itemsOf_flatten l whole _ le_rfl

theorem item_nth_appendList (l : List Bytes) (whole : Items l)
    (bound : l.flatten.length < maxLength) (i : Nat) :
    item (appendList l.flatten) i = some ((l[i]?).getD []) := by
  rw [item, payload_appendList _ bound, Option.bind_some]
  exact nthItem_flatten l whole i

theorem toHash_appendBytes (size value : Nat) (room : size < maxLength)
    (bound : value < 256 ^ size) :
    toHash size (appendBytes (toBigEndian size value)) = some value := by
  have small : (toBigEndian size value).length < maxLength := by
    rw [toBigEndian_length]
    exact room
  obtain ⟨whole, data⟩ := item_appendBytes _ small
  have exactly : isData (appendBytes (toBigEndian size value)) = true ∧
      (toBigEndian size value).length = size := ⟨data, toBigEndian_length size value⟩
  rw [toHash, whole.requireGood, Option.bind_some, payload_appendBytes _ small, Option.bind_some,
    if_pos exactly, fromBigEndian_toBigEndian size value bound]

theorem toHashLax_appendBytes (size value : Nat) (room : size < maxLength)
    (bound : value < 256 ^ size) :
    toHashLax size (appendBytes (toBigEndian size value)) = some value := by
  have small : (toBigEndian size value).length < maxLength := by
    rw [toBigEndian_length]
    exact room
  obtain ⟨whole, data⟩ := item_appendBytes _ small
  have all : (toBigEndian size value).take size = toBigEndian size value :=
    List.take_of_length_le (toBigEndian_length size value).le
  rw [toHashLax, whole.requireGood, Option.bind_some, payload_appendBytes _ small, Option.map_some,
    if_pos data, all, fromBigEndian_toBigEndian size value bound]

theorem toBytes_appendBytes (s : Bytes) (bound : s.length < maxLength) :
    toBytes (appendBytes s) = some s := by
  rw [toBytes, if_pos (item_appendBytes s bound).2, payload_appendBytes s bound]

theorem isInt_appendBytes (s : Bytes) (bound : s.length < maxLength)
    (leading : ∀ b rest, s = b :: rest → b ≠ 0) : isInt (appendBytes s) = some true := by
  have good := (item_appendBytes s bound).1.requireGood
  cases s with
  | nil => rfl
  | cons b rest =>
      have nonzero : decide (b ≠ 0) = true := decide_eq_true (leading b rest rfl)
      have count : (b :: rest).length = rest.length + 1 := rfl
      unfold appendBytes at good ⊢
      by_cases single : (b :: rest).length = 1 ∧ ((b :: rest).headD 0).toNat < 0x80
      · rw [if_pos single] at good ⊢
        have below : b.toNat < 0x80 := single.2
        simp only [isInt, good, Option.bind_some, if_pos below]
        exact congrArg some nonzero
      rw [if_neg single] at good ⊢
      by_cases short : (b :: rest).length < 56
      · rw [if_pos short] at good ⊢
        have code := ofNat_toNat_lt ((b :: rest).length + 0x80) (by omega)
        have above : ¬ (UInt8.ofNat ((b :: rest).length + 0x80)).toNat < 0x80 := by omega
        have other : ¬ (UInt8.ofNat ((b :: rest).length + 0x80)).toNat = 0x80 := by omega
        have low : (UInt8.ofNat ((b :: rest).length + 0x80)).toNat ≤ 0xb7 := by omega
        simp only [isInt, good, Option.bind_some, if_neg above, if_neg other, if_pos low,
          List.head?_cons, Option.map_some]
        exact congrArg some nonzero
      · rw [if_neg short] at good ⊢
        obtain ⟨least, most⟩ := compact_width (b :: rest).length (by omega) bound
        rw [pushCount, List.cons_append] at good ⊢
        generalize toCompactBigEndian (b :: rest).length = digits at good least most ⊢
        have code := ofNat_toNat_lt (digits.length + 0xb7) (by omega)
        have above : ¬ (UInt8.ofNat (digits.length + 0xb7)).toNat < 0x80 := by omega
        have other : ¬ (UInt8.ofNat (digits.length + 0xb7)).toNat = 0x80 := by omega
        have high : ¬ (UInt8.ofNat (digits.length + 0xb7)).toNat ≤ 0xb7 := by omega
        have data : (UInt8.ofNat (digits.length + 0xb7)).toNat < 0xc0 := by omega
        have place : (UInt8.ofNat (digits.length + 0xb7)).toNat - 0xb7 = digits.length := by omega
        have first : (digits ++ b :: rest)[digits.length]? = some b := by simp
        simp only [isInt, good, Option.bind_some, if_neg above, if_neg other, if_neg high,
          if_pos data, place, first, Option.map_some]
        exact congrArg some nonzero

theorem toInt_appendInt_of_length (maxSize n : Nat) (fits : (toCompactBigEndian n).length ≤ maxSize)
    (room : maxSize < maxLength) : toInt maxSize (appendInt n) = some n := by
  rw [appendInt_eq]
  have bound : (toCompactBigEndian n).length < maxLength := by omega
  obtain ⟨whole, data⟩ := item_appendBytes _ bound
  have canonical := isInt_appendBytes _ bound (toCompact_leading n)
  have accepted : ¬ (true = false ∨ isList (appendBytes (toCompactBigEndian n)) = true) := by
    rw [isList_eq_false _ data]
    simp
  rw [toInt, whole.requireGood, Option.bind_some, canonical, Option.bind_some, if_neg accepted,
    payload_appendBytes _ bound, Option.bind_some, if_neg (by omega), fromBigEndian_toCompact]

theorem toInt_appendInt (n : Nat) (bound : n < 2 ^ 256) : toInt 32 (appendInt n) = some n :=
  toInt_appendInt_of_length 32 n (toCompactBigEndian_length_le 32 n (by simpa using bound))
    (by decide)

theorem mapM_map_some {α : Type} (read : Bytes → Option α) (write : α → Bytes) (values : List α)
    (back : ∀ value ∈ values, read (write value) = some value) :
    (values.map write).mapM read = some values := by
  induction values with
  | nil => rfl
  | cons value rest ih =>
      rw [List.map_cons, List.mapM_cons, back value List.mem_cons_self,
        ih (fun other member => back other (List.mem_cons_of_mem _ member))]
      rfl

theorem toVector_appendList {α : Type} (read : Bytes → Option α) (write : α → Bytes)
    (values : List α) (whole : Items (values.map write))
    (bound : (values.map write).flatten.length < maxLength)
    (back : ∀ value ∈ values, read (write value) = some value) :
    toVector read (appendList (values.map write).flatten) = some values := by
  rw [toVector, if_pos (item_appendList _ bound).2, items_appendList _ whole bound,
    Option.bind_some]
  exact mapM_map_some read write values back

end UtispaceChain.Rlp
