import UtispaceChain.DevCore.RlpStream

/-! What is read from an `RLP`, from its copies and by its iterators, in any order. -/

namespace UtispaceChain.Rlp

open Lib

namespace Iterator

/-- `operator*`. -/
def item (d : Bytes) (it : Iterator) : Option Bytes := construct (it.currentItem.bytes d)

/-- From `begin`, so many steps. -/
def counted (d : Bytes) : Nat → Option Iterator
  | 0 => first d
  | i + 1 => (counted d i).bind (next d)

/-- `end`. -/
def last (d : Bytes) : Iterator := ⟨0, some (d.length, 0)⟩

end Iterator

/-- What is done with objects over the same data, and with iterators of theirs. -/
inductive Access
  | subscript (object : Nat) (i : UInt64)
  | copy (object source : Nat)
  | first (iterator : Nat)
  | next (iterator : Nat)
  | item (iterator : Nat)
  deriving DecidableEq, Repr

/-- The cache of each object, and where each iterator stands. -/
structure Readers where
  caches : Nat → ListCache
  iterators : Nat → Iterator

namespace Readers

def fresh (d : Bytes) : Readers := ⟨fun _ => {}, fun _ => Iterator.last d⟩

def step (d : Bytes) (s : Readers) : Access → Option (Readers × Option Bytes)
  | .subscript object i => ((s.caches object).subscript d i.toNat).map fun (item, cache) =>
      ({ s with caches := Function.update s.caches object cache }, some item)
  | .copy object source =>
      some ({ s with caches := Function.update s.caches object (s.caches source) }, none)
  | .first iterator => (Iterator.first d).map fun it =>
      ({ s with iterators := Function.update s.iterators iterator it }, none)
  | .next iterator => ((s.iterators iterator).next d).map fun it =>
      ({ s with iterators := Function.update s.iterators iterator it }, none)
  | .item iterator => ((s.iterators iterator).item d).map fun item => (s, some item)

end Readers

/-- An item counted from the start of the payload, and null from the number of items on. -/
def plainSubscript (d : Bytes) (i : Nat) : Option Bytes :=
  (itemCount d).bind fun count =>
    if i < count then (Iterator.counted d i).bind (Iterator.item d) else some []

/-- The same accesses where nothing but the iterators is kept. -/
def plainStep (d : Bytes) (iterators : Nat → Iterator) :
    Access → Option ((Nat → Iterator) × Option Bytes)
  | .subscript _ i => (plainSubscript d i.toNat).map fun item => (iterators, some item)
  | .copy _ _ => some (iterators, none)
  | .first iterator =>
      (Iterator.first d).map fun it => (Function.update iterators iterator it, none)
  | .next iterator =>
      ((iterators iterator).next d).map fun it => (Function.update iterators iterator it, none)
  | .item iterator => ((iterators iterator).item d).map fun item => (iterators, some item)

def answers {σ : Type} (step : σ → Access → Option (σ × Option Bytes)) : σ → List Access →
    Option (List (Option Bytes))
  | _, [] => some []
  | s, a :: run => (step s a).bind fun (s, answer) => (answers step s run).map (answer :: ·)

section Sequence

variable {d : Bytes} {l : List Bytes}

theorem Ref.bytes_part (place : Nat) (front part back : Bytes)
    (inside : (d.drop place).take (front ++ part ++ back).length = front ++ part ++ back) :
    Ref.bytes d (some (place + front.length, part.length)) = part := by
  have split : d.drop place =
      front ++ (part ++ (back ++ (d.drop place).drop (front ++ part ++ back).length)) := by
    calc
      d.drop place = (d.drop place).take (front ++ part ++ back).length ++ _ :=
      (List.take_append_drop _ _).symm
      _ = _ := by rw [inside, List.append_assoc, List.append_assoc, List.append_assoc]
  rw [Ref.bytes, ← List.drop_drop, split, List.drop_left, List.take_left]

theorem payloadRef_of_payload {p : Bytes} (read : payload d = some p) :
    payloadRef d = some none ∧ p = [] ∨
      ∃ place, payloadRef d = some (some (place, p.length)) ∧ (d.drop place).take p.length = p := by
  rcases Option.bind_eq_some_iff.mp read with ⟨size, found, rest⟩
  by_cases long : d.length < size
  · rw [if_pos long] at rest
    cases rest
  rw [if_neg long, cropped] at rest
  rw [payloadRef, found, Option.bind_some, if_neg long, Ref.cropped]
  by_cases inside : payloadOffset d + size ≤ d.length
  · right
    rw [if_pos inside] at rest ⊢
    cases rest
    have length : ((d.drop (payloadOffset d)).take size).length = size := by
      rw [List.length_take, List.length_drop]
      omega
    refine ⟨payloadOffset d, ?_, ?_⟩
    · rw [length, Nat.zero_add]
    · rw [length]
  · left
    rw [if_neg inside] at rest ⊢
    cases rest
    exact ⟨rfl, rfl⟩

theorem Items.eq_nil_of_flatten (whole : Items l) (empty : l.flatten = []) : l = [] := by
  apply List.eq_nil_iff_forall_not_mem.mpr
  intro e member
  exact (whole e member).1 (List.flatten_eq_nil_iff.mp empty e member)

theorem construct_nth (whole : Items l) (i : Nat) :
    construct ((l[i]?).getD []) = some ((l[i]?).getD []) := by
  cases here : l[i]? with
  | none => rfl
  | some e => exact (whole e (List.mem_of_getElem? here)).construct

namespace Iterator

/-- Where an iterator stands after so many steps, in a payload that begins at a place. -/
def nth (l : List Bytes) (place i : Nat) : Iterator :=
  ⟨(l.drop (i + 1)).flatten.length,
    some (place + (l.take i).flatten.length, ((l[i]?).getD []).length)⟩

theorem split_nth (l : List Bytes) (i : Nat) :
    l.flatten = (l.take i).flatten ++ (l[i]?).getD [] ++ (l.drop (i + 1)).flatten := by
  have here : (l.take (i + 1)).flatten = (l.take i).flatten ++ (l[i]?).getD [] := by
    rw [List.take_add_one]
    cases l[i]? <;> simp
  rw [← here, ← List.flatten_append, List.take_append_drop]

theorem nth_bytes (place : Nat) (inside : (d.drop place).take l.flatten.length = l.flatten)
    (i : Nat) :
    (nth l place i).currentItem.bytes d = (l[i]?).getD [] := by
  rw [split_nth l i] at inside
  exact Ref.bytes_part place _ _ _ inside

theorem nth_next (whole : Items l) (place : Nat)
    (inside : (d.drop place).take l.flatten.length = l.flatten) (i : Nat) :
    (nth l place i).next d = some (nth l place (i + 1)) := by
  have behind : place + (l.take i).flatten.length + ((l[i]?).getD []).length =
      place + (l.take (i + 1)).flatten.length := by
    rw [List.take_add_one]
    cases l[i]? <;> simp [Nat.add_assoc]
  have tail : (l.drop (i + 1)).flatten = (l[i + 1]?).getD [] ++ (l.drop (i + 1 + 1)).flatten := by
    rw [List.drop_add_one_eq_tail_drop (i := i + 1)]
    rw [← List.head?_drop]
    cases l.drop (i + 1) <;> simp
  unfold next nth
  dsimp only [Ref.behind]
  rw [behind]
  by_cases left : (l.drop (i + 1)).flatten.length = 0
  · have spent : l.drop (i + 1) = [] :=
      (whole.drop (i + 1)).eq_nil_of_flatten (List.length_eq_zero_iff.mp left)
    have gone : l[i + 1]? = none := by
      rw [← List.head?_drop, spent]
      rfl
    rw [if_neg (not_not.mpr left), gone]
    rw [tail, List.length_append] at left
    have rest : (l.drop (i + 1 + 1)).flatten.length = 0 := by omega
    rw [rest]
    rfl
  · have bytes : Ref.bytes d
      (some (place + (l.take (i + 1)).flatten.length, (l.drop (i + 1)).flatten.length)) =
        (l.drop (i + 1)).flatten := by
      apply Ref.bytes_part place _ _ []
      rw [List.append_nil, ← List.flatten_append, List.take_append_drop]
      exact inside
    have size := (Rlp.next_item whole (i + 1)).1
    have total := congrArg List.length tail
    rw [List.length_append] at total
    rw [if_pos left, bytes, size, Option.map_some, Ref.cropped, if_pos (by omega), Ref.size,
      Nat.add_zero]
    congr 2
    omega

theorem counted_spec (whole : Items l) (list : isList d = true) (read : payload d = some l.flatten)
    (i : Nat) :
    ∃ it, counted d i = some it ∧ it.item d = some ((l[i]?).getD []) := by
  have size := (Rlp.next_item whole 0).1
  rw [List.drop_zero] at size
  rcases payloadRef_of_payload read with ⟨nowhere, empty⟩ | ⟨place, found, inside⟩
  · obtain rfl : l = [] := whole.eq_nil_of_flatten empty
    have stays : counted d i = some ⟨0, none⟩ := by
      induction i with
      | zero =>
          rw [counted, first, if_pos list, nowhere]
          rfl
      | succ i ih =>
          rw [counted, ih]
          rfl
    exact ⟨_, stays, rfl⟩
  · have stands : counted d i = some (nth l place i) := by
      induction i with
      | zero =>
          have bytes : Ref.bytes d (some (place, l.flatten.length)) = l.flatten := inside
          have split := congrArg List.length (split_nth l 0)
          simp only [List.take_zero, List.flatten_nil, List.nil_append, List.length_append] at split
          rw [counted, first, if_pos list, found, Option.bind_some, bytes, size, Option.map_some,
            Ref.cropped, if_pos (by omega), Ref.size, Ref.size, nth]
          congr 2
          omega
      | succ i ih => rw [counted, ih, Option.bind_some, nth_next whole place inside]
    refine ⟨_, stands, ?_⟩
    rw [item, nth_bytes place inside, construct_nth whole]

/-- An iterator of the list: before `begin` it is `end`. -/
def Of (d : Bytes) (it : Iterator) : Prop := it = last d ∨ ∃ i, counted d i = some it

theorem Of.next {it : Iterator} (whole : Items l) (list : isList d = true)
    (read : payload d = some l.flatten) (stands : it.Of d) : ∃ it', it.next d = some it' ∧
    it'.Of d := by
  rcases stands with rfl | ⟨i, here⟩
  · exact ⟨last d, rfl, .inl rfl⟩
  · rcases counted_spec whole list read (i + 1) with ⟨it', there, -⟩
    refine ⟨it', ?_, .inr ⟨i + 1, there⟩⟩
    rw [counted, here, Option.bind_some] at there
    exact there

theorem Of.item {it : Iterator} (whole : Items l) (list : isList d = true)
    (read : payload d = some l.flatten) (stands : it.Of d) : ∃ found, it.item d = some found := by
  rcases stands with rfl | ⟨i, here⟩
  · refine ⟨[], ?_⟩
    have empty : Ref.bytes d (some (d.length, 0)) = [] := List.take_zero (l := d.drop d.length)
    rw [Iterator.item, last, empty]
    rfl
  · rcases counted_spec whole list read i with ⟨it', there, found⟩
    cases here.symm.trans there
    exact ⟨_, found⟩

end Iterator

theorem itemCount_of_items (list : isList d = true) (filled : items d = some l) :
    itemCount d = some l.length := by
  rw [items, if_pos list] at filled
  rcases Option.bind_eq_some_iff.mp filled with ⟨p, read, split⟩
  rw [itemCount, if_pos list, read, Option.bind_some, countFrom_eq, split, Option.map_some]

theorem payload_of_items (list : isList d = true) (filled : items d = some l) :
    payload d = some l.flatten ∧ Items l := by
  rw [items, if_pos list] at filled
  rcases Option.bind_eq_some_iff.mp filled with ⟨p, read, split⟩
  rcases itemsOf_spec _ _ _ split with ⟨joined, whole⟩
  exact ⟨by rw [read, joined], whole⟩

theorem length_lt {n : Nat} (read : length d = some n) : n < 2 ^ 64 := by
  cases d with
  | nil =>
      cases read
      decide
  | cons b rest =>
      rcases Option.bind_eq_some_iff.mp read with ⟨good, -, tail⟩
      have byte := b.toNat_lt
      by_cases single : b.toNat < 0x80
      · rw [if_pos single] at tail
        cases tail
        decide
      rw [if_neg single] at tail
      by_cases short : b.toNat ≤ 0xb7
      · rw [if_pos short, Option.some.injEq] at tail
        omega
      rw [if_neg short] at tail
      by_cases data : b.toNat < 0xc0
      · rw [if_pos data] at tail
        have bound := (longLength_some _ _ _ tail).2.2.2.2.2
        omega
      rw [if_neg data] at tail
      by_cases list : b.toNat ≤ 0xf7
      · rw [if_pos list, Option.some.injEq] at tail
        omega
      rw [if_neg list] at tail
      have bound := (longLength_some _ _ _ tail).2.2.2.2.2
      omega

theorem Items.count_lt (whole : Items l) (read : payload d = some l.flatten) :
    l.length < 2 ^ 64 := by
  have count := Items.length_le l whole
  rcases payloadRef_of_payload read with ⟨-, empty⟩ | ⟨place, found, inside⟩
  · rw [empty, List.length_nil] at count
    omega
  · rcases Option.bind_eq_some_iff.mp found with ⟨size, length, rest⟩
    have bound := length_lt length
    by_cases long : d.length < size
    · rw [if_pos long] at rest
      cases rest
    rw [if_neg long, Option.some.injEq, Ref.cropped] at rest
    by_cases fits : payloadOffset d + size ≤ d.length
    · rw [if_pos fits] at rest
      cases rest
      omega
    · rw [if_neg fits] at rest
      cases rest

theorem plainSubscript_eq (whole : Items l) (list : isList d = true)
    (read : payload d = some l.flatten) (count : itemCount d = some l.length) (i : Nat) :
    plainSubscript d i = some ((l[i]?).getD []) := by
  rw [plainSubscript, count, Option.bind_some]
  by_cases below : i < l.length
  · rcases Iterator.counted_spec whole list read i with ⟨it, there, found⟩
    rw [if_pos below, there, Option.bind_some, found]
  · rw [if_neg below, List.getElem?_eq_none (by omega), Option.getD_none]

namespace Readers

/-- Every cache is one that accesses of the list leave, and every iterator is one of the list. -/
structure Sound (d : Bytes) (l : List Bytes) (s : Readers) : Prop where
  caches : ∀ object, (s.caches object).Ready l
  iterators : ∀ iterator, (s.iterators iterator).Of d

theorem sound_fresh (d : Bytes) (l : List Bytes) : (fresh d).Sound d l :=
  ⟨fun _ => .inl rfl, fun _ => .inl rfl⟩

theorem Sound.cache {s : Readers} (sound : s.Sound d l) (object : Nat) {cache : ListCache}
    (ready : cache.Ready l) :
    Sound d l { s with caches := Function.update s.caches object cache } := by
  refine ⟨fun other => ?_, sound.iterators⟩
  rcases eq_or_ne other object with rfl | apart
  · dsimp only
    rw [Function.update_self]
    exact ready
  · dsimp only
    rw [Function.update_of_ne apart]
    exact sound.caches other

theorem Sound.iterator {s : Readers} (sound : s.Sound d l) (iterator : Nat) {it : Iterator}
    (stands : it.Of d) :
    Sound d l { s with iterators := Function.update s.iterators iterator it } := by
  refine ⟨sound.caches, fun other => ?_⟩
  rcases eq_or_ne other iterator with rfl | apart
  · dsimp only
    rw [Function.update_self]
    exact stands
  · dsimp only
    rw [Function.update_of_ne apart]
    exact sound.iterators other

theorem Sound.step {s : Readers} (sound : s.Sound d l) (list : isList d = true)
    (filled : items d = some l) (a : Access) : ∃ s' answer, s.step d a = some (s', answer) ∧
      plainStep d s.iterators a = some (s'.iterators, answer) ∧ s'.Sound d l := by
  rcases payload_of_items list filled with ⟨read, whole⟩
  cases a with
  | subscript object i =>
      rcases (sound.caches object).subscript whole read (whole.count_lt read) i.toNat i.toNat_lt
        with ⟨cache, item, ready⟩
      have plain := plainSubscript_eq whole list read (itemCount_of_items list filled) i.toNat
      refine ⟨_, some ((l[i.toNat]?).getD []), ?_, ?_, sound.cache object ready⟩
      · rw [Readers.step, item, Option.map_some]
      · rw [plainStep, plain, Option.map_some]
  | copy object source => exact ⟨_, none, rfl, rfl, sound.cache object (sound.caches source)⟩
  | first iterator =>
      rcases Iterator.counted_spec whole list read 0 with ⟨it, begun, -⟩
      refine ⟨_, none, ?_, ?_, sound.iterator iterator (.inr ⟨0, begun⟩)⟩
      · rw [Readers.step, ← Iterator.counted, begun, Option.map_some]
      · rw [plainStep, ← Iterator.counted, begun, Option.map_some]
  | next iterator =>
      rcases (sound.iterators iterator).next whole list read with ⟨it, moved, stands⟩
      refine ⟨_, none, ?_, ?_, sound.iterator iterator stands⟩
      · rw [Readers.step, moved, Option.map_some]
      · rw [plainStep, moved, Option.map_some]
  | item iterator =>
      rcases (sound.iterators iterator).item whole list read with ⟨item, found⟩
      refine ⟨s, some item, ?_, ?_, sound⟩
      · rw [Readers.step, found, Option.map_some]
      · rw [plainStep, found, Option.map_some]

theorem Sound.answers {s : Readers} (sound : s.Sound d l) (list : isList d = true)
    (filled : items d = some l) (run : List Access) : ∃ found, answers (Readers.step d) s run =
      some found ∧
      Rlp.answers (plainStep d) s.iterators run = some found := by
  induction run generalizing s with
  | nil => exact ⟨[], rfl, rfl⟩
  | cons a run ih =>
      rcases sound.step list filled a with ⟨s', answer, cached, plain, sound'⟩
      rcases ih sound' with ⟨found, later, laterPlain⟩
      refine ⟨answer :: found, ?_, ?_⟩
      · rw [Rlp.answers, cached, Option.bind_some]
        dsimp only
        rw [later, Option.map_some]
      · rw [Rlp.answers, plain, Option.bind_some]
        dsimp only
        rw [laterPlain, Option.map_some]

end Readers

/-- Whatever was read before, of the object, of its copies and by iterators, the subscript operator
gives what counting from the start of the payload gives. -/
theorem cached_access_plain (list : isList d = true) (filled : items d = some l)
    (run : List Access) :
    ∃ found, answers (Readers.step d) (Readers.fresh d) run = some found ∧
      answers (plainStep d) (Readers.fresh d).iterators run = some found :=
  (Readers.sound_fresh d l).answers list filled run

/-- Jumps, repeats, a place behind the end and a copy, around an iterator. -/
theorem cached_access_plain_mixed :
    ∃ found, answers (Readers.step [0xc4, 0x01, 0x82, 0x61, 0x62])
      (Readers.fresh [0xc4, 0x01, 0x82, 0x61, 0x62])
        [.subscript 0 1, .first 0, .copy 1 0, .subscript 1 5, .next 0, .subscript 1 0, .item 0,
          .subscript 0 1] =
          some found ∧
      answers (plainStep [0xc4, 0x01, 0x82, 0x61, 0x62])
        (Readers.fresh [0xc4, 0x01, 0x82, 0x61, 0x62]).iterators
        [.subscript 0 1, .first 0, .copy 1 0, .subscript 1 5, .next 0, .subscript 1 0, .item 0,
          .subscript 0 1] =
          some found :=
  cached_access_plain (l := [[0x01], [0x82, 0x61, 0x62]]) (by decide) (by decide) _

end Sequence

end UtispaceChain.Rlp
