import Mathlib.Algebra.Group.Nat.Defs
import UtispaceChain.Lib.Chunks
import UtispaceChain.Lib.Run

/-! The maps of downloaded headers and bodies: `std::map<unsigned, std::vector<T>>` with the helper
functions of the block chain synchronization. -/

namespace UtispaceChain

open Lib Chunks

namespace DownloadMap

variable {α : Type}

/-- `lower_bound`: the entries before the iterator, nearest first, and those from it on. -/
def lowerBound (container : Chunks α) (number : Nat) : Chunks α × Chunks α :=
  ((container.takeWhile fun entry => decide (entry.1 < number)).reverse,
    container.dropWhile fun entry => decide (entry.1 < number))

def itemsAt (lower : Chunks α) (number : Nat) : Option (List α) :=
  match lower with
  | (key, items) :: _ => if key = number then some items else none
  | [] => none

/-- `insert`: an entry whose key is there already stays. -/
def insert (container : Chunks α) (key : Nat) (items : List α) : Chunks α :=
  let lower := lowerBound container key
  match itemsAt lower.2 key with
  | some _ => container
  | none => lower.1.reverse ++ (key, items) :: lower.2

def insertFilled (container : Chunks α) (key : Nat) (items : List α) : Chunks α :=
  match items with
  | [] => container
  | item :: more => insert container key (item :: more)

/-- `erase(begin() + first, end())`, undefined beyond the end. -/
def eraseFrom (items : List α) (first : Nat) : Option (List α) :=
  if first ≤ items.length then some (items.take first) else none

def inside (key : Nat) (items : List α) (number : Nat) : Bool :=
  decide (key ≤ number) && decide (number < key + items.length)

def haveItem (container : Chunks α) (number : Nat) : Bool :=
  let lower := lowerBound container number
  match itemsAt lower.2 number with
  | some _ => true
  | none =>
      match lower.1 with
      | [] => false
      | (key, items) :: _ => inside key items number

/-- The outer option is undefined behaviour, the inner one the null pointer. -/
def findItem (container : Chunks α) (number : Nat) : Option (Option α) :=
  let lower := lowerBound container number
  match itemsAt lower.2 number with
  | some items => items.head?.map some
  | none =>
      match lower.1 with
      | [] => some none
      | (key, items) :: _ => if inside key items number then some items[number - key]?
          else some none

/-- The vector of the run is moved into the new list; inside a run, what is left of it, an empty
vector, is then shortened in its place. -/
def removeItem (container : Chunks α) (number : Nat) : Option (Chunks α) :=
  let lower := lowerBound container number
  let newKey := (number + 1) % 2 ^ 32
  match itemsAt lower.2 number with
  | some [] => none
  | some (_ :: newList) => some (insertFilled (lower.1.reverse ++ lower.2.tail) newKey newList)
  | none =>
      match lower.1 with
      | [] => some container
      | (key, items) :: earlier =>
          if inside key items number then
            (eraseFrom [] (number - key)).map fun left =>
              insertFilled (earlier.reverse ++ (key, left) :: lower.2) newKey
                (items.drop (number - key + 1))
          else some container

def removeAllStartingWith (container : Chunks α) (number : Nat) : Option (Chunks α) :=
  let lower := lowerBound container number
  match itemsAt lower.2 number with
  | some _ => some lower.1.reverse
  | none =>
      match lower.1 with
      | [] => some []
      | (key, items) :: earlier =>
          if inside key items number then
            (eraseFrom items (number - key)).map fun left => earlier.reverse ++ [(key, left)]
          else some (earlier.reverse ++ [(key, items)])

/-- Append the chunk that follows when its first number is the next one. -/
def joinNext (key : Nat) (items : List α) (next : Nat) (later : Chunks α) : Chunks α :=
  match later with
  | [] => [(key, items)]
  | (nextKey, nextItems) :: rest =>
      if nextKey = next then (key, items ++ nextItems) :: rest
      else (key, items) :: (nextKey, nextItems) :: rest

def insertChunk (container : Chunks α) (number : Nat) (data : α) : Chunks α :=
  let inserted := insert container number [data]
  let lower := lowerBound inserted number
  match lower.2 with
  | [] => inserted
  | (key, items) :: later => lower.1.reverse ++ joinNext key items ((number + 1) % 2 ^ 32) later

def mergeInto (container : Chunks α) (number : Nat) (data : α) : Chunks α :=
  let lower := lowerBound container number
  let stepped := match lower.1 with
    | [] => ([], lower.2)
    | entry :: earlier => (earlier, entry :: lower.2)
  match stepped.2 with
  | [] => insertChunk container number data
  | (key, items) :: later =>
      if key + items.length = number then
        stepped.1.reverse ++ joinNext key (items ++ [data]) (key + (items ++ [data]).length) later
      else insertChunk container number data

def assign (container : Chunks α) (key : Nat) (items : List α) : Chunks α :=
  let lower := lowerBound container key
  match itemsAt lower.2 key with
  | some _ => lower.1.reverse ++ (key, items) :: lower.2.tail
  | none => lower.1.reverse ++ (key, items) :: lower.2

/-- The first run loses its first items, as in `collectBlocks`. -/
def dropFront (container : Chunks α) (count : Nat) : Chunks α :=
  match container with
  | [] => []
  | (first, items) :: later =>
      match items.drop count with
      | [] => later
      | item :: more => assign later ((first + count) % 2 ^ 32) (item :: more)

/-! Where a number stands. -/

theorem lowerBound_split (before after : Chunks α) (number : Nat)
    (low : ∀ entry ∈ before, entry.1 < number) (high : ∀ entry ∈ after, number ≤ entry.1) :
    lowerBound (before ++ after) number = (before.reverse, after) := by
  have early : ∀ entry ∈ before, decide (entry.1 < number) = true :=
    fun entry member => decide_eq_true (low entry member)
  have late : after.takeWhile (fun entry => decide (entry.1 < number)) = [] ∧
      after.dropWhile (fun entry => decide (entry.1 < number)) = after := by
    cases after with
    | nil => exact ⟨rfl, rfl⟩
    | cons entry rest =>
        have reached : ¬ entry.1 < number := Nat.not_lt.mpr (high entry List.mem_cons_self)
        simp [reached]
  simp only [lowerBound, List.takeWhile_append_of_pos early, List.dropWhile_append_of_pos early,
    late, List.append_nil]

theorem itemsAt_above (after : Chunks α) (number : Nat) (above : Above after number) :
    itemsAt after number = none := by
  cases after with
  | nil => rfl
  | cons entry rest =>
      have other : entry.1 ≠ number := Nat.ne_of_gt (above entry List.mem_cons_self)
      simp [itemsAt, other]

/-- The number is the first of a run, further inside a run, or free. -/
inductive Place : Chunks α → Nat → Prop
  | start (before : Chunks α) (number : Nat) (item : α) (items : List α) (after : Chunks α)
      (low : ∀ entry ∈ before, entry.1 < number) :
      Place (before ++ (number, item :: items) :: after) number
  | within (before : Chunks α) (key : Nat) (items : List α) (after : Chunks α) (number : Nat)
      (low : ∀ entry ∈ before, entry.1 < key) (past : key < number)
      (short : number < key + items.length) (above : Above after number) :
      Place (before ++ (key, items) :: after) number
  | free (before after : Chunks α) (number : Nat) (below : Below before number)
      (low : ∀ entry ∈ before, entry.1 < number) (above : Above after number) :
      Place (before ++ after) number

theorem below_low {before : Chunks α} {number : Nat} (proper : Proper before)
    (below : Below before number) : ∀ entry ∈ before, entry.1 < number := by
  intro entry member
  have ends : entry.1 + entry.2.length ≤ number := below entry member
  have filled : 0 < entry.2.length := List.length_pos_iff.mpr (proper.filled entry member)
  omega

theorem place (container : Chunks α) (number : Nat) (proper : Proper container) :
    Place container number := by
  induction container using List.reverseRecOn with
  | nil => exact .free [] [] number (by simp [Below]) (by simp) (by simp [Above])
  | append_singleton before entry ih =>
      rcases entry with ⟨key, items⟩
      rcases (proper_append_cons before [] key items).mp proper with ⟨early, -, filled, ends, -⟩
      have low : ∀ entry ∈ before, entry.1 < key := fun entry member => by
        have ended := ends entry member
        omega
      rcases Nat.lt_trichotomy number key with less | same | more
      · have beyond : Above [(key, items)] number := by simpa [Above] using less
        have earlier : Place before number := ih early
        cases earlier with
        | start left _ item rest right lower =>
            simpa using Place.start left number item rest (right ++ [(key, items)]) lower
        | within left first middle right _ lower past short above =>
            have further : Above (right ++ [(key, items)]) number := by
              intro run member
              rcases List.mem_append.mp member with old | new
              · exact above run old
              · exact beyond run new
            simpa using Place.within left first middle (right ++ [(key, items)]) number
              lower past short
              further
        | free left right _ below lower above =>
            have further : Above (right ++ [(key, items)]) number := by
              intro run member
              rcases List.mem_append.mp member with old | new
              · exact above run old
              · exact beyond run new
            simpa using Place.free left (right ++ [(key, items)]) number below lower further
      · subst same
        cases items with
        | nil => exact absurd rfl filled
        | cons item rest => exact .start before number item rest [] low
      · by_cases short : number < key + items.length
        · exact .within before key items [] number low more short (by simp [Above])
        · have below : Below (before ++ [(key, items)]) number := by
            intro run member
            rcases List.mem_append.mp member with old | new
            · have ended := ends run old
              omega
            · cases List.mem_singleton.mp new
              exact Nat.not_lt.mp short
          simpa using Place.free (before ++ [(key, items)]) [] number below (below_low proper below)
            (by simp [Above])

/-! The answers. -/

theorem get_start (before after : Chunks α) (number : Nat) (item : α) (items : List α)
    (proper : Proper (before ++ (number, item :: items) :: after)) :
    get (before ++ (number, item :: items) :: after) number = some item := by
  have ends := ((proper_append_cons _ _ _ _).mp proper).2.2.2.1
  have below : Below before number := fun entry member => Nat.le_of_lt (ends entry member)
  simp [get_append, below.get, get_cons]

theorem get_within (before after : Chunks α) (key number : Nat) (items : List α)
    (proper : Proper (before ++ (key, items) :: after)) (reached : key ≤ number)
    (short : number < key + items.length) :
    get (before ++ (key, items) :: after) number = items[number - key]? := by
  have ends := ((proper_append_cons _ _ _ _).mp proper).2.2.2.1
  have below : Below before number := fun entry member => by
    have ended := ends entry member
    omega
  simp [get_append, below.get, get_cons, reached, short]

theorem get_free (before after : Chunks α) (number : Nat) (below : Below before number)
    (above : Above after number) : get (before ++ after) number = none := by
  simp [get_append, below.get, above.get]

theorem inside_below (key : Nat) (items : List α) (number : Nat)
    (ended : key + items.length ≤ number) :
    inside key items number = false := by
  have past : ¬ number < key + items.length := Nat.not_lt.mpr ended
  simp [inside, past]

theorem within_low {before : Chunks α} {key number : Nat} {items : List α}
    (low : ∀ entry ∈ before, entry.1 < key) (past : key < number) :
    ∀ entry ∈ before ++ [(key, items)], entry.1 < number := by
  intro entry member
  rcases List.mem_append.mp member with old | new
  · exact Nat.lt_trans (low entry old) past
  · cases List.mem_singleton.mp new
    exact past

theorem above_high {after : Chunks α} {number : Nat} (above : Above after number) :
    ∀ entry ∈ after, number ≤ entry.1 :=
  fun entry member => Nat.le_of_lt (above entry member)

theorem lowerBound_within (before after : Chunks α) (key number : Nat) (items : List α)
    (low : ∀ entry ∈ before, entry.1 < key) (past : key < number) (above : Above after number) :
    lowerBound (before ++ (key, items) :: after) number =
      ((key, items) :: before.reverse, after) := by
  have split := lowerBound_split (before ++ [(key, items)]) after number (within_low low past)
    (above_high above)
  simpa using split

theorem lowerBound_start (before after : Chunks α) (number : Nat) (items : List α)
    (low : ∀ entry ∈ before, entry.1 < number) (above : Above after number) :
    lowerBound (before ++ (number, items) :: after) number =
      (before.reverse, (number, items) :: after) := by
  apply lowerBound_split before ((number, items) :: after) number low
  intro entry member
  rcases List.mem_cons.mp member with rfl | later
  · exact Nat.le_refl number
  · exact Nat.le_of_lt (above entry later)

theorem above_start {before after : Chunks α} {number : Nat} {items : List α}
    (proper : Proper (before ++ (number, items) :: after)) : Above after number :=
  ((proper_append_cons _ _ _ _).mp proper).2.2.2.2.anti (Nat.le_add_right _ _)

theorem haveItem_eq (container : Chunks α) (number : Nat) (proper : Proper container) :
    haveItem container number = (get container number).isSome := by
  cases place container number proper with
  | start before _ item items after low =>
      simp [haveItem, lowerBound_start before after number _ low (above_start proper), itemsAt,
        get_start before after number item items proper]
  | within before key items after _ low past short above =>
      have bound : number - key < items.length := by omega
      simp [haveItem, lowerBound_within before after key number items low past above,
        itemsAt_above after number above, inside, Nat.le_of_lt past, short,
        get_within before after key number items proper (Nat.le_of_lt past) short,
        List.getElem?_eq_getElem bound]
  | free before after _ below low above =>
      rw [get_free before after number below above]
      simp only [haveItem, lowerBound_split before after number low (above_high above),
        itemsAt_above after number above, Option.isSome_none]
      cases last : before.reverse with
      | nil => rfl
      | cons entry earlier =>
          have member : entry ∈ before := by
            rw [← List.mem_reverse, last]
            exact List.mem_cons_self
          exact inside_below entry.1 entry.2 number (below entry member)

theorem findItem_eq (container : Chunks α) (number : Nat) (proper : Proper container) :
    findItem container number = some (get container number) := by
  cases place container number proper with
  | start before _ item items after low =>
      simp [findItem, lowerBound_start before after number _ low (above_start proper), itemsAt,
        get_start before after number item items proper]
  | within before key items after _ low past short above =>
      simp [findItem, lowerBound_within before after key number items low past above,
        itemsAt_above after number above, inside, Nat.le_of_lt past, short,
        get_within before after key number items proper (Nat.le_of_lt past) short]
  | free before after _ below low above =>
      rw [get_free before after number below above]
      simp only [findItem, lowerBound_split before after number low (above_high above),
        itemsAt_above after number above]
      cases last : before.reverse with
      | nil => rfl
      | cons entry earlier =>
          have member : entry ∈ before := by
            rw [← List.mem_reverse, last]
            exact List.mem_cons_self
          simp [inside_below entry.1 entry.2 number (below entry member)]

/-! Insertion. -/

theorem insert_free (before after : Chunks α) (number : Nat) (items : List α)
    (low : ∀ entry ∈ before, entry.1 < number) (above : Above after number) :
    insert (before ++ after) number items = before ++ (number, items) :: after := by
  simp [insert, lowerBound_split before after number low (above_high above),
    itemsAt_above after number above]

theorem joinNext_spec (before later : Chunks α) (key : Nat) (items : List α)
    (proper : Proper before) (following : Proper later) (filled : items ≠ [])
    (low : ∀ entry ∈ before, entry.1 + entry.2.length < key)
    (beyond : ∀ entry ∈ later, key + items.length ≤ entry.1) :
    Proper (before ++ joinNext key items (key + items.length) later) ∧
      get (joinNext key items (key + items.length) later) = get ((key, items) :: later) := by
  cases later with
  | nil =>
      refine ⟨?_, rfl⟩
      exact (proper_append_cons before [] key items).mpr ⟨proper, proper_nil, filled, low,
        by simp [Above]⟩
  | cons next rest =>
      rcases next with ⟨nextKey, nextItems⟩
      rcases (proper_append_cons [] rest nextKey nextItems).mp following with
        ⟨-, tail, some, -, above⟩
      by_cases joined : nextKey = key + items.length
      · subst joined
        constructor
        · simp only [joinNext, if_true]
          apply (proper_append_cons before rest key (items ++ nextItems)).mpr
          refine ⟨proper, tail, by simp [filled], low, ?_⟩
          intro entry member
          have past := above entry member
          rw [List.length_append]
          omega
        · funext n
          simp only [joinNext, if_true]
          have split := congrFun (get_join key items nextItems) n
          calc get ((key, items ++ nextItems) :: rest) n
              = (get [(key, items ++ nextItems)] n).or (get rest n) := get_append [_] rest n
            _ = (get [(key, items), (key + items.length, nextItems)] n).or (get rest n) := by
              rw [split]
            _ = get ((key, items) :: (key + items.length, nextItems) :: rest) n :=
                (get_append [_, _] rest n).symm
      · simp only [joinNext, if_neg joined, and_true]
        apply (proper_append_cons before ((nextKey, nextItems) :: rest) key items).mpr
        refine ⟨proper, following, filled, low, ?_⟩
        intro entry member
        have least : key + items.length ≤ nextKey := beyond (nextKey, nextItems) List.mem_cons_self
        rcases List.mem_cons.mp member with rfl | further
        · exact Nat.lt_of_le_of_ne least (Ne.symm joined)
        · have past := above entry further
          show key + items.length < entry.1
          omega

theorem insertChunk_spec (before after : Chunks α) (number : Nat) (data : α)
    (proper : Proper (before ++ after)) (ends : ∀ entry ∈ before, entry.1 + entry.2.length < number)
    (above : Above after number) (bound : after ≠ [] → number + 1 < 2 ^ 32) :
    Proper (insertChunk (before ++ after) number data) ∧
      get (insertChunk (before ++ after) number data) =
        Function.update (get (before ++ after)) number (some data) := by
  have low : ∀ entry ∈ before, entry.1 < number := fun entry member => by
    have ended := ends entry member
    omega
  have below : Below before number := fun entry member => Nat.le_of_lt (ends entry member)
  have chunk : insertChunk (before ++ after) number data =
      before ++ joinNext number [data] (number + 1) after := by
    cases after with
    | nil =>
        simp only [insertChunk, insert_free before [] number [data] low above,
          lowerBound_start before [] number [data] low above, joinNext, List.reverse_reverse]
    | cons entry later =>
        have next : (number + 1) % 4294967296 = number + 1 :=
          Nat.mod_eq_of_lt (bound (List.cons_ne_nil _ _))
        simp [insertChunk, insert_free before (entry :: later) number [data] low above,
          lowerBound_start before (entry :: later) number [data] low above, next]
  have late : Proper after :=
    ⟨fun entry member => proper.filled entry (List.mem_append_right _ member),
    (List.pairwise_append.mp proper.apart).2.1⟩
  rcases joinNext_spec before after number [data] proper.left late (by simp) ends
    (fun entry member => above entry member) with ⟨joined, same⟩
  rw [chunk]
  refine ⟨joined, ?_⟩
  have single : get [(number, [data])] = Function.update (get ([] : Chunks α)) number (some data) :=
    get_singleton number data
  have placed :=
    get_replace before after [] [(number, [data])] number (some data) below.get above.get single
  funext n
  calc get (before ++ joinNext number [data] (number + 1) after) n
      = (get before n).or (get ((number, [data]) :: after) n) := by
        rw [get_append]
        exact congrArg _ (congrFun same n)
    _ = get (before ++ ([(number, [data])] ++ after)) n := (get_append _ _ n).symm
    _ = Function.update (get (before ++ after)) number (some data) n := congrFun placed n

theorem extend_spec (before after : Chunks α) (key : Nat) (items : List α) (data : α)
    (proper : Proper (before ++ (key, items) :: after)) (above : Above after (key + items.length)) :
    let extended := items ++ [data]
    Proper (before ++ joinNext key extended (key + extended.length) after) ∧
      get (before ++ joinNext key extended (key + extended.length) after) =
        Function.update (get (before ++ (key, items) :: after)) (key + items.length)
          (some data) := by
  intro extended
  rcases (proper_append_cons before after key items).mp proper with ⟨early, late, filled, ends, -⟩
  have beyond : ∀ entry ∈ after, key + extended.length ≤ entry.1 := by
    intro entry member
    have past : key + items.length < entry.1 := above entry member
    have length : extended.length = items.length + 1 := List.length_append
    omega
  rcases joinNext_spec before after key extended early late (by simp [extended]) ends beyond with
    ⟨joined, same⟩
  refine ⟨joined, ?_⟩
  have below : Below before (key + items.length) := fun entry member => by
    have ended := ends entry member
    omega
  have placed :=
    get_replace before after [(key, items)] [(key, extended)] (key + items.length) (some data)
    below.get above.get (get_extend key items data)
  funext n
  calc get (before ++ joinNext key extended (key + extended.length) after) n
      = (get before n).or (get ((key, extended) :: after) n) := by
        rw [get_append, same]
    _ = get (before ++ ([(key, extended)] ++ after)) n := (get_append _ _ n).symm
    _ = Function.update (get (before ++ (key, items) :: after)) (key + items.length)
      (some data) n :=
        congrFun placed n

theorem mergeInto_spec (container : Chunks α) (number : Nat) (data : α) (proper : Proper container)
    (absent : get container number = none)
    (bound : ∀ entry ∈ container, number < entry.1 → number + 1 < 2 ^ 32) :
    Proper (mergeInto container number data) ∧
      get (mergeInto container number data) =
        Function.update (get container) number (some data) := by
  cases place container number proper with
  | start before _ item items after low =>
      rw [get_start before after number item items proper] at absent
      cases absent
  | within before key items after _ low past short above =>
      have inner : number - key < items.length := by omega
      rw [get_within before after key number items proper (Nat.le_of_lt past) short,
        List.getElem?_eq_getElem inner] at absent
      cases absent
  | free before after _ below low above =>
      have split := lowerBound_split before after number low (above_high above)
      have room : after ≠ [] → number + 1 < 2 ^ 32 := fun filled =>
        have last : after.head filled ∈ after := List.head_mem filled
        bound _ (List.mem_append_right before last) (above _ last)
      rcases List.eq_nil_or_concat' before with rfl | ⟨early, ⟨key, items⟩, rfl⟩
      · have chunk : mergeInto ([] ++ after) number data =
            insertChunk ([] ++ after) number data := by
          simp only [mergeInto, split, List.reverse_nil]
          cases after with
          | nil => rfl
          | cons entry later =>
              have past : number < entry.1 := above entry List.mem_cons_self
              have other : entry.1 + entry.2.length ≠ number := by omega
              exact if_neg other
        rw [chunk]
        exact insertChunk_spec [] after number data proper (by simp) above room
      · have shape : early ++ [(key, items)] ++ after = early ++ (key, items) :: after := by simp
        have ended : key + items.length ≤ number := below (key, items) (by simp)
        have lower : lowerBound (early ++ (key, items) :: after) number =
            ((key, items) :: early.reverse, after) := by
          simpa using split
        by_cases adjacent : key + items.length = number
        · have grown : mergeInto (early ++ (key, items) :: after) number data =
              early ++ joinNext key (items ++ [data]) (key + (items ++ [data]).length) after := by
            simp [mergeInto, lower, adjacent]
          rw [shape] at proper ⊢
          rw [grown, ← adjacent]
          exact extend_spec early after key items data proper (adjacent ▸ above)
        · have chunk : mergeInto (early ++ [(key, items)] ++ after) number data =
              insertChunk (early ++ [(key, items)] ++ after) number data := by
            rw [shape]
            simp [mergeInto, lower, adjacent]
          rw [chunk]
          apply insertChunk_spec (early ++ [(key, items)]) after number data proper _ above room
          have ends := ((proper_append_cons early [] key items).mp proper.left).2.2.2.1
          intro entry member
          rcases List.mem_append.mp member with old | new
          · have apart := ends entry old
            omega
          · cases List.mem_singleton.mp new
            exact Nat.lt_of_le_of_ne ended adjacent

/-! Removal. -/

theorem insertFilled_spec (before after : Chunks α) (number : Nat) (items : List α)
    (proper : Proper before) (following : Proper after)
    (ends : ∀ entry ∈ before, entry.1 + entry.2.length < number)
    (above : Above after (number + items.length)) :
    Proper (insertFilled (before ++ after) number items) ∧
      get (insertFilled (before ++ after) number items) =
        get (before ++ (number, items) :: after) := by
  cases items with
  | nil =>
      constructor
      · apply proper_append before after proper following
        intro entry member later further
        exact Nat.lt_trans (ends entry member) (above later further)
      · funext n
        have unfilled : ¬ (number ≤ n ∧ n < number) := by omega
        simp [insertFilled, get_append, get_cons, unfilled]
  | cons item more =>
      have low : ∀ entry ∈ before, entry.1 < number := fun entry member => by
        have ended := ends entry member
        omega
      have placed : insertFilled (before ++ after) number (item :: more) =
          before ++ (number, item :: more) :: after :=
        insert_free before after number (item :: more) low (above.anti (Nat.le_add_right _ _))
      rw [placed]
      exact ⟨(proper_append_cons _ _ _ _).mpr ⟨proper, following, by simp, ends, above⟩, rfl⟩

def Severs (contents : Nat → Option α) (number : Nat) : Prop :=
  (contents number).isSome ∧ 0 < number ∧ (contents (number - 1)).isSome

instance (contents : Nat → Option α) (number : Nat) : Decidable (Severs contents number) :=
  inferInstanceAs (Decidable (_ ∧ _))

theorem removeItem_spec (container : Chunks α) (number : Nat) (proper : Proper container)
    (bound : (get container (number + 1)).isSome → number + 1 < 2 ^ 32)
    (clean : ¬ Severs (get container) number) :
    ∃ left, removeItem container number = some left ∧ Proper left ∧
      get left = Function.update (get container) number none := by
  cases place container number proper with
  | start before _ item items after low =>
      rcases (proper_append_cons _ _ _ _).mp proper with ⟨early, late, -, ends, past⟩
      have removed : removeItem (before ++ (number, item :: items) :: after) number =
          some (insertFilled (before ++ after) (number + 1) items) := by
        cases items with
        | nil =>
            simp [removeItem, lowerBound_start before after number _ low (above_start proper),
              itemsAt, insertFilled]
        | cons second more =>
            have held :=
              get_within before after number (number + 1) _ proper (Nat.le_succ number) (by simp)
            have next : (number + 1) % 4294967296 = number + 1 :=
              Nat.mod_eq_of_lt (bound (by simp [held]))
            simp [removeItem, lowerBound_start before after number _ low (above_start proper),
              itemsAt, next]
      have short : ∀ entry ∈ before, entry.1 + entry.2.length < number + 1 :=
        fun entry member => Nat.lt_succ_of_lt (ends entry member)
      have above : Above after (number + 1 + items.length) := by
        apply past.anti
        simp
        omega
      rcases insertFilled_spec before after (number + 1) items early late short above with
        ⟨kept, same⟩
      refine ⟨_, removed, kept, ?_⟩
      have below : Below before number := fun entry member => Nat.le_of_lt (ends entry member)
      rw [same]
      exact get_replace before after [(number, item :: items)] [(number + 1, items)] number
        none below.get
        (above_start proper).get (get_tail number item items)
  | within before key items after _ low past short above =>
      exfalso
      apply clean
      have inner : number - key < items.length := by omega
      have previous : number - 1 - key < items.length := by omega
      have here := get_within before after key number items proper (Nat.le_of_lt past) short
      have there := get_within before after key (number - 1) items proper (by omega) (by omega)
      refine ⟨?_, by omega, ?_⟩
      · rw [here, List.getElem?_eq_getElem inner]
        rfl
      · rw [there, List.getElem?_eq_getElem previous]
        rfl
  | free before after _ below low above =>
      refine ⟨before ++ after, ?_, proper, ?_⟩
      · simp only [removeItem, lowerBound_split before after number low (above_high above),
          itemsAt_above after number above]
        cases last : before.reverse with
        | nil => rfl
        | cons entry earlier =>
            have member : entry ∈ before := by
              rw [← List.mem_reverse, last]
              exact List.mem_cons_self
            simp [inside_below entry.1 entry.2 number (below entry member)]
      · rw [← get_free before after number below above, Function.update_eq_self]

theorem removeItem_severs (container : Chunks α) (number : Nat) (proper : Proper container)
    (severs : Severs (get container) number) : removeItem container number = none := by
  rcases severs with ⟨present, positive, previous⟩
  cases place container number proper with
  | start before _ item items after low =>
      exfalso
      have ends := ((proper_append_cons _ _ _ _).mp proper).2.2.2.1
      have below : Below before (number - 1) := fun entry member => by
        have ended := ends entry member
        omega
      have above : Above ((number, item :: items) :: after) (number - 1) := by
        intro entry member
        rcases List.mem_cons.mp member with rfl | later
        · exact Nat.sub_lt positive Nat.one_pos
        · have past := above_start proper entry later
          omega
      rw [get_free before _ (number - 1) below above] at previous
      cases previous
  | within before key items after _ low past short above =>
      have moved : ¬ number - key ≤ 0 := by omega
      simp [removeItem, lowerBound_within before after key number items low past above,
        itemsAt_above after number above, inside, Nat.le_of_lt past, short, eraseFrom, moved]
  | free before after _ below low above =>
      rw [get_free before after number below above] at present
      cases present

theorem removeAllStartingWith_spec (container : Chunks α) (number : Nat)
    (proper : Proper container) :
    ∃ left, removeAllStartingWith container number = some left ∧ Proper left ∧
      ∀ n, get left n = if n < number then get container n else none := by
  cases place container number proper with
  | start before _ item items after low =>
      refine ⟨before, ?_, proper.left, ?_⟩
      · simp [removeAllStartingWith,
          lowerBound_start before after number _ low (above_start proper),
          itemsAt]
      · intro n
        have ends := ((proper_append_cons _ _ _ _).mp proper).2.2.2.1
        by_cases less : n < number
        · have above : Above ((number, item :: items) :: after) n := by
            intro entry member
            rcases List.mem_cons.mp member with rfl | later
            · exact less
            · exact Nat.lt_trans less (above_start proper entry later)
          rw [if_pos less, get_append, above.get, Option.or_none]
        · have below : Below before n := fun entry member => by
            have ended := ends entry member
            omega
          rw [if_neg less, below.get]
  | within before key items after _ low past short above =>
      rcases (proper_append_cons _ _ _ _).mp proper with ⟨early, late, -, ends, beyond⟩
      have length : number - key ≤ items.length := by omega
      refine ⟨before ++ [(key, items.take (number - key))], ?_, ?_, ?_⟩
      · simp [removeAllStartingWith, lowerBound_within before after key number items low past above,
          itemsAt_above after number above, inside, Nat.le_of_lt past, short, eraseFrom, length]
      · apply (proper_append_cons before [] key _).mpr
        refine ⟨early, proper_nil, ?_, ends, by simp [Above]⟩
        have positive : 0 < (items.take (number - key)).length := by
          rw [List.length_take_of_le length]
          omega
        exact List.length_pos_iff.mp positive
      · intro n
        have cut : key + (number - key) = number := by omega
        by_cases less : n < number
        · have later : Above after n := above.anti (Nat.le_of_lt less)
          calc get (before ++ [(key, items.take (number - key))]) n
              = (get before n).or (get [(key, items)] n) := by
                rw [get_append, get_take key (number - key) items length, cut, if_pos less]
            _ = get (before ++ (key, items) :: after) n := by
                simp [get_append, get_cons, later.get]
            _ = _ := (if_pos less).symm
        · have below : Below before n := fun entry member => by
            have ended := ends entry member
            omega
          rw [if_neg less, get_append, below.get, get_take key (number - key) items length, cut,
            if_neg less]
          rfl
  | free before after _ below low above =>
      have split := lowerBound_split before after number low (above_high above)
      refine ⟨before, ?_, proper.left, ?_⟩
      · simp only [removeAllStartingWith, split, itemsAt_above after number above]
        cases last : before.reverse with
        | nil =>
            have empty : before = [] := List.reverse_eq_nil_iff.mp last
            rw [empty]
        | cons entry earlier =>
            have member : entry ∈ before := by
              rw [← List.mem_reverse, last]
              exact List.mem_cons_self
            have whole : before = earlier.reverse ++ [entry] := by
              rw [← List.reverse_reverse before, last, List.reverse_cons]
            simp [inside_below entry.1 entry.2 number (below entry member), whole]
      · intro n
        by_cases less : n < number
        · have later : Above after n := above.anti (Nat.le_of_lt less)
          rw [if_pos less, get_append, later.get, Option.or_none]
        · rw [if_neg less]
          exact (below.mono (Nat.not_lt.mp less)).get

/-! Maps of 32-bit numbers. -/

theorem dropFront_spec (first : Nat) (items : List α) (later : Chunks α) (count : Nat)
    (proper : Proper ((first, items) :: later)) (fits : first + items.length ≤ 2 ^ 32) :
    Proper (dropFront ((first, items) :: later) count) ∧
      ∀ n, get (dropFront ((first, items) :: later) count) n =
        if n < first + min count items.length then none else get ((first, items) :: later) n := by
  rcases (proper_append_cons [] later first items).mp proper with ⟨-, following, -, -, above⟩
  cases dropped : items.drop count with
  | nil =>
      have whole : items.length ≤ count := List.drop_eq_nil_iff.mp dropped
      have left : dropFront ((first, items) :: later) count = later := by
        simp only [dropFront, dropped]
      rw [left, Nat.min_eq_right whole]
      refine ⟨following, ?_⟩
      intro n
      by_cases front : n < first + items.length
      · rw [if_pos front]
        exact (above.anti (Nat.le_of_lt front)).get
      · have beyond : ¬ (first ≤ n ∧ n < first + items.length) := fun inside => front inside.2
        rw [if_neg front, get_cons, if_neg beyond]
  | cons item more =>
      have short : count < items.length := by
        by_contra whole
        rw [List.drop_eq_nil_of_le (Nat.not_lt.mp whole)] at dropped
        cases dropped
      have length : (item :: more).length = items.length - count := by
        rw [← dropped, List.length_drop]
      have key : (first + count) % 2 ^ 32 = first + count := Nat.mod_eq_of_lt (by omega)
      have past : Above later (first + count) := above.anti (by omega)
      have left : dropFront ((first, items) :: later) count =
          (first + count, item :: more) :: later := by
        have split := lowerBound_split [] later (first + count) (by simp) (above_high past)
        simp only [dropFront, dropped, assign, key]
        rw [List.nil_append] at split
        simp only [split, itemsAt_above later _ past, List.reverse_nil, List.nil_append]
      rw [left, Nat.min_eq_left (Nat.le_of_lt short)]
      constructor
      · apply (proper_append_cons [] later (first + count) (item :: more)).mpr
        refine ⟨proper_nil, following, List.cons_ne_nil _ _, by simp, ?_⟩
        apply above.anti
        omega
      · intro n
        rw [get_cons, get_cons, length]
        by_cases front : n < first + count
        · have outside : ¬ (first + count ≤ n ∧ n < first + count + (items.length - count)) :=
            fun inside => Nat.not_lt.mpr inside.1 front
          rw [if_neg outside, if_pos front]
          exact (past.anti (Nat.le_of_lt front)).get
        · rw [if_neg front]
          by_cases inside : n < first + items.length
          · have index : count + (n - (first + count)) = n - first := by omega
            rw [if_pos (by omega), if_pos (by omega), ← dropped, List.getElem?_drop, index]
          · rw [if_neg (by omega), if_neg (by omega)]

structure Sound (container : Chunks α) : Prop where
  proper : Proper container
  fits : ∀ n, (get container n).isSome → n < 2 ^ 32

namespace Sound

variable {container : Chunks α} (sound : Sound container)

theorem nil : Sound ([] : Chunks α) := ⟨proper_nil, by simp⟩

include sound

theorem mergeInto (number : Nat) (data : α) (absent : get container number = none)
    (bound : number < 2 ^ 32) :
    Sound (mergeInto container number data) ∧
      get (DownloadMap.mergeInto container number data) =
        Function.update (get container) number (some data) := by
  have room : ∀ entry ∈ container, number < entry.1 → number + 1 < 2 ^ 32 := by
    intro entry member past
    rcases List.append_of_mem member with ⟨before, after, rfl⟩
    have filled := sound.proper.filled entry member
    have held := get_within before after entry.1 entry.1 entry.2 sound.proper (Nat.le_refl _)
      (Nat.lt_add_of_pos_right (List.length_pos_iff.mpr filled))
    have first : entry.1 < 2 ^ 32 := by
      apply sound.fits
      rw [held, Nat.sub_self, List.getElem?_eq_getElem (List.length_pos_iff.mpr filled)]
      rfl
    omega
  rcases mergeInto_spec container number data sound.proper absent room with ⟨proper, same⟩
  refine ⟨⟨proper, ?_⟩, same⟩
  intro n held
  by_cases here : n = number
  · exact here ▸ bound
  · rw [same, Function.update_of_ne here] at held
    exact sound.fits n held

theorem removeItem (number : Nat) (clean : ¬ Severs (get container) number) :
    ∃ left, removeItem container number = some left ∧ Sound left ∧
      get left = Function.update (get container) number none := by
  rcases removeItem_spec container number sound.proper (sound.fits _) clean with
    ⟨left, removed, proper, same⟩
  refine ⟨left, removed, ⟨proper, ?_⟩, same⟩
  intro n held
  by_cases here : n = number
  · rw [same, here, Function.update_self] at held
    cases held
  · rw [same, Function.update_of_ne here] at held
    exact sound.fits n held

theorem removeAllStartingWith (number : Nat) :
    ∃ left, removeAllStartingWith container number = some left ∧ Sound left ∧
      ∀ n, get left n = if n < number then get container n else none := by
  rcases removeAllStartingWith_spec container number sound.proper with ⟨left, removed, proper, same⟩
  refine ⟨left, removed, ⟨proper, ?_⟩, same⟩
  intro n held
  rw [same] at held
  split at held
  · exact sound.fits n held
  · cases held

omit sound in
theorem dropFront {first : Nat} {items : List α} {later : Chunks α}
    (sound : Sound ((first, items) :: later)) (count : Nat) :
    Sound (dropFront ((first, items) :: later) count) ∧
      ∀ n, get (DownloadMap.dropFront ((first, items) :: later) count) n =
        if n < first + min count items.length then none else get ((first, items) :: later) n := by
  have filled : 0 < items.length :=
    List.length_pos_iff.mpr (sound.proper.filled (first, items) List.mem_cons_self)
  have last := sound.fits (first + items.length - 1)
  have fits : first + items.length ≤ 2 ^ 32 := by
    have held :=
      get_within [] later first (first + items.length - 1) items sound.proper (by omega) (by omega)
    rw [List.nil_append] at held
    rw [held, List.getElem?_eq_getElem (by omega)] at last
    have below := last rfl
    omega
  rcases dropFront_spec first items later count sound.proper fits with ⟨proper, same⟩
  refine ⟨⟨proper, ?_⟩, same⟩
  intro n held
  rw [same] at held
  split at held
  · cases held
  · exact sound.fits n held

end Sound

/-! Runs. -/

inductive Op (α : Type)
  | mergeInto (number : Nat) (data : α)
  | removeItem (number : Nat)
  | removeAllStartingWith (number : Nat)
  deriving DecidableEq, Repr

namespace Op

def number : Op α → Nat
  | mergeInto number _ => number
  | removeItem number => number
  | removeAllStartingWith number => number

def perform (container : Chunks α) : Op α → Option (Chunks α)
  | mergeInto number data => some (DownloadMap.mergeInto container number data)
  | removeItem number => DownloadMap.removeItem container number
  | removeAllStartingWith number => DownloadMap.removeAllStartingWith container number

def apply (contents : Nat → Option α) : Op α → Nat → Option α
  | mergeInto number data => Function.update contents number (some data)
  | removeItem number => Function.update contents number none
  | removeAllStartingWith number => fun n => if n < number then contents n else none

/-- The number is below 2 ^ 32 - 1, and only an absent one is merged. -/
def Admitted (contents : Nat → Option α) (op : Op α) : Prop :=
  op.number + 1 < 2 ^ 32 ∧ match op with
    | mergeInto number _ => contents number = none
    | _ => True

/-- The call removes one number out of the middle or from the end of a run. -/
def Severing (contents : Nat → Option α) : Op α → Prop
  | removeItem number => Severs contents number
  | _ => False

instance [DecidableEq α] (contents : Nat → Option α) : (op : Op α) →
    Decidable (op.Admitted contents)
  | mergeInto _ _ => inferInstanceAs (Decidable (_ ∧ _ = _))
  | removeItem _ => inferInstanceAs (Decidable (_ ∧ True))
  | removeAllStartingWith _ => inferInstanceAs (Decidable (_ ∧ True))

instance (contents : Nat → Option α) : (op : Op α) → Decidable (op.Severing contents)
  | mergeInto _ _ => inferInstanceAs (Decidable False)
  | removeItem _ => inferInstanceAs (Decidable (Severs _ _))
  | removeAllStartingWith _ => inferInstanceAs (Decidable False)

end Op

def performAll (ops : List (Op α)) : Option (Chunks α) :=
  run (fun container op => container.bind op.perform) (some []) ops

def contents (ops : List (Op α)) : Nat → Option α := run Op.apply (fun _ => none) ops

def history (ops : List (Op α)) : List ((Nat → Option α) × Op α) :=
  trace Op.apply (fun _ => none) ops

structure Represents (container : Chunks α) (contents : Nat → Option α) : Prop where
  proper : Proper container
  get : get container = contents
  haveItem : ∀ number, haveItem container number = (contents number).isSome
  findItem : ∀ number, findItem container number = some (contents number)

theorem Represents.of_proper {container : Chunks α} {contents : Nat → Option α}
    (proper : Proper container) (same : Chunks.get container = contents) :
    Represents container contents :=
  ⟨proper, same, fun number => same ▸ haveItem_eq container number proper,
    fun number => same ▸ findItem_eq container number proper⟩

theorem Represents.perform {container : Chunks α} {contents : Nat → Option α} (op : Op α)
    (before : Represents container contents) (admitted : op.Admitted contents) :
    (∃ left, op.perform container = some left ∧ Represents left (op.apply contents)) ↔
      ¬ op.Severing contents := by
  have same := before.get
  cases op with
  | mergeInto number data =>
      rcases mergeInto_spec container number data before.proper (same ▸ admitted.2)
        (fun _ _ _ => admitted.1) with ⟨proper, get⟩
      refine iff_of_true ⟨_, rfl, .of_proper proper ?_⟩ not_false
      rw [get, same]
      rfl
  | removeItem number =>
      constructor
      · rintro ⟨left, performed, -⟩ severs
        have undefined : removeItem container number = none :=
          removeItem_severs container number before.proper (same ▸ severs)
        rw [Op.perform, undefined] at performed
        cases performed
      · intro clean
        rcases removeItem_spec container number before.proper (fun _ => admitted.1)
          (same ▸ clean) with
          ⟨left, performed, proper, get⟩
        refine ⟨left, performed, .of_proper proper ?_⟩
        rw [get, same]
        rfl
  | removeAllStartingWith number =>
      rcases removeAllStartingWith_spec container number before.proper with
        ⟨left, performed, proper, get⟩
      refine iff_of_true ⟨left, performed, .of_proper proper ?_⟩ not_false
      funext n
      rw [get, same]
      rfl

/-- The container is a finite map after every part of a run if and only if no call severs a run:
takes a number away whose predecessor is present. -/
theorem download_map (ops : List (Op α))
    (admitted : ∀ entry ∈ history ops, entry.2.Admitted entry.1) :
    (∀ past, past <+: ops → ∃ container, performAll past = some container ∧
      Represents container (contents past)) ↔
      ∀ entry ∈ history ops, ¬ entry.2.Severing entry.1 := by
  induction ops using List.reverseRecOn with
  | nil =>
      refine iff_of_true ?_ (by simp [history, trace])
      intro past initial
      rw [List.prefix_nil.mp initial]
      exact ⟨[], rfl, .of_proper proper_nil rfl⟩
  | append_singleton ops op ih =>
      have steps : history (ops ++ [op]) = history ops ++ [(contents ops, op)] :=
        trace_append_singleton Op.apply _ ops op
      have after : contents (ops ++ [op]) = op.apply (contents ops) :=
        run_append_singleton Op.apply _ ops op
      have performed : performAll (ops ++ [op]) = (performAll ops).bind op.perform :=
        run_append_singleton _ _ ops op
      rw [steps] at admitted ⊢
      have earlier := ih fun entry member => admitted entry (List.mem_append_left _ member)
      have last : op.Admitted (contents ops) := admitted (contents ops, op) (by simp)
      constructor
      · intro always entry member
        have sofar := always ops (List.prefix_append ops [op])
        rcases List.mem_append.mp member with old | new
        · apply earlier.mp _ entry old
          intro past initial
          exact always past (initial.trans (List.prefix_append ops [op]))
        · rw [List.mem_singleton.mp new]
          rcases sofar with ⟨container, reached, represents⟩
          apply (represents.perform op last).mp
          rcases always (ops ++ [op]) (List.prefix_refl _) with ⟨left, result, meets⟩
          rw [performed, reached] at result
          exact ⟨left, result, after ▸ meets⟩
      · intro clean past initial
        have before := earlier.mpr fun entry member => clean entry (List.mem_append_left _ member)
        rcases List.prefix_concat_iff.mp initial with rfl | short
        · rcases before ops (List.prefix_refl ops) with ⟨container, reached, represents⟩
          rcases (represents.perform op last).mpr (clean (contents ops, op) (by simp)) with
            ⟨left, result, meets⟩
          refine ⟨left, ?_, after ▸ meets⟩
          rw [performed, reached]
          exact result
        · exact before past short

theorem download_map_joined :
    let ops : List (Op Nat) := [.mergeInto 5 50, .mergeInto 7 70, .mergeInto 6 60, .removeItem 5,
      .removeAllStartingWith 7]
    performAll ops = some [(6, [60])] ∧ ∃ container, performAll ops = some container ∧
      Represents container (contents ops) := by
  intro ops
  have admitted : ∀ entry ∈ history ops, entry.2.Admitted entry.1 := by decide
  have clean : ∀ entry ∈ history ops, ¬ entry.2.Severing entry.1 := by decide
  exact ⟨by decide, (download_map ops admitted).mpr clean ops (List.prefix_refl ops)⟩

/-- Three headers in a row, of which the second is removed. -/
theorem removal_inside_run :
    let ops : List (Op Nat) := [.mergeInto 1 10, .mergeInto 2 20, .mergeInto 3 30, .removeItem 2]
    (∀ entry ∈ history ops, entry.2.Admitted entry.1) ∧
      performAll (ops.take 3) = some [(1, [10, 20, 30])] ∧ performAll ops = none ∧
      ¬ ∀ past, past <+: ops → ∃ container, performAll past = some container ∧
        Represents container (contents past) := by
  intro ops
  refine ⟨by decide, by decide, by decide, ?_⟩
  intro always
  rcases always ops (List.prefix_refl ops) with ⟨container, reached, -⟩
  have undefined : performAll ops = none := by decide
  rw [undefined] at reached
  cases reached

end DownloadMap

end UtispaceChain
