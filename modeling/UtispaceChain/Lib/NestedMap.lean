import Mathlib.Data.List.Nodup
import Mathlib.Data.List.Perm.Basic

/-! Ordered maps, and maps of maps that keep no empty inner map. -/

namespace UtispaceChain

namespace Lib

abbrev Map (V : Type) := Std.ExtTreeMap Nat V

abbrev NestedMap (V : Type) := Map (Map V)

namespace Map

variable {V : Type}

@[simp] theorem get_insert (m : Map V) (k k' : Nat) (v : V) :
    (m.insert k v)[k']? = if k = k' then some v else m[k']? := by
  rw [Std.ExtTreeMap.getElem?_insert]
  simp only [Nat.compare_eq_eq]

@[simp] theorem get_erase (m : Map V) (k k' : Nat) :
    (m.erase k)[k']? = if k = k' then none else m[k']? := by
  rw [Std.ExtTreeMap.getElem?_erase]
  simp only [Nat.compare_eq_eq]

theorem isEmpty_iff (m : Map V) : m.isEmpty = true ↔ ∀ k : Nat, m[k]? = none := by
  rw [Std.ExtTreeMap.isEmpty_iff]
  constructor
  · intro empty k
    rw [empty, Std.ExtTreeMap.getElem?_empty]
  · intro none
    apply Std.ExtTreeMap.ext_getElem?
    intro k
    rw [none k, Std.ExtTreeMap.getElem?_empty]

theorem isEmpty_of_get {m : Map V} {k : Nat} {v : V} (found : m[k]? = some v) :
    m.isEmpty = false := by
  by_contra empty
  have none := (Map.isEmpty_iff m).mp (by simpa using empty) k
  rw [found] at none
  cases none

theorem exists_of_not_isEmpty {m : Map V} (filled : m.isEmpty = false) :
    ∃ (k : Nat) (v : V), m[k]? = some v := by
  by_contra none
  have empty : m.isEmpty = true := (Map.isEmpty_iff m).mpr fun k => by
    cases found : m[k]? with
    | none => rfl
    | some v => exact absurd ⟨k, v, found⟩ none
  rw [filled] at empty
  cases empty

theorem mem_toList (m : Map V) (k : Nat) (v : V) : (k, v) ∈ m.toList ↔ m[k]? = some v :=
  Std.ExtTreeMap.mem_toList_iff_getElem?_eq_some

theorem nodup_keys (m : Map V) : (m.toList.map Prod.fst).Nodup := by
  rw [List.Nodup, List.pairwise_map]
  exact Std.ExtTreeMap.distinct_keys_toList.imp fun differ same =>
    differ (Nat.compare_eq_eq.mpr same)

def eraseAll (keys : List Nat) (m : Map V) : Map V := keys.foldl (fun m k => m.erase k) m

theorem get_eraseAll (keys : List Nat) (m : Map V) (k : Nat) :
    (m.eraseAll keys)[k]? = if k ∈ keys then none else m[k]? := by
  unfold eraseAll
  induction keys generalizing m with
  | nil => rfl
  | cons key keys ih =>
      rw [List.foldl_cons, ih, get_erase]
      by_cases later : k ∈ keys
      · simp [later]
      · by_cases here : k = key
        · simp [here]
        · simp [later, here, Ne.symm here]

end Map

namespace NestedMap

variable {V : Type}

def slot (m : NestedMap V) (a n : Nat) : Option V := m[a]?.bind fun inner => inner[n]?

def inner (m : NestedMap V) (a : Nat) : Map V := m[a]?.getD ∅

/-- An inner map is put back, or taken out if there is nothing left in it. -/
def setInner (a : Nat) (inner : Map V) (m : NestedMap V) : NestedMap V :=
  if inner.isEmpty then m.erase a else m.insert a inner

def NoEmpty (m : NestedMap V) : Prop := ∀ (a : Nat) (inner : Map V), m[a]? = some inner →
  inner.isEmpty = false

@[simp] theorem slot_empty (a n : Nat) : (∅ : NestedMap V).slot a n = none := by
  rw [slot, Std.ExtTreeMap.getElem?_empty]
  rfl

theorem noEmpty_empty : NoEmpty (∅ : NestedMap V) := fun a inner found => by
  rw [Std.ExtTreeMap.getElem?_empty] at found
  cases found

@[simp] theorem get_inner (m : NestedMap V) (a n : Nat) : (m.inner a)[n]? = m.slot a n := by
  unfold inner slot
  cases m[a]? with
  | none => exact Std.ExtTreeMap.getElem?_empty
  | some inner => rfl

theorem slot_insert (m : NestedMap V) (a b n : Nat) (inner : Map V) :
    NestedMap.slot (m.insert a inner) b n = if a = b then inner[n]? else m.slot b n := by
  unfold slot
  rw [Map.get_insert]
  split <;> rfl

theorem slot_setInner (m : NestedMap V) (a b n : Nat) (inner : Map V) :
    (m.setInner a inner).slot b n = if a = b then inner[n]? else m.slot b n := by
  unfold setInner
  split
  case isTrue empty =>
    unfold slot
    rw [Map.get_erase]
    split
    · exact ((Map.isEmpty_iff inner).mp empty n).symm
    · rfl
  case isFalse => exact slot_insert m a b n inner

theorem NoEmpty.insert {m : NestedMap V} {inner : Map V} (filled : m.NoEmpty) (a : Nat)
    (here : inner.isEmpty = false) : NoEmpty (m.insert a inner : NestedMap V) := by
  intro b found look
  rw [Map.get_insert] at look
  split at look
  · cases look
    exact here
  · exact filled b found look

theorem NoEmpty.setInner {m : NestedMap V} (filled : m.NoEmpty) (a : Nat) (inner : Map V) :
    (m.setInner a inner).NoEmpty := by
  unfold NestedMap.setInner
  split
  · intro b found look
    rw [Map.get_erase] at look
    split at look
    · cases look
    · exact filled b found look
  case isFalse filledHere => exact filled.insert a (by simpa using filledHere)

def entries (m : NestedMap V) : List ((Nat × Nat) × V) :=
  m.toList.flatMap fun p => p.2.toList.map fun q => ((p.1, q.1), q.2)

theorem mem_entries (m : NestedMap V) (a n : Nat) (v : V) : ((a, n), v) ∈ m.entries ↔
    m.slot a n = some v := by
  simp only [entries, List.mem_flatMap, List.mem_map, Prod.mk.injEq, Prod.exists, slot,
    Option.bind_eq_some_iff]
  constructor
  · rintro ⟨_, inner, found, _, _, look, ⟨rfl, rfl⟩, rfl⟩
    exact ⟨inner, (Map.mem_toList m _ inner).mp found, (Map.mem_toList inner _ _).mp look⟩
  · rintro ⟨inner, found, look⟩
    exact ⟨a, inner, (Map.mem_toList m a inner).mpr found, n, v,
      (Map.mem_toList inner n v).mpr look, ⟨rfl, rfl⟩, rfl⟩

theorem nodup_entries (m : NestedMap V) : m.entries.Nodup := by
  unfold entries
  rw [List.nodup_flatMap]
  constructor
  · intro p _
    refine List.Nodup.map ?_ (Map.nodup_keys p.2).of_map
    intro q r same
    simpa [Prod.ext_iff] using same
  · have keys := Map.nodup_keys m
    rw [List.Nodup, List.pairwise_map] at keys
    refine keys.imp fun differ => ?_
    intro x left right
    obtain ⟨q, -, rfl⟩ := List.mem_map.mp left
    obtain ⟨r, -, same⟩ := List.mem_map.mp right
    exact differ (congrArg (fun x => x.1.1) same).symm

theorem nodup_slots (m : NestedMap V) : (m.entries.map Prod.fst).Nodup := by
  refine List.Nodup.map_on ?_ m.nodup_entries
  rintro ⟨⟨a, n⟩, v⟩ left ⟨⟨b, k⟩, w⟩ right same
  cases same
  have one := (mem_entries m a n v).mp left
  rw [(mem_entries m a n w).mp right] at one
  cases one
  rfl

end NestedMap

end Lib

end UtispaceChain
