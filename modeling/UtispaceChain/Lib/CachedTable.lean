import Mathlib.Logic.Function.Basic
import Mathlib.Tactic.Common

/-! A table on disk with a cache in memory that is filled by reads.

Writes go to the disk only; the cache keeps what it has read until it is told to forget. -/

namespace UtispaceChain.Lib

structure CachedTable (K V : Type) where
  rows : K → Option V
  cache : K → Option V

namespace CachedTable

variable {K V : Type}

def empty : CachedTable K V := ⟨fun _ => none, fun _ => none⟩

def query (table : CachedTable K V) (k : K) : Option V :=
  match table.cache k with
  | some v => some v
  | none => table.rows k

def forget (p : K → Bool) (table : CachedTable K V) : CachedTable K V :=
  { table with cache := fun k => if p k then none else table.cache k }

def Coherent (table : CachedTable K V) : Prop :=
  ∀ k v, table.cache k = some v → table.rows k = some v

theorem Coherent.query {table : CachedTable K V} (coherent : table.Coherent) (k : K) :
    table.query k = table.rows k := by
  unfold CachedTable.query
  cases cached : table.cache k with
  | none => rfl
  | some v => exact (coherent k v cached).symm

@[simp] theorem forget_rows (p : K → Bool) (table : CachedTable K V) :
    (table.forget p).rows = table.rows :=
  rfl

theorem query_forget (p : K → Bool) (table : CachedTable K V) (k : K) :
    (table.forget p).query k = if p k then table.rows k else table.query k := by
  cases forgotten : p k <;> simp [query, forget, forgotten]

theorem Coherent.forget {table : CachedTable K V} (coherent : table.Coherent) (p : K → Bool) :
    (table.forget p).Coherent := by
  intro k v cached
  exact coherent k v (Option.ite_none_left_eq_some.mp cached).2

variable [DecidableEq K]

/-- What a read leaves in the cache; a missing row is not remembered. -/
def read (k : K) (table : CachedTable K V) : CachedTable K V :=
  { table with cache := Function.update table.cache k (table.query k) }

def put (k : K) (v : V) (table : CachedTable K V) : CachedTable K V :=
  { table with rows := Function.update table.rows k (some v) }

@[simp] theorem read_rows (k : K) (table : CachedTable K V) : (table.read k).rows = table.rows :=
  rfl

@[simp] theorem put_cache (k : K) (v : V) (table : CachedTable K V) :
    (table.put k v).cache = table.cache := rfl

@[simp] theorem query_read (k k' : K) (table : CachedTable K V) :
    (table.read k).query k' = table.query k' := by
  by_cases same : k' = k
  · subst same
    simp only [query, read, Function.update_self]
    cases table.cache k' with
    | none => cases table.rows k' <;> rfl
    | some v => rfl
  · simp only [query, read, Function.update_of_ne same]

theorem cache_read (k k' : K) (table : CachedTable K V) :
    (table.read k).cache k' = if k' = k then table.query k else table.cache k' := by
  by_cases same : k' = k
  · subst same
    simp [read]
  · simp [read, same]

theorem Coherent.read {table : CachedTable K V} (coherent : table.Coherent) (k : K) :
    (table.read k).Coherent := by
  intro k' v cached
  rw [cache_read] at cached
  by_cases same : k' = k
  · rw [if_pos same, coherent.query] at cached
    rw [same]
    exact cached
  · rw [if_neg same] at cached
    exact coherent k' v cached

def putAll (entries : List (K × V)) (table : CachedTable K V) : CachedTable K V :=
  entries.foldl (fun table entry => table.put entry.1 entry.2) table

def readAll (keys : List K) (table : CachedTable K V) : CachedTable K V :=
  keys.foldl (fun table k => table.read k) table

@[simp] theorem putAll_cache (entries : List (K × V)) (table : CachedTable K V) :
    (table.putAll entries).cache = table.cache := by
  induction entries generalizing table with
  | nil => rfl
  | cons entry rest ih => exact ih (table.put entry.1 entry.2)

theorem putAll_append (first second : List (K × V)) (table : CachedTable K V) :
    (table.putAll first).putAll second = table.putAll (first ++ second) := by
  simp [putAll]

theorem rows_putAll_absent (entries : List (K × V)) (table : CachedTable K V) (k : K)
    (absent : ∀ v, (k, v) ∉ entries) : (table.putAll entries).rows k = table.rows k := by
  induction entries generalizing table with
  | nil => rfl
  | cons entry rest ih =>
      have other : k ≠ entry.1 := by
        rintro rfl
        exact absent entry.2 List.mem_cons_self
      have later :=
        ih (table.put entry.1 entry.2) fun v member => absent v (List.mem_cons_of_mem _ member)
      exact later.trans (Function.update_of_ne other _ _)

theorem rows_putAll_present (entries : List (K × V)) (table : CachedTable K V) (k : K) (v : V)
    (present : (k, v) ∈ entries) : ∃ w, (k, w) ∈ entries ∧ (table.putAll entries).rows k =
      some w := by
  induction entries generalizing table v with
  | nil => cases present
  | cons entry rest ih =>
      by_cases later : ∃ w, (k, w) ∈ rest
      · obtain ⟨w, inside⟩ := later
        obtain ⟨last, member, row⟩ := ih (table.put entry.1 entry.2) w inside
        exact ⟨last, List.mem_cons_of_mem _ member, row⟩
      · have absent : ∀ w, (k, w) ∉ rest := fun w inside => later ⟨w, inside⟩
        have here : entry = (k, v) := ((List.mem_cons.mp present).resolve_right (absent v)).symm
        refine ⟨v, present, ?_⟩
        have row := rows_putAll_absent rest (table.put entry.1 entry.2) k absent
        rw [here] at row ⊢
        exact row.trans (Function.update_self _ _ _)

@[simp] theorem readAll_rows (keys : List K) (table : CachedTable K V) :
    (table.readAll keys).rows = table.rows := by
  induction keys generalizing table with
  | nil => rfl
  | cons k rest ih => exact ih (table.read k)

@[simp] theorem query_readAll (keys : List K) (table : CachedTable K V) (k : K) :
    (table.readAll keys).query k = table.query k := by
  induction keys generalizing table with
  | nil => rfl
  | cons first rest ih => exact (ih (table.read first)).trans (query_read first k table)

theorem cache_readAll (keys : List K) (table : CachedTable K V) (k : K) (v : V)
    (cached : (table.readAll keys).cache k = some v) :
    table.query k = some v ∧ (k ∈ keys ∨ table.cache k = some v) := by
  induction keys generalizing table with
  | nil =>
      refine ⟨?_, Or.inr cached⟩
      have here : table.cache k = some v := cached
      simp [query, here]
  | cons first rest ih =>
      obtain ⟨answer, origin⟩ := ih (table.read first) cached
      rw [query_read] at answer
      refine ⟨answer, ?_⟩
      rcases origin with later | now
      · exact Or.inl (List.mem_cons_of_mem _ later)
      · rw [cache_read] at now
        by_cases same : k = first
        · exact Or.inl (same ▸ List.mem_cons_self)
        · exact Or.inr (by simpa [same] using now)

end CachedTable

end UtispaceChain.Lib
