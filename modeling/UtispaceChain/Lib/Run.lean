import Mathlib.Data.List.Induction
import Mathlib.Logic.Relation
import Mathlib.Tactic.Common

/-! Runs of a deterministic machine, with the history of the states they pass. -/

namespace UtispaceChain.Lib

variable {S E : Type} (step : S → E → S)

def run (s : S) (events : List E) : S := events.foldl step s

/-- Every step of a run: the state before it and its input. -/
def trace : S → List E → List (S × E)
  | _, [] => []
  | s, e :: events => (s, e) :: trace (step s e) events

theorem run_append_singleton (s : S) (events : List E) (e : E) :
    run step s (events ++ [e]) = step (run step s events) e := by
  simp [run]

theorem trace_append_singleton (s : S) (events : List E) (e : E) :
    trace step s (events ++ [e]) = trace step s events ++ [(run step s events, e)] := by
  induction events generalizing s with
  | nil => rfl
  | cons first rest ih => simp [trace, ih, run]

theorem trace_input (s : S) (events : List E) (entry : S × E)
    (member : entry ∈ trace step s events) :
    entry.2 ∈ events := by
  induction events generalizing s with
  | nil => cases member
  | cons first rest ih =>
      rcases List.mem_cons.mp member with rfl | later
      · exact List.mem_cons_self
      · exact List.mem_cons_of_mem _ (ih _ later)

/-- An invariant of state and history that holds at the start and survives every
admitted step holds after every run of admitted steps. -/
theorem run_invariant (P : List (S × E) → S → Prop) (admitted : S → E → Prop) (start : S)
    (initial : P [] start)
    (preserved : ∀ events e, let s := run step start events
      P (trace step start events) s → admitted s e →
      P (trace step start events ++ [(s, e)]) (step s e))
    (events : List E) (clean : ∀ entry ∈ trace step start events, admitted entry.1 entry.2) :
    P (trace step start events) (run step start events) := by
  induction events using List.reverseRecOn with
  | nil => exact initial
  | append_singleton events e ih =>
      rw [trace_append_singleton] at clean ⊢
      rw [run_append_singleton]
      have before := ih (fun entry member => clean entry (List.mem_append_left _ member))
      have last : admitted (run step start events) e :=
        clean (run step start events, e) (by simp)
      exact preserved events e before last

theorem moves_invariant {move : S → S → Prop} {s t : S} (P : S → Prop)
    (moves : Relation.ReflTransGen move s t) (start : P s)
    (kept : ∀ a b, P a → move a b → P b) : P t := by
  induction moves with
  | refl => exact start
  | tail _ last ih => exact kept _ _ ih last

end UtispaceChain.Lib
