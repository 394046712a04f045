/-! Runs of calls that answer, and that are refused where a precondition fails. -/

namespace UtispaceChain.Lib

variable {S E A : Type} (call : S → E → Option (A × S))

/-- What holds of every call of a run; a call that is refused ends it. -/
def Along (P : S → E → A → S → Prop) : S → List E → Prop
  | _, [] => True
  | s, e :: run => ∀ a s', call s e = some (a, s') → P s e a s' ∧ Along P s' run

variable {call} {P Q : S → E → A → S → Prop}

theorem Along.imp (within : E → Prop) (invariant : S → Prop)
    (each : ∀ s e a s', within e → invariant s → call s e = some (a, s') → P s e a s' → Q s e a s' ∧
      invariant s') {s : S} (start : invariant s) {run : List E} (all : ∀ e ∈ run, within e)
      (along : Along call P s run) :
    Along call Q s run := by
  induction run generalizing s with
  | nil => trivial
  | cons e run ih =>
      intro a s' done
      rcases along a s' done with ⟨here, later⟩
      rcases each s e a s' (all e List.mem_cons_self) start done here with ⟨there, kept⟩
      exact ⟨there, ih kept (fun e member => all e (List.mem_cons_of_mem _ member)) later⟩

end UtispaceChain.Lib
