import Mathlib.Tactic.Common

/-! Programs that change a state and may fail with it: what holds of the state they leave, in either
case. -/

namespace UtispaceChain.Lib

variable {ε S α β : Type}

/-- From `s` the program ends with `Q`, or fails with `E`. -/
def Ends (x : EStateM ε S α) (s : S) (Q : α → S → Prop) (E : ε → S → Prop) : Prop :=
  match x s with
  | .ok a t => Q a t
  | .error e t => E e t

variable {x : EStateM ε S α} {f : α → EStateM ε S β} {s t : S} {Q : α → S → Prop} {R : β → S → Prop}
  {E : ε → S → Prop}

theorem Ends.ok (ends : Ends x s Q E) {a : α} (result : x s = .ok a t) : Q a t := by
  unfold Ends at ends
  rwa [result] at ends

theorem Ends.error (ends : Ends x s Q E) {e : ε} (result : x s = .error e t) : E e t := by
  unfold Ends at ends
  rwa [result] at ends

theorem Ends.mono {Q' : α → S → Prop} {E' : ε → S → Prop} (ends : Ends x s Q E)
    (good : ∀ a t, Q a t → Q' a t) (bad : ∀ e t, E e t → E' e t) : Ends x s Q' E' := by
  unfold Ends at *
  cases result : x s with
  | ok a t =>
      rw [result] at ends
      exact good a t ends
  | error e t =>
      rw [result] at ends
      exact bad e t ends

theorem Ends.and {Q' : α → S → Prop} {E' : ε → S → Prop} (first : Ends x s Q E)
    (second : Ends x s Q' E') :
    Ends x s (fun a t => Q a t ∧ Q' a t) fun e t => E e t ∧ E' e t := by
  unfold Ends at *
  cases result : x s with
  | ok a t =>
      rw [result] at first second
      exact ⟨first, second⟩
  | error e t =>
      rw [result] at first second
      exact ⟨first, second⟩

@[simp] theorem ends_pure (a : α) : Ends (pure a) s Q E ↔ Q a s := Iff.rfl

@[simp] theorem ends_throw (e : ε) : Ends (throw e) s Q E ↔ E e s := Iff.rfl

@[simp] theorem ends_bind : Ends (x >>= f) s R E ↔ Ends x s (fun a t => Ends (f a) t R E) E := by
  unfold Ends
  change (match EStateM.bind x f s with | .ok a t => R a t | .error e t => E e t) ↔ _
  unfold EStateM.bind
  cases x s <;> rfl

@[simp] theorem ends_get {Q : S → S → Prop} : Ends get s Q E ↔ Q s s := Iff.rfl

@[simp] theorem ends_modify {Q : Unit → S → Prop} (g : S → S) : Ends (modify g) s Q E ↔
    Q () (g s) := Iff.rfl

/-- Where `x` does not fail, what it gives has `P`. -/
def Yields (P : α → Prop) (x : EStateM ε S α) : Prop :=
  ∀ s, Ends x s (fun a _ => P a) fun _ _ => True

theorem yields_pure {P : α → Prop} {a : α} (yields : P a) : Yields P (pure a : EStateM ε S α) :=
  fun _ => yields

theorem yields_bind {P : β → Prop} (second : ∀ a, Yields P (f a)) : Yields P (x >>= f) := by
  intro s
  have any : Ends x s (fun _ _ => True) fun _ _ => True := by
    unfold Ends
    cases x s <;> trivial
  rw [ends_bind]
  exact any.mono (fun a t _ => second a t) fun _ _ _ => trivial

/-- `x` changes nothing that `view` shows. -/
def Leaves {γ : Type} (view : S → γ) (x : EStateM ε S α) : Prop :=
  ∀ s, Ends x s (fun _ t => view t = view s) fun _ t => view t = view s

section Leaves

variable {γ : Type} {view : S → γ}

theorem leaves_pure (a : α) : Leaves view (pure a : EStateM ε S α) := fun _ => rfl

theorem leaves_throw (e : ε) : Leaves view (throw e : EStateM ε S α) := fun _ => rfl

theorem leaves_get : Leaves view (get : EStateM ε S S) := fun _ => rfl

theorem leaves_modify {g : S → S} (blind : ∀ s, view (g s) = view s) :
    Leaves view (modify g : EStateM ε S Unit) := blind

theorem leaves_bind (first : Leaves view x) (second : ∀ a, Leaves view (f a)) :
    Leaves view (x >>= f) := by
  intro s
  rw [ends_bind]
  refine (first s).mono (fun a t same => ?_) fun _ _ same => same
  exact (second a t).mono (fun _ _ later => later.trans same) fun _ _ later => later.trans same

theorem Leaves.next {R : β → S → Prop} (leaves : Leaves view x) (rest : ∀ a t, view t = view s →
    Ends (f a) t R E) (bad : ∀ e t, view t = view s → E e t) : Ends (x >>= f) s R E := by
  rw [ends_bind]
  exact (leaves s).mono rest bad

theorem leaves_ite {p : Prop} [Decidable p] {y : EStateM ε S α} (yes : Leaves view x)
    (no : Leaves view y) :
    Leaves view (if p then x else y) := by
  split
  · exact yes
  · exact no

end Leaves

end UtispaceChain.Lib
