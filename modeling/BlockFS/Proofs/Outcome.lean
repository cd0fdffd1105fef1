/-
How the run of an action ends.

`Ends` is the postcondition of a run, with one part for values and one for errors.
`Ends.bind` takes an action apart into its steps: what is known of an error of the first
step has to be enough for the whole, and what is known of its value is handed on.
-/
import BlockFS.Filesystem.Place

namespace BlockFS

variable {ε σ α β : Type}

theorem run_bind (x : EStateM ε σ α) (f : α → EStateM ε σ β) (s : σ) :
    (x >>= f) s =
      match x s with
      | .ok a s' => f a s'
      | .error e s' => .error e s' := by
  show EStateM.bind x f s = _
  unfold EStateM.bind
  cases x s <;> rfl

/-- A run ends in a value and a state with `Q`, or in an error and a state with `E`. -/
def Ends (r : EStateM.Result ε σ α) (Q : α → σ → Prop) (E : ε → σ → Prop) : Prop :=
  match r with
  | .ok a s => Q a s
  | .error e s => E e s

namespace Ends

theorem imp {r : EStateM.Result ε σ α} {Q Q' : α → σ → Prop} {E E' : ε → σ → Prop}
    (h : Ends r Q E) (hQ : ∀ a s, Q a s → Q' a s) (hE : ∀ e s, E e s → E' e s) :
    Ends r Q' E' := by
  cases r with
  | ok a s => exact hQ a s h
  | error e s => exact hE e s h

theorem bind_iff {x : EStateM ε σ α} {f : α → EStateM ε σ β} {s : σ} {Q : β → σ → Prop}
    {E : ε → σ → Prop} :
    Ends ((x >>= f) s) Q E ↔ Ends (x s) (fun a t => Ends (f a t) Q E) E := by
  rw [run_bind]
  cases x s with
  | ok a t => exact Iff.rfl
  | error e t => exact Iff.rfl

theorem bind {x : EStateM ε σ α} {f : α → EStateM ε σ β} {s : σ} {P : α → σ → Prop}
    {Q : β → σ → Prop} {E' E : ε → σ → Prop} (h : Ends (x s) P E')
    (hE : ∀ e t, E' e t → E e t) (hf : ∀ a t, P a t → Ends (f a t) Q E) :
    Ends ((x >>= f) s) Q E :=
  bind_iff.2 (h.imp hf hE)

theorem of_eq_ok {r : EStateM.Result ε σ α} {Q : α → σ → Prop} {E : ε → σ → Prop} {a : α} {s : σ}
    (h : Ends r Q E) (hr : r = .ok a s) : Q a s := by
  subst hr
  exact h

theorem of_eq_error {r : EStateM.Result ε σ α} {Q : α → σ → Prop} {E : ε → σ → Prop} {e : ε}
    {s : σ} (h : Ends r Q E) (hr : r = .error e s) : E e s := by
  subst hr
  exact h

end Ends
end BlockFS
