import Mathlib.Data.Nat.Notation

/-!
# Outcomes of stateful code that can stop

`Ends Q E r` says of the outcome `r` of a run that a value it returns meets `Q` and a stop meets
`E`, each with the state the run ends in.

## Main results

* `Ends.ite` — a branch
* `Ends.bind` — a run goes on from where its first part ended
* `Ends.onStop` — a clean-up that runs only when the first part stops
-/

namespace PeakOs

variable {ε σ α β : Type}

/-- What is returned meets `Q`; a stop meets `E`. A structure, so that naming a run's outcome does
not make Lean compute it. -/
structure Ends (Q : α → σ → Prop) (E : ε → σ → Prop) (r : EStateM.Result ε σ α) : Prop where
  holds : match r with
    | .ok a s => Q a s
    | .error e s => E e s

/-- Run `x`; when it stops for a reason in `p`, run `y` and stop for the same reason. -/
def onStop (p : ε → Bool) (x : EStateM ε σ α) (y : EStateM ε σ Unit) : EStateM ε σ α := fun s =>
  match x s with
  | .ok a s' => .ok a s'
  | .error e s' => if p e then (y >>= fun _ => throw e) s' else .error e s'

variable {Q Q' : α → σ → Prop} {R : β → σ → Prop} {E E' : ε → σ → Prop}
  {r : EStateM.Result ε σ α} {x : EStateM ε σ α} {f : α → EStateM ε σ β} {s : σ}

theorem Ends.mono (h : Ends Q E r) (hQ : ∀ a s, Q a s → Q' a s) (hE : ∀ e s, E e s → E' e s) :
    Ends Q' E' r := by
  cases r with
  | ok a s => exact ⟨hQ a s h.holds⟩
  | error e s => exact ⟨hE e s h.holds⟩

theorem Ends.imp (h : Ends Q E r) (hQ : ∀ a s, Q a s → Q' a s) : Ends Q' E r :=
  h.mono hQ fun _ _ he => he

theorem Ends.ite {c : Prop} [Decidable c] {y : EStateM ε σ α} (hx : c → Ends Q E (x s))
    (hy : ¬ c → Ends Q E (y s)) : Ends Q E ((if c then x else y) s) := by
  split
  next h => exact hx h
  next h => exact hy h

/-- **The rule for a sequence.** -/
theorem Ends.bind (h : Ends Q E (x s)) (hf : ∀ a s', Q a s' → Ends R E (f a s')) :
    Ends R E ((x >>= f) s) := by
  show Ends R E (EStateM.bind x f s)
  rw [EStateM.bind]
  cases hx : x s with
  | ok a s' =>
    rw [hx] at h
    exact hf a s' h.holds
  | error e s' =>
    rw [hx] at h
    exact ⟨h.holds⟩

/-- **The rule for a handler** that runs after some failures. -/
theorem Ends.onStop {p : ε → Bool} {y : EStateM ε σ Unit} (h : Ends Q E (x s))
    (hy : ∀ e s', E e s' → p e = true → Ends (fun _ => E' e) E' (y s'))
    (hn : ∀ e s', E e s' → p e = false → E' e s') : Ends Q E' (onStop p x y s) := by
  rw [PeakOs.onStop]
  cases hx : x s with
  | ok a s' =>
    rw [hx] at h
    exact ⟨h.holds⟩
  | error e s' =>
    rw [hx] at h
    show Ends Q E' (if p e then _ else _)
    cases hp : p e with
    | false => exact ⟨hn e s' h.holds hp⟩
    | true => exact (hy e s' h.holds hp).bind fun _ _ h' => ⟨h'⟩

end PeakOs
