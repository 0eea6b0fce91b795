import Mathlib.Data.List.Basic

/-!
# Runs of a state machine

The subsystems modelled in this project are all driven the same way: a deterministic `step` on an
explicit state, fed by calls whose arguments also carry whatever the environment decides (the
answer of an allocator, a record sent by a peer). A *run* is a finite sequence of calls, each
allowed in the state it is made in.

`Reach start ok step` is the set of states such runs end in. The permission `ok` is a parameter
and not part of `step`, because the same machine is run under several of them: everything a caller
may do, and the smaller set of calls that stay clear of some branch.

## Main results

* `Reach.invariant` — an invariant that holds at the start and survives every allowed call holds
  everywhere
* `Reach.mono` — allowing more calls reaches more
* `Reach.calls`, `allowedFrom_append` — a whole list of allowed calls, in pieces
-/

namespace PeakOs

variable {σ α : Type*}

/-- The states reached from a start state by finitely many allowed calls. -/
inductive Reach (start : σ → Prop) (ok : σ → α → Prop) (step : σ → α → σ) : σ → Prop
  | start {s : σ} : start s → Reach start ok step s
  | call {s : σ} (a : α) : Reach start ok step s → ok s a → Reach start ok step (step s a)

variable {start : σ → Prop} {ok ok' : σ → α → Prop} {step : σ → α → σ}

/-- **The invariant rule.** -/
theorem Reach.invariant (Inv : σ → Prop) (hstart : ∀ s, start s → Inv s)
    (hstep : ∀ s a, Inv s → ok s a → Inv (step s a)) {s : σ} (h : Reach start ok step s) :
    Inv s := by
  induction h with
  | start hs => exact hstart _ hs
  | call a _ hok ih => exact hstep _ a ih hok

/-- Whoever may do more gets at least as far. -/
theorem Reach.mono (hle : ∀ s a, ok s a → ok' s a) {s : σ} (h : Reach start ok step s) :
    Reach start ok' step s := by
  induction h with
  | start hs => exact .start hs
  | call a _ hok ih => exact .call a ih (hle _ _ hok)

/-- Every call of a list is allowed in the state the calls before it lead to. -/
def AllowedFrom (ok : σ → α → Prop) (step : σ → α → σ) : σ → List α → Prop
  | _, [] => True
  | s, a :: as => ok s a ∧ AllowedFrom ok step (step s a) as

theorem allowedFrom_true (step : σ → α → σ) (s : σ) (as : List α) :
    AllowedFrom (fun _ _ => True) step s as := by
  induction as generalizing s with
  | nil => exact trivial
  | cons a as ih => exact ⟨trivial, ih _⟩

theorem allowedFrom_append {s : σ} {as bs : List α} :
    AllowedFrom ok step s (as ++ bs) ↔
      AllowedFrom ok step s as ∧ AllowedFrom ok step (as.foldl step s) bs := by
  induction as generalizing s with
  | nil => simp [AllowedFrom]
  | cons a as ih => simp only [List.cons_append, AllowedFrom, List.foldl_cons, ih, and_assoc]

/-- A whole list of calls. -/
theorem Reach.calls {s : σ} (h : Reach start ok step s) (as : List α)
    (has : AllowedFrom ok step s as) : Reach start ok step (as.foldl step s) := by
  induction as generalizing s with
  | nil => exact h
  | cons a as ih => exact ih (.call a h has.1) has.2

end PeakOs
