import Mathlib.Data.List.Basic

/-!
# Texts of lines

A text is cut at a separator; the last line may lack it. A text that ends with the separator is
given by its lines.

## Main results

* `linesOf_render` — the lines of a text made of lines
* `exists_render` — every text that ends with the separator is made of lines
* `find_filter` — lines that are dropped before the first match do not matter
-/

namespace PeakOs

open List

variable {α : Type*} {nl : α}

/-- The text of some lines, each ended by the separator. -/
def render (nl : α) (ls : List (List α)) : List α := ls.flatMap (· ++ [nl])

@[simp] theorem render_nil : render nl [] = [] := rfl

@[simp] theorem render_cons (l : List α) (ls : List (List α)) :
    render nl (l :: ls) = l ++ nl :: render nl ls := by simp [render]

@[simp] theorem render_append (ls ms : List (List α)) :
    render nl (ls ++ ms) = render nl ls ++ render nl ms := by simp [render]

theorem length_render_filter_le (p : List α → Bool) (ls : List (List α)) :
    (render nl (ls.filter p)).length ≤ (render nl ls).length := by
  induction ls with
  | nil => exact Nat.le_refl _
  | cons l ls ih =>
    rw [filter_cons]
    split <;> simp only [render_cons, length_append, length_cons] <;> omega

variable [DecidableEq α]

def linesLoop (nl : α) : List α → List α → List (List α)
  | cur, [] => if cur = [] then [] else [cur]
  | cur, b :: bs => if b = nl then cur :: linesLoop nl [] bs else linesLoop nl (cur ++ [b]) bs

/-- The lines of a text, without their separators. -/
def linesOf (nl : α) (text : List α) : List (List α) := linesLoop nl [] text

variable {l : List α} {ls : List (List α)}

theorem linesLoop_line (hl : nl ∉ l) (cur rest : List α) :
    linesLoop nl cur (l ++ nl :: rest) = (cur ++ l) :: linesLoop nl [] rest := by
  induction l generalizing cur with
  | nil => simp [linesLoop]
  | cons b l ih =>
    obtain ⟨hb, hl⟩ := not_or.1 (mt mem_cons.2 hl)
    rw [cons_append, linesLoop, if_neg (Ne.symm hb), ih hl]
    simp

/-- **Lines are read back** as they were written. -/
theorem linesOf_render (hls : ∀ l ∈ ls, nl ∉ l) : linesOf nl (render nl ls) = ls := by
  induction ls with
  | nil => rfl
  | cons l ls ih =>
    obtain ⟨hl, hrest⟩ := forall_mem_cons.1 hls
    rw [render_cons, linesOf, linesLoop_line hl]
    exact congrArg _ (ih hrest)

/-- Every text is made of lines. -/
theorem exists_render (t : List α) :
    ∃ ls : List (List α), t ++ [nl] = render nl ls ∧ ∀ l ∈ ls, nl ∉ l := by
  induction t with
  | nil => exact ⟨[[]], by simp, by simp⟩
  | cons b t ih =>
    obtain ⟨ls, ht, hls⟩ := ih
    by_cases hb : b = nl
    · exact ⟨[] :: ls, by simp [ht, hb], by simpa using hls⟩
    cases ls with
    | nil => simp at ht
    | cons l ls =>
      obtain ⟨hl, hrest⟩ := forall_mem_cons.1 hls
      refine ⟨(b :: l) :: ls, by simpa using ht, forall_mem_cons.2 ⟨?_, hrest⟩⟩
      exact mt mem_cons.1 (not_or.2 ⟨Ne.symm hb, hl⟩)

omit [DecidableEq α] in
theorem find_filter {p q : List α → Bool}
    (h : ls.find? q = some l) (hp : p l = true) : (ls.filter p).find? q = some l := by
  obtain ⟨hq, as, bs, rfl, has⟩ := find?_eq_some_iff_append.1 h
  rw [filter_append, filter_cons_of_pos hp]
  exact find?_eq_some_iff_append.2 ⟨hq, _, _, rfl, fun a ha => has a (mem_filter.1 ha).1⟩

end PeakOs
