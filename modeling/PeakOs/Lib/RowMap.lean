import Mathlib.Data.List.Perm.Basic
import Mathlib.Data.List.Nodup

/-!
# A table of rows as a finite map

Rows of keys and values in an array without order: a new key is appended, a value is replaced in its
place, and a row is removed by moving the last row to its place (`swapRemove`).

## Main results

* `swapRemove_perm` — what is left is the table without the row
* `Represents.push`, `Represents.put`, `Represents.remove` — the three updates of the map
-/

namespace PeakOs

open Function List

variable {α β κ ν : Type*}

/-- Remove the row `i` by moving the last one to its place. -/
def swapRemove (l : List α) (i : ℕ) : List α :=
  match l.getLast? with
  | none => l
  | some z => (l.set i z).dropLast

theorem map_swapRemove (f : α → β) (l : List α) (i : ℕ) :
    (swapRemove l i).map f = swapRemove (l.map f) i := by
  simp only [swapRemove, getLast?_map]
  cases l.getLast? with
  | none => rfl
  | some z => simp

/-- The last row takes the place of the one removed. -/
theorem swapRemove_perm {l : List α} {i : ℕ} (hi : i < l.length) :
    (swapRemove l i).Perm (l.eraseIdx i) := by
  obtain ⟨a, x, b, rfl, rfl⟩ : ∃ a x b, l = a ++ x :: b ∧ a.length = i :=
    ⟨l.take i, l[i], l.drop (i + 1), by simp, by simp; omega⟩
  have herase : (a ++ x :: b).eraseIdx a.length = a ++ b := by simp [eraseIdx_append_of_length_le]
  rw [herase]
  rcases eq_nil_or_concat' b with rfl | ⟨b, z, rfl⟩
  · simp [swapRemove]
  have hset : swapRemove (a ++ x :: (b ++ [z])) a.length = a ++ z :: b := by
    have hlast : (a ++ x :: (b ++ [z])).getLast? = some z := by
      rw [← cons_append, ← append_assoc, getLast?_concat]
    have hall : a ++ z :: (b ++ [z]) = (a ++ z :: b) ++ [z] := by simp
    simp only [swapRemove, hlast, set_append_right _ _ (Nat.le_refl _), Nat.sub_self,
      set_cons_zero, hall, dropLast_concat]
  rw [hset]
  exact (@List.perm_append_comm _ [z] b).append_left a

/-- The rows are those of the map, each key in one of them. -/
structure Represents (rows : List (κ × ν)) (m : κ → Option ν) : Prop where
  nodup : (rows.map Prod.fst).Nodup
  mem_iff : ∀ k v, (k, v) ∈ rows ↔ m k = some v

variable [DecidableEq κ] {rows : List (κ × ν)} {m : κ → Option ν} {k : κ} {v : ν}

/-- A new key is put at the end. -/
theorem Represents.push (h : Represents rows m) (hk : ∀ r ∈ rows, r.1 ≠ k) (v : ν) :
    Represents (rows ++ [(k, v)]) (update m k (some v)) where
  nodup := by
    simp only [map_append, map_cons, map_nil, nodup_append, nodup_singleton]
    refine ⟨h.nodup, trivial, ?_⟩
    rintro a ha b hb rfl
    obtain ⟨r, hr, rfl⟩ := mem_map.1 ha
    exact hk r hr (mem_singleton.1 hb)
  mem_iff k' v' := by
    rcases eq_or_ne k' k with rfl | hne
    · have hnot : (k', v') ∉ rows := fun hmem => hk _ hmem rfl
      simp [hnot, eq_comm]
    · simp [hne, h.mem_iff]

/-- A key is removed. -/
theorem Represents.remove (h : Represents rows m) {i : ℕ} (hi : i < rows.length)
    (hk : rows[i].1 = k) : Represents (swapRemove rows i) (update m k none) := by
  have hperm : (rows[i] :: swapRemove rows i).Perm rows :=
    ((swapRemove_perm hi).cons _).trans (getElem_cons_eraseIdx_perm hi)
  have hnodup := (hperm.map Prod.fst).nodup_iff.2 h.nodup
  rw [map_cons, nodup_cons, hk] at hnodup
  refine ⟨hnodup.2, fun k' v' => ?_⟩
  have hmem : (k', v') ∈ rows ↔ _ := hperm.mem_iff.symm
  rcases eq_or_ne k' k with rfl | hne
  · simp only [update_self, reduceCtorEq, iff_false]
    exact fun hin => hnodup.1 (mem_map_of_mem hin)
  rw [update_of_ne hne, ← h.mem_iff, hmem, mem_cons]
  refine ⟨.inr, fun hor => hor.resolve_left fun heq => hne ?_⟩
  rw [← hk, ← heq]

/-- A key gets a new value. -/
theorem Represents.put (h : Represents rows m) {i : ℕ} (hi : i < rows.length)
    (hk : rows[i].1 = k) (v : ν) :
    Represents (rows.set i (k, v)) (update m k (some v)) := by
  have hperm : (rows.set i (k, v)).Perm (swapRemove rows i ++ [(k, v)]) :=
    (set_perm_cons_eraseIdx hi _).trans
      (((swapRemove_perm hi).symm.cons _).trans (perm_append_singleton ..).symm)
  have hpush := (h.remove hi hk).push (k := k) (fun r hr heq => ?_) v
  · rw [update_idem] at hpush
    exact ⟨(hperm.map _).nodup_iff.2 hpush.nodup,
      fun k' v' => hperm.mem_iff.trans (hpush.mem_iff k' v')⟩
  have hnone := ((h.remove hi hk).mem_iff r.1 r.2).1 hr
  rw [heq, update_self] at hnone
  cases hnone

end PeakOs
