import Mathlib.Data.List.Induction
import Mathlib.Data.Set.Basic

/-!
# Radix trees stored as tables

A radix tree of fixed arity is often kept as a heap of tables: entry `i` of a table is empty or
holds the number of the table one level down. Nothing in such a heap says that it is a tree. The
same table may be entered twice, and a store through one path then shows up under another.

`IsTree` says that within a *region*, a set of paths closed under going up, no table is reached
along two paths. That is all the separation a store needs: an entry of a table at the lower edge of
the region belongs to one path only, and a fresh table hung into an empty entry extends the tree by
one path.

The tables outside the region are not looked at. A tree that shares its upper half with others is
one region, and the part that is its own another.

## Main results

* `IsTree.node_setEntry`, `IsTree.entry_setEntry` — a store at the lower edge
* `IsTree.node_growTable`, `IsTree.entry_growTable` — a fresh table
* `IsTree.growTable` — which leaves a tree
-/

namespace PeakOs.RadixTree

open Function List Option

variable {n : ℕ} {E : Type*}

/-- Tables by number. -/
abbrev Tables (n : ℕ) (E : Type*) := ℕ → Fin n → E

/-- Store `e` in entry `i` of table `t`. -/
def setEntry (mem : Tables n E) (t : ℕ) (i : Fin n) (e : E) : Tables n E :=
  Function.update mem t (Function.update (mem t) i e)

variable (mem : Tables n E)

@[simp] theorem setEntry_self (t : ℕ) (i : Fin n) (e : E) :
    setEntry mem t i e t i = e := by simp [setEntry]

variable {t u p : ℕ} {π : List (Fin n)}

theorem setEntry_of_ne {i j : Fin n} (e : E)
    (h : ¬ (u = t ∧ j = i)) : setEntry mem t i e u j = mem u j := by
  rw [setEntry]
  by_cases hu : u = t
  · subst hu
    rw [update_self, update_of_ne fun hj => h ⟨rfl, hj⟩]
  · rw [update_of_ne hu]

theorem setEntry_of_table_ne (i : Fin n) (e : E) (h : u ≠ t) :
    setEntry mem t i e u = mem u :=
  update_of_ne h _ _

/-- Write the row of table `p`, then hang it into entry `i` of table `t`. -/
def growTable (mem : Tables n E) (t : ℕ) (i : Fin n) (e : E) (p : ℕ) (row : Fin n → E) :
    Tables n E :=
  setEntry (Function.update mem p row) t i e

/-! ### Regions -/

/-- A set of paths closed under going up. -/
structure Region (n : ℕ) where
  /-- The paths. -/
  paths : Set (List (Fin n))
  /-- The root is in the region. -/
  nil_mem : [] ∈ paths
  /-- So is whatever lies above a path of it. -/
  closed : ∀ {π : List (Fin n)} {i : Fin n}, π ++ [i] ∈ paths → π ∈ paths

theorem Region.of_append (R : Region n) (ρ : List (Fin n))
    (h : π ++ ρ ∈ R.paths) : π ∈ R.paths := by
  induction ρ using reverseRecOn with
  | nil => simpa using h
  | append_singleton ρ i ih =>
    rw [← append_assoc] at h
    exact ih (R.closed h)

/-- A path of the region at its lower edge. -/
def Region.Edge (R : Region n) (π : List (Fin n)) : Prop :=
  π ∈ R.paths ∧ ∀ i, π ++ [i] ∉ R.paths

/-! ### Walking down -/

section Walk

variable (child : E → Option ℕ)

/-- The table at the end of a path. -/
def node (mem : Tables n E) : ℕ → List (Fin n) → Option ℕ
  | t, [] => some t
  | t, i :: π => (child (mem t i)).bind fun u => node mem u π

@[simp] theorem node_nil (mem : Tables n E) (t : ℕ) : node child mem t [] = some t := rfl

/-- A path is followed in two pieces. -/
theorem node_append (mem : Tables n E) (t : ℕ) (π ρ : List (Fin n)) :
    node child mem t (π ++ ρ) = (node child mem t π).bind fun u => node child mem u ρ := by
  induction π generalizing t with
  | nil => rfl
  | cons i π ih =>
    rw [cons_append, node, node, bind_assoc]
    exact congrArg _ (funext ih)

theorem node_concat (mem : Tables n E) (t : ℕ) (π : List (Fin n)) (i : Fin n) :
    node child mem t (π ++ [i]) = (node child mem t π).bind fun u => child (mem u i) := by
  rw [node_append]
  refine congrArg _ (funext fun u => ?_)
  exact bind_fun_some _

/-- Entry `i` of the table at the end of a path. -/
def entry (mem : Tables n E) (root : ℕ) (π : List (Fin n)) (i : Fin n) : Option E :=
  (node child mem root π).map fun t => mem t i

/-- The table is one of the region's. -/
def IsTable (R : Region n) (mem : Tables n E) (root t : ℕ) : Prop :=
  ∃ π ∈ R.paths, node child mem root π = some t

/-- No table is reached along two paths of the region. -/
structure IsTree (R : Region n) (mem : Tables n E) (root : ℕ) : Prop where
  /-- A table determines its path. -/
  inj : ∀ {π ρ : List (Fin n)} {t : ℕ}, π ∈ R.paths → ρ ∈ R.paths →
    node child mem root π = some t → node child mem root ρ = some t → π = ρ

end Walk

variable {child : E → Option ℕ} {R : Region n} {mem mem' : Tables n E} {root : ℕ}

/-- The tables of a region are found by looking at the entries that lead to its paths. -/
theorem node_congr (h : ∀ π i t, π ++ [i] ∈ R.paths → node child mem root π = some t →
      child (mem' t i) = child (mem t i)) (hπ : π ∈ R.paths) :
    node child mem' root π = node child mem root π := by
  induction π using reverseRecOn with
  | nil => rfl
  | append_singleton π i ih =>
    rw [node_concat, node_concat, ih (R.closed hπ)]
    rcases ht : node child mem root π with _ | t
    · rfl
    · exact h π i t hπ ht

theorem IsTree.congr (h : IsTree child R mem root)
    (hnode : ∀ π ∈ R.paths, node child mem' root π = node child mem root π) :
    IsTree child R mem' root := by
  refine ⟨fun {π ρ t} hπ hρ hn hn' => h.inj hπ hρ (t := t) ?_ ?_⟩
  · rwa [← hnode π hπ]
  · rwa [← hnode ρ hρ]

/-! ### A row of no table of the region -/

theorem node_update (row : Fin n → E) (hp : ¬ IsTable child R mem root p) (hπ : π ∈ R.paths) :
    node child (update mem p row) root π = node child mem root π := by
  refine node_congr (fun σ i t hσ ht => ?_) hπ
  have hne : t ≠ p := fun heq => hp ⟨σ, R.closed hσ, heq ▸ ht⟩
  rw [update_of_ne hne]

theorem entry_update (row : Fin n → E) (hp : ¬ IsTable child R mem root p)
    (hπ : π ∈ R.paths) (j : Fin n) :
    entry child (update mem p row) root π j = entry child mem root π j := by
  rw [entry, entry, node_update row hp hπ]
  rcases ht : node child mem root π with _ | t
  · rfl
  · have hne : t ≠ p := fun heq => hp ⟨π, hπ, heq ▸ ht⟩
    simp [update_of_ne hne]

/-- A page that is no table may be filled. -/
theorem IsTree.update (h : IsTree child R mem root) (row : Fin n → E)
    (hp : ¬ IsTable child R mem root p) : IsTree child R (update mem p row) root :=
  h.congr fun _ hπ => node_update row hp hπ

/-! ### A store at the lower edge -/

section Edge

variable {π : List (Fin n)} {t : ℕ}

/-- An entry of the last level moves no table. -/
theorem IsTree.node_setEntry (h : IsTree child R mem root) (hedge : R.Edge π)
    (ht : node child mem root π = some t) (i : Fin n) (e : E) {ρ : List (Fin n)}
    (hρ : ρ ∈ R.paths) : node child (setEntry mem t i e) root ρ = node child mem root ρ := by
  refine node_congr (fun σ j u hσ hu => ?_) hρ
  -- `t` sits at the edge, so no path of the region leads through it
  have hne : u ≠ t := by
    rintro rfl
    have heq := h.inj (R.closed hσ) hedge.1 hu ht
    exact hedge.2 j (heq ▸ hσ)
  rw [setEntry_of_table_ne _ _ _ hne]

/-- The store is seen along its own path and along no other. -/
theorem IsTree.entry_setEntry (h : IsTree child R mem root) (hedge : R.Edge π)
    (ht : node child mem root π = some t) (i : Fin n) (e : E) {ρ : List (Fin n)}
    (hρ : ρ ∈ R.paths) (j : Fin n) :
    entry child (RadixTree.setEntry mem t i e) root ρ j =
      if ρ = π ∧ j = i then some e else entry child mem root ρ j := by
  rw [entry, entry, h.node_setEntry hedge ht i e hρ]
  split
  next heq =>
    obtain ⟨rfl, rfl⟩ := heq
    rw [ht, map_some, setEntry_self]
  next hne =>
    rcases hu : node child mem root ρ with _ | u
    · rfl
    have hslot : ¬ (u = t ∧ j = i) := by
      rintro ⟨rfl, hj⟩
      exact hne ⟨h.inj hρ hedge.1 hu ht, hj⟩
    rw [map_some, map_some, setEntry_of_ne _ _ hslot]

end Edge

/-! ### A fresh table -/

section Grow

variable {π : List (Fin n)} {t p : ℕ} {i : Fin n} {e : E} {row : Fin n → E}

/-- What it takes to hang table `p` with the row `row` into entry `i` of the table at `π`. -/
structure Grows (child : E → Option ℕ) (R : Region n) (mem : Tables n E) (root : ℕ)
    (π : List (Fin n)) (t : ℕ) (i : Fin n) (e : E) (p : ℕ) (row : Fin n → E) : Prop where
  /-- The new path belongs to the region. -/
  mem_paths : π ++ [i] ∈ R.paths
  /-- The table it hangs in. -/
  table : node child mem root π = some t
  /-- The entry was empty. -/
  free : child (mem t i) = none
  /-- The new table is no table of the region yet. -/
  fresh : ¬ IsTable child R mem root p
  /-- It is entered from the new entry. -/
  link : child e = some p
  /-- It leads nowhere. -/
  blank : ∀ j, child (row j) = none

theorem Grows.ne (h : Grows child R mem root π t i e p row) : t ≠ p :=
  fun heq => h.fresh ⟨π, R.closed h.mem_paths, heq ▸ h.table⟩

theorem Grows.node_concat_none (h : Grows child R mem root π t i e p row) :
    node child mem root (π ++ [i]) = none := by
  rw [node_concat, h.table]
  exact h.free

section

variable (htree : IsTree child R mem root)
include htree

section

variable (h : Grows child R mem root π t i e p row)
include h

/-- A new table is found at one path, and the others stay. -/
theorem IsTree.node_growTable {ρ : List (Fin n)} (hρ : ρ ∈ R.paths) :
    node child (growTable mem t i e p row) root ρ =
      if ρ = π ++ [i] then some p else node child mem root ρ := by
  have hrow : growTable mem t i e p row p = row := by
    rw [growTable, setEntry_of_table_ne _ _ _ h.ne.symm, update_self]
  induction ρ using reverseRecOn with
  | nil => simp
  | append_singleton ρ j ih =>
    have hρ' := R.closed hρ
    rw [node_concat, ih hρ']
    by_cases hnew : ρ = π ++ [i]
    · -- below the new table there is nothing, as before
      have hlonger : ρ ++ [j] ≠ π ++ [i] := by
        intro heq
        have := congrArg length (heq.trans hnew.symm)
        simp at this
      rw [if_pos hnew, if_neg hlonger, node_concat, hnew, h.node_concat_none, bind_some, hrow]
      exact h.blank j
    rw [if_neg hnew]
    rcases hu : node child mem root ρ with _ | u
    · have hne : ρ ++ [j] ≠ π ++ [i] := by
        intro heq
        obtain ⟨rfl, -⟩ := append_inj' heq rfl
        rw [h.table] at hu
        cases hu
      rw [if_neg hne, node_concat, hu]
      rfl
    have hup : u ≠ p := fun heq => h.fresh ⟨ρ, hρ', heq ▸ hu⟩
    rw [bind_some]
    by_cases hslot : u = t ∧ j = i
    · obtain ⟨rfl, rfl⟩ := hslot
      have hpath : ρ = π := htree.inj hρ' (R.closed h.mem_paths) hu h.table
      rw [hpath, if_pos rfl, growTable, setEntry_self, h.link]
    have hne : ρ ++ [j] ≠ π ++ [i] := by
      intro heq
      obtain ⟨rfl, hj⟩ := append_inj' heq rfl
      rw [h.table] at hu
      cases hu
      exact hslot ⟨rfl, by simpa using hj⟩
    rw [if_neg hne, node_concat, hu, growTable, setEntry_of_ne _ _ hslot, update_of_ne hup]
    rfl

/-- **Growing.** A fresh table in an empty entry leaves a tree. -/
theorem IsTree.growTable : IsTree child R (RadixTree.growTable mem t i e p row) root := by
  refine ⟨fun {ρ ρ' u} hρ hρ' hu hu' => ?_⟩
  rw [htree.node_growTable h hρ] at hu
  rw [htree.node_growTable h hρ'] at hu'
  split at hu <;> split at hu'
  next h1 h2 => exact h1.trans h2.symm
  · cases hu
    exact absurd ⟨ρ', hρ', hu'⟩ h.fresh
  · cases hu'
    exact absurd ⟨ρ, hρ, hu⟩ h.fresh
  · exact htree.inj hρ hρ' hu hu'

/-- The entries are those from before, the link, and the row of the new table. -/
theorem IsTree.entry_growTable {ρ : List (Fin n)} (hρ : ρ ∈ R.paths) (j : Fin n) :
    entry child (RadixTree.growTable mem t i e p row) root ρ j =
      if ρ ++ [j] = π ++ [i] then some e
      else if ρ = π ++ [i] then some (row j) else entry child mem root ρ j := by
  have hπ := R.closed h.mem_paths
  rw [entry, entry, htree.node_growTable h hρ]
  by_cases hslot : ρ ++ [j] = π ++ [i]
  · obtain ⟨rfl, hj⟩ := append_inj' hslot rfl
    obtain rfl : j = i := by simpa using hj
    rw [if_pos hslot, if_neg (by simp), h.table, map_some, RadixTree.growTable, setEntry_self]
  split
  · rw [map_some, RadixTree.growTable, setEntry_of_table_ne _ _ _ h.ne.symm, update_self]
  rcases hu : node child mem root ρ with _ | u
  · rfl
  have hup : u ≠ p := fun heq => h.fresh ⟨ρ, hρ, heq ▸ hu⟩
  have hut : ¬ (u = t ∧ j = i) := by
    rintro ⟨rfl, rfl⟩
    exact hslot (by rw [htree.inj hρ hπ hu h.table])
  rw [map_some, map_some, RadixTree.growTable, setEntry_of_ne _ _ hut, update_of_ne hup]

end

end

end Grow

end PeakOs.RadixTree
