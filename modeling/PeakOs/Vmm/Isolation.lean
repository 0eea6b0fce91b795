import PeakOs.Vmm.Elf
import PeakOs.Vmm.PageMap

/-!
# Writable or executable, and below the middle

What user mode can reach is decided by the processor's walk (`userLeaf`): every entry on the way
must have the user bit. Two things are wanted of it for a process that `exec_elf` has loaded,
whatever calls follow: no entry it ends in is both writable and executable, and it does not end in
the upper half at all.

`vmm_map_page_flags` checks the flags it is given, so an entry stored at the bottom of the tables is
harmless. What could go wrong is that a word is stored elsewhere. The upper half of the top table is
shared with the kernel, and the loader of the kernel maps memory there in large pages. The walk of
`vmm.c` does not look at the bit that marks a large page (the loader's own walk does), takes the
memory behind it for a table, and a store for such an address is a store to arbitrary memory. If the
top table of the process lies at the start of a large page, it can be linked to one of its own last
tables in this way, and then a *table* entry is made where a leaf is looked for.

A call is harmless as long as no large page is on the way to its address.

## Main results

* `isolated_of_run` — every run of such calls
* `table_as_leaf` — a run in which a table entry becomes a writable, executable page
-/

namespace PeakOs.Vmm

open List Option RadixTree
open Function

/-- The bit that makes an entry of an upper table a large page. -/
def huge (e : Pte) : Bool := e.getLsbD 7

/-- The entry the processor ends in when user mode asks for an address, if it lets it. -/
def userLeaf (mem : Tables 512 Pte) : ℕ → List (Fin 512) → Option Pte
  | _, [] => none
  | t, i :: π =>
    if present (mem t i) && userBit (mem t i) then
      if π = [] ∨ huge (mem t i) = true then some (mem t i)
      else userLeaf mem (frameOf (mem t i)) π
    else none

/-- All four indexes of an address. -/
def fullPath (vaddr : ℕ) : List (Fin 512) := upperPath vaddr ++ [tableIndex vaddr 0]

def WriteExec (e : Pte) : Prop := writable e = true ∧ noExec e = false

/-- **The property.** Of what user mode can reach, and of every entry that was stored for a user. -/
structure Isolated (root : ℕ) (s : State) : Prop where
  reached : ∀ v e, userLeaf s.mem root (fullPath v) = some e →
    (tableIndex v 3).val < 256 ∧ ¬ WriteExec e
  stored : ∀ x ∈ s.installed, userBit x.2 = true → x.1 < userEnd ∧ ¬ WriteExec x.2

/-! ### Large pages -/

/-- No large page on the way down a path. -/
def HugeFree (mem : Tables 512 Pte) : ℕ → List (Fin 512) → Prop
  | _, [] => True
  | t, i :: π => present (mem t i) = true →
      huge (mem t i) = false ∧ HugeFree mem (frameOf (mem t i)) π

variable {t root : ℕ} {π : List (Fin 512)}

theorem HugeFree.of_append {mem : Tables 512 Pte}
    (ρ : List (Fin 512)) (h : HugeFree mem t (π ++ ρ)) : HugeFree mem t π := by
  induction π generalizing t with
  | nil => trivial
  | cons i π ih => exact fun hp => ⟨(h hp).1, ih (h hp).2⟩

/-- The paths of the upper half without a large page. -/
def kernelRegion (mem : Tables 512 Pte) (cr3 : ℕ) : Region 512 where
  paths := { π | π.length ≤ 3 ∧ (∀ i ∈ π.head?, 256 ≤ i.val) ∧ HugeFree mem cr3 π }
  nil_mem := ⟨Nat.zero_le _, nofun, trivial⟩
  closed := by
    rintro π i ⟨hlen, hhead, hfree⟩
    refine ⟨?_, fun j hj => hhead j ?_, hfree.of_append _⟩
    · rw [List.length_append] at hlen
      omega
    · rw [List.head?_append, Option.mem_def.1 hj]
      rfl

/-- The paths along which a walk meets tables only. -/
def openRegion (mem : Tables 512 Pte) (cr3 : ℕ) : Region 512 where
  paths := userRegion.paths ∪ (kernelRegion mem cr3).paths
  nil_mem := .inl userRegion.nil_mem
  closed := Or.imp userRegion.closed (kernelRegion mem cr3).closed

/-- The state in which a program is started: the kernel's tables are a tree as far as they are
tables, none of them is free, and they are closed to user mode. -/
structure Booted (s : State) : Prop where
  pages : ∀ p ∈ s.free, 0 < p ∧ p < Pmm.maxPages
  nxEnabled : s.nxEnabled = true
  tree : IsTree child (kernelRegion s.mem s.currentCr3) s.mem s.currentCr3
  fresh : ∀ p ∈ s.free, ¬ IsTable child (kernelRegion s.mem s.currentCr3) s.mem s.currentCr3 p
  closed : ∀ i : Fin 512, 256 ≤ i.val → userBit (s.mem s.currentCr3 i) = false

/-- No large page is on the way to an address for which the call stores something. -/
def Call.Avoids (R : Region 512) : Call → Prop
  | .map _ vaddr _ flags => rejects vaddr flags = false → upperPath vaddr ∈ R.paths
  | .mapPage _ vaddr _ userWritable =>
    rejects vaddr (if userWritable then protRw else protRx) = false → upperPath vaddr ∈ R.paths
  | .unmap vaddr => upperPath vaddr ∈ R.paths
  -- the loop goes round if its range ends in the last page of all
  | .protect _ _ vaddr len flags => ∀ w < (vaddr + len) % 2 ^ 64,
      vaddr ≤ w ∨ 2 ^ 64 < (vaddr + len) % 2 ^ 64 + 4096 →
        rejects w flags = false → upperPath w ∈ R.paths

/-! ### The invariant -/

structure Guarded (R : Region 512) (root : ℕ) (s : State) : Prop where
  sound : Sound R root s
  nxEnabled : s.nxEnabled = true
  /-- The upper half is closed to user mode. -/
  closed : ∀ i : Fin 512, 256 ≤ i.val → userBit (s.mem root i) = false
  /-- The lower half has no large pages. -/
  upper : ∀ π i e, π ++ [i] ∈ userRegion.paths → entry child s.mem root π i = some e →
    present e = true → huge e = false
  leaf : ∀ v e, (tableIndex v 3).val < 256 → leaf root v s = some e → userBit e = true →
    ¬ WriteExec e
  stored : ∀ x ∈ s.installed, userBit x.2 = true → x.1 < userEnd ∧ ¬ WriteExec x.2

theorem userBit_tableEntry (p : ℕ) {i4 : Fin 512} (h : 256 ≤ i4.val) :
    userBit (physAddr p ||| tableFlags i4) = false := by
  rw [userBit, BitVec.getLsbD_or, getLsbD_physAddr, tableFlags, if_neg (not_lt.2 h)]
  rfl

theorem huge_tableEntry (p : ℕ) (i4 : Fin 512) : huge (physAddr p ||| tableFlags i4) = false := by
  rw [huge, BitVec.getLsbD_or, getLsbD_physAddr, tableFlags]
  split <;> rfl

theorem upperPath_mem_userRegion {v : ℕ} (h : (tableIndex v 3).val < 256) :
    upperPath v ∈ userRegion.paths := by
  refine ⟨by simp [upperPath], ?_⟩
  rintro i ⟨⟩
  exact h

section Guarded

variable {R : Region 512} {root : ℕ} {s s' : State}
variable (hR : ∀ π ∈ R.paths, π.length ≤ 3) (huser : userRegion.paths ⊆ R.paths)

variable {e : Pte} {v : ℕ} {flags : Flags}

/-- The processor's walk goes where the code's walk goes. -/
theorem userLeaf_walk (hupper : ∀ π i e, π ++ [i] ∈ userRegion.paths →
      entry child s.mem root π i = some e → present e = true → huge e = false)
    (π : List (Fin 512)) (j : Fin 512) : ∀ {σ : List (Fin 512)} {t : ℕ},
      node child s.mem root σ = some t → σ ++ π ∈ userRegion.paths →
      userLeaf s.mem t (π ++ [j]) = some e →
      (entry child s.mem root (σ ++ π) j).filter present = some e ∧ userBit e = true := by
  induction π with
  | nil =>
    intro σ t ht _ hleaf
    rw [nil_append, userLeaf] at hleaf
    split at hleaf
    next hbits =>
      rw [Bool.and_eq_true] at hbits
      obtain rfl := some.inj hleaf
      rw [append_nil, entry, ht, map_some, filter_some, if_pos hbits.1]
      exact ⟨rfl, hbits.2⟩
    · cases hleaf
  | cons i π ih =>
    intro σ t ht hmem hleaf
    rw [append_cons] at hmem ⊢
    rw [cons_append, userLeaf] at hleaf
    split at hleaf
    next hbits =>
      rw [Bool.and_eq_true] at hbits
      have hpath := userRegion.of_append π hmem
      have hhuge := hupper σ i _ hpath (by rw [entry, ht]; rfl) hbits.1
      rw [if_neg (by simp [hhuge])] at hleaf
      refine ih ?_ hmem hleaf
      rw [node_concat, ht]
      exact child_of_present hbits.1
    · cases hleaf

theorem Guarded.isolated (h : Guarded R root s) : Isolated root s := by
  refine ⟨fun v e he => ?_, h.stored⟩
  have hhalf : (tableIndex v 3).val < 256 := by
    by_contra hhigh
    have hclosed := h.closed (tableIndex v 3) (Nat.le_of_not_lt hhigh)
    rw [fullPath, upperPath, cons_append, userLeaf, hclosed, Bool.and_false] at he
    cases he
  obtain ⟨hleaf, hu⟩ := userLeaf_walk (e := e) h.upper (upperPath v) (tableIndex v 0) (σ := []) rfl
    (upperPath_mem_userRegion hhalf) he
  exact ⟨hhalf, h.leaf v e hhalf hleaf hu⟩

include hR huser

variable (h : Guarded R root s)
include h

theorem Guarded.grow (hg : Grow R root s s') : Guarded R root s' := by
  have hsound := h.sound.grow hg
  have hleaf := fun v hv => leaf_grow hR h.sound hg (v := v) hv
  obtain @⟨π, i, i4, t, p, hp, hpath, hhead, ht, hempty⟩ := hg
  have hgrows := h.sound.grows i4 hp hpath ht hempty
  refine ⟨hsound, h.nxEnabled, fun j hj => ?_, fun ρ j e hρ he hpres => ?_, fun v e hv he => ?_,
    h.stored⟩
  · have hne : root ≠ p := fun heq => h.sound.fresh p hp ⟨[], R.nil_mem, heq ▸ rfl⟩
    show userBit (growTable s.mem t i (physAddr p ||| tableFlags i4) p (fun _ => 0#64) root j) = _
    by_cases hslot : root = t ∧ j = i
    · -- the new entry stands in the top table, so its own index decides
      obtain ⟨rfl, rfl⟩ := hslot
      obtain rfl : π = [] := h.sound.tree.inj (R.closed hpath) R.nil_mem ht rfl
      obtain rfl : j = i4 := some.inj hhead
      rw [growTable, setEntry_self, userBit_tableEntry p hj]
    · rw [growTable, setEntry_of_ne _ _ hslot, update_of_ne hne]
      exact h.closed j hj
  · rw [State.addTable, h.sound.tree.entry_growTable hgrows (R.closed (huser hρ))] at he
    split at he
    · rw [← some.inj he]
      exact huge_tableEntry p i4
    split at he
    · rw [← some.inj he] at hpres
      cases hpres
    · exact h.upper ρ j e hρ he hpres
  · rw [hleaf v (huser (upperPath_mem_userRegion hv))] at he
    exact h.leaf v e hv he

theorem Guarded.grown (hg : Relation.ReflTransGen (Grow R root) s s') : Guarded R root s' := by
  induction hg with
  | refl => exact h
  | tail _ hstep ih => exact ih.grow hR huser hstep

omit hR in
theorem Guarded.take {p : ℕ} (hp : p ∈ s.free) (row : Fin 512 → Pte) :
    Guarded R root (s.take p row) := by
  have hfresh := h.sound.fresh p hp
  refine ⟨h.sound.take hp row, h.nxEnabled, fun j hj => ?_, fun ρ j e hρ he => ?_,
    fun v e hv he => ?_, h.stored⟩
  · have hne : root ≠ p := fun heq => hfresh ⟨[], R.nil_mem, heq ▸ rfl⟩
    rw [State.take_mem, update_of_ne hne]
    exact h.closed j hj
  · rw [State.take_mem, entry_update row hfresh (R.closed (huser hρ))] at he
    exact h.upper ρ j e hρ he
  rw [Vmm.leaf, State.take_mem, entry_update row hfresh
    (huser (upperPath_mem_userRegion hv))] at he
  exact h.leaf v e hv he

/-- A store at the bottom of the tables. -/
theorem Guarded.setLeaf {t : ℕ} (hv : upperPath v ∈ R.paths)
    (ht : node child s.mem root (upperPath v) = some t)
    (he : userBit e = true → ¬ WriteExec e) : Guarded R root (s.setLeaf t v e) := by
  refine ⟨h.sound.setLeaf hR hv ht e, h.nxEnabled, fun j hj => ?_, fun ρ j e' hρ he' => ?_,
    fun w e' hw he' hu => ?_, h.stored⟩
  · have hne : root ≠ t := by
      rintro rfl
      have hnil : upperPath v = [] := h.sound.tree.inj hv R.nil_mem ht rfl
      cases hnil
    show userBit (setEntry s.mem t (tableIndex v 0) e root j) = false
    rw [setEntry_of_table_ne _ _ _ hne]
    exact h.closed j hj
  · have hne : ¬ (ρ = upperPath v ∧ j = tableIndex v 0) := by
      rintro ⟨rfl, -⟩
      exact (edge_upperPath hR hv).2 j (huser hρ)
    rw [State.setLeaf, State.store, h.sound.tree.entry_setEntry (edge_upperPath hR hv) ht _ _
      (R.closed (huser hρ)), if_neg hne] at he'
    exact h.upper ρ j e' hρ he'
  rw [leaf_setLeaf hR h.sound hv ht e (huser (upperPath_mem_userRegion hw))] at he'
  split at he'
  · rw [filter_some] at he'
    split at he'
    · obtain rfl := some.inj he'
      exact he hu
    · cases he'
  · exact h.leaf w e' hw he' hu

/-- **Mapping.** What is not refused is harmless. -/
theorem Guarded.map (policy : Policy) (paddr : BitVec 64)
    (hv : rejects v flags = false → upperPath v ∈ R.paths) :
    Guarded R root (vmmMapPageFlags policy root v paddr flags s).2 := by
  obtain ⟨s₁, hg, ⟨hres, -⟩ | ⟨hrej, t, ht, hres⟩⟩ :=
    vmmMapPageFlags_cases h.sound policy flags hv paddr
  · rw [hres]
    exact h.grown hR huser hg
  have h₁ := h.grown hR huser hg
  have hentry : userBit (leafEntry s₁.nxEnabled paddr flags) = true →
      v < userEnd ∧ ¬ WriteExec (leafEntry s₁.nxEnabled paddr flags) := by
    rw [userBit_leafEntry, WriteExec, writable_leafEntry, noExec_leafEntry, h₁.nxEnabled]
    intro hu
    simp only [rejects, hu, Bool.true_and, Bool.or_eq_false_iff, decide_eq_false_iff_not,
      not_le] at hrej
    refine ⟨hrej.2, fun hwx => ?_⟩
    have hx := hrej.1.1.2
    rw [hwx.1, Bool.true_and] at hx
    rw [hx] at hwx
    simp at hwx
  have hset := h₁.setLeaf hR huser (hv hrej) ht fun hu => (hentry hu).2
  rw [hres]
  refine ⟨⟨hset.sound.tree, hset.sound.fresh, hset.sound.pages⟩, hset.nxEnabled, hset.closed,
    hset.upper, hset.leaf, fun x hx => ?_⟩
  rcases mem_cons.1 hx with rfl | hx
  · exact hentry
  · exact h₁.stored x hx

omit h in
theorem Guarded.protectLoop (policy : Policy) {stop : ℕ} {W : ℕ → Prop}
    (hW : ∀ w < stop, W w → W ((w + 4096) % 2 ^ 64))
    (havoid : ∀ w < stop, W w → rejects w flags = false → upperPath w ∈ R.paths) (fuel : ℕ) :
    ∀ {v : ℕ} {s : State}, Guarded R root s → W v →
      Guarded R root (protectLoop policy root stop flags fuel v s).2 := by
  induction fuel with
  | zero => exact fun h _ => h
  | succ fuel ih =>
    intro v s h hv
    rw [Vmm.protectLoop]
    split
    next hlt =>
      rcases vmmQuery root v s with _ | ⟨pa, f⟩
      · exact h
      have hmap := h.map hR huser policy pa (havoid v hlt hv)
      rcases hres : vmmMapPageFlags policy root v pa flags s with ⟨_ | _, s₁⟩ <;>
        rw [hres] at hmap <;> simp only [hres]
      · exact hmap
      · exact ih hmap (hW v hlt hv)
    · exact h

/-- **One call.** -/
theorem Guarded.call {c : Call} (hc : c.Avoids R) : Guarded R root (c.run root s) := by
  cases c with
  | map policy vaddr paddr flags => exact h.map hR huser policy paddr hc
  | mapPage policy vaddr paddr userWritable => exact h.map hR huser policy paddr hc
  | unmap vaddr =>
    rw [Call.run]
    rcases vmmUnmapPage_cases vaddr s with ⟨-, hres⟩ | ⟨-, t, ht, hres⟩
    · rwa [hres]
    · rw [hres]
      exact h.setLeaf hR huser hc ht fun hbit => absurd hbit Bool.false_ne_true
  | protect policy fuel vaddr len flags =>
    rw [Call.run, vmmProtectRange]
    split
    · exact h
    split
    · exact h
    · refine Guarded.protectLoop hR huser policy (fun w hw hW => ?_) hc fuel h (.inl le_rfl)
      omega

/-! ### Loading -/

theorem Guarded.loadPage (policy : Policy) (v : ℕ)
    (hflags : isUser flags = true) (row : Fin 512 → Pte) :
    Guarded R root (loadPage policy root v flags row s).2 := by
  rw [Vmm.loadPage]
  rcases pmmAlloc_cases h.sound.pages policy with ⟨hnone, -⟩ | ⟨p, hp, hsome⟩
  · rw [hnone]
    exact h
  rw [hsome]
  exact (h.take huser hp row).map hR huser policy _ fun hrej =>
    huser (upperPath_mem (lt_userEnd_of_not_rejects hflags hrej))

omit h in
theorem Guarded.runLoad (policy : Policy) (steps : List LoadStep) :
    (∀ x ∈ steps, x.ForUser) → ∀ {s : State}, Guarded R root s →
      Guarded R root (runLoad policy root steps s).2 := by
  induction steps with
  | nil => exact fun _ _ h => h
  | cons x steps ih =>
    intro hsteps s h
    obtain ⟨hx, hrest⟩ := forall_mem_cons.1 hsteps
    rcases x with valid | ⟨v, flags, row⟩
    · rw [Vmm.runLoad]
      split
      · exact ih hrest h
      · exact h
    have hpage := h.loadPage hR huser policy v hx row
    rw [Vmm.runLoad]
    rcases hres : Vmm.loadPage policy root v flags row s with ⟨_ | _, s₁⟩ <;>
      rw [hres] at hpage
    · exact hpage
    · exact ih hrest hpage

end Guarded

/-! ### The start -/

theorem length_openRegion (mem : Tables 512 Pte) (cr3 : ℕ) :
    ∀ π ∈ (openRegion mem cr3).paths, π.length ≤ 3 := by rintro π (h | h) <;> exact h.1

variable {s : State}

/-- The walk in the new top table: nothing below the middle, the kernel's tables above. -/
theorem node_take_cons (h : Booted s) (hroot : root ∈ s.free)
    {row : Fin 512 → Pte} (hlow : ∀ i, i.val < 256 → row i = 0#64)
    (hhigh : ∀ i, 256 ≤ i.val → row i = s.mem s.currentCr3 i) {i : Fin 512}
    (hπ : i :: π ∈ (openRegion s.mem s.currentCr3).paths)
    (ht : node child (s.take root row).mem root (i :: π) = some t) :
    i :: π ∈ (kernelRegion s.mem s.currentCr3).paths ∧
      node child s.mem s.currentCr3 (i :: π) = some t := by
  have hrow : (s.take root row).mem root i = row i := by rw [State.take_mem, update_self]
  rcases hπ with hπ | hπ
  · rw [node, hrow, hlow i (hπ.2 i rfl)] at ht
    cases ht
  refine ⟨hπ, ?_⟩
  have hcopy := node_update row (h.fresh root hroot) hπ
  have hne : s.currentCr3 ≠ root := fun heq => h.fresh root hroot ⟨[], Region.nil_mem _, by
    rw [node_nil, heq]⟩
  rw [← hcopy]
  rw [node, hrow, hhigh i (hπ.2.1 i rfl)] at ht
  rwa [node, update_of_ne hne]

theorem guarded_of_create {s' : State} (h : Booted s) (hstored : s.installed = [])
    {policy : Policy} (hcreate : vmmCreateAddressSpace policy s = (some root, s')) :
    Guarded (openRegion s.mem s.currentCr3) root s' := by
  obtain ⟨hroot, row, rfl, hlow, hhigh⟩ := vmmCreateAddressSpace_spec h.pages hcreate
  have hkernel : ∀ {p}, p ∈ s.free → ∀ {π}, π ∈ (kernelRegion s.mem s.currentCr3).paths →
      node child s.mem s.currentCr3 π ≠ some p := fun hp _ hπ ht => h.fresh _ hp ⟨_, hπ, ht⟩
  have hne : root ≠ s.currentCr3 := fun heq =>
    hkernel hroot (Region.nil_mem _) (by rw [node_nil, heq])
  have hcons := fun {i π t} hπ ht =>
    @node_take_cons t root π s h hroot row hlow (hhigh hne) i hπ ht
  have hnone : ∀ i π, i.val < 256 → node child (s.take root row).mem root (i :: π) = none := by
    intro i π hi
    rw [node, State.take_mem, update_self, hlow i hi]
    rfl
  refine ⟨⟨⟨fun {π ρ t} hπ hρ ht ht' => ?_⟩, fun q hq => ?_, fun q hq => ?_⟩, h.nxEnabled,
    fun i hi => ?_, fun π i e hπ he hpres => ?_, fun v e hv he => ?_, ?_⟩
  · rcases π with _ | ⟨i, π⟩ <;> rcases ρ with _ | ⟨j, ρ⟩
    · rfl
    · obtain ⟨hk, hn⟩ := hcons hρ ht'
      exact absurd (hn.trans ht.symm) (hkernel hroot hk)
    · obtain ⟨hk, hn⟩ := hcons hπ ht
      exact absurd (hn.trans ht'.symm) (hkernel hroot hk)
    · obtain ⟨hk, hn⟩ := hcons hπ ht
      obtain ⟨hk', hn'⟩ := hcons hρ ht'
      exact h.tree.inj hk hk' hn hn'
  · obtain ⟨hqr, hq⟩ := Finset.mem_erase.1 hq
    rintro ⟨_ | ⟨i, π⟩, hπ, ht⟩
    · exact hqr (some.inj ht).symm
    · obtain ⟨hk, hn⟩ := hcons hπ ht
      exact hkernel hq hk hn
  · exact h.pages q (Finset.mem_of_mem_erase hq)
  · rw [State.take_mem, update_self, hhigh hne i hi]
    exact h.closed i hi
  · rcases π with _ | ⟨j, π⟩
    · rw [entry, node_nil, map_some, State.take_mem, update_self, hlow i (hπ.2 i rfl)] at he
      rw [← some.inj he] at hpres
      cases hpres
    · rw [entry, hnone j π (hπ.2 j rfl)] at he
      cases he
  · rw [Vmm.leaf, entry, upperPath, hnone _ _ hv] at he
    cases he
  · rw [State.take, hstored]
    exact fun x hx => absurd hx not_mem_nil

/-- **Every run.** A program that `exec_elf` has loaded, whatever its image, and any calls on its
address space with no large page on the way. -/
theorem isolated_of_run {s₀ s₁ s : State} (hboot : Booted s₀) (hstored : s₀.installed = [])
    {policy : Policy} {file : List UInt8} {slide : Option (BitVec 16)} {root start stack : ℕ}
    (hexec : execElf policy file slide s₀ = (.entered root start stack, s₁))
    (h : Reach (· = s₁) (fun _ c => c.Avoids (openRegion s₀.mem s₀.currentCr3)) (Call.run root) s) :
    Isolated root s := by
  have hlen := length_openRegion s₀.mem s₀.currentCr3
  have huser : userRegion.paths ⊆ (openRegion s₀.mem s₀.currentCr3).paths := Set.subset_union_left
  have hstart : Guarded (openRegion s₀.mem s₀.currentCr3) root s₁ := by
    obtain ⟨-, s₂, hcreate, hrun⟩ := execElf_entered hexec
    have hload := Guarded.runLoad hlen huser policy _ (loadSteps_forUser file slide)
      (guarded_of_create hboot hstored hcreate)
    rwa [hrun] at hload
  refine (h.invariant (Guarded (openRegion s₀.mem s₀.currentCr3) root) ?_ ?_).isolated
  · rintro s rfl
    exact hstart
  · exact fun _ _ hs hc => hs.call hlen huser hc

/-! ### A run through a large page -/

/-- A file with a valid header and one program header that loads nothing. -/
def tinyElf : List UInt8 :=
  [0x7F, 0x45, 0x4C, 0x46, 2] ++ List.replicate 13 0 ++ [62, 0] ++ List.replicate 4 0 ++
    [0, 0, 0x40, 0, 0, 0, 0, 0] ++ [64, 0, 0, 0, 0, 0, 0, 0] ++ List.replicate 14 0 ++
    [56, 0, 1, 0] ++ List.replicate 62 0

/-- Frame 512, the start of the second large page, goes first. -/
def alignedFirst : Policy where
  pick S := (512 :: List.range' 20 24).find? fun p => p ∈ S
  mem_of_pick h := by simpa using List.find?_some h

/-- The kernel's tables in frames 10 to 12 map the second large page in the upper half. -/
def hugeMachine : State where
  mem t i :=
    if t = 10 ∧ i.val = 256 then 0xB003#64
    else if t = 11 ∧ i.val = 0 then 0xC003#64
    else if t = 12 ∧ i.val = 1 then 0x200083#64
    else 0#64
  free := (512 :: List.range' 20 24).toFinset
  nxEnabled := true
  kernelCr3 := 10
  currentCr3 := 10
  installed := []

theorem hugeMachine_node (hπ : π ∈ (kernelRegion hugeMachine.mem 10).paths)
    (ht : node child hugeMachine.mem 10 π = some t) :
    (π, t) ∈ [([], 10), ([256], 11), ([256, 0], 12)] := by
  have hmem : ∀ t i, hugeMachine.mem t i = if t = 10 ∧ i.val = 256 then 0xB003#64
    else if t = 11 ∧ i.val = 0 then 0xC003#64
    else if t = 12 ∧ i.val = 1 then 0x200083#64 else 0#64 := fun _ _ => rfl
  have h11 : child 0xB003#64 = some 11 := by decide
  have h12 : child 0xC003#64 = some 12 := by decide
  rcases π with _ | ⟨i, π⟩
  · cases ht
    simp
  rw [node, hmem] at ht
  by_cases hi : i = 256
  · subst hi
    rw [if_pos ⟨rfl, rfl⟩, h11, bind_some] at ht
    rcases π with _ | ⟨j, π⟩
    · cases ht
      simp
    rw [node, hmem] at ht
    by_cases hj : j = 0
    · subst hj
      rw [if_neg (by decide), if_pos ⟨rfl, rfl⟩, h12, bind_some] at ht
      rcases π with _ | ⟨k, π⟩
      · cases ht
        simp
      -- the third entry is a large page
      rw [node, hmem] at ht
      by_cases hk : k = 1
      · subst hk
        have hfree := ((hπ.2.2 (by decide)).2 (by decide)).2 (by decide)
        exact absurd hfree.1 (by decide)
      · rw [if_neg (by simp), if_neg (by simp), if_neg fun h => hk (Fin.ext h.2)] at ht
        cases ht
    · rw [if_neg (by simp), if_neg fun h => hj (Fin.ext h.2), if_neg (by simp)] at ht
      cases ht
  · rw [if_neg fun h => hi (Fin.ext h.2), if_neg (by simp), if_neg (by simp)] at ht
    cases ht

theorem hugeMachine_booted : Booted hugeMachine := by
  refine ⟨by decide, rfl, ⟨fun {π ρ t} hπ hρ ht ht' => ?_⟩, fun p hp => ?_, fun i hi => ?_⟩
  · have h := hugeMachine_node hπ ht
    have h' := hugeMachine_node hρ ht'
    simp only [mem_cons, not_mem_nil, or_false] at h h'
    rcases h with ⟨rfl, rfl⟩ | ⟨rfl, rfl⟩ | ⟨rfl, rfl⟩ <;>
      rcases h' with ⟨rfl, h'⟩ | ⟨rfl, h'⟩ | ⟨rfl, h'⟩ <;> rfl
  · rintro ⟨π, hπ, ht⟩
    have h := hugeMachine_node hπ ht
    simp only [mem_cons, not_mem_nil, or_false] at h
    have hnot : ∀ q ∈ [10, 11, 12], q ∉ hugeMachine.free := by decide
    rcases h with ⟨-, rfl⟩ | ⟨-, rfl⟩ | ⟨-, rfl⟩ <;> exact hnot _ (by simp) hp
  by_cases h256 : i.val = 256
  · obtain rfl : i = 256 := Fin.ext h256
    decide
  · simp [hugeMachine, h256, userBit]

/-- The process, loaded. -/
def loaded : State := (execElf alignedFirst tinyElf none hugeMachine).2

theorem loaded_entered :
    (execElf alignedFirst tinyElf none hugeMachine).1 = .entered 512 0x400000 0x7FFFFFEFF0 := by
  decide +kernel

theorem loaded_eq :
    execElf alignedFirst tinyElf none hugeMachine =
      (.entered 512 0x400000 0x7FFFFFEFF0, loaded) := by
  rw [← loaded_entered, loaded]

theorem isolated_tinyElf : Isolated 512 (Call.run 512 loaded (.map lowest 0x400000 0#64 protRx)) :=
  isolated_of_run hugeMachine_booted rfl loaded_eq (.call _ (.start rfl) fun _ =>
    .inl (upperPath_mem (by decide)))

/-- A page is mapped; the top table, which is also a word of the large page, is linked to the last
table of that page; and a page is mapped through the link. -/
def linkCalls : List Call :=
  [.map alignedFirst 0x400000 0#64 protRx,
    .map alignedFirst 0xFFFF800000201000 (physAddr 40) 0b1011#32,
    .map alignedFirst 0x8040000000 0#64 0b101#32]

theorem linked_leaf :
    userLeaf (linkCalls.foldl (Call.run 512) loaded).mem 512 (fullPath 0x401000) =
      some (physAddr 41 ||| 7#64) := by decide +kernel

/-- The entry of a table that was made in the wrong place is a page that user mode may write and
execute. -/
theorem table_as_leaf :
    ¬ ∀ s₀ s₁ s policy file slide root start stack, Booted s₀ → s₀.installed = [] →
      execElf policy file slide s₀ = (.entered root start stack, s₁) →
      Reach (· = s₁) (fun _ _ => True) (Call.run root) s → Isolated root s := by
  intro h
  have hallowed := allowedFrom_true (Call.run 512) loaded linkCalls
  have hreach := Reach.calls (@Reach.start _ _ (· = loaded) _ _ _ rfl) linkCalls hallowed
  have hisolated := h hugeMachine loaded _ alignedFirst tinyElf none 512 _ _ hugeMachine_booted rfl
    loaded_eq hreach
  exact (hisolated.reached _ _ linked_leaf).2 ⟨by decide, by decide⟩

end PeakOs.Vmm
