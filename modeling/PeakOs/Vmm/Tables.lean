import Mathlib.Data.Finset.Card
import PeakOs.Vmm.Model

/-!
# What the operations do to the tables

The tables of an address space form a radix tree (`Lib/RadixTree`), and whatever an operation does
to it is a sequence of two kinds of change: a fresh table is hung into an empty entry (`Grow`), or a
word at the bottom is stored. The lemmas here say so once for each operation, and everything else
about address spaces is proved from the two changes.

The region `R` is left open. It is the set of paths along which the tables are this address space's
own and known to be a tree; an operation is understood if the path of its address is in `R`.

## Main results

* `vmmMapPageFlags_cases`, `vmmUnmapPage_cases`, `vmmQuery_eq` — the operations
* `Sound.grow`, `Sound.setLeaf`, `Sound.take` — the tables stay a tree, apart from what is free
* `leaf_grown`, `leaf_setLeaf` — a fresh table maps nothing, and a store maps one page
-/

namespace PeakOs.Vmm

open List Option RadixTree

/-! ### Bits -/

theorem getLsbD_orBit (b : Bool) {k : ℕ} (hk : k < 64) (pte : Pte) (i : ℕ) :
    (orBit b k pte).getLsbD i = (pte.getLsbD i || (b && decide (i = k))) := by
  cases b with
  | false => simp [orBit]
  | true => simp [orBit, BitMask.getLsbD_setBit pte hk]

variable (nx : Bool)

theorem getLsbD_flagsToPte (flags : Flags) (i : ℕ) :
    (flagsToPte nx flags).getLsbD i =
      ((isPresent flags && decide (i = 0)) || (isWrite flags && decide (i = 1)) ||
        (isUser flags && decide (i = 2)) || (isGlobal flags && decide (i = 8)) ||
        (isNocache flags && decide (i = 4)) || (nx && !isExec flags && decide (i = 63))) := by
  simp only [flagsToPte]
  rw [getLsbD_orBit _ (by decide), getLsbD_orBit _ (by decide), getLsbD_orBit _ (by decide),
    getLsbD_orBit _ (by decide), getLsbD_orBit _ (by decide), getLsbD_orBit _ (by decide),
    BitVec.getLsbD_zero, Bool.false_or]

theorem getLsbD_lowBits (i : ℕ) : (0xFFF#64).getLsbD i = decide (i < 12) := by
  have h : (0xFFF#64) = BitVec.ofNat 64 (2 ^ 12 - 1) := rfl
  rw [h, BitVec.getLsbD_ofNat, Nat.testBit_two_pow_sub_one, ← Bool.decide_and, decide_eq_decide]
  omega

variable {i p : ℕ} {e : Pte} {flags : BitVec 64}

theorem getLsbD_addrMask (hi : i < 64) : addrMask.getLsbD i = decide (12 ≤ i) := by
  rw [addrMask, BitVec.getLsbD_not, getLsbD_lowBits, ← decide_not, ← Bool.decide_and,
    decide_eq_decide]
  omega

theorem getLsbD_masked (a : BitVec 64) (hi : i < 64) :
    (a &&& addrMask).getLsbD i = (a.getLsbD i && decide (12 ≤ i)) := by
  rw [BitVec.getLsbD_and, getLsbD_addrMask hi]

variable (paddr : BitVec 64)

theorem getLsbD_leafEntry (flags : Flags) (hi : i < 64) :
    (leafEntry nx paddr flags).getLsbD i =
      ((paddr.getLsbD i && decide (12 ≤ i)) || (flagsToPte nx flags).getLsbD i) := by
  rw [leafEntry, BitVec.getLsbD_or, getLsbD_masked _ hi]

@[simp] theorem present_leafEntry (flags : Flags) :
    present (leafEntry nx paddr flags) = isPresent flags := by
  rw [present, getLsbD_leafEntry _ _ _ (by decide), getLsbD_flagsToPte]
  simp

@[simp] theorem writable_leafEntry (flags : Flags) :
    writable (leafEntry nx paddr flags) = isWrite flags := by
  rw [writable, getLsbD_leafEntry _ _ _ (by decide), getLsbD_flagsToPte]
  simp

@[simp] theorem userBit_leafEntry (flags : Flags) :
    userBit (leafEntry nx paddr flags) = isUser flags := by
  rw [userBit, getLsbD_leafEntry _ _ _ (by decide), getLsbD_flagsToPte]
  simp

/-- The top bit of an entry comes from the flags or from the address. -/
@[simp] theorem noExec_leafEntry (flags : Flags) :
    noExec (leafEntry nx paddr flags) = (paddr.getLsbD 63 || (nx && !isExec flags)) := by
  rw [noExec, getLsbD_leafEntry _ _ _ (by decide), getLsbD_flagsToPte]
  simp

theorem child_zero : child 0#64 = none := rfl

theorem child_of_present (h : present e = true) : child e = some (frameOf e) := if_pos h

theorem child_of_not_present (h : present e = false) : child e = none := by
  rw [child, h]
  rfl

theorem toNat_physAddr (hp : p < Pmm.maxPages) : (physAddr p).toNat = p * 4096 := by
  rw [physAddr, BitVec.toNat_ofNat, Nat.mod_eq_of_lt]
  have : Pmm.maxPages = 4096 * 1024 := rfl
  omega

theorem getLsbD_physAddr (p i : ℕ) :
    (physAddr p).getLsbD i = (decide (i < 64) && (decide (12 ≤ i) && p.testBit (i - 12))) := by
  rw [physAddr, BitVec.getLsbD_ofNat, show (4096 : ℕ) = 2 ^ 12 from rfl, Nat.testBit_mul_two_pow]

/-- The address of a frame under flags that stay below bit 12. -/
theorem physAddr_or_masked (p : ℕ) (hf : flags &&& addrMask = 0#64) :
    (physAddr p ||| flags) &&& addrMask = physAddr p := by
  refine BitVec.eq_of_getLsbD_eq fun i hi => ?_
  have hlow : (flags.getLsbD i && decide (12 ≤ i)) = false := by
    rw [← getLsbD_masked _ hi, hf, BitVec.getLsbD_zero]
  rw [getLsbD_masked _ hi, BitVec.getLsbD_or, Bool.and_or_distrib_right, hlow, getLsbD_physAddr]
  by_cases h12 : 12 ≤ i <;> simp [h12]

theorem frameOf_physAddr_or (hp : p < Pmm.maxPages)
    (hf : flags &&& addrMask = 0#64) : frameOf (physAddr p ||| flags) = p := by
  rw [frameOf, physAddr_or_masked p hf, toNat_physAddr hp, Nat.mul_div_cancel _ (by decide)]

theorem tableFlags_masked (i4 : Fin 512) : tableFlags i4 &&& addrMask = 0#64 := by
  rw [tableFlags]
  split <;> rfl

theorem present_tableEntry (p : ℕ) (i4 : Fin 512) :
    present (physAddr p ||| tableFlags i4) = true := by
  have h : (tableFlags i4).getLsbD 0 = true := by
    rw [tableFlags]
    split <;> rfl
  rw [present, BitVec.getLsbD_or, h, Bool.or_true]

theorem child_tableEntry (hp : p < Pmm.maxPages) (i4 : Fin 512) :
    child (physAddr p ||| tableFlags i4) = some p := by
  rw [child_of_present (present_tableEntry p i4), frameOf_physAddr_or hp (tableFlags_masked i4)]

/-! ### What is not refused -/

section Rejects

variable {vaddr : ℕ} {flags : Flags}

theorem present_of_not_rejects (h : rejects vaddr flags = false) : isPresent flags = true := by
  simp only [rejects, Bool.or_eq_false_iff, Bool.not_eq_false'] at h
  exact h.1.1.1

theorem aligned_of_not_rejects (h : rejects vaddr flags = false) : vaddr % 4096 = 0 := by
  simp only [rejects, Bool.or_eq_false_iff, decide_eq_false_iff_not, Decidable.not_not] at h
  exact h.1.2

theorem lt_userEnd_of_not_rejects (hu : isUser flags = true) (h : rejects vaddr flags = false) :
    vaddr < userEnd := by
  simp only [rejects, hu, Bool.true_and, Bool.or_eq_false_iff, decide_eq_false_iff_not, not_le] at h
  exact h.2

end Rejects

/-! ### The invariant -/

/-- The tables of the region form a tree, apart from the frames that are free. -/
structure Sound (R : Region 512) (root : ℕ) (s : State) : Prop where
  tree : IsTree child R s.mem root
  fresh : ∀ p ∈ s.free, ¬ IsTable child R s.mem root p
  pages : ∀ p ∈ s.free, 0 < p ∧ p < Pmm.maxPages

def State.addTable (t : ℕ) (i : Fin 512) (p : ℕ) (flags : Pte) (s : State) : State :=
  { s with
    free := s.free.erase p
    mem := growTable s.mem t i (physAddr p ||| flags) p fun _ => 0#64 }

/-- A free frame becomes a table. Its entry has the user bit if the path starts in the user half. -/
inductive Grow (R : Region 512) (root : ℕ) : State → State → Prop
  | table {s : State} {π : List (Fin 512)} {i i4 : Fin 512} {t p : ℕ} (hp : p ∈ s.free)
      (hpath : π ++ [i] ∈ R.paths) (hhead : (π ++ [i]).head? = some i4)
      (ht : node child s.mem root π = some t) (hempty : present (s.mem t i) = false) :
      Grow R root s (s.addTable t i p (tableFlags i4))

section Region

variable {R : Region 512} {root : ℕ} {s s' : State}

variable {π : List (Fin 512)} {i i4 : Fin 512} {t p vaddr : ℕ}

theorem Sound.grows (h : Sound R root s) (i4 : Fin 512)
    (hp : p ∈ s.free) (hpath : π ++ [i] ∈ R.paths)
    (ht : node child s.mem root π = some t) (hempty : present (s.mem t i) = false) :
    Grows child R s.mem root π t i (physAddr p ||| tableFlags i4) p fun _ => 0#64 :=
  ⟨hpath, ht, child_of_not_present hempty, h.fresh p hp, child_tableEntry (h.pages p hp).2 i4,
    fun _ => child_zero⟩

theorem Sound.grow (h : Sound R root s) (hg : Grow R root s s') : Sound R root s' := by
  obtain ⟨hp, hpath, -, ht, hempty⟩ := hg
  have hgrows := fun i4 => h.grows i4 hp hpath ht hempty
  refine ⟨h.tree.growTable (hgrows _), fun q hq => ?_, fun q hq => ?_⟩
  · obtain ⟨hne, hq⟩ := Finset.mem_erase.1 hq
    rintro ⟨ρ, hρ, hnode⟩
    rw [State.addTable, h.tree.node_growTable (hgrows _) hρ] at hnode
    split at hnode
    · exact hne (some.inj hnode).symm
    · exact h.fresh q hq ⟨ρ, hρ, hnode⟩
  · exact h.pages q (Finset.mem_of_mem_erase hq)

theorem Sound.grown (h : Sound R root s) (hg : Relation.ReflTransGen (Grow R root) s s') :
    Sound R root s' := by
  induction hg with
  | refl => exact h
  | tail _ hstep ih => exact ih.grow hstep

theorem nxEnabled_grown (hg : Relation.ReflTransGen (Grow R root) s s') :
    s'.nxEnabled = s.nxEnabled := by
  induction hg with
  | refl => rfl
  | tail _ hstep ih =>
    cases hstep
    exact ih

/-- A frame taken from the allocator and written to, before it is part of anything. -/
def State.take (p : ℕ) (row : Fin 512 → Pte) (s : State) : State :=
  { s with free := s.free.erase p, mem := Function.update s.mem p row }

@[simp] theorem State.take_mem (p : ℕ) (row : Fin 512 → Pte) (s : State) :
    (s.take p row).mem = Function.update s.mem p row := rfl

theorem Sound.take (h : Sound R root s) (hp : p ∈ s.free) (row : Fin 512 → Pte) :
    Sound R root (s.take p row) := by
  have hfresh := h.fresh p hp
  refine ⟨h.tree.update row hfresh, fun q hq => ?_, fun q hq => ?_⟩
  · rintro ⟨ρ, hρ, hnode⟩
    rw [State.take, node_update row hfresh hρ] at hnode
    exact h.fresh q (Finset.mem_of_mem_erase hq) ⟨ρ, hρ, hnode⟩
  · exact h.pages q (Finset.mem_of_mem_erase hq)

/-! ### Allocation and descent -/

theorem pmmAlloc_cases (hpages : ∀ p ∈ s.free, 0 < p ∧ p < Pmm.maxPages) (policy : Policy) :
    pmmAlloc policy s = (none, s) ∧ policy.pick s.free = none ∨
      ∃ p ∈ s.free, pmmAlloc policy s = (some p, { s with free := s.free.erase p }) := by
  rw [pmmAlloc]
  rcases hpick : policy.pick s.free with _ | p
  · exact .inl ⟨rfl, rfl⟩
  have hmem := policy.mem_of_pick hpick
  refine .inr ⟨p, hmem, ?_⟩
  simp only [if_neg (hpages p hmem).1.ne']

/-- **A new address space.** A free frame, clear below the middle and with the current top table's
entries above it. -/
theorem vmmCreateAddressSpace_spec (hpages : ∀ p ∈ s.free, 0 < p ∧ p < Pmm.maxPages)
    {policy : Policy} (h : vmmCreateAddressSpace policy s = (some root, s')) :
    root ∈ s.free ∧ ∃ row : Fin 512 → Pte, s' = s.take root row ∧
      (∀ i, i.val < 256 → row i = 0#64) ∧
      (root ≠ s.currentCr3 → ∀ i, 256 ≤ i.val → row i = s.mem s.currentCr3 i) := by
  rw [vmmCreateAddressSpace] at h
  rcases pmmAlloc_cases hpages policy with ⟨hnone, -⟩ | ⟨p, hp, hsome⟩
  · rw [hnone] at h
    cases h
  rw [hsome] at h
  obtain ⟨hroot, hs'⟩ := Prod.mk.inj h
  obtain rfl : p = root := some.inj hroot
  refine ⟨hp, s'.mem p, ?_, fun i hi => ?_, fun hne i hi => ?_⟩
  · simp [← hs', State.writeRow, State.take]
  · simp [← hs', State.writeRow, not_le.2 hi]
  · simp [← hs', State.writeRow, hi, Function.update_of_ne hne.symm]

/-- **One level down.** The table is there, or it is made, or the allocator has no frame for it. -/
theorem nextTable_cases (h : Sound R root s) (policy : Policy) {σ : List (Fin 512)}
    (ht : node child s.mem root σ = some t)
    (hσ : σ ++ [i] ∈ R.paths) (hhead : (σ ++ [i]).head? = some i4) :
    nextTable (some policy) (tableFlags i4) t i s = (none, s) ∧ policy.pick s.free = none ∨
      ∃ u s', nextTable (some policy) (tableFlags i4) t i s = (some u, s') ∧
        node child s'.mem root (σ ++ [i]) = some u ∧
        (s' = s ∨ Grow R root s s' ∧ s'.free.card + 1 = s.free.card) := by
  rw [nextTable]
  split
  next hpresent =>
    refine .inr ⟨_, s, rfl, ?_, .inl rfl⟩
    rw [node_concat, ht]
    exact child_of_present hpresent
  next hempty =>
    rw [Bool.not_eq_true] at hempty
    rcases pmmAlloc_cases h.pages policy with ⟨hnone, hpick⟩ | ⟨p, hp, hsome⟩
    · exact .inl ⟨by rw [hnone], hpick⟩
    have hgrows := h.grows i4 hp hσ ht hempty
    refine .inr ⟨p, s.addTable t i p (tableFlags i4), ?_, ?_,
      .inr ⟨.table hp hσ hhead ht hempty, Finset.card_erase_add_one hp⟩⟩
    · rw [hsome]
      have hentry : setEntry (Function.update s.mem p fun _ => 0#64) t i
          (physAddr p ||| tableFlags i4) t i = physAddr p ||| tableFlags i4 := setEntry_self ..
      simp only [State.writeRow, State.store, hentry,
        frameOf_physAddr_or (h.pages p hp).2 (tableFlags_masked i4)]
      rfl
    · rw [State.addTable, h.tree.node_growTable hgrows hσ, if_pos rfl]

/-- The allocator does not fail while it has a frame. -/
def Policy.Reliable (policy : Policy) : Prop := ∀ S : Finset ℕ, S.Nonempty → policy.pick S ≠ none

/-- **The walk.** It ends in the table of its path, or the allocator failed on the way, which it has
no reason to do with a frame for every level. -/
theorem descend_cases (policy : Policy) (π : List (Fin 512)) :
    ∀ {s : State} {σ : List (Fin 512)} {t : ℕ}, Sound R root s →
      node child s.mem root σ = some t → σ ++ π ∈ R.paths → (σ ++ π).head? = some i4 →
      ∃ s', Relation.ReflTransGen (Grow R root) s s' ∧
        (descend (some policy) (tableFlags i4) t π s = (none, s') ∧
            ¬ (policy.Reliable ∧ π.length ≤ s.free.card) ∨
          ∃ u, descend (some policy) (tableFlags i4) t π s = (some u, s') ∧
            node child s'.mem root (σ ++ π) = some u) := by
  induction π with
  | nil =>
    intro s σ t h ht hpath _
    exact ⟨s, .refl, .inr ⟨t, rfl, by rwa [append_nil]⟩⟩
  | cons i π ih =>
    intro s σ t h ht hpath hhead
    rw [append_cons] at hpath
    have hhead' : (σ ++ [i]).head? = some i4 := by
      rw [head?_append, head?_cons] at hhead ⊢
      exact hhead
    rcases nextTable_cases h policy ht (R.of_append π hpath) hhead' with
      ⟨hfail, hpick⟩ | ⟨u, s₁, hnext, hu, hs₁⟩
    · refine ⟨s, .refl, .inl ⟨by rw [descend, hfail], ?_⟩⟩
      rintro ⟨hrel, hcard⟩
      rw [length_cons] at hcard
      exact hrel s.free (Finset.card_pos.1 (by omega)) hpick
    have hgrown : Relation.ReflTransGen (Grow R root) s s₁ := by
      rcases hs₁ with rfl | ⟨hgrow, -⟩
      · exact .refl
      · exact .single hgrow
    have hcard : s.free.card ≤ s₁.free.card + 1 := by rcases hs₁ with rfl | ⟨-, hcard⟩ <;> omega
    obtain ⟨s', hg', hres⟩ := ih (h.grown hgrown) hu hpath (append_cons .. ▸ hhead)
    refine ⟨s', hgrown.trans hg', ?_⟩
    rw [descend, hnext, append_cons]
    refine hres.imp_left fun hfail => ⟨hfail.1, fun hrel => hfail.2 ⟨hrel.1, ?_⟩⟩
    have hlen := hrel.2
    rw [length_cons] at hlen
    omega

/-- Without `create` the walk only looks. -/
theorem descend_none (flags : Pte) (π : List (Fin 512)) (t : ℕ) (s : State) :
    descend none flags t π s = (node child s.mem t π, s) := by
  induction π generalizing t with
  | nil => rfl
  | cons i π ih =>
    rw [descend, nextTable, node, child]
    by_cases he : present (s.mem t i) = true
    · simp only [if_pos he]
      exact ih _
    · simp only [if_neg he]
      rfl

/-- Nor does it make a table where all are there. -/
theorem descend_of_node (create : Option Policy) (flags : Pte) {u : ℕ}
    (h : node child s.mem t π = some u) : descend create flags t π s = (some u, s) := by
  induction π generalizing t with
  | nil =>
    cases h
    rfl
  | cons i π ih =>
    rw [node, child] at h
    by_cases he : present (s.mem t i) = true
    · rw [if_pos he] at h
      simp only [descend, nextTable, if_pos he]
      exact ih h
    · rw [if_neg he] at h
      cases h

/-! ### Leaves -/

/-- The present entry that the tables hold for an address. -/
def leaf (root vaddr : ℕ) (s : State) : Option Pte :=
  (entry child s.mem root (upperPath vaddr) (tableIndex vaddr 0)).filter present

/-- Two addresses have the same entry. -/
def SamePage (v w : ℕ) : Prop := upperPath v = upperPath w ∧ tableIndex v 0 = tableIndex w 0

instance (v w : ℕ) : Decidable (SamePage v w) := inferInstanceAs (Decidable (_ ∧ _))

theorem ptWalkAlloc_none (vaddr : ℕ) (s : State) :
    ptWalkAlloc root vaddr none s =
      ((node child s.mem root (upperPath vaddr)).map fun t => (t, tableIndex vaddr 0), s) := by
  rw [ptWalkAlloc, descend_none]
  rcases node child s.mem root (upperPath vaddr) with _ | t <;> rfl

/-- What `vmm_query` answers depends on the leaf only. -/
theorem vmmQuery_eq (vaddr : ℕ) (s : State) :
    vmmQuery root vaddr s =
      (leaf root vaddr s).map fun e => (e &&& addrMask, queryFlags s.nxEnabled e) := by
  rw [vmmQuery, ptWalkAlloc_none, leaf, entry]
  rcases node child s.mem root (upperPath vaddr) with _ | t
  · rfl
  · simp only [map_some, filter_some]
    split <;> rfl

theorem node_of_leaf {e : Pte} (h : leaf root vaddr s = some e) :
    ∃ t, node child s.mem root (upperPath vaddr) = some t := by
  rcases ht : node child s.mem root (upperPath vaddr) with _ | t
  · rw [leaf, entry, ht] at h
    cases h
  · exact ⟨t, rfl⟩

/-- A word is stored where the entry of `vaddr` is. -/
def State.setLeaf (t vaddr : ℕ) (e : Pte) (s : State) : State := s.store t (tableIndex vaddr 0) e

section Depth

variable (hR : ∀ π ∈ R.paths, π.length ≤ 3)

include hR

theorem edge_upperPath {vaddr : ℕ} (hv : upperPath vaddr ∈ R.paths) : R.Edge (upperPath vaddr) :=
  ⟨hv, fun i hi => absurd (hR _ hi) (by simp [upperPath])⟩

theorem leaf_grow (h : Sound R root s) (hg : Grow R root s s') {v : ℕ}
    (hv : upperPath v ∈ R.paths) : leaf root v s' = leaf root v s := by
  obtain ⟨hp, hpath, -, ht, hempty⟩ := hg
  have hgrows := fun i4 => h.grows i4 hp hpath ht hempty
  have hslot : ∀ j, upperPath v ++ [j] ≠ _ ++ [_] := fun j heq =>
    absurd (hR _ hpath) (by rw [← heq]; simp [upperPath])
  rw [leaf, leaf, State.addTable, h.tree.entry_growTable (hgrows _) hv, if_neg (hslot _)]
  split
  next heq =>
    rw [heq, entry, (hgrows 0).node_concat_none]
    rfl
  · rfl

theorem leaf_grown (h : Sound R root s) (hg : Relation.ReflTransGen (Grow R root) s s') {v : ℕ}
    (hv : upperPath v ∈ R.paths) : leaf root v s' = leaf root v s := by
  induction hg with
  | refl => rfl
  | tail hchain hstep ih => rw [leaf_grow hR (h.grown hchain) hstep hv, ih]

theorem leaf_setLeaf (h : Sound R root s) {v w t : ℕ} (hv : upperPath v ∈ R.paths)
    (ht : node child s.mem root (upperPath v) = some t) (e : Pte) (hw : upperPath w ∈ R.paths) :
    leaf root w (s.setLeaf t v e) =
      if SamePage w v then (some e).filter present else leaf root w s := by
  rw [leaf, leaf, State.setLeaf, State.store,
    h.tree.entry_setEntry (edge_upperPath hR hv) ht _ _ hw]
  by_cases heq : SamePage w v
  · rw [if_pos heq, if_pos (show _ ∧ _ from heq)]
  · rw [if_neg heq, if_neg (show ¬ (_ ∧ _) from heq)]

theorem Sound.setLeaf (h : Sound R root s) {v t : ℕ} (hv : upperPath v ∈ R.paths)
    (ht : node child s.mem root (upperPath v) = some t) (e : Pte) :
    Sound R root (s.setLeaf t v e) := by
  have hnode := fun ρ hρ => h.tree.node_setEntry (ρ := ρ) (edge_upperPath hR hv) ht
    (tableIndex v 0) e hρ
  refine ⟨h.tree.congr hnode, fun p hp => ?_, h.pages⟩
  rintro ⟨ρ, hρ, hρp⟩
  exact h.fresh p hp ⟨ρ, hρ, (hnode ρ hρ).symm.trans hρp⟩

end Depth

/-! ### The operations -/

/-- **Mapping a page.** It is refused, or the walk fails, and all that is left are fresh tables; or
the entry is stored. -/
theorem vmmMapPageFlags_cases (h : Sound R root s) (policy : Policy) (flags : Flags)
    (hv : rejects vaddr flags = false → upperPath vaddr ∈ R.paths) (paddr : BitVec 64) :
    ∃ s₁, Relation.ReflTransGen (Grow R root) s s₁ ∧
      (vmmMapPageFlags policy root vaddr paddr flags s = (false, s₁) ∧
          (rejects vaddr flags = true ∧ s₁ = s ∨ ¬ (policy.Reliable ∧ 3 ≤ s.free.card)) ∨
        rejects vaddr flags = false ∧ ∃ t, node child s₁.mem root (upperPath vaddr) = some t ∧
          vmmMapPageFlags policy root vaddr paddr flags s = (true,
            s₁.install vaddr t (tableIndex vaddr 0) (leafEntry s₁.nxEnabled paddr flags))) := by
  rw [vmmMapPageFlags]
  split
  next hrej => exact ⟨s, .refl, .inl ⟨rfl, .inl ⟨hrej, rfl⟩⟩⟩
  next hrej =>
  rw [Bool.not_eq_true] at hrej
  obtain ⟨s₁, hg, ⟨hfail, hpmm⟩ | ⟨u, hdesc, hu⟩⟩ :=
    @descend_cases R root (tableIndex vaddr 3) policy (upperPath vaddr) s [] root h rfl
    (hv hrej) rfl
  · exact ⟨s₁, hg, .inl ⟨by rw [ptWalkAlloc, hfail], .inr hpmm⟩⟩
  · exact ⟨s₁, hg, .inr ⟨hrej, u, hu, by rw [ptWalkAlloc, hdesc]⟩⟩

/-- Where the tables are there, a page that is not refused is mapped. -/
theorem vmmMapPageFlags_of_node (policy : Policy) (paddr : BitVec 64) {flags : Flags}
    (hrej : rejects vaddr flags = false) (ht : node child s.mem root (upperPath vaddr) = some t) :
    vmmMapPageFlags policy root vaddr paddr flags s = (true,
      s.install vaddr t (tableIndex vaddr 0) (leafEntry s.nxEnabled paddr flags)) := by
  rw [vmmMapPageFlags, hrej, ptWalkAlloc, descend_of_node _ _ ht]
  rfl

theorem vmmUnmapPage_cases (vaddr : ℕ) (s : State) :
    leaf root vaddr s = none ∧ vmmUnmapPage root vaddr s = (false, s) ∨
      leaf root vaddr s ≠ none ∧ ∃ t, node child s.mem root (upperPath vaddr) = some t ∧
        vmmUnmapPage root vaddr s = (true, s.setLeaf t vaddr 0#64) := by
  rw [vmmUnmapPage, ptWalkAlloc_none, leaf, entry]
  rcases node child s.mem root (upperPath vaddr) with _ | t
  · exact .inl ⟨rfl, rfl⟩
  simp only [map_some, filter_some]
  split
  · exact .inr ⟨some_ne_none _, t, rfl, rfl⟩
  · exact .inl ⟨rfl, rfl⟩

end Region

end PeakOs.Vmm
