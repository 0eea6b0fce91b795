import PeakOs.Pmm.Completeness
import PeakOs.Vmm.Leaks

/-!
# The allocator behind the tables

The tables see the allocator as a set of free frames. As long as no page is lost, this set is what
the page allocator can hand out, and the count is the one that `pmm_free_pages` reports.

## Main results

* `free_pmmAlloc`, `free_pmmFree` — allocation and release
* `frames_simulated` — every run of the page allocator
-/

namespace PeakOs.Vmm

open List

variable {all : Finset ℕ} {pmm : Pmm.State} {held : List ℕ} {s : State}

section

variable (h : Pmm.Ledger all pmm held) (hfree : s.free = Pmm.obtainable pmm)
include h hfree

/-- `policy` answers as the page allocator does. -/
theorem free_pmmAlloc (hkeep : Pmm.AllocKeeps 1 pmm) {policy : Policy}
    (hpick : policy.pick s.free = (Pmm.pmmAlloc pmm).1.map (· / Pmm.pageSize)) :
    (pmmAlloc policy s).2.free = Pmm.obtainable (Pmm.pmmAlloc pmm).2 := by
  rw [Pmm.pmmAlloc, (h.allocPages hkeep).obtainable_eq, pmmAlloc, hpick, Pmm.pmmAlloc]
  rcases (Pmm.pmmAllocPages 1 pmm).1 with _ | phys
  · exact hfree.trans h.obtainable_eq
  show s.free.erase (phys / Pmm.pageSize) = _
  ext q
  simp only [Pmm.grantedPages, hfree, h.obtainable_eq, range'_one, cons_append, nil_append,
    toFinset_cons, Finset.mem_erase, Finset.mem_sdiff, Finset.mem_insert]
  tauto

theorem free_pmmFree {phys : BitVec 64} (hheld : phys.toNat / 4096 ∈ held)
    (hkeep : Pmm.ReleaseKeeps phys.toNat 1 pmm) :
    (pmmFree phys s).free = Pmm.obtainable (Pmm.pmmFree phys.toNat pmm) := by
  have hmem := mem_append_left (pmm.singleFree ++ Pmm.runPages pmm.freeRuns) hheld
  have hnodup : held.Nodup := (nodup_append.1 h.owned.nodup).1
  have hledger := (h.of_perm (perm_cons_erase hheld).symm).freeN hkeep
  rw [pmmFree, if_neg (not_le.2 (h.owned.used _ hmem).1), Pmm.pmmFree, hledger.obtainable_eq]
  ext q
  simp only [hfree, h.obtainable_eq, Finset.mem_insert, Finset.mem_sdiff, mem_toFinset,
    hnodup.mem_erase_iff]
  by_cases hq : q = phys.toNat / 4096
  · simp [hq, (h.pages _).2 (.inr hmem)]
  · simp [hq]

end

/-- **The tables' set of frames simulates the page allocator.** -/
theorem frames_simulated {info : Pmm.BootInfo} (hmap : Pmm.MapOk info) {σ : Pmm.Sys}
    (h : Reach (Pmm.Sys.Booted info) (fun σ c => σ.Legal c ∧ σ.NoLoss c) Pmm.Sys.step σ)
    (hfree : s.free = Pmm.obtainable σ.pmm) :
    pmmFreePages s = Pmm.pmmFreePages σ.pmm ∧
      (∀ policy : Policy, σ.NoLoss .alloc →
        policy.pick s.free = (Pmm.pmmAlloc σ.pmm).1.map (· / Pmm.pageSize) →
          (pmmAlloc policy s).2.free = Pmm.obtainable (σ.step .alloc).pmm) ∧
      ∀ phys : BitVec 64, σ.Legal (.free phys.toNat) → σ.NoLoss (.free phys.toNat) →
        (pmmFree phys s).free = Pmm.obtainable (σ.step (.free phys.toNat)).pmm := by
  obtain ⟨all, hall, htotal⟩ := Pmm.pmmInit_totalPages hmap
  have hstart : ∀ σ, Pmm.Sys.Booted info σ →
      Pmm.Ledger all σ.pmm σ.held ∧ σ.pmm.totalPages = all.card := by
    rintro σ rfl
    exact ⟨Pmm.ledger_init hall, htotal⟩
  obtain ⟨hledger, hcount⟩ := h.invariant _ hstart fun σ c hσ hok =>
    ⟨hσ.1.step hok.1 hok.2, (σ.step_totalPages c).trans hσ.2⟩
  refine ⟨?_, fun _ hloss => free_pmmAlloc hledger hfree hloss, fun _ hlegal hloss =>
    free_pmmFree hledger hfree (hlegal (by simp [Pmm.pageSize])) hloss⟩
  rw [pmmFreePages, hfree, hledger.card_obtainable, hledger.pmmFreePages_eq hcount]

/-- Frame 256 and no other. -/
def only256 : Policy where
  pick S := if 256 ∈ S then some 256 else none
  mem_of_pick h := by
    split at h <;> cases h
    assumption

/-- A page is allocated; then it is given back, and allocated again. -/
theorem frames_simulated_reuse : ∃ σ τ : Pmm.Sys, 256 ∈ σ.held ∧ τ.held = σ.held.erase 256 ∧
    (pmmFree 0x100000#64 { bareMachine with free := Pmm.obtainable σ.pmm }).free =
      Pmm.obtainable τ.pmm ∧
    pmmAlloc only256 { bareMachine with free := Pmm.obtainable τ.pmm } =
      (some 256, { bareMachine with free := Pmm.obtainable (τ.step .alloc).pmm }) := by
  have hfill := Pmm.filling_zero.step_alloc (by decide)
  obtain ⟨⟨hlegal, hkeep, -⟩, hloss, hsingle, -⟩ := hfill.step_free
  have hone : Reach (Pmm.Sys.Booted Pmm.spillMap) (fun σ c => σ.Legal c ∧ σ.NoLoss c) Pmm.Sys.step
      ((⟨Pmm.pmmInit Pmm.spillMap, []⟩ : Pmm.Sys).step .alloc) :=
    .call Pmm.Call.alloc (.start (show Pmm.Sys.Booted Pmm.spillMap ⟨_, []⟩ from rfl))
      ⟨trivial, Pmm.noLoss_alloc Pmm.filling_zero.slots⟩
  generalize (⟨Pmm.pmmInit Pmm.spillMap, []⟩ : Pmm.Sys).step .alloc = σ at *
  have htwo := hone.call (Pmm.Call.free (256 * Pmm.pageSize)) ⟨hlegal, hkeep⟩
  set τ := σ.step (.free (256 * Pmm.pageSize))
  have hmem : 256 ∈ Pmm.obtainable τ.pmm := by
    simp [Pmm.obtainable, hsingle, Pmm.maxPages]
  have honly : only256.pick (Pmm.obtainable τ.pmm) = some 256 := by
    simp only [only256, hmem, if_true]
  have hpick : only256.pick (Pmm.obtainable τ.pmm) =
      (Pmm.pmmAlloc τ.pmm).1.map (· / Pmm.pageSize) := by
    rw [honly, Pmm.pmmAlloc, Pmm.pmmAllocPages_single hsingle, Option.map_some,
      Nat.mul_div_cancel _ (by decide)]
  have halloc := (frames_simulated Pmm.mapOk_spillMap htwo
    (s := { bareMachine with free := Pmm.obtainable τ.pmm }) rfl).2.1 only256 hloss hpick
  refine ⟨σ, τ, hfill.held 256 le_rfl (by decide), ?_,
    (frames_simulated Pmm.mapOk_spillMap hone rfl).2.2 0x100000#64 hlegal hkeep, ?_⟩
  · simp [τ, Pmm.Sys.step, Pmm.pageSize]
  · rw [← halloc, pmmAlloc, honly]
    rfl

end PeakOs.Vmm
