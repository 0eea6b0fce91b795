import PeakOs.Pmm.Ownership
import Mathlib.Algebra.Order.Interval.Finset.SuccPred
import Mathlib.Data.Nat.SuccPred
import Mathlib.Order.Interval.Finset.Nat

/-!
# What `pmm_init` counts

`total_pages` is meant to be the number of pages that are free after `pmm_init`. It is, if the
usable entries of the memory map neither wrap nor overlap: then every page is claimed once, and the
mixed table does not fill up, because only the blocks at the two ends of an entry get a slot for
good. There are at most 128 entries.

## Main results

* `Tallied.claimUsable`, `Tallied.reserveEntry` — one entry of the map
* `pmmInit_totalPages` — the count after `pmm_init`
-/

namespace PeakOs.Pmm

open Finset Function List

/-! ### The counters -/

variable {s s' : State} {blk p k stop fuel start : ℕ} {bits : BitVec 64} {ends free : Finset ℕ}
  {once : Prop}

/-- A change of the map leaves the counters as they are, and no block is forgotten. -/
structure Steady (s t : State) : Prop where
  total : t.totalPages = s.totalPages
  used : t.usedPages = s.usedPages
  highest : t.highestPage = s.highestPage
  claimed : ∀ b, t.blockState b = .unused → s.blockState b = .unused

theorem Steady.refl (s : State) : Steady s s := ⟨rfl, rfl, rfl, fun _ h => h⟩

theorem mixedAcquire_steady (h : mixedAcquire blk bits s = some s') : Steady s s' := by
  rw [mixedAcquire] at h
  split at h
  · cases h
  injection h with h
  rw [← h]
  exact ⟨rfl, rfl, rfl, fun _ h => (of_update_ne (by decide) h).2⟩

theorem mixedReleaseTo_steady (s : State) (blk : ℕ) (st : BlockState) (hst : st ≠ .unused)
    (bits : ℕ → BitVec 64) : Steady s (mixedReleaseTo blk st { s with mixedBits := bits }) := by
  rw [mixedReleaseTo]
  split <;> exact ⟨rfl, rfl, rfl, fun _ h => (of_update_ne hst h).2⟩

/-- Only a spill changes the number of used pages. -/
theorem pageMarkUsed_steady (hspill : ¬ Spills s p) : Steady s (pageMarkUsed p s) := by
  rw [pageMarkUsed]
  by_cases hp : maxPages ≤ p
  · rw [if_pos hp]
    exact .refl s
  rw [if_neg hp]
  dsimp only
  split
  · exact .refl s
  · exact .refl s
  next hst =>
    split
    next hacq => exact mixedAcquire_steady hacq
    next hacq => exact absurd ⟨Nat.lt_of_not_le hp, hst, mixedAcquire_eq_none.1 hacq⟩ hspill
  · split
    · exact mixedReleaseTo_steady s _ .used (by decide) _
    · exact ⟨rfl, rfl, rfl, fun _ h => h⟩

theorem spillLoop_counters (blk keepBit : ℕ) (is : List ℕ) (s : State) :
    (spillLoop blk keepBit is s).totalPages = s.totalPages ∧
      (spillLoop blk keepBit is s).highestPage = s.highestPage := by
  induction is generalizing s with
  | nil => exact ⟨rfl, rfl⟩
  | cons i is ih =>
    rw [spillLoop]
    split_ifs
    · exact ih s
    · exact ⟨rfl, rfl⟩
    · exact ih _

theorem pageMarkUsed_counters (s : State) (p : ℕ) :
    (pageMarkUsed p s).totalPages = s.totalPages ∧
      (pageMarkUsed p s).highestPage = s.highestPage := by
  by_cases hspill : Spills s p
  · rw [pageMarkUsed_of_spills hspill]
    exact spillLoop_counters ..
  · exact ⟨(pageMarkUsed_steady hspill).total, (pageMarkUsed_steady hspill).highest⟩

theorem pageMarkFree_steady (s : State) (p : ℕ) : Steady s (pageMarkFree p s) := by
  rw [pageMarkFree]
  split
  · exact .refl s
  dsimp only
  split
  · exact .refl s
  · exact .refl s
  · split
    next hacq => exact mixedAcquire_steady hacq
    · split <;> exact ⟨rfl, rfl, rfl, fun _ h => h⟩
  split
  · exact mixedReleaseTo_steady s _ .free (by decide) _
  · exact ⟨rfl, rfl, rfl, fun _ h => h⟩

/-! ### Slots of the mixed table -/

/-- Every slot is on the free stack or belongs to a mixed block; a mixed block has a free page, and
is one of the blocks in `ends`. -/
structure SlotTable (s : State) (ends : Finset ℕ) : Prop where
  slots : SlotsOk s
  bound : ∀ slot ∈ s.mixedFreeStack, slot < maxMixed
  placed : ∀ slot < maxMixed, slot ∈ s.mixedFreeStack ∨
    ∃ b, s.blockState b = .mixed ∧ s.blockMixed b = slot
  hasFree : ∀ b, s.blockState b = .mixed → ∃ i < 64, blockUsed s b i = false
  mixed : ∀ b, s.blockState b = .mixed → s.blockMixed b < maxMixed ∧ b ∈ ends

section

variable (h : SlotTable s ends)
include h

theorem SlotTable.mono {ends' : Finset ℕ} (hsub : ends ⊆ ends') : SlotTable s ends' :=
  ⟨h.slots, h.bound, h.placed, h.hasFree, fun b hb =>
    ⟨(h.mixed b hb).1, hsub (h.mixed b hb).2⟩⟩

theorem SlotTable.congr {t : State}
    (h1 : t.blockState = s.blockState) (h2 : t.blockMixed = s.blockMixed)
    (h3 : t.mixedFreeStack = s.mixedFreeStack) (h4 : t.mixedBits = s.mixedBits) :
    SlotTable t ends := by
  refine ⟨h.slots.congr h1 h2 h3, by rw [h3]; exact h.bound, ?_, fun b hb => ?_, fun b hb => ?_⟩
  · rw [h1, h2, h3]
    exact h.placed
  · obtain ⟨i, hi, hfree⟩ := h.hasFree b (h1 ▸ hb)
    exact ⟨i, hi, by rw [blockUsed_congr h1 h2 h4, hfree]⟩
  · rw [h2]
    exact h.mixed b (h1 ▸ hb)

/-- The table does not fill up while there are fewer mixed blocks than slots. -/
theorem SlotTable.stack_ne_nil (hcard : ends.card < maxMixed) : s.mixedFreeStack ≠ [] := by
  intro hempty
  have howner : ∀ slot ∈ Finset.range maxMixed, ∃ b ∈ ends,
      s.blockState b = .mixed ∧ s.blockMixed b = slot := by
    intro slot hslot
    rcases h.placed slot (Finset.mem_range.1 hslot) with hmem | ⟨b, hb, heq⟩
    · rw [hempty] at hmem
      exact absurd hmem not_mem_nil
    · exact ⟨b, (h.mixed b hb).2, hb, heq⟩
  choose! owner hmem hmixed heq using howner
  have hle : (Finset.range maxMixed).card ≤ ends.card := by
    refine card_le_card_of_injOn owner hmem fun a ha b hb hab => ?_
    rw [← heq a ha, ← heq b hb, hab]
  rw [card_range] at hle
  omega

theorem SlotTable.acquire
    (hacq : mixedAcquire blk bits s = some s') (hblk : s.blockState blk ≠ .mixed)
    (hbits : ∃ i < 64, bits.getLsbD i = false) (hend : blk ∈ ends) : SlotTable s' ends := by
  obtain ⟨hslots, -, -, hview⟩ := mixedAcquire_spec hacq h.slots hblk
  rw [mixedAcquire] at hacq
  rcases hstack : s.mixedFreeStack with _ | ⟨slot, rest⟩
  · rw [hstack] at hacq
    exact absurd hacq (by simp)
  rw [hstack] at hacq
  injection hacq with hacq
  subst hacq
  have hother : ∀ b, b ≠ blk → s.blockState b = .mixed →
      update s.blockState blk .mixed b = .mixed := by
    intro b hne hb
    rw [update_of_ne hne, hb]
  refine ⟨hslots, fun a ha => h.bound a (by rw [hstack]; exact List.mem_cons_of_mem _ ha),
    ?_, ?_, ?_⟩
  · intro a ha
    rcases h.placed a ha with hmem | ⟨b, hb, heq⟩
    · rw [hstack] at hmem
      rcases List.mem_cons.1 hmem with rfl | hmem
      · exact .inr ⟨blk, update_self .., update_self ..⟩
      · exact .inl hmem
    · have hne : b ≠ blk := fun he => hblk (he ▸ hb)
      exact .inr ⟨b, hother b hne hb, by dsimp only; rw [update_of_ne hne, heq]⟩
  · intro b hb
    by_cases hne : b = blk
    · obtain ⟨i, hi, hfree⟩ := hbits
      exact ⟨i, hi, by rw [hview, if_pos hne, hfree]⟩
    dsimp only at hb
    rw [update_of_ne hne] at hb
    obtain ⟨i, hi, hfree⟩ := h.hasFree b hb
    exact ⟨i, hi, by rw [hview, if_neg hne, hfree]⟩
  intro b hb
  by_cases hne : b = blk
  · refine ⟨?_, hne ▸ hend⟩
    dsimp only
    rw [hne, update_self]
    exact h.bound slot (by rw [hstack]; exact List.mem_cons_self ..)
  dsimp only at hb ⊢
  rw [update_of_ne hne] at hb ⊢
  exact h.mixed b hb

omit h in
theorem length_le_of_nodup {l : List ℕ} {n : ℕ} (hl : l.Nodup) (hlt : ∀ x ∈ l, x < n) :
    l.length ≤ n := by
  rw [← toFinset_card_of_nodup hl, ← card_range n]
  exact card_le_card fun x hx => Finset.mem_range.2 (hlt x (mem_toFinset.1 hx))

theorem SlotTable.updateBits
    (hm : s.blockState blk = .mixed) (hbits : ∃ i < 64, bits.getLsbD i = false) :
    SlotTable { s with mixedBits := update s.mixedBits (s.blockMixed blk) bits } ends := by
  obtain ⟨hslots, hview⟩ := updateBits_spec h.slots hm bits
  refine ⟨hslots, h.bound, h.placed, fun b hb => ?_, h.mixed⟩
  by_cases hne : b = blk
  · obtain ⟨i, hi, hfree⟩ := hbits
    exact ⟨i, hi, by rw [hview, if_pos hne, hfree]⟩
  · obtain ⟨i, hi, hfree⟩ := h.hasFree b hb
    exact ⟨i, hi, by rw [hview, if_neg hne, hfree]⟩

/-- Turning a block into a uniform one puts its slot back. Its bits do not matter any more, so they
may have been changed before. -/
theorem SlotTable.release (blk : ℕ) (st : BlockState) (hst : st ≠ .mixed) (bits : ℕ → BitVec 64)
    (hbits : ∀ b, b ≠ blk → s.blockState b = .mixed →
      bits (s.blockMixed b) = s.mixedBits (s.blockMixed b)) :
    SlotTable (mixedReleaseTo blk st { s with mixedBits := bits }) ends := by
  have hslots : SlotsOk { s with mixedBits := bits } := h.slots.congr rfl rfl rfl
  have hstate : ∀ b, (mixedReleaseTo blk st { s with mixedBits := bits }).blockState b = .mixed →
      b ≠ blk ∧ s.blockState b = .mixed := by
    intro b hb
    have hb' : update s.blockState blk st b = .mixed := by
      rw [mixedReleaseTo] at hb
      split at hb <;> exact hb
    exact of_update_ne hst hb'
  obtain ⟨hslots', -, -, hview⟩ := mixedReleaseTo_spec hslots blk hst
  have hfree : ∀ b, (mixedReleaseTo blk st { s with mixedBits := bits }).blockState b = .mixed →
      ∃ i < 64, blockUsed (mixedReleaseTo blk st { s with mixedBits := bits }) b i = false := by
    intro b hb
    obtain ⟨hne, hmix⟩ := hstate b hb
    obtain ⟨i, hi, hfree⟩ := h.hasFree b hmix
    refine ⟨i, hi, ?_⟩
    rw [hview, if_neg hne]
    simp only [blockUsed] at hfree ⊢
    rw [hbits b hne hmix, hfree]
  by_cases hmix : s.blockState blk = .mixed
  · have hnew : s.blockMixed blk ∉ s.mixedFreeStack := h.slots.fresh blk hmix
    have hbound : ∀ slot ∈ s.blockMixed blk :: s.mixedFreeStack, slot < maxMixed := by
      rintro slot (_ | ⟨_, hmem⟩)
      · exact (h.mixed blk hmix).1
      · exact h.bound slot hmem
    have hroom : s.mixedFreeStack.length < maxMixed :=
      length_le_of_nodup (nodup_cons.2 ⟨hnew, h.slots.nodup⟩) hbound
    simp only [mixedReleaseTo, if_pos hmix, if_pos hroom] at hslots' hstate hfree ⊢
    refine ⟨hslots', hbound, fun slot hslot => ?_, hfree, fun b hb => ?_⟩
    · rcases h.placed slot hslot with hmem | ⟨b, hb, heq⟩
      · exact .inl (List.mem_cons_of_mem _ hmem)
      by_cases hne : b = blk
      · exact .inl (by rw [← heq, hne]; exact List.mem_cons_self ..)
      · exact .inr ⟨b, (update_of_ne hne ..).trans hb, (update_of_ne hne ..).trans heq⟩
    obtain ⟨hne, hb⟩ := hstate b hb
    have hslot : update s.blockMixed blk 0 b = s.blockMixed b :=
      update_of_ne hne ..
    exact ⟨hslot.trans_lt (h.mixed b hb).1, (h.mixed b hb).2⟩
  simp only [mixedReleaseTo, if_neg hmix] at hslots' hstate hfree ⊢
  refine ⟨hslots', h.bound, fun slot hslot => ?_, hfree, fun b hb => h.mixed b (hstate b hb).2⟩
  rcases h.placed slot hslot with hmem | ⟨b, hb, heq⟩
  · exact .inl hmem
  · have hne : b ≠ blk := fun he => hmix (he ▸ hb)
    exact .inr ⟨b, (update_of_ne hne ..).trans hb, heq⟩

end

/-! ### Bits with a free page -/

theorem exists_free_of_ne (h : bits ≠ allUsed) : ∃ i < 64, bits.getLsbD i = false := by
  by_contra hno
  refine h (BitVec.eq_of_getLsbD_eq fun i hi => ?_)
  rw [getLsbD_allUsed hi]
  by_contra hfalse
  exact hno ⟨i, hi, Bool.eq_false_iff.2 hfalse⟩

theorem exists_free_pageBit (hk : k < 64) : ∃ i < 64, (pageBit k).getLsbD i = false := by
  rcases eq_zero_or_pos k with rfl | hpos
  · exact ⟨1, by decide, by rw [getLsbD_pageBit hk]; rfl⟩
  · exact ⟨0, by decide, by rw [getLsbD_pageBit hk]; exact decide_eq_false (by omega)⟩

theorem exists_free_xor (hk : k < 64) : ∃ i < 64, (allUsed ^^^ pageBit k).getLsbD i = false :=
  ⟨k, hk, by rw [getLsbD_allUsed_xor hk hk]; simp⟩

theorem exists_free_clear (bits : BitVec 64) (hk : k < 64) :
    ∃ i < 64, (bits &&& ~~~pageBit k).getLsbD i = false :=
  ⟨k, hk, by rw [getLsbD_clear bits hk]; simp⟩

/-! ### Counting -/

/-- The pages in `free` are the free ones, and if each was claimed `once` they have been counted. -/
structure Tally (once : Prop) (s : State) (ends free : Finset ℕ) : Prop where
  table : SlotTable s ends
  free_iff : ∀ p, pageIsUsed s p = false ↔ p ∈ free
  total : once → s.totalPages = free.card

/-- The bits of other blocks do not change with those of `blk`. -/
theorem SlotTable.bits_other (h : SlotTable s ends)
    (hm : s.blockState blk = .mixed) (bits : BitVec 64) : ∀ b, b ≠ blk → s.blockState b = .mixed →
      update s.mixedBits (s.blockMixed blk) bits (s.blockMixed b) =
        s.mixedBits (s.blockMixed b) := by
  intro b hne hb
  exact update_of_ne (fun heq => hne (h.slots.inj b blk hb hm heq)) ..

/-- Taking a page out of the pool; the table has a slot if one is needed. -/
theorem SlotTable.mark (h : SlotTable s ends)
    (hp : p < maxPages) (hend : p / 64 ∈ ends) (hcard : ends.card < maxMixed) :
    SlotTable (pageMarkUsed p s) ends := by
  have hbit : p % 64 < 64 := Nat.mod_lt _ (by decide)
  rcases hst : s.blockState (p / 64) with _ | _ | _ | _
  · rwa [pageMarkUsed_of_unused hst]
  · rcases hstack : s.mixedFreeStack with _ | ⟨slot, rest⟩
    · exact absurd hstack (h.stack_ne_nil hcard)
    have hacq : mixedAcquire (p / 64) (pageBit (p % 64)) s = some (pageMarkUsed p s) := by
      rw [pageMarkUsed_free hp hst hstack, mixedAcquire, hstack]
    exact h.acquire hacq (by rw [hst]; decide) (exists_free_pageBit hbit) hend
  · rwa [pageMarkUsed_of_used hst]
  rw [pageMarkUsed_mixed hp hst]
  dsimp only
  split
  · exact h.release _ .used (by decide) _ (h.bits_other hst _)
  next hall => exact h.updateBits hst (exists_free_of_ne hall)

theorem SlotTable.not_spills (h : SlotTable s ends)
    (hcard : ends.card < maxMixed) (p : ℕ) : ¬ Spills s p :=
  fun hspill => h.stack_ne_nil hcard hspill.2.2

theorem Tally.reservePage (h : Tally once s ends free)
    (hend : p / 64 ∈ ends) (hcard : ends.card < maxMixed) :
    Tally once (reservePage s p) ends (free.erase p) := by
  rw [Pmm.reservePage]
  by_cases hused : pageIsUsed s p = true
  · have hmem : p ∉ free := by
      rw [← h.free_iff, hused]
      decide
    rw [if_pos hused, erase_eq_of_notMem hmem]
    exact h
  have hfree : pageIsUsed s p = false := Bool.eq_false_iff.2 hused
  have hp := lt_maxPages_of_free hfree
  obtain ⟨-, -, -, hview⟩ := pageMarkUsed_spec h.table.slots hp
  rw [if_neg hused]
  refine ⟨(h.table.mark hp hend hcard).congr rfl rfl rfl rfl, fun q => ?_, fun honce => ?_⟩
  · show pageIsUsed (pageMarkUsed p s) q = false ↔ _
    rw [Finset.mem_erase, ← h.free_iff]
    rcases Nat.lt_or_ge q maxPages with hq | hq
    · rw [hview q hq]
      simp [h.table.not_spills hcard p, and_comm]
    · rw [pageIsUsed_of_ge hq, pageIsUsed_of_ge hq]
      simp
  · show (pageMarkUsed p s).totalPages - 1 = _
    rw [(pageMarkUsed_counters s p).1, h.total honce, card_erase_of_mem ((h.free_iff p).1 hfree)]

theorem markUsablePage_mixed (hst : s.blockState (p / 64) = .mixed) : markUsablePage p s =
      let bits := s.mixedBits (s.blockMixed (p / 64)) &&& ~~~pageBit (p % 64)
      let s' := { s with mixedBits := update s.mixedBits (s.blockMixed (p / 64)) bits }
      if bits = 0#64 then mixedReleaseTo (p / 64) .free s' else s' := by
  simp [markUsablePage, pagesPerBlock, hst]

/-- A block without a slot gets one, in which only this page is free. -/
theorem mixedAcquire_markUsablePage (hp : p < maxPages)
    (hst : s.blockState (p / 64) = .unused ∨ s.blockState (p / 64) = .used)
    (hstack : s.mixedFreeStack ≠ []) :
    mixedAcquire (p / 64) (allUsed ^^^ pageBit (p % 64)) s = some (markUsablePage p s) := by
  obtain ⟨slot, rest, hcons⟩ := exists_cons_of_ne_nil hstack
  rcases hst with hst | hst <;>
    simp [markUsablePage, pageMarkFree, not_le.2 hp, pagesPerBlock, hst, mixedAcquire, hcons]

/-- Claiming one page of a block that is not claimed whole. -/
theorem SlotTable.claimPage (h : SlotTable s ends)
    (hp : p < maxPages) (hend : p / 64 ∈ ends) (hcard : ends.card < maxMixed) :
    SlotTable (markUsablePage p s) ends ∧
      (markUsablePage p s).totalPages = s.totalPages ∧
      ∀ q < maxPages, pageIsUsed (markUsablePage p s) q = (pageIsUsed s q && !decide (q = p)) := by
  have hbit : p % 64 < 64 := Nat.mod_lt _ (by decide)
  by_cases hst : s.blockState (p / 64) = .unused ∨ s.blockState (p / 64) = .used
  · have hacq := mixedAcquire_markUsablePage hp hst (h.stack_ne_nil hcard)
    have hne : s.blockState (p / 64) ≠ .mixed := by
      rcases hst with hst | hst <;> rw [hst] <;> decide
    obtain ⟨-, -, -, hview⟩ := mixedAcquire_spec hacq h.slots hne
    refine ⟨h.acquire hacq hne (exists_free_xor hbit) hend, (mixedAcquire_steady hacq).total,
      fun q hq => ?_⟩
    rw [pageIsUsed_of_lt hq, pageIsUsed_of_lt hq, hview]
    by_cases hb : q / 64 = p / 64
    · have hold : blockUsed s (q / 64) (q % 64) = true := by
        rcases hst with hst | hst <;> simp [blockUsed, hb, hst]
      rw [if_pos hb, getLsbD_allUsed_xor hbit (Nat.mod_lt _ (by decide)), hold]
      congr 2
      exact propext ⟨fun he => (page_eq_iff _ _).2 ⟨hb, he⟩, fun he => by rw [he]⟩
    · have hne : q ≠ p := fun he => hb (by rw [he])
      simp [hb, hne]
  rcases hst' : s.blockState (p / 64) with _ | _ | _ | _
  · exact absurd (.inl hst') hst
  · have hsame : markUsablePage p s = s := by simp [markUsablePage, pagesPerBlock, hst']
    rw [hsame]
    refine ⟨h, rfl, fun q hq => ?_⟩
    by_cases hqp : q = p
    · simp [hqp, pageIsUsed_of_lt hp, blockUsed, hst']
    · simp [hqp]
  · exact absurd (.inr hst') hst
  obtain ⟨-, -, -, hview⟩ := clearBit_spec h.slots hst'
  rw [markUsablePage_mixed hst']
  refine ⟨?_, ?_, hview⟩
  · dsimp only
    split
    · exact h.release _ .free (by decide) _ (h.bits_other hst' _)
    · exact h.updateBits hst' (exists_free_clear _ hbit)
  dsimp only
  split
  · exact (mixedReleaseTo_steady s _ .free (by decide) _).total
  · rfl

theorem Tally.claimPage (h : Tally once s ends free) (hp : p < maxPages)
    (hnew : once → p ∉ free) (hend : p / 64 ∈ ends) (hcard : ends.card < maxMixed)
    (highest : ℕ) : Tally once { markUsablePage p s with
      totalPages := (markUsablePage p s).totalPages + 1, highestPage := highest } ends
      (insert p free) := by
  obtain ⟨htable, htotal, hview⟩ := h.table.claimPage hp hend hcard
  refine ⟨htable.congr rfl rfl rfl rfl, fun q => ?_, fun honce => ?_⟩
  · show pageIsUsed (markUsablePage p s) q = false ↔ _
    rw [mem_insert, ← h.free_iff]
    rcases lt_or_ge q maxPages with hq | hq
    · rw [hview q hq, Bool.and_eq_false_iff, Bool.not_eq_false', decide_eq_true_iff, or_comm]
    have hne : q ≠ p := by omega
    rw [pageIsUsed_of_ge hq, pageIsUsed_of_ge hq]
    simp [hne]
  · rw [htotal, h.total honce, card_insert_of_notMem (hnew honce)]

theorem Tally.claimBlock (h : Tally once s ends free) (blk : ℕ)
    (hblk : 64 * blk + 64 ≤ maxPages) (hnew : once → ∀ p, p / 64 = blk → p ∉ free) (highest : ℕ) :
    Tally once { mixedReleaseTo blk .free s with
      totalPages := (mixedReleaseTo blk .free s).totalPages + 64, highestPage := highest } ends
      (free ∪ Finset.Ico (64 * blk) (64 * blk + 64)) := by
  obtain ⟨-, -, -, hview⟩ :=
    mixedReleaseTo_spec h.table.slots blk (by decide : BlockState.free ≠ .mixed)
  have htable : SlotTable (mixedReleaseTo blk .free s) ends :=
    h.table.release blk .free (by decide) s.mixedBits fun _ _ _ => rfl
  have hin : ∀ q, q ∈ Finset.Ico (64 * blk) (64 * blk + 64) ↔ q / 64 = blk := fun q => by
    rw [mem_Ico]
    omega
  refine ⟨htable.congr rfl rfl rfl rfl, fun q => ?_, fun honce => ?_⟩
  · show pageIsUsed (mixedReleaseTo blk .free s) q = false ↔ _
    rw [mem_union, hin, ← h.free_iff]
    rcases lt_or_ge q maxPages with hq | hq
    · rw [pageIsUsed_of_lt hq, pageIsUsed_of_lt hq, hview]
      by_cases hb : q / 64 = blk <;> simp [hb]
    have hb : q / 64 ≠ blk := by omega
    rw [pageIsUsed_of_ge hq, pageIsUsed_of_ge hq]
    simp [hb]
  have hdisj : Disjoint free (Finset.Ico (64 * blk) (64 * blk + 64)) :=
    Finset.disjoint_right.2 fun p hp => hnew honce p ((hin p).1 hp)
  rw [(mixedReleaseTo_steady s blk .free (by decide) s.mixedBits).total, h.total honce,
    card_union_of_disjoint hdisj, Nat.card_Ico, Nat.add_sub_cancel_left]

theorem markUsableLoop_block (hlt : start < stop) (hwhole : start % 64 = 0 ∧ start + 64 ≤ stop) :
    markUsableLoop stop (fuel + 1) start s = markUsableLoop stop fuel (start + 64)
      { mixedReleaseTo (start / 64) .free s with
        totalPages := (mixedReleaseTo (start / 64) .free s).totalPages + 64
        highestPage := start + 64 - 1 } := by
  have hcond : start % pagesPerBlock = 0 ∧ start + pagesPerBlock ≤ stop := hwhole
  rw [markUsableLoop, if_pos hlt]
  rw [if_pos hcond, claimBlock_eq]
  rfl

theorem markUsableLoop_page (hlt : start < stop) (hpart : ¬ (start % 64 = 0 ∧ start + 64 ≤ stop)) :
    markUsableLoop stop (fuel + 1) start s = markUsableLoop stop fuel (start + 1)
      { markUsablePage start s with
        totalPages := (markUsablePage start s).totalPages + 1
        highestPage := if (markUsablePage start s).highestPage < start then start
          else (markUsablePage start s).highestPage } := by
  have hcond : ¬ (start % pagesPerBlock = 0 ∧ start + pagesPerBlock ≤ stop) := hpart
  rw [markUsableLoop, if_pos hlt]
  rw [if_neg hcond]

/-- **Claiming a range**: only its first and its last block can be claimed in part. -/
theorem Tally.claimLoop (hstop : stop ≤ maxPages)
    (hlast : stop / 64 ∈ ends) (hcard : ends.card < maxMixed) :
    ∀ (fuel start : ℕ) {s : State} {free : Finset ℕ}, stop - start ≤ fuel →
      (start % 64 ≠ 0 → start / 64 ∈ ends) → Tally once s ends free →
      (once → ∀ p, start ≤ p → p < stop → p ∉ free) →
      Tally once (markUsableLoop stop fuel start s) ends (free ∪ Finset.Ico start stop) := by
  intro fuel
  induction fuel with
  | zero =>
    intro start s free hfuel _ h _
    rwa [Finset.Ico_eq_empty (by omega), union_empty]
  | succ fuel ih =>
    intro start s free hfuel hfirst h hnew
    by_cases hlt : start < stop
    · by_cases hwhole : start % 64 = 0 ∧ start + 64 ≤ stop
      · have hstart : 64 * (start / 64) = start := by omega
        have hblock := h.claimBlock (start / 64) (by omega)
          (fun honce p hp => hnew honce p (by omega) (by omega)) (start + 64 - 1)
        rw [hstart] at hblock
        rw [markUsableLoop_block hlt hwhole,
          ← Finset.Ico_union_Ico_eq_Ico (Nat.le_add_right start 64) hwhole.2, ← union_assoc]
        refine ih (start + 64) (by omega) (fun hmod => absurd hwhole.1 (by omega)) hblock ?_
        intro honce p hlo hhi hmem
        rcases mem_union.1 hmem with hmem | hmem
        · exact hnew honce p (by omega) hhi hmem
        · rw [mem_Ico] at hmem
          omega
      have hend : start / 64 ∈ ends := by
        by_cases hmod : start % 64 = 0
        · have hsame : start / 64 = stop / 64 := by omega
          rwa [hsame]
        · exact hfirst hmod
      have hpage := h.claimPage (hlt.trans_le hstop) (hnew · start le_rfl hlt) hend hcard
        (if (markUsablePage start s).highestPage < start then start
          else (markUsablePage start s).highestPage)
      rw [markUsableLoop_page hlt hwhole, ← insert_Ico_add_one_left_eq_Ico hlt, union_insert,
        ← insert_union]
      refine ih (start + 1) (by omega) (fun hmod => ?_) hpage ?_
      · have hsame : (start + 1) / 64 = start / 64 := by omega
        rwa [hsame]
      intro honce p hlo hhi hmem
      rcases mem_insert.1 hmem with rfl | hmem
      · omega
      · exact hnew honce p (by omega) hhi hmem
    · rwa [markUsableLoop, if_neg hlt, Finset.Ico_eq_empty (by omega), union_empty]

/-! ### Reserving -/

/-- A block without free pages has no slot. -/
theorem SlotTable.of_insert
    (h : SlotTable s (insert blk ends)) (hfull : blk ∈ ends ∨ ∀ i < 64, blockUsed s blk i = true) :
    SlotTable s ends := by
  refine ⟨h.slots, h.bound, h.placed, h.hasFree, fun b hb => ⟨(h.mixed b hb).1, ?_⟩⟩
  rcases mem_insert.1 (h.mixed b hb).2 with rfl | hmem
  · rcases hfull with hmem | hfull
    · exact hmem
    obtain ⟨i, hi, hfree⟩ := h.hasFree b hb
    rw [hfull i hi] at hfree
    exact absurd hfree (by decide)
  · exact hmem

/-- **Reserving a range**: of the blocks it goes through, the first and the current one may have a
slot. -/
theorem Tally.reserveRange (h : Tally once s ends free) (start : ℕ)
    (hcard : ends.card + 2 < maxMixed) (n : ℕ) (hn : start + n ≤ maxPages) :
    Tally once ((range' start n).foldl Pmm.reservePage s)
      (insert ((start + n) / 64) (insert (start / 64) ends))
      (free \ Finset.Ico start (start + n)) := by
  induction n with
  | zero =>
    rw [add_zero, Finset.Ico_self, sdiff_empty]
    exact ⟨h.table.mono ((Finset.subset_insert ..).trans (Finset.subset_insert ..)), h.free_iff,
      h.total⟩
  | succ n ih =>
    have hend : ∀ b, (insert b (insert (start / 64) ends)).card < maxMixed := by
      intro b
      have h1 := card_insert_le b (insert (start / 64) ends)
      have h2 := card_insert_le (start / 64) ends
      omega
    have hmark := (ih (by omega)).reservePage (Finset.mem_insert_self ..) (hend _)
    rw [range'_concat, foldl_append, one_mul]
    set t := Pmm.reservePage ((range' start n).foldl Pmm.reservePage s) (start + n)
    rw [← sdiff_insert, insert_Ico_right_eq_Ico_add_one (Nat.le_add_right start n),
      add_assoc] at hmark
    refine ⟨?_, hmark.free_iff, hmark.total⟩
    by_cases hsame : (start + (n + 1)) / 64 = (start + n) / 64
    · rw [hsame]
      exact hmark.table
    -- the block is complete
    refine (hmark.table.of_insert ?_).mono (Finset.subset_insert ..)
    by_cases hfirst : (start + n) / 64 = start / 64
    · exact .inl (by rw [hfirst]; exact Finset.mem_insert_self ..)
    refine .inr fun i hi => ?_
    have hpage : 64 * ((start + n) / 64) + i < maxPages := by omega
    have hused : ¬ pageIsUsed t (64 * ((start + n) / 64) + i) = false := by
      rw [hmark.free_iff, mem_sdiff, mem_Ico]
      omega
    rw [pageIsUsed_of_lt hpage] at hused
    have hblk : (64 * ((start + n) / 64) + i) / 64 = (start + n) / 64 := by omega
    have hbit : (64 * ((start + n) / 64) + i) % 64 = i := by omega
    rw [hblk, hbit] at hused
    exact Bool.eq_true_of_not_eq_false hused

/-- A tally with at most `k` blocks that may have a slot. -/
def Tallied (once : Prop) (k : ℕ) (s : State) (free : Finset ℕ) : Prop :=
  ∃ ends : Finset ℕ, ends.card ≤ k ∧ Tally once s ends free

theorem Tallied.reserveRange (h : Tallied once k s free)
    (hk : k + 2 < maxMixed) (start n : ℕ) (hn : start + n ≤ maxPages) :
    Tallied once (k + 2) ((range' start n).foldl Pmm.reservePage s)
      (free \ Finset.Ico start (start + n)) := by
  obtain ⟨ends, hcard, htally⟩ := h
  refine ⟨_, ?_, htally.reserveRange start (by omega) n hn⟩
  have h1 := card_insert_le ((start + n) / 64) (insert (start / 64) ends)
  have h2 := card_insert_le (start / 64) ends
  omega

theorem Tallied.mono {k' : ℕ} (hk : k ≤ k') (h : Tallied once k s free) :
    Tallied once k' s free := by
  obtain ⟨ends, hcard, htally⟩ := h
  exact ⟨ends, hcard.trans hk, htally⟩

/-! ### The memory map -/

def peakMmapMax : ℕ := 128

/-- The pages `pmm_init` claims for a usable entry. -/
def usablePages (e : MmapEntry) : Finset ℕ :=
  Finset.Ico ((e.base + (pageSize - 1)) % 2 ^ 64 / pageSize)
    (min ((e.base + e.length) % 2 ^ 64 / pageSize) maxPages)

/-- The types of the entries that `pmm_init` takes out of the pool again. -/
def MmapType.Reserves (type : MmapType) : Prop :=
  type = .kernel ∨ type = .bootloader ∨ type = .framebuffer

/-- The pages that are taken out for such an entry. -/
def reservedPages (e : MmapEntry) : Finset ℕ :=
  Finset.Ico (e.base / pageSize)
    (min ((e.base + e.length + (pageSize - 1)) % 2 ^ 64 / pageSize) maxPages)

/-- The map fits `struct peak_bootinfo`, and no page is claimed by two entries. -/
structure MapOk (info : BootInfo) : Prop where
  length : info.mmap.length ≤ peakMmapMax
  disjoint : (info.mmap.filter (·.type = .usable)).Pairwise fun e f =>
    Disjoint (usablePages e) (usablePages f)

theorem Tallied.claimUsable (h : Tallied once k s free)
    (hk : k + 2 < maxMixed) {e : MmapEntry} (he : e.type = .usable)
    (hnew : once → Disjoint free (usablePages e)) :
    Tallied once (k + 2) (claimUsable s e) (free ∪ usablePages e) := by
  obtain ⟨ends, hcard, htally⟩ := h
  rw [Pmm.claimUsable, if_pos he, markUsableRange, usablePages]
  set start := (e.base + (pageSize - 1)) % 2 ^ 64 / pageSize with hstart
  set stop := min ((e.base + e.length) % 2 ^ 64 / pageSize) maxPages with hstop
  have h1 := card_insert_le (stop / 64) (insert (start / 64) ends)
  have h2 := card_insert_le (start / 64) ends
  have hmax : stop ≤ maxPages := Nat.min_le_right ..
  have hends : (insert (stop / 64) (insert (start / 64) ends)).card < maxMixed := by omega
  refine ⟨insert (stop / 64) (insert (start / 64) ends), by omega, ?_⟩
  refine Tally.claimLoop hmax (Finset.mem_insert_self ..) hends _ _ le_rfl
    (fun _ => Finset.mem_insert_of_mem (Finset.mem_insert_self ..))
    ⟨htally.table.mono ((Finset.subset_insert ..).trans (Finset.subset_insert ..)), htally.free_iff,
      htally.total⟩ fun honce p hlo hhi hmem => ?_
  exact Finset.disjoint_left.1 (hnew honce) hmem (mem_Ico.2 ⟨hlo, hhi⟩)

theorem Tallied.claimAll (entries : List MmapEntry)
    (h : Tallied once k s free) (hk : k + 2 * entries.length < maxMixed)
    (hnew : once → ∀ e ∈ entries, e.type = .usable → Disjoint free (usablePages e))
    (hdisj : once → (entries.filter (·.type = .usable)).Pairwise fun e f =>
      Disjoint (usablePages e) (usablePages f)) :
    ∃ free', (∀ p, p ∈ free' ↔ p ∈ free ∨ ∃ e ∈ entries, e.type = .usable ∧ p ∈ usablePages e) ∧
      Tallied once (k + 2 * entries.length) (entries.foldl Pmm.claimUsable s) free' := by
  induction entries generalizing k s free with
  | nil => exact ⟨free, by simp, h⟩
  | cons e entries ih =>
    rw [length_cons] at hk ⊢
    rw [foldl_cons]
    by_cases he : e.type = .usable
    · rw [List.filter_cons_of_pos (by simpa using he)] at hdisj
      have hnew' : once → ∀ f ∈ entries, f.type = .usable →
          Disjoint (free ∪ usablePages e) (usablePages f) := fun honce f hf hft =>
        disjoint_union_left.2 ⟨hnew honce f (List.mem_cons_of_mem _ hf) hft,
          (List.pairwise_cons.1 (hdisj honce)).1 f (List.mem_filter.2 ⟨hf, by simpa using hft⟩)⟩
      obtain ⟨free', hmem, h'⟩ := ih
        (h.claimUsable (by omega) he (hnew · e (List.mem_cons_self ..) he)) (by omega) hnew'
        fun honce => (List.pairwise_cons.1 (hdisj honce)).2
      exact ⟨free', fun p => by simp [hmem, he, or_assoc], h'.mono (by omega)⟩
    rw [List.filter_cons_of_neg (by simpa using he)] at hdisj
    obtain ⟨free', hmem, h'⟩ := ih (s := s) h (by omega)
      (fun honce f hf => hnew honce f (List.mem_cons_of_mem _ hf)) hdisj
    rw [Pmm.claimUsable, if_neg he]
    exact ⟨free', fun p => by simp [hmem, he], h'.mono (by omega)⟩

theorem Tallied.reserveEntry (h : Tallied once k s free) (hk : k + 2 < maxMixed) (e : MmapEntry) :
    ∃ free', (∀ p, p ∈ free' ↔ p ∈ free ∧ (e.type.Reserves → p ∉ reservedPages e)) ∧
      Tallied once (k + 2) (reserveEntry s e) free' := by
  rw [Pmm.reserveEntry]
  split
  next hres =>
    have hres' : e.type.Reserves := hres
    simp only [hres', true_imp_iff, reservedPages]
    set start := e.base / pageSize
    set stop := min ((e.base + e.length + (pageSize - 1)) % 2 ^ 64 / pageSize) maxPages with hstop
    rcases Nat.le_total stop start with hle | hle
    · rw [Nat.sub_eq_zero_of_le hle, range'_zero]
      exact ⟨free, by simp [Finset.Ico_eq_empty_of_le hle], h.mono (by omega)⟩
    have hmax : stop ≤ maxPages := Nat.min_le_right ..
    have h' := h.reserveRange hk start (stop - start) (by omega)
    rw [Nat.add_sub_cancel' hle] at h'
    exact ⟨_, fun p => mem_sdiff, h'⟩
  next hres =>
    have hres' : ¬ e.type.Reserves := hres
    exact ⟨free, by simp [hres'], h.mono (by omega)⟩

theorem Tallied.reserveAll (entries : List MmapEntry)
    (h : Tallied once k s free) (hk : k + 2 * entries.length < maxMixed) :
    ∃ free', (∀ p, p ∈ free' ↔
        p ∈ free ∧ ∀ e ∈ entries, e.type.Reserves → p ∉ reservedPages e) ∧
      Tallied once (k + 2 * entries.length) (entries.foldl Pmm.reserveEntry s) free' := by
  induction entries generalizing k s free with
  | nil => exact ⟨free, by simp, h⟩
  | cons e entries ih =>
    rw [length_cons] at hk ⊢
    obtain ⟨free', hmem, h'⟩ := h.reserveEntry (by omega) e
    obtain ⟨free'', hmem', h''⟩ := ih h' (by omega)
    exact ⟨free'', fun p => by simp [hmem', hmem, and_assoc], h''.mono (by omega)⟩

theorem tallied_reset (once : Prop) (info : BootInfo) : Tallied once 0 (pmmReset info) ∅ := by
  have hmixed : ∀ b, (pmmReset info).blockState b ≠ .mixed := fun b => by simp [pmmReset]
  refine ⟨∅, le_rfl, ⟨slotsOk_reset info, fun slot hslot => ?_, fun slot hslot => .inl ?_,
    fun b hb => absurd hb (hmixed b), fun b hb => absurd hb (hmixed b)⟩, fun p => ?_, fun _ => rfl⟩
  · simpa [pmmReset] using hslot
  · simpa [pmmReset] using hslot
  · rw [pageIsUsed_eq]
    simp [pmmReset, blockUsed]

/-- The pages that are claimed, above the first mebibyte, and not taken out again. -/
def Pooled (info : BootInfo) (p : ℕ) : Prop :=
  256 ≤ p ∧ (∃ e ∈ info.mmap, e.type = .usable ∧ p ∈ usablePages e) ∧
    ∀ e ∈ info.mmap, e.type.Reserves → p ∉ reservedPages e

variable {info : BootInfo}

/-- **The map after `pmm_init`**, whatever the entries: only the passes matter, not their order. -/
theorem pmmInit_pooled (h : info.mmap.length ≤ peakMmapMax) :
    ∃ free : Finset ℕ, (∀ p, p ∈ free ↔ Pooled info p) ∧
      (∀ p, pageIsUsed (pmmInit info) p = false ↔ p ∈ free) ∧
      (MapOk info → (pmmInit info).totalPages = free.card) := by
  have hmax : peakMmapMax + 1 < maxMixed / 4 := by decide
  obtain ⟨free₁, hmem₁, h₁⟩ := (tallied_reset (MapOk info) info).claimAll info.mmap (by omega)
    (fun _ _ _ _ => disjoint_empty_left _) MapOk.disjoint
  have h₂ := h₁.reserveRange (by omega) 0 256 (by decide)
  rw [← range_eq_range'] at h₂
  obtain ⟨free₃, hmem₃, _, _, h₃⟩ := h₂.reserveAll info.mmap (by omega)
  refine ⟨free₃, fun p => ?_, h₃.free_iff, h₃.total⟩
  rw [hmem₃, mem_sdiff, hmem₁, Pooled]
  simp [and_left_comm, and_assoc]

/-- **After `pmm_init`** the pages counted are the free ones. -/
theorem pmmInit_totalPages (h : MapOk info) :
    ∃ free : Finset ℕ, (∀ p, pageIsUsed (pmmInit info) p = false ↔ p ∈ free) ∧
      (pmmInit info).totalPages = free.card := by
  obtain ⟨free, -, hfree, htotal⟩ := pmmInit_pooled h.length
  exact ⟨free, hfree, htotal h⟩

theorem pageIsUsed_pmmInit (h : info.mmap.length ≤ peakMmapMax) (p : ℕ) :
    pageIsUsed (pmmInit info) p = false ↔ Pooled info p := by
  obtain ⟨free, hmem, hfree, -⟩ := pmmInit_pooled h
  rw [hfree, hmem]

end PeakOs.Pmm
