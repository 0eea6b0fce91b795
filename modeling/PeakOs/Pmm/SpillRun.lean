import PeakOs.Pmm.BootCount
import Mathlib.Tactic.NormNum

/-!
# A run that hands a page out twice

The spill of `page_mark_used` does reach the range being allocated. On a machine with 4097 blocks
of RAM above the first mebibyte:

1. `64 * 4096` single pages are allocated, which leaves one free block;
2. 2048 of them are freed, one in each of the first 2048 blocks: the single-page stack is full;
3. 4096 more are freed, one in each used block: they go to the map, and every slot of the mixed
   table is taken;
4. one page is allocated, which makes room for one entry on the stack;
5. two pages are allocated. Marking the first splits the last free block without a slot, so its
   other pages are spilled, and the one that fits on the stack is the *second page of the request*;
6. one page is allocated, and it is that page.

Each phase is a predicate on the state and an induction over the calls of the phase.
-/

namespace PeakOs.Pmm

open Function List

/-- RAM from page 256 on: 4097 blocks. -/
def spillMap : BootInfo := ⟨0, [⟨256 * 4096, 64 * 4097 * 4096, .usable⟩]⟩

/-! ### Initialisation -/

theorem markUsableLoop_blocks (fuel n : ℕ) : ∀ (a : ℕ) (s : State),
    (∀ x, s.blockState x ≠ .mixed) →
    let t := markUsableLoop (64 * (a + n)) (fuel + n) (64 * a) s
    (∀ x, t.blockState x = if a ≤ x ∧ x < a + n then .free else s.blockState x) ∧
      t.mixedFreeStack = s.mixedFreeStack ∧
      t.highestPage = if n = 0 then s.highestPage else 64 * (a + n) - 1 := by
  induction n with
  | zero =>
    intro a s _
    have hsame : markUsableLoop (64 * (a + 0)) (fuel + 0) (64 * a) s = s := by
      cases fuel <;> simp [markUsableLoop]
    rw [hsame]
    exact ⟨fun x => (if_neg (by omega)).symm, rfl, rfl⟩
  | succ n ih =>
    intro a s hmix
    have hmix' : ∀ x, update s.blockState a .free x ≠ .mixed := by
      intro x
      by_cases hx : x = a
      · simp [hx]
      · simpa [hx] using hmix x
    rw [← add_assoc fuel, markUsableLoop_block (by omega) (by omega),
      show 64 * a / 64 = a by omega, mixedReleaseTo, if_neg (hmix a), ← Nat.mul_succ,
      ← Nat.succ_add_eq_add_succ a]
    obtain ⟨h1, h2, h3⟩ := ih (a + 1) { s with
      blockState := update s.blockState a .free
      totalPages := s.totalPages + 64
      highestPage := 64 * (a + 1) - 1 } hmix'
    refine ⟨fun x => ?_, h2, ?_⟩
    · refine (h1 x).trans ?_
      dsimp only
      rw [update_apply]
      split_ifs <;> first | rfl | omega
    rw [h3, if_neg n.succ_ne_zero]
    split_ifs with hn
    · rw [hn]
    · rfl

/-- The lists and the cursor after `pmm_init`, and the blocks it found. -/
structure Fresh (s : State) : Prop where
  blocks : ∀ x, s.blockState x = if 4 ≤ x ∧ x < 4101 then .free else .unused
  stack : s.mixedFreeStack = (List.range maxMixed).reverse
  highest : s.highestPage = 64 * 4101 - 1

variable {s : State} {p k j q : ℕ} {σ : Sys}

theorem reservePage_of_used (h : pageIsUsed s p = true) : reservePage s p = s := by
  rw [reservePage, if_pos h]

theorem foldl_reservePage_of_used : ∀ (ps : List ℕ),
    (∀ p ∈ ps, pageIsUsed s p = true) → ps.foldl reservePage s = s := by
  intro ps
  induction ps with
  | nil => intro _; rfl
  | cons p ps ih =>
    intro h
    rw [foldl_cons, reservePage_of_used (h p (mem_cons_self ..))]
    exact ih fun q hq => h q (mem_cons_of_mem _ hq)

theorem claimUsable_spillMap (s : State) :
    claimUsable s ⟨256 * 4096, 64 * 4097 * 4096, .usable⟩ =
      markUsableLoop (64 * 4101) (64 * 4101 - 64 * 4) (64 * 4) s := by
  have h1 : (256 * 4096 + (pageSize - 1)) % 2 ^ 64 / pageSize = 64 * 4 := by norm_num [pageSize]
  have h2 : min ((256 * 4096 + 64 * 4097 * 4096) % 2 ^ 64 / pageSize) maxPages = 64 * 4101 := by
    norm_num [pageSize, maxPages]
  simp only [claimUsable, markUsableRange, h1, h2, if_true]

/-- The low pages are not RAM here, so there is nothing to reserve. -/
theorem reserve_low (h : ∀ x < 4, s.blockState x = .unused) :
    (range 256).foldl reservePage s = s := by
  refine foldl_reservePage_of_used _ fun p hp => ?_
  have hp' : p < 256 := mem_range.1 hp
  rw [pageIsUsed_of_lt (by simp only [maxPages]; omega)]
  simp [blockUsed, h (p / 64) (by omega)]

theorem fresh_of_claimed {s₀ : State} (hunused : ∀ x, s₀.blockState x = .unused)
    (hstack : s₀.mixedFreeStack = (range maxMixed).reverse) (fuel : ℕ) : Fresh
    ((range 256).foldl reservePage (markUsableLoop (64 * 4101) (fuel + 4097) (64 * 4) s₀)) := by
  obtain ⟨h1, h2, h3⟩ := markUsableLoop_blocks fuel 4097 4 s₀ (fun x => by rw [hunused]; decide)
  rw [reserve_low fun x hx => by rw [h1, if_neg (by omega), hunused]]
  refine ⟨fun x => by rw [h1, hunused], by rw [h2, hstack], ?_⟩
  rw [h3, if_neg (by omega)]

/-- With one usable entry, only the low pages are left to reserve. -/
theorem fresh_of_single {hhdm base length : ℕ}
    (h : Fresh ((range 256).foldl reservePage
      (claimUsable (pmmReset ⟨hhdm, [⟨base, length, .usable⟩]⟩) ⟨base, length, .usable⟩))) :
    Fresh (pmmInit ⟨hhdm, [⟨base, length, .usable⟩]⟩) := by
  simp only [pmmInit, foldl_cons, foldl_nil]
  generalize (range 256).foldl reservePage _ = s at h ⊢
  exact ⟨h.blocks, h.stack, h.highest⟩

theorem fresh_init : Fresh (pmmInit spillMap) := by
  refine fresh_of_single ?_
  rw [claimUsable_spillMap, show 64 * 4101 - 64 * 4 = 258111 + 4097 by norm_num]
  exact fresh_of_claimed (fun _ => rfl) (by rw [pmmReset]) 258111

/-! ### Allocation at the cursor -/

/-- When the pages at the cursor are free, the scan stops there at once. -/
theorem allocFromMap_hit {n : ℕ} (hn : 0 < n) (hlim : s.allocCursor + n ≤ scanLimit s)
    (hfree : ∀ q ∈ range' s.allocCursor n, pageIsUsed s q = false) :
    allocFromMap n s = (some (s.allocCursor * pageSize),
      { markRange n s.allocCursor s with allocCursor := s.allocCursor + n }) := by
  have hmax : scanLimit s ≤ maxPages := min_le_right _ _
  have hcur : scanCursor s = s.allocCursor := by rw [scanCursor, if_neg (by omega)]
  have hsame : { s with allocCursor := scanCursor s } = s := by rw [hcur]
  have hbound : s.allocCursor + n < 2 ^ 64 := by
    have : maxPages < 2 ^ 64 := by decide
    omega
  have hnone : firstUsed s s.allocCursor 0 n = none := by
    refine firstUsed_eq_none.2 fun j _ hj => ?_
    exact hfree _ (by rw [mem_range'_1]; omega)
  have hscan : scanMap s n (scanLimit s) s.allocCursor = some s.allocCursor := by
    rw [scanMap, dif_pos ⟨by omega, by rw [Nat.mod_eq_of_lt hbound]; exact hlim⟩, hnone]
  have hfind : findInMap n s = some s.allocCursor := by rw [findInMap, hcur, hscan]
  rw [allocFromMap]
  simp only [hsame, hfind]

/-! ### Phase 1: single pages, in increasing order -/

/-- The first `k` pages are handed out. Only the block of the last one may have a slot. -/
structure Filling (k : ℕ) (σ : Sys) : Prop where
  table : SlotTable σ.pmm {3 + (k + 63) / 64}
  claimed : ∀ b, 4 ≤ b → b < 4101 → σ.pmm.blockState b ≠ .unused
  pages : ∀ q, 192 ≤ q → q < 64 * 4101 → pageIsUsed σ.pmm q = decide (q < 256 + k)
  highest : σ.pmm.highestPage = 64 * 4101 - 1
  single : σ.pmm.singleFree = []
  runs : σ.pmm.freeRuns = []
  cursor : σ.pmm.allocCursor = 256 + k
  held : ∀ q, 256 ≤ q → q < 256 + k → q ∈ σ.held

theorem filling_zero : Filling 0 ⟨pmmInit spillMap, []⟩ := by
  have hblocks := fresh_init.blocks
  have hmixed : ∀ b, (pmmInit spillMap).blockState b ≠ .mixed := fun b => by
    rw [hblocks]
    split_ifs <;> decide
  refine ⟨⟨(owned_init spillMap).slots, fun slot hslot => ?_, fun slot hslot => .inl ?_, ?_, ?_⟩,
    fun b h1 h2 => ?_, fun q h1 h2 => ?_, fresh_init.highest, rfl, rfl, rfl,
    fun q h1 h2 => by omega⟩
  · simpa [fresh_init.stack] using hslot
  · simpa [fresh_init.stack] using hslot
  · exact fun b hb => absurd hb (hmixed b)
  · exact fun b hb => absurd hb (hmixed b)
  · rw [hblocks, if_pos ⟨h1, h2⟩]
    decide
  · rw [pageIsUsed_of_lt (by simp only [maxPages]; omega), blockUsed, hblocks]
    split_ifs <;> simp <;> omega

theorem Filling.blockUsed_eq (h : Filling k σ) {b i : ℕ} (h3 : 3 ≤ b) (hb : b < 4101)
    (hi : i < 64) : blockUsed σ.pmm b i = decide (64 * b + i < 256 + k) := by
  rw [← h.pages _ (by omega) (by omega), pageIsUsed_of_lt (by simp only [maxPages]; omega),
    show (64 * b + i) / 64 = b by omega, show (64 * b + i) % 64 = i by omega]

/-- The next page handed out is the one after those before. -/
theorem Filling.pmmAlloc_eq (h : Filling k σ) (hk : k < 64 * 4096) :
    pmmAlloc σ.pmm = (some ((256 + k) * pageSize), { pageMarkUsed (256 + k) σ.pmm with
        usedPages := (pageMarkUsed (256 + k) σ.pmm).usedPages + 1
        allocCursor := 256 + (k + 1) }) := by
  have hlim : scanLimit σ.pmm = 64 * 4101 := by
    rw [scanLimit, h.highest]
    decide
  have hfree := h.pages (256 + k) (by omega) (by omega)
  rw [pmmAlloc, pmmAllocPages_one h.single, allocFromMap_hit (by decide)
    (by rw [hlim, h.cursor]; omega) (by simpa [h.cursor] using hfree), h.cursor]
  rfl

theorem Filling.step_alloc (h : Filling k σ) (hk : k < 64 * 4096) :
    Filling (k + 1) (σ.step .alloc) := by
  have hp : 256 + k < maxPages := by simp only [maxPages]; omega
  have hcard : ∀ {b}, ({b} : Finset ℕ).card < maxMixed := fun {b} => by
    rw [Finset.card_singleton]
    decide
  have hspill := h.table.not_spills hcard (256 + k)
  have hsteady := pageMarkUsed_steady hspill
  obtain ⟨-, hruns, hsingle, hpages⟩ := pageMarkUsed_spec h.table.slots hp
  -- a block that is used up does not keep its slot
  have hboth : SlotTable σ.pmm (insert (3 + (k + 63) / 64) {3 + (k + 1 + 63) / 64}) :=
    h.table.mono (by simp)
  have hmoved : SlotTable σ.pmm {3 + (k + 1 + 63) / 64} := by
    refine hboth.of_insert ?_
    by_cases h0 : k % 64 = 0
    · exact .inr fun i hi => by
        rw [h.blockUsed_eq (by omega) (by omega) hi, decide_eq_true_eq]
        omega
    · exact .inl (Finset.mem_singleton.2 (by omega))
  have htable := hmoved.mark hp (Finset.mem_singleton.2 (by omega)) hcard
  simp only [Sys.step, h.pmmAlloc_eq hk, grantedPages_mul 1 (256 + k)]
  refine ⟨htable.congr rfl rfl rfl rfl,
    fun b h1 h2 hun => h.claimed b h1 h2 (hsteady.claimed b hun),
    fun q h1 h2 => ?_, hsteady.highest.trans h.highest, ?_, hruns.trans h.runs, rfl,
    fun q h1 h2 => ?_⟩
  · refine (hpages q (by simp only [maxPages]; omega)).trans ?_
    simp only [h.pages q h1 h2, hspill, false_and, decide_false, Bool.or_false, ← Bool.decide_or,
      decide_eq_decide]
    omega
  · exact hsingle.trans (by rw [if_neg hspill, h.single]; rfl)
  rcases lt_or_ge q (256 + k) with hlt | hge
  · exact mem_append_right _ (h.held q h1 hlt)
  · have : q = 256 + k := by omega
    simp [this]

/-! ### Phase 2: filling the single-page stack -/

/-- The pages freed in phase 2, last one first. -/
def stacked (j : ℕ) : List ℕ := ((List.range j).map fun i => 64 * (4 + i)).reverse

theorem mem_stacked : q ∈ stacked j ↔ ∃ i < j, 64 * (4 + i) = q := by
  simp [stacked]

theorem length_stacked (j : ℕ) : (stacked j).length = j := by
  simp [stacked]

theorem stacked_succ (j : ℕ) : stacked (j + 1) = 64 * (4 + j) :: stacked j := by
  simp [stacked, range_succ]

/-- All blocks but the last are used up, and `j` of their first pages are on the stack. -/
structure Stacked (j : ℕ) (σ : Sys) : Prop where
  usedUp : ∀ b, 4 ≤ b → b < 4100 → σ.pmm.blockState b = .used
  last : σ.pmm.blockState 4100 = .free
  stack : σ.pmm.mixedFreeStack.length = maxMixed
  highest : σ.pmm.highestPage = 64 * 4101 - 1
  single : σ.pmm.singleFree = stacked j
  runs : σ.pmm.freeRuns = []
  cursor : σ.pmm.allocCursor = 64 * 4100
  held : ∀ b, 4 ≤ b → b < 4100 → 64 * b + 1 ∈ σ.held ∧ (4 + j ≤ b → 64 * b ∈ σ.held)

theorem Filling.stacked_zero (h : Filling (64 * 4096) σ) : Stacked 0 σ := by
  have hmixed : ∀ b, σ.pmm.blockState b ≠ .mixed := by
    intro b hb
    obtain rfl := Finset.mem_singleton.1 (h.table.mixed b hb).2
    obtain ⟨i, hi, hfree⟩ := h.table.hasFree _ hb
    rw [h.blockUsed_eq (by omega) (by omega) hi, decide_eq_false_iff_not] at hfree
    omega
  have hstate : ∀ b, 4 ≤ b → b < 4101 →
      σ.pmm.blockState b = if b < 4100 then .used else .free := by
    intro b h1 h2
    have hused := h.blockUsed_eq (i := 0) (by omega) h2 (by decide)
    rw [blockUsed] at hused
    cases hst : σ.pmm.blockState b with
    | unused => exact absurd hst (h.claimed b h1 h2)
    | mixed => exact absurd hst (hmixed b)
    | free =>
      simp only [hst, Bool.false_eq, decide_eq_false_iff_not] at hused
      rw [if_neg (by omega)]
    | used =>
      simp only [hst, Bool.true_eq, decide_eq_true_eq] at hused
      rw [if_pos (by omega)]
  refine ⟨fun b h1 h2 => ?_, ?_, ?_, h.highest, h.single, h.runs, h.cursor, fun b h1 h2 =>
    ⟨h.held _ (by omega) (by omega), fun _ => h.held _ (by omega) (by omega)⟩⟩
  · rw [hstate b h1 (by omega), if_pos h2]
  · rw [hstate 4100 (by omega) (by omega), if_neg (by omega)]
  refine le_antisymm (length_le_of_nodup h.table.slots.nodup h.table.bound) ?_
  have hsub : range maxMixed ⊆ σ.pmm.mixedFreeStack := fun slot hslot => by
    refine (h.table.placed slot (mem_range.1 hslot)).resolve_right ?_
    rintro ⟨b, hb, -⟩
    exact hmixed b hb
  simpa using (nodup_range.subperm hsub).length_le

theorem not_onFreelist (hsingle : s.singleFree = stacked j) (hruns : s.freeRuns = [])
    (hp : ∀ i < j, 64 * (4 + i) ≠ p) : pmmPageOnFreelist s p = false := by
  refine Bool.eq_false_iff.2 fun hon => ?_
  rw [pmmPageOnFreelist_iff, hsingle, hruns, mem_stacked] at hon
  obtain ⟨i, hi, he⟩ | hrun := hon
  · exact hp i hi he
  · simp [runPages] at hrun

/-- What the guards of `pmm_free_n` come to for one page off the free lists. -/
theorem pmmFree_eq (hp : p < maxPages) (hoff : pmmPageOnFreelist s p = false) :
    pmmFree (p * pageSize) s = if s.singleFree.length < pmmSingleStack ∧ pageIsUsed s p then
        { s with singleFree := p :: s.singleFree, usedPages := s.usedPages - 1 }
      else freeToMap 1 p s := by
  have hdiv : p * pageSize / pageSize = p := Nat.mul_div_cancel _ (by decide)
  simp [pmmFree, pmmFreeN, hdiv, not_le.2 hp, hoff]

theorem mem_held_free {held : List ℕ} (hq : q ∈ held) (hne : q ≠ p) :
    q ∈ held.diff (range' (p * pageSize / pageSize) 1) := by
  rw [Nat.mul_div_cancel _ (by decide)]
  exact mem_diff_of_mem hq (by simpa using hne)

theorem legal_free (h : p ∈ σ.held) : σ.Legal (.free (p * pageSize)) := by
  simpa [Sys.Legal, Nat.mul_div_cancel p (by decide : 0 < pageSize)] using h

theorem Stacked.step_free (h : Stacked j σ) (hj : j < pmmSingleStack) :
    σ.Legal (.free (64 * (4 + j) * pageSize)) ∧
      Stacked (j + 1) (σ.step (.free (64 * (4 + j) * pageSize))) := by
  have hj' : j < 2048 := hj
  refine ⟨legal_free ((h.held (4 + j) (by omega) (by omega)).2 le_rfl), ?_⟩
  have hoff := not_onFreelist h.single h.runs (p := 64 * (4 + j)) fun i hi => by omega
  have hused : pageIsUsed σ.pmm (64 * (4 + j)) = true := by
    rw [pageIsUsed_of_lt (by simp only [maxPages]; omega), show 64 * (4 + j) / 64 = 4 + j by omega]
    simp [blockUsed, h.usedUp (4 + j) (by omega) (by omega)]
  have hstep := pmmFree_eq (s := σ.pmm) (by simp only [maxPages]; omega) hoff
  rw [h.single, length_stacked, if_pos ⟨hj, hused⟩, ← stacked_succ] at hstep
  simp only [Sys.step, hstep]
  refine ⟨h.usedUp, h.last, h.stack, h.highest, rfl, h.runs, h.cursor, fun b h1 h2 => ?_⟩
  exact ⟨mem_held_free (h.held b h1 h2).1 (by omega),
    fun hb => mem_held_free ((h.held b h1 h2).2 (by omega)) (by omega)⟩

/-! ### Phase 3: exhausting the mixed table -/

/-- The stack is full and the first `j` used blocks have lost a page to the map. -/
structure Split (j : ℕ) (σ : Sys) : Prop where
  usedUp : ∀ b, 4 + j ≤ b → b < 4100 → σ.pmm.blockState b = .used
  last : σ.pmm.blockState 4100 = .free
  stack : σ.pmm.mixedFreeStack.length = maxMixed - j
  highest : σ.pmm.highestPage = 64 * 4101 - 1
  single : σ.pmm.singleFree = stacked pmmSingleStack
  runs : σ.pmm.freeRuns = []
  cursor : σ.pmm.allocCursor = 64 * 4100
  held : ∀ b, 4 + j ≤ b → b < 4100 → 64 * b + 1 ∈ σ.held

theorem Stacked.split_zero (h : Stacked pmmSingleStack σ) : Split 0 σ where
  usedUp := h.usedUp
  last := h.last
  stack := h.stack
  highest := h.highest
  single := h.single
  runs := h.runs
  cursor := h.cursor
  held := fun b h1 h2 => (h.held b h1 h2).1

theorem Split.step_free (h : Split j σ) (hj : j < maxMixed) :
    σ.Legal (.free ((64 * (4 + j) + 1) * pageSize)) ∧
      Split (j + 1) (σ.step (.free ((64 * (4 + j) + 1) * pageSize))) := by
  have hj' : j < 4096 := hj
  refine ⟨legal_free (h.held (4 + j) le_rfl (by omega)), ?_⟩
  have hp : 64 * (4 + j) + 1 < maxPages := by simp only [maxPages]; omega
  have hdiv : (64 * (4 + j) + 1) / 64 = 4 + j := by omega
  have hst := h.usedUp (4 + j) le_rfl (by omega)
  have hoff := not_onFreelist h.single h.runs (p := 64 * (4 + j) + 1) fun i hi => by omega
  have hused : pageIsUsed σ.pmm (64 * (4 + j) + 1) = true := by
    rw [pageIsUsed_of_lt hp, hdiv]
    simp [blockUsed, hst]
  obtain ⟨slot, rest, hcons⟩ : ∃ slot rest, σ.pmm.mixedFreeStack = slot :: rest :=
    exists_cons_of_length_pos (by rw [h.stack]; omega)
  have hrest : rest.length = maxMixed - (j + 1) := by
    have := h.stack
    rw [hcons, length_cons] at this
    omega
  have hstep := pmmFree_eq (s := σ.pmm) hp hoff
  rw [h.single, length_stacked, if_neg (by simp)] at hstep
  have hmark : pageMarkFree (64 * (4 + j) + 1) σ.pmm = { σ.pmm with
      mixedFreeStack := rest
      mixedBits := update σ.pmm.mixedBits slot
        (allUsed ^^^ pageBit ((64 * (4 + j) + 1) % 64))
      blockMixed := update σ.pmm.blockMixed (4 + j) slot
      blockState := update σ.pmm.blockState (4 + j) .mixed } := by
    simp [pageMarkFree, not_le.2 hp, pagesPerBlock, hdiv, hst, mixedAcquire, hcons]
  rw [freeToMap, if_neg (not_le.2 hp), if_pos hused, freeToMap, hmark] at hstep
  simp only [Sys.step, hstep]
  refine ⟨fun b h1 h2 => ?_, ?_, hrest, h.highest, h.single, h.runs, h.cursor, fun b h1 h2 => ?_⟩
  · simp only [update_of_ne (show b ≠ 4 + j by omega)]
    exact h.usedUp b (by omega) h2
  · simp only [update_of_ne (show 4100 ≠ 4 + j by omega)]
    exact h.last
  · exact mem_held_free (h.held b (by omega) h2) (by omega)

/-! ### The spill -/

/-- With the mixed table exhausted and room for one entry on the stack, marking the first page of
the last free block pushes the second. -/
theorem spilledPages_last (h : s.singleFree.length = pmmSingleStack - 1) :
    spilledPages s (64 * 4100) = [64 * 4100 + 1] := by
  rw [spilledPages, h]
  decide

/-- Marking a page that spills, as a whole. -/
theorem pageMarkUsed_spill (h : Spills s p) :
    (pageMarkUsed p s).singleFree = (spilledPages s p).reverse ++ s.singleFree ∧
      (pageMarkUsed p s).blockState (p / 64) = .used := by
  obtain ⟨h1, -, h3, -⟩ := spillLoop_spec (p / 64) (p % 64) (range pagesPerBlock)
    { s with blockState := update s.blockState (p / 64) .used }
  rw [pageMarkUsed_of_spills h]
  refine ⟨h1, ?_⟩
  rw [h3]
  simp

/-- The second page of a spilled block is not marked any more. -/
theorem markRange_two (h : (pageMarkUsed p s).blockState ((p + 1) / 64) = .used) : markRange 2 p s =
      { pageMarkUsed p s with usedPages := (pageMarkUsed p s).usedPages + 1 + 1 } := by
  simp only [markRange]
  rw [pageMarkUsed_of_used (by exact h)]

/-- A request for two pages, when the last block is the next in the scan. -/
theorem pmmAllocPages_last (hlast : s.blockState 4100 = .free)
    (hhigh : s.highestPage = 64 * 4101 - 1) (hruns : s.freeRuns = [])
    (hcur : s.allocCursor = 64 * 4100) : pmmAllocPages 2 s = (some (64 * 4100 * pageSize),
      { markRange 2 (64 * 4100) s with allocCursor := 64 * 4100 + 2 }) := by
  have hfree : ∀ q, q / 64 = 4100 → pageIsUsed s q = false := by
    intro q hq
    rw [pageIsUsed_of_lt (by simp only [maxPages]; omega)]
    simp [blockUsed, hq, hlast]
  have hlim : scanLimit s = 64 * 4101 := by
    rw [scanLimit, hhigh]
    decide
  have hrun : findRun s.freeRuns 2 = none := by
    rw [hruns]
    rfl
  rw [pmmAllocPages_scan le_rfl hrun, allocFromMap_hit (by decide) (by rw [hlim, hcur]; decide)
    (fun q hq => hfree q (by rw [hcur, mem_range'_1] at hq; omega)), hcur]

/-- From the exhausted state, `pmm_alloc`, `pmm_alloc_pages(2)` and `pmm_alloc` hand page
`64 * 4100 + 1` out twice. -/
theorem Split.handed_out_twice (h : Split maxMixed σ) :
    ¬ (((σ.step .alloc).step (.allocPages 2)).step .alloc).held.Nodup := by
  obtain ⟨s, held⟩ := σ
  obtain ⟨-, hlast, hstack, hhigh, hsingle, hruns, hcur, -⟩ := h
  -- one page leaves the stack
  have h1 := pmmAllocPages_single (hsingle.trans (stacked_succ (pmmSingleStack - 1)))
  set s₁ : State :=
    { s with singleFree := stacked (pmmSingleStack - 1), usedPages := s.usedPages + 1 } with hs₁
  have hlen : s₁.singleFree.length = pmmSingleStack - 1 := by simp only [hs₁, length_stacked]
  have hempty : s₁.mixedFreeStack = [] := eq_nil_of_length_eq_zero (by rw [hstack]; decide)
  have h2 := pmmAllocPages_last (s := s₁) hlast hhigh hruns hcur
  -- marking the first spills the second; marking the second changes nothing any more
  obtain ⟨hpush, hused⟩ := pageMarkUsed_spill (s := s₁) (p := 64 * 4100)
    ⟨by decide, by simpa [hs₁, pagesPerBlock] using hlast, hempty⟩
  rw [spilledPages_last hlen] at hpush
  have hmark : (markRange 2 (64 * 4100) s₁).singleFree =
      (64 * 4100 + 1) :: stacked (pmmSingleStack - 1) := by
    rw [markRange_two hused, hpush]
    simp [hs₁]
  have h3 := pmmAllocPages_single (s := { markRange 2 (64 * 4100) s₁ with
    allocCursor := 64 * 4100 + 2 }) hmark
  have hdiv : ∀ p : ℕ, p * pageSize / pageSize = p := fun p => Nat.mul_div_cancel _ (by decide)
  simp only [Sys.step, pmmAlloc, h1, h2, h3, grantedPages, hdiv]
  simp

/-! ### The whole run -/

/-- A phase of `m` calls, none of which spills. -/
theorem exists_phase {P : ℕ → Sys → Prop} {m : ℕ}
    (hstart : ∃ σ,
      Reach (Sys.Booted spillMap) (fun σ c => σ.Legal c ∧ σ.NoSpill c) Sys.step σ ∧ P 0 σ)
    (hstep : ∀ j < m, ∀ σ, P j σ → ∃ c, (σ.Legal c ∧ σ.NoSpill c) ∧ P (j + 1) (σ.step c)) :
    ∃ σ, Reach (Sys.Booted spillMap) (fun σ c => σ.Legal c ∧ σ.NoSpill c) Sys.step σ ∧ P m σ := by
  induction m with
  | zero => exact hstart
  | succ m ih =>
    obtain ⟨σ, hσ, hP⟩ := ih fun j hj => hstep j (by omega)
    obtain ⟨c, hok, hnext⟩ := hstep m (by omega) σ hP
    exact ⟨_, .call c hσ hok, hnext⟩

theorem exists_split (j : ℕ) (hj : j ≤ maxMixed) :
    ∃ σ, Reach (Sys.Booted spillMap) (fun σ c => σ.Legal c ∧ σ.NoSpill c) Sys.step σ ∧
      Split j σ := by
  obtain ⟨σ₁, hσ₁, hfill⟩ := exists_phase (P := Filling) (m := 64 * 4096)
    ⟨_, .start rfl, filling_zero⟩ fun k hk σ h => ⟨.alloc, ⟨trivial, trivial⟩, h.step_alloc hk⟩
  obtain ⟨σ₂, hσ₂, hstack⟩ := exists_phase ⟨σ₁, hσ₁, hfill.stacked_zero⟩ fun j hj σ h =>
    ⟨_, ⟨(h.step_free hj).1, trivial⟩, (h.step_free hj).2⟩
  exact exists_phase ⟨σ₂, hσ₂, hstack.split_zero⟩ fun i hi σ h =>
    ⟨_, ⟨(h.step_free (by omega)).1, trivial⟩, (h.step_free (by omega)).2⟩

/-- **Pages can be handed out twice**: callers that free only what they hold reach a state in which
two of the ranges handed out share a page. -/
theorem spill_hands_out_twice :
    ¬ ∀ (info : BootInfo) (σ : Sys), Reach (Sys.Booted info) Sys.Legal Sys.step σ →
      σ.held.Nodup := by
  intro hclaim
  obtain ⟨σ, hσ, hsplit⟩ := exists_split maxMixed le_rfl
  refine hsplit.handed_out_twice (hclaim spillMap _ ?_)
  have hlegal : Reach (Sys.Booted spillMap) Sys.Legal Sys.step σ := hσ.mono fun _ _ hok => hok.1
  exact hlegal.calls [Call.alloc, .allocPages 2, .alloc] ⟨trivial, trivial, trivial, trivial⟩

/-- **No page is handed out twice** in any run from `pmm_init` in which callers free only what they
hold and no multi-page allocation is hit by its own spill. -/
theorem held_nodup_of_noSpill (info : BootInfo) {σ : Sys}
    (h : Reach (Sys.Booted info) (fun σ c => σ.Legal c ∧ σ.NoSpill c) Sys.step σ) :
    σ.held.Nodup :=
  (nodup_append.1 (owned_of_reach h).nodup).1

/-- With every mixed block taken, a range of two pages is still safe while the stack is full: the
spill finds no room on it. -/
theorem held_nodup_split :
    ∃ σ, Split maxMixed σ ∧ σ.NoSpill (.allocPages 2) ∧ σ.held.Nodup ∧
      (σ.step (.allocPages 2)).held.Nodup := by
  obtain ⟨σ, hσ, hsplit⟩ := exists_split maxMixed le_rfl
  have hspill : σ.NoSpill (.allocPages 2) := by
    rintro - - ⟨start, -, hsafe⟩
    refine hsafe ⟨fun hhits => ?_, fun hhits => ?_, trivial⟩
    · have := hhits.2.2.2
      simp only [hsplit.single, length_stacked] at this
      omega
    · exact absurd hhits.2.1 (lt_irrefl 0)
  exact ⟨σ, hsplit, hspill, held_nodup_of_noSpill spillMap hσ,
    held_nodup_of_noSpill spillMap (.call _ hσ ⟨trivial, hspill⟩)⟩

end PeakOs.Pmm
