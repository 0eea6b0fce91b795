import PeakOs.Pmm.Accounting
import PeakOs.Pmm.BootMap

/-!
# When an allocation finds free pages

A free page is recorded in the map, on the stack of single pages or on the run list, and a request
does not look everywhere: one page is not taken from the run list, several are not put together from
single pages or from neighbouring runs, and no pass over the map crosses the cursor. `Served` says
where a request of `n` pages looks, and a request fails exactly if there is nothing there.

As long as pages are given back to the two lists and not to the map, the page below the cursor stays
marked used, so that nothing that is free in the map crosses the cursor (`Swept`). Then a request
misses only what is on a list it does not look at.

## Main results

* `pmmAllocPages_eq_none_iff` — when a request fails
* `Swept.step` — what a call does to the cursor
* `complete_of_reach` — when a failed request means that there are no free pages
-/

namespace PeakOs.Pmm

open List

variable {s : State} {n stop start p : ℕ}

/-- `n` pages that are free in the map, on one side of the cursor. -/
def InMap (s : State) (n : ℕ) : Prop :=
  ∃ p, (∀ q ∈ List.range' p n, pageIsUsed s q = false) ∧
    (scanCursor s ≤ p ∧ p + n ≤ scanLimit s ∨ 256 ≤ p ∧ p + n ≤ scanCursor s)

/-- There are `n` pages where a request for `n` pages looks. -/
def Served (s : State) (n : ℕ) : Prop :=
  n = 1 ∧ s.singleFree ≠ [] ∨ 2 ≤ n ∧ (∃ r ∈ s.freeRuns, n ≤ r.n) ∨ InMap s n

/-- A request fails only if there are no free pages for it, wherever their freeness is recorded. -/
structure Complete (s : State) : Prop where
  alloc : (pmmAlloc s).1 = none → pmmFreePages s = 0
  pages : ∀ n > 0, (pmmAllocPages n s).1 = none →
    ¬ ∃ p, ∀ q ∈ List.range' p n, q ∈ obtainable s

/-! ### The scan -/

theorem firstUsed_eq_some : ∀ {count i j : ℕ}, firstUsed s start i count = some j →
    j < i + count ∧ pageIsUsed s ((start + j) % 2 ^ 64) = true := by
  intro count
  induction count with
  | zero => exact fun h => nomatch h
  | succ count ih =>
    intro i j h
    rw [firstUsed] at h
    split at h
    · cases h
      exact ⟨by omega, ‹_›⟩
    · obtain ⟨hlt, hused⟩ := ih h
      exact ⟨by omega, hused⟩

/-- **One pass** finds free pages if there are any in its range, and only these. -/
theorem scanMap_isSome_iff (hstop : stop < 2 ^ 64) (hn : 0 < n) :
    (scanMap s n stop start).isSome ↔
      ∃ p, (∀ q ∈ range' p n, pageIsUsed s q = false) ∧ start ≤ p ∧ p + n ≤ stop := by
  constructor
  · intro h
    obtain ⟨p, hp⟩ := Option.isSome_iff_exists.1 h
    have hfree := scanMap_free hp
    refine ⟨p, hfree, ?_⟩
    have hlast := lt_maxPages_of_free (hfree (p + n - 1) (by rw [mem_range'_1]; omega))
    have hmax : maxPages < 2 ^ 63 := by decide
    clear h
    induction start using scanMap.induct s n stop with
    | case1 start hcond hnone =>
      rw [scanMap, dif_pos hcond, hnone] at hp
      cases hp
      rw [Nat.mod_eq_of_lt (by omega)] at hcond
      exact ⟨le_rfl, hcond.2⟩
    | case2 start hcond i hused ih =>
      rw [scanMap, dif_pos hcond, hused] at hp
      obtain ⟨hle, hend⟩ := ih hp
      exact ⟨by omega, hend⟩
    | case3 start hcond =>
      rw [scanMap, dif_neg hcond] at hp
      cases hp
  rintro ⟨p, hfree, hle, hend⟩
  induction start using scanMap.induct s n stop with
  | case1 start hcond hnone =>
    rw [scanMap, dif_pos hcond, hnone]
    rfl
  | case2 start hcond i hused ih =>
    rw [scanMap, dif_pos hcond, hused]
    obtain ⟨hlt, hpage⟩ := firstUsed_eq_some hused
    refine ih ?_
    -- the page the pass stopped at is not one of the free ones
    by_contra hlow
    rw [Nat.mod_eq_of_lt (by omega), hfree _ (by rw [mem_range'_1]; omega)] at hpage
    cases hpage
  | case3 start hcond =>
    exact absurd ⟨by omega, by rw [Nat.mod_eq_of_lt (by omega)]; omega⟩ hcond

/-- **The scan** finds a range if there is one that it looks at. -/
theorem findInMap_isSome_iff (hn : 0 < n) : (findInMap n s).isSome ↔ InMap s n := by
  have hlimit : scanLimit s ≤ maxPages := min_le_right _ _
  have hmax : maxPages < 2 ^ 63 := by decide
  have hcursor : scanCursor s ≤ max 256 maxPages := by
    rw [scanCursor]
    split <;> omega
  simp only [InMap, and_or_left, exists_or,
    ← scanMap_isSome_iff (by omega : scanLimit s < 2 ^ 64) hn,
    ← scanMap_isSome_iff (by omega : scanCursor s < 2 ^ 64) hn]
  rw [findInMap]
  cases scanMap s n (scanLimit s) (scanCursor s) <;> simp

theorem allocFromMap_eq_none_iff (hn : 0 < n) : (allocFromMap n s).1 = none ↔ ¬ InMap s n := by
  have hcursor : scanCursor { s with allocCursor := scanCursor s } = scanCursor s := by
    simp only [scanCursor, scanLimit]
    grind
  have hfind := findInMap_isSome_iff (s := { s with allocCursor := scanCursor s }) hn
  rw [InMap, hcursor] at hfind
  change _ ↔ InMap s n at hfind
  rw [← hfind, allocFromMap]
  dsimp only
  cases findInMap n { s with allocCursor := scanCursor s } <;> simp

/-- **A request fails** exactly if there is nothing where it looks. -/
theorem pmmAllocPages_eq_none_iff (hn : 0 < n) : (pmmAllocPages n s).1 = none ↔ ¬ Served s n := by
  rcases pmmAllocPages_cases n s with ⟨rfl, -⟩ | ⟨pg, rest, rfl, hsingle, heq⟩ |
    ⟨i, r, hge, hr, hle, heq⟩ | ⟨-, hsingle, hfind, heq⟩
  · exact absurd hn (lt_irrefl 0)
  · simp [heq, Served, hsingle]
  · rw [heq]
    simp only [reduceCtorEq, false_iff, not_not]
    exact .inr (.inl ⟨hge, r, mem_of_getElem? hr, hle⟩)
  have hruns : 2 ≤ n → ¬ ∃ r ∈ s.freeRuns, n ≤ r.n := fun hge => by
    simpa [findRun, findIdx?_eq_none_iff] using hfind hge
  rw [heq, allocFromMap_eq_none_iff hn, Served]
  simp only [not_or, not_and, not_not]
  exact ⟨fun h => ⟨hsingle, hruns, h⟩, fun h => h.2.2⟩

/-! ### The cursor -/

/-- What is free in the map is managed, and does not cross the cursor. -/
structure Swept (s : State) : Prop where
  managed : ∀ p, pageIsUsed s p = false → 256 ≤ p ∧ p < scanLimit s
  cursor : pageIsUsed s (s.allocCursor - 1) = true

/-- Free pages lie where the scan looks. -/
theorem Swept.inMap (h : Swept s) (hn : 0 < n)
    (hfree : ∀ q ∈ range' p n, pageIsUsed s q = false) : InMap s n := by
  have hfirst := h.managed p (hfree p (by rw [mem_range'_1]; omega))
  have hlast := h.managed (p + n - 1) (hfree _ (by rw [mem_range'_1]; omega))
  refine ⟨p, hfree, ?_⟩
  rw [scanCursor]
  split
  · omega
  by_contra hcross
  -- the page below the cursor would be one of the free ones
  have hbelow := hfree (s.allocCursor - 1) (by rw [mem_range'_1]; omega)
  rw [h.cursor] at hbelow
  cases hbelow

theorem Swept.moved {t : State} (h : Swept s) (hmap : SameMap s t)
    (hhigh : t.highestPage = s.highestPage) (hcursor : t.allocCursor = s.allocCursor) :
    Swept t where
  managed p hp := by
    rw [hmap.pageIsUsed] at hp
    rw [scanLimit, hhigh]
    exact h.managed p hp
  cursor := by rw [hmap.pageIsUsed, hcursor, h.cursor]

/-- The marked pages are used, and no other page becomes free. -/
theorem markRange_free : ∀ (n start : ℕ) {s : State}, SlotsOk s → start + n ≤ maxPages →
    (markRange n start s).highestPage = s.highestPage ∧
      ∀ q, pageIsUsed (markRange n start s) q = false →
        pageIsUsed s q = false ∧ q ∉ range' start n := by
  intro n
  induction n with
  | zero => exact fun _ _ _ _ => ⟨rfl, fun q hq => ⟨hq, by simp⟩⟩
  | succ n ih =>
    intro start s hs hmax
    obtain ⟨hslots, -, -, hview⟩ := pageMarkUsed_spec hs (show start < maxPages by omega)
    obtain ⟨hhigh, hfree⟩ := ih (start + 1) (s := { pageMarkUsed start s with
      usedPages := (pageMarkUsed start s).usedPages + 1 }) (hslots.congr rfl rfl rfl) (by omega)
    refine ⟨hhigh.trans (pageMarkUsed_counters s start).2, fun q hq => ?_⟩
    obtain ⟨hq, hmem⟩ := hfree q hq
    have hused : pageIsUsed (pageMarkUsed start s) q = false := hq
    rw [hview q (lt_maxPages_of_free hused), Bool.or_eq_false_iff, Bool.or_eq_false_iff,
      decide_eq_false_iff_not] at hused
    exact ⟨hused.1.1, by simp [range'_succ, hused.1.2, hmem]⟩

theorem Swept.allocFromMap (h : Swept s) (hs : SlotsOk s) (hn : 0 < n) :
    Swept (allocFromMap n s).2 := by
  have hcursor : pageIsUsed s (scanCursor s - 1) = true := by
    rw [scanCursor]
    split
    · by_contra hfree
      exact absurd (h.managed _ (Bool.eq_false_iff.2 hfree)).1 (by decide)
    · exact h.cursor
  rw [Pmm.allocFromMap]
  dsimp only
  rcases hfind : findInMap n { s with allocCursor := scanCursor s } with _ | start
  · exact ⟨h.managed, hcursor⟩
  have hpages := findInMap_free hfind
  have hlast := lt_maxPages_of_free (hpages (start + n - 1) (by rw [mem_range'_1]; omega))
  obtain ⟨hhigh, hfree⟩ := markRange_free n start (s := { s with allocCursor := scanCursor s })
    (hs.congr rfl rfl rfl) (by omega)
  refine ⟨fun p hp => ?_, ?_⟩
  · have hlimit : scanLimit (markRange n start { s with allocCursor := scanCursor s }) =
        scanLimit s := by rw [scanLimit, hhigh, scanLimit]
    exact hlimit ▸ h.managed p (hfree p hp).1
  · by_contra hlow
    have := (hfree (start + n - 1) (Bool.eq_false_iff.2 hlow)).2
    rw [mem_range'_1] at this
    omega

/-- **`pmm_alloc_pages`** leaves no free page behind the scan. -/
theorem Swept.allocPages (h : Swept s) (hs : SlotsOk s) : Swept (pmmAllocPages n s).2 := by
  rcases pmmAllocPages_cases n s with ⟨-, heq⟩ | ⟨pg, rest, rfl, hsingle, heq⟩ |
    ⟨i, r, -, hr, hle, heq⟩ | ⟨hn, hsingle, hfind, heq⟩ <;> rw [heq]
  · exact h
  · exact h.moved ⟨rfl, rfl, rfl, rfl⟩ rfl rfl
  · refine h.moved (takeRun_sameMap n i r s) ?_ ?_ <;> rw [takeRun] <;> split_ifs <;> rfl
  · exact h.allocFromMap hs hn

/-! ### Runs -/

/-- What is given back finds room on its list. -/
def Sys.Room (σ : Sys) : Call → Prop
  | .alloc | .allocPages _ => True
  | .free _ => σ.pmm.singleFree.length < pmmSingleStack
  | .freeN _ n => if n = 1 then σ.pmm.singleFree.length < pmmSingleStack
      else σ.pmm.freeRuns.length < pmmFreeRuns

/-- **`pmm_free_n`** with room on the lists leaves the map alone. -/
theorem Swept.freeN {phys : ℕ} {held : List ℕ} (h : Swept s)
    (hown : Owned s (range' (phys / pageSize) n ++ held))
    (hroom : if n = 1 then s.singleFree.length < pmmSingleStack
      else s.freeRuns.length < pmmFreeRuns) : Swept (pmmFreeN phys n s) := by
  rcases pmmFreeN_cases hown with ⟨-, heq⟩ | ⟨-, heq⟩ | heq | ⟨hfull, -⟩
  · rwa [heq]
  · rw [heq]
    exact h.moved ⟨rfl, rfl, rfl, rfl⟩ rfl rfl
  · rw [heq]
    exact h.moved ⟨rfl, rfl, rfl, rfl⟩ rfl rfl
  · rcases hfull with ⟨hn, hfull⟩ | ⟨hn, hfull⟩ <;>
      simp only [hn, if_true, if_false] at hroom <;> omega

/-- **One call.** -/
theorem Swept.step {σ : Sys} (h : Swept σ.pmm) (hown : Owned σ.pmm σ.held) {c : Call}
    (hlegal : σ.Legal c) (hroom : σ.Room c) : Swept (σ.step c).pmm := by
  rcases c with _ | n | phys | ⟨phys, n⟩
  · exact h.allocPages hown.slots
  · exact h.allocPages hown.slots
  · exact h.freeN (hown.of_perm (append_diff_perm nodup_range' hlegal)) (by rwa [if_pos rfl])
  · exact h.freeN (hown.of_perm (append_diff_perm nodup_range' hlegal)) hroom

/-- A map in ascending order. -/
theorem swept_init {info : BootInfo} (hlen : info.mmap.length ≤ peakMmapMax)
    (hasc : Ascending info) : Swept (pmmInit info) where
  managed p hp := by
    rw [pageIsUsed_pmmInit hlen] at hp
    exact ⟨hp.1, hasc.managed hp⟩
  cursor := by
    by_contra hfree
    have hlow : 256 ≤ 256 - 1 := ((pageIsUsed_pmmInit hlen _).1 (Bool.eq_false_iff.2 hfree)).1
    omega

theorem ascending_spillMap : Ascending spillMap := by simp [Ascending, spillMap]

theorem Filling.slots {k : ℕ} {σ : Sys} (h : Filling k σ) : σ.pmm.mixedFreeStack ≠ [] :=
  h.table.stack_ne_nil (by rw [Finset.card_singleton]; decide)

/-- The first page that was handed out goes to the stack, and is the next to be handed out. -/
theorem Filling.step_free {σ : Sys} (h : Filling 1 σ) :
    let c := Call.free (256 * pageSize)
    (σ.Legal c ∧ σ.NoLoss c ∧ σ.Room c) ∧ (σ.step c).NoLoss .alloc ∧
      (σ.step c).pmm.singleFree = [256] ∧ 256 ∈ ((σ.step c).step .alloc).held ∧
      ((σ.step c).step .alloc).pmm.singleFree = [] ∧
      ((σ.step c).step .alloc).pmm.freeRuns = [] := by
  have hoff : pmmPageOnFreelist σ.pmm 256 = false := by simp [pmmPageOnFreelist, h.single, h.runs]
  have hroom : σ.pmm.singleFree.length < pmmSingleStack := by rw [h.single]; decide
  have hused : pageIsUsed σ.pmm 256 = true := by rw [h.pages 256 (by decide) (by decide)]; decide
  have hfree := pmmFree_eq (s := σ.pmm) (p := 256) (by decide) hoff
  rw [if_pos ⟨hroom, hused⟩, h.single] at hfree
  have hpop := @pmmAllocPages_single
    { σ.pmm with singleFree := [256], usedPages := σ.pmm.usedPages - 1 } 256 [] rfl
  simp only [Sys.step, hfree, pmmAlloc, hpop, grantedPages_mul]
  exact ⟨⟨legal_free (h.held 256 le_rfl (by decide)),
    fun _ => ⟨fun hl => absurd hroom (not_lt.2 hl.2.2), trivial⟩, hroom⟩, noLoss_alloc h.slots,
    trivial, by simp, trivial, h.runs⟩

/-- Two usable pages. -/
def twoPages : BootInfo := ⟨0, [⟨256 * 4096, 2 * 4096, .usable⟩]⟩

def bothTaken : State := { markRange 2 256 (pmmInit twoPages) with allocCursor := 258 }

/-- Both pages are given back together. -/
def bothBack : State := pmmFreeN (256 * 4096) 2 bothTaken

end PeakOs.Pmm
