import PeakOs.Pmm.SpillRun

/-!
# No page is lost, and the counters say so

Every page that was free after `pmm_init` is later held, free in the map, on the single-page stack
or on the run list, and `used_pages` is the number of pages held: `Ledger`. The two exceptions are
the branches that are taken when the mixed table is exhausted. A spill takes the pages of its block
off the map, counts each as if it had been in use before, and drops those for which the stack has no
room; a page given back to a block without a slot is dropped if the stack is full.

## Main results

* `Ledger.step` — a call that meets neither branch
* `accounted_of_reach` — every run of such calls
* `spill_loses_pages` — a run in which 62 pages are lost
-/

namespace PeakOs.Pmm

open Finset Function List

/-- The pages that an allocation can still find. -/
def obtainable (s : State) : Finset ℕ :=
  (Finset.range maxPages).filter fun p =>
    pageIsUsed s p = false ∨ p ∈ s.singleFree ∨ p ∈ runPages s.freeRuns

/-- The counters agree with the pages: what is counted free can be obtained, and nothing that was
free at the start is lost. -/
structure Accounted (info : BootInfo) (σ : Sys) : Prop where
  free : pmmFreePages σ.pmm + σ.held.length = pmmTotalPages σ.pmm
  obtainable : (obtainable σ.pmm).card = pmmFreePages σ.pmm
  kept : ∀ p ∈ Pmm.obtainable (pmmInit info), p ∈ σ.held ∨ p ∈ Pmm.obtainable σ.pmm

/-! ### The invariant -/

structure Ledger (all : Finset ℕ) (s : State) (held : List ℕ) : Prop where
  owned : Owned s held
  pages : ∀ p, p ∈ all ↔ pageIsUsed s p = false ∨ p ∈ offMap s held
  claimed : ∀ p ∈ all, s.blockState (p / 64) ≠ .unused
  used : s.usedPages = held.length

variable {all : Finset ℕ} {s : State} {held held' : List ℕ} {p blk b n : ℕ} {info : BootInfo}
    {σ : Sys}

section

variable (h : Ledger all s held)
include h

theorem Ledger.of_perm (hp : held'.Perm held) : Ledger all s held' := by
  have hperm : (offMap s held').Perm (offMap s held) := hp.append_right _
  refine ⟨h.owned.of_perm hp, fun p => ?_, h.claimed, h.used.trans hp.length_eq.symm⟩
  rw [h.pages, hperm.mem_iff]

/-- Pages change their owner, and the map stays as it is. -/
theorem Ledger.moved {t : State}
    (hmap : SameMap s t) (hperm : (offMap t held').Perm (offMap s held))
    (hused : t.usedPages = held'.length) : Ledger all t held' := by
  refine ⟨h.owned.moved hmap hperm, fun p => ?_, fun p hp => ?_, hused⟩
  · rw [h.pages, hperm.mem_iff, hmap.pageIsUsed]
  · rw [hmap.blockState]
    exact h.claimed p hp

theorem Ledger.notMem_of_free (hp : pageIsUsed s p = false) : p ∉ offMap s held := by
  intro hmem
  rw [(h.owned.used p hmem).2] at hp
  exact absurd hp (by decide)

/-- What can be obtained is everything but what is held. -/
theorem Ledger.obtainable_eq : obtainable s = all \ held.toFinset := by
  obtain ⟨-, -, hdisj⟩ := nodup_append.1 h.owned.nodup
  ext p
  rw [obtainable, Finset.mem_filter, Finset.mem_range, mem_sdiff, mem_toFinset, h.pages]
  constructor
  · rintro ⟨-, hfree | hlist⟩
    · exact ⟨.inl hfree, fun hheld => h.notMem_of_free hfree (mem_append_left _ hheld)⟩
    · have hmem := mem_append.2 hlist
      exact ⟨.inr (mem_append_right _ hmem), fun hheld => hdisj p hheld p hmem rfl⟩
  rintro ⟨hfree | hoff, hheld⟩
  · exact ⟨lt_maxPages_of_free hfree, .inl hfree⟩
  refine ⟨(h.owned.used p hoff).1, .inr ?_⟩
  rcases mem_append.1 hoff with hmem | hmem
  · exact absurd hmem hheld
  · exact mem_append.1 hmem

theorem Ledger.card_held : held.toFinset ⊆ all ∧ held.toFinset.card = held.length :=
  ⟨fun p hp => (h.pages p).2 (.inr (mem_append_left _ (mem_toFinset.1 hp))),
    toFinset_card_of_nodup (nodup_append.1 h.owned.nodup).1⟩

theorem Ledger.card_obtainable : (obtainable s).card = all.card - held.length := by
  rw [h.obtainable_eq, card_sdiff_of_subset h.card_held.1, h.card_held.2]

theorem Ledger.pmmFreePages_eq (htotal : s.totalPages = all.card) :
    pmmFreePages s = all.card - held.length := by
  rw [pmmFreePages, h.used]
  split <;> omega

end

theorem Ledger.accounted (h : Ledger all σ.pmm σ.held) (hinit : obtainable (pmmInit info) = all)
    (htotal : σ.pmm.totalPages = all.card) : Accounted info σ := by
  have hle : σ.held.length ≤ all.card := by
    rw [← h.card_held.2]
    exact card_le_card h.card_held.1
  have hfree := h.pmmFreePages_eq htotal
  refine ⟨?_, h.card_obtainable.trans hfree.symm, fun p hp => ?_⟩
  · rw [pmmTotalPages]
    omega
  by_cases hheld : p ∈ σ.held
  · exact .inl hheld
  · rw [h.obtainable_eq, mem_sdiff, mem_toFinset]
    exact .inr ⟨hinit ▸ hp, hheld⟩

/-! ### Allocation -/

/-- No page of the range is marked by a spill. -/
def MarkKeeps : ℕ → ℕ → State → Prop
  | 0, _, _ => True
  | n + 1, page, s =>
    ¬ Spills s page ∧
      MarkKeeps n (page + 1)
        { pageMarkUsed page s with usedPages := (pageMarkUsed page s).usedPages + 1 }

/-- A request that the scan serves is marked without a spill. -/
def MapKeeps (n : ℕ) (s : State) : Prop :=
  ∀ start, findInMap n { s with allocCursor := scanCursor s } = some start →
    MarkKeeps n start { s with allocCursor := scanCursor s }

theorem Ledger.mark (h : Ledger all s held)
    (hfree : pageIsUsed s p = false) (hspill : ¬ Spills s p) :
    Ledger all { pageMarkUsed p s with usedPages := (pageMarkUsed p s).usedPages + 1 } (p :: held) ∧
      ∀ q, pageIsUsed (pageMarkUsed p s) q = (pageIsUsed s q || decide (q = p)) := by
  have hp := lt_maxPages_of_free hfree
  obtain ⟨-, hruns, hsingle, hview⟩ := pageMarkUsed_spec h.owned.slots hp
  rw [if_neg hspill] at hsingle
  have hview' : ∀ q, pageIsUsed (pageMarkUsed p s) q = (pageIsUsed s q || decide (q = p)) := by
    intro q
    rcases lt_or_ge q maxPages with hq | hq
    · rw [hview q hq]
      simp [hspill]
    · rw [pageIsUsed_of_ge hq, pageIsUsed_of_ge hq, Bool.true_or]
  obtain ⟨hown, -⟩ := @pageMarkUsed_owned s held p 0 h.owned hp
    (fun q hq => by
      rw [range'_one, List.mem_singleton] at hq
      exact hq ▸ h.notMem_of_free hfree)
    (fun hhit => hspill hhit.1)
  have hoff : offMap (pageMarkUsed p s) (p :: held) = p :: offMap s held := by
    simp [offMap, hsingle, hruns]
  refine ⟨⟨⟨hown.slots.congr rfl rfl rfl, hown.nodup, hown.used⟩,
    fun q => ?_, fun q hq hun => ?_, ?_⟩, hview'⟩
  · show q ∈ all ↔ pageIsUsed (pageMarkUsed p s) q = false ∨
      q ∈ offMap (pageMarkUsed p s) (p :: held)
    rw [h.pages, hoff, hview']
    by_cases hqp : q = p
    · subst hqp
      simp [hfree]
    · simp [hqp]
  · exact h.claimed q hq ((pageMarkUsed_steady hspill).claimed _ hun)
  · show (pageMarkUsed p s).usedPages + 1 = held.length + 1
    rw [(pageMarkUsed_steady hspill).used, h.used]

theorem Ledger.markRange : ∀ (n start : ℕ) {s : State} {held : List ℕ},
    Ledger all s held → (∀ q ∈ range' start n, pageIsUsed s q = false) → MarkKeeps n start s →
    Ledger all (markRange n start s) (range' start n ++ held) := by
  intro n
  induction n with
  | zero => exact fun _ _ _ h _ _ => h
  | succ n ih =>
    intro start s held h hfree hkeep
    rw [range'_succ] at hfree ⊢
    obtain ⟨hmark, hview⟩ := h.mark (hfree start (List.mem_cons_self ..)) hkeep.1
    refine (ih (start + 1) hmark (fun q hq => ?_) hkeep.2).of_perm perm_middle.symm
    have hne : q ≠ start := by
      rw [mem_range'_1] at hq
      omega
    show pageIsUsed (pageMarkUsed start s) q = false
    rw [hview, hfree q (List.mem_cons_of_mem _ hq)]
    simp [hne]

theorem Ledger.allocFromMap (h : Ledger all s held) (hkeep : MapKeeps n s) :
    Ledger all (allocFromMap n s).2 (grantedPages n (allocFromMap n s).1 ++ held) := by
  have h' : Ledger all { s with allocCursor := scanCursor s } held :=
    h.moved ⟨rfl, rfl, rfl, rfl⟩ (List.Perm.refl _) h.used
  rw [Pmm.allocFromMap]
  dsimp only
  rcases hfind : findInMap n { s with allocCursor := scanCursor s } with _ | start
  · exact h'
  have hmark := h'.markRange n start (findInMap_free hfind) (hkeep start hfind)
  simp only [grantedPages_mul]
  exact hmark.moved ⟨rfl, rfl, rfl, rfl⟩ (List.Perm.refl _) hmark.used

/-- A request for `n` pages that gets as far as the map is marked without a spill. -/
def AllocKeeps (n : ℕ) (s : State) : Prop :=
  (n = 1 → s.singleFree = []) → (2 ≤ n → findRun s.freeRuns n = none) → MapKeeps n s

theorem takeRun_counters (n i : ℕ) (r : PmmRun) (s : State) :
    (takeRun n i r s).totalPages = s.totalPages ∧
      (takeRun n i r s).usedPages = s.usedPages + n := by
  rw [takeRun]
  split
  · exact ⟨rfl, rfl⟩
  · split <;> exact ⟨rfl, rfl⟩

theorem Ledger.allocPages (h : Ledger all s held) (hkeep : AllocKeeps n s) :
    Ledger all (pmmAllocPages n s).2 (grantedPages n (pmmAllocPages n s).1 ++ held) := by
  rcases pmmAllocPages_cases n s with ⟨-, heq⟩ | ⟨pg, rest, rfl, hsingle, heq⟩ |
    ⟨i, r, -, hr, hn, heq⟩ | ⟨-, hsingle, hfind, heq⟩ <;> rw [heq]
  · exact h
  · rw [grantedPages_mul]
    exact h.moved ⟨rfl, rfl, rfl, rfl⟩ (popSingle_perm hsingle held _) (congrArg (· + 1) h.used)
  · rw [grantedPages_mul]
    refine h.moved (takeRun_sameMap n i r s) (takeRun_perm held hr hn) ?_
    rw [(takeRun_counters n i r s).2, h.used, length_append, length_range', add_comm]
  · exact h.allocFromMap (hkeep hsingle hfind)

/-! ### Release -/

/-- No page of a range is lost while it is given back to the map. -/
def FreeKeeps : ℕ → ℕ → State → Prop
  | 0, _, _ => True
  | n + 1, page, s =>
    ¬ FreeLoses s page ∧
      FreeKeeps n (page + 1)
        { pageMarkFree page s with usedPages := (pageMarkFree page s).usedPages - 1 }

theorem Ledger.unmark (h : Ledger all s (p :: held)) (hkeep : ¬ FreeLoses s p) :
    Ledger all { pageMarkFree p s with usedPages := (pageMarkFree p s).usedPages - 1 } held := by
  have hmem : p ∈ offMap s (p :: held) := List.mem_cons_self ..
  obtain ⟨hp, hu⟩ := h.owned.used p hmem
  have hown := pageMarkFree_owned h.owned
  have hpages : ∀ q, q ∈ all ↔ pageIsUsed (pageMarkFree p s) q = false ∨
      q ∈ offMap (pageMarkFree p s) held := by
    intro q
    obtain ⟨-, hruns, ⟨hsingle, hview⟩ | ⟨hsingle, -, hview⟩ | ⟨-, hlost⟩⟩ :=
      pageMarkFree_spec h.owned.slots hp hu
    · have hoff : offMap s (p :: held) = p :: offMap (pageMarkFree p s) held := by
        simp [offMap, hsingle, hruns]
      rw [h.pages, hoff, List.mem_cons]
      rcases lt_or_ge q maxPages with hq | hq
      · rw [hview q hq, Bool.and_eq_false_iff, Bool.not_eq_false', decide_eq_true_iff, or_assoc]
      have hne : q ≠ p := by omega
      rw [pageIsUsed_of_ge hq, pageIsUsed_of_ge hq]
      simp [hne]
    · have hperm : (offMap s (p :: held)).Perm (offMap (pageMarkFree p s) held) := by
        refine perm_iff_count.2 fun x => ?_
        simp only [offMap, hsingle, hruns, count_append, count_cons]
        omega
      rw [h.pages, hperm.mem_iff]
      rcases lt_or_ge q maxPages with hq | hq
      · rw [hview q hq]
      · rw [pageIsUsed_of_ge hq, pageIsUsed_of_ge hq]
    rcases hlost with hunused | hlost
    · exact absurd hunused (h.claimed p ((h.pages p).2 (.inr hmem)))
    · exact absurd hlost hkeep
  refine ⟨⟨hown.slots.congr rfl rfl rfl, hown.nodup, hown.used⟩, hpages,
    fun q hq hun => h.claimed q hq ((pageMarkFree_steady s p).claimed _ hun), ?_⟩
  rw [(pageMarkFree_steady s p).used, h.used, length_cons, Nat.add_sub_cancel]

theorem Ledger.freeToMap : ∀ (n p : ℕ) {s : State} {held : List ℕ},
    Ledger all s (range' p n ++ held) → FreeKeeps n p s → Ledger all (freeToMap n p s) held := by
  intro n
  induction n with
  | zero => exact fun _ _ _ h _ => h
  | succ n ih =>
    intro p s held h hkeep
    rw [range'_succ, cons_append] at h
    obtain ⟨hp, hu⟩ := h.owned.used p (List.mem_cons_self ..)
    rw [Pmm.freeToMap, if_neg (Nat.not_le.2 hp), if_pos hu]
    exact ih (p + 1) (h.unmark hkeep.1) hkeep.2

/-- A range that is given back to the map is not lost there. -/
def ReleaseKeeps (phys n : ℕ) (s : State) : Prop :=
  n = 1 ∨ pmmFreeRuns ≤ s.freeRuns.length → FreeKeeps n (phys / pageSize) s

theorem Ledger.freeN {phys : ℕ}
    (h : Ledger all s (range' (phys / pageSize) n ++ held)) (hkeep : ReleaseKeeps phys n s) :
    Ledger all (pmmFreeN phys n s) held := by
  have hused := h.used
  rw [length_append, length_range'] at hused
  rcases pmmFreeN_cases h.owned with ⟨hn, heq⟩ | ⟨hn, heq⟩ | heq | ⟨hn, heq⟩
  · subst hn
    exact h
  · subst hn
    rw [heq]
    refine h.moved ⟨rfl, rfl, rfl, rfl⟩ (pushSingle_perm s held _ _) ?_
    show s.usedPages - 1 = _
    omega
  · rw [heq]
    refine h.moved ⟨rfl, rfl, rfl, rfl⟩ (pushRun_perm s held _ _ _) ?_
    show (if n < s.usedPages then s.usedPages - n else 0) = _
    split <;> omega
  · rw [heq]
    exact h.freeToMap n _ (hkeep (hn.imp And.left And.right))

/-! ### Runs -/

/-- The call meets neither of the two branches that lose pages. -/
def Sys.NoLoss (σ : Sys) : Call → Prop
  | .alloc => AllocKeeps 1 σ.pmm
  | .allocPages n => AllocKeeps n σ.pmm
  | .free phys => ReleaseKeeps phys 1 σ.pmm
  | .freeN phys n => ReleaseKeeps phys n σ.pmm

/-- **One call.** -/
theorem Ledger.step (h : Ledger all σ.pmm σ.held) {c : Call}
    (hlegal : σ.Legal c) (hloss : σ.NoLoss c) : Ledger all (σ.step c).pmm (σ.step c).held := by
  rcases c with _ | n | phys | ⟨phys, n⟩
  · exact h.allocPages hloss
  · exact h.allocPages hloss
  all_goals exact (h.of_perm (append_diff_perm nodup_range' hlegal)).freeN hloss

theorem markRange_totalPages (n start : ℕ) (s : State) :
    (markRange n start s).totalPages = s.totalPages := by
  induction n generalizing start s with
  | zero => rfl
  | succ n ih =>
    rw [markRange, ih]
    exact (pageMarkUsed_counters s start).1

theorem freeToMap_totalPages (n p : ℕ) (s : State) :
    (freeToMap n p s).totalPages = s.totalPages := by
  induction n generalizing p s with
  | zero => rfl
  | succ n ih =>
    rw [freeToMap]
    split_ifs
    · rfl
    · rw [ih]
      exact (pageMarkFree_steady s p).total
    · exact ih ..

theorem allocFromMap_totalPages (n : ℕ) (s : State) :
    (allocFromMap n s).2.totalPages = s.totalPages := by
  rw [allocFromMap]
  split
  · rfl
  · exact markRange_totalPages ..

theorem pmmAllocPages_totalPages (n : ℕ) (s : State) :
    (pmmAllocPages n s).2.totalPages = s.totalPages := by
  rcases pmmAllocPages_cases n s with ⟨-, heq⟩ | ⟨pg, rest, -, -, heq⟩ | ⟨i, r, -, -, -, heq⟩ |
    ⟨-, -, -, heq⟩ <;> rw [heq]
  · exact (takeRun_counters n i r s).1
  · exact allocFromMap_totalPages n s

theorem pmmFreeN_totalPages (phys n : ℕ) (s : State) :
    (pmmFreeN phys n s).totalPages = s.totalPages := by
  rw [pmmFreeN]
  split_ifs
  · rfl
  · rfl
  · rfl
  · rfl
  · rfl
  · exact freeToMap_totalPages ..

/-- The number of pages is settled by `pmm_init`. -/
theorem Sys.step_totalPages (σ : Sys) (c : Call) :
    (σ.step c).pmm.totalPages = σ.pmm.totalPages := by
  rcases c with _ | n | phys | ⟨phys, n⟩
  · exact pmmAllocPages_totalPages ..
  · exact pmmAllocPages_totalPages ..
  all_goals exact pmmFreeN_totalPages ..

theorem ledger_init
    (h : ∀ p, pageIsUsed (pmmInit info) p = false ↔ p ∈ all) : Ledger all (pmmInit info) [] where
  owned := owned_init info
  pages := fun p => by
    rw [← h]
    simp [offMap, pmmInit, runPages]
  claimed := fun p hp hun => by
    have hfree := (h p).2 hp
    rw [pageIsUsed_of_lt (lt_maxPages_of_free hfree)] at hfree
    simp [blockUsed, hun] at hfree
  used := rfl

/-- **The accounts of the page allocator** are right in every run that starts from a memory map
without overlaps, in which callers free only what they hold, and in which no call meets one of the
two branches. -/
theorem accounted_of_reach (info : BootInfo) (hmap : MapOk info) {σ : Sys}
    (h : Reach (Sys.Booted info) (fun σ c => σ.Legal c ∧ σ.NoLoss c) Sys.step σ) :
    Accounted info σ := by
  obtain ⟨all, hfree, htotal⟩ := pmmInit_totalPages hmap
  have hinit := ledger_init hfree
  have hall : obtainable (pmmInit info) = all := by
    rw [hinit.obtainable_eq, toFinset_nil, sdiff_empty]
  suffices hinv : Ledger all σ.pmm σ.held ∧ σ.pmm.totalPages = all.card from
    hinv.1.accounted hall hinv.2
  refine Reach.invariant (fun σ : Sys => Ledger all σ.pmm σ.held ∧ σ.pmm.totalPages = all.card)
    ?_ ?_ h
  · rintro s rfl
    exact ⟨hinit, htotal⟩
  · rintro s c ⟨hledger, hcount⟩ ⟨hlegal, hloss⟩
    exact ⟨hledger.step hlegal hloss, (s.step_totalPages c).trans hcount⟩

theorem mapOk_spillMap : MapOk spillMap where
  length := by decide
  disjoint := by simp [spillMap]

/-- A single page is marked without a spill as long as the mixed table has a slot. -/
theorem noLoss_alloc (h : σ.pmm.mixedFreeStack ≠ []) : σ.NoLoss .alloc :=
  fun _ _ _ _ => ⟨fun hspill => h hspill.2.2, trivial⟩

theorem accounted_first_page :
    256 ∈ ((⟨pmmInit spillMap, []⟩ : Sys).step .alloc).held ∧
      Accounted spillMap ((⟨pmmInit spillMap, []⟩ : Sys).step .alloc) := by
  have hslot : (pmmInit spillMap).mixedFreeStack ≠ [] := fun hempty => by
    have hlen := congrArg length fresh_init.stack
    rw [hempty, length_reverse, length_range] at hlen
    exact absurd hlen (by decide)
  have hloss : (⟨pmmInit spillMap, []⟩ : Sys).NoLoss .alloc := noLoss_alloc hslot
  exact ⟨(filling_zero.step_alloc (by decide)).held 256 le_rfl (by decide),
    accounted_of_reach spillMap mapOk_spillMap (.call Call.alloc
      (.start (show Sys.Booted spillMap ⟨pmmInit spillMap, []⟩ from rfl)) ⟨trivial, hloss⟩)⟩

/-! ### Lost pages -/

/-- With the mixed table and the stack exhausted, a request for two pages of the last free block
takes the whole block off the map. -/
theorem Split.allocPages_two (h : Split maxMixed σ) (hslots : SlotsOk σ.pmm) :
    let τ := σ.step (.allocPages 2)
    τ.held.length = σ.held.length + 2 ∧ τ.pmm.singleFree = σ.pmm.singleFree ∧
      τ.pmm.freeRuns = σ.pmm.freeRuns ∧ ∀ q < maxPages, pageIsUsed τ.pmm q = false →
      pageIsUsed σ.pmm q = false ∧ q / 64 ≠ 4100 := by
  dsimp only
  obtain ⟨s, held⟩ := σ
  obtain ⟨-, hlast, hstack, hhigh, hsingle, hruns, hcur, -⟩ := h
  have hempty : s.mixedFreeStack = [] := eq_nil_of_length_eq_zero (by rw [hstack]; decide)
  have hspill : Spills s (64 * 4100) := ⟨by decide, by simpa [pagesPerBlock] using hlast, hempty⟩
  have hfull : pmmSingleStack - s.singleFree.length = 0 := by
    rw [hsingle, stacked, length_reverse, length_map, length_range, Nat.sub_self]
  obtain ⟨-, hruns', hsingle', hview⟩ := pageMarkUsed_spec hslots hspill.1
  rw [if_pos hspill, spilledPages, hfull, take_zero, map_nil, reverse_nil, nil_append] at hsingle'
  have hstep : (⟨s, held⟩ : Sys).step (.allocPages 2) =
      ⟨{ pageMarkUsed (64 * 4100) s with
          usedPages := (pageMarkUsed (64 * 4100) s).usedPages + 1 + 1
          allocCursor := 64 * 4100 + 2 },
        range' (64 * 4100) 2 ++ held⟩ := by
    simp only [Sys.step, pmmAllocPages_last hlast hhigh hruns hcur,
      markRange_two (pageMarkUsed_spill hspill).2, grantedPages,
      Nat.mul_div_cancel (64 * 4100) (by decide : 0 < pageSize)]
  rw [hstep]
  refine ⟨by simp [add_comm], hsingle', hruns', fun q hq hfree => ?_⟩
  have hfree' : pageIsUsed (pageMarkUsed (64 * 4100) s) q = false := hfree
  rw [hview q hq, Bool.or_eq_false_iff, Bool.or_eq_false_iff, decide_eq_false_iff_not,
    decide_eq_false_iff_not] at hfree'
  exact ⟨hfree'.1.1, fun hq => hfree'.2 ⟨hspill, hq⟩⟩

/-- **Lost pages**: a request for two pages takes 64 from the pages that can be obtained. -/
theorem spill_loses_pages :
    ¬ ∀ (info : BootInfo) (σ : Sys), Reach (Sys.Booted info) Sys.Legal Sys.step σ →
      Accounted info σ := by
  intro hclaim
  obtain ⟨σ, hσ, hsplit⟩ := exists_split maxMixed le_rfl
  have hlegal : Reach (Sys.Booted spillMap) Sys.Legal Sys.step σ := hσ.mono fun _ _ hok => hok.1
  have hbefore := hclaim spillMap σ hlegal
  have hafter := hclaim spillMap (σ.step (.allocPages 2)) (.call (Call.allocPages 2) hlegal trivial)
  obtain ⟨hheld, hsingle, hruns, hview⟩ := hsplit.allocPages_two (owned_of_reach hσ).slots
  -- the pages of the last block could be obtained before, and cannot any more
  have hblock : Finset.Ico (64 * 4100) (64 * 4101) ⊆ obtainable σ.pmm := by
    intro q hq
    rw [mem_Ico] at hq
    have hq' : q / 64 = 4100 := by omega
    have hmax : q < maxPages := by simp only [maxPages]; omega
    rw [obtainable, Finset.mem_filter, Finset.mem_range, pageIsUsed_of_lt hmax]
    refine ⟨hmax, .inl ?_⟩
    simp [blockUsed, hq', hsplit.last]
  have hsub : obtainable (σ.step (.allocPages 2)).pmm ⊆
      obtainable σ.pmm \ Finset.Ico (64 * 4100) (64 * 4101) := by
    intro q hq
    rw [obtainable, Finset.mem_filter, Finset.mem_range, hsingle, hruns] at hq
    obtain ⟨hmax, hfree | hlist⟩ := hq
    · obtain ⟨hold, hne⟩ := hview q hmax hfree
      rw [mem_sdiff, obtainable, Finset.mem_filter, Finset.mem_range, mem_Ico]
      exact ⟨⟨hmax, .inl hold⟩, by omega⟩
    rw [mem_sdiff, obtainable, Finset.mem_filter, Finset.mem_range, mem_Ico]
    refine ⟨⟨hmax, .inr hlist⟩, fun hq => ?_⟩
    rw [hsplit.single, hsplit.runs, mem_stacked] at hlist
    obtain ⟨i, hi, heq⟩ | hrun := hlist
    · have hi' : i < 2048 := hi
      omega
    · exact absurd hrun not_mem_nil
  have hcard := card_le_card hsub
  rw [card_sdiff_of_subset hblock, Nat.card_Ico] at hcard
  have hroom := card_le_card hblock
  rw [Nat.card_Ico] at hroom
  have h1 := hbefore.free
  have h2 := hafter.free
  rw [← hbefore.obtainable] at h1
  rw [← hafter.obtainable, pmmTotalPages, Sys.step_totalPages] at h2
  rw [pmmTotalPages] at h1
  omega

end PeakOs.Pmm
