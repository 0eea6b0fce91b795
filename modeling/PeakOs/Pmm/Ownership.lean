import PeakOs.Lib.RowMap
import PeakOs.Lib.Transition
import PeakOs.Pmm.Map

/-!
# Who owns a page

`Sys` is the allocator together with the pages its callers hold. Every page that is held, on the
single-page stack or on the run list has exactly one of these owners, and is marked used in the
map, so that the scan leaves it alone: `Owned`.

Every operation keeps `Owned`, with one exception. When `alloc_from_map` marks a range of several
pages it has already chosen, `page_mark_used` may find a `FREE` block with the mixed table
exhausted; the block's other pages are then spilled onto the single-page stack, *including the
pages of the range that are still to be marked*. `SpillHits` says when that happens.

## Main results

* `markRange_owned` — marking a chosen range, as long as no spill hits it
* `owned_init` — the state after `pmm_init`
* `Owned.step_frame`, `owned_of_reach` — every legal call, and every run, that stays clear of the
  spill
-/

namespace PeakOs.Pmm

open List

/-- The public operations that move pages. -/
inductive Call
  | alloc
  | allocPages (n : ℕ)
  | free (phys : ℕ)
  | freeN (phys n : ℕ)
  deriving DecidableEq, Repr

/-- The allocator and the pages of the ranges it has returned that were not freed yet, one entry
for each time a page was handed out. -/
structure Sys where
  pmm : State
  held : List ℕ

/-- The pages a caller gets with the answer `r` to a request for `n` pages. -/
def grantedPages (n : ℕ) : Option ℕ → List ℕ
  | none => []
  | some phys => List.range' (phys / pageSize) n

def Sys.step (σ : Sys) : Call → Sys
  | .alloc => ⟨(pmmAlloc σ.pmm).2, grantedPages 1 (pmmAlloc σ.pmm).1 ++ σ.held⟩
  | .allocPages n => ⟨(pmmAllocPages n σ.pmm).2, grantedPages n (pmmAllocPages n σ.pmm).1 ++ σ.held⟩
  | .free phys => ⟨pmmFree phys σ.pmm, σ.held.diff (List.range' (phys / pageSize) 1)⟩
  | .freeN phys n => ⟨pmmFreeN phys n σ.pmm, σ.held.diff (List.range' (phys / pageSize) n)⟩

/-- A caller frees only pages that are held. -/
def Sys.Legal (σ : Sys) : Call → Prop
  | .alloc | .allocPages _ => True
  | .free phys => List.range' (phys / pageSize) 1 ⊆ σ.held
  | .freeN phys n => List.range' (phys / pageSize) n ⊆ σ.held

/-- The start of every run: the allocator as `pmm_init` leaves it, nothing handed out. -/
def Sys.Booted (info : BootInfo) (σ : Sys) : Prop := σ = ⟨pmmInit info, []⟩

/-! ### The invariant -/

def runPages (runs : List PmmRun) : List ℕ := runs.flatMap fun r => List.range' r.start r.n

/-- The pages the scan must not find. -/
def offMap (s : State) (held : List ℕ) : List ℕ := held ++ (s.singleFree ++ runPages s.freeRuns)

structure Owned (s : State) (held : List ℕ) : Prop where
  slots : SlotsOk s
  nodup : (offMap s held).Nodup
  used : ∀ p ∈ offMap s held, p < maxPages ∧ pageIsUsed s p = true

variable {s t : State} {held held' : List ℕ} {p q stop start n i phys : ℕ} {runs : List PmmRun}
    {r : PmmRun} {σ : Sys}

theorem Owned.of_perm (h : Owned s held) (hp : held'.Perm held) : Owned s held' := by
  have hperm : (offMap s held').Perm (offMap s held) := hp.append_right _
  exact ⟨h.slots, hperm.nodup_iff.2 h.nodup, fun p hmem => h.used p (hperm.mem_iff.1 hmem)⟩

/-- Only the map, the two lists and the held pages matter. -/
theorem Owned.transfer (h : Owned s held) (hslots : SlotsOk t)
    (hmap : ∀ q < maxPages, pageIsUsed s q = true → pageIsUsed t q = true)
    (hperm : (offMap t held').Perm (offMap s held)) : Owned t held' := by
  refine ⟨hslots, hperm.nodup_iff.2 h.nodup, fun p hmem => ?_⟩
  obtain ⟨hlt, hu⟩ := h.used p (hperm.mem_iff.1 hmem)
  exact ⟨hlt, hmap p hlt hu⟩

/-! ### Marking a chosen range -/

/-- Marking `page` while `rest` more pages of the range follow it spills one of them: the block is
free, the mixed table exhausted, the next page of the range lies in the same block, and the stack
has room for every page below it. -/
def SpillHits (s : State) (page rest : ℕ) : Prop :=
  Spills s page ∧ 0 < rest ∧ page % pagesPerBlock ≠ 63 ∧
    s.singleFree.length + page % pagesPerBlock < pmmSingleStack

instance (s : State) (page rest : ℕ) : Decidable (SpillHits s page rest) := by
  unfold SpillHits; infer_instance

/-- No spill hits the range while its pages are marked one by one. -/
def MarkSafe : ℕ → ℕ → State → Prop
  | 0, _, _ => True
  | n + 1, page, s =>
    ¬ SpillHits s page n ∧
      MarkSafe n (page + 1)
        { pageMarkUsed page s with usedPages := (pageMarkUsed page s).usedPages + 1 }

theorem spilledPages_nodup (s : State) (p : ℕ) : (spilledPages s p).Nodup := by
  refine List.Nodup.map (fun a b h => by simpa using h) ?_
  exact ((nodup_range.filter _).sublist (take_sublist _ _))

/-- A spilled page lies in the block of `p` and is not `p`. -/
theorem mem_spilledPages (h : q ∈ spilledPages s p) : q / 64 = p / 64 ∧ q % 64 ≠ p % 64 := by
  obtain ⟨i, hi, rfl⟩ := mem_map.1 h
  obtain ⟨hmem, hne⟩ := mem_filter.1 (mem_of_mem_take hi)
  have hlt : i < 64 := by simpa [pagesPerBlock] using hmem
  have hne' : i ≠ p % 64 := of_decide_eq_true hne
  simp only [pagesPerBlock]
  omega

/-- When the stack is nearly full the spill stops before it gets to the bit of `p`. -/
theorem mod_lt_of_mem_spilledPages (h : q ∈ spilledPages s p)
    (hroom : pmmSingleStack ≤ s.singleFree.length + p % 64) : q % 64 < p % 64 := by
  obtain ⟨i, hi, rfl⟩ := mem_map.1 h
  -- the pages up to the bit are visited first, and there are enough of them to fill the stack
  have hsplit : (range pagesPerBlock).filter (· ≠ p % pagesPerBlock) =
      range (p % 64) ++ (range' (p % 64) (64 - p % 64)).filter (· ≠ p % 64) := by
    have hr : range 64 = range (p % 64) ++ range' (p % 64) (64 - p % 64) := by
      have := range'_append_1 (s := 0) (m := p % 64) (n := 64 - p % 64)
      rw [zero_add, show p % 64 + (64 - p % 64) = 64 by omega] at this
      rw [range_eq_range', range_eq_range', this]
    rw [pagesPerBlock, hr, filter_append]
    congr 1
    refine filter_eq_self.2 fun a ha => ?_
    have : a < p % 64 := by simpa using ha
    simp; omega
  rw [hsplit, take_append_of_le_length (by simp; omega)] at hi
  have : i < p % 64 := by simpa using mem_of_mem_take hi
  simp only [pagesPerBlock]
  omega

theorem maxPages_block (hp : p < maxPages) (h : q / 64 = p / 64) : q < maxPages := by
  simp only [maxPages] at *
  omega

/-- One page of a chosen range: it moves to the holder, the spilled pages to the stack. -/
theorem pageMarkUsed_owned {rest : ℕ} (h : Owned s held)
    (hp : p < maxPages) (hfresh : ∀ q ∈ range' p (rest + 1), q ∉ offMap s held)
    (hsafe : ¬ SpillHits s p rest) : Owned (pageMarkUsed p s) (p :: held) ∧
      ∀ q ∈ range' (p + 1) rest, q ∉ offMap (pageMarkUsed p s) (p :: held) := by
  obtain ⟨hslots, hruns, hsingle, hview⟩ := pageMarkUsed_spec h.slots hp
  have hpfresh : p ∉ offMap s held := hfresh p (by simp [mem_range'_1])
  -- the pages that go to the stack are free ones of the block, not in the rest of the range
  obtain ⟨pushed, hsingle, hnodup, hpushed⟩ : ∃ pushed : List ℕ,
      (pageMarkUsed p s).singleFree = pushed.reverse ++ s.singleFree ∧ pushed.Nodup ∧
        ∀ q ∈ pushed, q ≠ p ∧ q ∉ offMap s held ∧ q ∉ range' (p + 1) rest ∧ q < maxPages ∧
          pageIsUsed (pageMarkUsed p s) q = true := by
    by_cases hsp : Spills s p
    · refine ⟨_, by rw [hsingle, if_pos hsp], spilledPages_nodup s p, fun q hq => ?_⟩
      obtain ⟨hb, hne⟩ := mem_spilledPages hq
      have hlt := maxPages_block hp hb
      refine ⟨fun he => hne (by rw [he]), fun hmem => ?_, fun hrange => ?_, hlt, ?_⟩
      · have hblk : s.blockState (p / 64) = .free := hsp.2.1
        have hu := (h.used q hmem).2
        rw [pageIsUsed_of_lt hlt] at hu
        simp [blockUsed, hb, hblk] at hu
      · obtain ⟨hlo, hhi⟩ := mem_range'_1.1 hrange
        have h63 : p % 64 ≠ 63 := by omega
        have hroom : pmmSingleStack ≤ s.singleFree.length + p % 64 := by
          by_contra hroom
          exact hsafe ⟨hsp, by omega, h63, Nat.lt_of_not_le hroom⟩
        have := mod_lt_of_mem_spilledPages hq hroom
        omega
      · rw [hview q hlt]
        simp [hsp, hb]
    · exact ⟨[], by simpa [hsp] using hsingle, nodup_nil, by simp⟩
  have hoff : (offMap (pageMarkUsed p s) (p :: held)).Perm (p :: (pushed ++ offMap s held)) := by
    unfold offMap
    rw [hsingle, hruns]
    simp only [cons_append, append_assoc]
    refine List.Perm.cons _ ?_
    rw [← append_assoc, ← append_assoc pushed]
    refine List.Perm.append_right _ ?_
    exact perm_append_comm.trans ((reverse_perm _).append_right _)
  refine ⟨⟨hslots, hoff.nodup_iff.2 ?_, fun q hq => ?_⟩, fun q hq hmem => ?_⟩
  · refine nodup_cons.2 ⟨?_, ?_⟩
    · simp only [mem_append, not_or]
      exact ⟨fun hm => (hpushed p hm).1 rfl, hpfresh⟩
    · exact hnodup.append h.nodup fun q hq hmem => (hpushed q hq).2.1 hmem
  · rcases mem_cons.1 (hoff.mem_iff.1 hq) with rfl | hq
    · exact ⟨hp, by rw [hview q hp]; simp⟩
    rcases mem_append.1 hq with hq | hq
    · exact (hpushed q hq).2.2.2
    · obtain ⟨hlt, hu⟩ := h.used q hq
      exact ⟨hlt, by rw [hview q hlt, hu]; simp⟩
  have hne : q ≠ p := by have := (mem_range'_1.1 hq).1; omega
  have hold : q ∉ offMap s held := hfresh q (by rw [mem_range'_1] at hq ⊢; omega)
  rcases mem_cons.1 (hoff.mem_iff.1 hmem) with h' | h'
  · exact hne h'
  rcases mem_append.1 h' with h' | h'
  · exact (hpushed q h').2.2.1 hq
  · exact hold h'

/-- **Marking a chosen range.** The pages already marked count as held, which is what keeps a
spill in a later block away from them. -/
theorem markRange_owned : ∀ (n start : ℕ) {s : State} {held : List ℕ}, Owned s held →
    (∀ q ∈ range' start n, q < maxPages ∧ q ∉ offMap s held) → MarkSafe n start s →
    Owned (markRange n start s) (range' start n ++ held) := by
  intro n
  induction n with
  | zero => intro start s held h _ _; simpa [markRange] using h
  | succ n ih =>
    intro start s held h hfresh hsafe
    have hstart : start < maxPages := (hfresh start (by simp [mem_range'_1])).1
    obtain ⟨h1, h2⟩ := pageMarkUsed_owned h hstart (fun q hq => (hfresh q hq).2) hsafe.1
    -- counting the page in `used_pages` touches no structure the invariant reads
    have h1' : Owned { pageMarkUsed start s with
        usedPages := (pageMarkUsed start s).usedPages + 1 } (start :: held) :=
      ⟨h1.slots.congr rfl rfl rfl, h1.nodup, h1.used⟩
    have hlt : ∀ q ∈ range' (start + 1) n, q < maxPages := fun q hq =>
      (hfresh q (by rw [mem_range'_1] at hq ⊢; omega)).1
    have := ih (start + 1) h1' (fun q hq => ⟨hlt q hq, h2 q hq⟩) hsafe.2
    refine Owned.of_perm this ?_
    exact perm_middle.symm

/-! ### Initialisation -/

theorem slotsOk_reset (info : BootInfo) : SlotsOk (pmmReset info) where
  nodup := by simp only [pmmReset, nodup_reverse, nodup_range]
  fresh := fun _ h => absurd h (by simp [pmmReset])
  inj := fun _ _ h => absurd h (by simp [pmmReset])

theorem markUsablePage_slots (hs : SlotsOk s) (hp : p < maxPages) :
    SlotsOk (markUsablePage p s) := by
  cases hst : s.blockState (p / pagesPerBlock) with
  | unused =>
    simp only [markUsablePage, hst]
    cases hacq : mixedAcquire (p / pagesPerBlock) (allUsed ^^^ pageBit (p % pagesPerBlock)) s with
    | some s' => exact (mixedAcquire_spec hacq hs (by rw [hst]; decide)).1
    | none =>
      have := (mixedReleaseTo_spec hs (p / pagesPerBlock) (by decide : BlockState.free ≠ .mixed)).1
      simpa [mixedReleaseTo, hst] using this
  | free => simpa only [markUsablePage, hst] using hs
  | used =>
    have hused : pageIsUsed s p = true := by
      rw [pageIsUsed_of_lt hp]
      simp only [pagesPerBlock] at hst
      simp [blockUsed, hst]
    simpa only [markUsablePage, hst] using (pageMarkFree_spec hs hp hused).1
  | mixed =>
    have h1 := (updateBits_spec hs hst
      (s.mixedBits (s.blockMixed (p / pagesPerBlock)) &&& ~~~pageBit (p % pagesPerBlock))).1
    simp only [markUsablePage, hst]
    split
    · exact (mixedReleaseTo_spec h1 _ (by decide)).1
    · exact h1

/-- Claiming a whole block releases its slot if it has one, as `mixed_release_to` does anyway. -/
theorem claimBlock_eq (s : State) (blk : ℕ) :
    (if s.blockState blk = .mixed then mixedReleaseTo blk .free s
      else { s with blockState := Function.update s.blockState blk .free }) =
      mixedReleaseTo blk .free s := by
  by_cases hm : s.blockState blk = .mixed
  · rw [if_pos hm]
  · rw [if_neg hm, mixedReleaseTo, if_neg hm]

theorem markUsableLoop_slots (hstop : stop ≤ maxPages) : ∀ (fuel start : ℕ) {s : State},
    SlotsOk s → SlotsOk (markUsableLoop stop fuel start s) := by
  intro fuel
  induction fuel with
  | zero => intro _ _ hs; exact hs
  | succ fuel ih =>
    intro start s hs
    unfold markUsableLoop
    by_cases hlt : start < stop
    · rw [if_pos hlt]
      dsimp only
      split
      · rw [claimBlock_eq]
        exact ih _ ((mixedReleaseTo_spec hs _ (by decide)).1.congr rfl rfl rfl)
      · exact ih _ ((markUsablePage_slots hs (lt_of_lt_of_le hlt hstop)).congr rfl rfl rfl)
    · rw [if_neg hlt]; exact hs

theorem claimUsable_slots (hs : SlotsOk s) (e : MmapEntry) : SlotsOk (claimUsable s e) := by
  unfold claimUsable
  split
  · exact markUsableLoop_slots (min_le_right _ _) _ _ hs
  · exact hs

theorem reservePage_slots (hs : SlotsOk s) (p : ℕ) : SlotsOk (reservePage s p) := by
  unfold reservePage
  by_cases hu : pageIsUsed s p = true
  · rw [if_pos hu]; exact hs
  rw [if_neg hu]
  have hp := lt_maxPages_of_free (Bool.eq_false_iff.2 hu)
  exact (pageMarkUsed_spec hs hp).1.congr rfl rfl rfl

theorem reserveEntry_slots (hs : SlotsOk s) (e : MmapEntry) : SlotsOk (reserveEntry s e) := by
  unfold reserveEntry
  split
  · exact foldlRecOn _ reservePage hs fun s hs p _ => reservePage_slots hs p
  · exact hs

/-- **After `pmm_init`** nothing is handed out and nothing is on a free list: pages that a reserve
pass spilled are dropped. -/
theorem owned_init (info : BootInfo) : Owned (pmmInit info) [] := by
  have h1 : SlotsOk (info.mmap.foldl claimUsable (pmmReset info)) :=
    foldlRecOn _ claimUsable (slotsOk_reset info) fun s hs e _ => claimUsable_slots hs e
  have h2 := foldlRecOn (motive := SlotsOk) (range 256) reservePage h1
    fun s hs p _ => reservePage_slots hs p
  have h3 := foldlRecOn (motive := SlotsOk) info.mmap reserveEntry h2
    fun s hs e _ => reserveEntry_slots hs e
  exact ⟨h3.congr rfl rfl rfl, by simp [offMap, pmmInit, runPages],
    by simp [offMap, pmmInit, runPages]⟩

/-! ### The scan -/

theorem firstUsed_eq_none : ∀ {count i : ℕ}, firstUsed s start i count = none ↔
      ∀ j, i ≤ j → j < i + count → pageIsUsed s ((start + j) % 2 ^ 64) = false := by
  intro count
  induction count with
  | zero => exact fun {i} => ⟨fun _ j h1 h2 => absurd h2 (by omega), fun _ => rfl⟩
  | succ count ih =>
    intro i
    rw [firstUsed]
    split
    next hused => simpa using ⟨i, le_rfl, by omega, hused⟩
    next hfree =>
    refine ih.trans ⟨fun h j h1 h2 => ?_, fun h j h1 h2 => h j (by omega) (by omega)⟩
    rcases eq_or_lt_of_le h1 with rfl | hlt
    · exact Bool.eq_false_iff.2 hfree
    · exact h j hlt (by omega)

/-- The scan only returns ranges whose pages are all free, and these are real pages. -/
theorem scanMap_free (h : scanMap s n stop start = some p) :
    ∀ q ∈ range' p n, pageIsUsed s q = false := by
  induction start using scanMap.induct s n stop with
  | case1 start hcond hfree =>
    rw [scanMap, dif_pos hcond, hfree] at h
    injection h with h
    subst h
    have hall := firstUsed_eq_none.1 hfree
    -- the pages are counted modulo `2 ^ 64`, but the first wrapped one would have to be free
    have hstep : ∀ j ≤ n, start + j < 2 ^ 64 ∨ j = 0 := by
      intro j hj
      induction j with
      | zero => exact .inr rfl
      | succ j ih =>
        left
        have := lt_maxPages_of_free (hall j (Nat.zero_le _) (by omega))
        simp only [maxPages] at this
        omega
    intro q hq
    obtain ⟨hlo, hhi⟩ := mem_range'_1.1 hq
    obtain ⟨j, rfl⟩ := Nat.exists_eq_add_of_le hlo
    have hlt : start + j < 2 ^ 64 := by
      rcases hstep j (by omega) with h | h
      · exact h
      · subst h; simpa using hcond.1
    have := hall j (Nat.zero_le _) (by omega)
    rwa [Nat.mod_eq_of_lt hlt] at this
  | case2 start hcond i hused ih =>
    rw [scanMap, dif_pos hcond, hused] at h
    exact ih h
  | case3 start hcond =>
    rw [scanMap, dif_neg hcond] at h
    exact absurd h (by simp)

theorem findInMap_free (h : findInMap n s = some p) : ∀ q ∈ range' p n, pageIsUsed s q = false := by
  unfold findInMap at h
  split at h
  next hscan =>
    cases h
    exact scanMap_free hscan
  · exact scanMap_free h

/-! ### Allocation -/

/-- The request is served by the map scan and a spill hits the range the scan chose. -/
def AllocSpills (n : ℕ) (s : State) : Prop :=
  ∃ start, findInMap n { s with allocCursor := scanCursor s } = some start ∧
    ¬ MarkSafe n start { s with allocCursor := scanCursor s }

theorem grantedPages_mul (n p : ℕ) : grantedPages n (some (p * pageSize)) = range' p n := by
  rw [grantedPages, Nat.mul_div_cancel _ (by decide)]

theorem allocFromMap_owned (h : Owned s held) (hsafe : ¬ AllocSpills n s) :
    Owned (allocFromMap n s).2 (grantedPages n (allocFromMap n s).1 ++ held) := by
  set t : State := { s with allocCursor := scanCursor s } with ht
  have h' : Owned t held := ⟨h.slots.congr rfl rfl rfl, h.nodup, h.used⟩
  unfold allocFromMap
  simp only [← ht]
  cases hfind : findInMap n t with
  | none => simpa [grantedPages] using h'
  | some start =>
    have hms : MarkSafe n start t := by
      by_contra hms
      exact hsafe ⟨start, hfind, hms⟩
    have hfree := findInMap_free hfind
    have hown := markRange_owned n start h' (fun q hq => ⟨lt_maxPages_of_free (hfree q hq),
      fun hmem => by simpa [hfree q hq] using (h'.used q hmem).2⟩) hms
    simp only [grantedPages_mul]
    exact ⟨hown.slots.congr rfl rfl rfl, hown.nodup, hown.used⟩

theorem removeRun_eq (runs : List PmmRun) (i : ℕ) : removeRun runs i = swapRemove runs i := by
  rw [removeRun, swapRemove]
  cases runs.getLast? <;> rfl

/-- `a[i] = a[--count]` removes exactly the entry at index `i`. -/
theorem removeRun_perm (h : runs[i]? = some r) : (r :: removeRun runs i).Perm runs := by
  obtain ⟨hi, rfl⟩ := List.getElem?_eq_some_iff.1 h
  rw [removeRun_eq]
  exact ((swapRemove_perm hi).cons _).trans (getElem_cons_eraseIdx_perm hi)

/-- Overwriting entry `i` is removing it and putting the new one in its place. -/
theorem set_perm_removeRun (h : runs[i]? = some r)
    (r' : PmmRun) : (runs.set i r').Perm (r' :: removeRun runs i) := by
  obtain ⟨hi, -⟩ := List.getElem?_eq_some_iff.1 h
  rw [removeRun_eq]
  exact (set_perm_cons_eraseIdx hi r').trans ((swapRemove_perm hi).symm.cons r')

theorem runPages_perm {runs' : List PmmRun} (h : runs.Perm runs') :
    (runPages runs).Perm (runPages runs') := h.flatMap_right _

theorem runPages_cons (r : PmmRun) (runs : List PmmRun) :
    runPages (r :: runs) = range' r.start r.n ++ runPages runs := rfl

/-- The map, as far as it is read. -/
structure SameMap (s t : State) : Prop where
  blockState : t.blockState = s.blockState
  blockMixed : t.blockMixed = s.blockMixed
  mixedBits : t.mixedBits = s.mixedBits
  mixedFreeStack : t.mixedFreeStack = s.mixedFreeStack

theorem SameMap.pageIsUsed (h : SameMap s t) (q : ℕ) : pageIsUsed t q = pageIsUsed s q := by
  rw [pageIsUsed_eq, pageIsUsed_eq, blockUsed_congr h.blockState h.blockMixed h.mixedBits]

/-- Pages change their owner, and the map stays as it is. -/
theorem Owned.moved (h : Owned s held) (hmap : SameMap s t)
    (hperm : (offMap t held').Perm (offMap s held)) : Owned t held' :=
  h.transfer (h.slots.congr hmap.blockState hmap.blockMixed hmap.mixedFreeStack)
    (fun q _ hu => by rwa [hmap.pageIsUsed]) hperm

theorem takeRun_sameMap (n i : ℕ) (r : PmmRun) (s : State) : SameMap s (takeRun n i r s) := by
  rw [takeRun]
  split
  · exact ⟨rfl, rfl, rfl, rfl⟩
  · split <;> exact ⟨rfl, rfl, rfl, rfl⟩

/-- Serving a request from the front of a free run moves its pages to the holder. -/
theorem takeRun_perm (held : List ℕ) (hi : s.freeRuns[i]? = some r) (hn : n ≤ r.n) :
    (offMap (takeRun n i r s) (range' r.start n ++ held)).Perm (offMap s held) := by
  have hrun := removeRun_perm hi
  have hsplit : range' r.start r.n =
      range' r.start n ++ range' (r.start + n) (r.n - n) := by rw [range'_append_1]; congr 1; omega
  have hold : (runPages s.freeRuns).Perm (range' r.start n ++
      (range' (r.start + n) (r.n - n) ++ runPages (removeRun s.freeRuns i))) := by
    refine (runPages_perm hrun.symm).trans ?_
    rw [runPages_cons, hsplit, append_assoc]
  -- in each case the pages off the map are the same as before
  have key : ∀ (t : State), (t.singleFree ++ runPages t.freeRuns).Perm (s.singleFree ++
        (range' (r.start + n) (r.n - n) ++ runPages (removeRun s.freeRuns i))) →
      (offMap t (range' r.start n ++ held)).Perm (offMap s held) := by
    intro t hperm
    refine perm_iff_count.2 fun x => ?_
    have e1 := hperm.count_eq x
    have e2 := hold.count_eq x
    simp only [offMap, count_append] at e1 e2 ⊢
    omega
  rw [takeRun]
  split
  next hleft => exact key _ (by simp [hleft])
  split
  next hleft =>
    refine key _ (perm_iff_count.2 fun x => ?_)
    simp only [hleft.1, range'_one, count_append, count_cons, count_nil]
    omega
  · refine key _ (List.Perm.append_left _ ?_)
    exact runPages_perm (set_perm_removeRun hi _)

theorem takeRun_owned (h : Owned s held) (hi : s.freeRuns[i]? = some r) (hn : n ≤ r.n) :
    Owned (takeRun n i r s) (range' r.start n ++ held) :=
  h.moved (takeRun_sameMap n i r s) (takeRun_perm held hi hn)

/-- A single page never meets a harmful spill: no page of the range follows it. -/
theorem not_allocSpills_one (s : State) : ¬ AllocSpills 1 s := by
  rintro ⟨start, -, hms⟩
  exact hms ⟨fun hhit => absurd hhit.2.1 (by simp), trivial⟩

theorem pmmAllocPages_single {pg : ℕ} {rest : List ℕ} (h : s.singleFree = pg :: rest) :
    pmmAllocPages 1 s =
      (some (pg * pageSize), { s with singleFree := rest, usedPages := s.usedPages + 1 }) := by
  simp [pmmAllocPages, h]

theorem pmmAllocPages_one (h : s.singleFree = []) : pmmAllocPages 1 s = allocFromMap 1 s := by
  simp [pmmAllocPages, h]

theorem findRun_some (h : findRun runs n = some i) : ∃ r, runs[i]? = some r ∧ n ≤ r.n := by
  obtain ⟨hlt, hp, -⟩ := findIdx?_eq_some_iff_getElem.1 h
  exact ⟨runs[i], getElem?_eq_getElem hlt, by simpa using hp⟩

theorem pmmAllocPages_scan (hn : 2 ≤ n) (h : findRun s.freeRuns n = none) :
    pmmAllocPages n s = allocFromMap n s := by
  obtain ⟨k, rfl⟩ := Nat.exists_eq_add_of_le' hn
  simp [pmmAllocPages, h]

theorem pmmAllocPages_run (hn : 2 ≤ n)
    (h : findRun s.freeRuns n = some i) (hr : s.freeRuns[i]? = some r) :
    pmmAllocPages n s = (some (r.start * pageSize), takeRun n i r s) := by
  obtain ⟨k, rfl⟩ := Nat.exists_eq_add_of_le' hn
  simp [pmmAllocPages, h, hr]

theorem allocFromMap_aligned (h : (allocFromMap n s).1 = some phys) : phys % pageSize = 0 := by
  unfold allocFromMap at h
  simp only at h
  split at h
  · cases h
  · injection h with h
    rw [← h, Nat.mul_mod_left]

/-- The ways a request is served. -/
theorem pmmAllocPages_cases (n : ℕ) (s : State) :
    n = 0 ∧ pmmAllocPages n s = (none, s) ∨
      (∃ pg rest, n = 1 ∧ s.singleFree = pg :: rest ∧ pmmAllocPages n s = (some (pg * pageSize),
        { s with singleFree := rest, usedPages := s.usedPages + 1 })) ∨
      (∃ i r, 2 ≤ n ∧ s.freeRuns[i]? = some r ∧ n ≤ r.n ∧
        pmmAllocPages n s = (some (r.start * pageSize), takeRun n i r s)) ∨
      0 < n ∧ (n = 1 → s.singleFree = []) ∧ (2 ≤ n → findRun s.freeRuns n = none) ∧
        pmmAllocPages n s = allocFromMap n s := by
  rcases lt_or_ge n 2 with hlt | hge
  · obtain rfl | rfl : n = 0 ∨ n = 1 := by omega
    · exact .inl ⟨rfl, rfl⟩
    cases hsingle : s.singleFree with
    | nil => exact .inr (.inr (.inr ⟨one_pos, fun _ => rfl, by simp, pmmAllocPages_one hsingle⟩))
    | cons pg rest => exact .inr (.inl ⟨pg, rest, rfl, rfl, pmmAllocPages_single hsingle⟩)
  cases hfind : findRun s.freeRuns n with
  | none =>
    exact .inr (.inr (.inr ⟨by omega, by omega, fun _ => rfl, pmmAllocPages_scan hge hfind⟩))
  | some i =>
    obtain ⟨r, hr, hn⟩ := findRun_some hfind
    exact .inr (.inr (.inl ⟨i, r, hge, hr, hn, pmmAllocPages_run hge hfind hr⟩))

/-- A range is handed out on a page boundary, and never for zero pages. -/
theorem pmmAllocPages_some (h : pmmAllocPages n s = (some phys, t)) :
    0 < n ∧ phys % pageSize = 0 := by
  rcases pmmAllocPages_cases n s with ⟨-, heq⟩ | ⟨pg, rest, rfl, -, heq⟩ | ⟨i, r, hn, -, -, heq⟩ |
    ⟨hn, -, -, heq⟩ <;> rw [heq] at h
  · cases h
  · cases h
    exact ⟨one_pos, Nat.mul_mod_left ..⟩
  · cases h
    exact ⟨by omega, Nat.mul_mod_left ..⟩
  · exact ⟨hn, allocFromMap_aligned (by rw [h])⟩

theorem popSingle_perm {pg : ℕ} {rest : List ℕ} (h : s.singleFree = pg :: rest) (held : List ℕ)
    (used : ℕ) : (offMap { s with singleFree := rest, usedPages := used }
      (range' pg 1 ++ held)).Perm (offMap s held) := by
  refine perm_iff_count.2 fun x => ?_
  simp only [offMap, h, range'_one, count_append, count_cons, count_nil]
  omega

/-- **Allocation.** -/
theorem pmmAllocPages_owned (h : Owned s held)
    (hsafe : 2 ≤ n → findRun s.freeRuns n = none → ¬ AllocSpills n s) :
    Owned (pmmAllocPages n s).2 (grantedPages n (pmmAllocPages n s).1 ++ held) := by
  rcases pmmAllocPages_cases n s with ⟨-, heq⟩ | ⟨pg, rest, rfl, hsingle, heq⟩ |
    ⟨i, r, -, hr, hn, heq⟩ | ⟨hn, -, hfind, heq⟩ <;> rw [heq]
  · exact h
  · -- a page from the stack changes its owner
    rw [grantedPages_mul]
    exact h.moved ⟨rfl, rfl, rfl, rfl⟩ (popSingle_perm hsingle held _)
  · rw [grantedPages_mul]
    exact takeRun_owned h hr hn
  · refine allocFromMap_owned h ?_
    rcases lt_or_ge n 2 with hlt | hge
    · obtain rfl : n = 1 := by omega
      exact not_allocSpills_one s
    · exact hsafe hge (hfind hge)

/-! ### Release -/

theorem Owned.tail (h : Owned s (p :: held)) : Owned s held := by
  have hsub : (offMap s held).Sublist (offMap s (p :: held)) := sublist_cons_self _ _
  exact ⟨h.slots, h.nodup.sublist hsub, fun q hq => h.used q (hsub.subset hq)⟩

/-- One page of the fallback of `pmm_free_n`. -/
theorem pageMarkFree_owned (h : Owned s (p :: held)) : Owned (pageMarkFree p s) held := by
  obtain ⟨hp, hu⟩ := h.used p (mem_cons_self ..)
  have hnd := nodup_cons.1 h.nodup
  obtain ⟨hslots, hruns, ⟨hsingle, hview⟩ | ⟨hsingle, -, hview⟩ | ⟨hsame, -⟩⟩ :=
    pageMarkFree_spec h.slots hp hu
  · have hoff : offMap (pageMarkFree p s) held = offMap s held := by simp [offMap, hsingle, hruns]
    refine ⟨hslots, by rw [hoff]; exact hnd.2, fun q hq => ?_⟩
    rw [hoff] at hq
    obtain ⟨hlt, huq⟩ := h.tail.used q hq
    have hne : q ≠ p := fun he => hnd.1 (he ▸ hq)
    exact ⟨hlt, by rw [hview q hlt, huq]; simp [hne]⟩
  · refine h.transfer hslots (fun q hq hu => by rwa [hview q hq])
      (perm_iff_count.2 fun x => ?_)
    simp only [offMap, hsingle, hruns, count_append, count_cons]
    omega
  · rw [hsame]
    exact h.tail

theorem freeToMap_owned : ∀ (n p : ℕ) {s : State} {held : List ℕ},
    Owned s (range' p n ++ held) → Owned (freeToMap n p s) held := by
  intro n
  induction n with
  | zero => intro p s held h; simpa [freeToMap] using h
  | succ n ih =>
    intro p s held h
    obtain ⟨hp, hu⟩ := h.used p (mem_cons_self ..)
    have h1 := pageMarkFree_owned h
    rw [freeToMap, if_neg (not_le.2 hp), if_pos hu]
    exact ih (p + 1) ⟨h1.slots.congr rfl rfl rfl, h1.nodup, h1.used⟩

theorem mem_runPages : q ∈ runPages runs ↔ ∃ r ∈ runs, r.start ≤ q ∧ q < r.start + r.n := by
  simp [runPages]

theorem pmmPageOnFreelist_iff :
    pmmPageOnFreelist s q = true ↔ q ∈ s.singleFree ∨ q ∈ runPages s.freeRuns := by
  simp [pmmPageOnFreelist, mem_runPages]

theorem pushSingle_perm (s : State) (held : List ℕ) (p used : ℕ) :
    (offMap { s with singleFree := p :: s.singleFree, usedPages := used } held).Perm
      (offMap s (range' p 1 ++ held)) := by
  refine perm_iff_count.2 fun x => ?_
  simp only [offMap, range'_one, count_append, count_cons, count_nil]
  omega

theorem pushRun_perm (s : State) (held : List ℕ) (p n used : ℕ) :
    (offMap { s with freeRuns := s.freeRuns ++ [⟨p, n⟩], usedPages := used } held).Perm
      (offMap s (range' p n ++ held)) := by
  refine perm_iff_count.2 fun x => ?_
  simp only [offMap, runPages, flatMap_append, flatMap_cons, flatMap_nil, append_nil, count_append]
  omega

/-- The ways a range that is held is taken back. -/
theorem pmmFreeN_cases (h : Owned s (range' (phys / pageSize) n ++ held)) :
    n = 0 ∧ pmmFreeN phys n s = s ∨ n = 1 ∧ pmmFreeN phys n s =
        { s with singleFree := phys / pageSize :: s.singleFree, usedPages := s.usedPages - 1 } ∨
      pmmFreeN phys n s = { s with
          freeRuns := s.freeRuns ++ [⟨phys / pageSize, n⟩]
          usedPages := if n < s.usedPages then s.usedPages - n else 0 } ∨
      (n = 1 ∧ pmmSingleStack ≤ s.singleFree.length ∨ n ≠ 1 ∧ pmmFreeRuns ≤ s.freeRuns.length) ∧
        pmmFreeN phys n s = freeToMap n (phys / pageSize) s := by
  set p := phys / pageSize with hp
  have hpage : ∀ i < n, p + i < maxPages ∧ pageIsUsed s (p + i) = true ∧
      pmmPageOnFreelist s (p + i) = false := by
    intro i hi
    have hmem : p + i ∈ range' p n := by rw [mem_range'_1]; omega
    obtain ⟨hlt, hu⟩ := h.used (p + i) (mem_append_left _ (mem_append_left _ hmem))
    refine ⟨hlt, hu, Bool.eq_false_iff.2 fun hon => ?_⟩
    have hdisj := (nodup_append.1 h.nodup).2.2 _ (mem_append_left held hmem) (p + i)
      (mem_append.2 (pmmPageOnFreelist_iff.1 hon))
    exact hdisj rfl
  by_cases hn : n = 0
  · exact .inl ⟨hn, by rw [pmmFreeN, if_pos (.inl hn)]⟩
  have h0 := hpage 0 (pos_of_ne_zero hn)
  have hguard : ¬ (n = 0 ∨ maxPages ≤ p) := by
    rintro (h | h)
    · exact hn h
    · exact absurd h0.1 (not_lt.2 h)
  have hany : ((range n).any fun i =>
      decide (maxPages ≤ p + i) || pmmPageOnFreelist s (p + i)) = false := by
    rw [any_eq_false]
    intro i hi
    have := hpage i (mem_range.1 hi)
    simp [not_le.2 this.1, this.2.2]
  have hall : ((range n).all fun i =>
      !decide (maxPages ≤ p + i) && pageIsUsed s (p + i)) = true := by
    rw [all_eq_true]
    intro i hi
    have := hpage i (mem_range.1 hi)
    simp [not_le.2 this.1, this.2.1]
  rw [pmmFreeN]
  rw [if_neg hguard, hany, if_neg (by decide)]
  right
  split
  next hone => exact .inl ⟨hone.1, rfl⟩
  rename_i hsingle
  right
  split
  · exact .inl rfl
  rename_i hruns
  refine .inr ⟨?_, rfl⟩
  by_cases hone : n = 1
  · exact .inl ⟨hone, not_lt.1 fun hroom => hsingle ⟨hone, hroom, h0.2.1⟩⟩
  · exact .inr ⟨hone, not_lt.1 fun hroom => hruns ⟨by omega, hroom, hall⟩⟩

/-- **Release** of pages that are held: they move to the stack, to the run list or to the map. -/
theorem pmmFreeN_owned
    (h : Owned s (range' (phys / pageSize) n ++ held)) : Owned (pmmFreeN phys n s) held := by
  rcases pmmFreeN_cases h with ⟨hn, heq⟩ | ⟨hn, heq⟩ | heq | ⟨-, heq⟩
  · subst hn
    rw [heq]
    simpa using h
  · subst hn
    rw [heq]
    exact h.moved ⟨rfl, rfl, rfl, rfl⟩ (pushSingle_perm s held _ _)
  · rw [heq]
    exact h.moved ⟨rfl, rfl, rfl, rfl⟩ (pushRun_perm s held _ _ _)
  · rw [heq]
    exact freeToMap_owned n _ h

/-! ### Steps -/

/-- No spill hits a range of several pages while the call marks it. Only a request that neither the
stack nor the run list serves gets as far as the map. -/
def Sys.NoSpill (σ : Sys) : Call → Prop
  | .allocPages n => 2 ≤ n → findRun σ.pmm.freeRuns n = none → ¬ AllocSpills n σ.pmm
  | .alloc | .free _ | .freeN _ _ => True

theorem append_diff_perm {l : List ℕ} (hl : l.Nodup) (h : l ⊆ held) :
    (l ++ held.diff l).Perm held :=
  subperm_append_diff_self_of_count_le fun x _ => (subperm_of_subset hl h).count_le x

/-- A call by one group of callers, while another group keeps the pages `frame`. -/
theorem Owned.step_frame {frame : List ℕ} (h : Owned σ.pmm (frame ++ σ.held)) {c : Call}
    (hlegal : σ.Legal c) (hspill : σ.NoSpill c) :
    Owned (σ.step c).pmm (frame ++ (σ.step c).held) := by
  have hfree : ∀ l : List ℕ, l.Nodup → l ⊆ σ.held →
      (l ++ (frame ++ σ.held.diff l)).Perm (frame ++ σ.held) := by
    intro l hl hsub
    rw [← append_assoc]
    refine (perm_append_comm.append_right _).trans ?_
    rw [append_assoc]
    exact (append_diff_perm hl hsub).append_left _
  have halloc : ∀ l : List ℕ, (frame ++ (l ++ σ.held)).Perm (l ++ (frame ++ σ.held)) := by
    intro l
    rw [← append_assoc, ← append_assoc]
    exact perm_append_comm.append_right _
  cases c with
  | alloc => exact (pmmAllocPages_owned h (fun hn => absurd hn (by decide))).of_perm (halloc _)
  | allocPages n => exact (pmmAllocPages_owned h hspill).of_perm (halloc _)
  | free phys | freeN phys n => exact pmmFreeN_owned (h.of_perm (hfree _ nodup_range' hlegal))

theorem owned_of_reach {info : BootInfo}
    (h : Reach (Sys.Booted info) (fun σ c => σ.Legal c ∧ σ.NoSpill c) Sys.step σ) :
    Owned σ.pmm σ.held := by
  refine Reach.invariant (fun σ : Sys => Owned σ.pmm σ.held) ?_ ?_ h
  · rintro s rfl
    exact owned_init info
  · exact fun s c hs hok => (show Owned s.pmm ([] ++ s.held) from hs).step_frame hok.1 hok.2

end PeakOs.Pmm
