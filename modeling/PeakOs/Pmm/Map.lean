import PeakOs.Lib.BitMask
import PeakOs.Lib.PartialMap
import PeakOs.Pmm.Model
import Mathlib.Data.List.Nodup

/-!
# What marking a page does to the map

One specification for each operation on the two-level map, in terms of `pageIsUsed`. The callers
never look at block states or slots again.

The mixed table is where aliasing could hide: two blocks that share a slot would share their bits.
`SlotsOk` rules that out, and every operation keeps it.

## Main results

* `pageMarkUsed_spec` — marking a page used, including the pages a spill pushes
* `pageMarkFree_spec` — giving a page back
-/

namespace PeakOs.Pmm

open Function List

/-- No slot of the mixed table is used twice: the free slots are distinct, no mixed block owns a
free slot, and distinct mixed blocks own distinct slots. -/
structure SlotsOk (s : State) : Prop where
  nodup : s.mixedFreeStack.Nodup
  fresh : ∀ b, s.blockState b = .mixed → s.blockMixed b ∉ s.mixedFreeStack
  inj : ∀ b c, s.blockState b = .mixed → s.blockState c = .mixed →
    s.blockMixed b = s.blockMixed c → b = c

/-- The map's answer for bit `bit` of block `blk`. -/
def blockUsed (s : State) (blk bit : ℕ) : Bool :=
  match s.blockState blk with
  | .unused | .used => true
  | .free => false
  | .mixed => (s.mixedBits (s.blockMixed blk)).getLsbD bit

theorem pageIsUsed_eq (s : State) (p : ℕ) :
    pageIsUsed s p = (decide (maxPages ≤ p) || blockUsed s (p / 64) (p % 64)) := by
  unfold pageIsUsed blockUsed pagesPerBlock
  by_cases h : maxPages ≤ p
  · simp [h]
  · cases s.blockState (p / 64) <;> simp [h]

variable {s t : State} {p k i blk : ℕ} {bits : BitVec 64} {st : BlockState}

theorem pageIsUsed_of_ge (h : maxPages ≤ p) : pageIsUsed s p = true := by
  simp [pageIsUsed_eq, h]

theorem pageIsUsed_of_lt (h : p < maxPages) : pageIsUsed s p = blockUsed s (p / 64) (p % 64) := by
  simp [pageIsUsed_eq, not_le.2 h]

theorem lt_maxPages_of_free (h : pageIsUsed s p = false) : p < maxPages := by
  by_contra hge
  rw [pageIsUsed_of_ge (Nat.le_of_not_lt hge)] at h
  exact absurd h (by decide)

/-- Two pages agree in block and bit only if they are the same page. -/
theorem page_eq_iff (q p : ℕ) : q = p ↔ q / 64 = p / 64 ∧ q % 64 = p % 64 := by
  omega

theorem getLsbD_pageBit (hk : k < 64) (i : ℕ) : (pageBit k).getLsbD i = decide (i = k) :=
  BitMask.getLsbD_one_shiftLeft hk i

theorem getLsbD_allUsed (hi : i < 64) : allUsed.getLsbD i = true := by
  simp only [allUsed, BitVec.getLsbD_allOnes, hi, decide_true]

theorem getLsbD_set (bits : BitVec 64) (hk : k < 64) (i : ℕ) :
    (bits ||| pageBit k).getLsbD i = (bits.getLsbD i || decide (i = k)) :=
  BitMask.getLsbD_setBit bits hk i

theorem getLsbD_clear (bits : BitVec 64) (hk : k < 64) (i : ℕ) :
    (bits &&& ~~~pageBit k).getLsbD i = (bits.getLsbD i && !decide (i = k)) :=
  BitMask.getLsbD_clearBit bits hk i

theorem getLsbD_allUsed_xor (hk : k < 64) (hi : i < 64) :
    (allUsed ^^^ pageBit k).getLsbD i = !decide (i = k) := by
  rw [BitVec.getLsbD_xor, getLsbD_pageBit hk, getLsbD_allUsed hi]
  simp

/-! ### Slots -/

/-- Acquiring a slot for a block that has none. -/
theorem mixedAcquire_spec {s' : State}
    (h : mixedAcquire blk bits s = some s') (hs : SlotsOk s) (hblk : s.blockState blk ≠ .mixed) :
    SlotsOk s' ∧ s'.singleFree = s.singleFree ∧ s'.freeRuns = s.freeRuns ∧
      ∀ b i, blockUsed s' b i = if b = blk then bits.getLsbD i else blockUsed s b i := by
  unfold mixedAcquire at h
  cases hstack : s.mixedFreeStack with
  | nil => rw [hstack] at h; exact absurd h (by simp)
  | cons slot rest =>
    rw [hstack] at h
    cases h
    have hnd : slot ∉ rest ∧ rest.Nodup := by
      have := hs.nodup
      rw [hstack] at this
      exact nodup_cons.1 this
    -- a mixed block other than `blk` keeps its slot, which is not the one just taken
    have hother : ∀ b, s.blockState b = .mixed → s.blockMixed b ≠ slot := by
      intro b hb hslot
      exact hs.fresh b hb (by rw [hstack, hslot]; exact mem_cons_self ..)
    refine ⟨⟨hnd.2, fun b hb => ?_, fun b c hb hc hbc => ?_⟩, rfl, rfl, fun b i => ?_⟩
    · by_cases hbb : b = blk
      · subst hbb
        simpa using hnd.1
      simp only [update_of_ne hbb] at hb ⊢
      have := hs.fresh b hb
      rw [hstack] at this
      exact fun hmem => this (mem_cons_of_mem _ hmem)
    · by_cases hbb : b = blk <;> by_cases hcc : c = blk
      · rw [hbb, hcc]
      · simp only [hbb, update_self, update_of_ne hcc] at hc hbc
        exact absurd hbc.symm (hother c hc)
      · simp only [hcc, update_self, update_of_ne hbb] at hb hbc
        exact absurd hbc (hother b hb)
      · simp only [update_of_ne hbb, update_of_ne hcc] at hb hc hbc
        exact hs.inj b c hb hc hbc
    by_cases hbb : b = blk
    · subst hbb
      simp [blockUsed]
    simp only [blockUsed, update_of_ne hbb, if_neg hbb]
    cases hb : s.blockState b with
    | mixed => simp [update_of_ne (hother b hb)]
    | unused | free | used => rfl

theorem mixedAcquire_eq_none : mixedAcquire blk bits s = none ↔ s.mixedFreeStack = [] := by
  unfold mixedAcquire
  cases s.mixedFreeStack <;> simp

/-- A block becomes uniform, and the other mixed blocks keep their slots. -/
theorem SlotsOk.uniform (hs : SlotsOk s) (hst : st ≠ .mixed)
    (hstate : t.blockState = update s.blockState blk st)
    (hmixed : ∀ b, b ≠ blk → t.blockMixed b = s.blockMixed b) (hnodup : t.mixedFreeStack.Nodup)
    (hfresh : ∀ b, b ≠ blk → s.blockState b = .mixed → s.blockMixed b ∉ t.mixedFreeStack) :
    SlotsOk t := by
  have hmix : ∀ b, t.blockState b = .mixed → b ≠ blk ∧ s.blockState b = .mixed := by
    intro b hb
    rw [hstate] at hb
    exact of_update_ne hst hb
  refine ⟨hnodup, fun b hb => ?_, fun b c hb hc hbc => ?_⟩
  · obtain ⟨hbb, hb⟩ := hmix b hb
    rw [hmixed b hbb]
    exact hfresh b hbb hb
  obtain ⟨hbb, hb⟩ := hmix b hb
  obtain ⟨hcc, hc⟩ := hmix c hc
  rw [hmixed b hbb, hmixed c hcc] at hbc
  exact hs.inj b c hb hc hbc

theorem blockUsed_uniform (hst : st ≠ .mixed) (hstate : t.blockState = update s.blockState blk st)
    (hmixed : ∀ b, b ≠ blk → t.blockMixed b = s.blockMixed b) (hbits : t.mixedBits = s.mixedBits)
    (b i : ℕ) : blockUsed t b i = if b = blk then decide (st ≠ .free) else blockUsed s b i := by
  by_cases hbb : b = blk
  · cases st <;> simp_all [blockUsed]
  · simp only [blockUsed, hstate, update_of_ne hbb, hmixed b hbb, hbits, if_neg hbb]

/-- Turning a block into a uniform one, whatever it was. -/
theorem mixedReleaseTo_spec (hs : SlotsOk s) (blk : ℕ) (hst : st ≠ .mixed) :
    let t := mixedReleaseTo blk st s
    SlotsOk t ∧ t.singleFree = s.singleFree ∧ t.freeRuns = s.freeRuns ∧ ∀ b i,
      blockUsed t b i = if b = blk then decide (st ≠ .free) else blockUsed s b i := by
  dsimp only
  unfold mixedReleaseTo
  by_cases hm : s.blockState blk = .mixed
  · have hmixed : ∀ b, b ≠ blk → update s.blockMixed blk 0 b = s.blockMixed b :=
      fun b hb => update_of_ne hb ..
    rw [if_pos hm]
    refine ⟨hs.uniform hst rfl hmixed ?_ fun b hbb hb => ?_, rfl, rfl,
      blockUsed_uniform hst rfl hmixed rfl⟩
    · split
      · exact nodup_cons.2 ⟨hs.fresh blk hm, hs.nodup⟩
      · exact hs.nodup
    have hne : s.blockMixed b ≠ s.blockMixed blk := fun h => hbb (hs.inj b blk hb hm h)
    split
    · simp only [mem_cons, not_or]
      exact ⟨hne, hs.fresh b hb⟩
    · exact hs.fresh b hb
  rw [if_neg hm]
  exact ⟨hs.uniform hst rfl (fun _ _ => rfl) hs.nodup fun b _ => hs.fresh b, rfl, rfl,
    blockUsed_uniform hst rfl (fun _ _ => rfl) rfl⟩

/-- Rewriting the bits of a mixed block. -/
theorem updateBits_spec (hs : SlotsOk s) (hm : s.blockState blk = .mixed) (bits : BitVec 64) :
    SlotsOk { s with mixedBits := update s.mixedBits (s.blockMixed blk) bits } ∧
      ∀ b i, blockUsed { s with mixedBits := update s.mixedBits (s.blockMixed blk) bits }
        b i = if b = blk then bits.getLsbD i else blockUsed s b i := by
  refine ⟨⟨hs.nodup, hs.fresh, hs.inj⟩, fun b i => ?_⟩
  by_cases hbb : b = blk
  · subst hbb
    simp [blockUsed, hm]
  simp only [blockUsed, if_neg hbb]
  cases hb : s.blockState b with
  | mixed =>
    have hne : s.blockMixed b ≠ s.blockMixed blk := fun h => hbb (hs.inj b blk hb hm h)
    simp [update_of_ne hne]
  | unused | free | used => rfl

/-- New bits of a mixed block; a block that becomes uniform gives its slot back. -/
theorem putBits_spec (hs : SlotsOk s) (hm : s.blockState blk = .mixed)
    (bits whole : BitVec 64) (hst : st ≠ .mixed)
    (hwhole : ∀ i < 64, whole.getLsbD i = decide (st ≠ .free)) :
    let s' : State := { s with mixedBits := update s.mixedBits (s.blockMixed blk) bits }
    let t := if bits = whole then mixedReleaseTo blk st s' else s'
    SlotsOk t ∧ t.freeRuns = s.freeRuns ∧ t.singleFree = s.singleFree ∧
      ∀ q < maxPages, pageIsUsed t q =
        if q / 64 = blk then bits.getLsbD (q % 64) else pageIsUsed s q := by
  intro s' t
  obtain ⟨h1, h2⟩ : SlotsOk s' ∧ ∀ b i, blockUsed s' b i =
      if b = blk then bits.getLsbD i else blockUsed s b i := updateBits_spec hs hm bits
  by_cases hfull : bits = whole
  · obtain ⟨g1, g2, g3, g4⟩ := mixedReleaseTo_spec h1 blk hst
    rw [show t = mixedReleaseTo blk st s' from if_pos hfull]
    refine ⟨g1, g3, g2, fun q hq => ?_⟩
    rw [pageIsUsed_of_lt hq, pageIsUsed_of_lt hq, g4, h2, hfull,
      hwhole _ (Nat.mod_lt q (by decide : 0 < 64))]
    split <;> rfl
  rw [show t = s' from if_neg hfull]
  refine ⟨h1, rfl, rfl, fun q hq => ?_⟩
  rw [pageIsUsed_of_lt hq, pageIsUsed_of_lt hq, h2]

/-! ### Spilling -/

/-- Marking `page` would have to split a free block while the mixed table is exhausted. -/
def Spills (s : State) (page : ℕ) : Prop :=
  page < maxPages ∧ s.blockState (page / pagesPerBlock) = .free ∧ s.mixedFreeStack = []

instance (s : State) (page : ℕ) : Decidable (Spills s page) := by unfold Spills; infer_instance

/-- The pages such a split pushes, in the order it pushes them: the other pages of the block, as
long as the stack has room. -/
def spilledPages (s : State) (page : ℕ) : List ℕ :=
  ((((List.range pagesPerBlock).filter (· ≠ page % pagesPerBlock)).take
    (pmmSingleStack - s.singleFree.length)).map (page / pagesPerBlock * pagesPerBlock + ·))

theorem spillLoop_spec (blk keep : ℕ) : ∀ (is : List ℕ) (s : State),
    (spillLoop blk keep is s).singleFree =
        (((is.filter (· ≠ keep)).take (pmmSingleStack - s.singleFree.length)).map
          (blk * pagesPerBlock + ·)).reverse ++ s.singleFree ∧
      (spillLoop blk keep is s).freeRuns = s.freeRuns ∧
      (spillLoop blk keep is s).blockState = s.blockState ∧
      (spillLoop blk keep is s).blockMixed = s.blockMixed ∧
      (spillLoop blk keep is s).mixedBits = s.mixedBits ∧
      (spillLoop blk keep is s).mixedFreeStack = s.mixedFreeStack := by
  intro is
  induction is with
  | nil => intro s; simp [spillLoop]
  | cons i is ih =>
    intro s
    by_cases hk : i = keep
    · simpa [spillLoop, hk] using ih s
    by_cases hroom : pmmSingleStack ≤ s.singleFree.length
    · simp [spillLoop, hk, hroom]
    obtain ⟨n, hn⟩ : ∃ n, pmmSingleStack - s.singleFree.length = n + 1 :=
      ⟨pmmSingleStack - s.singleFree.length - 1, by omega⟩
    have hn' : pmmSingleStack - (s.singleFree.length + 1) = n := by omega
    simp only [spillLoop, if_neg hk, if_neg hroom]
    obtain ⟨h1, h2, h3, h4, h5, h6⟩ := ih
      { s with singleFree := (blk * pagesPerBlock + i) :: s.singleFree
               usedPages := s.usedPages - 1 }
    refine ⟨?_, h2, h3, h4, h5, h6⟩
    rw [h1]
    simp [hk, hn, hn']

theorem SlotsOk.congr (hs : SlotsOk s) (h1 : t.blockState = s.blockState)
    (h2 : t.blockMixed = s.blockMixed) (h3 : t.mixedFreeStack = s.mixedFreeStack) : SlotsOk t := by
  constructor
  · rw [h3]; exact hs.nodup
  · rw [h1, h2, h3]; exact hs.fresh
  · rw [h1, h2]; exact hs.inj

theorem blockUsed_congr (h1 : t.blockState = s.blockState)
    (h2 : t.blockMixed = s.blockMixed) (h3 : t.mixedBits = s.mixedBits) (b i : ℕ) :
    blockUsed t b i = blockUsed s b i := by
  unfold blockUsed
  rw [h1, h2, h3]

/-! ### Marking -/

theorem pageMarkUsed_free {slot : ℕ} {rest : List ℕ} (hp : p < maxPages)
    (hst : s.blockState (p / 64) = .free) (hstack : s.mixedFreeStack = slot :: rest) :
    pageMarkUsed p s = { s with
      mixedFreeStack := rest
      mixedBits := update s.mixedBits slot (pageBit (p % 64))
      blockMixed := update s.blockMixed (p / 64) slot
      blockState := update s.blockState (p / 64) .mixed } := by
  simp [pageMarkUsed, not_le.2 hp, pagesPerBlock, hst, mixedAcquire, hstack]

theorem pageMarkUsed_mixed (hp : p < maxPages) (hst : s.blockState (p / 64) = .mixed) :
    pageMarkUsed p s = let bits := s.mixedBits (s.blockMixed (p / 64)) ||| pageBit (p % 64)
      let s' := { s with mixedBits := update s.mixedBits (s.blockMixed (p / 64)) bits }
      if bits = allUsed then mixedReleaseTo (p / 64) .used s' else s' := by
  simp [pageMarkUsed, not_le.2 hp, pagesPerBlock, hst]

/-- Without a slot, the whole block is marked and its other pages go to the stack. -/
theorem pageMarkUsed_of_spills (h : Spills s p) : pageMarkUsed p s =
    spillLoop (p / 64) (p % 64) (range pagesPerBlock)
      { s with blockState := update s.blockState (p / 64) .used } := by
  obtain ⟨hp, hst, hempty⟩ := h
  simp only [pagesPerBlock] at hst
  simp [pageMarkUsed, not_le.2 hp, pagesPerBlock, hst, mixedAcquire, hempty, spillBlockPagesExcept]

theorem pageMarkUsed_of_unused (h : s.blockState (p / 64) = .unused) : pageMarkUsed p s = s := by
  simp [pageMarkUsed, pagesPerBlock, h]

theorem pageMarkUsed_of_used (h : s.blockState (p / 64) = .used) : pageMarkUsed p s = s := by
  simp [pageMarkUsed, pagesPerBlock, h]

/-- **Marking a page used.** The page becomes used; when the marking spills, so does the rest of
its block, and the spilled pages go to the single-page stack. -/
theorem pageMarkUsed_spec (hs : SlotsOk s) (hp : p < maxPages) :
    let t := pageMarkUsed p s
    SlotsOk t ∧ t.freeRuns = s.freeRuns ∧
      t.singleFree = (if Spills s p then (spilledPages s p).reverse else []) ++ s.singleFree ∧
      ∀ q < maxPages, pageIsUsed t q =
        (pageIsUsed s q || decide (q = p) || decide (Spills s p ∧ q / 64 = p / 64)) := by
  dsimp only
  have hbit : p % 64 < 64 := Nat.mod_lt _ (by decide)
  cases hst : s.blockState (p / 64) with
  | unused | used =>
    have hsp : ¬ Spills s p := by simp [Spills, pagesPerBlock, hst]
    have heq : pageMarkUsed p s = s := by simp [pageMarkUsed, pagesPerBlock, hst]
    rw [heq]
    refine ⟨hs, rfl, by simp [hsp], fun q _ => ?_⟩
    by_cases hq : q = p
    · subst hq
      simp [pageIsUsed_of_lt hp, blockUsed, hst]
    · simp [hsp, hq]
  | free =>
    cases hacq : mixedAcquire (p / 64) (pageBit (p % 64)) s with
    | some s' =>
      have hne : s.mixedFreeStack ≠ [] := fun h => by
        rw [mixedAcquire_eq_none.2 h] at hacq
        exact absurd hacq (by simp)
      have hsp : ¬ Spills s p := fun h => hne h.2.2
      have heq : pageMarkUsed p s = s' := by
        simp [pageMarkUsed, not_le.2 hp, pagesPerBlock, hst, hacq]
      obtain ⟨h1, h2, h3, h4⟩ := mixedAcquire_spec hacq hs (by rw [hst]; decide)
      rw [heq]
      refine ⟨h1, h3, by simp [hsp, h2], fun q hq => ?_⟩
      rw [pageIsUsed_of_lt hq, pageIsUsed_of_lt hq, h4]
      by_cases hb : q / 64 = p / 64
      · simp [hb, hsp, getLsbD_pageBit hbit, page_eq_iff q p, blockUsed, hst]
      · simp [hb, page_eq_iff q p]
    | none =>
      have hempty := mixedAcquire_eq_none.1 hacq
      have hsp : Spills s p := ⟨hp, hst, hempty⟩
      obtain ⟨h1, h2, h3, h4, h5, h6⟩ := spillLoop_spec (p / 64) (p % 64)
        (range pagesPerBlock)
        { s with blockState := update s.blockState (p / 64) .used }
      rw [pageMarkUsed_of_spills hsp]
      refine ⟨hs.uniform (by decide) h3 (fun b _ => by rw [h4]) (by rw [h6]; exact hs.nodup)
        fun b _ hb => ?_, h2, ?_, fun q hq => ?_⟩
      · rw [h6]
        exact hs.fresh b hb
      · rw [h1, if_pos hsp]
        rfl
      rw [pageIsUsed_of_lt hq, pageIsUsed_of_lt hq,
        blockUsed_uniform (s := s) (by decide) h3 (fun b _ => by rw [h4]) h5]
      by_cases hb : q / 64 = p / 64
      · simp [hb, hsp]
      · simp [hb, page_eq_iff q p]
  | mixed =>
    have hsp : ¬ Spills s p := by simp [Spills, pagesPerBlock, hst]
    obtain ⟨h1, h2, h3, h4⟩ := putBits_spec hs hst
      (s.mixedBits (s.blockMixed (p / 64)) ||| pageBit (p % 64)) allUsed
      (by decide : BlockState.used ≠ .mixed) fun i hi => getLsbD_allUsed hi
    rw [pageMarkUsed_mixed hp hst]
    refine ⟨h1, h2, by simpa [hsp] using h3, fun q hq => ?_⟩
    rw [h4 q hq, getLsbD_set _ hbit]
    by_cases hb : q / 64 = p / 64
    · simp [hb, hsp, page_eq_iff q p, pageIsUsed_of_lt hq, blockUsed, hst]
    · simp [hb, page_eq_iff q p]

theorem pageMarkFree_mixed (hp : p < maxPages) (hst : s.blockState (p / 64) = .mixed) :
    pageMarkFree p s = let bits := s.mixedBits (s.blockMixed (p / 64)) &&& ~~~pageBit (p % 64)
      let s' := { s with mixedBits := update s.mixedBits (s.blockMixed (p / 64)) bits }
      if bits = 0#64 then mixedReleaseTo (p / 64) .free s' else s' := by
  simp [pageMarkFree, not_le.2 hp, pagesPerBlock, hst]

/-- Clearing the bit of a page in a mixed block; a block without used pages gives its slot back. -/
theorem clearBit_spec (hs : SlotsOk s) (hst : s.blockState (p / 64) = .mixed) :
    let bits := s.mixedBits (s.blockMixed (p / 64)) &&& ~~~pageBit (p % 64)
    let s' : State :=
      { s with mixedBits := update s.mixedBits (s.blockMixed (p / 64)) bits }
    let t := if bits = 0#64 then mixedReleaseTo (p / 64) .free s' else s'
    SlotsOk t ∧ t.freeRuns = s.freeRuns ∧ t.singleFree = s.singleFree ∧
      ∀ q < maxPages, pageIsUsed t q = (pageIsUsed s q && !decide (q = p)) := by
  intro bits s' t
  obtain ⟨h1, h2, h3, h4⟩ := putBits_spec hs hst bits 0#64 (by decide : BlockState.free ≠ .mixed)
    fun i _ => BitVec.getLsbD_zero
  refine ⟨h1, h2, h3, fun q hq => (h4 q hq).trans ?_⟩
  rw [getLsbD_clear _ (Nat.mod_lt p (by decide : 0 < 64))]
  by_cases hb : q / 64 = p / 64
  · simp [hb, page_eq_iff q p, pageIsUsed_of_lt hq, blockUsed, hst]
  · simp [hb, page_eq_iff q p]

/-- A page given back to a block without a slot finds neither a slot nor room on the stack. -/
def FreeLoses (s : State) (page : ℕ) : Prop :=
  s.blockState (page / 64) = .used ∧ s.mixedFreeStack = [] ∧ pmmSingleStack ≤ s.singleFree.length

/-- **Giving a used page back.** It becomes free in the map, or goes to the single-page stack, or
(no slot and no room) is simply lost; nothing else changes. -/
theorem pageMarkFree_spec (hs : SlotsOk s) (hp : p < maxPages) (hused : pageIsUsed s p = true) :
    let t := pageMarkFree p s
    SlotsOk t ∧ t.freeRuns = s.freeRuns ∧
      ((t.singleFree = s.singleFree ∧
          ∀ q < maxPages, pageIsUsed t q = (pageIsUsed s q && !decide (q = p))) ∨
        (t.singleFree = p :: s.singleFree ∧ s.singleFree.length < pmmSingleStack ∧
          ∀ q < maxPages, pageIsUsed t q = pageIsUsed s q) ∨
        t = s ∧ (s.blockState (p / 64) = .unused ∨ FreeLoses s p)) := by
  dsimp only
  have hbit : p % 64 < 64 := Nat.mod_lt _ (by decide)
  cases hst : s.blockState (p / 64) with
  | unused =>
    have heq : pageMarkFree p s = s := by simp [pageMarkFree, pagesPerBlock, hst]
    rw [heq]
    exact ⟨hs, rfl, .inr (.inr ⟨rfl, .inl rfl⟩)⟩
  | free =>
    rw [pageIsUsed_of_lt hp] at hused
    simp [blockUsed, hst] at hused
  | used =>
    cases hacq : mixedAcquire (p / 64) (allUsed ^^^ pageBit (p % 64)) s with
    | some s' =>
      have heq : pageMarkFree p s = s' := by
        simp [pageMarkFree, not_le.2 hp, pagesPerBlock, hst, hacq]
      obtain ⟨h1, h2, h3, h4⟩ := mixedAcquire_spec hacq hs (by rw [hst]; decide)
      rw [heq]
      refine ⟨h1, h3, .inl ⟨h2, fun q hq => ?_⟩⟩
      rw [pageIsUsed_of_lt hq, pageIsUsed_of_lt hq, h4]
      by_cases hb : q / 64 = p / 64
      · have hq64 : q % 64 < 64 := Nat.mod_lt _ (by decide)
        simp [hb, getLsbD_allUsed_xor hbit hq64, page_eq_iff q p, blockUsed, hst]
      · simp [hb, page_eq_iff q p]
    | none =>
      by_cases hroom : s.singleFree.length < pmmSingleStack
      · have heq : pageMarkFree p s = { s with singleFree := p :: s.singleFree } := by
          simp [pageMarkFree, not_le.2 hp, pagesPerBlock, hst, hacq, hroom]
        rw [heq]
        exact ⟨hs.congr rfl rfl rfl, rfl, .inr (.inl ⟨rfl, hroom, fun q _ => rfl⟩)⟩
      have heq : pageMarkFree p s = s := by simp [pageMarkFree, pagesPerBlock, hst, hacq, hroom]
      rw [heq]
      exact ⟨hs, rfl, .inr (Or.inr ⟨rfl, Or.inr ⟨hst, mixedAcquire_eq_none.1 hacq,
        Nat.le_of_not_lt hroom⟩⟩)⟩
  | mixed =>
    obtain ⟨h1, h2, h3, h4⟩ := clearBit_spec hs hst
    rw [pageMarkFree_mixed hp hst]
    exact ⟨h1, h2, Or.inl ⟨h3, h4⟩⟩

end PeakOs.Pmm
