import PeakOs.Heap.Pages
import PeakOs.Pmm.SpillRun

/-!
# What a request gets

Two properties one expects of a heap, on the runs of `PeakOs.Heap.Pages`.

*Reuse.* A free block should be on the free list of its size class, and while one is large enough a
request should not grow the heap. No block ever has a size class, so this holds only while there is
no free block at all. `heap_init` makes free blocks, and a free block is never used again, so with
a working page allocator it never holds.

*Room.* The block returned for a request should have room for it and lie in pages of the heap, away
from the other blocks. The request is rounded up to 16, gets a header added and is rounded up to
pages, all modulo `2 ^ 64`. The three sums wrap to a request for one page exactly when the size is
above `2 ^ 64 - 32`.

## Main results

* `reuse_iff_no_free` — the first property, state by state
* `kmalloc_room_iff` — the second, request by request
-/

namespace PeakOs.Heap

open List

open Pmm (pageSize Owned grantedPages maxPages)

/-! ### Reuse -/

/-- A block is free iff it is on exactly one free list, that of its size class. -/
def Sys.FreeListed (s : Sys) : Prop :=
  ∀ b ∈ s.heap.blocks, b.free = true ↔
    ∃ cls, heapSizeClass b.size = some cls ∧
      ∀ c, (s.heap.freeLists c).count b.addr = if c = cls then 1 else 0

/-- A small request takes no new pages while a free block is large enough. -/
def Sys.Reuses (s : Sys) : Prop :=
  ∀ n, 1 ≤ n → n ≤ 4032 → (∃ b ∈ s.heap.blocks, b.free = true ∧ n ≤ b.size) →
    (kmalloc n s).2.heapPages = s.heapPages

variable {s : Sys} {b : Block} {size : ℕ}

theorem Paged.freeListed_iff (h : Paged s) :
    s.FreeListed ↔ ∀ b ∈ s.heap.blocks, b.free = false := by
  have hnone : ∀ b ∈ s.heap.blocks, ¬ ∃ cls, heapSizeClass b.size = some cls ∧
      ∀ c, (s.heap.freeLists c).count b.addr = if c = cls then 1 else 0 := by
    rintro b hb ⟨cls, hcls, -⟩
    rw [(h.whole b hb).class_none] at hcls
    cases hcls
  constructor
  · intro hl b hb
    exact Bool.eq_false_iff.2 fun hf => hnone b hb ((hl b hb).1 hf)
  intro hno b hb
  simp only [hno b hb, Bool.false_eq_true, false_iff]
  exact hnone b hb

def Sys.HasFree (s : Sys) : Prop := ∃ b ∈ s.heap.blocks, b.free = true

/-- A request on empty free lists only adds to the chain. -/
theorem Paged.kmalloc_blocks (h : Paged s) (size : ℕ) :
    s.heap.blocks <:+ (kmalloc size s).2.heap.blocks := by
  rcases eq_or_ne size 0 with rfl | hsize
  · exact suffix_rfl
  rw [h.kmalloc_eq hsize, growFromPmm, allocPagesBlock]
  rcases Pmm.pmmAllocPages (blockPages (roundUp16 size)) s.pmm with ⟨_ | phys, pmm⟩
  · exact suffix_rfl
  · exact suffix_cons _ _

theorem Paged.hasFree_kmalloc (h : Paged s) (hf : s.HasFree) (size : ℕ) :
    (kmalloc size s).2.HasFree := by
  obtain ⟨b, hb, hbf⟩ := hf
  exact ⟨b, (h.kmalloc_blocks size).subset hb, hbf⟩

/-- A free block outlives every `kfree`: the block given back is an allocated one. -/
theorem Paged.hasFree_kfree (h : Paged s) (hf : s.HasFree) (ptr : Option ℕ) :
    (kfree ptr s).HasFree := by
  rcases kfree_cases ptr s with ⟨n, heq⟩ | ⟨b, hb, hbf, heq | heq⟩
  · exact heq ▸ hf
  · obtain ⟨x, hx, hxf⟩ := hf
    have hne : x ≠ b := fun e => by rw [e, hbf] at hxf; cases hxf
    rw [heq]
    exact ⟨x, (mem_erase_of_ne hne).2 hx, hxf⟩
  · rw [heq]
    exact (recycleBlock_paged h hb).2

theorem Paged.hasFree_step (h : Paged s) (hf : s.HasFree) {c : Call}
    (hsafe : s.NoSpill c) : (s.step c).HasFree := by
  cases c with
  | kmalloc size | kzalloc size => exact h.hasFree_kmalloc hf size
  | krealloc ptr size =>
    simp only [Sys.step]
    rcases krealloc_cases ptr size s with ⟨n, heq⟩ | heq | ⟨n, hn, heq | heq⟩
    · exact heq ▸ hf
    · exact heq ▸ h.hasFree_kfree hf ptr
    · exact heq ▸ h.hasFree_kmalloc hf n
    · have hk := h.after_kmalloc
        (show s.NoSpill (.kmalloc n) by simpa only [Sys.NoSpill, hn] using hsafe)
      exact heq ▸ hk.hasFree_kfree (h.hasFree_kmalloc hf n) ptr
  | kfree ptr | kfreeSensitive ptr len => exact h.hasFree_kfree hf ptr
  | pmm c => exact hf

theorem heapInitLoop_blocks : ∀ (n : ℕ) (s : Sys),
    s.heap.blocks <:+ (heapInitLoop n s).heap.blocks := by
  intro n
  induction n with
  | zero => exact fun s => suffix_rfl
  | succ n ih =>
    intro s
    unfold heapInitLoop
    rcases Pmm.pmmAlloc s.pmm with ⟨_ | phys, pmm⟩
    · exact suffix_rfl
    have hnext := ih { s with
      pmm := pmm
      heap := { s.heap with
        blocks := freeBlock phys (pageSize - headerSize) :: s.heap.blocks
        freeLists := pushFree (freeBlock phys (pageSize - headerSize)) s.heap.freeLists }
      heapPages := grantedPages 1 (some phys) ++ s.heapPages }
    exact (suffix_cons _ _).trans hnext

/-- `heap_init` leaves a free block if it got a page. -/
theorem hasFree_init {pmm : Pmm.State} {others : List ℕ}
    (h : (Pmm.pmmAlloc pmm).1.isSome = true) : (heapInit pmm others).HasFree := by
  unfold heapInit heapInitLoop
  rcases halloc : Pmm.pmmAlloc pmm with ⟨_ | phys, pmm'⟩
  · simp [halloc] at h
  · exact ⟨freeBlock phys (pageSize - headerSize),
      (heapInitLoop_blocks 127 _).subset (mem_cons_self ..), rfl⟩

/-! ### A booted heap -/

theorem heapInitLoop_filling : ∀ (n : ℕ) {k : ℕ} {s : Sys}, k + n ≤ 64 * 4096 →
    Pmm.Filling k ⟨s.pmm, s.heapPages⟩ →
    ∃ held, Pmm.Filling (k + n) ⟨(heapInitLoop n s).pmm, held⟩ := by
  intro n
  induction n with
  | zero => intro k s _ h; exact ⟨_, h⟩
  | succ n ih =>
    intro k s hk h
    have hstep := h.step_alloc (by omega)
    have halloc := h.pmmAlloc_eq (by omega)
    simp only [Pmm.Sys.step, halloc] at hstep
    rw [heapInitLoop, halloc, show k + (n + 1) = k + 1 + n by omega]
    exact ih (by omega) hstep

/-- The heap on the memory map of `PeakOs.Pmm.SpillRun`, right after boot. -/
def bootedHeap : Sys := heapInit (Pmm.pmmInit Pmm.spillMap) []

theorem bootedHeap_paged : Paged bootedHeap := paged_init (Pmm.owned_init _)

/-- The map has more pages than `heap_init` takes. -/
theorem heapInitLoop_pmmAlloc {n : ℕ} (hn : n < 64 * 4096) :
    (Pmm.pmmAlloc (heapInitLoop n ⟨Pmm.pmmInit Pmm.spillMap, heapReset, [], []⟩).pmm).1.isSome =
      true := by
  obtain ⟨held, h⟩ := heapInitLoop_filling n (s := ⟨Pmm.pmmInit Pmm.spillMap, heapReset, [], []⟩)
    (by omega) Pmm.filling_zero
  have hnext := h.pmmAlloc_eq (by omega)
  rw [hnext]
  rfl

theorem bootedHeap_hasFree : bootedHeap.HasFree :=
  hasFree_init (heapInitLoop_pmmAlloc (n := 0) (by decide))

/-- **Memory that is free is not used**: the pages `heap_init` takes are free and on no list. -/
theorem free_blocks_unlisted :
    ¬ ∀ (info : Pmm.BootInfo) (σ : Pmm.Sys) (s : Sys),
      Reach (Pmm.Sys.Booted info) Pmm.Sys.Legal Pmm.Sys.step σ →
      Reach (Sys.Booted σ) Sys.Legal Sys.step s → s.FreeListed ∧ s.Reuses := by
  intro hclaim
  have hl := (hclaim Pmm.spillMap ⟨Pmm.pmmInit Pmm.spillMap, []⟩ bootedHeap (.start rfl)
    (.start rfl)).1
  obtain ⟨b, hb, hbf⟩ := bootedHeap_hasFree
  rw [bootedHeap_paged.freeListed_iff.1 hl b hb] at hbf
  cases hbf

/-- **A heap that got a page never reuses anything**: the pages of `heap_init` are free blocks
without a size class, and so they stay in every run. -/
theorem reuse_iff_no_free (info : Pmm.BootInfo) {σ : Pmm.Sys} {s : Sys}
    (hσ : Reach (Pmm.Sys.Booted info) (fun σ c => σ.Legal c ∧ σ.NoSpill c) Pmm.Sys.step σ)
    (h : Reach (Sys.Booted σ) (fun s c => s.Legal c ∧ s.NoSpill c) Sys.step s) :
    ((s.FreeListed ∧ s.Reuses) ↔ ∀ b ∈ s.heap.blocks, b.free = false) ∧
      ((Pmm.pmmAlloc σ.pmm).1.isSome = true → ¬ (s.FreeListed ∧ s.Reuses)) := by
  have hp := paged_of_reach hσ h
  refine ⟨⟨fun hr => hp.freeListed_iff.1 hr.1, fun hno => ⟨hp.freeListed_iff.2 hno, ?_⟩⟩, ?_⟩
  · rintro n - - ⟨b, hb, hbf, -⟩
    rw [hno b hb] at hbf
    cases hbf
  rintro hpage ⟨hl, -⟩
  have hfree : Paged s ∧ s.HasFree := by
    refine Reach.invariant (fun s => Paged s ∧ s.HasFree) ?_ ?_ h
    · rintro s rfl
      exact ⟨paged_init (Pmm.owned_of_reach hσ), hasFree_init hpage⟩
    · exact fun s c hs hok => ⟨hs.1.step hok.1 hok.2, hs.1.hasFree_step hs.2 hok.2⟩
  obtain ⟨b, hb, hbf⟩ := hfree.2
  rw [hp.freeListed_iff.1 hl b hb] at hbf
  cases hbf

theorem reuse_fails_on_bootedHeap : ¬ (bootedHeap.FreeListed ∧ bootedHeap.Reuses) :=
  (reuse_iff_no_free Pmm.spillMap (σ := ⟨Pmm.pmmInit Pmm.spillMap, []⟩) (.start rfl)
    (.start rfl)).2 (heapInitLoop_pmmAlloc (n := 0) (by decide))

/-! ### Room -/

/-- No two blocks overlap, headers included. -/
def Sys.Disjoint (s : Sys) : Prop :=
  s.heap.blocks.Pairwise fun b b' => b.stop ≤ b'.addr ∨ b'.stop ≤ b.addr

/-- The payload at `p` has room for `size` bytes, lies in pages of the heap, and meets neither the
header nor the payload of another block. -/
def Sys.Room (s : Sys) (p size : ℕ) : Prop :=
  ∃ b ∈ s.heap.blocks, p = b.addr + headerSize ∧ size ≤ b.size ∧
    (∀ x, p ≤ x → x < p + b.size → x / pageSize ∈ s.heapPages) ∧
    ∀ b' ∈ s.heap.blocks.erase b, b'.stop ≤ p ∨ p + b.size ≤ b'.addr

/-- Every block is good for its own size. -/
theorem Paged.room (h : Paged s) (hb : b ∈ s.heap.blocks)
    (hsize : size ≤ b.size) : s.Room (b.addr + headerSize) size := by
  refine ⟨b, hb, rfl, hsize, fun x h1 h2 => ?_, fun b' hb' => ?_⟩
  · refine h.pages.mem_iff.2 (mem_flatMap.2 ⟨b, hb, (h.whole b hb).mem_pages ?_ ?_⟩)
    · omega
    · exact h2
  have hperm := perm_cons_erase hb
  have hpw := (hperm.pairwise_iff (fun h => h.symm)).1 h.blocks_disjoint
  rcases rel_of_pairwise_cons hpw hb' with hd | hd
  · exact .inr hd
  · exact .inl (by omega)

/-- No block is larger than the memory. -/
theorem Paged.size_lt (h : Paged s) (hb : b ∈ s.heap.blocks) : b.size < maxPages * pageSize := by
  obtain ⟨ha, hw, hpos⟩ := h.whole b hb
  have hlast : b.addr / pageSize + ((b.size + headerSize) / pageSize - 1) ∈ b.pages := by
    simp only [Block.pages, mem_range'_1, pageSize, headerSize] at *
    omega
  have hheap := h.pages.mem_iff.2 (mem_flatMap.2 ⟨b, hb, hlast⟩)
  have hlt := (h.owned.used _ (mem_append_left _ (mem_append_left _ hheap))).1
  simp only [pageSize, headerSize, maxPages] at *
  omega

/-- What `alloc_pages_block` asks for is enough, as long as the sums do not wrap to one page. -/
theorem le_blockPages (hsize : size ≤ 2 ^ 64 - 32) (hpos : 0 < blockPages (roundUp16 size)) :
    size ≤ blockPages (roundUp16 size) * pageSize - headerSize := by
  simp only [blockPages, roundUp16, pageSize, headerSize] at *
  omega

theorem blockPages_of_wrap (hsize : 2 ^ 64 - 32 < size) (hlt : size < 2 ^ 64) :
    blockPages (roundUp16 size) = 1 := by
  simp only [blockPages, roundUp16, pageSize, headerSize] at *
  omega

/-- **Room for a request.** -/
theorem Paged.kmalloc_room_iff (h : Paged s) (hpos : 1 ≤ size)
    (hlt : size < 2 ^ 64) (hsafe : s.NoSpill (.kmalloc size)) :
    (∀ p, (kmalloc size s).1 = some p → (kmalloc size s).2.Room p size) ↔
      (size ≤ 2 ^ 64 - 32 ∨ (Pmm.pmmAlloc s.pmm).1 = none) := by
  have hafter := h.after_kmalloc hsafe
  rw [h.kmalloc_eq (by omega), growFromPmm, allocPagesBlock] at *
  rcases lt_or_ge (2 ^ 64 - 32) size with hwrap | hle
  · -- one page, whose block cannot have that size
    rw [blockPages_of_wrap hwrap hlt] at *
    change _ ↔ _ ∨ (Pmm.pmmAllocPages 1 s.pmm).1 = none
    rcases halloc : Pmm.pmmAllocPages 1 s.pmm with ⟨_ | phys, pmm⟩
    · simp
    rw [halloc] at hafter
    simp only [Option.some.injEq, forall_eq', reduceCtorEq, or_false]
    refine iff_of_false ?_ (by omega)
    rintro ⟨b, hb, -, hsize, -⟩
    have := hafter.size_lt hb
    simp only [maxPages, pageSize] at this
    omega
  rcases halloc : Pmm.pmmAllocPages (blockPages (roundUp16 size)) s.pmm with ⟨_ | phys, pmm⟩
  · exact iff_of_true (fun p hp => by cases hp) (.inl hle)
  rw [halloc] at hafter
  obtain ⟨hn, -⟩ := Pmm.pmmAllocPages_some halloc
  refine iff_of_true (fun p hp => ?_) (.inl hle)
  injection hp with hp
  subst hp
  exact hafter.room (mem_cons_self ..) (le_blockPages hle hn)

/-- **A request above `2 ^ 64 - 32` bytes is answered with one page.** -/
theorem kmalloc_wraps :
    ¬ ∀ (info : Pmm.BootInfo) (σ : Pmm.Sys) (s : Sys),
      Reach (Pmm.Sys.Booted info) Pmm.Sys.Legal Pmm.Sys.step σ →
      Reach (Sys.Booted σ) Sys.Legal Sys.step s →
      s.Disjoint ∧ ∀ size, 1 ≤ size → size < 2 ^ 64 →
        ∀ p, (kmalloc size s).1 = some p → (kmalloc size s).2.Room p size := by
  intro hclaim
  have hroom := (hclaim Pmm.spillMap ⟨Pmm.pmmInit Pmm.spillMap, []⟩ bootedHeap (.start rfl)
    (.start rfl)).2 (2 ^ 64 - 1) (by decide) (by decide)
  have hsafe : bootedHeap.NoSpill (.kmalloc (2 ^ 64 - 1)) := fun h => absurd h (by decide)
  rcases (bootedHeap_paged.kmalloc_room_iff (by decide) (by decide) hsafe).1 hroom with h | h
  · exact absurd h (by decide)
  have hpage := heapInitLoop_pmmAlloc (n := 128) (by decide)
  rw [show (Pmm.pmmAlloc (heapInitLoop 128 _).pmm).1 = none from h] at hpage
  cases hpage

/-- **Room for every request that does not wrap.** In every run in which the page allocator is not
hit by its own spill, no two blocks overlap, and a request is served with room for it exactly when
its size is at most `2 ^ 64 - 32`, or there is no page left to be returned for it. -/
theorem room_of_reach (info : Pmm.BootInfo) {σ : Pmm.Sys} {s : Sys}
    (hσ : Reach (Pmm.Sys.Booted info) (fun σ c => σ.Legal c ∧ σ.NoSpill c) Pmm.Sys.step σ)
    (h : Reach (Sys.Booted σ) (fun s c => s.Legal c ∧ s.NoSpill c) Sys.step s) :
    s.Disjoint ∧ ∀ size, 1 ≤ size → size < 2 ^ 64 → s.NoSpill (.kmalloc size) →
      ((∀ p, (kmalloc size s).1 = some p → (kmalloc size s).2.Room p size) ↔
        (size ≤ 2 ^ 64 - 32 ∨ (Pmm.pmmAlloc s.pmm).1 = none)) :=
  have hp := paged_of_reach hσ h
  ⟨hp.blocks_disjoint, fun _ hpos hlt hsafe => hp.kmalloc_room_iff hpos hlt hsafe⟩

theorem bootedHeap_room :
    bootedHeap.Disjoint ∧
      ∀ p, (kmalloc 100 bootedHeap).1 = some p → (kmalloc 100 bootedHeap).2.Room p 100 :=
  have h := room_of_reach Pmm.spillMap (σ := ⟨Pmm.pmmInit Pmm.spillMap, []⟩) (.start rfl)
    (.start (show Sys.Booted _ bootedHeap from rfl))
  ⟨h.1, (h.2 100 (by decide) (by decide) fun hn => absurd hn (by decide)).2 (.inl (by decide))⟩

end PeakOs.Heap
