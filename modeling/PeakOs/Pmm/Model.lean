import Mathlib.Tactic.Ring

/-!
# The physical page allocator

`kernel/pmm.c`. The status of a page is spread over three structures:

* a two-level map — one `BlockState` for each block of 64 pages, and for a `mixed` block 64 bits
  in a slot of a table of `maxMixed` entries (bit set means used);
* a stack of single free pages, and
* a list of free runs of pages.

Pages on the stack or on the run list stay marked *used* in the map, so that the linear scan of
`allocFromMap` cannot hand them out as well.

Static arrays are total functions on `ℕ`; every index the code computes is below the array's size.
A C array with a fill counter (`mixed_free_stack`, `single_free`, `free_runs`) is the list of its
live entries: a stack has its top at the head, the run list keeps index order. 64-bit arithmetic is
arithmetic in `ℕ`, with an explicit `% 2 ^ 64` where a caller or the boot map can make it wrap.
-/

namespace PeakOs.Pmm

def pageSize : ℕ := 4096
def maxPages : ℕ := 4096 * 1024
def pagesPerBlock : ℕ := 64
def maxMixed : ℕ := 4096
def pmmFreeRuns : ℕ := 128
def pmmSingleStack : ℕ := 2048

/-- `BLK_UNUSED`, `BLK_FREE`, `BLK_USED`, `BLK_MIXED`. -/
inductive BlockState
  | unused
  | free
  | used
  | mixed
  deriving DecidableEq, Repr

/-- `struct pmm_run`. -/
structure PmmRun where
  start : ℕ
  n : ℕ
  deriving DecidableEq, Repr

/-- The file's static variables. -/
structure State where
  blockState : ℕ → BlockState
  blockMixed : ℕ → ℕ
  mixedBits : ℕ → BitVec 64
  mixedFreeStack : List ℕ
  totalPages : ℕ
  usedPages : ℕ
  hhdmOffset : ℕ
  highestPage : ℕ
  allocCursor : ℕ
  singleFree : List ℕ
  freeRuns : List PmmRun

/-! ### The two-level map -/

/-- `1ull << bit`. -/
def pageBit (bit : ℕ) : BitVec 64 := 1#64 <<< bit

/-- `~0ull`, the bits of a block without a free page. -/
def allUsed : BitVec 64 := BitVec.allOnes 64

/-- `none` is the `-1` of an exhausted mixed table. -/
def mixedAcquire (blk : ℕ) (initialBits : BitVec 64) (s : State) : Option State :=
  match s.mixedFreeStack with
  | [] => none
  | slot :: rest =>
    some { s with
      mixedFreeStack := rest
      mixedBits := Function.update s.mixedBits slot initialBits
      blockMixed := Function.update s.blockMixed blk slot
      blockState := Function.update s.blockState blk .mixed }

def mixedReleaseTo (blk : ℕ) (newState : BlockState) (s : State) : State :=
  if s.blockState blk = .mixed then
    { s with
      mixedFreeStack :=
        if s.mixedFreeStack.length < maxMixed then s.blockMixed blk :: s.mixedFreeStack
        else s.mixedFreeStack
      blockMixed := Function.update s.blockMixed blk 0
      blockState := Function.update s.blockState blk newState }
  else { s with blockState := Function.update s.blockState blk newState }

def pageIsUsed (s : State) (page : ℕ) : Bool :=
  if maxPages ≤ page then true
  else
    match s.blockState (page / pagesPerBlock) with
    | .unused | .used => true
    | .free => false
    | .mixed => (s.mixedBits (s.blockMixed (page / pagesPerBlock))).getLsbD (page % pagesPerBlock)

/-- The loop of `spill_block_pages_except` over the page numbers still to visit. -/
def spillLoop (blk keepBit : ℕ) : List ℕ → State → State
  | [], s => s
  | i :: is, s =>
    if i = keepBit then spillLoop blk keepBit is s
    else if pmmSingleStack ≤ s.singleFree.length then s
    else spillLoop blk keepBit is
      { s with
        singleFree := (blk * pagesPerBlock + i) :: s.singleFree
        usedPages := s.usedPages - 1 }

def spillBlockPagesExcept (blk keepBit : ℕ) (s : State) : State :=
  spillLoop blk keepBit (List.range pagesPerBlock) s

def pageMarkUsed (page : ℕ) (s : State) : State :=
  if maxPages ≤ page then s
  else
    let blk := page / pagesPerBlock
    let bit := page % pagesPerBlock
    match s.blockState blk with
    | .used | .unused => s
    | .free =>
      match mixedAcquire blk (pageBit bit) s with
      | some s' => s'
      | none =>
        spillBlockPagesExcept blk bit
          { s with blockState := Function.update s.blockState blk .used }
    | .mixed =>
      let slot := s.blockMixed blk
      let s' := { s with
        mixedBits := Function.update s.mixedBits slot (s.mixedBits slot ||| pageBit bit) }
      if s'.mixedBits slot = allUsed then mixedReleaseTo blk .used s' else s'

def pageMarkFree (page : ℕ) (s : State) : State :=
  if maxPages ≤ page then s
  else
    let blk := page / pagesPerBlock
    let bit := page % pagesPerBlock
    match s.blockState blk with
    | .free | .unused => s
    | .used =>
      match mixedAcquire blk (allUsed ^^^ pageBit bit) s with
      | some s' => s'
      | none =>
        if s.singleFree.length < pmmSingleStack then { s with singleFree := page :: s.singleFree }
        else s
    | .mixed =>
      let slot := s.blockMixed blk
      let s' := { s with
        mixedBits := Function.update s.mixedBits slot (s.mixedBits slot &&& ~~~pageBit bit) }
      if s'.mixedBits slot = 0#64 then mixedReleaseTo blk .free s' else s'

/-! ### Initialisation from the boot memory map -/

/-- `enum peak_mmap_type`; the allocator ignores every value it does not name. -/
inductive MmapType
  | usable
  | reserved
  | acpiReclaim
  | acpiNvs
  | bad
  | bootloader
  | kernel
  | framebuffer
  | other
  deriving DecidableEq, Repr

/-- `struct peak_mmap_entry`. -/
structure MmapEntry where
  base : ℕ
  length : ℕ
  type : MmapType
  deriving DecidableEq, Repr

/-- The fields of `struct peak_bootinfo` that `pmm_init` reads. -/
structure BootInfo where
  hhdmOffset : ℕ
  mmap : List MmapEntry

/-- One page of a block that `mark_usable_range` cannot claim whole. -/
def markUsablePage (start : ℕ) (s : State) : State :=
  let blk := start / pagesPerBlock
  let bit := start % pagesPerBlock
  match s.blockState blk with
  | .unused =>
    match mixedAcquire blk (allUsed ^^^ pageBit bit) s with
    | some s' => s'
    | none => { s with blockState := Function.update s.blockState blk .free }
  | .used => pageMarkFree start s
  | .mixed =>
    let slot := s.blockMixed blk
    let s' := { s with
      mixedBits := Function.update s.mixedBits slot (s.mixedBits slot &&& ~~~pageBit bit) }
    if s'.mixedBits slot = 0#64 then mixedReleaseTo blk .free s' else s'
  | .free => s

/-- The loop of `mark_usable_range`. Every iteration advances `start`, so `stop - start` is enough
fuel. -/
def markUsableLoop (stop : ℕ) : ℕ → ℕ → State → State
  | 0, _, s => s
  | fuel + 1, start, s =>
    if start < stop then
      let blk := start / pagesPerBlock
      if start % pagesPerBlock = 0 ∧ start + pagesPerBlock ≤ stop then
        let s' :=
          if s.blockState blk = .mixed then mixedReleaseTo blk .free s
          else { s with blockState := Function.update s.blockState blk .free }
        markUsableLoop stop fuel (start + pagesPerBlock)
          { s' with
            totalPages := s'.totalPages + pagesPerBlock
            highestPage := start + pagesPerBlock - 1 }
      else
        let s' := markUsablePage start s
        markUsableLoop stop fuel (start + 1)
          { s' with
            totalPages := s'.totalPages + 1
            highestPage := if s'.highestPage < start then start else s'.highestPage }
    else s

def markUsableRange (start stop : ℕ) (s : State) : State :=
  let stop := min stop maxPages
  markUsableLoop stop (stop - start) start s

/-- Take one page away from the pool if it is in it. -/
def reservePage (s : State) (p : ℕ) : State :=
  if pageIsUsed s p then s
  else
    let s' := pageMarkUsed p s
    { s' with totalPages := s'.totalPages - 1 }

def claimUsable (s : State) (e : MmapEntry) : State :=
  if e.type = .usable then
    markUsableRange ((e.base + (pageSize - 1)) % 2 ^ 64 / pageSize)
      ((e.base + e.length) % 2 ^ 64 / pageSize) s
  else s

def reserveEntry (s : State) (e : MmapEntry) : State :=
  if e.type = .kernel ∨ e.type = .bootloader ∨ e.type = .framebuffer then
    let start := e.base / pageSize
    let stop := min ((e.base + e.length + (pageSize - 1)) % 2 ^ 64 / pageSize) maxPages
    (List.range' start (stop - start)).foldl reservePage s
  else s

/-- The state `pmm_init` sets up before it reads the memory map. The mixed slots are pushed in
increasing order, so the last one is on top. -/
def pmmReset (info : BootInfo) : State where
  blockState := fun _ => .unused
  blockMixed := fun _ => 0
  mixedBits := fun _ => 0
  mixedFreeStack := (List.range maxMixed).reverse
  totalPages := 0
  usedPages := 0
  hhdmOffset := info.hhdmOffset
  highestPage := 0
  allocCursor := 0
  singleFree := []
  freeRuns := []

def pmmInit (info : BootInfo) : State :=
  let s := info.mmap.foldl claimUsable (pmmReset info)
  let s := (List.range 256).foldl reservePage s
  let s := info.mmap.foldl reserveEntry s
  { s with usedPages := 0, singleFree := [], freeRuns := [], allocCursor := 256 }

/-! ### Allocation -/

/-- The inner scan: the offset of the first used page among `count` pages from `start + i`. -/
def firstUsed (s : State) (start : ℕ) : ℕ → ℕ → Option ℕ
  | _, 0 => none
  | i, count + 1 =>
    if pageIsUsed s ((start + i) % 2 ^ 64) then some i else firstUsed s start (i + 1) count

/-- One pass of the linear scan for `n` free pages in `[start, stop)`. The bound test is the code's
`start + n <= end`, which wraps; `start` itself stays far below `2 ^ 64`. -/
def scanMap (s : State) (n stop start : ℕ) : Option ℕ :=
  if _h : start < 2 ^ 64 ∧ (start + n) % 2 ^ 64 ≤ stop then
    match firstUsed s start 0 n with
    | none => some start
    | some i => scanMap s n stop (start + i + 1)
  else none
termination_by 2 ^ 64 - start

/-- The first page past the managed range. -/
def scanLimit (s : State) : ℕ := min (s.highestPage + 1) maxPages

/-- `alloc_cursor` as the scan uses it. -/
def scanCursor (s : State) : ℕ := if scanLimit s ≤ s.allocCursor then 256 else s.allocCursor

/-- Both passes: from the cursor to the limit, then from page 256 to the cursor. -/
def findInMap (n : ℕ) (s : State) : Option ℕ :=
  match scanMap s n (scanLimit s) (scanCursor s) with
  | some start => some start
  | none => scanMap s n (scanCursor s) 256

/-- Mark `n` pages from `start`, one by one. -/
def markRange : ℕ → ℕ → State → State
  | 0, _, s => s
  | n + 1, start, s =>
    let s' := pageMarkUsed start s
    markRange n (start + 1) { s' with usedPages := s'.usedPages + 1 }

def allocFromMap (n : ℕ) (s : State) : Option ℕ × State :=
  let s := { s with allocCursor := scanCursor s }
  match findInMap n s with
  | none => (none, s)
  | some start =>
    (some (start * pageSize), { markRange n start s with allocCursor := start + n })

/-- `a[i] = a[--count]`. -/
def removeRun (runs : List PmmRun) (i : ℕ) : List PmmRun :=
  match runs.getLast? with
  | none => runs
  | some last => (runs.set i last).dropLast

/-- The first free run of at least `n` pages. -/
def findRun (runs : List PmmRun) (n : ℕ) : Option ℕ := runs.findIdx? fun r => !decide (r.n < n)

/-- Serve `n` pages from the front of the free run `r`, which sits at index `i`. -/
def takeRun (n i : ℕ) (r : PmmRun) (s : State) : State :=
  let left := r.n - n
  let s :=
    if left = 0 then { s with freeRuns := removeRun s.freeRuns i }
    else if left = 1 ∧ s.singleFree.length < pmmSingleStack then
      { s with singleFree := (r.start + n) :: s.singleFree, freeRuns := removeRun s.freeRuns i }
    else { s with freeRuns := s.freeRuns.set i ⟨r.start + n, left⟩ }
  { s with usedPages := s.usedPages + n }

def pmmAllocPages (n : ℕ) (s : State) : Option ℕ × State :=
  if n = 0 then (none, s)
  else
    match n, s.singleFree with
    | 1, pg :: rest =>
      (some (pg * pageSize), { s with singleFree := rest, usedPages := s.usedPages + 1 })
    | 1, [] => allocFromMap 1 s
    | n, _ =>
      match findRun s.freeRuns n with
      | none => allocFromMap n s
      | some i =>
        match s.freeRuns[i]? with
        | none => allocFromMap n s
        | some r => (some (r.start * pageSize), takeRun n i r s)

def pmmAlloc (s : State) : Option ℕ × State := pmmAllocPages 1 s

/-! ### Release -/

def pmmPageOnFreelist (s : State) (page : ℕ) : Bool :=
  s.singleFree.contains page ||
    s.freeRuns.any fun r => decide (r.start ≤ page) && decide (page < r.start + r.n)

/-- The fallback of `pmm_free_n`: give the pages back to the map one by one. -/
def freeToMap : ℕ → ℕ → State → State
  | 0, _, s => s
  | n + 1, pg, s =>
    if maxPages ≤ pg then s
    else if pageIsUsed s pg then
      let s' := pageMarkFree pg s
      freeToMap n (pg + 1) { s' with usedPages := s'.usedPages - 1 }
    else freeToMap n (pg + 1) s

def pmmFreeN (phys n : ℕ) (s : State) : State :=
  let p := phys / pageSize
  if n = 0 ∨ maxPages ≤ p then s
  else if (List.range n).any fun i => decide (maxPages ≤ p + i) || pmmPageOnFreelist s (p + i) then
    s
  else if n = 1 ∧ s.singleFree.length < pmmSingleStack ∧ pageIsUsed s p then
    { s with singleFree := p :: s.singleFree, usedPages := s.usedPages - 1 }
  else if 1 < n ∧ s.freeRuns.length < pmmFreeRuns ∧
      (List.range n).all fun i => !decide (maxPages ≤ p + i) && pageIsUsed s (p + i) then
    { s with
      freeRuns := s.freeRuns ++ [⟨p, n⟩]
      usedPages := if n < s.usedPages then s.usedPages - n else 0 }
  else freeToMap n p s

def pmmFree (phys : ℕ) (s : State) : State := pmmFreeN phys 1 s

def pmmTotalPages (s : State) : ℕ := s.totalPages

def pmmFreePages (s : State) : ℕ :=
  if s.usedPages < s.totalPages then s.totalPages - s.usedPages else 0

end PeakOs.Pmm
