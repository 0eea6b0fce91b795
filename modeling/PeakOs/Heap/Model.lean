import PeakOs.Pmm.Ownership

/-!
# The kernel heap

`kernel/heap.c`. Every allocation is a block: a 32-byte header followed by the payload. All blocks
are on the chain `blocks`; a free block is also on the free list of its size class.

The chain `blocks` is the list of its headers in `next` order, and a free list is the list of the
header addresses in `free_next` order. (The invariant proved later gives every block one place on
the chain and at most one on the free lists, so no chain is ever shared or cyclic.) Addresses are
physical: `vmm_phys_to_virt` adds the constant offset of the direct map. Payload bytes are not
modelled, so the copy of `krealloc` and the wiping of `kzalloc`, `kfree_sensitive` and
`heap_poison_payload` have no counterpart; neither has the spinlock.

The heap takes its pages from the allocator of `PeakOs.Pmm.Model`. `Sys` keeps track of the pages
it got and did not give back, and of the pages held by everybody else.
-/

namespace PeakOs.Heap

open Pmm (pageSize)

/-- `HEAP_MAGIC_ALLOC`. -/
def heapMagicAlloc : ℕ := 0xA11C0DED
/-- `HEAP_MAGIC_FREE`. -/
def heapMagicFree : ℕ := 0xF4EEF4EE

/-- `sizeof(struct heap_block)`. -/
def headerSize : ℕ := 32

/-- `struct heap_block`, without the links; `none` is size class `-1`. -/
structure Block where
  addr : ℕ
  magic : ℕ
  free : Bool
  sizeClass : Option ℕ
  size : ℕ
  deriving DecidableEq, Repr

/-- The first address after the block. -/
def Block.stop (b : Block) : ℕ := b.addr + headerSize + b.size

/-- `heap_class_size`. -/
def heapClassSize : List ℕ := [16, 32, 64, 128, 256, 512, 1024, 2048, 4032]

def heapNClasses : ℕ := 9

def heapSizeClass (size : ℕ) : Option ℕ := heapClassSize.findIdx? fun c => decide (size ≤ c)

/-- The file's static variables. -/
structure State where
  blocks : List Block
  freeLists : ℕ → List ℕ
  heapOoms : ℕ
  heapBadHdrs : ℕ

/-- The heap, the page allocator under it, the pages the heap got from it, and the pages held by
the allocator's other callers. -/
structure Sys where
  pmm : Pmm.State
  heap : State
  heapPages : List ℕ
  otherPages : List ℕ

def heapHeaderOkAlloced (b : Block) : Bool :=
  decide (b.magic = heapMagicAlloc) && !b.free && !decide (b.size = 0 ∨ b.size % 16 ≠ 0) &&
    decide (heapSizeClass b.size = b.sizeClass)

/-! ### The chains -/

def getBlock (h : State) (a : ℕ) : Option Block := h.blocks.find? fun b => decide (b.addr = a)

/-- Rewrite the header at address `a`. -/
def modifyBlock (a : ℕ) (f : Block → Block) (h : State) : State :=
  { h with blocks := h.blocks.map fun b => if b.addr = a then f b else b }

/-- `freelist_push` on the lists alone; the caller's header gets the class too. -/
def pushFree (b : Block) (lists : ℕ → List ℕ) : ℕ → List ℕ :=
  match heapSizeClass b.size with
  | none => lists
  | some cls => Function.update lists cls (b.addr :: lists cls)

/-- `freelist_remove`. -/
def freelistRemove (b : Block) (lists : ℕ → List ℕ) : ℕ → List ℕ :=
  match heapSizeClass b.size with
  | none => lists
  | some cls => Function.update lists cls ((lists cls).erase b.addr)

/-- A header as `freelist_push` leaves it. -/
def Block.reclassify (b : Block) : Block := { b with sizeClass := heapSizeClass b.size }

/-- `heap_mark_alloced`. -/
def heapMarkAlloced (b : Block) : Block :=
  { b with free := false, magic := heapMagicAlloc, sizeClass := heapSizeClass b.size }

/-- A header as `kfree` leaves it. -/
def markFreed (b : Block) : Block := { b with free := true, magic := heapMagicFree }.reclassify

/-- A free header. -/
def freeBlock (addr size : ℕ) : Block := ⟨addr, heapMagicFree, true, heapSizeClass size, size⟩

/-! ### Initialisation and growth -/

/-- The loop of `heap_init`. -/
def heapInitLoop : ℕ → Sys → Sys
  | 0, s => s
  | n + 1, s =>
    match Pmm.pmmAlloc s.pmm with
    | (none, pmm) => { s with pmm := pmm }
    | (some phys, pmm) =>
      let b := freeBlock phys (pageSize - headerSize)
      heapInitLoop n
        { s with
          pmm := pmm
          heap := { s.heap with
            blocks := b :: s.heap.blocks
            freeLists := pushFree b s.heap.freeLists }
          heapPages := Pmm.grantedPages 1 (some phys) ++ s.heapPages }

def heapReset : State := ⟨[], fun _ => [], 0, 0⟩

/-- `heap_init` on an allocator whose other callers already hold `otherPages`. -/
def heapInit (pmm : Pmm.State) (otherPages : List ℕ) : Sys :=
  heapInitLoop 128 ⟨pmm, heapReset, [], otherPages⟩

/-- The number of pages `alloc_pages_block` asks for; both additions wrap. -/
def blockPages (size : ℕ) : ℕ :=
  ((size + headerSize) % 2 ^ 64 + (pageSize - 1)) % 2 ^ 64 / pageSize

def allocPagesBlock (size : ℕ) (s : Sys) : Option ℕ × Sys :=
  let npages := blockPages size
  match Pmm.pmmAllocPages npages s.pmm with
  | (none, pmm) => (none, { s with pmm := pmm })
  | (some phys, pmm) =>
    let bsize := npages * pageSize - headerSize
    let b : Block := ⟨phys, heapMagicAlloc, false, heapSizeClass bsize, bsize⟩
    (some (phys + headerSize),
      { s with
        pmm := pmm
        heap := { s.heap with blocks := b :: s.heap.blocks }
        heapPages := Pmm.grantedPages npages (some phys) ++ s.heapPages })

/-! ### Allocation -/

/-- Unlink the head of the first non-empty free list among `classes`. -/
def popFirst (h : State) : List ℕ → Option (ℕ × State)
  | [] => none
  | c :: cs =>
    match h.freeLists c with
    | [] => popFirst h cs
    | a :: rest => some (a, { h with freeLists := Function.update h.freeLists c rest })

/-- The size classes from `cls` up. -/
def classesFrom (cls : ℕ) : List ℕ := List.range' cls (heapNClasses - cls)

def heapFreelistSteal (cls : ℕ) (h : State) : Option (ℕ × State) :=
  popFirst h (classesFrom (cls + 1))

/-- Put the free block `n` behind the block at `a`, which is cut down to `size`. -/
def splitBlocks (a size : ℕ) (n : Block) : List Block → List Block
  | [] => []
  | b :: bs =>
    if b.addr = a then { b with size := size } :: n :: bs else b :: splitBlocks a size n bs

/-- Hand out `size` bytes of the unlinked block at `a`, splitting it when enough is left. -/
def carve (a size : ℕ) (h : State) : Option ℕ × State :=
  match getBlock h a with
  | none => (none, h)
  | some b =>
    let h :=
      if size + headerSize + 64 ≤ b.size then
        let n := freeBlock (a + headerSize + size) (b.size - size - headerSize)
        { h with
          blocks := splitBlocks a size n h.blocks
          freeLists := pushFree n h.freeLists }
      else h
    (some (a + headerSize), modifyBlock a heapMarkAlloced h)

/-- `(size + 15) & ~15`, which wraps. -/
def roundUp16 (size : ℕ) : ℕ := (size + 15) % 2 ^ 64 / 16 * 16

/-- The part of `kmalloc` that serves a request from the free lists. -/
def takeFree (size : ℕ) (h : State) : Option (Option ℕ × State) :=
  match heapSizeClass size with
  | none => none
  | some cls =>
    match popFirst h (classesFrom cls) with
    | some (a, h') => some (carve a size h')
    | none =>
      match heapFreelistSteal cls h with
      | some (a, h') => some (carve a size h')
      | none => none

/-- The end of `kmalloc`: a large request, or nothing on the free lists. -/
def growFromPmm (size : ℕ) (s : Sys) : Option ℕ × Sys :=
  match allocPagesBlock size s with
  | (none, s') =>
    (none, { s' with heap := { s'.heap with heapOoms := (s'.heap.heapOoms + 1) % 2 ^ 32 } })
  | (some p, s') => (some p, s')

def kmalloc (size : ℕ) (s : Sys) : Option ℕ × Sys :=
  if size = 0 then (none, s)
  else
    let size := roundUp16 size
    match takeFree size s.heap with
    | some (ret, h) => (ret, { s with heap := h })
    | none => growFromPmm size s

def kzalloc (size : ℕ) (s : Sys) : Option ℕ × Sys := kmalloc size s

/-! ### Release -/

/-- `heap_coalesce` over the rest of the chain. Merging keeps the current block and looks again, as
the inner `while` does. -/
def coalesceLoop : List Block → (ℕ → List ℕ) → List Block × (ℕ → List ℕ)
  | [], lists => ([], lists)
  | [b], lists => ([b], lists)
  | b :: n :: rest, lists =>
    if b.free && n.free && decide (b.stop = n.addr) then
      let merged := { b with size := b.size + (headerSize + n.size), magic := heapMagicFree }
      coalesceLoop (merged.reclassify :: rest)
        (pushFree merged (freelistRemove n (freelistRemove b lists)))
    else
      let r := coalesceLoop (n :: rest) lists
      (b :: r.1, r.2)
termination_by bs => bs.length

def heapCoalesce (h : State) : State :=
  let r := coalesceLoop h.blocks h.freeLists
  { h with blocks := r.1, freeLists := r.2 }

/-- `kfree` of the payload at `ptr`; `none` is `NULL`. A pointer that is the payload of no block is
not a call the heap's clients make, and leaves the state alone. -/
def kfree (ptr : Option ℕ) (s : Sys) : Sys :=
  match ptr with
  | none => s
  | some p =>
    match getBlock s.heap (p - headerSize) with
    | none => s
    | some b =>
      if b.free || decide (b.magic = heapMagicFree) then s
      else if !heapHeaderOkAlloced b then
        { s with heap := { s.heap with heapBadHdrs := (s.heap.heapBadHdrs + 1) % 2 ^ 32 } }
      else
        let total := b.size + headerSize
        if pageSize < total then
          let npages := (total + (pageSize - 1)) / pageSize
          { s with
            pmm := Pmm.pmmFreeN b.addr npages s.pmm
            heap := { s.heap with blocks := s.heap.blocks.erase b }
            heapPages := s.heapPages.diff (List.range' (b.addr / pageSize) npages) }
        else
          let h := { modifyBlock b.addr markFreed s.heap with
            freeLists := pushFree b s.heap.freeLists }
          { s with heap := heapCoalesce h }

def kfreeSensitive (ptr : Option ℕ) (_len : ℕ) (s : Sys) : Sys := kfree ptr s

def krealloc (ptr : Option ℕ) (size : ℕ) (s : Sys) : Option ℕ × Sys :=
  match ptr with
  | none => kmalloc size s
  | some p =>
    if size = 0 then (none, kfree ptr s)
    else
      let size := roundUp16 size
      match getBlock s.heap (p - headerSize) with
      | none => (none, s)
      | some b =>
        if !heapHeaderOkAlloced b then
          (none,
            { s with heap := { s.heap with heapBadHdrs := (s.heap.heapBadHdrs + 1) % 2 ^ 32 } })
        else if size ≤ b.size then (ptr, s)
        else
          match kmalloc size s with
          | (none, s') => (none, s')
          | (some n, s') => (some n, kfree ptr s')

/-! ### Runs -/

/-- The heap's operations, and a call of the page allocator by somebody else. -/
inductive Call
  | kmalloc (size : ℕ)
  | kzalloc (size : ℕ)
  | krealloc (ptr : Option ℕ) (size : ℕ)
  | kfree (ptr : Option ℕ)
  | kfreeSensitive (ptr : Option ℕ) (len : ℕ)
  | pmm (c : Pmm.Call)

def Sys.step (s : Sys) : Call → Sys
  | .kmalloc size => (kmalloc size s).2
  | .kzalloc size => (kzalloc size s).2
  | .krealloc ptr size => (krealloc ptr size s).2
  | .kfree ptr => kfree ptr s
  | .kfreeSensitive ptr len => kfreeSensitive ptr len s
  | .pmm c =>
    let r := (⟨s.pmm, s.otherPages⟩ : Pmm.Sys).step c
    { s with pmm := r.pmm, otherPages := r.held }

/-- A pointer is `NULL` or the payload of a block on the chain, allocated or already freed. -/
def Sys.ValidPtr (s : Sys) : Option ℕ → Prop
  | none => True
  | some p => ∃ b ∈ s.heap.blocks, p = b.addr + headerSize

/-- Clients pass pointers the heap gave them, and other callers of the page allocator free only
pages of their own. -/
def Sys.Legal (s : Sys) : Call → Prop
  | .kmalloc _ | .kzalloc _ => True
  | .krealloc ptr _ | .kfree ptr | .kfreeSensitive ptr _ => s.ValidPtr ptr
  | .pmm c => (⟨s.pmm, s.otherPages⟩ : Pmm.Sys).Legal c

/-- The start of a run: `heap_init` on a page allocator that has already served the callers before
it. -/
def Sys.Booted (σ : Pmm.Sys) (s : Sys) : Prop := s = heapInit σ.pmm σ.held

end PeakOs.Heap
