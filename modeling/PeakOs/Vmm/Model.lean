import Mathlib.Data.Finset.Basic
import Mathlib.Data.List.FinRange
import PeakOs.Lib.BitMask
import PeakOs.Lib.RadixTree
import PeakOs.Pmm.Model

/-!
# Address spaces

`kernel/vmm.c` for x86_64. An address space is named by the frame of its top table. Tables are found
by their physical address, so the model of memory is one row of 512 words for each frame, and an
entry leads to the frame that is left when its low twelve bits are cut off.

Allocation is seen from outside: `free` is the set of frames that the allocator has, and which of
them a call gets, if any, is up to a `Policy` that comes with the call. Frame 0 is the null pointer.
A frame given back joins `free` if its number is one the allocator knows; other addresses are
ignored, as `pmm_free_n` ignores them.

`installed` is a history the source does not keep: the leaf entries that `vmm_map_page_flags` has
stored, latest first, each with the address it was stored for.

The aarch64 branches, `vmm_switch` and the copying between user and kernel memory are not modelled.
-/

namespace PeakOs.Vmm

open RadixTree

/-! ### Entries -/

abbrev Pte := BitVec 64

/-- The software flags `VMM_*`. -/
abbrev Flags := BitVec 32

def isPresent (flags : Flags) : Bool := flags.getLsbD 0

def isWrite (flags : Flags) : Bool := flags.getLsbD 1

def isUser (flags : Flags) : Bool := flags.getLsbD 2

def isExec (flags : Flags) : Bool := flags.getLsbD 3

def isGlobal (flags : Flags) : Bool := flags.getLsbD 4

def isNocache (flags : Flags) : Bool := flags.getLsbD 5

/-- `~0xFFFULL`. -/
def addrMask : BitVec 64 := ~~~0xFFF#64

def present (e : Pte) : Bool := e.getLsbD 0

def writable (e : Pte) : Bool := e.getLsbD 1

def userBit (e : Pte) : Bool := e.getLsbD 2

/-- `PTE_NX`. -/
def noExec (e : Pte) : Bool := e.getLsbD 63

/-- The frame an address lies in, flags cut off below but not above. -/
def frameOf (a : BitVec 64) : ℕ := (a &&& addrMask).toNat / 4096

def physAddr (p : ℕ) : BitVec 64 := BitVec.ofNat 64 (p * 4096)

/-- Where the walk goes from an entry. -/
def child (e : Pte) : Option ℕ := if present e then some (frameOf e) else none

/-- `if (b) pte |= 1 << k`. -/
def orBit (b : Bool) (k : ℕ) (pte : Pte) : Pte := if b then BitMask.setBit pte k else pte

def flagsToPte (nxEnabled : Bool) (flags : Flags) : Pte :=
  let pte := orBit (isPresent flags) 0 0#64
  let pte := orBit (isWrite flags) 1 pte
  let pte := orBit (isUser flags) 2 pte
  let pte := orBit (isGlobal flags) 8 pte
  let pte := orBit (isNocache flags) 4 pte
  orBit (nxEnabled && !isExec flags) 63 pte

/-! ### State -/

structure State where
  /-- Memory, by frame. -/
  mem : Tables 512 Pte
  /-- The frames that `pmm_alloc` can hand out. -/
  free : Finset ℕ
  nxEnabled : Bool
  /-- The frame of `kernel_cr3`. -/
  kernelCr3 : ℕ
  /-- The frame of the current top table. -/
  currentCr3 : ℕ
  installed : List (ℕ × Pte)

/-- How the allocator answers during a call. -/
structure Policy where
  pick : Finset ℕ → Option ℕ
  /-- It hands out frames that are free. -/
  mem_of_pick : ∀ {S : Finset ℕ} {p : ℕ}, pick S = some p → p ∈ S

def pmmAlloc (policy : Policy) (s : State) : Option ℕ × State :=
  match policy.pick s.free with
  | none => (none, s)
  | some p => (if p = 0 then none else some p, { s with free := s.free.erase p })

def pmmFree (phys : BitVec 64) (s : State) : State :=
  if Pmm.maxPages ≤ phys.toNat / 4096 then s
  else { s with free := insert (phys.toNat / 4096) s.free }

def State.writeRow (p : ℕ) (row : Fin 512 → Pte) (s : State) : State :=
  { s with mem := Function.update s.mem p row }

def State.store (t : ℕ) (i : Fin 512) (e : Pte) (s : State) : State :=
  { s with mem := setEntry s.mem t i e }

/-! ### Walking -/

/-- The index of `vaddr` in a table: level 3 is the top table, level 0 the last. -/
def tableIndex (vaddr level : ℕ) : Fin 512 := Fin.ofNat 512 (vaddr / 2 ^ (12 + 9 * level))

/-- `i4`, `i3` and `i2`. -/
def upperPath (vaddr : ℕ) : List (Fin 512) :=
  [tableIndex vaddr 3, tableIndex vaddr 2, tableIndex vaddr 1]

/-- The flags of a table entry: the user bit only below the middle of the top table. -/
def tableFlags (i4 : Fin 512) : Pte := if i4.val < 256 then 0b111#64 else 0b011#64

/-- One level of `pt_walk_alloc`. `create` is the allocator's answer if a missing table is to be
made. -/
def nextTable (create : Option Policy) (flags : Pte) (t : ℕ) (i : Fin 512) (s : State) :
    Option ℕ × State :=
  if present (s.mem t i) then (some (frameOf (s.mem t i)), s)
  else
    match create with
    | none => (none, s)
    | some policy =>
      match pmmAlloc policy s with
      | (none, s) => (none, s)
      | (some p, s) =>
        let s := (s.writeRow p fun _ => 0#64).store t i (physAddr p ||| flags)
        (some (frameOf (s.mem t i)), s)

/-- The three levels, which the source writes out one after the other. -/
def descend (create : Option Policy) (flags : Pte) : ℕ → List (Fin 512) → State → Option ℕ × State
  | t, [], s => (some t, s)
  | t, i :: π, s =>
    match nextTable create flags t i s with
    | (none, s) => (none, s)
    | (some u, s) => descend create flags u π s

/-- The last table, and the index of `vaddr` in it. -/
def ptWalkAlloc (cr3 vaddr : ℕ) (create : Option Policy) (s : State) :
    Option (ℕ × Fin 512) × State :=
  match descend create (tableFlags (tableIndex vaddr 3)) cr3 (upperPath vaddr) s with
  | (none, s) => (none, s)
  | (some pt, s) => (some (pt, tableIndex vaddr 0), s)

/-! ### Mapping -/

/-- The first address that is not a user address. -/
def userEnd : ℕ := 0x0000800000000000

/-- The checks of `vmm_map_page_flags` before it walks. -/
def rejects (vaddr : ℕ) (flags : Flags) : Bool :=
  !isPresent flags || (isUser flags && isWrite flags && isExec flags) ||
    decide (vaddr % 4096 ≠ 0) || (isUser flags && decide (userEnd ≤ vaddr))

def leafEntry (nxEnabled : Bool) (paddr : BitVec 64) (flags : Flags) : Pte :=
  (paddr &&& addrMask) ||| flagsToPte nxEnabled flags

/-- `*pte = e`, for the entry of `vaddr`. -/
def State.install (vaddr t : ℕ) (i : Fin 512) (e : Pte) (s : State) : State :=
  { s with mem := setEntry s.mem t i e, installed := (vaddr, e) :: s.installed }

def vmmMapPageFlags (policy : Policy) (cr3 vaddr : ℕ) (paddr : BitVec 64) (flags : Flags)
    (s : State) : Bool × State :=
  if rejects vaddr flags then (false, s)
  else
    match ptWalkAlloc cr3 vaddr (some policy) s with
    | (none, s) => (false, s)
    | (some (t, i), s) => (true, s.install vaddr t i (leafEntry s.nxEnabled paddr flags))

/-- `VMM_PROT_RX`. -/
def protRx : Flags := 0b1101#32

/-- `VMM_PROT_RW`. -/
def protRw : Flags := 0b0111#32

def vmmMapPage (policy : Policy) (cr3 vaddr : ℕ) (paddr : BitVec 64) (userWritable : Bool) :
    State → Bool × State :=
  vmmMapPageFlags policy cr3 vaddr paddr (if userWritable then protRw else protRx)

def vmmUnmapPage (cr3 vaddr : ℕ) (s : State) : Bool × State :=
  match ptWalkAlloc cr3 vaddr none s with
  | (none, s) => (false, s)
  | (some (t, i), s) => if present (s.mem t i) then (true, s.store t i 0#64) else (false, s)

/-- The flags `vmm_query` reports for an entry. -/
def queryFlags (nxEnabled : Bool) (e : Pte) : Flags :=
  (1#32 ||| if writable e then 2#32 else 0#32) |||
    ((if userBit e then 4#32 else 0#32) ||| if !nxEnabled || !noExec e then 8#32 else 0#32)

def vmmQuery (cr3 vaddr : ℕ) (s : State) : Option (BitVec 64 × Flags) :=
  match (ptWalkAlloc cr3 vaddr none s).1 with
  | none => none
  | some (t, i) =>
    if present (s.mem t i) then
      some (s.mem t i &&& addrMask, queryFlags s.nxEnabled (s.mem t i))
    else none

/-- The loop of `vmm_protect_range`, for `fuel` turns; `none` while it is still running. -/
def protectLoop (policy : Policy) (cr3 stop : ℕ) (flags : Flags) :
    ℕ → ℕ → State → Option Bool × State
  | 0, v, s => (if v < stop then none else some true, s)
  | fuel + 1, v, s =>
    if v < stop then
      match vmmQuery cr3 v s with
      | none => (some false, s)
      | some (pa, _) =>
        match vmmMapPageFlags policy cr3 v pa flags s with
        | (false, s) => (some false, s)
        | (true, s) => protectLoop policy cr3 stop flags fuel ((v + 4096) % 2 ^ 64) s
    else (some true, s)

def vmmProtectRange (policy : Policy) (fuel cr3 vaddr len : ℕ) (flags : Flags) (s : State) :
    Option Bool × State :=
  if vaddr % 4096 ≠ 0 then (some false, s)
  else if (vaddr + len) % 2 ^ 64 < vaddr then (some false, s)
  else protectLoop policy cr3 ((vaddr + len) % 2 ^ 64) flags fuel vaddr s

/-! ### Creating and destroying -/

def vmmCreateAddressSpace (policy : Policy) (s : State) : Option ℕ × State :=
  match pmmAlloc policy s with
  | (none, s) => (none, s)
  | (some p, s) =>
    let s := s.writeRow p fun _ => 0#64
    (some p, s.writeRow p fun i => if 256 ≤ i.val then s.mem s.currentCr3 i else s.mem p i)

/-- The body of the loops that take a table down: what lies below entry `i` goes first. -/
def freeSlot (below : ℕ → State → State) (t : ℕ) (s : State) (i : Fin 512) : State :=
  if present (s.mem t i) then
    let phys := s.mem t i &&& addrMask
    (pmmFree phys (below (frameOf phys) s)).store t i 0#64
  else s

/-- `free_pt_level`. At level 1 the entries are leaves, and nothing lies below them. -/
def freePtLevel : ℕ → ℕ → State → State
  | 0, _, s => s
  | level + 1, t, s => (List.finRange 512).foldl (freeSlot (freePtLevel level) t) s

/-- The entries of the top table that belong to the user half. -/
def userIndexes : List (Fin 512) := (List.finRange 512).filter fun i => i.val < 256

def vmmDestroyAddressSpace (cr3 : ℕ) (s : State) : State :=
  if cr3 = 0 ∨ cr3 = s.kernelCr3 then s
  else pmmFree (physAddr cr3) (userIndexes.foldl (freeSlot (freePtLevel 3) cr3) s)

/-! ### Calls -/

/-- A call on an address space, with what the allocator answers during it. -/
inductive Call
  | map (policy : Policy) (vaddr : ℕ) (paddr : BitVec 64) (flags : Flags)
  | mapPage (policy : Policy) (vaddr : ℕ) (paddr : BitVec 64) (userWritable : Bool)
  | unmap (vaddr : ℕ)
  | protect (policy : Policy) (fuel vaddr len : ℕ) (flags : Flags)

def Call.run (cr3 : ℕ) (s : State) : Call → State
  | .map policy vaddr paddr flags => (vmmMapPageFlags policy cr3 vaddr paddr flags s).2
  | .mapPage policy vaddr paddr userWritable => (vmmMapPage policy cr3 vaddr paddr userWritable s).2
  | .unmap vaddr => (vmmUnmapPage cr3 vaddr s).2
  | .protect policy fuel vaddr len flags => (vmmProtectRange policy fuel cr3 vaddr len flags s).2

end PeakOs.Vmm
