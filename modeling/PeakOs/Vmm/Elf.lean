import PeakOs.Vmm.Model

/-!
# Loading an ELF image

`exec_elf` of `kernel/elf.c`, from the bytes of the file to the address space in which the program
is entered. What the loader does after the address space is created is a list of steps that depends
on the file alone: each program header is checked when its turn comes, the pages of a segment are
loaded one after the other, and the stack comes last. The first step that fails takes the address
space down.

The buffer for the file and the entry to user mode are not modelled, nor is `p_paddr`, which nothing
reads.
-/

namespace PeakOs.Vmm

/-- The number that `k` bytes at `off` spell, lowest byte first. -/
def readLe (bytes : ℕ → UInt8) : ℕ → ℕ → ℕ
  | 0, _ => 0
  | k + 1, off => (bytes off).toNat + 256 * readLe bytes k (off + 1)

/-- The fields of the ELF header that are read. -/
structure Ehdr where
  ident : List ℕ
  machine : ℕ
  entry : ℕ
  phoff : ℕ
  phentsize : ℕ
  phnum : ℕ

/-- The size of the packed header, up to `e_phnum`. -/
def ehdrSize : ℕ := 58

def phdrSize : ℕ := 56

def fileByte (file : List UInt8) (i : ℕ) : UInt8 := file.getD i 0

def ehdr (file : List UInt8) : Ehdr where
  ident := (List.range 5).map fun i => readLe (fileByte file) 1 i
  machine := readLe (fileByte file) 2 18
  entry := readLe (fileByte file) 8 24
  phoff := readLe (fileByte file) 8 32
  phentsize := readLe (fileByte file) 2 54
  phnum := readLe (fileByte file) 2 56

structure Phdr where
  type : ℕ
  flags : ℕ
  offset : ℕ
  vaddr : ℕ
  filesz : ℕ
  memsz : ℕ
  align : ℕ

/-- Program header `i`. -/
def phdr (file : List UInt8) (i : ℕ) : Phdr :=
  let at_ := (ehdr file).phoff + i * phdrSize
  { type := readLe (fileByte file) 4 at_
    flags := readLe (fileByte file) 4 (at_ + 4)
    offset := readLe (fileByte file) 8 (at_ + 8)
    vaddr := readLe (fileByte file) 8 (at_ + 16)
    filesz := readLe (fileByte file) 8 (at_ + 32)
    memsz := readLe (fileByte file) 8 (at_ + 40)
    align := readLe (fileByte file) 8 (at_ + 48) }

/-- `elf_load`: the entry point of a file whose header is accepted. -/
def elfLoad (file : List UInt8) : Option ℕ :=
  let eh := ehdr file
  let phEnd := (eh.phoff + eh.phnum * eh.phentsize) % 2 ^ 64
  if file.length < ehdrSize then none
  else if eh.ident ≠ [0x7F, 0x45, 0x4C, 0x46, 2] then none
  else if eh.machine ≠ 62 then none
  else if eh.phentsize ≠ phdrSize then none
  else if eh.phnum = 0 ∨ 64 < eh.phnum then none
  else if file.length ≤ eh.phoff ∨ file.length < phEnd ∨ phEnd < eh.phoff then none
  else if eh.entry = 0 ∨ userEnd ≤ eh.entry then none
  else some eh.entry

def ptLoad : ℕ := 1

def pfX (flags : ℕ) : Bool := flags.testBit 0

def pfW (flags : ℕ) : Bool := flags.testBit 1

def phdrValid (ph : Phdr) (flen : ℕ) : Bool :=
  if ph.type ≠ ptLoad then true
  else if ph.memsz < ph.filesz then false
  else if flen < ph.offset ∨ flen - ph.offset < ph.filesz then false
  else if pfW ph.flags && pfX ph.flags then false
  else if ph.vaddr < 0x1000 then false
  else if userEnd ≤ ph.vaddr then false
  else if 0 < ph.memsz ∧ (ph.vaddr + ph.memsz) % 2 ^ 64 < ph.vaddr then false
  else if userEnd < (ph.vaddr + ph.memsz) % 2 ^ 64 then false
  else if 1 < ph.align ∧ ph.align &&& (ph.align - 1) ≠ 0 then false
  else true

def phdrVmmFlags (flags : ℕ) : Flags :=
  (0b101#32 ||| if pfW flags then 2#32 else 0#32) ||| if pfX flags then 8#32 else 0#32

/-- The addresses of `for (v = p_vaddr & ~0xFFF; v < end; v += 4096)`. -/
def segmentPages (ph : Phdr) : List ℕ :=
  let start := ph.vaddr / 4096 * 4096
  let stop := (ph.vaddr + ph.memsz) % 2 ^ 64
  (List.range ((stop - start + 4095) / 4096)).map fun k => start + k * 4096

/-- Byte `b` of the page at `v`. -/
def segmentByte (file : List UInt8) (ph : Phdr) (v b : ℕ) : UInt8 :=
  let va := v + b
  let src := (ph.offset + (va - ph.vaddr)) % 2 ^ 64
  if ph.vaddr ≤ va ∧ va < (ph.vaddr + ph.filesz) % 2 ^ 64 ∧ src < file.length then
    fileByte file src
  else 0

/-- A page of bytes as a row of words. -/
def pageRow (bytes : ℕ → UInt8) (i : Fin 512) : Pte := BitVec.ofNat 64 (readLe bytes 8 (8 * i.val))

/-- A step of the loader. -/
inductive LoadStep
  | check (valid : Bool)
  | page (vaddr : ℕ) (flags : Flags) (row : Fin 512 → Pte)

def segmentSteps (file : List UInt8) (ph : Phdr) : List LoadStep :=
  .check (phdrValid ph file.length) ::
    if ph.type ≠ ptLoad then []
    else (segmentPages ph).map fun v =>
      .page v (phdrVmmFlags ph.flags) (pageRow (segmentByte file ph v))

def userStackTop : ℕ := 0x7FFFFFF000

/-- The top of the stack, moved down by a random number of pages if there is one. -/
def stackTop (slide : Option (BitVec 16)) : ℕ :=
  match slide with
  | none => userStackTop
  | some b => userStackTop - b.toNat % 256 * 4096

def stackSteps (top : ℕ) : List LoadStep :=
  (List.range 16).map fun i => .page (top - 16 * 4096 + i * 4096) protRw fun _ => 0#64

def loadSteps (file : List UInt8) (slide : Option (BitVec 16)) : List LoadStep :=
  ((List.range (ehdr file).phnum).flatMap fun i => segmentSteps file (phdr file i)) ++
    stackSteps (stackTop slide)

/-- Load one page: a frame, its contents, its mapping. A frame whose mapping fails is not given
back. -/
def loadPage (policy : Policy) (cr3 vaddr : ℕ) (flags : Flags) (row : Fin 512 → Pte) (s : State) :
    Bool × State :=
  match pmmAlloc policy s with
  | (none, s) => (false, s)
  | (some pg, s) => vmmMapPageFlags policy cr3 vaddr (physAddr pg) flags (s.writeRow pg row)

/-- How `exec_elf` ends, where the program is not entered: `-999` or `-1`. -/
inductive LoadError
  | notExecutable
  | failed
  deriving DecidableEq

def runLoad (policy : Policy) (cr3 : ℕ) : List LoadStep → State → Option LoadError × State
  | [], s => (none, s)
  | .check valid :: steps, s =>
    if valid then runLoad policy cr3 steps s else (some .notExecutable, s)
  | .page vaddr flags row :: steps, s =>
    match loadPage policy cr3 vaddr flags row s with
    | (false, s) => (some .failed, s)
    | (true, s) => runLoad policy cr3 steps s

inductive ExecResult
  | error (e : LoadError)
  | entered (cr3 entry stack : ℕ)
  deriving DecidableEq

def execElf (policy : Policy) (file : List UInt8) (slide : Option (BitVec 16)) (s : State) :
    ExecResult × State :=
  match elfLoad file with
  | none => (.error .notExecutable, s)
  | some entry =>
    match vmmCreateAddressSpace policy s with
    | (none, s) => (.error .failed, s)
    | (some cr3, s) =>
      match runLoad policy cr3 (loadSteps file slide) s with
      | (some e, s) => (.error e, vmmDestroyAddressSpace cr3 s)
      | (none, s) => (.entered cr3 entry (stackTop slide - 16), s)

/-- A program that is entered has been loaded. -/
theorem execElf_entered {policy : Policy} {file : List UInt8} {slide : Option (BitVec 16)}
    {s₀ s : State} {root entry stack : ℕ}
    (h : execElf policy file slide s₀ = (.entered root entry stack, s)) :
    elfLoad file = some entry ∧ ∃ s₁, vmmCreateAddressSpace policy s₀ = (some root, s₁) ∧
      runLoad policy root (loadSteps file slide) s₁ = (none, s) := by
  rw [execElf] at h
  rcases hfile : elfLoad file with _ | start <;> simp only [hfile] at h
  · cases h
  rcases hcreate : vmmCreateAddressSpace policy s₀ with ⟨_ | cr3, s₁⟩ <;> simp only [hcreate] at h
  · cases h
  rcases hrun : runLoad policy cr3 (loadSteps file slide) s₁ with ⟨_ | e, s₂⟩ <;>
    simp only [hrun] at h <;> cases h
  exact ⟨rfl, s₁, rfl, hrun⟩

/-! ### The pages of a program are user pages -/

def LoadStep.ForUser : LoadStep → Prop
  | .check _ => True
  | .page _ flags _ => isUser flags = true

theorem isUser_phdrVmmFlags (flags : ℕ) : isUser (phdrVmmFlags flags) = true := by
  rw [phdrVmmFlags]
  cases pfW flags <;> cases pfX flags <;> rfl

theorem loadSteps_forUser (file : List UInt8) (slide : Option (BitVec 16)) :
    ∀ x ∈ loadSteps file slide, x.ForUser := by
  intro x hx
  rw [loadSteps, List.mem_append] at hx
  rcases hx with hx | hx
  · obtain ⟨i, -, hx⟩ := List.mem_flatMap.1 hx
    rcases List.mem_cons.1 hx with rfl | hx
    · trivial
    split at hx
    · cases hx
    · obtain ⟨v, -, rfl⟩ := List.mem_map.1 hx
      exact isUser_phdrVmmFlags _
  · obtain ⟨i, -, rfl⟩ := List.mem_map.1 hx
    rfl

end PeakOs.Vmm
