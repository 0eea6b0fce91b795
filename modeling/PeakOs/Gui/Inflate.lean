import PeakOs.Lib.Outcome
import Mathlib.Data.List.Basic
import Mathlib.Data.Nat.Bits
import Mathlib.Tactic.Ring

/-!
# The inflate decoder

`gui/inflate_lite.c`, with every access to the input, to the output and to a table checked: one
that lies outside stops the run with `fault`. Positions in the input are in bits,
`8 * byte_pos + bit_pos`.
`live` counts the tables that are allocated and not yet released, `steps` the rounds of the loops
whose number of rounds depends on the input, and `oom` says which calls of `kmalloc` fail.
-/

namespace PeakOs.Inflate

/-- Why a run stops without success. -/
inductive Stop
  /-- The function returns `-1`. -/
  | fail
  /-- An access outside an array, or a release without an allocation. -/
  | fault
  /-- More rounds of a loop than the model runs. -/
  | fuel
  deriving DecidableEq

structure St where
  pos : ℕ := 0
  out : List UInt8 := []
  live : ℕ := 0
  steps : ℕ := 0
  oom : List Bool := []
  deriving DecidableEq

abbrev M := EStateM Stop St

/-- Read an array. -/
def fetch {α : Type} (l : List α) (i : ℕ) : M α :=
  match l[i]? with
  | some a => pure a
  | none => throw .fault

/-- Write the next byte of the output, whose buffer holds `cap` bytes. -/
def emit (cap : ℕ) (b : UInt8) : M Unit := fun s =>
  if s.out.length < cap then .ok () { s with out := s.out ++ [b] } else .error .fault s

/-- One more round of a loop. -/
def tick : M Unit := fun s => .ok () { s with steps := s.steps + 1 }

/-! ### Bits -/

def readBitsLoop (src : List UInt8) : ℕ → ℕ → ℕ → M ℕ
  | 0, _, v => pure v
  | n + 1, i, v => do
    let s ← get
    if src.length ≤ s.pos / 8 then throw .fail
    else
      let b ← fetch src (s.pos / 8)
      set { s with pos := s.pos + 1 }
      readBitsLoop src n (i + 1) (v + (b.toNat >>> (s.pos % 8)) % 2 * 2 ^ i)

def readBits (src : List UInt8) (n : ℕ) : M ℕ :=
  if 16 < n then throw .fail else readBitsLoop src n 0 0

def alignByte : M Unit := fun s =>
  .ok () (if s.pos % 8 = 0 then s else { s with pos := 8 * (s.pos / 8 + 1) })

/-- The bits are read and the position is put back, also when they are not there. -/
def peekBits (src : List UInt8) (n : ℕ) : M ℕ := fun s =>
  match readBits src n s with
  | .ok v s' => .ok v { s' with pos := s.pos }
  | .error e s' => .error e { s' with pos := s.pos }

def bitReverse (v : ℕ) : ℕ → ℕ
  | 0 => 0
  | n + 1 => bitReverse (v / 2) n + v % 2 * 2 ^ n

/-! ### Tables -/

/-- A slot of a table; `none` is the symbol `0xffff`. -/
abbrev Slot := Option (ℕ × ℕ)

structure Huff where
  codes : List Slot
  maxbits : ℕ

/-- The first code of each length. -/
def firstCode (lens : List ℕ) : ℕ → ℕ
  | 0 => 0
  | bits + 1 => 2 * (firstCode lens bits + if bits = 0 then 0 else lens.count bits)

/-- `for (i = rev; i < ncodes; i += step)`. -/
def fillLoop (step : ℕ) (c : Slot) : ℕ → ℕ → List Slot → List Slot
  | 0, _, codes => codes
  | n + 1, i, codes =>
    if i < codes.length then fillLoop step c n (i + step) (codes.set i c) else codes

/-- The symbols of one length, in order, from the code `next`. -/
def fillSyms (bits : ℕ) : List ℕ → ℕ → ℕ → List Slot → List Slot
  | [], _, _, codes => codes
  | l :: lens, sym, next, codes =>
    if l = bits then
      fillSyms bits lens (sym + 1) ((next + 1) % 2 ^ 16)
        (fillLoop (2 ^ bits) (some (sym, bits)) codes.length (bitReverse next bits) codes)
    else fillSyms bits lens (sym + 1) next codes

/-- The lengths from the longest to one. -/
def fillBits (lens : List ℕ) : ℕ → List Slot → List Slot
  | 0, codes => codes
  | bits + 1, codes =>
    fillBits lens bits
      (fillSyms (bits + 1) lens 0 (firstCode lens (bits + 1) % 2 ^ 16) codes)

/-- The table's memory. -/
def kmalloc : M Unit := fun s =>
  match s.oom with
  | true :: oom => .error .fail { s with oom := oom }
  | _ => .ok () { s with live := s.live + 1, oom := s.oom.tail }

def huffBuild (lens : List ℕ) : M Huff :=
  if lens.any (15 < ·) then throw .fail
  else
    let maxbits := lens.foldl max 0
    if maxbits = 0 then throw .fail
    else do
      kmalloc
      pure ⟨fillBits lens maxbits (List.replicate (2 ^ maxbits) none), maxbits⟩

def huffFree : M Unit := fun s =>
  if s.live = 0 then .error .fault s else .ok () { s with live := s.live - 1 }

/-- Release a table on the way out of a failed call. -/
def elseFree {α : Type} (x : M α) : M α := onStop (· = .fail) x huffFree

def huffDecode (src : List UInt8) (h : Huff) : M ℕ :=
  if h.maxbits = 0 then throw .fail
  else do
    let idx ← peekBits src h.maxbits
    let c ← fetch h.codes (idx % 2 ^ h.maxbits)
    match c with
    | none => throw .fail
    | some (sym, bits) =>
      if bits = 0 then throw .fail
      else
        let _ ← readBits src bits
        pure sym

/-! ### The symbols of a block -/

def lenBase : List ℕ := [3, 4, 5, 6, 7, 8, 9, 10, 11, 13, 15, 17, 19, 23, 27, 31,
  35, 43, 51, 59, 67, 83, 99, 115, 131, 163, 195, 227, 258]

def lenBits : List ℕ := [0, 0, 0, 0, 0, 0, 0, 0, 1, 1, 1, 1, 2, 2, 2, 2,
  3, 3, 3, 3, 4, 4, 4, 4, 5, 5, 5, 5, 0]

def distBase : List ℕ := [1, 2, 3, 4, 5, 7, 9, 13, 17, 25, 33, 49, 65, 97, 129, 193,
  257, 385, 513, 769, 1025, 1537, 2049, 3073, 4097, 6145, 8193, 12289, 16385, 24577]

def distBits : List ℕ := [0, 0, 0, 0, 1, 1, 2, 2, 3, 3, 4, 4, 5, 5, 6, 6,
  7, 7, 8, 8, 9, 9, 10, 10, 11, 11, 12, 12, 13, 13]

def clOrder : List ℕ := [16, 17, 18, 0, 8, 7, 9, 6, 10, 5, 11, 4, 12, 3, 13, 2, 14, 1, 15]

/-- The copy from `distance` bytes back. -/
def copyLoop (cap distance : ℕ) : ℕ → M Unit
  | 0 => pure ()
  | n + 1 => do
    tick
    let s ← get
    if s.out.length < distance then throw .fault
    else
      let b ← fetch s.out (s.out.length - distance)
      emit cap b
      copyLoop cap distance n

/-- A base value and its extra bits, which are not read when there are none. -/
def extended (src : List UInt8) (base bits : List ℕ) (i : ℕ) : M ℕ := do
  let v ← fetch base i
  let n ← fetch bits i
  if n = 0 then pure v
  else
    let eb ← readBits src n
    pure (v + eb)

/-- A length and distance pair, from the length symbol on. -/
def decodeMatch (src : List UInt8) (cap : ℕ) (dist : Huff) (sym : ℕ) : M Unit := do
  let length ← extended src lenBase lenBits (sym - 257)
  let dsym ← huffDecode src dist
  if 29 < dsym then throw .fail
  else
    let distance ← extended src distBase distBits dsym
    let s ← get
    if distance = 0 ∨ s.out.length < distance then throw .fail
    else if cap < s.out.length + length then throw .fail
    else copyLoop cap distance length

def decodeBlock (src : List UInt8) (cap : ℕ) (lit dist : Huff) : ℕ → M Unit
  | 0 => throw .fuel
  | fuel + 1 => do
    tick
    let sym ← huffDecode src lit
    if sym < 256 then
      let s ← get
      if cap ≤ s.out.length then throw .fail
      else
        emit cap (UInt8.ofNat sym)
        decodeBlock src cap lit dist fuel
    else if sym = 256 then pure ()
    else if 285 < sym then throw .fail
    else
      decodeMatch src cap dist sym
      decodeBlock src cap lit dist fuel

/-! ### The tables of a block -/

/-- Two tables; the first is released when the second cannot be built. -/
def buildPair (lit dist : List ℕ) : M (Huff × Huff) := do
  let l ← huffBuild lit
  let d ← elseFree (huffBuild dist)
  pure (l, d)

def fixedTables : M (Huff × Huff) :=
  buildPair (List.replicate 144 8 ++ List.replicate 112 9 ++ List.replicate 24 7 ++
    List.replicate 8 8) (List.replicate 32 5)

/-- The lengths of the code length code, in the order they are sent. -/
def readClLens (src : List UInt8) : List ℕ → List ℕ → M (List ℕ)
  | [], cl => pure cl
  | i :: order, cl => do
    let v ← readBits src 3
    if i < cl.length then readClLens src order (cl.set i v) else throw .fault

/-- The size of `all_lens`. -/
def allLensMax : ℕ := 288 + 32

/-- Write `v` up to `rep` times while fewer than `total` lengths are there. -/
def repeatLen (total rep v : ℕ) (all : List ℕ) : M (List ℕ) :=
  let k := min rep (total - all.length)
  if all.length + k ≤ allLensMax then pure (all ++ List.replicate k v) else throw .fault

def readLens (src : List UInt8) (cl : Huff) (total : ℕ) : ℕ → List ℕ → M (List ℕ)
  | 0, _ => throw .fuel
  | fuel + 1, all =>
    if total ≤ all.length then pure all
    else do
      tick
      let sym ← huffDecode src cl
      if sym < 16 then
        let all' ← repeatLen total 1 sym all
        readLens src cl total fuel all'
      else if sym = 16 then
        if all.length = 0 then throw .fail
        else
          let rep ← readBits src 2
          let v ← fetch all (all.length - 1)
          let all' ← repeatLen total (rep + 3) v all
          readLens src cl total fuel all'
      else if sym = 17 then
        let rep ← readBits src 3
        let all' ← repeatLen total (rep + 3) 0 all
        readLens src cl total fuel all'
      else if sym = 18 then
        let rep ← readBits src 7
        let all' ← repeatLen total (rep + 11) 0 all
        readLens src cl total fuel all'
      else throw .fail

def dynamicTables (src : List UInt8) : M (Huff × Huff) := do
  let hlit ← readBits src 5
  let hdist ← readBits src 5
  let hclen ← readBits src 4
  if 286 < hlit + 257 ∨ 32 < hdist + 1 ∨ 19 < hclen + 4 then throw .fail
  else
    let clLens ← readClLens src (clOrder.take (hclen + 4)) (List.replicate 19 0)
    let cl ← huffBuild clLens
    let all ← elseFree (readLens src cl (hlit + 257 + (hdist + 1)) (allLensMax + 1) [])
    huffFree
    buildPair (all.take (hlit + 257)) ((all.drop (hlit + 257)).take (hdist + 1))

/-! ### The decoder -/

/-- `memcpy` of a stored block. -/
def copyStored (src : List UInt8) (cap : ℕ) : ℕ → ℕ → M Unit
  | 0, _ => pure ()
  | n + 1, i => do
    tick
    let b ← fetch src i
    emit cap b
    copyStored src cap n (i + 1)

def storedBlock (src : List UInt8) (cap : ℕ) : M Unit := do
  alignByte
  let s ← get
  let p := s.pos / 8
  if src.length < p + 4 then throw .fail
  else
    let b₀ ← fetch src p
    let b₁ ← fetch src (p + 1)
    let b₂ ← fetch src (p + 2)
    let b₃ ← fetch src (p + 3)
    let len := b₀.toNat + b₁.toNat * 256
    let nlen := b₂.toNat + b₃.toNat * 256
    set { s with pos := 8 * (p + 4) }
    if len ^^^ 0xffff ≠ nlen then throw .fail
    else if src.length < p + 4 + len ∨ cap < s.out.length + len then throw .fail
    else
      copyStored src cap len (p + 4)
      modify fun s => { s with pos := 8 * (p + 4 + len) }

/-- The symbols of a block and the release of its two tables, in success and in failure. -/
def codedBlock (src : List UInt8) (cap : ℕ) (tables : M (Huff × Huff)) : M Unit := do
  let (lit, dist) ← tables
  elseFree (elseFree (decodeBlock src cap lit dist (8 * src.length + 1)))
  huffFree
  huffFree

/-- A block of the type `btype`. -/
def inflateBlock (src : List UInt8) (cap btype : ℕ) : M Unit :=
  if btype = 0 then storedBlock src cap
  else if btype = 1 then codedBlock src cap fixedTables
  else if btype = 2 then codedBlock src cap (dynamicTables src)
  else throw .fail

def inflateLoop (src : List UInt8) (cap : ℕ) : ℕ → M Unit
  | 0 => throw .fuel
  | fuel + 1 => do
    tick
    let final ← readBits src 1
    let btype ← readBits src 2
    inflateBlock src cap btype
    if final = 0 then inflateLoop src cap fuel else pure ()

/-- The run starts with no table; `oom` are the coming failures of `kmalloc`. -/
def inflateLite (src : List UInt8) (cap : ℕ) (oom : List Bool) : EStateM.Result Stop St Unit :=
  inflateLoop src cap (8 * src.length + 1) { oom := oom }

/-- The zlib wrapper. Its two header bytes are read from `src`, and the decoder gets what lies
between the header and the checksum. -/
def inflateLiteZlib (src : List UInt8) (cap : ℕ) (oom : List Bool) :
    EStateM.Result Stop St Unit :=
  if src.length < 6 then .error .fail { oom := oom }
  else
    (do
      let b₀ ← fetch src 0
      if b₀.toNat % 16 ≠ 8 then throw .fail
      else if 7 < b₀.toNat / 16 then throw .fail
      else
        let b₁ ← fetch src 1
        if (b₀.toNat * 256 + b₁.toNat) % 31 ≠ 0 then throw .fail
        else
          let raw := (src.drop 2).take (src.length - 6)
          inflateLoop raw cap (8 * raw.length + 1) : M Unit) { oom := oom }

end PeakOs.Inflate
