import PeakOs.Lib.RowMap
import PeakOs.Lib.Transition
import Mathlib.Tactic.Ring

/-!
# The vector index

`peakvec.c` keeps entries of a key, a text and a vector, each tagged with a namespace. Keys, texts
and tags are C strings (`Str`, without the terminator) that are cut to the size of their fields when
they are stored.

A `Row` holds the cells with one index of the five parallel arrays; all functions of the source move
these cells together. The rows are those below `count`.

## Main definitions

* `peakvecUpsert`, `peakvecDelete`, `peakvecQuery` — the operations
* `Row.Cached` — the cached norm and bucket are those of the vector
-/

namespace PeakOs.PeakVec

abbrev Str := List UInt8

/-- The constants of `peakvec.h`: sizes of the fields, and limits. -/
def keyMax : ℕ := 64
def metaMax : ℕ := 96
def nsMax : ℕ := 32
def topkMax : ℕ := 8
def annBuckets : ℕ := 16
def annThreshold : ℕ := 64
def maxEntries : ℕ := 4096

/-- A vector of `PEAKVEC_DIM` components. -/
abbrev Vec := Vector Int16 64

structure Entry where
  key : Str
  info : Str
  vec : Vec
  inUse : Bool
  deriving DecidableEq

structure Row where
  entry : Entry
  ns : Str
  nsq : ℤ
  nroot : ℕ
  bucket : ℕ
  deriving DecidableEq

structure Index where
  rows : List Row
  capacity : ℕ
  deriving DecidableEq

/-- The namespace `agent`. -/
def nsDefault : Str := [97, 103, 101, 110, 116]

/-- The namespace an argument names: none and the empty one are the default. -/
def nsName : Option Str → Str
  | none => nsDefault
  | some [] => nsDefault
  | some ns => ns

def nsCopy (ns : Option Str) : Str := (nsName ns).take (nsMax - 1)

def nsEq (want have' : Str) : Bool := nsCopy (some want) = nsCopy (some have')

/-! ### Norms and buckets -/

/-- The loop of `vec_bucket`, with the index and the size of the largest component so far. The size
of the smallest number is that number. -/
def bucketLoop : List Int16 → ℕ → ℕ → Int16 → ℕ
  | [], _, best, _ => best
  | v :: vs, i, best, bestAbs =>
    let a := if v < 0 then -v else v
    if bestAbs < a then bucketLoop vs (i + 1) i a else bucketLoop vs (i + 1) best bestAbs

def vecBucket (v : Vec) : ℕ := bucketLoop v.toList 0 0 0 % annBuckets

/-- `vec_dot_i16`, in four lanes. -/
def vecDot (a b : Vec) : ℤ :=
  let lane (k : ℕ) := ((List.range 16).map fun i =>
    (a.toList.getD (4 * i + k) 0).toInt * (b.toList.getD (4 * i + k) 0).toInt).sum
  lane 0 + lane 1 + lane 2 + lane 3

def vecNormSq (a : Vec) : ℤ := vecDot a a

/-- The binary search of `isqrt_u64`. -/
def isqrtLoop (x : ℕ) : ℕ → ℕ → ℕ → ℕ
  | 0, lo, _ => lo
  | fuel + 1, lo, hi =>
    if lo < hi then
      let mid := lo + (hi - lo + 1) / 2
      if 0xffffffff / mid < mid ∨ x < mid * mid then isqrtLoop x fuel lo (mid - 1)
      else isqrtLoop x fuel mid hi
    else lo

def isqrt (x : ℕ) : ℕ := if x = 0 then 0 else isqrtLoop x 25 1 (min x 0x1000000)

/-- `cache_entry_norm`. -/
def Row.cacheNorm (r : Row) : Row :=
  { r with
    nsq := vecNormSq r.entry.vec
    nroot := isqrt (vecNormSq r.entry.vec).toNat
    bucket := vecBucket r.entry.vec }

def Row.Cached (r : Row) : Prop := r.cacheNorm = r

instance (r : Row) : Decidable r.Cached := inferInstanceAs (Decidable (r.cacheNorm = r))

/-! ### Updates -/

/-- `ensure_capacity`; `alloc` says whether the allocations succeed. -/
def ensureCapacity (alloc : Bool) (need : ℕ) (ix : Index) : Option Index :=
  if need ≤ ix.capacity then some ix
  else
    let start := if ix.capacity = 0 then 64 else ix.capacity * 2
    let nc := min ((fun nc => if nc < need then nc * 2 else nc)^[32] start) maxEntries
    if nc < need ∨ alloc = false then none else some { ix with capacity := nc }

/-- The new vector and text of an entry that exists. -/
def Row.assign (vec : Vec) (info : Option Str) (r : Row) : Row :=
  let e := { r.entry with vec := vec, info := (info.getD []).take (metaMax - 1) }
  { r with entry := e }.cacheNorm

/-- The test of the loops that look for an entry. -/
def Row.is (ns key : Str) (r : Row) : Bool := r.entry.inUse && nsEq ns r.ns && r.entry.key = key

/-- `peakvec_upsert` on an index that is ready, with no null key or vector; `caps` is the answer of
`cap_check`. -/
def peakvecUpsert (caps alloc : Bool) (ns : Option Str) (key : Str) (vec : Vec) (info : Option Str)
    (ix : Index) : Option Index :=
  if caps = false then none
  else
    match ix.rows.findIdx? (Row.is (nsCopy ns) key) with
    | some i => some { ix with rows := ix.rows.modify i fun r => r.assign vec info }
    | none =>
      (ensureCapacity alloc (ix.rows.length + 1) ix).map fun ix =>
        let e : Entry := ⟨key.take (keyMax - 1), (info.getD []).take (metaMax - 1), vec, true⟩
        { ix with rows := ix.rows ++ [Row.cacheNorm ⟨e, nsCopy (some (nsCopy ns)), 0, 0, 0⟩] }

def peakvecDelete (ns : Option Str) (key : Str) (ix : Index) : Option Index :=
  (ix.rows.findIdx? (Row.is (nsCopy ns) key)).map fun i => { ix with rows := swapRemove ix.rows i }

inductive Call
  | upsert (caps alloc : Bool) (ns : Option Str) (key : Str) (vec : Vec) (info : Option Str)
  | delete (ns : Option Str) (key : Str)

/-- The index after a call that returns 0. -/
def Call.apply (ix : Index) : Call → Option Index
  | upsert caps alloc ns key vec info => peakvecUpsert caps alloc ns key vec info ix
  | delete ns key => peakvecDelete ns key ix

/-! ### Queries -/

structure Hit where
  key : Str
  info : Str
  score : ℤ
  deriving DecidableEq

/-- `cosine_milli_roots`; none where the entry is skipped. -/
def cosineMilli (query : Vec) (qroot : ℕ) (vec : Vec) (vroot : ℕ) (early : Bool) (worst : ℤ) :
    Option ℤ :=
  if qroot = 0 ∨ vroot = 0 then some 0
  else
    let denom : ℤ := qroot * vroot
    let dot := vecDot query vec
    if early ∧ (dot ≤ 0 ∧ 0 ≤ worst ∨ 0 < worst ∧ dot * 1000 ≤ worst * denom) then none
    else some (Int32.ofInt ((dot * 1000).tdiv denom)).toInt

/-- The best hits so far, how many there are, and the score of the last. -/
structure Ranking where
  hits : List Hit
  found : ℕ
  worst : ℤ

/-- The body of the loop of `peakvec_query_ex`, for an entry that is scored. -/
def Ranking.score (topk : ℕ) (query : Vec) (a : Ranking) (r : Row) : Ranking :=
  let qroot := isqrt (vecNormSq query).toNat
  match cosineMilli query qroot r.entry.vec r.nroot (topk ≤ a.found) a.worst with
  | none => a
  | some sc =>
    if topk ≤ a.found ∧ sc ≤ a.worst then a
    else
      match a.hits.findIdx? fun h => h.score < sc with
      | none => a
      | some place =>
        let hit : Hit := ⟨r.entry.key, r.entry.info, sc⟩
        let hits := (a.hits.take place ++ hit :: a.hits.drop place).take topk
        ⟨hits, min (a.found + 1) topk, (hits.getLast?.map Hit.score).getD a.worst⟩

def bucketInProbe (b qb : ℕ) : Bool :=
  b = qb || b = (qb + annBuckets - 1) % annBuckets || b = (qb + 1) % annBuckets

/-- `peakvec_query`: the hits, the best ones first, and how many were found. -/
def peakvecQuery (ns : Option Str) (query : Vec) (topk : ℕ) (ix : Index) : Option Ranking :=
  if topk = 0 then none
  else
    let topk := min topk topkMax
    let rows := ix.rows.filter fun r => nsEq (nsCopy ns) r.ns
    let start : Ranking := ⟨List.replicate topk ⟨[], [], -1000000⟩, 0, -1000000⟩
    if rows.length < annThreshold then some (rows.foldl (·.score topk query) start)
    else
      let probed (r : Row) := bucketInProbe r.bucket (vecBucket query)
      let first := (rows.filter probed).foldl (·.score topk query) start
      if topk ≤ first.found ∧ 500 < first.worst then some first
      else some ((rows.filter fun r => !probed r).foldl (·.score topk query) first)

end PeakOs.PeakVec
