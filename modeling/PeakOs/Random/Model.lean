import PeakOs.Crypto.Hash
import PeakOs.Lib.Transition

/-!
# The random generator

`random.c` keeps a pool of 64 bytes into which everything is hashed, and a ChaCha20 generator that
is reseeded from the pool. A request takes whole keystream blocks under a key of its domain, from
the counter at which the request before it stopped. Cryptographic requests wait for entropy that
somebody vouches for.

The processor (its `rdseed` and `rdrand` answers, the two clocks) is an argument of `randomInit`.
The field `log` is not of the source: it lists what the calls did, the newest event first, with the
bytes they absorbed and gave out. `poolOf` and `keyOf` say from the log alone what the pool and the
key of the generator must be.

## Main definitions

* `drbgReseed`, `randomMix`, `randomAbsorbTrusted`, `randomInit`, `randomGet` — the generator
* `poolOf`, `keyOf`, `requestBlocks` — what the log says about the pool, the key and a request
* `sinceReseed`, `sinceInit` — the events after the last reseed, and after the last initialisation
-/

namespace PeakOs.Random

open Crypto

/-! ### The ChaCha20 block -/

def rotl32 (x : BitVec 32) (n : ℕ) : BitVec 32 := (x <<< n) ||| (x >>> (32 - n))

/-- `quarter` on four of the sixteen words. -/
def quarter (w : List (BitVec 32)) (i : ℕ × ℕ × ℕ × ℕ) : List (BitVec 32) :=
  let a := w.getD i.1 0
  let b := w.getD i.2.1 0
  let c := w.getD i.2.2.1 0
  let d := w.getD i.2.2.2 0
  let a := a + b
  let d := rotl32 (d ^^^ a) 16
  let c := c + d
  let b := rotl32 (b ^^^ c) 12
  let a := a + b
  let d := rotl32 (d ^^^ a) 8
  let c := c + d
  let b := rotl32 (b ^^^ c) 7
  (((w.set i.1 a).set i.2.1 b).set i.2.2.1 c).set i.2.2.2 d

/-- The eight quarter rounds of a double round. -/
def quarters : List (ℕ × ℕ × ℕ × ℕ) :=
  [(0, 4, 8, 12), (1, 5, 9, 13), (2, 6, 10, 14), (3, 7, 11, 15),
   (0, 5, 10, 15), (1, 6, 11, 12), (2, 7, 8, 13), (3, 4, 9, 14)]

/-- The little-endian words of a byte string. -/
def words (count : ℕ) (bytes : Bytes) : List (BitVec 32) :=
  (List.range count).map fun i => BitVec.ofNat 32 (leNum ((bytes.drop (4 * i)).take 4))

def chacha20BlockRaw (key nonce : Bytes) (counter : ℕ) : Bytes :=
  let s := [0x61707865, 0x3320646e, 0x79622d32, 0x6b206574] ++ words 8 key ++
    [BitVec.ofNat 32 counter] ++ words 3 nonce
  let w := (fun w => quarters.foldl quarter w)^[10] s
  (List.zipWith (· + ·) w s).flatMap fun x => leBytes 4 x.toNat

/-! ### The state and what happens to it -/

inductive Domain
  | crypto
  | aslr
  | canary
  | alloc
  deriving DecidableEq, Repr

/-- The values of `enum random_domain`. -/
def Domain.code : Domain → UInt8
  | crypto => 1
  | aslr => 2
  | canary => 3
  | alloc => 4

/-- What a call did: it initialised the generator, absorbed the seed of the boot loader (with its
two flags), bytes of the processor, trusted bytes or others, reseeded, took a block, served a
request. -/
inductive Event
  | init
  | bootSeed (ok weak : Bool) (data : Bytes)
  | hardware (data : Bytes)
  | trusted (data : Bytes)
  | mixed (data : Bytes)
  | reseed
  | block (domain : Domain) (key nonce : Bytes) (counter : ℕ)
  | served (domain : Domain) (out : Bytes)
  deriving DecidableEq, Repr

structure State where
  pool : Bytes
  poolFill : ℕ
  drbgKey : Bytes
  drbgNonce : Bytes
  drbgCounter : ℕ
  bytesSinceReseed : ℕ
  /-- The four bits of `status_flags`. -/
  readyCrypto : Bool
  readyAny : Bool
  weak : Bool
  hw : Bool
  inited : Bool
  log : List Event

/-- The zeroed memory of the kernel's start. -/
def State.boot : State where
  pool := zeros 64
  poolFill := 0
  drbgKey := zeros 32
  drbgNonce := zeros 12
  drbgCounter := 0
  bytesSinceReseed := 0
  readyCrypto := false
  readyAny := false
  weak := false
  hw := false
  inited := false
  log := []

def State.note (s : State) (e : Event) : State := { s with log := e :: s.log }

def poolAbsorb (data : Bytes) (s : State) : State :=
  let digest := sha256CtxFinal (sha256CtxUpdate (sha256CtxUpdate sha256CtxInit s.pool) data)
  let low := (List.range 32).map fun i => s.pool.getD i 0 ^^^ digest.getD i 0
  let high := (List.range 32).map fun i =>
    s.pool.getD (32 + i) 0 ^^^ (digest.getD i 0 ^^^ UInt8.ofNat (i * 17))
  let fill := if s.poolFill < 64 then s.poolFill + min data.length 32 else s.poolFill
  { s with pool := low ++ high, poolFill := min fill 64 }

/-- `random_mix`; no data stands for the null pointer as well. -/
def randomMix (data : Bytes) (s : State) : State :=
  if data = [] then s else (poolAbsorb data s).note (.mixed data)

def drbgReseed (s : State) : State :=
  let first := sha256 s.pool
  let material := first ++ sha256 first
  let key := material.take 32
  poolAbsorb key
    { s with
      drbgKey := key
      drbgNonce := (material.drop 32).take 12
      drbgCounter := 1
      bytesSinceReseed := 0
      log := .reseed :: s.log }

def randomAbsorbTrusted (data : Bytes) (s : State) : State :=
  if data = [] ∨ s.inited = false then s
  else
    { drbgReseed ((poolAbsorb data s).note (.trusted data)) with
      readyCrypto := true, hw := true, readyAny := true, weak := false }

/-! ### Initialisation -/

structure BootInfo where
  entropyOk : Bool
  entropyWeak : Bool
  entropyLen : ℕ
  /-- The array of `PEAK_BOOT_ENTROPY_MAX` bytes. -/
  entropy : Vector UInt8 64
  mmapCount : UInt32
  /-- `mmap[0].base`. -/
  mmapBase : UInt64

/-- The processor: its features, what `rdseed` and `rdrand` answer until they first fail, and the
clocks. -/
structure Machine where
  hasRdseed : Bool
  hasRdrand : Bool
  rdseeds : List UInt64
  rdrands : List UInt64
  tsc : UInt64
  ticks : UInt64

/-- The `rdrand` loop of `hw_seed_collect`, with its check for a stuck generator. -/
def rdrandLoop : List UInt64 → UInt64 → ℕ → List UInt64 → List UInt64
  | [], _, _, got => got
  | v :: vs, prev, reps, got =>
    if 8 ≤ got.length then got
    else if got ≠ [] ∧ v = prev then
      if 3 < reps + 1 then got else rdrandLoop vs v (reps + 1) (got ++ [v])
    else rdrandLoop vs v 0 (got ++ [v])

/-- `hw_seed_collect` into a buffer of 64 bytes: the values collected, none for the answer `-1`. -/
def hwSeedCollect (m : Machine) : List UInt64 :=
  let seeds := if m.hasRdseed then m.rdseeds.take 8 else []
  if m.hasRdrand then rdrandLoop m.rdrands 0 0 seeds else seeds

/-- The part of `random_init` about the seed of the boot loader, and whether it is trusted. -/
def absorbBootSeed (info : Option BootInfo) (s : State) : State × Bool :=
  match info with
  | none => (s, false)
  | some info =>
    if 0 < info.entropyLen ∧ info.entropyLen ≤ 64 then
      let seed := info.entropy.toList.take info.entropyLen
      let s := (poolAbsorb seed s).note (.bootSeed info.entropyOk info.entropyWeak seed)
      ({ s with weak := s.weak || info.entropyWeak }, info.entropyOk)
    else (s, false)

/-- The part about the processor's generator. -/
def absorbHardware (m : Machine) (s : State) : State × Bool :=
  match hwSeedCollect m with
  | [] => (s, false)
  | v :: vs =>
    let bytes := (v :: vs).flatMap fun x => leBytes 8 x.toNat
    ({ (poolAbsorb bytes s).note (.hardware bytes) with hw := true }, true)

/-- The part about the clocks and the memory map. -/
def absorbSupplemental (info : Option BootInfo) (m : Machine) (s : State) : State :=
  let absorb (data : Bytes) (s : State) := (poolAbsorb data s).note (.mixed data)
  let s := absorb (leBytes 8 m.ticks.toNat) (absorb (leBytes 8 m.tsc.toNat) s)
  match info with
  | none => s
  | some info =>
    let s := absorb (leBytes 4 info.mmapCount.toNat) s
    if 0 < info.mmapCount then absorb (leBytes 8 info.mmapBase.toNat) s else s

/-- `random_init`; `insecure` is `PEAK_DEV_INSECURE_RNG`. -/
def randomInit (insecure : Bool) (info : Option BootInfo) (m : Machine) (s : State) : State :=
  let s := { s with
    pool := zeros 64, poolFill := 0, readyCrypto := false, readyAny := false, weak := false
    hw := false, log := .init :: s.log }
  let seeded := absorbBootSeed info s
  let hardened := absorbHardware m seeded.1
  let trusted := seeded.2 || hardened.2
  let s := drbgReseed (absorbSupplemental info m hardened.1)
  let s := { s with inited := true, readyAny := true }
  if trusted ∧ s.weak = false then { s with readyCrypto := true }
  else if insecure then { s with readyCrypto := true, weak := true }
  else { s with weak := true }

/-! ### Requests -/

/-- The labelled extract of `random_get`. -/
def domainKey (domain : Domain) (drbgKey : Bytes) : Bytes :=
  hmacSha256 drbgKey ([domain.code, 0x50, 0x4b] ++ zeros 13)

/-- The loop of `random_get`: the bytes, the counter after them, and the log. -/
def getLoop (domain : Domain) (key nonce : Bytes) (left ctr : ℕ) (log : List Event) :
    Bytes × ℕ × List Event :=
  if left = 0 then ([], ctr, log)
  else
    let n := min left 64
    let next := getLoop domain key nonce (left - n) ((ctr + 1) % 2 ^ 32)
      (.block domain key nonce ctr :: log)
    ((chacha20BlockRaw key nonce ctr).take n ++ next.1, next.2)
termination_by left

/-- `random_get`; a length of zero stands for a null buffer as well. -/
def randomGet (domain : Domain) (len : ℕ) (s : State) : Option Bytes × State :=
  if len = 0 ∨ s.inited = false then (none, s)
  else if domain = .crypto ∧ s.readyCrypto = false then (none, s)
  else
    let s := if 2 ^ 20 < s.bytesSinceReseed then drbgReseed s else s
    let key := domainKey domain s.drbgKey
    let out := getLoop domain key s.drbgNonce len (s.drbgCounter % 2 ^ 32) s.log
    (some out.1,
      { s with
        drbgCounter := out.2.1
        bytesSinceReseed := (s.bytesSinceReseed + len) % 2 ^ 64
        log := .served domain out.1 :: out.2.2 })

/-! ### Runs -/

inductive Call
  | init (info : Option BootInfo) (m : Machine)
  | mix (data : Bytes)
  | absorbTrusted (data : Bytes)
  | get (domain : Domain) (len : ℕ)

def step (insecure : Bool) (s : State) : Call → State
  | .init info m => randomInit insecure info m s
  | .mix data => randomMix data s
  | .absorbTrusted data => randomAbsorbTrusted data s
  | .get domain len => (randomGet domain len s).2

/-- A request takes at most `2 ^ 32` bytes. -/
def Call.Small : Call → Prop
  | .get _ len => len ≤ 2 ^ 32
  | _ => True

/-! ### What the log says -/

/-- The pool after some bytes: both halves take the digest of the pool and the bytes. -/
def stirred (pool data : Bytes) : Bytes :=
  let digest := sha256 (pool ++ data)
  List.zipWith (· ^^^ ·) pool (digest ++ digest.mapIdx fun i b => b ^^^ UInt8.ofNat (i * 17))

/-- The pool: everything that was absorbed since the last initialisation. A reseed absorbs the key
it takes from the pool. -/
def poolOf : List Event → Bytes
  | [] | .init :: _ => zeros 64
  | .bootSeed _ _ data :: log | .hardware data :: log | .trusted data :: log | .mixed data :: log =>
    stirred (poolOf log) data
  | .reseed :: log => stirred (poolOf log) (sha256 (poolOf log))
  | .block .. :: log | .served .. :: log => poolOf log

/-- The key and the nonce: digests of the pool at the last reseed. -/
def keyOf : List Event → Bytes × Bytes
  | [] => (zeros 32, zeros 12)
  | .reseed :: log => (sha256 (poolOf log), (sha256 (sha256 (poolOf log))).take 12)
  | _ :: log => keyOf log

def Event.isBlock : Event → Bool
  | .block .. => true
  | _ => false

/-- The keystream of a block. -/
def Event.bytes : Event → Bytes
  | .block _ key nonce counter => chacha20BlockRaw key nonce counter
  | _ => []

/-- The keystream of the blocks that were taken last, the oldest first. -/
def requestBlocks (log : List Event) : Bytes :=
  (log.takeWhile Event.isBlock).reverse.flatMap Event.bytes

def sinceReseed (log : List Event) : List Event := log.takeWhile (· ≠ .reseed)

def sinceInit (log : List Event) : List Event := log.takeWhile (· ≠ .init)

/-- The bytes served. -/
def servedBytes : List Event → ℕ
  | [] => 0
  | .served _ out :: log => out.length + servedBytes log
  | _ :: log => servedBytes log

/-- Entropy that somebody vouches for: a seed of the boot loader flagged as good and not as weak,
bytes of the processor without a weak seed, or trusted bytes. -/
def Vouched (events : List Event) : Prop :=
  (∃ data, .bootSeed true false data ∈ events) ∨
    (∃ data, .hardware data ∈ events) ∧ (∀ ok data, .bootSeed ok true data ∉ events) ∨
    ∃ data, .trusted data ∈ events

end PeakOs.Random
