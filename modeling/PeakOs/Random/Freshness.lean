import PeakOs.Random.Model

/-!
# No keystream block twice, and no key before there is entropy

The counter of the generator only grows between two reseeds, but `random_get` copies it to 32 bits.
The copy does not wrap: a request may take `2 ^ 26` blocks, but before it at most `2 ^ 20` bytes
were served, and no request takes more blocks than bytes.

The log is a true account of the state. The pool is all that was absorbed since the last
initialisation (`poolOf`), the key is the one of the pool at the last reseed (`keyOf`), and what a
request gives out is the keystream of the blocks that it logs. So what is said of the log is said of
the bytes: each event is judged by the events before it (`Event.Ok`).

## Main results

* `poolAbsorb_pool` — absorbing is hashing the pool together with the bytes
* `getLoop_logged` — a request of few blocks takes blocks that were not taken before
* `getLoop_bytes` — and gives out their keystream
* `inv_step` — one call keeps the bounds on the counter, and the reason for every event
* `random_sound` — every block and every served request of a run, judged by what was before it
-/

namespace PeakOs.Random

open Crypto List

variable {insecure : Bool} {s t : State}

/-! ### What may happen after what -/

/-- The bytes that an event brings into the pool. -/
def Event.data : Event → Option Bytes
  | .bootSeed _ _ data | .hardware data | .trusted data | .mixed data => some data
  | _ => none

/-- The reason for an event, by the events before it: a block has the key of its domain under the
last reseed and was not taken since; a request is served early enough after a reseed, from its
blocks, and a cryptographic one behind entropy. -/
def Event.Ok (insecure : Bool) (before : List Event) : Event → Prop
  | .block domain key nonce counter =>
    .block domain key nonce counter ∉ sinceReseed before ∧
      key = domainKey domain (keyOf before).1 ∧ nonce = (keyOf before).2
  | .served domain out =>
    servedBytes (sinceReseed before) ≤ 2 ^ 20 ∧ out = (requestBlocks before).take out.length ∧
      (domain = .crypto → insecure = true ∨ (.init ∈ before ∧ Vouched (sinceInit before)))
  | e => e.data ≠ some []

def Sound (insecure : Bool) : List Event → Prop
  | [] => True
  | e :: before => e.Ok insecure before ∧ Sound insecure before

/-- What a log says of one event. -/
theorem Sound.split {post before : List Event} {e : Event}
    (h : Sound insecure (post ++ e :: before)) : e.Ok insecure before := by
  induction post with
  | nil => exact h.1
  | cons _ _ ih => exact ih h.2

/-- The counters of the blocks since the last reseed are below `bound`. -/
def Below (log : List Event) (bound : ℕ) : Prop :=
  ∀ domain key nonce counter, .block domain key nonce counter ∈ sinceReseed log → counter < bound

/-- What the log says about a state. -/
structure Logged (insecure : Bool) (s : State) : Prop where
  sound : Sound insecure s.log
  pool : s.pool = poolOf s.log
  key : (s.drbgKey, s.drbgNonce) = keyOf s.log
  below : Below s.log s.drbgCounter
  served : servedBytes (sinceReseed s.log) = s.bytesSinceReseed
  init : s.inited = true → .init ∈ s.log
  ready : s.readyCrypto = true → insecure = true ∨ Vouched (sinceInit s.log)

/-- The bounds on the two counters. -/
structure Counted (s : State) : Prop where
  bytes : s.bytesSinceReseed ≤ 2 ^ 20 + 2 ^ 32
  blocks : s.drbgCounter ≤ 1 + 2 ^ 20 + 2 ^ 26
  early : s.bytesSinceReseed ≤ 2 ^ 20 → s.drbgCounter ≤ 1 + s.bytesSinceReseed

/-- Between two calls the newest event is not a block. -/
structure Inv (insecure : Bool) (s : State) : Prop where
  logged : Logged insecure s
  counted : Counted s
  settled : s.log.takeWhile Event.isBlock = []

/-! ### The pool -/

theorem length_stirred {pool : Bytes} (h : pool.length = 64) (data : Bytes) :
    (stirred pool data).length = 64 := by
  simp [stirred, h, length_sha256]

theorem length_poolOf (log : List Event) : (poolOf log).length = 64 := by
  induction log with
  | nil => rfl
  | cons e log ih =>
    cases e with
    | init => rfl
    | block | served => exact ih
    | bootSeed | hardware | trusted | mixed | reseed => exact length_stirred ih _

/-- **Absorbing** hashes the pool and the bytes into both halves of the pool. -/
theorem poolAbsorb_pool (hlen : s.pool.length = 64) (data : Bytes) :
    (poolAbsorb data s).pool = stirred s.pool data := by
  have hdigest : sha256CtxFinal (sha256CtxUpdate (sha256CtxUpdate sha256CtxInit s.pool) data) =
      sha256 (s.pool ++ data) := by
    rw [sha256_eq]
    exact (sha256Stream_eq [s.pool, data]).trans (by simp)
  have h32 := length_sha256 (s.pool ++ data)
  simp only [poolAbsorb, hdigest, stirred]
  generalize sha256 (s.pool ++ data) = digest at *
  refine ext_getElem (by simp [hlen, h32]) fun i hi _ => ?_
  simp only [length_append, length_map, length_range] at hi
  rw [getElem_zipWith]
  by_cases hlow : i < 32
  · rw [getElem_append_left (by simpa using hlow), getElem_append_left (by omega)]
    simp [hlen, h32, hlow, show i < 64 by omega]
  · rw [getElem_append_right (by simpa using hlow), getElem_append_right (by omega)]
    have : 32 + (i - 32) = i := by omega
    simp [hlen, h32, this, show i < 64 by omega, show i - 32 < 32 by omega]

/-- What is absorbed goes into the pool. -/
theorem poolOf_data {e : Event} {data : Bytes} (he : e.data = some data) (log : List Event) :
    poolOf (e :: log) = stirred (poolOf log) data := by
  cases e <;> simp_all [Event.data, poolOf]

/-! ### Absorbed bytes -/

/-- Only bytes were absorbed on the way from one state to the other. -/
structure Fed (s t : State) (new : List Event) : Prop where
  log : t.log = new ++ s.log
  events : ∀ e ∈ new, e.data ≠ none ∧ e.data ≠ some []
  pool : s.pool = poolOf s.log → t.pool = poolOf t.log
  ready : t.readyCrypto = s.readyCrypto

theorem Fed.refl (s : State) : Fed s s [] := ⟨rfl, by simp, id, rfl⟩

/-- Two feedings in a row. -/
theorem Fed.trans {u : State} {new more : List Event} (h : Fed s t new) (h' : Fed t u more) :
    Fed s u (more ++ new) where
  log := by rw [h'.log, h.log, append_assoc]
  events e he := (mem_append.1 he).elim (h'.events e) (h.events e)
  pool hp := h'.pool (h.pool hp)
  ready := h'.ready.trans h.ready

theorem fed_absorb {e : Event} {data : Bytes} (he : e.data = some data) (hne : data ≠ [])
    (s : State) : Fed s ((poolAbsorb data s).note e) [e] where
  log := rfl
  events x hx := by simp [mem_singleton.1 hx, he, hne]
  pool hp := by
    have hlen : s.pool.length = 64 := by rw [hp, length_poolOf]
    show (poolAbsorb data s).pool = poolOf (e :: s.log)
    rw [poolAbsorb_pool hlen, poolOf_data he, hp]
  ready := rfl

/-- Feeding leaves the log sound. -/
theorem Fed.sound {new : List Event} (h : Fed s t new) (hs : Sound insecure s.log) :
    Sound insecure t.log := by
  obtain ⟨hlog, hevents, -, -⟩ := h
  rw [hlog]
  clear hlog
  induction new with
  | nil => exact hs
  | cons e new ih =>
    refine ⟨?_, ih fun x hx => hevents x (.tail _ hx)⟩
    have he := hevents e (.head _)
    cases e <;> simp_all [Event.data, Event.Ok]

theorem sinceInit_append {new : List Event} (log : List Event) (hnew : .init ∉ new) :
    sinceInit (new ++ .init :: log) = new := by
  rw [sinceInit, takeWhile_append_of_pos]
  · simp
  · intro e he
    simpa using fun heq : e = .init => hnew (heq ▸ he)

theorem sinceInit_cons {e : Event} (he : e ≠ .init) (log : List Event) :
    sinceInit (e :: log) = e :: sinceInit log := by simp [sinceInit, he]

theorem Vouched.cons {events : List Event} {e : Event} (h : Vouched events)
    (he : ∀ ok data, e ≠ .bootSeed ok true data) : Vouched (e :: events) := by
  rcases h with ⟨data, h⟩ | ⟨⟨data, h⟩, hweak⟩ | ⟨data, h⟩
  · exact .inl ⟨data, .tail _ h⟩
  · refine .inr (.inl ⟨⟨data, .tail _ h⟩, fun ok d hmem => ?_⟩)
    rcases mem_cons.1 hmem with heq | hmem
    · exact he ok d heq.symm
    · exact hweak ok d hmem
  · exact .inr (.inr ⟨data, .tail _ h⟩)

theorem Vouched.append {events new : List Event} (h : Vouched events)
    (hnew : ∀ e ∈ new, ∃ data, e = .mixed data) : Vouched (new ++ events) := by
  induction new with
  | nil => exact h
  | cons e new ih =>
    obtain ⟨data, rfl⟩ := hnew e (.head _)
    exact (ih fun x hx => hnew x (.tail _ hx)).cons (by simp)

/-! ### Blocks -/

/-- A new block has the counter the state had, which grows by one. -/
theorem Logged.block (h : Logged insecure s) (domain : Domain) :
    Logged insecure
      { s with
        drbgCounter := s.drbgCounter + 1
        log := .block domain (domainKey domain s.drbgKey) s.drbgNonce s.drbgCounter :: s.log } where
  sound := by
    obtain ⟨hkey, hnonce⟩ := Prod.mk.inj h.key
    refine ⟨⟨fun hmem => absurd (h.below _ _ _ _ hmem) (lt_irrefl _), ?_, hnonce⟩, h.sound⟩
    rw [← hkey]
  pool := h.pool
  key := h.key
  below := by
    intro d k n c hmem
    rcases mem_cons.1 hmem with heq | hmem
    · obtain ⟨-, -, -, rfl⟩ := Event.block.inj heq
      exact Nat.lt_succ_self _
    · exact Nat.lt_succ_of_lt (h.below _ _ _ _ hmem)
  served := by exact h.served
  init hinit := .tail _ (h.init hinit)
  ready hready := by exact (h.ready hready).imp_right fun hv => hv.cons (by simp)

/-- The loop of a request, which ends before the counter wraps. -/
theorem getLoop_logged (domain : Domain) :
    ∀ (left ctr : ℕ) (log : List Event), ctr + (left + 63) / 64 < 2 ^ 32 →
      Logged insecure { s with drbgCounter := ctr, log := log } →
      let out := getLoop domain (domainKey domain s.drbgKey) s.drbgNonce left ctr log
      Logged insecure { s with drbgCounter := out.2.1, log := out.2.2 } ∧
        out.2.1 = ctr + (left + 63) / 64 := by
  intro left ctr log
  induction left, ctr, log using
    getLoop.induct domain (domainKey domain s.drbgKey) s.drbgNonce with
  | case1 ctr log =>
    intro _ h
    rw [getLoop]
    exact ⟨h, rfl⟩
  | case2 left ctr log hleft n ih =>
    intro hroom h
    have hwrap : (ctr + 1) % 2 ^ 32 = ctr + 1 := Nat.mod_eq_of_lt (by omega)
    rw [getLoop, if_neg hleft]
    rw [hwrap] at ih
    obtain ⟨hlog, hctr⟩ := ih (by omega) (h.block domain)
    simp only [hwrap]
    exact ⟨hlog, hctr.trans (by omega)⟩

theorem length_quarter (w : List (BitVec 32)) (i : ℕ × ℕ × ℕ × ℕ) :
    (quarter w i).length = w.length := by simp [quarter]

theorem length_chacha20BlockRaw (key nonce : Bytes) (counter : ℕ) :
    (chacha20BlockRaw key nonce counter).length = 64 := by
  have hrounds : ∀ w : List (BitVec 32), (quarters.foldl quarter w).length = w.length := fun w =>
    foldlRecOn (motive := fun v => v.length = w.length) quarters quarter rfl
      fun v hv i _ => (length_quarter v i).trans hv
  have hiter : ∀ (k : ℕ) (w : List (BitVec 32)),
      ((fun w => quarters.foldl quarter w)^[k] w).length = w.length := by
    intro k
    induction k with
    | zero => exact fun _ => rfl
    | succ k ih => exact fun w => (ih _).trans (hrounds w)
  have hbytes : ∀ w : List (BitVec 32), (w.flatMap fun x => leBytes 4 x.toNat).length =
      4 * w.length := fun w => by simp [length_flatMap, length_leBytes, Nat.mul_comm]
  simp only [chacha20BlockRaw, hbytes, length_zipWith, hiter]
  simp [words]

/-- **What a request gives out** is the keystream of the blocks it logs. -/
theorem getLoop_bytes (domain : Domain) (key nonce : Bytes) (left ctr : ℕ) (log : List Event) :
    let out := getLoop domain key nonce left ctr log
    out.1.length = left ∧ ∃ new, out.2.2 = new ++ log ∧ (∀ e ∈ new, e.isBlock = true) ∧
      out.1 = (new.reverse.flatMap Event.bytes).take left := by
  dsimp only
  induction left, ctr, log using getLoop.induct domain key nonce with
  | case1 ctr log =>
    rw [getLoop]
    exact ⟨rfl, [], rfl, by simp, rfl⟩
  | case2 left ctr log hleft n ih =>
    rw [getLoop, if_neg hleft]
    obtain ⟨hlen, new, hlog, hblocks, hbytes⟩ := ih
    simp only [n] at hlen hlog hbytes
    have h64 := length_chacha20BlockRaw key nonce ctr
    refine ⟨?_, new ++ [.block domain key nonce ctr], ?_, ?_, ?_⟩
    · simp only [length_append, length_take, h64, hlen]
      omega
    · simp only [hlog, append_assoc, singleton_append]
    · intro e he
      rcases mem_append.1 he with he | he
      · exact hblocks e he
      · rw [mem_singleton.1 he]
        rfl
    · have hdrop : left - min left 64 = left - 64 := by omega
      rw [hdrop] at hbytes
      simp only [hdrop, hbytes, reverse_append, reverse_cons, reverse_nil, nil_append,
        singleton_append, flatMap_cons, Event.bytes, take_append, h64]
      rw [take_eq_take_min (i := left), h64]

/-! ### The calls -/

theorem inv_boot : Inv insecure State.boot where
  logged := ⟨trivial, rfl, rfl, by simp [Below, sinceReseed, State.boot], rfl, by simp [State.boot],
    by simp [State.boot]⟩
  counted := ⟨by simp [State.boot], by simp [State.boot], by simp [State.boot]⟩
  settled := rfl

theorem Inv.mixed (h : Inv insecure s) {data : Bytes} (hne : data ≠ []) :
    Inv insecure ((poolAbsorb data s).note (.mixed data)) where
  logged :=
    have hfed := fed_absorb (show (Event.mixed data).data = some data from rfl) hne s
    { sound := hfed.sound h.logged.sound
      pool := hfed.pool h.logged.pool
      key := h.logged.key
      below := fun d k n c hmem => h.logged.below d k n c ((mem_cons.1 hmem).resolve_left (by simp))
      served := h.logged.served
      init := fun hi => .tail _ (h.logged.init hi)
      ready := fun hr => (h.logged.ready hr).imp_right fun hv => hv.cons (by simp) }
  counted := ⟨h.counted.bytes, h.counted.blocks, h.counted.early⟩
  settled := rfl

/-- A reseed starts the counters again, whatever they were, with a key from the pool. -/
theorem inv_drbgReseed (hsound : Sound insecure s.log) (hpool : s.pool = poolOf s.log)
    (hinit : s.inited = true → .init ∈ s.log)
    (hready : s.readyCrypto = true → insecure = true ∨ Vouched (sinceInit s.log)) :
    Inv insecure (drbgReseed s) := by
  have h32 := length_sha256 s.pool
  have hkey : (sha256 s.pool ++ sha256 (sha256 s.pool)).take 32 = sha256 s.pool := by
    rw [← h32, take_left]
  have hnonce : (sha256 s.pool ++ sha256 (sha256 s.pool)).drop 32 = sha256 (sha256 s.pool) := by
    rw [← h32, drop_left]
  have hlen : s.pool.length = 64 := by rw [hpool, length_poolOf]
  refine ⟨⟨⟨by simp [Event.Ok, Event.data], hsound⟩, ?_, ?_, ?_, ?_,
    fun h => .tail _ (hinit h), ?_⟩, ?_, rfl⟩
  · simp only [drbgReseed, hkey]
    rw [poolAbsorb_pool (by exact hlen)]
    show stirred s.pool (sha256 s.pool) = poolOf (.reseed :: s.log)
    rw [poolOf, hpool]
  · simp only [drbgReseed, poolAbsorb, hkey, hnonce]
    rw [keyOf, hpool]
  · simp [Below, sinceReseed, drbgReseed, poolAbsorb]
  · simp [sinceReseed, servedBytes, drbgReseed, poolAbsorb]
  · intro h
    exact (hready h).imp_right fun hv => hv.cons (by simp)
  · exact ⟨by simp [drbgReseed, poolAbsorb], by simp [drbgReseed, poolAbsorb],
      by simp [drbgReseed, poolAbsorb]⟩

theorem inv_randomAbsorbTrusted (h : Inv insecure s) (data : Bytes) :
    Inv insecure (randomAbsorbTrusted data s) := by
  rw [randomAbsorbTrusted]
  split
  · exact h
  rename_i hgo
  have hfed := fed_absorb (show (Event.trusted data).data = some data from rfl)
    (not_or.1 hgo).1 s
  have hre : Inv insecure (drbgReseed ((poolAbsorb data s).note (.trusted data))) :=
    inv_drbgReseed (hfed.sound h.logged.sound) (hfed.pool h.logged.pool)
      (fun hi => .tail _ (h.logged.init hi)) fun hr => by
      exact (h.logged.ready hr).imp_right fun hv => hv.cons (by simp)
  obtain ⟨⟨hsound, hpool, hkey, hbelow, hserved, hinit, -⟩, hcounted, hsettled⟩ := hre
  refine ⟨⟨hsound, hpool, hkey, hbelow, hserved, hinit, fun _ => ?_⟩,
    ⟨hcounted.bytes, hcounted.blocks, hcounted.early⟩, hsettled⟩
  -- The newest events are the trusted bytes and the reseed.
  refine .inr (.inr (.inr ⟨data, ?_⟩))
  exact .tail _ (.head _)

variable (info : Option BootInfo)

/-- The seed of the boot loader: a good one unless the flag says weak. -/
theorem absorbBootSeed_fed (s : State) (hweak : s.weak = false) :
    ∃ new, Fed s (absorbBootSeed info s).1 new ∧
      ((absorbBootSeed info s).1.weak = false → (∀ ok data, .bootSeed ok true data ∉ new) ∧
        ((absorbBootSeed info s).2 = true → ∃ data, .bootSeed true false data ∈ new)) := by
  cases info with
  | none => exact ⟨[], .refl s, by simp [absorbBootSeed]⟩
  | some info =>
    rw [absorbBootSeed]
    split
    · rename_i hlen
      have hne : info.entropy.toList.take info.entropyLen ≠ [] := by
        rw [ne_eq, take_eq_nil_iff]
        simp only [Vector.toList_eq_nil_iff]
        omega
      have hfed := fed_absorb
        (show (Event.bootSeed info.entropyOk info.entropyWeak _).data = some _ from rfl) hne s
      refine ⟨_, ⟨hfed.log, hfed.events, hfed.pool, rfl⟩, fun h => ?_⟩
      have hboot : info.entropyWeak = false := by simpa [State.note, poolAbsorb, hweak] using h
      rw [hboot]
      refine ⟨by simp, fun hok => ⟨info.entropy.toList.take info.entropyLen, mem_singleton.2 ?_⟩⟩
      exact congrArg (Event.bootSeed · false _) hok.symm
    · exact ⟨[], .refl s, by simp⟩

/-- Bytes of the processor, if it gives any. -/
theorem absorbHardware_fed (m : Machine) (s : State) : ∃ new, Fed s (absorbHardware m s).1 new ∧
    (absorbHardware m s).1.weak = s.weak ∧ (∀ ok data, .bootSeed ok true data ∉ new) ∧
      ((absorbHardware m s).2 = true → ∃ data, .hardware data ∈ new) := by
  rw [absorbHardware]
  split
  · exact ⟨[], .refl s, rfl, by simp, by simp⟩
  rename_i v vs _
  have hne : (v :: vs).flatMap (fun x => leBytes 8 x.toNat) ≠ [] := by
    rw [flatMap_cons, ne_eq, append_eq_nil_iff]
    exact fun h => absurd (congrArg length h.1) (by simp [length_leBytes])
  have hfed := fed_absorb (show (Event.hardware _).data = some _ from rfl) hne s
  exact ⟨_, ⟨hfed.log, hfed.events, hfed.pool, rfl⟩, rfl, by simp, fun _ => ⟨_, .head _⟩⟩

/-- The clocks and the memory map, which vouch for nothing. -/
theorem absorbSupplemental_fed (m : Machine) (s : State) :
    ∃ new, Fed s (absorbSupplemental info m s) new ∧ (absorbSupplemental info m s).weak = s.weak ∧
      ∀ e ∈ new, ∃ data, e = .mixed data := by
  have hmixed (k n : ℕ) (s : State) : Fed s
      ((poolAbsorb (leBytes (k + 1) n) s).note (.mixed (leBytes (k + 1) n))) [.mixed _] :=
    fed_absorb rfl (fun h => absurd (congrArg length h) (by simp [length_leBytes])) s
  have hclocks := (hmixed 7 m.tsc.toNat s).trans (hmixed 7 m.ticks.toNat _)
  cases info with
  | none => exact ⟨_, hclocks, rfl, by simp⟩
  | some info =>
    have hcount := hclocks.trans (hmixed 3 info.mmapCount.toNat _)
    simp only [absorbSupplemental]
    split
    · exact ⟨_, hcount.trans (hmixed 7 info.mmapBase.toNat _), rfl, by simp⟩
    · exact ⟨_, hcount, rfl, by simp⟩

/-- What `random_init` absorbs: a reason for later requests unless the seed is weak. -/
theorem absorbed (m : Machine) (s : State) (hweak : s.weak = false) :
    let hardened := absorbHardware m (absorbBootSeed info s).1
    let t := absorbSupplemental info m hardened.1
    ∃ new, Fed s t new ∧
      (((absorbBootSeed info s).2 || hardened.2) = true → t.weak = false → Vouched new) := by
  dsimp only
  obtain ⟨seeds, hseeds, hgood⟩ := absorbBootSeed_fed info s hweak
  obtain ⟨hw, hhw, hhweak, hhboot, hhave⟩ := absorbHardware_fed m (absorbBootSeed info s).1
  obtain ⟨more, hmore, hmweak, hmixed⟩ :=
    absorbSupplemental_fed info m (absorbHardware m (absorbBootSeed info s).1).1
  refine ⟨_, (hseeds.trans hhw).trans hmore, fun htrust hw => .append ?_ hmixed⟩
  obtain ⟨hnoWeak, hseed⟩ := hgood (hhweak ▸ hmweak ▸ hw)
  rcases Bool.or_eq_true_iff.1 htrust with hboot | hhard
  · obtain ⟨data, hmem⟩ := hseed hboot
    exact .inl ⟨data, mem_append_right _ hmem⟩
  · obtain ⟨data, hmem⟩ := hhave hhard
    refine .inr (.inl ⟨⟨data, mem_append_left _ hmem⟩, fun ok d hd => ?_⟩)
    exact (mem_append.1 hd).elim (hhboot ok d) (hnoWeak ok d)

/-- Initialisation starts a new history, in which the flag of cryptographic requests has a reason.
-/
theorem inv_randomInit (h : Inv insecure s) (info : Option BootInfo) (m : Machine) :
    Inv insecure (randomInit insecure info m s) := by
  rw [randomInit]
  set s₀ : State := { s with
    pool := zeros 64, poolFill := 0, readyCrypto := false, readyAny := false, weak := false
    hw := false, log := .init :: s.log }
  obtain ⟨new, hfed, hvouched⟩ := absorbed info m s₀ rfl
  dsimp only at hfed hvouched ⊢
  generalize absorbBootSeed info s₀ = seeded at *
  generalize absorbHardware m seeded.1 = hardened at *
  generalize absorbSupplemental info m hardened.1 = t at *
  have hlog : t.log = new ++ .init :: s.log := hfed.log
  have hnew : .init ∉ new := fun hmem => (hfed.events _ hmem).1 rfl
  have hinit : Event.init ∈ (drbgReseed t).log := by simp [drbgReseed, poolAbsorb, hlog]
  have hre : Inv insecure (drbgReseed t) := by
    refine inv_drbgReseed (hfed.sound ⟨by simp [Event.Ok, Event.data], h.logged.sound⟩)
      (hfed.pool rfl) (fun _ => by simp [hlog]) fun hr => ?_
    rw [hfed.ready] at hr
    cases hr
  have hsince : sinceInit (drbgReseed t).log = .reseed :: new := by
    show sinceInit (.reseed :: t.log) = _
    rw [sinceInit_cons (by simp), hlog, sinceInit_append _ hnew]
  have hflags : ∀ ready weak,
      (ready = true → insecure = true ∨ Vouched (sinceInit (drbgReseed t).log)) → Inv insecure
      { drbgReseed t with inited := true, readyAny := true, readyCrypto := ready, weak := weak } :=
    fun _ _ hr =>
      ⟨⟨hre.logged.sound, hre.logged.pool, hre.logged.key, hre.logged.below, hre.logged.served,
        fun _ => hinit, hr⟩, ⟨hre.counted.bytes, hre.counted.blocks, hre.counted.early⟩, rfl⟩
  split
  next htrust =>
    refine hflags _ _ fun _ => .inr ?_
    rw [hsince]
    exact (hvouched htrust.1 htrust.2).cons (by simp)
  · split
    next hins => exact hflags _ _ fun _ => .inl hins
    · exact hflags _ _ hre.logged.ready

/-- **A request** keeps the account true. -/
theorem inv_randomGet (h : Inv insecure s) (domain : Domain) {len : ℕ} (hlen : len ≤ 2 ^ 32) :
    Inv insecure (randomGet domain len s).2 := by
  rw [randomGet]
  split
  · exact h
  rename_i hstart
  split
  · exact h
  rename_i hallowed
  obtain ⟨t, ht, hfew, hinited, hready, hif⟩ :
      ∃ t, Inv insecure t ∧ t.bytesSinceReseed ≤ 2 ^ 20 ∧ t.inited = true ∧
        (domain = .crypto → t.readyCrypto = true) ∧
        (if 2 ^ 20 < s.bytesSinceReseed then drbgReseed s else s) = t := by
    push Not at hstart hallowed
    have hin : s.inited = true := by simpa using hstart.2
    have hcr : domain = .crypto → s.readyCrypto = true := by simpa using hallowed
    split
    · exact ⟨_, inv_drbgReseed h.logged.sound h.logged.pool h.logged.init h.logged.ready,
        Nat.zero_le _, hin, hcr, rfl⟩
    · exact ⟨_, h, by omega, hin, hcr, rfl⟩
  rw [hif]
  dsimp only
  have hearly := ht.counted.early hfew
  rw [Nat.mod_eq_of_lt (show t.drbgCounter < 2 ^ 32 by omega)]
  obtain ⟨hlogged, hctr⟩ := getLoop_logged (s := t) domain len t.drbgCounter t.log (by omega)
    ht.logged
  obtain ⟨hbytes, new, hnew, hblocks, hout⟩ := getLoop_bytes domain (domainKey domain t.drbgKey)
    t.drbgNonce len t.drbgCounter t.log
  generalize getLoop domain (domainKey domain t.drbgKey) t.drbgNonce len t.drbgCounter t.log
    = out at *
  have hsum : (t.bytesSinceReseed + len) % 2 ^ 64 = t.bytesSinceReseed + len :=
    Nat.mod_eq_of_lt (by omega)
  have hrequest : requestBlocks out.2.2 = new.reverse.flatMap Event.bytes := by
    rw [requestBlocks, hnew, takeWhile_append_of_pos hblocks, ht.settled, append_nil]
  refine ⟨⟨⟨⟨?_, ?_, fun hd => ?_⟩, hlogged.sound⟩, hlogged.pool, hlogged.key, ?_, ?_,
    fun hi => .tail _ (hlogged.init hi), ?_⟩, ⟨?_, ?_, fun hb => ?_⟩, rfl⟩
  · exact hlogged.served.trans_le hfew
  · rw [hrequest, hbytes]
    exact hout
  · exact (hlogged.ready (hready hd)).imp_right fun hv => ⟨hlogged.init hinited, hv⟩
  · intro d k n c hmem
    exact hlogged.below d k n c ((mem_cons.1 hmem).resolve_left (by simp))
  · rw [hsum]
    show out.1.length + servedBytes (sinceReseed out.2.2) = _
    rw [hlogged.served, hbytes]
    exact add_comm _ _
  · intro hr
    exact (hlogged.ready hr).imp_right fun hv => hv.cons (by simp)
  all_goals simp only [hsum, hctr] at *; omega

/-- **One call.** -/
theorem inv_step (h : Inv insecure s) (c : Call) (hc : c.Small) :
    Inv insecure (step insecure s c) := by
  cases c with
  | init info m => exact inv_randomInit h info m
  | mix data =>
    rw [step, randomMix]
    split
    · exact h
    · exact h.mixed ‹_›
  | absorbTrusted data => exact inv_randomAbsorbTrusted h data
  | get domain len => exact inv_randomGet h domain hc

/-- **The generator is fresh and waits for entropy.** In every run with requests of at most `2 ^ 32`
bytes the pool and the key are what the log says. A block has the key of its domain under the last
reseed, and no block since then has the key, the nonce and the counter of another of its domain.
When a request is served, at most `2 ^ 20` bytes were served since the last reseed, and it gives out
the keystream of its blocks. A cryptographic request is served only if, since the last
initialisation, entropy was absorbed that somebody vouches for. What `random_get` returns is what
the log says. -/
theorem random_sound (h : Reach (· = State.boot) (fun _ c => c.Small) (step insecure) s) :
    s.pool = poolOf s.log ∧ (s.drbgKey, s.drbgNonce) = keyOf s.log ∧
      (∀ post e before, s.log = post ++ e :: before →
        (∀ data, e.data = some data → data ≠ []) ∧
        (∀ domain key nonce counter, e = .block domain key nonce counter →
          .block domain key nonce counter ∉ sinceReseed before ∧
            key = domainKey domain (keyOf before).1 ∧ nonce = (keyOf before).2) ∧
        (∀ domain out, e = .served domain out → servedBytes (sinceReseed before) ≤ 2 ^ 20 ∧
          out = (requestBlocks before).take out.length) ∧
        ∀ out, e = .served .crypto out → insecure = false →
          .init ∈ before ∧ Vouched (sinceInit before)) ∧
      ∀ domain len out t, randomGet domain len s = (some out, t) → out.length = len ∧
        ∃ before, t.log = .served domain out :: before := by
  have hinv : Inv insecure s := h.invariant (Inv insecure) (by rintro _ rfl; exact inv_boot)
    fun _ c hs hc => inv_step hs c hc
  refine ⟨hinv.logged.pool, hinv.logged.key, fun post e before hlog => ?_,
    fun domain len out t hget => ?_⟩
  · have hok : e.Ok insecure before := (hlog ▸ hinv.logged.sound).split
    refine ⟨?_, ?_, ?_, ?_⟩
    · rintro data hdata rfl
      cases e <;> simp_all [Event.Ok, Event.data]
    · rintro domain key nonce counter rfl
      exact hok
    · rintro domain out rfl
      exact ⟨hok.1, hok.2.1⟩
    · rintro out rfl hsecure
      exact (hok.2.2 rfl).resolve_left (by simp [hsecure])
  · rw [randomGet] at hget
    split at hget
    · cases hget
    split at hget
    · cases hget
    obtain ⟨hout, rfl⟩ := Prod.mk.inj hget
    obtain rfl := Option.some.inj hout
    exact ⟨(getLoop_bytes ..).1, _, rfl⟩

/-- An initialisation with a good seed and no hardware generator, and a cryptographic request. -/
def seededRun : State :=
  step false (step false State.boot (.init (some ⟨true, false, 64, .replicate 64 7, 0, 0⟩)
    ⟨false, false, [], [], 0, 0⟩)) (.get .crypto 10)

theorem random_sound_seededRun : ∃ out before, seededRun.log = .served .crypto out :: before ∧
    out = (requestBlocks before).take out.length ∧ .init ∈ before ∧
      Vouched (sinceInit before) := by
  have hrun : Reach (· = State.boot) (fun _ c => c.Small) (step false) seededRun :=
    .call (Call.get .crypto 10) (.call (Call.init _ _) (.start rfl) trivial)
      (by decide : 10 ≤ 2 ^ 32)
  have hsound := (random_sound hrun).2.2.1 [] _ _ rfl
  exact ⟨_, _, rfl, (hsound.2.2.1 .crypto _ rfl).2, hsound.2.2.2 _ rfl rfl⟩

end PeakOs.Random
