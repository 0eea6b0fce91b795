import PeakOs.Blobstore.Cache

/-!
# What is written is read back

A run of the store is recorded next to it: for every object, the byte last written at each position
since it was created. `Consistent` ties the two together through the view of the pages that the
cache maintains: a byte on record is in a page of its object, and the view has it. A write to one
object leaves the others alone because their pages are apart, which is the layout.

So the contents are right as long as the layout is, and as long as an identifier names one object.
Both can be lost by a `blobstore_create`: for a size whose number of pages wraps, and for an
identifier that is still in use when the counter has gone round.

## Main results

* `Consistent.write_cases` — one write
* `readsBack_of_run` — every run
* `create_wraps_contents` — two objects in one page
-/

namespace PeakOs.Blobstore

open Function List

structure Sys where
  store : Store
  /-- The byte last written, by object and position. -/
  written : UInt32 → ℕ → Option UInt8

/-- The record after `bytes` were written at `off`. -/
def record (off : ℕ) (bytes : List UInt8) (f : ℕ → Option UInt8) : ℕ → Option UInt8 := fun pos =>
  if off ≤ pos ∧ pos < off + bytes.length then bytes[pos - off]? else f pos

def Sys.step (σ : Sys) : Io × Call → Sys
  | (io, .create size) =>
    let r := blobstoreCreate io size σ.store
    ⟨r.2, match r.1 with
      | none => σ.written
      | some id => Function.update σ.written id fun _ => none⟩
  | (io, .write id off bytes) =>
    let r := blobstoreWrite io id off bytes σ.store
    ⟨r.2, match r.1 with
      | none => σ.written
      | some _ => Function.update σ.written id (record off.toNat bytes (σ.written id))⟩
  | e => ⟨Blobstore.step σ.store e, σ.written⟩

/-- A read returns what the object has from `off` on, and every byte on record as it was written. -/
def ReadsBack (σ : Sys) : Prop :=
  ∀ io : Io, io.Working → ∀ (id : UInt32) (off len : UInt64), off.toNat + len.toNat < 2 ^ 32 →
    ∀ i, findObj id σ.store = some i →
      ∃ bytes, (blobstoreRead io id off len σ.store).1 = some bytes ∧
        bytes.length = min len.toNat ((σ.store.objects i).size.toNat - off.toNat) ∧
        ∀ k b, k < bytes.length → σ.written id (off.toNat + k) = some b → bytes[k]? = some b

/-- The device works, and offsets and lengths stay below `2 ^ 32`. -/
def InScope (_ : Sys) : Io × Call → Prop
  | (io, .read _ off len) => io.Working ∧ off.toNat + len.toNat < 2 ^ 32
  | (io, .write _ off bytes) => io.Working ∧ off.toNat + bytes.length < 2 ^ 32
  | (_, .load) | (_, .disturb _) => False
  | (io, _) => io.Working

/-- The first half of `blobstore_write`: object `i` is made to reach up to `stop`. -/
def grown (io : Io) (id : UInt32) (i : ObjIx) (stop : UInt64) (s : Store) : Bool × Store :=
  if (s.objects i).size.toUInt64 < stop then blobstoreResize io id stop s else (true, s)

/-- The call puts no page out of the cache that could not be written back, and a write fetches what
it needs. -/
def Spared (σ : Sys) : Io × Call → Prop
  | (io, .read id off len) => off.toNat + len.toNat < 2 ^ 32 ∧ (findObj id σ.store).all fun i =>
      let n := min len.toNat ((σ.store.objects i).size.toNat - off.toNat)
      io.sparesRead (σ.store.objects i).startPage n off.toNat n σ.store
  | (io, .write id off bytes) => off.toNat + bytes.length < 2 ^ 32 ∧
      (findObj id σ.store).all fun i =>
        let s := (grown io id i (off + UInt64.ofNat bytes.length) σ.store).2
        io.sparesWrite (s.objects i).startPage bytes.length off.toNat bytes s
  | (_, .load) | (_, .disturb _) => False
  | _ => True

/-- No sum wraps, and a new identifier is not in use. -/
def Fresh (σ : Sys) : Io × Call → Prop
  | (_, .create size) => NoWrap σ.store size ∧ findObj σ.store.super.nextId σ.store = none
  | (_, .resize _ size) => NoWrap σ.store size
  | _ => True

def UniqueIds (s : Store) : Prop :=
  ∀ {i j}, (s.objects i).inUse = true → (s.objects j).inUse = true →
    (s.objects i).id = (s.objects j).id → i = j

/-- After `blobstore_init`, with nothing on record. -/
def Sys.Start (σ : Sys) : Prop :=
  Booted σ.store ∧ UniqueIds σ.store ∧ σ.written = fun _ _ => none

structure Consistent (σ : Sys) (v : View) : Prop where
  cache : CacheOk σ.store v
  layout : Layout σ.store
  unique : UniqueIds σ.store
  held : ∀ {i pos b}, (σ.store.objects i).inUse = true →
    σ.written (σ.store.objects i).id pos = some b →
      pos < 4096 * (σ.store.objects i).npages.toNat ∧
        v.byte (σ.store.objects i).startPage pos = b

/-! ### Objects -/

variable {s s' : Store} {id : UInt32} {i : ObjIx} {v : View} {io : Io}

theorem findObj_some (h : findObj id s = some i) :
    (s.objects i).inUse = true ∧ (s.objects i).id = id := by
  have hfound := find_finRange h
  rwa [Bool.and_eq_true, beq_iff_eq] at hfound

theorem findObj_none (h : findObj id s = none)
    (hi : (s.objects i).inUse = true) : (s.objects i).id ≠ id := by
  rintro rfl
  have hnone := find?_eq_none.1 h i (mem_finRange i)
  simp [hi] at hnone

theorem findObj_congr (h : ∀ i, (s'.objects i).inUse = (s.objects i).inUse ∧
    (s'.objects i).id = (s.objects i).id) (id : UInt32) : findObj id s' = findObj id s := by
  rw [findObj]
  congr 1
  funext i
  rw [(h i).1, (h i).2]

section Pages

variable {s : Store} (h : Layout s) {i j : ObjIx}

include h

section

variable (hi : (s.objects i).inUse = true)
include hi

/-- The page of a byte of an object is one of the object's. -/
theorem Layout.toNat_pageOf {pos : ℕ} (hpos : pos < 4096 * (s.objects i).npages.toNat) :
    (pageOf (s.objects i).startPage pos).toNat = (s.objects i).startPage.toNat + pos / 4096 := by
  have hbelow := h.packed.below (i := .inl i) (BlobObj.span_of_inUse hi)
  have hnext := h.next_lt
  dsimp only at hbelow
  have hofNat : (UInt32.ofNat (pos / 4096)).toNat = pos / 4096 := by
    rw [UInt32.toNat_ofNat']
    omega
  rw [pageOf, toNat_add_of_lt (by omega), hofNat]

/-- The page of a byte of one object is not between the first and the last page of another. -/
theorem Layout.pageOf_outside (hj : (s.objects j).inUse = true) (hij : i ≠ j) {pos : ℕ}
    (hpos : pos < 4096 * (s.objects i).npages.toNat) :
    let p := (pageOf (s.objects i).startPage pos).toNat
    p < (s.objects j).startPage.toNat ∨
      (s.objects j).startPage.toNat + (s.objects j).npages.toNat ≤ p := by
  have hapart := h.packed.apart (i := .inl i) (j := .inl j) (fun hc => hij (Sum.inl.inj hc))
    (BlobObj.span_of_inUse hi) (BlobObj.span_of_inUse hj)
  dsimp only
  rw [h.toNat_pageOf hi hpos]
  rcases hapart with hle | hle
  all_goals
    dsimp only at hle
    omega

/-- Two objects have no page in common. -/
theorem Layout.pageOf_ne (hj : (s.objects j).inUse = true) (hij : i ≠ j) {pos q : ℕ}
    (hpos : pos < 4096 * (s.objects i).npages.toNat)
    (hq : q < 4096 * (s.objects j).npages.toNat) :
    pageOf (s.objects i).startPage pos ≠ pageOf (s.objects j).startPage q := by
  intro heq
  have hout := h.pageOf_outside hi hj hij hpos
  rw [heq, h.toNat_pageOf hj hq] at hout
  omega

theorem Layout.npages_le : (s.objects i).npages.toNat ≤ 65536 := by
  have hbelow := h.packed.below (i := .inl i) (BlobObj.span_of_inUse hi)
  have hnext := h.next_lt
  dsimp only at hbelow
  omega

end

end Pages

/-! ### What the calls do to the objects -/

theorem CacheOk.sameCache (h : CacheOk s v) (hs : SameCache s s') : CacheOk s' v :=
  h.congr hs.cache hs.hash (diskPage_of_low hs.high)

/-- What is seen of the pages outside is as before, whatever could be written back. -/
theorem CacheOk.cacheEvictObjectPages (io : Io) (start npages : UInt32) (h : CacheOk s v) :
    ∃ v', CacheOk (cacheEvictObjectPages io start npages s) v' ∧
      ∀ p, p < start ∨ start + npages ≤ p → v' p = v p := by
  rw [Blobstore.cacheEvictObjectPages]
  generalize finRange 48 = is
  induction is generalizing s v with
  | nil => exact ⟨v, h, fun _ _ => rfl⟩
  | cons i is ih =>
    rw [foldl_cons]
    split
    · exact ih h
    next hvalid =>
    split
    · exact ih h
    next hin =>
    obtain ⟨v₁, hok, -, hsame, -⟩ := h.dropPage io (by simpa using hvalid)
    obtain ⟨v', hok', hsame'⟩ := ih hok
    refine ⟨v', hok', fun p hp => (hsame' p hp).trans (hsame p ?_)⟩
    rintro rfl
    exact hin hp

theorem releasePages_frame (start npages : UInt32) (s : Store) :
    SameCache s (releasePages start npages s) ∧
      (releasePages start npages s).objects = s.objects := by
  rw [releasePages]
  split
  · obtain ⟨hcache, hobj, -⟩ := rewindLoop_frame 32 (s.setNextPage start)
    exact ⟨⟨hcache.cache, hcache.hash, hcache.high⟩, hobj⟩
  rw [freeSpanAdd]
  iterate 2
    split
    · exact ⟨.refl s, rfl⟩
  · exact ⟨⟨rfl, rfl, fun _ _ => rfl⟩, rfl⟩

theorem CacheOk.flushAll (io : Io) (is : List CacheIx) :
    ∀ {s : Store}, CacheOk s v → CacheOk (flushAll io is s).2 v := by
  induction is with
  | nil => exact fun h => h
  | cons i is ih =>
    intro s h
    have hok := (h.flushPage io i).1
    rw [Blobstore.flushAll]
    generalize Blobstore.flushPage io i s = res at hok
    rcases res with ⟨_ | _, s₁⟩
    · exact hok
    · exact ih hok

/-! ### Steps -/

section Steps

variable {σ : Sys} {v : View}

variable {s' : Store} {size off : UInt64} {io : Io} {i : ObjIx} {bytes : List UInt8} {id : UInt32}

section

variable (h : Consistent σ v)
include h

/-- Objects may go, and may get more pages; of the others, the same must be seen. -/
theorem Consistent.mono {v' : View} (hc : CacheOk s' v') (hl : Layout s')
    (hv : ∀ i, (s'.objects i).inUse = true → ∀ pos < 4096 * (σ.store.objects i).npages.toNat,
      v'.byte (σ.store.objects i).startPage pos = v.byte (σ.store.objects i).startPage pos)
    (hobj : ∀ i, (s'.objects i).inUse = true → (σ.store.objects i).inUse = true ∧
      (s'.objects i).id = (σ.store.objects i).id ∧
      (s'.objects i).startPage = (σ.store.objects i).startPage ∧
      (σ.store.objects i).npages.toNat ≤ (s'.objects i).npages.toNat) :
    Consistent ⟨s', σ.written⟩ v' := by
  refine ⟨hc, hl, fun {i j} hi hj hij => ?_, fun {i pos b} hi hpos => ?_⟩
  · obtain ⟨hi', hid, -⟩ := hobj i hi
    obtain ⟨hj', hjd, -⟩ := hobj j hj
    rw [hid, hjd] at hij
    exact h.unique hi' hj' hij
  obtain ⟨hi', hid, hstart, hle⟩ := hobj i hi
  rw [hid] at hpos
  obtain ⟨hlt, hbyte⟩ := h.held hi' hpos
  rw [hstart]
  exact ⟨hlt.trans_le (Nat.mul_le_mul_left _ hle), (hv i hi pos hlt).trans hbyte⟩

theorem Consistent.of_objects_eq (hc : CacheOk s' v)
    (hl : Layout s') (hobj : s'.objects = σ.store.objects) : Consistent ⟨s', σ.written⟩ v := by
  refine h.mono hc hl (fun _ _ _ _ => rfl) fun i hi => ?_
  rw [hobj] at hi ⊢
  exact ⟨hi, rfl, rfl, le_rfl⟩

/-- **`blobstore_create`** leaves the other objects alone. -/
theorem Consistent.create (io : Io)
    (hwrap : NoWrap σ.store size) (hid : findObj σ.store.super.nextId σ.store = none) :
    Consistent (σ.step (io, .create size)) v := by
  have hlayout := h.layout.create io hwrap
  rw [Sys.step]
  rcases h.layout.create_cases io hwrap with
    heq | ⟨start, s₁, -, ht, ⟨-, heq⟩ | ⟨i, hfree, heq⟩⟩ <;>
    rw [heq] at hlayout ⊢
  · exact h
  · exact h.of_objects_eq (h.cache.sameCache ht.sameCache) hlayout ht.objects
  · set s₂ := s₁.withObj i start (pagesFor size) size.toUInt32
    have hsame : SameCache s₁ s₂ := ⟨rfl, rfl, fun _ _ => rfl⟩
    have hc := h.cache.sameCache ((ht.sameCache.trans hsame).trans (sameCache_writeMeta io s₂))
    obtain ⟨d, hd, -⟩ := writeMeta_eq io s₂
    have hobj : (writeMeta io s₂).2.objects = update σ.store.objects i
        ⟨s₁.super.nextId, start, pagesFor size, size.toUInt32, true⟩ := by
      rw [hd, ← ht.objects]
      rfl
    have hid₁ : s₁.super.nextId = σ.store.super.nextId := by rw [ht.super]
    rw [hid₁] at hobj
    generalize (writeMeta io s₂).2 = s₃ at *
    have hself : s₃.objects i = ⟨σ.store.super.nextId, start, pagesFor size, size.toUInt32,
        true⟩ := by rw [hobj, update_self]
    have hother : ∀ {j}, j ≠ i → s₃.objects j = σ.store.objects j := fun hj => by
      rw [hobj, update_of_ne hj]
    refine ⟨hc, hlayout, fun {a b} ha hb hab => ?_, fun {a pos b} ha hpos => ?_⟩
    · by_cases hai : a = i <;> by_cases hbi : b = i
      · rw [hai, hbi]
      · rw [hai, hself, hother hbi] at hab
        rw [hother hbi] at hb
        exact absurd hab.symm (findObj_none hid hb)
      · rw [hbi, hself, hother hai] at hab
        rw [hother hai] at ha
        exact absurd hab (findObj_none hid ha)
      · rw [hother hai] at ha hab
        rw [hother hbi] at hb hab
        exact h.unique ha hb hab
    dsimp only at ha hpos ⊢
    by_cases hai : a = i
    · rw [hai, hself, update_self] at hpos
      cases hpos
    rw [hother hai] at ha hpos ⊢
    rw [update_of_ne (findObj_none hid ha)] at hpos
    exact h.held ha hpos

/-- A deletion takes the pages of its object only, whether or not they could be written back. -/
theorem Consistent.delete (io : Io) (id : UInt32) :
    ∃ v', Consistent ⟨(blobstoreDelete io id σ.store).2, σ.written⟩ v' := by
  have hlayout := h.layout.delete io id
  rcases blobstoreDelete_cases io id σ.store with heq | ⟨i, s₁, hfind, ⟨hobj₁, -⟩, hsame, heq⟩ <;>
    rw [heq] at hlayout ⊢
  · exact ⟨v, h⟩
  · rw [hobj₁] at hlayout ⊢
    set s₂ := s₁.setObj i { σ.store.objects i with inUse := false }
    have hsame₂ : SameCache s₁ s₂ := ⟨rfl, rfl, fun _ _ => rfl⟩
    obtain ⟨hrelease, hobj₂⟩ := releasePages_frame (σ.store.objects i).startPage
      (σ.store.objects i).npages s₂
    generalize releasePages (σ.store.objects i).startPage (σ.store.objects i).npages s₂ = s₃ at *
    obtain ⟨v', hevict, hv⟩ := h.cache.cacheEvictObjectPages io (σ.store.objects i).startPage
      (σ.store.objects i).npages
    have hc := hevict.sameCache
      (((hsame.trans hsame₂).trans hrelease).trans (sameCache_writeMeta io s₃))
    obtain ⟨d, hd, -⟩ := writeMeta_eq io s₃
    have hobj : (writeMeta io s₃).2.objects =
        update σ.store.objects i { σ.store.objects i with inUse := false } := by
      rw [hd]
      refine hobj₂.trans ?_
      show update s₁.objects i _ = _
      rw [hobj₁]
    have hleft : ∀ {j}, ((writeMeta io s₃).2.objects j).inUse = true → j ≠ i := by
      rintro j hj rfl
      rw [hobj, update_self] at hj
      cases hj
    refine ⟨v', h.mono hc hlayout (fun j hj pos hpos => ?_) fun j hj => ?_⟩
    · have hji := hleft hj
      rw [hobj, update_of_ne hji] at hj
      have hi := (findObj_some hfind).1
      have hbelow := h.layout.packed.below (i := .inl i) (BlobObj.span_of_inUse hi)
      have hnext := h.layout.next_lt
      dsimp only at hbelow
      refine congrFun (hv _ ?_) _
      rw [UInt32.lt_iff_toNat_lt, UInt32.le_iff_toNat_le, toNat_add_of_lt (by omega)]
      exact h.layout.pageOf_outside hj hi hji hpos
    have hji := hleft hj
    rw [hobj, update_of_ne hji] at hj ⊢
    exact ⟨hj, rfl, rfl, le_rfl⟩

/-- An object may get more pages and another size; nothing else changes. -/
theorem Consistent.resize (io : Io) (id : UInt32) (hwrap : NoWrap σ.store size) :
    Consistent ⟨(blobstoreResize io id size σ.store).2, σ.written⟩ v := by
  have hlayout := h.layout.resize io id hwrap
  rcases h.layout.resize_cases io id hwrap with heq | ⟨i, s', -, heq, hr⟩
  · rwa [heq]
  rw [heq] at hlayout ⊢
  obtain ⟨npages, hobj, hle, -⟩ := hr.objects
  obtain ⟨d, hd, -⟩ := writeMeta_eq io s'
  have hobj₁ : (writeMeta io s').2.objects = _ := (congrArg Store.objects hd).trans hobj
  refine h.mono (h.cache.sameCache (hr.sameCache.trans (sameCache_writeMeta io s'))) hlayout
    (fun _ _ _ _ => rfl) fun j hj => ?_
  rw [hobj₁] at hj ⊢
  by_cases hji : j = i
  · subst hji
    rw [update_self] at hj ⊢
    exact ⟨hj, rfl, rfl, hle⟩
  · rw [update_of_ne hji] at hj ⊢
    exact ⟨hj, rfl, rfl, le_rfl⟩

/-- **The bytes of a write** reach their object and no other. -/
theorem Consistent.put (hi : (σ.store.objects i).inUse = true) {off : ℕ}
    (hfit : off + bytes.length ≤ 4096 * (σ.store.objects i).npages.toNat)
    (hsame : SameMeta σ.store s')
    (hc : CacheOk s' (View.put (σ.store.objects i).startPage off bytes v)) :
    Consistent ⟨s', update σ.written (σ.store.objects i).id
      (record off bytes (σ.written (σ.store.objects i).id))⟩
      (View.put (σ.store.objects i).startPage off bytes v) := by
  have hnpages := h.layout.npages_le hi
  refine ⟨hc, h.layout.sameMeta hsame, ?_, fun {j pos b} hj hpos => ?_⟩
  · rw [UniqueIds, hsame.objects]
    exact h.unique
  dsimp only at hj hpos ⊢
  rw [hsame.objects] at hj hpos ⊢
  by_cases hji : j = i
  · subst hji
    rw [update_self, record] at hpos
    split at hpos
    next hin =>
      refine ⟨by omega, ?_⟩
      have hbyte := @View.byte_put (σ.store.objects j).startPage bytes off v _ _
        (by omega) hpos
      rwa [show off + (pos - off) = pos by omega] at hbyte
    next hout =>
      obtain ⟨hlt, hbyte⟩ := h.held hj hpos
      refine ⟨hlt, ?_⟩
      rw [View.byte_put_of_ne, hbyte]
      intro k hk
      by_contra hcon
      rw [not_or, not_not, not_not] at hcon
      have := pageOf_inj (by omega) (by omega) hcon.1 hcon.2
      omega
  have hne : (σ.store.objects j).id ≠ (σ.store.objects i).id := fun hc =>
    hji (h.unique hj hi hc)
  rw [update_of_ne hne] at hpos
  obtain ⟨hlt, hbyte⟩ := h.held hj hpos
  refine ⟨hlt, ?_⟩
  rw [View.byte_put_of_ne, hbyte]
  exact fun k hk => .inl (h.layout.pageOf_ne hi hj (Ne.symm hji) (by omega) hlt)

/-- **`blobstore_resize`**: the pages move, the bytes stay. -/
theorem Consistent.grow (io : Io)
    (hfind : findObj id σ.store = some i) {stop : UInt64} (hwrap : NoWrap σ.store stop) :
    grown io id i stop σ.store = (false, σ.store) ∨
    ∃ s₁, grown io id i stop σ.store = (true, s₁) ∧ Consistent ⟨s₁, σ.written⟩ v ∧
      findObj id s₁ = some i ∧
      (s₁.objects i).size.toNat = max (σ.store.objects i).size.toNat stop.toNat := by
  rw [grown]
  by_cases hgrow : (σ.store.objects i).size.toUInt64 < stop
  · rw [if_pos hgrow]
    rw [UInt64.lt_iff_toNat_lt, UInt32.toNat_toUInt64] at hgrow
    have hcons := h.resize io id hwrap
    rcases h.layout.resize_cases io id hwrap with heq | ⟨j, s', hj, heq, hr⟩
    · exact .inl heq
    obtain rfl := Option.some.inj (hfind.symm.trans hj)
    rw [heq] at hcons ⊢
    obtain ⟨npages, hobj, -, hpages⟩ := hr.objects
    obtain ⟨d, hd, -⟩ := writeMeta_eq io s'
    have hobj₁ : (writeMeta io s').2.objects = _ := (congrArg Store.objects hd).trans hobj
    have hkeep : ∀ k, ((writeMeta io s').2.objects k).inUse = (σ.store.objects k).inUse ∧
        ((writeMeta io s').2.objects k).id = (σ.store.objects k).id := by
      intro k
      rw [hobj₁, update_apply]
      split
      next hk => exact ⟨by rw [hk], by rw [hk]⟩
      · exact ⟨rfl, rfl⟩
    refine .inr ⟨_, rfl, hcons, (findObj_congr hkeep _).trans hfind, ?_⟩
    -- the store has no more than `2 ^ 16` pages, so the new size is a 32-bit word
    have hmax := hcons.layout.npages_le ((hkeep i).1.trans (findObj_some hfind).1)
    rw [hobj₁, update_self] at hmax ⊢
    dsimp only at hmax ⊢
    have hcount : pageCount stop < 2 ^ 32 := by
      rw [NoWrap] at hwrap
      omega
    rw [pagesFor_of_lt hcount, pageCount] at hpages
    rw [UInt64.toNat_toUInt32]
    omega
  rw [if_neg hgrow]
  rw [UInt64.not_lt] at hgrow
  exact .inr ⟨_, rfl, h, hfind, (max_eq_left hgrow).symm⟩

/-- **One write**: all or nothing. -/
theorem Consistent.write_cases (hfind : findObj id σ.store = some i)
    (hloses : let s := (grown io id i (off + UInt64.ofNat bytes.length) σ.store).2
      io.sparesWrite (s.objects i).startPage bytes.length off.toNat bytes s = true)
    (hlt : off.toNat + bytes.length < 2 ^ 64)
    (hwrap : NoWrap σ.store (off + UInt64.ofNat bytes.length)) :
    blobstoreWrite io id off bytes σ.store = (none, σ.store) ∨
    ∃ s' v', blobstoreWrite io id off bytes σ.store = (some bytes.length, s') ∧
      Consistent ⟨s', update σ.written id (record off.toNat bytes (σ.written id))⟩ v' ∧
      findObj id s' = some i ∧ (s'.objects i).size.toNat =
        max (σ.store.objects i).size.toNat (off.toNat + bytes.length) := by
  have hstop : (off + UInt64.ofNat bytes.length).toNat = off.toNat + bytes.length := by
    rw [UInt64.toNat_add, UInt64.toNat_ofNat']
    omega
  rw [blobstoreWrite, hfind]
  dsimp only
  rw [← grown]
  rcases h.grow io hfind hwrap with heq | ⟨s₁, heq, hcons, hfind₁, hsize⟩
  · rw [heq]
    exact .inl rfl
  rw [heq] at hloses ⊢
  rw [hfind₁]
  obtain ⟨huse₁, rfl⟩ := findObj_some hfind₁
  have hcache : CacheOk s₁ v := hcons.cache
  have hroom : off.toNat + bytes.length ≤ (s₁.objects i).size.toNat := by omega
  obtain ⟨s₂, hloop, hc₂⟩ := writeLoop_view (s₁.objects i).startPage bytes.length
    off.toNat bytes hloses hcache le_rfl (by omega)
  have hsame := sameMeta_writeLoop io (s₁.objects i).startPage bytes.length off.toNat bytes s₁
  dsimp only
  rw [hloop] at hsame ⊢
  refine .inr ⟨s₂, _, rfl, hcons.put huse₁ (hroom.trans (hcons.layout.fits i huse₁)) hsame hc₂,
    ?_, ?_⟩
  · rwa [findObj_congr (s := s₁) fun k => by rw [hsame.objects]; exact ⟨rfl, rfl⟩]
  · rw [hsame.objects, hsize, hstop]

/-- **`blobstore_write`**: the bytes of the call, and no others. -/
theorem Consistent.write (hspared : Spared σ (io, .write id off bytes)) :
    ∃ v', Consistent (σ.step (io, .write id off bytes)) v' := by
  obtain ⟨hlt, hloses⟩ := hspared
  have hwrap : NoWrap σ.store (off + UInt64.ofNat bytes.length) := by
    have hnext := h.layout.next_lt
    rw [NoWrap, pageCount, UInt64.toNat_add, UInt64.toNat_ofNat']
    omega
  rw [Sys.step]
  rcases hfind : findObj id σ.store with _ | i
  · rw [blobstoreWrite, hfind]
    exact ⟨v, h⟩
  rw [hfind, Option.all_some] at hloses
  rcases h.write_cases hfind hloses (by omega) hwrap with heq | ⟨s', v', heq, hcons, -⟩
  · rw [heq]
    exact ⟨v, h⟩
  · rw [heq]
    exact ⟨v', hcons⟩

/-- **`blobstore_sync`** changes no contents. -/
theorem Consistent.sync (io : Io) : Consistent ⟨(blobstoreSync io σ.store).2, σ.written⟩ v := by
  have hlayout := h.layout.sync io
  have hflush := h.cache.flushAll io (finRange 48)
  have hsame := sameMeta_flushAll io (finRange 48) σ.store
  rw [blobstoreSync] at hlayout ⊢
  split
  · exact h
  next hready =>
  rw [if_neg hready] at hlayout
  generalize flushAll io (finRange 48) σ.store = res at *
  rcases res with ⟨_ | _, s₁⟩
  · exact h.of_objects_eq hflush hlayout hsame.objects
  obtain ⟨d, hd, -⟩ := writeMeta_eq io s₁
  refine h.of_objects_eq (hflush.sameCache (sameCache_writeMeta io s₁)) hlayout ?_
  rw [show (writeMeta io s₁).2 = _ from hd]
  exact hsame.objects

/-- What a read returns. -/
theorem Consistent.read {len : UInt64} (hspared : Spared σ (io, .read id off len))
    (hfind : findObj id σ.store = some i) :
    ∃ r s', blobstoreRead io id off len σ.store = (r, s') ∧ CacheOk s' v ∧
      (r = some (v.bytes (σ.store.objects i).startPage off.toNat
        (min len.toNat ((σ.store.objects i).size.toNat - off.toNat))) ∨
        r = none ∧ ¬ io.Working) := by
  obtain ⟨hlt, hloses⟩ := hspared
  rw [hfind, Option.all_some] at hloses
  rw [blobstoreRead, hfind]
  dsimp only
  by_cases hoff : (σ.store.objects i).size.toUInt64 ≤ off
  · rw [if_pos hoff]
    rw [UInt64.le_iff_toNat_le, UInt32.toNat_toUInt64] at hoff
    rw [Nat.sub_eq_zero_of_le hoff, min_zero]
    exact ⟨_, _, rfl, h.cache, .inl rfl⟩
  rw [if_neg hoff]
  rw [UInt64.not_le] at hoff
  have hsum : (off + len).toNat = off.toNat + len.toNat := by
    rw [UInt64.toNat_add]
    omega
  have hlen : (if (σ.store.objects i).size.toUInt64 < off + len then
      (σ.store.objects i).size.toUInt64 - off else len).toNat =
        min len.toNat ((σ.store.objects i).size.toNat - off.toNat) := by
    split
    next hgt =>
      rw [UInt64.lt_iff_toNat_lt, UInt32.toNat_toUInt64] at hgt
      rw [UInt64.toNat_sub_of_le _ _ (UInt64.le_iff_toNat_le.2
        (by rw [UInt32.toNat_toUInt64]; exact hoff.le)), UInt32.toNat_toUInt64]
      omega
    next hle =>
      rw [UInt64.not_lt, UInt64.le_iff_toNat_le, UInt32.toNat_toUInt64] at hle
      omega
  rw [hlen]
  exact readLoop_view _ _ _ _ hloses h.cache le_rfl (by omega)

/-- The bytes on record are among those of the view. -/
theorem Consistent.recorded (hfind : findObj id σ.store = some i) {n k : ℕ}
    {b : UInt8} (hk : k < n) (hb : σ.written id (off.toNat + k) = some b) :
    (v.bytes (σ.store.objects i).startPage off.toNat n)[k]? = some b := by
  obtain ⟨huse, rfl⟩ := findObj_some hfind
  rw [View.bytes, getElem?_map, getElem?_range hk, Option.map_some, (h.held huse hb).2]

theorem Consistent.readsBack : ReadsBack σ := by
  intro io hio id off len hlt i hfind
  obtain ⟨r, s', hread, -, rfl | ⟨-, hno⟩⟩ :=
    h.read ⟨hlt, (Option.all_eq_true ..).2 fun _ _ => hio.sparesRead ..⟩ hfind
  · refine ⟨_, by rw [hread], View.length_bytes .., fun k b hk hb => h.recorded hfind ?_ hb⟩
    rwa [View.length_bytes] at hk
  · exact absurd hio hno

end

/-! ### Runs -/

theorem Consistent.start (h : σ.Start) : ∃ v, Consistent σ v := by
  obtain ⟨hboot, hunique, hwritten⟩ := h
  have hlayout := layout_of_booted hboot
  obtain ⟨io, d, hinit, -⟩ := hboot
  have hcache : σ.store.cache = (fun _ => noPage) ∧ σ.store.cacheHash = fun _ => none := by
    rw [hinit, blobstoreInit]
    split
    · exact ⟨rfl, rfl⟩
    rcases hread : metaReadable io d with _ | _
    · obtain ⟨sp, hmeta⟩ := readMeta_of_not_readable (s := blankStore d) hread
      rw [hmeta]
      obtain ⟨d', hd, -⟩ := writeMeta_eq io { blankStore d with
        super := freshSuper, objects := fun _ => noObj }
      exact ⟨congrArg Store.cache hd, congrArg Store.cacheHash hd⟩
    · rw [readMeta_of_readable (s := blankStore d) hread]
      exact ⟨rfl, rfl⟩
  have hinvalid : ∀ i, (σ.store.cache i).valid ≠ true := by
    intro i
    rw [hcache.1]
    exact Bool.false_ne_true
  refine ⟨diskPage σ.store.disk, ⟨fun {i j} hi => absurd hi (hinvalid i), ?_,
    fun {i} hi => absurd hi (hinvalid i), fun _ => rfl⟩, hlayout, hunique, fun {i pos b} _ hb => ?_⟩
  · refine ⟨fun {x h} hx => ?_, fun {s x} hs => ?_, fun {s s' x} hs => ?_⟩
    · rw [Store.home, if_neg (hinvalid x)] at hx
      cases hx
    all_goals
      rw [hcache.2] at hs
      cases hs
  · rw [hwritten] at hb
    cases hb

theorem InScope.spared {e : Io × Call} (h : InScope σ e) : Spared σ e := by
  obtain ⟨io, c⟩ := e
  cases c with
  | read => exact ⟨h.2, (Option.all_eq_true ..).2 fun _ _ => h.1.sparesRead ..⟩
  | write => exact ⟨h.2, (Option.all_eq_true ..).2 fun _ _ => h.1.sparesWrite ..⟩
  | create | delete | resize | sync => trivial
  | load | disturb => exact h

/-- **One call.** -/
theorem Consistent.step (h : Consistent σ v) {e : Io × Call} (hscope : Spared σ e)
    (hfresh : Fresh σ e) : ∃ v', Consistent (σ.step e) v' := by
  obtain ⟨io, c⟩ := e
  rcases c with size | id | ⟨id, size⟩ | ⟨id, off, len⟩ | ⟨id, off, bytes⟩ | _ | _ | d
  · exact ⟨v, h.create io hfresh.1 hfresh.2⟩
  · exact h.delete io id
  · exact ⟨v, h.resize io id hfresh⟩
  · refine ⟨v, ?_⟩
    have hsame := sameMeta_blobstoreRead io id off len σ.store
    have hc : CacheOk (blobstoreRead io id off len σ.store).2 v := by
      rcases hfind : findObj id σ.store with _ | i
      · rw [blobstoreRead, hfind]
        exact h.cache
      · obtain ⟨r, s', hread, hc, -⟩ := h.read hscope hfind
        rwa [hread]
    exact h.of_objects_eq hc (h.layout.sameMeta hsame) hsame.objects
  · exact h.write hscope
  · exact ⟨v, h.sync io⟩
  all_goals exact hscope.elim

/-- **Every run.** -/
theorem Consistent.of_run
    (h : Reach Sys.Start (fun σ e => InScope σ e ∧ Fresh σ e) Sys.step σ) : ∃ v, Consistent σ v :=
  h.invariant (fun σ => ∃ v, Consistent σ v) (fun _ => Consistent.start)
    fun _ _ ⟨_, hv⟩ hok => hv.step hok.1.spared hok.2

/-- **Every run** on a working device in which no sum wraps and every new identifier is new. -/
theorem readsBack_of_run
    (h : Reach Sys.Start (fun σ e => InScope σ e ∧ Fresh σ e) Sys.step σ) : ReadsBack σ := by
  obtain ⟨v, hv⟩ := Consistent.of_run h
  exact hv.readsBack

end Steps

theorem start_freshStore : Sys.Start ⟨freshStore, fun _ _ => none⟩ := by
  refine ⟨booted_freshStore, fun {i _} hi => absurd hi ?_, rfl⟩
  exact Bool.false_ne_true

theorem goodIo_working : goodIo.Working := ⟨fun _ => rfl, fun _ => rfl⟩

theorem readsBack_write : ReadsBack ((Sys.step ⟨freshStore, fun _ _ => none⟩
    (goodIo, .create 4096)).step (goodIo, .write 1 10 [65])) :=
  readsBack_of_run (.call _ (.call _ (.start start_freshStore)
    ⟨goodIo_working, show NoWrap freshStore 4096 by rw [NoWrap]; decide +kernel, by decide +kernel⟩)
    ⟨⟨goodIo_working, by decide⟩, trivial⟩)

/-- One page, then `2 ^ 32 - 1` pages, then one page. -/
def wrapCalls : List (Io × Call) :=
  [(goodIo, .create 4096), (goodIo, .write 1 0 [65]), (goodIo, .create 17592186040320),
    (goodIo, .create 4096), (goodIo, .write 3 0 [66])]

/-- The third object gets the page of the first. -/
theorem create_wraps_contents : ¬ ∀ σ, Reach Sys.Start InScope Sys.step σ → ReadsBack σ := by
  intro h
  have hrun : Reach Sys.Start InScope Sys.step _ := (Reach.start start_freshStore).calls wrapCalls
    ⟨goodIo_working, ⟨goodIo_working, by decide⟩, goodIo_working, goodIo_working,
      ⟨goodIo_working, by decide⟩, trivial⟩
  have hreads := h _ hrun
  obtain ⟨bytes, hread, -, hbytes⟩ := hreads goodIo goodIo_working 1 0 1 (by decide) ⟨0, by decide⟩
    (by decide +kernel)
  have hread' : bytes = [66] := by
    refine Option.some.inj (hread.symm.trans ?_)
    decide +kernel
  subst hread'
  exact absurd (hbytes 0 65 (by decide) (by decide +kernel)) (by decide)

end PeakOs.Blobstore
