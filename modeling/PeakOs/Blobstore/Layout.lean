import PeakOs.Blobstore.Model
import PeakOs.Lib.Spans
import PeakOs.Lib.Transition

/-!
# The layout of the blob store

Who owns which pages: the ranges of the objects and the free spans, as one family of spans below
`next_page`. Every operation changes this family by one of the rules of `Packed`, as long as no
32-bit sum wraps. The two sums that can wrap are those of `next_page` and the pages a caller asks
for.

A load replaces the objects and `next_page`, and keeps the free spans. That is harmless if the
device has what is in memory, and if there are no free spans; if a superblock is rejected and there
are some, they end up above `next_page`.

## Main results

* `Layout.takePages`, `Layout.releasePages` — allocation and release
* `layout_of_run` — every run
* `create_wraps` — two creations
-/

namespace PeakOs.Blobstore

open Function List

/-! ### The family of spans -/

def BlobObj.span (o : BlobObj) : Option Span :=
  if o.inUse then some ⟨o.startPage.toNat, o.startPage.toNat + o.npages.toNat⟩ else none

def BlobFreeSpan.span (f : BlobFreeSpan) : Option Span :=
  if f.inUse then some ⟨f.startPage.toNat, f.startPage.toNat + f.npages.toNat⟩ else none

/-- Who owns what: the objects and the free spans. -/
def Store.spans (s : Store) : ObjIx ⊕ SpanIx → Option Span :=
  Sum.elim (fun i => (s.objects i).span) fun i => (s.freeSpans i).span

/-- Objects and free spans are apart from each other and below `next_page`, which is at most
`total_pages`, and every object has the pages for its size. -/
structure Layout (s : Store) : Prop where
  packed : Packed s.super.nextPage.toNat s.spans
  next_le : s.super.nextPage.toNat ≤ s.super.totalPages.toNat
  total_le : s.super.totalPages.toNat ≤ blobMaxPages.toNat
  fits : ∀ i, (s.objects i).inUse = true →
    (s.objects i).size.toNat ≤ 4096 * (s.objects i).npages.toNat

@[simp] theorem spans_inl (s : Store) (i : ObjIx) : s.spans (.inl i) = (s.objects i).span := rfl

@[simp] theorem spans_inr (s : Store) (i : SpanIx) : s.spans (.inr i) = (s.freeSpans i).span := rfl

variable {o : BlobObj} {s s' s'' : Store} {base lba n : ℕ} {bytes : List UInt8} {size : UInt64}
    {need start npages : UInt32} {i : ObjIx} {io : Io}

theorem BlobObj.span_of_inUse (h : o.inUse = true) :
    o.span = some ⟨o.startPage.toNat, o.startPage.toNat + o.npages.toNat⟩ := if_pos h

theorem BlobFreeSpan.span_of_inUse {f : BlobFreeSpan} (h : f.inUse = true) :
    f.span = some ⟨f.startPage.toNat, f.startPage.toNat + f.npages.toNat⟩ := if_pos h

theorem spans_setObj (s : Store) (i : ObjIx) (o : BlobObj) :
    (s.setObj i o).spans = update s.spans (.inl i) o.span := by
  funext j
  rcases j with j | j
  · by_cases hj : j = i
    · subst hj
      simp [Store.setObj]
    · simp [Store.setObj, hj]
  · simp [Store.setObj]

theorem spans_setSpan (s : Store) (i : SpanIx) (f : BlobFreeSpan) :
    (s.setSpan i f).spans = update s.spans (.inr i) f.span := by
  funext j
  rcases j with j | j
  · simp [Store.setSpan]
  by_cases hj : j = i
  · subst hj
    simp [Store.setSpan]
  · simp [Store.setSpan, hj]

/-- Layout is about the tables only. -/
theorem Layout.congr (h : Layout s) (hobj : s'.objects = s.objects)
    (hspan : s'.freeSpans = s.freeSpans) (hnext : s'.super.nextPage = s.super.nextPage)
    (htotal : s'.super.totalPages = s.super.totalPages) : Layout s' := by
  have hspans : s'.spans = s.spans := by rw [Store.spans, Store.spans, hobj, hspan]
  refine ⟨?_, ?_, ?_, ?_⟩
  · rw [hspans, hnext]
    exact h.packed
  · rw [hnext, htotal]
    exact h.next_le
  · rw [htotal]
    exact h.total_le
  · rw [hobj]
    exact h.fits

theorem Layout.next_lt (h : Layout s) : s.super.nextPage.toNat ≤ 65536 :=
  h.next_le.trans h.total_le

/-! ### What leaves the tables alone -/

/-- Only the cache and the data area of the device may differ. -/
structure SameMeta (s s' : Store) : Prop where
  objects : s'.objects = s.objects
  super : s'.super = s.super
  freeSpans : s'.freeSpans = s.freeSpans
  ready : s'.ready = s.ready
  low : ∀ lba < dataLba, s'.disk lba = s.disk lba

theorem SameMeta.refl (s : Store) : SameMeta s s := ⟨rfl, rfl, rfl, rfl, fun _ _ => rfl⟩

theorem SameMeta.trans (h : SameMeta s s') (h' : SameMeta s' s'') : SameMeta s s'' :=
  ⟨h'.objects.trans h.objects, h'.super.trans h.super, h'.freeSpans.trans h.freeSpans,
    h'.ready.trans h.ready, fun lba hl => (h'.low lba hl).trans (h.low lba hl)⟩

/-- Only the tables, in memory and on the device, may differ. -/
structure SameCache (s s' : Store) : Prop where
  cache : s'.cache = s.cache
  hash : s'.cacheHash = s.cacheHash
  high : ∀ lba, dataLba ≤ lba → s'.disk lba = s.disk lba

theorem SameCache.refl (s : Store) : SameCache s s := ⟨rfl, rfl, fun _ _ => rfl⟩

theorem SameCache.trans (h : SameCache s s') (h' : SameCache s' s'') : SameCache s s'' :=
  ⟨h'.cache.trans h.cache, h'.hash.trans h.hash,
    fun lba hl => (h'.high lba hl).trans (h.high lba hl)⟩

theorem Layout.sameMeta (h : Layout s) (hs : SameMeta s s') : Layout s' :=
  h.congr hs.objects hs.freeSpans (by rw [hs.super]) (by rw [hs.super])

theorem blockdevWrite_of_lt (io : Io) (bytes : List UInt8) (d : Peakdisk.Disk)
    (h : lba < base) : (blockdevWrite io base bytes d).2 lba = d lba := by
  refine applyWrites_of_notMem (fun w hw => ?_) d
  have hmem := (takeWhile_sublist _).subset hw
  have hle := (le_of_mem_streamWrites hmem).1
  omega

theorem sameMeta_setCache (s : Store) (i : CacheIx) (cp : CachePage) :
    SameMeta s (s.setCache i cp) := ⟨rfl, rfl, rfl, rfl, fun _ _ => rfl⟩

theorem sameMeta_flushPage (io : Io) (i : CacheIx) (s : Store) :
    SameMeta s (flushPage io i s).2 := by
  have hlow : ∀ lba < dataLba,
      (blockdevWrite io (pageToLba (s.cache i).globalPage) (ofFn (s.cache i).data) s.disk).2
        lba = s.disk lba := fun lba hl =>
    blockdevWrite_of_lt io _ _ (hl.trans_le (Nat.le_add_right _ _))
  rw [flushPage]
  split
  · exact .refl s
  generalize blockdevWrite io (pageToLba (s.cache i).globalPage) (ofFn (s.cache i).data)
    s.disk = res at hlow
  rcases res with ⟨_ | _, d⟩ <;> exact ⟨rfl, rfl, rfl, rfl, hlow⟩

theorem sameMeta_dropPage (io : Io) (i : CacheIx) (s : Store) : SameMeta s (dropPage io i s) := by
  have hflush : SameMeta s (if (s.cache i).dirty then (flushPage io i s).2 else s) := by
    split
    · exact sameMeta_flushPage io i s
    · exact .refl s
  exact hflush.trans ⟨rfl, rfl, rfl, rfl, fun _ _ => rfl⟩

theorem sameMeta_cacheEvict (io : Io) (s : Store) : SameMeta s (cacheEvict io s).2 := by
  rw [cacheEvict]
  split
  · exact sameMeta_dropPage io _ s
  · exact sameMeta_setCache s _ _

theorem sameMeta_cacheFill (page : UInt32) (data : Page) (i : CacheIx) (s : Store) :
    SameMeta s (cacheFill page data i s) := ⟨rfl, rfl, rfl, rfl, fun _ _ => rfl⟩

theorem sameMeta_cacheTouch (i : CacheIx) (s : Store) : SameMeta s (cacheTouch i s) := by
  rw [cacheTouch]
  split <;> exact ⟨rfl, rfl, rfl, rfl, fun _ _ => rfl⟩

theorem sameMeta_cacheMiss (io : Io) (page : UInt32) (forWrite fetch : Bool) (s : Store) :
    SameMeta s (cacheMiss io page forWrite fetch s).2 := by
  have hevict := sameMeta_cacheEvict io s
  rw [cacheMiss]
  dsimp only
  split
  · split
    · exact hevict.trans (sameMeta_cacheFill ..)
    split
    · exact hevict.trans (sameMeta_setCache ..)
    · exact hevict.trans (sameMeta_cacheFill ..)
  · exact hevict.trans (sameMeta_cacheFill ..)

/-- The cache does not touch the tables. -/
theorem sameMeta_cacheGet (io : Io) (page : UInt32) (forWrite fetch : Bool) (s : Store) :
    SameMeta s (cacheGet io page forWrite fetch s).2 := by
  rw [cacheGet]
  split
  · exact sameMeta_cacheTouch ..
  split
  · exact sameMeta_cacheTouch ..
  · exact sameMeta_cacheMiss ..

theorem sameMeta_cacheEvictObjectPages (io : Io) (start npages : UInt32) (s : Store) :
    SameMeta s (cacheEvictObjectPages io start npages s) := by
  rw [cacheEvictObjectPages]
  generalize finRange 48 = is
  induction is generalizing s with
  | nil => exact .refl s
  | cons i is ih =>
    refine SameMeta.trans ?_ (ih _)
    dsimp only
    split
    · exact .refl s
    split
    · exact .refl s
    · exact sameMeta_dropPage io i s

theorem sameMeta_readLoop (io : Io) (start : UInt32) (k : ℕ) : ∀ (pos len : ℕ) (s : Store),
    SameMeta s (readLoop io start k pos len s).2 := by
  induction k with
  | zero => exact fun _ _ s => .refl s
  | succ k ih =>
    intro pos len s
    rw [readLoop]
    split
    · exact .refl s
    have hget := sameMeta_cacheGet io (pageOf start pos) false true s
    generalize cacheGet io (pageOf start pos) false true s = res at hget
    rcases res with ⟨_ | i, s₁⟩
    · exact hget
    have hrest := ih ((pos + chunkOf pos len) % 2 ^ 64) (len - chunkOf pos len) s₁
    dsimp only
    generalize readLoop io start k ((pos + chunkOf pos len) % 2 ^ 64) (len - chunkOf pos len)
      s₁ = res at hrest
    rcases res with ⟨_ | bytes, s₂⟩ <;> exact hget.trans hrest

theorem sameMeta_blobstoreRead (io : Io) (id : UInt32) (off len : UInt64) (s : Store) :
    SameMeta s (blobstoreRead io id off len s).2 := by
  rw [blobstoreRead]
  split
  · exact .refl s
  dsimp only
  split
  · exact .refl s
  · exact sameMeta_readLoop ..

theorem sameMeta_writeLoop (io : Io) (start : UInt32) (k : ℕ) :
    ∀ (pos : ℕ) (bytes : List UInt8) (s : Store),
      SameMeta s (writeLoop io start k pos bytes s).2 := by
  induction k with
  | zero => exact fun _ _ s => .refl s
  | succ k ih =>
    intro pos bytes s
    rw [writeLoop]
    split
    · exact .refl s
    dsimp only
    generalize (!(pos % 4096 == 0 && chunkOf pos bytes.length == 4096)) = fetch
    have hget := sameMeta_cacheGet io (pageOf start pos) true fetch s
    generalize cacheGet io (pageOf start pos) true fetch s = res at hget
    rcases res with ⟨_ | i, s₁⟩
    · exact hget
    · exact (hget.trans (sameMeta_setCache ..)).trans (ih _ _ _)

theorem sameMeta_flushAll (io : Io) (is : List CacheIx) : ∀ s : Store,
    SameMeta s (flushAll io is s).2 := by
  induction is with
  | nil => exact fun s => .refl s
  | cons i is ih =>
    intro s
    rw [flushAll]
    have hflush := sameMeta_flushPage io i s
    generalize flushPage io i s = res at hflush
    rcases res with ⟨_ | _, s₁⟩
    · exact hflush
    · exact hflush.trans (ih s₁)

/-! ### Writing the tables -/

theorem blockdevWrite_of_ge (io : Io) (d : Peakdisk.Disk)
    (hn : blockCount Peakdisk.sectorSize bytes.length = n) (h : lba < base ∨ base + n ≤ lba) :
    (blockdevWrite io base bytes d).2 lba = d lba := by
  refine applyWrites_of_notMem (fun w hw => ?_) d
  have hmem := (takeWhile_sublist _).subset hw
  have hle := le_of_mem_streamWrites hmem
  omega

theorem length_encodeSuper (sp : BlobSuper) : (encodeSuper sp).length = 32 := by
  simp [encodeSuper, le32Of]

theorem length_encodeObj (o : BlobObj) : (encodeObj o).length = 20 := by
  simp [encodeObj, le32Of]

theorem length_encodeObjects (objects : ObjIx → BlobObj) :
    (encodeObjects objects).length = 5120 := by
  simp only [encodeObjects, length_flatMap, length_encodeObj, map_const',
    length_finRange, sum_replicate_nat]

/-- The tables in memory stay as they are when they are written, and on the device nothing else
changes. -/
theorem writeMeta_eq (io : Io) (s : Store) : ∃ d, (writeMeta io s).2 = { s with disk := d } ∧
    ∀ lba, lba < lbaBase ∨ lbaBase + 11 ≤ lba → d lba = s.disk lba := by
  have hsuper : ∀ lba, lba < lbaBase ∨ lbaBase + 11 ≤ lba →
      (blockdevWrite io lbaBase (encodeSuper s.super) s.disk).2 lba = s.disk lba := fun lba hl =>
    blockdevWrite_of_ge io s.disk (n := 1) (by rw [length_encodeSuper]; rfl) (by omega)
  rw [writeMeta]
  generalize blockdevWrite io lbaBase (encodeSuper s.super) s.disk = res at hsuper
  rcases res with ⟨_ | _, d⟩
  · exact ⟨d, rfl, hsuper⟩
  dsimp only
  split
  · exact ⟨d, rfl, hsuper⟩
  refine ⟨_, rfl, fun lba hl => ?_⟩
  rw [blockdevWrite_of_ge io d (n := 10) (by rw [length_encodeObjects]; rfl) (by omega)]
  exact hsuper lba hl

theorem sameCache_writeMeta (io : Io) (s : Store) : SameCache s (writeMeta io s).2 := by
  obtain ⟨d, hd, hhigh⟩ := writeMeta_eq io s
  rw [hd]
  exact ⟨rfl, rfl, fun lba hl => hhigh lba (.inr (le_trans (by decide) hl))⟩

theorem Layout.writeMeta (h : Layout s) (io : Io) : Layout (writeMeta io s).2 := by
  obtain ⟨d, hd, -⟩ := writeMeta_eq io s
  rw [hd]
  exact h.congr rfl rfl rfl rfl

/-! ### Page counts -/

theorem toNat_add_of_lt {a b : UInt32} (h : a.toNat + b.toNat < 2 ^ 32) :
    (a + b).toNat = a.toNat + b.toNat := by rw [UInt32.toNat_add, Nat.mod_eq_of_lt h]

/-- The number of pages for `size` bytes. -/
def pageCount (size : UInt64) : ℕ := (size.toNat + 4095) / 4096

/-- Without a wrap, `pagesFor` is the number of pages, at least one. -/
theorem pagesFor_of_lt (h : pageCount size < 2 ^ 32) :
    (pagesFor size).toNat = max 1 (pageCount size) := by
  have hsum : (size + 4095).toNat = size.toNat + 4095 := by
    refine Nat.mod_eq_of_lt ?_
    rw [pageCount] at h
    show size.toNat + 4095 < 2 ^ 64
    omega
  have hn : ((size + 4095) / 4096).toUInt32.toNat = pageCount size := by
    rw [UInt64.toNat_toUInt32, UInt64.toNat_div, hsum]
    exact Nat.mod_eq_of_lt h
  rw [pagesFor]
  split
  next hzero =>
    rw [hzero] at hn
    rw [← hn]
    rfl
  next hne =>
    have hpos : pageCount size ≠ 0 := by
      intro hc
      rw [hc] at hn
      exact hne (UInt32.toNat_inj.1 hn)
    omega

theorem size_le_of_lt (h : pageCount size < 2 ^ 32) :
    size.toUInt32.toNat ≤ 4096 * (pagesFor size).toNat := by
  rw [pagesFor_of_lt h, UInt64.toNat_toUInt32]
  rw [pageCount] at *
  omega

/-! ### Allocation -/

theorem bestSpan_spec {i : SpanIx} (h : (bestSpan need s).1 = some i) :
    (s.freeSpans i).inUse = true ∧ need ≤ (s.freeSpans i).npages := by
  have hfold : ∀ (is : List SpanIx) (b : Option SpanIx × UInt32),
      (∀ j, b.1 = some j → (s.freeSpans j).inUse = true ∧ need ≤ (s.freeSpans j).npages) →
      ∀ j, (is.foldl (fun b i => if !(s.freeSpans i).inUse || (s.freeSpans i).npages < need then b
        else if (s.freeSpans i).npages - need < b.2 then (some i, (s.freeSpans i).npages - need)
        else b) b).1 = some j →
        (s.freeSpans j).inUse = true ∧ need ≤ (s.freeSpans j).npages := by
    intro is
    induction is with
    | nil => exact fun b hb => hb
    | cons k is ih =>
      intro b hb
      refine ih _ fun j hj => ?_
      dsimp only at hj
      split at hj
      · exact hb j hj
      next huse =>
      split at hj
      · obtain rfl := Option.some.inj hj
        simp only [Bool.or_eq_true, Bool.not_eq_true', decide_eq_true_eq, not_or,
          Bool.not_eq_false, UInt32.not_lt] at huse
        exact huse
      · exact hb j hj
  exact hfold _ _ (fun j hj => absurd hj (Option.some_ne_none j).symm) i h

/-- Where pages are taken from: the first part of a free span, a whole one, or the tip. -/
inductive TakenFrom (s s' : Store) (start n : ℕ) : Prop
  | part (j : SpanIx) (stop : ℕ) (hj : s.spans (.inr j) = some ⟨start, stop⟩)
      (hlt : start + n < stop)
      (hspans : s'.spans = Function.update s.spans (.inr j) (some ⟨start + n, stop⟩))
      (hnext : s'.super.nextPage = s.super.nextPage)
  | whole (j : SpanIx) (hj : s.spans (.inr j) = some ⟨start, start + n⟩)
      (hspans : s'.spans = Function.update s.spans (.inr j) none)
      (hnext : s'.super.nextPage = s.super.nextPage)
  | tip (hstart : start = s.super.nextPage.toNat) (hspans : s'.spans = s.spans)
      (hnext : s'.super.nextPage.toNat = s.super.nextPage.toNat + n)

/-- What an allocation leaves of the store. -/
structure Taken (s s' : Store) (start npages : UInt32) : Prop where
  objects : s'.objects = s.objects
  super : s'.super = { s.super with nextPage := s'.super.nextPage }
  ready : s'.ready = s.ready
  sameCache : SameCache s s'
  next_le : s'.super.nextPage.toNat ≤ s.super.totalPages.toNat
  source : TakenFrom s s' start.toNat npages.toNat

/-- Pages are cut off a free span. -/
theorem Layout.freeSpanTake (h : Layout s)
    (htake : freeSpanTake need s = (some start, s')) : Taken s s' start need := by
  rw [Blobstore.freeSpanTake] at htake
  rcases hbest : (bestSpan need s).1 with _ | i <;> rw [hbest] at htake
  · cases htake
  obtain ⟨huse, hle⟩ := bestSpan_spec hbest
  rw [UInt32.le_iff_toNat_le] at hle
  have hspan : s.spans (.inr i) = some ⟨(s.freeSpans i).startPage.toNat,
      (s.freeSpans i).startPage.toNat + (s.freeSpans i).npages.toNat⟩ :=
    BlobFreeSpan.span_of_inUse huse
  have hbelow : (s.freeSpans i).startPage.toNat + (s.freeSpans i).npages.toNat ≤
      s.super.nextPage.toNat := h.packed.below hspan
  have hnext := h.next_lt
  obtain ⟨hstart, rfl⟩ := Prod.mk.inj htake
  obtain rfl := Option.some.inj hstart
  refine ⟨rfl, rfl, rfl, ⟨rfl, rfl, fun _ _ => rfl⟩, h.next_le, ?_⟩
  by_cases hlt : need < (s.freeSpans i).npages
  · rw [if_pos hlt]
    rw [UInt32.lt_iff_toNat_lt] at hlt
    have hmid : ((s.freeSpans i).startPage + need).toNat =
        (s.freeSpans i).startPage.toNat + need.toNat :=
      toNat_add_of_lt (by omega)
    have hrest : ((s.freeSpans i).npages - need).toNat =
        (s.freeSpans i).npages.toNat - need.toNat :=
      UInt32.toNat_sub_of_le _ _ (UInt32.le_iff_toNat_le.2 hle)
    refine .part i _ hspan (by omega) ?_ rfl
    show (s.setSpan i _).spans = _
    rw [spans_setSpan, BlobFreeSpan.span]
    dsimp only
    rw [if_pos huse, hmid, hrest]
    congr 3
    omega
  rw [if_neg hlt]
  rw [UInt32.lt_iff_toNat_lt] at hlt
  have hall : need.toNat = (s.freeSpans i).npages.toNat := by omega
  refine .whole i (by rw [hspan, hall]) ?_ rfl
  exact spans_setSpan s i { s.freeSpans i with inUse := false }

/-- **Allocation.** -/
theorem Layout.takePages (h : Layout s) (hwrap : s.super.nextPage.toNat + npages.toNat < 2 ^ 32)
    (htake : takePages npages s = (some start, s')) : Taken s s' start npages := by
  rw [Blobstore.takePages] at htake
  rcases hfree : Blobstore.freeSpanTake npages s with ⟨_ | start', t⟩ <;> simp only [hfree] at htake
  · obtain rfl : t = s := by
      rw [Blobstore.freeSpanTake] at hfree
      split at hfree
      · exact (Prod.mk.inj hfree).2.symm
      · cases hfree
    have hsum := toNat_add_of_lt hwrap
    split at htake
    · cases htake
    next htotal =>
    rw [UInt32.not_lt, UInt32.le_iff_toNat_le, hsum] at htotal
    obtain ⟨hstart, rfl⟩ := Prod.mk.inj htake
    obtain rfl := Option.some.inj hstart
    exact ⟨rfl, rfl, rfl, ⟨rfl, rfl, fun _ _ => rfl⟩, hsum.le.trans htotal, .tip rfl rfl hsum⟩
  · obtain ⟨hstart, rfl⟩ := Prod.mk.inj htake
    obtain rfl := Option.some.inj hstart
    exact h.freeSpanTake hfree

theorem Taken.layout (ht : Taken s s' start npages) (h : Layout s) : Layout s' := by
  have htotal : s'.super.totalPages = s.super.totalPages := by rw [ht.super]
  refine ⟨?_, by rw [htotal]; exact ht.next_le, by rw [htotal]; exact h.total_le, ?_⟩
  · rcases ht.source with ⟨j, stop, hj, hlt, hspans, hnext⟩ | ⟨j, hj, hspans, hnext⟩ |
      ⟨-, hspans, hnext⟩
    · rw [hspans, hnext]
      exact h.packed.shrink hj ⟨Nat.le_add_right _ _, le_rfl⟩ hlt
    · rw [hspans, hnext]
      exact h.packed.clear _
    · rw [hspans, hnext]
      exact h.packed.raise (Nat.le_add_right _ _)
  · rw [ht.objects]
    exact h.fits

/-- The pages can be given to any object. -/
theorem Taken.packed (ht : Taken s s' start npages)
    (h : Layout s) (hpos : 0 < npages.toNat) (i : ObjIx) : Packed s'.super.nextPage.toNat
      (update s'.spans (.inl i) (some ⟨start.toNat, start.toNat + npages.toNat⟩)) := by
  rcases ht.source with ⟨j, stop, hj, hlt, hspans, hnext⟩ | ⟨j, hj, hspans, hnext⟩ |
    ⟨hstart, hspans, hnext⟩
  · rw [hspans, hnext]
    exact h.packed.split hj (Nat.lt_add_of_pos_right hpos) hlt
  · rw [hspans, hnext]
    exact h.packed.move hj
  · rw [hspans, hnext, hstart]
    exact h.packed.push _ hpos

theorem takePages_none (htake : takePages npages s = (none, s')) : s' = s := by
  rw [takePages] at htake
  rcases hfree : freeSpanTake npages s with ⟨_ | start', t⟩ <;> simp only [hfree] at htake
  · obtain rfl : t = s := by
      rw [freeSpanTake] at hfree
      split at hfree
      · exact (Prod.mk.inj hfree).2.symm
      · cases hfree
    split at htake
    · exact (Prod.mk.inj htake).2.symm
    · cases htake
  · cases htake

theorem find_finRange {p : Fin n → Bool} {i : Fin n}
    (h : (finRange n).find? p = some i) : p i = true := find?_some h

/-- An entry of the table of objects is replaced. -/
theorem Layout.setObj (h : Layout s)
    (hpacked : Packed s.super.nextPage.toNat (update s.spans (.inl i) o.span))
    (hfits : o.inUse = true → o.size.toNat ≤ 4096 * o.npages.toNat) : Layout (s.setObj i o) := by
  refine ⟨?_, h.next_le, h.total_le, ?_⟩
  · rwa [spans_setObj]
  · exact (forall_update_iff s.objects fun _ o =>
      o.inUse = true → o.size.toNat ≤ 4096 * o.npages.toNat).2 ⟨hfits, fun j _ => h.fits j⟩

/-- No 32-bit sum wraps when `size` bytes are asked for. -/
def NoWrap (s : Store) (size : UInt64) : Prop :=
  s.super.nextPage.toNat + pageCount size < 2 ^ 32

theorem NoWrap.count_lt (h : NoWrap s size) : pageCount size < 2 ^ 32 := by
  rw [NoWrap] at h
  omega

/-- The table with a new object. -/
def Store.withObj (s : Store) (i : ObjIx) (start npages size : UInt32) : Store :=
  { s.setObj i ⟨s.super.nextId, start, npages, size, true⟩ with
    super := { s.super with nextId := s.super.nextId + 1, nobjects := s.super.nobjects + 1 } }

theorem Taken.withObj (ht : Taken s s' start (pagesFor size)) (h : Layout s)
    (hcount : pageCount size < 2 ^ 32) (i : ObjIx) :
    Layout (s'.withObj i start (pagesFor size) size.toUInt32) := by
  have hpages := pagesFor_of_lt hcount
  exact ((ht.layout h).setObj (ht.packed h (by omega) i) fun _ =>
    size_le_of_lt hcount).congr rfl rfl rfl rfl

/-- **Creation**: nothing, or pages are taken, and given to an object if there is an entry for
it. -/
theorem Layout.create_cases (h : Layout s) (io : Io) (hwrap : NoWrap s size) :
    blobstoreCreate io size s = (none, s) ∨ ∃ start s₁,
      Blobstore.takePages (pagesFor size) s = (some start, s₁) ∧
      Taken s s₁ start (pagesFor size) ∧
      ((∀ i, (s.objects i).inUse = true) ∧ blobstoreCreate io size s = (none, s₁) ∨
        ∃ i, (s.objects i).inUse = false ∧ blobstoreCreate io size s = (some s.super.nextId,
          (Blobstore.writeMeta io (s₁.withObj i start (pagesFor size) size.toUInt32)).2)) := by
  rw [blobstoreCreate]
  split
  · exact .inl rfl
  rcases htake : Blobstore.takePages (pagesFor size) s with ⟨_ | start, s₁⟩
  · rw [takePages_none htake]
    exact .inl rfl
  have hpages := pagesFor_of_lt hwrap.count_lt
  have hnext := h.next_lt
  have htaken := h.takePages (by rw [NoWrap] at hwrap; omega) htake
  refine .inr ⟨start, s₁, rfl, htaken, ?_⟩
  dsimp only
  rw [htaken.objects]
  rcases hslot : (finRange 256).find? fun i => !(s.objects i).inUse with _ | i
  · exact .inl ⟨fun i => by simpa using find?_eq_none.1 hslot i (mem_finRange i), rfl⟩
  · exact .inr ⟨i, by simpa using find_finRange hslot, by rw [htaken.super]; rfl⟩

/-- **`blobstore_create`** keeps the layout. -/
theorem Layout.create (h : Layout s) (io : Io) (hwrap : NoWrap s size) :
    Layout (blobstoreCreate io size s).2 := by
  rcases h.create_cases io hwrap with heq | ⟨start, s₁, -, htaken, ⟨-, heq⟩ | ⟨i, -, heq⟩⟩ <;>
    rw [heq]
  · exact h
  · exact htaken.layout h
  · exact (htaken.withObj h hwrap.count_lt i).writeMeta io

/-! ### Release -/

theorem Layout.setNextPage_lower (h : Layout s) {j : ObjIx ⊕ SpanIx} {a : Span}
    (hj : s.spans j = some a) (htop : a.stop = s.super.nextPage.toNat)
    (hstart : start.toNat = a.start) : Packed (s.setNextPage start).super.nextPage.toNat
      (update (s.setNextPage start).spans j none) ∧
      (s.setNextPage start).super.nextPage.toNat ≤ s.super.totalPages.toNat := by
  have hne := h.packed.nonempty hj
  have hle := h.next_le
  refine ⟨?_, ?_⟩
  · show Packed start.toNat (update s.spans j none)
    rw [hstart]
    exact h.packed.lower hj htop
  · show start.toNat ≤ _
    omega

/-- The free span at the tip ends where the free pages start. -/
theorem tipSpan_spec (h : Layout s) {i : SpanIx} (hi : tipSpan s = some i) :
    s.spans (.inr i) = some ⟨(s.freeSpans i).startPage.toNat, s.super.nextPage.toNat⟩ := by
  have hfound := find_finRange hi
  simp only [Bool.and_eq_true, beq_iff_eq] at hfound
  obtain ⟨huse, hstop⟩ := hfound
  have hspan : s.spans (.inr i) = _ := BlobFreeSpan.span_of_inUse huse
  have hbelow := h.packed.below hspan
  have hnext := h.next_lt
  dsimp only at hbelow
  rw [hspan, ← hstop, toNat_add_of_lt (by omega)]

/-- **The tip goes down** past free spans. -/
theorem Layout.rewindLoop {k : ℕ} : ∀ {s : Store}, Layout s → Layout (rewindLoop k s) := by
  induction k with
  | zero => exact fun h => h
  | succ k ih =>
    intro s h
    rw [Blobstore.rewindLoop]
    rcases htip : tipSpan s with _ | i
    · exact h
    obtain ⟨hpacked, hle⟩ := h.setNextPage_lower (tipSpan_spec h htip) rfl rfl
    refine ih ⟨?_, hle, h.total_le, h.fits⟩
    show Packed _ ((s.setNextPage _).setSpan i _).spans
    rw [spans_setSpan]
    exact hpacked

theorem rewindLoop_frame (k : ℕ) : ∀ s : Store,
    SameCache s (rewindLoop k s) ∧ (rewindLoop k s).objects = s.objects ∧
      (rewindLoop k s).ready = s.ready ∧
      (rewindLoop k s).super = { s.super with nextPage := (rewindLoop k s).super.nextPage } := by
  induction k with
  | zero => exact fun s => ⟨.refl s, rfl, rfl, rfl⟩
  | succ k ih =>
    intro s
    rw [rewindLoop]
    rcases tipSpan s with _ | i
    · exact ⟨.refl s, rfl, rfl, rfl⟩
    obtain ⟨hcache, hrest⟩ := ih ({ (s.setNextPage (s.freeSpans i).startPage).setSpan i
        { s.freeSpans i with inUse := false } with
      freePagesTotal := s.freePagesTotal - (s.freeSpans i).npages })
    exact ⟨⟨hcache.cache, hcache.hash, hcache.high⟩, hrest⟩

/-- **Release.** The object is out of the table, and its pages go to the tip or, if there is an
entry for it, to a free span. -/
theorem Layout.releasePages (h : Layout s) (huse : (s.objects i).inUse = true) :
    let o := s.objects i
    let s₁ := s.setObj i { o with inUse := false }
    let s₂ := Blobstore.releasePages o.startPage o.npages s₁
    Layout s₂ ∧ (o.startPage + o.npages = s.super.nextPage ∧
        Layout (s₁.setNextPage o.startPage) ∧
        s₂ = Blobstore.rewindLoop 32 (s₁.setNextPage o.startPage) ∨
      o.startPage + o.npages ≠ s.super.nextPage ∧ ((∀ j, (s.freeSpans j).inUse = true) ∨
        ∃ j, (s.freeSpans j).inUse = false ∧ s₂.super = s.super ∧ s₂.ready = s.ready ∧
          s₂.spans = update (update s.spans (.inl i) none) (.inr j)
            (some ⟨o.startPage.toNat, o.startPage.toNat + o.npages.toNat⟩))) := by
  intro o s₁ s₂
  have hspan : s.spans (.inl i) = _ := BlobObj.span_of_inUse huse
  have hbelow : o.startPage.toNat + o.npages.toNat ≤ s.super.nextPage.toNat := h.packed.below hspan
  have hne : o.startPage.toNat < o.startPage.toNat + o.npages.toNat := h.packed.nonempty hspan
  have hnext := h.next_lt
  have hclear : Layout s₁ := h.setObj (h.packed.clear _) fun hc => absurd hc Bool.false_ne_true
  have hspans : s₁.spans = update s.spans (.inl i) none := spans_setObj s i _
  have hrel : s₂ = Blobstore.releasePages o.startPage o.npages s₁ := rfl
  rw [Blobstore.releasePages] at hrel
  split at hrel
  next htip =>
    have htop : o.startPage.toNat + o.npages.toNat = s.super.nextPage.toNat := by
      rw [← toNat_add_of_lt (by omega), htip]
      rfl
    obtain ⟨hpacked, hle⟩ := h.setNextPage_lower hspan htop rfl
    have hlower : Layout (s₁.setNextPage o.startPage) := by
      refine ⟨?_, hle, h.total_le, hclear.fits⟩
      show Packed _ s₁.spans
      rwa [hspans]
    exact ⟨hrel ▸ hlower.rewindLoop, .inl ⟨htip, hlower, hrel⟩⟩
  next htip =>
    have hnpages : o.npages ≠ 0 := by
      intro hc
      rw [hc] at hne
      exact absurd hne (by simp)
    rw [freeSpanAdd, if_neg hnpages] at hrel
    rcases hslot : (finRange 32).find? fun j => !(s.freeSpans j).inUse with _ | j
    · rw [show ((finRange 32).find? fun j => !(s₁.freeSpans j).inUse) = none from hslot] at hrel
      exact ⟨hrel ▸ hclear, .inr ⟨htip, .inl fun j => by
        simpa using find?_eq_none.1 hslot j (mem_finRange j)⟩⟩
    rw [show ((finRange 32).find? fun j => !(s₁.freeSpans j).inUse) = some j from hslot] at hrel
    have hspans₂ : s₂.spans = update (update s.spans (.inl i) none) (.inr j)
        (some ⟨o.startPage.toNat, o.startPage.toNat + o.npages.toNat⟩) := by
      rw [hrel, ← hspans]
      exact spans_setSpan s₁ j ⟨o.startPage, o.npages, true⟩
    refine ⟨⟨?_, ?_, ?_, ?_⟩, .inr ⟨htip, .inr ⟨j, by simpa using find_finRange hslot, ?_, ?_,
      hspans₂⟩⟩⟩
    · rw [hspans₂, hrel]
      exact h.packed.move hspan
    all_goals rw [hrel]
    exacts [h.next_le, h.total_le, hclear.fits, rfl, rfl]

variable {id : UInt32} {P : Store → Prop} {off : UInt64}

theorem inUse_of_findObj (h : findObj id s = some i) : (s.objects i).inUse = true := by
  have hfound := find_finRange h
  rw [Bool.and_eq_true] at hfound
  exact hfound.1

/-- **Deletion**: the pages of the object leave the cache before they are released. -/
theorem blobstoreDelete_cases (io : Io) (id : UInt32) (s : Store) :
    blobstoreDelete io id s = (false, s) ∨ ∃ i s₁, findObj id s = some i ∧
      (s₁.objects = s.objects ∧ s₁.freeSpans = s.freeSpans ∧
        s₁.super.nextPage = s.super.nextPage ∧ s₁.super.totalPages = s.super.totalPages ∧
        s₁.ready = s.ready) ∧
      SameCache (cacheEvictObjectPages io (s.objects i).startPage (s.objects i).npages s) s₁ ∧
      blobstoreDelete io id s = (true, (writeMeta io (releasePages (s₁.objects i).startPage
        (s₁.objects i).npages (s₁.setObj i { s₁.objects i with inUse := false }))).2) := by
  rw [blobstoreDelete]
  rcases findObj id s with _ | i
  · exact .inl rfl
  have hsame := sameMeta_cacheEvictObjectPages io (s.objects i).startPage (s.objects i).npages s
  refine .inr ⟨i, ?_⟩
  dsimp only
  generalize cacheEvictObjectPages io (s.objects i).startPage (s.objects i).npages s = s₁ at *
  refine ⟨{ s₁ with super := { s₁.super with nobjects :=
      if s₁.super.nobjects ≠ 0 then s₁.super.nobjects - 1 else s₁.super.nobjects } }, rfl,
    ⟨hsame.objects, hsame.freeSpans, by rw [← hsame.super], by rw [← hsame.super],
      hsame.ready⟩,
    ⟨rfl, rfl, fun _ _ => rfl⟩, ?_⟩
  rw [← hsame.objects]
  rfl

/-- **`blobstore_delete`** keeps it. -/
theorem Layout.delete (h : Layout s) (io : Io) (id : UInt32) :
    Layout (blobstoreDelete io id s).2 := by
  rcases blobstoreDelete_cases io id s with heq | ⟨i, s₁, hfind, ⟨hobj, hspan, hnext, htotal, -⟩,
    -, heq⟩ <;> rw [heq]
  · exact h
  · have huse := inUse_of_findObj hfind
    rw [← hobj] at huse
    exact ((h.congr hobj hspan hnext htotal).releasePages huse).1.writeMeta io

/-! ### Growing -/

/-- What a resize leaves of the store: the object has its new size, and either the pages it had or
more of them, at the tip. -/
structure Resized (s s' : Store) (i : ObjIx) (size : UInt64) : Prop where
  super : s'.super = { s.super with nextPage := s'.super.nextPage }
  freeSpans : s'.freeSpans = s.freeSpans
  ready : s'.ready = s.ready
  sameCache : SameCache s s'
  objects : ∃ npages : UInt32, s'.objects = Function.update s.objects i
      { s.objects i with npages := npages, size := size.toUInt32 } ∧
    (s.objects i).npages.toNat ≤ npages.toNat ∧ (pagesFor size).toNat ≤ npages.toNat
  spans : s'.spans = s.spans ∧ s'.super.nextPage = s.super.nextPage ∨
    ∃ k > 0, s.spans (.inl i) =
        some ⟨(s.objects i).startPage.toNat, s.super.nextPage.toNat⟩ ∧
      s'.spans = Function.update s.spans (.inl i)
        (some ⟨(s.objects i).startPage.toNat, s.super.nextPage.toNat + k⟩) ∧
      s'.super.nextPage.toNat = s.super.nextPage.toNat + k ∧
      s.super.nextPage.toNat + k ≤ s.super.totalPages.toNat

theorem Layout.resize_cases (h : Layout s) (io : Io) (id : UInt32) (hwrap : NoWrap s size) :
    blobstoreResize io id size s = (false, s) ∨ ∃ i s', findObj id s = some i ∧
        blobstoreResize io id size s = (true, (Blobstore.writeMeta io s').2) ∧
        Resized s s' i size := by
  have hpages := pagesFor_of_lt hwrap.count_lt
  have hnext := h.next_lt
  rw [blobstoreResize]
  rcases hfind : findObj id s with _ | i
  · exact .inl rfl
  have huse := inUse_of_findObj hfind
  have hspan : s.spans (.inl i) = _ := BlobObj.span_of_inUse huse
  have hbelow := h.packed.below hspan
  dsimp only at hbelow ⊢
  split
  next hle =>
    refine .inr ⟨i, _, rfl, rfl, rfl, rfl, rfl, ⟨rfl, rfl, fun _ _ => rfl⟩,
      ⟨_, rfl, le_rfl, hle⟩, .inl ⟨?_, rfl⟩⟩
    rw [spans_setObj, show ({ s.objects i with size := size.toUInt32 } : BlobObj).span =
      s.spans (.inl i) from rfl, update_eq_self]
  next hgt =>
  rw [UInt32.not_le, UInt32.lt_iff_toNat_lt] at hgt
  split
  · exact .inl rfl
  next htip =>
  rw [Decidable.not_not] at htip
  have htop : (s.objects i).startPage.toNat + (s.objects i).npages.toNat =
      s.super.nextPage.toNat := by rw [← htip, toNat_add_of_lt (by omega)]
  have hextra : (pagesFor size - (s.objects i).npages).toNat =
      (pagesFor size).toNat - (s.objects i).npages.toNat :=
    UInt32.toNat_sub_of_le _ _ (UInt32.le_iff_toNat_le.2 hgt.le)
  have hsum : (s.super.nextPage + (pagesFor size - (s.objects i).npages)).toNat =
      s.super.nextPage.toNat + ((pagesFor size).toNat - (s.objects i).npages.toNat) := by
    rw [toNat_add_of_lt, hextra]
    rw [NoWrap] at hwrap
    omega
  split
  · exact .inl rfl
  next htotal =>
  rw [UInt32.not_lt, UInt32.le_iff_toNat_le, hsum] at htotal
  refine .inr ⟨i, _, rfl, rfl, rfl, rfl, rfl, ⟨rfl, rfl, fun _ _ => rfl⟩,
    ⟨_, rfl, hgt.le, le_rfl⟩, .inr ⟨(pagesFor size).toNat - (s.objects i).npages.toNat, by omega,
      by rw [hspan, htop], ?_, hsum, htotal⟩⟩
  show (s.setObj i _).spans = _
  rw [spans_setObj, BlobObj.span]
  dsimp only
  rw [if_pos huse]
  congr 3
  omega

theorem Resized.layout (hr : Resized s s' i size)
    (h : Layout s) (hcount : pageCount size < 2 ^ 32) : Layout s' := by
  have htotal : s'.super.totalPages = s.super.totalPages := by rw [hr.super]
  have hfits : ∀ j, (s'.objects j).inUse = true →
      (s'.objects j).size.toNat ≤ 4096 * (s'.objects j).npages.toNat := by
    obtain ⟨npages, hobj, -, hle⟩ := hr.objects
    rw [hobj]
    refine (forall_update_iff s.objects fun _ o =>
      o.inUse = true → o.size.toNat ≤ 4096 * o.npages.toNat).2 ⟨fun _ => ?_, fun j _ => h.fits j⟩
    exact (size_le_of_lt hcount).trans (Nat.mul_le_mul_left _ hle)
  rcases hr.spans with ⟨hspans, hnext⟩ | ⟨k, -, hi, hspans, hnext, hle⟩
  · exact ⟨by rw [hspans, hnext]; exact h.packed, by rw [hnext, htotal]; exact h.next_le,
      by rw [htotal]; exact h.total_le, hfits⟩
  refine ⟨?_, by rw [hnext, htotal]; exact hle, by rw [htotal]; exact h.total_le, hfits⟩
  rw [hspans, hnext]
  exact h.packed.extend hi rfl k

/-- **`blobstore_resize`** keeps it. -/
theorem Layout.resize (h : Layout s) (io : Io) (id : UInt32)
    (hwrap : NoWrap s size) : Layout (blobstoreResize io id size s).2 := by
  rcases h.resize_cases io id hwrap with heq | ⟨i, s', -, heq, hr⟩
  · rwa [heq]
  · rw [heq]
    exact (hr.layout h hwrap.count_lt).writeMeta io

/-- What the metadata in memory say outlives a write if it outlives the resize that may come
first. -/
theorem blobstoreWrite_keeps (hsame : ∀ {s s'}, P s → SameMeta s s' → P s') (h : P s)
    (hresize : P (blobstoreResize io id (off + UInt64.ofNat bytes.length) s).2) :
    P (blobstoreWrite io id off bytes s).2 := by
  rw [blobstoreWrite]
  rcases findObj id s with _ | i
  · exact h
  have hgrown : P (if (s.objects i).size.toUInt64 < off + UInt64.ofNat bytes.length then
      blobstoreResize io id (off + UInt64.ofNat bytes.length) s else (true, s)).2 := by
    split
    · exact hresize
    · exact h
  dsimp only
  generalize (if (s.objects i).size.toUInt64 < off + UInt64.ofNat bytes.length then
    blobstoreResize io id (off + UInt64.ofNat bytes.length) s else (true, s)) = res at hgrown
  rcases res with ⟨ok, s₁⟩
  split
  · exact hgrown
  rcases findObj id s₁ with _ | j
  · exact hgrown
  have hloop := hsame hgrown
    (sameMeta_writeLoop io (s₁.objects j).startPage bytes.length off.toNat bytes s₁)
  dsimp only
  generalize writeLoop io (s₁.objects j).startPage bytes.length off.toNat bytes s₁ = res at hloop
  rcases res with ⟨_ | _, s₂⟩ <;> exact hloop

/-- **`blobstore_write`** keeps it. -/
theorem Layout.write (h : Layout s) (io : Io) (id : UInt32)
    (hwrap : NoWrap s (off + UInt64.ofNat bytes.length)) :
    Layout (blobstoreWrite io id off bytes s).2 :=
  blobstoreWrite_keeps Layout.sameMeta h (h.resize io id hwrap)

theorem blobstoreSync_keeps (hsame : ∀ {s s'}, P s → SameMeta s s' → P s')
    (hmeta : ∀ {s}, P s → ∀ io, P (writeMeta io s).2) (h : P s) (io : Io) :
    P (blobstoreSync io s).2 := by
  rw [blobstoreSync]
  split
  · exact h
  have hflush := hsame h (sameMeta_flushAll io (finRange 48) s)
  generalize flushAll io (finRange 48) s = res at hflush
  rcases res with ⟨_ | _, s₁⟩
  · exact hflush
  · exact hmeta hflush io

theorem Layout.sync (h : Layout s) (io : Io) : Layout (blobstoreSync io s).2 :=
  blobstoreSync_keeps Layout.sameMeta Layout.writeMeta h io

/-! ### Loading -/

/-- `read_meta` succeeds. -/
def metaReadable (io : Io) (d : Peakdisk.Disk) : Bool :=
  blockdevRead io lbaBase 1 && superOk (decodeSuper d) && io.allocRead &&
    blockdevRead io (lbaBase + 1) 10

theorem readMeta_of_readable (h : metaReadable io s.disk = true) : readMeta io s =
      (true, { s with super := decodeSuper s.disk, objects := decodeObjects s.disk }) := by
  simp only [metaReadable, Bool.and_eq_true] at h
  obtain ⟨⟨⟨hsuper, hok⟩, halloc⟩, htable⟩ := h
  simp [readMeta, hsuper, hok, halloc, htable]

/-- What is left in the superblock does not matter, since it is formatted next. -/
theorem readMeta_of_not_readable (h : metaReadable io s.disk = false) :
    ∃ sp, readMeta io s = (false, { s with super := sp }) := by
  rw [readMeta]
  split
  · exact ⟨s.super, rfl⟩
  next hsuper =>
  dsimp only
  split
  · exact ⟨_, rfl⟩
  next hok =>
  split
  · exact ⟨_, rfl⟩
  next halloc =>
  split
  · exact ⟨_, rfl⟩
  next htable =>
  simp only [Bool.not_eq_true', Bool.not_eq_false] at hsuper hok halloc htable
  rw [metaReadable, hsuper, hok, halloc, htable] at h
  cases h

/-- Nothing is owned. -/
theorem layout_of_empty (hobj : ∀ i, (s.objects i).inUse = false)
    (hspan : ∀ i, (s.freeSpans i).inUse = false)
    (hnext : s.super.nextPage.toNat ≤ s.super.totalPages.toNat)
    (htotal : s.super.totalPages.toNat ≤ blobMaxPages.toNat) : Layout s := by
  have hnone : ∀ j a, s.spans j ≠ some a := by
    rintro (j | j) a hj
    · rw [spans_inl, BlobObj.span, hobj j] at hj
      cases hj
    · rw [spans_inr, BlobFreeSpan.span, hspan j] at hj
      cases hj
  exact ⟨⟨fun ha => absurd ha (hnone _ _), fun ha => absurd ha (hnone _ _),
    fun _ ha => absurd ha (hnone _ _)⟩, hnext, htotal, fun i hi =>
    absurd ((hobj i).symm.trans hi) Bool.false_ne_true⟩

theorem layout_formatNew (io : Io) (hspan : ∀ i, (s.freeSpans i).inUse = false) :
    Layout (formatNew io s) := by
  have hempty : Layout { s with super := freshSuper, objects := fun _ => noObj } :=
    layout_of_empty (fun _ => rfl) hspan (Nat.zero_le _) le_rfl
  exact hempty.writeMeta io

/-- A load finds what is in memory; or nothing it accepts, and there are no free spans. -/
def LoadSafe (io : Io) (s : Store) : Prop :=
  if metaReadable io s.disk then decodeSuper s.disk = s.super ∧ decodeObjects s.disk = s.objects
  else ∀ i, (s.freeSpans i).inUse = false

/-- **`blobstore_load`** gives one, if the tables on the disk do. -/
theorem Layout.load (h : Layout s) (hload : LoadSafe io s) : Layout (blobstoreLoad io s).2 := by
  rw [blobstoreLoad]
  split
  · exact h
  rw [LoadSafe] at hload
  rcases hread : metaReadable io s.disk with _ | _ <;> rw [hread] at hload
  · obtain ⟨sp, hmeta⟩ := readMeta_of_not_readable (s := s.clearCache) hread
    rw [hmeta]
    have hfresh : Layout (formatNew io { s.clearCache with super := sp }) :=
      layout_formatNew io hload
    exact hfresh.congr rfl rfl rfl rfl
  · rw [readMeta_of_readable (s := s.clearCache) hread]
    refine h.congr hload.2 rfl ?_ ?_
    · exact congrArg BlobSuper.nextPage hload.1
    · exact congrArg BlobSuper.totalPages hload.1

/-! ### Runs -/

/-- The calls, and what may happen to the device in between. -/
inductive Call
  | create (size : UInt64)
  | delete (id : UInt32)
  | resize (id : UInt32) (size : UInt64)
  | read (id : UInt32) (off len : UInt64)
  | write (id : UInt32) (off : UInt64) (bytes : List UInt8)
  | sync
  | load
  | disturb (d : Peakdisk.Disk)

def step (s : Store) : Io × Call → Store
  | (io, .create size) => (blobstoreCreate io size s).2
  | (io, .delete id) => (blobstoreDelete io id s).2
  | (io, .resize id size) => (blobstoreResize io id size s).2
  | (io, .read id off len) => (blobstoreRead io id off len s).2
  | (io, .write id off bytes) => (blobstoreWrite io id off bytes s).2
  | (io, .sync) => (blobstoreSync io s).2
  | (io, .load) => (blobstoreLoad io s).2
  | (_, .disturb d) => { s with disk := d }

/-- No sum wraps, and a load is safe. -/
def Safe (s : Store) : Io × Call → Prop
  | (_, .create size) | (_, .resize _ size) => NoWrap s size
  | (_, .write _ off bytes) => NoWrap s (off + UInt64.ofNat bytes.length)
  | (io, .load) => LoadSafe io s
  | _ => True

/-- After `blobstore_init`: what it accepted from the device, if anything, is laid out properly. -/
def Booted (s : Store) : Prop :=
  ∃ io d, s = blobstoreInit io d ∧ (metaReadable io d = true → Layout s)

theorem layout_of_booted (h : Booted s) : Layout s := by
  obtain ⟨io, d, rfl, hlayout⟩ := h
  rcases hread : metaReadable io d with _ | _
  · rw [blobstoreInit]
    split
    · exact layout_of_empty (fun _ => rfl) (fun _ => rfl) le_rfl (Nat.zero_le _)
    obtain ⟨sp, hmeta⟩ := readMeta_of_not_readable (s := blankStore d) hread
    rw [hmeta]
    have hfresh : Layout (formatNew io { blankStore d with super := sp }) :=
      layout_formatNew io fun _ => rfl
    exact hfresh.congr rfl rfl rfl rfl
  · exact hlayout hread

/-- **One call.** -/
theorem Layout.step (h : Layout s) {e : Io × Call} (hsafe : Safe s e) : Layout (step s e) := by
  obtain ⟨io, c⟩ := e
  rcases c with size | id | ⟨id, size⟩ | ⟨id, off, len⟩ | ⟨id, off, bytes⟩ | _ | _ | d
  · exact h.create io hsafe
  · exact h.delete io id
  · exact h.resize io id hsafe
  · exact h.sameMeta (sameMeta_blobstoreRead ..)
  · exact h.write io id hsafe
  · exact h.sync io
  · exact h.load hsafe
  · exact h.congr rfl rfl rfl rfl

/-- **Every run** in which no sum wraps and every load is safe keeps the layout. -/
theorem layout_of_run {s : Store} (h : Reach Booted Safe step s) : Layout s :=
  h.invariant Layout (fun _ => layout_of_booted) fun _ _ hl hsafe => hl.step hsafe

/-- A device that never fails. -/
def goodIo : Io := ⟨true, fun _ => true, fun _ => true, true, true, true⟩

/-- The store on a device that was never used. -/
def freshStore : Store := blobstoreInit goodIo fun _ _ => 0

theorem booted_freshStore : Booted freshStore :=
  ⟨goodIo, fun _ _ => 0, rfl, fun h => absurd h (by decide +kernel)⟩

theorem layout_create_delete :
    Layout (step (step freshStore (goodIo, .create 5000)) (goodIo, .delete 1)) :=
  layout_of_run (.call _ (.call _ (.start booted_freshStore)
    (show NoWrap freshStore 5000 by rw [NoWrap]; decide +kernel)) trivial)

/-- One page, and then `2 ^ 32 - 1` pages: the sum wraps, and `next_page` is zero. -/
theorem create_wraps : ¬ ∀ s, Reach Booted (fun _ _ => True) step s → Layout s := by
  intro h
  have hlayout := h _ (.call (goodIo, .create 17592186040320)
    (.call (goodIo, .create 4096) (.start booted_freshStore) trivial) trivial)
  have hspan : (step (step freshStore (goodIo, .create 4096))
      (goodIo, .create 17592186040320)).spans (.inl ⟨0, by decide⟩) = some ⟨0, 1⟩ := by
    decide +kernel
  have hbelow := hlayout.packed.below hspan
  revert hbelow
  decide +kernel

end PeakOs.Blobstore
