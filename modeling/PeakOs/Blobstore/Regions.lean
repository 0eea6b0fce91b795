import PeakOs.Blobstore.Layout
import PeakOs.Peakdisk.Crash

/-!
# The image and the blobs on one device

The workspace image is written from LBA 1 on, the blob store from LBA 8192 on. Nothing in
`peakdisk_save` knows of that border: the image may have 32 MiB, and what is there has room for
8190 sectors of payload.

The blob store for its part never leaves its region, and never looks below it. Both are one
statement here: each function gives the same answer on a device with other contents below the
border, and leaves those contents alone (`Store.below`).

## Main results

* `step_below` — a call of the blob store
* `saves_apart_iff` — which images stay below the border, and what runs of both then do
* `save_over_superblock` — an image of 8191 sectors
-/

namespace PeakOs.Blobstore

open Peakdisk (Disk Sector sectorSize Cipher Save SaveEnv Device peakdiskSave)
open Function List

/-! ### The device below the store -/

/-- The device `e`, with the sectors of `d` below the blob store. -/
def overlay (d e : Disk) : Disk := fun l => if l < lbaBase then d l else e l

variable {l lba : ℕ}

variable (d e : Disk)

theorem overlay_of_le (h : lbaBase ≤ l) : overlay d e l = e l :=
  if_neg (by omega)

theorem overlay_update (h : lbaBase ≤ l) (b : Sector) :
    update (overlay d e) l b = overlay d (update e l b) := by
  refine update_eq_iff.2 ⟨?_, fun k hk => ?_⟩
  · rw [overlay_of_le _ _ h, update_self]
  · rw [overlay, overlay, update_of_ne hk]

/-- Writes to the region leave what is below it alone. -/
theorem applyWrites_overlay {ws : List (ℕ × Sector)} (h : ∀ w ∈ ws, lbaBase ≤ w.1) (d e : Disk) :
    applyWrites ws (overlay d e) = overlay d (applyWrites ws e) := by
  induction ws generalizing e with
  | nil => rfl
  | cons w ws ih =>
    show applyWrites ws (update (overlay d e) w.1 w.2) = _
    rw [overlay_update d e (h w mem_cons_self)]
    exact ih (fun v hv => h v (mem_cons_of_mem _ hv)) _

theorem blockdevWrite_overlay (io : Io) (h : lbaBase ≤ lba) (bytes : List UInt8) (d e : Disk) :
    blockdevWrite io lba bytes (overlay d e) =
      ((blockdevWrite io lba bytes e).1, overlay d (blockdevWrite io lba bytes e).2) := by
  rw [blockdevWrite, blockdevWrite]
  rw [applyWrites_overlay fun w hw => ?_]
  exact h.trans (le_of_mem_streamWrites (takeWhile_subset _ hw)).1

theorem byteAt_overlay (h : lbaBase ≤ lba) : byteAt (overlay d e) lba = byteAt e lba :=
  funext fun i => byteAt_congr (fun _ hs => overlay_of_le d e (h.trans hs)) i

theorem wordAt_overlay (h : lbaBase ≤ lba) (off : ℕ) :
    wordAt (overlay d e) lba off = wordAt e lba off := by rw [wordAt, wordAt, byteAt_overlay d e h]

theorem le_pageToLba (page : UInt32) : lbaBase ≤ pageToLba page := by
  rw [pageToLba, dataLba]
  omega

theorem diskPage_overlay (page : UInt32) :
    diskPage (overlay d e) page = diskPage e page := by
  funext j
  rw [diskPage, diskPage, byteAt_overlay d e (le_pageToLba page)]

theorem decodeSuper_overlay : decodeSuper (overlay d e) = decodeSuper e := by
  simp only [decodeSuper, wordAt_overlay d e le_rfl, byteAt_overlay d e le_rfl]

/-- The tables lie in the region. -/
theorem decodeObjects_overlay : decodeObjects (overlay d e) = decodeObjects e := by
  funext i
  have hle : lbaBase ≤ lbaBase + 1 := Nat.le_succ _
  simp only [decodeObjects, decodeObj, wordAt_overlay d e hle, byteAt_overlay d e hle]

/-- The store on a device that has the sectors of `d` below it. -/
def Store.below (d : Disk) (s : Store) : Store := { s with disk := overlay d s.disk }

theorem disk_below (d : Disk) (s : Store) : (s.below d).disk = overlay d s.disk := rfl
theorem super_below (d : Disk) (s : Store) : (s.below d).super = s.super := rfl
theorem objects_below (d : Disk) (s : Store) : (s.below d).objects = s.objects := rfl
theorem cache_below (d : Disk) (s : Store) : (s.below d).cache = s.cache := rfl

theorem findObj_below (d : Disk) (s : Store) (id : UInt32) :
    findObj id (s.below d) = findObj id s := rfl

/-- A function of the store stays in its region. -/
def StaysAbove {α : Type} (f : Store → α × Store) : Prop :=
  ∀ d s, f (s.below d) = ((f s).1, (f s).2.below d)

/-! ### Metadata -/

section Functions

variable (io : Io) (d : Disk)

theorem writeMeta_below : StaysAbove (writeMeta io) := by
  intro d s
  rw [writeMeta, writeMeta, disk_below, super_below, blockdevWrite_overlay io le_rfl]
  rcases blockdevWrite io lbaBase (encodeSuper s.super) s.disk with ⟨_ | _, e⟩
  · rfl
  dsimp only
  split
  · rfl
  · rw [blockdevWrite_overlay io (Nat.le_succ _)]
    rfl

theorem readMeta_below : StaysAbove (readMeta io) := by
  intro d s
  rw [readMeta, readMeta]
  split
  · rfl
  dsimp only [Store.below]
  rw [decodeSuper_overlay, decodeObjects_overlay]
  iterate 3
    split
    · rfl
  · rfl

theorem formatNew_below (s : Store) : formatNew io (s.below d) = (formatNew io s).below d :=
  congrArg Prod.snd
    (writeMeta_below io d { s with super := freshSuper, objects := fun _ => noObj })

/-! ### The cache -/

theorem flushPage_below (i : CacheIx) : StaysAbove (flushPage io i) := by
  intro d s
  rw [flushPage, flushPage, disk_below, cache_below, blockdevWrite_overlay io (le_pageToLba _)]
  split
  · rfl
  rcases blockdevWrite io (pageToLba (s.cache i).globalPage) (ofFn (s.cache i).data)
    s.disk with ⟨_ | _, e⟩
  · rfl
  · rfl

theorem cacheTouch_below (i : CacheIx) (s : Store) :
    cacheTouch i (s.below d) = (cacheTouch i s).below d := by
  rw [cacheTouch, cacheTouch]
  split
  · exact (if_pos ‹_›).symm ▸ rfl
  · exact (if_neg ‹_›).symm ▸ rfl

theorem dropPage_below (i : CacheIx) (s : Store) :
    dropPage io i (s.below d) = (dropPage io i s).below d := by
  have hflush :
      (if ((s.below d).cache i).dirty then (flushPage io i (s.below d)).2 else s.below d) =
      (if (s.cache i).dirty then (flushPage io i s).2 else s).below d := by
    rw [flushPage_below io i d s, apply_ite (Store.below d)]
    rfl
  rw [dropPage]
  rw [hflush]
  rfl

theorem cacheEvict_below : StaysAbove (cacheEvict io) := by
  intro d s
  rw [cacheEvict, cacheEvict]
  show (if (s.cache (victim s)).valid then (victim s, dropPage io (victim s) (s.below d)) else
    (victim s, _)) = _
  rw [dropPage_below]
  split
  · rfl
  · rfl

variable (page : UInt32)

/-- A page of the cache comes from the region. -/
theorem cacheMiss_below (forWrite fetch : Bool) :
    StaysAbove (cacheMiss io page forWrite fetch) := by
  intro d s
  rw [cacheMiss, cacheMiss, cacheEvict_below io d s]
  dsimp only
  rw [disk_below, diskPage_overlay]
  split
  · split
    · rfl
    split
    · rfl
    · rfl
  · rfl

theorem cacheGet_below (forWrite fetch : Bool) :
    StaysAbove (cacheGet io page forWrite fetch) := by
  intro d s
  rw [cacheGet, cacheGet, cacheMiss_below io page forWrite fetch d s,
    show (s.below d).cacheHot = s.cacheHot from rfl,
    show (s.below d).caches page = s.caches page from rfl,
    show cacheHashFind page (s.below d) = cacheHashFind page s from rfl]
  simp only [cacheTouch_below]
  rcases s.cacheHot.filter (s.caches page) with _ | i
  · rcases cacheHashFind page s with _ | i
    · rfl
    · rfl
  · rfl

theorem cacheEvictObjectPages_below (start npages : UInt32) (s : Store) :
    cacheEvictObjectPages io start npages (s.below d) =
      (cacheEvictObjectPages io start npages s).below d := by
  rw [cacheEvictObjectPages, cacheEvictObjectPages]
  generalize finRange 48 = is
  induction is generalizing s with
  | nil => rfl
  | cons i is ih =>
    rw [foldl_cons, foldl_cons, ← ih]
    congr 1
    show (if !(s.cache i).valid then s.below d else if (s.cache i).globalPage < start ∨
      start + npages ≤ (s.cache i).globalPage then s.below d else dropPage io i (s.below d)) = _
    rw [dropPage_below, apply_ite (Store.below d), apply_ite (Store.below d)]

theorem flushAll_below (is : List CacheIx) : StaysAbove (flushAll io is) := by
  induction is with
  | nil => exact fun _ _ => rfl
  | cons i is ih =>
    intro d s
    rw [flushAll, flushAll, flushPage_below io i d s]
    rcases flushPage io i s with ⟨_ | _, s₁⟩
    · rfl
    · exact ih d s₁

/-! ### Objects -/

theorem setObj_below (i : ObjIx) (o : BlobObj) (s : Store) :
    (s.below d).setObj i o = (s.setObj i o).below d := rfl

theorem setNextPage_below (s : Store) :
    (s.below d).setNextPage page = (s.setNextPage page).below d := rfl

theorem rewindLoop_below (k : ℕ) (s : Store) :
    rewindLoop k (s.below d) = (rewindLoop k s).below d := by
  induction k generalizing s with
  | zero => rfl
  | succ k ih =>
    rw [rewindLoop, rewindLoop, show tipSpan (s.below d) = tipSpan s from rfl]
    rcases tipSpan s with _ | i
    · rfl
    exact ih { (s.setNextPage (s.freeSpans i).startPage).setSpan i
        { s.freeSpans i with inUse := false } with
      freePagesTotal := s.freePagesTotal - (s.freeSpans i).npages }

theorem releasePages_below (start npages : UInt32) (s : Store) :
    releasePages start npages (s.below d) = (releasePages start npages s).below d := by
  rw [releasePages, releasePages]
  show (if start + npages = s.super.nextPage then
    blobRewindTip ((s.setNextPage start).below d) else _) = _
  rw [blobRewindTip, rewindLoop_below, apply_ite (Store.below d)]
  congr 1
  rw [freeSpanAdd, freeSpanAdd]
  split
  · rfl
  rw [show (s.below d).freeSpans = s.freeSpans from rfl]
  rcases (finRange 32).find? fun i => !(s.freeSpans i).inUse with _ | i
  · rfl
  · rfl

theorem takePages_below (npages : UInt32) : StaysAbove (takePages npages) := by
  intro d s
  have htake : freeSpanTake npages (s.below d) =
      ((freeSpanTake npages s).1, (freeSpanTake npages s).2.below d) := by
    rw [freeSpanTake, freeSpanTake, show bestSpan npages (s.below d) = bestSpan npages s from rfl]
    rcases (bestSpan npages s).1 with _ | i
    · rfl
    · rfl
  rw [takePages, takePages, htake]
  rcases freeSpanTake npages s with ⟨_ | start, s₁⟩
  · show (if s₁.super.totalPages < s₁.super.nextPage + npages then _ else _) = _
    dsimp only
    split
    · rfl
    · rfl
  · rfl

theorem installObj_below (i : ObjIx) (start npages size : UInt32) (s : Store) :
    installObj io i start npages size (s.below d) = (installObj io i start npages size s).below d :=
  congrArg Prod.snd (writeMeta_below io d
    { s.setObj i ⟨s.super.nextId, start, npages, size, true⟩ with
      super := { s.super with nextId := s.super.nextId + 1, nobjects := s.super.nobjects + 1 } })

/-- **The calls** neither read nor write below the region. -/
theorem blobstoreCreate_below (size : UInt64) : StaysAbove (blobstoreCreate io size) := by
  intro d s
  rw [blobstoreCreate, blobstoreCreate, takePages_below (pagesFor size) d s]
  show (if !blobstoreAvailable io s || !io.cap then _ else _) = _
  split
  · rfl
  rcases takePages (pagesFor size) s with ⟨_ | start, s₁⟩
  · rfl
  dsimp only
  rw [objects_below]
  rcases (finRange 256).find? fun i => !(s₁.objects i).inUse with _ | i
  · rfl
  · exact congrArg (Prod.mk (some s₁.super.nextId)) (installObj_below io d i start _ _ s₁)

variable (id : UInt32)

theorem blobstoreDelete_below : StaysAbove (blobstoreDelete io id) := by
  intro d s
  rw [blobstoreDelete, blobstoreDelete, findObj_below]
  rcases findObj id s with _ | i
  · rfl
  dsimp only
  rw [objects_below, cacheEvictObjectPages_below]
  generalize cacheEvictObjectPages io (s.objects i).startPage (s.objects i).npages s = s₁
  set s₂ : Store :=
    { s₁.setObj i { s.objects i with inUse := false } with
      super := { s₁.super with
        nobjects := if s₁.super.nobjects ≠ 0 then s₁.super.nobjects - 1 else s₁.super.nobjects } }
    with hs₂
  show (true, (writeMeta io (releasePages _ _ (s₂.below d))).2) = _
  rw [releasePages_below, writeMeta_below]
  rfl

theorem blobstoreResize_below (size : UInt64) :
    StaysAbove (blobstoreResize io id size) := by
  intro d s
  rw [blobstoreResize, blobstoreResize, findObj_below]
  rcases findObj id s with _ | i
  · rfl
  dsimp only
  rw [objects_below, super_below]
  split
  · rw [setObj_below, writeMeta_below]
  split
  · rfl
  split
  · rfl
  · rw [setObj_below, setNextPage_below, writeMeta_below]
    rfl

/-! ### Contents -/

theorem readLoop_below (start : UInt32) (k pos len : ℕ) :
    StaysAbove (readLoop io start k pos len) := by
  induction k generalizing pos len with
  | zero => exact fun _ _ => rfl
  | succ k ih =>
    intro d s
    rw [readLoop, readLoop, cacheGet_below io (pageOf start pos) false true d s]
    split
    · rfl
    rcases cacheGet io (pageOf start pos) false true s with ⟨_ | i, s₁⟩
    · rfl
    dsimp only
    rw [ih _ _ d s₁]
    rcases readLoop io start k ((pos + chunkOf pos len) % 2 ^ 64) (len - chunkOf pos len) s₁
      with ⟨_ | rest, t⟩
    · rfl
    · rfl

theorem blobstoreRead_below (off len : UInt64) :
    StaysAbove (blobstoreRead io id off len) := by
  intro d s
  rw [blobstoreRead, blobstoreRead, findObj_below]
  rcases findObj id s with _ | i
  · rfl
  dsimp only
  rw [objects_below, readLoop_below]
  split
  · rfl
  · rfl

theorem writeLoop_below (start : UInt32) (k pos : ℕ) (bytes : List UInt8) :
    StaysAbove (writeLoop io start k pos bytes) := by
  induction k generalizing pos bytes with
  | zero => exact fun _ _ => rfl
  | succ k ih =>
    intro d s
    rw [writeLoop, writeLoop]
    split
    · rfl
    dsimp only
    rw [cacheGet_below io (pageOf start pos) true _ d s]
    rcases cacheGet io (pageOf start pos) true _ s with ⟨_ | i, s₁⟩
    · rfl
    · exact ih _ _ d (writeSlot i (pos % 4096) (bytes.take (chunkOf pos bytes.length)) s₁)

theorem blobstoreWrite_below (off : UInt64) (bytes : List UInt8) :
    StaysAbove (blobstoreWrite io id off bytes) := by
  intro d s
  rw [blobstoreWrite, blobstoreWrite, findObj_below]
  rcases findObj id s with _ | i
  · rfl
  dsimp only
  generalize hstop : off + UInt64.ofNat bytes.length = stop
  have hgrown : (if (s.objects i).size.toUInt64 < stop then
      blobstoreResize io id stop (s.below d) else (true, s.below d)) =
      ((if (s.objects i).size.toUInt64 < stop then blobstoreResize io id stop s else (true, s)).1,
        (if (s.objects i).size.toUInt64 < stop then blobstoreResize io id stop s
          else (true, s)).2.below d) := by
    rw [blobstoreResize_below io id stop d s]
    split
    · rfl
    · rfl
  rw [objects_below, hgrown]
  rcases (if (s.objects i).size.toUInt64 < stop then
    blobstoreResize io id stop s else (true, s)) with ⟨_ | _, s₁⟩
  · rfl
  rw [findObj_below]
  split
  · rfl
  rcases findObj id s₁ with _ | j
  · rfl
  dsimp only
  rw [objects_below, writeLoop_below]
  rcases writeLoop io (s₁.objects j).startPage bytes.length off.toNat bytes s₁ with ⟨_ | _, s₂⟩
  · rfl
  · rfl

theorem blobstoreSync_below : StaysAbove (blobstoreSync io) := by
  intro d s
  rw [blobstoreSync, blobstoreSync, flushAll_below io _ d s]
  show (if !blobstoreAvailable io s then _ else _) = _
  split
  · rfl
  rcases flushAll io (finRange 48) s with ⟨_ | _, s₁⟩
  · rfl
  · exact writeMeta_below io d s₁

theorem blobstoreLoad_below : StaysAbove (blobstoreLoad io) := by
  intro d s
  rw [blobstoreLoad, blobstoreLoad]
  split
  · rfl
  rw [show (s.below d).clearCache = s.clearCache.below d from rfl, readMeta_below io d s.clearCache]
  rcases readMeta io s.clearCache with ⟨_ | _, s₁⟩
  · dsimp only
    rw [formatNew_below]
    rfl
  · rfl

end Functions

/-! ### Calls -/

/-- What a caller gets. -/
inductive Answer
  | created (id : Option UInt32)
  | done (ok : Bool)
  | contents (bytes : Option (List UInt8))
  | written (n : Option ℕ)
  deriving DecidableEq

def answer (s : Store) : Io × Call → Answer
  | (io, .create size) => .created (blobstoreCreate io size s).1
  | (io, .delete id) => .done (blobstoreDelete io id s).1
  | (io, .resize id size) => .done (blobstoreResize io id size s).1
  | (io, .read id off len) => .contents (blobstoreRead io id off len s).1
  | (io, .write id off bytes) => .written (blobstoreWrite io id off bytes s).1
  | (io, .sync) => .done (blobstoreSync io s).1
  | (io, .load) => .done (blobstoreLoad io s).1
  | (_, .disturb _) => .done true

/-- One of the functions of the blob store is called. -/
def Call.IsOwn : Call → Prop
  | .disturb _ => False
  | _ => True

variable {e : Io × Call}

/-- **One call**: the answer and the new state do not depend on what is below the region. -/
theorem step_below (h : e.2.IsOwn) (d : Disk) (s : Store) :
    answer (s.below d) e = answer s e ∧ step (s.below d) e = (step s e).below d := by
  have hof {α : Type} {f : Store → α × Store} (hf : StaysAbove f) :
      (f (s.below d)).1 = (f s).1 ∧ (f (s.below d)).2 = (f s).2.below d := by
    rw [hf d s]
    exact ⟨rfl, rfl⟩
  obtain ⟨io, c⟩ := e
  rcases c with size | id | ⟨id, size⟩ | ⟨id, off, len⟩ | ⟨id, off, bytes⟩ | _ | _ | e
  · exact (hof (blobstoreCreate_below io size)).imp_left (congrArg Answer.created)
  · exact (hof (blobstoreDelete_below io id)).imp_left (congrArg Answer.done)
  · exact (hof (blobstoreResize_below io id size)).imp_left (congrArg Answer.done)
  · exact (hof (blobstoreRead_below io id off len)).imp_left (congrArg Answer.contents)
  · exact (hof (blobstoreWrite_below io id off bytes)).imp_left (congrArg Answer.written)
  · exact (hof (blobstoreSync_below io)).imp_left (congrArg Answer.done)
  · exact (hof (blobstoreLoad_below io)).imp_left (congrArg Answer.done)
  · exact h.elim

theorem below_self (s : Store) : s.below s.disk = s := by
  rw [Store.below]
  congr 1
  funext l
  exact ite_self _

/-- A call leaves the sectors below the store alone. -/
theorem disk_step (h : e.2.IsOwn) (s : Store) (hl : l < lbaBase) :
    (step s e).disk l = s.disk l := by
  have hstep := (step_below h s.disk s).2
  rw [below_self] at hstep
  rw [hstep]
  exact if_pos hl

/-! ### Saves -/

/-- The superblock, the object table and the pages, whatever the state of the store. -/
def BlobSector (l : ℕ) : Prop :=
  l = lbaBase ∨ lbaBase + 1 ≤ l ∧ l < lbaBase + 11 ∨
    ∃ page, pageToLba page ≤ l ∧ l < pageToLba page + 8

theorem le_of_blobSector (h : BlobSector l) : lbaBase ≤ l := by
  rcases h with rfl | ⟨hle, -⟩ | ⟨page, hle, -⟩
  · exact le_rfl
  · omega
  · exact (le_pageToLba page).trans hle

/-- The payload that fits between the header and the blob store. -/
def roomForImage : ℕ := (lbaBase - 2) * sectorSize

section Saves

variable (C : Cipher)

variable {pass : List UInt8}

/-- The sectors a save writes. -/
theorem mem_writes (save : Save pass) {l : ℕ} :
    (∃ w ∈ save.writes C, w.1 = l) ↔ 1 ≤ l ∧ l < 2 + blockCount sectorSize save.image.length := by
  have hcount := save.length_payload C
  constructor
  · rintro ⟨w, hw, rfl⟩
    rcases mem_append.1 hw with hw | hw
    · have hrange := le_of_mem_streamWrites hw
      rw [hcount, Peakdisk.peakdiskLba0] at hrange
      omega
    · obtain rfl := mem_singleton.1 hw
      exact ⟨le_rfl, Nat.lt_add_right _ one_lt_two⟩
  rintro ⟨hle, hlt⟩
  by_cases hone : l = 1
  · exact ⟨_, mem_append_right _ (mem_singleton_self _), hone.symm⟩
  refine ⟨_, mem_append_left _ (mem_map.2 ⟨l - 2, mem_range.2 ?_, rfl⟩), ?_⟩
  · rw [hcount]
    omega
  · rw [Peakdisk.peakdiskLba0]
    omega

/-- Images up to this length end below the region. -/
theorem blockCount_le_iff (len : ℕ) :
    2 + blockCount sectorSize len ≤ lbaBase ↔ len ≤ roomForImage := by
  rw [blockCount, roomForImage, sectorSize, lbaBase]
  omega

/-- **A save stays out of the blob store** exactly if the image fits below it. -/
theorem writes_apart_iff (save : Save pass) :
    (∀ w ∈ save.writes C, ¬ BlobSector w.1) ↔ save.image.length ≤ roomForImage := by
  rw [← blockCount_le_iff]
  constructor
  · intro hapart
    by_contra hlt
    obtain ⟨w, hw, hl⟩ := (mem_writes C save).2 ⟨by decide, not_le.1 hlt⟩
    exact hapart w hw (.inl hl)
  intro hle w hw hblob
  have hlt := ((mem_writes C save).1 ⟨w, hw, rfl⟩).2
  have hge := le_of_blobSector hblob
  omega

/-- What goes on on the device: calls of the blob store, and saves. -/
inductive Event
  | call (e : Io × Call) (own : e.2.IsOwn)
  | save (env : SaveEnv) (dev : Device) (pass : List UInt8)

def Event.run (s : Store) : Event → Store
  | .call e _ => step s e
  | .save env dev pass => { s with disk := (peakdiskSave C env dev pass s.disk).2 }

/-- The workspace that is saved fits below the blob store. -/
def Event.Fits : Event → Prop
  | .call _ _ => True
  | .save env _ _ => env.exported.length ≤ roomForImage

def Event.call? : Event → Option (Io × Call)
  | .call e _ => some e
  | .save _ _ _ => none

theorem image_of_prepare {env : SaveEnv} {save : Save pass}
    (h : Peakdisk.prepare env pass = .ok save) : save.image = env.exported := by
  rw [Peakdisk.prepare] at h
  repeat' split at h
  all_goals cases h
  rfl

/-- A save that fits leaves the blob store alone, also if it fails half way. -/
theorem run_save_eq (s : Store) (env : SaveEnv) (dev : Device) (pass : List UInt8)
    (hfit : env.exported.length ≤ roomForImage) :
    Event.run C s (.save env dev pass) = s.below (peakdiskSave C env dev pass s.disk).2 := by
  show { s with disk := _ } = { s with disk := _ }
  congr 1
  funext l
  rw [overlay]
  split
  · rfl
  next hl =>
  rcases hprep : Peakdisk.prepare env pass with e | save
  · rw [peakdiskSave, hprep]
  obtain ⟨k, hk, -⟩ := Peakdisk.peakdiskSave_cut (C := C) env dev s.disk hprep
  have hapart := (writes_apart_iff C save).2 (by rwa [image_of_prepare hprep])
  rw [hk]
  refine applyWrites_of_notMem (fun w hw hwl => ?_) s.disk
  have hlt := ((mem_writes C save).1 ⟨w, mem_of_mem_take hw, hwl⟩).2
  have hfits := (blockCount_le_iff _).2 ((writes_apart_iff C save).1 hapart)
  omega

theorem below_below (d d' : Disk) (s : Store) : (s.below d).below d' = s.below d' := by
  show { s with disk := _ } = { s with disk := _ }
  congr 1
  funext l
  simp only [overlay]
  split
  · rfl
  next hl => exact if_neg hl

/-- The run with the saves and the run without them differ below the blob store only. -/
theorem run_eq_below (s : Store) (es : List Event) (hfit : ∀ e ∈ es, e.Fits) :
    ∃ d, es.foldl (Event.run C) s = ((es.filterMap Event.call?).foldl step s).below d := by
  induction es using reverseRecOn with
  | nil => exact ⟨s.disk, (below_self s).symm⟩
  | append_singleton es e ih =>
    obtain ⟨d, hd⟩ := ih fun e he => hfit e (mem_append_left _ he)
    rw [foldl_append, filterMap_append, foldl_append, hd]
    rcases e with ⟨e, hown⟩ | ⟨env, dev, pass⟩
    · exact ⟨d, (step_below hown d _).2⟩
    have hroom : env.exported.length ≤ roomForImage :=
      hfit (.save env dev pass) (mem_append_right _ (mem_singleton_self _))
    exact ⟨_, (run_save_eq C _ env dev pass hroom).trans (below_below ..)⟩

/-- **The image and the blobs.** A save stays out of the blob store exactly if the image fits below
it; in a run of saves that fit and calls of the blob store, every call is answered as it would be
without the saves; and no call touches the sectors of such an image. -/
theorem saves_apart_iff :
    (∀ (pass : List UInt8) (save : Save pass),
      (∀ w ∈ save.writes C, ¬ BlobSector w.1) ↔ save.image.length ≤ roomForImage) ∧
    (∀ (s : Store) (es : List Event), (∀ e ∈ es, e.Fits) → ∀ (e : Io × Call), e.2.IsOwn →
      answer (es.foldl (Event.run C) s) e = answer ((es.filterMap Event.call?).foldl step s) e) ∧
    ∀ (s : Store) (e : Io × Call), e.2.IsOwn → ∀ l < lbaBase, (step s e).disk l = s.disk l := by
  refine ⟨fun _ save => writes_apart_iff C save, fun s es hfit e hown => ?_,
    fun s e hown l hl => disk_step hown s hl⟩
  obtain ⟨d, hd⟩ := run_eq_below C s es hfit
  rw [hd]
  exact (step_below hown d _).1

end Saves

/-- A save of twelve bytes. -/
def smallSave : SaveEnv :=
  ⟨true, true, 1, 12, List.replicate 12 7, true, true, true, false, none, none⟩

theorem saves_apart_small :
    answer ([Event.save smallSave ⟨fun _ => true, true, true⟩ []].foldl
      (Event.run Peakdisk.nullCipher) freshStore) (goodIo, .create 100) =
      answer freshStore (goodIo, .create 100) :=
  (saves_apart_iff Peakdisk.nullCipher).2.1 freshStore _ (fun e he => by
    obtain rfl := mem_singleton.1 he
    exact show (12 : ℕ) ≤ 8190 * 512 by decide) _ trivial

/-- A workspace that needs one sector more than there are. -/
def wideImage : Save [] := Peakdisk.plainSave (8190 * 512 + 1) 0 (by decide) (by decide)

/-- A save of a longer image writes the superblock. -/
theorem save_over_superblock : ¬ ∀ (C : Cipher) (pass : List UInt8) (save : Save pass),
    ∀ w ∈ save.writes C, ¬ BlobSector w.1 := by
  intro h
  have hfits := (writes_apart_iff Peakdisk.nullCipher wideImage).1 (h _ [] wideImage)
  rw [wideImage, Peakdisk.plainSave, length_replicate] at hfits
  exact absurd hfits (by decide)

end PeakOs.Blobstore
