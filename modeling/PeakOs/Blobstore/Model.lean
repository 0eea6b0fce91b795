import PeakOs.Lib.LinearProbing
import PeakOs.Peakdisk.Model

/-!
# The blob store

`kernel/blobstore.c`: objects on the block device, each a range of 4096-byte pages. Pages are taken
from a bump pointer (`next_page`) or from a table of 32 free spans; the superblock and the object
table are written to the device after every change, the free spans are not. Pages are read and
written through a cache of 48 pages with an open-addressed index.

What the environment decides during a call is an `Io`: whether there is a device, which sectors it
reads and writes, and what the kernel heap and the capability check answer. A write that fails has
reached the sectors before the first one that the device refused.

Sizes and offsets are `size_t`, the fields are 32-bit words; both wrap. A flag byte other than zero
is read from the device as set, and padding bytes are zero.
-/

namespace PeakOs.Blobstore

open Peakdisk (Sector Disk sectorSize)

def lbaBase : ℕ := 8192
def metaSectors : ℕ := 16
def dataLba : ℕ := lbaBase + metaSectors
def blobMaxPages : UInt32 := 65536

abbrev ObjIx := Fin 256
abbrev SpanIx := Fin 32
abbrev CacheIx := Fin 48
abbrev HashIx := Fin 64

/-- `BLOBSTORE_PAGE_SIZE` bytes. -/
abbrev Page := Block 4096

/-- `struct blob_obj`. -/
structure BlobObj where
  id : UInt32
  startPage : UInt32
  npages : UInt32
  size : UInt32
  inUse : Bool
  deriving DecidableEq, Repr

/-- `struct blob_super`. -/
structure BlobSuper where
  magic : Block 8
  version : UInt32
  nobjects : UInt32
  nextId : UInt32
  nextPage : UInt32
  totalPages : UInt32
  deriving DecidableEq

/-- `struct cache_page`. -/
structure CachePage where
  globalPage : UInt32
  data : Page
  valid : Bool
  dirty : Bool
  lru : UInt32

/-- `struct blob_free_span`. -/
structure BlobFreeSpan where
  startPage : UInt32
  npages : UInt32
  inUse : Bool
  deriving DecidableEq, Repr

/-- The variables of the module, and the device. -/
structure Store where
  objects : ObjIx → BlobObj
  super : BlobSuper
  freeSpans : SpanIx → BlobFreeSpan
  freePagesTotal : UInt32
  cache : CacheIx → CachePage
  lruTick : UInt32
  ready : Bool
  /-- `none` is `-1`. -/
  cacheHot : Option CacheIx
  cacheLive : UInt32
  /-- `none` is `0xFF`. -/
  cacheHash : Probing.Table 64 CacheIx
  disk : Disk

/-- What the environment answers during a call. -/
structure Io where
  present : Bool
  readOk : ℕ → Bool
  writeOk : ℕ → Bool
  /-- `kmalloc` in `read_meta`. -/
  allocRead : Bool
  /-- `kmalloc` in `write_meta`. -/
  allocWrite : Bool
  /-- `CAP_DISK_PERSIST` or `CAP_FS_WRITE`. -/
  cap : Bool

/-! ### The device -/

def blockdevRead (io : Io) (lba count : ℕ) : Bool :=
  (List.range count).all fun k => io.readOk (lba + k)

def blockdevWrite (io : Io) (lba : ℕ) (bytes : List UInt8) (d : Disk) : Bool × Disk :=
  let ws := streamWrites sectorSize lba bytes
  (ws.all fun w => io.writeOk w.1, applyWrites (ws.takeWhile fun w => io.writeOk w.1) d)

def pageToLba (page : UInt32) : ℕ := dataLba + page.toNat * 8

/-- The page as it is on the device. -/
def diskPage (d : Disk) (page : UInt32) : Page := fun j => byteAt d (pageToLba page) j

/-! ### Metadata -/

/-- `BLOB_MAGIC`. -/
def blobMagic : Block 8 := fun i => [80, 69, 65, 75, 66, 76, 79, 66].getD i 0

def le32Of (x : UInt32) : List UInt8 := le32 x.toNat

def encodeSuper (sp : BlobSuper) : List UInt8 :=
  List.ofFn sp.magic ++ le32Of sp.version ++ le32Of sp.nobjects ++ le32Of sp.nextId ++
    le32Of sp.nextPage ++ le32Of sp.totalPages ++ le32Of 0

def encodeObj (o : BlobObj) : List UInt8 :=
  le32Of o.id ++ le32Of o.startPage ++ le32Of o.npages ++ le32Of o.size ++
    [if o.inUse then 1 else 0, 0, 0, 0]

/-- The object table, 256 records of 20 bytes: ten sectors. -/
def encodeObjects (objects : ObjIx → BlobObj) : List UInt8 :=
  (List.finRange 256).flatMap fun i => encodeObj (objects i)

/-- The 32-bit word at byte `off` from block `lba`. -/
def wordAt (d : Disk) (lba off : ℕ) : UInt32 :=
  UInt32.ofNat (readLe32 ((List.range' off 4).map (byteAt d lba)))

def decodeSuper (d : Disk) : BlobSuper where
  magic i := byteAt d lbaBase i
  version := wordAt d lbaBase 8
  nobjects := wordAt d lbaBase 12
  nextId := wordAt d lbaBase 16
  nextPage := wordAt d lbaBase 20
  totalPages := wordAt d lbaBase 24

def decodeObj (d : Disk) (off : ℕ) : BlobObj where
  id := wordAt d (lbaBase + 1) off
  startPage := wordAt d (lbaBase + 1) (off + 4)
  npages := wordAt d (lbaBase + 1) (off + 8)
  size := wordAt d (lbaBase + 1) (off + 12)
  inUse := byteAt d (lbaBase + 1) (off + 16) != 0

def decodeObjects (d : Disk) : ObjIx → BlobObj := fun i => decodeObj d (20 * i.val)

def writeMeta (io : Io) (s : Store) : Bool × Store :=
  match blockdevWrite io lbaBase (encodeSuper s.super) s.disk with
  | (false, d) => (false, { s with disk := d })
  | (true, d) =>
    if !io.allocWrite then (false, { s with disk := d })
    else
      let (ok, d) := blockdevWrite io (lbaBase + 1) (encodeObjects s.objects) d
      (ok, { s with disk := d })

/-- What `read_meta` asks of a superblock. -/
def superOk (sp : BlobSuper) : Bool :=
  decide (sp.magic = blobMagic) && sp.version == 1 && sp.totalPages != 0 &&
    decide (sp.totalPages ≤ blobMaxPages)

def readMeta (io : Io) (s : Store) : Bool × Store :=
  if !blockdevRead io lbaBase 1 then (false, s)
  else
    let s := { s with super := decodeSuper s.disk }
    if !superOk s.super then (false, s)
    else if !io.allocRead then (false, s)
    else if !blockdevRead io (lbaBase + 1) 10 then (false, s)
    else (true, { s with objects := decodeObjects s.disk })

def noObj : BlobObj := ⟨0, 0, 0, 0, false⟩

def freshSuper : BlobSuper := ⟨blobMagic, 1, 0, 1, 0, blobMaxPages⟩

def formatNew (io : Io) (s : Store) : Store :=
  (writeMeta io { s with super := freshSuper, objects := fun _ => noObj }).2

/-! ### The index of the cache -/

def cacheHashSlot (page : UInt32) : HashIx := Fin.ofNat 64 page.toNat

/-- Where the page of a cache slot is filed, if the slot is in use. -/
def Store.home (s : Store) (i : CacheIx) : Option HashIx :=
  if (s.cache i).valid then some (cacheHashSlot (s.cache i).globalPage) else none

def cacheHashInsert (page : UInt32) (i : CacheIx) (s : Store) : Store :=
  { s with cacheHash := Probing.insert (cacheHashSlot page) i s.cacheHash }

def cacheHashRemove (page : UInt32) (i : CacheIx) (s : Store) : Store :=
  { s with cacheHash := Probing.remove s.home (cacheHashSlot page) i s.cacheHash }

def Store.caches (s : Store) (page : UInt32) (i : CacheIx) : Bool :=
  (s.cache i).valid && (s.cache i).globalPage == page

def cacheHashFind (page : UInt32) (s : Store) : Option CacheIx :=
  Probing.lookup (s.caches page) (cacheHashSlot page) s.cacheHash

/-! ### The cache -/

def Store.setCache (s : Store) (i : CacheIx) (cp : CachePage) : Store :=
  { s with cache := Function.update s.cache i cp }

def flushPage (io : Io) (i : CacheIx) (s : Store) : Bool × Store :=
  let cp := s.cache i
  if !cp.valid || !cp.dirty then (true, s)
  else
    match blockdevWrite io (pageToLba cp.globalPage) (List.ofFn cp.data) s.disk with
    | (false, d) => (false, { s with disk := d })
    | (true, d) => (true, { s with disk := d }.setCache i { cp with dirty := false })

def cacheTouch (i : CacheIx) (s : Store) : Store :=
  if (s.cache i).lru ≠ s.lruTick then
    { s.setCache i { s.cache i with lru := s.lruTick + 1 } with
      lruTick := s.lruTick + 1
      cacheHot := some i }
  else { s with cacheHot := some i }

/-- Take a page out of the cache: write it back, unfile it, and forget it. -/
def dropPage (io : Io) (i : CacheIx) (s : Store) : Store :=
  let s := if (s.cache i).dirty then (flushPage io i s).2 else s
  let s := cacheHashRemove (s.cache i).globalPage i s
  { s.setCache i { s.cache i with valid := false, dirty := false } with
    cacheLive := if s.cacheLive ≠ 0 then s.cacheLive - 1 else s.cacheLive
    cacheHot := if s.cacheHot = some i then none else s.cacheHot }

/-- The slot that was used least recently. -/
def lruVictim (s : Store) : CacheIx :=
  (List.finRange 48).foldl (fun v i => if (s.cache i).lru < (s.cache v).lru then i else v) 0

def victim (s : Store) : CacheIx :=
  if s.cacheLive < 48 then
    ((List.finRange 48).find? fun i => !(s.cache i).valid).getD (lruVictim s)
  else lruVictim s

def cacheEvict (io : Io) (s : Store) : CacheIx × Store :=
  let i := victim s
  if (s.cache i).valid then (i, dropPage io i s)
  else (i, s.setCache i { s.cache i with valid := false, dirty := false })

/-- The second half of `cache_get`: the page goes to slot `i`. -/
def cacheFill (page : UInt32) (data : Page) (i : CacheIx) (s : Store) : Store :=
  let s := s.setCache i ⟨page, data, true, false, s.lruTick + 1⟩
  let s := cacheHashInsert page i { s with lruTick := s.lruTick + 1 }
  { s with cacheLive := s.cacheLive + 1, cacheHot := some i }

def cacheMiss (io : Io) (page : UInt32) (forWrite fetch : Bool) (s : Store) :
    Option CacheIx × Store :=
  let (i, s) := cacheEvict io s
  if fetch then
    if blockdevRead io (pageToLba page) 8 then (some i, cacheFill page (diskPage s.disk page) i s)
    else if !forWrite then (none, s.setCache i { s.cache i with globalPage := page })
    else (some i, cacheFill page (fun _ => 0) i s)
  else (some i, cacheFill page (fun _ => 0) i s)

def cacheGet (io : Io) (page : UInt32) (forWrite fetch : Bool) (s : Store) :
    Option CacheIx × Store :=
  match s.cacheHot.filter (s.caches page) with
  | some i => (some i, cacheTouch i s)
  | none =>
    match cacheHashFind page s with
    | some i => (some i, cacheTouch i s)
    | none => cacheMiss io page forWrite fetch s

def findObj (id : UInt32) (s : Store) : Option ObjIx :=
  (List.finRange 256).find? fun i => (s.objects i).inUse && (s.objects i).id == id

def cacheEvictObjectPages (io : Io) (start npages : UInt32) (s : Store) : Store :=
  (List.finRange 48).foldl (fun s i =>
    if !(s.cache i).valid then s
    else if (s.cache i).globalPage < start ∨ start + npages ≤ (s.cache i).globalPage then s
    else dropPage io i s) s

/-! ### Free spans -/

def Store.setSpan (s : Store) (i : SpanIx) (f : BlobFreeSpan) : Store :=
  { s with freeSpans := Function.update s.freeSpans i f }

def freeSpanAdd (start npages : UInt32) (s : Store) : Bool × Store :=
  if npages = 0 then (true, s)
  else
    match (List.finRange 32).find? fun i => !(s.freeSpans i).inUse with
    | none => (false, s)
    | some i =>
      (true, { s.setSpan i ⟨start, npages, true⟩ with
        freePagesTotal := s.freePagesTotal + npages })

/-- The span that ends at `next_page`. -/
def tipSpan (s : Store) : Option SpanIx :=
  (List.finRange 32).find? fun i => (s.freeSpans i).inUse &&
    (s.freeSpans i).startPage + (s.freeSpans i).npages == s.super.nextPage

def Store.setNextPage (s : Store) (page : UInt32) : Store :=
  { s with super := { s.super with nextPage := page } }

/-- Each turn of the loop frees an entry of the table, so there are at most 32. -/
def rewindLoop : ℕ → Store → Store
  | 0, s => s
  | k + 1, s =>
    match tipSpan s with
    | none => s
    | some i =>
      rewindLoop k { (s.setNextPage (s.freeSpans i).startPage).setSpan i
          { s.freeSpans i with inUse := false } with
        freePagesTotal := s.freePagesTotal - (s.freeSpans i).npages }

def blobRewindTip (s : Store) : Store := rewindLoop 32 s

/-- The span that leaves the fewest pages over, and how many. -/
def bestSpan (need : UInt32) (s : Store) : Option SpanIx × UInt32 :=
  (List.finRange 32).foldl (fun b i =>
    let f := s.freeSpans i
    if !f.inUse || f.npages < need then b
    else if f.npages - need < b.2 then (some i, f.npages - need)
    else b) (none, 0xFFFFFFFF)

def freeSpanTake (need : UInt32) (s : Store) : Option UInt32 × Store :=
  match (bestSpan need s).1 with
  | none => (none, s)
  | some i =>
    let f := s.freeSpans i
    let f' : BlobFreeSpan := if need < f.npages then ⟨f.startPage + need, f.npages - need, f.inUse⟩
      else { f with inUse := false }
    (some f.startPage, { s.setSpan i f' with freePagesTotal := s.freePagesTotal - need })

/-! ### Objects -/

def blobstoreAvailable (io : Io) (s : Store) : Bool := s.ready && io.present

/-- The number of pages for `size` bytes, at least one. -/
def pagesFor (size : UInt64) : UInt32 :=
  let n := ((size + 4095) / 4096).toUInt32
  if n = 0 then 1 else n

def Store.setObj (s : Store) (i : ObjIx) (o : BlobObj) : Store :=
  { s with objects := Function.update s.objects i o }

/-- The pages of a new object: from a free span, else at the tip. -/
def takePages (npages : UInt32) (s : Store) : Option UInt32 × Store :=
  match freeSpanTake npages s with
  | (some start, s) => (some start, s)
  | (none, s) =>
    if s.super.totalPages < s.super.nextPage + npages then (none, s)
    else (some s.super.nextPage, s.setNextPage (s.super.nextPage + npages))

/-- The last part of `blobstore_create`. -/
def installObj (io : Io) (i : ObjIx) (start npages size : UInt32) (s : Store) : Store :=
  let s := s.setObj i ⟨s.super.nextId, start, npages, size, true⟩
  let super := { s.super with nextId := s.super.nextId + 1, nobjects := s.super.nobjects + 1 }
  (writeMeta io { s with super }).2

def blobstoreCreate (io : Io) (size : UInt64) (s : Store) : Option UInt32 × Store :=
  if !blobstoreAvailable io s || !io.cap then (none, s)
  else
    match takePages (pagesFor size) s with
    | (none, s) => (none, s)
    | (some start, s) =>
      match (List.finRange 256).find? fun i => !(s.objects i).inUse with
      | none => (none, s)
      | some i =>
        (some s.super.nextId, installObj io i start (pagesFor size) size.toUInt32 s)

/-- What `blobstore_delete` does with the pages of the object. -/
def releasePages (start npages : UInt32) (s : Store) : Store :=
  if start + npages = s.super.nextPage then blobRewindTip (s.setNextPage start)
  else (freeSpanAdd start npages s).2

def blobstoreDelete (io : Io) (id : UInt32) (s : Store) : Bool × Store :=
  match findObj id s with
  | none => (false, s)
  | some i =>
    let o := s.objects i
    let s := cacheEvictObjectPages io o.startPage o.npages s
    let s := s.setObj i { o with inUse := false }
    let nobjects := if s.super.nobjects ≠ 0 then s.super.nobjects - 1 else s.super.nobjects
    let s := releasePages o.startPage o.npages { s with super := { s.super with nobjects } }
    (true, (writeMeta io s).2)

def blobstoreResize (io : Io) (id : UInt32) (newSize : UInt64) (s : Store) : Bool × Store :=
  match findObj id s with
  | none => (false, s)
  | some i =>
    let o := s.objects i
    let need := pagesFor newSize
    if need ≤ o.npages then
      (true, (writeMeta io (s.setObj i { o with size := newSize.toUInt32 })).2)
    else if o.startPage + o.npages ≠ s.super.nextPage then (false, s)
    else
      let extra := need - o.npages
      if s.super.totalPages < s.super.nextPage + extra then (false, s)
      else
        let s := s.setObj i { o with npages := need, size := newSize.toUInt32 }
        (true, (writeMeta io (s.setNextPage (s.super.nextPage + extra))).2)

/-! ### Contents -/

/-- The page of an object that holds the byte at `pos`. -/
def pageOf (start : UInt32) (pos : ℕ) : UInt32 := start + UInt32.ofNat (pos / 4096)

/-- Where in its page the byte at `pos` is. -/
def inPage (pos : ℕ) : Fin 4096 := Fin.ofNat 4096 pos

/-- How many of the next `len` bytes at `pos` are in one page. -/
def chunkOf (pos len : ℕ) : ℕ := min (4096 - pos % 4096) len

def pageBytes (data : Page) (off len : ℕ) : List UInt8 :=
  (List.range len).map fun k => data (inPage (off + k))

/-- A turn of the loop copies at least one byte, so `len` turns are enough. -/
def readLoop (io : Io) (start : UInt32) : ℕ → ℕ → ℕ → Store → Option (List UInt8) × Store
  | 0, _, _, s => (some [], s)
  | k + 1, pos, len, s =>
    if len = 0 then (some [], s)
    else
      match cacheGet io (pageOf start pos) false true s with
      | (none, s) => (none, s)
      | (some i, s) =>
        let chunk := chunkOf pos len
        match readLoop io start k ((pos + chunk) % 2 ^ 64) (len - chunk) s with
        | (none, t) => (none, t)
        | (some rest, t) => (some (pageBytes (s.cache i).data (pos % 4096) chunk ++ rest), t)

def blobstoreRead (io : Io) (id : UInt32) (off len : UInt64) (s : Store) :
    Option (List UInt8) × Store :=
  match findObj id s with
  | none => (none, s)
  | some i =>
    let o := s.objects i
    if o.size.toUInt64 ≤ off then (some [], s)
    else
      let len := if o.size.toUInt64 < off + len then o.size.toUInt64 - off else len
      readLoop io o.startPage len.toNat off.toNat len.toNat s

/-- The page with `bytes` copied to `off`. -/
def patch (data : Page) (off : ℕ) (bytes : List UInt8) : Page := fun j =>
  if off ≤ j.val ∧ j.val < off + bytes.length then bytes.getD (j.val - off) 0 else data j

/-- Copy bytes to a cached page. -/
def writeSlot (i : CacheIx) (off : ℕ) (bytes : List UInt8) (s : Store) : Store :=
  s.setCache i { s.cache i with data := patch (s.cache i).data off bytes, dirty := true }

def writeLoop (io : Io) (start : UInt32) : ℕ → ℕ → List UInt8 → Store → Bool × Store
  | 0, _, _, s => (true, s)
  | k + 1, pos, bytes, s =>
    if bytes = [] then (true, s)
    else
      let chunk := chunkOf pos bytes.length
      -- a page that is overwritten as a whole is not read first
      let fetch := !(pos % 4096 == 0 && chunk == 4096)
      match cacheGet io (pageOf start pos) true fetch s with
      | (none, s) => (false, s)
      | (some i, s) =>
        writeLoop io start k ((pos + chunk) % 2 ^ 64) (bytes.drop chunk)
          (writeSlot i (pos % 4096) (bytes.take chunk) s)

/-- The length is that of the buffer, a `size_t`. -/
def blobstoreWrite (io : Io) (id : UInt32) (off : UInt64) (bytes : List UInt8) (s : Store) :
    Option ℕ × Store :=
  match findObj id s with
  | none => (none, s)
  | some i =>
    let stop := off + UInt64.ofNat bytes.length
    let (ok, s) := if (s.objects i).size.toUInt64 < stop then blobstoreResize io id stop s
      else (true, s)
    if !ok then (none, s)
    else
      match findObj id s with
      | none => (none, s)
      | some i =>
        match writeLoop io (s.objects i).startPage bytes.length off.toNat bytes s with
        | (false, s) => (none, s)
        | (true, s) => (some bytes.length, s)

/-! ### The whole store -/

def flushAll (io : Io) : List CacheIx → Store → Bool × Store
  | [], s => (true, s)
  | i :: is, s =>
    match flushPage io i s with
    | (false, s) => (false, s)
    | (true, s) => flushAll io is s

def blobstoreSync (io : Io) (s : Store) : Bool × Store :=
  if !blobstoreAvailable io s then (false, s)
  else
    match flushAll io (List.finRange 48) s with
    | (false, s) => (false, s)
    | (true, s) => writeMeta io s

def noPage : CachePage := ⟨0, fun _ => 0, false, false, 0⟩

def Store.clearCache (s : Store) : Store :=
  { s with
    cacheHash := fun _ => none
    cache := fun _ => noPage
    lruTick := 0
    cacheHot := none
    cacheLive := 0 }

def blobstoreLoad (io : Io) (s : Store) : Bool × Store :=
  if !io.present then (false, s)
  else
    match readMeta io s.clearCache with
    | (false, s) => (true, { formatNew io s with ready := true })
    | (true, s) => (true, { s with ready := true })

/-- The variables after a `memset`. -/
def blankStore (d : Disk) : Store where
  objects _ := noObj
  super := ⟨fun _ => 0, 0, 0, 0, 0, 0⟩
  freeSpans _ := ⟨0, 0, false⟩
  freePagesTotal := 0
  cache _ := noPage
  lruTick := 0
  ready := false
  cacheHot := none
  cacheLive := 0
  cacheHash _ := none
  disk := d

def blobstoreInit (io : Io) (d : Disk) : Store :=
  if !io.present then blankStore d
  else
    match readMeta io (blankStore d) with
    | (false, s) => { formatNew io s with ready := true }
    | (true, s) => { s with ready := true }

end PeakOs.Blobstore
