import Mathlib.Data.List.TakeWhile
import PeakOs.Blobstore.Layout

/-!
# The page cache is transparent

What the store holds is a map from pages to their contents, and `CacheOk s v` says that the store
holds `v`: a cached page has the contents `v` gives it, the device has every page that is not cached
dirty, no page is cached twice, and the index finds what is cached. As long as no page is lost
(`Io.sparesGet`), everything the cache does on its own (a hit, a write-back, an eviction, a fetch)
keeps `v`; a write changes it at the bytes written and nowhere else.

A page that is overwritten as a whole is not fetched. Between its eviction and the copy the slot
holds zeros, so the argument for a write is made with `CacheOkBut`, which leaves one slot out.

## Main results

* `cacheGet_spec` — a page is made available
* `readLoop_view`, `writeLoop_view` — the loops, as reads and writes of `v`
-/

namespace PeakOs.Blobstore

open Peakdisk (Disk sectorSize)
open Function List

/-- The device answers every request. -/
structure Io.Working (io : Io) : Prop where
  reads : ∀ lba, io.readOk lba = true
  writes : ∀ lba, io.writeOk lba = true

variable {io : Io} {pos : ℕ}

/-- `cache_get` loses nothing: it finds the page, or the page it puts out can be written back and
one that a write has to fetch can be read. -/
def Io.sparesGet (io : Io) (page : UInt32) (forWrite fetch : Bool) (s : Store) : Bool :=
  match s.cacheHot.filter (s.caches page), cacheHashFind page s with
  | none, none => (flushPage io (victim s) s).1 &&
      (!forWrite || !fetch || blockdevRead io (pageToLba page) 8)
  | _, _ => true

/-- No page is lost in `readLoop`. -/
def Io.sparesRead (io : Io) (start : UInt32) : ℕ → ℕ → ℕ → Store → Bool
  | 0, _, _, _ => true
  | k + 1, pos, len, s =>
    if len = 0 then true
    else io.sparesGet (pageOf start pos) false true s &&
      match cacheGet io (pageOf start pos) false true s with
      | (none, _) => true
      | (some _, s) => io.sparesRead start k ((pos + chunkOf pos len) % 2 ^ 64)
          (len - chunkOf pos len) s

/-- No page is lost in `writeLoop`. -/
def Io.sparesWrite (io : Io) (start : UInt32) : ℕ → ℕ → List UInt8 → Store → Bool
  | 0, _, _, _ => true
  | k + 1, pos, bytes, s =>
    if bytes = [] then true
    else
      let chunk := chunkOf pos bytes.length
      let fetch := !(pos % 4096 == 0 && chunk == 4096)
      io.sparesGet (pageOf start pos) true fetch s &&
        match cacheGet io (pageOf start pos) true fetch s with
        | (none, _) => true
        | (some i, s) => io.sparesWrite start k ((pos + chunk) % 2 ^ 64) (bytes.drop chunk)
            (writeSlot i (pos % 4096) (bytes.take chunk) s)

/-- What the store holds, by page. -/
abbrev View := UInt32 → Page

structure CacheOk (s : Store) (v : View) : Prop where
  distinct : ∀ {i j}, (s.cache i).valid = true → (s.cache j).valid = true →
    (s.cache i).globalPage = (s.cache j).globalPage → i = j
  placed : Probing.Placed s.home s.cacheHash
  cached : ∀ {i}, (s.cache i).valid = true → (s.cache i).data = v (s.cache i).globalPage
  stored : ∀ {p}, (∀ i, (s.cache i).valid = true → (s.cache i).globalPage = p →
    (s.cache i).dirty = false) → diskPage s.disk p = v p

/-- Slot `k` is in use, and its contents are left open. -/
structure CacheOkBut (k : CacheIx) (s : Store) (v : View) : Prop where
  valid : (s.cache k).valid = true
  distinct : ∀ {i j}, (s.cache i).valid = true → (s.cache j).valid = true →
    (s.cache i).globalPage = (s.cache j).globalPage → i = j
  placed : Probing.Placed s.home s.cacheHash
  cached : ∀ {i}, i ≠ k → (s.cache i).valid = true → (s.cache i).data = v (s.cache i).globalPage
  stored : ∀ {p}, p ≠ (s.cache k).globalPage → (∀ i, (s.cache i).valid = true →
    (s.cache i).globalPage = p → (s.cache i).dirty = false) → diskPage s.disk p = v p

variable {v : View}

theorem CacheOk.but {s : Store} (h : CacheOk s v) {k : CacheIx}
    (hk : (s.cache k).valid = true) : CacheOkBut k s v :=
  ⟨hk, h.distinct, h.placed, fun _ => h.cached, fun _ => h.stored⟩

/-! ### The device -/

section Device

variable {io : Io}

theorem Io.Working.blockdevRead (h : io.Working) (lba count : ℕ) :
    blockdevRead io lba count = true :=
  all_eq_true.2 fun _ _ => h.reads _

variable {d d' : Disk} {p : UInt32}

/-- A write that succeeds has been made as a whole. -/
theorem blockdevWrite_true {lba : ℕ} {bytes : List UInt8}
    (h : blockdevWrite io lba bytes d = (true, d')) :
    d' = applyWrites (streamWrites sectorSize lba bytes) d := by
  obtain ⟨hall, rfl⟩ := Prod.mk.inj h
  rw [takeWhile_eq_self_iff.2 (all_eq_true.1 hall)]

/-- The bytes of a whole stream, as they are read back. -/
theorem byteAt_stream (lba : ℕ) (bytes : List UInt8) (d : Disk) {i : ℕ}
    (hi : i < bytes.length) :
    byteAt (applyWrites (streamWrites sectorSize lba bytes) d) lba i = bytes.getD i 0 := by
  have htake : (streamWrites sectorSize lba bytes).take (blockCount sectorSize bytes.length) =
      streamWrites sectorSize lba bytes := take_of_length_le (by simp)
  have hlt : i / sectorSize < blockCount sectorSize bytes.length :=
    lt_blockCount.2 (hi.trans_le (le_mul_blockCount _))
  rw [← htake, byteAt_take_stream lba bytes d le_rfl, if_pos hlt]

theorem diskPage_congr
    (h : ∀ k < 8, d' (pageToLba p + k) = d (pageToLba p + k)) : diskPage d' p = diskPage d p := by
  funext j
  have hj : j.val / sectorSize < 8 := by
    show j.val / 512 < 8
    omega
  rw [diskPage, diskPage, byteAt, byteAt, h _ hj]

/-- A page that is written is read back. -/
theorem diskPage_write_self (p : UInt32) (data : Page) (d : Disk) :
    diskPage (applyWrites (streamWrites sectorSize (pageToLba p) (ofFn data)) d) p = data := by
  funext j
  have hj : j.val < (ofFn data).length := by
    rw [length_ofFn]
    exact j.isLt
  rw [diskPage, byteAt_stream _ _ _ hj, ← getElem_eq_getD (h := hj) 0, List.getElem_ofFn]

/-- The other pages are as before. -/
theorem diskPage_write_of_ne {q : UInt32} (hne : q ≠ p) (io : Io) (data : Page) (d : Disk) :
    diskPage (blockdevWrite io (pageToLba p) (ofFn data) d).2 q = diskPage d q := by
  have hcount : blockCount sectorSize (ofFn data).length = 8 := by
    rw [length_ofFn]
    rfl
  refine diskPage_congr fun k hk => blockdevWrite_of_ge io d hcount ?_
  have hne' : q.toNat ≠ p.toNat := fun hc => hne (UInt32.toNat_inj.1 hc)
  rw [pageToLba, pageToLba]
  omega

/-- The data area starts after the tables. -/
theorem diskPage_of_low (h : ∀ lba, dataLba ≤ lba → d' lba = d lba) (p : UInt32) :
    diskPage d' p = diskPage d p :=
  diskPage_congr fun k _ => h _ (by rw [pageToLba]; omega)

end Device

/-! ### Writing back -/

section Cache

variable {io : Io} {s : Store} {v : View}

variable {s' : Store} {i k : CacheIx} {page : UInt32}

/-- `dirty` and `lru` of a slot are not seen from outside. -/
theorem CacheOk.keep (h : CacheOk s v) (hkeep : ∀ j, (s'.cache j).valid = (s.cache j).valid ∧
      (s'.cache j).globalPage = (s.cache j).globalPage ∧ (s'.cache j).data = (s.cache j).data)
    (hhash : s'.cacheHash = s.cacheHash)
    (hstored : ∀ p, (∀ j, (s'.cache j).valid = true → (s'.cache j).globalPage = p →
      (s'.cache j).dirty = false) → diskPage s'.disk p = v p) : CacheOk s' v := by
  have hhome : s'.home = s.home := by
    funext j
    rw [Store.home, Store.home, (hkeep j).1, (hkeep j).2.1]
  refine ⟨fun {a b} ha hb hab => ?_, ?_, fun {a} ha => ?_, fun {p} hp => hstored p hp⟩
  · rw [(hkeep a).1] at ha
    rw [(hkeep b).1] at hb
    rw [(hkeep a).2.1, (hkeep b).2.1] at hab
    exact h.distinct ha hb hab
  · rw [hhome, hhash]
    exact h.placed
  rw [(hkeep a).1] at ha
  rw [(hkeep a).2.2, (hkeep a).2.1]
  exact h.cached ha

theorem CacheOk.congr (h : CacheOk s v) (hcache : s'.cache = s.cache)
    (hhash : s'.cacheHash = s.cacheHash) (hdisk : ∀ p, diskPage s'.disk p = diskPage s.disk p) :
    CacheOk s' v :=
  h.keep (fun j => by rw [hcache]; exact ⟨rfl, rfl, rfl⟩) hhash fun p hp => by
    rw [hcache] at hp
    rw [hdisk]
    exact h.stored hp

theorem setCache_cache_self (s : Store) (i : CacheIx) (cp : CachePage) :
    (s.setCache i cp).cache i = cp := update_self ..

theorem setCache_cache_of_ne (s : Store) {j : CacheIx} (h : j ≠ i) (cp : CachePage) :
    (s.setCache i cp).cache j = s.cache j := update_of_ne h ..

theorem home_setCache {cp : CachePage} (hpage : cp.globalPage = (s.cache i).globalPage)
    (hvalid : cp.valid = (s.cache i).valid) : (s.setCache i cp).home = s.home := by
  funext j
  by_cases hj : j = i
  · subst hj
    rw [Store.home, Store.home, setCache_cache_self, hpage, hvalid]
  · rw [Store.home, Store.home, setCache_cache_of_ne s hj]

/-- **Writing back** a page changes nothing that can be seen, whether or not it succeeds. -/
theorem CacheOk.flushPage (h : CacheOk s v) (io : Io) (i : CacheIx) :
    let t := Blobstore.flushPage io i s
    CacheOk t.2 v ∧ (∀ j, (t.2.cache j).valid = (s.cache j).valid ∧
        (t.2.cache j).globalPage = (s.cache j).globalPage) ∧
      (t.1 = true → (s.cache i).valid = true → (t.2.cache i).dirty = false) := by
  dsimp only
  rw [Blobstore.flushPage]
  split
  next hclean =>
    refine ⟨h, fun _ => ⟨rfl, rfl⟩, fun _ hv => ?_⟩
    simpa [hv] using hclean
  next hdirty =>
  simp only [Bool.or_eq_true, Bool.not_eq_true', not_or, Bool.not_eq_false] at hdirty
  obtain ⟨hvalid, hdirty⟩ := hdirty
  have hdisk := fun {p} (hp : p ≠ (s.cache i).globalPage) =>
    diskPage_write_of_ne hp io (s.cache i).data s.disk
  rcases hw : blockdevWrite io (pageToLba (s.cache i).globalPage) (ofFn (s.cache i).data)
    s.disk with ⟨_ | _, d⟩ <;> rw [hw] at hdisk
  · -- the page stays dirty, so nothing is asked of the device
    refine ⟨h.keep (fun _ => ⟨rfl, rfl, rfl⟩) rfl fun p hp => ?_, fun _ => ⟨rfl, rfl⟩, fun hok =>
      absurd hok Bool.false_ne_true⟩
    refine (hdisk ?_).trans (h.stored hp)
    rintro rfl
    exact absurd (hp i hvalid rfl) (by rw [hdirty]; decide)
  · dsimp only at hdisk ⊢
    set s' := ({ s with disk := d }).setCache i { s.cache i with dirty := false } with hs'
    have hself : s'.cache i = { s.cache i with dirty := false } := setCache_cache_self ..
    have hother : ∀ {j}, j ≠ i → s'.cache j = s.cache j := fun hj => setCache_cache_of_ne _ hj _
    have hkeep : ∀ j, (s'.cache j).valid = (s.cache j).valid ∧
        (s'.cache j).globalPage = (s.cache j).globalPage ∧
        (s'.cache j).data = (s.cache j).data := by
      intro j
      by_cases hj : j = i
      · subst hj
        rw [hself]
        exact ⟨rfl, rfl, rfl⟩
      · rw [hother hj]
        exact ⟨rfl, rfl, rfl⟩
    refine ⟨h.keep hkeep rfl fun p hp => ?_, fun j => ⟨(hkeep j).1, (hkeep j).2.1⟩,
      fun _ _ => by rw [hself]⟩
    show diskPage d p = v p
    by_cases hpi : p = (s.cache i).globalPage
    · rw [hpi, blockdevWrite_true hw, diskPage_write_self, h.cached hvalid]
    rw [hdisk hpi]
    refine h.stored fun j hj hjp => ?_
    have hji : j ≠ i := fun hc => hpi (by rw [← hjp, hc])
    have := hp j (by rw [hother hji]; exact hj) (by rw [hother hji]; exact hjp)
    rwa [hother hji] at this

theorem Io.Working.flushPage (h : io.Working) (i : CacheIx) (s : Store) :
    (flushPage io i s).1 = true := by
  have hall : (blockdevWrite io (pageToLba (s.cache i).globalPage) (ofFn (s.cache i).data)
      s.disk).1 = true := all_eq_true.2 fun _ _ => h.writes _
  rw [Blobstore.flushPage]
  split
  · rfl
  generalize blockdevWrite io _ _ _ = res at hall
  obtain ⟨ok, d⟩ := res
  obtain rfl : ok = true := hall
  rfl

/-! ### Eviction -/

theorem room_of_placed (h : Probing.Placed s.home s.cacheHash) : ∃ e, s.cacheHash e = none :=
  h.exists_empty (by decide)

theorem home_of_not_valid (hi : (s.cache i).valid = false) : s.home i = none := by
  rw [Store.home, hi]
  rfl

theorem home_eq_update (hother : ∀ {j}, j ≠ i → s'.cache j = s.cache j) :
    s'.home = update s.home i (s'.home i) :=
  eq_update_iff.2 ⟨rfl, fun j hj => by rw [Store.home, Store.home, hother hj]⟩

theorem ne_of_valid {j : CacheIx} (hi : (s.cache i).valid = false)
    (hj : (s.cache j).valid = true) : j ≠ i := by
  rintro rfl
  rw [hi] at hj
  cases hj

theorem home_of_valid (hi : (s.cache i).valid = true) :
    s.home i = some (cacheHashSlot (s.cache i).globalPage) := if_pos hi

/-- **A slot is given up**: what is seen of its page from now on is what the device has. -/
theorem CacheOk.clear {v' : View} (h : CacheOk s v)
    (hlast : (s.cache i).valid = true →
      v' (s.cache i).globalPage = diskPage s.disk (s.cache i).globalPage)
    (hview : ∀ p, ((s.cache i).valid = true → p ≠ (s.cache i).globalPage) → v' p = v p)
    (hother : ∀ {j}, j ≠ i → s'.cache j = s.cache j) (hself : (s'.cache i).valid = false)
    (hplaced : Probing.Placed (update s.home i none) s'.cacheHash) (hdisk : s'.disk = s.disk) :
    CacheOk s' v' := by
  have hvalid : ∀ {j}, (s'.cache j).valid = true → j ≠ i ∧ (s.cache j).valid = true := by
    intro j hj
    have hji := ne_of_valid hself hj
    exact ⟨hji, by rwa [hother hji] at hj⟩
  have hhome := home_eq_update hother
  rw [home_of_not_valid hself] at hhome
  refine ⟨fun {a b} ha hb hab => ?_, by rwa [hhome], fun {a} ha => ?_, fun {p} hp => ?_⟩
  · rw [hother (hvalid ha).1, hother (hvalid hb).1] at hab
    exact h.distinct (hvalid ha).2 (hvalid hb).2 hab
  · rw [hother (hvalid ha).1, h.cached (hvalid ha).2, hview]
    exact fun hi hc => (hvalid ha).1 (h.distinct (hvalid ha).2 hi hc)
  rw [hdisk]
  by_cases hpi : (s.cache i).valid = true ∧ p = (s.cache i).globalPage
  · rw [hpi.2, hlast hpi.1]
  rw [hview p fun hi hc => hpi ⟨hi, hc⟩]
  refine h.stored fun j hj hjp => ?_
  have hji : j ≠ i := by
    rintro rfl
    exact hpi ⟨hj, hjp.symm⟩
  rw [← hother hji] at hj hjp ⊢
  exact hp j hj hjp

/-- A slot that is not in use may be given another page number. -/
theorem CacheOk.clear_unused (h : CacheOk s v) (hi : (s.cache i).valid = false) {cp : CachePage}
    (hcp : cp.valid = false) : CacheOk (s.setCache i cp) v := by
  refine h.clear (fun hv => absurd hv (by rw [hi]; exact Bool.false_ne_true)) (fun _ _ => rfl)
    (fun hj => setCache_cache_of_ne s hj cp) (by rw [setCache_cache_self, hcp]) ?_ rfl
  rw [← home_of_not_valid hi, update_eq_self]
  exact h.placed

/-- **A page leaves the cache.** Nothing is lost if it could be written back, and nothing of the
other pages in any case. -/
theorem CacheOk.dropPage (h : CacheOk s v) (io : Io) (hi : (s.cache i).valid = true) :
    let t := Blobstore.dropPage io i s
    ∃ v', CacheOk t v' ∧ ((Blobstore.flushPage io i s).1 = true → v' = v) ∧
      (∀ p ≠ (s.cache i).globalPage, v' p = v p) ∧ (t.cache i).valid = false ∧
      ∀ j ≠ i, (t.cache j).valid = (s.cache j).valid ∧
        (t.cache j).globalPage = (s.cache j).globalPage := by
  dsimp only
  have heq : (if (s.cache i).dirty then (Blobstore.flushPage io i s).2 else s) =
      (Blobstore.flushPage io i s).2 := by
    split
    · rfl
    next hclean => rw [Blobstore.flushPage, if_pos (by simp [hclean])]
  rw [Blobstore.dropPage, heq]
  obtain ⟨hok, hkeep, hclean⟩ := h.flushPage io i
  generalize Blobstore.flushPage io i s = res at *
  obtain ⟨ok, s₁⟩ := res
  dsimp only at *
  have hi₁ : (s₁.cache i).valid = true := (hkeep i).1.trans hi
  set s₂ := cacheHashRemove (s₁.cache i).globalPage i s₁ with hs₂
  set s₃ := s₂.setCache i { s₂.cache i with valid := false, dirty := false } with hs₃
  have hself : (s₃.cache i).valid = false := by rw [hs₃, setCache_cache_self]
  have hother : ∀ {j}, j ≠ i → s₃.cache j = s₁.cache j := fun hj => setCache_cache_of_ne _ hj _
  set p := (s₁.cache i).globalPage
  have hok₃ : CacheOk s₃ (update v p (diskPage s₁.disk p)) := hok.clear
    (fun _ => update_self ..) (fun _ hp => update_of_ne (hp hi₁) ..) hother hself
    (Probing.remove_placed hok.placed (room_of_placed hok.placed) (home_of_valid hi₁)
      fun _ _ => rfl) rfl
  refine ⟨_, hok₃.congr rfl rfl fun _ => rfl, fun hflush => ?_, fun q hq => ?_, hself,
    fun j hj => ?_⟩
  · -- the page was written back, so the device has what was seen
    rw [hok.stored, update_eq_self]
    intro j hj hjp
    rw [hok.distinct hj hi₁ hjp]
    exact hclean hflush hi
  · rw [← (hkeep i).2] at hq
    exact update_of_ne hq ..
  · show (s₃.cache j).valid = _ ∧ (s₃.cache j).globalPage = _
    rw [hother hj]
    exact hkeep j

theorem CacheOk.cacheEvict (h : CacheOk s v)
    (hio : (Blobstore.flushPage io (victim s) s).1 = true) :
    let t := Blobstore.cacheEvict io s
    CacheOk t.2 v ∧ (t.2.cache t.1).valid = false ∧ ∀ j, (t.2.cache j).valid = true →
      (s.cache j).valid = true ∧ (t.2.cache j).globalPage = (s.cache j).globalPage := by
  dsimp only
  rw [Blobstore.cacheEvict]
  dsimp only
  generalize victim s = i at *
  split
  next hi =>
    obtain ⟨v', hok, hv, -, hgone, hkeep⟩ := h.dropPage io hi
    rw [hv hio] at hok
    refine ⟨hok, hgone, fun j hj => ?_⟩
    have hji := ne_of_valid hgone hj
    rw [(hkeep j hji).1] at hj
    exact ⟨hj, (hkeep j hji).2⟩
  next hi =>
    rw [Bool.not_eq_true] at hi
    refine ⟨h.clear_unused hi rfl, by rw [setCache_cache_self], fun j hj => ?_⟩
    have hji : j ≠ i := by
      rintro rfl
      rw [setCache_cache_self] at hj
      cases hj
    rw [setCache_cache_of_ne s hji] at hj ⊢
    exact ⟨hj, rfl⟩

/-! ### Filling a slot -/

/-- **A page enters the cache**, with whatever contents. -/
theorem CacheOk.cacheFill (h : CacheOk s v) (hi : (s.cache i).valid = false)
    (hpage : ∀ j, (s.cache j).valid = true → (s.cache j).globalPage ≠ page)
    (data : Page) : CacheOkBut i (cacheFill page data i s) v ∧
      (Blobstore.cacheFill page data i s).cache i = ⟨page, data, true, false, s.lruTick + 1⟩ ∧
      (Blobstore.cacheFill page data i s).disk = s.disk := by
  set s' := Blobstore.cacheFill page data i s with hs'
  have hself : s'.cache i = ⟨page, data, true, false, s.lruTick + 1⟩ := update_self ..
  have hother : ∀ {j}, j ≠ i → s'.cache j = s.cache j := fun hj => update_of_ne hj ..
  have hvalid : (s'.cache i).valid = true := by rw [hself]
  have hhome := home_eq_update hother
  rw [home_of_valid hvalid, hself] at hhome
  refine ⟨⟨hvalid, fun {a b} ha hb hab => ?_, ?_, fun {a} hai ha => ?_,
    fun {p} hp hclean => ?_⟩, hself, rfl⟩
  · by_cases hai : a = i <;> by_cases hbi : b = i
    · rw [hai, hbi]
    · rw [hai, hself, hother hbi] at hab
      rw [hother hbi] at hb
      exact absurd hab.symm (hpage b hb)
    · rw [hbi, hself, hother hai] at hab
      rw [hother hai] at ha
      exact absurd hab (hpage a ha)
    · rw [hother hai] at ha hab
      rw [hother hbi] at hb hab
      exact h.distinct ha hb hab
  · rw [hhome]
    exact Probing.insert_placed h.placed (room_of_placed h.placed) (home_of_not_valid hi) _
  · rw [hother hai] at ha ⊢
    exact h.cached ha
  refine h.stored fun j hj hjp => ?_
  have := hclean j
  rw [hother (ne_of_valid hi hj)] at this
  exact this hj hjp

/-- The slot holds the page as the device has it. -/
theorem CacheOkBut.fetched (h : CacheOkBut k s v)
    (hdata : (s.cache k).data = v (s.cache k).globalPage)
    (hdisk : diskPage s.disk (s.cache k).globalPage = v (s.cache k).globalPage) : CacheOk s v := by
  refine ⟨h.distinct, h.placed, fun {i} hi => ?_, fun {p} hp => ?_⟩
  · by_cases hik : i = k
    · rw [hik, hdata]
    · exact h.cached hik hi
  by_cases hpk : p = (s.cache k).globalPage
  · rw [hpk, hdisk]
  · exact h.stored hpk hp

theorem CacheOk.cacheTouch (h : CacheOk s v) (i : CacheIx) : CacheOk (cacheTouch i s) v ∧
    ∀ j, ((Blobstore.cacheTouch i s).cache j).valid = (s.cache j).valid ∧
      ((Blobstore.cacheTouch i s).cache j).globalPage = (s.cache j).globalPage := by
  rw [Blobstore.cacheTouch]
  split
  · set s' := s.setCache i { s.cache i with lru := s.lruTick + 1 } with hs'
    have hkeep : ∀ j, (s'.cache j).valid = (s.cache j).valid ∧
        (s'.cache j).globalPage = (s.cache j).globalPage ∧
        (s'.cache j).data = (s.cache j).data ∧ (s'.cache j).dirty = (s.cache j).dirty := by
      intro j
      by_cases hj : j = i
      · subst hj
        rw [hs', setCache_cache_self]
        exact ⟨rfl, rfl, rfl, rfl⟩
      · rw [hs', setCache_cache_of_ne s hj]
        exact ⟨rfl, rfl, rfl, rfl⟩
    have hok : CacheOk s' v := by
      refine h.keep (fun j => ⟨(hkeep j).1, (hkeep j).2.1, (hkeep j).2.2.1⟩) rfl fun p hp =>
        h.stored fun j hj hjp => ?_
      rw [← (hkeep j).2.2.2]
      exact hp j ((hkeep j).1.trans hj) ((hkeep j).2.1.trans hjp)
    exact ⟨hok.congr rfl rfl fun _ => rfl, fun j => ⟨(hkeep j).1, (hkeep j).2.1⟩⟩
  · exact ⟨h.congr rfl rfl fun _ => rfl, fun _ => ⟨rfl, rfl⟩⟩

/-! ### A page is made available -/

/-- The index misses nothing. -/
theorem CacheOk.cacheHashFind_none (h : CacheOk s v)
    (hfind : cacheHashFind page s = none) (j : CacheIx) (hj : (s.cache j).valid = true) :
    (s.cache j).globalPage ≠ page := by
  rintro rfl
  have hgood : ∀ y, s.caches (s.cache j).globalPage y = true ↔ y = j := by
    intro y
    rw [Store.caches, Bool.and_eq_true, beq_iff_eq]
    constructor
    · rintro ⟨hy, hpage⟩
      exact h.distinct hy hj hpage
    · rintro rfl
      exact ⟨hj, rfl⟩
  have hfound := Probing.lookup_of_found (h.placed.found (home_of_valid hj)) hgood
  rw [cacheHashFind, hfound] at hfind
  cases hfind

/-- What `cache_get` gives. -/
structure Got (page : UInt32) (fetch : Bool) (v : View) (s s' : Store) (i : CacheIx) : Prop where
  page : (s'.cache i).globalPage = page
  sameMeta : SameMeta s s'
  but : CacheOkBut i s' v
  fetched : fetch = true → CacheOk s' v

theorem Got.of_touch (h : CacheOk s v) (fetch : Bool)
    (hi : s.caches page i = true) : Got page fetch v s (cacheTouch i s) i := by
  obtain ⟨hok, hkeep⟩ := h.cacheTouch i
  rw [Store.caches, Bool.and_eq_true, beq_iff_eq] at hi
  exact ⟨(hkeep i).2.trans hi.2, sameMeta_cacheTouch i s, hok.but ((hkeep i).1.trans hi.1),
    fun _ => hok⟩

/-- **A page is made available**: hit or miss, and what is seen stays the same. Only a page that
cannot be read may be refused, and only to a reader. -/
theorem cacheGet_spec (h : CacheOk s v) {forWrite fetch : Bool}
    (hio : io.sparesGet page forWrite fetch s = true) :
    (∃ s', cacheGet io page forWrite fetch s = (none, s') ∧ CacheOk s' v ∧ forWrite = false ∧
      ¬ io.Working) ∨
    ∃ i s', cacheGet io page forWrite fetch s = (some i, s') ∧ Got page fetch v s s' i := by
  rw [Io.sparesGet] at hio
  rw [cacheGet]
  rcases hhot : s.cacheHot.filter (s.caches page) with _ | i
  · rcases hfind : cacheHashFind page s with _ | i
    · have hmiss := h.cacheHashFind_none hfind
      rw [hhot, hfind] at hio
      obtain ⟨hsave, hload⟩ := Bool.and_eq_true_iff.1 hio
      obtain ⟨hok, hgone, hkeep⟩ := h.cacheEvict hsave
      have hsame := sameMeta_cacheMiss io page forWrite fetch s
      rw [cacheMiss] at hsame ⊢
      dsimp only at hsame ⊢
      generalize (cacheEvict io s).1 = i at *
      generalize (cacheEvict io s).2 = s₁ at *
      have hpage : ∀ j, (s₁.cache j).valid = true → (s₁.cache j).globalPage ≠ page := by
        intro j hj
        rw [(hkeep j hj).2]
        exact hmiss j (hkeep j hj).1
      rcases fetch with _ | _
      · obtain ⟨hbut, hself, -⟩ := hok.cacheFill hgone hpage (fun _ => 0)
        exact .inr ⟨i, _, rfl, by rw [hself], hsame, hbut, fun hc => absurd hc Bool.false_ne_true⟩
      rcases hread : blockdevRead io (pageToLba page) 8 with _ | _ <;> rw [hread] at hsame
      · have hno : ¬ io.Working := fun hc => by
          rw [hc.blockdevRead] at hread
          cases hread
        rcases forWrite with _ | _
        · exact .inl ⟨_, rfl, hok.clear_unused hgone hgone, rfl, hno⟩
        · rw [hread] at hload
          cases hload
      · obtain ⟨hbut, hself, hdisk⟩ := hok.cacheFill hgone hpage (diskPage s₁.disk page)
        have hv : diskPage s₁.disk page = v page := hok.stored fun j hj hjp =>
          absurd hjp (hpage j hj)
        refine .inr ⟨i, _, rfl, by rw [hself], hsame, hbut, fun _ => hbut.fetched ?_ ?_⟩
        all_goals
          rwa [hself]
    · exact .inr ⟨i, _, rfl, .of_touch h fetch (Probing.of_lookup hfind)⟩
  · exact .inr ⟨i, _, rfl, .of_touch h fetch (Option.mem_filter_iff.1 hhot).2⟩

/-- **A write to a page.** -/
theorem CacheOkBut.writeSlot (h : CacheOkBut k s v) (off : ℕ) (bytes : List UInt8) :
    CacheOk (writeSlot k off bytes s)
      (update v (s.cache k).globalPage (patch (s.cache k).data off bytes)) := by
  set s' := Blobstore.writeSlot k off bytes s with hs'
  have hself : s'.cache k = { s.cache k with
    data := patch (s.cache k).data off bytes, dirty := true } := setCache_cache_self ..
  have hother : ∀ {j}, j ≠ k → s'.cache j = s.cache j := fun hj => setCache_cache_of_ne _ hj _
  have hkeep : ∀ j, (s'.cache j).valid = (s.cache j).valid ∧
      (s'.cache j).globalPage = (s.cache j).globalPage := by
    intro j
    by_cases hj : j = k
    · subst hj
      rw [hself]
      exact ⟨rfl, rfl⟩
    · rw [hother hj]
      exact ⟨rfl, rfl⟩
  refine ⟨fun {a b} ha hb hab => ?_, ?_, fun {a} ha => ?_, fun {p} hp => ?_⟩
  · rw [(hkeep a).1] at ha
    rw [(hkeep b).1] at hb
    rw [(hkeep a).2, (hkeep b).2] at hab
    exact h.distinct ha hb hab
  · rw [show s'.home = s.home from home_setCache rfl rfl]
    exact h.placed
  · by_cases hak : a = k
    · rw [hak, hself, update_self]
    rw [hother hak] at ha ⊢
    rw [h.cached hak ha, update_of_ne]
    exact fun hc => hak (h.distinct ha h.valid hc)
  have hpk : p ≠ (s.cache k).globalPage := by
    rintro rfl
    have := hp k ((hkeep k).1.trans h.valid) (hkeep k).2
    rw [hself] at this
    cases this
  rw [update_of_ne hpk]
  refine h.stored hpk fun j hj hjp => ?_
  have hjk : j ≠ k := fun hc => hpk (by rw [← hjp, hc])
  have := hp j ((hkeep j).1.trans hj) ((hkeep j).2.trans hjp)
  rwa [hother hjk] at this

end Cache

/-! ### Bytes of an object -/

/-- The byte at `pos` of the object that starts at page `start`. -/
def View.byte (v : View) (start : UInt32) (pos : ℕ) : UInt8 :=
  v (pageOf start pos) (inPage pos)

def View.bytes (v : View) (start : UInt32) (pos len : ℕ) : List UInt8 :=
  (List.range len).map fun k => v.byte start (pos + k)

/-- One byte after the other is stored. -/
def View.put (start : UInt32) : ℕ → List UInt8 → View → View
  | _, [], v => v
  | pos, b :: bs, v => View.put start (pos + 1) bs (Function.update v (pageOf start pos)
      (Function.update (v (pageOf start pos)) (inPage pos) b))

@[simp] theorem View.length_bytes (v : View) (start : UInt32) (pos len : ℕ) :
    (v.bytes start pos len).length = len := by simp [View.bytes]

theorem View.bytes_add (v : View) (start : UInt32) (pos m n : ℕ) :
    v.bytes start pos (m + n) = v.bytes start pos m ++ v.bytes start (pos + m) n := by
  simp only [View.bytes, range_add, map_append, map_map, Function.comp_def, add_assoc]

theorem pageOf_add (start : UInt32) {k : ℕ} (h : pos % 4096 + k < 4096) :
    pageOf start (pos + k) = pageOf start pos := by
  rw [pageOf, pageOf, show (pos + k) / 4096 = pos / 4096 by omega]

theorem inPage_add (pos k : ℕ) : inPage (pos % 4096 + k) = inPage (pos + k) :=
  Fin.ext (Nat.mod_add_mod ..)

theorem chunkOf_spec {len : ℕ} (hlen : len ≠ 0) :
    0 < chunkOf pos len ∧ chunkOf pos len ≤ len ∧ pos % 4096 + chunkOf pos len ≤ 4096 := by
  rw [chunkOf]
  omega

theorem pageBytes_eq (v : View) (start : UInt32) {n : ℕ} (h : pos % 4096 + n ≤ 4096) :
    pageBytes (v (pageOf start pos)) (pos % 4096) n = v.bytes start pos n := by
  refine map_congr_left fun k hk => ?_
  have hk' := mem_range.1 hk
  rw [View.byte, pageOf_add start (by omega), inPage_add]

theorem View.put_append (start : UInt32) (as bs : List UInt8) : ∀ (pos : ℕ) (v : View),
    View.put start pos (as ++ bs) v =
      View.put start (pos + as.length) bs (View.put start pos as v) := by
  induction as with
  | nil => exact fun _ _ => rfl
  | cons a as ih =>
    intro pos v
    rw [cons_append, View.put, View.put, ih, length_cons, add_assoc, add_comm 1 as.length]

theorem patch_nil (data : Page) (off : ℕ) : patch data off [] = data := by
  funext j
  rw [patch, if_neg]
  rw [length_nil]
  omega

theorem patch_cons (data : Page) {off : ℕ} (hoff : off < 4096) (b : UInt8) (bs : List UInt8) :
    patch data off (b :: bs) = patch (update data (inPage off) b) (off + 1) bs := by
  funext j
  have hmod : off % 4096 = off := Nat.mod_eq_of_lt hoff
  rw [patch, patch, length_cons]
  by_cases hj : j.val = off
  · have hj' : j = inPage off := Fin.ext (hj.trans hmod.symm)
    rw [if_pos (by omega), if_neg (by omega), hj', update_self]
    show (b :: bs).getD (off % 4096 - off) 0 = b
    rw [hmod, Nat.sub_self]
    rfl
  have hj' : j ≠ inPage off := fun hc => hj ((congrArg Fin.val hc).trans hmod)
  rw [update_of_ne hj']
  by_cases hin : off ≤ j.val ∧ j.val < off + (bs.length + 1)
  · rw [if_pos hin, if_pos (by omega), show j.val - off = j.val - (off + 1) + 1 by omega,
      getD_cons_succ]
  · rw [if_neg hin, if_neg (by omega)]

/-- The bytes of one page, stored together. -/
theorem View.put_page (start : UInt32) (bs : List UInt8) : ∀ (pos : ℕ) (v : View),
    pos % 4096 + bs.length ≤ 4096 → View.put start pos bs v =
      update v (pageOf start pos) (patch (v (pageOf start pos)) (pos % 4096) bs) := by
  induction bs with
  | nil =>
    intro pos v _
    rw [View.put, patch_nil, update_eq_self]
  | cons b bs ih =>
    intro pos v hfit
    rw [length_cons] at hfit
    rw [View.put, patch_cons _ (by omega)]
    rcases bs with _ | ⟨b', bs⟩
    · rw [View.put, patch_nil]
      congr 2
      exact Fin.ext (Nat.mod_mod _ _).symm
    rw [length_cons] at hfit
    have hmod : (pos + 1) % 4096 = pos % 4096 + 1 := by omega
    rw [ih (pos + 1) _ (by rw [length_cons]; omega), pageOf_add start (by omega), update_self,
      update_idem]
    congr 3
    exact Fin.ext (Nat.mod_mod _ _).symm

variable {start : UInt32}

/-- Bytes elsewhere are as before. -/
theorem View.byte_put_of_ne {start' : UInt32} {q : ℕ} (bs : List UInt8) :
    ∀ (pos : ℕ) (v : View), (∀ k < bs.length,
      pageOf start (pos + k) ≠ pageOf start' q ∨ (pos + k) % 4096 ≠ q % 4096) →
      (View.put start pos bs v).byte start' q = v.byte start' q := by
  induction bs with
  | nil => exact fun _ _ _ => rfl
  | cons b bs ih =>
    intro pos v hne
    rw [View.put, ih]
    · rw [View.byte, View.byte]
      have hzero := hne 0 (Nat.succ_pos _)
      by_cases hpage : pageOf start' q = pageOf start pos
      · rw [hpage, update_self, update_of_ne]
        intro hc
        exact (hzero.resolve_left (not_not_intro hpage.symm)) (congrArg Fin.val hc).symm
      · rw [update_of_ne hpage]
    intro k hk
    have hsucc := hne (k + 1) (Nat.succ_lt_succ hk)
    rwa [show pos + (k + 1) = pos + 1 + k by omega] at hsucc

theorem pageOf_inj {a b : ℕ} (ha : a < 2 ^ 44) (hb : b < 2 ^ 44)
    (hpage : pageOf start a = pageOf start b) (hmod : a % 4096 = b % 4096) : a = b := by
  have hdiv : UInt32.ofNat (a / 4096) = UInt32.ofNat (b / 4096) := by
    exact (UInt32.add_right_inj start).1 hpage
  have heq : a / 4096 = b / 4096 := by
    have := congrArg UInt32.toNat hdiv
    rw [UInt32.toNat_ofNat', UInt32.toNat_ofNat'] at this
    omega
  omega

/-- A byte that was stored is there. -/
theorem View.byte_put (bs : List UInt8) :
    ∀ (pos : ℕ) (v : View) {k : ℕ} {b : UInt8}, pos + bs.length ≤ 2 ^ 44 → bs[k]? = some b →
      (View.put start pos bs v).byte start (pos + k) = b := by
  induction bs with
  | nil => exact fun _ _ _ _ _ hk => absurd hk (by simp)
  | cons a bs ih =>
    intro pos v k b hlt hk
    rw [length_cons] at hlt
    rw [View.put]
    rcases k with _ | k
    · rw [View.byte_put_of_ne, add_zero]
      · rw [View.byte, update_self, update_self, Option.some.inj hk]
      intro j hj
      by_contra hc
      rw [not_or, not_not, not_not] at hc
      have := pageOf_inj (by omega) (by omega) hc.1 hc.2
      omega
    · rw [show pos + (k + 1) = pos + 1 + k by omega]
      exact ih (pos + 1) _ (by omega) hk

/-! ### The loops -/

/-- **Reading.** -/
theorem readLoop_view (start : UInt32) (k : ℕ) :
    ∀ (pos len : ℕ) {s : Store}, io.sparesRead start k pos len s = true → CacheOk s v → len ≤ k →
      pos + len < 2 ^ 64 → ∃ r s', readLoop io start k pos len s = (r, s') ∧ CacheOk s' v ∧
        (r = some (v.bytes start pos len) ∨ r = none ∧ ¬ io.Working) := by
  induction k with
  | zero =>
    intro pos len s _ h hk _
    obtain rfl : len = 0 := by omega
    exact ⟨_, s, rfl, h, .inl rfl⟩
  | succ k ih =>
    intro pos len s hio h hk hlt
    rw [Io.sparesRead] at hio
    rw [readLoop]
    by_cases hlen : len = 0
    · rw [hlen]
      exact ⟨_, s, rfl, h, .inl rfl⟩
    rw [if_neg hlen] at hio ⊢
    obtain ⟨hget, hrest⟩ := Bool.and_eq_true_iff.1 hio
    obtain ⟨hpos, hle, hfit⟩ := @chunkOf_spec pos _ hlen
    obtain ⟨s₁, heq, hok, -, hno⟩ | ⟨i, s₁, heq, hgot⟩ := cacheGet_spec h hget
    · rw [heq]
      exact ⟨_, s₁, rfl, hok, .inr ⟨rfl, hno⟩⟩
    rw [heq] at hrest
    dsimp only at hrest
    rw [Nat.mod_eq_of_lt (by omega)] at hrest
    have hok := hgot.fetched rfl
    have hdata : (s₁.cache i).data = v (pageOf start pos) := by
      rw [hok.cached hgot.but.valid, hgot.page]
    obtain ⟨r, s₂, hloop, hok₂, hr⟩ := ih _ _ hrest hok (by omega) (by omega)
    rw [heq]
    dsimp only
    rw [Nat.mod_eq_of_lt (by omega), hloop, hdata, pageBytes_eq v start hfit]
    rcases hr with rfl | ⟨rfl, hno⟩
    · refine ⟨_, s₂, rfl, hok₂, .inl ?_⟩
      rw [← View.bytes_add, Nat.add_sub_cancel' hle]
    · exact ⟨_, s₂, rfl, hok₂, .inr ⟨rfl, hno⟩⟩

theorem patch_whole (data data' : Page) {bs : List UInt8} (h : 4096 ≤ bs.length) :
    patch data 0 bs = patch data' 0 bs := by
  funext j
  rw [patch, patch, if_pos (by omega), if_pos (by omega)]

/-- On a device that works, nothing is lost. -/
theorem Io.Working.sparesGet (h : io.Working) (page : UInt32) (forWrite fetch : Bool) (s : Store) :
    io.sparesGet page forWrite fetch s = true := by
  rw [Io.sparesGet]
  split
  · rw [h.flushPage, h.blockdevRead, Bool.or_true, Bool.and_true]
  · rfl

theorem Io.Working.sparesRead (h : io.Working) (start : UInt32) (k : ℕ) :
    ∀ (pos len : ℕ) (s : Store), io.sparesRead start k pos len s = true := by
  induction k with
  | zero => exact fun _ _ _ => rfl
  | succ k ih =>
    intro pos len s
    rw [Io.sparesRead, h.sparesGet, Bool.true_and]
    split
    · rfl
    · split
      · rfl
      · exact ih ..

theorem Io.Working.sparesWrite (h : io.Working) (start : UInt32) (k : ℕ) :
    ∀ (pos : ℕ) (bs : List UInt8) (s : Store), io.sparesWrite start k pos bs s = true := by
  induction k with
  | zero => exact fun _ _ _ => rfl
  | succ k ih =>
    intro pos bs s
    rw [Io.sparesWrite]
    split
    · rfl
    · dsimp only
      rw [h.sparesGet, Bool.true_and]
      split
      · rfl
      · exact ih ..

/-- **Writing.** -/
theorem writeLoop_view (start : UInt32) (k : ℕ) :
    ∀ (pos : ℕ) (bs : List UInt8) {s : Store} {v : View}, io.sparesWrite start k pos bs s = true →
      CacheOk s v → bs.length ≤ k → pos + bs.length < 2 ^ 64 →
        ∃ s', writeLoop io start k pos bs s = (true, s') ∧
          CacheOk s' (View.put start pos bs v) := by
  induction k with
  | zero =>
    intro pos bs s v _ h hk _
    obtain rfl : bs = [] := length_eq_zero_iff.1 (by omega)
    exact ⟨s, rfl, h⟩
  | succ k ih =>
    intro pos bs s v hio h hk hlt
    rw [Io.sparesWrite] at hio
    rw [writeLoop]
    by_cases hbs : bs = []
    · rw [hbs]
      exact ⟨s, rfl, h⟩
    rw [if_neg hbs] at hio ⊢
    have hlen : bs.length ≠ 0 := fun hc => hbs (length_eq_zero_iff.1 hc)
    obtain ⟨hpos, hle, hfit⟩ := @chunkOf_spec pos _ hlen
    dsimp only at hio ⊢
    obtain ⟨hget, hrest⟩ := Bool.and_eq_true_iff.1 hio
    generalize hc : chunkOf pos bs.length = chunk at *
    obtain ⟨_, -, -, hno, -⟩ | ⟨i, s₁, heq, hgot⟩ := cacheGet_spec h hget
    · cases hno
    rw [heq] at hrest
    dsimp only at hrest
    rw [Nat.mod_eq_of_lt (by omega)] at hrest
    have htake : (bs.take chunk).length = chunk := by rw [length_take, min_eq_left hle]
    -- either the page was fetched, or all of it is overwritten
    have hpatch : patch (s₁.cache i).data (pos % 4096) (bs.take chunk) =
        patch (v (pageOf start pos)) (pos % 4096) (bs.take chunk) := by
      by_cases hwhole : pos % 4096 = 0 ∧ chunk = 4096
      · rw [hwhole.1]
        exact patch_whole _ _ (by omega)
      · have hok := hgot.fetched (by simpa using not_and_or.1 hwhole)
        rw [hok.cached hgot.but.valid, hgot.page]
    have hok₁ := hgot.but.writeSlot (pos % 4096) (bs.take chunk)
    rw [hgot.page, hpatch, ← View.put_page start _ _ _ (by omega)] at hok₁
    obtain ⟨s₂, hloop, hok₂⟩ := ih _ _ hrest hok₁ (by rw [length_drop]; omega)
      (by rw [length_drop]; omega)
    have hput := View.put_append start (bs.take chunk) (bs.drop chunk) pos v
    rw [take_append_drop, htake] at hput
    rw [heq, hput]
    rw [Nat.mod_eq_of_lt (by omega)]
    exact ⟨s₂, hloop, hok₂⟩

end PeakOs.Blobstore
