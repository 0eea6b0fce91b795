import PeakOs.PeakVec.Map

/-!
# What a reboot restores of the index

After each update the entries are written to a blob that a pointer file names, or without a
blobstore to the file itself. The namespaces are not written: after a reboot every entry is in the
default one.

The file is a `VecFile`, with the decimal number of the pointer and the cells of the entries as they
are. What the allocator, the VFS and the blobstore answer to a call is its `Env`; a write that fails
leaves what was there.

## Main results

* `ensureCapacity_eq_some` — there is room for any number of entries up to the limit
* `restored` — with working storage, an index of the default namespace comes back
* `namespace_lost` — an entry of another namespace does not
-/

namespace PeakOs.PeakVec

open List Option

inductive VecFile
  | pointer (id : ℕ)
  | image (count : ℕ) (entries : List Entry)

/-- The header of a blob (its count and capacity), if there is one, and the entries behind it. -/
structure Blob where
  hdr : Option (ℕ × ℕ)
  body : List Entry

structure Disk where
  file : Option VecFile
  blobs : ℕ → Blob

/-- Which operations on the storage work in a call, and the blob that a creation returns. -/
structure Env where
  alloc : Bool
  resize : Bool
  header : Bool
  body : Bool
  file : Bool
  read : Bool
  available : Bool
  create : Option ℕ

def Env.good : Env := ⟨true, true, true, true, true, true, true, some 1⟩

structure System where
  ready : Bool
  ix : Index
  useBlob : Bool
  blobId : ℕ
  disk : Disk

def System.entries (s : System) : List Entry := s.ix.rows.map Row.entry

def persistRamFallback (e : Env) (s : System) : System :=
  if e.alloc ∧ e.file then
    { s with disk := { s.disk with file := some (.image s.ix.rows.length s.entries) } }
  else s

def persistBlob (e : Env) (s : System) : System :=
  if s.useBlob = false ∨ s.blobId = 0 then persistRamFallback e s
  else if e.resize = false ∨ e.header = false then s
  else
    let hdr := some (s.ix.rows.length, s.ix.capacity)
    let blob : Blob := ⟨hdr, if e.body then s.entries else (s.disk.blobs s.blobId).body⟩
    { s with disk :=
      { file := if e.body ∧ e.file then some (.pointer s.blobId) else s.disk.file
        blobs := Function.update s.disk.blobs s.blobId blob } }

/-- Entries read back: their tags are cleared memory, for `rebuild_norm_cache` the default. -/
def loadRows (entries : List Entry) : List Row :=
  entries.map fun e => Row.cacheNorm ⟨e, nsCopy (some []), 0, 0, 0⟩

def loadFromVfs (e : Env) (ix : Index) (disk : Disk) : Option System :=
  if e.read = false then none
  else
    match disk.file with
    | none => none
    | some (.pointer id) =>
      if id = 0 ∨ e.available = false then none
      else
        match (disk.blobs id).hdr with
        | none => none
        | some (count, capacity) =>
          (ensureCapacity e.alloc (if capacity = 0 then count + 8 else capacity) ix).map fun ix =>
            ⟨true, { ix with rows := loadRows ((disk.blobs id).body.take count) }, true, id, disk⟩
    | some (.image count entries) =>
      (ensureCapacity e.alloc (count + 8) ix).map fun ix =>
        ⟨true, { ix with rows := loadRows (entries.take count) }, false, 0, disk⟩

def peakvecInit (e : Env) (disk : Disk) : System :=
  match ensureCapacity e.alloc 64 ⟨[], 0⟩ with
  | none => ⟨false, ⟨[], 0⟩, false, 0, disk⟩
  | some ix =>
    match loadFromVfs e ix disk with
    | some s => s
    | none =>
      match if e.available then e.create else none with
      | some id => persistBlob e ⟨true, ix, true, id, disk⟩
      | none => ⟨true, ix, false, 0, disk⟩

/-- An update that returns 0, with what it makes of the storage. -/
def System.update (e : Env) (c : Call) (s : System) : Option System :=
  if s.ready = false then none
  else (c.apply s.ix).map fun ix => persistBlob e { s with ix := ix }

inductive SysCall
  | update (e : Env) (c : Call)
  | reboot (e : Env)

def System.step (s : System) : SysCall → System
  | .update e c => (s.update e c).getD s
  | .reboot e => peakvecInit e s.disk

/-- A first boot, without a file or a blob. -/
def System.First (s : System) : Prop := ∃ e, s = peakvecInit e ⟨none, fun _ => ⟨none, []⟩⟩

/-- The same entries, and the same answer to every query. -/
structure Restored (before after : Index) : Prop where
  entries : ∀ b, b ∈ after.rows.map Row.binding ↔ b ∈ before.rows.map Row.binding
  hits : ∀ ns query topk, peakvecQuery ns query topk after = peakvecQuery ns query topk before

/-! ### Capacity -/

theorem le_doubled (need start k : ℕ) :
    min need (start * 2 ^ k) ≤ (fun nc => if nc < need then nc * 2 else nc)^[k] start := by
  induction k generalizing start with
  | zero => simp
  | succ k ih =>
    rw [Function.iterate_succ_apply]
    split_ifs with h
    · simpa [pow_succ, mul_assoc, mul_comm 2] using ih (start * 2)
    · refine le_trans ?_ (ih start)
      have := Nat.le_mul_of_pos_right start (Nat.two_pow_pos k)
      omega

variable {need : ℕ} {ix ix' : Index} {s : System} {e : Env} {disk : Disk}

theorem ensureCapacity_eq_some (ix : Index) (hneed : need ≤ maxEntries) :
    ∃ ix', ensureCapacity true need ix = some ix' ∧ ix'.rows = ix.rows := by
  simp only [ensureCapacity]
  split
  · exact ⟨ix, rfl, rfl⟩
  refine ⟨_, if_neg ?_, rfl⟩
  set start := if ix.capacity = 0 then 64 else ix.capacity * 2
  have hstart : 1 ≤ start := by
    simp only [start]
    split <;> omega
  have hle := le_doubled need start 32
  have : need ≤ start * 2 ^ 32 := hneed.trans (by rw [maxEntries]; omega)
  simp only [Bool.true_eq_false, or_false, not_lt]
  omega

theorem ensureCapacity_bounds {alloc : Bool}
    (hix : ix.capacity ≤ maxEntries) (h : ensureCapacity alloc need ix = some ix') :
    need ≤ ix'.capacity ∧ ix'.capacity ≤ maxEntries := by
  by_cases hle : need ≤ ix.capacity
  · rw [ensureCapacity, if_pos hle] at h
    cases h
    exact ⟨hle, hix⟩
  simp only [ensureCapacity, if_neg hle] at h
  generalize (fun nc => if nc < need then nc * 2 else nc)^[32] _ = nc at h
  split_ifs at h with hfail
  cases h
  simp only [not_or, not_lt] at hfail
  exact ⟨hfail.1, min_le_right _ _⟩

/-! ### The invariant -/

structure Index.Ok (ix : Index) : Prop where
  room : ix.rows.length ≤ ix.capacity
  limit : ix.capacity ≤ maxEntries
  cached : ∀ r ∈ ix.rows, r.Cached

def Disk.Ok (d : Disk) : Prop :=
  ∀ id count capacity, (d.blobs id).hdr = some (count, capacity) → count ≤ capacity

structure System.Ok (s : System) : Prop where
  ix : s.ix.Ok
  disk : s.disk.Ok

theorem loadRows_ok (hix : ix.capacity ≤ maxEntries) {entries : List Entry} {count : ℕ}
    (hcount : count ≤ ix.capacity) :
    Index.Ok { ix with rows := loadRows (entries.take count) } where
  room := by simp only [loadRows, length_map, length_take]; omega
  limit := hix
  cached := by
    simp only [loadRows, List.forall_mem_map]
    exact fun _ _ => rfl

theorem persistBlob_ok (h : s.Ok) (e : Env) : (persistBlob e s).Ok := by
  simp only [persistBlob, persistRamFallback]
  split
  · split
    · exact ⟨h.ix, h.disk⟩
    · exact h
  split
  · exact h
  refine ⟨h.ix, fun id count capacity hid => ?_⟩
  rcases eq_or_ne id s.blobId with rfl | hne
  · simp only [Function.update_self, some.injEq, Prod.mk.injEq] at hid
    have := h.ix.room
    omega
  · simp only [Function.update_of_ne hne] at hid
    exact h.disk id count capacity hid

theorem loadFromVfs_ok (hdisk : disk.Ok)
    (hix : ix.capacity ≤ maxEntries) (h : loadFromVfs e ix disk = some s) : s.Ok := by
  simp only [loadFromVfs] at h
  split_ifs at h
  split at h
  · cases h
  · split_ifs at h
    split at h
    · cases h
    rename_i hhdr
    obtain ⟨ix', hgrow, rfl⟩ := map_eq_some_iff.1 h
    obtain ⟨hneed, hlimit⟩ := ensureCapacity_bounds hix hgrow
    have := hdisk _ _ _ hhdr
    exact ⟨loadRows_ok hlimit (by split_ifs at hneed <;> omega), hdisk⟩
  obtain ⟨ix', hgrow, rfl⟩ := map_eq_some_iff.1 h
  obtain ⟨hneed, hlimit⟩ := ensureCapacity_bounds hix hgrow
  exact ⟨loadRows_ok hlimit (by omega), hdisk⟩

theorem peakvecInit_ok (hdisk : disk.Ok) (e : Env) : (peakvecInit e disk).Ok := by
  rw [peakvecInit]
  split
  · exact ⟨⟨le_rfl, Nat.zero_le _, by simp⟩, hdisk⟩
  rename_i ix hix
  obtain ⟨-, hlimit⟩ := ensureCapacity_bounds (Nat.zero_le _) hix
  have hrows : ix.rows = [] := ensureCapacity_rows hix
  have hok : ix.Ok := ⟨by simp [hrows], hlimit, by simp [hrows]⟩
  split
  · exact loadFromVfs_ok hdisk hlimit ‹_›
  split
  · exact persistBlob_ok ⟨hok, hdisk⟩ e
  · exact ⟨hok, hdisk⟩

/-- A call adds at most one row, and its rows are old ones or of its namespace. -/
theorem apply_ok {c : Call} (h : ix.Ok) (hc : c.apply ix = some ix') :
    ix'.Ok ∧ ix'.rows.length ≤ ix.rows.length + 1 ∧ ∀ r ∈ ix'.rows, (∃ r' ∈ ix.rows, r.ns = r'.ns) ∨
        ∃ caps alloc ns key vec info, c = .upsert caps alloc ns key vec info ∧
          r.ns = nsCopy (some (nsCopy ns)) := by
  cases c with
  | upsert caps alloc ns key vec info =>
    simp only [Call.apply, peakvecUpsert] at hc
    split_ifs at hc
    split at hc
    next i hfind =>
      cases hc
      obtain ⟨hi, -⟩ := findIdx?_eq_some_iff_getElem.1 hfind
      rw [modify_eq_set_get _ hi]
      have hmem : ∀ r ∈ ix.rows.set i ((ix.rows.get ⟨i, hi⟩).assign vec info),
          r ∈ ix.rows ∨ r = (ix.rows.get ⟨i, hi⟩).assign vec info :=
        fun r hr => mem_or_eq_of_mem_set hr
      refine ⟨⟨by simpa using h.room, h.limit, fun r hr => ?_⟩, by simp, fun r hr => .inl ?_⟩
      · rcases hmem r hr with hr | rfl
        · exact h.cached r hr
        · rfl
      rcases hmem r hr with hr | rfl
      · exact ⟨r, hr, rfl⟩
      · exact ⟨_, List.get_mem _ _, rfl⟩
    · obtain ⟨grown, hgrow, rfl⟩ := map_eq_some_iff.1 hc
      obtain ⟨hneed, hlimit⟩ := ensureCapacity_bounds h.limit hgrow
      rw [ensureCapacity_rows hgrow]
      refine ⟨⟨by simpa using hneed, hlimit, fun r hr => ?_⟩, by simp, fun r hr => ?_⟩
      · rcases mem_append.1 hr with hr | hr
        · exact h.cached r hr
        · rw [mem_singleton.1 hr]
          rfl
      rcases mem_append.1 hr with hr | hr
      · exact .inl ⟨r, hr, rfl⟩
      · rw [mem_singleton.1 hr]
        exact .inr ⟨_, _, _, _, _, _, rfl, rfl⟩
  | delete ns key =>
    obtain ⟨i, hfind, rfl⟩ := map_eq_some_iff.1 hc
    obtain ⟨hi, -⟩ := findIdx?_eq_some_iff_getElem.1 hfind
    have hperm := swapRemove_perm hi
    have hsub : swapRemove ix.rows i ⊆ ix.rows := fun r hr => eraseIdx_subset (hperm.subset hr)
    have hlen : (swapRemove ix.rows i).length ≤ ix.rows.length :=
      hperm.length_eq.trans_le (eraseIdx_sublist ..).length_le
    exact ⟨⟨hlen.trans h.room, h.limit, fun r hr => h.cached r (hsub hr)⟩, by simp only; omega,
      fun r hr => .inl ⟨r, hsub hr, rfl⟩⟩

theorem ok_of_reach (h : Reach System.First (fun _ _ => True) System.step s) : s.Ok := by
  refine h.invariant System.Ok ?_ fun s c hs _ => ?_
  · rintro _ ⟨e, rfl⟩
    exact peakvecInit_ok (fun _ _ _ hid => by cases hid) e
  cases c with
  | update e c =>
    rw [System.step, System.update]
    split_ifs
    · exact hs
    · cases hc : c.apply s.ix with
      | none => exact hs
      | some ix =>
        exact persistBlob_ok (s := { s with ix := ix }) ⟨(apply_ok hs.ix hc).1, hs.disk⟩ e
  | reboot e => exact peakvecInit_ok hs.disk e

/-! ### What comes back -/

/-- The writes of a call work. -/
def Env.Writes (e : Env) : Prop :=
  e.alloc = true ∧ e.resize = true ∧ e.header = true ∧ e.body = true ∧ e.file = true

/-- A boot can read what was written. -/
def Env.Reads (e : Env) : Prop := e.alloc = true ∧ e.read = true ∧ e.available = true

/-- The call keeps the index in the default namespace. -/
def Call.InDefault (c : Call) : Prop :=
  ∀ caps alloc ns key vec info, c = .upsert caps alloc ns key vec info → nsName ns = nsDefault

/-- Rows of the default namespace with their caches are read back as they were. -/
theorem loadRows_entries {rows : List Row} (hns : ∀ r ∈ rows, r.ns = nsDefault)
    (hcached : ∀ r ∈ rows, r.Cached) : loadRows (rows.map Row.entry) = rows := by
  rw [loadRows, List.map_map]
  refine (map_congr_left fun r hr => ?_).trans (List.map_id rows)
  show Row.cacheNorm ⟨r.entry, nsDefault, 0, 0, 0⟩ = r
  rw [← hns r hr]
  exact hcached r hr

/-- A boot that can read loads what `persist_blob` wrote. -/
theorem init_persistBlob (hix : s.ix.Ok) (hns : ∀ r ∈ s.ix.rows, r.ns = nsDefault)
    {boot : Env} (he : e.Writes) (hboot : boot.Reads)
    (hroom : s.useBlob = true ∧ s.blobId ≠ 0 ∨ s.ix.rows.length + 8 ≤ maxEntries) :
    (peakvecInit boot (persistBlob e s).disk).ix.rows = s.ix.rows := by
  obtain ⟨halloc, hresize, hheader, hbody, hfile⟩ := he
  obtain ⟨hballoc, hread, havail⟩ := hboot
  have hload := loadRows_entries hns hix.cached
  have hfirst : ensureCapacity true 64 ⟨[], 0⟩ = some ⟨[], 64⟩ := by decide
  have htake : s.entries.take s.ix.rows.length = s.entries :=
    take_of_length_le (by simp [System.entries])
  rw [peakvecInit, hballoc, hfirst]
  simp only [loadFromVfs, hread, Bool.true_eq_false, if_false, havail, hballoc]
  rw [persistBlob]
  by_cases hblob : s.useBlob = false ∨ s.blobId = 0
  · have hcount : s.ix.rows.length + 8 ≤ maxEntries := by
      rcases hroom with ⟨hu, hid⟩ | hcount
      · simp [hu, hid] at hblob
      · exact hcount
    obtain ⟨ix', hgrow, -⟩ := ensureCapacity_eq_some ⟨[], 64⟩ hcount
    rw [if_pos hblob, persistRamFallback, if_pos ⟨halloc, hfile⟩]
    simp only [hgrow, map_some, htake]
    exact hload
  obtain ⟨-, hid⟩ := not_or.1 hblob
  rw [if_neg hblob, if_neg (by simp [hresize, hheader])]
  simp only [hbody, hfile, and_self, if_true, Function.update_self, hid, or_false, if_false]
  have hneed :
      (if s.ix.capacity = 0 then s.ix.rows.length + 8 else s.ix.capacity) ≤ maxEntries := by
    have h1 := hix.room
    have h2 := hix.limit
    split
    · rw [maxEntries] at *; omega
    · exact h2
  obtain ⟨ix', hgrow, -⟩ := ensureCapacity_eq_some ⟨[], 64⟩ hneed
  simp only [hgrow, map_some, htake]
  exact hload

/-- **What a reboot restores.** In every reachable state whose entries are all in the default
namespace, and with less than `PEAKVEC_MAX_ENTRIES - 8` of them unless there is a blob: after a
successful call that is for the default namespace, and whose writes work, a boot that can read
brings back the same entries, and the same answers to queries. -/
theorem restored {s s' : System} (h : Reach System.First (fun _ _ => True) System.step s)
    {c : Call} {e boot : Env} (hc : s.update e c = some s')
    (hns : ∀ r ∈ s.ix.rows, r.ns = nsDefault) (hdef : c.InDefault)
    (hroom : s.useBlob = true ∧ s.blobId ≠ 0 ∨ s.ix.rows.length + 8 < maxEntries)
    (he : e.Writes) (hboot : boot.Reads) :
    Restored s'.ix (peakvecInit boot s'.disk).ix := by
  rw [System.update] at hc
  split_ifs at hc
  obtain ⟨ix, hix, rfl⟩ := map_eq_some_iff.1 hc
  obtain ⟨hok, hlen, hrows⟩ := apply_ok (ok_of_reach h).ix hix
  have hdefault : ∀ r ∈ ix.rows, r.ns = nsDefault := by
    intro r hr
    rcases hrows r hr with ⟨r', hr', heq⟩ | ⟨caps, alloc, ns, key, vec, info, rfl, heq⟩
    · rw [heq, hns r' hr']
    · rw [heq, nsCopy, nsCopy, hdef _ _ _ _ _ _ rfl]
      decide
  have hback : (peakvecInit boot (persistBlob e { s with ix := ix }).disk).ix.rows = ix.rows :=
    init_persistBlob (s := { s with ix := ix }) hok hdefault he hboot
      (hroom.imp_right fun hlt => by simp only; omega)
  have hsame : (persistBlob e { s with ix := ix }).ix = ix := by
    rw [persistBlob, persistRamFallback]
    split_ifs <;> rfl
  rw [hsame]
  exact ⟨fun b => by rw [hback], fun ns query topk => by simp only [peakvecQuery, hback]⟩

/-- The first boot, and an upsert to a namespace. -/
def firstBoot : System := peakvecInit .good ⟨none, fun _ => ⟨none, []⟩⟩

def upsertIn (ns : Option Str) (key : UInt8) : Call :=
  .upsert true true ns [key] (.replicate 64 1) none

/-- Two entries, a reboot, and a third. -/
def threeEntries : System :=
  [.update .good (upsertIn none 120), .update .good (upsertIn none 121), .reboot .good,
    .update .good (upsertIn none 122)].foldl System.step firstBoot

theorem restored_threeEntries :
    ∃ s', threeEntries.update .good (.delete none [121]) = some s' ∧
      s'.ix.rows.map (·.entry.key) = [[120], [122]] ∧
      Restored s'.ix (peakvecInit .good s'.disk).ix := by
  have hreach : Reach System.First (fun _ _ => True) System.step threeEntries :=
    Reach.calls (.start ⟨.good, rfl⟩) _ (allowedFrom_true ..)
  have hkeys : (threeEntries.update .good (.delete none [121])).map
      (fun s => s.ix.rows.map (·.entry.key)) = some [[120], [122]] := by decide +kernel
  obtain ⟨s', hs', hkeys⟩ := map_eq_some_iff.1 hkeys
  refine ⟨s', hs', hkeys, restored hreach hs' (by decide +kernel) ?_ (.inr (by decide +kernel))
    ⟨rfl, rfl, rfl, rfl, rfl⟩ ⟨rfl, rfl, rfl⟩⟩
  rintro _ _ _ _ _ _ h
  cases h

/-- With storage that works, an entry of the namespace `b` comes back as one of `agent`. -/
theorem namespace_lost : ¬ ∀ s, Reach System.First (fun _ _ => True) System.step s →
    ∀ c s', s.update .good c = some s' → Restored s'.ix (peakvecInit .good s'.disk).ix := by
  intro hall
  have h := (hall firstBoot (.start ⟨.good, rfl⟩) (upsertIn (some [98]) 120) _ rfl).entries
    (([98], [120]), .replicate 64 1, [])
  exact absurd (h.2 (by decide +kernel)) (by decide +kernel)

end PeakOs.PeakVec
