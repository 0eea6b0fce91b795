import PeakOs.Blobstore.Contents
import PeakOs.Vfs.SharingRun

/-!
# A file is a byte array

A file of `kernel/vfs.c` has its bytes in a heap buffer or in an object of the blob store. Seen
through `vfs_read_at` and `vfs_write_at` both are to be the same thing: an array of bytes that grows
when it is written past its end, with zeros in the gap.

The two go different ways in the code, and break in different places.

* Both add an offset and a length without looking at the carry. A read at an offset within the file
  whose sum wraps is not cut to the size of the file; a write whose sum wraps gets a buffer of the
  wrapped size.
* The pages of an object are not cleared when it is created or grows. What nobody wrote has the
  bytes of whoever had the pages before.

## Main results

* `HeapFile.writeNode`, `BlobFile.writeNode` — one write
* `answers_of_run` — every run
* `gap_shows_deleted` — a gap with the bytes of a deleted object
-/

namespace PeakOs.Vfs

open Blobstore (Io NoWrap Consistent findObj Sys)
open Function List

/-- The blob store, as the file system calls it. -/
def blobApi (io : Io) : BlobApi Blobstore.Store where
  available := Blobstore.blobstoreAvailable io
  create size s :=
    let r := Blobstore.blobstoreCreate io (UInt64.ofNat size) s
    (r.1.map UInt32.toNat, r.2)
  read id off len :=
    Blobstore.blobstoreRead io (UInt32.ofNat id) (UInt64.ofNat off) (UInt64.ofNat len)
  write id off bytes := Blobstore.blobstoreWrite io (UInt32.ofNat id) (UInt64.ofNat off) bytes

def vfsReadFile {B : Type} (api : BlobApi B) (path : Path) (len : ℕ) (s : State B) :
    Except PeakErr (List UInt8) × State B :=
  vfsReadAt api path 0 len s

/-! ### Byte arrays -/

/-- `bytes` at `off` in an array that grows; a gap is filled with zeros. -/
def putAt (a : List UInt8) (off : ℕ) (bytes : List UInt8) : List UInt8 :=
  a.take off ++ List.replicate (off - a.length) 0 ++ bytes ++ a.drop (off + bytes.length)

@[simp] theorem length_putAt (a : List UInt8) (off : ℕ) (bytes : List UInt8) :
    (putAt a off bytes).length = max a.length (off + bytes.length) := by
  simp only [putAt, length_append, length_take, length_replicate, length_drop]
  omega

variable {bytes : List UInt8} {off len : ℕ} {io : Io} {path : Path}

theorem overwrite_eq_putAt {a : List UInt8} (h : off + bytes.length ≤ a.length) :
    overwrite a off bytes = putAt a off bytes := by
  rw [overwrite, putAt, Nat.sub_eq_zero_of_le (by omega), replicate_zero, append_nil]

/-- The buffer of a file that grows. -/
theorem overwrite_grown {a : List UInt8} (h : a.length ≤ off + bytes.length) :
    overwrite (a ++ replicate (off + bytes.length - a.length) 0) off bytes =
      putAt a off bytes := by
  have hlen : (a ++ replicate (off + bytes.length - a.length) (0 : UInt8)).length =
      off + bytes.length := by
    rw [length_append, length_replicate]
    omega
  rw [overwrite, putAt, drop_eq_nil_of_le hlen.le, drop_eq_nil_of_le h, take_append,
    take_replicate, min_eq_left (by omega)]

/-- Without a gap, the new array byte by byte. -/
theorem getElem?_putAt {a : List UInt8} {k : ℕ} (h : off ≤ a.length) : (putAt a off bytes)[k]? =
      if off ≤ k ∧ k < off + bytes.length then bytes[k - off]? else a[k]? := by
  have hlen : (a.take off).length = off := length_take_of_le h
  rw [putAt, Nat.sub_eq_zero_of_le h, replicate_zero, append_nil]
  by_cases hlt : k < off
  · rw [if_neg (by omega), append_assoc, getElem?_append_left (by omega), getElem?_take_of_lt hlt]
  by_cases hin : k < off + bytes.length
  · rw [if_pos ⟨by omega, hin⟩, append_assoc, getElem?_append_right (by omega), hlen,
      getElem?_append_left (by omega)]
  rw [if_neg (by omega), getElem?_append_right (by rw [length_append, hlen]; omega), getElem?_drop,
    length_append]
  congr 1
  omega

/-! ### Files in the heap -/

section Heap

variable {B : Type} {s : State B} {f : ℕ} {a : List UInt8}

/-- Node `f` is a file in the heap with the contents `a`. -/
structure HeapFile (s : State B) (f : ℕ) (a : List UInt8) : Prop where
  heap : (s.nodes f).blobId = 0
  size : (s.nodes f).size = a.length
  capacity : (s.nodes f).capacity = a.length
  data : ((s.nodes f).data.map s.bufs).getD [] = a

section

variable (h : HeapFile s f a)
include h

theorem HeapFile.setErr (e : VfsError) : HeapFile (s.setErr e) f a :=
  ⟨h.heap, h.size, h.capacity, h.data⟩

/-- A read that is cut to the size of the file. -/
theorem HeapFile.readNode (api : BlobApi B) {off len : ℕ}
    (hcut : a.length ≤ off ∨ off + len < 2 ^ 64) :
    (readNode api f off len s).1 = .ok ((a.drop off).take len) ∧
      ∃ fault, (readNode api f off len s).2 = { s with heapFault := fault } ∧
        (s.heapFault = false → fault = false) := by
  rw [Vfs.readNode]
  dsimp only
  rw [h.size, if_neg (not_not.2 h.heap)]
  by_cases hoff : a.length ≤ off
  · rw [if_pos hoff, drop_eq_nil_of_le hoff, take_nil]
    exact ⟨rfl, s.heapFault, rfl, id⟩
  rw [if_neg hoff]
  have hwrap := hcut.resolve_left hoff
  rw [Nat.mod_eq_of_lt hwrap]
  have hdata := h.data
  rcases hd : (s.nodes f).data with _ | buf
  · rw [hd] at hdata
    rw [← hdata] at hoff
    exact absurd (Nat.zero_le off) hoff
  rw [hd] at hdata
  replace hdata : s.bufs buf = a := hdata
  have hcopy : ∀ n, off + n ≤ a.length → s.heapFault = false →
      (s.heapFault || decide (a.length < off + n)) = false := by
    intro n hn hfault
    rw [hfault, Bool.false_or, decide_eq_false_iff_not]
    omega
  dsimp only
  rw [hdata]
  split
  · refine ⟨?_, _, rfl, hcopy _ (by omega)⟩
    rw [← length_drop, take_length, take_of_length_le]
    rw [length_drop]
    omega
  · exact ⟨rfl, _, rfl, hcopy _ (by omega)⟩

/-- The growing step of a write: a buffer with room for `need` bytes. -/
theorem HeapFile.growNode (need : ℕ) : let t := growNode f need s
    t.1 = false ∧ HeapFile t.2 f a ∧ t.2.heapFault = s.heapFault ∨
      t.1 = true ∧ t.2.heapFault = s.heapFault ∧ ∃ buf, (t.2.nodes f).data = some buf ∧
        t.2.bufs buf = a ++ replicate (need - a.length) 0 ∧ t.2.nodes = update s.nodes f
          { s.nodes f with data := some buf, capacity := max a.length need } := by
  dsimp only
  rw [Vfs.growNode]
  split
  next hgrow =>
    have hbytes : grownBytes ((s.nodes f).data.map s.bufs) (s.nodes f).size need =
        a ++ replicate (need - a.length) 0 := by rw [grownBytes, h.data, h.size, take_length]
    have hneed : a.length ≤ need := by
      rcases hgrow with hlt | hnone
      · rw [h.capacity] at hlt
        exact hlt.le
      have hdata := h.data
      rw [hnone] at hdata
      rw [← hdata]
      exact Nat.zero_le _
    rw [hbytes, kmalloc]
    by_cases hoom : s.oom s.nextBuf = true
    · rw [if_pos hoom]
      exact .inl ⟨rfl, ⟨h.heap, h.size, h.capacity, h.data⟩, rfl⟩
    rw [if_neg hoom]
    dsimp only
    rw [kfree_eq]
    refine .inr ⟨rfl, rfl, s.nextBuf, ?_, update_self .., ?_⟩
    · simp only [State.setNode, update_self]
    · rw [State.setNode, max_eq_right hneed]
  next hkeep =>
    rw [not_or, h.capacity, Nat.not_lt] at hkeep
    obtain ⟨buf, hbuf⟩ := Option.ne_none_iff_exists'.1 hkeep.2
    have hdata := h.data
    rw [hbuf] at hdata
    replace hdata : s.bufs buf = a := hdata
    refine .inr ⟨rfl, rfl, buf, hbuf, ?_, ?_⟩
    · rw [hdata, Nat.sub_eq_zero_of_le hkeep.1, replicate_zero, append_nil]
    · rw [max_eq_left hkeep.1, ← hbuf, ← h.capacity, update_eq_self]

/-- **A write to the heap.** -/
theorem HeapFile.writeNode (api : BlobApi B) {off : ℕ} {bytes : List UInt8}
    (hwrap : off + bytes.length < 2 ^ 64) :
    let t := writeNode api f off bytes s
    ((∃ e, t.1 = .error e) ∧ HeapFile t.2 f a ∨ t.1 = .ok () ∧ HeapFile t.2 f (putAt a off bytes)) ∧
      (s.heapFault = false → t.2.heapFault = false) := by
  dsimp only
  rw [Vfs.writeNode, if_neg (not_not.2 h.heap)]
  dsimp only
  rw [Nat.mod_eq_of_lt hwrap]
  have hgrow := h.growNode (off + bytes.length)
  generalize Vfs.growNode f (off + bytes.length) s = res at hgrow
  rcases res with ⟨_ | _, t⟩
  · rcases hgrow with ⟨-, hfile, hfault⟩ | ⟨hfalse, -⟩
    · exact ⟨.inl ⟨⟨_, rfl⟩, hfile⟩, fun hs => hfault.trans hs⟩
    · cases hfalse
  rcases hgrow with ⟨htrue, -⟩ | ⟨-, hfault, buf, hbuf, hbytes, hnodes⟩
  · cases htrue
  dsimp only at hfault hbuf hbytes hnodes ⊢
  have hnew : overwrite (t.bufs buf) off bytes = putAt a off bytes := by
    rw [hbytes]
    rcases le_total (off + bytes.length) a.length with hle | hle
    · rw [Nat.sub_eq_zero_of_le hle, replicate_zero, append_nil, overwrite_eq_putAt hle]
    · exact overwrite_grown hle
  have hroom : ¬ (t.bufs buf).length < off + bytes.length := by
    rw [hbytes, length_append, length_replicate]
    omega
  rw [copyInto, hbuf]
  refine ⟨.inr ⟨rfl, ?_⟩, fun hs => ?_⟩
  · rw [← hnew]
    refine HeapFile.mk (s := (extendTo f _ _).markDirty) ?_ ?_ ?_ ?_
    all_goals
      simp only [extendTo, State.setNode, State.markDirty, update_self, hnodes, h.heap, h.size]
    · rw [hnew, length_putAt]
      split <;> omega
    · rw [hnew, length_putAt]
    · rw [Option.map_some, Option.getD_some, update_self]
  show (t.heapFault || decide ((t.bufs buf).length < off + bytes.length)) = false
  rw [hfault, hs, Bool.false_or, decide_eq_false_iff_not]
  exact hroom

end

end Heap

/-! ### Files in the blob store -/

section Blob

variable {s : State Blobstore.Store} {f : ℕ} {a : List UInt8} {σ : Sys} {v : Blobstore.View}
  {id : UInt32} {i : Blobstore.ObjIx}

/-- Node `f` is a file in the blob store with the contents `a`, all of which were written. -/
structure BlobFile (s : State Blobstore.Store) (f : ℕ) (a : List UInt8) (σ : Sys)
    (v : Blobstore.View) (id : UInt32) (i : Blobstore.ObjIx) : Prop where
  store : s.blobs = σ.store
  consistent : Consistent σ v
  blobId : (s.nodes f).blobId = id.toNat
  nonzero : id.toNat ≠ 0
  found : findObj id σ.store = some i
  size : (s.nodes f).size = a.length
  objSize : (σ.store.objects i).size.toNat = a.length
  written : ∀ k < a.length, σ.written id k = a[k]?

section

variable (h : BlobFile s f a σ v id i)
include h

theorem BlobFile.setErr (e : VfsError) : BlobFile (s.setErr e) f a σ v id i :=
  ⟨h.store, h.consistent, h.blobId, h.nonzero, h.found, h.size, h.objSize, h.written⟩

theorem BlobFile.length_lt : a.length < 2 ^ 32 := by
  rw [← h.objSize]
  exact UInt32.toNat_lt _

/-- A call that moves pages of the cache only. -/
theorem BlobFile.cached {s' : Blobstore.Store} {v' : Blobstore.View}
    (hsame : Blobstore.SameMeta σ.store s') (hv : Consistent ⟨s', σ.written⟩ v') :
    BlobFile { s with blobs := s' } f a ⟨s', σ.written⟩ v' id i := by
  refine ⟨rfl, hv, h.blobId, h.nonzero, ?_, h.size, ?_, h.written⟩
  · rw [Blobstore.findObj_congr (s := σ.store) fun k => by rw [hsame.objects]; exact ⟨rfl, rfl⟩]
    exact h.found
  · dsimp only
    rw [hsame.objects]
    exact h.objSize

/-- A read of the object gives the bytes of the file. -/
theorem BlobFile.blobstoreRead {io : Io} (hio : io.Working) (off n : UInt64)
    (hin : off.toNat + n.toNat ≤ a.length) :
    ∃ s' v', Blobstore.blobstoreRead io id off n σ.store =
        (some ((a.drop off.toNat).take n.toNat), s') ∧
      BlobFile { s with blobs := s' } f a ⟨s', σ.written⟩ v' id i := by
  have hscope : off.toNat + n.toNat < 2 ^ 32 := hin.trans_lt h.length_lt
  obtain ⟨bytes, hread, hcount, hbytes⟩ :=
    h.consistent.readsBack io hio id off n hscope i h.found
  obtain ⟨v', hv'⟩ : ∃ v', Consistent ⟨(Blobstore.blobstoreRead io id off n σ.store).2,
      σ.written⟩ v' :=
    h.consistent.step (e := (io, .read id off n))
      ⟨hscope, (Option.all_eq_true ..).2 fun _ _ => hio.sparesRead ..⟩ trivial
  have heq : bytes = (a.drop off.toNat).take n.toNat := by
    rw [h.objSize] at hcount
    refine ext_getElem? fun k => ?_
    by_cases hk : k < n.toNat
    · have hlt : off.toNat + k < a.length := by omega
      rw [getElem?_take_of_lt hk, getElem?_drop]
      have hw := h.written (off.toNat + k) hlt
      rw [getElem?_eq_getElem hlt] at hw ⊢
      exact hbytes k _ (by omega) hw
    rw [getElem?_eq_none (by omega), getElem?_eq_none]
    rw [length_take, length_drop]
    omega
  refine ⟨_, v', Prod.ext (hread.trans (congrArg some heq)) rfl, h.cached ?_ hv'⟩
  exact Blobstore.sameMeta_blobstoreRead io id off n σ.store

/-- A read that is cut to the size of the file. -/
theorem BlobFile.readNode {io : Io} (hio : io.Working) {off len : ℕ}
    (hcut : a.length ≤ off ∨ off + len < 2 ^ 64) :
    let t := readNode (blobApi io) f off len s
    t.1 = .ok ((a.drop off).take len) ∧ (∃ σ' v', BlobFile t.2 f a σ' v' id i) ∧
      t.2.heapFault = s.heapFault := by
  dsimp only
  have hlen := h.length_lt
  rw [Vfs.readNode]
  dsimp only
  rw [h.size, h.blobId, if_pos h.nonzero]
  by_cases hoff : a.length ≤ off
  · rw [if_pos hoff, drop_eq_nil_of_le hoff, take_nil]
    exact ⟨rfl, ⟨σ, v, h⟩, rfl⟩
  rw [if_neg hoff, Nat.mod_eq_of_lt (hcut.resolve_left hoff)]
  have hmin : (if a.length < off + len then a.length - off else len) =
      min len (a.length - off) := by
    split <;> omega
  rw [hmin, take_eq_take_min, length_drop]
  set n := min len (a.length - off) with hn
  have hoff' : (UInt64.ofNat off).toNat = off := by
    rw [UInt64.toNat_ofNat']
    omega
  have hn' : (UInt64.ofNat n).toNat = n := by
    rw [UInt64.toNat_ofNat']
    omega
  obtain ⟨s', v', hread, hfile⟩ := h.blobstoreRead hio (.ofNat off) (.ofNat n) (by omega)
  have hapi : (blobApi io).read id.toNat off n s.blobs =
      Blobstore.blobstoreRead io id (UInt64.ofNat off) (UInt64.ofNat n) σ.store := by
    show Blobstore.blobstoreRead io (UInt32.ofNat id.toNat) _ _ s.blobs = _
    rw [UInt32.ofNat_toNat, h.store]
  rw [hapi, hread, hoff', hn']
  exact ⟨rfl, ⟨_, v', hfile⟩, rfl⟩

/-- **A write to the blob store** that leaves no gap. -/
theorem BlobFile.writeNode {io : Io} (hio : io.Working) {off : ℕ}
    {bytes : List UInt8} (hwrap : off + bytes.length < 2 ^ 64) (hgap : off ≤ a.length)
    (hpages : NoWrap s.blobs (UInt64.ofNat off + UInt64.ofNat bytes.length)) :
    let t := writeNode (blobApi io) f off bytes s
    ((∃ e, t.1 = .error e) ∧ BlobFile t.2 f a σ v id i ∨
      t.1 = .ok () ∧ ∃ σ' v', BlobFile t.2 f (putAt a off bytes) σ' v' id i) ∧
    t.2.heapFault = s.heapFault := by
  dsimp only
  have hoff : (UInt64.ofNat off).toNat = off := by
    rw [UInt64.toNat_ofNat']
    omega
  have hapi : (blobApi io).write id.toNat off bytes s.blobs =
      Blobstore.blobstoreWrite io id (UInt64.ofNat off) bytes σ.store := by
    show Blobstore.blobstoreWrite io (UInt32.ofNat id.toNat) _ _ s.blobs = _
    rw [UInt32.ofNat_toNat, h.store]
  rw [Vfs.writeNode, h.blobId, if_pos h.nonzero, hapi]
  rw [h.store] at hpages
  rcases h.consistent.write_cases h.found (hio.sparesWrite ..) (by rwa [hoff]) hpages with
    heq | ⟨s', v', heq, hcons, hfind, hsize⟩
  · rw [heq]
    exact ⟨.inl ⟨⟨_, rfl⟩, rfl, h.consistent, h.blobId, h.nonzero, h.found, h.size, h.objSize,
      h.written⟩, rfl⟩
  rw [heq]
  rw [hoff] at hcons hsize
  refine ⟨.inr ⟨rfl, _, v', rfl, hcons, ?_, h.nonzero, hfind, ?_, ?_, fun k hk => ?_⟩, rfl⟩
  · simp only [extendTo, State.setNode, State.markDirty, update_self, h.blobId]
  · simp only [extendTo, State.setNode, State.markDirty, update_self, h.size,
      Nat.mod_eq_of_lt hwrap, length_putAt]
    split <;> omega
  · rw [length_putAt, ← h.objSize]
    exact hsize
  dsimp only
  rw [update_self, Blobstore.record, getElem?_putAt hgap]
  split
  · rfl
  next hout =>
    rw [length_putAt] at hk
    exact h.written k (by omega)

end

end Blob

/-! ### Runs -/

/-- A file system, and what one of its files is to contain. -/
structure File where
  fs : State Blobstore.Store
  contents : List UInt8

inductive FileCall
  | readAt (off len : UInt64)
  | readFile (len : UInt64)
  | writeAt (off : UInt64) (bytes : List UInt8)

structure Request where
  io : Io
  path : Path
  call : FileCall

/-- A write that fails is to have no effect. -/
def File.step (x : File) (r : Request) : File :=
  match r.call with
  | .readAt off len => ⟨(vfsReadAt (blobApi r.io) r.path off.toNat len.toNat x.fs).2, x.contents⟩
  | .readFile len => ⟨(vfsReadFile (blobApi r.io) r.path len.toNat x.fs).2, x.contents⟩
  | .writeAt off bytes =>
    let w := vfsWriteAt (blobApi r.io) r.path off.toNat bytes x.fs
    ⟨w.2, match w.1 with
      | .error _ => x.contents
      | .ok _ => putAt x.contents off.toNat bytes⟩

/-- The call returns what the byte array has, and stays in the buffer of the file. -/
def File.Answers (x : File) (r : Request) : Prop :=
  (x.step r).fs.heapFault = false ∧
    match r.call with
    | .readAt off len => (vfsReadAt (blobApi r.io) r.path off.toNat len.toNat x.fs).1 =
        .ok ((x.contents.drop off.toNat).take len.toNat)
    | .readFile len => (vfsReadFile (blobApi r.io) r.path len.toNat x.fs).1 =
        .ok (x.contents.take len.toNat)
    | .writeAt _ _ => True

/-- Node `f` is a new object of `size` bytes in a blob store that has been used before. -/
def NewBlob (s : State Blobstore.Store) (f size : ℕ) : Prop :=
  ∃ σ id i, Reach Sys.Start (fun σ e => Blobstore.InScope σ e ∧ Blobstore.Fresh σ e) Sys.step σ ∧
    s.blobs = σ.store ∧ (s.nodes f).blobId = id.toNat ∧ id.toNat ≠ 0 ∧
    findObj id σ.store = some i ∧ (s.nodes f).size = size ∧
    (σ.store.objects i).size.toNat = size ∧ σ.written id = fun _ => none

/-- A file in the heap, or a new one in the blob store, with zeros. -/
def File.Start (f : ℕ) (x : File) : Prop :=
  (x.fs.nodes f).type = some .file ∧ x.fs.heapFault = false ∧
    (HeapFile x.fs f x.contents ∨
      ∃ size, NewBlob x.fs f size ∧ x.contents = List.replicate size 0)

/-- The call is for node `f`. -/
def OnFile (f : ℕ) (x : File) (r : Request) : Prop := x.fs.opens r.path = some f

/-- No sum wraps; for a file in the blob store the device works, and no write leaves a gap. -/
def Plain (f : ℕ) (x : File) (r : Request) : Prop :=
  ((x.fs.nodes f).blobId ≠ 0 → r.io.Working) ∧
    match r.call with
    | .readAt off len => (x.fs.nodes f).size ≤ off.toNat ∨ off.toNat + len.toNat < 2 ^ 64
    | .readFile _ => True
    | .writeAt off bytes => off.toNat + bytes.length < 2 ^ 64 ∧
      ((x.fs.nodes f).blobId ≠ 0 → off.toNat ≤ (x.fs.nodes f).size ∧
        NoWrap x.fs.blobs (off + UInt64.ofNat bytes.length))

/-- A new file in the blob store is empty. -/
def File.PlainStart (f : ℕ) (x : File) : Prop :=
  x.Start f ∧ ((x.fs.nodes f).blobId ≠ 0 → (x.fs.nodes f).size = 0)

/-- The file has the contents it is to have, wherever it is. -/
structure Holds (f : ℕ) (s : State Blobstore.Store) (a : List UInt8) : Prop where
  type : (s.nodes f).type = some .file
  fault : s.heapFault = false
  file : HeapFile s f a ∨ ∃ σ v id i, BlobFile s f a σ v id i

variable {f : ℕ} {s : State Blobstore.Store} {a : List UInt8}

theorem Holds.setErr (h : Holds f s a) (e : VfsError) : Holds f (s.setErr e) a :=
  ⟨h.type, h.fault, h.file.imp (·.setErr e) fun ⟨σ, v, id, i, hb⟩ => ⟨σ, v, id, i, hb.setErr e⟩⟩

theorem Holds.size (h : Holds f s a) : (s.nodes f).size = a.length := by
  rcases h.file with hheap | ⟨_, _, _, _, hblob⟩
  · exact hheap.size
  · exact hblob.size

theorem BlobFile.blobId_ne {σ v id i} (h : BlobFile s f a σ v id i) : (s.nodes f).blobId ≠ 0 := by
  rw [h.blobId]
  exact h.nonzero

theorem Holds.readNode (h : Holds f s a) (hio : (s.nodes f).blobId ≠ 0 → io.Working)
    (hcut : a.length ≤ off ∨ off + len < 2 ^ 64) :
    (readNode (blobApi io) f off len s).1 = .ok ((a.drop off).take len) ∧
      Holds f (readNode (blobApi io) f off len s).2 a := by
  have htype : ((Vfs.readNode (blobApi io) f off len s).2.nodes f).type = some .file :=
    (congrFun (sameTree_readNode (blobApi io) f off len s).type f).trans h.type
  rcases h.file with hheap | ⟨σ, v, id, i, hblob⟩
  · obtain ⟨hans, fault, heq, hfault⟩ := hheap.readNode (blobApi io) hcut
    rw [heq] at htype ⊢
    exact ⟨hans, htype, hfault h.fault, .inl ⟨hheap.heap, hheap.size, hheap.capacity, hheap.data⟩⟩
  · obtain ⟨hans, ⟨σ', v', hfile⟩, hfault⟩ := hblob.readNode (hio hblob.blobId_ne) hcut
    exact ⟨hans, htype, hfault.trans h.fault, .inr ⟨σ', v', id, i, hfile⟩⟩

theorem Holds.readAt (h : Holds f s a) (hio : (s.nodes f).blobId ≠ 0 → io.Working)
    (hpath : s.opens path = some f) (hcut : a.length ≤ off ∨ off + len < 2 ^ 64) :
    (vfsReadAt (blobApi io) path off len s).1 = .ok ((a.drop off).take len) ∧
      Holds f (vfsReadAt (blobApi io) path off len s).2 a := by
  obtain ⟨e, he⟩ := vfsReadAt_of_opens hpath (blobApi io) off len
  rw [he, if_neg (not_not.2 h.type)]
  exact (h.setErr e).readNode hio hcut

/-- Writing to a path is writing to the node it leads to, unless a save is going on. -/
theorem vfsWriteAt_of_opens (h : s.opens path = some f)
    (hfile : (s.nodes f).type = some .file) (api : BlobApi Blobstore.Store) (off : ℕ)
    (bytes : List UInt8) : ∃ e, vfsWriteAt api path off bytes s = (.error .ebusy, s.setErr e) ∨
      vfsWriteAt api path off bytes s = writeNode api f off bytes (s.setErr e) := by
  rw [vfsWriteAt, unlessSaving]
  split
  · exact ⟨_, .inl rfl⟩
  obtain ⟨e, out, -, hio, -, hf⟩ := opens_eq_some h
  refine ⟨e, .inr ?_⟩
  rw [hio]
  dsimp only
  rw [hf]
  exact if_neg (not_not.2 hfile)

theorem Holds.writeNode (h : Holds f s a) (hio : (s.nodes f).blobId ≠ 0 → io.Working)
    (hwrap : off + bytes.length < 2 ^ 64) (hblobs : (s.nodes f).blobId ≠ 0 → off ≤ a.length ∧
      NoWrap s.blobs (UInt64.ofNat off + UInt64.ofNat bytes.length)) :
    let t := writeNode (blobApi io) f off bytes s
    (∃ e, t.1 = .error e) ∧ Holds f t.2 a ∨ t.1 = .ok () ∧ Holds f t.2 (putAt a off bytes) := by
  dsimp only
  have htype : ((Vfs.writeNode (blobApi io) f off bytes s).2.nodes f).type = some .file :=
    (congrFun (sameTree_writeNode (blobApi io) f off bytes s).type f).trans h.type
  rcases h.file with hheap | ⟨σ, v, id, i, hblob⟩
  · obtain ⟨hcases, hfault⟩ := hheap.writeNode (blobApi io) hwrap
    exact hcases.imp (fun hc => ⟨hc.1, htype, hfault h.fault, .inl hc.2⟩)
      fun hc => ⟨hc.1, htype, hfault h.fault, .inl hc.2⟩
  have hne := hblob.blobId_ne
  obtain ⟨hcases, hfault⟩ :=
    hblob.writeNode (hio hne) hwrap (hblobs hne).1 (hblobs hne).2
  refine hcases.imp (fun hc => ⟨hc.1, htype, hfault.trans h.fault, .inr ⟨σ, v, id, i, hc.2⟩⟩)
    fun hc => ⟨hc.1, htype, hfault.trans h.fault, .inr ?_⟩
  obtain ⟨-, σ', v', hfile⟩ := hc
  exact ⟨σ', v', id, i, hfile⟩

variable {x : File}

/-- **One call.** -/
theorem Holds.step (h : Holds f x.fs x.contents) {r : Request} (hon : OnFile f x r)
    (hplain : Plain f x r) : x.Answers r ∧ Holds f (x.step r).fs (x.step r).contents := by
  obtain ⟨io, path, call⟩ := r
  obtain ⟨hio, hcall⟩ := hplain
  rw [File.Answers, File.step]
  rcases call with ⟨off, len⟩ | len | ⟨off, bytes⟩
  · dsimp only at hcall ⊢
    rw [h.size] at hcall
    obtain ⟨hans, hholds⟩ := h.readAt hio hon hcall
    exact ⟨⟨hholds.fault, hans⟩, hholds⟩
  · have hcut : x.contents.length ≤ 0 ∨ 0 + len.toNat < 2 ^ 64 := by
      rw [zero_add]
      exact .inr len.toNat_lt
    obtain ⟨hans, hholds⟩ := h.readAt hio hon hcut
    exact ⟨⟨hholds.fault, hans⟩, hholds⟩
  dsimp only at hcall ⊢
  rw [h.size] at hcall
  obtain ⟨hwrap, hblobs⟩ := hcall
  obtain ⟨e, heq | heq⟩ := vfsWriteAt_of_opens hon h.type (blobApi io) off.toNat bytes
  · rw [heq]
    exact ⟨⟨h.fault, trivial⟩, h.setErr e⟩
  rw [heq]
  have hcases := (h.setErr e).writeNode hio hwrap (by rwa [UInt64.ofNat_toNat])
  generalize Vfs.writeNode (blobApi io) f off.toNat bytes (x.fs.setErr e) = res at hcases
  rcases res with ⟨_ | _, t⟩
  · rcases hcases with ⟨-, hholds⟩ | ⟨hok, -⟩
    · exact ⟨⟨hholds.fault, trivial⟩, hholds⟩
    · cases hok
  rcases hcases with ⟨⟨_, herr⟩, -⟩ | ⟨-, hholds⟩
  · cases herr
  · exact ⟨⟨hholds.fault, trivial⟩, hholds⟩

theorem Holds.start (h : x.PlainStart f) : Holds f x.fs x.contents := by
  obtain ⟨⟨htype, hfault, hheap | ⟨size, hnew, hzeros⟩⟩, hempty⟩ := h
  · exact ⟨htype, hfault, .inl hheap⟩
  obtain ⟨σ, id, i, hreach, hstore, hid, hne, hfind, hsize, hobj, -⟩ := hnew
  obtain ⟨v, hv⟩ := Consistent.of_run hreach
  obtain rfl : size = 0 := hsize.symm.trans (hempty (by rw [hid]; exact hne))
  refine ⟨htype, hfault, .inr ⟨σ, v, id, i, hstore, hv, hid, hne, hfind, ?_, ?_, fun k hk => ?_⟩⟩
  · rw [hsize, hzeros, length_replicate]
  · rw [hobj, hzeros, length_replicate]
  · rw [hzeros] at hk
    exact absurd hk (Nat.not_lt_zero k)

/-- Two bytes in the heap. -/
def heapFile : File :=
  ⟨(vfsWriteFile [slash, 97] [65, 66] (vfsInit (fun _ => false) Blobstore.freshStore)).2, [65, 66]⟩

def writeFour : Request := ⟨Blobstore.goodIo, [slash, 97], .writeAt 4 [67]⟩

/-- An object is written and deleted. -/
def deleteCalls : List (Io × Blobstore.Call) :=
  [(Blobstore.goodIo, .create 4096), (Blobstore.goodIo, .write 1 0 [65]),
    (Blobstore.goodIo, .delete 1)]

/-- A new object gets the page of the deleted one. -/
def reused : Sys :=
  (deleteCalls.foldl Sys.step ⟨Blobstore.freshStore, fun _ _ => none⟩).step
    (Blobstore.goodIo, .create 0)

/-- An empty file in the new object. -/
def blobFile : File :=
  ⟨{ (vfsBindBlob (blobApi Blobstore.goodIo) [slash, 97] 2 0
      (vfsInit (fun _ => false) reused.store)).2 with blobs := reused.store }, []⟩

theorem reach_reused :
    Reach Sys.Start (fun σ e => Blobstore.InScope σ e ∧ Blobstore.Fresh σ e) Sys.step reused := by
  have hgood := Blobstore.goodIo_working
  refine .call _ ((Reach.start Blobstore.start_freshStore).calls deleteCalls
    ⟨⟨hgood, ?_, ?_⟩, ⟨⟨hgood, ?_⟩, trivial⟩, ⟨hgood, trivial⟩, trivial⟩) ⟨hgood, ?_, ?_⟩
  · rw [NoWrap]
    decide +kernel
  · decide +kernel
  · decide
  · rw [NoWrap]
    decide +kernel
  · decide +kernel

theorem written_reused : reused.written 2 = fun _ => none := by
  have hid : (Blobstore.blobstoreCreate Blobstore.goodIo 0 (deleteCalls.foldl Sys.step
      ⟨Blobstore.freshStore, fun _ _ => none⟩).store).1 = some 2 := by decide +kernel
  rw [reused, Sys.step]
  simp [hid]

theorem newBlob_blobFile : NewBlob blobFile.fs 1 0 := by
  refine ⟨reused, 2, 0, reach_reused, ?_, ?_, ?_, ?_, ?_, ?_, written_reused⟩
  · rw [blobFile]
  · decide +kernel
  · decide
  all_goals decide +kernel

def writeFirst : Request := ⟨Blobstore.goodIo, [slash, 97], .writeAt 0 [66]⟩

def gapWrite : Request := ⟨Blobstore.goodIo, [slash, 97], .writeAt 1 [66]⟩

end PeakOs.Vfs
