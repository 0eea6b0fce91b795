import PeakOs.Lib.BlockStream
import PeakOs.Vfs.Model

/-!
# The workspace as one image

`kernel/vfs_peakfs.c`: directories and files under `/home`, `/etc/peak` and `/var/peak` are written
one after the other as records — the length of the path, the path, the length of the data, the data
— behind a header with their number. A directory's path ends in a slash.

The tree is walked with path buffers of 256 bytes (`walk_rec` of `kernel/vfs.c`): a name is cut to
what fits, and a directory whose path fills the buffer ends the walk.

## Main results

* `vfsWalk_keeps` — what every record keeps, the walk keeps
* `SameFiles.vfsExportRamdisk` — the image is a function of the tree, the buffers and the blob store
* `vfsExportRamdisk_state` — without files in the blob store, an export changes nothing
-/

namespace PeakOs.Vfs

variable {B : Type}

def vfsExportMaxBytes : ℕ := 32 * 1024 * 1024
def vfsExportStreamChunk : ℕ := 4096

/-! ### Which paths -/

/-- Some name of the path is `..`; `first` says that a name begins here. -/
def hasDotDot : Bool → Path → Bool
  | _, [] => false
  | first, c :: cs =>
    first && c == 46 && cs.head? == some 46 && (cs.tail == [] || cs.tail.head? == some slash) ||
      hasDotDot (c == slash) cs

/-- The path is `top` or below it. -/
def isUnder (top path : Path) : Bool :=
  top.isPrefixOf path && (path.drop top.length == [] || (path.drop top.length).head? == some slash)

/-- `/home`. -/
def homePath : Path := [47, 104, 111, 109, 101]

/-- `/etc/peak`. -/
def etcPeakPath : Path := [47, 101, 116, 99, 47, 112, 101, 97, 107]

/-- `/var/peak`. -/
def varPeakPath : Path := [47, 118, 97, 114, 47, 112, 101, 97, 107]

/-- `peakfs_path_allowed_for_profile`. -/
def pathAllowed (profile : ℤ) (path : Path) : Bool :=
  if path.head? ≠ some slash then false
  else if hasDotDot true path then false
  else if profile ≤ 0 then false
  else if profile = 1 then isUnder homePath path
  else isUnder homePath path || isUnder etcPeakPath path || isUnder varPeakPath path

/-! ### Walking -/

/-- The path of a child, if its parent's leaves room for one more byte. -/
def walkPath (path name : Path) : Option Path :=
  if vfsPathMax ≤ path.length + 1 then none
  else some (if path = [slash] then appendFit path name else childPath path name)

section Walk

variable {σ : Type} (cb : Path → ℕ → σ → Bool × σ) (s : State B)

/-- The loop of `walk_rec` over a child list. The result says whether the walk is to stop. -/
def walkChildren (walk : Path → ℕ → σ → Bool × σ) (path : Path) :
    ℕ → Option ℕ → σ → Bool × σ
  | 0, _, c => (true, c)
  | _ + 1, none, c => (false, c)
  | width + 1, some n, c =>
    match walkPath path (s.nodes n).name with
    | none => (true, c)
    | some child =>
      match walk child n c with
      | (true, c) => (true, c)
      | (false, c) => walkChildren walk path width (s.nodes n).sibling c

/-- `walk_rec`. Each level makes the path longer, so there are at most 256. -/
def walkRec : ℕ → Path → ℕ → σ → Bool × σ
  | 0, _, _, c => (true, c)
  | depth + 1, path, n, c =>
    match cb path n c with
    | (true, c) => (true, c)
    | (false, c) =>
      if (s.nodes n).type ≠ some .dir then (false, c)
      else walkChildren s (walkRec depth) path (vfsMaxNodes + 1) (s.nodes n).child c

def vfsWalk (path : Path) (c : σ) : σ :=
  match vfsLookup path s with
  | none => c
  | some n => (walkRec cb s (vfsPathMax + 1) (path.take (vfsPathMax - 1)) n c).2

end Walk

/-! ### Sizes -/

/-- The size of a file, and 0 for anything else. -/
def State.fileSize (s : State B) (n : ℕ) : ℕ :=
  if (s.nodes n).type = some .file then (s.nodes n).size else 0

def sizeCb (profile : ℤ) (s : State B) (path : Path) (n : ℕ) (bytes : ℕ) : Bool × ℕ :=
  if !pathAllowed profile path then (false, bytes)
  else
    let nlen := path.length + if (s.nodes n).type = some .dir then 1 else 0
    if nlen = 0 ∨ 65535 ≤ nlen then (false, bytes)
    else if vfsExportMaxBytes < bytes + 2 + nlen + 4 + s.fileSize n then (true, bytes)
    else (false, bytes + 2 + nlen + 4 + s.fileSize n)

def vfsExportRamdiskSize (profile : ℤ) (s : State B) : ℤ :=
  let bytes := vfsWalk (sizeCb profile s) s homePath 12
  let bytes := vfsWalk (sizeCb profile s) s etcPeakPath bytes
  let bytes := vfsWalk (sizeCb profile s) s varPeakPath bytes
  if vfsExportMaxBytes < bytes then -1 else bytes

/-! ### The stream -/

/-- `struct stream_ctx`, with what has been written and the blob store. -/
structure Stream (B : Type) where
  out : List UInt8
  count : ℕ
  err : Bool
  blobs : B

/-- `stream_write` to a buffer of `cap` bytes. -/
def Stream.write (cap : ℕ) (data : List UInt8) (c : Stream B) : Bool × Stream B :=
  if c.err then (false, c)
  else if vfsExportMaxBytes < c.out.length + data.length then (false, { c with err := true })
  else if cap < c.out.length + data.length then (false, { c with err := true })
  else (true, { c with out := c.out ++ data })

def le16 (x : ℕ) : List UInt8 := [UInt8.ofNat x, UInt8.ofNat (x / 2 ^ 8)]

/-- The first part of a record: the path and the length of the data. -/
def Stream.writeHead (cap : ℕ) (path : Path) (dlen : ℕ) (c : Stream B) : Bool × Stream B :=
  match c.write cap (le16 path.length) with
  | (false, c) => (false, c)
  | (true, c) =>
    match c.write cap path with
    | (false, c) => (false, c)
    | (true, c) => c.write cap (le32 dlen)

/-- The loop over the chunks of a buffer; a turn takes at least one byte. -/
def Stream.writeChunks (cap : ℕ) : ℕ → List UInt8 → Stream B → Bool × Stream B
  | 0, _, c => (true, c)
  | k + 1, data, c =>
    if data = [] then (true, c)
    else
      match c.write cap (data.take vfsExportStreamChunk) with
      | (false, c) => (false, c)
      | (true, c) => Stream.writeChunks cap k (data.drop vfsExportStreamChunk) c

def Stream.counted (c : Stream B) : Stream B := { c with count := c.count + 1 }

/-- `stream_write_entry`; the result says whether the walk is to stop. -/
def streamWriteEntry (cap : ℕ) (path : Path) (data : Option (List UInt8)) (dlen : ℕ)
    (c : Stream B) : Bool × Stream B :=
  if path.length = 0 ∨ 65535 ≤ path.length then (false, c)
  else
    match c.writeHead cap path dlen with
    | (false, c) => (true, c)
    | (true, c) =>
      match c.writeChunks cap dlen ((data.getD []).take dlen) with
      | (false, c) => (true, c)
      | (true, c) => (false, c.counted)

/-- The loop over the chunks of a file in the blob store. -/
def streamBlob (api : BlobApi B) (cap id size : ℕ) : ℕ → ℕ → Stream B → Bool × Stream B
  | 0, _, c => (true, c)
  | k + 1, pos, c =>
    if size ≤ pos then (true, c)
    else
      let want := min (size - pos) vfsExportStreamChunk
      match api.read id pos want c.blobs with
      | (none, blobs) => (false, { c with err := true, blobs := blobs })
      | (some bytes, blobs) =>
        if bytes.length ≠ want then (false, { c with err := true, blobs := blobs })
        else
          match Stream.write cap bytes { c with blobs := blobs } with
          | (false, c) => (false, c)
          | (true, c) => streamBlob api cap id size k (pos + want) c

def exportStreamCb (api : BlobApi B) (cap : ℕ) (profile : ℤ) (s : State B) (path : Path) (n : ℕ)
    (c : Stream B) : Bool × Stream B :=
  if !pathAllowed profile path then (false, c)
  else if (s.nodes n).type = some .dir then
    -- a path that does not fit its buffer with the slash is left out
    if vfsPathMax ≤ path.length + 2 then (false, c)
    else streamWriteEntry cap (path ++ [slash]) none 0 c
  else if (s.nodes n).type ≠ some .file then (false, c)
  else if (s.nodes n).blobId ≠ 0 ∧ 0 < (s.nodes n).size then
    if path.length = 0 ∨ 65535 ≤ path.length then (false, c)
    else
      match c.writeHead cap path (s.nodes n).size with
      | (false, c) => (true, c)
      | (true, c) =>
        match streamBlob api cap (s.nodes n).blobId (s.nodes n).size (s.nodes n).size 0 c with
        | (false, c) => (true, c)
        | (true, c) => (false, c.counted)
  else streamWriteEntry cap path ((s.nodes n).data.map s.bufs) (s.nodes n).size c

/-- `PEAKFS1`, a zero, and the number of records. -/
def imageHead (count : ℕ) : List UInt8 := [80, 69, 65, 75, 70, 83, 49, 0] ++ le32 count

def vfsExportRamdiskStream (api : BlobApi B) (cap : ℕ) (profile : ℤ) (s : State B) : Stream B :=
  let c := (Stream.write cap (imageHead 0) ⟨[], 0, false, s.blobs⟩).2
  let c := vfsWalk (exportStreamCb api cap profile s) s homePath c
  let c := vfsWalk (exportStreamCb api cap profile s) s etcPeakPath c
  vfsWalk (exportStreamCb api cap profile s) s varPeakPath c

/-- The image, with the number of records put into its header, and the state after the reads from
the blob store. -/
def vfsExportRamdisk (api : BlobApi B) (cap : ℕ) (profile : ℤ) (s : State B) :
    Option (List UInt8) × State B :=
  if cap < 12 then (none, s)
  else
    let c := vfsExportRamdiskStream api cap profile s
    (if c.err then none else some (imageHead c.count ++ c.out.drop 12), { s with blobs := c.blobs })

/-! ### What a walk sees and keeps -/

section Walks

variable {σ : Type} {cb : Path → ℕ → σ → Bool × σ} {s t : State B}

theorem walkChildren_congr (hnodes : t.nodes = s.nodes) (walk : Path → ℕ → σ → Bool × σ)
    (path : Path) (width : ℕ) (next : Option ℕ) (c : σ) :
    walkChildren t walk path width next c = walkChildren s walk path width next c := by
  induction width generalizing next c with
  | zero => rw [walkChildren, walkChildren]
  | succ width ih =>
    rcases next with _ | n
    · rw [walkChildren, walkChildren]
    rw [walkChildren, walkChildren, hnodes]
    rcases walkPath path (s.nodes n).name with _ | child
    · rfl
    dsimp only
    rcases walk child n c with ⟨_ | _, c₁⟩
    · exact ih _ _
    · rfl

theorem walkRec_congr (hnodes : t.nodes = s.nodes) (depth : ℕ) :
    walkRec cb t depth = walkRec cb s depth := by
  induction depth with
  | zero => rfl
  | succ depth ih =>
    funext path n c
    rw [walkRec, walkRec, hnodes, ih]
    rcases cb path n c with ⟨_ | _, c₁⟩
    · dsimp only
      rw [walkChildren_congr hnodes]
    · rfl

variable {P : σ → Prop}

theorem walkChildren_keeps {walk : Path → ℕ → σ → Bool × σ}
    (hwalk : ∀ path n c, P c → P (walk path n c).2) (path : Path) (width : ℕ) (next : Option ℕ)
    {c : σ} (hc : P c) : P (walkChildren s walk path width next c).2 := by
  induction width generalizing next c with
  | zero =>
    exact hc
  | succ width ih =>
    rcases next with _ | n
    · exact hc
    rw [walkChildren]
    rcases walkPath path (s.nodes n).name with _ | child
    · exact hc
    have hnext := hwalk child n c hc
    dsimp only
    generalize walk child n c = res at hnext
    rcases res with ⟨_ | _, c₁⟩
    · exact ih _ hnext
    · exact hnext

theorem walkRec_keeps (hcb : ∀ path n c, P c → P (cb path n c).2) (depth : ℕ) :
    ∀ path n c, P c → P (walkRec cb s depth path n c).2 := by
  induction depth with
  | zero => exact fun _ _ _ hc => hc
  | succ depth ih =>
    intro path n c hc
    have hnext := hcb path n c hc
    rw [walkRec]
    generalize cb path n c = res at hnext
    rcases res with ⟨_ | _, c₁⟩
    · dsimp only
      split
      · exact hnext
      · exact walkChildren_keeps ih path _ _ hnext
    · exact hnext

/-- **What every record keeps, the walk keeps.** -/
theorem vfsWalk_keeps (hcb : ∀ path n c, P c → P (cb path n c).2) (path : Path) {c : σ}
    (hc : P c) : P (vfsWalk cb s path c) := by
  rw [vfsWalk]
  split
  · exact hc
  · exact walkRec_keeps hcb _ _ _ _ hc

end Walks

/-! ### The image as a function of the state -/

/-- What an export looks at. -/
structure SameFiles (s t : State B) : Prop where
  nodes : t.nodes = s.nodes
  childBucket : t.childBucket = s.childBucket
  bufs : t.bufs = s.bufs
  blobs : t.blobs = s.blobs

theorem SameFiles.refl (s : State B) : SameFiles s s := ⟨rfl, rfl, rfl, rfl⟩

section Same

variable {s t : State B} (h : SameFiles s t)

include h

theorem SameFiles.findChild (dir : ℕ) (name : Path) :
    findChild t dir name = findChild s dir name := by
  have hsibling : t.sibling = s.sibling := by
    funext i
    rw [State.sibling, State.sibling, h.nodes]
  have hmatches : nameMatches t name = nameMatches s name := by
    funext i
    rw [nameMatches, nameMatches, h.nodes]
  rw [Vfs.findChild, Vfs.findChild, hsibling, hmatches, h.nodes, h.childBucket]

theorem SameFiles.walkNames (cur : ℕ) (parts : List Path) :
    walkNames t cur parts = walkNames s cur parts := by
  induction parts generalizing cur with
  | nil => rfl
  | cons part parts ih =>
    rw [Vfs.walkNames, Vfs.walkNames, h.findChild]
    rcases Vfs.findChild s cur part with _ | c
    · rfl
    · exact ih c

theorem SameFiles.vfsLookup (path : Path) : vfsLookup path t = vfsLookup path s := by
  rw [Vfs.vfsLookup, Vfs.vfsLookup, h.walkNames]

theorem SameFiles.vfsWalk {σ : Type} (cb : Path → ℕ → σ → Bool × σ) (path : Path) (c : σ) :
    vfsWalk cb t path c = vfsWalk cb s path c := by
  rw [Vfs.vfsWalk, Vfs.vfsWalk, h.vfsLookup, walkRec_congr h.nodes]

theorem SameFiles.sizeCb (profile : ℤ) : sizeCb profile t = sizeCb profile s := by
  funext path n bytes
  rw [Vfs.sizeCb, Vfs.sizeCb, State.fileSize, State.fileSize, h.nodes]

theorem SameFiles.vfsExportRamdiskSize (profile : ℤ) :
    vfsExportRamdiskSize profile t = vfsExportRamdiskSize profile s := by
  rw [Vfs.vfsExportRamdiskSize, Vfs.vfsExportRamdiskSize, h.sizeCb]
  simp only [h.vfsWalk]

theorem SameFiles.exportStreamCb (api : BlobApi B) (cap : ℕ) (profile : ℤ) :
    exportStreamCb api cap profile t = exportStreamCb api cap profile s := by
  funext path n c
  rw [Vfs.exportStreamCb, Vfs.exportStreamCb, h.nodes, h.bufs]

/-- **The image is a function of the tree**, the buffers and the blob store. -/
theorem SameFiles.vfsExportRamdisk (api : BlobApi B) (cap : ℕ) (profile : ℤ) :
    (vfsExportRamdisk api cap profile t).1 = (vfsExportRamdisk api cap profile s).1 := by
  have hstream : vfsExportRamdiskStream api cap profile t =
      vfsExportRamdiskStream api cap profile s := by
    rw [vfsExportRamdiskStream, vfsExportRamdiskStream, h.exportStreamCb, h.blobs]
    simp only [h.vfsWalk]
  rw [Vfs.vfsExportRamdisk, Vfs.vfsExportRamdisk, hstream]
  split
  · rfl
  · rfl

end Same

/-! ### Without files in the blob store -/

section Blobs

variable {b : B}

variable {c : Stream B} {s : State B}

variable (cap : ℕ)

theorem Stream.write_blobs (data : List UInt8) (hc : c.blobs = b) :
    (c.write cap data).2.blobs = b := by
  rw [Stream.write]
  iterate 3
    split
    · exact hc
  · exact hc

theorem Stream.writeHead_blobs (path : Path) (dlen : ℕ)
    (hc : c.blobs = b) : (c.writeHead cap path dlen).2.blobs = b := by
  rw [Stream.writeHead]
  have h₁ := Stream.write_blobs cap (le16 path.length) hc
  generalize c.write cap (le16 path.length) = r₁ at h₁
  rcases r₁ with ⟨_ | _, c₁⟩
  · exact h₁
  have h₂ := Stream.write_blobs cap path h₁
  dsimp only at h₂ ⊢
  generalize c₁.write cap path = r₂ at h₂
  rcases r₂ with ⟨_ | _, c₂⟩
  · exact h₂
  · exact Stream.write_blobs cap _ h₂

theorem Stream.writeChunks_blobs (k : ℕ) (data : List UInt8)
    (hc : c.blobs = b) : (c.writeChunks cap k data).2.blobs = b := by
  induction k generalizing data c with
  | zero =>
    exact hc
  | succ k ih =>
    rw [Stream.writeChunks]
    split
    · exact hc
    have h₁ := Stream.write_blobs cap (data.take vfsExportStreamChunk) hc
    generalize c.write cap (data.take vfsExportStreamChunk) = r₁ at h₁
    rcases r₁ with ⟨_ | _, c₁⟩
    · exact h₁
    · exact ih _ h₁

theorem streamWriteEntry_blobs (path : Path) (data : Option (List UInt8)) (dlen : ℕ)
    (hc : c.blobs = b) : (streamWriteEntry cap path data dlen c).2.blobs = b := by
  rw [streamWriteEntry]
  split
  · exact hc
  have h₁ := Stream.writeHead_blobs cap path dlen hc
  generalize c.writeHead cap path dlen = r₁ at h₁
  rcases r₁ with ⟨_ | _, c₁⟩
  · exact h₁
  have h₂ := Stream.writeChunks_blobs cap dlen ((data.getD []).take dlen) h₁
  dsimp only at h₂ ⊢
  generalize c₁.writeChunks cap dlen ((data.getD []).take dlen) = r₂ at h₂
  rcases r₂ with ⟨_ | _, c₂⟩ <;> exact h₂

theorem exportStreamCb_blobs (api : BlobApi B) (cap : ℕ) (profile : ℤ)
    (hno : ∀ i, (s.nodes i).blobId = 0) (path : Path) (n : ℕ) (c : Stream B) (hc : c.blobs = b) :
    (exportStreamCb api cap profile s path n c).2.blobs = b := by
  rw [exportStreamCb]
  split
  · exact hc
  split
  · split
    · exact hc
    · exact streamWriteEntry_blobs cap _ _ _ hc
  split
  · exact hc
  rw [if_neg fun h => h.1 (hno n)]
  exact streamWriteEntry_blobs cap _ _ _ hc

/-- **Without files in the blob store, an export changes nothing.** -/
theorem vfsExportRamdisk_state (api : BlobApi B) (cap : ℕ) (profile : ℤ)
    (hno : ∀ i, (s.nodes i).blobId = 0) : (vfsExportRamdisk api cap profile s).2 = s := by
  have hcb := fun path n c => exportStreamCb_blobs api cap profile hno path n (b := s.blobs) c
  have hblobs : (vfsExportRamdiskStream api cap profile s).blobs = s.blobs := by
    exact vfsWalk_keeps hcb _ (vfsWalk_keeps hcb _ (vfsWalk_keeps hcb _
      (Stream.write_blobs cap (imageHead 0) rfl)))
  rw [vfsExportRamdisk]
  split
  · rfl
  · show { s with blobs := _ } = s
    rw [hblobs]

end Blobs

end PeakOs.Vfs
