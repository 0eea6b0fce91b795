import PeakOs.Lib.SiblingForest
import PeakOs.Vfs.Path

/-!
# The virtual file system

`kernel/vfs.c`: one static table of nodes, linked into a tree by parent, first-child and
next-sibling pointers, with a bucket table in front of each child list. A pointer into the table is
the index of its node, `NULL` is `none`, and a node in use is one whose `type` is not zero.

What the file system calls is part of its state here:

* the heap, as far as the file system can see it: buffers are numbered in the order `kmalloc`
  returns them, `freed` is the log of `kfree`, and `oom` says which of the requests fail;
* the blobstore, an arbitrary type `B` with the operations of `BlobApi`;
* whether a PeakDisk save is going on.

Loops over child lists look at no more nodes than the table has; on a child list that is a cycle the
source does not terminate. Two local path buffers of the source are not protected against long
paths; `pathFault` records that one of them was overrun, and `heapFault` that a copy left its heap
buffer. The machine state after that is not modelled.
-/

namespace PeakOs.Vfs

def vfsMaxNodes : ℕ := 4096
def vfsChildBuckets : ℕ := 8
def vfsSymlinkLoopMax : ℕ := 8
def vfsModeFile : ℕ := 0o644
def vfsModeDir : ℕ := 0o755
def vfsCopyChunk : ℕ := 32 * 1024

inductive VfsType
  | dir
  | file
  | symlink
  deriving DecidableEq, Repr

/-- `struct vfs_node`. -/
structure Node where
  name : Path
  type : Option VfsType
  mode : ℕ
  data : Option ℕ
  size : ℕ
  capacity : ℕ
  refs : ℕ
  blobId : ℕ
  parent : Option ℕ
  child : Option ℕ
  sibling : Option ℕ
  deriving DecidableEq, Repr

/-- A node of the cleared table. -/
def Node.zero : Node := ⟨[], none, 0, none, 0, 0, 0, 0, none, none, none⟩

/-- What `vfs_last_error` reports. -/
inductive VfsError
  | none
  | saving
  | notFound
  | symlinkLoop (path : Path)
  | notDirectory
  | isDirectory
  | cannotCreate
  | outOfMemory
  deriving DecidableEq, Repr

/-- The part of `blobstore.h` the file system uses. -/
structure BlobApi (B : Type) where
  available : B → Bool
  create : ℕ → B → Option ℕ × B
  read : ℕ → ℕ → ℕ → B → Option (List UInt8) × B
  write : ℕ → ℕ → List UInt8 → B → Option ℕ × B

structure State (B : Type) where
  nodes : ℕ → Node
  nodeCount : ℕ
  childBucket : ℕ → ℕ → ℕ
  err : VfsError
  bufs : ℕ → List UInt8
  nextBuf : ℕ
  freed : List ℕ
  oom : ℕ → Bool
  blobs : B
  saving : Bool
  dirty : Bool
  pathFault : Bool
  heapFault : Bool

variable {B : Type}

def root : ℕ := 0

def State.setNode (i : ℕ) (f : Node → Node) (s : State B) : State B :=
  { s with nodes := Function.update s.nodes i (f (s.nodes i)) }

def State.setBuckets (buckets : ℕ → ℕ → ℕ) (s : State B) : State B :=
  { s with childBucket := buckets }

def State.setErr (e : VfsError) (s : State B) : State B := { s with err := e }

/-- A local path buffer was overrun, if `long`. -/
def State.noteOverrun (long : Bool) (s : State B) : State B :=
  { s with pathFault := s.pathFault || long }

/-- A copy that ends at `stop` in a heap buffer of `room` bytes. -/
def State.noteCopy (room stop : ℕ) (s : State B) : State B :=
  { s with heapFault := s.heapFault || decide (room < stop) }

/-- `vfs_note_workspace_dirty`. -/
def State.markDirty (s : State B) : State B := { s with dirty := true }

/-! ### The heap -/

/-- `kmalloc`, with the bytes the caller puts into the new buffer. -/
def kmalloc (bytes : List UInt8) (s : State B) : Option ℕ × State B :=
  if s.oom s.nextBuf then (none, { s with nextBuf := s.nextBuf + 1 })
  else
    (some s.nextBuf,
      { s with bufs := Function.update s.bufs s.nextBuf bytes, nextBuf := s.nextBuf + 1 })

/-- `kfree`; `NULL` is ignored. -/
def kfree (buf : Option ℕ) (s : State B) : State B :=
  match buf with
  | none => s
  | some b => { s with freed := b :: s.freed }

/-! ### The node table -/

/-- `name_bucket`. -/
def nameBucket (name : Path) : ℕ := (name.headD 0).toNat % vfsChildBuckets

/-- The slot `alloc_node` takes: a freed one before a new one. -/
def allocSlot (s : State B) : Option ℕ :=
  match (List.range s.nodeCount).find? fun i => (s.nodes i).type = none with
  | some i => some i
  | none => if vfsMaxNodes ≤ s.nodeCount then none else some s.nodeCount

def newNode (name : Path) (type : VfsType) : Node :=
  { Node.zero with
    name := name.take (vfsNameMax - 1)
    type := some type
    mode := if type = .dir then vfsModeDir else vfsModeFile
    refs := 1 }

def allocNode (name : Path) (type : VfsType) (s : State B) : Option (ℕ × State B) :=
  match allocSlot s with
  | none => none
  | some i =>
    some (i,
      { s with
        nodes := Function.update s.nodes i (newNode name type)
        nodeCount := if i = s.nodeCount then s.nodeCount + 1 else s.nodeCount })

def addChild (parent child : ℕ) (s : State B) : State B :=
  let s := s.setNode child fun n => { n with parent := some parent }
  let s := s.setNode child fun n => { n with sibling := (s.nodes parent).child }
  let s := s.setNode parent fun n => { n with child := some child }
  let b := nameBucket (s.nodes child).name
  s.setBuckets (Function.update s.childBucket parent
    (Function.update (s.childBucket parent) b (child + 1)))

/-- `vfs_init`. -/
def vfsInit (oom : ℕ → Bool) (blobs : B) : State B :=
  { nodes := Function.update (fun _ => Node.zero) root (newNode [] .dir)
    nodeCount := 1
    childBucket := fun _ _ => 0
    err := .none
    bufs := fun _ => []
    nextBuf := 0
    freed := []
    oom := oom
    blobs := blobs
    saving := false
    dirty := false
    pathFault := false
    heapFault := false }

def State.sibling (s : State B) (i : ℕ) : Option ℕ := (s.nodes i).sibling

/-- The test of both loops of `find_child`. -/
def nameMatches (s : State B) (name : Path) (c : ℕ) : Bool :=
  decide (nameBucket (s.nodes c).name = nameBucket name) && decide ((s.nodes c).name = name)

def findChild (s : State B) (dir : ℕ) (name : Path) : Option ℕ :=
  let head := (s.nodes dir).child
  let idx := s.childBucket dir (nameBucket name)
  let start := if 1 ≤ idx ∧ idx ≤ vfsMaxNodes then some (idx - 1) else head
  match firstOnChain s.sibling (nameMatches s name) vfsMaxNodes start with
  | some c => some c
  | none =>
    if start = head then none
    else
      -- the part of the list before `start`
      match firstOnChain s.sibling (fun c => decide (some c = start) || nameMatches s name c)
          vfsMaxNodes head with
      | some c => if some c = start then none else some c
      | none => none

/-- Follow names down from `cur`. -/
def walkNames (s : State B) : ℕ → List Path → Option ℕ
  | cur, [] => some cur
  | cur, part :: parts =>
    match findChild s cur part with
    | none => none
    | some c => walkNames s c parts

def vfsLookup (path : Path) (s : State B) : Option ℕ :=
  if path.head? ≠ some slash then none else walkNames s root (nameParts path)

/-! ### Symbolic links -/

inductive ResolveStep
  | done
  | link (linkPath : Path) (node : ℕ) (rest : Path)
  | fail (e : PeakErr) (msg : Option VfsError)

/-- One pass of `vfs_resolve` over the path, up to the first symbolic link. -/
def resolveWalk (s : State B) : ℕ → ℕ → Path → Path → ResolveStep
  | 0, _, _, _ => .done
  | n + 1, cur, linkPath, rest =>
    if rest = [] then .done
    else
      let (part, rest) := takePart rest
      if part = [] then resolveWalk s n cur linkPath rest
      else
        match pathJoin1 linkPath part vfsPathMax with
        | .error e => .fail e none
        | .ok linkPath =>
          match findChild s cur part with
          | none => .fail .enoent (some .notFound)
          | some c =>
            if (s.nodes c).type = some .symlink then .link linkPath c rest
            else if (s.nodes c).type ≠ some .dir ∧ rest ≠ [] then
              .fail .enotdir (some .notDirectory)
            else resolveWalk s n c linkPath rest

/-- `resolve_restart`, with the number of links that may still be followed. -/
def resolveLoop (s : State B) : ℕ → Path → Except (PeakErr × Option VfsError) Path
  | links, work =>
    match resolveWalk s (work.length + 1) root [slash] work.tail with
    | .done => .ok work
    | .fail e msg => .error (e, msg)
    | .link linkPath node rest =>
      match links with
      | 0 => .error (.eloop, some (.symlinkLoop linkPath))
      | links + 1 =>
        match expandSymlinkAt linkPath ((s.nodes node).data.map s.bufs) rest vfsPathMax with
        | .error e => .error (e, none)
        | .ok work => resolveLoop s links work

def vfsResolve (path : Path) (s : State B) : Except PeakErr Path × State B :=
  match vfsNormalize path vfsPathMax with
  | .error e => (.error e, s)
  | .ok work =>
    match resolveLoop s vfsSymlinkLoopMax work with
    | .error (e, none) => (.error e, s)
    | .error (e, some msg) => (.error e, s.setErr msg)
    | .ok work => (.ok work, s.setErr .none)

def pathForIo (path : Path) (s : State B) : Except PeakErr Path × State B :=
  match vfsResolve path s with
  | (.error .enoent, s) => (vfsNormalize path vfsPathMax, s)
  | r => r

/-! ### Creation -/

/-- The index of the end of `build` in `vfs_mkdir` after another name. -/
def buildNext (bi : ℕ) (part : Path) : ℕ :=
  max (bi + 1) (min (bi + 1 + part.length) (vfsPathMax - 1))

def mkdirLoop : List Path → ℕ → ℕ → State B → Option ℕ × State B
  | [], cur, _, s => (some cur, s)
  | part :: parts, cur, bi, s =>
    let bi := buildNext bi part
    let s := s.noteOverrun (decide (vfsPathMax ≤ bi))
    match findChild s cur part with
    | some n => if (s.nodes n).type = some .dir then mkdirLoop parts n bi s else (none, s)
    | none =>
      match allocNode part .dir s with
      | none => (none, s)
      | some (n, s) => mkdirLoop parts n bi (addChild cur n s)

def vfsMkdir (path : Path) (s : State B) : Option ℕ × State B :=
  match vfsLookup path s with
  | some e => (if (s.nodes e).type = some .dir then some e else none, s)
  | none =>
    if path.head? ≠ some slash then (none, s) else mkdirLoop (nameParts path) root 0 s

/-- The directory a new name goes to, made if it is missing: the common part of `vfs_create_file`
and `vfs_symlink`. -/
def parentDir (path : Path) (last : ℕ) (s : State B) : Option ℕ × State B :=
  if last = 0 then (some root, s)
  else
    match vfsMkdir (path.take last) s with
    | (none, s) => (none, s)
    | (some _, s) =>
      match vfsLookup (path.take last) s with
      | none => (none, s)
      | some dir => (if (s.nodes dir).type = some .dir then some dir else none, s)

def vfsCreateFile (path : Path) (s : State B) : Option ℕ × State B :=
  match vfsLookup path s with
  | some e => (if (s.nodes e).type = some .file then some e else none, s)
  | none =>
    match lastSlash (path.take (vfsPathMax - 1)) with
    | none => (none, s)
    | some last =>
      match parentDir path last s with
      | (none, s) => (none, s)
      | (some dir, s) =>
        match allocNode (path.drop (last + 1)) .file s with
        | none => (none, s)
        | some (f, s) => (some f, addChild dir f s)

/-! ### Contents -/

abbrev Result (B : Type) := Except PeakErr Unit × State B

/-- `vfs_reject_if_saving`, in front of the operation `k`. -/
def unlessSaving (k : State B → Result B) (s : State B) : Result B :=
  if s.saving then (.error .ebusy, s.setErr .saving) else k s

def vfsWriteFile (path : Path) (bytes : List UInt8) : State B → Result B :=
  unlessSaving fun s =>
    match pathForIo path s with
    | (.error e, s) => (.error e, s)
    | (.ok path, s) =>
      if ((vfsLookup path s).map fun e => (s.nodes e).type) = some (some .dir) then
        (.error .eisdir, s.setErr .isDirectory)
      else
        match vfsCreateFile path s with
        | (none, s) => (.error .einval, s.setErr .cannotCreate)
        | (some f, s) =>
          match kmalloc bytes s with
          | (none, s) => (.error .enomem, s.setErr .outOfMemory)
          | (some buf, s) =>
            let s := kfree (s.nodes f).data s
            let s := s.setNode f fun n =>
              { n with
                data := some buf, size := bytes.length, capacity := bytes.length, blobId := 0 }
            (.ok (), (s.setErr .none).markDirty)

def vfsBindBlob (api : BlobApi B) (path : Path) (blobId size : ℕ) : State B → Result B :=
  unlessSaving fun s =>
    match vfsCreateFile path s with
    | (none, s) => (.error .einval, s)
    | (some f, s) =>
      if blobId = 0 then (.error .einval, s)
      else if !api.available s.blobs then (.error .enoent, s)
      else
        let s := kfree (s.nodes f).data s
        let s := s.setNode f fun n =>
          { n with data := none, capacity := 0, blobId := blobId, size := size }
        (.ok (), s.markDirty)

def vfsCreateBlobFile (api : BlobApi B) (path : Path) (size : ℕ) (s : State B) : Result B :=
  if !api.available s.blobs then (.error .enoent, s)
  else
    match api.create size s.blobs with
    | (none, blobs) => (.error .enoent, { s with blobs := blobs })
    | (some id, blobs) => vfsBindBlob api path id size { s with blobs := blobs }

/-- `vfs_read_at` on an open node. Additions of sizes wrap. -/
def readNode (api : BlobApi B) (f off len : ℕ) (s : State B) :
    Except PeakErr (List UInt8) × State B :=
  let n := s.nodes f
  if n.size ≤ off then (.ok [], s)
  else
    let len := if n.size < (off + len) % 2 ^ 64 then n.size - off else len
    if n.blobId ≠ 0 then
      match api.read n.blobId off len s.blobs with
      | (none, blobs) => (.error .eio, { s with blobs := blobs })
      | (some bytes, blobs) => (.ok bytes, { s with blobs := blobs })
    else
      match n.data with
      | none => if 0 < len then (.error .eio, s) else (.ok [], s)
      | some buf =>
        (.ok (((s.bufs buf).drop off).take len), s.noteCopy (s.bufs buf).length (off + len))

def vfsReadAt (api : BlobApi B) (path : Path) (off len : ℕ) (s : State B) :
    Except PeakErr (List UInt8) × State B :=
  match pathForIo path s with
  | (.error e, s) => (.error e, s)
  | (.ok path, s) =>
    match vfsLookup path s with
    | none => (.error .enoent, s)
    | some f =>
      if (s.nodes f).type ≠ some .file then (.error .enoent, s) else readNode api f off len s

/-- `memcpy` of `bytes` into a buffer at `off`. -/
def overwrite (buf : List UInt8) (off : ℕ) (bytes : List UInt8) : List UInt8 :=
  buf.take off ++ bytes ++ buf.drop (off + bytes.length)

/-- The bytes of the new buffer of a growing `vfs_write_at`: the old ones, then zeros. (Between the
old size and `need` the source clears only the part before `off`; the rest is written next.) -/
def grownBytes (old : Option (List UInt8)) (size need : ℕ) : List UInt8 :=
  let kept := (old.getD []).take size
  kept ++ List.replicate (need - kept.length) 0

/-- The growing step of `vfs_write_at`: give the node a buffer of `need` bytes unless it has one.
`false` is `PEAK_ENOMEM`. -/
def growNode (f need : ℕ) (s : State B) : Bool × State B :=
  let n := s.nodes f
  if n.capacity < need ∨ n.data = none then
    match kmalloc (grownBytes (n.data.map s.bufs) n.size need) s with
    | (none, s) => (false, s)
    | (some buf, s) =>
      (true, (kfree n.data s).setNode f fun n => { n with data := some buf, capacity := need })
  else (true, s)

/-- The `memcpy` of `vfs_write_at` into the buffer of a node. -/
def copyInto (f off : ℕ) (bytes : List UInt8) (s : State B) : State B :=
  match (s.nodes f).data with
  | none => s
  | some buf =>
    { s with
      bufs := Function.update s.bufs buf (overwrite (s.bufs buf) off bytes)
      heapFault := s.heapFault || decide ((s.bufs buf).length < off + bytes.length) }

/-- A file's size after a write up to `stop`. -/
def extendTo (f stop : ℕ) (s : State B) : State B :=
  s.setNode f fun n => { n with size := if n.size < stop then stop else n.size }

/-- `vfs_write_at` on an open node. -/
def writeNode (api : BlobApi B) (f off : ℕ) (bytes : List UInt8) (s : State B) : Result B :=
  if (s.nodes f).blobId ≠ 0 then
    match api.write (s.nodes f).blobId off bytes s.blobs with
    | (none, blobs) => (.error .eio, { s with blobs := blobs })
    | (some k, blobs) =>
      (.ok (), (extendTo f ((off + k) % 2 ^ 64) { s with blobs := blobs }).markDirty)
  else
    let need := (off + bytes.length) % 2 ^ 64
    match growNode f need s with
    | (false, s) => (.error .enomem, s)
    | (true, s) => (.ok (), (extendTo f need (copyInto f off bytes s)).markDirty)

def vfsWriteAt (api : BlobApi B) (path : Path) (off : ℕ) (bytes : List UInt8) :
    State B → Result B :=
  unlessSaving fun s =>
    match pathForIo path s with
    | (.error e, s) => (.error e, s)
    | (.ok path, s) =>
      match vfsLookup path s with
      | none => (.error .enoent, s)
      | some f =>
        if (s.nodes f).type ≠ some .file then (.error .enoent, s) else writeNode api f off bytes s

def vfsChmod (path : Path) (mode : ℕ) : State B → Result B :=
  unlessSaving fun s =>
    match vfsLookup path s with
    | none => (.error .enoent, s)
    | some n =>
      if n = root then (.error .einval, s)
      else (.ok (), (s.setNode n fun m => { m with mode := mode % 0o1000 }).markDirty)

/-! ### Links -/

def vfsSymlink (target linkpath : Path) : State B → Result B :=
  unlessSaving fun s =>
    if target = [] then (.error .einval, s)
    else if (vfsLookup linkpath s).isSome then (.error .eexist, s)
    else if vfsPathMax ≤ target.length then (.error .einval, s)
    else
      match lastSlash (linkpath.take (vfsPathMax - 1)) with
      | none => (.error .einval, s)
      | some last =>
        match parentDir linkpath last s with
        | (none, s) => (.error .enotdir, s)
        | (some dir, s) =>
          match allocNode (linkpath.drop (last + 1)) .symlink s with
          | none => (.error .enomem, s)
          | some (link, s) =>
            match kmalloc target s with
            -- the node stays allocated
            | (none, s) => (.error .enomem, s)
            | (some buf, s) =>
              let s := s.setNode link fun n =>
                { n with data := some buf, size := target.length, capacity := target.length + 1 }
              (.ok (), ((addChild dir link s).setErr .none).markDirty)

/-- The directory an existing path's new name goes to: the common part of `vfs_rename` and
`vfs_link`. -/
def existingDir (path : Path) (last : ℕ) (s : State B) : Option ℕ :=
  match if last = 0 then some root else vfsLookup (path.take last) s with
  | none => none
  | some dir => if (s.nodes dir).type = some .dir then some dir else none

def vfsLink (target linkname : Path) (s : State B) : Result B :=
  match vfsLookup target s with
  | none => (.error .enoent, s)
  | some t =>
    if (s.nodes t).type ≠ some .file then (.error .enoent, s)
    else if (vfsLookup linkname s).isSome then (.error .eexist, s)
    else
      -- the copy of the name is not bounded
      let s := s.noteOverrun (decide (vfsPathMax ≤ linkname.length))
      match lastSlash linkname with
      | none => (.error .einval, s)
      | some last =>
        match existingDir linkname last s with
        | none => (.error .enotdir, s)
        | some dir =>
          match allocNode (linkname.drop (last + 1)) .file s with
          | none => (.error .enomem, s)
          | some (link, s) =>
            let tn := s.nodes t
            let refs := (tn.refs + 1) % 2 ^ 32
            let s := s.setNode link fun n =>
              { n with data := tn.data, size := tn.size, capacity := tn.capacity, mode := tn.mode }
            let s := s.setNode t fun n => { n with refs := refs }
            let s := s.setNode link fun n => { n with refs := refs }
            (.ok (), addChild dir link s)

/-! ### Removal -/

/-- What the bucket headed by `n` points at when `n` goes: the next child in it. -/
def nextInBucket (n : ℕ) (s : State B) : ℕ :=
  match firstOnChain s.sibling
      (fun c => decide (nameBucket (s.nodes c).name = nameBucket (s.nodes n).name)) vfsMaxNodes
      (s.sibling n) with
  | none => 0
  | some c => c + 1

def repairBucket (p n : ℕ) (s : State B) : ℕ → ℕ → ℕ :=
  let b := nameBucket (s.nodes n).name
  if s.childBucket p b = n + 1 then
    Function.update s.childBucket p (Function.update (s.childBucket p) b (nextInBucket n s))
  else s.childBucket

/-- Take `n` off the child list of its parent, and repair the bucket it headed. -/
def unlinkFromParent (n : ℕ) (s : State B) : State B :=
  match (s.nodes n).parent with
  | none => s
  | some p =>
    if (s.nodes p).child = some n then
      (s.setNode p fun m => { m with child := (s.nodes n).sibling }).setBuckets (repairBucket p n s)
    else
      match firstOnChain s.sibling (fun c => decide (s.sibling c = some n)) vfsMaxNodes
          (s.nodes p).child with
      | none => s
      | some c =>
        (s.setNode c fun m => { m with sibling := (s.nodes n).sibling }).setBuckets
          (repairBucket p n s)

/-- The nodes `vfs_unlink` counts: files with the buffer of `n`. -/
def sharers (n : ℕ) (s : State B) : List ℕ :=
  (List.range s.nodeCount).filter fun i =>
    decide ((s.nodes i).type = some .file) && decide ((s.nodes i).data = (s.nodes n).data)

def shareCount (n : ℕ) (s : State B) : ℕ :=
  if (s.nodes n).type = some .file ∧ (s.nodes n).data ≠ none then (sharers n s).length else 0

/-- The end of `vfs_unlink`, when the node is off its list: drop its share of the buffer. -/
def dropData (n : ℕ) (s : State B) : State B :=
  if shareCount n s ≤ 1 then kfree (s.nodes n).data s
  else
    { s with nodes := fun i =>
        if i ∈ sharers n s ∧ i ≠ n ∧ 1 < (s.nodes i).refs then
          { s.nodes i with refs := (s.nodes i).refs - 1 }
        else s.nodes i }

def vfsUnlink (path : Path) : State B → Result B :=
  unlessSaving fun s =>
    match vfsLookup path s with
    | none => (.error .enoent, s)
    | some n =>
      if n = root then (.error .einval, s)
      else if (s.nodes n).type ≠ some .file ∧ (s.nodes n).type ≠ some .symlink then
        (.error .eisdir, s)
      else
        let s := dropData n (unlinkFromParent n s)
        (.ok (), (s.setNode n fun m =>
          { m with data := none, size := 0, blobId := 0, type := none, name := [], parent := none,
                   sibling := none }).markDirty)

def vfsRmdir (path : Path) : State B → Result B :=
  unlessSaving fun s =>
    match vfsLookup path s with
    | none => (.error .enoent, s)
    | some n =>
      if n = root then (.error .einval, s)
      else if (s.nodes n).type ≠ some .dir then (.error .enotdir, s)
      else if (s.nodes n).child.isSome then (.error .ebusy, s)
      else
        (.ok (), ((unlinkFromParent n s).setNode n fun m =>
          { m with type := none, name := [], parent := none, sibling := none,
                   child := none }).markDirty)

/-- The names on the way up from `n`, at most `k` of them. -/
def namesUp (s : State B) : ℕ → Option ℕ → List Path
  | 0, _ => []
  | _, none => []
  | k + 1, some n => if n = root then [] else (s.nodes n).name :: namesUp s k (s.nodes n).parent

/-- `node_path`: the last sixteen names, cut to the buffer. -/
def nodePath (s : State B) (n : ℕ) : Path :=
  (renderNames (namesUp s 16 (some n)).reverse).take (vfsPathMax - 1)

/-- The loop of `vfs_remove_tree` over the children of `n`. -/
def removeChildren (removeTree : Path → State B → Result B) (n : ℕ) : ℕ → State B → Result B
  | 0, s => (.error .eio, s)
  | k + 1, s =>
    match (s.nodes n).child with
    | none => (.ok (), s)
    | some c =>
      match removeTree (nodePath s c) s with
      | (.error _, s) => (.error .eio, s)
      | (.ok (), s) => removeChildren removeTree n k s

/-- `vfs_remove_tree` with bounds on the number of children and on the depth of the recursion. The
source has none: the path of a child more than sixteen levels down is not its own, and the recursion
need not end. -/
def vfsRemoveTree (width : ℕ) : ℕ → Path → State B → Result B
  | 0, _, s => (.error .eio, s)
  | depth + 1, path, s =>
    match vfsLookup path s with
    | none => (.error .einval, s)
    | some n =>
      if n = root then (.error .einval, s)
      else if (s.nodes n).type = some .file ∨ (s.nodes n).type = some .symlink then
        vfsUnlink path s
      else
        match removeChildren (vfsRemoveTree width depth) n width s with
        | (.error e, s) => (.error e, s)
        | (.ok (), s) => vfsRmdir path s

/-! ### Renaming and copying -/

def vfsRename (oldp newp : Path) : State B → Result B :=
  unlessSaving fun s =>
    match vfsLookup oldp s with
    | none => (.error .enoent, s)
    | some n =>
      if n = root then (.error .enoent, s)
      else if (vfsLookup newp s).isSome then (.error .eexist, s)
      else if vfsPathMax ≤ newp.length then (.error .einval, s)
      else
        match lastSlash newp with
        | none => (.error .einval, s)
        | some last =>
          match existingDir newp last s with
          | none => (.error .enotdir, s)
          | some dir =>
            let s := (unlinkFromParent n s).setNode n fun m =>
              { m with name := (newp.drop (last + 1)).take (vfsNameMax - 1) }
            (.ok (), (addChild dir n s).markDirty)

/-- The loop of `vfs_copy_stream`; every turn copies at least one byte. -/
def copyStreamLoop (api : BlobApi B) (src dst : Path) (size : ℕ) (promoteBlob : Bool) :
    ℕ → ℕ → State B → Result B
  | 0, _, s => (.ok (), s)
  | k + 1, off, s =>
    if size ≤ off then (.ok (), s)
    else
      match vfsReadAt api src off (min (size - off) vfsCopyChunk) s with
      | (.error _, s) => (.error .eio, s)
      | (.ok chunk, s) =>
        if chunk = [] then (.ok (), s)
        else
          match if promoteBlob && api.available s.blobs then vfsWriteAt api dst off chunk s
            else if off = 0 then vfsWriteFile dst chunk s
            else vfsWriteAt api dst off chunk s with
          | (.error _, s) => (.error .eio, s)
          | (.ok (), s) => copyStreamLoop api src dst size promoteBlob k (off + chunk.length) s

/-- Give a path, if it exists, the mode of the node it is a copy of. -/
def setModeAt (path : Path) (mode : ℕ) (s : State B) : State B :=
  match vfsLookup path s with
  | none => s
  | some d => s.setNode d fun n => { n with mode := mode }

def vfsCopyStream (api : BlobApi B) (src dst : Path) (size : ℕ) (promoteBlob : Bool) (mode : ℕ)
    (s : State B) : Result B :=
  match if promoteBlob && api.available s.blobs then vfsCreateBlobFile api dst size s
    else if size = 0 then vfsWriteFile dst [] s
    else (.ok (), s) with
  | (.error _, s) => (.error .eio, s)
  | (.ok (), s) =>
    match copyStreamLoop api src dst size promoteBlob size 0 s with
    | (.error e, s) => (.error e, s)
    | (.ok (), s) => (.ok (), setModeAt dst mode s)

/-- A child's path in the buffers of `copy_tree_rec`. -/
def childPath (path name : Path) : Path := appendFit (path ++ [slash]) name

/-- The loop of `copy_tree_rec` over a child list. -/
def copyChildren (copyTree : ℕ → Path → Path → State B → Result B) (srcPath dstPath : Path) :
    ℕ → Option ℕ → State B → Result B
  | 0, _, s => (.ok (), s)
  | _, none, s => (.ok (), s)
  | k + 1, some c, s =>
    if vfsPathMax ≤ srcPath.length + 1 ∨ vfsPathMax ≤ dstPath.length + 1 then (.error .enospc, s)
    else
      match copyTree c (childPath srcPath (s.nodes c).name) (childPath dstPath (s.nodes c).name) s
        with
      | (.error _, s) => (.error .eio, s)
      | (.ok (), s) => copyChildren copyTree srcPath dstPath k (s.sibling c) s

/-- `copy_tree_rec`, with a bound on the length of a child list. Every level makes the destination
path longer, so that the recursion ends at the latest when the path is as long as its buffer. -/
def copyTreeRec (api : BlobApi B) (promoteBlob : Bool) (width : ℕ) :
    ℕ → ℕ → Path → Path → State B → Result B
  | 0, _, _, _, s => (.error .enospc, s)
  | depth + 1, src, srcPath, dstPath, s =>
    if (s.nodes src).type = some .file then
      vfsCopyStream api srcPath dstPath (s.nodes src).size promoteBlob (s.nodes src).mode s
    else
      match vfsMkdir dstPath s with
      | (none, s) => (.error .eio, s)
      | (some _, s) =>
        let s := setModeAt dstPath (s.nodes src).mode s
        copyChildren (copyTreeRec api promoteBlob width depth) srcPath dstPath width
          (s.nodes src).child s

def vfsCopyTreeEx (api : BlobApi B) (src dst : Path) (promoteBlob : Bool) (s : State B) :
    Result B :=
  match vfsLookup src s with
  | none => (.error .enoent, s)
  | some n => copyTreeRec api promoteBlob (vfsMaxNodes + 1) (vfsPathMax + 1) n src dst s

def vfsCopyTree (api : BlobApi B) (src dst : Path) (s : State B) : Result B :=
  vfsCopyTreeEx api src dst false s

/-! ### Runs -/

/-- The operations, and the start and end of a PeakDisk save. -/
inductive Call
  | mkdir (path : Path)
  | createFile (path : Path)
  | writeFile (path : Path) (bytes : List UInt8)
  | writeAt (path : Path) (off : ℕ) (bytes : List UInt8)
  | bindBlob (path : Path) (blobId size : ℕ)
  | symlink (target linkpath : Path)
  | link (target linkname : Path)
  | rename (oldp newp : Path)
  | unlink (path : Path)
  | rmdir (path : Path)
  | removeTree (width depth : ℕ) (path : Path)
  | copyTree (src dst : Path)
  | setSaving (saving : Bool)

def State.step (api : BlobApi B) (s : State B) : Call → State B
  | .mkdir path => (vfsMkdir path s).2
  | .createFile path => (vfsCreateFile path s).2
  | .writeFile path bytes => (vfsWriteFile path bytes s).2
  | .writeAt path off bytes => (vfsWriteAt api path off bytes s).2
  | .bindBlob path blobId size => (vfsBindBlob api path blobId size s).2
  | .symlink target linkpath => (vfsSymlink target linkpath s).2
  | .link target linkname => (vfsLink target linkname s).2
  | .rename oldp newp => (vfsRename oldp newp s).2
  | .unlink path => (vfsUnlink path s).2
  | .rmdir path => (vfsRmdir path s).2
  | .removeTree width depth path => (vfsRemoveTree width depth path s).2
  | .copyTree src dst => (vfsCopyTree api src dst s).2
  | .setSaving saving => { s with saving := saving }

/-- The start of every run. -/
def State.Booted (s : State B) : Prop := ∃ oom blobs, s = vfsInit oom blobs

end PeakOs.Vfs
