import PeakOs.Lib.PartialMap
import PeakOs.Peakdisk.Saves
import PeakOs.Vfs.Export
import PeakOs.Vfs.SharingWrites

/-!
# The dirty flag

The workspace is reported clean when `workspace_dirty` is not set. A change of the file system is to
set it, a successful save to clear it; and because a save takes its time, changes are to be refused
while it runs. Two helpers of `kernel/vfs.c` do this, `vfs_note_workspace_dirty` at the end of an
operation and `vfs_reject_if_saving` at its beginning.

`vfs_mkdir`, `vfs_create_file` and `vfs_link` have neither. And an operation that fails on the way
may have made the directories above its file, or the file itself, and leaves without a note.

None of this matters as long as no save has begun its work and the next one will be made anyway.
Otherwise the flag is right: what is clean is what was saved.

## Main results

* `Mutation.run_cases` — an operation leaves the files alone, or leaves a note
* `Tracked.step` — one event
* `clean_of_run` — every run
* `mkdir_unnoticed` — a directory that no save will see
-/

namespace PeakOs.Peakdisk

open Vfs (State BlobApi Path SameFiles vfsLookup vfsExportRamdisk vfsExportRamdiskSize)
open Function

variable {B : Type}

/-! ### The operations -/

inductive Mutation
  | mkdir (path : Path)
  | createFile (path : Path)
  | writeFile (path : Path) (bytes : List UInt8)
  | writeAt (path : Path) (off : ℕ) (bytes : List UInt8)
  | link (target linkname : Path)
  | symlink (target linkpath : Path)
  | rename (oldp newp : Path)
  | unlink (path : Path)
  | rmdir (path : Path)
  | chmod (path : Path) (mode : ℕ)

def Mutation.run (api : BlobApi B) (s : State B) : Mutation → State B
  | .mkdir path => (Vfs.vfsMkdir path s).2
  | .createFile path => (Vfs.vfsCreateFile path s).2
  | .writeFile path bytes => (Vfs.vfsWriteFile path bytes s).2
  | .writeAt path off bytes => (Vfs.vfsWriteAt api path off bytes s).2
  | .link target linkname => (Vfs.vfsLink target linkname s).2
  | .symlink target linkpath => (Vfs.vfsSymlink target linkpath s).2
  | .rename oldp newp => (Vfs.vfsRename oldp newp s).2
  | .unlink path => (Vfs.vfsUnlink path s).2
  | .rmdir path => (Vfs.vfsRmdir path s).2
  | .chmod path mode => (Vfs.vfsChmod path mode s).2

/-- The directory a new name goes to is there. -/
def ParentThere (s : State B) (path : Path) : Prop :=
  ∀ last, Vfs.lastSlash (path.take (Vfs.vfsPathMax - 1)) = some last → last ≠ 0 →
    vfsLookup (path.take last) s ≠ none

/-- Nothing is made that goes unnoticed: operations without a note find what they are to make, or
refuse it, and the others do not run out of memory on the way. -/
def Recorded (s : State B) : Mutation → Prop
  | .mkdir path | .createFile path => vfsLookup path s ≠ none
  | .link target linkname => ∀ t, vfsLookup target s = some t →
    (s.nodes t).type = some .file → vfsLookup linkname s ≠ none
  | .writeFile path _ => s.saving = false → ∀ p, (Vfs.pathForIo path s).1 = .ok p →
    vfsLookup p s ≠ none ∨ ParentThere s p ∧ s.oom s.nextBuf = false
  | .symlink _ linkpath => s.saving = false → ParentThere s linkpath ∧ s.oom s.nextBuf = false
  | _ => True

/-- No file is in the blob store. -/
def NoBlobs (s : State B) : Prop := ∀ i, (s.nodes i).blobId = 0

section Blobs

variable {s : State B} (h : NoBlobs s)

include h

variable {t : State B} {name : Path} {type : Vfs.VfsType} {i : ℕ}

theorem NoBlobs.of_nodes (hnodes : t.nodes = s.nodes) : NoBlobs t := by
  intro i
  rw [hnodes]
  exact h i

theorem NoBlobs.markDirty : NoBlobs s.markDirty := h.of_nodes rfl

theorem NoBlobs.setErr (e : Vfs.VfsError) : NoBlobs (s.setErr e) := h.of_nodes rfl

/-- An update of a node that puts no blob there. -/
theorem NoBlobs.setNode (j : ℕ) {f : Vfs.Node → Vfs.Node}
    (hf : ∀ n, n.blobId = 0 → (f n).blobId = 0) : NoBlobs (s.setNode j f) := by
  intro i
  rw [State.setNode]
  dsimp only
  rw [update_apply]
  split
  · exact hf _ (h j)
  · exact h i

theorem NoBlobs.setBuckets (buckets : ℕ → ℕ → ℕ) : NoBlobs (s.setBuckets buckets) :=
  h.of_nodes rfl

theorem NoBlobs.addChild (parent child : ℕ) : NoBlobs (Vfs.addChild parent child s) := by
  refine NoBlobs.setBuckets (NoBlobs.setNode (NoBlobs.setNode (NoBlobs.setNode h _ ?_) _ ?_) _ ?_) _
  all_goals exact fun _ hn => hn

theorem NoBlobs.allocNode (halloc : Vfs.allocNode name type s = some (i, t)) : NoBlobs t := by
  intro j
  rw [(Vfs.allocNode_fields halloc).1, update_apply]
  split
  · rfl
  · exact h j

omit h in
theorem allocNode_heap (halloc : Vfs.allocNode name type s = some (i, t)) :
    t.nextBuf = s.nextBuf ∧ t.oom = s.oom := by
  obtain ⟨-, rfl⟩ := Vfs.allocNode_some halloc
  exact ⟨rfl, rfl⟩

theorem NoBlobs.unlinkFromParent (n : ℕ) : NoBlobs (Vfs.unlinkFromParent n s) := by
  rw [Vfs.unlinkFromParent]
  split
  · exact h
  split
  · refine NoBlobs.setBuckets (NoBlobs.setNode h _ ?_) _
    exact fun _ hn => hn
  split
  · exact h
  · refine NoBlobs.setBuckets (NoBlobs.setNode h _ ?_) _
    exact fun _ hn => hn

theorem NoBlobs.dropData (n : ℕ) : NoBlobs (Vfs.dropData n s) := by
  rw [Vfs.dropData]
  split
  · rw [Vfs.kfree_eq]
    exact h.of_nodes rfl
  intro i
  dsimp only
  split <;> exact h i

theorem NoBlobs.mkdirLoop (parts : List Path) (cur bi : ℕ) :
    NoBlobs (Vfs.mkdirLoop parts cur bi s).2 := by
  induction parts generalizing cur bi s with
  | nil => exact h
  | cons part parts ih =>
    rw [Vfs.mkdirLoop]
    have hnote : NoBlobs (s.noteOverrun (decide (Vfs.vfsPathMax ≤ Vfs.buildNext bi part))) :=
      h.of_nodes rfl
    split
    · split
      · exact ih hnote _ _
      · exact hnote
    split
    · exact hnote
    next halloc => exact ih ((hnote.allocNode halloc).addChild cur _) _ _

variable (path : Path)

theorem NoBlobs.vfsMkdir : NoBlobs (Vfs.vfsMkdir path s).2 := by
  rw [Vfs.vfsMkdir]
  split
  · exact h
  split
  · exact h
  · exact h.mkdirLoop _ _ _

theorem NoBlobs.parentDir (last : ℕ) : NoBlobs (Vfs.parentDir path last s).2 := by
  rcases (Vfs.parentDir_cases path last s).1 with he | ⟨-, he⟩ <;> rw [he]
  · exact h
  · exact h.vfsMkdir _

theorem NoBlobs.vfsCreateFile : NoBlobs (Vfs.vfsCreateFile path s).2 := by
  rw [Vfs.vfsCreateFile]
  split
  · exact h
  split
  · exact h
  next last _ =>
  have hdir := h.parentDir path last
  generalize Vfs.parentDir path last s = res at hdir
  rcases res with ⟨_ | dir, t⟩
  · exact hdir
  dsimp only
  split
  · exact hdir
  next halloc => exact (NoBlobs.allocNode hdir halloc).addChild dir _

theorem NoBlobs.kmalloc (bytes : List UInt8) : NoBlobs (Vfs.kmalloc bytes s).2 := by
  rw [Vfs.kmalloc]
  split <;> exact h.of_nodes rfl

theorem NoBlobs.kfree (buf : Option ℕ) : NoBlobs (Vfs.kfree buf s) := by
  rw [Vfs.kfree_eq]
  exact h.of_nodes rfl

theorem NoBlobs.unlessSaving {k : State B → Vfs.Result B} (hk : NoBlobs (k s).2) :
    NoBlobs (Vfs.unlessSaving k s).2 := by
  rw [Vfs.unlessSaving]
  split
  · exact h.setErr _
  · exact hk

/-- `vfs_write_file` puts no blob anywhere. -/
theorem NoBlobs.vfsWriteFile (bytes : List UInt8) :
    NoBlobs (Vfs.vfsWriteFile path bytes s).2 := by
  obtain ⟨e, he | ⟨-, out, u, -, -, he⟩⟩ := Vfs.vfsWriteFile_cases path bytes s
  · rw [he]
    exact h.setErr e
  have hfile := NoBlobs.vfsCreateFile (h.setErr e) out
  obtain ⟨hc, he⟩ | ⟨f, v, hc, he⟩ := he <;> rw [hc] at hfile
  · rw [he]
    exact NoBlobs.setErr hfile _
  have hmem := NoBlobs.kmalloc hfile bytes
  obtain ⟨hm, he⟩ | ⟨buf, hm, he⟩ := he <;> rw [hm] at hmem <;> rw [he]
  · exact NoBlobs.setErr hmem _
  refine NoBlobs.markDirty (NoBlobs.setErr (NoBlobs.setNode (NoBlobs.kfree hmem _) f ?_) _)
  exact fun _ _ => rfl

theorem NoBlobs.growNode (f need : ℕ) : NoBlobs (Vfs.growNode f need s).2 := by
  rw [Vfs.growNode]
  split
  · have hmem := h.kmalloc (Vfs.grownBytes ((s.nodes f).data.map s.bufs) (s.nodes f).size need)
    generalize Vfs.kmalloc (Vfs.grownBytes ((s.nodes f).data.map s.bufs) (s.nodes f).size need) s =
      res at hmem
    rcases res with ⟨_ | buf, w⟩
    · exact hmem
    dsimp only
    refine NoBlobs.setNode (NoBlobs.kfree hmem _) f ?_
    exact fun _ hn => hn
  · exact h

theorem NoBlobs.copyInto (f off : ℕ) (bytes : List UInt8) :
    NoBlobs (Vfs.copyInto f off bytes s) := by
  rw [Vfs.copyInto]
  split
  · exact h
  · exact h.of_nodes rfl

variable (api : BlobApi B)

theorem NoBlobs.writeNode (f off : ℕ) (bytes : List UInt8) :
    NoBlobs (Vfs.writeNode api f off bytes s).2 := by
  rw [Vfs.writeNode, if_neg (not_not.2 (h f))]
  have hgrow := h.growNode f ((off + bytes.length) % 2 ^ 64)
  dsimp only
  generalize Vfs.growNode f ((off + bytes.length) % 2 ^ 64) s = res at hgrow
  rcases res with ⟨_ | _, t⟩
  · exact hgrow
  · refine NoBlobs.markDirty (NoBlobs.setNode (NoBlobs.copyInto hgrow f off bytes) f ?_)
    exact fun _ hn => hn

theorem NoBlobs.vfsWriteAt (path : Path) (off : ℕ) (bytes : List UInt8) :
    NoBlobs (Vfs.vfsWriteAt api path off bytes s).2 := by
  obtain ⟨e, he | ⟨-, f, -, -, he⟩⟩ := Vfs.vfsWriteAt_cases api path off bytes s <;> rw [he]
  · exact h.setErr e
  · exact NoBlobs.writeNode (h.setErr e) api f off bytes

theorem NoBlobs.vfsSymlink (target linkpath : Path) :
    NoBlobs (Vfs.vfsSymlink target linkpath s).2 := by
  refine h.unlessSaving ?_
  iterate 4
    split
    · exact h
  next last _ =>
  have hdir := h.parentDir linkpath last
  generalize Vfs.parentDir linkpath last s = res at hdir
  rcases res with ⟨_ | dir, t⟩
  · exact hdir
  dsimp only
  split
  · exact hdir
  next link u halloc =>
  have hmem := NoBlobs.kmalloc (NoBlobs.allocNode hdir halloc) target
  generalize Vfs.kmalloc target u = res at hmem
  rcases res with ⟨_ | buf, w⟩
  · exact hmem
  refine NoBlobs.markDirty (NoBlobs.setErr (NoBlobs.addChild (NoBlobs.setNode hmem link ?_)
    dir link) _)
  exact fun _ hn => hn

theorem NoBlobs.vfsLink (target linkname : Path) : NoBlobs (Vfs.vfsLink target linkname s).2 := by
  rw [Vfs.vfsLink]
  iterate 3
    split
    · exact h
  have hnote : NoBlobs (s.noteOverrun (decide (Vfs.vfsPathMax ≤ linkname.length))) := h.of_nodes rfl
  dsimp only
  iterate 3
    split
    · exact hnote
  next halloc =>
  refine NoBlobs.addChild (NoBlobs.setNode (NoBlobs.setNode (NoBlobs.setNode
    (NoBlobs.allocNode hnote halloc) _ ?_) _ ?_) _ ?_) _ _
  all_goals exact fun _ hn => hn

theorem NoBlobs.vfsRename (oldp newp : Path) : NoBlobs (Vfs.vfsRename oldp newp s).2 := by
  refine h.unlessSaving ?_
  iterate 6
    split
    · exact h
  refine NoBlobs.markDirty (NoBlobs.addChild (NoBlobs.setNode (h.unlinkFromParent _) _ ?_) _ _)
  exact fun _ hn => hn

theorem NoBlobs.vfsUnlink : NoBlobs (Vfs.vfsUnlink path s).2 := by
  refine h.unlessSaving ?_
  iterate 3
    split
    · exact h
  refine NoBlobs.markDirty (NoBlobs.setNode ((h.unlinkFromParent _).dropData _) _ ?_)
  exact fun _ _ => rfl

theorem NoBlobs.vfsRmdir : NoBlobs (Vfs.vfsRmdir path s).2 := by
  refine h.unlessSaving ?_
  iterate 4
    split
    · exact h
  refine NoBlobs.markDirty (NoBlobs.setNode (h.unlinkFromParent _) _ ?_)
  exact fun _ hn => hn

theorem NoBlobs.vfsChmod (mode : ℕ) : NoBlobs (Vfs.vfsChmod path mode s).2 := by
  refine h.unlessSaving ?_
  iterate 2
    split
    · exact h
  refine NoBlobs.markDirty (NoBlobs.setNode h _ ?_)
  exact fun _ hn => hn

/-- **No operation puts a file into the blob store.** -/
theorem NoBlobs.run (c : Mutation) : NoBlobs (c.run api s) := by
  cases c with
  | mkdir path => exact h.vfsMkdir path
  | createFile path => exact h.vfsCreateFile path
  | writeFile path bytes => exact h.vfsWriteFile path bytes
  | writeAt path off bytes => exact h.vfsWriteAt api path off bytes
  | link target linkname => exact h.vfsLink target linkname
  | symlink target linkpath => exact h.vfsSymlink target linkpath
  | rename oldp newp => exact h.vfsRename oldp newp
  | unlink path => exact h.vfsUnlink path
  | rmdir path => exact h.vfsRmdir path
  | chmod path mode => exact h.vfsChmod path mode

end Blobs

/-! ### What an operation does to the files -/

/-- The files are as they were, or there is a note. -/
def Noted (s t : State B) : Prop := SameFiles s t ∨ s.saving = false ∧ t.dirty = true

theorem sameFiles_setErr (e : Vfs.VfsError) (s : State B) : SameFiles s (s.setErr e) :=
  ⟨rfl, rfl, rfl, rfl⟩

theorem Noted.of_setErr {e : Vfs.VfsError} {s t : State B} (h : Noted (s.setErr e) t) :
    Noted s t := by
  rcases h with ⟨hnodes, hbuckets, hbufs, hblobs⟩ | h
  · exact .inl ⟨hnodes, hbuckets, hbufs, hblobs⟩
  · exact .inr h

/-- A call during a save changes nothing. -/
theorem noted_unlessSaving {k : State B → Vfs.Result B} {s : State B}
    (h : s.saving = false → Noted s (k s).2) : Noted s (Vfs.unlessSaving k s).2 := by
  rw [Vfs.unlessSaving]
  split
  · exact .inl (sameFiles_setErr _ s)
  next hsaving => exact h (Bool.not_eq_true _ ▸ hsaving)

section Operations

variable {s : State B}

variable {path : Path} {t : State B} {f : ℕ}

/-- The directory is there as long as the files are the same. -/
theorem ParentThere.congr (h : ParentThere s path) (hst : SameFiles s t) : ParentThere t path := by
  intro last hlast hne
  rw [hst.vfsLookup]
  exact h last hlast hne

theorem vfsMkdir_of_there (h : vfsLookup path s ≠ none) : (Vfs.vfsMkdir path s).2 = s := by
  rw [Vfs.vfsMkdir]
  rcases hl : vfsLookup path s with _ | e
  · exact absurd hl h
  · rfl

theorem vfsCreateFile_of_there (h : vfsLookup path s ≠ none) :
    (Vfs.vfsCreateFile path s).2 = s := by
  rw [Vfs.vfsCreateFile]
  rcases hl : vfsLookup path s with _ | e
  · exact absurd hl h
  · rfl

theorem parentDir_of_there {last : ℕ}
    (h : last ≠ 0 → vfsLookup (path.take last) s ≠ none) : (Vfs.parentDir path last s).2 = s := by
  rcases (Vfs.parentDir_cases path last s).1 with he | ⟨hlast, he⟩ <;> rw [he]
  exact vfsMkdir_of_there (h hlast)

theorem noted_vfsLink {target linkname : Path}
    (h : ∀ t, vfsLookup target s = some t → (s.nodes t).type = some .file →
      vfsLookup linkname s ≠ none) : Noted s (Vfs.vfsLink target linkname s).2 := by
  rw [Vfs.vfsLink]
  rcases hl : vfsLookup target s with _ | t
  · exact .inl (.refl s)
  dsimp only
  split
  · exact .inl (.refl s)
  next htype =>
  rw [if_pos (Option.isSome_iff_ne_none.2 (h t hl (not_not.1 htype)))]
  exact .inl (.refl s)

/-- A file that is made in a directory that is there. -/
theorem vfsCreateFile_cases (hthere : vfsLookup path s ≠ none ∨ ParentThere s path) :
    let t := Vfs.vfsCreateFile path s
    t.2 = s ∨ vfsLookup path s = none ∧ t.1 ≠ none ∧ t.2.nextBuf = s.nextBuf ∧ t.2.oom = s.oom := by
  dsimp only
  by_cases hl : vfsLookup path s = none
  · have hparent := hthere.resolve_left (not_not.2 hl)
    rw [Vfs.vfsCreateFile, hl]
    rcases hlast : Vfs.lastSlash (path.take (Vfs.vfsPathMax - 1)) with _ | last
    · exact .inl rfl
    have hdir := parentDir_of_there (hparent last hlast)
    dsimp only
    generalize Vfs.parentDir path last s = res at hdir
    rcases res with ⟨_ | dir, t⟩
    · exact .inl hdir
    obtain rfl : t = s := hdir
    rcases halloc : Vfs.allocNode (path.drop (last + 1)) .file t with _ | ⟨f, u⟩
    · exact .inl (by dsimp only; rw [halloc])
    dsimp only
    rw [halloc]
    obtain ⟨hbuf, hoom⟩ := allocNode_heap halloc
    exact .inr ⟨rfl, Option.some_ne_none f, hbuf, hoom⟩
  · exact .inl (vfsCreateFile_of_there hl)

/-- A write to a file that is there, or can be made, is noted. -/
theorem noted_vfsWriteFile (bytes : List UInt8)
    (h : s.saving = false → ∀ p, (Vfs.pathForIo path s).1 = .ok p →
      vfsLookup p s ≠ none ∨ ParentThere s p ∧ s.oom s.nextBuf = false) :
    Noted s (Vfs.vfsWriteFile path bytes s).2 := by
  obtain ⟨e, he | ⟨hsaving, p, u, hio, -, he⟩⟩ := Vfs.vfsWriteFile_cases path bytes s
  · rw [he]
    exact .inl (sameFiles_setErr e s)
  have hsame := sameFiles_setErr e s
  have hthere : vfsLookup p (s.setErr e) ≠ none ∨
      ParentThere (s.setErr e) p ∧ s.oom s.nextBuf = false := by
    rw [hsame.vfsLookup]
    exact (h hsaving p (by rw [hio])).imp_right (And.imp_left (·.congr hsame))
  have hcreate := vfsCreateFile_cases (hthere.imp id And.left)
  obtain ⟨hc, he⟩ | ⟨f, v, hc, he⟩ := he <;> rw [hc] at hcreate
  · rcases hcreate with hu | ⟨-, hne, -⟩
    · rw [he, show u = _ from hu]
      exact .inl ⟨rfl, rfl, rfl, rfl⟩
    · exact absurd rfl hne
  obtain ⟨hmem, he⟩ | ⟨buf, -, he⟩ := he <;> rw [he]
  · -- no memory: the file was there before, so nothing has changed
    obtain ⟨hoom, rfl⟩ := Vfs.kmalloc_none hmem
    rcases hcreate with rfl | ⟨hnone, -, hbuf, hoom'⟩
    · exact .inl ⟨rfl, rfl, rfl, rfl⟩
    have hfree := (hthere.resolve_left (not_not.2 hnone)).2
    dsimp only at hbuf hoom'
    rw [hbuf, hoom'] at hoom
    rw [show (s.setErr e).oom (s.setErr e).nextBuf = false from hfree] at hoom
    cases hoom
  exact .inr ⟨hsaving, rfl⟩

theorem noted_vfsSymlink (target : Path) {linkpath : Path}
    (h : s.saving = false → ParentThere s linkpath ∧ s.oom s.nextBuf = false) :
    Noted s (Vfs.vfsSymlink target linkpath s).2 := by
  refine noted_unlessSaving fun hsaving => ?_
  obtain ⟨hparent, hmem⟩ := h hsaving
  iterate 3
    split
    · exact .inl (.refl s)
  rcases hlast : Vfs.lastSlash (linkpath.take (Vfs.vfsPathMax - 1)) with _ | last
  · exact .inl (.refl s)
  have hdir := parentDir_of_there (hparent last hlast)
  dsimp only
  generalize Vfs.parentDir linkpath last s = res at hdir
  rcases res with ⟨_ | dir, t⟩
  · rw [show t = s from hdir]
    exact .inl (.refl s)
  obtain rfl : t = s := hdir
  dsimp only
  rcases halloc : Vfs.allocNode (linkpath.drop (last + 1)) .symlink t with _ | ⟨link, u⟩
  · exact .inl (.refl t)
  obtain ⟨hbuf, hoom⟩ := allocNode_heap halloc
  dsimp only
  rw [Vfs.kmalloc, hbuf, hoom, hmem]
  exact .inr ⟨hsaving, rfl⟩

theorem sameFiles_growNode {need : ℕ} (h : Vfs.growNode f need s = (false, t)) : SameFiles s t := by
  rw [Vfs.growNode] at h
  split at h
  · split at h
    next hmem =>
      cases h
      obtain ⟨-, rfl⟩ := Vfs.kmalloc_none hmem
      exact ⟨rfl, rfl, rfl, rfl⟩
    · cases h
  · cases h

variable (api : BlobApi B)

theorem noted_writeNode (hno : (s.nodes f).blobId = 0)
    (hsaving : s.saving = false) (off : ℕ) (bytes : List UInt8) :
    Noted s (Vfs.writeNode api f off bytes s).2 := by
  rw [Vfs.writeNode, if_neg (not_not.2 hno)]
  dsimp only
  rcases hgrow : Vfs.growNode f ((off + bytes.length) % 2 ^ 64) s with ⟨_ | _, t⟩
  · exact .inl (sameFiles_growNode hgrow)
  · exact .inr ⟨hsaving, rfl⟩

theorem noted_vfsWriteAt (hno : NoBlobs s) (path : Path) (off : ℕ)
    (bytes : List UInt8) : Noted s (Vfs.vfsWriteAt api path off bytes s).2 := by
  obtain ⟨e, he | ⟨hsaving, f, -, -, he⟩⟩ := Vfs.vfsWriteAt_cases api path off bytes s <;> rw [he]
  · exact .inl (sameFiles_setErr e s)
  · exact (noted_writeNode api (hno.setErr e f) hsaving off bytes).of_setErr

theorem noted_vfsRename (oldp newp : Path) : Noted s (Vfs.vfsRename oldp newp s).2 := by
  refine noted_unlessSaving fun hsaving => ?_
  iterate 6
    split
    · exact .inl (.refl s)
  exact .inr ⟨hsaving, rfl⟩

theorem noted_vfsUnlink (path : Path) : Noted s (Vfs.vfsUnlink path s).2 := by
  refine noted_unlessSaving fun hsaving => ?_
  iterate 3
    split
    · exact .inl (.refl s)
  exact .inr ⟨hsaving, rfl⟩

theorem noted_vfsRmdir (path : Path) : Noted s (Vfs.vfsRmdir path s).2 := by
  refine noted_unlessSaving fun hsaving => ?_
  iterate 4
    split
    · exact .inl (.refl s)
  exact .inr ⟨hsaving, rfl⟩

theorem noted_vfsChmod (path : Path) (mode : ℕ) : Noted s (Vfs.vfsChmod path mode s).2 := by
  refine noted_unlessSaving fun hsaving => ?_
  iterate 2
    split
    · exact .inl (.refl s)
  exact .inr ⟨hsaving, rfl⟩

/-- **An operation leaves the files alone, or leaves a note.** -/
theorem Mutation.run_cases (hno : NoBlobs s) {c : Mutation} (h : Recorded s c) :
    Noted s (c.run api s) := by
  cases c with
  | mkdir path =>
    left
    rw [Mutation.run, vfsMkdir_of_there h]
    exact .refl s
  | createFile path =>
    left
    rw [Mutation.run, vfsCreateFile_of_there h]
    exact .refl s
  | writeFile path bytes => exact noted_vfsWriteFile bytes h
  | writeAt path off bytes => exact noted_vfsWriteAt api hno path off bytes
  | link target linkname => exact noted_vfsLink h
  | symlink target linkpath => exact noted_vfsSymlink target h
  | rename oldp newp => exact noted_vfsRename oldp newp
  | unlink path => exact noted_vfsUnlink path
  | rmdir path => exact noted_vfsRmdir path
  | chmod path mode => exact noted_vfsChmod path mode

end Operations

/-! ### The workspace -/

/-- The file system, and the saves of its workspace. -/
structure Workspace (B : Type) where
  saves : Saves
  fs : State B

namespace Workspace

inductive Event
  | mutate (now : UInt64) (c : Mutation)
  | save (e : Saves.Event)

/-- What an operation finds: `vfs_reject_if_saving` asks `peakdisk_busy`. -/
def ready (w : Workspace B) : State B :=
  { w.fs with saving := w.saves.busy || w.saves.queued, dirty := false }

/-- The size of the buffer that task `i` exports to, if it goes on with its export. -/
def exportRoom (q : Saves) (i : ℕ) : Option ℤ :=
  match q.running, q.tasks i with
  | none, some ⟨.measured need, _⟩ => some need
  | _, _ => none

section System

variable (api : BlobApi B) (profile : ℤ)

/-- The image of the files, exported to a buffer of the size that is asked for. -/
def exportImage (s : State B) : Option (List UInt8) :=
  (vfsExportRamdisk api (vfsExportRamdiskSize profile s).toNat profile s).1

/-- What a save reads from the file system. -/
def saveEnv (room : Option ℤ) (s : State B) (env : SaveEnv) : SaveEnv :=
  { env with
    persistProfile := profile
    exportSize := vfsExportRamdiskSize profile s
    exported := (room.bind fun need => (vfsExportRamdisk api need.toNat profile s).1).getD [] }

/-- An event with what its function reads from the file system. -/
def fill (w : Workspace B) : Saves.Event → Saves.Event
  | .autosaveTick env => .autosaveTick
    { env with persistProfile := profile, exportSize := vfsExportRamdiskSize profile w.fs }
  | .save env => .save (saveEnv api profile none w.fs env)
  | .resume i env diskOk =>
    .resume i (saveEnv api profile (exportRoom w.saves i) w.fs env) diskOk
  | .saveAsync present spawn => .saveAsync present spawn
  | .markDirty now => .markDirty now

/-- The file system after an event of the saves: the export reads from the blob store. -/
def readBy (w : Workspace B) : Saves.Event → State B
  | .resume i _ _ =>
    match exportRoom w.saves i with
    | none => w.fs
    | some need => (vfsExportRamdisk api need.toNat profile w.fs).2
  | _ => w.fs

/-- An operation comes between two steps of the saves, never into one. -/
def step (w : Workspace B) : Event → Workspace B
  | .mutate now c =>
    if w.saves.running.isSome then w
    else
      let fs := c.run api w.ready
      ⟨if fs.dirty then Saves.peakdiskMarkDirty now w.saves else w.saves, fs⟩
  | .save e => ⟨w.saves.step (fill api profile w e), readBy api profile w e⟩

def Start (w : Workspace B) : Prop := w.saves.Start ∧ w.fs.Booted

/-- **What is clean is what was saved.** -/
def Sound (w : Workspace B) : Prop :=
  w.saves.dirty = false → ∀ image, w.saves.saved = some image →
    exportImage api profile w.fs = some image

/-- Saves are kept apart, and an operation leaves a note of what it makes, or comes when none is
needed: no save is at work, and there is a note already, or nothing to compare with. -/
def Watched (w : Workspace B) : Event → Prop
  | .mutate _ c => Recorded w.ready c ∨
    w.saves.busy = false ∧ (w.saves.dirty = true ∨ w.saves.saved = none)
  | .save e => w.saves.KeptApart e

/-! ### The invariant -/

/-- What a save has read is what the files are. -/
def Current (s : State B) : SavePc → Prop
  | .waiting | .entered => True
  | .measured need => need = vfsExportRamdiskSize profile s
  | .exported image | .sealed image | .writing image _ => exportImage api profile s = some image

/-- The saves know the files `s`. -/
structure UpToDate (q : Saves) (s : State B) : Prop where
  tasks : ∀ i t, q.tasks i = some t → Current api profile s t.pc
  saved : q.dirty = false → ∀ image, q.saved = some image → exportImage api profile s = some image

structure Tracked (w : Workspace B) : Prop where
  alone : w.saves.Alone
  noBlobs : NoBlobs w.fs
  upToDate : UpToDate api profile w.saves w.fs

end System

variable {api : BlobApi B} {profile : ℤ}

section Saves

variable {q : Saves} {s : State B} (h : UpToDate api profile q s)

include h

theorem UpToDate.tasks_update {pc : SavePc} (hpc : Current api profile s pc) (i : ℕ) (worker : Bool)
    {j : ℕ} {u : Task} (hu : update q.tasks i (some ⟨pc, worker⟩) j = some u) :
    Current api profile s u.pc := by
  rcases of_update_some hu with ⟨-, rfl⟩ | ⟨-, hu⟩
  · exact hpc
  · exact h.tasks j u hu

variable (i : ℕ)

theorem UpToDate.park (t : Task) {pc : SavePc} (hpc : Current api profile s pc) :
    UpToDate api profile (q.park i t pc) s :=
  ⟨fun _ _ hu => h.tasks_update hpc i t.worker hu, h.saved⟩

theorem UpToDate.go (t : Task) {pc : SavePc} (hpc : Current api profile s pc) :
    UpToDate api profile (q.go i t pc) s :=
  ⟨fun _ _ hu => h.tasks_update hpc i t.worker hu, h.saved⟩

theorem UpToDate.leave : UpToDate api profile (q.leave i) s := by
  refine ⟨fun j u hu => ?_, h.saved⟩
  exact h.tasks j u (of_update_none hu).2

theorem UpToDate.fail : UpToDate api profile (q.fail i) s :=
  ⟨(h.leave i).tasks, h.saved⟩

theorem UpToDate.complete {image : List UInt8} (himage : exportImage api profile s = some image)
    (i : ℕ) : UpToDate api profile (q.complete i image) s := by
  refine ⟨(h.leave i).tasks, fun _ image' hsaved => ?_⟩
  cases hsaved
  exact himage

theorem UpToDate.enter (env : SaveEnv) (i : ℕ) (t : Task) :
    UpToDate api profile (q.enter env i t) s := by
  rw [Saves.enter]
  split
  · have hbusy : UpToDate api profile { q with busy := true } s := ⟨h.tasks, h.saved⟩
    refine hbusy.park i t ?_
    exact trivial
  · exact h.leave i

omit h in
/-- An export that fits is one that worked. -/
theorem current_exported {need : ℤ} (hneed : need = vfsExportRamdiskSize profile s)
    {room : Option ℤ} (hroom : room = some need ∨ room = none) {env : SaveEnv}
    (hok : Saves.exportOk need (saveEnv api profile room s env).exported = true) :
    Current api profile s (.exported (saveEnv api profile room s env).exported) := by
  rw [Saves.exportOk, Bool.and_eq_true, decide_eq_true_iff, decide_eq_true_iff] at hok
  have hlen := hok.2
  have hmin : ¬ minImage ≤ ([] : List UInt8).length := by decide
  rcases hroom with rfl | rfl
  · show exportImage api profile s = _
    rw [saveEnv] at hlen ⊢
    dsimp only [Option.bind_some] at hlen ⊢
    rw [exportImage, ← hneed]
    generalize (vfsExportRamdisk api need.toNat profile s).1 = image at hlen
    rcases image with _ | image
    · exact absurd hlen hmin
    · rfl
  · exact absurd hlen hmin

theorem UpToDate.resume (env : SaveEnv) (diskOk : Bool) :
    UpToDate api profile (q.resume (saveEnv api profile (exportRoom q i) s env) diskOk i) s := by
  rw [Saves.resume]
  rcases ht : q.tasks i with _ | ⟨pc, worker⟩
  · exact h
  have hcur := h.tasks i _ ht
  rcases pc with _ | _ | need | image | image | ⟨image, k⟩
  all_goals dsimp only
  · have hqueued : UpToDate api profile { q with queued := false } s := ⟨h.tasks, h.saved⟩
    exact hqueued.enter _ i _
  · split
    · refine h.park i _ ?_
      exact rfl
    · exact h.fail i
  · have hroom : exportRoom q i = some need ∨ exportRoom q i = none := by
      rw [exportRoom, ht]
      rcases q.running with _ | j
      · exact .inl rfl
      · exact .inr rfl
    split
    next hok => exact h.park i _ (current_exported hcur hroom hok)
    · exact h.fail i
  · refine h.park i _ ?_
    exact hcur
  · refine h.go i _ ?_
    exact hcur
  · split
    · exact h.fail i
    split
    · split
      · refine h.park i _ ?_
        exact hcur
      · refine h.go i _ ?_
        exact hcur
    · exact h.complete hcur i

theorem UpToDate.spawnWorker (ok : Bool) : UpToDate api profile (q.spawnWorker ok) s := by
  rw [Saves.spawnWorker]
  split
  · refine ⟨fun _ _ hu => h.tasks_update ?_ q.nextTask true hu, h.saved⟩
    exact trivial
  · exact h

theorem UpToDate.saveAsync (present spawn : Bool) :
    UpToDate api profile (q.peakdiskSaveAsync present spawn) s := by
  rw [Saves.peakdiskSaveAsync]
  split
  · exact h
  split
  · exact h
  · have hqueued : UpToDate api profile { q with queued := true } s := ⟨h.tasks, h.saved⟩
    exact hqueued.spawnWorker spawn

theorem UpToDate.autosaveTick (env : Saves.TickEnv) :
    UpToDate api profile (q.peakdiskAutosaveTick env) s := by
  rw [Saves.peakdiskAutosaveTick]
  split
  · exact h.spawnWorker env.spawn
  iterate 6
    split
    · exact h
  exact h.saveAsync env.present env.spawn

theorem UpToDate.markDirty (now : UInt64) : UpToDate api profile (q.peakdiskMarkDirty now) s := by
  rw [Saves.peakdiskMarkDirty]
  split
  · exact ⟨h.tasks, fun hclean => Bool.noConfusion hclean⟩
  · exact h

omit h in
theorem UpToDate.step {w : Workspace B} (h : UpToDate api profile w.saves w.fs) (e : Saves.Event) :
    UpToDate api profile (w.saves.step (fill api profile w e)) w.fs := by
  rw [Saves.step]
  split
  · cases e with
    | saveAsync present spawn => exact h.saveAsync present spawn
    | autosaveTick env => exact h.autosaveTick _
    | save env =>
      have hnext : UpToDate api profile { w.saves with nextTask := w.saves.nextTask + 1 } w.fs :=
        ⟨h.tasks, h.saved⟩
      exact hnext.enter _ _ _
    | markDirty now => exact h.markDirty now
    | resume i env diskOk => exact h.resume i env diskOk
  cases e with
  | resume i env diskOk =>
    dsimp only [fill]
    split
    · exact h.resume i env diskOk
    · exact h
  | _ => exact h

end Saves

/-! ### One event -/

section Steps

variable {w : Workspace B}

theorem Tracked.readBy (h : Tracked api profile w) (e : Saves.Event) :
    readBy api profile w e = w.fs := by
  cases e with
  | resume i env diskOk =>
    rw [Workspace.readBy]
    split
    · rfl
    · exact Vfs.vfsExportRamdisk_state api _ profile h.noBlobs
  | _ => rfl

theorem keptApart_fill {e : Saves.Event} (h : w.saves.KeptApart e) :
    w.saves.KeptApart (fill api profile w e) := by
  cases e with
  | saveAsync _ _ | autosaveTick _ | save _ | markDirty _ | resume _ _ _ => exact h

variable {s t : State B} {q : Saves}

theorem exportImage_congr (hst : SameFiles s t) :
    exportImage api profile t = exportImage api profile s := by
  rw [exportImage, exportImage, hst.vfsExportRamdiskSize, hst.vfsExportRamdisk]

theorem Current.congr (hst : SameFiles s t) {pc : SavePc}
    (h : Current api profile s pc) : Current api profile t pc := by
  have himage : exportImage api profile t = exportImage api profile s := exportImage_congr hst
  cases pc with
  | waiting | entered => exact trivial
  | measured need => exact h.trans (hst.vfsExportRamdiskSize profile).symm
  | exported image | sealed image | writing image k => exact himage.trans h

theorem UpToDate.congr (h : UpToDate api profile q s)
    (hst : SameFiles s t) : UpToDate api profile q t :=
  ⟨fun i u hu => (h.tasks i u hu).congr hst,
    fun hclean image hsaved => (exportImage_congr hst).trans (h.saved hclean image hsaved)⟩

/-- No save is at work, and there is a note, or nothing to compare with. -/
theorem upToDate_of_idle (h : q.Alone) (hbusy : q.busy = false)
    (hnote : q.dirty = true ∨ q.saved = none) (s : State B) : UpToDate api profile q s := by
  refine ⟨fun i t ht => ?_, fun hclean image hsaved => ?_⟩
  · by_cases hpc : t.pc = .waiting
    · rw [hpc]
      exact trivial
    · rw [(h.runs i t ht hpc).1] at hbusy
      cases hbusy
  rcases hnote with hdirty | hnone
  · rw [hdirty] at hclean
    cases hclean
  · rw [hnone] at hsaved
    cases hsaved

theorem markDirty_fields (now : UInt64) (q : Saves) :
    (q.peakdiskMarkDirty now).dirty = true ∧ (q.peakdiskMarkDirty now).busy = q.busy ∧
      (q.peakdiskMarkDirty now).saved = q.saved := by
  rw [Saves.peakdiskMarkDirty]
  split
  · exact ⟨rfl, rfl, rfl⟩
  next hdirty => exact ⟨by rwa [Bool.not_eq_true', Bool.not_eq_false] at hdirty, rfl, rfl⟩

theorem Tracked.mutate (h : Tracked api profile w) (now : UInt64) {c : Mutation}
    (hok : Watched w (.mutate now c)) :
    Tracked api profile (step api profile w (.mutate now c)) := by
  rw [Workspace.step]
  split
  · exact h
  have hno : NoBlobs w.ready := h.noBlobs.of_nodes rfl
  have hnoted : Saves.Alone (w.saves.peakdiskMarkDirty now) :=
    h.alone.calls (e := .markDirty now) trivial
  obtain ⟨hdirty, hbusy', -⟩ := markDirty_fields now w.saves
  refine ⟨?_, hno.run api c, ?_⟩
  · dsimp only
    split
    · exact hnoted
    · exact h.alone
  dsimp only
  by_cases hnote : (c.run api w.ready).dirty = true
  · rw [if_pos hnote]
    rcases hok with hrec | ⟨hbusy, -⟩
    · rcases Mutation.run_cases api hno hrec with hsame | ⟨hsaving, -⟩
      · have hready : SameFiles w.fs w.ready := ⟨rfl, rfl, rfl, rfl⟩
        exact ((h.upToDate.congr hready).congr hsame).markDirty now
      · have hbusy := (Bool.or_eq_false_iff.1 hsaving).1
        exact upToDate_of_idle hnoted (hbusy'.trans hbusy) (.inl hdirty) _
    · exact upToDate_of_idle hnoted (hbusy'.trans hbusy) (.inl hdirty) _
  rw [if_neg hnote]
  rcases hok with hrec | ⟨hbusy, hsaved⟩
  · have hsame := (Mutation.run_cases api hno hrec).resolve_right fun h => hnote h.2
    have hready : SameFiles w.fs w.ready := ⟨rfl, rfl, rfl, rfl⟩
    exact (h.upToDate.congr hready).congr hsame
  · exact upToDate_of_idle h.alone hbusy hsaved _

/-- **One event.** -/
theorem Tracked.step (h : Tracked api profile w) {e : Event} (hok : Watched w e) :
    Tracked api profile (step api profile w e) := by
  cases e with
  | mutate now c => exact h.mutate now hok
  | save e =>
    rw [Workspace.step, h.readBy]
    exact ⟨h.alone.step (keptApart_fill hok), h.noBlobs, h.upToDate.step e⟩

end Steps

theorem tracked_start {w : Workspace B} (h : w.Start) : Tracked api profile w := by
  obtain ⟨⟨interval, hidle⟩, ⟨oom, blobs, hinit⟩⟩ := h
  rw [show w = ⟨Saves.idle interval, Vfs.vfsInit oom blobs⟩ from by rw [← hidle, ← hinit]]
  refine ⟨Saves.alone_of_none fun _ => rfl, fun i => ?_,
    upToDate_of_idle (Saves.alone_of_none fun _ => rfl) rfl (.inr rfl) _⟩
  rw [Vfs.vfsInit]
  dsimp only
  by_cases hi : i = Vfs.root
  · rw [hi]
    rfl
  · rw [update_of_ne hi]
    rfl

/-- **Every run** in which saves are kept apart and operations are noticed. -/
theorem clean_of_run {w : Workspace B} (h : Reach Start Watched (step api profile) w) :
    Sound api profile w :=
  (h.invariant (Tracked api profile) (fun _ => tracked_start) fun _ _ hw hok =>
    hw.step hok).upToDate.saved

/-- A system that lets the workspace be saved. -/
def openEnv : SaveEnv := ⟨true, true, 2, 0, [], true, true, true, false, none, none⟩

/-- A save of a small workspace, from the call to its last write. -/
def oneSave : List Event :=
  .save (.save openEnv) :: List.replicate 6 (.save (.resume 0 openEnv true))

/-- The system after some events. -/
def after (events : List Event) : Workspace Unit :=
  events.foldl (step Vfs.noBlobstore 2) ⟨Saves.idle 120, Vfs.vfsInit (fun _ => false) ()⟩

theorem start_after : Start (after []) := ⟨⟨120, rfl⟩, ⟨fun _ => false, (), rfl⟩⟩

theorem clean_home :
    (after (.mutate 0 (.mkdir Vfs.homePath) :: oneSave)).saves.dirty = false ∧
      Sound Vfs.noBlobstore 2 (after (.mutate 0 (.mkdir Vfs.homePath) :: oneSave)) := by
  refine ⟨by decide +kernel, clean_of_run ((Reach.start start_after).calls _ ?_)⟩
  exact ⟨.inr ⟨rfl, .inr rfl⟩, ⟨rfl, rfl⟩, trivial, trivial, trivial, trivial, trivial, trivial,
    trivial⟩

/-- The workspace has been saved; then a directory is made. -/
theorem mkdir_unnoticed :
    ¬ ∀ w : Workspace Unit, Reach Start (fun _ _ => True) (step Vfs.noBlobstore 2) w →
      Sound Vfs.noBlobstore 2 w := by
  intro h
  have hw := h _ ((Reach.start start_after).calls (oneSave ++ [.mutate 0 (.mkdir Vfs.homePath)])
    (allowedFrom_true _ _ _))
  have hdirty : (after (oneSave ++ [.mutate 0 (.mkdir Vfs.homePath)])).saves.dirty = false := by
    decide +kernel
  have hsaved : (after (oneSave ++ [.mutate 0 (.mkdir Vfs.homePath)])).saves.saved =
      some (Vfs.imageHead 0) := by decide +kernel
  have hexport : exportImage Vfs.noBlobstore 2
      (after (oneSave ++ [.mutate 0 (.mkdir Vfs.homePath)])).fs ≠ some (Vfs.imageHead 0) := by
    decide +kernel
  exact hexport (hw hdirty _ hsaved)

end Workspace

end PeakOs.Peakdisk
