import PeakOs.Vfs.Sharing
import PeakOs.Vfs.Tree

/-!
# Operations on the tree

Four things break the tree. A directory can be renamed to a path below itself, which cuts it off
from the root. A path with a trailing slash makes a node with an empty name. A name of more than 63
bytes is cut when a node is made, but is looked up in pieces, so that the check for an existing node
does not find it. And `vfs_symlink` does not give back its node when there is no memory for the
target. Apart from these, and from paths that overrun a local buffer, every operation keeps it.

## Main results

* `Good.step` — what an operation needs to keep the tree
* `isTree_of_reach` — whole runs
* `rename_below_itself` — the smallest run that breaks it
-/

namespace PeakOs.Vfs

open Function List

variable {B : Type} {s t : State B} {kids : ℕ → List ℕ}

/-! ### Contents -/

theorem sameTree_of_nodes (hn : t.nodes = s.nodes) (hc : t.nodeCount = s.nodeCount)
    (hb : t.childBucket = s.childBucket) (hf : t.pathFault = s.pathFault) : SameTree s t := by
  refine ⟨?_, ?_, ?_, ?_, ?_, hc, hb, hf⟩ <;> funext i
  · exact congrArg (fun f => (f i).child) hn
  · exact congrArg (fun f => (f i).sibling) hn
  · exact congrArg (fun f => (f i).parent) hn
  · exact congrArg (fun f => (f i).name) hn
  · exact congrArg (fun f => (f i).type) hn

theorem sameTree_kmalloc (bytes : List UInt8) (s : State B) : SameTree s (kmalloc bytes s).2 := by
  unfold kmalloc
  split <;> exact sameTree_of_nodes rfl rfl rfl rfl

theorem sameTree_kfree (buf : Option ℕ) (s : State B) : SameTree s (kfree buf s) := by
  cases buf <;> exact sameTree_of_nodes rfl rfl rfl rfl

theorem sameTree_setErr (e : VfsError) (s : State B) : SameTree s (s.setErr e) :=
  sameTree_of_nodes rfl rfl rfl rfl

theorem sameTree_markDirty (s : State B) : SameTree s s.markDirty :=
  sameTree_of_nodes rfl rfl rfl rfl

theorem sameTree_blobs (s : State B) (b : B) : SameTree s { s with blobs := b } :=
  sameTree_of_nodes rfl rfl rfl rfl

theorem expandSymlinkAt_normal {linkPath rest out : Path} {target : Option Path}
    (h : expandSymlinkAt linkPath target rest vfsPathMax = .ok out) :
    ∃ q, vfsNormalize q vfsPathMax = .ok out := by
  unfold expandSymlinkAt at h
  cases target with
  | none => cases h
  | some target =>
    dsimp only at h
    split at h
    · cases h
    split at h
    · cases h
    · exact ⟨_, h⟩

theorem resolveLoop_normal {links : ℕ} : ∀ {work out : Path},
    (∃ q, vfsNormalize q vfsPathMax = .ok work) → resolveLoop s links work = .ok out →
    ∃ q, vfsNormalize q vfsPathMax = .ok out := by
  induction links with
  | zero =>
    intro work out hwork h
    unfold resolveLoop at h
    split at h
    · injection h with h
      exact h ▸ hwork
    · cases h
    · cases h
  | succ links ih =>
    intro work out hwork h
    unfold resolveLoop at h
    split at h
    · injection h with h
      exact h ▸ hwork
    · cases h
    dsimp only at h
    split at h
    · cases h
    next hexp => exact ih (expandSymlinkAt_normal hexp) h

/-- Following symbolic links changes nothing but the error message. -/
theorem pathForIo_state (path : Path) (s : State B) : ∃ e, (pathForIo path s).2 = s.setErr e := by
  have hres : ∃ e, (vfsResolve path s).2 = s.setErr e := by
    unfold vfsResolve
    iterate 2
      split
      · exact ⟨s.err, rfl⟩
    all_goals exact ⟨_, rfl⟩
  unfold pathForIo
  split
  next u hu => rwa [hu] at hres
  · exact hres

/-- The path of an operation that follows symbolic links is in normal form. -/
theorem pathForIo_cases (path : Path) (s : State B) :
    ∃ e, (∃ err, pathForIo path s = (.error err, s.setErr e)) ∨
      ∃ out q, pathForIo path s = (.ok out, s.setErr e) ∧ vfsNormalize q vfsPathMax = .ok out := by
  obtain ⟨e, he⟩ := pathForIo_state path s
  rcases hio : pathForIo path s with ⟨err | out, t⟩ <;> rw [hio] at he <;> obtain rfl := he
  · exact ⟨e, .inl ⟨err, rfl⟩⟩
  suffices h : ∃ q, vfsNormalize q vfsPathMax = .ok out from
    ⟨e, .inr ⟨out, h.imp fun _ => .intro rfl⟩⟩
  replace hio := congrArg Prod.fst hio
  unfold pathForIo at hio
  split at hio
  · exact ⟨path, hio⟩
  unfold vfsResolve at hio
  split at hio
  · cases hio
  rename_i work hwork
  split at hio
  · cases hio
  · cases hio
  next r hr =>
    cases hio
    exact resolveLoop_normal ⟨path, hwork⟩ hr

theorem Good.unlessSaving (h : Good s) {k : State B → Result B} (hk : Good s → Good (k s).2) :
    Good (unlessSaving k s).2 := by
  unfold Vfs.unlessSaving
  split
  · exact h.congr (sameTree_setErr _ s)
  · exact hk h

/-- The end of `vfs_write_file`: the file gets its new buffer. -/
def State.putFile (f buf : ℕ) (bytes : List UInt8) (s : State B) : State B :=
  (((kfree (s.nodes f).data s).setNode f fun n =>
    { n with data := some buf, size := bytes.length, capacity := bytes.length, blobId := 0 }).setErr
      .none).markDirty

/-- What **`vfs_write_file`** does. It creates the file under the normal form, whose names are
short, and which has a last name unless it is the root. -/
theorem vfsWriteFile_cases (path : Path) (bytes : List UInt8) (s : State B) :
    let res := (vfsWriteFile path bytes s).2
    ∃ e, res = s.setErr e ∨ s.saving = false ∧ ∃ out u, pathForIo path s = (.ok out, s.setErr e) ∧
      (PathOk out ∧ out.head? = some slash ∧ (s.type root = some .dir → HasLeaf out)) ∧
      (vfsCreateFile out (s.setErr e) = (none, u) ∧ res = u.setErr .cannotCreate ∨
        ∃ f v, vfsCreateFile out (s.setErr e) = (some f, u) ∧
          (kmalloc bytes u = (none, v) ∧ res = v.setErr .outOfMemory ∨
            ∃ buf, kmalloc bytes u = (some buf, v) ∧ res = v.putFile f buf bytes)) := by
  dsimp only
  rw [vfsWriteFile, unlessSaving]
  split
  · exact ⟨_, .inl rfl⟩
  rename_i hsaving
  obtain ⟨e, ⟨err, hio⟩ | ⟨out, q, hio, hq⟩⟩ := pathForIo_cases path s <;> rw [hio]
  · exact ⟨e, .inl rfl⟩
  dsimp only
  split
  · exact ⟨_, .inl rfl⟩
  rename_i hnotdir
  obtain ⟨hok, hhead, hleaf⟩ := vfsNormalize_spec hq
  have hname : s.type root = some .dir → HasLeaf out := fun hroot => hleaf.resolve_left <| by
    rintro rfl
    exact hnotdir (congrArg some hroot)
  refine ⟨e, .inr ⟨by simpa using hsaving, out, ?_⟩⟩
  rcases vfsCreateFile out (s.setErr e) with ⟨_ | f, u⟩
  · exact ⟨u, rfl, ⟨hok, hhead, hname⟩, .inl ⟨rfl, rfl⟩⟩
  refine ⟨u, rfl, ⟨hok, hhead, hname⟩, .inr ⟨f, ?_⟩⟩
  dsimp only
  rcases kmalloc bytes u with ⟨_ | buf, v⟩
  · exact ⟨v, rfl, .inl ⟨rfl, rfl⟩⟩
  · exact ⟨v, rfl, .inr ⟨buf, rfl, rfl⟩⟩

theorem sameTree_putFile (f buf : ℕ) (bytes : List UInt8) (s : State B) :
    SameTree s (s.putFile f buf bytes) := by
  refine SameTree.trans ?_ ((sameTree_setErr _ _).trans (sameTree_markDirty _))
  exact (sameTree_kfree _ s).setNode fun _ => ⟨rfl, rfl, rfl, rfl, rfl⟩

theorem vfsWriteFile_good (h : Good s) (path : Path) (bytes : List UInt8) :
    Good (vfsWriteFile path bytes s).2 := by
  obtain ⟨e, he | ⟨-, out, u, -, ⟨hok, -, hleaf⟩, he⟩⟩ := vfsWriteFile_cases path bytes s
  · rw [he]
    exact h.congr (sameTree_setErr e s)
  have hdir := h.1.elim fun _ hk => hk.linked.rootDir
  have hcreate := vfsCreateFile_good (h.congr (sameTree_setErr e s)) hok (hleaf hdir)
  obtain ⟨hc, he⟩ | ⟨f, v, hc, he⟩ := he <;> rw [hc] at hcreate
  · rw [he]
    exact hcreate.congr (sameTree_setErr _ u)
  have hmem := sameTree_kmalloc bytes u
  obtain ⟨hm, he⟩ | ⟨buf, hm, he⟩ := he <;> rw [hm] at hmem <;> rw [he]
  · exact (hcreate.congr hmem).congr (sameTree_setErr _ v)
  · exact (hcreate.congr hmem).congr (sameTree_putFile f buf bytes v)

theorem sameTree_growNode (f need : ℕ) (s : State B) : SameTree s (growNode f need s).2 := by
  unfold growNode
  dsimp only
  split
  · have hmem := sameTree_kmalloc
      (grownBytes ((s.nodes f).data.map s.bufs) (s.nodes f).size need) s
    split
    next u hm => rwa [hm] at hmem
    next buf u hm =>
      rw [hm] at hmem
      dsimp only
      exact (hmem.trans (sameTree_kfree (s.nodes f).data u)).setNode
        fun _ => ⟨rfl, rfl, rfl, rfl, rfl⟩
  · exact .rfl'

theorem sameTree_copyInto (f off : ℕ) (bytes : List UInt8) (s : State B) :
    SameTree s (copyInto f off bytes s) := by
  unfold copyInto
  split <;> exact sameTree_of_nodes rfl rfl rfl rfl

theorem sameTree_extendTo (f stop : ℕ) (s : State B) : SameTree s (extendTo f stop s) :=
  SameTree.rfl'.setNode fun _ => ⟨rfl, rfl, rfl, rfl, rfl⟩

variable (api : BlobApi B)

theorem sameTree_writeNode (f off : ℕ) (bytes : List UInt8) (s : State B) :
    SameTree s (writeNode api f off bytes s).2 := by
  unfold writeNode
  split
  · split
    · exact sameTree_blobs s _
    · exact ((sameTree_blobs s _).trans (sameTree_extendTo f _ _)).trans (sameTree_markDirty _)
  have hgrow := sameTree_growNode f ((off + bytes.length) % 2 ^ 64) s
  dsimp only
  split
  next u hg => rwa [hg] at hgrow
  next u hg =>
    rw [hg] at hgrow
    exact ((hgrow.trans (sameTree_copyInto f off bytes u)).trans (sameTree_extendTo f _ _)).trans
      (sameTree_markDirty _)

/-- The node a path leads to, through symbolic links. -/
def State.opens (s : State B) (path : Path) : Option ℕ :=
  match pathForIo path s with
  | (.error _, _) => none
  | (.ok path, s) => vfsLookup path s

theorem opens_eq_some {path : Path} {f : ℕ} (h : s.opens path = some f) :
    ∃ e out q, pathForIo path s = (.ok out, s.setErr e) ∧ vfsNormalize q vfsPathMax = .ok out ∧
      vfsLookup out (s.setErr e) = some f := by
  rw [State.opens] at h
  obtain ⟨e, ⟨err, hio⟩ | ⟨out, q, hio, hq⟩⟩ := pathForIo_cases path s <;> rw [hio] at h
  · cases h
  · exact ⟨e, out, q, hio, hq, h⟩

/-- **`vfs_write_at`** changes at most the text of the last error, or writes to an open file. -/
theorem vfsWriteAt_cases (path : Path) (off : ℕ) (bytes : List UInt8)
    (s : State B) : ∃ e, (vfsWriteAt api path off bytes s).2 = s.setErr e ∨
      s.saving = false ∧ ∃ f, s.opens path = some f ∧ s.type f = some .file ∧
        vfsWriteAt api path off bytes s = writeNode api f off bytes (s.setErr e) := by
  unfold vfsWriteAt unlessSaving State.opens
  split
  · exact ⟨_, .inl rfl⟩
  rename_i hsaving
  dsimp only
  obtain ⟨e, ⟨err, hio⟩ | ⟨out, -, hio, -⟩⟩ := pathForIo_cases path s <;> rw [hio] <;>
    refine ⟨e, ?_⟩
  · exact .inl rfl
  dsimp only
  split
  · exact .inl rfl
  rename_i f hf
  split
  · exact .inl rfl
  rename_i hfile
  exact .inr ⟨by simpa using hsaving, f, hf, not_not.1 hfile, rfl⟩

theorem vfsWriteAt_good (h : Good s) (api : BlobApi B) (path : Path) (off : ℕ)
    (bytes : List UInt8) : Good (vfsWriteAt api path off bytes s).2 := by
  obtain ⟨e, he | ⟨-, f, -, -, he⟩⟩ := vfsWriteAt_cases api path off bytes s <;> rw [he]
  · exact h.congr (sameTree_setErr e s)
  · exact (h.congr (sameTree_setErr e s)).congr (sameTree_writeNode api f off bytes _)

variable {path : Path} {last dir p n : ℕ} {P : State B → Prop}

theorem vfsBindBlob_good (h : Good s) (api : BlobApi B) (blobId size : ℕ)
    (hp : PathOk path) (hleaf : HasLeaf path) : Good (vfsBindBlob api path blobId size s).2 := by
  refine h.unlessSaving fun h => ?_
  have hcreate := vfsCreateFile_good h hp hleaf
  rcases hc : vfsCreateFile path s with ⟨_ | f, t⟩
  · rwa [hc] at hcreate
  rw [hc] at hcreate
  dsimp only
  iterate 2
    split
    · exact hcreate
  · refine hcreate.congr (SameTree.trans ?_ (sameTree_markDirty _))
    exact (sameTree_kfree (t.nodes f).data t).setNode fun _ => ⟨rfl, rfl, rfl, rfl, rfl⟩

/-! ### Links -/

theorem leaf_take (hp : PathOk path) (hleaf : HasLeaf path) (hlast : lastSlash path = some last) :
    (path.drop (last + 1)).take (vfsNameMax - 1) = path.drop (last + 1) :=
  take_of_length_le (by have := (hp.leaf hleaf hlast).2; omega)

/-- **`vfs_symlink`** keeps the tree if there is memory for the target. -/
theorem vfsSymlink_good (h : Good s) (target : Path) {linkpath : Path} (hp : PathOk linkpath)
    (hleaf : HasLeaf linkpath) (hmem : s.oom s.nextBuf = false) :
    Good (vfsSymlink target linkpath s).2 := by
  refine h.unlessSaving fun h => ?_
  obtain ⟨⟨kids, hk⟩, hfault⟩ := h
  iterate 2
    split
    · exact ⟨⟨kids, hk⟩, hfault⟩
  rename_i hnew
  have hl : vfsLookup linkpath s = none := by simpa using hnew
  split
  · exact ⟨⟨kids, hk⟩, hfault⟩
  rw [take_of_pathOk hp]
  cases hlast : lastSlash linkpath with
  | none => exact ⟨⟨kids, hk⟩, hfault⟩
  | some last =>
    dsimp only
    obtain ⟨kids', ht, hf, hr⟩ := parentDir_tree hk hp hleaf hlast hl
    have hheap := (parentDir_grew hk.linked.rootDir linkpath last).1.sameHeap
    rcases hd : parentDir linkpath last s with ⟨_ | dir, t⟩
    · rw [hd] at ht hf
      exact ⟨⟨kids', ht⟩, hf.trans hfault⟩
    rw [hd] at ht hf hr hheap
    obtain ⟨htype, hfresh⟩ := hr dir rfl
    dsimp only
    cases ha : allocNode (linkpath.drop (last + 1)) .symlink t with
    | none => exact ⟨⟨kids', ht⟩, hf.trans hfault⟩
    | some r =>
      obtain ⟨i, u⟩ := r
      have hheap' := hheap.trans (allocNode_fields ha).2
      have hroom : u.oom u.nextBuf = false := by rw [hheap'.oom, hheap'.nextBuf, hmem]
      have hm : kmalloc target u = (some u.nextBuf, { u with
          bufs := update u.bufs u.nextBuf target
          nextBuf := u.nextBuf + 1 }) := by simp [kmalloc, hroom]
      simp only [hm]
      refine Good.congr ?_ ((sameTree_setErr _ _).trans (sameTree_markDirty _))
      have hsame := sameTree_kmalloc target u
      rw [hm] at hsame
      refine ⟨⟨_, ht.add ha (hsame.setNode ?_) htype (hp.leaf hleaf hlast) hfresh⟩,
        (allocNode_fault ha).trans (hf.trans hfault)⟩
      exact fun _ => ⟨rfl, rfl, rfl, rfl, rfl⟩

/-- What `vfs_link` does: nothing but the overrun, or a node `i` that has what `tn` has. -/
theorem vfsLink_cases (hk : Linked s kids) (target linkname : Path) :
    let t := s.noteOverrun (decide (vfsPathMax ≤ linkname.length))
    (vfsLink target linkname s).2 = s ∨ (vfsLink target linkname s).2 = t ∨
      ∃ tn last dir i u v, vfsLookup target s = some tn ∧ s.type tn = some .file ∧
        vfsLookup linkname s = none ∧ lastSlash linkname = some last ∧
        existingDir linkname last t = some dir ∧
        allocNode (linkname.drop (last + 1)) .file t = some (i, u) ∧ SameTree u v ∧ SameHeap s v ∧
        v.store.entry = update s.store.entry i { s.store.entry tn with blobId := 0 } ∧
        (vfsLink target linkname s).2 = addChild dir i v := by
  intro t
  rw [vfsLink]
  split
  · exact .inl rfl
  rename_i tn htn
  split
  · exact .inl rfl
  rename_i hfile
  split
  · exact .inl rfl
  rename_i hnew
  dsimp only
  split
  · exact .inr (.inl rfl)
  rename_i last hlast
  split
  · exact .inr (.inl rfl)
  rename_i dir hd
  split
  · exact .inr (.inl rfl)
  rename_i i u ha
  have htype : s.type tn = some .file := not_not.1 hfile
  obtain ⟨-, hfree, hnodes, -⟩ := allocNode_linked (hk.noteOverrun _) ha
  have hne : tn ≠ i := by
    rintro rfl
    cases htype.symm.trans hfree
  refine .inr (.inr ⟨tn, last, dir, i, u, _, htn, htype, by simpa using hnew, hlast, hd, ha,
    ((SameTree.rfl'.setNode ?_).setNode ?_).setNode ?_,
    SameHeap.trans (t := t) ⟨rfl, rfl, rfl, rfl, rfl⟩
      ((allocNode_fields ha).2.trans ⟨rfl, rfl, rfl, rfl, rfl⟩), ?_, rfl⟩)
  iterate 3 exact fun _ => ⟨rfl, rfl, rfl, rfl, rfl⟩
  funext j
  have htype : (s.nodes tn).type = some .file := htype
  by_cases hj : j = i
  · subst hj
    simp [State.store, State.setNode, Node.entry, hnodes, hne, hne.symm, newNode, Node.zero, htype,
      State.noteOverrun]
  by_cases hjt : j = tn
  · subst hjt
    simp [State.store, State.setNode, Node.entry, hnodes, hne, State.noteOverrun]
  · simp [State.store, State.setNode, hnodes, hj, hjt, State.noteOverrun]

theorem noteOverrun_of_lt {path : Path} (h : path.length < vfsPathMax) :
    s.noteOverrun (decide (vfsPathMax ≤ path.length)) = s := by
  rw [decide_eq_false (not_le.2 h)]
  simp [State.noteOverrun]

/-- **`vfs_link`** keeps the tree. -/
theorem vfsLink_good (h : Good s) (target : Path) {linkname : Path} (hp : PathOk linkname)
    (hleaf : HasLeaf linkname) : Good (vfsLink target linkname s).2 := by
  obtain ⟨kids, hk⟩ := h.1
  have hcases := vfsLink_cases hk.linked target linkname
  rw [noteOverrun_of_lt (by have := hp.length; omega)] at hcases
  obtain he | he | ⟨-, last, dir, i, u, v, -, -, hl, hlast, hd, ha, hv, -, -, he⟩ := hcases
  · rwa [he]
  · rwa [he]
  rw [he]
  exact ⟨⟨_, hk.add ha hv (existingDir_type hd) (hp.leaf hleaf hlast)
    (existingDir_fresh hp hleaf hlast hl hd)⟩, hv.fault.trans ((allocNode_fault ha).trans h.2)⟩

/-! ### Removal -/

/-- Taking a node without children out of the tree. -/
theorem Tree.removeLeaf (h : Tree s kids) (hn : n ∈ kids p) (hkids : kids n = [])
    {u : State B} (hu : SameTree (unlinkFromParent n s) u) {f : Node → Node}
    (hchild : (f (u.nodes n)).child = u.child n) (htype : (f (u.nodes n)).type = none)
    (hclear : (f (u.nodes n)).name = []) :
    Tree (u.setNode n f) (update kids p ((kids p).erase n)) := by
  obtain ⟨-, -, hname, htypes, -⟩ := unlinkFromParent_spec h.linked hn
  have hmem := fun {d x} => h.linked.forest.mem_erase hn (d := d) (x := x)
  have hnames : ∀ {x}, x ≠ n → (u.setNode n f).name x = s.name x := fun hx => by
    rw [name_setNode, update_of_ne hx, hu.name, hname]
  refine ⟨h.linked.remove hn hkids hu hchild htype hclear, fun d => ?_, fun d c hc => ?_,
    fun i hi => ?_⟩
  · refine ((h.distinct d).sublist (erase_sublist_kids kids p n d)).imp_of_mem fun ha hb hab => ?_
    rwa [hnames (hmem.1 ha).2, hnames (hmem.1 hb).2]
  · rw [hnames (hmem.1 hc).2]
    exact h.named d c (hmem.1 hc).1
  have hin : i ≠ n := by
    rintro rfl
    rw [type_setNode, update_self] at hi
    exact hi htype
  rw [type_setNode, update_of_ne hin, hu.type, htypes] at hi
  exact (h.grown i hi).remove hkids (fun d c hc hne => hmem.2 ⟨hc, hne⟩) hin

theorem sameTree_dropData (n : ℕ) (s : State B) : SameTree s (dropData n s) := by
  have hrefs : ∀ (i : ℕ) (c : Prop) [Decidable c] (m : Node), ∀ {α : Type} (g : Node → α),
      (∀ r, g { m with refs := r } = g m) →
      g (if c then { m with refs := m.refs - 1 } else m) = g m := by
    intro i c _ m α g hg
    split
    · exact hg _
    · rfl
  unfold dropData
  split
  · exact sameTree_kfree _ s
  refine ⟨?_, ?_, ?_, ?_, ?_, rfl, rfl, rfl⟩ <;> funext i
  · exact hrefs i _ _ Node.child fun _ => rfl
  · exact hrefs i _ _ Node.sibling fun _ => rfl
  · exact hrefs i _ _ Node.parent fun _ => rfl
  · exact hrefs i _ _ Node.name fun _ => rfl
  · exact hrefs i _ _ Node.type fun _ => rfl

/-- **`vfs_unlink`** changes at most the text of the last error, or takes a node without children
out of the tree. -/
theorem vfsUnlink_cases (h : Linked s kids) (path : Path) :
    (∃ e, (vfsUnlink path s).2 = s.setErr e) ∨
      ∃ n p, vfsLookup path s = some n ∧ n ∈ kids p ∧ kids n = [] ∧
        (vfsUnlink path s).2 = ((dropData n (unlinkFromParent n s)).setNode n fun m =>
          { m with data := none, size := 0, blobId := 0, type := none, name := [], parent := none,
                   sibling := none }).markDirty := by
  unfold vfsUnlink unlessSaving
  split
  · exact .inl ⟨_, rfl⟩
  dsimp only
  split
  · exact .inl ⟨s.err, rfl⟩
  rename_i n hn
  split
  · exact .inl ⟨s.err, rfl⟩
  rename_i hroot
  split
  · exact .inl ⟨s.err, rfl⟩
  rename_i htype
  obtain ⟨p, hp⟩ := h.lookup_mem hn hroot
  refine .inr ⟨n, p, hn, hp, h.kids_eq_nil fun e => htype ?_, rfl⟩
  rw [show (s.nodes n).type = some .dir from e]
  simp

theorem vfsRmdir_cases (h : Linked s kids) (path : Path) :
    (∃ e, (vfsRmdir path s).2 = s.setErr e) ∨
      ∃ n p, vfsLookup path s = some n ∧ n ∈ kids p ∧ kids n = [] ∧
        (unlinkFromParent n s).child n = none ∧
        (vfsRmdir path s).2 = ((unlinkFromParent n s).setNode n fun m =>
          { m with type := none, name := [], parent := none, sibling := none,
                   child := none }).markDirty := by
  unfold vfsRmdir unlessSaving
  split
  · exact .inl ⟨_, rfl⟩
  dsimp only
  split
  · exact .inl ⟨s.err, rfl⟩
  rename_i n hn
  split
  · exact .inl ⟨s.err, rfl⟩
  rename_i hroot
  iterate 2
    split
    · exact .inl ⟨s.err, rfl⟩
  rename_i hchild
  obtain ⟨p, hp⟩ := h.lookup_mem hn hroot
  have hkids : kids n = [] := h.child_eq_none_iff.1 (by simpa [State.child] using hchild)
  exact .inr ⟨n, p, hn, hp, hkids,
    (h.unlinkFromParent hp).child_eq_none_iff.2 (erase_kids_nil hkids), rfl⟩

theorem vfsUnlink_good (h : Good s) (path : Path) : Good (vfsUnlink path s).2 := by
  obtain ⟨⟨kids, hk⟩, hfault⟩ := h
  rcases vfsUnlink_cases hk.linked path with ⟨e, he⟩ | ⟨n, p, -, hp, hkids, he⟩ <;> rw [he]
  · exact Good.congr ⟨⟨kids, hk⟩, hfault⟩ (sameTree_setErr e s)
  · have hf := (unlinkFromParent_spec hk.linked hp).2.2.2.2.2.1
    have hsame := sameTree_dropData n (unlinkFromParent n s)
    refine Good.congr ⟨⟨_, hk.removeLeaf hp hkids hsame rfl rfl rfl⟩, ?_⟩ (sameTree_markDirty _)
    exact hsame.fault.trans (hf.trans hfault)

theorem vfsRmdir_good (h : Good s) (path : Path) : Good (vfsRmdir path s).2 := by
  obtain ⟨⟨kids, hk⟩, hfault⟩ := h
  rcases vfsRmdir_cases hk.linked path with ⟨e, he⟩ | ⟨n, p, -, hp, hkids, hchild, he⟩ <;> rw [he]
  · exact Good.congr ⟨⟨kids, hk⟩, hfault⟩ (sameTree_setErr e s)
  · have hf := (unlinkFromParent_spec hk.linked hp).2.2.2.2.2.1
    refine Good.congr ⟨⟨_, hk.removeLeaf hp hkids .rfl' hchild.symm rfl rfl⟩, ?_⟩
      (sameTree_markDirty _)
    exact hf.trans hfault

theorem removeChildren_rule {rec : Path → State B → Result B}
    (hrec : ∀ path s, P s → P (rec path s).2) (n : ℕ) : ∀ (k : ℕ) {s : State B}, P s →
    P (removeChildren rec n k s).2 := by
  intro k
  induction k with
  | zero => exact fun h => h
  | succ k ih =>
    intro s h
    unfold removeChildren
    split
    · exact h
    rename_i c hc
    have hnext := hrec (nodePath s c) s h
    split
    next u hr => rwa [hr] at hnext
    next u hr =>
      rw [hr] at hnext
      exact ih hnext

/-- **`vfs_remove_tree`** is a sequence of the two above, however far it gets: it keeps what they
keep. -/
theorem vfsRemoveTree_rule (hunlink : ∀ path s, P s → P (vfsUnlink path s).2)
    (hrmdir : ∀ path s, P s → P (vfsRmdir path s).2) (width depth : ℕ) :
    ∀ (path : Path) (s : State B), P s → P (vfsRemoveTree width depth path s).2 := by
  induction depth with
  | zero => exact fun _ _ h => h
  | succ depth ih =>
    intro path s h
    unfold vfsRemoveTree
    split
    · exact h
    rename_i n hn
    split
    · exact h
    split
    · exact hunlink path s h
    have hnext := removeChildren_rule ih n width h
    split
    next u hr => rwa [hr] at hnext
    next u hr =>
      rw [hr] at hnext
      exact hrmdir path u hnext

/-! ### Renaming -/

/-- Moving the tree below `n` to a directory outside it, under a name that is new there. -/
theorem Tree.move (h : Tree s kids) (hn : n ∈ kids p)
    (hdir : s.type dir = some .dir) (hout : ¬ Grown kids n dir) {name : Path} (hne : name ≠ [])
    (hlen : name.length < vfsNameMax) (hfresh : ∀ c ∈ kids dir, s.name c ≠ name) :
    ∃ kids', Tree (addChild dir n
      ((unlinkFromParent n s).setNode n fun m => { m with name := name })) kids' := by
  obtain ⟨-, -, hname, htype, -⟩ := unlinkFromParent_spec h.linked hn
  have hmem := fun {d x} => h.linked.forest.mem_erase hn (d := d) (x := x)
  have hlinked := h.linked.rename hn hdir hlen
  set kids₁ := update kids p ((kids p).erase n) with hk₁
  set u := (unlinkFromParent n s).setNode n fun m => { m with name := name } with hu
  have hu_type : u.type = s.type := by rw [hu, type_setNode, update_type, htype]
  have hu_name : ∀ {x}, x ≠ n → u.name x = s.name x := fun hx => by
    rw [name_setNode, update_of_ne hx, hname]
  have hu_n : u.name n = name := by rw [hu, name_setNode, update_self]
  obtain ⟨-, -, -, hname', htype'⟩ := addChild_fields dir n u
  refine ⟨update kids₁ dir (n :: kids₁ dir), hlinked, fun d => ?_, fun d c hc => ?_, fun i hi => ?_⟩
  · rw [hname']
    have hkept : (kids₁ d).Pairwise fun a b => u.name a ≠ u.name b :=
      ((h.distinct d).sublist (erase_sublist_kids kids p n d)).imp_of_mem fun ha hb hab => by
        rwa [hu_name (hmem.1 ha).2, hu_name (hmem.1 hb).2]
    by_cases hd : d = dir
    · subst hd
      rw [update_self]
      refine pairwise_cons.2 ⟨fun c hc => ?_, hkept⟩
      rw [hu_n, hu_name (hmem.1 hc).2]
      exact (hfresh c (hmem.1 hc).1).symm
    · rwa [update_of_ne hd]
  · rw [hname']
    rcases mem_pushFront.1 hc with ⟨-, rfl⟩ | hc
    · rw [hu_n]; exact hne
    · rw [hu_name (hmem.1 hc).2]
      exact h.named d c (hmem.1 hc).1
  rw [htype', hu_type] at hi
  exact (h.grown dir (by rw [hdir]; simp)).move hout
    (fun d c hc hcn => mem_pushFront.2 (.inr (hmem.2 ⟨hc, hcn⟩)))
    (mem_pushFront.2 (.inl ⟨rfl, rfl⟩)) (h.grown i hi)

/-- The directory `dir` is `n` or below it. -/
def State.Below (s : State B) (n dir : ℕ) : Prop :=
  Relation.ReflTransGen (fun a b => s.parent b = some a) n dir

/-- The new path of a renaming does not lie below the old one. -/
def RenameOutside (oldp newp : Path) (s : State B) : Prop :=
  ∀ n last dir, vfsLookup oldp s = some n → lastSlash newp = some last →
    existingDir newp last s = some dir → ¬ s.Below n dir

theorem vfsRename_cases (h : Linked s kids) (oldp newp : Path) :
    (∃ e, (vfsRename oldp newp s).2 = s.setErr e) ∨
      ∃ n p last dir, vfsLookup oldp s = some n ∧ n ∈ kids p ∧ vfsLookup newp s = none ∧
        lastSlash newp = some last ∧ existingDir newp last s = some dir ∧
        (vfsRename oldp newp s).2 = (addChild dir n ((unlinkFromParent n s).setNode n fun m =>
          { m with name := (newp.drop (last + 1)).take (vfsNameMax - 1) })).markDirty := by
  unfold vfsRename unlessSaving
  split
  · exact .inl ⟨_, rfl⟩
  dsimp only
  split
  · exact .inl ⟨s.err, rfl⟩
  rename_i n hn
  split
  · exact .inl ⟨s.err, rfl⟩
  rename_i hroot
  split
  · exact .inl ⟨s.err, rfl⟩
  rename_i hnew
  iterate 2
    split
    · exact .inl ⟨s.err, rfl⟩
  rename_i last hlast
  split
  · exact .inl ⟨s.err, rfl⟩
  rename_i dir hdir
  obtain ⟨p, hp⟩ := h.lookup_mem hn hroot
  exact .inr ⟨n, p, last, dir, hn, hp, by simpa using hnew, hlast, hdir, rfl⟩

theorem length_take_name (name : Path) : (name.take (vfsNameMax - 1)).length < vfsNameMax := by
  rw [length_take, vfsNameMax]
  omega

/-- **`vfs_rename`** keeps the tree if the new place is outside the subtree that is moved. -/
theorem vfsRename_good (h : Good s) {oldp newp : Path} (hp : PathOk newp) (hleaf : HasLeaf newp)
    (hout : RenameOutside oldp newp s) : Good (vfsRename oldp newp s).2 := by
  obtain ⟨⟨kids, hk⟩, hfault⟩ := h
  rcases vfsRename_cases hk.linked oldp newp with
    ⟨e, he⟩ | ⟨n, p, last, dir, hn, hpn, hnew, hlast, hd, he⟩ <;> rw [he]
  · exact Good.congr ⟨⟨kids, hk⟩, hfault⟩ (sameTree_setErr e s)
  have hfresh := hk.findChild_none (existingDir_fresh hp hleaf hlast hnew hd)
  obtain ⟨hne, hlen⟩ := hp.leaf hleaf hlast
  have hg : ¬ Grown kids n dir := fun hg =>
    hout n last dir hn hlast hd (hg.ancestor hk.linked.forest)
  rw [leaf_take hp hleaf hlast]
  refine Good.congr ⟨hk.move hpn (existingDir_type hd) hg hne hlen hfresh, ?_⟩
    (sameTree_markDirty _)
  exact (unlinkFromParent_spec hk.linked hpn).2.2.2.2.2.1.trans hfault

/-! ### Copying -/

/-- Reading changes nothing but the blobs. -/
theorem readNode_state (f off len : ℕ) (s : State B) : ∃ blobs fault,
    (readNode api f off len s).2 = { s with blobs := blobs, heapFault := fault } := by
  unfold readNode
  dsimp only
  split
  · exact ⟨_, _, rfl⟩
  generalize (if (s.nodes f).size < (off + len) % 2 ^ 64 then (s.nodes f).size - off else len) = n
  split
  · split <;> exact ⟨_, _, rfl⟩
  split
  · split <;> exact ⟨_, _, rfl⟩
  · exact ⟨_, _, rfl⟩

theorem vfsReadAt_state (path : Path) (off len : ℕ) (s : State B) :
    ∃ e blobs fault, (vfsReadAt api path off len s).2 =
      { s with err := e, blobs := blobs, heapFault := fault } := by
  obtain ⟨e, ⟨err, hio⟩ | ⟨out, -, hio, -⟩⟩ := pathForIo_cases path s <;> rw [vfsReadAt, hio]
  · exact ⟨e, _, _, rfl⟩
  · dsimp only
    iterate 2
      split
      · exact ⟨e, _, _, rfl⟩
    · obtain ⟨blobs, fault, hr⟩ := readNode_state api _ off len (s.setErr e)
      exact ⟨e, blobs, fault, hr⟩

theorem sameTree_readNode (f off len : ℕ) (s : State B) :
    SameTree s (readNode api f off len s).2 := by
  obtain ⟨_, _, hr⟩ := readNode_state api f off len s
  rw [hr]
  exact sameTree_of_nodes rfl rfl rfl rfl

theorem sameTree_vfsReadAt (path : Path) (off len : ℕ) (s : State B) :
    SameTree s (vfsReadAt api path off len s).2 := by
  obtain ⟨_, _, _, hr⟩ := vfsReadAt_state api path off len s
  rw [hr]
  exact sameTree_of_nodes rfl rfl rfl rfl

section Copying

variable {P : State B → Prop} (api : BlobApi B)
  (hread : ∀ path off len s, P s → P (vfsReadAt api path off len s).2)
  (hwrite : ∀ path bytes s, P s → P (vfsWriteFile path bytes s).2)
  (hwriteAt : ∀ path off bytes s, P s → P (vfsWriteAt api path off bytes s).2)
  (hmode : ∀ path mode s, P s → P (setModeAt path mode s))

include hread hwrite hwriteAt

theorem copyStreamLoop_rule (src dst : Path) (size k : ℕ) :
    ∀ (off : ℕ) {s : State B}, P s → P (copyStreamLoop api src dst size false k off s).2 := by
  induction k with
  | zero => exact fun _ _ h => h
  | succ k ih =>
    intro off s h
    rw [copyStreamLoop]
    split
    · exact h
    have ht := hread src off (min (size - off) vfsCopyChunk) s h
    rcases hr : vfsReadAt api src off (min (size - off) vfsCopyChunk) s with ⟨_ | chunk, t⟩
    · rwa [hr] at ht
    rw [hr] at ht
    dsimp only
    split
    · exact ht
    simp only [Bool.false_and, Bool.false_eq_true, if_false]
    -- the first chunk replaces the file, the others go behind it
    have hchunk : P (if off = 0 then vfsWriteFile dst chunk t
        else vfsWriteAt api dst off chunk t).2 := by
      split
      · exact hwrite dst chunk t ht
      · exact hwriteAt dst off chunk t ht
    split
    next u hw => rwa [hw] at hchunk
    next u hw =>
      rw [hw] at hchunk
      exact ih _ hchunk

include hmode

theorem vfsCopyStream_rule (h : P s) (src dst : Path) (size mode : ℕ) :
    P (vfsCopyStream api src dst size false mode s).2 := by
  unfold vfsCopyStream
  simp only [Bool.false_and, Bool.false_eq_true, if_false]
  have hfirst : P (if size = 0 then vfsWriteFile dst [] s else (.ok (), s)).2 := by
    split
    · exact hwrite dst [] s h
    · exact h
  split
  next t hw => rwa [hw] at hfirst
  next t hw =>
    rw [hw] at hfirst
    have hloop := copyStreamLoop_rule api hread hwrite hwriteAt src dst size size 0 hfirst
    split
    · rename_i u hl
      rwa [hl] at hloop
    rename_i u hl
    rw [hl] at hloop
    exact hmode dst mode u hloop

omit hread hwrite hwriteAt hmode in
theorem copyChildren_rule {Q : Path → Prop} {copy : ℕ → Path → Path → State B → Result B}
    {srcPath dstPath : Path}
    (hchild : ∀ s c, P s → dstPath.length + 1 < vfsPathMax → Q (childPath dstPath (s.nodes c).name))
    (hcopy : ∀ src sp dp s, Q dp → P s → P (copy src sp dp s).2) (k : ℕ) :
    ∀ {c : Option ℕ} {s : State B}, P s → P (copyChildren copy srcPath dstPath k c s).2 := by
  induction k with
  | zero => intro c s h; cases c <;> exact h
  | succ k ih =>
    intro c s h
    cases c with
    | none => exact h
    | some c =>
      rw [copyChildren]
      split
      · exact h
      have hrec := hcopy c (childPath srcPath (s.nodes c).name) _ s (hchild s c h (by omega)) h
      split
      next u hr => rwa [hr] at hrec
      next u hr =>
        rw [hr] at hrec
        exact ih hrec

/-- **`vfs_copy_tree`** makes directories, reads, writes and sets modes: it keeps what these keep,
on paths of a kind `Q` that goes down to children. -/
theorem copyTreeRec_rule {Q : Path → Prop} (hmkdir : ∀ path s, Q path → P s → P (vfsMkdir path s).2)
    (hchild : ∀ path s c, Q path → P s → path.length + 1 < vfsPathMax →
      Q (childPath path (s.nodes c).name)) (width depth : ℕ) :
    ∀ (src : ℕ) (srcPath dstPath : Path) (s : State B), Q dstPath → P s →
      P (copyTreeRec api false width depth src srcPath dstPath s).2 := by
  induction depth with
  | zero => exact fun _ _ _ _ _ h => h
  | succ depth ih =>
    intro src srcPath dstPath s hdst h
    rw [copyTreeRec]
    split
    · exact vfsCopyStream_rule api hread hwrite hwriteAt hmode h srcPath dstPath _ _
    have hmk := hmkdir dstPath s hdst h
    rcases hm : vfsMkdir dstPath s with ⟨_ | d, t⟩
    · rwa [hm] at hmk
    rw [hm] at hmk
    exact copyChildren_rule (fun s c => hchild dstPath s c hdst) ih width
      (hmode dstPath _ t hmk)

end Copying

theorem setModeAt_good (h : Good s) (path : Path) (mode : ℕ) : Good (setModeAt path mode s) := by
  unfold setModeAt
  split
  · exact h
  · exact h.congr (SameTree.rfl'.setNode fun _ => ⟨rfl, rfl, rfl, rfl, rfl⟩)

/-- A child's path is within the limits as long as there is room for the slash. -/
theorem PathOk.childPath (h : PathOk path) (name : Path) (hroom : path.length + 1 < vfsPathMax)
    (hname : name.length < vfsNameMax) : PathOk (childPath path name) := by
  constructor
  · simp only [Vfs.childPath, appendFit, length_append, length_singleton, length_take]
    omega
  rw [Vfs.childPath, appendFit, append_assoc, singleton_append]
  refine h.names.append_slash (ShortNames.of_length ?_)
  rw [length_take]
  omega

/-- **`vfs_copy_tree`** keeps the tree. -/
theorem copyTreeRec_good (width depth : ℕ) (src : ℕ) (srcPath : Path)
    {dstPath : Path} (hdst : PathOk dstPath) (h : Good s) :
    Good (copyTreeRec api false width depth src srcPath dstPath s).2 := by
  refine copyTreeRec_rule (P := Good) (Q := PathOk) api
    (fun path off len s h => h.congr (sameTree_vfsReadAt api path off len s))
    (fun path bytes s h => vfsWriteFile_good h path bytes)
    (fun path off bytes s h => vfsWriteAt_good h api path off bytes)
    (fun path mode s h => setModeAt_good h path mode) ?_ ?_ width depth src srcPath dstPath s hdst h
  · rintro path s hpath ⟨⟨kids, hk⟩, hf⟩
    obtain ⟨kids', ht⟩ := vfsMkdir_tree hk path
    exact ⟨⟨kids', ht⟩, (vfsMkdir_fault hpath).trans hf⟩
  · rintro path s c hpath ⟨⟨kids, hk⟩, -⟩ hroom
    exact hpath.childPath _ hroom (hk.linked.short c)

/-! ### Runs -/

theorem good_vfsInit (oom : ℕ → Bool) (blobs : B) : Good (vfsInit oom blobs) := by
  have hnode : ∀ i, i ≠ root → (vfsInit oom blobs).nodes i = Node.zero :=
    fun i hi => by simp [vfsInit, hi]
  have hroot : ∀ i, (vfsInit oom blobs).type i ≠ none → i = root := by
    intro i hi
    by_contra hne
    exact hi (by rw [State.type, hnode i hne]; rfl)
  have hlinks : ∀ i, (vfsInit oom blobs).child i = none ∧ (vfsInit oom blobs).name i = [] := by
    intro i
    by_cases hi : i = root
    · subst hi
      exact ⟨rfl, rfl⟩
    · rw [State.child, State.name, hnode i hi]
      exact ⟨rfl, rfl⟩
  have hlinked : Linked (vfsInit oom blobs) fun _ => [] :=
    { forest := ⟨fun d => (hlinks d).1, by simp, by simp⟩
      used := by simp
      dirs := by simp
      rootDir := rfl
      rootParent := rfl
      rootFree := by simp
      count := (by decide : 1 ≤ vfsMaxNodes)
      bound := fun i hi => by rw [hroot i hi]; exact one_pos
      bucket := fun _ _ => rfl
      short := fun i => by rw [(hlinks i).2]; decide }
  refine ⟨⟨fun _ => [], hlinked, by simp, by simp, fun i hi => ?_⟩, rfl⟩
  rw [hroot i hi]
  exact .root

/-- What a call must keep to for the table to stay a tree. -/
def Call.Tidy (s : State B) : Call → Prop
  | .mkdir path => PathOk path
  | .createFile path => PathOk path ∧ HasLeaf path
  | .bindBlob path _ _ => PathOk path ∧ HasLeaf path
  | .symlink _ linkpath => PathOk linkpath ∧ HasLeaf linkpath ∧ s.oom s.nextBuf = false
  | .link _ linkname => PathOk linkname ∧ HasLeaf linkname
  | .rename oldp newp => PathOk newp ∧ HasLeaf newp ∧ RenameOutside oldp newp s
  | .copyTree _ dst => PathOk dst
  | .writeFile .. | .writeAt .. | .unlink .. | .rmdir .. | .removeTree .. | .setSaving .. => True

theorem Good.step (h : Good s) (api : BlobApi B) {call : Call} (hcall : call.Tidy s) :
    Good (s.step api call) := by
  cases call with
  | mkdir path =>
    obtain ⟨⟨kids, hk⟩, hf⟩ := h
    obtain ⟨kids', ht⟩ := vfsMkdir_tree hk path
    exact ⟨⟨kids', ht⟩, (vfsMkdir_fault hcall).trans hf⟩
  | createFile path => exact vfsCreateFile_good h hcall.1 hcall.2
  | writeFile path bytes => exact vfsWriteFile_good h path bytes
  | writeAt path off bytes => exact vfsWriteAt_good h api path off bytes
  | bindBlob path blobId size => exact vfsBindBlob_good h api blobId size hcall.1 hcall.2
  | symlink target linkpath => exact vfsSymlink_good h target hcall.1 hcall.2.1 hcall.2.2
  | link target linkname => exact vfsLink_good h target hcall.1 hcall.2
  | rename oldp newp => exact vfsRename_good h hcall.1 hcall.2.1 hcall.2.2
  | unlink path => exact vfsUnlink_good h path
  | rmdir path => exact vfsRmdir_good h path
  | removeTree width depth path =>
    exact vfsRemoveTree_rule (P := Good) (fun path _ h => vfsUnlink_good h path)
      (fun path _ h => vfsRmdir_good h path) width depth path s h
  | copyTree src dst =>
    change Good (vfsCopyTreeEx api src dst false s).2
    unfold vfsCopyTreeEx
    split
    · exact h
    · exact copyTreeRec_good api _ _ _ src hcall h
  | setSaving saving => exact h.congr (sameTree_of_nodes rfl rfl rfl rfl)

/-- **In a run of tidy calls the table is a tree** in every state, and no path buffer is overrun. -/
theorem isTree_of_reach (api : BlobApi B)
    (h : Reach State.Booted (fun s (call : Call) => call.Tidy s) (State.step api) s) :
    s.IsTree ∧ s.pathFault = false := by
  have hgood : Good s := by
    refine h.invariant Good ?_ fun s call hs hcall => hs.step api hcall
    rintro _ ⟨oom, blobs, rfl⟩
    exact good_vfsInit oom blobs
  obtain ⟨⟨kids, hk⟩, hfault⟩ := hgood
  exact ⟨hk.isTree, hfault⟩

/-- The blobstore of a machine without a block device. -/
def noBlobstore : BlobApi Unit where
  available := fun _ => false
  create := fun _ b => (none, b)
  read := fun _ _ _ b => (none, b)
  write := fun _ _ _ b => (none, b)

/-- `/a`, `/b` and `/c` are made, `/a` becomes `/b/a`, and `/c` is removed. -/
def threeDirs : List Call :=
  [.mkdir [slash, 97], .mkdir [slash, 98], .mkdir [slash, 99],
    .rename [slash, 97] [slash, 98, slash, 97], .rmdir [slash, 99]]

theorem isTree_threeDirs :
    let s := threeDirs.foldl (State.step noBlobstore) (vfsInit (fun _ => false) ())
    vfsLookup [slash, 98, slash, 97] s = some 1 ∧ vfsLookup [slash, 99] s = none ∧
      s.IsTree ∧ s.pathFault = false := by
  have hshort : ∀ path : Path, path.length < vfsNameMax → PathOk path := fun path h =>
    ⟨h.trans (by decide), ShortNames.of_length h⟩
  refine ⟨by decide +kernel, by decide +kernel, isTree_of_reach noBlobstore (Reach.calls
    (.start ⟨_, _, rfl⟩) _ ⟨hshort _ (by decide), hshort _ (by decide), hshort _ (by decide),
      ⟨hshort _ (by decide), by rw [HasLeaf]; decide, ?_⟩, trivial, trivial⟩)⟩
  -- only the root is above `/b`
  intro n last dir hn hlast hdir hbelow
  obtain rfl : 1 = n := Option.some.inj ((by decide +kernel : _ = some 1).symm.trans hn)
  obtain rfl : 2 = last := Option.some.inj hlast
  obtain rfl : 2 = dir := Option.some.inj ((by decide +kernel : _ = some 2).symm.trans hdir)
  rcases hbelow.cases_tail with heq | ⟨m, hroot, hm⟩
  · exact absurd heq (by decide)
  obtain rfl : 0 = m := Option.some.inj ((by decide +kernel : _ = some 0).symm.trans hm)
  rcases hroot.cases_tail with heq | ⟨m, -, hm⟩
  · exact absurd heq (by decide)
  · exact absurd ((by decide +kernel : _ = none).symm.trans hm) (Option.some_ne_none m).symm

/-- **Renaming `/a` to `/a/b`** makes the directory its own parent. -/
theorem rename_below_itself :
    ∃ s : State Unit, Reach State.Booted (fun _ _ => True) (State.step noBlobstore) s ∧
      ¬ s.IsTree := by
  refine ⟨_, Reach.calls (.start ⟨fun _ => false, (), rfl⟩)
    [.mkdir [slash, 97], .rename [slash, 97] [slash, 97, slash, 98]]
    ⟨trivial, trivial, trivial⟩, ?_⟩
  intro h
  exact h.acyclic 1 (by decide) (.single (by decide))

end PeakOs.Vfs
