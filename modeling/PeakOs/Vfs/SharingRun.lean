import PeakOs.Vfs.SharingWrites

/-!
# Runs on shared buffers

The links and the removals, and whole runs. A link to a file in the blobstore has no contents at
all, since `vfs_link` does not copy the blob's number; `vfs_unlink` is right as it is.

Nothing is asked of the tree here: a renaming may have cut a directory off, and names may be empty.

## Main results

* `Safe.step` — what an operation needs
* `sound_of_reach` — whole runs
* `write_after_link` — the smallest run that leaves a dangling pointer
-/

namespace PeakOs.Vfs

open Function

variable {B : Type} {s t : State B} {kids : ℕ → List ℕ} {file : ℕ → FileId} {clock : ℕ}

/-! ### Links -/

/-- **`vfs_symlink`**, with or without memory for the target. -/
theorem vfsSymlink_safe (h : Safe s file clock) (target : Path) {linkpath : Path}
    (hp : PathOk linkpath) :
    Safe (vfsSymlink target linkpath s).2 (freshLabels s file clock) (clock + 1) := by
  refine h.unlessSaving ?_
  iterate 4
    split
    · exact h.tick _
  rename_i last _
  obtain ⟨kids, hk⟩ := h.linked
  obtain ⟨hg, hdir⟩ := parentDir_grew hk.rootDir linkpath last
  have hfault := parentDir_fault (s := s) hp last
  rcases hd : parentDir linkpath last s with ⟨_ | dir, t⟩
  · rw [hd] at hg hfault
    exact h.grew hg hfault
  rw [hd] at hg hfault hdir
  dsimp only at hg hfault hdir ⊢
  cases ha : allocNode (linkpath.drop (last + 1)) .symlink t with
  | none => exact h.grew hg hfault
  | some r =>
    obtain ⟨i, u⟩ := r
    obtain ⟨kids', ht⟩ := hg.linked hk
    obtain ⟨-, hfree, hnodes, -⟩ := allocNode_linked ht ha
    have hu := h.grew (hg.alloc ha) ((allocNode_fault ha).trans hfault)
    have htype : u.type i = some .symlink := by
      rw [State.type, hnodes, update_self]
      rfl
    have hnone : (u.nodes i).data = none := by
      rw [hnodes, update_self]
      rfl
    have halone : u.store.Alone (freshLabels s file clock) i := by
      refine h.held.alone_fresh fun hused => ?_
      rw [Store.Used, ← (hg.entry hk).1 i hused] at hused
      exact absurd hfree hused
    dsimp only
    rcases hm : kmalloc target u with ⟨_ | buf, v⟩
    · exact hu.kmalloc_none hm
    have htree := sameTree_kmalloc target u
    rw [hm] at htree
    obtain ⟨rfl, rfl⟩ := kmalloc_some hm
    refine Safe.markDirty (Safe.setErr ?_ .none)
    have hfill := htree.setNode (i := i) (f := fun n =>
      { n with data := some u.nextBuf, size := target.length,
               capacity := target.length + 1 }) fun _ => ⟨rfl, rfl, rfl, rfl, rfl⟩
    have hv := hu.putNew (used_of_type htype) halone hfill
      (e := ⟨u.type i, some u.nextBuf, target.length, target.length + 1,
        (u.nodes i).blobId⟩) target
      (congrArg Store.entry (store_setNode _ i _)) rfl rfl rfl rfl (by rw [hnone]; rfl)
      (fun e => by rw [htype] at e; cases e) rfl
    have hstore := sameStore_addChild dir i (State.setNode i (fun n =>
      { n with data := some u.nextBuf, size := target.length,
               capacity := target.length + 1 })
      { u with bufs := update u.bufs u.nextBuf target,
               nextBuf := u.nextBuf + 1 })
    exact ⟨⟨_, ht.add ha hfill (hdir dir rfl)⟩, hstore.store ▸ hv.held, hv.path, hv.heap⟩

/-- The labels after `vfs_link`. -/
abbrev linkLabels (s : State B) (file : ℕ → FileId) (tn : ℕ) : ℕ → FileId :=
  relabel s.store file fun _ => file tn

/-- **`vfs_link`** to a file on the heap. -/
theorem vfsLink_safe (h : Safe s file clock) {target linkname : Path} {tn : ℕ}
    (htn : vfsLookup target s = some tn) (hlen : linkname.length < vfsPathMax)
    (hblob : (s.nodes tn).blobId = 0) :
    Safe (vfsLink target linkname s).2 (linkLabels s file tn) (clock + 1) := by
  obtain ⟨kids, hk⟩ := h.linked
  have hcases := vfsLink_cases hk target linkname
  rw [noteOverrun_of_lt hlen] at hcases
  obtain he | he | ⟨n, _, dir, i, u, v, hn, hfile, -, -, hd, ha, hv, hheap, hentry, he⟩ := hcases
  · rw [he]; exact h.tick _
  · rw [he]; exact h.tick _
  obtain rfl : n = tn := Option.some.inj (hn.symm.trans htn)
  have hfree := (allocNode_linked hk ha).2.1
  have hstore := sameStore_addChild dir i v
  rw [he]
  refine ⟨⟨_, hk.add ha hv (existingDir_type hd)⟩, ?_, ?_, ?_⟩
  · rw [hstore.store]
    refine h.held.share hfile hblob (fun hused => hused hfree) (hentry.trans ?_) hheap.bufs
      hheap.nextBuf hheap.freed
    rw [← show (s.store.entry n).blobId = 0 from hblob]
  · exact hv.fault.trans ((allocNode_fault ha).trans h.path)
  · exact hstore.fault.trans (hheap.fault.trans h.heap)

/-! ### Removal and renaming -/

variable {n j p i : ℕ} {u : State B} {f : Node → Node}

/-- Every file that has the buffer of `n` is counted. -/
theorem two_le_shareCount (hs : Linked s kids) {b : ℕ} (hn : s.store.Used n)
    (hj : s.store.Used j) (hjn : j ≠ n) (hnfile : (s.nodes n).type = some .file)
    (hjfile : (s.nodes j).type = some .file) (hnb : (s.nodes n).data = some b)
    (hjb : (s.nodes j).data = some b) : 2 ≤ shareCount n s := by
  have hmem : ∀ i, s.store.Used i → (s.nodes i).type = some .file → (s.nodes i).data = some b →
      i ∈ sharers n s := by
    intro i hi hfile hib
    rw [sharers, List.mem_filter, List.mem_range]
    exact ⟨hs.bound i hi, by simp [hfile, hib, hnb]⟩
  have hpair : [j, n].Nodup := by simpa using hjn
  have hsub : [j, n] ⊆ sharers n s := by
    intro i hi
    rcases List.mem_pair.1 hi with rfl | rfl
    · exact hmem _ hj hjfile hjb
    · exact hmem _ hn hnfile hnb
  rw [shareCount, if_pos ⟨hnfile, by rw [hnb]; simp⟩]
  exact (List.subperm_of_subset hpair hsub).length_le

/-- The buffer goes with its last user. -/
theorem dropData_store (n : ℕ) (s : State B) :
    (dropData n s).store = s.store ∨ shareCount n s ≤ 1 ∧
      (dropData n s).store = { s.store with freed := (s.nodes n).data.toList ++ s.freed } := by
  unfold dropData
  split
  next hcount =>
    rw [kfree_eq]
    exact .inr ⟨hcount, rfl⟩
  · refine .inl (congrArg (fun e => { s.store with entry := e }) (funext fun i => ?_))
    dsimp only
    split <;> rfl

theorem dropData_fault (n : ℕ) (s : State B) : (dropData n s).heapFault = s.heapFault := by
  unfold dropData
  split
  · rw [kfree_eq]
  · rfl

/-- What a removal keeps; it makes no node. -/
def Trimmed (s t : State B) (file : ℕ → FileId) (clock : ℕ) : Prop :=
  Safe t file clock ∧ ∀ i, t.store.Used i → s.store.Used i

section

variable (h : Safe s file clock)
include h

theorem Trimmed.refl : Trimmed s s file clock := ⟨h, fun _ hi => hi⟩

omit h in
theorem Trimmed.trans (h : Trimmed s t file clock) (h' : Trimmed t u file clock) :
    Trimmed s u file clock := ⟨h'.1, fun i hi => h.2 i (h'.2 i hi)⟩

/-- The end of a removal: the node is cleared. -/
theorem Safe.clear (hn : s.store.Used n) (hlinked : ∃ kids, Linked (u.setNode n f) kids)
    (hpath : u.pathFault = s.pathFault) (hheap : u.heapFault = s.heapFault)
    (hstore : u.store = s.store ∨ shareCount n s ≤ 1 ∧
      u.store = { s.store with freed := (s.nodes n).data.toList ++ s.freed })
    (htype : (f (u.nodes n)).type = none) : Trimmed s (u.setNode n f).markDirty file clock := by
  obtain ⟨kids, hk⟩ := h.linked
  have hsame : u.store.entry = s.store.entry ∧ u.store.bufs = s.store.bufs ∧
      u.store.nextBuf = s.store.nextBuf := by
    rcases hstore with hstore | ⟨-, hstore⟩ <;> rw [hstore] <;> exact ⟨rfl, rfl, rfl⟩
  have hentry : (u.setNode n f).store.entry =
      update s.store.entry n (f (u.nodes n)).entry := by rw [store_setNode, hsame.1]
  have hheld : Held (u.setNode n f).store file clock := by
    refine h.held.drop hn hentry htype hsame.2.1 hsame.2.2 (hstore.imp (fun hs => ?_) fun hs => ?_)
    · exact (congrArg Store.freed hs : u.freed = s.freed)
    refine ⟨(congrArg Store.freed hs.2 : u.freed = _), fun j b hj hjn hnb hjb => ?_⟩
    have hnfile := (h.held.apart n j b hn hj hjn.symm hnb hjb).1
    have hjfile := (h.held.apart j n b hj hn hjn hjb hnb).1
    exact absurd (two_le_shareCount hk hn hj hjn hnfile hjfile hnb hjb) (by omega)
  refine ⟨Safe.markDirty ⟨hlinked, hheld, hpath.trans h.path, hheap.trans h.heap⟩, fun i hi => ?_⟩
  change (u.setNode n f).store.Used i at hi
  rw [Store.Used, hentry] at hi
  by_cases hin : i = n
  · exact hin ▸ hn
  · rwa [update_of_ne hin] at hi

theorem Safe.unlinkFromParent (hs : Linked s kids)
    (hn : n ∈ kids p) : Safe (unlinkFromParent n s) file clock where
  linked := ⟨_, hs.unlinkFromParent hn⟩
  held := (sameStore_unlinkFromParent n s).store ▸ h.held
  path := (unlinkFromParent_spec hs hn).2.2.2.2.2.1.trans h.path
  heap := (sameStore_unlinkFromParent n s).fault.trans h.heap

theorem Safe.clearUnlinked (hs : Linked s kids)
    (hn : n ∈ kids p) (hlinked : ∃ kids, Linked (u.setNode n f) kids)
    (hpath : u.pathFault = (Vfs.unlinkFromParent n s).pathFault)
    (hheap : u.heapFault = (Vfs.unlinkFromParent n s).heapFault)
    (hstore : u.store = (Vfs.unlinkFromParent n s).store ∨
      shareCount n (Vfs.unlinkFromParent n s) ≤ 1 ∧
        u.store = { (Vfs.unlinkFromParent n s).store with
        freed := ((Vfs.unlinkFromParent n s).nodes n).data.toList ++
          (Vfs.unlinkFromParent n s).freed })
    (htype : (f (u.nodes n)).type = none) : Trimmed s (u.setNode n f).markDirty file clock := by
  have hsame := (sameStore_unlinkFromParent n s).store
  have hused : (Vfs.unlinkFromParent n s).store.Used n := hsame ▸ hs.used p n hn
  obtain ⟨hsafe, hkept⟩ :=
    (h.unlinkFromParent hs hn).clear hused hlinked hpath hheap hstore htype
  exact ⟨hsafe, fun i hi => hsame ▸ hkept i hi⟩

/-- **`vfs_unlink`** asks for other users before it releases a buffer. -/
theorem vfsUnlink_trimmed (path : Path) : Trimmed s (vfsUnlink path s).2 file clock := by
  obtain ⟨kids, hk⟩ := h.linked
  rcases vfsUnlink_cases hk path with ⟨e, he⟩ | ⟨n, p, -, hp, hkids, he⟩ <;> rw [he]
  · exact ⟨h.setErr e, fun _ hi => hi⟩
  · have htree := sameTree_dropData n (unlinkFromParent n s)
    exact (h.clearUnlinked hk hp ⟨_, hk.remove hp hkids htree rfl rfl rfl⟩ htree.fault
      (dropData_fault n _) (dropData_store n _) rfl)

theorem vfsRmdir_trimmed (path : Path) : Trimmed s (vfsRmdir path s).2 file clock := by
  obtain ⟨kids, hk⟩ := h.linked
  rcases vfsRmdir_cases hk path with ⟨e, he⟩ | ⟨n, p, -, hp, hkids, hchild, he⟩ <;> rw [he]
  · exact ⟨h.setErr e, fun _ hi => hi⟩
  · exact h.clearUnlinked hk hp ⟨_, hk.remove hp hkids .rfl' hchild.symm rfl rfl⟩ rfl rfl
      (.inl rfl) rfl

/-- **`vfs_rename`**, wherever the new name is. -/
theorem vfsRename_safe (oldp newp : Path) :
    Safe (vfsRename oldp newp s).2 (freshLabels s file clock) (clock + 1) := by
  obtain ⟨kids, hk⟩ := h.linked
  rcases vfsRename_cases hk oldp newp with
    ⟨e, he⟩ | ⟨n, p, last, dir, -, hp, -, -, hd, he⟩ <;> rw [he]
  · exact (h.tick _).setErr e
  have hstore : SameStore s (addChild dir n ((unlinkFromParent n s).setNode n fun m =>
      { m with name := (newp.drop (last + 1)).take (vfsNameMax - 1) })) := by
    refine SameStore.trans (SameStore.setNode (sameStore_unlinkFromParent n s) ?_)
      (sameStore_addChild _ _ _)
    rfl
  have ht := h.tick fun i => (clock, i)
  refine Safe.markDirty ⟨⟨_, hk.rename hp (existingDir_type hd) (length_take_name _)⟩,
    hstore.store ▸ ht.held, ?_, hstore.fault.trans h.heap⟩
  exact (unlinkFromParent_spec hk hp).2.2.2.2.2.1.trans h.path

end

/-! ### Runs -/

/-- A file system with the labels of its nodes. -/
structure Labelled (B : Type) where
  fs : State B
  file : ℕ → FileId
  clock : ℕ

/-- The label of a node the call makes in slot `i`. -/
def Call.label (x : Labelled B) (call : Call) (i : ℕ) : FileId :=
  match call with
  | .link target _ => ((vfsLookup target x.fs).map x.file).getD (x.clock, i)
  | _ => (x.clock, i)

def Labelled.step (api : BlobApi B) (x : Labelled B) (call : Call) : Labelled B where
  fs := x.fs.step api call
  file := relabel x.fs.store x.file (call.label x)
  clock := x.clock + 1

def Labelled.Booted (x : Labelled B) : Prop :=
  ∃ oom blobs, x = ⟨vfsInit oom blobs, fun _ => (0, 0), 1⟩

/-- No node in use has a released buffer, no buffer is released twice, and paths joined by
`vfs_link` read the same. -/
structure Labelled.Sound (api : BlobApi B) (x : Labelled B) : Prop where
  live : ∀ i b, x.fs.type i ≠ none → (x.fs.nodes i).data = some b → b ∉ x.fs.freed
  once : x.fs.freed.Nodup
  alike : ∀ p q i j, x.fs.opens p = some i → x.fs.opens q = some j → x.file i = x.file j →
    ∀ off len, (vfsReadAt api p off len x.fs).1 = (vfsReadAt api q off len x.fs).1

theorem readNode_congr (api : BlobApi B) (hentry : (s.nodes i).entry = (t.nodes j).entry)
    (hbufs : s.bufs = t.bufs) (hblobs : s.blobs = t.blobs) (off len : ℕ) :
    (readNode api i off len s).1 = (readNode api j off len t).1 := by
  have hsize : (s.nodes i).size = (t.nodes j).size := congrArg Entry.size hentry
  have hdata : (s.nodes i).data = (t.nodes j).data := congrArg Entry.data hentry
  have hid : (s.nodes i).blobId = (t.nodes j).blobId := congrArg Entry.blobId hentry
  simp only [readNode, hsize, hdata, hid, hbufs, hblobs]
  split
  · rfl
  generalize (if (t.nodes j).size < (off + len) % 2 ^ 64 then (t.nodes j).size - off else len) = n
  split
  · split <;> rfl
  split
  · split <;> rfl
  · rfl

/-- Reading a path is reading the node it leads to. -/
theorem vfsReadAt_of_opens {path : Path} (h : s.opens path = some i) (api : BlobApi B)
    (off len : ℕ) : ∃ e, vfsReadAt api path off len s =
      if (s.nodes i).type ≠ some .file then (.error .enoent, s.setErr e)
      else readNode api i off len (s.setErr e) := by
  obtain ⟨e, out, -, hio, -, hf⟩ := opens_eq_some h
  refine ⟨e, ?_⟩
  rw [vfsReadAt, hio]
  dsimp only
  rw [hf]
  rfl

theorem Safe.sound (h : Safe s file clock) (api : BlobApi B) :
    Labelled.Sound api ⟨s, file, clock⟩ where
  live := fun i b hi hb => (h.held.live i b hi hb).1
  once := h.held.once
  alike := fun p q i j hp hq hij off len => by
    have hused : ∀ {path i}, s.opens path = some i → s.store.Used i := by
      intro path i ho
      obtain ⟨kids, hk⟩ := h.linked
      obtain ⟨e, out, -, -, -, hf⟩ := opens_eq_some ho
      exact (hk.congr (sameTree_setErr e s)).lookup_used hf
    obtain ⟨e, he⟩ := vfsReadAt_of_opens hp api off len
    obtain ⟨e', he'⟩ := vfsReadAt_of_opens hq api off len
    have hentry : (s.nodes i).entry = (s.nodes j).entry := by
      by_cases heq : i = j
      · rw [heq]
      · exact (h.held.joined i j (hused hp) (hused hq) heq hij).1
    have htype : (s.nodes i).type = (s.nodes j).type := congrArg Entry.type hentry
    rw [he, he', htype]
    split
    · rfl
    · exact readNode_congr (s := s.setErr e) (t := s.setErr e') api hentry rfl rfl off len

/-- What a call must keep to for the buffers to stay sound. Copying a tree is left out: it writes
many files, and the condition would have to be on all of them. -/
def Call.Careful (x : Labelled B) : Call → Prop
  | .writeFile path _ => ∀ f, x.fs.opens path = some f → x.fs.store.Alone x.file f
  | .writeAt path off bytes => off + bytes.length < 2 ^ 64 ∧
      ∀ f, x.fs.opens path = some f → x.fs.store.Alone x.file f ∨
        (x.fs.nodes f).data ≠ none ∧ off + bytes.length ≤ (x.fs.nodes f).size
  | .bindBlob path _ _ => PathOk path ∧
      ∀ f, vfsLookup path x.fs = some f → x.fs.store.Alone x.file f
  | .link target linkname => linkname.length < vfsPathMax ∧
      ∀ f, vfsLookup target x.fs = some f → (x.fs.nodes f).blobId = 0
  | .mkdir path | .createFile path | .symlink _ path => PathOk path
  | .rename .. | .unlink .. | .rmdir .. | .removeTree .. | .setSaving .. => True
  | .copyTree .. => False

theorem Safe.step (h : Safe s file clock) (api : BlobApi B) {call : Call}
    (hcall : call.Careful ⟨s, file, clock⟩) :
    Safe (s.step api call) (relabel s.store file (call.label ⟨s, file, clock⟩)) (clock + 1) := by
  cases call with
  | mkdir path => exact h.grew (vfsMkdir_grew h.rootDir path) (vfsMkdir_fault hcall)
  | createFile path =>
    obtain ⟨kids, hk⟩ := h.linked
    exact h.grew (vfsCreateFile_grew hk path).1 (vfsCreateFile_fault hcall)
  | writeFile path bytes => exact vfsWriteFile_safe h path bytes hcall
  | writeAt path off bytes => exact vfsWriteAt_safe h api path hcall.1 hcall.2
  | bindBlob path blobId size => exact vfsBindBlob_safe h api blobId size hcall.1 hcall.2
  | symlink target linkpath => exact vfsSymlink_safe h target hcall
  | link target linkname =>
    change Safe (vfsLink target linkname s).2 _ _
    cases htn : vfsLookup target s with
    | none =>
      have hnop : vfsLink target linkname s = (.error .enoent, s) := by rw [vfsLink, htn]
      rw [hnop]
      exact h.tick _
    | some tn =>
      have hlabel : (Call.link target linkname).label ⟨s, file, clock⟩ = fun _ => file tn := by
        funext i
        simp [htn, Call.label]
      rw [hlabel]
      exact vfsLink_safe h htn hcall.1 (hcall.2 tn htn)
  | rename oldp newp => exact vfsRename_safe h oldp newp
  | unlink path => exact (vfsUnlink_trimmed h path).1.later (vfsUnlink_trimmed h path).2 _
  | rmdir path => exact (vfsRmdir_trimmed h path).1.later (vfsRmdir_trimmed h path).2 _
  | removeTree width depth path =>
    have ht := vfsRemoveTree_rule (P := fun t => Trimmed s t file clock)
      (fun path _ ht => ht.trans (vfsUnlink_trimmed ht.1 path))
      (fun path _ ht => ht.trans (vfsRmdir_trimmed ht.1 path)) width depth path s (.refl h)
    exact ht.1.later ht.2 _
  | copyTree src dst => exact absurd hcall id
  | setSaving saving =>
    exact (h.tick _).congr (sameTree_of_nodes rfl rfl rfl rfl) ⟨rfl, rfl⟩

theorem safe_vfsInit (oom : ℕ → Bool) (blobs : B) :
    Safe (vfsInit oom blobs) (fun _ => (0, 0)) 1 := by
  obtain ⟨⟨kids, hk⟩, hfault⟩ := good_vfsInit oom blobs
  have hroot : ∀ i, (vfsInit oom blobs).store.Used i → i = root := by
    intro i hi
    have := hk.linked.bound i hi
    exact Nat.lt_one_iff.1 this
  have hdata : ∀ i, ((vfsInit oom blobs).store.entry i).data = none := by
    intro i
    by_cases hi : i = root
    · subst hi
      rfl
    · simp [vfsInit, State.store, hi, Node.zero, Node.entry]
  refine ⟨⟨kids, hk.linked⟩, ⟨fun i b _ hb => ?_, List.nodup_nil, by simp [State.store, vfsInit],
    fun i j b _ _ _ hb => ?_, fun i j hi hj hij => ?_, fun i htype => ?_, fun _ _ => one_pos⟩,
    hfault, rfl⟩
  · rw [hdata] at hb
    cases hb
  · rw [hdata] at hb
    cases hb
  · exact absurd ((hroot i hi).trans (hroot j hj).symm) hij
  have hi := hroot i (by rw [Store.Used, htype]; simp)
  subst hi
  cases htype

/-- **In a run of careful calls the buffers are sound** in every state, and every copy stays inside
its buffer. -/
theorem sound_of_reach (api : BlobApi B) {x : Labelled B}
    (h : Reach Labelled.Booted (fun x (call : Call) => call.Careful x) (Labelled.step api) x) :
    x.Sound api ∧ x.fs.heapFault = false ∧ x.fs.pathFault = false := by
  have hsafe : Safe x.fs x.file x.clock := by
    refine h.invariant (fun x : Labelled B => Safe x.fs x.file x.clock) ?_ fun x call hx hcall =>
      hx.step api hcall
    rintro _ ⟨oom, blobs, rfl⟩
    exact safe_vfsInit oom blobs
  exact ⟨hsafe.sound api, hsafe.heap, hsafe.path⟩

/-- A file is written, linked, and written in place through its second name. -/
theorem write_in_place_sound :
    let x := [Call.writeFile [slash, 97] [120], .link [slash, 97] [slash, 98],
      .writeAt [slash, 98] 0 [121]].foldl (Labelled.step noBlobstore)
        ⟨vfsInit (fun _ => false) (), fun _ => (0, 0), 1⟩
    (vfsReadAt noBlobstore [slash, 97] 0 1 x.fs).1 = .ok [121] ∧ x.Sound noBlobstore ∧
      x.fs.heapFault = false ∧ x.fs.pathFault = false := by
  refine ⟨by decide, sound_of_reach noBlobstore
    (Reach.calls (.start ⟨_, _, rfl⟩) _ ⟨?_, ?_, ?_, ?_⟩)⟩
  · intro f hf
    have hnone : State.opens (vfsInit (fun _ => false) ()) [slash, 97] = none := by decide
    exact absurd (hnone.symm.trans hf) (by simp)
  · refine ⟨by decide, fun f hf => ?_⟩
    cases hf
    decide
  · refine ⟨by decide, fun f hf => .inr ?_⟩
    cases hf
    decide
  · trivial

/-- The operations on single files. -/
def Call.OnFiles : Call → Prop
  | .writeFile .. | .writeAt .. | .bindBlob .. | .link .. | .unlink .. | .rename .. => True
  | _ => False

/-- **Writing `/a` after linking it to `/b`** releases the buffer `/b` reads from. -/
theorem write_after_link :
    ∃ x : Labelled Unit, Reach Labelled.Booted (fun _ (call : Call) => call.OnFiles)
      (Labelled.step noBlobstore) x ∧ ¬ x.Sound noBlobstore := by
  refine ⟨_, Reach.calls (.start ⟨fun _ => false, (), rfl⟩)
    [.writeFile [slash, 97] [120], .link [slash, 97] [slash, 98], .writeFile [slash, 97] [121]]
    ?_, fun h => ?_⟩
  · exact ⟨trivial, trivial, trivial, trivial⟩
  · exact h.live 2 0 (by decide) (by decide) (by decide)

end PeakOs.Vfs
