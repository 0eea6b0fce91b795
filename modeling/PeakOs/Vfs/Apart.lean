import PeakOs.Vfs.SharingRun

/-!
# What every call keeps

`Linked` holds in every state the file system can get into, whatever its callers do, and so does a
little about the buffers: a buffer with two users belongs to two files. Both are needed wherever an
operation is followed through a state that nothing else is known about.

## Main results

* `sane_vfsInit`, `Sane.step` — both hold at the start, and no call breaks them
* `findChild_eq_scan` — so the name buckets change no answer of `find_child`
* `lists_of_run` — and no child list breaks
-/

namespace PeakOs.Vfs

open Function

variable {B : Type} {s t : State B} {kids : ℕ → List ℕ}

/-- Buffers in use have been allocated, and only files share them. -/
structure Store.Apart (x : Store) : Prop where
  old : ∀ i b, x.Used i → (x.entry i).data = some b → b < x.nextBuf
  files : ∀ i j b, x.Used i → x.Used j → i ≠ j → (x.entry i).data = some b →
    (x.entry j).data = some b → (x.entry i).type = some .file

variable {x y : Store}

theorem Store.Apart.grew (h : x.Apart) (hnext : y.nextBuf = x.nextBuf) (hgrew : x.GrewTo y) :
    y.Apart := by
  constructor
  · intro i b hi hb
    obtain ⟨hx, hb⟩ := hgrew.of_data hi hb
    exact hnext ▸ h.old i b hx hb
  intro i j b hi hj hij hib hjb
  obtain ⟨hxi, hib⟩ := hgrew.of_data hi hib
  obtain ⟨hxj, hjb⟩ := hgrew.of_data hj hjb
  rw [hgrew.1 i hxi]
  exact h.files i j b hxi hxj hij hib hjb

variable {f : ℕ} {e : Entry} {g : Node → Node} {bytes : List UInt8}

/-- A node keeps its buffer or gets a new one. -/
theorem Store.Apart.put (h : x.Apart)
    (hentry : y.entry = update x.entry f e) (htype : e.type = (x.entry f).type)
    (hnext : x.nextBuf ≤ y.nextBuf)
    (hdata : ∀ b, e.data = some b → (x.entry f).data = some b ∨ x.nextBuf ≤ b ∧ b < y.nextBuf) :
    y.Apart := by
  have htypes := Store.type_put hentry htype
  have hused : ∀ i, y.Used i ↔ x.Used i := fun i => by rw [Store.Used, Store.Used, htypes]
  -- a buffer of the new store is one of the old, or it is new and belongs to `f`
  have hbuf : ∀ {i b}, (y.entry i).data = some b →
      (x.entry i).data = some b ∨ i = f ∧ x.nextBuf ≤ b ∧ b < y.nextBuf := by
    intro i b hb
    rw [hentry] at hb
    by_cases hi : i = f
    · rw [hi, update_self] at hb
      exact (hdata b hb).imp (fun hx => hi ▸ hx) fun hx => ⟨hi, hx⟩
    · rw [update_of_ne hi] at hb
      exact .inl hb
  constructor
  · intro i b hi hb
    rcases hbuf hb with hx | ⟨-, -, hlt⟩
    · exact (h.old i b ((hused i).1 hi) hx).trans_le hnext
    · exact hlt
  intro i j b hi hj hij hib hjb
  rw [htypes]
  rcases hbuf hib with hxi | ⟨rfl, hle, -⟩ <;> rcases hbuf hjb with hxj | ⟨rfl, hle', -⟩
  · exact h.files i j b ((hused i).1 hi) ((hused j).1 hj) hij hxi hxj
  · exact absurd (h.old i b ((hused i).1 hi) hxi) (not_lt.2 hle')
  · exact absurd (h.old j b ((hused j).1 hj) hxj) (not_lt.2 hle)
  · exact absurd rfl hij

/-- A new file with the buffer of another file. -/
theorem Store.Apart.share (h : x.Apart) {t l : ℕ} (ht : (x.entry t).type = some .file)
    (hentry : y.entry = update x.entry l e) (htype : e.type = some .file)
    (hdata : e.data = (x.entry t).data) (hnext : y.nextBuf = x.nextBuf) : y.Apart := by
  have htu : x.Used t := by rw [Store.Used, ht]; simp
  have hold : ∀ {i}, i ≠ l → y.entry i = x.entry i := fun hi => by rw [hentry, update_of_ne hi]
  have hself : y.entry l = e := by rw [hentry, update_self]
  have hused : ∀ {i}, i ≠ l → y.Used i → x.Used i := fun hi hu => by rwa [Store.Used, hold hi] at hu
  constructor
  · intro i b hi hb
    rw [hnext]
    by_cases hil : i = l
    · rw [hil, hself, hdata] at hb
      exact h.old t b htu hb
    · rw [hold hil] at hb
      exact h.old i b (hused hil hi) hb
  intro i j b hi hj hij hib hjb
  by_cases hil : i = l
  · rw [hil, hself, htype]
  rw [hold hil] at hib ⊢
  by_cases hjl : j = l
  · rw [hjl, hself, hdata] at hjb
    by_cases hit : i = t
    · rw [hit, ht]
    · exact h.files i t b (hused hil hi) htu hit hib hjb
  · rw [hold hjl] at hjb
    exact h.files i j b (hused hil hi) (hused hjl hj) hij hib hjb

theorem Store.Apart.drop (h : x.Apart) {n : ℕ}
    (hentry : y.entry = update x.entry n e) (he : e.type = none)
    (hnext : y.nextBuf = x.nextBuf) : y.Apart := by
  constructor
  · intro i b hi hb
    obtain ⟨-, hy, hx⟩ := Store.of_drop hentry he hi
    rw [hy] at hb
    exact hnext ▸ h.old i b hx hb
  intro i j b hi hj hij hib hjb
  obtain ⟨-, hyi, hxi⟩ := Store.of_drop hentry he hi
  obtain ⟨-, hyj, hxj⟩ := Store.of_drop hentry he hj
  rw [hyi] at hib ⊢
  rw [hyj] at hjb
  exact h.files i j b hxi hxj hij hib hjb

/-- The links are sound, and only files share a buffer. -/
structure Sane (s : State B) : Prop where
  linked : ∃ kids, Linked s kids
  apart : s.store.Apart

section

variable (h : Sane s)
include h

theorem Sane.congr (htree : SameTree s t) (hstore : t.store = s.store) : Sane t :=
  ⟨h.linked.imp fun _ hk => hk.congr htree, hstore ▸ h.apart⟩

theorem Sane.grew (hg : Grew s t) : Sane t := by
  obtain ⟨kids, hk⟩ := h.linked
  exact ⟨hg.linked hk, h.apart.grew hg.sameHeap.nextBuf (hg.entry hk)⟩

theorem Sane.rootDir : s.type root = some .dir := by
  obtain ⟨kids, hk⟩ := h.linked
  exact hk.rootDir

theorem Sane.setErr (e : VfsError) : Sane (s.setErr e) :=
  h.congr (sameTree_setErr e s) rfl

theorem Sane.markDirty : Sane s.markDirty := h.congr (sameTree_markDirty s) rfl

theorem Sane.unlessSaving {k : State B → Result B} (hk : Sane (k s).2) :
    Sane (unlessSaving k s).2 := by
  unfold Vfs.unlessSaving
  split
  · exact h.setErr .saving
  · exact hk

theorem Sane.put (htree : SameTree s t)
    (hentry : t.store.entry = update s.store.entry f e) (htype : e.type = s.type f)
    (hnext : s.nextBuf ≤ t.nextBuf)
    (hdata : ∀ b, e.data = some b → (s.nodes f).data = some b ∨ s.nextBuf ≤ b ∧ b < t.nextBuf) :
    Sane t :=
  ⟨h.linked.imp fun _ hk => hk.congr htree, h.apart.put hentry htype hnext hdata⟩

/-- An update of one node that leaves its links and its type alone, and does not give it the buffer
of another one. -/
theorem Sane.setNode (hg : KeepsLinks g)
    (hdata : (g (s.nodes f)).data = (s.nodes f).data ∨ (g (s.nodes f)).data = none) :
    Sane (s.setNode f g) := by
  refine h.put (SameTree.rfl'.setNode hg) (congrArg Store.entry (store_setNode s f g))
    (hg (s.nodes f)).2.2.2.2 le_rfl fun b hb => ?_
  rcases hdata with hd | hd
  · exact .inl (hd.symm.trans hb)
  · exact absurd (hd.symm.trans hb) (by simp)

theorem Sane.blobs (blobs : B) : Sane { s with blobs := blobs } :=
  h.congr (sameTree_blobs s blobs) rfl

theorem Sane.kfree (buf : Option ℕ) : Sane (kfree buf s) := by
  rw [kfree_eq]
  exact ⟨h.linked.imp fun _ hk => hk.congr (sameTree_of_nodes rfl rfl rfl rfl), h.apart.1,
    h.apart.2⟩

theorem Sane.kmalloc_none (hm : kmalloc bytes s = (none, t)) : Sane t := by
  obtain ⟨-, rfl⟩ := Vfs.kmalloc_none hm
  exact h.put (sameTree_of_nodes rfl rfl rfl rfl) (f := root) (update_eq_self root _).symm rfl
    (Nat.le_succ _) fun b hb => .inl hb

/-- A node gets a buffer of its own. -/
theorem Sane.putNew {buf : ℕ}
    (hm : kmalloc bytes s = (some buf, t)) (old : Option ℕ) (hg : KeepsLinks g)
    (hdata : ∀ n, (g n).data = some buf) : Sane ((Vfs.kfree old t).setNode f g) := by
  have htree := sameTree_kmalloc bytes s
  rw [hm] at htree
  obtain ⟨rfl, rfl⟩ := kmalloc_some hm
  have hkeep := (htree.trans (sameTree_kfree old _)).setNode (i := f) hg
  rw [kfree_eq] at hkeep ⊢
  refine h.put hkeep (congrArg Store.entry (store_setNode _ f g)) (hg (s.nodes f)).2.2.2.2
    (Nat.le_succ _) fun b hb => .inr ?_
  have hbuf := (hdata (s.nodes f)).symm.trans hb
  injection hbuf with hbuf
  subst hbuf
  exact ⟨le_rfl, Nat.lt_succ_self _⟩

/-! ### Files -/

theorem vfsWriteFile_sane (path : Path) (bytes : List UInt8) :
    Sane (vfsWriteFile path bytes s).2 := by
  obtain ⟨e, he | ⟨-, out, u, -, -, he⟩⟩ := vfsWriteFile_cases path bytes s
  · rw [he]
    exact h.setErr e
  obtain ⟨kids, hk⟩ := (h.setErr e).linked
  have hc := (h.setErr e).grew (vfsCreateFile_grew hk out).1
  obtain ⟨hu, he⟩ | ⟨f, v, hu, he⟩ := he <;> rw [hu] at hc
  · rw [he]
    exact hc.setErr _
  obtain ⟨hm, he⟩ | ⟨buf, hm, he⟩ := he <;> rw [he]
  · exact (hc.kmalloc_none hm).setErr _
  refine Sane.markDirty (Sane.setErr (hc.putNew hm _ ?_ ?_) .none)
  · exact fun _ => ⟨rfl, rfl, rfl, rfl, rfl⟩
  · exact fun _ => rfl

theorem Sane.extendTo (f stop : ℕ) : Sane (extendTo f stop s) :=
  h.setNode (fun _ => ⟨rfl, rfl, rfl, rfl, rfl⟩) (.inl rfl)

theorem Sane.copyInto (f off : ℕ) (bytes : List UInt8) : Sane (copyInto f off bytes s) := by
  have htree := sameTree_copyInto f off bytes s
  unfold Vfs.copyInto at htree ⊢
  split
  · exact h
  next buf hb =>
    simp only [hb] at htree
    exact ⟨h.linked.imp fun _ hk => hk.congr htree, h.apart.1, h.apart.2⟩

theorem Sane.growNode (f need : ℕ) : Sane (growNode f need s).2 := by
  unfold Vfs.growNode
  dsimp only
  split
  · split
    next u hm => exact h.kmalloc_none hm
    rename_i buf u hm
    dsimp only
    refine h.putNew hm _ ?_ ?_
    · exact fun _ => ⟨rfl, rfl, rfl, rfl, rfl⟩
    · exact fun _ => rfl
  · exact h

theorem vfsWriteAt_sane (api : BlobApi B) (path : Path) (off : ℕ)
    (bytes : List UInt8) : Sane (vfsWriteAt api path off bytes s).2 := by
  obtain ⟨e, he | ⟨-, f, -, -, he⟩⟩ := vfsWriteAt_cases api path off bytes s <;> rw [he]
  · exact h.setErr e
  · replace h := h.setErr e
    unfold writeNode
    split
    · split
      · exact h.blobs _
      · exact ((h.blobs _).extendTo f _).markDirty
    have hgrow := h.growNode f ((off + bytes.length) % 2 ^ 64)
    dsimp only
    split
    next u hg => rwa [hg] at hgrow
    next u hg =>
      rw [hg] at hgrow
      exact ((hgrow.copyInto f off bytes).extendTo f _).markDirty

theorem vfsBindBlob_sane (api : BlobApi B) (path : Path) (blobId size : ℕ) :
    Sane (vfsBindBlob api path blobId size s).2 := by
  refine h.unlessSaving ?_
  obtain ⟨kids, hk⟩ := h.linked
  have hc := h.grew (vfsCreateFile_grew hk path).1
  generalize vfsCreateFile path s = r at hc ⊢
  rcases r with ⟨_ | f, t⟩
  · exact hc
  dsimp only
  split
  · exact hc
  split
  · exact hc
  refine Sane.markDirty ((hc.kfree _).setNode ?_ (.inr ?_))
  · exact fun _ => ⟨rfl, rfl, rfl, rfl, rfl⟩
  · rfl

/-! ### Links -/

theorem vfsSymlink_sane (target linkpath : Path) : Sane (vfsSymlink target linkpath s).2 := by
  refine h.unlessSaving ?_
  iterate 4
    split
    · exact h
  rename_i last _
  obtain ⟨hg, hdir⟩ := parentDir_grew h.rootDir linkpath last
  rcases hd : parentDir linkpath last s with ⟨_ | dir, t⟩
  · rw [hd] at hg
    exact h.grew hg
  rw [hd] at hg hdir
  dsimp only at hg hdir ⊢
  cases ha : allocNode (linkpath.drop (last + 1)) .symlink t with
  | none => exact h.grew hg
  | some r =>
    obtain ⟨i, u⟩ := r
    have hu := h.grew (hg.alloc ha)
    dsimp only
    rcases hm : kmalloc target u with ⟨_ | buf, v⟩
    · exact hu.kmalloc_none hm
    have htree := sameTree_kmalloc target u
    rw [hm] at htree
    have hv := hu.putNew (f := i) (g := fun n =>
      { n with data := some buf, size := target.length, capacity := target.length + 1 })
      hm none (fun _ => ⟨rfl, rfl, rfl, rfl, rfl⟩) fun _ => rfl
    obtain ⟨kids, ht⟩ := (h.grew hg).linked
    refine Sane.markDirty (Sane.setErr ⟨⟨_, ht.add ha (htree.setNode ?_) (hdir dir rfl)⟩, ?_⟩ .none)
    · exact fun _ => ⟨rfl, rfl, rfl, rfl, rfl⟩
    · rw [(sameStore_addChild dir i _).store]
      exact hv.apart

theorem vfsLink_sane (target linkname : Path) : Sane (vfsLink target linkname s).2 := by
  obtain ⟨kids, hk⟩ := h.linked
  obtain he | he | ⟨tn, _, dir, i, u, v, -, hfile, -, -, hd, ha, hv, hheap, hentry, he⟩ :=
    vfsLink_cases hk target linkname
  · rwa [he]
  · rw [he]; exact h.grew ((Grew.refl s).overrun _)
  rw [he]
  refine ⟨⟨_, (hk.noteOverrun _).add ha hv (existingDir_type hd)⟩, ?_⟩
  rw [(sameStore_addChild dir i _).store]
  exact h.apart.share hfile hentry hfile rfl hheap.nextBuf

/-! ### Removal -/

omit h in
theorem dropData_apart (n : ℕ) (h : s.store.Apart) : (dropData n s).store.Apart := by
  rcases dropData_store n s with hstore | ⟨-, hstore⟩
  · exact hstore ▸ h
  · rw [hstore]
    exact ⟨h.1, h.2⟩

omit h in
theorem unlinkFromParent_apart (n : ℕ) (h : s.store.Apart) : (unlinkFromParent n s).store.Apart :=
  (sameStore_unlinkFromParent n s).store ▸ h

theorem vfsUnlink_sane (path : Path) : Sane (vfsUnlink path s).2 := by
  obtain ⟨kids, hk⟩ := h.linked
  rcases vfsUnlink_cases hk path with ⟨e, he⟩ | ⟨n, p, -, hp, hkids, he⟩ <;> rw [he]
  · exact h.setErr e
  · have hsame := sameTree_dropData n (unlinkFromParent n s)
    refine Sane.markDirty ⟨⟨_, hk.remove hp hkids hsame rfl rfl rfl⟩, ?_⟩
    have hapart := dropData_apart n (unlinkFromParent_apart n h.apart)
    exact hapart.drop (congrArg Store.entry (store_setNode _ n _)) rfl rfl

theorem vfsRmdir_sane (path : Path) : Sane (vfsRmdir path s).2 := by
  obtain ⟨kids, hk⟩ := h.linked
  rcases vfsRmdir_cases hk path with ⟨e, he⟩ | ⟨n, p, -, hp, hkids, hchild, he⟩ <;> rw [he]
  · exact h.setErr e
  · refine Sane.markDirty ⟨⟨_, hk.remove hp hkids .rfl' hchild.symm rfl rfl⟩, ?_⟩
    exact (unlinkFromParent_apart n h.apart).drop
      (congrArg Store.entry (store_setNode _ n _)) rfl rfl

theorem vfsRename_sane (oldp newp : Path) : Sane (vfsRename oldp newp s).2 := by
  obtain ⟨kids, hk⟩ := h.linked
  rcases vfsRename_cases hk oldp newp with
    ⟨e, he⟩ | ⟨n, p, last, dir, -, hp, -, -, hd, he⟩ <;> rw [he]
  · exact h.setErr e
  refine Sane.markDirty ⟨⟨_, hk.rename hp (existingDir_type hd) (length_take_name _)⟩, ?_⟩
  rw [(sameStore_addChild dir n _).store, ((sameStore_unlinkFromParent n s).setNode rfl).store]
  exact h.apart

/-! ### Runs -/

theorem setModeAt_sane (path : Path) (mode : ℕ) : Sane (setModeAt path mode s) := by
  unfold setModeAt
  split
  · exact h
  · exact h.setNode (fun _ => ⟨rfl, rfl, rfl, rfl, rfl⟩) (.inl rfl)

theorem vfsReadAt_sane (api : BlobApi B) (path : Path) (off len : ℕ) :
    Sane (vfsReadAt api path off len s).2 := by
  obtain ⟨_, _, _, hr⟩ := vfsReadAt_state api path off len s
  rw [hr]
  exact h.congr (sameTree_of_nodes rfl rfl rfl rfl) rfl

/-- **No call breaks the links**, and none lets a file share its buffer with anything but a file. -/
theorem Sane.step (api : BlobApi B) (call : Call) : Sane (s.step api call) := by
  cases call with
  | mkdir path => exact h.grew (vfsMkdir_grew h.rootDir path)
  | createFile path =>
    obtain ⟨kids, hk⟩ := h.linked
    exact h.grew (vfsCreateFile_grew hk path).1
  | writeFile path bytes => exact vfsWriteFile_sane h path bytes
  | writeAt path off bytes => exact vfsWriteAt_sane h api path off bytes
  | bindBlob path blobId size => exact vfsBindBlob_sane h api path blobId size
  | symlink target linkpath => exact vfsSymlink_sane h target linkpath
  | link target linkname => exact vfsLink_sane h target linkname
  | rename oldp newp => exact vfsRename_sane h oldp newp
  | unlink path => exact vfsUnlink_sane h path
  | rmdir path => exact vfsRmdir_sane h path
  | removeTree width depth path =>
    exact vfsRemoveTree_rule (P := Sane) (fun path _ h => vfsUnlink_sane h path)
      (fun path _ h => vfsRmdir_sane h path) width depth path s h
  | copyTree src dst =>
    change Sane (vfsCopyTreeEx api src dst false s).2
    unfold vfsCopyTreeEx
    split
    · exact h
    exact copyTreeRec_rule (P := Sane) (Q := fun _ => True) api
      (fun path off len s h => vfsReadAt_sane h api path off len)
      (fun path bytes s h => vfsWriteFile_sane h path bytes)
      (fun path off bytes s h => vfsWriteAt_sane h api path off bytes)
      (fun path mode s h => setModeAt_sane h path mode)
      (fun path s _ h => h.grew (vfsMkdir_grew h.rootDir path)) (fun _ _ _ _ _ _ => trivial)
      _ _ _ src dst s trivial h
  | setSaving saving => exact h.congr (sameTree_of_nodes rfl rfl rfl rfl) rfl

end

theorem sane_vfsInit (oom : ℕ → Bool) (blobs : B) : Sane (vfsInit oom blobs) :=
  have ⟨hlinked, hheld, _, _⟩ := safe_vfsInit oom blobs
  ⟨hlinked, fun i b hi hb => (hheld.live i b hi hb).2,
    fun i j b hi hj hij hb hb' => (hheld.apart i j b hi hj hij hb hb').1⟩

/-- **The name index changes no answer.** In every state a run can reach, `find_child` gives the
first node on the directory's child list that has the name. -/
theorem findChild_eq_scan (api : BlobApi B)
    (h : Reach State.Booted (fun _ _ => True) (State.step api) s) (dir : ℕ) (name : Path) :
    ∃ l, IsChain s.sibling (s.child dir) l ∧
      findChild s dir name = l.find? fun c => decide (s.name c = name) := by
  have hsane : Sane s := by
    refine h.invariant Sane ?_ fun s call hs _ => hs.step api call
    rintro _ ⟨oom, blobs, rfl⟩
    exact sane_vfsInit oom blobs
  obtain ⟨kids, hk⟩ := hsane.linked
  exact ⟨kids dir, hk.forest.chain dir, hk.findChild_eq dir name⟩

/-- The names `a` and `i` share a bucket; `a` is renamed away and `i` takes its name. -/
theorem findChild_eq_scan_renamed :
    let s := [Call.mkdir [slash, 97], .mkdir [slash, 105], .rename [slash, 97] [slash, 98],
      .rename [slash, 105] [slash, 97]].foldl (State.step noBlobstore) (vfsInit (fun _ => false) ())
    findChild s root [97] = some 2 ∧ ∃ l, IsChain s.sibling (s.child root) l ∧
      findChild s root [97] = l.find? fun c => decide (s.name c = [97]) := by
  refine ⟨by decide, findChild_eq_scan noBlobstore (Reach.calls (.start ⟨_, _, rfl⟩) _ ?_) _ _⟩
  exact ⟨trivial, trivial, trivial, trivial, trivial⟩

/-- **What no call breaks.** A child list ends; on it are nodes in use that have this parent, and
none of them twice. Only files share a buffer. -/
theorem lists_of_run (api : BlobApi B)
    (h : Reach State.Booted (fun _ _ => True) (State.step api) s) :
    (∀ d, ∃ l, IsChain s.sibling (s.child d) l ∧ l.Nodup ∧
      ∀ c ∈ l, s.parent c = some d ∧ s.type c ≠ none) ∧ s.store.Apart := by
  have hsane : Sane s := by
    refine h.invariant Sane ?_ fun s call hs _ => hs.step api call
    rintro _ ⟨oom, blobs, rfl⟩
    exact sane_vfsInit oom blobs
  obtain ⟨kids, hk⟩ := hsane.linked
  exact ⟨fun d => ⟨kids d, hk.forest.chain d, hk.forest.nodup d, fun c hc =>
    ⟨hk.forest.parent d c hc, hk.used d c hc⟩⟩, hsane.apart⟩

/-- Two names of one file share its buffer. -/
theorem lists_of_run_link :
    let s := [.writeFile [slash, 97] [120], .link [slash, 97] [slash, 98]].foldl
      (State.step noBlobstore) (vfsInit (fun _ => false) ())
    ((s.nodes 1).data = some 0 ∧ (s.nodes 2).data = some 0) ∧
      (∃ l, IsChain s.sibling (s.child root) l ∧ l.Nodup ∧
        ∀ c ∈ l, s.parent c = some root ∧ s.type c ≠ none) ∧ s.store.Apart := by
  intro s
  obtain ⟨hlists, hapart⟩ := lists_of_run noBlobstore
    (Reach.calls (.start ⟨fun _ => false, (), rfl⟩) _ (allowedFrom_true _ _ _) :
      Reach State.Booted (fun _ _ => True) (State.step noBlobstore) s)
  exact ⟨by decide +kernel, hlists root, hapart⟩

end PeakOs.Vfs
