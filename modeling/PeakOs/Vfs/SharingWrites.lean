import PeakOs.Vfs.TreeRun

/-!
# Writes to shared buffers

A write that replaces the buffer of a file with a second name leaves the other name with a released
buffer. `vfs_write_file` always does that, `vfs_write_at` when it has to grow the file, and
`vfs_bind_blob` when the file moves to the blobstore. A file with one name can be written freely,
and one with several inside its bounds.

## Main results

* `Grew.entry` — the operations that make nodes leave the others alone
* `vfsWriteFile_safe`, `vfsWriteAt_safe`, `vfsBindBlob_safe`
-/

namespace PeakOs.Vfs

open Function List

variable {B : Type} {s t : State B} {kids : ℕ → List ℕ} {file : ℕ → FileId} {clock : ℕ}

/-! ### The store under the helpers -/

/-- The two states have the same store, and the same heap accesses were made. -/
structure SameStore (s t : State B) : Prop where
  store : t.store = s.store
  fault : t.heapFault = s.heapFault

theorem SameStore.rfl' : SameStore s s := ⟨rfl, rfl⟩

variable {u : State B} {i buf f off need : ℕ} {name path : Path} {type : VfsType}
    {bytes : List UInt8} {e : Entry}

theorem SameStore.trans (h : SameStore s t) (h' : SameStore t u) : SameStore s u :=
  ⟨h'.store.trans h.store, h'.fault.trans h.fault⟩

/-- Changing the links of a node does not change the store. -/
theorem SameStore.setNode (h : SameStore s t) {f : Node → Node}
    (hf : (f (t.nodes i)).entry = (t.nodes i).entry) : SameStore s (t.setNode i f) := by
  refine h.trans ⟨?_, rfl⟩
  rw [store_setNode, hf]
  exact congrArg (fun e => { t.store with entry := e }) (update_eq_self i t.store.entry)

theorem SameStore.setBuckets (h : SameStore s t) (buckets : ℕ → ℕ → ℕ) :
    SameStore s (t.setBuckets buckets) := h.trans ⟨rfl, rfl⟩

theorem sameStore_addChild (p c : ℕ) (s : State B) : SameStore s (addChild p c s) := by
  refine SameStore.setBuckets (SameStore.setNode (SameStore.setNode (SameStore.setNode .rfl' ?_) ?_)
    ?_) _ <;> rfl

theorem sameStore_unlinkFromParent (n : ℕ) (s : State B) : SameStore s (unlinkFromParent n s) := by
  unfold unlinkFromParent
  split
  · exact .rfl'
  split
  · refine SameStore.setBuckets (SameStore.setNode .rfl' ?_) _
    rfl
  split
  · exact .rfl'
  · refine SameStore.setBuckets (SameStore.setNode .rfl' ?_) _
    rfl

theorem entry_alloc (hs : Linked s kids) (hg : Grew s t)
    {j : ℕ} (ha : allocNode name type t = some (j, u))
    (h : s.store.GrewTo t.store) : s.store.GrewTo u.store := by
  obtain ⟨hkeep, hnew⟩ := h
  obtain ⟨kids', ht⟩ := hg.linked hs
  obtain ⟨-, hfree, hnodes, -⟩ := allocNode_linked ht ha
  have hentry : u.store.entry = update t.store.entry j (.blank type) := by
    change Node.entry ∘ u.nodes = _
    rw [hnodes, comp_update]
    rfl
  constructor
  · intro i hi
    have hij : i ≠ j := by
      rintro rfl
      rw [Store.Used, ← hkeep i hi] at hi
      exact hi hfree
    rw [hentry, update_of_ne hij, hkeep i hi]
  intro i hi hi'
  rw [Store.Used, hentry] at hi'
  rw [hentry]
  by_cases hij : i = j
  · rw [hij, update_self]
    exact ⟨type, rfl⟩
  · rw [update_of_ne hij] at hi' ⊢
    exact hnew i hi hi'

theorem Grew.entry (h : Grew s t) (hs : Linked s kids) : s.store.GrewTo t.store := by
  induction h with
  | refl => exact ⟨fun _ _ => rfl, fun i hi hi' => absurd hi' hi⟩
  | overrun long _ ih => exact ih
  | alloc hg ha ih => exact entry_alloc hs hg ha ih
  | @add t u name type j dir hg hdir ha ih =>
    rw [(sameStore_addChild dir j u).store]
    exact entry_alloc hs hg ha ih

/-! ### What every operation keeps -/

/-- The links are sound, buffers and labels agree, and no access has left its buffer. -/
structure Safe (s : State B) (file : ℕ → FileId) (clock : ℕ) : Prop where
  linked : ∃ kids, Linked s kids
  held : Held s.store file clock
  path : s.pathFault = false
  heap : s.heapFault = false

theorem Safe.congr (h : Safe s file clock) (htree : SameTree s t) (hstore : SameStore s t) :
    Safe t file clock where
  linked := h.linked.imp fun _ hk => hk.congr htree
  held := hstore.store ▸ h.held
  path := htree.fault.trans h.path
  heap := hstore.fault.trans h.heap

/-- The labels after a call that makes no link. -/
abbrev freshLabels (s : State B) (file : ℕ → FileId) (clock : ℕ) : ℕ → FileId :=
  relabel s.store file fun i => (clock, i)

theorem Safe.grew (h : Safe s file clock) (hg : Grew s t) (hpath : t.pathFault = s.pathFault) :
    Safe t (freshLabels s file clock) (clock + 1) := by
  obtain ⟨kids, hk⟩ := h.linked
  have hheap := hg.sameHeap
  exact ⟨hg.linked hk, h.held.grew hheap.bufs hheap.nextBuf hheap.freed (hg.entry hk),
    hpath.trans h.path, hheap.fault.trans h.heap⟩

/-- A call that makes no node; `s` is the state before it. -/
theorem Safe.later (h : Safe t file clock) (hused : ∀ i, t.store.Used i → s.store.Used i)
    (new : ℕ → FileId) : Safe t (relabel s.store file new) (clock + 1) :=
  ⟨h.linked, h.held.later.congr_file fun i hi => relabel_used (hused i hi), h.path, h.heap⟩

theorem Safe.tick (h : Safe s file clock) (new : ℕ → FileId) :
    Safe s (relabel s.store file new) (clock + 1) := h.later (fun _ hi => hi) new

theorem Safe.setErr (h : Safe s file clock) (e : VfsError) : Safe (s.setErr e) file clock :=
  h.congr (sameTree_setErr e s) ⟨rfl, rfl⟩

theorem Safe.markDirty (h : Safe s file clock) : Safe s.markDirty file clock :=
  h.congr (sameTree_markDirty s) ⟨rfl, rfl⟩

theorem Safe.unlessSaving (h : Safe s file clock) {k : State B → Result B}
    (hk : Safe (k s).2 (freshLabels s file clock) (clock + 1)) :
    Safe (unlessSaving k s).2 (freshLabels s file clock) (clock + 1) := by
  unfold Vfs.unlessSaving
  split
  · exact (h.tick _).setErr .saving
  · exact hk

theorem Safe.rootDir (h : Safe s file clock) : s.type root = some .dir := by
  obtain ⟨kids, hk⟩ := h.linked
  exact hk.rootDir

/-! ### Creation -/

/-- The file `vfs_create_file` returns is the one with that name, or a new one. -/
theorem vfsCreateFile_grew (hs : Linked s kids) (path : Path) :
    Grew s (vfsCreateFile path s).2 ∧ ∀ f, (vfsCreateFile path s).1 = some f →
      (vfsCreateFile path s).2.type f = some .file ∧
        (s.store.Used f → vfsLookup path s = some f) := by
  unfold vfsCreateFile
  split
  next e he =>
    refine ⟨.refl s, fun f hf => ?_⟩
    split at hf
    · rename_i hfile
      injection hf with hf
      exact hf ▸ ⟨hfile, fun _ => he⟩
    · cases hf
  · split
    · exact ⟨.refl s, fun f hf => by cases hf⟩
    rename_i last _
    obtain ⟨hg, hdir⟩ := parentDir_grew hs.rootDir path last
    rcases hd : parentDir path last s with ⟨_ | dir, t⟩
    · rw [hd] at hg
      exact ⟨hg, fun f hf => by cases hf⟩
    rw [hd] at hg hdir
    dsimp only
    split
    · exact ⟨hg, fun f hf => by cases hf⟩
    rename_i i u ha
    refine ⟨hg.add (hdir dir rfl) ha, fun f hf => ?_⟩
    injection hf with hf
    subst hf
    obtain ⟨kids', ht⟩ := hg.linked hs
    have hfree := (allocNode_linked ht ha).2.1
    constructor
    · exact type_addChild ha dir
    intro hused
    have := (hg.entry hs).1 i hused
    rw [Store.Used, ← this] at hused
    exact absurd hfree hused

theorem vfsCreateFile_fault (hp : PathOk path) :
    (vfsCreateFile path s).2.pathFault = s.pathFault := by
  unfold vfsCreateFile
  split
  · rfl
  split
  · rfl
  rename_i last _
  have h := parentDir_fault (s := s) hp last
  rcases hd : parentDir path last s with ⟨_ | dir, t⟩
  · rwa [hd] at h
  rw [hd] at h
  dsimp only
  split
  · exact h
  next ha => exact (allocNode_fault ha).trans h

/-- What `vfs_create_file` gives to the operations that go on with the file. -/
theorem Safe.vfsCreateFile (h : Safe s file clock) (hp : PathOk path)
    (halone : ∀ f, vfsLookup path s = some f → s.store.Alone file f) :
    Safe (vfsCreateFile path s).2 (freshLabels s file clock) (clock + 1) ∧
      ∀ f, (Vfs.vfsCreateFile path s).1 = some f →
        (Vfs.vfsCreateFile path s).2.type f = some .file ∧
          (Vfs.vfsCreateFile path s).2.store.Alone (freshLabels s file clock) f := by
  obtain ⟨kids, hk⟩ := h.linked
  obtain ⟨hg, hf⟩ := vfsCreateFile_grew hk path
  refine ⟨h.grew hg (vfsCreateFile_fault hp), fun f hres => ?_⟩
  obtain ⟨htype, hold⟩ := hf f hres
  exact ⟨htype, h.held.alone_fresh fun hused => halone f (hold hused)⟩

/-! ### Contents -/

theorem kmalloc_some (h : kmalloc bytes s = (some buf, t)) : buf = s.nextBuf ∧ t = { s with
      bufs := update s.bufs s.nextBuf bytes
      nextBuf := s.nextBuf + 1 } := by
  unfold kmalloc at h
  split at h
  · cases h
  obtain ⟨hb, ht⟩ := Prod.mk.inj h
  injection hb with hb
  exact ⟨hb.symm, ht.symm⟩

theorem kmalloc_none (h : kmalloc bytes s = (none, t)) :
    s.oom s.nextBuf = true ∧ t = { s with nextBuf := s.nextBuf + 1 } := by
  unfold kmalloc at h
  split at h
  next hoom => exact ⟨hoom, (Prod.mk.inj h).2.symm⟩
  · cases h

theorem kfree_eq (buf : Option ℕ) (s : State B) :
    kfree buf s = { s with freed := buf.toList ++ s.freed } := by
  cases buf <;> rfl

theorem Safe.kmalloc_none (h : Safe s file clock)
    (hm : kmalloc bytes s = (none, t)) : Safe t file clock := by
  obtain ⟨-, rfl⟩ := Vfs.kmalloc_none hm
  exact ⟨h.linked.imp fun _ hk => hk.congr (sameTree_of_nodes rfl rfl rfl rfl),
    h.held.mono rfl rfl (Nat.le_succ _) fun _ _ => rfl, h.path, h.heap⟩

/-- `Held.put` for an operation that leaves the tree alone. -/
theorem Safe.put (h : Safe s file clock) (hf : s.store.Used f)
    (halone : s.store.Alone file f) (htree : SameTree s t)
    (hentry : t.store.entry = update s.store.entry f e)
    (htype : e.type = s.type f) (hnext : s.nextBuf ≤ t.nextBuf)
    (hlen : ∀ b < s.nextBuf, (t.bufs b).length = (s.bufs b).length)
    (hdata : ∀ b, e.data = some b → s.nextBuf ≤ b ∧ b < t.nextBuf)
    (hfreed : t.freed = (s.nodes f).data.toList ++ s.freed) (hfull : e.Full t.bufs)
    (hheap : t.heapFault = s.heapFault) : Safe t file clock where
  linked := h.linked.imp fun _ hk => hk.congr htree
  held := h.held.put hf halone hentry htype hnext hlen hdata hfreed hfull
  path := htree.fault.trans h.path
  heap := hheap.trans h.heap

theorem used_of_type (hf : s.type f = some type) : s.store.Used f := by
  change s.type f ≠ none
  rw [hf]
  simp

/-- A node that has its file to itself gets the next buffer. -/
theorem Safe.putNew (h : Safe s file clock) (hf : s.store.Used f)
    (halone : s.store.Alone file f) (htree : SameTree s t) (bytes : List UInt8)
    (hentry : t.store.entry = update s.store.entry f e) (htype : e.type = s.type f)
    (hdata : e.data = some s.nextBuf) (hbufs : t.bufs = update s.bufs s.nextBuf bytes)
    (hnext : t.nextBuf = s.nextBuf + 1) (hfreed : t.freed = (s.nodes f).data.toList ++ s.freed)
    (hsize : e.type = some .file → e.blobId = 0 ∧ e.capacity = e.size ∧ bytes.length = e.size)
    (hheap : t.heapFault = s.heapFault) : Safe t file clock := by
  refine h.put hf halone htree hentry htype (by omega) (fun b hb => ?_) (fun b hb => ?_) hfreed
    (fun hfile => ?_) hheap
  · rw [hbufs, update_of_ne (ne_of_lt hb)]
  · rw [hdata] at hb
    injection hb with hb
    omega
  obtain ⟨hblob, hcap, hlen⟩ := hsize hfile
  rw [if_pos hblob, hdata, hbufs]
  exact ⟨hcap, by simpa using hlen⟩

/-- **`vfs_write_file`** on a file with one name. -/
theorem vfsWriteFile_safe (h : Safe s file clock) (path : Path) (bytes : List UInt8)
    (halone : ∀ f, s.opens path = some f → s.store.Alone file f) :
    Safe (vfsWriteFile path bytes s).2 (freshLabels s file clock) (clock + 1) := by
  obtain ⟨e, he | ⟨-, out, u, hio, ⟨hok, -, -⟩, he⟩⟩ := vfsWriteFile_cases path bytes s
  · rw [he]
    exact (h.tick _).setErr e
  obtain ⟨hu, hres⟩ := (h.setErr e).vfsCreateFile hok fun f hf =>
    halone f (by rw [State.opens, hio]; exact hf)
  obtain ⟨hc, he⟩ | ⟨f, v, hc, he⟩ := he <;> rw [hc] at hu hres
  · rw [he]
    exact hu.setErr .cannotCreate
  obtain ⟨hfile, hal⟩ := hres f rfl
  obtain ⟨hm, he⟩ | ⟨buf, hm, he⟩ := he <;> rw [he]
  · exact (hu.kmalloc_none hm).setErr .outOfMemory
  have htree := sameTree_kmalloc bytes u
  rw [hm] at htree
  obtain ⟨rfl, rfl⟩ := kmalloc_some hm
  refine Safe.markDirty (Safe.setErr ?_ .none)
  refine hu.putNew (used_of_type hfile) hal
    ((htree.trans (sameTree_kfree _ _)).setNode fun _ => ⟨rfl, rfl, rfl, rfl, rfl⟩)
    (e := ⟨u.type f, some u.nextBuf, bytes.length, bytes.length, 0⟩) bytes
    ?_ rfl rfl ?_ ?_ ?_ (fun _ => ⟨rfl, rfl, rfl⟩) ?_
  · rw [store_setNode, kfree_eq]
    rfl
  all_goals
    rw [kfree_eq]
    rfl

/-- **`vfs_bind_blob`** on a file with one name. -/
theorem vfsBindBlob_safe (h : Safe s file clock) (api : BlobApi B) (blobId size : ℕ)
    (hp : PathOk path) (halone : ∀ f, vfsLookup path s = some f → s.store.Alone file f) :
    Safe (vfsBindBlob api path blobId size s).2 (freshLabels s file clock) (clock + 1) := by
  refine h.unlessSaving ?_
  obtain ⟨hu, hres⟩ := h.vfsCreateFile hp halone
  rcases hc : vfsCreateFile path s with ⟨_ | f, u⟩
  · rwa [hc] at hu
  rw [hc] at hu hres
  obtain ⟨hfile, hal⟩ := hres f rfl
  dsimp only
  split
  · exact hu
  rename_i hid
  split
  · exact hu
  refine Safe.markDirty (hu.put (used_of_type hfile) hal
    ((sameTree_kfree _ _).setNode fun _ => ⟨rfl, rfl, rfl, rfl, rfl⟩)
    (e := ⟨u.type f, none, size, 0, blobId⟩) ?_ rfl ?_ ?_ (fun b hb => by cases hb) ?_ ?_ ?_)
  · rw [store_setNode, kfree_eq]
    rfl
  · rw [kfree_eq]
    exact le_rfl
  · rw [kfree_eq]
    exact fun _ _ => rfl
  · rw [kfree_eq]
    rfl
  · exact Entry.full_blob hid rfl
  · rw [kfree_eq]
    rfl

theorem length_overwrite {buf : List UInt8}
    (h : off + bytes.length ≤ buf.length) : (overwrite buf off bytes).length = buf.length := by
  simp only [overwrite, length_append, length_take, length_drop]
  omega

theorem length_grownBytes {old : Option (List UInt8)} {size : ℕ}
    (h : (old.getD []).length = size) (hneed : size ≤ need) :
    (grownBytes old size need).length = need := by
  simp only [grownBytes, length_append, length_take, length_replicate]
  omega

/-- The node after a growing step, and the heap. -/
theorem growNode_some (hgrow : (s.nodes f).capacity < need ∨ (s.nodes f).data = none)
    (h : growNode f need s = (true, t)) : t = { s with
      nodes := update s.nodes f
        { s.nodes f with data := some s.nextBuf, capacity := need }
      bufs := update s.bufs s.nextBuf
        (grownBytes ((s.nodes f).data.map s.bufs) (s.nodes f).size need)
      nextBuf := s.nextBuf + 1
      freed := (s.nodes f).data.toList ++ s.freed } := by
  unfold growNode at h
  rw [if_pos hgrow] at h
  split at h
  · cases h
  rename_i hm
  obtain ⟨rfl, rfl⟩ := kmalloc_some hm
  rw [← (Prod.mk.inj h).2, kfree_eq]
  rfl

theorem copyInto_some (off : ℕ) (bytes : List UInt8) (hd : (s.nodes f).data = some buf)
    (hlen : off + bytes.length ≤ (s.bufs buf).length) : copyInto f off bytes s =
      { s with bufs := update s.bufs buf (overwrite (s.bufs buf) off bytes) } := by
  unfold copyInto
  rw [hd]
  simp [decide_eq_false (not_lt.2 hlen)]

/-- A write behind the end of a file with one name. -/
theorem Safe.growWrite (h : Safe s file clock)
    (hf : s.type f = some .file) (hblob : (s.nodes f).blobId = 0) (halone : s.store.Alone file f)
    (hgrow : (s.nodes f).capacity < off + bytes.length ∨ (s.nodes f).data = none)
    (ht : growNode f (off + bytes.length) s = (true, t)) :
    Safe (extendTo f (off + bytes.length) (copyInto f off bytes t)) file clock := by
  obtain ⟨hcap, hlen⟩ : (s.nodes f).capacity = (s.nodes f).size ∧
    (((s.nodes f).data.map s.bufs).getD []).length = (s.nodes f).size :=
      (h.held.full f).heap hf hblob
  have hneed : (s.nodes f).size ≤ off + bytes.length := by
    rcases hgrow with hlt | hnone
    · omega
    rw [hnone] at hlen
    simp only [Option.map_none, Option.getD_none, length_nil] at hlen
    omega
  have hgrown := length_grownBytes hlen hneed
  have htree := sameTree_growNode f (off + bytes.length) s
  rw [ht] at htree
  have htree' := (htree.trans (sameTree_copyInto f off bytes t)).trans
    (sameTree_extendTo f (off + bytes.length) _)
  have ht := growNode_some hgrow ht
  generalize grownBytes ((s.nodes f).data.map s.bufs) (s.nodes f).size (off + bytes.length) = grown
    at hgrown ht
  have hnode : t.nodes f = { s.nodes f with
      data := some s.nextBuf, capacity := off + bytes.length } := by rw [ht]; simp
  have hbuf : t.bufs s.nextBuf = grown := by rw [ht]; simp
  have hcopy := copyInto_some (s := t) (f := f) off bytes (by rw [hnode])
    (by rw [hbuf, hgrown])
  rw [hcopy] at htree' ⊢
  refine h.putNew (used_of_type hf) halone htree'
    (e := ⟨s.type f, some s.nextBuf, off + bytes.length, off + bytes.length, 0⟩)
    (overwrite grown off bytes) ?_ rfl rfl ?_ ?_ ?_ (fun _ => ⟨rfl, rfl, ?_⟩) ?_
  · rw [extendTo, store_setNode]
    have hsize : (if (s.nodes f).size < off + bytes.length then off + bytes.length
        else (s.nodes f).size) = off + bytes.length := by
      split
      · rfl
      · omega
    funext i
    by_cases hi : i = f
    · subst hi
      simp only [update_self, hnode, hsize, Node.entry, hblob, State.type]
    · simp only [update_of_ne hi, State.store, ht]
  · rw [ht]
    simp [extendTo, State.setNode]
  · rw [ht]; rfl
  · rw [ht]; rfl
  · rw [length_overwrite hgrown.ge, hgrown]
  · rw [ht]; rfl

/-- A write inside a file, however many names it has. -/
theorem Safe.writeInside (h : Safe s file clock)
    (hf : s.type f = some .file) (hblob : (s.nodes f).blobId = 0)
    (hd : (s.nodes f).data = some buf) (hle : off + bytes.length ≤ (s.nodes f).capacity) :
    Safe (extendTo f (off + bytes.length) (copyInto f off bytes s)) file clock := by
  obtain ⟨hcap, hlen⟩ : (s.nodes f).capacity = (s.nodes f).size ∧
    (((s.nodes f).data.map s.bufs).getD []).length = (s.nodes f).size :=
      (h.held.full f).heap hf hblob
  rw [hd] at hlen
  have hroom : off + bytes.length ≤ (s.bufs buf).length := by
    simp only [Option.map_some, Option.getD_some] at hlen
    omega
  have htree := (sameTree_copyInto f off bytes s).trans
    (sameTree_extendTo f (off + bytes.length) _)
  rw [copyInto_some off bytes hd hroom] at htree ⊢
  -- the size does not change
  have hsize : SameStore { s with
        bufs := update s.bufs buf (overwrite (s.bufs buf) off bytes) }
      (extendTo f (off + bytes.length) { s with
        bufs := update s.bufs buf (overwrite (s.bufs buf) off bytes) }) := by
    refine SameStore.setNode .rfl' ?_
    simp only [if_neg (by omega : ¬ (s.nodes f).size < off + bytes.length)]
  refine ⟨h.linked.imp fun _ hk => hk.congr htree, ?_, htree.fault.trans h.path,
    hsize.fault.trans h.heap⟩
  rw [hsize.store]
  exact h.held.mono rfl rfl le_rfl fun b _ => (forall_update_iff s.bufs fun b x =>
    x.length = (s.bufs b).length).2 ⟨length_overwrite hroom, fun _ _ => rfl⟩ b

theorem writeNode_safe (h : Safe s file clock) (api : BlobApi B)
    (hf : s.type f = some .file) (hoff : off + bytes.length < 2 ^ 64)
    (hcond : s.store.Alone file f ∨
      (s.nodes f).data ≠ none ∧ off + bytes.length ≤ (s.nodes f).size) :
    Safe (writeNode api f off bytes s).2 file clock := by
  unfold writeNode
  split
  next hblob =>
    have hnone : (s.nodes f).data = none := (h.held.full f).blob hf hblob
    have halone := hcond.resolve_right fun hd => hd.1 hnone
    split
    · exact h.congr (sameTree_blobs s _) ⟨rfl, rfl⟩
    rename_i k blobs _
    refine Safe.markDirty (h.put (used_of_type hf) halone
      ((sameTree_blobs s blobs).trans (sameTree_extendTo f _ _))
      (congrArg Store.entry (store_setNode _ f _)) rfl le_rfl (fun _ _ => rfl)
      (fun b hb => ?_) ?_ (Entry.full_blob hblob hnone) rfl)
    · exact absurd (hnone.symm.trans hb) (by simp)
    · rw [hnone]
      rfl
  next hblob =>
    have hblob : (s.nodes f).blobId = 0 := not_not.1 hblob
    have hcap : (s.nodes f).capacity = (s.nodes f).size := ((h.held.full f).heap hf hblob).1
    rw [Nat.mod_eq_of_lt hoff]
    dsimp only
    by_cases hgrow : (s.nodes f).capacity < off + bytes.length ∨ (s.nodes f).data = none
    · have halone := hcond.resolve_right fun hd => hgrow.elim (fun hlt => by omega) hd.1
      rcases hg : growNode f (off + bytes.length) s with ⟨_ | _, t⟩
      · unfold growNode at hg
        rw [if_pos hgrow] at hg
        split at hg
        · rename_i hm
          obtain ⟨-, rfl⟩ := Prod.mk.inj hg
          exact h.kmalloc_none hm
        · cases hg
      · exact (h.growWrite hf hblob halone hgrow hg).markDirty
    have hg : growNode f (off + bytes.length) s = (true, s) := by rw [growNode, if_neg hgrow]
    rw [hg]
    obtain ⟨hle, hsome⟩ := not_or.1 hgrow
    obtain ⟨buf, hbuf⟩ := Option.ne_none_iff_exists'.1 hsome
    exact (h.writeInside hf hblob hbuf (not_lt.1 hle)).markDirty

/-- **`vfs_write_at`** on a file with one name, or inside it. -/
theorem vfsWriteAt_safe (h : Safe s file clock) (api : BlobApi B) (path : Path)
    (hoff : off + bytes.length < 2 ^ 64)
    (hcond : ∀ f, s.opens path = some f → s.store.Alone file f ∨
      (s.nodes f).data ≠ none ∧ off + bytes.length ≤ (s.nodes f).size) :
    Safe (vfsWriteAt api path off bytes s).2 (freshLabels s file clock) (clock + 1) := by
  obtain ⟨e, he | ⟨-, f, hf, hfile, he⟩⟩ := vfsWriteAt_cases api path off bytes s <;> rw [he]
  · exact (h.tick _).setErr e
  · refine writeNode_safe ((h.tick _).setErr e) api hfile hoff ?_
    refine (hcond f hf).imp (fun halone => ?_) id
    exact h.held.alone_fresh fun _ => halone

end PeakOs.Vfs
