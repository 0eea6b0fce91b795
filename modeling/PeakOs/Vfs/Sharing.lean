import PeakOs.Vfs.Links

/-!
# Nodes that share a buffer

`vfs_link` makes a second node with the data pointer of the first. Only `vfs_unlink` asks whether a
buffer has other users; the operations that replace a buffer release the old one at once, and a
size is kept in every node of its own.

Which nodes are names of one file is not recorded in the table, so that a label is added here: a
node made by `vfs_link` has the label of its target, every other new node one that was not in use
before. `Held` is what ties the labels to the buffers: nodes with one label have the same pointer
and the same size, and nodes with different labels have different buffers. It is about the `Store`,
the table with everything else forgotten, and has one lemma for each thing an operation can do to
it.

## Main results

* `Held.grew` — new nodes without a buffer
* `Held.put` — another buffer for a node that has its file to itself
* `Held.share` — a node with the buffer of another one
* `Held.drop` — a node goes, and with it the buffer if no other node has it
-/

namespace PeakOs.Vfs

open Function List

variable {B : Type}

/-! ### The store -/

/-- The part of a node that says where its bytes are. -/
@[ext] structure Entry where
  type : Option VfsType
  data : Option ℕ
  size : ℕ
  capacity : ℕ
  blobId : ℕ

def Node.entry (n : Node) : Entry := ⟨n.type, n.data, n.size, n.capacity, n.blobId⟩

/-- A new node. -/
def Entry.blank (type : VfsType) : Entry := ⟨some type, none, 0, 0, 0⟩

/-- A file on the heap fills its buffer, and a file in the blobstore has none. -/
def Entry.Full (bufs : ℕ → List UInt8) (e : Entry) : Prop :=
  e.type = some .file →
    if e.blobId = 0 then e.capacity = e.size ∧ ((e.data.map bufs).getD []).length = e.size
    else e.data = none

theorem Entry.full_blank (bufs : ℕ → List UInt8) (type : VfsType) : (blank type).Full bufs :=
  fun _ => ⟨rfl, rfl⟩

variable {bufs : ℕ → List UInt8} {e : Entry} {i f : ℕ}

theorem Entry.Full.heap (h : e.Full bufs) (htype : e.type = some .file) (hb : e.blobId = 0) :
    e.capacity = e.size ∧ ((e.data.map bufs).getD []).length = e.size := by
  have := h htype
  rwa [if_pos hb] at this

theorem Entry.Full.blob (h : e.Full bufs)
    (htype : e.type = some .file) (hb : e.blobId ≠ 0) : e.data = none := by
  have := h htype
  rwa [if_neg hb] at this

theorem Entry.full_blob (hb : e.blobId ≠ 0) (hd : e.data = none) : e.Full bufs := by
  intro _
  rwa [if_neg hb]

/-- Only the length of the buffer matters. -/
theorem Entry.Full.congr {bufs' : ℕ → List UInt8} (h : e.Full bufs)
    (hlen : ∀ b, e.data = some b → (bufs' b).length = (bufs b).length) : e.Full bufs' := by
  intro htype
  split
  next hb =>
    refine ⟨(h.heap htype hb).1, Eq.trans ?_ (h.heap htype hb).2⟩
    cases hd : e.data with
    | none => rfl
    | some b => exact hlen b hd
  next hb => exact h.blob htype hb

/-- The nodes as users of the heap. -/
structure Store where
  entry : ℕ → Entry
  bufs : ℕ → List UInt8
  nextBuf : ℕ
  freed : List ℕ

def State.store (s : State B) : Store :=
  ⟨fun i => (s.nodes i).entry, s.bufs, s.nextBuf, s.freed⟩

theorem store_setNode (s : State B) (i : ℕ) (f : Node → Node) :
    (s.setNode i f).store =
      { s.store with entry := update s.store.entry i (f (s.nodes i)).entry } := by
  simp only [State.store, proj_setNode]
  rfl

def Store.Used (x : Store) (i : ℕ) : Prop := (x.entry i).type ≠ none

/-! ### Labels -/

/-- A file is named after the call and the slot it was made in. -/
abbrev FileId := ℕ × ℕ

/-- Nodes in use keep their label. -/
def relabel (x : Store) (file new : ℕ → FileId) (i : ℕ) : FileId :=
  if (x.entry i).type = none then new i else file i

variable {new : ℕ → FileId}

theorem relabel_used {x : Store} {file : ℕ → FileId} (hi : x.Used i) :
    relabel x file new i = file i := if_neg hi

theorem relabel_unused {x : Store} {file : ℕ → FileId} (hi : ¬ x.Used i) :
    relabel x file new i = new i := if_pos (not_not.1 hi)

/-- The node has its file to itself. -/
def Store.Alone (x : Store) (file : ℕ → FileId) (f : ℕ) : Prop :=
  ∀ j, x.Used j → file j = file f → j = f

/-- The buffers and the labels agree. -/
structure Held (x : Store) (file : ℕ → FileId) (clock : ℕ) : Prop where
  live : ∀ i b, x.Used i → (x.entry i).data = some b → b ∉ x.freed ∧ b < x.nextBuf
  once : x.freed.Nodup
  past : ∀ b ∈ x.freed, b < x.nextBuf
  apart : ∀ i j b, x.Used i → x.Used j → i ≠ j → (x.entry i).data = some b →
    (x.entry j).data = some b → (x.entry i).type = some .file ∧ file i = file j
  joined : ∀ i j, x.Used i → x.Used j → i ≠ j → file i = file j →
    x.entry i = x.entry j ∧ (x.entry i).blobId = 0
  full : ∀ i, (x.entry i).Full x.bufs
  born : ∀ i, x.Used i → (file i).1 < clock

variable {x y : Store} {file : ℕ → FileId} {clock : ℕ}

section

variable (h : Held x file clock)
include h

theorem Held.alone_data {j b : ℕ} (hf : x.Used f)
    (halone : x.Alone file f) (hj : x.Used j) (hjf : j ≠ f) (hb : (x.entry f).data = some b) :
    (x.entry j).data ≠ some b :=
  fun hjb => hjf (halone j hj (h.apart j f b hj hf hjf hjb hb).2)

/-- The buffer of a node may be released. -/
theorem Held.release (hf : x.Used f) : ((x.entry f).data.toList ++ x.freed).Nodup ∧
    ∀ b ∈ (x.entry f).data.toList ++ x.freed, b < x.nextBuf := by
  cases hd : (x.entry f).data with
  | none => exact ⟨h.once, h.past⟩
  | some b =>
    have hlive := h.live f b hf hd
    exact ⟨nodup_cons.2 ⟨hlive.1, h.once⟩, forall_mem_cons.2 ⟨hlive.2, h.past⟩⟩

/-- The label of a new node is new. -/
theorem Held.label_ne (hi : x.Used i) (j : ℕ) : file i ≠ (clock, j) := by
  intro e
  have := h.born i hi
  rw [e] at this
  exact lt_irrefl clock this

/-- The labels of unused slots do not matter. -/
theorem Held.congr_file {file' : ℕ → FileId}
    (he : ∀ i, x.Used i → file' i = file i) : Held x file' clock where
  live := h.live
  once := h.once
  past := h.past
  apart := fun i j b hi hj hij hib hjb => by
    rw [he i hi, he j hj]
    exact h.apart i j b hi hj hij hib hjb
  joined := fun i j hi hj hij hf => h.joined i j hi hj hij (by rwa [he i hi, he j hj] at hf)
  full := h.full
  born := fun i hi => by rw [he i hi]; exact h.born i hi

/-- Time passes. -/
theorem Held.later : Held x file (clock + 1) where
  live := h.live
  once := h.once
  past := h.past
  apart := h.apart
  joined := h.joined
  full := h.full
  born := fun i hi => (h.born i hi).trans (Nat.lt_succ_self clock)

/-- Buffers may be written to, and more may be handed out. -/
theorem Held.mono (hentry : y.entry = x.entry) (hfreed : y.freed = x.freed)
    (hnext : x.nextBuf ≤ y.nextBuf)
    (hlen : ∀ b < x.nextBuf, (y.bufs b).length = (x.bufs b).length) :
    Held y file clock := by
  have hused : ∀ i, y.Used i ↔ x.Used i := fun i => by rw [Store.Used, Store.Used, hentry]
  refine ⟨fun i b hi hb => ?_, hfreed ▸ h.once, fun b hb => ?_, ?_, ?_, fun i => ?_, fun i hi => ?_⟩
  · rw [hentry] at hb
    rw [hfreed]
    exact (h.live i b ((hused i).1 hi) hb).imp_right hnext.trans_lt'
  · exact (h.past b (hfreed ▸ hb)).trans_le hnext
  · intro i j b hi hj
    rw [hentry]
    exact h.apart i j b ((hused i).1 hi) ((hused j).1 hj)
  · intro i j hi hj
    rw [hentry]
    exact h.joined i j ((hused i).1 hi) ((hused j).1 hj)
  · rw [hentry]
    intro htype
    refine (h.full i).congr (fun b hb => hlen b ?_) htype
    exact (h.live i b (show (x.entry i).type ≠ none by rw [htype]; simp) hb).2
  · exact h.born i ((hused i).1 hi)

end

/-! ### The edits -/

/-- Nodes that are new in `y` are blank, and the others are as in `x`. -/
def Store.GrewTo (x y : Store) : Prop :=
  (∀ i, x.Used i → y.entry i = x.entry i) ∧
    ∀ i, ¬ x.Used i → y.Used i → ∃ type, y.entry i = .blank type

/-- A node with a buffer is not new. -/
theorem Store.GrewTo.of_data {b : ℕ} (hgrew : x.GrewTo y) (hi : y.Used i)
    (hb : (y.entry i).data = some b) : x.Used i ∧ (x.entry i).data = some b := by
  by_cases hx : x.Used i
  · exact ⟨hx, hgrew.1 i hx ▸ hb⟩
  obtain ⟨type, he⟩ := hgrew.2 i hx hi
  rw [he] at hb
  cases hb

theorem Store.type_put (hentry : y.entry = update x.entry f e) (htype : e.type = (x.entry f).type)
    (i : ℕ) : (y.entry i).type = (x.entry i).type := by
  rw [hentry]
  by_cases hi : i = f
  · rw [hi, update_self, htype]
  · rw [update_of_ne hi]

/-- The nodes that a removal leaves. -/
theorem Store.of_drop {n : ℕ} (hentry : y.entry = update x.entry n e) (he : e.type = none)
    (hi : y.Used i) : i ≠ n ∧ y.entry i = x.entry i ∧ x.Used i := by
  have hne : i ≠ n := by
    rintro rfl
    rw [Store.Used, hentry, update_self] at hi
    exact hi he
  rw [Store.Used, hentry, update_of_ne hne] at *
  exact ⟨hne, rfl, hi⟩

section

variable (h : Held x file clock)
include h

/-- A label of two nodes is an old one. -/
theorem Held.of_fresh {j : ℕ}
    (hf : relabel x file (fun i => (clock, i)) i = relabel x file (fun i => (clock, i)) j) :
    i = j ∨ x.Used i ∧ x.Used j ∧ file i = file j := by
  by_cases hi : x.Used i <;> by_cases hj : x.Used j
  · rw [relabel_used hi, relabel_used hj] at hf
    exact .inr ⟨hi, hj, hf⟩
  · rw [relabel_used hi, relabel_unused hj] at hf
    exact absurd hf (h.label_ne hi j)
  · rw [relabel_unused hi, relabel_used hj] at hf
    exact absurd hf.symm (h.label_ne hj i)
  · rw [relabel_unused hi, relabel_unused hj] at hf
    exact .inl (Prod.mk.inj hf).2

/-- New nodes have labels of their own. -/
theorem Held.grew (hbufs : y.bufs = x.bufs)
    (hnext : y.nextBuf = x.nextBuf) (hfreed : y.freed = x.freed) (hgrew : x.GrewTo y) :
    Held y (relabel x file fun i => (clock, i)) (clock + 1) := by
  obtain ⟨hkeep, hnew⟩ := hgrew
  refine ⟨fun i b hi hb => ?_, hfreed ▸ h.once, fun b hb => ?_, ?_, ?_, fun i => ?_, fun i hi => ?_⟩
  · rw [hfreed, hnext]
    obtain ⟨hx, hb⟩ := Store.GrewTo.of_data ⟨hkeep, hnew⟩ hi hb
    exact h.live i b hx hb
  · rw [hnext]
    exact h.past b (hfreed ▸ hb)
  · intro i j b hi hj hij hib hjb
    obtain ⟨hxi, hib⟩ := Store.GrewTo.of_data ⟨hkeep, hnew⟩ hi hib
    obtain ⟨hxj, hjb⟩ := Store.GrewTo.of_data ⟨hkeep, hnew⟩ hj hjb
    rw [relabel_used hxi, relabel_used hxj, hkeep i hxi]
    exact h.apart i j b hxi hxj hij hib hjb
  · intro i j hi hj hij hf
    obtain ⟨hxi, hxj, hf⟩ := (h.of_fresh hf).resolve_left hij
    rw [hkeep i hxi, hkeep j hxj]
    exact h.joined i j hxi hxj hij hf
  · intro htype
    have hi : y.Used i := by rw [Store.Used, htype]; simp
    by_cases hx : x.Used i
    · rw [hkeep i hx, hbufs] at *
      exact h.full i htype
    obtain ⟨type, he⟩ := hnew i hx hi
    rw [he] at htype ⊢
    exact Entry.full_blank _ type htype
  by_cases hx : x.Used i
  · rw [relabel_used hx]
    exact (h.born i hx).trans (Nat.lt_succ_self clock)
  · rw [relabel_unused hx]
    exact Nat.lt_succ_self clock

/-- A new node is alone with its file, and an old one stays so. -/
theorem Held.alone_fresh (hf : x.Used f → x.Alone file f) :
    y.Alone (relabel x file fun i => (clock, i)) f := by
  intro j _ hlabel
  rcases h.of_fresh hlabel with hjf | ⟨hj, hxf, hlabel⟩
  · exact hjf
  · exact hf hxf j hj hlabel

/-- A node that has its file to itself gets a buffer that was not in use before, or none, and the
old one is released. -/
theorem Held.put (hf : x.Used f) (halone : x.Alone file f) (hentry : y.entry = update x.entry f e)
    (htype : e.type = (x.entry f).type) (hnext : x.nextBuf ≤ y.nextBuf)
    (hlen : ∀ b < x.nextBuf, (y.bufs b).length = (x.bufs b).length)
    (hdata : ∀ b, e.data = some b → x.nextBuf ≤ b ∧ b < y.nextBuf)
    (hfreed : y.freed = (x.entry f).data.toList ++ x.freed) (hfull : e.Full y.bufs) :
    Held y file clock := by
  have hself : y.entry f = e := by rw [hentry, update_self]
  have hother : ∀ {i}, i ≠ f → y.entry i = x.entry i := fun hi => by rw [hentry, update_of_ne hi]
  have hused : ∀ i, y.Used i ↔ x.Used i := fun i => by
    rw [Store.Used, Store.Used, Store.type_put hentry htype]
  have hbound : ∀ b ∈ y.freed, b < x.nextBuf := by
    intro b hb
    exact (h.release hf).2 b (hfreed ▸ hb)
  -- the new buffer is not one of another node
  have hnew : ∀ {i b}, x.Used i → (x.entry i).data = some b → e.data ≠ some b := fun hi hb he =>
    absurd (h.live _ _ hi hb).2 (not_lt.2 (hdata _ he).1)
  refine ⟨fun i b hi hb => ?_, ?_, fun b hb => (hbound b hb).trans_le hnext, ?_, ?_, fun i => ?_,
    fun i hi => h.born i ((hused i).1 hi)⟩
  · have hi := (hused i).1 hi
    by_cases hif : i = f
    · rw [hif, hself] at hb
      exact ⟨fun hmem => absurd (hbound b hmem) (not_lt.2 (hdata b hb).1), (hdata b hb).2⟩
    rw [hother hif] at hb
    refine ⟨fun hmem => ?_, (h.live i b hi hb).2.trans_le hnext⟩
    rw [hfreed, mem_append, Option.mem_toList] at hmem
    rcases hmem with hmem | hmem
    · exact h.alone_data hf halone hi hif hmem hb
    · exact (h.live i b hi hb).1 hmem
  · exact hfreed ▸ (h.release hf).1
  · intro i j b hi hj hij hib hjb
    have hi := (hused i).1 hi
    have hj := (hused j).1 hj
    by_cases hif : i = f
    · rw [hif, hself] at hib
      rw [hother (fun e => hij (hif.trans e.symm))] at hjb
      exact absurd hib (hnew hj hjb)
    rw [hother hif] at hib ⊢
    by_cases hjf : j = f
    · rw [hjf, hself] at hjb
      exact absurd hjb (hnew hi hib)
    · rw [hother hjf] at hjb
      exact h.apart i j b hi hj hij hib hjb
  · intro i j hi hj hij hfile
    have hi := (hused i).1 hi
    have hj := (hused j).1 hj
    by_cases hif : i = f
    · exact absurd (hif.trans (halone j hj (hif ▸ hfile.symm)).symm) hij
    by_cases hjf : j = f
    · exact absurd (halone i hi (hjf ▸ hfile)) hif
    · rw [hother hif, hother hjf]
      exact h.joined i j hi hj hij hfile
  by_cases hif : i = f
  · rwa [hif, hself]
  rw [hother hif]
  intro htype
  refine (h.full i).congr (fun b hb => hlen b ?_) htype
  exact (h.live i b (show (x.entry i).type ≠ none by rw [htype]; simp) hb).2

/-- A new node with the entry of the file `t`. -/
theorem Held.share {t l : ℕ} (ht : (x.entry t).type = some .file)
    (hblob : (x.entry t).blobId = 0) (hl : ¬ x.Used l)
    (hentry : y.entry = update x.entry l (x.entry t)) (hbufs : y.bufs = x.bufs)
    (hnext : y.nextBuf = x.nextBuf) (hfreed : y.freed = x.freed) :
    Held y (relabel x file fun _ => file t) (clock + 1) := by
  -- `of i` is the node whose entry and label `i` has now
  obtain ⟨of, hof, hofl⟩ : ∃ of : ℕ → ℕ, (∀ i, i ≠ l → of i = i) ∧ of l = t :=
    ⟨fun i => if i = l then t else i, fun i hi => if_neg hi, if_pos rfl⟩
  have hcases : ∀ i, i ≠ l ∧ of i = i ∨ i = l ∧ of i = t := fun i => by
    by_cases hi : i = l
    · exact .inr ⟨hi, hi ▸ hofl⟩
    · exact .inl ⟨hi, hof i hi⟩
  have hy : ∀ i, y.entry i = x.entry (of i) := by
    intro i
    rcases hcases i with ⟨hi, ho⟩ | ⟨hi, ho⟩
    · rw [ho, hentry, update_of_ne hi]
    · rw [ho, hentry, hi, update_self]
  have hused : ∀ {i}, y.Used i → x.Used (of i) := fun {i} hi => by rwa [Store.Used, hy] at hi
  -- two nodes with one entry have that of `t`
  have hboth : ∀ {i j}, i ≠ j → of i = of j → of i = t := by
    intro i j hij ho
    rcases hcases i with ⟨-, hi⟩ | ⟨-, hi⟩
    · rcases hcases j with ⟨-, hj⟩ | ⟨-, hj⟩
      · exact absurd (hi.symm.trans (ho.trans hj)) hij
      · exact ho.trans hj
    · exact hi
  have hlabel : ∀ {i}, y.Used i → relabel x file (fun _ => file t) i = file (of i) := by
    intro i hi
    rcases hcases i with ⟨hil, ho⟩ | ⟨hil, ho⟩
    · have hi := hused hi
      rw [ho] at hi ⊢
      exact relabel_used hi
    · rw [ho, hil]
      exact relabel_unused hl
  refine ⟨fun i b hi hb => ?_, hfreed ▸ h.once, fun b hb => ?_, ?_, ?_, fun i => ?_, fun i hi => ?_⟩
  · rw [hy] at hb
    rw [hfreed, hnext]
    exact h.live (of i) b (hused hi) hb
  · rw [hnext]
    exact h.past b (hfreed ▸ hb)
  · intro i j b hi hj hij hib hjb
    rw [hlabel hi, hlabel hj, hy]
    rw [hy] at hib hjb
    by_cases ho : of i = of j
    · exact ⟨hboth hij ho ▸ ht, congrArg file ho⟩
    · exact h.apart _ _ b (hused hi) (hused hj) ho hib hjb
  · intro i j hi hj hij hf
    rw [hlabel hi, hlabel hj] at hf
    rw [hy, hy]
    by_cases ho : of i = of j
    · exact ⟨congrArg x.entry ho, hboth hij ho ▸ hblob⟩
    · exact h.joined _ _ (hused hi) (hused hj) ho hf
  · rw [hy, hbufs]
    exact h.full (of i)
  · rw [hlabel hi]
    exact (h.born _ (hused hi)).trans (Nat.lt_succ_self clock)

/-- A node goes. Its buffer is released if no other node has it, and not before. -/
theorem Held.drop {n : ℕ} (hn : x.Used n)
    (hentry : y.entry = update x.entry n e) (he : e.type = none) (hbufs : y.bufs = x.bufs)
    (hnext : y.nextBuf = x.nextBuf)
    (hfreed : y.freed = x.freed ∨ y.freed = (x.entry n).data.toList ++ x.freed ∧
      ∀ j b, x.Used j → j ≠ n → (x.entry n).data = some b → (x.entry j).data ≠ some b) :
    Held y file clock := by
  have hne : ∀ {i}, y.Used i → i ≠ n := fun hi => (Store.of_drop hentry he hi).1
  have hy : ∀ {i}, y.Used i → y.entry i = x.entry i := fun hi => (Store.of_drop hentry he hi).2.1
  have hused : ∀ {i}, y.Used i → x.Used i := fun hi => (Store.of_drop hentry he hi).2.2
  refine ⟨fun i b hi hb => ?_, ?_, ?_, ?_, ?_, fun i htype => ?_, fun i hi => h.born i (hused hi)⟩
  · rw [hy hi] at hb
    have hlive := h.live i b (hused hi) hb
    refine ⟨?_, hnext ▸ hlive.2⟩
    rcases hfreed with hfreed | ⟨hfreed, hlast⟩
    · rw [hfreed]
      exact hlive.1
    rw [hfreed, mem_append, Option.mem_toList]
    rintro (hmem | hmem)
    · exact hlast i b (hused hi) (hne hi) hmem hb
    · exact hlive.1 hmem
  · rcases hfreed with hfreed | ⟨hfreed, -⟩
    · exact hfreed ▸ h.once
    · exact hfreed ▸ (h.release hn).1
  · intro b hb
    rw [hnext]
    rcases hfreed with hfreed | ⟨hfreed, -⟩
    · exact h.past b (hfreed ▸ hb)
    · exact (h.release hn).2 b (hfreed ▸ hb)
  · intro i j b hi hj
    rw [hy hi, hy hj]
    exact h.apart i j b (hused hi) (hused hj)
  · intro i j hi hj
    rw [hy hi, hy hj]
    exact h.joined i j (hused hi) (hused hj)
  have hi : y.Used i := by rw [Store.Used, htype]; simp
  rw [hy hi] at htype ⊢
  rw [hbufs]
  exact h.full i htype

end

end PeakOs.Vfs
