import PeakOs.Vfs.Model
import Mathlib.Data.List.Find
import Mathlib.Data.List.Perm.Basic

/-!
# The links of the node table

`Linked s kids` says that the pointers of the table represent the forest `kids`, that only
directories have children, and that each bucket points at the first child whose name falls into it.
Every operation keeps it, whatever its arguments: this is the part of the file system that does not
depend on how it is used.

The edits of the table are `alloc_node`, `add_child` and `unlink_from_parent`; each gets one lemma
here, which says what it does to `kids`.

## Main results

* `Linked.findChild_eq` — `find_child` finds the first child with the name, buckets or not
* `allocNode_linked`, `Linked.addChild`, `Linked.unlinkFromParent` — the edits
-/

namespace PeakOs.Vfs

open Function List

variable {B : Type}

def State.child (s : State B) (i : ℕ) : Option ℕ := (s.nodes i).child
def State.parent (s : State B) (i : ℕ) : Option ℕ := (s.nodes i).parent
def State.name (s : State B) (i : ℕ) : Path := (s.nodes i).name
def State.type (s : State B) (i : ℕ) : Option VfsType := (s.nodes i).type

/-! ### Projections of an update -/

section Projections

variable (s : State B) (i : ℕ) (f : Node → Node)

/-- Any projection of the nodes after an update of one. -/
theorem proj_setNode {α : Type} (g : Node → α) :
    (fun j => g ((s.setNode i f).nodes j)) =
      update (fun j => g (s.nodes j)) i (g (f (s.nodes i))) := by
  funext j
  by_cases hj : j = i
  · subst hj; simp [State.setNode]
  · simp [State.setNode, hj]

@[simp] theorem child_setNode :
    (s.setNode i f).child = update s.child i (f (s.nodes i)).child :=
  proj_setNode s i f Node.child

@[simp] theorem sibling_setNode :
    (s.setNode i f).sibling = update s.sibling i (f (s.nodes i)).sibling :=
  proj_setNode s i f Node.sibling

@[simp] theorem parent_setNode :
    (s.setNode i f).parent = update s.parent i (f (s.nodes i)).parent :=
  proj_setNode s i f Node.parent

@[simp] theorem name_setNode :
    (s.setNode i f).name = update s.name i (f (s.nodes i)).name :=
  proj_setNode s i f Node.name

@[simp] theorem type_setNode :
    (s.setNode i f).type = update s.type i (f (s.nodes i)).type :=
  proj_setNode s i f Node.type

@[simp] theorem update_child : update s.child i (s.nodes i).child = s.child :=
  update_eq_self i s.child

@[simp] theorem update_sibling : update s.sibling i (s.nodes i).sibling = s.sibling :=
  update_eq_self i s.sibling

@[simp] theorem update_parent : update s.parent i (s.nodes i).parent = s.parent :=
  update_eq_self i s.parent

@[simp] theorem update_name : update s.name i (s.nodes i).name = s.name :=
  update_eq_self i s.name

@[simp] theorem update_type : update s.type i (s.nodes i).type = s.type :=
  update_eq_self i s.type

variable (buckets : ℕ → ℕ → ℕ)

@[simp] theorem child_setBuckets : (s.setBuckets buckets).child = s.child := rfl
@[simp] theorem sibling_setBuckets : (s.setBuckets buckets).sibling = s.sibling := rfl
@[simp] theorem parent_setBuckets : (s.setBuckets buckets).parent = s.parent := rfl
@[simp] theorem name_setBuckets : (s.setBuckets buckets).name = s.name := rfl
@[simp] theorem type_setBuckets : (s.setBuckets buckets).type = s.type := rfl

end Projections

/-- The entry for bucket `b` of a directory with children `l`. -/
def bucketHead (name : ℕ → Path) (l : List ℕ) (b : ℕ) : ℕ :=
  match l.find? fun c => decide (nameBucket (name c) = b) with
  | none => 0
  | some c => c + 1

theorem bucketHead_congr {name name' : ℕ → Path} {l : List ℕ} (h : ∀ c ∈ l, name' c = name c)
    (b : ℕ) : bucketHead name l b = bucketHead name' l b := by
  have heq : l.find? (fun c => decide (nameBucket (name c) = b)) =
      l.find? fun c => decide (nameBucket (name' c) = b) :=
    find?_congr fun c hc => by rw [h c hc]
  unfold bucketHead
  rw [heq]

structure Linked (s : State B) (kids : ℕ → List ℕ) : Prop where
  forest : Forest s.child s.sibling s.parent kids
  used : ∀ d, ∀ c ∈ kids d, s.type c ≠ none
  dirs : ∀ d, kids d ≠ [] → s.type d = some .dir
  rootDir : s.type root = some .dir
  rootParent : s.parent root = none
  rootFree : ∀ d, root ∉ kids d
  count : s.nodeCount ≤ vfsMaxNodes
  bound : ∀ i, s.type i ≠ none → i < s.nodeCount
  bucket : ∀ d b, s.childBucket d b = bucketHead s.name (kids d) b
  short : ∀ i, (s.name i).length < vfsNameMax

/-- Two states with the same tree: they differ in file contents and the like only. -/
structure SameTree (s t : State B) : Prop where
  child : t.child = s.child
  sibling : t.sibling = s.sibling
  parent : t.parent = s.parent
  name : t.name = s.name
  type : t.type = s.type
  count : t.nodeCount = s.nodeCount
  bucket : t.childBucket = s.childBucket
  fault : t.pathFault = s.pathFault

theorem SameTree.rfl' {s : State B} : SameTree s s :=
  ⟨rfl, rfl, rfl, rfl, rfl, rfl, rfl, rfl⟩

variable {t u : State B} {i c n p dir : ℕ} {f : Node → Node} {path name : Path} {type : VfsType}

theorem SameTree.trans {s : State B} (h : SameTree s t) (h' : SameTree t u) : SameTree s u :=
  ⟨h'.child.trans h.child, h'.sibling.trans h.sibling, h'.parent.trans h.parent,
    h'.name.trans h.name, h'.type.trans h.type, h'.count.trans h.count, h'.bucket.trans h.bucket,
    h'.fault.trans h.fault⟩

/-- An update of a node that leaves its name, type and links alone. -/
def KeepsLinks (f : Node → Node) : Prop :=
  ∀ n, (f n).child = n.child ∧ (f n).sibling = n.sibling ∧ (f n).parent = n.parent ∧
    (f n).name = n.name ∧ (f n).type = n.type

theorem SameTree.setNode {s : State B} (h : SameTree s t)
    (hf : KeepsLinks f) : SameTree s (t.setNode i f) := by
  obtain ⟨h1, h2, h3, h4, h5⟩ := hf (t.nodes i)
  exact h.trans ⟨by simp [h1], by simp [h2], by simp [h3], by simp [h4], by simp [h5],
    rfl, rfl, rfl⟩

theorem Linked.congr {s : State B} {kids : ℕ → List ℕ} (h : Linked s kids) (he : SameTree s t) :
    Linked t kids where
  forest := by rw [he.child, he.sibling, he.parent]; exact h.forest
  used := by rw [he.type]; exact h.used
  dirs := by rw [he.type]; exact h.dirs
  rootDir := by rw [he.type]; exact h.rootDir
  rootParent := by rw [he.parent]; exact h.rootParent
  rootFree := h.rootFree
  count := by rw [he.count]; exact h.count
  bound := by rw [he.type, he.count]; exact h.bound
  bucket := by rw [he.bucket, he.name]; exact h.bucket
  short := by rw [he.name]; exact h.short

variable {s : State B} {kids : ℕ → List ℕ}

variable {l₁ l₂ : List ℕ}

section

variable (h : Linked s kids)
include h

theorem Linked.kids_eq_nil (hi : s.type i ≠ some .dir) : kids i = [] := by
  by_contra hne
  exact hi (h.dirs i hne)

theorem Linked.child_eq_none_iff : s.child i = none ↔ kids i = [] := by
  rw [(h.forest.chain i).head]
  exact head?_eq_none_iff

theorem Linked.not_mem_of_unused (hi : s.type i = none) (d : ℕ) :
    i ∉ kids d := fun hmem => h.used d i hmem hi

/-- A child list is no longer than the table. -/
theorem Linked.length_le (d : ℕ) : (kids d).length ≤ vfsMaxNodes := by
  have hsub : kids d ⊆ range s.nodeCount := fun c hc =>
    mem_range.2 (h.bound c (h.used d c hc))
  have := (subperm_of_subset (h.forest.nodup d) hsub).length_le
  rw [length_range] at this
  exact this.trans h.count

/-! ### Lookup -/

theorem firstOnChain_kids (p : ℕ → Bool) (d : ℕ) :
    firstOnChain s.sibling p vfsMaxNodes (s.child d) = (kids d).find? p :=
  (h.forest.chain d).firstOnChain_eq p (h.length_le d)

/-- The search from the middle of a child list. -/
theorem firstOnChain_suffix (p : ℕ → Bool) {d : ℕ} (hk : kids d = l₁ ++ c :: l₂) :
    firstOnChain s.sibling p vfsMaxNodes (some c) = (c :: l₂).find? p := by
  have hch := h.forest.chain d
  rw [hk] at hch
  refine hch.suffix.firstOnChain_eq p ?_
  have := h.length_le d
  rw [hk, length_append] at this
  omega

omit h in
theorem nameMatches_eq (s : State B) (name : Path) :
    nameMatches s name = fun c => decide (s.name c = name) := by
  funext c
  simp only [nameMatches, Bool.and_eq_decide, decide_eq_true_eq]
  congr 1
  exact propext ⟨fun h => h.2, fun h => ⟨congrArg nameBucket h, h⟩⟩

/-- **`find_child`** finds the first child with the name. The children in front of the one the
bucket points at have names of other buckets, so that it does not matter that they are looked at
last. -/
theorem Linked.findChild_eq (d : ℕ) (name : Path) :
    findChild s d name = (kids d).find? fun c => decide (s.name c = name) := by
  have hb := h.bucket d (nameBucket name)
  unfold findChild
  simp only [nameMatches_eq]
  have hother : ∀ c, nameBucket (s.name c) ≠ nameBucket name → s.name c ≠ name :=
    fun c hc e => hc (congrArg nameBucket e)
  cases hfind : (kids d).find? fun c => decide (nameBucket (s.name c) = nameBucket name) with
  | none =>
    -- no child has a name of this bucket
    rw [bucketHead, hfind] at hb
    dsimp only at hb
    have hnone : (kids d).find? (fun c => decide (s.name c = name)) = none := by
      rw [find?_eq_none] at hfind ⊢
      intro c hc
      have := hfind c hc
      rw [decide_eq_true_eq] at this
      simpa using hother c this
    rw [if_neg (by rw [hb]; omega)]
    rw [show (s.nodes d).child = s.child d from rfl, firstOnChain_kids h, hnone]
    simp
  | some c =>
    obtain ⟨hc, l₁, l₂, hk, hl₁⟩ := find?_eq_some_iff_append.1 hfind
    rw [bucketHead, hfind] at hb
    dsimp only at hb
    have hlt : c < vfsMaxNodes :=
      lt_of_lt_of_le (h.bound c (h.used d c (by rw [hk]; simp))) h.count
    rw [if_pos (by rw [hb]; omega), hb, Nat.add_sub_cancel]
    simp only [Bool.not_eq_true', decide_eq_false_iff_not] at hl₁
    have hlist : (kids d).find? (fun x => decide (s.name x = name)) =
        (c :: l₂).find? fun x => decide (s.name x = name) := by
      have hskip : l₁.find? (fun x => decide (s.name x = name)) = none :=
        find?_eq_none.2 fun x hx => by simpa using hother x (hl₁ x hx)
      rw [hk, find?_append, hskip]
      rfl
    rw [firstOnChain_suffix h _ hk, hlist]
    cases hsearch : (c :: l₂).find? fun x => decide (s.name x = name) with
    | some x => rfl
    | none =>
      dsimp only
      split
      · rfl
      -- the second loop stops at `c` or at a match in front of it, and there is none
      rw [show (s.nodes d).child = s.child d from rfl, firstOnChain_kids h, hk, find?_append]
      have hfront : l₁.find? (fun x => decide (some x = some c) || decide (s.name x = name)) =
          none := by
        rw [find?_eq_none]
        intro x hx
        have hxc : x ≠ c := fun e => hl₁ x hx (e ▸ of_decide_eq_true hc)
        simp [hxc, hother x (hl₁ x hx)]
      rw [hfront]
      simp

/-- A node that is found below `cur` is on a child list. -/
theorem Linked.walkNames_mem {cur : ℕ} {parts : List Path}
    (hw : walkNames s cur parts = some n) : n = cur ∨ ∃ p, n ∈ kids p := by
  induction parts generalizing cur with
  | nil =>
    injection hw with hw
    exact .inl hw.symm
  | cons part parts ih =>
    simp only [walkNames] at hw
    cases hf : findChild s cur part with
    | none => rw [hf] at hw; cases hw
    | some c =>
      rw [hf] at hw
      rw [h.findChild_eq] at hf
      rcases ih hw with rfl | hmem
      · exact .inr ⟨cur, mem_of_find?_eq_some hf⟩
      · exact .inr hmem

theorem Linked.lookup_mem
    (hn : vfsLookup path s = some n) (hroot : n ≠ root) : ∃ p, n ∈ kids p := by
  unfold vfsLookup at hn
  split at hn
  · cases hn
  · exact (h.walkNames_mem hn).resolve_left hroot

theorem Linked.lookup_used (hn : vfsLookup path s = some n) : s.type n ≠ none := by
  by_cases hroot : n = root
  · rw [hroot, h.rootDir]
    simp
  · obtain ⟨p, hp⟩ := h.lookup_mem hn hroot
    exact h.used p n hp

/-! ### The edits -/

theorem allocSlot_some (hi : allocSlot s = some i) :
    s.type i = none ∧ i ≤ s.nodeCount ∧ i < vfsMaxNodes := by
  unfold allocSlot at hi
  split at hi
  next j hj =>
    injection hi with hi
    subst hi
    have hlt := mem_range.1 (mem_of_find?_eq_some hj)
    exact ⟨by simpa [State.type] using find?_some hj, hlt.le, hlt.trans_le h.count⟩
  · split at hi
    · cases hi
    injection hi with hi
    subst hi
    refine ⟨?_, le_rfl, by omega⟩
    by_contra hne
    exact absurd (h.bound _ hne) (lt_irrefl _)

omit h in
theorem allocNode_some (ha : allocNode name type s = some (i, t)) :
    allocSlot s = some i ∧ t = { s with
      nodes := update s.nodes i (newNode name type)
      nodeCount := if i = s.nodeCount then s.nodeCount + 1 else s.nodeCount } := by
  unfold allocNode at ha
  split at ha
  · cases ha
  next hslot =>
    cases ha
    exact ⟨hslot, rfl⟩

/-- What `alloc_node` does: it puts a new node, on no child list yet, into an unused slot. -/
theorem allocNode_linked (ha : allocNode name type s = some (i, t)) :
    Linked t kids ∧ s.type i = none ∧ t.nodes = update s.nodes i (newNode name type) ∧
      t.pathFault = s.pathFault := by
  obtain ⟨hslot, rfl⟩ := allocNode_some ha
  obtain ⟨hfree, hle, hmax⟩ := allocSlot_some h hslot
  have hroot : i ≠ root := fun e => by rw [e, h.rootDir] at hfree; cases hfree
  have hoff : ∀ d, ∀ c ∈ kids d, c ≠ i := fun d c hc e => h.used d c hc (e ▸ hfree)
  have hkids : kids i = [] := h.kids_eq_nil (by rw [hfree]; simp)
  refine ⟨⟨h.forest.congr ?_ ?_ ?_, ?_, ?_, ?_, ?_, h.rootFree, ?_, ?_, ?_, ?_⟩, hfree, rfl, rfl⟩
  · intro d
    by_cases hd : d = i
    · subst hd
      have := h.forest.chain d
      rw [hkids] at this
      simpa [State.child, newNode, Node.zero] using Eq.symm this
    · simp [State.child, hd]
  · exact fun d c hc => by simp [State.sibling, hoff d c hc]
  · exact fun d c hc => by simp [State.parent, hoff d c hc]
  · exact fun d c hc => by simpa [State.type, hoff d c hc] using h.used d c hc
  · intro d hd
    have hdi : d ≠ i := fun e => hd (e ▸ hkids)
    simpa [State.type, hdi] using h.dirs d hd
  · simpa [State.type, hroot.symm] using h.rootDir
  · simpa [State.parent, hroot.symm] using h.rootParent
  · dsimp only
    have := h.count
    split
    · omega
    · exact this
  · intro k hk
    dsimp only
    by_cases hki : k = i
    · split <;> omega
    · have := h.bound k (by simpa [State.type, hki] using hk)
      split <;> omega
  · intro d b
    have hname : ∀ c ∈ kids d, State.name ({ s with
        nodes := update s.nodes i (newNode name type)
        nodeCount := if i = s.nodeCount then s.nodeCount + 1 else s.nodeCount } : State B) c =
        s.name c := fun c hc => by simp [State.name, hoff d c hc]
    exact (h.bucket d b).trans (bucketHead_congr hname b)
  intro k
  by_cases hk : k = i
  · subst hk
    simp only [State.name, update_self, newNode, length_take, vfsNameMax]
    omega
  · simpa [State.name, hk] using h.short k

omit h in
theorem addChild_fields (p c : ℕ) (s : State B) :
    (addChild p c s).child = update s.child p (some c) ∧
      (addChild p c s).sibling = update s.sibling c (s.child p) ∧
      (addChild p c s).parent = update s.parent c (some p) ∧
      (addChild p c s).name = s.name ∧ (addChild p c s).type = s.type := by
  refine ⟨?_, ?_, ?_, ?_, ?_⟩ <;> funext i <;>
    by_cases hp : i = p <;> by_cases hc : i = c <;>
    simp only [addChild, State.setBuckets, State.setNode, State.child, State.sibling, State.parent,
      State.name, State.type, update_apply] <;>
    grind

omit h in
theorem addChild_bucket (p c : ℕ) (s : State B) :
    (addChild p c s).childBucket = update s.childBucket p
      (update (s.childBucket p) (nameBucket (s.name c)) (c + 1)) := by
  have hname := congrFun (addChild_fields p c s).2.2.2.1 c
  rw [← hname]
  rfl

/-- **`add_child`** puts a node that is on no child list in front of one. -/
theorem Linked.addChild (hp : s.type p = some .dir)
    (hc : s.type c ≠ none) (hroot : c ≠ root) (hoff : ∀ d, c ∉ kids d) :
    Linked (addChild p c s) (update kids p (c :: kids p)) := by
  obtain ⟨hchild, hsibling, hparent, hname, htype⟩ := addChild_fields p c s
  refine ⟨?_, ?_, ?_, ?_, ?_, ?_, h.count, ?_, ?_, hname ▸ h.short⟩
  · rw [hchild, hsibling, hparent]
    exact h.forest.pushFront hoff
  · intro d x hx
    rw [htype]
    rcases mem_pushFront.1 hx with ⟨-, rfl⟩ | hx
    · exact hc
    · exact h.used d x hx
  · intro d hd
    rw [htype]
    by_cases hdp : d = p
    · exact hdp ▸ hp
    · rw [update_of_ne hdp] at hd
      exact h.dirs d hd
  · rw [htype]; exact h.rootDir
  · rw [hparent, update_of_ne hroot.symm]; exact h.rootParent
  · intro d hd
    rcases mem_pushFront.1 hd with ⟨-, e⟩ | hd
    · exact hroot e.symm
    · exact h.rootFree d hd
  · intro i hi
    rw [htype] at hi
    exact h.bound i hi
  intro d b
  rw [hname, addChild_bucket]
  by_cases hd : d = p
  · subst hd
    rw [update_self, update_self, bucketHead, find?_cons]
    by_cases hb : nameBucket (s.name c) = b
    · subst hb
      simp
    · rw [update_of_ne (Ne.symm hb), h.bucket d b, bucketHead]
      simp [hb]
  · rw [update_of_ne hd, update_of_ne hd]
    exact h.bucket d b

/-- What `unlink_from_parent` does to a node on the list of its parent. -/
theorem unlinkFromParent_spec (hn : n ∈ kids p) : let t := unlinkFromParent n s
    Forest t.child t.sibling s.parent (update kids p ((kids p).erase n)) ∧ t.parent = s.parent ∧
      t.name = s.name ∧ t.type = s.type ∧ t.nodeCount = s.nodeCount ∧ t.pathFault = s.pathFault ∧
      t.childBucket = repairBucket p n s := by
  dsimp only
  have hpar : (s.nodes n).parent = some p := h.forest.parent p n hn
  obtain ⟨l₁, l₂, hn₁, hk, herase⟩ := exists_erase_eq hn
  have hnd := h.forest.nodup p
  have hch := h.forest.chain p
  rw [hk] at hnd hch
  rw [herase]
  rcases eq_nil_or_concat l₁ with rfl | ⟨l₀, c, rfl⟩
  · -- first on the list
    have hhead : (s.nodes p).child = some n := hch.1
    rw [unlinkFromParent, hpar]
    simp only [hhead, if_true]
    refine ⟨?_, by simp, by simp, by simp, rfl, rfl, rfl⟩
    simp only [child_setBuckets, child_setNode, sibling_setBuckets, sibling_setNode, update_sibling]
    exact h.forest.removeHead hk
  -- behind `c`
  rw [concat_eq_append, append_assoc, singleton_append] at hk hnd hch
  have hhead : (s.nodes p).child ≠ some n := by
    intro hhead
    have hfirst := hch.head.symm.trans hhead
    cases l₀ with
    | nil | cons x l₀ => exact hn₁ (by simp [Option.some.inj hfirst])
  have hpred := firstOnChain_kids h (fun x => decide (s.sibling x = some n)) p
  rw [hk, hch.find_pred hnd] at hpred
  rw [unlinkFromParent, hpar]
  simp only [if_neg hhead]
  rw [show (s.nodes p).child = s.child p from rfl, hpred]
  refine ⟨?_, by simp, by simp, by simp, rfl, rfl, rfl⟩
  simp only [child_setBuckets, child_setNode, sibling_setBuckets, sibling_setNode, update_child,
    concat_eq_append, append_assoc]
  exact h.forest.removeAfter hk

omit h in
theorem bucketHead_append (name : ℕ → Path) (l₁ l₂ : List ℕ) (b : ℕ) :
    bucketHead name (l₁ ++ l₂) b =
      if bucketHead name l₁ b = 0 then bucketHead name l₂ b else bucketHead name l₁ b := by
  unfold bucketHead
  rw [find?_append]
  cases l₁.find? fun c => decide (nameBucket (name c) = b) <;> simp

omit h in
theorem bucketHead_cons (name : ℕ → Path) (n : ℕ) (l : List ℕ) (b : ℕ) :
    bucketHead name (n :: l) b =
      if nameBucket (name n) = b then n + 1 else bucketHead name l b := by
  unfold bucketHead
  by_cases hb : nameBucket (name n) = b <;> simp [hb]

theorem Linked.nextInBucket_eq (hk : kids p = l₁ ++ n :: l₂) :
    nextInBucket n s = bucketHead s.name l₂ (nameBucket (s.name n)) := by
  have hch := h.forest.chain p
  have hlen := h.length_le p
  rw [hk] at hch hlen
  rw [nextInBucket, hch.suffix.2.firstOnChain_eq _ (by simp at hlen; omega)]
  rfl

/-- The repaired buckets are those of the shorter list. -/
theorem Linked.repairBucket_eq (hn : n ∈ kids p) (d b : ℕ) :
    repairBucket p n s d b = bucketHead s.name (update kids p ((kids p).erase n) d) b := by
  obtain ⟨l₁, l₂, hn₁, hk, herase⟩ := exists_erase_eq hn
  have hne : bucketHead s.name l₁ (nameBucket (s.name n)) ≠ n + 1 := by
    unfold bucketHead
    split
    · omega
    next c hc =>
      intro e
      exact hn₁ (by rw [← Nat.succ.inj e]; exact mem_of_find?_eq_some hc)
  have hold := h.bucket p (nameBucket (s.name n))
  rw [hk, bucketHead_append, bucketHead_cons, if_pos rfl] at hold
  unfold repairBucket
  simp only [show (s.nodes n).name = s.name n from rfl]
  by_cases hd : d = p
  · subst hd
    rw [update_self, herase, bucketHead_append]
    by_cases hb : b = nameBucket (s.name n)
    · subst hb
      by_cases hz : bucketHead s.name l₁ (nameBucket (s.name n)) = 0
      · rw [if_pos hz] at hold
        rw [if_pos hold, update_self, update_self, if_pos hz, h.nextInBucket_eq hk]
      · rw [if_neg hz] at hold
        rw [if_neg (hold ▸ hne), hold, if_neg hz]
    have hrow : (if s.childBucket d (nameBucket (s.name n)) = n + 1 then
        update s.childBucket d (update (s.childBucket d)
          (nameBucket (s.name n)) (nextInBucket n s)) else s.childBucket) d b =
        s.childBucket d b := by
      split
      · rw [update_self, update_of_ne hb]
      · rfl
    rw [hrow, h.bucket d b, hk, bucketHead_append, bucketHead_cons, if_neg (Ne.symm hb)]
  rw [update_of_ne hd, ← h.bucket d b]
  split
  · rw [update_of_ne hd]
  · rfl

/-- **`unlink_from_parent`** removes a node from the list it is on. -/
theorem Linked.unlinkFromParent (hn : n ∈ kids p) :
    Linked (unlinkFromParent n s) (update kids p ((kids p).erase n)) := by
  obtain ⟨hforest, hparent, hname, htype, hcount, -, hbucket⟩ := unlinkFromParent_spec h hn
  have hmem : ∀ {d x}, x ∈ update kids p ((kids p).erase n) d → x ∈ kids d := fun hx =>
    ((h.forest.mem_erase hn).1 hx).1
  refine ⟨hparent ▸ hforest, ?_, ?_, htype ▸ h.rootDir, hparent ▸ h.rootParent,
    fun d hd => h.rootFree d (hmem hd), hcount ▸ h.count, ?_, ?_, hname ▸ h.short⟩
  · exact fun d c hc => htype ▸ h.used d c (hmem hc)
  · intro d hd
    rw [htype]
    obtain ⟨x, hx⟩ := exists_mem_of_ne_nil _ hd
    exact h.dirs d (ne_nil_of_mem (hmem hx))
  · rw [htype, hcount]; exact h.bound
  intro d b
  rw [hname, hbucket]
  exact h.repairBucket_eq hn d b

/-- A node that is on no child list may be renamed, and cleared if it has no children. -/
theorem Linked.setNode (hoff : ∀ d, n ∉ kids d)
    (hroot : n ≠ root) (hchild : (f (s.nodes n)).child = s.child n)
    (htype : (f (s.nodes n)).type = s.type n ∨ (f (s.nodes n)).type = none ∧ kids n = [])
    (hshort : (f (s.nodes n)).name.length < vfsNameMax) : Linked (s.setNode n f) kids := by
  have hne : ∀ {d c}, c ∈ kids d → c ≠ n := fun hc e => hoff _ (e ▸ hc)
  have htypes : ∀ i, (s.setNode n f).type i = s.type i ∨
      i = n ∧ (s.setNode n f).type i = none ∧ kids n = [] := by
    rw [type_setNode]
    exact (forall_update_iff s.type fun i ty => ty = s.type i ∨ i = n ∧ ty = none ∧ kids n = []).2
      ⟨htype.imp id fun ht => ⟨rfl, ht⟩, fun _ _ => .inl rfl⟩
  refine ⟨h.forest.congr ?_ ?_ ?_, ?_, ?_, ?_, ?_, h.rootFree, h.count, ?_, ?_, ?_⟩
  · intro d
    rw [child_setNode, hchild, update_eq_self]
  · exact fun d c hc => by rw [sibling_setNode, update_of_ne (hne hc)]
  · exact fun d c hc => by rw [parent_setNode, update_of_ne (hne hc)]
  · exact fun d c hc => by rw [type_setNode, update_of_ne (hne hc)]; exact h.used d c hc
  · intro d hd
    rcases htypes d with ht | ⟨rfl, -, hk⟩
    · rw [ht]; exact h.dirs d hd
    · exact absurd hk hd
  · rw [type_setNode, update_of_ne hroot.symm]; exact h.rootDir
  · rw [parent_setNode, update_of_ne hroot.symm]; exact h.rootParent
  · intro i hi
    rcases htypes i with ht | ⟨-, ht, -⟩
    · exact h.bound i (ht ▸ hi)
    · exact absurd ht hi
  · intro d b
    refine (h.bucket d b).trans (bucketHead_congr (fun c hc => ?_) b)
    rw [name_setNode, update_of_ne (hne hc)]
  rw [name_setNode]
  exact (forall_update_iff s.name fun _ m => m.length < vfsNameMax).2 ⟨hshort, fun i _ => h.short i⟩

/-- A new node in the directory `dir`. -/
theorem Linked.add (ha : allocNode name type s = some (i, t)) (hu : SameTree t u)
    (hdir : s.type dir = some .dir) :
    Linked (Vfs.addChild dir i u) (update kids dir (i :: kids dir)) := by
  obtain ⟨hlt, hfree, hnodes, -⟩ := allocNode_linked h ha
  have hdi : dir ≠ i := fun e => by rw [e, hfree] at hdir; cases hdir
  have htype : ∀ j, u.type j = (update s.nodes i (newNode name type) j).type := by
    intro j
    rw [hu.type, ← hnodes]
    rfl
  refine (hlt.congr hu).addChild ?_ ?_ ?_ (h.not_mem_of_unused hfree)
  · rwa [htype, update_of_ne hdi]
  · rw [htype]
    simp [newNode]
  rintro rfl
  rw [h.rootDir] at hfree
  cases hfree

omit h in
theorem erase_kids_nil (hkids : kids n = []) : update kids p ((kids p).erase n) n = [] := by
  have := erase_sublist_kids kids p n n
  rw [hkids] at this
  exact sublist_nil.1 this

/-- A node without children, taken off its list and cleared. -/
theorem Linked.remove (hn : n ∈ kids p) (hkids : kids n = [])
    (hu : SameTree (Vfs.unlinkFromParent n s) u)
    (hchild : (f (u.nodes n)).child = u.child n) (htype : (f (u.nodes n)).type = none)
    (hclear : (f (u.nodes n)).name = []) :
    Linked (u.setNode n f) (update kids p ((kids p).erase n)) := by
  exact ((h.unlinkFromParent hn).congr hu).setNode (f := f)
    (fun d hd => ((h.forest.mem_erase hn).1 hd).2 rfl) (fun e => h.rootFree p (e ▸ hn)) hchild
    (.inr ⟨htype, erase_kids_nil hkids⟩) (by rw [hclear]; decide)

/-- A node taken off its list and put into the directory `dir` under another name, wherever that
directory is. -/
theorem Linked.rename (hn : n ∈ kids p)
    (hdir : s.type dir = some .dir) (hlen : name.length < vfsNameMax) :
    let kids₁ := update kids p ((kids p).erase n)
    Linked
      (Vfs.addChild dir n ((Vfs.unlinkFromParent n s).setNode n fun m => { m with name := name }))
      (update kids₁ dir (n :: kids₁ dir)) := by
  obtain ⟨-, -, -, htype, -⟩ := unlinkFromParent_spec h hn
  have hroot : n ≠ root := fun e => h.rootFree p (e ▸ hn)
  have hoff : ∀ d, n ∉ update kids p ((kids p).erase n) d :=
    fun d hd => ((h.forest.mem_erase hn).1 hd).2 rfl
  have htypes : ((Vfs.unlinkFromParent n s).setNode n fun m => { m with name := name }).type =
      s.type := by rw [type_setNode, update_type, htype]
  refine ((h.unlinkFromParent hn).setNode hoff hroot rfl (.inl rfl) hlen).addChild ?_ ?_ hroot hoff
  · rw [htypes, hdir]
  · rw [htypes]
    exact h.used p n hn

end

/-! ### Making nodes -/

/-- The two states have the same heap. -/
structure SameHeap (s t : State B) : Prop where
  bufs : t.bufs = s.bufs
  nextBuf : t.nextBuf = s.nextBuf
  freed : t.freed = s.freed
  oom : t.oom = s.oom
  fault : t.heapFault = s.heapFault

theorem SameHeap.rfl' : SameHeap s s := ⟨rfl, rfl, rfl, rfl, rfl⟩

theorem SameHeap.trans (h : SameHeap s t) (h' : SameHeap t u) : SameHeap s u :=
  ⟨h'.bufs.trans h.bufs, h'.nextBuf.trans h.nextBuf, h'.freed.trans h.freed, h'.oom.trans h.oom,
    h'.fault.trans h.fault⟩

theorem allocNode_fields (ha : allocNode name type s = some (i, t)) :
    t.nodes = update s.nodes i (newNode name type) ∧ SameHeap s t := by
  obtain ⟨-, rfl⟩ := allocNode_some ha
  exact ⟨rfl, rfl, rfl, rfl, rfl, rfl⟩

theorem allocNode_fault (ha : allocNode name type s = some (i, t)) : t.pathFault = s.pathFault := by
  obtain ⟨-, rfl⟩ := allocNode_some ha
  rfl

theorem type_addChild (ha : allocNode name type s = some (i, t)) (dir : ℕ) :
    (addChild dir i t).type i = some type := by
  rw [(addChild_fields dir i t).2.2.2.2, State.type, (allocNode_fields ha).1, update_self]
  rfl

/-- The table has grown by new nodes, and changed in nothing else. -/
inductive Grew : State B → State B → Prop
  | refl (s : State B) : Grew s s
  | overrun {s t : State B} (long : Bool) : Grew s t → Grew s (t.noteOverrun long)
  | alloc {s t u : State B} {name : Path} {type : VfsType} {i : ℕ} : Grew s t →
      allocNode name type t = some (i, u) → Grew s u
  | add {s t u : State B} {name : Path} {type : VfsType} {i dir : ℕ} : Grew s t →
      t.type dir = some .dir → allocNode name type t = some (i, u) → Grew s (addChild dir i u)

theorem Grew.trans (h : Grew s t) (h' : Grew t u) : Grew s u := by
  induction h' with
  | refl => exact h
  | overrun long _ ih => exact ih.overrun long
  | alloc _ ha ih => exact ih.alloc ha
  | add _ hdir ha ih => exact ih.add hdir ha

theorem Grew.sameHeap (h : Grew s t) : SameHeap s t := by
  induction h with
  | refl => exact .rfl'
  | overrun long _ ih => exact ih.trans ⟨rfl, rfl, rfl, rfl, rfl⟩
  | alloc _ ha ih => exact ih.trans (allocNode_fields ha).2
  | add _ _ ha ih =>
    exact (ih.trans (allocNode_fields ha).2).trans ⟨rfl, rfl, rfl, rfl, rfl⟩

theorem Linked.noteOverrun (h : Linked s kids) (long : Bool) : Linked (s.noteOverrun long) kids :=
  ⟨h.forest, h.used, h.dirs, h.rootDir, h.rootParent, h.rootFree, h.count, h.bound, h.bucket,
    h.short⟩

theorem Grew.linked (h : Grew s t) (hs : Linked s kids) : ∃ kids', Linked t kids' := by
  induction h with
  | refl => exact ⟨kids, hs⟩
  | overrun long _ ih =>
    obtain ⟨kids', ht⟩ := ih
    exact ⟨kids', ht.noteOverrun long⟩
  | alloc _ ha ih =>
    obtain ⟨kids', ht⟩ := ih
    exact ⟨kids', (allocNode_linked ht ha).1⟩
  | add _ hdir ha ih =>
    obtain ⟨kids', ht⟩ := ih
    exact ⟨_, ht.add ha .rfl' hdir⟩

theorem mkdirLoop_grew (parts : List Path) : ∀ {cur bi : ℕ} {s : State B},
    s.type cur = some .dir → Grew s (mkdirLoop parts cur bi s).2 := by
  induction parts with
  | nil => exact fun {_ _ s} _ => .refl s
  | cons part parts ih =>
    intro cur bi s hcur
    simp only [mkdirLoop]
    have hs0 := (Grew.refl s).overrun (decide (vfsPathMax ≤ buildNext bi part))
    have hcur0 : (s.noteOverrun (decide (vfsPathMax ≤ buildNext bi part))).type cur = some .dir :=
      hcur
    split
    · split
      next hdir => exact hs0.trans (ih hdir)
      · exact hs0
    split
    · exact hs0
    next n t ha => exact (hs0.add hcur0 ha).trans (ih (type_addChild ha cur))

theorem vfsMkdir_grew (hroot : s.type root = some .dir) (path : Path) :
    Grew s (vfsMkdir path s).2 := by
  unfold vfsMkdir
  split
  · exact .refl s
  split
  · exact .refl s
  · exact mkdirLoop_grew _ hroot

theorem existingDir_type {path : Path} {last dir : ℕ} (hdir : existingDir path last s = some dir) :
    s.type dir = some .dir := by
  unfold existingDir at hdir
  split at hdir
  · cases hdir
  split at hdir
  next htype =>
    injection hdir with hdir
    exact hdir ▸ htype
  · cases hdir

/-- The directory of a new name is looked up after it has been made. -/
theorem parentDir_cases (path : Path) (last : ℕ) (s : State B) :
    let t := parentDir path last s
    (t.2 = s ∨ last ≠ 0 ∧ t.2 = (vfsMkdir (path.take last) s).2) ∧
    (s.type root = some .dir → ∀ dir, t.1 = some dir → existingDir path last t.2 = some dir) := by
  dsimp only
  unfold parentDir
  split
  next h0 =>
    refine ⟨.inl rfl, fun hroot dir hd => ?_⟩
    rw [existingDir, if_pos h0]
    exact (if_pos hroot).trans hd
  next h0 =>
    rcases vfsMkdir (path.take last) s with ⟨_ | _, t⟩
    · exact ⟨.inr ⟨h0, rfl⟩, fun _ dir hd => by cases hd⟩
    dsimp only
    split
    · exact ⟨.inr ⟨h0, rfl⟩, fun _ dir hd => by cases hd⟩
    rename_i dir hl
    refine ⟨.inr ⟨h0, rfl⟩, fun _ dir' hd => ?_⟩
    rwa [existingDir, if_neg h0, hl]

theorem parentDir_grew (hroot : s.type root = some .dir) (path : Path) (last : ℕ) :
    Grew s (parentDir path last s).2 ∧
      ∀ dir, (parentDir path last s).1 = some dir →
        (parentDir path last s).2.type dir = some .dir := by
  obtain ⟨hstate, hdir⟩ := parentDir_cases path last s
  refine ⟨?_, fun dir hd => existingDir_type (hdir hroot dir hd)⟩
  rcases hstate with he | ⟨-, he⟩ <;> rw [he]
  · exact .refl s
  · exact vfsMkdir_grew hroot _

end PeakOs.Vfs
