import PeakOs.Vfs.Links
import PeakOs.Lib.Transition
import Mathlib.Data.List.Induction
import Mathlib.Data.List.Pairwise

/-!
# The node table as a tree

On top of `Linked`: every node in use is below the root, the children of a directory have distinct
names, and no name is empty. `State.IsTree` says the same of the pointers alone. This module has the
invariant and the operations that make nodes; `PeakOs.Vfs.TreeRun` has the others, and whole runs.

## Main results

* `Tree.isTree` — the invariant, read off the pointers
* `Linked.place_unique` — a node has one place
* `Tree.add` — a new node
* `mkdirLoop_tree`, `parentDir_tree` — the directories on the way to it
-/

namespace PeakOs.Vfs

open Function List

variable {B : Type}

/-- `c` is on the child list of `d`. -/
def State.ChildOf (s : State B) (d c : ℕ) : Prop :=
  ∃ a, s.child d = some a ∧ Relation.ReflTransGen (fun x y => s.sibling x = some y) a c

/-- **The table is a tree**: the nodes in use are reached from the root, none is its own ancestor,
parents agree with child lists, and names in a directory are distinct and not empty. -/
structure State.IsTree (s : State B) : Prop where
  reachable : ∀ i, s.type i ≠ none →
    Relation.ReflTransGen (fun a b => s.child a = some b ∨ s.sibling a = some b) root i
  acyclic : ∀ i, s.type i ≠ none → ¬ Relation.TransGen (fun a b => s.parent b = some a) i i
  parent : ∀ d c, s.ChildOf d c → s.parent c = some d
  distinct : ∀ d a b, s.ChildOf d a → s.ChildOf d b → s.name a = s.name b → a = b
  named : ∀ d c, s.ChildOf d c → s.name c ≠ []

structure Tree (s : State B) (kids : ℕ → List ℕ) : Prop where
  linked : Linked s kids
  distinct : ∀ d, (kids d).Pairwise fun a b => s.name a ≠ s.name b
  named : ∀ d, ∀ c ∈ kids d, s.name c ≠ []
  grown : ∀ i, s.type i ≠ none → Grown kids root i

variable {s t : State B} {kids : ℕ → List ℕ}

variable {d dir last : ℕ} {name path : Path} {u : State B}

theorem Tree.eq_of_name (h : Tree s kids) {a b : ℕ} (ha : a ∈ kids d) (hb : b ∈ kids d)
    (hab : s.name a = s.name b) : a = b := by
  have : Std.Symm fun a b => s.name a ≠ s.name b := ⟨fun _ _ h e => h e.symm⟩
  by_contra hne
  exact (h.distinct d).forall ha hb hne hab

theorem Tree.isTree (h : Tree s kids) : s.IsTree := by
  have hkids : ∀ {d c}, s.ChildOf d c ↔ c ∈ kids d := h.linked.forest.mem_kids_iff.symm
  exact
    { reachable := fun i hi => (h.grown i hi).reachable h.linked.forest
      acyclic := fun i hi => (h.grown i hi).acyclic h.linked.forest h.linked.rootParent
      parent := fun d c hc => h.linked.forest.parent d c (hkids.1 hc)
      distinct := fun d a b ha hb => h.eq_of_name (hkids.1 ha) (hkids.1 hb)
      named := fun d c hc => h.named d c (hkids.1 hc) }

theorem Tree.congr (h : Tree s kids) (he : SameTree s t) : Tree t kids where
  linked := h.linked.congr he
  distinct := by rw [he.name]; exact h.distinct
  named := by rw [he.name]; exact h.named
  grown := by rw [he.type]; exact h.grown

/-! ### Lookup -/

theorem Tree.findChild_none (h : Tree s kids)
    (hn : findChild s d name = none) : ∀ c ∈ kids d, s.name c ≠ name := by
  rw [h.linked.findChild_eq] at hn
  exact fun c hc => by simpa using find?_eq_none.1 hn c hc

/-- Lookup reads the links, the names and the buckets. -/
theorem walkNames_congr (hchild : t.child = s.child) (hsibling : t.sibling = s.sibling)
    (hname : t.name = s.name) (hbucket : t.childBucket = s.childBucket) (cur : ℕ)
    (parts : List Path) : walkNames t cur parts = walkNames s cur parts := by
  have hfind : ∀ d name, findChild t d name = findChild s d name := by
    intro d name
    unfold findChild
    simp only [nameMatches_eq, show (t.nodes d).child = s.child d from congrFun hchild d, hname,
      hsibling, hbucket]
    rfl
  induction parts generalizing cur with
  | nil => rfl
  | cons p ps ih =>
    rw [walkNames, walkNames, hfind]
    cases findChild s cur p with
    | none => rfl
    | some c => exact ih c

@[simp] theorem walkNames_setErr (e : VfsError) (s : State B) (cur : ℕ) (names : List Path) :
    walkNames (s.setErr e) cur names = walkNames s cur names :=
  walkNames_congr (s := s) (t := s.setErr e) rfl rfl rfl rfl cur names

@[simp] theorem vfsLookup_setErr (e : VfsError) (s : State B) (path : Path) :
    vfsLookup path (s.setErr e) = vfsLookup path s := by simp [vfsLookup]

theorem walkNames_append (s : State B) (cur : ℕ) (ps qs : List Path) :
    walkNames s cur (ps ++ qs) = (walkNames s cur ps).bind fun c => walkNames s c qs := by
  induction ps generalizing cur with
  | nil => rfl
  | cons p ps ih =>
    simp only [cons_append, walkNames]
    cases findChild s cur p with
    | none => rfl
    | some c => exact ih c

section Places

variable {i c : ℕ} {names place : List Path} {type : VfsType}

/-! ### Places -/

section

variable (h : Linked s kids)
include h

theorem Linked.findChild_mem (hc : findChild s d name = some c) : c ∈ kids d ∧ s.name c = name := by
  rw [h.findChild_eq] at hc
  exact ⟨mem_of_find?_eq_some hc, by simpa using find?_some hc⟩

omit h in
theorem walkNames_concat (s : State B) (cur : ℕ) (names : List Path) (name : Path) :
    walkNames s cur (names ++ [name]) =
      (walkNames s cur names).bind fun d => findChild s d name := by
  rw [walkNames_append]
  congr 1
  funext d
  simp only [walkNames]
  cases findChild s d name <;> rfl

/-- **A node has one place.** -/
theorem Linked.place_unique : ∀ {names names' : List Path},
    walkNames s root names = some i → walkNames s root names' = some i → names = names' := by
  have hkid : ∀ {names : List Path} {name : Path} {i : ℕ},
      walkNames s root (names ++ [name]) = some i →
      ∃ d, walkNames s root names = some d ∧ i ∈ kids d ∧ s.name i = name := by
    intro names name i hi
    rw [walkNames_concat, Option.bind_eq_some_iff] at hi
    obtain ⟨d, hd, hc⟩ := hi
    exact ⟨d, hd, h.findChild_mem hc⟩
  intro names
  induction names using reverseRecOn generalizing i with
  | nil =>
    intro names' hi hi'
    injection hi with hi
    subst hi
    rcases eq_nil_or_concat' names' with rfl | ⟨names', name, rfl⟩
    · rfl
    · obtain ⟨d, -, hmem, -⟩ := hkid hi'
      exact absurd hmem (h.rootFree d)
  | append_singleton names name ih =>
    intro names' hi hi'
    obtain ⟨d, hd, hmem, hname⟩ := hkid hi
    rcases eq_nil_or_concat' names' with rfl | ⟨names', name', rfl⟩
    · injection hi' with hi'
      exact absurd (hi' ▸ hmem) (h.rootFree d)
    obtain ⟨d', hd', hmem', hname'⟩ := hkid hi'
    have hdd : d = d' := h.forest.eq_of_mem hmem hmem'
    subst hdd
    rw [ih hd hd', ← hname, ← hname']

theorem Linked.findChild_new (ha : allocNode name type s = some (i, t))
    (hdir : s.type dir = some .dir) (hlen : name.length < vfsNameMax) :
    findChild (Vfs.addChild dir i t) dir name = some i := by
  rw [(h.add ha .rfl' hdir).findChild_eq, update_self, find?_cons,
    (addChild_fields dir i t).2.2.2.1, State.name, (allocNode_fields ha).1]
  simp [newNode, take_of_length_le (show name.length ≤ vfsNameMax - 1 by omega)]

/-- A new node is found at its place, and nothing changes elsewhere. -/
theorem Linked.walkNames_add (ha : allocNode name type s = some (i, t))
    (hdir : s.type dir = some .dir) (hlen : name.length < vfsNameMax)
    (hplace : walkNames s root place = some dir) (hfresh : findChild s dir name = none)
    (hne : names ≠ place ++ [name]) :
    walkNames (Vfs.addChild dir i t) root names = walkNames s root names := by
  have ht := h.add ha .rfl' hdir
  obtain ⟨-, hfree, hnodes, -⟩ := allocNode_linked h ha
  have hcut : name.take (vfsNameMax - 1) = name := take_of_length_le (by omega)
  have hname : ∀ j, (Vfs.addChild dir i t).name j = if j = i then name else s.name j := by
    intro j
    rw [(addChild_fields dir i t).2.2.2.1, State.name, hnodes]
    by_cases hj : j = i
    · simp [hj, newNode, hcut]
    · simp [hj, State.name]
  have hdi : dir ≠ i := fun e => by rw [e, hfree] at hdir; cases hdir
  have hold : ∀ {d c}, c ∈ kids d → c ≠ i := fun hc e => h.not_mem_of_unused hfree _ (e ▸ hc)
  have hfind : ∀ d a, d ≠ dir ∨ a ≠ name →
      findChild (Vfs.addChild dir i t) d a = findChild s d a := by
    intro d a hda
    rw [ht.findChild_eq, h.findChild_eq]
    have hkids : ∀ l : List ℕ, (∀ c ∈ l, c ≠ i) →
        l.find? (fun c => decide ((Vfs.addChild dir i t).name c = a)) =
          l.find? fun c => decide (s.name c = a) := fun l hl =>
      find?_congr fun c hc => by rw [hname, if_neg (hl c hc)]
    by_cases hd : d = dir
    · subst hd
      have hna : name ≠ a := (hda.resolve_left (fun e => e rfl)).symm
      rw [update_self, find?_cons, hname, if_pos rfl, decide_eq_false hna]
      exact hkids _ fun c hc => hold hc
    · rw [update_of_ne hd]
      exact hkids _ fun c hc => hold hc
  -- the walk is the same until it comes to the new name in `dir`
  have hwalk : ∀ (rest front : List Path) (cur : ℕ), walkNames s root front = some cur →
      names = front ++ rest →
      walkNames (Vfs.addChild dir i t) cur rest = walkNames s cur rest := by
    intro rest
    induction rest with
    | nil => exact fun _ _ _ _ => rfl
    | cons a rest ih =>
      intro front cur hcur hsplit
      simp only [walkNames]
      by_cases hhere : cur = dir ∧ a = name
      · obtain ⟨rfl, rfl⟩ := hhere
        obtain rfl := h.place_unique hcur hplace
        rw [hfresh, h.findChild_new ha hdir hlen]
        cases rest with
        | nil => exact absurd hsplit hne
        | cons b rest =>
          have hleaf : kids i = [] := h.kids_eq_nil (by rw [hfree]; simp)
          have hnone : findChild (Vfs.addChild cur i t) i b = none := by
            rw [ht.findChild_eq, update_of_ne hdi.symm, hleaf]
            rfl
          simp only [walkNames, hnone]
      rw [hfind cur a (not_and_or.1 hhere)]
      cases hc : findChild s cur a with
      | none => rfl
      | some c =>
        refine ih (front ++ [a]) c ?_ (by rw [hsplit]; simp)
        rwa [walkNames_concat, hcur]
  exact hwalk names [] root rfl rfl

end

end Places

/-! ### A new node -/

/-- **A new node**: allocated, filled and put into a directory in which its name is new. -/
theorem Tree.add (h : Tree s kids) {type : VfsType} {i : ℕ} {t : State B}
    (ha : allocNode name type s = some (i, t)) (hu : SameTree t u) (hdir : s.type dir = some .dir)
    (hok : name ≠ [] ∧ name.length < vfsNameMax) (hfresh : findChild s dir name = none) :
    Tree (addChild dir i u) (update kids dir (i :: kids dir)) := by
  obtain ⟨-, hfree, hnodes, -⟩ := allocNode_linked h.linked ha
  have htype : ∀ {j}, j ≠ i → u.type j = s.type j := fun hj => by
    rw [hu.type, State.type, hnodes, update_of_ne hj, State.type]
  have hname : u.name = update s.name i name := by
    rw [hu.name]
    funext j
    simp only [State.name, hnodes]
    by_cases hj : j = i
    · subst hj
      simpa [newNode] using take_of_length_le (show name.length ≤ vfsNameMax - 1 by omega)
    · simp [hj, State.name]
  obtain ⟨-, -, -, hname', htype'⟩ := addChild_fields dir i u
  have hold : ∀ {d c}, c ∈ kids d → u.name c = s.name c := fun {d c} hc => by
    have hci : c ≠ i := fun e => h.linked.not_mem_of_unused hfree d (e ▸ hc)
    rw [hname, update_of_ne hci]
  have hsub : ∀ d, kids d ⊆ update kids dir (i :: kids dir) d :=
    fun d c hc => mem_pushFront.2 (.inr hc)
  refine ⟨h.linked.add ha hu hdir, ?_, ?_, ?_⟩
  · intro d
    rw [hname']
    have hkept : (kids d).Pairwise fun a b => u.name a ≠ u.name b :=
      (h.distinct d).imp_of_mem fun ha hb hab => by rwa [hold ha, hold hb]
    by_cases hd : d = dir
    · subst hd
      rw [update_self]
      refine pairwise_cons.2 ⟨fun c hc => ?_, hkept⟩
      rw [hold hc, hname, update_self]
      exact (h.findChild_none hfresh c hc).symm
    · rwa [update_of_ne hd]
  · intro d c hc
    rw [hname']
    rcases mem_pushFront.1 hc with ⟨-, rfl⟩ | hc
    · rw [hname, update_self]
      exact hok.1
    · rw [hold hc]
      exact h.named d c hc
  intro j hj
  by_cases hji : j = i
  · rw [hji]
    exact .kid ((h.grown dir (by rw [hdir]; simp)).mono hsub) (mem_pushFront.2 (.inl ⟨rfl, rfl⟩))
  · rw [htype', htype hji] at hj
    exact (h.grown j hj).mono hsub

/-! ### Making directories -/

/-- The flag alone does not matter for the tree. -/
theorem Tree.noteOverrun (h : Tree s kids) (b : Bool) : Tree (s.noteOverrun b) kids :=
  ⟨h.linked.noteOverrun b, h.distinct, h.named, h.grown⟩

/-- **The loop of `vfs_mkdir`** from the directory `cur`. -/
theorem mkdirLoop_tree (parts : List Path) : ∀ {cur : ℕ} (bi : ℕ) {s : State B} {kids : ℕ → List ℕ},
    Tree s kids → s.type cur = some .dir → (∀ p ∈ parts, p ≠ [] ∧ p.length < vfsNameMax) →
    ∃ kids', Tree (mkdirLoop parts cur bi s).2 kids' := by
  induction parts with
  | nil => exact fun _ _ kids h _ _ => ⟨kids, h⟩
  | cons part parts ih =>
    intro cur bi s kids h hcur hparts
    obtain ⟨hpart, hrest⟩ := forall_mem_cons.1 hparts
    simp only [mkdirLoop]
    generalize decide (vfsPathMax ≤ buildNext bi part) = long
    replace h := h.noteOverrun long
    replace hcur : (s.noteOverrun long).type cur = some .dir := hcur
    generalize s.noteOverrun long = u at h hcur
    cases hf : findChild u cur part with
    | some n =>
      dsimp only
      split
      next hdir => exact ih _ h hdir hrest
      · exact ⟨kids, h⟩
    | none =>
      cases ha : allocNode part .dir u with
      | none => exact ⟨kids, h⟩
      | some r => exact ih _ (h.add ha .rfl' hcur hpart hf) (type_addChild ha cur) hrest

/-- A place on the way to `parts` at which there is nothing yet. -/
def State.Missing (s : State B) (parts names : List Path) : Prop :=
  names <+: parts ∧ walkNames s root names = none

theorem walkNames_noteOverrun (long : Bool) (s : State B) (cur : ℕ) (names : List Path) :
    walkNames (s.noteOverrun long) cur names = walkNames s cur names :=
  walkNames_congr (s := s) (t := s.noteOverrun long) rfl rfl rfl rfl cur names

/-- It changes what is found at places on its way that were empty, and no others. -/
theorem mkdirLoop_places (parts : List Path) : ∀ {place names : List Path} {cur : ℕ} (bi : ℕ)
    {s : State B} {kids : ℕ → List ℕ}, Linked s kids → s.type cur = some .dir →
    walkNames s root place = some cur → (∀ p ∈ parts, p.length < vfsNameMax) →
    ¬ s.Missing (place ++ parts) names →
    walkNames (mkdirLoop parts cur bi s).2 root names = walkNames s root names := by
  induction parts with
  | nil => exact fun _ _ _ _ _ _ _ _ => rfl
  | cons part parts ih =>
    intro place names cur bi s kids h hcur hplace hparts hmiss
    obtain ⟨hlen, hrest⟩ := forall_mem_cons.1 hparts
    simp only [mkdirLoop]
    generalize decide (vfsPathMax ≤ buildNext bi part) = long
    replace h := h.noteOverrun long
    replace hcur : (s.noteOverrun long).type cur = some .dir := hcur
    rw [← walkNames_noteOverrun long] at hplace
    rw [State.Missing, ← walkNames_noteOverrun long] at hmiss
    rw [← walkNames_noteOverrun long s]
    generalize s.noteOverrun long = u at *
    have hstep : walkNames u root (place ++ [part]) = findChild u cur part := by
      rw [walkNames_concat, hplace, Option.bind_some]
    cases hf : findChild u cur part with
    | some n =>
      dsimp only
      split
      next hdir => exact ih _ h hdir (hstep.trans hf) hrest (by simpa [State.Missing] using hmiss)
      · rfl
    | none =>
      cases ha : allocNode part .dir u with
      | none => rfl
      | some r =>
        have hne : names ≠ place ++ [part] := by
          rintro rfl
          exact hmiss ⟨⟨parts, by simp⟩, hstep.trans hf⟩
        have hw := h.walkNames_add ha hcur hlen hplace hf hne
        have hnew : walkNames (addChild cur r.1 r.2) root (place ++ [part]) = some r.1 := by
          rw [walkNames_concat, h.walkNames_add ha hcur hlen hplace hf (by simp), hplace,
            Option.bind_some, h.findChild_new ha hcur hlen]
        refine (ih _ (h.add ha .rfl' hcur) (type_addChild ha cur) hnew hrest ?_).trans hw
        rw [State.Missing, hw]
        simpa using hmiss

theorem mkdirLoop_fault {parts : List Path} : ∀ {cur bi : ℕ} {s : State B},
    bi + builtLength parts < vfsPathMax → (mkdirLoop parts cur bi s).2.pathFault = s.pathFault := by
  induction parts with
  | nil => intros; rfl
  | cons part parts ih =>
    intro cur bi s hlen
    have hcons : builtLength (part :: parts) = part.length + 1 + builtLength parts := by
      simp [builtLength]
    have hnext : buildNext bi part ≤ bi + 1 + part.length := by
      unfold buildNext
      omega
    have hs0 : (s.noteOverrun (decide (vfsPathMax ≤ buildNext bi part))).pathFault =
        s.pathFault := by
      simp [decide_eq_false (by omega : ¬ vfsPathMax ≤ buildNext bi part), State.noteOverrun]
    simp only [mkdirLoop]
    split
    · split
      · exact (ih (by omega)).trans hs0
      · exact hs0
    split
    · exact hs0
    next n t ha => exact (ih (by omega)).trans ((allocNode_fault ha).trans hs0)

/-- **`vfs_mkdir`** keeps the tree, and does not overrun its buffer on a path within the limits. -/
theorem vfsMkdir_tree (h : Tree s kids) (path : Path) :
    ∃ kids', Tree (vfsMkdir path s).2 kids' := by
  unfold vfsMkdir
  split
  · exact ⟨kids, h⟩
  split
  · exact ⟨kids, h⟩
  · exact mkdirLoop_tree (nameParts path) 0 h h.linked.rootDir fun p hp => nameParts_mem hp

theorem vfsMkdir_places {names : List Path} (h : Linked s kids)
    (hmiss : ¬ s.Missing (nameParts path) names) :
    walkNames (vfsMkdir path s).2 root names = walkNames s root names := by
  unfold vfsMkdir
  split
  · rfl
  split
  · rfl
  have hroot : walkNames s root [] = some root := rfl
  exact mkdirLoop_places (nameParts path) 0 h h.rootDir hroot
    (fun p hp => (nameParts_mem hp).2) hmiss

theorem vfsMkdir_fault (h : PathOk path) : (vfsMkdir path s).2.pathFault = s.pathFault := by
  unfold vfsMkdir
  split
  · rfl
  split
  · rfl
  rename_i hhead
  refine mkdirLoop_fault ?_
  have := nameParts_built h.names (by simpa using hhead)
  have := h.length
  omega

/-! ### New names -/

/-- What every operation has to keep. -/
def Good (s : State B) : Prop := (∃ kids, Tree s kids) ∧ s.pathFault = false

theorem Good.congr (h : Good s) (he : SameTree s t) : Good t := by
  obtain ⟨⟨kids, hk⟩, hf⟩ := h
  exact ⟨⟨kids, hk.congr he⟩, he.fault.trans hf⟩

theorem head?_take {n : ℕ} (hn : n ≠ 0) : (path.take n).head? = path.head? := by
  cases path with
  | nil => simp
  | cons c cs =>
    cases n with
    | zero => exact absurd rfl hn
    | succ n => rfl

theorem PathOk.take (h : PathOk path) (n : ℕ) : PathOk (path.take n) where
  length := lt_of_le_of_lt (by simp) h.length
  names := h.names.of_infix (List.take_prefix n path).isInfix

/-- Where the directory of a name is. -/
theorem existingDir_place (hlast : lastSlash path = some last)
    (hdir : existingDir path last s = some dir) :
    path.head? = some slash ∧ walkNames s root (nameParts (path.take last)) = some dir := by
  have hfound : (if last = 0 then some root else vfsLookup (path.take last) s) = some dir := by
    unfold existingDir at hdir
    split at hdir
    · cases hdir
    rename_i d hd
    split at hdir
    · exact hd.trans hdir
    · cases hdir
  split at hfound
  next h0 =>
    subst h0
    have hpath := (lastSlash_some hlast).1
    exact ⟨by rw [hpath]; rfl, hfound⟩
  next h0 =>
    unfold vfsLookup at hfound
    split at hfound
    · cases hfound
    · rename_i hhead
      exact ⟨by rw [← head?_take h0]; simpa using hhead, hfound⟩

/-- A name that leads nowhere is new in its directory. -/
theorem existingDir_fresh (hp : PathOk path) (hleaf : HasLeaf path)
    (hlast : lastSlash path = some last) (hnone : vfsLookup path s = none)
    (hdir : existingDir path last s = some dir) :
    findChild s dir (path.drop (last + 1)) = none := by
  obtain ⟨hne, hlen⟩ := hp.leaf hleaf hlast
  obtain ⟨hhead, hplace⟩ := existingDir_place hlast hdir
  rwa [vfsLookup, if_neg (by simpa using hhead), nameParts_leaf hlast hhead hne hlen,
    walkNames_concat, hplace] at hnone

theorem parentDir_fault (hp : PathOk path) (last : ℕ) :
    (parentDir path last s).2.pathFault = s.pathFault := by
  rcases (parentDir_cases path last s).1 with he | ⟨-, he⟩ <;> rw [he]
  exact vfsMkdir_fault (hp.take last)

theorem parentDir_places {names : List Path} (h : Linked s kids) (path : Path)
    (hmiss : ¬ s.Missing (nameParts (path.take last)) names) :
    walkNames (parentDir path last s).2 root names = walkNames s root names := by
  rcases (parentDir_cases path last s).1 with he | ⟨-, he⟩ <;> rw [he]
  exact vfsMkdir_places h hmiss

/-- The directories that are made are above the place of the name, which stays empty. -/
theorem parentDir_lookup (h : Linked s kids) (hp : PathOk path) (hleaf : HasLeaf path)
    (hlast : lastSlash path = some last) (hnone : vfsLookup path s = none) :
    vfsLookup path (parentDir path last s).2 = none := by
  unfold vfsLookup at hnone ⊢
  split at hnone
  next hhead => exact if_pos hhead
  rename_i hhead
  rw [if_neg hhead, parentDir_places h path, hnone]
  rintro ⟨hpre, -⟩
  obtain ⟨hne, hlen⟩ := hp.leaf hleaf hlast
  have := hpre.length_le
  rw [nameParts_leaf hlast (by simpa using hhead) hne hlen, length_append, length_singleton] at this
  omega

/-- **The directory of a new name.** -/
theorem parentDir_tree (h : Tree s kids) (hp : PathOk path)
    (hleaf : HasLeaf path) (hlast : lastSlash path = some last) (hnone : vfsLookup path s = none) :
    let t := parentDir path last s
    ∃ kids', Tree t.2 kids' ∧ t.2.pathFault = s.pathFault ∧ ∀ dir, t.1 = some dir →
      t.2.type dir = some .dir ∧ findChild t.2 dir (path.drop (last + 1)) = none := by
  dsimp only
  obtain ⟨hstate, hdir⟩ := parentDir_cases path last s
  obtain ⟨kids', ht⟩ : ∃ kids', Tree (parentDir path last s).2 kids' := by
    rcases hstate with he | ⟨-, he⟩ <;> rw [he]
    · exact ⟨kids, h⟩
    · exact vfsMkdir_tree h _
  refine ⟨kids', ht, parentDir_fault hp last, fun dir hd => ?_⟩
  have hd := hdir h.linked.rootDir dir hd
  exact ⟨existingDir_type hd, existingDir_fresh hp hleaf hlast
    (parentDir_lookup h.linked hp hleaf hlast hnone) hd⟩

theorem take_of_pathOk (h : PathOk path) : path.take (vfsPathMax - 1) = path :=
  take_of_length_le (by have := h.length; omega)

/-- **`vfs_create_file`** keeps the tree. -/
theorem vfsCreateFile_good (h : Good s) (hp : PathOk path) (hleaf : HasLeaf path) :
    Good (vfsCreateFile path s).2 := by
  obtain ⟨⟨kids, hk⟩, hfault⟩ := h
  unfold vfsCreateFile
  rw [take_of_pathOk hp]
  cases hl : vfsLookup path s with
  | some e => exact ⟨⟨kids, hk⟩, hfault⟩
  | none =>
    cases hlast : lastSlash path with
    | none => exact ⟨⟨kids, hk⟩, hfault⟩
    | some last =>
      dsimp only
      obtain ⟨kids', ht, hf, hr⟩ := parentDir_tree hk hp hleaf hlast hl
      rcases hd : parentDir path last s with ⟨_ | dir, t⟩
      · rw [hd] at ht hf
        exact ⟨⟨kids', ht⟩, hf.trans hfault⟩
      rw [hd] at ht hf hr
      obtain ⟨htype, hfresh⟩ := hr dir rfl
      dsimp only
      cases ha : allocNode (path.drop (last + 1)) .file t with
      | none => exact ⟨⟨kids', ht⟩, hf.trans hfault⟩
      | some r =>
        exact ⟨⟨_, ht.add ha .rfl' htype (hp.leaf hleaf hlast) hfresh⟩,
          (allocNode_fault ha).trans (hf.trans hfault)⟩

end PeakOs.Vfs
