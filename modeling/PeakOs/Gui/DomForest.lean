import PeakOs.Gui.Dom
import PeakOs.Lib.Transition
import Mathlib.Data.Finset.Card

/-!
# The nodes in use form a forest

The links of the nodes in use are an `Orchard`; the walks of the code, which are bounded by the
number of nodes, then end where the chains do. The one call that breaks this is `dom_set_text` on an
element with children, which forgets the children without taking them off.

## Main results

* `Inv.append`, `Inv.inner` — appending a node, and emptying an element
* `dom_forest` — the forest, in every run without such a call
-/

namespace PeakOs.Dom

open Function List

variable {d : Doc} {i j : ℕ} {n : Node}

def Doc.Used (d : Doc) (id : ℕ) : Prop := (d.node? id).isSome

theorem used_iff : d.Used i ↔ i < d.nnodes ∧ (d.nodes i).used = true := by
  rw [Doc.Used, Doc.node?]
  split <;> simp [*]

theorem node?_eq (h : d.node? i = some n) : n = d.nodes i := by
  rw [Doc.node?] at h
  split at h
  · exact (Option.some.inj h).symm
  · cases h

theorem node?_of_used (h : d.Used i) : d.node? i = some (d.nodes i) := by
  rw [Doc.node?, if_pos (used_iff.1 h)]

theorem node?_of_not (h : ¬ d.Used i) : d.node? i = none := Option.not_isSome_iff_eq_none.1 h

variable {d' : Doc} {f : Node → Node} {x start : Option ℕ} {p c : ℕ}

theorem node?_congr (hn : d'.nnodes = d.nnodes) (h : d'.nodes i = d.nodes i) :
    d'.node? i = d.node? i := by rw [Doc.node?, Doc.node?, hn, h]

theorem used_of_parent (h : d.parent i = some j) : d.Used i := by
  by_contra hu
  rw [Doc.parent, node?_of_not hu] at h
  cases h

theorem used_of_link (h : d.child i = some j ∨ d.sibling i = some j) : d.Used i := by
  by_contra hu
  rw [Doc.child, Doc.sibling, node?_of_not hu] at h
  rcases h with h | h <;> cases h

theorem links_of_node (h : d.node? i = some n) :
    d.child i = n.firstChild ∧ d.sibling i = n.nextSibling ∧ d.parent i = n.parent := by
  simp [Doc.child, Doc.sibling, Doc.parent, h]

/-! ### One node changed -/

theorem node?_modify_of_ne (f : Node → Node) (h : j ≠ i) : (d.modify i f).node? j = d.node? j :=
  node?_congr rfl (update_of_ne h ..)

section

variable (hf : (f (d.nodes i)).used = (d.nodes i).used)
include hf

theorem node?_modify_self (h : d.Used i) : (d.modify i f).node? i = some (f (d.nodes i)) := by
  have hself : (d.modify i f).nodes i = f (d.nodes i) := update_self ..
  rw [Doc.node?, hself, hf]
  exact if_pos (used_iff.1 h)

/-- The links after a change of a node that stays in use. -/
theorem links_modify (h : d.Used i) :
    (d.modify i f).child = update d.child i (f (d.nodes i)).firstChild ∧
      (d.modify i f).sibling = update d.sibling i (f (d.nodes i)).nextSibling ∧
      (d.modify i f).parent = update d.parent i (f (d.nodes i)).parent := by
  have hself := links_of_node (node?_modify_self hf h)
  refine ⟨eq_update_iff.2 ⟨hself.1, fun j hj => ?_⟩, eq_update_iff.2 ⟨hself.2.1, fun j hj => ?_⟩,
    eq_update_iff.2 ⟨hself.2.2, fun j hj => ?_⟩⟩
  · rw [Doc.child, Doc.child, node?_modify_of_ne f hj]
  · rw [Doc.sibling, Doc.sibling, node?_modify_of_ne f hj]
  · rw [Doc.parent, Doc.parent, node?_modify_of_ne f hj]

/-- A node that is changed stays in use. -/
theorem used_modify (h : d.Used i) : (d.modify i f).Used j ↔ d.Used j := by
  by_cases hj : j = i
  · subst hj
    exact ⟨fun _ => h, fun _ => by rw [Doc.Used, node?_modify_self hf h]; rfl⟩
  · rw [Doc.Used, Doc.Used, node?_modify_of_ne f hj]

end

section

variable (h : d.Used i)
include h

theorem links_setChild (x : Option ℕ) : (d.setChild i x).child = update d.child i x ∧
      (d.setChild i x).sibling = d.sibling ∧ (d.setChild i x).parent = d.parent := by
  obtain ⟨hc, hs, hp⟩ := links_modify (f := fun n => { n with firstChild := x }) rfl h
  have hl := links_of_node (node?_of_used h)
  refine ⟨hc, hs.trans ?_, hp.trans ?_⟩
  · rw [← hl.2.1, update_eq_self]
  · rw [← hl.2.2, update_eq_self]

theorem links_setSibling (x : Option ℕ) : (d.setSibling i x).child = d.child ∧
      (d.setSibling i x).sibling = update d.sibling i x ∧
      (d.setSibling i x).parent = d.parent := by
  obtain ⟨hc, hs, hp⟩ := links_modify (f := fun n => { n with nextSibling := x }) rfl h
  have hl := links_of_node (node?_of_used h)
  refine ⟨hc.trans ?_, hs, hp.trans ?_⟩
  · rw [← hl.1, update_eq_self]
  · rw [← hl.2.2, update_eq_self]

theorem links_setPlace (x : Option ℕ) : (d.setPlace i x).child = d.child ∧
      (d.setPlace i x).sibling = update d.sibling i none ∧
      (d.setPlace i x).parent = update d.parent i x := by
  obtain ⟨hc, hs, hp⟩ :=
    links_modify (f := fun n => { n with parent := x, nextSibling := none }) rfl h
  have hl := links_of_node (node?_of_used h)
  refine ⟨hc.trans ?_, hs, hp⟩
  rw [← hl.1, update_eq_self]

theorem used_setChild : (d.setChild i x).Used j ↔ d.Used j :=
  used_modify (f := fun n => { n with firstChild := x }) rfl h

theorem used_setSibling : (d.setSibling i x).Used j ↔ d.Used j :=
  used_modify (f := fun n => { n with nextSibling := x }) rfl h

theorem used_setPlace : (d.setPlace i x).Used j ↔ d.Used j :=
  used_modify (f := fun n => { n with parent := x, nextSibling := none }) rfl h

end

/-! ### The invariant -/

structure Inv (d : Doc) (kids : ℕ → List ℕ) : Prop where
  room : d.nnodes ≤ domMaxNodes
  orchard : Orchard d.child d.sibling d.parent kids

variable {kids : ℕ → List ℕ}

section

variable (h : Inv d kids)
include h

/-- Lists hold nodes in use only. -/
theorem Inv.used_kid (hj : j ∈ kids i) : d.Used j ∧ d.Used i := by
  refine ⟨used_of_parent (h.orchard.mem_iff.1 hj), ?_⟩
  obtain ⟨a, ha, -⟩ := h.orchard.forest.mem_kids_iff.1 hj
  exact used_of_link (.inl ha)

theorem Inv.used_sibling (hij : d.sibling i = some j) : d.Used j := by
  cases hp : d.parent i with
  | none =>
    rw [h.orchard.orphan hp] at hij
    cases hij
  | some q => exact used_of_parent ((h.orchard.parent_sibling hij).trans hp)

theorem Inv.length_kids (q : ℕ) : (kids q).length ≤ d.nnodes :=
  (h.orchard.forest.chain q).length_le fun _ hi => (used_iff.1 (h.used_kid hi).1).1

theorem Inv.parent_ne (i : ℕ) : d.parent i ≠ some i :=
  fun hi => h.orchard.acyclic i (.single hi)

theorem Inv.sibling_ne (i : ℕ) : d.sibling i ≠ some i := by
  intro hi
  cases hp : d.parent i with
  | none =>
    rw [h.orchard.orphan hp] at hi
    cases hi
  | some q =>
    obtain ⟨l₁, l₂, hl⟩ := append_of_mem (h.orchard.mem hp)
    have hch := h.orchard.forest.chain q
    rw [hl] at hch
    exact hch.suffix.not_mem_of_closed (S := (· = i)) (fun x hx => ⟨i, hx ▸ hi, rfl⟩) rfl

theorem Inv.domNextSibling_eq : domNextSibling d = d.sibling := by
  funext i
  rw [domNextSibling, if_neg (h.sibling_ne i)]
  cases hs : d.sibling i with
  | none => rfl
  | some j => exact Option.filter_some_pos (h.used_sibling hs)

theorem Inv.stepSibling_eq : d.stepSibling = d.sibling := by
  funext i
  rw [Doc.stepSibling, if_neg (h.sibling_ne i)]

theorem Inv.stepParent_eq : d.stepParent = d.parent := by
  funext i
  rw [Doc.stepParent, if_neg (h.parent_ne i)]

/-- The bounded walk up finds every ancestor. -/
theorem Inv.not_mem_of_not_ancestor (hp : d.Used p)
    (hanc : isAncestorOf d c p = false) : ∃ l, IsChain d.parent (some p) l ∧ c ∉ l := by
  obtain ⟨l, hl⟩ := h.orchard.up p
  refine ⟨l, hl, fun hc => ?_⟩
  have hused : ∀ i ∈ l, i < d.nnodes := by
    intro i hi
    rcases Relation.ReflTransGen.cases_tail (hl.reflTransGen hi) with rfl | ⟨k, -, hk⟩
    · exact (used_iff.1 hp).1
    · exact (used_iff.1 (h.used_kid (h.orchard.mem hk)).2).1
  rw [isAncestorOf, h.stepParent_eq, hl.firstOnChain_eq _ (hl.length_le hused)] at hanc
  have hfound : (l.find? fun x => decide (x = c)).isSome = true :=
    find?_isSome.2 ⟨c, hc, decide_eq_true rfl⟩
  rw [hanc] at hfound
  cases hfound

/-! ### New nodes -/

theorem Inv.alloc (isText : Bool) (tag : List Char) : Inv (allocNode d isText tag).1 kids := by
  rw [allocNode]
  by_cases hfull : domMaxNodes ≤ d.nnodes
  · rwa [if_pos hfull]
  rw [if_neg hfull]
  set m : Node := { used := true, isText := isText, tag := tag } with hm
  set d' : Doc := ⟨update d.nodes d.nnodes m, d.nnodes + 1⟩ with hd'
  have hnew : ¬ d.Used d.nnodes := fun hu => lt_irrefl _ (used_iff.1 hu).1
  have hself : d'.node? d.nnodes = some m := by
    have hnode : d'.nodes d.nnodes = m := update_self ..
    rw [Doc.node?, hnode]
    exact if_pos ⟨Nat.lt_succ_self _, rfl⟩
  have hother : ∀ i, i ≠ d.nnodes → d'.node? i = d.node? i := by
    intro i hi
    have hnode : d'.nodes i = d.nodes i := update_of_ne hi ..
    have hlt : i < d'.nnodes ↔ i < d.nnodes := by
      show i < d.nnodes + 1 ↔ _
      omega
    simp only [Doc.node?, hnode, hlt]
  -- a new node has no links, and neither had the entry it takes
  have hlink : ∀ f : Node → Option ℕ, f m = none →
      (fun i => (d'.node? i).bind f) = fun i => (d.node? i).bind f := by
    intro f hf
    funext i
    by_cases hi : i = d.nnodes
    · rwa [hi, hself, node?_of_not hnew]
    · rw [hother i hi]
  refine ⟨Nat.lt_of_not_le hfull, ?_⟩
  rw [show d'.child = d.child from hlink _ rfl, show d'.sibling = d.sibling from hlink _ rfl,
    show d'.parent = d.parent from hlink _ rfl]
  exact h.orchard

/-! ### Appending -/

/-- The child list of `q` without `c`; `c` itself still says that `q` is its parent. -/
theorem Inv.takeOff {q : ℕ} (hmem : c ∈ kids q) (hd' : takeOff d q c (d.sibling c) = d') :
    Forest d'.child d'.sibling d.parent (update kids q ((kids q).erase c)) ∧
      (∀ x, d.parent x = none → d'.sibling x = d.sibling x) ∧ d'.parent = d.parent ∧
      d'.nnodes = d.nnodes ∧ ∀ x, d'.Used x ↔ d.Used x := by
  have hq := (h.used_kid hmem).2
  have hlq := (links_of_node (node?_of_used hq)).1
  have hchain := h.orchard.forest.chain q
  rw [Dom.takeOff, node?_of_used hq] at hd'
  dsimp only at hd'
  by_cases hfirst : (d.nodes q).firstChild = some c
  · rw [if_pos hfirst] at hd'
    subst hd'
    obtain ⟨h₁, h₂, h₃⟩ := links_setChild hq (d.sibling c)
    refine ⟨?_, fun x _ => by rw [h₂], h₃, rfl, fun x => used_setChild hq⟩
    obtain ⟨l, hk⟩ := head?_eq_some_iff.1 (hchain.head.symm.trans (hlq.trans hfirst))
    rw [h₁, h₂, hk, erase_cons_head]
    exact h.orchard.forest.removeHead hk
  rw [if_neg hfirst] at hd'
  obtain ⟨l, l₂, -, hk, herase⟩ := exists_erase_eq hmem
  obtain rfl | ⟨l₁, b, rfl⟩ := eq_nil_or_concat l
  · rw [hk, hlq] at hchain
    exact absurd hchain.1 hfirst
  rw [concat_eq_append, append_assoc, singleton_append] at hk herase
  have hnd := h.orchard.forest.nodup q
  have hfind := hchain.firstOnChain_eq (fun s => decide (d.sibling s = some c)) (h.length_kids q)
  rw [hk] at hchain hnd hfind
  rw [hchain.find_pred hnd] at hfind
  rw [h.stepSibling_eq, ← hlq, hfind] at hd'
  subst hd'
  have hbk : b ∈ kids q := by simp [hk]
  obtain ⟨h₁, h₂, h₃⟩ := links_setSibling (h.used_kid hbk).1 (d.sibling c)
  refine ⟨?_, fun x hx => ?_, h₃, rfl, fun x => used_setSibling (h.used_kid hbk).1⟩
  · rw [h₁, h₂, herase]
    exact h.orchard.forest.removeAfter hk
  rw [h₂, update_of_ne (ne_of_none_of_some hx (h.orchard.mem_iff.1 hbk)).symm]

/-- What `dom_unlink_from_parent` leaves: the node without a parent. -/
theorem Inv.unlink (hc : d.Used c) (hd' : unlinkFromParent d c = d') :
    ∃ kids', Inv d' kids' ∧ d'.parent c = none ∧ (∀ x, x ≠ c → d'.parent x = d.parent x) ∧
      ∀ x, d'.Used x ↔ d.Used x := by
  have hl := links_of_node (node?_of_used hc)
  rw [unlinkFromParent, node?_of_used hc] at hd'
  dsimp only at hd'
  cases hpc : (d.nodes c).parent with
  | none =>
    rw [hpc] at hd'
    subst hd'
    exact ⟨kids, h, hl.2.2.trans hpc, fun _ _ => rfl, fun _ => Iff.rfl⟩
  | some q =>
    have hpar : d.parent c = some q := hl.2.2.trans hpc
    rw [hpc, ← hl.2.1] at hd'
    obtain ⟨hf, hs, hp, hn, hu⟩ := h.takeOff (h.orchard.mem hpar) rfl
    obtain ⟨h₁, h₂, h₃⟩ := links_setPlace ((hu c).2 hc) none
    have horch := h.orchard.detach hpar hf hs
    rw [← h₁, ← h₂, ← hp, ← h₃] at horch
    subst hd'
    refine ⟨_, ⟨hn ▸ h.room, horch⟩, ?_, fun x hx => ?_, fun x => ?_⟩
    · rw [h₃, update_self]
    · rw [h₃, update_of_ne hx, hp]
    · exact (used_setPlace ((hu c).2 hc)).trans (hu x)

/-- A parentless node is put at the end of the children of a node that is not below it. -/
theorem Inv.link (hp : d.Used p) (hc : d.Used c)
    (hpar : d.parent c = none) {lp : List ℕ} (hlp : IsChain d.parent (some p) lp) (hcp : c ∉ lp) :
    ∃ kids', Inv (linkLast d p c).1 kids' := by
  obtain ⟨h₁, h₂, h₃⟩ := links_setPlace hc (some p)
  have hu := fun x => used_setPlace (j := x) hc (x := some p)
  have hnone := h.orchard.orphan hpar
  rw [← hnone, update_eq_self] at h₂
  have hck : ∀ q, c ∉ kids q := fun q hq =>
    ne_of_none_of_some hpar (h.orchard.mem_iff.1 hq) rfl
  have hchain := h.orchard.forest.chain p
  rw [linkLast, h₁]
  cases ha : d.child p with
  | none =>
    rw [ha] at hchain
    have hk : kids p = [] := hchain.unique rfl
    obtain ⟨g₁, g₂, g₃⟩ := links_setChild ((hu p).2 hp) (some c)
    have hf := h.orchard.forest.pushFront (p := p) hck
    have hone : c :: kids p = kids p ++ [c] := by rw [hk]; rfl
    rw [ha, ← hnone, update_eq_self, hone] at hf
    have horch := h.orchard.attach hpar hlp hcp hf fun _ _ _ => rfl
    rw [← h₁, ← g₁, ← h₂, ← g₂, ← h₃, ← g₃] at horch
    exact ⟨_, h.room, horch⟩
  | some a =>
    dsimp only
    obtain hk | ⟨l, b, hk⟩ := eq_nil_or_concat (kids p)
    · rw [hk, ha] at hchain
      cases hchain
    rw [concat_eq_append] at hk
    have hbk : b ∈ kids p := by simp [hk]
    have hnext : domNextSibling (d.setPlace c (some p)) = d.sibling := by
      rw [← h.domNextSibling_eq]
      funext x
      have hsome : ∀ y, ((d.setPlace c (some p)).node? y).isSome = (d.node? y).isSome :=
        fun y => Bool.eq_iff_iff.2 (hu y)
      simp only [domNextSibling, h₂, hsome]
    have hfind := hchain.firstOnChain_eq (fun s => ((d.setPlace c (some p)).node? s).isSome &&
      decide (d.sibling s = none)) (h.length_kids p)
    rw [hk] at hchain hfind
    rw [hchain.find_end fun i hi => ?_, ha] at hfind
    · rw [hnext, h₂, show (d.setPlace c (some p)).nnodes = d.nnodes from rfl, hfind]
      obtain ⟨g₁, g₂, g₃⟩ := links_setSibling ((hu b).2 (h.used_kid hbk).1) (some c)
      have hf := h.orchard.forest.pushBack hk hck hnone
      have horch := h.orchard.attach hpar hlp hcp hf fun x _ hx => ?_
      · rw [← h₁, ← g₁, ← h₂, ← g₂, ← h₃, ← g₃] at horch
        exact ⟨_, h.room, horch⟩
      exact update_of_ne (ne_of_none_of_some hx (h.orchard.mem_iff.1 hbk)).symm ..
    have hui := (hu i).2 (h.used_kid (hk ▸ hi)).1
    rw [Bool.and_eq_true, decide_eq_true_iff]
    exact ⟨And.right, fun hi => ⟨hui, hi⟩⟩

/-- **`dom_append_child`**: the node leaves its list and goes to the end of another. -/
theorem Inv.append (p c : ℕ) : ∃ kids', Inv (domAppendChild d p c).1 kids' := by
  rw [domAppendChild]
  split
  next np nc hnp hnc =>
    have hp : d.Used p := by rw [Doc.Used, hnp]; rfl
    have hc : d.Used c := by rw [Doc.Used, hnc]; rfl
    split
    · exact ⟨kids, h⟩
    rename_i hno
    rw [not_or, not_or, Bool.not_eq_true (isAncestorOf d c p)] at hno
    obtain ⟨lp, hlp, hcp⟩ := h.not_mem_of_not_ancestor hp hno.2.2
    split
    · exact ⟨kids, h⟩
    obtain ⟨kids', h', hpar, hother, hu⟩ := h.unlink hc rfl
    refine h'.link ((hu p).2 hp) ((hu c).2 hc) hpar (hlp.congr fun i hi => ?_) hcp
    exact hother i fun e => hcp (e ▸ hi)
  · exact ⟨kids, h⟩

end

/-! ### Emptying an element -/

/-- The number of nodes in use. -/
def usedCount (d : Doc) : ℕ := ((Finset.range d.nnodes).filter fun i => (d.nodes i).used).card

/-- What `mark_subtree_unused` from `start` makes of `d`. -/
structure Marked (d : Doc) (start : Option ℕ) (d' : Doc) : Prop where
  nnodes : d'.nnodes = d.nnodes
  kept : ∀ i, d'.Used i → d'.nodes i = d.nodes i
  gone : ∀ s, start = some s → ¬ d'.Used s
  closed : ∀ i j, d.Used i → ¬ d'.Used i → (d.child i = some j ∨ d.sibling i = some j) →
    ¬ d'.Used j
  reached : ∀ i, d.Used i → ¬ d'.Used i → ∃ s, start = some s ∧
    Relation.ReflTransGen (fun i j => d.child i = some j ∨ d.sibling i = some j) s i

theorem Marked.used (h : Marked d start d') (hi : d'.Used i) : d.Used i := by
  have hu := used_iff.1 hi
  rw [h.kept i hi, h.nnodes] at hu
  exact used_iff.2 hu

theorem Marked.node? (h : Marked d start d') (hi : d'.Used i) :
    d'.node? i = d.node? i := node?_congr h.nnodes (h.kept i hi)

/-- Marking leaves fewer nodes in use. -/
theorem Marked.count (h : Marked d start d') : usedCount d' ≤ usedCount d := by
  refine Finset.card_le_card fun i hi => ?_
  simp only [Finset.mem_filter, Finset.mem_range] at hi ⊢
  exact used_iff.1 (h.used (used_iff.2 hi))

theorem Marked.refl (hs : ∀ s, start = some s → ¬ d.Used s) : Marked d start d :=
  ⟨rfl, fun _ _ => rfl, hs, fun _ _ hi hn => absurd hi hn, fun _ hi hn => absurd hi hn⟩

/-- **The subtree is marked** and nothing else: a call marks a node, so the fuel is enough. -/
theorem markSubtreeUnused_marked (fuel : ℕ) (d : Doc) (start : Option ℕ)
    (hfuel : usedCount d < fuel) : Marked d start (markSubtreeUnused fuel d start) := by
  induction fuel generalizing d start with
  | zero => omega
  | succ fuel ih =>
    cases start with
    | none => exact Marked.refl fun s hs => by cases hs
    | some id =>
      rw [markSubtreeUnused]
      by_cases hid : d.Used id
      swap
      · rw [node?_of_not hid]
        refine Marked.refl fun s hs => ?_
        rwa [← Option.some.inj hs]
      rw [node?_of_used hid]
      have hl := links_of_node (node?_of_used hid)
      set d₁ := d.modify id fun n => { n with
        used := false, firstChild := none, nextSibling := none, parent := none } with hd₁
      have hdead : ¬ d₁.Used id := by
        intro hu
        have hself : d₁.nodes id = _ := update_self ..
        have := (used_iff.1 hu).2
        rw [hself] at this
        cases this
      have hne : ∀ {i}, i ≠ id → d₁.node? i = d.node? i := fun hi => node?_modify_of_ne _ hi
      have hused : ∀ {i}, d₁.Used i → i ≠ id ∧ d.Used i := by
        intro i hi
        have hie : i ≠ id := fun e => hdead (e ▸ hi)
        exact ⟨hie, by rwa [Doc.Used, ← hne hie]⟩
      have hcount : usedCount d₁ < usedCount d := by
        refine Finset.card_lt_card (Finset.ssubset_iff_of_subset ?_ |>.mpr ⟨id, ?_, ?_⟩)
        · intro i hi
          simp only [Finset.mem_filter, Finset.mem_range] at hi ⊢
          exact used_iff.1 (hused (used_iff.2 hi)).2
        · simpa using used_iff.1 hid
        · simpa using fun hu => hdead (used_iff.2 hu)
      have h₂ := ih d₁ (d.nodes id).firstChild (by omega)
      set d₂ := markSubtreeUnused fuel d₁ (d.nodes id).firstChild
      have h₃ := ih d₂ (d.nodes id).nextSibling (by have := h₂.count; omega)
      -- the links of a node that the first or the second part still sees
      have hlink : ∀ {i j} {e : Doc}, e.node? i = d.node? i →
          (d.child i = some j ∨ d.sibling i = some j ↔
            e.child i = some j ∨ e.sibling i = some j) := by
        intro i j e he
        rw [Doc.child, Doc.child, Doc.sibling, Doc.sibling, he]
      have hreach : ∀ {e : Doc} {s i}, (∀ k, e.Used k → e.node? k = d.node? k) →
          Relation.ReflTransGen (fun i j => e.child i = some j ∨ e.sibling i = some j) s i →
          Relation.ReflTransGen (fun i j => d.child i = some j ∨ d.sibling i = some j) s i := by
        intro e s i he hsi
        refine Relation.ReflTransGen.mono (fun x y hxy => ?_) _ _ hsi
        exact (hlink (he x (used_of_link hxy))).2 hxy
      have he₁ : ∀ k, d₁.Used k → d₁.node? k = d.node? k := fun k hk => hne (hused hk).1
      have he₂ : ∀ k, d₂.Used k → d₂.node? k = d.node? k :=
        fun k hk => (h₂.node? hk).trans (he₁ k (h₂.used hk))
      refine ⟨h₃.nnodes.trans h₂.nnodes, fun i hi => ?_, fun s hs hu => ?_,
        fun i j hi hn hij hj => ?_, fun i hi hn => ?_⟩
      · have hie := (hused (h₂.used (h₃.used hi))).1
        rw [h₃.kept i hi, h₂.kept i (h₃.used hi)]
        exact update_of_ne hie ..
      · rw [← Option.some.inj hs] at hu
        exact hdead (h₂.used (h₃.used hu))
      · by_cases hie : i = id
        · subst hie
          rw [hl.1, hl.2.1] at hij
          rcases hij with hij | hij
          · exact h₂.gone j hij (h₃.used hj)
          · exact h₃.gone j hij hj
        have hi₁ : d₁.Used i := by rwa [Doc.Used, hne hie]
        by_cases hi₂ : d₂.Used i
        · exact h₃.closed i j hi₂ hn ((hlink (he₂ i hi₂)).1 hij) hj
        · exact h₂.closed i j hi₁ hi₂ ((hlink (he₁ i hi₁)).1 hij) (h₃.used hj)
      refine ⟨id, rfl, ?_⟩
      by_cases hie : i = id
      · rw [hie]
      have hi₁ : d₁.Used i := by rwa [Doc.Used, hne hie]
      by_cases hi₂ : d₂.Used i
      · obtain ⟨s, hs, hsi⟩ := h₃.reached i hi₂ hn
        exact .head (.inr (hl.2.1.trans hs)) (hreach he₂ hsi)
      · obtain ⟨s, hs, hsi⟩ := h₂.reached i hi₁ hi₂
        exact .head (.inl (hl.1.trans hs)) (hreach he₁ hsi)

/-- The children of an element are dropped with everything below them. -/
theorem Inv.inner (h : Inv d kids) {id : ℕ} (hid : d.Used id) :
    ∃ kids', Inv (markSubtreeUnused (domMaxNodes + 1) (d.setChild id none)
      (d.nodes id).firstChild) kids' := by
  have hcount : usedCount (d.setChild id none) < domMaxNodes + 1 := by
    refine Nat.lt_succ_of_le ((Finset.card_filter_le _ _).trans ?_)
    rw [Finset.card_range]
    exact h.room
  have hm := markSubtreeUnused_marked _ _ (d.nodes id).firstChild hcount
  set d' := markSubtreeUnused (domMaxNodes + 1) (d.setChild id none) (d.nodes id).firstChild
  obtain ⟨h₁, h₂, h₃⟩ := links_setChild hid none
  have hl := (links_of_node (node?_of_used hid)).1
  have hgone : ∀ {x}, ¬ d'.Used x →
      d'.child x = none ∧ d'.sibling x = none ∧ d'.parent x = none := by
    intro x hx
    simp [Doc.child, Doc.sibling, Doc.parent, node?_of_not hx]
  have hstay : ∀ {x}, ¬ Below d.child d.sibling id x → d'.child x = (d.setChild id none).child x ∧
      d'.sibling x = d.sibling x ∧ d'.parent x = d.parent x := by
    intro x hx
    rw [← h₂, ← h₃]
    by_cases hu : d'.Used x
    · simp only [Doc.child, Doc.sibling, Doc.parent, hm.node? hu, and_self]
    have hnot : ¬ (d.setChild id none).Used x := by
      intro hux
      obtain ⟨s, hs, hsx⟩ := hm.reached x hux hu
      refine hx ⟨s, hl.trans hs, Relation.ReflTransGen.mono (fun a b hab => ?_) _ _ hsx⟩
      rw [h₁, h₂] at hab
      exact hab.imp_left fun hab => (of_update_none hab).2
    simp only [Doc.child, Doc.sibling, Doc.parent, node?_of_not hu, node?_of_not hnot, and_self]
  refine ⟨_, hm.nnodes ▸ h.room, h.orchard.prune (p := id) (fun x hx => hgone ?_) ?_
    (fun x hx hne => ?_) fun x hx => (hstay hx).2⟩
  · -- the marking follows the links as long as they lead
    obtain ⟨a, ha, hax⟩ := hx
    induction hax with
    | refl => exact hm.gone a (hl.symm.trans ha)
    | @tail y x hay hyx ih =>
      have hyid : y ≠ id := fun e => h.orchard.not_below_self id ⟨a, ha, e ▸ hay⟩
      refine hm.closed y x ((used_setChild hid).2 (used_of_link hyx)) ih ?_
      rwa [h₁, h₂, update_of_ne hyid]
  · by_cases hu : d'.Used id
    · rw [Doc.child, hm.node? hu]
      exact (congrFun h₁ id).trans (update_self ..)
    · exact (hgone hu).1
  · rw [(hstay hx).1, h₁, update_of_ne hne]

/-! ### Runs -/

/-- Every node in use is in exactly one place: the children of a node are the chain of its child
list, they are the nodes that name it as parent, and climbing never returns. -/
structure IsForest (d : Doc) (kids : ℕ → List ℕ) : Prop where
  chain : ∀ i, d.Used i → IsChain d.sibling (d.child i) (kids i)
  nodup : ∀ i, (kids i).Nodup
  agree : ∀ i c, c ∈ kids i ↔ d.parent c = some i
  disjoint : ∀ i j, i ≠ j → List.Disjoint (kids i) (kids j)
  acyclic : ∀ i, ¬ Relation.TransGen (fun a b => d.parent b = some a) i i
  live : ∀ i j, d.child i = some j ∨ d.sibling i = some j ∨ d.parent i = some j → d.Used j

theorem Inv.isForest (h : Inv d kids) : IsForest d kids where
  chain := fun i _ => h.orchard.forest.chain i
  nodup := h.orchard.forest.nodup
  agree := fun _ _ => h.orchard.mem_iff
  disjoint := fun _ _ hij _ hi hj => hij (h.orchard.forest.eq_of_mem hi hj)
  acyclic := h.orchard.acyclic
  live := by
    rintro i j (hij | hij | hij)
    · exact used_of_parent (h.orchard.parent_child hij)
    · exact h.used_sibling hij
    · exact (h.used_kid (h.orchard.mem hij)).2

theorem inv_empty : Inv .empty fun _ => [] := by
  have hnone : ∀ i, Doc.empty.node? i = none := fun i => if_neg fun h => Nat.not_lt_zero i h.1
  have hlinks : ∀ i, Doc.empty.child i = none ∧ Doc.empty.sibling i = none ∧
      Doc.empty.parent i = none := by
    intro i
    simp [Doc.child, Doc.sibling, Doc.parent, hnone i]
  refine ⟨Nat.zero_le _, ⟨⟨fun i => (hlinks i).1, fun i c hc => absurd hc not_mem_nil,
    fun i => nodup_nil⟩, fun hc => ?_, fun _ => (hlinks _).2.1, fun i => ⟨[i], rfl, ?_⟩⟩⟩
  · cases hc
  · exact (hlinks i).2.2

theorem Inv.appendText (h : Inv d kids) (id : ℕ) : ∃ kids', Inv (appendText d id) kids' := by
  have hnew := h.alloc true []
  rw [Dom.appendText, domCreateText]
  cases hd : allocNode d true [] with
  | mk d' t =>
    rw [hd] at hnew
    cases t with
    | none => exact ⟨kids, hnew⟩
    | some t => exact hnew.append id t

/-- **The parser** keeps the forest, token by token. -/
theorem Inv.build (ts : List Token) (stack : List ℕ) (h : Inv d kids) :
    ∃ kids', Inv (build ts stack d) kids' := by
  induction ts generalizing stack d kids with
  | nil => exact ⟨kids, h⟩
  | cons t ts ih =>
    cases stack with
    | nil => exact ⟨kids, h⟩
    | cons top stack =>
      by_cases hfull : domMaxNodes - 4 ≤ d.nnodes
      · simp only [Dom.build, if_pos hfull]
        exact ⟨kids, h⟩
      simp only [Dom.build, if_neg hfull]
      cases t with
      | text =>
        obtain ⟨kids', h'⟩ := h.appendText top
        exact ih _ h'
      | close tag => exact ih _ h
      | element tag self =>
        have hnew := h.alloc false ((tag.take 31).map Char.toLower)
        dsimp only
        rw [domCreateElement]
        cases hd : allocNode d false ((tag.take 31).map Char.toLower) with
        | mk d' el =>
          rw [hd] at hnew
          cases el with
          | none => exact ⟨kids, hnew⟩
          | some el =>
            obtain ⟨kids', h'⟩ := hnew.append top el
            exact ih _ h'

/-- A text is set on a text node, or on an element without children. -/
def Call.Safe (d : Doc) : Call → Prop
  | .setText id => ∀ n, d.node? id = some n → n.isText = true ∨ n.firstChild = none
  | _ => True

/-- **One call.** -/
theorem Inv.step (h : Inv d kids) (c : Call) (hc : c.Safe d) : ∃ kids', Inv (step d c) kids' := by
  cases c with
  | createElement tag | createText => exact ⟨kids, h.alloc ..⟩
  | appendChild parent child => exact h.append parent child
  | setText id =>
    rw [Dom.step, domSetText]
    cases hn : d.node? id with
    | none => exact ⟨kids, h⟩
    | some n =>
      dsimp only
      split
      · exact ⟨kids, h⟩
      rename_i htext
      have hid : d.Used id := by rw [Doc.Used, hn]; rfl
      have hnone : d.child id = none :=
        (links_of_node hn).1.trans ((hc n hn).resolve_left htext)
      obtain ⟨h₁, h₂, h₃⟩ := links_setChild hid none
      rw [← hnone, update_eq_self] at h₁
      have horch := h.orchard
      rw [← h₁, ← h₂, ← h₃] at horch
      rw [hnone] at horch
      exact Inv.appendText (d := d.setChild id none) ⟨h.room, horch⟩ id
  | setInnerHtml id html =>
    rw [Dom.step, domSetInnerHtml]
    cases hn : d.node? id with
    | none => exact ⟨kids, h⟩
    | some n =>
      have hid : d.Used id := by rw [Doc.Used, hn]; rfl
      obtain rfl := node?_eq hn
      dsimp only
      split
      · exact ⟨kids, h⟩
      obtain ⟨kids', h'⟩ := h.inner hid
      split
      · exact ⟨kids', h'⟩
      · exact h'.appendText id
  | parseHtml html =>
    obtain ⟨kids', h'⟩ := ((inv_empty.alloc false _).alloc false _).append 0 1
    exact h'.build ..

/-- In every run from an empty document whose calls are safe, the nodes in use form a forest. -/
theorem dom_forest (d : Doc) (h : Reach (· = Doc.empty) (fun d c => Call.Safe d c) step d) :
    ∃ kids, IsForest d kids := by
  obtain ⟨kids, hk⟩ := h.invariant (fun d => ∃ kids, Inv d kids)
    (by rintro _ rfl; exact ⟨_, inv_empty⟩) fun s c ⟨_, hs⟩ hc => hs.step c hc
  exact ⟨kids, hk.isForest⟩

theorem dom_forest_paragraph :
    ∃ kids, IsForest (step (step .empty (.createElement ['p'])) (.setText 0)) kids := by
  refine dom_forest _ (.call (Call.setText 0)
    (.call (Call.createElement ['p']) (.start rfl) trivial) ?_)
  intro n hn
  rw [node?_eq hn]
  exact .inr rfl

/-- A text set on an element with a child leaves the child with a parent that does not list it. -/
theorem dom_forest_lost_child :
    ¬ ∀ d, Reach (· = Doc.empty) (fun _ (_ : Call) => True) step d → ∃ kids, IsForest d kids := by
  intro h
  set d := [Call.createElement ['p'], .createText, .appendChild 0 1, .setText 0].foldl step .empty
    with hd
  have hstart : Reach (· = Doc.empty) (fun _ (_ : Call) => True) step .empty := .start rfl
  obtain ⟨kids, hk⟩ := h d (hstart.calls _ (allowedFrom_true ..))
  have hused : d.Used 0 := by
    rw [Doc.Used]
    decide
  have hparent : d.parent 1 = some 0 := by decide
  have hlinks : d.child 0 = some 2 ∧ d.sibling 2 = none := by decide
  have hlist : IsChain d.sibling (d.child 0) [2] := hlinks
  have hmem := (hk.agree 0 1).2 hparent
  rw [(hk.chain 0 hused).unique hlist] at hmem
  exact absurd hmem (by decide)

end PeakOs.Dom
