import PeakOs.Lib.PartialMap
import PeakOs.Lib.SiblingForest
import Mathlib.Data.List.Perm.Subperm
import Mathlib.Data.List.Range

/-!
# Forests with any number of roots

An `Orchard` is a forest in first-child, next-sibling form in which every node with a parent is on
the parent's child list, a node without parent has no sibling, and climbing from any node ends.
Being without cycles is that last condition, which the edits keep by giving the new climb.

## Main results

* `Orchard.detach`, `Orchard.attach` — take a node off its child list, and put it at the end of
  another one that is not below it
* `Orchard.prune` — the trees below a node are dropped as a whole
* `Orchard.acyclic` — no node is its own ancestor
-/

namespace PeakOs

open Function List

variable {ι : Type*} {next : ι → Option ι}

/-! ### Chains that end -/

variable {start : Option ι} {l : List ι} {b c a d x p : ι}

/-- A chain that ends does not meet a node twice: it would go round. -/
theorem IsChain.nodup (h : IsChain next start l) : l.Nodup := by
  induction l generalizing start with
  | nil => exact nodup_nil
  | cons i l ih =>
    refine nodup_cons.2 ⟨fun hi => ?_, ih h.2⟩
    obtain ⟨l₁, l₂, rfl⟩ := append_of_mem hi
    have hlen := congrArg length ((h.1 ▸ h.2.suffix).unique h)
    simp only [length_cons, length_append] at hlen
    omega

theorem IsChain.snoc [DecidableEq ι]
    (h : IsChain next start (l ++ [b])) (hc : c ∉ l ++ [b]) (hend : next c = none) :
    IsChain (update next b (some c)) start (l ++ [b, c]) := by
  induction l generalizing start with
  | nil =>
    have hcb : c ≠ b := fun e => hc (by simp [e])
    refine ⟨h.1, ?_, ?_⟩
    · rw [update_self]
    · rw [update_of_ne hcb, hend]
      rfl
  | cons j l ih =>
    have hj : j ≠ b := by
      rintro rfl
      have hnd := h.nodup
      simp at hnd
    refine ⟨h.1, ?_⟩
    rw [update_of_ne hj]
    exact ih h.2 fun hm => hc (mem_cons_of_mem _ hm)

/-- The last node of a chain is found as the first one without a link. -/
theorem IsChain.find_end {p : ι → Bool}
    (h : IsChain next start (l ++ [b])) (hp : ∀ i ∈ l ++ [b], p i = true ↔ next i = none) :
    (l ++ [b]).find? p = some b := by
  induction l generalizing start with
  | nil =>
    have hb : p b = true := (hp b (by simp)).2 h.2
    simp [hb]
  | cons j l ih =>
    have hj : p j = false := by
      refine Bool.eq_false_iff.2 fun hpj => ?_
      have hend := h.2.head.symm.trans ((hp j (by simp)).1 hpj)
      simp at hend
    rw [cons_append, find?_cons, hj]
    exact ih h.2 fun i hi => hp i (mem_cons_of_mem _ hi)

/-- Redirecting one node: a chain that ended still ends when the new way does. -/
theorem IsChain.redirect [DecidableEq ι] {dest : Option ι} {lt : List ι}
    (h : IsChain next start l) (ht : IsChain next dest lt) (hc : c ∉ lt) :
    ∃ l', IsChain (update next c dest) start l' := by
  have hdest : IsChain (update next c dest) dest lt :=
    ht.congr fun i hi => update_of_ne (show i ≠ c from fun e => hc (e ▸ hi)) ..
  induction l generalizing start with
  | nil => exact ⟨[], h⟩
  | cons j l ih =>
    by_cases hj : j = c
    · refine ⟨j :: lt, h.1, ?_⟩
      rwa [hj, update_self]
    obtain ⟨l', hl'⟩ := ih h.2
    refine ⟨j :: l', h.1, ?_⟩
    rwa [update_of_ne hj]

/-- A set that a chain never leaves has no chain that ends. -/
theorem IsChain.not_mem_of_closed {S : ι → Prop} (hS : ∀ i, S i → ∃ j, next i = some j ∧ S j)
    (h : IsChain next (some a) l) : ¬ S a := by
  induction l generalizing a with
  | nil => cases h
  | cons i l ih =>
    intro ha
    obtain ⟨hi, hl⟩ := h
    injection hi with hi
    subst hi
    obtain ⟨j, hj, hSj⟩ := hS a ha
    exact ih (hj ▸ hl) hSj

theorem IsChain.length_le {next : ℕ → Option ℕ} {start : Option ℕ} {l : List ℕ} {n : ℕ}
    (h : IsChain next start l) (hlt : ∀ i ∈ l, i < n) : l.length ≤ n := by
  have hsub : l ⊆ range n := fun i hi => mem_range.2 (hlt i hi)
  simpa using (subperm_of_subset h.nodup hsub).length_le

/-! ### Orchards -/

structure Orchard (child sibling parent : ι → Option ι) (kids : ι → List ι) : Prop
    where
  forest : Forest child sibling parent kids
  mem : ∀ {c d}, parent c = some d → c ∈ kids d
  orphan : ∀ {c}, parent c = none → sibling c = none
  up : ∀ i, ∃ l, IsChain parent (some i) l

variable {child sibling parent : ι → Option ι} {kids : ι → List ι}

section

variable (h : Orchard child sibling parent kids)
include h

theorem Orchard.mem_iff : c ∈ kids d ↔ parent c = some d :=
  ⟨h.forest.parent d c, h.mem⟩

theorem Orchard.acyclic (i : ι) : ¬ Relation.TransGen (fun a b => parent b = some a) i i := by
  intro hcyc
  obtain ⟨l, hl⟩ := h.up i
  -- every node between `i` and itself has a parent that is there too
  refine hl.not_mem_of_closed (fun j hj => ?_) hcyc
  obtain ⟨b, hb, hbj⟩ := Relation.TransGen.tail'_iff.1 hj
  refine ⟨b, hbj, ?_⟩
  rcases Relation.reflTransGen_iff_eq_or_transGen.1 hb with rfl | hb
  · exact hcyc
  · exact hb

/-- Brothers have one parent. -/
theorem Orchard.parent_sibling {y : ι} (hxy : sibling x = some y) : parent y = parent x := by
  cases hp : parent x with
  | none =>
    rw [h.orphan hp] at hxy
    cases hxy
  | some d => exact h.mem_iff.1 ((h.forest.chain d).mem_of_next (h.mem hp) hxy)

theorem Orchard.parent_child (ha : child d = some a) : parent a = some d :=
  h.mem_iff.1 (h.forest.mem_kids_iff.2 ⟨a, ha, .refl⟩)

end

section Edits

variable [DecidableEq ι]

/-- The node `c` is off its child list and has no links to its old place. -/
theorem Orchard.detach (h : Orchard child sibling parent kids) {q c : ι} (hc : parent c = some q)
    {child' sibling' : ι → Option ι}
    (hf : Forest child' sibling' parent (update kids q ((kids q).erase c)))
    (hs : ∀ x, parent x = none → sibling' x = sibling x) :
    Orchard child' (update sibling' c none) (update parent c none)
      (update kids q ((kids q).erase c)) := by
  have hmem : ∀ {d x}, x ∈ update kids q ((kids q).erase c) d → x ≠ c :=
    fun hx => (h.forest.mem_erase (h.mem hc)).1 hx |>.2
  refine ⟨hf.congr (fun _ => rfl) (fun d x hx => ?_) fun d x hx => ?_, ?_, ?_, fun i => ?_⟩
  · exact update_of_ne (hmem hx) ..
  · exact update_of_ne (hmem hx) ..
  · intro x d hx
    obtain ⟨hne, hx⟩ := of_update_none hx
    exact (h.forest.mem_erase (h.mem hc)).2 ⟨h.mem hx, hne⟩
  · intro x hx
    by_cases hne : x = c
    · rw [hne, update_self]
    · rw [update_of_ne hne] at hx ⊢
      rw [hs x hx, h.orphan hx]
  obtain ⟨l, hl⟩ := h.up i
  have hend : IsChain parent none [] := rfl
  exact hl.redirect hend not_mem_nil

/-- The parentless node `c` becomes the last child of `p`, which is not below it. -/
theorem Orchard.attach (h : Orchard child sibling parent kids) {p c : ι} (hc : parent c = none)
    {lp : List ι} (hlp : IsChain parent (some p) lp) (hcp : c ∉ lp)
    {child' sibling' : ι → Option ι}
    (hf : Forest child' sibling' (update parent c (some p))
      (update kids p (kids p ++ [c])))
    (hs : ∀ x, x ≠ c → parent x = none → sibling' x = sibling x) :
    Orchard child' sibling' (update parent c (some p))
      (update kids p (kids p ++ [c])) := by
  refine ⟨hf, ?_, ?_, fun i => ?_⟩
  · intro x d hx
    rcases of_update_some hx with ⟨rfl, rfl⟩ | ⟨-, hx⟩
    · simp
    have hk := h.mem hx
    rw [update_apply]
    split
    next hd => exact mem_append_left _ (hd ▸ hk)
    · exact hk
  · intro x hx
    obtain ⟨hne, hx⟩ := of_update_ne (by simp) hx
    rw [hs x hne hx, h.orphan hx]
  · obtain ⟨l, hl⟩ := h.up i
    exact hl.redirect hlp hcp

theorem Forest.pushBack (h : Forest child sibling parent kids) {p b c : ι} {l : List ι}
    (hk : kids p = l ++ [b]) (hc : ∀ d, c ∉ kids d) (hend : sibling c = none) :
    Forest child (update sibling b (some c)) (update parent c (some p))
      (update kids p (kids p ++ [c])) := by
  refine h.of_perm hc (perm_append_singleton c _) fun d => ?_
  by_cases hd : d = p
  · subst hd
    have hch := h.chain d
    rw [hk] at hch
    rw [update_self, hk, append_assoc]
    exact hch.snoc (hk ▸ hc d) hend
  rw [update_of_ne hd]
  refine (h.chain d).congr fun i hi => update_of_ne (fun e => hd ?_) ..
  exact h.eq_of_mem (e ▸ hi) (by simp [hk])

end Edits

/-! ### Dropping the trees below a node -/

/-- The nodes that the links lead to from the first child of `p`. -/
def Below (child sibling : ι → Option ι) (p x : ι) : Prop :=
  ∃ a, child p = some a ∧
    Relation.ReflTransGen (fun i j => child i = some j ∨ sibling i = some j) a x

section

variable (h : Orchard child sibling parent kids)
include h

theorem Orchard.below_kid
    (hd : d = p ∨ Below child sibling p d) (hx : x ∈ kids d) : Below child sibling p x := by
  obtain ⟨a, ha, hax⟩ := h.forest.mem_kids_iff.1 hx
  have hax : Relation.ReflTransGen (fun i j => child i = some j ∨ sibling i = some j) a x :=
    Relation.ReflTransGen.mono (fun _ _ hij => .inr hij) _ _ hax
  rcases hd with rfl | ⟨b, hb, hbd⟩
  · exact ⟨a, ha, hax⟩
  · exact ⟨b, hb, (hbd.tail (.inl ha)).trans hax⟩

/-- A node below `p` has its parent there, or `p` itself. -/
theorem Orchard.parent_below (hx : Below child sibling p x) :
    ∃ d, parent x = some d ∧ (d = p ∨ Below child sibling p d) := by
  obtain ⟨a, ha, hax⟩ := hx
  induction hax with
  | refl => exact ⟨p, h.parent_child ha, .inl rfl⟩
  | @tail y x hay hyx ih =>
    rcases hyx with hyx | hyx
    · exact ⟨y, h.parent_child hyx, .inr ⟨a, ha, hay⟩⟩
    · rwa [h.parent_sibling hyx]

theorem Orchard.not_below_self (p : ι) : ¬ Below child sibling p p := by
  intro hp
  obtain ⟨l, hl⟩ := h.up p
  refine hl.not_mem_of_closed (fun i hi => ?_) hp
  obtain ⟨d, hd, hdp⟩ := h.parent_below hi
  refine ⟨d, hd, ?_⟩
  rcases hdp with rfl | hdp
  · exact hp
  · exact hdp

open Classical in
/-- The trees below `p` are dropped: their nodes have no links, and `p` has no children. -/
theorem Orchard.prune
    {child' sibling' parent' : ι → Option ι} (hdead : ∀ x, Below child sibling p x →
      child' x = none ∧ sibling' x = none ∧ parent' x = none)
    (hp : child' p = none) (hchild : ∀ x, ¬ Below child sibling p x → x ≠ p → child' x = child x)
    (hother : ∀ x, ¬ Below child sibling p x → sibling' x = sibling x ∧ parent' x = parent x) :
    Orchard child' sibling' parent'
      fun d => if d = p ∨ Below child sibling p d then [] else kids d := by
  -- a child of a node that stays, stays
  have hstay : ∀ {d x}, ¬ (d = p ∨ Below child sibling p d) → x ∈ kids d →
      ¬ Below child sibling p x := by
    intro d x hd hx hb
    obtain ⟨e, he, hep⟩ := h.parent_below hb
    rw [h.mem_iff.1 hx] at he
    injection he with he
    exact hd (he ▸ hep)
  refine ⟨⟨fun d => ?_, fun d x hx => ?_, fun d => ?_⟩, ?_, ?_, fun i => ?_⟩
  · by_cases hd : d = p ∨ Below child sibling p d
    · rw [if_pos hd]
      rcases hd with rfl | hd
      · exact hp
      · exact (hdead d hd).1
    · rw [if_neg hd, hchild d (fun e => hd (.inr e)) fun e => hd (.inl e)]
      exact (h.forest.chain d).congr fun x hx => (hother x (hstay hd hx)).1
  · by_cases hd : d = p ∨ Below child sibling p d
    · rw [if_pos hd] at hx
      cases hx
    rw [if_neg hd] at hx
    rw [(hother x (hstay hd hx)).2]
    exact h.mem_iff.1 hx
  · split
    · exact nodup_nil
    · exact h.forest.nodup d
  · intro x d hx
    by_cases hb : Below child sibling p x
    · rw [(hdead x hb).2.2] at hx
      cases hx
    rw [(hother x hb).2] at hx
    have hk := h.mem hx
    rw [if_neg fun hd => hb (h.below_kid hd hk)]
    exact hk
  · intro x hx
    by_cases hb : Below child sibling p x
    · exact (hdead x hb).2.1
    · rw [(hother x hb).2] at hx
      rw [(hother x hb).1, h.orphan hx]
  obtain ⟨l, hl⟩ := h.up i
  by_cases hb : Below child sibling p i
  · refine ⟨[i], rfl, ?_⟩
    rw [(hdead i hb).2.2]
    rfl
  -- no ancestor of a node that stays is dropped
  refine ⟨l, hl.congr fun x hx => (hother x fun hbx => ?_).2⟩
  have hix := hl.reflTransGen hx
  refine hb ?_
  clear hl hx hb
  induction hix using Relation.ReflTransGen.head_induction_on with
  | refl => exact hbx
  | head hay _ ih => exact h.below_kid (.inr ih) (h.mem hay)

end

end PeakOs
