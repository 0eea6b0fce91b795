import Mathlib.Data.List.Nodup
import Mathlib.Logic.Relation

/-!
# Forests in first-child, next-sibling form

A node of such a forest has three links: to its parent, to its first child, and to the next child
of the same parent. The children of a node are then a singly linked list threaded through the
`sibling` links.

`IsChain next start l` says that following `next` from `start` visits exactly the list `l`, and
`Forest child sibling parent kids` that the links represent the ordered forest in which `kids d`
are the children of `d`. A forest in this sense may still have nodes outside every tree, or cycles
of parents; being below a root is the separate `Grown`.

## Main results

* `IsChain.firstOnChain_eq` — a bounded search along a chain is a search of the list
* `Forest.pushFront`, `Forest.removeHead`, `Forest.removeAfter` — the edits
* `Grown.move` — moving a subtree to a place outside it keeps everything below the root
* `Grown.reachable`, `Grown.acyclic` — a node below the root is reached by the links, and is not its
  own ancestor
-/

namespace PeakOs

open Function List

variable {ι : Type*}

/-! ### Chains -/

/-- Following `next` from `start` visits exactly the nodes of the list. -/
def IsChain (next : ι → Option ι) : Option ι → List ι → Prop
  | start, [] => start = none
  | start, i :: l => start = some i ∧ IsChain next (next i) l

/-- The first node on the chain with property `p`, looking at no more than `n` nodes. -/
def firstOnChain (next : ι → Option ι) (p : ι → Bool) : ℕ → Option ι → Option ι
  | 0, _ => none
  | _, none => none
  | n + 1, some i => if p i then some i else firstOnChain next p n (next i)

variable {next : ι → Option ι} {start : Option ι} {l l₁ l₂ : List ι} {i c n d r : ι}

/-- A chain starts with the first node of its list. -/
theorem IsChain.head (h : IsChain next start l) : start = l.head? := by
  cases l with
  | nil => exact h
  | cons i l => exact h.1

/-- There is one way to follow the links. -/
theorem IsChain.unique {l' : List ι} (h : IsChain next start l)
    (h' : IsChain next start l') : l = l' := by
  induction l generalizing start l' with
  | nil =>
    subst h
    cases l' with
    | nil => rfl
    | cons j l' => cases h'.1
  | cons i l ih =>
    obtain ⟨rfl, hl⟩ := h
    cases l' with
    | nil => cases h'
    | cons j l' =>
      obtain ⟨hj, hl'⟩ := h'
      injection hj with hj
      subst hj
      rw [ih hl hl']

theorem IsChain.firstOnChain_eq (p : ι → Bool)
    (h : IsChain next start l) {n : ℕ} (hn : l.length ≤ n) :
    firstOnChain next p n start = l.find? p := by
  induction l generalizing start n with
  | nil =>
    subst h
    cases n <;> rfl
  | cons i l ih =>
    obtain ⟨rfl, hl⟩ := h
    obtain ⟨m, rfl⟩ := Nat.exists_eq_add_of_le' (Nat.one_le_iff_ne_zero.2
      (by simp at hn; omega : n ≠ 0))
    rw [firstOnChain, find?_cons]
    cases p i with
    | true => rfl
    | false => exact ih hl (by simpa using hn)

theorem IsChain.congr {next' : ι → Option ι}
    (h : IsChain next start l) (heq : ∀ i ∈ l, next' i = next i) : IsChain next' start l := by
  induction l generalizing start with
  | nil => exact h
  | cons i l ih =>
    refine ⟨h.1, ?_⟩
    rw [heq i (mem_cons_self ..)]
    exact ih h.2 fun j hj => heq j (mem_cons_of_mem _ hj)

/-- The chain from a node in the middle. -/
theorem IsChain.suffix
    (h : IsChain next start (l₁ ++ i :: l₂)) : IsChain next (some i) (i :: l₂) := by
  induction l₁ generalizing start with
  | nil => exact ⟨rfl, h.2⟩
  | cons j l₁ ih => exact ih h.2

theorem IsChain.removeAfter [DecidableEq ι] (h : IsChain next start (l₁ ++ c :: n :: l₂))
    (hnd : (l₁ ++ c :: n :: l₂).Nodup) :
    IsChain (update next c (next n)) start (l₁ ++ c :: l₂) := by
  induction l₁ generalizing start with
  | nil =>
    obtain ⟨hs, -, hl⟩ := h
    have hc : c ∉ n :: l₂ := (nodup_cons.1 hnd).1
    refine ⟨hs, ?_⟩
    rw [update_self]
    refine hl.congr fun i hi => update_of_ne ?_ _ _
    rintro rfl
    exact hc (mem_cons_of_mem _ hi)
  | cons j l₁ ih =>
    have hnd' := nodup_cons.1 hnd
    have hj : j ≠ c := fun e => hnd'.1 (by simp [e])
    refine ⟨h.1, ?_⟩
    rw [update_of_ne hj]
    exact ih h.2 hnd'.2

/-- The predecessor of a node is found by searching for the node whose link points at it. -/
theorem IsChain.find_pred [DecidableEq ι] (h : IsChain next start (l₁ ++ c :: n :: l₂))
    (hnd : (l₁ ++ c :: n :: l₂).Nodup) :
    (l₁ ++ c :: n :: l₂).find? (fun x => decide (next x = some n)) = some c := by
  induction l₁ generalizing start with
  | nil =>
    have hc : next c = some n := h.2.1
    simp [hc]
  | cons j l₁ ih =>
    have hnd' := (nodup_cons.1 hnd).2
    have hj : next j ≠ some n := by
      rw [h.2.head]
      cases l₁ with
      | nil | cons k l₁ =>
        rintro ⟨⟩
        simp at hnd'
    rw [cons_append, find?_cons, decide_eq_false hj]
    exact ih h.2 hnd'

theorem IsChain.reflTransGen {a : ι} (h : IsChain next (some a) l) (hi : i ∈ l) :
    Relation.ReflTransGen (fun x y => next x = some y) a i := by
  induction l generalizing a with
  | nil => cases hi
  | cons j l ih =>
    obtain ⟨hj, hl⟩ := h
    injection hj with hj
    subst hj
    rcases mem_cons.1 hi with rfl | hi
    · exact .refl
    cases l with
    | nil => cases hi
    | cons b l => exact .head hl.1 (ih (hl.1 ▸ hl) hi)

/-- A chain is closed under `next`. -/
theorem IsChain.mem_of_next
    (h : IsChain next start l) {j : ι} (hi : i ∈ l) (hij : next i = some j) : j ∈ l := by
  obtain ⟨l₁, l₂, rfl⟩ := append_of_mem hi
  have hj := mem_of_head? (h.suffix.2.head.symm.trans hij)
  simp [hj]

/-! ### Forests -/

/-- The links represent the forest in which the children of `d` are `kids d`. -/
structure Forest (child sibling parent : ι → Option ι) (kids : ι → List ι) : Prop where
  chain : ∀ d, IsChain sibling (child d) (kids d)
  parent : ∀ d, ∀ c ∈ kids d, parent c = some d
  nodup : ∀ d, (kids d).Nodup

variable {child sibling parent : ι → Option ι} {kids : ι → List ι}

section

variable (h : Forest child sibling parent kids)
include h

theorem Forest.eq_of_mem {e : ι} (hd : c ∈ kids d) (he : c ∈ kids e) : d = e := by
  have := (h.parent d c hd).symm.trans (h.parent e c he)
  injection this

/-- What the links of a node on no child list are does not matter. -/
theorem Forest.congr {child' sibling' parent' : ι → Option ι}
    (hchild : ∀ d, child' d = child d)
    (hsibling : ∀ d, ∀ c ∈ kids d, sibling' c = sibling c)
    (hparent : ∀ d, ∀ c ∈ kids d, parent' c = parent c) : Forest child' sibling' parent' kids where
  chain := fun d => hchild d ▸ (h.chain d).congr (hsibling d)
  parent := fun d c hc => (hparent d c hc).trans (h.parent d c hc)
  nodup := h.nodup

/-- The children of a node, read off the links. -/
theorem Forest.mem_kids_iff : c ∈ kids d ↔
      ∃ a, child d = some a ∧ Relation.ReflTransGen (fun x y => sibling x = some y) a c := by
  have hch := h.chain d
  constructor
  · intro hc
    have ha := hch.head.trans (head?_eq_some_head (ne_nil_of_mem hc))
    exact ⟨_, ha, (ha ▸ hch).reflTransGen hc⟩
  rintro ⟨a, ha, hac⟩
  induction hac with
  | refl => exact mem_of_head? (hch.head.symm.trans ha)
  | tail _ hnext ih => exact (h.chain d).mem_of_next ih hnext

end

section Edits

variable [DecidableEq ι]

theorem update_sublist {p : ι} (hl : l.Sublist (kids p)) (d : ι) :
    (update kids p l d).Sublist (kids d) := by
  rw [update_apply]
  split
  next hd => exact hd ▸ hl
  · exact .refl _

section

variable (h : Forest child sibling parent kids)
include h

/-- A node that was on no child list is put on that of `p`. -/
theorem Forest.of_perm {child' sibling' : ι → Option ι} {p c : ι} (hc : ∀ d, c ∉ kids d)
    (hl : l.Perm (c :: kids p)) (hchain : ∀ d, IsChain sibling' (child' d) (update kids p l d)) :
    Forest child' sibling' (update parent c (some p)) (update kids p l) where
  chain := hchain
  parent := fun d x hx => by
    have hold : x ∈ kids d → update parent c (some p) x = some d := fun hx => by
      rw [update_of_ne (show x ≠ c from fun e => hc d (e ▸ hx))]
      exact h.parent d x hx
    rw [update_apply] at hx
    split at hx
    next hd =>
      subst hd
      rcases mem_cons.1 (hl.mem_iff.1 hx) with rfl | hx
      · rw [update_self]
      · exact hold hx
    · exact hold hx
  nodup := fun d => by
    rw [update_apply]
    split
    next hd => exact hl.nodup_iff.2 (nodup_cons.2 ⟨hc p, h.nodup p⟩)
    · exact h.nodup d

theorem Forest.pushFront {p c : ι} (hc : ∀ d, c ∉ kids d) :
    Forest (update child p (some c)) (update sibling c (child p))
      (update parent c (some p)) (update kids p (c :: kids p)) := by
  refine h.of_perm hc (.refl _) fun d => ?_
  have hold : IsChain (update sibling c (child p)) (child d) (kids d) :=
    (h.chain d).congr fun i hi => update_of_ne (show i ≠ c from fun e => hc d (e ▸ hi)) ..
  by_cases hd : d = p
  · subst hd
    rw [update_self, update_self]
    refine ⟨rfl, ?_⟩
    rw [update_self]
    exact hold
  · rw [update_of_ne hd, update_of_ne hd]
    exact hold

/-- Both removals change the child list of one node to a sublist. -/
theorem Forest.of_sublist {child' sibling' : ι → Option ι}
    {p : ι} {l : List ι} (hl : l.Sublist (kids p)) (hp : IsChain sibling' (child' p) l)
    (hother : ∀ d, d ≠ p → IsChain sibling' (child' d) (kids d)) :
    Forest child' sibling' parent (update kids p l) where
  chain := (forall_update_iff kids fun d l => IsChain sibling' (child' d) l).2 ⟨hp, hother⟩
  parent := fun d x hx => h.parent d x ((update_sublist hl d).subset hx)
  nodup := fun d => (h.nodup d).sublist (update_sublist hl d)

theorem Forest.removeHead {p n : ι} {l : List ι} (hk : kids p = n :: l) :
    Forest (update child p (sibling n)) sibling parent (update kids p l) := by
  refine h.of_sublist (by rw [hk]; exact sublist_cons_self ..) ?_ fun d hd => ?_
  · have := h.chain p
    rw [hk] at this
    rw [update_self]
    exact this.2
  · rw [update_of_ne hd]
    exact h.chain d

theorem Forest.removeAfter {p c n : ι} {l₁ l₂ : List ι} (hk : kids p = l₁ ++ c :: n :: l₂) :
    Forest child (update sibling c (sibling n)) parent
      (update kids p (l₁ ++ c :: l₂)) := by
  refine h.of_sublist ?_ ?_ fun d hd => ?_
  · rw [hk]
    exact (List.Sublist.refl _).append ((sublist_cons_self n l₂).cons_cons c)
  · have := h.chain p
    rw [hk] at this
    exact this.removeAfter (hk ▸ h.nodup p)
  · refine (h.chain d).congr fun i hi => update_of_ne (fun e => hd ?_) ..
    exact h.eq_of_mem (e ▸ hi) (by rw [hk]; simp)

/-- The child lists without `n`, whose parent is `p`. -/
theorem Forest.mem_erase {p n : ι} (hn : n ∈ kids p)
    {d x : ι} : x ∈ update kids p ((kids p).erase n) d ↔ x ∈ kids d ∧ x ≠ n := by
  by_cases hd : d = p
  · subst hd
    rw [update_self, (h.nodup d).mem_erase_iff, and_comm]
  · rw [update_of_ne hd]
    exact ⟨fun hx => ⟨hx, fun e => hd (h.eq_of_mem (e ▸ hx) hn)⟩, And.left⟩

end

theorem erase_sublist_kids (kids : ι → List ι) (p n d : ι) :
    (update kids p ((kids p).erase n) d).Sublist (kids d) :=
  update_sublist erase_sublist d

theorem mem_pushFront {kids : ι → List ι} {p n d x : ι} :
    x ∈ update kids p (n :: kids p) d ↔ d = p ∧ x = n ∨ x ∈ kids d := by
  by_cases hd : d = p
  · subst hd
    simp
  · simp [hd]

end Edits

/-! ### Trees -/

/-- The nodes of the tree below `r`. -/
inductive Grown (kids : ι → List ι) (r : ι) : ι → Prop
  | root : Grown kids r r
  | kid {d c : ι} : Grown kids r d → c ∈ kids d → Grown kids r c

variable {kids' : ι → List ι}

theorem Grown.mono (hle : ∀ d, kids d ⊆ kids' d) (h : Grown kids r i) : Grown kids' r i := by
  induction h with
  | root => exact .root
  | kid _ hc ih => exact .kid ih (hle _ hc)

/-- Removing a leaf. -/
theorem Grown.remove (hn : kids n = [])
    (hkeep : ∀ d, ∀ c ∈ kids d, c ≠ n → c ∈ kids' d) (h : Grown kids r i) (hi : i ≠ n) :
    Grown kids' r i := by
  induction h with
  | root => exact .root
  | @kid d c _ hc ih =>
    have hd : d ≠ n := by
      rintro rfl
      rw [hn] at hc
      cases hc
    exact .kid (ih hd) (hkeep d c hc hi)

/-- Moving the tree below `n` to a node outside it. -/
theorem Grown.move {dir : ι} (hdir : Grown kids r dir)
    (hout : ¬ Grown kids n dir) (hkeep : ∀ d, ∀ c ∈ kids d, c ≠ n → c ∈ kids' d)
    (hn : n ∈ kids' dir) (h : Grown kids r i) : Grown kids' r i := by
  have houter : ∀ {j}, Grown kids r j → ¬ Grown kids n j → Grown kids' r j := by
    intro j hj
    induction hj with
    | root => exact fun _ => .root
    | @kid d c _ hc ih =>
      intro hnot
      have hne : c ≠ n := fun e => hnot (e ▸ .root)
      exact .kid (ih fun hd => hnot (.kid hd hc)) (hkeep d c hc hne)
  have hn' : Grown kids' r n := .kid (houter hdir hout) hn
  have hinner : ∀ {j}, Grown kids n j → Grown kids' r j := by
    intro j hj
    induction hj with
    | root => exact hn'
    | @kid d c _ hc ih =>
      by_cases hne : c = n
      · exact hne ▸ hn'
      · exact .kid ih (hkeep d c hc hne)
  by_cases hin : Grown kids n i
  · exact hinner hin
  · exact houter h hin

section

variable (hf : Forest child sibling parent kids)
include hf

/-- Descendants have the root among their ancestors. -/
theorem Grown.ancestor (h : Grown kids r i) :
    Relation.ReflTransGen (fun a b => parent b = some a) r i := by
  induction h with
  | root => exact .refl
  | kid _ hc ih => exact ih.tail (hf.parent _ _ hc)

theorem Grown.reachable (h : Grown kids r i) :
    Relation.ReflTransGen (fun a b => child a = some b ∨ sibling a = some b) r i := by
  induction h with
  | root => exact .refl
  | kid _ hc ih =>
    obtain ⟨a, ha, hac⟩ := hf.mem_kids_iff.1 hc
    exact (ih.tail (.inl ha)).trans (hac.lift id fun _ _ hnext => .inr hnext)

theorem Grown.acyclic (hr : parent r = none)
    (h : Grown kids r i) : ¬ Relation.TransGen (fun a b => parent b = some a) i i := by
  induction h with
  | root =>
    intro hcyc
    obtain ⟨b, -, hb⟩ := Relation.TransGen.tail'_iff.1 hcyc
    rw [hr] at hb
    cases hb
  | @kid d c _ hc ih =>
    -- a cycle through `c` goes through its only parent `d`
    intro hcyc
    obtain ⟨b, hcb, hb⟩ := Relation.TransGen.tail'_iff.1 hcyc
    rw [hf.parent d c hc] at hb
    injection hb with hb
    subst hb
    exact ih (Relation.TransGen.head' (hf.parent d c hc) hcb)

end

end PeakOs
