import Mathlib.Order.CompletePartialOrder
import PeakOs.Vmm.PageMap

/-!
# Taking an address space down

`vmm_destroy_address_space` finds the frames it gives back by walking the tables it is clearing. As
long as the tables are a tree, clearing one entry does not disturb the walk below another, and what
is given back is exactly: the top table, and the frame of every present entry below it whose number
the allocator knows.

## Main results

* `foldl_freeSlot` — one table, given what happens below its entries
* `freePtLevel_spec` — a table of any level
* `mem_free_destroy` — the address space
-/

namespace PeakOs.Vmm

open List RadixTree

/-! ### What is visited and what is given back -/

/-- The tables that are cleared when table `t` of level `k` goes. -/
def Under (mem : Tables 512 Pte) : ℕ → ℕ → Set ℕ
  | 0, _ => ∅
  | k + 1, t => { u | u = t ∨ ∃ i, present (mem t i) = true ∧ u ∈ Under mem k (frameOf (mem t i)) }

/-- The frames that are given back when table `t` of level `k` is cleared. -/
def GivenBack (mem : Tables 512 Pte) : ℕ → ℕ → Set ℕ
  | 0, _ => ∅
  | k + 1, t => { p | ∃ i, present (mem t i) = true ∧
      (p ∈ GivenBack mem k (frameOf (mem t i)) ∨ p < Pmm.maxPages ∧ p = frameOf (mem t i)) }

variable {mem : Tables 512 Pte} {k t p : ℕ} {s : State}

theorem mem_under {u : ℕ} :
    u ∈ Under mem k t ↔ ∃ π : List (Fin 512), π.length < k ∧ node child mem t π = some u := by
  induction k generalizing t with
  | zero => simp [Under]
  | succ k ih =>
    constructor
    · rintro (rfl | ⟨i, hi, hu⟩)
      · exact ⟨[], Nat.succ_pos _, rfl⟩
      obtain ⟨π, hπ, hn⟩ := ih.1 hu
      refine ⟨i :: π, Nat.succ_lt_succ hπ, ?_⟩
      rwa [node, child_of_present hi]
    rintro ⟨_ | ⟨i, π⟩, hπ, hn⟩
    · exact .inl (Option.some.inj hn).symm
    rw [node, child] at hn
    split at hn
    next hi => exact .inr ⟨i, hi, ih.2 ⟨π, Nat.lt_of_succ_lt_succ hπ, hn⟩⟩
    · cases hn

theorem mem_givenBack :
    p ∈ GivenBack mem k t ↔ p < Pmm.maxPages ∧ ∃ (π : List (Fin 512)) (i : Fin 512) (e : Pte),
      π.length < k ∧ entry child mem t π i = some e ∧ present e = true ∧ frameOf e = p := by
  induction k generalizing t with
  | zero => simp [GivenBack]
  | succ k ih =>
    constructor
    · rintro ⟨i, hi, hp | ⟨hp, rfl⟩⟩
      · obtain ⟨hlt, π, j, e, hπ, he, hpres, hf⟩ := ih.1 hp
        refine ⟨hlt, i :: π, j, e, Nat.succ_lt_succ hπ, ?_, hpres, hf⟩
        rwa [entry, node, child_of_present hi]
      · exact ⟨hp, [], i, _, Nat.succ_pos _, rfl, hi, rfl⟩
    rintro ⟨hlt, _ | ⟨i, π⟩, j, e, hπ, he, hpres, hf⟩
    · obtain rfl := Option.some.inj he
      exact ⟨j, hpres, .inr ⟨hlt, hf.symm⟩⟩
    rw [entry, node, child] at he
    split at he
    next hi =>
      exact ⟨i, hi, .inl (ih.2 ⟨hlt, π, j, e, Nat.lt_of_succ_lt_succ hπ, he, hpres, hf⟩)⟩
    · cases he

section Congr

variable {mem mem' : Tables 512 Pte}

theorem under_congr {k t : ℕ} (h : ∀ u ∈ Under mem k t, mem' u = mem u) :
    Under mem' k t = Under mem k t := by
  induction k generalizing t with
  | zero => rfl
  | succ k ih =>
    have ht : mem' t = mem t := h t (.inl rfl)
    ext u
    simp only [Under, Set.mem_ofPred_eq, ht]
    refine or_congr_right (exists_congr fun i => and_congr_right fun hi => ?_)
    rw [ih fun w hw => h w (.inr ⟨i, hi, hw⟩)]

theorem givenBack_congr {k t : ℕ} (h : ∀ u ∈ Under mem k t, mem' u = mem u) :
    GivenBack mem' k t = GivenBack mem k t := by
  induction k generalizing t with
  | zero => rfl
  | succ k ih =>
    have ht : mem' t = mem t := h t (.inl rfl)
    ext p
    simp only [GivenBack, Set.mem_ofPred_eq, ht]
    refine exists_congr fun i => and_congr_right fun hi => ?_
    rw [ih fun w hw => h w (.inr ⟨i, hi, hw⟩)]

end Congr

/-- The tables below `t`, down to level `k`, are all different. -/
def Spread (mem : Tables 512 Pte) : ℕ → ℕ → Prop
  | 0, _ => True
  | k + 1, t =>
    (∀ i, present (mem t i) = true →
      Spread mem k (frameOf (mem t i)) ∧ t ∉ Under mem k (frameOf (mem t i))) ∧
    ∀ i j, i ≠ j → present (mem t i) = true → present (mem t j) = true →
      Disjoint (Under mem k (frameOf (mem t i))) (Under mem k (frameOf (mem t j)))

theorem spread_congr {mem' : Tables 512 Pte}
    (h : ∀ u ∈ Under mem k t, mem' u = mem u) (hs : Spread mem k t) : Spread mem' k t := by
  induction k generalizing t with
  | zero => trivial
  | succ k ih =>
    have ht : mem' t = mem t := h t (.inl rfl)
    have hunder : ∀ i, present (mem t i) = true →
        Under mem' k (frameOf (mem t i)) = Under mem k (frameOf (mem t i)) :=
      fun i hi => under_congr fun w hw => h w (.inr ⟨i, hi, hw⟩)
    rw [Spread, ht]
    refine ⟨fun i hi => ?_, fun i j hij hi hj => ?_⟩
    · obtain ⟨hsub, hnot⟩ := hs.1 i hi
      rw [hunder i hi]
      exact ⟨ih (fun w hw => h w (.inr ⟨i, hi, hw⟩)) hsub, hnot⟩
    · rw [hunder i hi, hunder j hj]
      exact hs.2 i j hij hi hj

/-- A tree is spread out. -/
theorem spread_of_inj (h : ∀ (π ρ : List (Fin 512)) u, π.length < k → ρ.length < k →
      node child mem t π = some u → node child mem t ρ = some u → π = ρ) : Spread mem k t := by
  induction k generalizing t with
  | zero => trivial
  | succ k ih =>
    have hcons : ∀ {i : Fin 512} {u}, present (mem t i) = true →
        u ∈ Under mem k (frameOf (mem t i)) →
        ∃ π : List (Fin 512), π.length < k ∧ node child mem t (i :: π) = some u := by
      intro i u hi hu
      obtain ⟨π, hπ, hn⟩ := mem_under.1 hu
      refine ⟨π, hπ, ?_⟩
      rwa [node, child_of_present hi]
    refine ⟨fun i hi => ⟨ih fun π ρ u hπ hρ hn hn' => ?_, fun hmem => ?_⟩,
      fun i j hij hi hj => Set.disjoint_left.2 fun u hu hu' => ?_⟩
    · have heq := h (i :: π) (i :: ρ) u (Nat.succ_lt_succ hπ) (Nat.succ_lt_succ hρ)
        (by rw [node, child_of_present hi]; exact hn) (by rw [node, child_of_present hi]; exact hn')
      exact (List.cons.inj heq).2
    · obtain ⟨π, hπ, hn⟩ := hcons hi hmem
      cases h (i :: π) [] t (Nat.succ_lt_succ hπ) (Nat.succ_pos _) hn rfl
    obtain ⟨π, hπ, hn⟩ := hcons hi hu
    obtain ⟨ρ, hρ, hn'⟩ := hcons hj hu'
    have heq := h (i :: π) (j :: ρ) u (Nat.succ_lt_succ hπ) (Nat.succ_lt_succ hρ) hn hn'
    exact hij (List.cons.inj heq).1

/-! ### Clearing tables -/

theorem mem_free_pmmFree {phys : BitVec 64} : p ∈ (pmmFree phys s).free ↔
      p ∈ s.free ∨ p < Pmm.maxPages ∧ p = phys.toNat / 4096 := by
  rw [pmmFree]
  split
  next hge =>
    refine ⟨.inl, ?_⟩
    rintro (h | ⟨hlt, rfl⟩)
    · exact h
    · exact absurd hlt (not_lt.2 hge)
  next hlt =>
    rw [Finset.mem_insert]
    constructor
    · rintro (rfl | h)
      · exact .inr ⟨Nat.lt_of_not_le hlt, rfl⟩
      · exact .inl h
    rintro (h | ⟨-, rfl⟩)
    · exact .inr h
    · exact .inl rfl

theorem mem_pmmFree (phys : BitVec 64) (s : State) : (pmmFree phys s).mem = s.mem := by
  rw [pmmFree]
  split <;> rfl

theorem masked_masked (a : BitVec 64) : a &&& addrMask &&& addrMask = a &&& addrMask := by
  rw [BitVec.and_assoc, BitVec.and_self]

theorem frameOf_masked (a : BitVec 64) : frameOf (a &&& addrMask) = frameOf a := by
  rw [frameOf, masked_masked, frameOf]

/-- What clearing a table leads to, entry by entry: `U i` are the tables below entry `i` and `G i`
the frames that come back from there. -/
structure Cleared (t : ℕ) (U G : Fin 512 → Set ℕ) (L : List (Fin 512)) (s s' : State) : Prop where
  free : ∀ p, p ∈ s'.free ↔ p ∈ s.free ∨ ∃ i ∈ L, present (s.mem t i) = true ∧
    (p ∈ G i ∨ p < Pmm.maxPages ∧ p = frameOf (s.mem t i))
  others : ∀ u, u ≠ t → (∀ i ∈ L, present (s.mem t i) = true → u ∉ U i) → s'.mem u = s.mem u
  rest : ∀ j, j ∉ L → s'.mem t j = s.mem t j

/-- **One table.** The entries are cleared one after the other, and none disturbs what is below the
others. -/
theorem foldl_freeSlot {below : ℕ → State → State} {U G : Fin 512 → Set ℕ}
    (L : List (Fin 512)) (hL : L.Nodup)
    (hbelow : ∀ i ∈ L, present (s.mem t i) = true → ∀ s' : State, (∀ u ∈ U i, s'.mem u = s.mem u) →
      (∀ p, p ∈ (below (frameOf (s.mem t i)) s').free ↔ p ∈ s'.free ∨ p ∈ G i) ∧
        ∀ u ∉ U i, (below (frameOf (s.mem t i)) s').mem u = s'.mem u)
    (ht : ∀ i ∈ L, present (s.mem t i) = true → t ∉ U i)
    (hdisj : ∀ i ∈ L, ∀ j ∈ L, i ≠ j → present (s.mem t i) = true → present (s.mem t j) = true →
      Disjoint (U i) (U j)) : Cleared t U G L s (L.foldl (freeSlot below t) s) := by
  induction L using reverseRecOn with
  | nil => exact ⟨by simp, fun _ _ _ => rfl, fun _ _ => rfl⟩
  | append_singleton L i ih =>
    have hsub : ∀ {j}, j ∈ L → j ∈ L ++ [i] := mem_append_left [i]
    have hi : i ∈ L ++ [i] := mem_append_right L (mem_singleton_self i)
    obtain ⟨hnodup, -, hnew⟩ := nodup_append.1 hL
    have hiL : i ∉ L := fun h => hnew i h i (mem_singleton_self i) rfl
    have hc := ih hnodup (fun j hj => hbelow j (hsub hj)) (fun j hj => ht j (hsub hj))
      fun j hj k hk => hdisj j (hsub hj) k (hsub hk)
    rw [foldl_append, foldl_cons, foldl_nil]
    generalize L.foldl (freeSlot below t) s = s₁ at hc
    have hentry : s₁.mem t i = s.mem t i := hc.rest i hiL
    have hex : ∀ Q : Fin 512 → Prop, (∃ j ∈ L ++ [i], Q j) ↔ (∃ j ∈ L, Q j) ∨ Q i := by
      intro Q
      simp
    rw [freeSlot, hentry]
    by_cases hp : present (s.mem t i) = true
    · rw [if_pos hp]
      dsimp only
      rw [frameOf_masked]
      have hagree : ∀ u ∈ U i, s₁.mem u = s.mem u := fun u hu =>
        hc.others u (fun heq => ht i hi hp (heq ▸ hu)) fun j hj hpj huj =>
          Set.disjoint_left.1 (hdisj i hi j (hsub hj) (fun heq => hiL (heq ▸ hj)) hp hpj) hu huj
      obtain ⟨hfree, hmem⟩ := hbelow i hi hp s₁ hagree
      refine ⟨fun p => ?_, fun u hut hu => ?_, fun j hj => ?_⟩
      · show p ∈ (pmmFree _ _).free ↔ _
        rw [mem_free_pmmFree, hfree, hc.free, hex]
        simp only [hp, true_and, or_assoc]
        rfl
      · show setEntry (pmmFree _ _).mem t i _ u = s.mem u
        rw [setEntry_of_table_ne _ _ _ hut, mem_pmmFree, hmem u (hu i hi hp)]
        exact hc.others u hut fun j hj => hu j (hsub hj)
      have hji : j ≠ i := fun heq => hj (heq ▸ hi)
      show setEntry (pmmFree _ _).mem t i _ t j = s.mem t j
      rw [setEntry_of_ne _ _ fun h => hji h.2, mem_pmmFree, hmem t (ht i hi hp)]
      exact hc.rest j fun h => hj (hsub h)
    rw [if_neg hp]
    refine ⟨fun p => ?_, fun u hut hu => hc.others u hut fun j hj => hu j (hsub hj),
      fun j hj => hc.rest j fun h => hj (hsub h)⟩
    rw [hc.free]
    simp [hp]

/-- **A table of level `k`.** -/
theorem freePtLevel_spec (k : ℕ) : ∀ {t : ℕ} {s : State}, Spread s.mem k t →
    (∀ p, p ∈ (freePtLevel k t s).free ↔ p ∈ s.free ∨ p ∈ GivenBack s.mem k t) ∧
      ∀ u ∉ Under s.mem k t, (freePtLevel k t s).mem u = s.mem u := by
  induction k with
  | zero => exact fun _ => ⟨fun p => by simp [freePtLevel, GivenBack], fun _ _ => rfl⟩
  | succ k ih =>
    intro t s hs
    have hc := @foldl_freeSlot t s (freePtLevel k) (fun i => Under s.mem k (frameOf (s.mem t i)))
      (fun i => GivenBack s.mem k (frameOf (s.mem t i))) (finRange 512)
      (nodup_finRange 512)
      (fun i _ hi s' hagree => by
        obtain ⟨hfree, hmem⟩ := ih (spread_congr hagree (hs.1 i hi).1)
        rw [givenBack_congr hagree] at hfree
        rw [under_congr hagree] at hmem
        exact ⟨hfree, hmem⟩)
      (fun i _ hi => (hs.1 i hi).2) (fun i _ j _ hij hi hj => hs.2 i j hij hi hj)
    refine ⟨fun p => ?_, fun u hu => ?_⟩
    · rw [freePtLevel, hc.free]
      simp only [mem_finRange, true_and]
      rfl
    · rw [freePtLevel]
      exact hc.others u (fun heq => hu (.inl heq)) fun i _ hi hui => hu (.inr ⟨i, hi, hui⟩)

/-! ### The address space -/

/-- Entry `i` of the table at `π`, in the user half, is that of frame `p`: a table or a page. -/
def Names (root : ℕ) (π : List (Fin 512)) (i : Fin 512) (p : ℕ) (s : State) : Prop :=
  π ∈ userRegion.paths ∧ (∀ j ∈ (π ++ [i]).head?, j.val < 256) ∧
    ∃ e, entry child s.mem root π i = some e ∧ present e = true ∧ frameOf e = p

def Holds (root p : ℕ) (s : State) : Prop := ∃ π i, Names root π i p s

theorem mem_userIndexes {i : Fin 512} : i ∈ userIndexes ↔ i.val < 256 := by
  simp [userIndexes]

theorem nodup_userIndexes : userIndexes.Nodup := (nodup_finRange 512).filter _

/-- **The whole space.** What comes back are the frames the user half names, as far as the allocator
knows them, and the top table. -/
theorem mem_free_destroy {root : ℕ} (h : IsTree child userRegion s.mem root)
    (hroot : 0 < root ∧ root < Pmm.maxPages) (hkernel : root ≠ s.kernelCr3) :
    p ∈ (vmmDestroyAddressSpace root s).free ↔
      p ∈ s.free ∨ p = root ∨ p < Pmm.maxPages ∧ Holds root p s := by
  have hcons : ∀ {i : Fin 512} {u} {π : List (Fin 512)}, i ∈ userIndexes →
      present (s.mem root i) = true → π.length < 3 →
      node child s.mem (frameOf (s.mem root i)) π = some u →
      i :: π ∈ userRegion.paths ∧ node child s.mem root (i :: π) = some u := by
    intro i u π hi hp hπ hn
    refine ⟨⟨hπ, ?_⟩, by rwa [node, child_of_present hp]⟩
    rintro j ⟨⟩
    exact mem_userIndexes.1 hi
  have hc := @foldl_freeSlot root s (freePtLevel 3)
    (fun i => Under s.mem 3 (frameOf (s.mem root i)))
    (fun i => GivenBack s.mem 3 (frameOf (s.mem root i))) userIndexes nodup_userIndexes
    (fun i hi hp s' hagree => by
      have hspread : Spread s.mem 3 (frameOf (s.mem root i)) := by
        refine spread_of_inj fun π ρ u hπ hρ hn hn' => ?_
        obtain ⟨hπ, hn⟩ := hcons hi hp hπ hn
        obtain ⟨hρ, hn'⟩ := hcons hi hp hρ hn'
        exact (List.cons.inj (h.inj hπ hρ hn hn')).2
      obtain ⟨hfree, hmem⟩ := freePtLevel_spec 3 (spread_congr hagree hspread)
      rw [givenBack_congr hagree] at hfree
      rw [under_congr hagree] at hmem
      exact ⟨hfree, hmem⟩)
    (fun i hi hp hu => by
      obtain ⟨π, hπ, hn⟩ := mem_under.1 hu
      obtain ⟨hπ, hn⟩ := hcons hi hp hπ hn
      cases h.inj hπ userRegion.nil_mem hn rfl)
    (fun i hi j hj hij hp hp' => Set.disjoint_left.2 fun u hu hu' => by
      obtain ⟨π, hπ, hn⟩ := mem_under.1 hu
      obtain ⟨ρ, hρ, hn'⟩ := mem_under.1 hu'
      obtain ⟨hπ, hn⟩ := hcons hi hp hπ hn
      obtain ⟨hρ, hn'⟩ := hcons hj hp' hρ hn'
      exact hij (List.cons.inj (h.inj hπ hρ hn hn')).1)
  have hnamed : (∃ i ∈ userIndexes, present (s.mem root i) = true ∧
      (p ∈ GivenBack s.mem 3 (frameOf (s.mem root i)) ∨
        p < Pmm.maxPages ∧ p = frameOf (s.mem root i))) ↔ p < Pmm.maxPages ∧ Holds root p s := by
    constructor
    · rintro ⟨i, hi, hp, hback | ⟨hlt, rfl⟩⟩
      · obtain ⟨hlt, π, j, e, hπ, he, hpres, hf⟩ := mem_givenBack.1 hback
        have hhead : ∀ k ∈ (i :: π).head?, k.val < 256 := by
          rintro k ⟨⟩
          exact mem_userIndexes.1 hi
        refine ⟨hlt, i :: π, j, ⟨hπ, hhead⟩, hhead, e, ?_, hpres, hf⟩
        rwa [entry, node, child_of_present hp]
      refine ⟨hlt, [], i, userRegion.nil_mem, ?_, _, rfl, hp, rfl⟩
      rintro j ⟨⟩
      exact mem_userIndexes.1 hi
    rintro ⟨hlt, _ | ⟨i, π⟩, j, hπ, hhead, e, he, hpres, hf⟩
    · obtain rfl := Option.some.inj he
      exact ⟨j, mem_userIndexes.2 (hhead j rfl), hpres, .inr ⟨hlt, hf.symm⟩⟩
    rw [entry, node, child] at he
    split at he
    next hp =>
      exact ⟨i, mem_userIndexes.2 (hπ.2 i rfl), hp,
        .inl (mem_givenBack.2 ⟨hlt, π, j, e, hπ.1, he, hpres, hf⟩)⟩
    · cases he
  have hback : p < Pmm.maxPages ∧ p = (physAddr root).toNat / 4096 ↔ p = root := by
    rw [toNat_physAddr hroot.2, Nat.mul_div_cancel _ (by decide)]
    exact ⟨And.right, fun heq => ⟨heq ▸ hroot.2, heq⟩⟩
  rw [vmmDestroyAddressSpace, if_neg (by rintro (h0 | h0); exacts [hroot.1.ne' h0, hkernel h0]),
    mem_free_pmmFree, hc.free, hnamed, hback, or_assoc]
  exact or_congr_right or_comm

end PeakOs.Vmm
