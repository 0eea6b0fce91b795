import PeakOs.Vmm.Isolation
import PeakOs.Vmm.Teardown

/-!
# Which frames come back

An address space is created, pages are mapped in it, each in a frame of its own, and in the end it
is destroyed. The question is whether the allocator then has all its frames again. `Back` is what it
would have if the space were destroyed now. A table moves a frame from the free set into the tables
and changes nothing in `Back`; a mapping moves a frame likewise, except that

* the entry of a page that may not be executed has bit 63 set, `vmm_destroy_address_space` takes
  that for a part of the address, and the allocator ignores it;
* a mapping of a page that is mapped already overwrites the only record of the old frame;
* `exec_elf` forgets the frame of a page if there is no frame for one of its tables.

Each of the three loses a frame for good. The stack that `exec_elf` maps may not be executed, so a
program that is entered loses at least these sixteen frames.

## Main results

* `mapFresh_back`, `loadPage_back` — one step
* `frames_return_iff` — runs of mappings, and every outcome of `exec_elf`
* `stack_leaks` — a writable page
* `entered_leaks` — every program that is entered
-/

namespace PeakOs.Vmm

open Finset Option RadixTree

/-- `pmm_free_pages`. -/
def pmmFreePages (s : State) : ℕ := s.free.card

/-! ### The runs -/

/-- A page to be mapped: where, how, with what contents, and what the allocator answers. -/
structure Request where
  policy : Policy
  vaddr : ℕ
  flags : Flags
  row : Fin 512 → Pte

/-- Map a fresh frame. A frame that could not be mapped is still its owner's, who gives it back. -/
def mapFresh (root : ℕ) (s : State) (r : Request) : State :=
  match pmmAlloc r.policy s with
  | (none, s) => s
  | (some pg, s) =>
    match vmmMapPageFlags r.policy root r.vaddr (physAddr pg) r.flags (s.writeRow pg r.row) with
    | (true, s) => s
    | (false, s) => pmmFree (physAddr pg) s

/-- `vmm_map_page_flags` maps the page: it does not refuse it, and there is a frame for every table
that is missing. -/
def Mappable (policy : Policy) (root vaddr : ℕ) (flags : Flags) (s : State) : Prop :=
  rejects vaddr flags = false ∧ (ptWalkAlloc root vaddr (some policy) s).1 ≠ none

/-- If the request is served, the page is executable and was not mapped. -/
def Request.Clean (root : ℕ) (s : State) (r : Request) : Prop :=
  ∀ pg ∈ (pmmAlloc r.policy s).1, Mappable r.policy root r.vaddr r.flags (s.take pg r.row) →
    isExec r.flags = true ∧ leaf root r.vaddr s = none

/-- If there is a frame for the page, it is mapped, executable, and the page was not mapped. -/
def LoadStep.Clean (policy : Policy) (root : ℕ) (s : State) : LoadStep → Prop
  | .check _ => True
  | .page vaddr flags row => ∀ pg ∈ (pmmAlloc policy s).1,
      Mappable policy root vaddr flags (s.take pg row) ∧ isExec flags = true ∧
        leaf root vaddr s = none

/-- Every step that the loader gets to is clean. -/
def CleanLoad (policy : Policy) (root : ℕ) : List LoadStep → State → Prop
  | [], _ => True
  | .check valid :: steps, s => valid = true → CleanLoad policy root steps s
  | .page vaddr flags row :: steps, s =>
    LoadStep.Clean policy root s (.page vaddr flags row) ∧
      ((loadPage policy root vaddr flags row s).1 = true →
        CleanLoad policy root steps (loadPage policy root vaddr flags row s).2)

/-- The program is loaded, and if it is entered it ends some time. -/
def afterExec (policy : Policy) (file : List UInt8) (slide : Option (BitVec 16)) (s : State) :
    State :=
  match execElf policy file slide s with
  | (.error _, s) => s
  | (.entered root _ _, s) => vmmDestroyAddressSpace root s

/-- The state before the space is created. -/
structure Idle (s : State) : Prop where
  pages : ∀ p ∈ s.free, 0 < p ∧ p < Pmm.maxPages
  nxEnabled : s.nxEnabled = true
  kernel : s.kernelCr3 ∉ s.free

/-! ### Frames of entries -/

theorem physAddr_masked (p : ℕ) : physAddr p &&& addrMask = physAddr p := by
  have h := @physAddr_or_masked 0#64 p (BitVec.zero_and ..)
  rwa [BitVec.or_zero] at h

theorem frameOf_leafEntry_exec (nx : Bool) {pg : ℕ} (hpg : pg < Pmm.maxPages) {flags : Flags}
    (hx : isExec flags = true) : frameOf (leafEntry nx (physAddr pg) flags) = pg := by
  have hmask : flagsToPte nx flags &&& addrMask = 0#64 := by
    refine BitVec.eq_of_getLsbD_eq fun i hi => ?_
    rw [getLsbD_masked _ hi, getLsbD_flagsToPte, hx]
    by_cases h12 : 12 ≤ i
    · simp [h12]
      omega
    · simp [h12]
  rw [leafEntry, physAddr_masked, frameOf_physAddr_or hpg hmask]

/-- With bit 63 set the frame is none of the allocator's. -/
theorem maxPages_le_frameOf {e : Pte} (h : noExec e = true) : Pmm.maxPages ≤ frameOf e := by
  have hbit : (e &&& addrMask).getLsbD 63 = true := by
    rw [getLsbD_masked _ (by decide), ← noExec, h]
    rfl
  have hle : 2 ^ 63 ≤ (e &&& addrMask).toNat := Nat.ge_two_pow_of_testBit hbit
  rw [frameOf]
  have hmax : Pmm.maxPages = 4096 * 1024 := rfl
  omega

/-! ### The invariant -/

/-- What the allocator has once the space is destroyed. -/
def Back (root : ℕ) (s : State) (p : ℕ) : Prop :=
  p ∈ s.free ∨ p = root ∨ p < Pmm.maxPages ∧ Holds root p s

structure Kept (root : ℕ) (s : State) : Prop where
  sound : Sound userRegion root s
  nxEnabled : s.nxEnabled = true
  root_pos : 0 < root ∧ root < Pmm.maxPages
  kernel : root ≠ s.kernelCr3
  /-- No entry is that of a free frame or of the top table. -/
  apart : ∀ p, Holds root p s → p ∉ s.free ∧ p ≠ root
  /-- No two entries are those of one frame. -/
  uniq : ∀ {π π' i i' p}, p < Pmm.maxPages → Names root π i p s → Names root π' i' p s →
    π = π' ∧ i = i'

section Kept

variable {root : ℕ} {s s' : State}

variable {p t q pg v : ℕ} {π : List (Fin 512)} {i : Fin 512} {flags : Flags}

section

variable (h : Kept root s)
include h

theorem Kept.root_notMem : root ∉ s.free :=
  fun hmem => h.sound.fresh root hmem ⟨[], userRegion.nil_mem, rfl⟩

theorem mem_free_destroy_iff : p ∈ (vmmDestroyAddressSpace root s).free ↔ Back root s p :=
  mem_free_destroy h.sound.tree h.root_pos h.kernel

/-! ### A fresh table -/

theorem names_grow {π₀ : List (Fin 512)} {i₀ i4 : Fin 512}
    (hp : p ∈ s.free) (hpath : π₀ ++ [i₀] ∈ userRegion.paths)
    (ht : node child s.mem root π₀ = some t) (hempty : present (s.mem t i₀) = false) :
    Names root π i q (s.addTable t i₀ p (tableFlags i4)) ↔
      Names root π i q s ∨ π = π₀ ∧ i = i₀ ∧ q = p := by
  have hgrows := h.sound.grows i4 hp hpath ht hempty
  have hframe := frameOf_physAddr_or (h.sound.pages p hp).2 (tableFlags_masked i4)
  have hslot : ∀ q, ¬ Names root π₀ i₀ q s := by
    rintro q ⟨-, -, e, he, hpres, -⟩
    rw [entry, ht] at he
    rw [← some.inj he] at hpres
    exact absurd (hempty.symm.trans hpres) Bool.false_ne_true
  rw [State.addTable]
  constructor
  · rintro ⟨hπ, hhead, e, he, hpres, rfl⟩
    rw [h.sound.tree.entry_growTable hgrows hπ] at he
    split at he
    next heq =>
      obtain ⟨rfl, hi⟩ := List.append_inj' heq rfl
      rw [← some.inj he]
      exact .inr ⟨rfl, by simpa using hi, hframe⟩
    · split at he
      · rw [← some.inj he] at hpres
        cases hpres
      · exact .inl ⟨hπ, hhead, e, he, hpres, rfl⟩
  rintro (hold | ⟨rfl, rfl, rfl⟩)
  · have hne : π ++ [i] ≠ π₀ ++ [i₀] := by
      intro heq
      obtain ⟨rfl, hi⟩ := List.append_inj' heq rfl
      obtain rfl : i = i₀ := by simpa using hi
      exact hslot q hold
    obtain ⟨hπ, hhead, e, he, hpres, hq⟩ := hold
    have hne' : π ≠ π₀ ++ [i₀] := by
      rintro rfl
      rw [entry, hgrows.node_concat_none] at he
      cases he
    refine ⟨hπ, hhead, e, ?_, hpres, hq⟩
    rw [h.sound.tree.entry_growTable hgrows hπ, if_neg hne, if_neg hne', he]
  have hπ := userRegion.closed hpath
  refine ⟨hπ, hpath.2, _, ?_, present_tableEntry q i4, hframe⟩
  rw [h.sound.tree.entry_growTable hgrows hπ, if_pos rfl]

theorem Kept.grow (hg : Grow userRegion root s s') :
    Kept root s' ∧ ∀ q, Back root s' q ↔ Back root s q := by
  have hsound := h.sound.grow hg
  obtain @⟨π₀, i₀, i4, t, p, hp, hpath, -, ht, hempty⟩ := hg
  have hnames := fun {π i q} => @names_grow root s p t q π i h π₀ i₀ i4 hp hpath ht hempty
  have hpage := h.sound.pages p hp
  have hroot : root ≠ p := fun heq => h.root_notMem (heq ▸ hp)
  have hnew : ∀ π i, ¬ Names root π i p s := fun π i hn => (h.apart p ⟨π, i, hn⟩).1 hp
  have hholds : ∀ q, Holds root q (s.addTable t i₀ p (tableFlags i4)) ↔ Holds root q s ∨ q = p := by
    intro q
    constructor
    · rintro ⟨π, i, hn⟩
      rcases hnames.1 hn with hn | ⟨-, -, rfl⟩
      · exact .inl ⟨π, i, hn⟩
      · exact .inr rfl
    rintro (⟨π, i, hn⟩ | rfl)
    · exact ⟨π, i, hnames.2 (.inl hn)⟩
    · exact ⟨π₀, i₀, hnames.2 (.inr ⟨rfl, rfl, rfl⟩)⟩
  refine ⟨⟨hsound, h.nxEnabled, h.root_pos, h.kernel, fun q hq => ?_, fun hlt hn hn' => ?_⟩,
    fun q => ?_⟩
  · rcases (hholds q).1 hq with hq | rfl
    · exact ⟨fun hmem => (h.apart q hq).1 (Finset.mem_of_mem_erase hmem), (h.apart q hq).2⟩
    · exact ⟨notMem_erase _ _, hroot.symm⟩
  · rcases hnames.1 hn with hold | ⟨hπ, hi, hq⟩ <;>
      rcases hnames.1 hn' with hold' | ⟨hπ', hi', hq'⟩
    · exact h.uniq hlt hold hold'
    · exact absurd (hq' ▸ hold) (hnew _ _)
    · exact absurd (hq ▸ hold') (hnew _ _)
    · exact ⟨hπ.trans hπ'.symm, hi.trans hi'.symm⟩
  rw [Back, Back, hholds, State.addTable]
  by_cases hqp : q = p
  · subst hqp
    simp [hp, hpage.2]
  · simp [hqp]

theorem Kept.grown (hg : Relation.ReflTransGen (Grow userRegion root) s s') :
    Kept root s' ∧ ∀ q, Back root s' q ↔ Back root s q := by
  induction hg with
  | refl => exact ⟨h, fun _ => Iff.rfl⟩
  | tail _ hstep ih =>
    obtain ⟨hk, hback⟩ := ih.1.grow hstep
    exact ⟨hk, fun q => (hback q).trans (ih.2 q)⟩

/-! ### A frame taken -/

theorem names_take (hpg : pg ∈ s.free) (row : Fin 512 → Pte) :
    Names root π i q (s.take pg row) ↔ Names root π i q s := by
  refine and_congr_right fun hπ => ?_
  rw [State.take_mem, entry_update row (h.sound.fresh pg hpg) hπ]

/-- The frame belongs to nobody yet. -/
theorem Kept.take (hpg : pg ∈ s.free) (row : Fin 512 → Pte) :
    Kept root (s.take pg row) ∧ ∀ q, Back root (s.take pg row) q ↔ Back root s q ∧ q ≠ pg := by
  have hholds : ∀ q, Holds root q (s.take pg row) ↔ Holds root q s := fun q =>
    exists_congr fun π => exists_congr fun i => names_take h hpg row
  refine ⟨⟨h.sound.take hpg row, h.nxEnabled, h.root_pos, h.kernel, fun q hq => ?_,
    fun hlt hn hn' => h.uniq hlt ((names_take h hpg row).1 hn) ((names_take h hpg row).1 hn')⟩,
    fun q => ?_⟩
  · obtain ⟨hfree, hroot⟩ := h.apart q ((hholds q).1 hq)
    exact ⟨fun hmem => hfree (Finset.mem_of_mem_erase hmem), hroot⟩
  rw [Back, Back, hholds, State.take]
  by_cases hqp : q = pg
  · subst hqp
    have hroot : q ≠ root := fun heq => h.root_notMem (heq ▸ hpg)
    have hnot : ¬ Holds root q s := fun hq => (h.apart q hq).1 hpg
    simp [hroot, hnot]
  · simp [hqp]

/-! ### A page mapped -/

theorem names_setLeaf (hv : v < userEnd)
    (ht : node child s.mem root (upperPath v) = some t) {e : Pte} (he : present e = true) :
    Names root π i q (s.setLeaf t v e) ↔
      if π = upperPath v ∧ i = tableIndex v 0 then q = frameOf e else Names root π i q s := by
  have hpath := upperPath_mem hv
  have hentry := fun hπ => h.sound.tree.entry_setEntry (edge_upperPath length_userRegion hpath) ht
    (tableIndex v 0) e (ρ := π) hπ i
  rw [Names, State.setLeaf, State.store]
  by_cases hslot : π = upperPath v ∧ i = tableIndex v 0
  · rw [if_pos hslot]
    obtain ⟨rfl, rfl⟩ := hslot
    rw [hentry hpath, if_pos ⟨rfl, rfl⟩]
    constructor
    · rintro ⟨-, -, e', he', -, rfl⟩
      rw [some.inj he']
    · rintro rfl
      exact ⟨hpath, hpath.2, e, rfl, he, rfl⟩
  rw [if_neg hslot]
  refine and_congr_right fun hπ => ?_
  rw [hentry hπ, if_neg hslot]

omit h in
theorem names_slot (hv : v < userEnd) : Names root (upperPath v) (tableIndex v 0) q s ↔
    ∃ e ∈ leaf root v s, frameOf e = q := by
  constructor
  · rintro ⟨-, -, e, he, hpres, rfl⟩
    exact ⟨e, filter_eq_some_iff.2 ⟨he, hpres⟩, rfl⟩
  rintro ⟨e, he, rfl⟩
  obtain ⟨hentry, hpres⟩ := filter_eq_some_iff.1 he
  exact ⟨upperPath_mem hv, (upperPath_mem hv).2, e, hentry, hpres, rfl⟩

/-- The entry stored for a fresh frame `pg` that was taken from `s`: what was mapped there does not
come back, and `pg` does if its page is executable. -/
theorem Kept.setLeaf (hv : v < userEnd)
    (ht : node child s.mem root (upperPath v) = some t) (hpg : pg < Pmm.maxPages)
    (hnew : ¬ Back root s pg) (hp : isPresent flags = true) :
    Kept root (s.setLeaf t v (leafEntry true (physAddr pg) flags)) ∧
      ∀ q, Back root (s.setLeaf t v (leafEntry true (physAddr pg) flags)) q ↔
        Back root s q ∧ (∀ e ∈ leaf root v s, frameOf e ≠ q) ∨ q = pg ∧ isExec flags = true := by
  have hpres : present (leafEntry true (physAddr pg) flags) = true := by rw [present_leafEntry, hp]
  have hnames := fun {π i q} => @names_setLeaf root s t q v π i h hv ht _ hpres
  have hslot := fun {q} => @names_slot root s q v hv
  -- the frame of the new entry: `pg`, or nothing the allocator knows
  have hframe : ∀ q, q < Pmm.maxPages → q = frameOf (leafEntry true (physAddr pg) flags) →
      q = pg ∧ isExec flags = true := by
    intro q hq heq
    by_cases hx : isExec flags = true
    · exact ⟨heq.trans (frameOf_leafEntry_exec true hpg hx), hx⟩
    have hnx : noExec (leafEntry true (physAddr pg) flags) = true := by
      rw [Bool.not_eq_true] at hx
      rw [noExec_leafEntry, hx]
      simp
    exact absurd (heq ▸ maxPages_le_frameOf hnx) (not_le.2 hq)
  have hunnamed : ∀ π i, ¬ Names root π i pg s := fun π i hn => hnew (.inr (.inr ⟨hpg, π, i, hn⟩))
  refine ⟨⟨h.sound.setLeaf length_userRegion (upperPath_mem hv) ht _, h.nxEnabled, h.root_pos,
    h.kernel, ?_, fun {π π' i i' q} hlt hn hn' => ?_⟩, fun q => ⟨?_, ?_⟩⟩
  · rintro q ⟨π, i, hn⟩
    rw [hnames] at hn
    split at hn
    · by_cases hlt : q < Pmm.maxPages
      · obtain ⟨rfl, -⟩ := hframe q hlt hn
        exact ⟨fun hmem => hnew (.inl hmem), fun heq => hnew (.inr (.inl heq))⟩
      · exact ⟨fun hmem => hlt (h.sound.pages q hmem).2, fun heq => hlt (heq ▸ h.root_pos.2)⟩
    · exact h.apart q ⟨π, i, hn⟩
  · rw [hnames] at hn hn'
    split at hn <;> split at hn'
    next hs hs' => exact ⟨hs.1.trans hs'.1.symm, hs.2.trans hs'.2.symm⟩
    · exact absurd ((hframe q hlt hn).1 ▸ hn') (hunnamed _ _)
    · exact absurd ((hframe q hlt hn').1 ▸ hn) (hunnamed _ _)
    · exact h.uniq hlt hn hn'
  · have hold := fun e he hfe => h.apart q ⟨_, _, hslot.2 ⟨e, he, hfe⟩⟩
    rintro (hq | hq | ⟨hlt, π, i, hn⟩)
    · exact .inl ⟨.inl hq, fun e he hfe => (hold e he hfe).1 hq⟩
    · exact .inl ⟨.inr (.inl hq), fun e he hfe => (hold e he hfe).2 hq⟩
    rw [hnames] at hn
    split at hn
    · exact .inr (hframe q hlt hn)
    next hs =>
      exact .inl ⟨.inr (.inr ⟨hlt, π, i, hn⟩), fun e he hfe =>
        hs (h.uniq hlt hn (hslot.2 ⟨e, he, hfe⟩))⟩
  rintro (⟨hq | hq | ⟨hlt, π, i, hn⟩, hold⟩ | ⟨rfl, hx⟩)
  · exact .inl hq
  · exact .inr (.inl hq)
  · refine .inr (.inr ⟨hlt, π, i, hnames.2 ?_⟩)
    rwa [if_neg]
    rintro ⟨rfl, rfl⟩
    obtain ⟨e, he, hfe⟩ := hslot.1 hn
    exact hold e he hfe
  · refine .inr (.inr ⟨hpg, upperPath v, tableIndex v 0, hnames.2 ?_⟩)
    rw [if_pos ⟨rfl, rfl⟩, frameOf_leafEntry_exec true hpg hx]

end

/-! ### A fresh frame mapped -/

theorem mapped_iff (policy : Policy) (v : ℕ) (paddr : BitVec 64) (flags : Flags) (s : State) :
    (vmmMapPageFlags policy root v paddr flags s).1 = true ↔ Mappable policy root v flags s := by
  rw [vmmMapPageFlags, Mappable]
  rcases rejects v flags with _ | _
  · rcases ptWalkAlloc root v (some policy) s with ⟨_ | ⟨t, i⟩, s'⟩ <;> simp
  · simp

/-- Every page mapped so far has a frame that the allocator knows. -/
def AllKnown (root : ℕ) (s : State) : Prop :=
  ∀ v < userEnd, ∀ e, leaf root v s = some e → frameOf e < Pmm.maxPages

/-- What a step did to the frames: nothing new comes back; if it was clean, nothing is lost; and
otherwise something is. -/
structure Spent (root : ℕ) (clean : Prop) (s s' : State) : Prop where
  kept : Kept root s'
  back : ∀ q, Back root s' q → Back root s q
  whole : clean → (∀ q, Back root s q → Back root s' q) ∧ (AllKnown root s → AllKnown root s')
  lost : AllKnown root s → ¬ clean → ∃ q, Back root s q ∧ ¬ Back root s' q

section

variable (h : Kept root s)
include h

/-- **A frame and its mapping.** -/
theorem Kept.mapTaken (hpg : pg ∈ s.free) (row : Fin 512 → Pte)
    (policy : Policy) (hv : rejects v flags = false → v < userEnd) :
    (¬ Mappable policy root v flags (s.take pg row) ∧ ∃ s',
        vmmMapPageFlags policy root v (physAddr pg) flags (s.take pg row) = (false, s') ∧
        Kept root s' ∧ (∀ q, Back root s' q ↔ Back root s q ∧ q ≠ pg) ∧
        (AllKnown root s → AllKnown root s')) ∨ Mappable policy root v flags (s.take pg row) ∧ ∃ s',
        vmmMapPageFlags policy root v (physAddr pg) flags (s.take pg row) = (true, s') ∧
        Spent root (isExec flags = true ∧ leaf root v s = none) s s' := by
  obtain ⟨htake, hback⟩ := h.take hpg row
  have hmapped := @mapped_iff root policy v (physAddr pg) flags (s.take pg row)
  obtain ⟨s₁, hg, hres⟩ := vmmMapPageFlags_cases htake.sound policy flags
    (fun hrej => upperPath_mem (hv hrej)) (physAddr pg)
  obtain ⟨hkept, hgrown⟩ := htake.grown hg
  replace hback : ∀ q, Back root s₁ q ↔ Back root s q ∧ q ≠ pg :=
    fun q => (hgrown q).trans (hback q)
  have hleaf : ∀ w < userEnd, leaf root w s₁ = leaf root w s := fun w hw =>
    (leaf_grown length_userRegion htake.sound hg (upperPath_mem hw)).trans
      (leaf_take h.sound hpg row hw)
  rcases hres with ⟨hres, -⟩ | ⟨hrej, t, ht, hres⟩ <;> rw [hres] at hmapped
  · refine .inl ⟨fun hm => absurd (hmapped.2 hm) Bool.false_ne_true, _, hres, hkept, hback,
      fun hk w hw e he => ?_⟩
    rw [hleaf w hw] at he
    exact hk w hw e he
  · have hvu := hv hrej
    have hpage := h.sound.pages pg hpg
    have hnew : ¬ Back root s₁ pg := fun hb => ((hback pg).1 hb).2 rfl
    have hpres := present_of_not_rejects hrej
    obtain ⟨hk, hb⟩ := hkept.setLeaf hvu ht hpage.2 hnew hpres
    rw [hkept.nxEnabled] at hres
    refine .inr ⟨hmapped.1 rfl, _, hres, ?_⟩
    have hset := fun w hw => leaf_set hkept.sound hvu ht (leafEntry true (physAddr pg) flags)
      (w := w) hw
    refine ⟨⟨⟨hk.sound.tree, hk.sound.fresh, hk.sound.pages⟩, hk.nxEnabled, hk.root_pos, hk.kernel,
      hk.apart, hk.uniq⟩, fun q hq => ?_, fun hc => ⟨fun q hq => ?_, fun hknown w hw e he => ?_⟩,
      fun hknown hdirty => ?_⟩
    · rcases (hb q).1 hq with ⟨hq, -⟩ | ⟨rfl, -⟩
      · exact ((hback q).1 hq).1
      · exact .inl hpg
    · refine (hb q).2 ?_
      by_cases hqp : q = pg
      · exact .inr ⟨hqp, hc.1⟩
      refine .inl ⟨(hback q).2 ⟨hq, hqp⟩, ?_⟩
      rw [hleaf v hvu, hc.2]
      exact fun _ he => absurd he (not_mem_none _)
    · replace he := (hset w hw).symm.trans he
      split at he
      · rw [filter_some, present_leafEntry, hpres] at he
        obtain rfl := some.inj he
        rw [frameOf_leafEntry_exec true hpage.2 hc.1]
        exact hpage.2
      · rw [hleaf w hw] at he
        exact hknown w hw e he
    rcases hold : leaf root v s with _ | e
    · -- the page cannot be executed, and its frame is not found again
      have hx : isExec flags ≠ true := fun hx => hdirty ⟨hx, hold⟩
      refine ⟨pg, .inl hpg, fun hq => ?_⟩
      rcases (hb pg).1 hq with ⟨hq, -⟩ | ⟨-, hx'⟩
      · exact hnew hq
      · exact hx hx'
    have hnamed := (names_slot hvu).2 ⟨e, hold, rfl⟩
    refine ⟨frameOf e, .inr (.inr ⟨hknown v hvu e hold, _, _, hnamed⟩), fun hq => ?_⟩
    rcases (hb _).1 hq with ⟨-, hne⟩ | ⟨heq, -⟩
    · exact hne e ((hleaf v hvu).trans hold) rfl
    · exact (h.apart _ ⟨_, _, hnamed⟩).1 (heq ▸ hpg)

/-- A frame that is nobody's is given back. -/
theorem Kept.pmmFree (hpg : 0 < pg ∧ pg < Pmm.maxPages)
    (hnew : ¬ Back root s pg) : Kept root (pmmFree (physAddr pg) s) ∧
      ∀ q, Back root (Vmm.pmmFree (physAddr pg) s) q ↔ Back root s q ∨ q = pg := by
  have hmem : (Vmm.pmmFree (physAddr pg) s) = { s with free := insert pg s.free } := by
    rw [Vmm.pmmFree, toNat_physAddr hpg.2, Nat.mul_div_cancel _ (by decide),
      if_neg (Nat.not_le.2 hpg.2)]
  have htable : ¬ IsTable child userRegion s.mem root pg := by
    rintro ⟨π, hπ, ht⟩
    induction π using List.reverseRecOn with
    | nil => exact hnew (.inr (.inl (some.inj ht).symm))
    | append_singleton π i _ =>
      rw [node_concat] at ht
      obtain ⟨t, ht, hc⟩ := bind_eq_some_iff.1 ht
      rw [child] at hc
      split at hc
      next hpres =>
        refine hnew (.inr (.inr ⟨hpg.2, π, i, userRegion.closed hπ, hπ.2, s.mem t i, ?_, hpres,
          some.inj hc⟩))
        rw [entry, ht]
        rfl
      · cases hc
  rw [hmem]
  refine ⟨⟨⟨h.sound.tree, fun q hq => ?_, fun q hq => ?_⟩, h.nxEnabled, h.root_pos, h.kernel,
    fun q hq => ⟨fun hmem => ?_, (h.apart q hq).2⟩, h.uniq⟩, fun q => ?_⟩
  · rcases mem_insert.1 hq with rfl | hq
    · exact htable
    · exact h.sound.fresh q hq
  · rcases mem_insert.1 hq with rfl | hq
    · exact hpg
    · exact h.sound.pages q hq
  · rcases mem_insert.1 hmem with rfl | hmem
    · exact hnew (.inr (.inr ⟨hpg.2, hq⟩))
    · exact (h.apart q hq).1 hmem
  show q ∈ insert pg s.free ∨ _ ↔ (q ∈ s.free ∨ _) ∨ _
  rw [mem_insert]
  constructor
  · rintro ((hq | hq) | hq)
    · exact .inr hq
    · exact .inl (.inl hq)
    · exact .inl (.inr hq)
  rintro ((hq | hq) | hq)
  · exact .inl (.inr hq)
  · exact .inr hq
  · exact .inl (.inl hq)

theorem Spent.refl {clean : Prop} (hc : clean) : Spent root clean s s :=
  ⟨h, fun _ => id, fun _ => ⟨fun _ => id, id⟩, fun _ hn => absurd hc hn⟩

/-- **One request.** -/
theorem mapFresh_back (r : Request) (hv : r.vaddr < userEnd) :
    Spent root (r.Clean root s) s (mapFresh root s r) := by
  rcases pmmAlloc_cases h.sound.pages r.policy with ⟨hnone, -⟩ | ⟨pg, hpg, hsome⟩
  · rw [mapFresh, Request.Clean, hnone]
    exact .refl h (by simp)
  have hstep : mapFresh root s r = match vmmMapPageFlags r.policy root r.vaddr (physAddr pg)
      r.flags (s.take pg r.row) with
      | (true, s) => s
      | (false, s) => Vmm.pmmFree (physAddr pg) s := by
    rw [mapFresh, hsome]
    rfl
  simp only [Request.Clean, hsome, mem_some, forall_eq']
  rcases h.mapTaken hpg r.row r.policy (fun _ => hv) with
    ⟨hm, s', hres, hk, hb, hknown⟩ | ⟨hm, s', hres, hspent⟩
  · have hnew : ¬ Back root s' pg := fun hq => ((hb pg).1 hq).2 rfl
    obtain ⟨hk', hb'⟩ := hk.pmmFree (h.sound.pages pg hpg) hnew
    rw [hres] at hstep
    rw [hstep]
    refine ⟨hk', fun q hq => ?_, fun _ => ⟨fun q hq => ?_, fun hkn w hw e he => ?_⟩,
      fun _ hdirty => absurd (fun hm' => absurd hm' hm) hdirty⟩
    · rcases (hb' q).1 hq with hq | rfl
      · exact ((hb q).1 hq).1
      · exact .inl hpg
    · by_cases hqp : q = pg
      · exact (hb' q).2 (.inr hqp)
      · exact (hb' q).2 (.inl ((hb q).2 ⟨hq, hqp⟩))
    · rw [leaf, mem_pmmFree] at he
      exact hknown hkn w hw e he
  rw [hres] at hstep
  rw [hstep]
  exact ⟨hspent.kept, hspent.back, fun hc => hspent.whole (hc hm), fun hkn hdirty =>
    hspent.lost hkn fun hc => hdirty fun _ => hc⟩

/-- **One page of a program.** -/
theorem loadPage_back (policy : Policy)
    (hv : rejects v flags = false → v < userEnd) (row : Fin 512 → Pte) :
    Spent root (LoadStep.Clean policy root s (.page v flags row)) s
      (loadPage policy root v flags row s).2 := by
  rcases pmmAlloc_cases h.sound.pages policy with ⟨hnone, -⟩ | ⟨pg, hpg, hsome⟩
  · rw [loadPage, LoadStep.Clean, hnone]
    exact .refl h (by simp)
  have hstep : loadPage policy root v flags row s =
      vmmMapPageFlags policy root v (physAddr pg) flags (s.take pg row) := by
    rw [loadPage, hsome]
    rfl
  simp only [hstep, LoadStep.Clean, hsome, mem_some, forall_eq']
  rcases h.mapTaken hpg row policy hv with
    ⟨hm, s', hres, hk, hb, hknown⟩ | ⟨hm, s', hres, hspent⟩
  · rw [hres]
    exact ⟨hk, fun q hq => ((hb q).1 hq).1, fun hc => absurd hc.1 hm,
      fun _ _ => ⟨pg, .inl hpg, fun hq => ((hb pg).1 hq).2 rfl⟩⟩
  rw [hres]
  exact ⟨hspent.kept, hspent.back, fun hc => hspent.whole hc.2, fun hkn hdirty =>
    hspent.lost hkn fun hc => hdirty ⟨hm, hc⟩⟩

end

/-! ### Runs -/

theorem Spent.trans {clean clean' : Prop} {s₁ : State} (h : Spent root clean s s₁)
    (h' : Spent root clean' s₁ s') : Spent root (clean ∧ clean') s s' := by
  refine ⟨h'.kept, fun q hq => h.back q (h'.back q hq), fun ⟨hc, hc'⟩ => ?_,
    fun hknown hdirty => ?_⟩
  · obtain ⟨hsame, hknown⟩ := h.whole hc
    obtain ⟨hsame', hknown'⟩ := h'.whole hc'
    exact ⟨fun q hq => hsame' q (hsame q hq), fun hk => hknown' (hknown hk)⟩
  by_cases hc : clean
  · obtain ⟨q, hq, hlost⟩ := h'.lost ((h.whole hc).2 hknown) fun hc' => hdirty ⟨hc, hc'⟩
    exact ⟨q, h.back q hq, hlost⟩
  · obtain ⟨q, hq, hlost⟩ := h.lost hknown hc
    exact ⟨q, hq, fun hq' => hlost (h'.back q hq')⟩

theorem foldl_mapFresh_spent (rs : List Request) : ∀ {s : State}, Kept root s →
    (∀ r ∈ rs, r.vaddr < userEnd) →
    Spent root (AllowedFrom (Request.Clean root) (mapFresh root) s rs) s
      (rs.foldl (mapFresh root) s) := by
  induction rs with
  | nil => exact fun h _ => .refl h trivial
  | cons r rs ih =>
    intro s h hv
    obtain ⟨hr, hrs⟩ := List.forall_mem_cons.1 hv
    have hstep := mapFresh_back h r hr
    exact hstep.trans (ih hstep.kept hrs)

theorem runLoad_spent (policy : Policy) (steps : List LoadStep) : ∀ {s : State}, Kept root s →
    (∀ x ∈ steps, x.ForUser) →
    Spent root (CleanLoad policy root steps s) s (runLoad policy root steps s).2 := by
  induction steps with
  | nil => exact fun h _ => .refl h trivial
  | cons x steps ih =>
    intro s h hx
    obtain ⟨hx, hrest⟩ := List.forall_mem_cons.1 hx
    rcases x with valid | ⟨v, flags, row⟩
    · rw [runLoad, CleanLoad]
      rcases valid with _ | _
      · exact .refl h (absurd · Bool.false_ne_true)
      · simpa using ih h hrest
    have hstep := loadPage_back h policy (@lt_userEnd_of_not_rejects v _ hx) row
    rw [runLoad, CleanLoad]
    generalize loadPage policy root v flags row s = res at hstep ⊢
    rcases res with ⟨_ | _, s₁⟩
    · simpa using hstep
    · simpa using hstep.trans (ih hstep.kept hrest)

end Kept

/-! ### From creation to destruction -/

variable {s s₀ s₁ : State} {policy : Policy} {root : ℕ} {file : List UInt8}
    {slide : Option (BitVec 16)}

theorem kept_of_create {s' : State} (h : Idle s)
    (hcreate : vmmCreateAddressSpace policy s = (some root, s')) :
    Kept root s' ∧ (∀ q, Back root s' q ↔ q ∈ s.free) ∧ AllKnown root s' := by
  obtain ⟨hsound, hnx, hleaf⟩ := sound_of_create h.pages hcreate
  obtain ⟨hroot, row, rfl, hlow, -⟩ := vmmCreateAddressSpace_spec h.pages hcreate
  have hnone : ∀ q, ¬ Holds root q (s.take root row) := by
    rintro q ⟨_ | ⟨j, π⟩, i, hπ, hhead, e, he, hpres, -⟩
    · rw [entry, node_nil, map_some, State.take_mem, Function.update_self,
        hlow i (hhead i rfl)] at he
      rw [← some.inj he] at hpres
      cases hpres
    · rw [entry, node, State.take_mem, Function.update_self, hlow j (hπ.2 j rfl)] at he
      cases he
  refine ⟨⟨hsound, hnx.trans h.nxEnabled, h.pages root hroot, fun heq => h.kernel (heq ▸ hroot),
    fun q hq => absurd hq (hnone q), fun _ hn _ => absurd ⟨_, _, hn⟩ (hnone _)⟩, fun q => ?_,
    fun v hv e he => absurd (he.symm.trans (hleaf v hv)) (some_ne_none e)⟩
  rw [Back, State.take]
  have hnone' := hnone q
  rw [State.take] at hnone'
  by_cases hq : q = root
  · subst hq
    simp [hroot]
  · simp [hq, hnone']

/-- The count is what it was exactly if the run was clean. -/
theorem pmmFreePages_destroy_iff {clean : Prop} (h : Spent root clean s₁ s)
    (hstart : ∀ q, Back root s₁ q ↔ q ∈ s₀.free) (hknown : AllKnown root s₁) :
    pmmFreePages (vmmDestroyAddressSpace root s) = pmmFreePages s₀ ↔ clean := by
  have hend : ∀ q, q ∈ (vmmDestroyAddressSpace root s).free ↔ Back root s q :=
    fun q => mem_free_destroy_iff h.kept
  have hsub : (vmmDestroyAddressSpace root s).free ⊆ s₀.free := fun q hq =>
    (hstart q).1 (h.back q ((hend q).1 hq))
  constructor
  · intro hcard
    by_contra hdirty
    obtain ⟨q, hq, hlost⟩ := h.lost hknown hdirty
    have heq := eq_of_subset_of_card_le hsub hcard.ge
    rw [← hend, heq] at hlost
    exact hlost ((hstart q).1 hq)
  intro hclean
  refine congrArg card (Finset.Subset.antisymm hsub fun q hq => ?_)
  exact (hend q).2 ((h.whole hclean).1 q ((hstart q).2 hq))

theorem requests_return_iff (h : Idle s₀)
    (hcreate : vmmCreateAddressSpace policy s₀ = (some root, s₁)) {rs : List Request}
    (hrs : ∀ r ∈ rs, r.vaddr < userEnd) :
    pmmFreePages (vmmDestroyAddressSpace root (rs.foldl (mapFresh root) s₁)) = pmmFreePages s₀ ↔
      AllowedFrom (Request.Clean root) (mapFresh root) s₁ rs := by
  obtain ⟨hkept, hstart, hknown⟩ := kept_of_create h hcreate
  exact pmmFreePages_destroy_iff (foldl_mapFresh_spent rs hkept hrs) hstart hknown

theorem afterExec_eq {start : ℕ} (hfile : elfLoad file = some start)
    (hcreate : vmmCreateAddressSpace policy s₀ = (some root, s₁)) : afterExec policy file slide s₀ =
      vmmDestroyAddressSpace root (runLoad policy root (loadSteps file slide) s₁).2 := by
  rw [afterExec, execElf, hfile]
  simp only [hcreate]
  rcases runLoad policy root (loadSteps file slide) s₁ with ⟨_ | e, s⟩ <;> rfl

theorem exec_return_iff (h : Idle s₀) (policy : Policy) (file : List UInt8)
    (slide : Option (BitVec 16)) : pmmFreePages (afterExec policy file slide s₀) = pmmFreePages s₀ ↔
      ∀ start, elfLoad file = some start → ∀ root s₁,
        vmmCreateAddressSpace policy s₀ = (some root, s₁) →
          CleanLoad policy root (loadSteps file slide) s₁ := by
  rcases hfile : elfLoad file with _ | start
  · rw [afterExec, execElf, hfile]
    simp
  rcases hcreate : vmmCreateAddressSpace policy s₀ with ⟨_ | root, s₁⟩
  · have hsame : s₁ = s₀ := by
      rw [vmmCreateAddressSpace] at hcreate
      rcases pmmAlloc_cases h.pages policy with ⟨hnone, -⟩ | ⟨p, -, hsome⟩
      · rw [hnone] at hcreate
        exact (Prod.mk.inj hcreate).2.symm
      · rw [hsome] at hcreate
        cases hcreate
    rw [afterExec, execElf, hfile]
    simp [hcreate, hsame]
  obtain ⟨hkept, hstart, hknown⟩ := kept_of_create h hcreate
  have hspent := runLoad_spent policy _ hkept (loadSteps_forUser file slide)
  rw [afterExec_eq hfile hcreate, pmmFreePages_destroy_iff hspent hstart hknown]
  constructor
  · rintro hclean _ - root' s' heq
    obtain ⟨hroot, rfl⟩ := Prod.mk.inj heq
    obtain rfl := some.inj hroot
    exact hclean
  · exact fun hall => hall start rfl root s₁ rfl

/-- **Frames return exactly if every mapping is clean**: in every run of mappings of fresh frames,
and after every `exec_elf`, failed or not. -/
theorem frames_return_iff {s₀ : State} (h : Idle s₀) :
    (∀ policy root s₁, vmmCreateAddressSpace policy s₀ = (some root, s₁) → ∀ rs : List Request,
      (∀ r ∈ rs, r.vaddr < userEnd) →
        (pmmFreePages (vmmDestroyAddressSpace root (rs.foldl (mapFresh root) s₁)) =
            pmmFreePages s₀ ↔ AllowedFrom (Request.Clean root) (mapFresh root) s₁ rs)) ∧
      ∀ policy file slide, (pmmFreePages (afterExec policy file slide s₀) = pmmFreePages s₀ ↔
        ∀ start, elfLoad file = some start → ∀ root s₁,
          vmmCreateAddressSpace policy s₀ = (some root, s₁) →
            CleanLoad policy root (loadSteps file slide) s₁) :=
  ⟨fun _ _ _ hcreate _ hrs => requests_return_iff h hcreate hrs, exec_return_iff h⟩

theorem idle_bareMachine : Idle bareMachine :=
  ⟨by decide, rfl, by decide⟩

theorem code_page_returns :
    pmmFreePages (vmmDestroyAddressSpace 1 (mapFresh 1 (vmmCreateAddressSpace lowest bareMachine).2
      ⟨lowest, 0x400000, protRx, fun _ => 0⟩)) = 6 :=
  ((frames_return_iff idle_bareMachine).1 lowest 1 _ rfl [⟨lowest, 0x400000, protRx, fun _ => 0⟩]
    (by decide)).2 ⟨fun _ _ _ => ⟨rfl, by decide⟩, trivial⟩

/-- A page of the kind `exec_elf` maps for the stack. -/
theorem stack_leaks :
    ¬ ∀ s₀ policy root s₁, Idle s₀ → vmmCreateAddressSpace policy s₀ = (some root, s₁) →
      ∀ rs : List Request, (∀ r ∈ rs, r.vaddr < userEnd) →
        pmmFreePages (vmmDestroyAddressSpace root (rs.foldl (mapFresh root) s₁)) =
          pmmFreePages s₀ := by
  intro h
  have hrs : ∀ r ∈ [(⟨lowest, 0x400000, protRw, fun _ => 0⟩ : Request)], r.vaddr < userEnd := by
    decide
  have hcreate : vmmCreateAddressSpace lowest bareMachine =
      (some 1, (vmmCreateAddressSpace lowest bareMachine).2) := rfl
  have hclean := (requests_return_iff idle_bareMachine hcreate hrs).1
    (h bareMachine lowest 1 _ idle_bareMachine hcreate _ hrs)
  have hexec := hclean.1 2 (by decide) ⟨by decide, by decide⟩
  exact absurd hexec.1 (by decide)

/-! ### Programs that are entered -/

theorem isExec_of_cleanLoad {steps : List LoadStep} :
    ∀ {s : State}, CleanLoad policy root steps s → (runLoad policy root steps s).1 = none →
      ∀ {vaddr flags row}, LoadStep.page vaddr flags row ∈ steps → isExec flags = true := by
  induction steps with
  | nil => exact fun _ _ _ _ _ hmem => absurd hmem List.not_mem_nil
  | cons x steps ih =>
    intro s hclean hrun vaddr flags row hmem
    rcases x with valid | ⟨v, f, r⟩
    · rw [runLoad] at hrun
      split at hrun
      next hvalid => exact ih (hclean hvalid) hrun (by simpa using hmem)
      · cases hrun
    obtain ⟨hstep, hrest⟩ := hclean
    rw [runLoad] at hrun
    rcases hload : loadPage policy root v f r s with ⟨_ | _, s₁⟩ <;>
      simp only [hload] at hrun hrest
    · cases hrun
    · rcases List.mem_cons.1 hmem with heq | hmem
      · obtain ⟨rfl, rfl, rfl⟩ := LoadStep.page.inj heq
        rcases halloc : (pmmAlloc policy s).1 with _ | pg
        · rw [loadPage] at hload
          rcases hres : pmmAlloc policy s with ⟨o, s'⟩
          rw [hres] at halloc hload
          obtain rfl : o = none := halloc
          cases hload
        · exact (hstep pg halloc).2.1
      · exact ih (hrest trivial) hrun hmem

/-- No program that is entered gives all its frames back: its stack may not be executed. -/
theorem entered_leaks (h : Idle s₀) {entry stack : ℕ}
    (hexec : execElf policy file slide s₀ = (.entered root entry stack, s)) :
    pmmFreePages (vmmDestroyAddressSpace root s) ≠ pmmFreePages s₀ := by
  have hafter : afterExec policy file slide s₀ = vmmDestroyAddressSpace root s := by
    rw [afterExec, hexec]
  rw [← hafter, Ne, exec_return_iff h]
  intro hclean
  obtain ⟨hfile, s₁, hcreate, hrun⟩ := execElf_entered hexec
  have hstack : isExec protRw = true :=
    isExec_of_cleanLoad (hclean entry hfile root s₁ hcreate) (by rw [hrun])
      (List.mem_append_right _ (List.mem_map_of_mem (List.mem_range.2 (by decide : 0 < 16))))
  cases hstack

theorem tinyElf_leaks :
    pmmFreePages (vmmDestroyAddressSpace 512 loaded) ≠ pmmFreePages hugeMachine :=
  entered_leaks ⟨by decide, rfl, by decide⟩ loaded_eq

end PeakOs.Vmm
