import PeakOs.Heap.Model

/-!
# Every heap block is a range of whole pages

The largest size class is 4032 bytes, and no block is ever that small. `heap_init` makes blocks of
one page, payload 4064; `alloc_pages_block` makes blocks of whole pages; splitting needs a block
from a free list, and a block of 4064 bytes or more has no size class, so none is ever put on one.
Coalescing joins blocks of whole pages into blocks of whole pages.

So in every reachable state the free lists are all empty, and every `kmalloc` goes to the page
allocator. `Paged` is that invariant, together with the accounting of pages: the pages the heap got
and did not give back are exactly those its blocks cover.

## Main results

* `Paged.step` — every call keeps the invariant
* `paged_of_reach` — it holds in every state of a run in which the page allocator is not hit by its
  own spill
* `Paged.blocks_disjoint` — no two blocks overlap
-/

namespace PeakOs.Heap

open List

open Pmm (pageSize Owned grantedPages maxPages)

/-- The pages a block covers. -/
def Block.pages (b : Block) : List ℕ :=
  List.range' (b.addr / pageSize) ((b.size + headerSize) / pageSize)

/-- The block covers whole pages, at least one. -/
structure Block.Whole (b : Block) : Prop where
  aligned : b.addr % pageSize = 0
  whole : (b.size + headerSize) % pageSize = 0
  pos : pageSize ≤ b.size + headerSize

/-- The condition under which a call leaves the page allocator sound: a `kmalloc` that asks it for
several pages is not hit by a spill. -/
def Sys.NoSpill (s : Sys) : Call → Prop
  | .kmalloc size | .kzalloc size | .krealloc _ size =>
    (⟨s.pmm, s.otherPages⟩ : Pmm.Sys).NoSpill (.allocPages (blockPages (roundUp16 size)))
  | .kfree _ | .kfreeSensitive _ _ => True
  | .pmm c => (⟨s.pmm, s.otherPages⟩ : Pmm.Sys).NoSpill c

structure Paged (s : Sys) : Prop where
  lists : ∀ c, s.heap.freeLists c = []
  whole : ∀ b ∈ s.heap.blocks, b.Whole
  pages : s.heapPages.Perm (s.heap.blocks.flatMap Block.pages)
  owned : Owned s.pmm (s.heapPages ++ s.otherPages)

/-! ### Size classes -/

variable {size n phys : ℕ} {b : Block} {h : State} {s : Sys} {pmm : Pmm.State}

theorem heapSizeClass_eq_none (h : 4032 < size) : heapSizeClass size = none := by
  simp only [heapSizeClass, heapClassSize, findIdx?_eq_none_iff]
  intro c hc
  simp only [mem_cons, not_mem_nil, or_false] at hc
  simp only [decide_eq_false_iff_not]
  omega

theorem Block.Whole.class_none (h : b.Whole) : heapSizeClass b.size = none := by
  have := h.pos
  simp only [pageSize, headerSize] at this
  exact heapSizeClass_eq_none (by omega)

theorem pushFree_of_none (h : heapSizeClass b.size = none) (lists : ℕ → List ℕ) :
    pushFree b lists = lists := by simp [pushFree, h]

theorem freelistRemove_of_none (h : heapSizeClass b.size = none)
    (lists : ℕ → List ℕ) : freelistRemove b lists = lists := by simp [freelistRemove, h]

theorem popFirst_of_empty (hl : ∀ c, h.freeLists c = []) (cs : List ℕ) : popFirst h cs = none := by
  induction cs with
  | nil => rfl
  | cons c cs ih => simp [popFirst, hl c, ih]

theorem takeFree_of_empty (hl : ∀ c, h.freeLists c = []) (size : ℕ) : takeFree size h = none := by
  unfold takeFree
  cases heapSizeClass size with
  | none => rfl
  | some cls => simp only [popFirst_of_empty hl, heapFreelistSteal]

/-! ### Growth -/

/-- A block made from pages just granted. -/
theorem whole_of_granted {s t : Pmm.State}
    (h : Pmm.pmmAllocPages n s = (some phys, t)) (hsize : size = n * pageSize - headerSize)
    (ha : b.addr = phys) (hb : b.size = size) : b.Whole ∧ b.pages = grantedPages n (some phys) := by
  obtain ⟨hn, haligned⟩ := Pmm.pmmAllocPages_some h
  have htotal : b.size + headerSize = n * pageSize := by
    rw [hb, hsize]; simp only [pageSize, headerSize]; omega
  refine ⟨⟨ha ▸ haligned, by rw [htotal, Nat.mul_mod_left], ?_⟩, ?_⟩
  · rw [htotal]; exact Nat.le_mul_of_pos_left _ hn
  · rw [Block.pages, htotal, ha, Nat.mul_div_cancel _ (by decide), grantedPages]

/-- A new block in front of the chain. -/
theorem Paged.cons_block (h : Paged s)
    (halloc : Pmm.pmmAllocPages n s.pmm = (some phys, pmm)) (ha : b.addr = phys)
    (hb : b.size = n * pageSize - headerSize)
    (hsafe : (⟨s.pmm, s.otherPages⟩ : Pmm.Sys).NoSpill (.allocPages n)) : Paged { s with
      pmm := pmm
      heap := { s.heap with blocks := b :: s.heap.blocks }
      heapPages := grantedPages n (some phys) ++ s.heapPages } := by
  obtain ⟨hwhole, hpages⟩ := whole_of_granted halloc rfl ha hb
  have howned := Pmm.pmmAllocPages_owned h.owned hsafe
  rw [halloc] at howned
  refine ⟨h.lists, forall_mem_cons.2 ⟨hwhole, h.whole⟩, ?_, ?_⟩
  · simpa [hpages] using h.pages.append_left _
  · simpa using howned

theorem Paged.fail (h : Paged s) (halloc : Pmm.pmmAllocPages n s.pmm = (none, pmm))
    (hsafe : (⟨s.pmm, s.otherPages⟩ : Pmm.Sys).NoSpill (.allocPages n)) :
    Paged { s with pmm := pmm } := by
  have howned := Pmm.pmmAllocPages_owned h.owned hsafe
  rw [halloc] at howned
  exact ⟨h.lists, h.whole, h.pages, howned⟩

theorem noSpill_one (σ : Pmm.Sys) : σ.NoSpill (.allocPages 1) := fun h => absurd h (by decide)

theorem heapInitLoop_paged : ∀ (n : ℕ) {s : Sys}, Paged s → Paged (heapInitLoop n s) := by
  intro n
  induction n with
  | zero => intro s h; exact h
  | succ n ih =>
    intro s h
    unfold heapInitLoop
    rcases halloc : Pmm.pmmAlloc s.pmm with ⟨_ | phys, pmm⟩
    · exact h.fail halloc (noSpill_one _)
    exact ih (h.cons_block halloc rfl rfl (noSpill_one _))

theorem paged_init {others : List ℕ} (h : Owned pmm others) : Paged (heapInit pmm others) :=
  heapInitLoop_paged 128 ⟨fun _ => rfl, by simp [heapReset], .refl _, h⟩

/-! ### Allocation -/

/-- With the free lists empty a request goes to the page allocator. -/
theorem Paged.kmalloc_eq (h : Paged s) (hsize : size ≠ 0) :
    kmalloc size s = growFromPmm (roundUp16 size) s := by
  simp only [kmalloc, if_neg hsize, takeFree_of_empty h.lists]

theorem Paged.after_kmalloc (h : Paged s) (hsafe : s.NoSpill (.kmalloc size)) :
    Paged (kmalloc size s).2 := by
  rcases eq_or_ne size 0 with rfl | hsize
  · exact h
  rw [h.kmalloc_eq hsize, growFromPmm, allocPagesBlock]
  rcases halloc : Pmm.pmmAllocPages (blockPages (roundUp16 size)) s.pmm with ⟨_ | phys, pmm⟩
  · obtain ⟨hl, hw, hp, ho⟩ := h.fail halloc hsafe
    exact ⟨hl, hw, hp, ho⟩
  · exact h.cons_block halloc rfl rfl hsafe

/-! ### Release -/

theorem flatMap_pages_map {f : Block → Block} (hf : ∀ b, (f b).pages = b.pages) (bs : List Block) :
    (bs.map f).flatMap Block.pages = bs.flatMap Block.pages := by
  rw [flatMap_map]
  exact flatMap_congr fun b _ => hf b

/-- Two blocks of whole pages, one right behind the other, make one. -/
theorem Block.Whole.merge {n m : Block} (hb : b.Whole) (hn : n.Whole) (hstop : b.stop = n.addr)
    (haddr : m.addr = b.addr) (hsize : m.size = b.size + (headerSize + n.size)) :
    m.Whole ∧ m.pages = b.pages ++ n.pages := by
  obtain ⟨hb1, hb2, hb3⟩ := hb
  obtain ⟨hn1, hn2, hn3⟩ := hn
  simp only [Block.stop, pageSize, headerSize] at *
  refine ⟨⟨by rw [haddr]; exact hb1, by simp only [pageSize, headerSize]; omega, ?_⟩, ?_⟩
  · simp [pageSize]; omega
  have hnext : n.addr / 4096 = b.addr / 4096 + 1 * ((b.size + 32) / 4096) := by omega
  have hlen : (m.size + 32) / 4096 = (b.size + 32) / 4096 + (n.size + 32) / 4096 := by omega
  simp only [Block.pages, pageSize, headerSize, haddr, hnext, hlen, range'_append]

/-- **Coalescing** over a chain of whole-page blocks: the free lists are not touched, the blocks
stay whole, they cover the same pages, and a free block leaves a free block. -/
theorem coalesceLoop_spec (bs : List Block) (lists : ℕ → List ℕ) (hw : ∀ b ∈ bs, b.Whole) :
    let t := coalesceLoop bs lists
    t.2 = lists ∧ (∀ b ∈ t.1, b.Whole) ∧ t.1.flatMap Block.pages = bs.flatMap Block.pages ∧
      ((∃ b ∈ bs, b.free = true) → ∃ b ∈ t.1, b.free = true) := by
  dsimp only
  induction bs, lists using coalesceLoop.induct with
  | case1 lists => simp [coalesceLoop]
  | case2 b lists => simpa [coalesceLoop] using hw
  | case3 b n rest lists hcond merged ih =>
    have hcond' := hcond
    simp only [Bool.and_eq_true, decide_eq_true_eq] at hcond'
    obtain ⟨⟨hbf, hnf⟩, hstop⟩ := hcond'
    have hb : b.Whole := hw b (by simp)
    have hn : n.Whole := hw n (by simp)
    obtain ⟨hm, hpages⟩ := hb.merge hn hstop (show merged.reclassify.addr = b.addr from rfl) rfl
    have hlists : pushFree merged (freelistRemove n (freelistRemove b lists)) = lists := by
      rw [freelistRemove_of_none hb.class_none, freelistRemove_of_none hn.class_none]
      exact pushFree_of_none hm.class_none lists
    rw [coalesceLoop, if_pos hcond]
    obtain ⟨h1, h2, h3, h4⟩ := ih
      (forall_mem_cons.2 ⟨hm, fun x hx => hw x (by simp [hx])⟩)
    refine ⟨h1.trans hlists, h2, h3.trans ?_, fun _ => h4 ⟨_, mem_cons_self .., hbf⟩⟩
    simp [hpages]
  | case4 b n rest lists hcond ih =>
    rw [coalesceLoop, if_neg hcond]
    obtain ⟨h1, h2, h3, h4⟩ := ih fun x hx => hw x (mem_cons_of_mem _ hx)
    refine ⟨h1, forall_mem_cons.2 ⟨hw b (by simp), h2⟩, ?_, ?_⟩
    · simp [h3]
    rintro ⟨x, hx, hxf⟩
    rcases mem_cons.1 hx with rfl | hx
    · exact ⟨x, mem_cons_self .., hxf⟩
    · obtain ⟨y, hy, hyf⟩ := h4 ⟨x, hx, hxf⟩
      exact ⟨y, mem_cons_of_mem _ hy, hyf⟩

theorem getBlock_some {a : ℕ} (hb : getBlock h a = some b) : b ∈ h.blocks ∧ b.addr = a :=
  ⟨mem_of_find?_eq_some hb, by simpa using find?_some hb⟩

/-- The state after `kfree` gave back the pages of the large block `b`. -/
def releaseBlock (b : Block) (s : Sys) : Sys :=
  let npages := (b.size + headerSize + (pageSize - 1)) / pageSize
  { s with
    pmm := Pmm.pmmFreeN b.addr npages s.pmm
    heap := { s.heap with blocks := s.heap.blocks.erase b }
    heapPages := s.heapPages.diff (List.range' (b.addr / pageSize) npages) }

/-- The heap after `kfree` kept the block `b`. -/
def recycleBlock (b : Block) (h : State) : State :=
  heapCoalesce { modifyBlock b.addr markFreed h with freeLists := pushFree b h.freeLists }

/-- Everything `kfree` can do: nothing but counting a bad header, giving back an allocated block,
or keeping it as a free one. -/
theorem kfree_cases (ptr : Option ℕ) (s : Sys) :
    (∃ n, kfree ptr s = { s with heap := { s.heap with heapBadHdrs := n } }) ∨
      ∃ b ∈ s.heap.blocks, b.free = false ∧
        (kfree ptr s = releaseBlock b s ∨
          kfree ptr s = { s with heap := recycleBlock b s.heap }) := by
  cases ptr with
  | none => exact .inl ⟨s.heap.heapBadHdrs, rfl⟩
  | some p =>
    cases hb : getBlock s.heap (p - headerSize) with
    | none => exact .inl ⟨s.heap.heapBadHdrs, by simp [kfree, hb]⟩
    | some b =>
      simp only [kfree, hb]
      split
      · exact .inl ⟨s.heap.heapBadHdrs, rfl⟩
      rename_i hfree
      have hbf : b.free = false := by
        rw [Bool.or_eq_true, not_or] at hfree
        simpa using hfree.1
      split
      · exact .inl ⟨_, rfl⟩
      refine .inr ⟨b, (getBlock_some hb).1, hbf, ?_⟩
      split
      · exact .inl rfl
      · exact .inr rfl

theorem releaseBlock_paged (h : Paged s) (hb : b ∈ s.heap.blocks) : Paged (releaseBlock b s) := by
  have hw := h.whole b hb
  have hn : (b.size + headerSize + (pageSize - 1)) / pageSize =
      (b.size + headerSize) / pageSize := by
    have := hw.whole
    simp only [pageSize, headerSize] at *
    omega
  have hall : s.heapPages.Perm (b.pages ++ (s.heap.blocks.erase b).flatMap Block.pages) :=
    h.pages.trans ((perm_cons_erase hb).flatMap_right _)
  have hsub : b.pages ⊆ s.heapPages := fun q hq =>
    hall.mem_iff.2 (mem_append_left _ hq)
  have hback : (b.pages ++ s.heapPages.diff b.pages).Perm s.heapPages :=
    Pmm.append_diff_perm nodup_range' hsub
  simp only [releaseBlock, hn]
  refine ⟨h.lists, fun x hx => h.whole x (mem_of_mem_erase hx), ?_, ?_⟩
  · exact (perm_append_left_iff _).1 (hback.trans hall)
  refine Pmm.pmmFreeN_owned (h.owned.of_perm ?_)
  rw [← append_assoc]
  exact hback.append_right _

theorem recycleBlock_paged (h : Paged s) (hb : b ∈ s.heap.blocks) :
    Paged { s with heap := recycleBlock b s.heap } ∧
      ∃ x ∈ (recycleBlock b s.heap).blocks, x.free = true := by
  set bs := (modifyBlock b.addr markFreed s.heap).blocks with hbs
  have hbs' : bs = s.heap.blocks.map fun x => if x.addr = b.addr then markFreed x else x := rfl
  have hwhole : ∀ x ∈ bs, x.Whole := by
    intro x hx
    obtain ⟨y, hy, rfl⟩ := mem_map.1 (hbs' ▸ hx)
    obtain ⟨h1, h2, h3⟩ := h.whole y hy
    split <;> exact ⟨h1, h2, h3⟩
  have hpages : bs.flatMap Block.pages = s.heap.blocks.flatMap Block.pages := by
    refine flatMap_pages_map (fun x => ?_) _
    split <;> rfl
  obtain ⟨h1, h2, h3, h4⟩ :=
    coalesceLoop_spec bs (pushFree b s.heap.freeLists) hwhole
  have hlists : pushFree b s.heap.freeLists = s.heap.freeLists :=
    pushFree_of_none (h.whole b hb).class_none _
  refine ⟨⟨fun c => ?_, h2, h.pages.trans (.of_eq (h3.trans hpages).symm), h.owned⟩, h4 ?_⟩
  · exact (congrFun (h1.trans hlists) c).trans (h.lists c)
  · exact ⟨markFreed b, hbs' ▸ mem_map.2 ⟨b, hb, if_pos rfl⟩, rfl⟩

theorem Paged.after_kfree (h : Paged s) (ptr : Option ℕ) : Paged (kfree ptr s) := by
  rcases kfree_cases ptr s with ⟨n, heq⟩ | ⟨b, hb, -, heq | heq⟩
  · exact heq ▸ ⟨h.lists, h.whole, h.pages, h.owned⟩
  · exact heq ▸ releaseBlock_paged h hb
  · exact heq ▸ (recycleBlock_paged h hb).1

/-! ### Whole runs -/

theorem roundUp16_idem (size : ℕ) : roundUp16 (roundUp16 size) = roundUp16 size := by
  simp only [roundUp16]
  omega

/-- Everything `krealloc` can do to the state. -/
theorem krealloc_cases (ptr : Option ℕ) (size : ℕ) (s : Sys) :
    (∃ n, (krealloc ptr size s).2 = { s with heap := { s.heap with heapBadHdrs := n } }) ∨
      (krealloc ptr size s).2 = kfree ptr s ∨
      ∃ n, roundUp16 n = roundUp16 size ∧
        ((krealloc ptr size s).2 = (kmalloc n s).2 ∨
          (krealloc ptr size s).2 = kfree ptr (kmalloc n s).2) := by
  cases ptr with
  | none => exact .inr (.inr ⟨size, rfl, .inl rfl⟩)
  | some p =>
    simp only [krealloc]
    split
    · exact .inr (.inl rfl)
    split
    · exact .inl ⟨s.heap.heapBadHdrs, rfl⟩
    split
    · exact .inl ⟨_, rfl⟩
    split
    · exact .inl ⟨s.heap.heapBadHdrs, rfl⟩
    refine .inr (.inr ⟨roundUp16 size, roundUp16_idem size, ?_⟩)
    rcases kmalloc (roundUp16 size) s with ⟨_ | n, t⟩
    · exact .inl rfl
    · exact .inr rfl

theorem Paged.after_krealloc (h : Paged s) (ptr : Option ℕ)
    (hsafe : s.NoSpill (.kmalloc size)) : Paged (krealloc ptr size s).2 := by
  rcases krealloc_cases ptr size s with ⟨n, heq⟩ | heq | ⟨n, hn, heq | heq⟩
  · exact heq ▸ ⟨h.lists, h.whole, h.pages, h.owned⟩
  · exact heq ▸ h.after_kfree ptr
  all_goals
    have hk := h.after_kmalloc
      (show s.NoSpill (.kmalloc n) by simpa only [Sys.NoSpill, hn] using hsafe)
  · exact heq ▸ hk
  · exact heq ▸ hk.after_kfree ptr

/-- **The step.** -/
theorem Paged.step (h : Paged s) {c : Call} (hlegal : s.Legal c) (hsafe : s.NoSpill c) :
    Paged (s.step c) := by
  cases c with
  | kmalloc size | kzalloc size => exact h.after_kmalloc hsafe
  | krealloc ptr size => exact h.after_krealloc ptr hsafe
  | kfree ptr | kfreeSensitive ptr len => exact h.after_kfree ptr
  | pmm c => exact ⟨h.lists, h.whole, h.pages, h.owned.step_frame hlegal hsafe⟩

/-- **The run**: the invariant holds whenever the page allocator is not hit by its own spill, before
and after `heap_init`. -/
theorem paged_of_reach {info : Pmm.BootInfo} {σ : Pmm.Sys}
    (hσ : Reach (Pmm.Sys.Booted info) (fun σ c => σ.Legal c ∧ σ.NoSpill c) Pmm.Sys.step σ)
    (h : Reach (Sys.Booted σ) (fun s c => s.Legal c ∧ s.NoSpill c) Sys.step s) : Paged s := by
  refine Reach.invariant Paged ?_ (fun s c hs hok => hs.step hok.1 hok.2) h
  rintro s rfl
  exact paged_init (Pmm.owned_of_reach hσ)

/-! ### Blocks do not overlap -/

theorem Block.Whole.mem_pages (h : b.Whole) {x : ℕ} (h1 : b.addr ≤ x)
    (h2 : x < b.stop) : x / pageSize ∈ b.pages := by
  obtain ⟨ha, hw, -⟩ := h
  simp only [Block.pages, Block.stop, mem_range'_1, pageSize, headerSize] at *
  omega

/-- Blocks with no page in common do not overlap. -/
theorem disjoint_of_pages {b' : Block} (hb : b.Whole) (hb' : b'.Whole)
    (h : ∀ q ∈ b.pages, q ∉ b'.pages) : b.stop ≤ b'.addr ∨ b'.stop ≤ b.addr := by
  by_contra hover
  rw [not_or, not_le, not_le] at hover
  -- the larger of the two start addresses lies in both
  have hmem : max b.addr b'.addr / pageSize ∈ b.pages :=
    hb.mem_pages (le_max_left ..) (max_lt (by simp only [Block.stop, headerSize]; omega) hover.1)
  exact h _ hmem
    (hb'.mem_pages (le_max_right ..)
      (max_lt hover.2 (by simp only [Block.stop, headerSize]; omega)))

theorem Paged.pages_nodup (h : Paged s) : (s.heap.blocks.flatMap Block.pages).Nodup :=
  h.pages.nodup_iff.1
    (nodup_append.1 (nodup_append.1 h.owned.nodup).1).1

/-- **No two blocks overlap**, headers included. -/
theorem Paged.blocks_disjoint (h : Paged s) :
    s.heap.blocks.Pairwise fun b b' => b.stop ≤ b'.addr ∨ b'.stop ≤ b.addr := by
  have hpw := (nodup_flatMap.1 h.pages_nodup).2
  refine hpw.imp_of_mem fun hb hb' hdisj => ?_
  exact disjoint_of_pages (h.whole _ hb) (h.whole _ hb') fun q hq hq' => hdisj hq hq'

end PeakOs.Heap
