import PeakOs.Blobstore.Layout

/-!
# No page is lost

Pages that no object owns are to be had again: those above `next_page`, and those in a free span.
The store keeps that (`Covered`) as long as the table of free spans has an entry for what a deletion
frees, and the table of objects one for what a creation takes. If not, the pages stay below
`next_page` with nobody to give them back.

No free span ends at `next_page`, because a deletion at the tip takes the spans below it along. So
when the last object goes, everything goes, and the whole store can be had in one piece.

## Main results

* `Covered.create`, `Covered.delete` — one call
* `spaceKept_of_run` — every run
* `thirty_three_holes` — a run that loses a page
-/

namespace PeakOs.Blobstore

open Finset Function List Option

/-- An object has the page. -/
def Store.owned (s : Store) (p : ℕ) : Prop :=
  ∃ i a, s.spans (.inl i) = some a ∧ a.start ≤ p ∧ p < a.stop

/-- A free span has the page. -/
def Store.spare (s : Store) (p : ℕ) : Prop :=
  ∃ i a, s.spans (.inr i) = some a ∧ a.start ≤ p ∧ p < a.stop

/-- A page that no object owns is in a free span or above `next_page`, and if there are no objects,
any number of pages can be had in one piece. -/
structure SpaceKept (s : Store) : Prop where
  available : ∀ p < s.super.totalPages.toNat,
    s.owned p ∨ s.spare p ∨ s.super.nextPage.toNat ≤ p
  whole : (∀ i, (s.objects i).inUse = false) → ∀ (io : Io) (size : UInt64),
    blobstoreAvailable io s = true → io.cap = true →
      size.toNat ≤ 4096 * s.super.totalPages.toNat → (blobstoreCreate io size s).1 ≠ none

/-- There is an entry for what the call adds to a table. -/
def HasEntry (s : Store) : Io × Call → Prop
  | (_, .create size) =>
    (takePages (pagesFor size) s).1 ≠ none → ∃ i, (s.objects i).inUse = false
  | (_, .delete id) => ∀ i, findObj id s = some i →
    (s.objects i).startPage + (s.objects i).npages = s.super.nextPage ∨
      ∃ j, (s.freeSpans j).inUse = false
  | _ => True

/-- After `blobstore_init`: what it accepted from the device, if anything, has no gaps. -/
def BootedFull (s : Store) : Prop :=
  ∃ io d, s = blobstoreInit io d ∧
    (metaReadable io d = true → Layout s ∧ ∀ p < s.super.nextPage.toNat, s.owned p)

structure Covered (s : Store) : Prop where
  layout : Layout s
  tiled : Tiled s.super.nextPage.toNat s.spans
  tip : ∀ {i a}, s.spans (.inr i) = some a → a.stop ≠ s.super.nextPage.toNat
  total : s.ready = true → s.super.totalPages.toNat ≠ 0

variable {s s' : Store} {io : Io} {size : UInt64} {k p : ℕ} {a : Span}

section

variable (h : Covered s)
include h

theorem Covered.congr (hobj : s'.objects = s.objects)
    (hspan : s'.freeSpans = s.freeSpans) (hnext : s'.super.nextPage = s.super.nextPage)
    (htotal : s'.super.totalPages = s.super.totalPages) (hready : s'.ready = s.ready) :
    Covered s' := by
  have hspans : s'.spans = s.spans := by rw [Store.spans, Store.spans, hobj, hspan]
  refine ⟨h.layout.congr hobj hspan hnext htotal, ?_, ?_, ?_⟩
  · rw [hspans, hnext]
    exact h.tiled
  · rw [hspans, hnext]
    exact h.tip
  · rw [hready, htotal]
    exact h.total

theorem Covered.sameMeta (hs : SameMeta s s') : Covered s' :=
  h.congr hs.objects hs.freeSpans (by rw [hs.super]) (by rw [hs.super]) hs.ready

theorem Covered.writeMeta (io : Io) : Covered (writeMeta io s).2 := by
  obtain ⟨d, hd, -⟩ := writeMeta_eq io s
  rw [hd]
  exact h.congr rfl rfl rfl rfl rfl

/-! ### Without objects -/

/-- **If there are no objects, everything is above the tip.** -/
theorem Covered.next_eq_zero
    (hnone : ∀ i, (s.objects i).inUse = false) : s.super.nextPage.toNat = 0 := by
  by_contra hpos
  obtain ⟨j, a, ha, hstart, hstop⟩ := h.tiled (s.super.nextPage.toNat - 1) (by omega)
  rcases j with i | i
  · rw [spans_inl, BlobObj.span, hnone i] at ha
    cases ha
  · have hle := h.layout.packed.below ha
    exact h.tip ha (by omega)

theorem Covered.spaceKept : SpaceKept s := by
  refine ⟨fun p _ => ?_, fun hnone io size havail hcap hsize => ?_⟩
  · rcases lt_or_ge p s.super.nextPage.toNat with hlt | hge
    · obtain ⟨i | i, a, ha, hp⟩ := h.tiled p hlt
      · exact .inl ⟨i, a, ha, hp⟩
      · exact .inr (.inl ⟨i, a, ha, hp⟩)
    · exact .inr (.inr hge)
  have hzero := h.next_eq_zero hnone
  have hready : s.ready = true := by
    rw [blobstoreAvailable, Bool.and_eq_true] at havail
    exact havail.1
  have htotal := h.total hready
  have htotal' := h.layout.total_le
  have hmax : blobMaxPages.toNat = 65536 := rfl
  have hcount : pageCount size ≤ s.super.totalPages.toNat := by
    rw [pageCount]
    omega
  have hpages := @pagesFor_of_lt size (by omega)
  have hnospan : ∀ i, (s.freeSpans i).inUse ≠ true := by
    intro i hi
    have hspan : s.spans (.inr i) = _ := BlobFreeSpan.span_of_inUse hi
    have hne := h.layout.packed.nonempty hspan
    have hle := h.layout.packed.below hspan
    omega
  have hbest : (bestSpan (pagesFor size) s).1 = none := by
    rcases hb : (bestSpan (pagesFor size) s).1 with _ | i
    · rfl
    · exact absurd (bestSpan_spec hb).1 (hnospan i)
  have htake : takePages (pagesFor size) s =
      (some s.super.nextPage, s.setNextPage (s.super.nextPage + pagesFor size)) := by
    rw [takePages, freeSpanTake, hbest]
    dsimp only
    rw [if_neg]
    rw [UInt32.not_lt, UInt32.le_iff_toNat_le, toNat_add_of_lt (by omega)]
    omega
  have hslot : ((finRange 256).find? fun i => !(s.objects i).inUse) ≠ none := by
    intro hc
    have hfirst := find?_eq_none.1 hc 0 (mem_finRange _)
    rw [hnone 0] at hfirst
    exact hfirst rfl
  rw [blobstoreCreate, havail, hcap, htake]
  dsimp only
  obtain ⟨i, hi⟩ := ne_none_iff_exists'.1 hslot
  rw [show ((finRange 256).find? fun i => !((s.setNextPage
    (s.super.nextPage + pagesFor size)).objects i).inUse) = some i from hi]
  exact some_ne_none _

/-! ### Creation -/

theorem Covered.create (hwrap : NoWrap s size) (hentry : HasEntry s (io, .create size)) :
    Covered (blobstoreCreate io size s).2 := by
  rcases h.layout.create_cases io hwrap with heq | ⟨start, s₁, htake, htaken, ⟨hall, -⟩ |
    ⟨i, hi, heq⟩⟩
  · rwa [heq]
  · obtain ⟨j, hj⟩ := hentry (by rw [htake]; exact some_ne_none start)
    rw [hall j] at hj
    cases hj
  have hfree : s.spans (.inl i) = none := by
    rw [spans_inl, BlobObj.span, hi]
    rfl
  rw [heq]
  refine Covered.writeMeta ⟨htaken.withObj h.layout hwrap.count_lt i, ?_, fun {k a} hk => ?_,
    fun hr => ?_⟩ io
  · show Tiled s₁.super.nextPage.toNat (s₁.setObj i _).spans
    rw [spans_setObj]
    show Tiled _ (update _ _ (some ⟨start.toNat, start.toNat + (pagesFor size).toNat⟩))
    rcases htaken.source with ⟨j, stop, hj, -, hspans, hnext⟩ | ⟨j, hj, hspans, hnext⟩ |
      ⟨hstart, hspans, hnext⟩
    · rw [hspans, hnext]
      exact h.tiled.split hj hfree _
    · rw [hspans, hnext]
      exact h.tiled.move hj hfree
    · rw [hspans, hnext, hstart]
      exact h.tiled.push hfree _
  · replace hk : s₁.spans (.inr k) = some a := hk
    show a.stop ≠ s₁.super.nextPage.toNat
    rcases htaken.source with ⟨j, stop, hj, -, hspans, hnext⟩ | ⟨j, hj, hspans, hnext⟩ |
      ⟨hstart, hspans, hnext⟩ <;> rw [hspans] at hk
    · rw [update_apply] at hk
      rw [hnext]
      split at hk
      · obtain rfl := some.inj hk
        exact h.tip (a := ⟨start.toNat, stop⟩) hj
      · exact h.tip hk
    · rw [update_apply] at hk
      rw [hnext]
      split at hk
      · cases hk
      · exact h.tip hk
    · have hle := h.layout.packed.below hk
      have hpages := pagesFor_of_lt hwrap.count_lt
      omega
  show s₁.super.totalPages.toNat ≠ 0
  rw [htaken.super]
  exact h.total (htaken.ready.symm.trans hr)

end

/-! ### Deletion -/

/-- The entries of the table that are in use. -/
def usedSpans (s : Store) : Finset SpanIx :=
  Finset.univ.filter fun i => (s.freeSpans i).inUse = true

/-- The loop goes on until no span ends at the tip. -/
theorem tipSpan_rewindLoop : ∀ {s : Store}, (usedSpans s).card ≤ k →
    tipSpan (rewindLoop k s) = none := by
  induction k with
  | zero =>
    intro s hcard
    refine find?_eq_none.2 fun i _ => ?_
    have hempty := card_eq_zero.1 (Nat.le_zero.1 hcard)
    have hi : (s.freeSpans i).inUse ≠ true := fun hi =>
      absurd (Finset.mem_filter.2 ⟨mem_univ i, hi⟩) (by
        rw [show univ.filter _ = usedSpans s from rfl, hempty]
        exact notMem_empty i)
    rw [Bool.and_eq_true]
    exact fun hc => hi hc.1
  | succ k ih =>
    intro s hcard
    rw [rewindLoop]
    rcases htip : tipSpan s with _ | i
    · exact htip
    refine ih ?_
    have huse : (s.freeSpans i).inUse = true := by
      have hfound := find_finRange htip
      rw [Bool.and_eq_true] at hfound
      exact hfound.1
    have hsub : usedSpans ({ (s.setNextPage (s.freeSpans i).startPage).setSpan i
        { s.freeSpans i with inUse := false } with
      freePagesTotal := s.freePagesTotal - (s.freeSpans i).npages }) ⊆ (usedSpans s).erase i := by
      intro j hj
      have hj' := (Finset.mem_filter.1 hj).2
      have hji : j ≠ i := by
        rintro rfl
        simp [Store.setSpan] at hj'
      refine Finset.mem_erase.2 ⟨hji, Finset.mem_filter.2 ⟨mem_univ j, ?_⟩⟩
      simpa [Store.setSpan, Store.setNextPage, hji] using hj'
    have hle := card_le_card hsub
    have hmem : i ∈ usedSpans s := Finset.mem_filter.2 ⟨mem_univ i, huse⟩
    rw [card_erase_of_mem hmem] at hle
    omega

theorem tip_of_tipSpan_none (h : Layout s) (htip : tipSpan s = none) {i : SpanIx}
    (ha : s.spans (.inr i) = some a) : a.stop ≠ s.super.nextPage.toNat := by
  intro hstop
  rw [spans_inr, BlobFreeSpan.span] at ha
  split at ha
  next huse =>
    obtain rfl := some.inj ha
    dsimp only at hstop
    have hnext := h.next_lt
    have hnone := find?_eq_none.1 htip i (mem_finRange i)
    rw [huse, Bool.true_and, beq_iff_eq] at hnone
    refine hnone (UInt32.toNat_inj.1 ?_)
    rw [toNat_add_of_lt (by omega), hstop]
  · cases ha

theorem Tiled.rewindLoop : ∀ {s : Store}, Layout s → Tiled s.super.nextPage.toNat s.spans →
    Tiled (rewindLoop k s).super.nextPage.toNat (rewindLoop k s).spans := by
  induction k with
  | zero => exact fun _ ht => ht
  | succ k ih =>
    intro s h ht
    rw [Blobstore.rewindLoop]
    rcases htip : tipSpan s with _ | i
    · exact ht
    have hspan := tipSpan_spec h htip
    have hne := h.packed.nonempty hspan
    obtain ⟨hpacked, hle⟩ := h.setNextPage_lower hspan rfl rfl
    set s₁ : Store := { (s.setNextPage (s.freeSpans i).startPage).setSpan i
        { s.freeSpans i with inUse := false } with
      freePagesTotal := s.freePagesTotal - (s.freeSpans i).npages } with hs₁
    have hspans : s₁.spans = update s.spans (.inr i) none :=
      spans_setSpan (s.setNextPage (s.freeSpans i).startPage) i
        { s.freeSpans i with inUse := false }
    refine ih ⟨?_, hle, h.total_le, h.fits⟩ ?_
    · rw [hspans]
      exact hpacked
    · rw [hspans]
      exact ht.lower hspan hne.le

/-- **Release**, if there is an entry for the span. -/
theorem Covered.releasePages (h : Covered s) {i : ObjIx} (huse : (s.objects i).inUse = true)
    (hentry : (s.objects i).startPage + (s.objects i).npages = s.super.nextPage ∨
      ∃ j, (s.freeSpans j).inUse = false) :
    Covered (releasePages (s.objects i).startPage (s.objects i).npages
      (s.setObj i { s.objects i with inUse := false })) := by
  have hspan : s.spans (.inl i) = _ := BlobObj.span_of_inUse huse
  have hbelow := h.layout.packed.below hspan
  have hne := h.layout.packed.nonempty hspan
  have hnext := h.layout.next_lt
  dsimp only at hbelow hne
  have hsum := toNat_add_of_lt (a := (s.objects i).startPage) (b := (s.objects i).npages) (by omega)
  obtain ⟨hlayout, ⟨-, hlower, heq⟩ | ⟨htip, hall | ⟨j, hj, hsuper, hready, hspans⟩⟩⟩ :=
    h.layout.releasePages huse
  · rw [heq] at hlayout ⊢
    obtain ⟨-, -, hready, hsuper⟩ := rewindLoop_frame 32
      ((s.setObj i { s.objects i with inUse := false }).setNextPage (s.objects i).startPage)
    refine ⟨hlayout, Tiled.rewindLoop hlower ?_, tip_of_tipSpan_none hlayout
      (tipSpan_rewindLoop ((card_le_univ _).trans (by rw [Fintype.card_fin]))),
      fun hr => ?_⟩
    · show Tiled _ (s.setObj i _).spans
      rw [spans_setObj]
      exact h.tiled.lower hspan (by dsimp only; omega)
    · rw [hsuper]
      exact h.total (hready.symm.trans hr)
  · obtain ⟨j, hj⟩ := hentry.resolve_left htip
    rw [hall j] at hj
    cases hj
  refine ⟨hlayout, ?_, fun {k a} hk => ?_, by rw [hready, hsuper]; exact h.total⟩
  · rw [hsuper, hspans]
    refine h.tiled.move hspan ?_
    rw [spans_inr, BlobFreeSpan.span, hj]
    rfl
  rw [hspans, update_apply] at hk
  rw [hsuper]
  split at hk
  · rw [← some.inj hk]
    refine fun hc => htip (UInt32.toNat_inj.1 ?_)
    rw [hsum]
    exact hc
  · rw [update_of_ne fun hc => Sum.inr_ne_inl hc] at hk
    exact h.tip hk

theorem Covered.delete (h : Covered s) {id : UInt32}
    (hentry : HasEntry s (io, .delete id)) : Covered (blobstoreDelete io id s).2 := by
  rcases blobstoreDelete_cases io id s with heq | ⟨i, s₁, hfind, ⟨hobj, hspan, hnext, htotal,
    hready⟩, -, heq⟩ <;> rw [heq]
  · exact h
  have huse := inUse_of_findObj hfind
  have hroom := hentry i hfind
  rw [← hobj] at huse
  rw [← hobj, ← hspan, ← hnext] at hroom
  exact ((h.congr hobj hspan hnext htotal hready).releasePages huse hroom).writeMeta io

/-! ### The other calls -/

theorem Covered.resize (h : Covered s) (io : Io) (id : UInt32)
    (hwrap : NoWrap s size) : Covered (blobstoreResize io id size s).2 := by
  rcases h.layout.resize_cases io id hwrap with heq | ⟨i, s', -, heq, hr⟩
  · rwa [heq]
  rw [heq]
  have htotal : s'.super.totalPages = s.super.totalPages := by rw [hr.super]
  refine Covered.writeMeta ⟨hr.layout h.layout hwrap.count_lt, ?_, fun {j a} hj => ?_, ?_⟩ io
  · rcases hr.spans with ⟨hspans, hnext⟩ | ⟨k, -, hi, hspans, hnext, -⟩
    · rw [hspans, hnext]
      exact h.tiled
    · rw [hspans, hnext]
      exact h.tiled.extend hi rfl (h.layout.packed.nonempty hi) k
  · rcases hr.spans with ⟨hspans, hnext⟩ | ⟨k, hk, -, hspans, hnext, -⟩
    · rw [hspans] at hj
      rw [hnext]
      exact h.tip hj
    rw [hspans, update_of_ne fun hc => Sum.inr_ne_inl hc] at hj
    have hle := h.layout.packed.below hj
    omega
  · rw [hr.ready, htotal]
    exact h.total

theorem Covered.write (h : Covered s) (io : Io) (id : UInt32) {off : UInt64}
    {bytes : List UInt8} (hwrap : NoWrap s (off + UInt64.ofNat bytes.length)) :
    Covered (blobstoreWrite io id off bytes s).2 :=
  blobstoreWrite_keeps Covered.sameMeta h (h.resize io id hwrap)

theorem Covered.sync (h : Covered s) (io : Io) : Covered (blobstoreSync io s).2 :=
  blobstoreSync_keeps Covered.sameMeta Covered.writeMeta h io

/-- A store without spans, and with the whole device above the tip. -/
theorem covered_formatNew (io : Io) (hspan : ∀ i, (s.freeSpans i).inUse = false) :
    Covered { formatNew io s with ready := true } := by
  have hlayout := layout_formatNew io hspan
  obtain ⟨d, hd, -⟩ := writeMeta_eq io { s with super := freshSuper, objects := fun _ => noObj }
  rw [formatNew, hd] at hlayout ⊢
  refine ⟨hlayout.congr rfl rfl rfl rfl, fun p hp => absurd hp (Nat.not_lt_zero p),
    fun {i a} hi => ?_, fun _ => show (65536 : ℕ) ≠ 0 by decide⟩
  replace hi : (s.freeSpans i).span = some a := hi
  rw [BlobFreeSpan.span, hspan i] at hi
  cases hi

theorem total_of_superOk {sp : BlobSuper} (h : superOk sp = true) : sp.totalPages.toNat ≠ 0 := by
  simp only [superOk, Bool.and_eq_true, bne_iff_ne] at h
  exact fun hc => h.1.2 (UInt32.toNat_inj.1 hc)

theorem superOk_of_readable {d : Peakdisk.Disk} (h : metaReadable io d = true) :
    superOk (decodeSuper d) = true := by
  simp only [metaReadable, Bool.and_eq_true] at h
  exact h.1.1.2

theorem Covered.load (h : Covered s) (hload : LoadSafe io s) : Covered (blobstoreLoad io s).2 := by
  rw [blobstoreLoad]
  split
  · exact h
  rw [LoadSafe] at hload
  rcases hread : metaReadable io s.disk with _ | _ <;> rw [hread] at hload
  · obtain ⟨sp, hmeta⟩ := readMeta_of_not_readable (s := s.clearCache) hread
    rw [hmeta]
    exact covered_formatNew io (s := { s.clearCache with super := sp }) hload
  · rw [readMeta_of_readable (s := s.clearCache) hread]
    obtain ⟨hsuper, hobj⟩ := hload
    have hok := total_of_superOk (superOk_of_readable hread)
    rw [hsuper] at hok
    have hsame : Covered { s with ready := true } :=
      ⟨h.layout.congr rfl rfl rfl rfl, h.tiled, h.tip, fun _ => hok⟩
    exact hsame.congr hobj rfl (congrArg BlobSuper.nextPage hsuper)
      (congrArg BlobSuper.totalPages hsuper) rfl

/-! ### Runs -/

theorem covered_of_booted (h : BootedFull s) : Covered s := by
  obtain ⟨io, d, rfl, hfull⟩ := h
  rw [blobstoreInit] at hfull ⊢
  split
  · refine ⟨layout_of_empty (fun _ => rfl) (fun _ => rfl) le_rfl (Nat.zero_le _),
      fun p hp => absurd hp (Nat.not_lt_zero p), fun {i a} hi => ?_, fun hr => ?_⟩
    · cases hi
    · cases hr
  next hpresent =>
  rw [if_neg hpresent] at hfull
  rcases hread : metaReadable io d with _ | _
  · obtain ⟨sp, hmeta⟩ := readMeta_of_not_readable (s := blankStore d) hread
    rw [hmeta]
    exact covered_formatNew io (s := { blankStore d with super := sp }) fun _ => rfl
  have hmeta := readMeta_of_readable (s := blankStore d) hread
  rw [hmeta] at hfull ⊢
  obtain ⟨hlayout, howned⟩ := hfull hread
  refine ⟨hlayout, fun p hp => ?_, fun {i a} hi => ?_, fun _ =>
    total_of_superOk (superOk_of_readable hread)⟩
  · obtain ⟨i, a, ha, hp'⟩ := howned p hp
    exact ⟨.inl i, a, ha, hp'⟩
  · cases hi

theorem Covered.step (h : Covered s) {e : Io × Call} (hsafe : Safe s e)
    (hentry : HasEntry s e) : Covered (step s e) := by
  obtain ⟨io, c⟩ := e
  rcases c with size | id | ⟨id, size⟩ | ⟨id, off, len⟩ | ⟨id, off, bytes⟩ | _ | _ | d
  · exact h.create hsafe hentry
  · exact h.delete hentry
  · exact h.resize io id hsafe
  · exact h.sameMeta (sameMeta_blobstoreRead ..)
  · exact h.write io id hsafe
  · exact h.sync io
  · exact h.load hsafe
  · exact h.congr rfl rfl rfl rfl rfl

/-- **Every run** in which the layout is kept and the tables have room. -/
theorem spaceKept_of_run {s : Store}
    (h : Reach BootedFull (fun s e => Safe s e ∧ HasEntry s e) step s) : SpaceKept s :=
  (h.invariant Covered (fun _ => covered_of_booted) fun _ _ hc hok =>
    hc.step hok.1 hok.2).spaceKept

theorem bootedFull_freshStore : BootedFull freshStore :=
  ⟨goodIo, fun _ _ => 0, rfl, fun h => absurd h (by decide +kernel)⟩

theorem spaceKept_create_delete :
    SpaceKept (step (step freshStore (goodIo, .create 5000)) (goodIo, .delete 1)) :=
  spaceKept_of_run (.call _ (.call _ (.start bootedFull_freshStore)
    ⟨show NoWrap freshStore 5000 by rw [NoWrap]; decide +kernel,
      fun _ => ⟨⟨0, by decide⟩, by decide +kernel⟩⟩) ⟨trivial, fun _ _ => .inr
        ⟨⟨0, by decide⟩, by decide +kernel⟩⟩)

/-- 66 objects of one page, of which every other one is deleted. -/
def holeCalls : List (Io × Call) :=
  List.replicate 66 (goodIo, .create 4096) ++
    (List.range 33).map fun k => (goodIo, .delete (UInt32.ofNat (2 * k + 1)))

def apartFrom (p : ℕ) (a : Span) : Bool :=
  p < a.start || a.stop ≤ p

/-- The page is below `next_page` and in no span. -/
def lost (s : Store) (p : ℕ) : Bool :=
  decide (p < s.super.nextPage.toNat) && decide (p < s.super.totalPages.toNat) &&
    ((List.finRange 256).all fun i => (s.objects i).span.all (apartFrom p)) &&
    (List.finRange 32).all fun i => (s.freeSpans i).span.all (apartFrom p)

theorem apartFrom_of_all {n : ℕ} {f : Fin n → Option Span}
    (h : ((finRange n).all fun i => (f i).all (apartFrom p)) = true) {i : Fin n}
    (ha : f i = some a) : p < a.start ∨ a.stop ≤ p := by
  have hi := List.all_eq_true.1 h i (mem_finRange i)
  rw [ha, all_some, apartFrom, Bool.or_eq_true, decide_eq_true_iff, decide_eq_true_iff] at hi
  exact hi

theorem not_spaceKept_of_lost (h : lost s p = true) : ¬ SpaceKept s := by
  intro hkept
  rw [lost, Bool.and_eq_true, Bool.and_eq_true, Bool.and_eq_true, decide_eq_true_iff,
    decide_eq_true_iff] at h
  obtain ⟨⟨⟨hnext, htotal⟩, hobj⟩, hspare⟩ := h
  rcases hkept.available p htotal with ⟨i, a, ha, hp⟩ | ⟨i, a, ha, hp⟩ | hge
  · have hapart := apartFrom_of_all hobj ha
    omega
  · have hapart := apartFrom_of_all hspare ha
    omega
  · omega

/-- The table of free spans has 32 entries, and the 33rd hole is lost. -/
theorem thirty_three_holes : ¬ ∀ s, Reach BootedFull (fun _ _ => True) step s → SpaceKept s := by
  intro h
  have hlost : lost (holeCalls.foldl step freshStore) 64 = true := by decide +kernel
  exact not_spaceKept_of_lost hlost
    (h _ ((Reach.start bootedFull_freshStore).calls holeCalls (allowedFrom_true _ _ _)))

end PeakOs.Blobstore
