import Mathlib.Data.Finset.Lattice.Fold
import Mathlib.Order.Lattice.Nat
import PeakOs.Lib.Transition
import PeakOs.Vmm.Tables

/-!
# Address spaces as finite maps

What an address space is for: a map from pages to a physical address and permissions. `PageMap` is
that map and its three updates, and a run keeps one beside the tables. In every run on user
addresses the tables are sound, and a call leaves the answers for all pages alone that it does not
name. Whether the answers are those of the map is another matter, because the address that
`vmm_query` reads out of an entry is cut off at the low end only. A page that may not be executed
has bit 63 set in its entry, and so in the address that is reported for it, and `vmm_protect_range`
stores that address again: once a page has lost the right to execute, it does not give it back.

With pages that stay executable, at page-aligned addresses below `2 ^ 63`, the tables are the map.

## Main results

* `query_of_run` — every run of such calls
* `query_reports_nx` — a page mapped for reading and writing
-/

namespace PeakOs.Vmm

open Option RadixTree
open Function

/-! ### The map -/

structure Mapping where
  paddr : BitVec 64
  flags : Flags

/-- By page number. -/
abbrev PageMap := ℕ → Option Mapping

/-- The address and the permissions: present, write, user and execute. -/
def PageMap.query (m : PageMap) (vaddr : ℕ) : Option (BitVec 64 × Flags) :=
  (m (vaddr / 4096)).map fun x => (x.paddr, x.flags &&& 0xF#32)

/-- Set the permissions of `n` pages from page `k` on, as far as they are mapped. -/
def PageMap.protect (flags : Flags) : ℕ → ℕ → PageMap → PageMap
  | 0, _, m => m
  | n + 1, k, m =>
    match m k with
    | none => m
    | some x => protect flags n (k + 1) (Function.update m k (some { x with flags := flags }))

/-- The number of pages of `len` bytes. -/
def pageCount (len : ℕ) : ℕ := (len + 4095) / 4096

def PageMap.map (vaddr : ℕ) (paddr : BitVec 64) (flags : Flags) (m : PageMap) : PageMap :=
  if rejects vaddr flags then m else Function.update m (vaddr / 4096) (some ⟨paddr, flags⟩)

/-- What a call does to the map. -/
def Call.apply (m : PageMap) : Call → PageMap
  | .map _ vaddr paddr flags => m.map vaddr paddr flags
  | .mapPage _ vaddr paddr userWritable =>
    m.map vaddr paddr (if userWritable then protRw else protRx)
  | .unmap vaddr => Function.update m (vaddr / 4096) none
  | .protect _ _ vaddr len flags =>
    if rejects vaddr flags then m else m.protect flags (pageCount len) (vaddr / 4096)

/-- The pages a call names. -/
def Call.Names (k : ℕ) : Call → Prop
  | .map _ vaddr _ _ | .mapPage _ vaddr _ _ | .unmap vaddr => k = vaddr / 4096
  | .protect _ _ vaddr len _ => vaddr / 4096 ≤ k ∧ k < vaddr / 4096 + pageCount len

/-! ### Runs -/

/-- The calls in question: on user addresses, with an allocator that does not fail, and with enough
turns for the loop to come to its end. -/
def Call.InUser (s : State) : Call → Prop
  | .map policy vaddr _ _ | .mapPage policy vaddr _ _ =>
    vaddr < userEnd ∧ policy.Reliable ∧ 3 ≤ s.free.card
  | .unmap vaddr => vaddr < userEnd
  | .protect _ fuel vaddr len _ => vaddr + len ≤ userEnd ∧ pageCount len ≤ fuel

/-- A physical address that an entry can hold. -/
def IsPageAddr (paddr : BitVec 64) : Prop := paddr.toNat % 4096 = 0 ∧ paddr.toNat < 2 ^ 63

/-- The page is, or stays, executable. -/
def Call.KeepsExec : Call → Prop
  | .map _ vaddr paddr flags => rejects vaddr flags = false → isExec flags ∧ IsPageAddr paddr
  | .mapPage _ vaddr paddr userWritable =>
    rejects vaddr (if userWritable then protRw else protRx) = false →
      userWritable = false ∧ IsPageAddr paddr
  | .unmap _ => True
  | .protect _ _ vaddr _ flags => rejects vaddr flags = false → isExec flags

/-- The machine, and the map that goes with it. -/
structure Sys where
  machine : State
  map : PageMap

def Sys.step (root : ℕ) (σ : Sys) (c : Call) : Sys := ⟨c.run root σ.machine, c.apply σ.map⟩

/-- An address space just created, NX enabled. -/
def Sys.Start (root : ℕ) (σ : Sys) : Prop :=
  ∃ s policy, (∀ p ∈ s.free, 0 < p ∧ p < Pmm.maxPages) ∧ s.nxEnabled = true ∧
    vmmCreateAddressSpace policy s = (some root, σ.machine) ∧ σ.map = fun _ => none

/-! ### The user half -/

/-- The paths of user addresses. -/
def userRegion : Region 512 where
  paths := { π | π.length ≤ 3 ∧ ∀ i ∈ π.head?, i.val < 256 }
  nil_mem := ⟨Nat.zero_le _, nofun⟩
  closed := by
    rintro π i ⟨hlen, hhead⟩
    refine ⟨?_, fun j hj => hhead j ?_⟩
    · rw [List.length_append] at hlen
      omega
    · rw [List.head?_append, Option.mem_def.1 hj]
      rfl

theorem length_userRegion : ∀ π ∈ userRegion.paths, π.length ≤ 3 := fun _ h => h.1

theorem tableIndex_val (vaddr level : ℕ) :
    (tableIndex vaddr level).val = vaddr / 2 ^ (12 + 9 * level) % 512 := rfl

variable {v w root : ℕ} {x : Mapping}

theorem upperPath_mem (hv : v < userEnd) : upperPath v ∈ userRegion.paths := by
  refine ⟨by simp [upperPath], fun i hi => ?_⟩
  obtain rfl : tableIndex v 3 = i := some.inj hi
  rw [tableIndex_val]
  rw [userEnd] at hv
  omega

theorem samePage_iff (hv : v < userEnd) (hw : w < userEnd) :
    SamePage v w ↔ v / 4096 = w / 4096 := by
  rw [userEnd] at hv hw
  simp only [SamePage, upperPath, List.cons.injEq, Fin.ext_iff, tableIndex_val, and_true]
  constructor
  · rintro ⟨⟨h3, h2, h1⟩, h0⟩
    omega
  · intro h
    omega

theorem rejects_congr (flags : Flags) (hv : v < userEnd) (hw : w < userEnd)
    (hv' : v % 4096 = 0) (hw' : w % 4096 = 0) : rejects v flags = rejects w flags := by
  simp only [rejects, hv', hw', not_le.2 hv, not_le.2 hw]

/-- Right after its creation the user half has no table. -/
theorem sound_of_create {s s' : State} {policy : Policy}
    (hpages : ∀ p ∈ s.free, 0 < p ∧ p < Pmm.maxPages)
    (h : vmmCreateAddressSpace policy s = (some root, s')) :
    Sound userRegion root s' ∧ s'.nxEnabled = s.nxEnabled ∧
      (∀ v < userEnd, leaf root v s' = none) := by
  obtain ⟨hroot, row, rfl, hlow, -⟩ := vmmCreateAddressSpace_spec hpages h
  have hnode : ∀ π ∈ userRegion.paths, π ≠ [] → node child (s.take root row).mem root π = none := by
    rintro (_ | ⟨i, π⟩) hπ hne
    · exact absurd rfl hne
    · rw [node, State.take_mem, update_self, hlow i (hπ.2 i rfl)]
      rfl
  have honly : ∀ {π t}, π ∈ userRegion.paths → node child (s.take root row).mem root π = some t →
      π = [] ∧ t = root := by
    intro π t hπ ht
    by_cases hπ0 : π = []
    · subst hπ0
      exact ⟨rfl, (some.inj ht).symm⟩
    · rw [hnode π hπ hπ0] at ht
      cases ht
  refine ⟨⟨⟨fun hπ hρ ht ht' => (honly hπ ht).1.trans (honly hρ ht').1.symm⟩, fun q hq => ?_,
    fun q hq => hpages q (Finset.mem_of_mem_erase hq)⟩, rfl, fun v hv => ?_⟩
  · rintro ⟨π, hπ, ht⟩
    exact (Finset.mem_erase.1 hq).1 (honly hπ ht).2
  · rw [leaf, entry, hnode _ (upperPath_mem hv) (List.cons_ne_nil _ _)]
    rfl

/-! ### What a call leaves alone -/

/-- Between the two states only the entries of the pages in `P` may have changed. -/
structure OnlyAt (P : ℕ → Prop) (root : ℕ) (s s' : State) : Prop where
  sound : Sound userRegion root s'
  nxEnabled : s'.nxEnabled = s.nxEnabled
  others : ∀ w < userEnd, ¬ P (w / 4096) → leaf root w s' = leaf root w s

section Call

variable {root : ℕ} {s s' s'' : State} {P Q : ℕ → Prop}

theorem OnlyAt.refl (h : Sound userRegion root s) : OnlyAt P root s s := ⟨h, rfl, fun _ _ _ => rfl⟩

theorem OnlyAt.trans (h : OnlyAt P root s s') (h' : OnlyAt Q root s' s'') (hPQ : ∀ k, Q k → P k) :
    OnlyAt P root s s'' :=
  ⟨h'.sound, h'.nxEnabled.trans h.nxEnabled, fun w hw hP =>
    (h'.others w hw (mt (hPQ _) hP)).trans (h.others w hw hP)⟩

theorem OnlyAt.mono (h : OnlyAt P root s s') (hPQ : ∀ k, P k → Q k) : OnlyAt Q root s s' :=
  ⟨h.sound, h.nxEnabled, fun w hw hQ => h.others w hw (mt (hPQ _) hQ)⟩

theorem leaf_take (h : Sound userRegion root s) {pg v : ℕ} (hpg : pg ∈ s.free)
    (row : Fin 512 → Pte) (hv : v < userEnd) : leaf root v (s.take pg row) = leaf root v s := by
  rw [leaf, leaf, State.take_mem, entry_update row (h.fresh pg hpg) (upperPath_mem hv)]

theorem leaf_set (h : Sound userRegion root s) {v w t : ℕ} (hv : v < userEnd)
    (ht : node child s.mem root (upperPath v) = some t) (e : Pte) (hw : w < userEnd) :
    leaf root w (s.setLeaf t v e) =
      if w / 4096 = v / 4096 then (some e).filter present else leaf root w s := by
  rw [leaf_setLeaf length_userRegion h (upperPath_mem hv) ht e (upperPath_mem hw)]
  simp only [samePage_iff hw hv]

theorem OnlyAt.set (h : Sound userRegion root s) {v t : ℕ} (hv : v < userEnd)
    (ht : node child s.mem root (upperPath v) = some t) (e : Pte) :
    OnlyAt (· = v / 4096) root s (s.setLeaf t v e) :=
  ⟨h.setLeaf length_userRegion (upperPath_mem hv) ht e, rfl, fun w hw hne => by
    rw [leaf_set h hv ht e hw, if_neg hne]⟩

/-- The history is no part of it. -/
theorem OnlyAt.install {v t : ℕ} {e : Pte} (h : OnlyAt P root s (s.setLeaf t v e)) :
    OnlyAt P root s (s.install v t (tableIndex v 0) e) :=
  ⟨⟨h.sound.tree, h.sound.fresh, h.sound.pages⟩, h.nxEnabled, h.others⟩

theorem OnlyAt.grown (h : Sound userRegion root s)
    (hg : Relation.ReflTransGen (Grow userRegion root) s s') : OnlyAt P root s s' :=
  ⟨h.grown hg, nxEnabled_grown hg,
    fun _ hw _ => leaf_grown length_userRegion h hg (upperPath_mem hw)⟩

theorem OnlyAt.map (h : Sound userRegion root s) (policy : Policy) {v : ℕ} (hv : v < userEnd)
    (paddr : BitVec 64) (flags : Flags) :
    OnlyAt (· = v / 4096) root s (vmmMapPageFlags policy root v paddr flags s).2 := by
  obtain ⟨s₁, hg, ⟨hres, -⟩ | ⟨-, t, ht, hres⟩⟩ :=
    vmmMapPageFlags_cases h policy flags (fun _ => upperPath_mem hv) paddr
  · rw [hres]
    exact .grown h hg
  · rw [hres]
    exact (OnlyAt.grown h hg).trans (OnlyAt.set (h.grown hg) hv ht _).install fun _ => id

/-- **The loop.** Whatever it comes to, it has changed pages of its range only. -/
theorem OnlyAt.protectLoop (policy : Policy) {stop : ℕ} (hstop : stop ≤ userEnd) (flags : Flags)
    (fuel : ℕ) : ∀ {v : ℕ} {s : State}, Sound userRegion root s → v % 4096 = 0 →
      OnlyAt (fun k => v / 4096 ≤ k ∧ k * 4096 < stop) root s
        (protectLoop policy root stop flags fuel v s).2 := by
  induction fuel with
  | zero => exact fun h _ => .refl h
  | succ fuel ih =>
    intro v s h hv
    rw [Vmm.protectLoop]
    by_cases hlt : v < stop
    · rw [if_pos hlt]
      rcases vmmQuery root v s with _ | ⟨pa, f⟩
      · exact .refl h
      have hmap := OnlyAt.map h policy (hlt.trans_le hstop) pa flags
      rcases hres : vmmMapPageFlags policy root v pa flags s with ⟨_ | _, s₁⟩ <;>
        rw [hres] at hmap <;> simp only [hres]
      · exact hmap.mono fun k hk => by omega
      · have hnext : (v + 4096) % 2 ^ 64 = v + 4096 := by
          rw [userEnd] at hstop
          omega
        rw [hnext]
        refine (hmap.mono fun k hk => ?_).trans (ih hmap.sound (by omega)) fun k hk => ?_ <;> omega
    · rw [if_neg hlt]
      exact .refl h

/-- **Frame.** A call on user addresses changes the answers for the pages it names only. -/
theorem OnlyAt.call (h : Sound userRegion root s) {c : Call} (hc : c.InUser s) :
    OnlyAt c.Names root s (c.run root s) := by
  cases c with
  | map policy vaddr paddr flags => exact .map h policy hc.1 paddr flags
  | mapPage policy vaddr paddr userWritable => exact .map h policy hc.1 paddr _
  | unmap vaddr =>
    rcases vmmUnmapPage_cases vaddr s with ⟨-, hres⟩ | ⟨-, t, ht, hres⟩
    · rw [Call.run, hres]
      exact .refl h
    · rw [Call.run, hres]
      exact .set h hc ht _
  | protect policy fuel vaddr len flags =>
    obtain ⟨hrange, -⟩ := hc
    have hmod : (vaddr + len) % 2 ^ 64 = vaddr + len := by
      rw [userEnd] at hrange
      omega
    rw [Call.run, vmmProtectRange]
    split
    · exact .refl h
    next haligned =>
    rw [Decidable.not_not] at haligned
    simp only [hmod, not_lt.2 (Nat.le_add_right vaddr len)]
    refine (OnlyAt.protectLoop policy hrange flags fuel h haligned).mono fun k hk => ?_
    simp only [Call.Names, pageCount]
    omega

end Call

/-! ### Entries of executable pages -/

/-- What the tables can say of a mapping. -/
structure Mapping.Plain (x : Mapping) : Prop where
  present : isPresent x.flags = true
  exec : isExec x.flags = true
  addr : IsPageAddr x.paddr

theorem IsPageAddr.getLsbD {paddr : BitVec 64} (h : IsPageAddr paddr) {i : ℕ}
    (hi : i < 12 ∨ i = 63) : paddr.getLsbD i = false := by
  rw [BitVec.getLsbD]
  rcases hi with hi | rfl
  · have hlow := Nat.testBit_mod_two_pow paddr.toNat 12 i
    rw [h.1] at hlow
    simpa [hi] using hlow.symm
  · exact Nat.testBit_lt_two_pow h.2

theorem Mapping.Plain.masked (h : x.Plain) (nx : Bool) :
    leafEntry nx x.paddr x.flags &&& addrMask = x.paddr := by
  refine BitVec.eq_of_getLsbD_eq fun i hi => ?_
  rw [getLsbD_masked _ hi, getLsbD_leafEntry _ _ _ hi, getLsbD_flagsToPte, h.exec]
  by_cases h12 : 12 ≤ i
  · simp [h12]
    omega
  · rw [h.addr.getLsbD (.inl (Nat.lt_of_not_le h12))]
    simp [h12]

theorem getLsbD_flagBit (b : Bool) {k : ℕ} (hk : k < 32) (i : ℕ) :
    (if b then 1#32 <<< k else 0#32).getLsbD i = (b && decide (i = k)) := by
  cases b with
  | false => simp
  | true => simpa using BitMask.getLsbD_one_shiftLeft hk i

theorem getLsbD_low4 (flags : Flags) (i : ℕ) :
    (flags &&& 0xF#32).getLsbD i = (flags.getLsbD i && decide (i < 4)) := by
  have h : (0xF#32) = BitVec.ofNat 32 (2 ^ 4 - 1) := rfl
  rw [BitVec.getLsbD_and, h, BitVec.getLsbD_ofNat, Nat.testBit_two_pow_sub_one, ← Bool.decide_and]
  refine congrArg _ (decide_eq_decide.2 ?_)
  omega

/-- The permissions are reported as they were set. -/
theorem Mapping.Plain.queryFlags (h : x.Plain) :
    Vmm.queryFlags true (leafEntry true x.paddr x.flags) = x.flags &&& 0xF#32 := by
  refine BitVec.eq_of_getLsbD_eq fun i _ => ?_
  have hbits : Vmm.queryFlags true (leafEntry true x.paddr x.flags) =
      ((if isPresent x.flags then 1#32 <<< 0 else 0#32) |||
          if isWrite x.flags then 1#32 <<< 1 else 0#32) |||
        ((if isUser x.flags then 1#32 <<< 2 else 0#32) |||
          if isExec x.flags then 1#32 <<< 3 else 0#32) := by
    rw [Vmm.queryFlags, writable_leafEntry, userBit_leafEntry, noExec_leafEntry, h.exec, h.present,
      h.addr.getLsbD (.inr rfl)]
    rfl
  rw [hbits, getLsbD_low4, BitVec.getLsbD_or, BitVec.getLsbD_or, BitVec.getLsbD_or,
    getLsbD_flagBit _ (by decide), getLsbD_flagBit _ (by decide), getLsbD_flagBit _ (by decide),
    getLsbD_flagBit _ (by decide), isPresent, isWrite, isUser, isExec]
  obtain rfl | rfl | rfl | rfl | hi : i = 0 ∨ i = 1 ∨ i = 2 ∨ i = 3 ∨ 4 ≤ i := by omega
  · simp
  · simp
  · simp
  · simp
  · simp [show i ≠ 0 by omega, show i ≠ 1 by omega, show i ≠ 2 by omega, show i ≠ 3 by omega,
      not_lt.2 hi]

/-! ### The tables as a map -/

/-- The tables hold what the map says. -/
structure Agrees (root : ℕ) (s : State) (m : PageMap) : Prop where
  sound : Sound userRegion root s
  nxEnabled : s.nxEnabled = true
  leaf : ∀ v < userEnd, leaf root v s = (m (v / 4096)).map fun x => leafEntry true x.paddr x.flags
  plain : ∀ k x, m k = some x → x.Plain

section Agrees

variable {root : ℕ} {s : State} {m : PageMap}

variable {v stop : ℕ} {flags : Flags} {paddr : BitVec 64} {policy : Policy}

section

variable (h : Agrees root s m)
include h

theorem Agrees.query (hv : v < userEnd) : vmmQuery root v s = m.query v := by
  rw [vmmQuery_eq, h.leaf v hv, PageMap.query, h.nxEnabled]
  rcases hx : m (v / 4096) with _ | x
  · rfl
  · have hplain := h.plain _ x hx
    simp [hplain.queryFlags, hplain.masked]

/-- One entry of the tables and of the map changes. -/
theorem Agrees.update {s' : State}
    (hs' : OnlyAt (· = v / 4096) root s s') {x : Option Mapping} (hx : ∀ y ∈ x, y.Plain)
    (hleaf : ∀ w < userEnd, w / 4096 = v / 4096 →
      Vmm.leaf root w s' = x.map fun y => leafEntry true y.paddr y.flags) :
    Agrees root s' (update m (v / 4096) x) := by
  refine ⟨hs'.sound, hs'.nxEnabled.trans h.nxEnabled, fun w hw => ?_,
    (forall_update_iff m fun _ x => ∀ y, x = some y → y.Plain).2 ⟨hx, fun k _ => h.plain k⟩⟩
  by_cases hk : w / 4096 = v / 4096
  · rw [hleaf w hw hk, hk, update_self]
  · rw [hs'.others w hw hk, update_of_ne hk, h.leaf w hw]

/-- An entry stored for `v`, in tables that may have grown. -/
theorem Agrees.set {s₁ : State} (hs₁ : OnlyAt (fun _ => False) root s s₁) {t : ℕ} (hv : v < userEnd)
    (ht : node child s₁.mem root (upperPath v) = some t) {x : Mapping} (hx : x.Plain) :
    Agrees root (s₁.install v t (tableIndex v 0) (leafEntry s₁.nxEnabled x.paddr x.flags))
      (Function.update m (v / 4096) (some x)) := by
  have hset := (OnlyAt.set hs₁.sound hv ht (leafEntry s₁.nxEnabled x.paddr x.flags)).install
  refine h.update ((hs₁.mono fun _ => False.elim).trans hset fun _ => id) ?_ fun w hw hk => ?_
  · rintro y ⟨⟩
    exact hx
  refine (leaf_set hs₁.sound hv ht _ hw).trans ?_
  rw [if_pos hk, filter_some, present_leafEntry, hx.present, hs₁.nxEnabled, h.nxEnabled]
  rfl

omit h in
theorem plain_of_not_rejects
    (hrej : rejects v flags = false) (hx : isExec flags = true) (hpa : IsPageAddr paddr) :
    Mapping.Plain ⟨paddr, flags⟩ :=
  ⟨present_of_not_rejects hrej, hx, hpa⟩

theorem Agrees.map (hv : v < userEnd) (hpmm : policy.Reliable ∧ 3 ≤ s.free.card)
    (hplain : rejects v flags = false → isExec flags = true ∧ IsPageAddr paddr) :
    Agrees root (vmmMapPageFlags policy root v paddr flags s).2 (m.map v paddr flags) := by
  obtain ⟨s₁, hg, ⟨hres, ⟨hrej, rfl⟩ | hfail⟩ | ⟨hrej, t, ht, hres⟩⟩ :=
    vmmMapPageFlags_cases h.sound policy flags (fun _ => upperPath_mem hv) paddr
  · rwa [hres, PageMap.map, if_pos hrej]
  · exact absurd hpmm hfail
  rw [hres, PageMap.map, hrej]
  obtain ⟨hx, hpa⟩ := hplain hrej
  exact h.set (.grown h.sound hg) hv ht (plain_of_not_rejects hrej hx hpa)

theorem Agrees.unmap (hv : v < userEnd) :
    Agrees root (vmmUnmapPage root v s).2 (Function.update m (v / 4096) none) := by
  rcases vmmUnmapPage_cases v s with ⟨hnone, hres⟩ | ⟨-, t, ht, hres⟩
  · have hmap : m (v / 4096) = none := by
      rw [h.leaf v hv] at hnone
      exact map_eq_none_iff.1 hnone
    rwa [hres, ← hmap, update_eq_self]
  rw [hres]
  refine h.update (.set h.sound hv ht 0#64) nofun fun w hw hk => ?_
  rw [leaf_set h.sound hv ht _ hw, if_pos hk]
  rfl

end

/-- A range whose flags are refused is left as it is. -/
theorem protectLoop_of_rejects {fuel : ℕ} (s : State)
    (hrej : rejects v flags = true) : (protectLoop policy root stop flags fuel v s).2 = s := by
  rcases fuel with _ | fuel
  · rfl
  rw [protectLoop]
  split
  · rcases vmmQuery root v s with _ | ⟨pa, f⟩
    · rfl
    · simp [hrej, vmmMapPageFlags]
  · rfl

/-- **Protecting.** The loop goes over its pages as the map does, up to the first that is not
mapped. -/
theorem Agrees.protectLoop (hstop : stop ≤ userEnd)
    (hexec : isExec flags = true) (fuel : ℕ) : ∀ {s : State} {m : PageMap} {v : ℕ},
      Agrees root s m → rejects v flags = false → pageCount (stop - v) ≤ fuel →
      Agrees root (protectLoop policy root stop flags fuel v s).2
        (m.protect flags (pageCount (stop - v)) (v / 4096)) := by
  induction fuel with
  | zero =>
    intro s m v h _ hfuel
    rw [Nat.le_zero.1 hfuel]
    exact h
  | succ fuel ih =>
    intro s m v h hrej hfuel
    have haligned := aligned_of_not_rejects hrej
    rw [Vmm.protectLoop]
    by_cases hlt : v < stop
    · have hv := hlt.trans_le hstop
      have hcount : pageCount (stop - v) = pageCount (stop - (v + 4096)) + 1 := by
        rw [pageCount, pageCount]
        omega
      rw [if_pos hlt, hcount, PageMap.protect, vmmQuery_eq, h.leaf v hv]
      rcases hx : m (v / 4096) with _ | x
      · exact h
      have hplain := h.plain _ x hx
      obtain ⟨t, ht⟩ := node_of_leaf (s := s) (by rw [h.leaf v hv, hx]; rfl)
      simp only [map_some, hplain.masked, vmmMapPageFlags_of_node policy x.paddr hrej ht]
      have hset := h.set (.refl h.sound) hv ht (x := ⟨x.paddr, flags⟩)
        (plain_of_not_rejects hrej hexec hplain.addr)
      have hnext : (v + 4096) % 2 ^ 64 = v + 4096 := by
        rw [userEnd] at hv
        omega
      have hdiv : v / 4096 + 1 = (v + 4096) / 4096 := by omega
      rw [hnext, hdiv]
      by_cases hlast : v + 4096 < userEnd
      · refine ih hset ?_ (by omega)
        rw [rejects_congr flags hlast hv (by omega) haligned]
        exact hrej
      -- the range ends with the user half
      have hzero : pageCount (stop - (v + 4096)) = 0 := by
        rw [pageCount]
        omega
      rw [hzero]
      rcases fuel with _ | fuel
      · exact hset
      · rw [Vmm.protectLoop, if_neg (by omega)]
        exact hset
    have hzero : pageCount (stop - v) = 0 := by
      rw [pageCount]
      omega
    rw [if_neg hlt, hzero]
    exact h

/-- **One call.** -/
theorem Agrees.call (h : Agrees root s m) {c : Call} (hc : c.InUser s) (hx : c.KeepsExec) :
    Agrees root (c.run root s) (c.apply m) := by
  cases c with
  | map policy vaddr paddr flags => exact h.map hc.1 hc.2 hx
  | mapPage policy vaddr paddr userWritable =>
    refine h.map hc.1 hc.2 fun hrej => ?_
    obtain ⟨rfl, hpa⟩ := hx hrej
    exact ⟨rfl, hpa⟩
  | unmap vaddr => exact h.unmap hc
  | protect policy fuel vaddr len flags =>
    obtain ⟨hrange, hfuel⟩ := hc
    have hmod : (vaddr + len) % 2 ^ 64 = vaddr + len := by
      rw [userEnd] at hrange
      omega
    rw [Call.run, Call.apply, vmmProtectRange]
    by_cases hrej : rejects vaddr flags = true
    · split
      · exact h
      · rwa [if_neg (by omega), protectLoop_of_rejects _ hrej]
    rw [Bool.not_eq_true] at hrej
    have hloop := @Agrees.protectLoop root _ flags policy hrange (hx hrej) fuel s m vaddr h hrej
      (by rwa [Nat.add_sub_cancel_left])
    rw [Nat.add_sub_cancel_left] at hloop
    rwa [hrej, aligned_of_not_rejects hrej, hmod, if_neg (by omega), if_neg (by omega)]

end Agrees

/-! ### Every run -/

theorem agrees_of_start {σ : Sys} (h : σ.Start root) : Agrees root σ.machine σ.map := by
  obtain ⟨s, policy, hpages, hnx, hcreate, hmap⟩ := h
  obtain ⟨hsound, hnx', hleaf⟩ := sound_of_create hpages hcreate
  refine ⟨hsound, hnx'.trans hnx, fun v hv => ?_, fun k x hx => ?_⟩
  · rw [hleaf v hv, hmap]
    rfl
  · rw [hmap] at hx
    cases hx

/-- The address space answers like its map, and a call leaves alone what it does not name. -/
def IsPageMap (root : ℕ) (σ : Sys) : Prop :=
  (∀ v < userEnd, vmmQuery root v σ.machine = σ.map.query v) ∧
    ∀ c : Call, c.InUser σ.machine → ∀ v < userEnd, ¬ c.Names (v / 4096) →
      vmmQuery root v (c.run root σ.machine) = vmmQuery root v σ.machine

/-- **Page tables as a finite map.** In every run of calls that leave pages executable, whatever
they map, unmap and protect. -/
theorem query_of_run {root : ℕ} {σ : Sys}
    (h : Reach (Sys.Start root) (fun σ c => c.InUser σ.machine ∧ c.KeepsExec) (Sys.step root) σ) :
    IsPageMap root σ := by
  have hagrees : Agrees root σ.machine σ.map :=
    h.invariant (fun σ => Agrees root σ.machine σ.map) (fun _ => agrees_of_start)
      fun _ _ hσ hc => hσ.call hc.1 hc.2
  refine ⟨fun v hv => hagrees.query hv, fun c hc v hv hnames => ?_⟩
  have honly := OnlyAt.call hagrees.sound hc
  rw [vmmQuery_eq, vmmQuery_eq, honly.others v hv hnames, honly.nxEnabled]

/-! ### A page that may not be executed -/

/-- The free frame with the lowest number. -/
def lowest : Policy where
  pick S := (List.range (S.sup id + 1)).find? fun p => p ∈ S
  mem_of_pick h := by simpa using List.find?_some h

theorem lowest_reliable : lowest.Reliable := by
  rintro S ⟨p, hp⟩ hnone
  have hle : p ≤ S.sup id := Finset.le_sup (f := id) hp
  have hp' := List.find?_eq_none.1 hnone p (List.mem_range.2 (Nat.lt_succ_of_le hle))
  simp [hp] at hp'

/-- Memory is clear, and six frames are free. -/
def bareMachine : State where
  mem _ _ := 0#64
  free := {1, 2, 3, 4, 5, 6}
  nxEnabled := true
  kernelCr3 := 0
  currentCr3 := 0
  installed := []

def bareSys : Sys := ⟨(vmmCreateAddressSpace lowest bareMachine).2, fun _ => none⟩

theorem bareSys_start : bareSys.Start 1 :=
  ⟨bareMachine, lowest, by decide, rfl, rfl, rfl⟩

theorem bareSys_inUser {vaddr : ℕ} (hv : vaddr < userEnd) (paddr : BitVec 64) (flags : Flags) :
    (Call.map lowest vaddr paddr flags).InUser bareSys.machine :=
  ⟨hv, lowest_reliable, by decide⟩

theorem query_exec_page : IsPageMap 1 (bareSys.step 1 (.map lowest 0x400000 0x5000#64 protRx)) :=
  query_of_run (.call _ (.start bareSys_start)
    ⟨bareSys_inUser (by decide) _ _, fun _ => ⟨rfl, by decide, by decide⟩⟩)

/-- A page mapped for reading and writing is reported with bit 63 set in its address. -/
theorem query_reports_nx :
    ¬ ∀ root σ, Reach (Sys.Start root) (fun σ c => c.InUser σ.machine) (Sys.step root) σ →
      IsPageMap root σ := by
  intro h
  have hreach := h 1 (bareSys.step 1 (.map lowest 0x400000 0x5000#64 protRw))
    (.call _ (.start bareSys_start) (bareSys_inUser (by decide) _ _))
  have hquery := hreach.1 0x400000 (by decide)
  revert hquery
  decide

end PeakOs.Vmm
