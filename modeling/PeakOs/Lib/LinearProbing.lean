import PeakOs.Lib.PartialMap
import Mathlib.Data.Fintype.Card
import Mathlib.Data.Nat.ModEq

/-!
# Open addressing with linear probing

A table of `m` slots that hold items. An item has a home slot and is stored at the first slot from
there on, going round, that was empty. A search may therefore stop at an empty slot, which is why
an item cannot simply be taken out: the items that follow it are taken out as well and stored again,
up to the next empty slot.

`Placed home T` is the invariant: every item that has a home is found from there without crossing an
empty slot, and nothing else is stored. As long as there are fewer items than slots, there is always
an empty slot.

## Main results

* `insert_placed` — storing an item
* `remove_placed` — taking an item out
* `lookup_of_found`, `of_lookup` — searching
-/

namespace PeakOs.Probing

open Function List Option

variable {m : ℕ} [NeZero m] {ι : Type*}

abbrev Table (m : ℕ) (ι : Type*) := Fin m → Option ι

/-- The slot `k` steps after `h`. -/
def after (h : Fin m) (k : ℕ) : Fin m := Fin.ofNat m (h.val + k)

def insert (h : Fin m) (x : ι) (T : Table m ι) : Table m ι :=
  match (List.range m).find? fun k => (T (after h k)).isNone with
  | none => T
  | some k => Function.update T (after h k) (some x)

/-- The first item from `h` on that is `good`, unless an empty slot comes first. -/
def lookupIn (good : ι → Bool) (h : Fin m) (T : Table m ι) : List ℕ → Option ι
  | [] => none
  | k :: ks =>
    match T (after h k) with
    | none => none
    | some x => if good x then some x else lookupIn good h T ks

def lookup (good : ι → Bool) (h : Fin m) (T : Table m ι) : Option ι :=
  lookupIn good h T (List.range m)

/-- Take out the items that follow slot `s`, up to an empty slot, and store each again. -/
def rehash (home : ι → Option (Fin m)) (s : Fin m) : List ℕ → Table m ι → Table m ι
  | [], T => T
  | k :: ks, T =>
    match T (after s k) with
    | none => T
    | some x =>
      let T := Function.update T (after s k) none
      rehash home s ks <|
        match home x with
        | none => T
        | some h => insert h x T

def removeIn [DecidableEq ι] (home : ι → Option (Fin m)) (h : Fin m) (x : ι) (T : Table m ι) :
    List ℕ → Table m ι
  | [] => T
  | k :: ks =>
    match T (after h k) with
    | none => T
    | some y =>
      if y = x then
        rehash home (after h k) (List.range' 1 (m - 1)) (Function.update T (after h k) none)
      else removeIn home h x T ks

def remove [DecidableEq ι] (home : ι → Option (Fin m)) (h : Fin m) (x : ι) (T : Table m ι) :
    Table m ι :=
  removeIn home h x T (List.range m)

/-- The item is found from `h` on, before any empty slot. -/
def Found (h : Fin m) (x : ι) (T : Table m ι) : Prop :=
  ∃ k < m, T (after h k) = some x ∧ ∀ j < k, T (after h j) ≠ none

structure Placed (home : ι → Option (Fin m)) (T : Table m ι) : Prop where
  found : ∀ {x h}, home x = some h → Found h x T
  stored : ∀ {s x}, T s = some x → home x ≠ none
  uniq : ∀ {s s' x}, T s = some x → T s' = some x → s = s'

/-! ### Going round -/

theorem after_after (h : Fin m) (j k : ℕ) : after (after h j) k = after h (j + k) := by
  refine Fin.ext ?_
  show ((h.val + j) % m + k) % m = (h.val + (j + k)) % m
  rw [Nat.mod_add_mod, add_assoc]

theorem after_zero (h : Fin m) : after h 0 = h :=
  Fin.ext (Nat.mod_eq_of_lt h.isLt)

variable {h s : Fin m} {j k t d : ℕ} {x : ι}

theorem after_inj (hj : j < m) (hk : k < m) (heq : after h j = after h k) : j = k := by
  have hmod : h.val + j ≡ h.val + k [MOD m] := congrArg Fin.val heq
  exact (Nat.ModEq.add_left_cancel' _ hmod).eq_of_lt_of_lt hj hk

theorem exists_after (h s : Fin m) : ∃ k < m, after h k = s := by
  refine ⟨(s.val + (m - h.val)) % m, Nat.mod_lt _ (Nat.pos_of_neZero m), Fin.ext ?_⟩
  have hs := s.isLt
  show (h.val + (s.val + (m - h.val)) % m) % m = s.val
  rw [Nat.add_mod_mod, show h.val + (s.val + (m - h.val)) = s.val + m by omega, Nat.add_mod_right,
    Nat.mod_eq_of_lt hs]

theorem after_ne (hk : 0 < k) (hkm : k < m) : after h k ≠ h := fun heq =>
  hk.ne' (after_inj hkm (hk.trans hkm) (heq.trans (after_zero h).symm))

/-- A walk that passes over the slots before `k`. -/
theorem walk_range {P : List ℕ → Prop} {n : ℕ} (hk : k < n)
    (hpass : ∀ j < k, ∀ ks, P ks → P (j :: ks)) (hend : ∀ ks, P (k :: ks)) : P (range n) := by
  have happend : ∀ l ks, (∀ j ∈ l, j < k) → P ks → P (l ++ ks) := by
    intro l ks hl hks
    induction l with
    | nil => exact hks
    | cons j l ih =>
      exact hpass j (hl j mem_cons_self) _ (ih fun i hi => hl i (mem_cons_of_mem j hi))
  rw [show n = k + (n - k - 1 + 1) by omega, range_add, range_succ_eq_map, map_cons]
  exact happend _ _ (fun j => mem_range.1) (hend _)

/-- Going on from where two walks meet. -/
theorem after_add_eq (heq : after h j = after s t) (k : ℕ) : after h (j + k) = after s (t + k) := by
  rw [← after_after, heq, after_after]

/-! ### Empty slots -/

theorem Placed.exists_empty [Fintype ι] {home : ι → Option (Fin m)} {T : Table m ι}
    (h : Placed home T) (hcard : Fintype.card ι < m) : ∃ e, T e = none := by
  by_contra hfull
  have hsome : ∀ s, ∃ x, T s = some x := fun s => ne_none_iff_exists'.1 fun hs =>
    hfull ⟨s, hs⟩
  choose item hitem using hsome
  have hinj : Injective item := fun s s' heq =>
    h.uniq (hitem s) (heq ▸ hitem s')
  have hle := Fintype.card_le_of_injective item hinj
  rw [Fintype.card_fin] at hle
  omega

/-- Where an item goes: the first empty slot. -/
theorem insert_eq {T : Table m ι} (hroom : ∃ e, T e = none) (x : ι) :
    ∃ k < m, insert h x T = update T (after h k) (some x) ∧ T (after h k) = none ∧
      ∀ j < k, T (after h j) ≠ none := by
  obtain ⟨e, he⟩ := hroom
  obtain ⟨k₀, hk₀, rfl⟩ := exists_after h e
  rw [insert]
  rcases hfind : (range m).find? fun k => (T (after h k)).isNone with _ | k
  · have hnone := find?_eq_none.1 hfind k₀ (mem_range.2 hk₀)
    rw [he] at hnone
    exact absurd rfl hnone
  have hempty := find?_some hfind
  obtain ⟨hlt, hbefore⟩ : k < m ∧ ∀ j < k, (T (after h j)).isNone = false := by
    obtain ⟨-, i, hi, hik, hbefore⟩ := find?_eq_some_iff_getElem.1 hfind
    rw [length_range] at hi
    rw [getElem_range] at hik
    subst hik
    refine ⟨hi, fun j hj => ?_⟩
    have hj' := hbefore j hj
    simpa using hj'
  refine ⟨k, hlt, rfl, isNone_iff_eq_none.1 hempty, fun j hj hnone => ?_⟩
  have hj' := hbefore j hj
  rw [hnone] at hj'
  cases hj'

/-- Filling an empty slot hides nothing. -/
theorem Found.fill {y : ι} {T : Table m ι} (hf : Found h x T)
    (hs : T s = none) : Found h x (update T s (some y)) := by
  obtain ⟨k, hk, hx, hbefore⟩ := hf
  refine ⟨k, hk, ?_, fun j hj => ?_⟩
  · rwa [update_of_ne]
    rintro rfl
    rw [hs] at hx
    cases hx
  by_cases hjs : after h j = s
  · rw [hjs, update_self]
    exact some_ne_none y
  · rw [update_of_ne hjs]
    exact hbefore j hj

variable {home : ι → Option (Fin m)} {T : Table m ι}

/-- Going on from `s`, there is a first empty slot. -/
theorem exists_first_empty (hs : T s ≠ none) (hroom : ∃ e, T e = none) :
    ∃ d, 1 ≤ d ∧ d < m ∧ T (after s d) = none ∧ ∀ u, 1 ≤ u → u < d → T (after s u) ≠ none := by
  have hex : ∃ d, T (after s d) = none := by
    obtain ⟨e, he⟩ := hroom
    obtain ⟨d, -, rfl⟩ := exists_after s e
    exact ⟨d, he⟩
  obtain ⟨e, he⟩ := hroom
  obtain ⟨d₀, hd₀, rfl⟩ := exists_after s e
  have hpos : Nat.find hex ≠ 0 := by
    intro hzero
    have hnone := Nat.find_spec hex
    rw [hzero, after_zero] at hnone
    exact hs hnone
  exact ⟨Nat.find hex, by omega, (Nat.find_min' hex he).trans_lt hd₀, Nat.find_spec hex,
    fun u _ hu => Nat.find_min hex hu⟩

/-! ### Storing -/

theorem insert_placed [DecidableEq ι] (hp : Placed home T) (hroom : ∃ e, T e = none)
    (hx : home x = none) (h : Fin m) : Placed (update home x (some h)) (insert h x T) := by
  obtain ⟨k, hk, heq, hempty, hbefore⟩ := insert_eq (h := h) hroom x
  have hnew : ∀ s, T s ≠ some x := fun s hs => hp.stored hs hx
  rw [heq]
  refine ⟨fun {y h'} hy => ?_, fun {s y} hs => ?_, fun {s s' y} hs hs' => ?_⟩
  · by_cases hyx : y = x
    · subst hyx
      rw [update_self] at hy
      obtain rfl := some.inj hy
      refine ⟨k, hk, update_self .., fun j hj => ?_⟩
      rw [update_of_ne fun hjk => hj.ne (after_inj (hj.trans hk) hk hjk)]
      exact hbefore j hj
    · rw [update_of_ne hyx] at hy
      exact (hp.found hy).fill hempty
  · by_cases hyx : y = x
    · rw [hyx, update_self]
      exact some_ne_none h
    rw [update_of_ne hyx]
    exact hp.stored ((of_update_some hs).resolve_left fun hs => hyx hs.2).2
  rcases of_update_some hs with ⟨hsk, hyx⟩ | ⟨-, hs⟩ <;>
    rcases of_update_some hs' with ⟨hsk', hyx'⟩ | ⟨-, hs'⟩
  · exact hsk.trans hsk'.symm
  · exact absurd (hyx ▸ hs') (hnew s')
  · exact absurd (hyx' ▸ hs) (hnew s)
  · exact hp.uniq hs hs'

/-! ### Searching -/

variable {good : ι → Bool} {T₀ : Table m ι}

theorem of_lookup (hx : lookup good h T = some x) : good x = true := by
  rw [lookup] at hx
  generalize range m = ks at hx
  induction ks with
  | nil => cases hx
  | cons k ks ih =>
    rw [lookupIn] at hx
    generalize T (after h k) = slot at hx
    rcases slot with _ | y
    · cases hx
    dsimp only at hx
    split at hx
    next hy =>
      rwa [← some.inj hx]
    · exact ih hx

/-- An item that is there is found, if no other would do. -/
theorem lookup_of_found (hf : Found h x T)
    (hgood : ∀ y, good y = true ↔ y = x) : lookup good h T = some x := by
  obtain ⟨k, hk, hx, hbefore⟩ := hf
  refine walk_range (P := (lookupIn good h T · = some x)) hk (fun j hj ks hks => ?_) fun ks => ?_
  · obtain ⟨y, hy⟩ := ne_none_iff_exists'.1 (hbefore j hj)
    rw [lookupIn, hy]
    dsimp only
    split
    next hg => rw [(hgood y).1 hg]
    · exact hks
  · rw [lookupIn, hx]
    exact if_pos ((hgood x).2 rfl)

/-! ### Taking out -/

/-- A walk to an item stops short of an empty slot. -/
theorem lt_of_empty (hx : T (after h k) = some x)
    (hbefore : ∀ j < k, T (after h j) ≠ none) (hmeet : after h j = after s t) (htd : t ≤ d)
    (hd : T (after s d) = none) : k < j + (d - t) := by
  by_contra hle
  have hempty : T (after h (j + (d - t))) = none := by
    rw [after_add_eq hmeet, show t + (d - t) = d by omega, hd]
  rcases lt_or_ge (j + (d - t)) k with hlt | hge
  · exact hbefore _ hlt hempty
  · rw [show j + (d - t) = k by omega, hx] at hempty
    cases hempty

/-- The state of a repair after an item was taken out of slot `s`: the slots up to step `t` are
done, and those up to the empty slot at step `d` are still to do. -/
structure Repair (home : ι → Option (Fin m)) (x : ι) (s : Fin m) (d : ℕ) (T₀ : Table m ι) (t : ℕ)
    (T : Table m ι) : Prop where
  rest : ∀ {u}, t ≤ u → u < m → T (after s u) = T₀ (after s u)
  found : ∀ {y h}, y ≠ x → home y = some h →
    Found h y T ∨ ∃ q, t ≤ q ∧ q < d ∧ T₀ (after s q) = some y
  stored : ∀ {s' y}, T s' = some y → home y ≠ none ∧ y ≠ x
  uniq : ∀ {a b y}, T a = some y → T b = some y → a = b

/-- An item is still found after a slot was cleared, or it is between that slot and the next empty
one. -/
theorem Found.clear (hf : Found h x T) (ht : T (after s t) ≠ some x) (htd : t ≤ d)
    (hd : T (after s d) = none) : Found h x (update T (after s t) none) ∨
      ∃ q, t < q ∧ q < d ∧ T (after s q) = some x := by
  obtain ⟨k, hk, hx, hbefore⟩ := hf
  by_cases hoff : ∀ j ≤ k, after h j ≠ after s t
  · refine .inl ⟨k, hk, ?_, fun j hj => ?_⟩
    · rwa [update_of_ne (hoff k le_rfl)]
    · rw [update_of_ne (hoff j hj.le)]
      exact hbefore j hj
  push Not at hoff
  obtain ⟨j, hj, hjt⟩ := hoff
  have hlt := lt_of_empty hx hbefore hjt htd hd
  have hjk : j ≠ k := by
    rintro rfl
    exact ht (hjt ▸ hx)
  have hpos := after_add_eq hjt (k - j)
  rw [show j + (k - j) = k by omega] at hpos
  exact .inr ⟨t + (k - j), by omega, by omega, hpos ▸ hx⟩

theorem Repair.start (hp : Placed home T) (hs : T s = some x) (hd : T (after s d) = none) :
    Repair home x s d T 1 (update T s none) := by
  refine ⟨fun {u} hu hum => update_of_ne (after_ne hu hum) .., fun {y h} hy hh => ?_,
    fun {s' y} hs' => ?_, fun {a b y} ha hb => hp.uniq (of_update_none ha).2 (of_update_none hb).2⟩
  · have hclear := (hp.found hh).clear (s := s) (t := 0) ?_ (Nat.zero_le d) hd
    · rwa [after_zero] at hclear
    rw [after_zero, hs]
    exact fun heq => hy (some.inj heq).symm
  · obtain ⟨hss, hs'⟩ := of_update_none hs'
    refine ⟨hp.stored hs', ?_⟩
    rintro rfl
    exact hss (hp.uniq hs' hs)

/-- **One item is stored again**: it goes to a slot that is done or to the one it came from. -/
theorem Repair.step (hp : Placed home T₀) {z : ι}
    (hs : T₀ s = some x) (ht : 1 ≤ t) (htd : t < d) (hdm : d < m) (hd : T₀ (after s d) = none)
    (hz : T₀ (after s t) = some z) (hh : home z = some h) (hr : Repair home x s d T₀ t T) :
    Repair home x s d T₀ (t + 1) (insert h z (update T (after s t) none)) := by
  have hTt : T (after s t) = some z := (hr.rest le_rfl (htd.trans hdm)).trans hz
  have hTd : T (after s d) = none := (hr.rest htd.le hdm).trans hd
  obtain ⟨k', hk', heq, hempty, hbefore'⟩ :=
    insert_eq (h := h) (T := update T (after s t) none) ⟨_, update_self ..⟩ z
  obtain ⟨k, hk, hkz, hbefore⟩ := hp.found hh
  have hkt : after h k = after s t := hp.uniq hkz hz
  have hkk : k' ≤ k := by
    by_contra hlt
    refine hbefore' k (by omega) ?_
    rw [hkt, update_self]
  obtain ⟨u, hum, hu⟩ := exists_after s (after h k')
  have hut : u ≤ t := by
    by_contra hlt
    have hne : after h k' ≠ after s t := fun hc =>
      absurd (after_inj hum (htd.trans hdm) (hu.trans hc)) (by omega)
    have hlt' : k' < k := lt_of_le_of_ne hkk fun hc => hne (hc ▸ hkt)
    rw [update_of_ne hne, ← hu, hr.rest (by omega) hum, hu] at hempty
    exact hbefore k' hlt' hempty
  have hzx : z ≠ x := by
    rintro rfl
    exact after_ne ht (htd.trans hdm) (hp.uniq hz hs)
  rw [heq]
  refine ⟨fun {v} hv hvm => ?_, fun {y h'} hy hh' => ?_, fun {s' y} hs' => ?_,
    fun {a b y} ha hb => ?_⟩
  · have hvf : after s v ≠ after h k' := fun hc =>
      absurd (after_inj hvm hum (hc.trans hu.symm)) (by omega)
    have hvt : after s v ≠ after s t := fun hc =>
      absurd (after_inj hvm (htd.trans hdm) hc) (by omega)
    rw [update_of_ne hvf, update_of_ne hvt, hr.rest (by omega) hvm]
  · by_cases hyz : y = z
    · subst hyz
      obtain rfl := some.inj (hh'.symm.trans hh)
      refine .inl ⟨k', hk', update_self .., fun j hj => ?_⟩
      rw [update_of_ne fun hc => hj.ne (after_inj (hj.trans hk') hk' hc)]
      exact hbefore' j hj
    have hTy : T (after s t) ≠ some y := fun hy => hyz (some.inj (hy.symm.trans hTt))
    rcases hr.found hy hh' with hf | ⟨q, htq, hqd, hq⟩
    · rcases hf.clear hTy htd.le hTd with hf | ⟨q, htq, hqd, hq⟩
      · exact .inl (hf.fill hempty)
      · exact .inr ⟨q, htq, hqd, (hr.rest htq.le (hqd.trans hdm)).symm.trans hq⟩
    refine .inr ⟨q, lt_of_le_of_ne htq fun hc => ?_, hqd, hq⟩
    rw [← hc, hz] at hq
    exact hyz (some.inj hq).symm
  · rcases of_update_some hs' with ⟨-, rfl⟩ | ⟨-, hs'⟩
    · rw [hh]
      exact ⟨some_ne_none h, hzx⟩
    · exact hr.stored (of_update_none hs').2
  -- the item that was stored again is nowhere else
  have hnew : ∀ c, update T (after s t) none c ≠ some z := fun c hc =>
    (of_update_none hc).1 (hr.uniq (of_update_none hc).2 hTt)
  rcases of_update_some ha with ⟨haf, hyz⟩ | ⟨-, ha⟩ <;>
    rcases of_update_some hb with ⟨hbf, hyz'⟩ | ⟨-, hb⟩
  · exact haf.trans hbf.symm
  · exact absurd (hyz ▸ hb) (hnew b)
  · exact absurd (hyz' ▸ ha) (hnew a)
  · exact hr.uniq (of_update_none ha).2 (of_update_none hb).2

variable [DecidableEq ι]

variable {home' : ι → Option (Fin m)}

/-- The loop goes as far as the empty slot, and leaves everything in place. -/
theorem rehash_placed (hp : Placed home T₀)
    (hs : T₀ s = some x) (hdm : d < m) (hd : T₀ (after s d) = none)
    (hfull : ∀ u, 1 ≤ u → u < d → T₀ (after s u) ≠ none) (hhome : ∀ y ≠ x, home' y = home y) :
    ∀ n t (T : Table m ι), n = d - t → 1 ≤ t → t ≤ d → Repair home x s d T₀ t T →
      Placed (update home x none) (rehash home' s (range' t (m - t)) T) := by
  intro n
  induction n with
  | zero =>
    intro t T hn ht htd hr
    obtain rfl : t = d := by omega
    have hstop : rehash home' s (range' t (m - t)) T = T := by
      rw [show m - t = m - t - 1 + 1 by omega, range'_succ, rehash, hr.rest le_rfl hdm, hd]
    rw [hstop]
    refine ⟨fun {y h} hy => ?_, fun {s' y} hs' => ?_, hr.uniq⟩
    · obtain ⟨hyx, hy⟩ := of_update_none hy
      rcases hr.found hyx hy with hf | ⟨q, hq, hq', -⟩
      · exact hf
      · omega
    · obtain ⟨hne, hyx⟩ := hr.stored hs'
      rwa [update_of_ne hyx]
  | succ n ih =>
    intro t T hn ht htd hr
    obtain ⟨z, hz⟩ := ne_none_iff_exists'.1 (hfull t ht (by omega))
    have hTt : T (after s t) = some z := (hr.rest le_rfl (by omega)).trans hz
    obtain ⟨h, hh⟩ := ne_none_iff_exists'.1 (hr.stored hTt).1
    rw [show m - t = m - (t + 1) + 1 by omega, range'_succ, rehash, hTt]
    dsimp only
    rw [hhome z (hr.stored hTt).2, hh]
    exact ih (t + 1) _ (by omega) (by omega) (by omega)
      (hr.step hp hs ht (by omega) hdm hd hz hh)

/-- **Taking out.** -/
theorem remove_placed (hp : Placed home T) (hroom : ∃ e, T e = none)
    (hx : home x = some h) (hhome : ∀ y ≠ x, home' y = home y) :
    Placed (update home x none) (remove home' h x T) := by
  obtain ⟨k, hk, hkx, hbefore⟩ := hp.found hx
  obtain ⟨d, hd1, hdm, hd, hfull⟩ :=
    exists_first_empty (s := after h k) (by rw [hkx]; exact some_ne_none x) hroom
  have hrehash := rehash_placed hp hkx hdm hd hfull hhome (d - 1) 1 _ rfl le_rfl hd1
    (Repair.start hp hkx hd)
  refine walk_range (P := (Placed _ <| removeIn home' h x T ·)) hk
    (fun j hj ks hks => ?_) fun ks => ?_
  · obtain ⟨y, hy⟩ := ne_none_iff_exists'.1 (hbefore j hj)
    have hyx : y ≠ x := by
      rintro rfl
      exact hj.ne (after_inj (hj.trans hk) hk (hp.uniq hy hkx))
    rw [removeIn, hy]
    dsimp only
    rwa [if_neg hyx]
  · rw [removeIn, hkx]
    dsimp only
    rwa [if_pos rfl]

end PeakOs.Probing
