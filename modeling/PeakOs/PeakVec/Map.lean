import PeakOs.PeakVec.Model

/-!
# The index as a map

As long as namespaces, keys and texts fit their fields, the index is a finite map from namespaces
and keys to vectors and texts. A key is looked up in full but stored cut: an upsert with a key of 64
bytes never finds the entry of the upsert before it, and makes a second one.

## Main results

* `inv_apply` — one call that succeeds is one update of the map
* `index_is_map` — the index and the map after the same calls
* `index_not_map` — two upserts of one long key leave two entries
-/

namespace PeakOs.PeakVec

open List

/-- What the index is for: vectors and texts by namespace and key. -/
abbrev VecMap := Str × Str → Option (Vec × Str)

def Row.binding (r : Row) : (Str × Str) × Vec × Str :=
  ((r.ns, r.entry.key), r.entry.vec, r.entry.info)

/-- The update of the map that a call is for. -/
def Call.on (m : VecMap) : Call → VecMap
  | upsert _ _ ns key vec info =>
    Function.update m (nsName ns, key) (some (vec, info.getD []))
  | delete ns key => Function.update m (nsName ns, key) none

/-- The strings of a call fit the fields they are stored in. -/
def Call.Fits : Call → Prop
  | upsert _ _ ns key _ info =>
    (nsName ns).length < nsMax ∧ key.length < keyMax ∧ (info.getD []).length < metaMax
  | delete ns _ => (nsName ns).length < nsMax

/-- An index and a map, after a call that changes both if it succeeds. -/
def step (s : Index × VecMap) (c : Call) : Index × VecMap :=
  match c.apply s.1 with
  | none => s
  | some ix => (ix, c.on s.2)

def Start (s : Index × VecMap) : Prop := s.1 = ⟨[], 64⟩ ∧ s.2 = fun _ => none

/-- The entries are those of the map, and what is cached of them is right. -/
structure Refines (s : Index × VecMap) : Prop where
  entries : Represents (s.1.rows.map Row.binding) s.2
  cached : ∀ r ∈ s.1.rows, r.Cached

/-- A row as the functions leave it. -/
structure Row.Ok (r : Row) : Prop where
  cached : r.Cached
  inUse : r.entry.inUse = true
  ns : nsCopy (some r.ns) = r.ns

structure Inv (s : Index × VecMap) : Prop where
  entries : Represents (s.1.rows.map Row.binding) s.2
  rows : ∀ r ∈ s.1.rows, r.Ok

theorem cacheNorm_cached (r : Row) : r.cacheNorm.Cached := rfl

theorem nsName_nsName (ns : Option Str) : nsName (some (nsName ns)) = nsName ns := by
  match ns with
  | none => rfl
  | some [] => rfl
  | some (_ :: _) => rfl

variable {ns info : Option Str} {r : Row} {alloc : Bool} {key : Str}

theorem nsCopy_of_lt (h : (nsName ns).length < nsMax) : nsCopy ns = nsName ns := by
  rw [nsCopy, take_of_length_le (Nat.le_sub_one_of_lt h)]

theorem nsCopy_nsName (h : (nsName ns).length < nsMax) : nsCopy (some (nsName ns)) = nsName ns := by
  rw [nsCopy_of_lt (by rwa [nsName_nsName]), nsName_nsName]

/-- The loops find the entry of a namespace and a key. -/
theorem Row.is_iff (hr : r.Ok) (hns : (nsName ns).length < nsMax)
    (key : Str) : r.is (nsCopy ns) key = true ↔ r.binding.1 = (nsName ns, key) := by
  rw [nsCopy_of_lt hns, Row.is, nsEq, nsCopy_nsName hns, hr.ns, hr.inUse]
  simp only [Bool.true_and, Bool.and_eq_true, decide_eq_true_eq, Row.binding, Prod.mk.injEq]
  rw [eq_comm (a := nsName ns)]

theorem Row.assign_ok (hr : r.Ok) (vec : Vec) (info : Option Str) :
    (r.assign vec info).Ok := ⟨cacheNorm_cached _, hr.inUse, hr.ns⟩

theorem Row.assign_binding (r : Row) (vec : Vec) (hinfo : (info.getD []).length < metaMax) :
    (r.assign vec info).binding = (r.binding.1, vec, info.getD []) := by
  simp only [Row.binding, Row.assign, Row.cacheNorm, take_of_length_le (Nat.le_sub_one_of_lt hinfo)]

variable {s : Index × VecMap}

/-- What a search in the rows finds: the row with the key, or that there is none. -/
theorem findRow_cases (h : Inv s) (hns : (nsName ns).length < nsMax) (key : Str) :
    (∃ i, s.1.rows.findIdx? (Row.is (nsCopy ns) key) = some i ∧
        ∃ hi : i < s.1.rows.length, s.1.rows[i].binding.1 = (nsName ns, key)) ∨
      (s.1.rows.findIdx? (Row.is (nsCopy ns) key) = none ∧
        ∀ b ∈ s.1.rows.map Row.binding, b.1 ≠ (nsName ns, key)) := by
  cases hfind : s.1.rows.findIdx? (Row.is (nsCopy ns) key) with
  | some i =>
    obtain ⟨hi, his, -⟩ := findIdx?_eq_some_iff_getElem.1 hfind
    exact .inl ⟨i, rfl, hi, (Row.is_iff (h.rows _ (getElem_mem hi)) hns key).1 his⟩
  | none =>
    refine .inr ⟨rfl, ?_⟩
    rw [forall_mem_map]
    intro r hr heq
    have hnot := findIdx?_eq_none_iff.1 hfind r hr
    rw [(Row.is_iff (h.rows r hr) hns key).2 heq] at hnot
    cases hnot

variable {ix : Index}

theorem ensureCapacity_rows {need : ℕ} {ix' : Index}
    (h : ensureCapacity alloc need ix = some ix') : ix'.rows = ix.rows := by
  simp only [ensureCapacity] at h
  split_ifs at h <;> cases h <;> rfl

theorem inv_upsert (h : Inv s) {caps : Bool} {vec : Vec}
    (hfits : (Call.upsert caps alloc ns key vec info).Fits)
    (hix : peakvecUpsert caps alloc ns key vec info s.1 = some ix) :
    Inv (ix, (Call.upsert caps alloc ns key vec info).on s.2) := by
  obtain ⟨hns, hkey, hinfo⟩ := hfits
  rw [peakvecUpsert] at hix
  split_ifs at hix
  obtain ⟨i, hfind, hi, hb⟩ | ⟨hfind, hnew⟩ := findRow_cases h hns key
  · simp only [hfind, Option.some.injEq] at hix
    subst hix
    have hset : s.1.rows.modify i (fun r => r.assign vec info) =
        s.1.rows.set i (s.1.rows[i].assign vec info) := modify_eq_set_get _ hi
    refine ⟨?_, fun r hr => ?_⟩
    · rw [hset, map_set, Row.assign_binding _ vec hinfo, hb]
      exact h.entries.put (by simpa using hi) (by simpa using hb) _
    rw [hset] at hr
    rcases mem_or_eq_of_mem_set hr with hr | rfl
    · exact h.rows r hr
    · exact Row.assign_ok (h.rows _ (getElem_mem hi)) vec info
  simp only [hfind, Option.map_eq_some_iff] at hix
  obtain ⟨grown, hgrown, rfl⟩ := hix
  rw [nsCopy_of_lt hns, nsCopy_nsName hns, take_of_length_le (Nat.le_sub_one_of_lt hkey),
    take_of_length_le (Nat.le_sub_one_of_lt hinfo)]
  refine ⟨?_, fun r hr => ?_⟩
  · rw [ensureCapacity_rows hgrown, map_append]
    exact h.entries.push hnew _
  rw [ensureCapacity_rows hgrown] at hr
  rcases mem_append.1 hr with hr | hr
  · exact h.rows r hr
  · rw [mem_singleton.1 hr]
    exact ⟨cacheNorm_cached _, rfl, nsCopy_nsName hns⟩

theorem inv_delete (h : Inv s)
    (hns : (nsName ns).length < nsMax) (hix : peakvecDelete ns key s.1 = some ix) :
    Inv (ix, (Call.delete ns key).on s.2) := by
  obtain ⟨i, hfind, rfl⟩ := Option.map_eq_some_iff.1 hix
  obtain ⟨j, hj, hi, hb⟩ | ⟨hnone, -⟩ := findRow_cases h hns key
  · obtain rfl : j = i := Option.some.inj (hj.symm.trans hfind)
    refine ⟨?_, fun r hr => h.rows r ?_⟩
    · rw [map_swapRemove]
      exact h.entries.remove (by simpa using hi) (by simpa using hb)
    · exact eraseIdx_subset ((swapRemove_perm hi).subset hr)
  · rw [hnone] at hfind
    cases hfind

theorem inv_apply (h : Inv s) {c : Call} (hc : c.Fits) : Inv (step s c) := by
  rw [step]
  split
  · exact h
  rename_i ix hix
  cases c with
  | upsert => exact inv_upsert h hc hix
  | delete => exact inv_delete h hc hix

/-- **The index is a map.** After any calls whose strings fit their fields, the entries are those of
the map that the successful calls lead to, each key in one of them, with norm and bucket of its
vector. -/
theorem index_is_map (h : Reach Start (fun _ c => c.Fits) step s) : Refines s := by
  have hinv : Inv s := by
    refine h.invariant Inv ?_ fun _ _ hs hc => inv_apply hs hc
    rintro ⟨_, _⟩ ⟨rfl, rfl⟩
    exact ⟨⟨nodup_nil, by simp⟩, by simp⟩
  exact ⟨hinv.entries, fun r hr => (hinv.rows r hr).cached⟩

/-- The keys `x` and `y` are entered, `x` is replaced, and `y` deleted. -/
def fourCalls : List Call :=
  [.upsert true true none [120] (.replicate 64 1) none,
    .upsert true true none [121] (.replicate 64 2) none,
    .upsert true true none [120] (.replicate 64 3) (some [122]), .delete none [121]]

theorem index_is_map_fourCalls :
    let s := fourCalls.foldl step (⟨[], 64⟩, fun _ => none)
    s.1.rows.map Row.binding = [((nsDefault, [120]), .replicate 64 3, [122])] ∧ Refines s :=
  ⟨by decide +kernel, index_is_map (Reach.calls (.start ⟨rfl, rfl⟩) _
    ⟨⟨by decide, by decide, by decide⟩, ⟨by decide, by decide, by decide⟩,
      ⟨by decide, by decide, by decide⟩, (by decide : nsDefault.length < nsMax), trivial⟩)⟩

/-- An upsert of a key of 64 bytes. -/
def longUpsert : Call := .upsert true true none (.replicate 64 120) (.replicate 64 0) none

/-- The second upsert of a long key does not find the first. -/
theorem index_not_map :
    ¬ ∀ s : Index × VecMap, Reach Start (fun _ _ => True) step s → Refines s := by
  intro hall
  have h := hall _ (.call longUpsert (.call longUpsert
    (.start (s := (⟨[], 64⟩, fun _ => none)) ⟨rfl, rfl⟩) trivial) trivial)
  exact absurd h.entries.nodup (by decide +kernel)

end PeakOs.PeakVec
