import Mathlib.Algebra.BigOperators.Fin
import Mathlib.Algebra.Order.BigOperators.Ring.Finset
import Mathlib.Data.List.Sort
import Mathlib.Tactic.Linarith
import PeakOs.PeakVec.Model

/-!
# Queries return the best entries

A query keeps its best hits in a sorted array of `topk` places. Unless the pass over the probed
buckets is enough, the array holds the first places of the stable sort of all entries scanned. An
entry that the early-out test skips scores at most as much as the last hit.

The roots of `isqrt_u64` stay below `2 ^ 16`, so a score can be above 1000, but not above 17000.

## Main results

* `Holds.score` — one more entry is scored
* `query_ranks` — what a query returns
-/

namespace PeakOs.PeakVec

open List

/-! ### Stable insertion -/

/-- The best scores first; equal ones stay in their order. -/
def ranked (l : List Hit) : List Hit := l.insertionSort fun x y => y.score ≤ x.score

/-- `x` in the place behind the hits that are as good. -/
def place (x : Hit) (l : List Hit) : List Hit := l.orderedInsert (fun x y => y.score < x.score) x

variable {x : Hit} {l : List Hit}

theorem length_ranked (l : List Hit) : (ranked l).length = l.length := length_insertionSort ..

theorem orderedInsert_place (a x : Hit) (l : List Hit) :
    (place x l).orderedInsert (fun x y => y.score ≤ x.score) a =
      place x (l.orderedInsert (fun x y => y.score ≤ x.score) a) := by
  induction l with
  | nil => grind [place]
  | cons b l ih => grind [place]

/-- One more hit goes behind those that are as good. -/
theorem ranked_concat (x : Hit) (l : List Hit) : ranked (l ++ [x]) = place x (ranked l) := by
  induction l with
  | nil => rfl
  | cons a l ih => exact (congrArg _ ih).trans (orderedInsert_place a x (ranked l))

/-- Only the first places matter. -/
theorem take_place (x : Hit) (l : List Hit) (k : ℕ) :
    (place x (l.take k)).take k = (place x l).take k := by
  induction l generalizing k with
  | nil => rw [take_nil]
  | cons b l ih => cases k <;> grind [place]

theorem place_append {pads : List Hit} (h : ∀ y ∈ pads, y.score < x.score) :
    place x (l ++ pads) = place x l ++ pads := by
  induction l with
  | nil => cases pads <;> grind [place]
  | cons b l ih => grind [place]

theorem take_place_of_le (h : ∀ y ∈ l, x.score ≤ y.score) : (place x l).take l.length = l := by
  induction l with
  | nil => rfl
  | cons b l ih => grind [place]

theorem take_drop_eq_place {p : ℕ} (h : l.findIdx? (fun y => y.score < x.score) = some p) :
    l.take p ++ x :: l.drop p = place x l := by
  rw [place, orderedInsert_eq_take_drop, takeWhile_eq_take_findIdx_not,
    dropWhile_eq_drop_findIdx_not]
  obtain ⟨-, rfl⟩ := findIdx?_eq_some_iff_findIdx_eq.1 h
  simp only [decide_not, Bool.not_not]

/-! ### Scores -/

/-- The binary search stops above all squares that are too large for `x` or for 32 bits. -/
theorem isqrtLoop_spec (x fuel lo hi : ℕ) (h : hi - lo < 2 ^ fuel) (hle : lo ≤ hi) (h0 : 0 < lo)
    (hhi : min x (2 ^ 32 - 1) < (hi + 1) ^ 2) :
    0 < isqrtLoop x fuel lo hi ∧ min x (2 ^ 32 - 1) < (isqrtLoop x fuel lo hi + 1) ^ 2 := by
  induction fuel generalizing lo hi with
  | zero =>
    obtain rfl : lo = hi := by omega
    exact ⟨h0, hhi⟩
  | succ fuel ih =>
    rw [isqrtLoop]
    split
    · dsimp only
      split
      next hc =>
        refine ih _ _ (by omega) (by omega) h0 ?_
        rw [Nat.sub_add_cancel (by omega), sq]
        rcases hc with hc | hc
        · have := (Nat.div_lt_iff_lt_mul (by omega)).1 hc
          omega
        · omega
      · exact ih _ _ (by omega) (by omega) (by omega) hhi
    · obtain rfl : lo = hi := by omega
      exact ⟨h0, hhi⟩

/-- The root stays below `2 ^ 16`, so that it can be too small, but not by much. -/
theorem le_isqrt (x : ℕ) (h : x ≤ 2 ^ 36) : x ≤ 17 * isqrt x ^ 2 := by
  rw [isqrt]
  split
  · omega
  obtain ⟨h0, hlt⟩ := isqrtLoop_spec x 25 1 (min x 0x1000000) (by omega) (by omega) one_pos (by
    rcases le_total x 0x1000000 with hx | hx
    · rw [min_eq_left hx]
      nlinarith [min_le_left x (2 ^ 32 - 1)]
    · rw [min_eq_right hx]
      omega)
  generalize isqrtLoop _ _ _ _ = r at *
  rcases le_total x (2 ^ 32 - 1) with hx | hx
  · rw [min_eq_left hx] at hlt
    nlinarith
  rw [min_eq_right hx] at hlt
  have hr : 65535 ≤ r := by
    by_contra hr
    have := Nat.pow_le_pow_left (show r + 1 ≤ 65535 by omega) 2
    omega
  nlinarith

/-- The scalar product. -/
def dot (a b : Vec) : ℤ := ∑ i : Fin 64, (a.get i).toInt * (b.get i).toInt

/-- **The lanes add up to the scalar product.** -/
theorem vecDot_eq (a b : Vec) : vecDot a b = dot a b := by
  let term (i : ℕ) : ℤ := (a.toList.getD i 0).toInt * (b.toList.getD i 0).toInt
  have hlanes : vecDot a b = ∑ p ∈ Finset.range 4 ×ˢ Finset.range 16, term (4 * p.2 + p.1) := by
    rw [Finset.sum_product]
    iterate 4 rw [Finset.sum_range_succ]
    rw [Finset.sum_range_zero, zero_add]
    rfl
  have hplain : dot a b = ∑ i ∈ Finset.range 64, term i := by
    rw [dot, Finset.sum_range]
    refine Finset.sum_congr rfl fun i _ => ?_
    have hget (v : Vec) : v.toList.getD i 0 = v.get i := (by simp : _ = v[(i : ℕ)])
    simp only [term, hget]
  rw [hlanes, hplain]
  refine Finset.sum_nbij' (fun p => 4 * p.2 + p.1) (fun i => (i % 4, i / 4)) ?_ ?_ ?_ ?_ ?_ <;>
    simp only [Finset.mem_product, Finset.mem_range, Prod.forall, Prod.mk.injEq]
  all_goals grind

/-- Cauchy and Schwarz. -/
theorem vecDot_sq_le (a b : Vec) : vecDot a b ^ 2 ≤ vecNormSq a * vecNormSq b := by
  simp only [vecNormSq, vecDot_eq, dot, ← sq]
  exact Finset.sum_mul_sq_le_sq_mul_sq ..

theorem vecNormSq_bounds (a : Vec) : 0 ≤ vecNormSq a ∧ vecNormSq a ≤ 2 ^ 36 := by
  rw [vecNormSq, vecDot_eq, dot]
  refine ⟨Finset.sum_nonneg fun _ _ => mul_self_nonneg _, ?_⟩
  refine (Finset.sum_le_card_nsmul _ _ (2 ^ 30) fun i _ => ?_).trans (by simp)
  nlinarith [Int16.le_toInt (a.get i), Int16.toInt_lt (a.get i)]

theorem vecNormSq_le (a : Vec) : vecNormSq a ≤ 17 * (isqrt (vecNormSq a).toNat : ℤ) ^ 2 := by
  obtain ⟨h0, h⟩ := vecNormSq_bounds a
  have := le_isqrt (vecNormSq a).toNat (by omega)
  zify at this
  rwa [Int.toNat_of_nonneg h0] at this

/-- The hit a row makes, with the score as it is before it is cut to 32 bits. -/
def rowHit (query : Vec) (r : Row) : Hit :=
  ⟨r.entry.key, r.entry.info,
    (dot query r.entry.vec * 1000).tdiv (isqrt (dot query query).toNat * r.nroot)⟩

variable {query : Vec} {r : Row}

theorem rowHit_score (query : Vec) (r : Row) : (rowHit query r).score =
    (vecDot query r.entry.vec * 1000).tdiv (isqrt (vecNormSq query).toNat * r.nroot) := by
  rw [vecNormSq, vecDot_eq, vecDot_eq, rowHit]

/-- **The cast of a score to 32 bits does not wrap.** -/
theorem rowHit_score_bounds (query : Vec) (hr : r.Cached) :
    -17000 ≤ (rowHit query r).score ∧ (rowHit query r).score ≤ 17000 := by
  have hroot : r.nroot = isqrt (vecNormSq r.entry.vec).toNat := (congrArg Row.nroot hr).symm
  have hdot : |vecDot query r.entry.vec| ≤ 17 * (isqrt (vecNormSq query).toNat * r.nroot) := by
    refine abs_le_of_sq_le_sq ((vecDot_sq_le _ _).trans ?_) (by positivity)
    rw [hroot]
    refine (mul_le_mul (vecNormSq_le _) (vecNormSq_le _) (vecNormSq_bounds _).1 ?_).trans_eq ?_
    · positivity
    · ring
  rw [← abs_le, rowHit_score, Int.abs_eq_natAbs, Int.natAbs_tdiv]
  refine Int.ofNat_le.2 (Nat.div_le_of_le_mul ?_)
  zify
  rw [abs_mul, abs_of_nonneg (show (0 : ℤ) ≤ isqrt _ * r.nroot by positivity),
    abs_of_pos (show (0 : ℤ) < 1000 by norm_num)]
  linarith

/-- The early-out test agrees with the division. -/
theorem cosineMilli_cases (hr : r.Cached) (early : Bool) (worst : ℤ) (c : Option ℤ)
    (hc : cosineMilli query (isqrt (vecNormSq query).toNat) r.entry.vec r.nroot early worst = c) :
    c = some (rowHit query r).score ∨ c = none ∧ early ∧ (rowHit query r).score ≤ worst := by
  obtain ⟨hge, hle⟩ := rowHit_score_bounds query hr
  rw [rowHit_score] at hge hle ⊢
  rw [cosineMilli] at hc
  split at hc
  next h0 =>
    left
    rcases h0 with h0 | h0 <;> simp [← hc, h0]
  next h0 =>
    dsimp only at hc
    split at hc
    · rename_i hearly
      refine .inr ⟨hc.symm, hearly.1, ?_⟩
      have hpos : (0 : ℤ) < isqrt (vecNormSq query).toNat * r.nroot := by
        exact_mod_cast mul_pos (by omega) (by omega)
      refine (Int.tdiv_le_tdiv hpos ?_).trans_eq (Int.mul_tdiv_cancel worst hpos.ne')
      rcases hearly.2 with hd | hd
      · nlinarith
      · exact hd.2
    rw [← hc, Int32.toInt_ofInt_of_le]
    · exact .inl rfl
    · exact le_trans (by decide) hge
    · exact hle.trans_lt (by decide)

/-! ### Runs of the loop -/

/-- What an unused place holds. -/
def pad : Hit := ⟨[], [], -1000000⟩

/-- The state of the loop once the hits `l` are scored. -/
structure Holds (topk : ℕ) (l : List Hit) (a : Ranking) : Prop where
  hits : a.hits = (ranked l ++ replicate topk pad).take topk
  found : a.found = min topk l.length
  worst : ∀ y ∈ a.hits, a.worst ≤ y.score
  scores : ∀ y ∈ l, -1000000 < y.score

variable {topk : ℕ} {a : Ranking}

theorem sorted_pads (h : ∀ y ∈ l, -1000000 < y.score) :
    (ranked l ++ replicate topk pad).Pairwise fun x y => y.score ≤ x.score := by
  have : Std.Total fun x y : Hit => y.score ≤ x.score := ⟨fun _ _ => le_total ..⟩
  have : IsTrans Hit fun x y => y.score ≤ x.score := ⟨fun _ _ _ h h' => h'.trans h⟩
  refine pairwise_append.2 ⟨pairwise_insertionSort _ l, ?_, fun x hx y hy => ?_⟩
  · exact pairwise_replicate.2 (.inr le_rfl)
  · rw [eq_of_mem_replicate hy]
    exact (h x ((mem_insertionSort _).1 hx)).le

theorem getLast_score_le (h : l.Pairwise fun x y => y.score ≤ x.score) (hx : x ∈ l) (w : ℤ) :
    (l.getLast?.map Hit.score).getD w ≤ x.score := by
  have : Std.Refl fun x y : Hit => y.score ≤ x.score := ⟨fun _ => le_rfl⟩
  rw [getLast?_eq_some_getLast (ne_nil_of_mem hx)]
  exact h.rel_getLast hx

/-- **One entry** is scored. -/
theorem Holds.score (h : Holds topk l a) (hr : r.Cached) :
    Holds topk (l ++ [rowHit query r]) (a.score topk query r) := by
  have hx : -1000000 < (rowHit query r).score := by linarith [(rowHit_score_bounds query hr).1]
  have hscores : ∀ y ∈ l ++ [rowHit query r], -1000000 < y.score := by
    simpa [or_imp, forall_and] using ⟨h.scores, hx⟩
  have hhits : (ranked (l ++ [rowHit query r]) ++ replicate topk pad).take topk =
      (place (rowHit query r) a.hits).take topk := by
    rw [ranked_concat, h.hits, take_place, place_append]
    intro y hy
    rwa [eq_of_mem_replicate hy]
  have hlen : a.hits.length = topk := by simp [h.hits]
  have keep (hf : topk ≤ a.found) (hle : ∀ y ∈ a.hits, (rowHit query r).score ≤ y.score) :
      Holds topk (l ++ [rowHit query r]) a := by
    refine ⟨?_, ?_, h.worst, hscores⟩
    · rw [hhits, ← hlen, take_place_of_le hle]
    · have := h.found
      grind
  rw [Ranking.score]
  rcases cosineMilli_cases hr (topk ≤ a.found) a.worst _ rfl with e | ⟨e, hf, hle⟩
  · dsimp only
    rw [e]
    dsimp only
    split
    next hc => exact keep hc.1 fun y hy => hc.2.trans (h.worst y hy)
    · split
      next hnone =>
        simp only [findIdx?_eq_none_iff, decide_eq_false_iff_not, not_lt] at hnone
        refine keep ?_ hnone
        -- a place that is not used would be found
        by_contra hf
        have hpad : pad ∈ a.hits := by
          rw [h.found] at hf
          rw [h.hits, take_append, take_replicate, length_ranked]
          exact mem_append_right _ (mem_replicate.2 ⟨by omega, rfl⟩)
        exact (hnone _ hpad).not_gt hx
      next p hp =>
        have hnew := (congrArg (take topk) (take_drop_eq_place hp)).trans hhits.symm
        refine ⟨hnew, ?_, fun y hy => ?_, hscores⟩
        · have := h.found
          grind
        · exact getLast_score_le (hnew ▸ (sorted_pads hscores).take) hy _
  dsimp only
  rw [e]
  exact keep (of_decide_eq_true hf) fun y hy => hle.trans (h.worst y hy)

/-- **One pass** of the loop. -/
theorem Holds.foldl {rows : List Row} (h : Holds topk l a) (hrows : ∀ r ∈ rows, r.Cached) :
    Holds topk (l ++ rows.map (rowHit query)) (rows.foldl (·.score topk query) a) := by
  induction rows generalizing l a with
  | nil => simpa using h
  | cons r rows ih =>
    rw [forall_mem_cons] at hrows
    simpa using ih (h.score hrows.1) hrows.2

/-! ### Queries -/

def live (ns : Option Str) (ix : Index) : List Row := ix.rows.filter fun r => nsEq (nsCopy ns) r.ns

/-- Is the row scored in the first of two passes? -/
def probed (query : Vec) (r : Row) : Bool := bucketInProbe r.bucket (vecBucket query)

/-- The rows of the namespace in the order of the passes. -/
def scanned (ns : Option Str) (query : Vec) (ix : Index) : List Row :=
  if (live ns ix).length < annThreshold then live ns ix
  else (live ns ix).filter (probed query) ++ (live ns ix).filter fun r => !probed query r

def start (topk : ℕ) : Ranking := ⟨replicate topk pad, 0, -1000000⟩

/-- The query ends after the first of two passes. -/
def AnnShortcut (ns : Option Str) (query : Vec) (topk : ℕ) (ix : Index) : Prop :=
  let first := ((live ns ix).filter (probed query)).foldl (·.score topk query) (start topk)
  annThreshold ≤ (live ns ix).length ∧ topk ≤ first.found ∧ 500 < first.worst

/-- The norms are cached in every reachable index (`ok_of_reach`). -/
theorem query_ranks (ns : Option Str) (query : Vec) (topk : ℕ) (ix : Index)
    (hrows : ∀ r ∈ ix.rows, r.Cached) (h0 : 0 < topk) (h8 : topk ≤ topkMax)
    (hs : ¬ AnnShortcut ns query topk ix) :
    ∃ a, peakvecQuery ns query topk ix = some a ∧
      a.found = min topk (scanned ns query ix).length ∧
      a.hits.take a.found = (ranked ((scanned ns query ix).map (rowHit query))).take topk := by
  have hlive (r : Row) (hr : r ∈ live ns ix) : r.Cached := hrows r (mem_of_mem_filter hr)
  have hstart : Holds topk [] (start topk) := by
    refine ⟨?_, (min_zero _).symm, fun y hy => ?_, by simp⟩
    · simp [start, ranked]
    · rw [eq_of_mem_replicate hy]
      rfl
  have hscan : Holds topk ((scanned ns query ix).map (rowHit query))
      ((scanned ns query ix).foldl (·.score topk query) (start topk)) :=
    hstart.foldl (by grind [scanned])
  refine ⟨_, ?_, hscan.found.trans (by rw [length_map]), ?_⟩
  · rw [peakvecQuery, if_neg h0.ne', min_eq_left h8, scanned]
    by_cases hn : (live ns ix).length < annThreshold
    · rw [if_pos hn]
      exact if_pos hn
    · rw [if_neg hn, foldl_append]
      exact (if_neg hn).trans (if_neg fun h => hs ⟨not_lt.1 hn, h⟩)
  rw [hscan.found, hscan.hits, ← length_ranked, take_take, min_right_comm, min_self,
    take_append_of_le_length (min_le_right ..)]
  exact take_eq_take_min.symm

/-- The entry `key` with all components `x`. -/
def evenRow (key : UInt8) (x : Int16) : Row :=
  Row.cacheNorm ⟨⟨[key], [], .replicate 64 x, true⟩, nsDefault, 0, 0, 0⟩

/-- Two entries in the direction of the query, and before them one the other way. -/
def threeRows : Index := ⟨[evenRow 120 (-1), evenRow 121 2, evenRow 122 1], 64⟩

theorem query_ranks_threeRows :
    ∃ a, peakvecQuery none (.replicate 64 1) 2 threeRows = some a ∧
      a.found = min 2 (scanned none (.replicate 64 1) threeRows).length ∧
      a.hits.take a.found =
        (ranked ((scanned none (.replicate 64 1) threeRows).map
          (rowHit (.replicate 64 1)))).take 2 ∧
      a.hits = [⟨[121], [], 1000⟩, ⟨[122], [], 1000⟩] := by
  obtain ⟨a, ha, hfound, hhits⟩ := query_ranks none (.replicate 64 1) 2 threeRows
    (by decide +kernel) two_pos (by decide) fun h => absurd h.1 (by decide +kernel)
  have heval : (peakvecQuery none (.replicate 64 1) 2 threeRows).map Ranking.hits =
      some [⟨[121], [], 1000⟩, ⟨[122], [], 1000⟩] := by decide +kernel
  rw [ha] at heval
  exact ⟨a, ha, hfound, hhits, Option.some.inj heval⟩

end PeakOs.PeakVec
