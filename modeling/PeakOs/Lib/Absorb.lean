import Mathlib.Data.List.Basic
import Mathlib.Tactic.Ring

/-!
# Absorbing a list block by block

A hash or an authenticator takes its input in blocks of `n` elements: a whole block goes into the
state, and what is left of the input waits for more. The input may come in pieces of any length, so
the elements that wait are kept in a buffer.

## Main results

* `blockInduction` — induction over the whole blocks of a list
* `whole_append`, `rest_append` — a list that comes in two pieces
* `feed_absorbed` — the buffer after a piece is the one of all the input so far
* `foldl_feed` — any number of pieces
* `foldl_split` — the blocks, with a short one at the end
* `drain_eq` — taking blocks from the front while there are any
-/

namespace PeakOs.Absorb

open List

variable {α σ τ : Type*}

section
variable (f : σ → List α → σ) (n : ℕ)

/-- The first `k` blocks go into the state. -/
def blocks : ℕ → σ → List α → σ
  | 0, s, _ => s
  | k + 1, s, xs => blocks k (f s (xs.take n)) (xs.drop n)

/-- All the whole blocks go into the state. -/
def whole (s : σ) (xs : List α) : σ := blocks f n (xs.length / n) s xs

/-- What is left behind the whole blocks. -/
def rest (xs : List α) : List α := xs.drop (n * (xs.length / n))

/-- The blocks of a list; the last one may be short. -/
def splitLoop : ℕ → List α → List (List α)
  | 0, _ => []
  | k + 1, xs => if xs = [] then [] else xs.take n :: splitLoop k (xs.drop n)

def split (xs : List α) : List (List α) := splitLoop n xs.length xs

/-- Whole blocks are taken from the front, at most `k` of them. -/
def drain : ℕ → σ → List α → σ × List α
  | 0, s, xs => (s, xs)
  | k + 1, s, xs => if n ≤ xs.length then drain k (f s (xs.take n)) (xs.drop n) else (s, xs)

end

/-- A state, and the elements that wait for a block to be full. -/
structure Buffer (σ α : Type*) where
  state : σ
  held : List α

/-- A piece goes into the buffer; whenever a block is full, it goes into the state. Every turn takes
an element, so as many turns as there are elements are enough. -/
def Buffer.feed (f : σ → List α → σ) (n : ℕ) : ℕ → Buffer σ α → List α → Buffer σ α
  | 0, c, _ => c
  | k + 1, c, xs =>
    if xs = [] then c
    else
      let m := min (n - c.held.length) xs.length
      let held := c.held ++ xs.take m
      if held.length = n then feed f n k ⟨f c.state held, []⟩ (xs.drop m)
      else feed f n k ⟨c.state, held⟩ (xs.drop m)

/-- The buffer behind the input `xs`. -/
def absorbed (f : σ → List α → σ) (n : ℕ) (s : σ) (xs : List α) : Buffer σ α :=
  ⟨whole f n s xs, rest n xs⟩

variable {f : σ → List α → σ} {n : ℕ} {s : σ} {b xs ys : List α}

/-! ### Whole blocks -/

theorem whole_of_lt (h : xs.length < n) : whole f n s xs = s := by
  rw [whole, Nat.div_eq_of_lt h]
  rfl

theorem rest_of_lt (h : xs.length < n) : rest n xs = xs := by
  rw [rest, Nat.div_eq_of_lt h]
  rfl

theorem length_rest (n : ℕ) (xs : List α) : (rest n xs).length = xs.length % n := by
  have := Nat.div_add_mod xs.length n
  rw [rest, length_drop]
  omega

variable (hn : 0 < n)
include hn

theorem length_div_append (hb : b.length = n) : (b ++ xs).length / n = xs.length / n + 1 := by
  rw [length_append, hb, Nat.add_div_left _ hn]

theorem whole_block (hb : b.length = n) : whole f n s (b ++ xs) = whole f n (f s b) xs := by
  rw [whole, length_div_append hn hb, blocks, take_left' hb, drop_left' hb]
  rfl

theorem rest_block (hb : b.length = n) : rest n (b ++ xs) = rest n xs := by
  rw [rest, length_div_append hn hb, Nat.mul_succ, add_comm, ← drop_drop, drop_left' hb]
  rfl

/-- **Induction over the whole blocks of a list.** -/
theorem blockInduction {P : List α → Prop} (short : ∀ xs : List α, xs.length < n → P xs)
    (block : ∀ b xs : List α, b.length = n → P xs → P (b ++ xs)) (xs : List α) : P xs := by
  induction hlen : xs.length using Nat.strong_induction_on generalizing xs with
  | _ len ih =>
    rcases lt_or_ge xs.length n with hlt | hge
    · exact short xs hlt
    rw [← take_append_drop n xs]
    refine block _ _ (length_take_of_le hge) (ih _ ?_ _ rfl)
    rw [length_drop]
    omega

/-- **A list that comes in two pieces.** -/
theorem whole_append (s : σ) (xs ys : List α) :
    whole f n s (xs ++ ys) = whole f n (whole f n s xs) (rest n xs ++ ys) := by
  induction xs using blockInduction hn generalizing s with
  | short xs hlt => rw [whole_of_lt hlt, rest_of_lt hlt]
  | block b xs hb ih =>
    rw [append_assoc, whole_block hn hb, ih, whole_block hn hb, rest_block hn hb]

theorem rest_append (xs ys : List α) : rest n (xs ++ ys) = rest n (rest n xs ++ ys) := by
  induction xs using blockInduction hn with
  | short xs hlt => rw [rest_of_lt hlt]
  | block b xs hb ih => rw [append_assoc, rest_block hn hb, ih, rest_block hn hb]

/-- A state that is seen through `g`. -/
theorem whole_map {f' : τ → List α → τ} (g : σ → τ) (hg : ∀ s b, g (f s b) = f' (g s) b) (s : σ)
    (xs : List α) : g (whole f n s xs) = whole f' n (g s) xs := by
  induction xs using blockInduction hn generalizing s with
  | short xs hlt => rw [whole_of_lt hlt, whole_of_lt hlt]
  | block b xs hb ih => rw [whole_block hn hb, whole_block hn hb, ih, hg]

theorem drain_eq (k : ℕ) (s : σ) (xs : List α) (hk : xs.length ≤ k) :
    drain f n k s xs = (whole f n s xs, rest n xs) := by
  induction k generalizing s xs with
  | zero =>
    have hlt : xs.length < n := by omega
    rw [drain, whole_of_lt hlt, rest_of_lt hlt]
  | succ k ih =>
    rw [drain]
    split_ifs with hle
    · have hb : (xs.take n).length = n := length_take_of_le hle
      rw [ih _ _ (by rw [length_drop]; omega), ← whole_block hn hb, ← rest_block hn hb,
        take_append_drop]
    · rw [whole_of_lt (Nat.lt_of_not_le hle), rest_of_lt (Nat.lt_of_not_le hle)]

/-- The whole blocks, and one short block if anything is left. -/
theorem foldl_splitLoop (k : ℕ) (s : σ) (xs : List α) (hk : xs.length ≤ k) :
    (splitLoop n k xs).foldl f s =
      if rest n xs = [] then whole f n s xs else f (whole f n s xs) (rest n xs) := by
  induction k generalizing s xs with
  | zero =>
    obtain rfl : xs = [] := length_eq_zero_iff.1 (by omega)
    rw [whole_of_lt hn, rest_of_lt hn]
    rfl
  | succ k ih =>
    rw [splitLoop]
    split_ifs with hnil hrest hrest
    · rw [hnil, whole_of_lt hn]
      rfl
    · rw [hnil, rest_of_lt hn] at hrest
      exact absurd rfl hrest
    all_goals
      rw [foldl_cons, ih _ _ (by rw [length_drop]; omega)]
      rcases lt_or_ge xs.length n with hlt | hge
    · rw [rest_of_lt hlt] at hrest
      exact absurd hrest hnil
    · have hb : (xs.take n).length = n := length_take_of_le hge
      rw [← rest_block hn hb, take_append_drop, if_pos hrest, ← whole_block hn hb, take_append_drop]
    · rw [take_of_length_le hlt.le, drop_eq_nil_of_le hlt.le, rest_of_lt hn,
        whole_of_lt hn, if_pos rfl, rest_of_lt hlt, whole_of_lt hlt]
    · have hb : (xs.take n).length = n := length_take_of_le hge
      rw [← rest_block hn hb, take_append_drop, if_neg hrest, ← whole_block hn hb, take_append_drop]

theorem foldl_split (s : σ) (xs : List α) : (split n xs).foldl f s =
    if rest n xs = [] then whole f n s xs else f (whole f n s xs) (rest n xs) :=
  foldl_splitLoop hn _ s xs le_rfl

/-! ### The buffer -/

theorem feed_eq (k : ℕ) (c : Buffer σ α) (xs : List α) (hc : c.held.length < n)
    (hk : xs.length ≤ k) : c.feed f n k xs = absorbed f n c.state (c.held ++ xs) := by
  induction k generalizing c xs with
  | zero =>
    obtain rfl : xs = [] := length_eq_zero_iff.1 (by omega)
    rw [Buffer.feed, absorbed, append_nil, whole_of_lt hc, rest_of_lt hc]
  | succ k ih =>
    simp only [Buffer.feed]
    generalize hm : min (n - c.held.length) xs.length = m
    have hdrop : (xs.drop m).length = xs.length - m := length_drop
    have hlen : (c.held ++ xs.take m).length = c.held.length + m := by
      rw [length_append, length_take]
      omega
    have hjoin : c.held ++ xs = c.held ++ xs.take m ++ xs.drop m := by
      rw [append_assoc, take_append_drop]
    split_ifs with hnil hfull
    · rw [hnil, absorbed, append_nil, whole_of_lt hc, rest_of_lt hc]
    · rw [ih ⟨_, []⟩ (xs.drop m) hn (by omega), hjoin, absorbed, absorbed, whole_block hn hfull,
        rest_block hn hfull]
      rfl
    · rw [ih ⟨_, _⟩ (xs.drop m) (show (c.held ++ xs.take m).length < n by omega) (by omega), hjoin]

/-- **The buffer behind another piece.** -/
theorem feed_absorbed (s : σ) (xs ys : List α) :
    (absorbed f n s xs).feed f n ys.length ys = absorbed f n s (xs ++ ys) := by
  have hlt : (absorbed f n s xs).held.length < n := by
    rw [absorbed, length_rest]
    exact Nat.mod_lt _ hn
  rw [feed_eq hn _ _ _ hlt le_rfl, absorbed, absorbed, absorbed, whole_append hn s xs ys,
    rest_append hn xs ys]

/-- Any number of pieces. -/
theorem foldl_feed (update : Buffer σ α → List α → Buffer σ α)
    (hupdate : ∀ c ys, update c ys = c.feed f n ys.length ys) (s : σ) (xs : List α)
    (chunks : List (List α)) :
    chunks.foldl update (absorbed f n s xs) = absorbed f n s (xs ++ chunks.flatten) := by
  induction chunks generalizing xs with
  | nil => rw [flatten_nil, append_nil, foldl_nil]
  | cons ys chunks ih =>
    rw [foldl_cons, hupdate, feed_absorbed hn, ih, append_assoc, flatten_cons]

end PeakOs.Absorb
