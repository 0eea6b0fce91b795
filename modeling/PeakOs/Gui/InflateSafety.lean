import PeakOs.Gui.Inflate

/-!
# The inflate decoder on every input

A run is followed with one invariant, `Good src cap d k`: the position is inside the input, the
output inside its buffer, `k` tables are allocated, and the rounds run so far are paid by the bits
read and the bytes written, up to a debt of `d` rounds that have begun.

## Main results

* `decodeBlock_good`, `dynamicTables_good`, `inflateLoop_good` — what each part keeps
* `inflate_robust` — no input makes the decoder fault, run on or keep a table
-/

namespace PeakOs.Inflate

open List

variable {src : List UInt8} {cap d k : ℕ} {s : St}

structure Good (src : List UInt8) (cap d k : ℕ) (s : St) : Prop where
  pos : s.pos ≤ 8 * src.length
  out : s.out.length ≤ cap
  steps : s.steps ≤ s.pos + s.out.length + d
  live : s.live = k

/-- The run stopped by returning `-1`, at most one round behind. -/
def Failed (src : List UInt8) (cap k : ℕ) (e : Stop) (s : St) : Prop :=
  e = .fail ∧ Good src cap 1 k s

theorem Good.mono {d' : ℕ} (h : Good src cap d k s) (hd : d ≤ d') : Good src cap d' k s :=
  ⟨h.pos, h.out, h.steps.trans (by omega), h.live⟩

variable {α : Type} {Q : α → St → Prop} {i total : ℕ} {E : Stop → St → Prop} {dist : Huff}

theorem Good.failed (h : Good src cap d k s) (hd : d ≤ 1) :
    Ends Q (Failed src cap k) ((throw .fail : M α) s) :=
  ⟨rfl, h.mono hd⟩

theorem Good.fails (h : Good src cap 0 k s) : Ends Q (Failed src cap k) ((throw .fail : M α) s) :=
  h.failed (Nat.zero_le 1)

/-- The part ends at a position that is not before the one of `s`, or fails. -/
abbrev Moves (src : List UInt8) (cap k : ℕ) (s : St) (r : EStateM.Result Stop St α) : Prop :=
  Ends (fun _ s' => Good src cap 0 k s' ∧ s.pos ≤ s'.pos) (Failed src cap k) r

/-- A part that begins later in the input. -/
theorem later {r : EStateM.Result Stop St α} {s₁ : St} (hp : s.pos ≤ s₁.pos)
    (h : Moves src cap k s₁ r) : Moves src cap k s r :=
  h.imp fun _ _ hgood => ⟨hgood.1, hp.trans hgood.2⟩

/-! ### Accesses -/

theorem fetch_bind {β : Type} {l : List β} {f : β → M α} (h : i < l.length)
    (hf : ∀ b, Ends Q E (f b s)) : Ends Q E ((fetch l i >>= f) s) := by
  have hfetch : Ends (fun _ s' => s = s') E (fetch l i s) := by
    rw [fetch, getElem?_eq_getElem h]
    exact ⟨rfl⟩
  exact hfetch.bind fun b _ e => e ▸ hf b

theorem get_bind {f : St → M α} (hf : Ends Q E (f s s)) : Ends Q E ((get >>= f) s) := ⟨hf.holds⟩

/-- A step of the loop is counted. -/
theorem tick_ends (h : Good src cap d k s) :
    Ends (fun _ s' => Good src cap (d + 1) k s' ∧ s'.pos = s.pos ∧ s'.out = s.out) E (tick s) := by
  refine ⟨⟨h.pos, h.out, ?_, h.live⟩, rfl, rfl⟩
  have := h.steps
  show s.steps + 1 ≤ s.pos + s.out.length + (d + 1)
  omega

/-- One byte of output, if there is room. -/
theorem emit_ends (h : Good src cap (d + 1) k s) (b : UInt8) (hroom : s.out.length < cap) :
    Ends (fun _ s' => Good src cap d k s' ∧ s'.pos = s.pos ∧ s'.out.length = s.out.length + 1) E
      (emit cap b s) := by
  have hlen : (s.out ++ [b]).length = s.out.length + 1 := by simp
  rw [emit, if_pos hroom]
  refine ⟨⟨h.pos, ?_, ?_, h.live⟩, rfl, hlen⟩
  · show (s.out ++ [b]).length ≤ cap
    omega
  show s.steps ≤ s.pos + (s.out ++ [b]).length + d
  have := h.steps
  omega

theorem kmalloc_ends (h : Good src cap d k s) (hd : d ≤ 1) :
    Ends (fun _ s' => Good src cap d (k + 1) s' ∧ s'.pos = s.pos) (Failed src cap k)
      (kmalloc s) := by
  have hlive := h.live
  rw [kmalloc]
  split
  · exact ⟨rfl, h.pos, h.out, h.steps.trans (by simp only; omega), h.live⟩
  · exact ⟨⟨h.pos, h.out, h.steps, by simp only; omega⟩, rfl⟩

theorem huffFree_ends (h : Good src cap d (k + 1) s) :
    Ends (fun _ s' => Good src cap d k s' ∧ s'.pos = s.pos) E (huffFree s) := by
  have hlive := h.live
  rw [huffFree, if_neg (by omega)]
  exact ⟨⟨h.pos, h.out, h.steps, by simp only; omega⟩, rfl⟩

/-- A table is released on the way out of a failure. -/
theorem elseFree_ends {x : M α}
    (h : Ends Q (Failed src cap (k + 1)) (x s)) : Ends Q (Failed src cap k) (elseFree x s) := by
  refine Ends.onStop h (fun e s' hE _ => ?_) fun e s' hE hp => ?_
  · exact (huffFree_ends hE.2).mono (fun _ _ hg => ⟨hE.1, hg.1⟩) fun _ _ he => he
  · rw [hE.1] at hp
    cases hp

/-! ### Bits -/

theorem readBitsLoop_ends (n i v : ℕ) (h : s.pos ≤ 8 * src.length) :
    Ends (fun _ s' => s' = { s with pos := s.pos + n } ∧ s.pos + n ≤ 8 * src.length)
      (fun e s' => e = .fail ∧
        ∃ p, s.pos ≤ p ∧ p ≤ 8 * src.length ∧ s' = { s with pos := p })
      (readBitsLoop src n i v s) := by
  induction n generalizing s i v with
  | zero => exact ⟨rfl, h⟩
  | succ n ih =>
    refine get_bind ?_
    by_cases hend : src.length ≤ s.pos / 8
    · rw [if_pos hend]
      exact ⟨rfl, s.pos, le_refl _, h, rfl⟩
    rw [if_neg hend]
    refine fetch_bind (by omega) fun b => ?_
    have hstep := ih (s := { s with pos := s.pos + 1 }) (i + 1)
      (v + (b.toNat >>> (s.pos % 8)) % 2 * 2 ^ i) (by simp only; omega)
    refine Ends.mono hstep ?_ ?_
    · rintro _ _ ⟨rfl, hle⟩
      simp only at hle ⊢
      exact ⟨by rw [add_assoc, add_comm 1], by omega⟩
    rintro _ _ ⟨rfl, p, hp, hle, rfl⟩
    simp only at hp
    exact ⟨rfl, p, by omega, hle, rfl⟩

/-- Bits are read inside the input only. -/
theorem readBits_ends (n : ℕ) (h : s.pos ≤ 8 * src.length) :
    Ends (fun _ s' => s' = { s with pos := s.pos + n } ∧ s.pos + n ≤ 8 * src.length)
      (fun e s' => e = .fail ∧
        ∃ p, s.pos ≤ p ∧ p ≤ 8 * src.length ∧ s' = { s with pos := p })
      (readBits src n s) := by
  rw [readBits]
  by_cases hn : 16 < n
  · rw [if_pos hn]
    exact ⟨rfl, s.pos, le_refl _, h, rfl⟩
  · rw [if_neg hn]
    exact readBitsLoop_ends n 0 0 h

/-- Bits that are read pay for steps. -/
theorem Good.moved (h : Good src cap d k s) {p : ℕ} (hp : s.pos ≤ p) (hle : p ≤ 8 * src.length) :
    Good src cap (d - (p - s.pos)) k { s with pos := p } := by
  refine ⟨hle, h.out, ?_, h.live⟩
  have := h.steps
  show s.steps ≤ p + s.out.length + (d - (p - s.pos))
  omega

theorem readBits_good (n : ℕ) (h : Good src cap d k s) (hd : d ≤ 1) :
    Ends (fun _ s' => Good src cap (d - n) k s' ∧ s'.pos = s.pos + n ∧ s'.out = s.out)
      (Failed src cap k) (readBits src n s) := by
  refine Ends.mono (readBits_ends n h.pos) ?_ ?_
  · rintro _ _ ⟨rfl, hle⟩
    refine ⟨?_, rfl, rfl⟩
    have hm := h.moved (Nat.le_add_right s.pos n) hle
    rwa [Nat.add_sub_cancel_left] at hm
  · rintro _ _ ⟨rfl, p, hp, hle, rfl⟩
    exact ⟨rfl, (h.moved hp hle).mono (by omega)⟩

theorem peekBits_good (n : ℕ) (h : Good src cap d k s) (hd : d ≤ 1) :
    Ends (fun _ s' => s = s') (Failed src cap k) (peekBits src n s) := by
  have hread := readBits_ends n h.pos
  rw [peekBits]
  cases hr : readBits src n s with
  | ok v s' =>
    rw [hr] at hread
    refine ⟨?_⟩
    rw [hread.holds.1]
  | error e s' =>
    rw [hr] at hread
    obtain ⟨he, p, -, -, rfl⟩ := hread.holds
    exact ⟨he, h.mono hd⟩

/-! ### Tables -/

/-- A table has a slot for each index its longest code can make. -/
def Huff.Sized (h : Huff) : Prop := h.codes.length = 2 ^ h.maxbits

theorem length_fillLoop (step : ℕ) (c : Slot) (n i : ℕ) (codes : List Slot) :
    (fillLoop step c n i codes).length = codes.length := by
  induction n generalizing i codes with
  | zero => rfl
  | succ n ih =>
    rw [fillLoop]
    split
    · rw [ih, length_set]
    · rfl

theorem length_fillSyms (bits : ℕ) (lens : List ℕ) (sym next : ℕ) (codes : List Slot) :
    (fillSyms bits lens sym next codes).length = codes.length := by
  induction lens generalizing sym next codes with
  | nil => rfl
  | cons l lens ih =>
    rw [fillSyms]
    split
    · rw [ih, length_fillLoop]
    · exact ih ..

theorem length_fillBits (lens : List ℕ) (bits : ℕ) (codes : List Slot) :
    (fillBits lens bits codes).length = codes.length := by
  induction bits generalizing codes with
  | zero => rfl
  | succ bits ih => rw [fillBits, ih, length_fillSyms]

/-- A table has all its slots. -/
theorem huffBuild_good (lens : List ℕ) (h : Good src cap d k s) (hd : d ≤ 1) :
    Ends (fun t s' => t.Sized ∧ Good src cap d (k + 1) s' ∧ s'.pos = s.pos) (Failed src cap k)
      (huffBuild lens s) := by
  rw [huffBuild]
  split
  · exact h.failed hd
  simp only
  split
  · exact h.failed hd
  refine (kmalloc_ends h hd).bind fun _ s' hs' => ⟨?_, hs'⟩
  show (fillBits _ _ _).length = _
  rw [length_fillBits, length_replicate]

theorem buildPair_good (lit dist : List ℕ) (h : Good src cap d k s) (hd : d ≤ 1) :
    Ends (fun t s' => (t.1.Sized ∧ t.2.Sized) ∧ Good src cap d (k + 2) s' ∧ s'.pos = s.pos)
      (Failed src cap k) (buildPair lit dist s) := by
  refine (huffBuild_good lit h hd).bind ?_
  rintro l s₁ ⟨hl, h₁, hp₁⟩
  refine (elseFree_ends (huffBuild_good dist h₁ hd)).bind ?_
  rintro t s₂ ⟨ht, h₂, hp₂⟩
  exact ⟨⟨hl, ht⟩, h₂, hp₂.trans hp₁⟩

/-- A symbol takes at least one bit, and the slot it is looked up in is there. -/
theorem huffDecode_good {t : Huff} (ht : t.Sized) (h : Good src cap d k s) (hd : d ≤ 1) :
    Ends (fun _ s' => Good src cap 0 k s' ∧ s.pos < s'.pos ∧ s'.out = s.out) (Failed src cap k)
      (huffDecode src t s) := by
  rw [huffDecode]
  split
  · exact h.failed hd
  refine (peekBits_good t.maxbits h hd).bind ?_
  rintro idx _ rfl
  have hidx : idx % 2 ^ t.maxbits < t.codes.length := by
    rw [show t.codes.length = 2 ^ t.maxbits from ht]
    exact Nat.mod_lt _ (Nat.two_pow_pos _)
  refine fetch_bind hidx fun c => ?_
  rcases c with _ | ⟨sym, bits⟩
  · exact h.failed hd
  simp only
  split
  · exact h.failed hd
  refine (readBits_good bits h hd).bind ?_
  rintro _ s' ⟨hg, hp, ho⟩
  exact ⟨hg.mono (by omega), by omega, ho⟩

/-! ### The symbols of a block -/

theorem extended_good {base bits : List ℕ} (hi : i < base.length)
    (hlen : bits.length = base.length) (h : Good src cap 0 k s) :
    Ends (fun _ s' => Good src cap 0 k s' ∧ s.pos ≤ s'.pos ∧ s'.out = s.out) (Failed src cap k)
      (extended src base bits i s) := by
  refine fetch_bind hi fun v => ?_
  refine fetch_bind (hlen ▸ hi) fun n => ?_
  split
  · exact ⟨h, le_refl _, rfl⟩
  refine (readBits_good n h (Nat.zero_le 1)).bind ?_
  rintro _ s' ⟨hg, hp, ho⟩
  exact ⟨hg.mono (by omega), by omega, ho⟩

/-- A match copies from what is written already. -/
theorem copyLoop_good {distance : ℕ} (hpos : distance ≠ 0) (n : ℕ)
    (h : Good src cap 0 k s) (hdist : distance ≤ s.out.length)
    (hroom : s.out.length + n ≤ cap) :
    Moves src cap k s (copyLoop cap distance n s) := by
  induction n generalizing s with
  | zero => exact ⟨h, le_refl _⟩
  | succ n ih =>
    refine (tick_ends h).bind ?_
    rintro _ s₁ ⟨h₁, hp₁, ho₁⟩
    refine get_bind ?_
    rw [if_neg (by rw [ho₁]; omega)]
    refine fetch_bind (by rw [ho₁]; omega) fun b => ?_
    refine (emit_ends h₁ b (by rw [ho₁]; omega)).bind ?_
    rintro _ s₂ ⟨h₂, hp₂, ho₂⟩
    rw [ho₁] at ho₂
    exact later (by omega) (ih h₂ (by omega) (by omega))

theorem decodeMatch_good (hd : dist.Sized) {sym : ℕ} (hlo : 256 < sym)
    (hhi : sym ≤ 285) (h : Good src cap 0 k s) :
    Moves src cap k s (decodeMatch src cap dist sym s) := by
  have hlen : sym - 257 < lenBase.length := by
    rw [show lenBase.length = 29 from rfl]
    omega
  refine (extended_good hlen (show lenBits.length = lenBase.length by decide) h).bind ?_
  rintro length s₁ ⟨h₁, hp₁, -⟩
  refine (huffDecode_good hd h₁ (Nat.zero_le 1)).bind ?_
  rintro dsym s₂ ⟨h₂, hp₂, -⟩
  refine Ends.ite (fun _ => h₂.fails) fun hsym => ?_
  have hdlen : dsym < distBase.length := by
    rw [show distBase.length = 30 from rfl]
    omega
  refine (extended_good hdlen (show distBits.length = distBase.length by decide) h₂).bind ?_
  rintro distance s₃ ⟨h₃, hp₃, -⟩
  refine get_bind ?_
  refine Ends.ite (fun _ => h₃.fails) fun hfar => ?_
  refine Ends.ite (fun _ => h₃.fails) fun hfull => ?_
  exact later (by omega) (copyLoop_good (by omega) length h₃ (by omega) (by omega))

/-- Each round reads at least one bit, so that the rounds do not run out before the input. -/
theorem decodeBlock_good {lit : Huff} (hl : lit.Sized) (hd : dist.Sized) (fuel : ℕ)
    (h : Good src cap 0 k s) (hfuel : 8 * src.length - s.pos < fuel) :
    Moves src cap k s (decodeBlock src cap lit dist fuel s) := by
  induction fuel generalizing s with
  | zero => omega
  | succ fuel ih =>
    refine (tick_ends h).bind ?_
    rintro _ s₁ ⟨h₁, hp₁, -⟩
    refine (huffDecode_good hl h₁ (le_refl 1)).bind ?_
    rintro sym s₂ ⟨h₂, hp₂, -⟩
    have hle := h₂.pos
    by_cases hlit : sym < 256
    · rw [if_pos hlit]
      refine get_bind ?_
      refine Ends.ite (fun _ => h₂.fails) fun hfull => ?_
      refine (emit_ends (h₂.mono (Nat.zero_le 1)) _ (by omega)).bind ?_
      rintro _ s₃ ⟨h₃, hp₃, -⟩
      exact later (by omega) (ih h₃ (by omega))
    rw [if_neg hlit]
    refine Ends.ite (fun hend => ⟨h₂, by omega⟩) fun hend => ?_
    refine Ends.ite (fun _ => h₂.fails) fun hbad => ?_
    have hmatch := decodeMatch_good hd (show 256 < sym by omega) (by omega) h₂
    refine hmatch.bind ?_
    rintro _ s₃ ⟨h₃, hp₃⟩
    exact later (by omega) (ih h₃ (by omega))

/-! ### The tables of a block -/

theorem readClLens_good (order cl : List ℕ) (hcl : ∀ i ∈ order, i < cl.length)
    (h : Good src cap 0 k s) :
    Moves src cap k s (readClLens src order cl s) := by
  induction order generalizing cl s with
  | nil => exact ⟨h, le_refl _⟩
  | cons i order ih =>
    refine (readBits_good 3 h (Nat.zero_le 1)).bind ?_
    rintro v s₁ ⟨h₁, hp₁, -⟩
    rw [if_pos (hcl i mem_cons_self)]
    refine Ends.imp (ih (cl.set i v) (fun j hj => ?_) h₁) ?_
    · rw [length_set]
      exact hcl j (mem_cons_of_mem i hj)
    · rintro _ s₂ ⟨h₂, hp₂⟩
      exact ⟨h₂, by omega⟩

/-- A repeat makes the list longer, but not too long. -/
theorem repeatLen_ends {rep v : ℕ} {all : List ℕ}
    (htotal : total ≤ allLensMax) (hall : all.length < total) (hrep : rep ≠ 0) :
    Ends (fun l s' => all.length < l.length ∧ l.length ≤ total ∧ s = s') E
      (repeatLen total rep v all s) := by
  simp only [repeatLen]
  rw [if_pos (by omega)]
  refine ⟨?_, ?_, rfl⟩ <;> simp only [length_append, length_replicate] <;> omega

/-- Every round adds a length, so that the fuel is enough. -/
theorem readLens_good {cl : Huff} (hcl : cl.Sized) (htotal : total ≤ allLensMax)
    (fuel : ℕ) (all : List ℕ) (hall : all.length ≤ total) (h : Good src cap 0 k s)
    (hfuel : total - all.length < fuel) :
    Moves src cap k s (readLens src cl total fuel all s) := by
  induction fuel generalizing s all with
  | zero => omega
  | succ fuel ih =>
    refine Ends.ite (fun hdone => ⟨h, le_refl _⟩) fun hdone => ?_
    refine (tick_ends h).bind ?_
    rintro _ s₁ ⟨h₁, hp₁, -⟩
    refine (huffDecode_good hcl h₁ (le_refl 1)).bind ?_
    rintro sym s₂ ⟨h₂, hp₂, -⟩
    -- in each branch some lengths are added, and the loop goes on from a later position
    have hadd : ∀ {rep v s₃}, rep ≠ 0 → Good src cap 0 k s₃ → s.pos ≤ s₃.pos →
        Moves src cap k s ((repeatLen total rep v all >>= readLens src cl total fuel) s₃) := by
      intro rep v s₃ hrep h₃ hp₃
      refine (repeatLen_ends htotal (by omega) hrep).bind ?_
      rintro all' _ ⟨hlt, hle, rfl⟩
      exact later (by omega) (ih all' hle h₃ (by omega))
    refine Ends.ite (fun hlit => hadd one_ne_zero h₂ (by omega)) fun hlit => ?_
    by_cases h16 : sym = 16
    · rw [if_pos h16]
      refine Ends.ite (fun _ => h₂.fails) fun hfirst => ?_
      refine (readBits_good 2 h₂ (Nat.zero_le 1)).bind ?_
      rintro rep s₃ ⟨h₃, hp₃, -⟩
      refine fetch_bind (by omega) fun v => ?_
      exact hadd (by omega) h₃ (by omega)
    rw [if_neg h16]
    by_cases h17 : sym = 17
    · rw [if_pos h17]
      refine (readBits_good 3 h₂ (Nat.zero_le 1)).bind ?_
      rintro rep s₃ ⟨h₃, hp₃, -⟩
      exact hadd (by omega) h₃ (by omega)
    rw [if_neg h17]
    by_cases h18 : sym = 18
    · rw [if_pos h18]
      refine (readBits_good 7 h₂ (Nat.zero_le 1)).bind ?_
      rintro rep s₃ ⟨h₃, hp₃, -⟩
      exact hadd (by omega) h₃ (by omega)
    rw [if_neg h18]
    exact h₂.fails

theorem fixedTables_good (h : Good src cap 0 k s) :
    Ends (fun t s' => (t.1.Sized ∧ t.2.Sized) ∧ Good src cap 0 (k + 2) s' ∧ s.pos ≤ s'.pos)
      (Failed src cap k) (fixedTables s) := by
  refine Ends.imp (buildPair_good _ _ h (Nat.zero_le 1)) ?_
  rintro t s' ⟨ht, h', hp'⟩
  exact ⟨ht, h', hp'.ge⟩

theorem dynamicTables_good (h : Good src cap 0 k s) :
    Ends (fun t s' => (t.1.Sized ∧ t.2.Sized) ∧ Good src cap 0 (k + 2) s' ∧ s.pos ≤ s'.pos)
      (Failed src cap k) (dynamicTables src s) := by
  refine (readBits_good 5 h (Nat.zero_le 1)).bind ?_
  rintro hlit s₁ ⟨h₁, hp₁, -⟩
  refine (readBits_good 5 h₁ (Nat.zero_le 1)).bind ?_
  rintro hdist s₂ ⟨h₂, hp₂, -⟩
  refine (readBits_good 4 h₂ (Nat.zero_le 1)).bind ?_
  rintro hclen s₃ ⟨h₃, hp₃, -⟩
  refine Ends.ite (fun _ => h₃.fails) fun hbad => ?_
  have horder : ∀ i ∈ clOrder.take (hclen + 4), i < (replicate 19 0).length :=
    fun i hi => (show ∀ i ∈ clOrder, i < 19 by decide) i (mem_of_mem_take hi)
  refine (readClLens_good _ _ horder h₃).bind ?_
  rintro clLens s₄ ⟨h₄, hp₄⟩
  refine (huffBuild_good clLens h₄ (Nat.zero_le 1)).bind ?_
  rintro cl s₅ ⟨hcl, h₅, hp₅⟩
  have htotal : hlit + 257 + (hdist + 1) ≤ allLensMax := by
    rw [allLensMax]
    omega
  refine (elseFree_ends (readLens_good hcl htotal _ [] (Nat.zero_le _) h₅ ?_)).bind ?_
  · exact Nat.lt_succ_of_le ((Nat.sub_le _ _).trans htotal)
  rintro all s₆ ⟨h₆, hp₆⟩
  refine (huffFree_ends h₆).bind ?_
  rintro _ s₇ ⟨h₇, hp₇⟩
  refine Ends.imp (buildPair_good _ _ h₇ (Nat.zero_le 1)) ?_
  rintro t s₈ ⟨ht, h₈, hp₈⟩
  exact ⟨ht, h₈, by omega⟩

/-! ### The decoder -/

theorem copyStored_good (n i : ℕ) (h : Good src cap 0 k s) (hsrc : i + n ≤ src.length)
    (hroom : s.out.length + n ≤ cap) :
    Ends (fun _ s' => Good src cap 0 k s' ∧ s'.pos = s.pos) (Failed src cap k)
      (copyStored src cap n i s) := by
  induction n generalizing s i with
  | zero => exact ⟨h, rfl⟩
  | succ n ih =>
    refine (tick_ends h).bind ?_
    rintro _ s₁ ⟨h₁, hp₁, ho₁⟩
    refine fetch_bind (by omega) fun b => ?_
    refine (emit_ends h₁ b (by rw [ho₁]; omega)).bind ?_
    rintro _ s₂ ⟨h₂, hp₂, ho₂⟩
    rw [ho₁] at ho₂
    exact Ends.imp (ih (i + 1) h₂ (by omega) (by omega)) fun _ _ h₃ => ⟨h₃.1, by omega⟩

theorem alignByte_good (h : Good src cap 0 k s) : Moves src cap k s (alignByte s) := by
  rw [alignByte]
  split
  · exact ⟨h, le_refl _⟩
  have hpos := h.pos
  have hm := h.moved (show s.pos ≤ 8 * (s.pos / 8 + 1) by omega) (by omega)
  exact ⟨hm.mono (by omega), by simp only; omega⟩

theorem storedBlock_good (h : Good src cap 0 k s) : Moves src cap k s (storedBlock src cap s) := by
  refine (alignByte_good h).bind ?_
  rintro _ s₁ ⟨h₁, hp₁⟩
  refine get_bind ?_
  simp only
  refine Ends.ite (fun _ => h₁.fails) fun hshort => ?_
  refine fetch_bind (by omega) fun b₀ => ?_
  refine fetch_bind (by omega) fun b₁ => ?_
  refine fetch_bind (by omega) fun b₂ => ?_
  refine fetch_bind (by omega) fun b₃ => ?_
  generalize b₀.toNat + b₁.toNat * 256 = len
  have h₂ : Good src cap 0 k { s₁ with pos := 8 * (s₁.pos / 8 + 4) } :=
    (h₁.moved (by omega) (by omega)).mono (by omega)
  split
  · exact h₂.fails
  refine Ends.ite (fun _ => h₂.fails) fun hlong => ?_
  refine (copyStored_good len _ h₂ (by omega) (by simp only; omega)).bind ?_
  rintro _ s₃ ⟨h₃, hp₃⟩
  simp only at hp₃
  exact ⟨(h₃.moved (by omega) (by omega)).mono (by omega), by simp only; omega⟩

/-- Both tables are released, however the block ends. -/
theorem codedBlock_good {tables : M (Huff × Huff)}
    (ht : Ends (fun t s' => (t.1.Sized ∧ t.2.Sized) ∧ Good src cap 0 (k + 2) s' ∧ s.pos ≤ s'.pos)
      (Failed src cap k) (tables s)) :
    Moves src cap k s (codedBlock src cap tables s) := by
  refine ht.bind ?_
  rintro ⟨lit, dist⟩ s₁ ⟨⟨hl, hd⟩, h₁, hp₁⟩
  refine (elseFree_ends (elseFree_ends (decodeBlock_good hl hd _ h₁ (by omega)))).bind ?_
  rintro _ s₂ ⟨h₂, hp₂⟩
  refine (huffFree_ends h₂).bind ?_
  rintro _ s₃ ⟨h₃, hp₃⟩
  exact (huffFree_ends h₃).imp fun _ _ h₄ => ⟨h₄.1, by omega⟩

theorem inflateBlock_good (btype : ℕ) (h : Good src cap 0 k s) :
    Moves src cap k s (inflateBlock src cap btype s) := by
  rw [inflateBlock]
  split_ifs
  · exact storedBlock_good h
  · exact codedBlock_good (fixedTables_good h)
  · exact codedBlock_good (dynamicTables_good h)
  · exact h.fails

/-- Every block reads a bit, so that the fuel is enough. -/
theorem inflateLoop_good (fuel : ℕ) (h : Good src cap 0 k s)
    (hfuel : 8 * src.length - s.pos < fuel) :
    Ends (fun _ => Good src cap 0 k) (Failed src cap k) (inflateLoop src cap fuel s) := by
  induction fuel generalizing s with
  | zero => omega
  | succ fuel ih =>
    refine (tick_ends h).bind ?_
    rintro _ s₁ ⟨h₁, hp₁, -⟩
    refine (readBits_good 1 h₁ (le_refl 1)).bind ?_
    rintro final s₂ ⟨h₂, hp₂, -⟩
    refine (readBits_good 2 h₂ (Nat.zero_le 1)).bind ?_
    rintro btype s₃ ⟨h₃, hp₃, -⟩
    refine (inflateBlock_good btype h₃).bind ?_
    rintro _ s₄ ⟨h₄, hp₄⟩
    have hle := h₄.pos
    split
    · exact ih h₄ (by omega)
    · exact ⟨h₄⟩

theorem good_start (oom : List Bool) : Good src cap 0 0 { oom := oom } :=
  ⟨Nat.zero_le _, Nat.zero_le _, Nat.zero_le _, rfl⟩

/-- What is promised of a run on `n` bytes of input and `cap` bytes of output, whatever its end. -/
structure Robust (n cap : ℕ) (r : EStateM.Result Stop St Unit) : Prop where
  returns : ∀ e s, r = .error e s → e = .fail
  output : ∀ s, r = .ok () s ∨ r = .error .fail s → s.out.length ≤ cap
  released : ∀ s, r = .ok () s ∨ r = .error .fail s → s.live = 0
  steps : ∀ s, r = .ok () s ∨ r = .error .fail s → s.steps ≤ 8 * n + cap + 1

theorem robust_of_ends {n : ℕ} {r : EStateM.Result Stop St Unit} (hn : src.length ≤ n)
    (h : Ends (fun _ => Good src cap 0 0) (Failed src cap 0) r) : Robust n cap r := by
  have hgood : ∀ s, r = .ok () s ∨ r = .error .fail s → Good src cap 1 0 s := by
    rintro s (rfl | rfl)
    · exact h.holds.mono (Nat.zero_le 1)
    · exact h.holds.2
  refine ⟨?_, fun s hs => (hgood s hs).out, fun s hs => (hgood s hs).live, fun s hs => ?_⟩
  · rintro e s rfl
    exact h.holds.1
  have hpos := (hgood s hs).pos
  have hout := (hgood s hs).out
  have hsteps := (hgood s hs).steps
  omega

/-- On every input, with every capacity and whatever allocations fail, the decoder and its zlib
wrapper return: no access lies outside the input, the output buffer or a table, the output fits
its buffer, no table stays allocated, and the rounds of the loops are bounded. -/
theorem inflate_robust (src : List UInt8) (cap : ℕ) (oom : List Bool) :
    Robust src.length cap (inflateLite src cap oom) ∧
      Robust src.length cap (inflateLiteZlib src cap oom) := by
  refine ⟨robust_of_ends (le_refl _) (inflateLoop_good _ (good_start oom) (by omega)), ?_⟩
  rw [inflateLiteZlib]
  split
  · have h : Good src cap 0 0 { oom := oom } := good_start oom
    exact robust_of_ends (le_refl _) (h.fails)
  set raw := (src.drop 2).take (src.length - 6) with hraw
  have hlen : raw.length ≤ src.length := by
    rw [length_take]
    omega
  have h : Good raw cap 0 0 { oom := oom } := good_start oom
  refine robust_of_ends hlen ?_
  refine fetch_bind (by omega) fun b₀ => ?_
  iterate 2
    split
    · exact h.fails
  refine fetch_bind (by omega) fun b₁ => ?_
  split
  · exact h.fails
  exact inflateLoop_good _ h (by omega)

example : inflateLite [1, 1, 0, 254, 255, 65] 1 [] =
    .ok () { pos := 48, out := [65], steps := 2 } := rfl

end PeakOs.Inflate
