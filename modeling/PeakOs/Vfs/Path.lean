import Mathlib.Tactic.Ring
import Mathlib.Data.List.Basic

/-!
# Paths

The string functions of `kernel/vfs.c`. A C string is the list of its bytes without the terminating
zero. Two functions cut a path into names, and they differ: `vfs_lookup` (and `vfs_mkdir`) cut a
name that is too long into pieces of 63 bytes, `vfs_normalize` rejects it.

## Main results

* `nameParts_leaf` — the parts of a path whose last name is neither empty nor too long
* `nameParts_built` — cutting a path without long names adds no separators
* `vfsNormalize_spec` — a normalised path has no long names and fits its buffer
* `vfsNormalize_idem` — it is its own normal form
* `normal_forms` — which paths are in normal form
-/

namespace PeakOs.Vfs

open List

abbrev Path := List UInt8

def slash : UInt8 := 47

def vfsNameMax : ℕ := 64
def vfsPathMax : ℕ := 256

/-- The error codes of `peak_errno.h` that the file system returns. -/
inductive PeakErr
  | einval
  | enoent
  | enomem
  | eexist
  | enotdir
  | eisdir
  | enospc
  | eio
  | ebusy
  | eloop
  deriving DecidableEq, Repr

/-! ### Cutting a path into names -/

/-- The names `vfs_lookup` reads, with `acc` the part of the current one that is already read. -/
def splitNames : Path → Path → List Path
  | acc, [] => if acc = [] then [] else [acc]
  | acc, c :: cs =>
    if c = slash then (if acc = [] then [] else [acc]) ++ splitNames [] cs
    else if acc.length + 1 < vfsNameMax then splitNames (acc ++ [c]) cs
    else acc :: splitNames [c] cs

/-- The names of an absolute path; its first byte is the slash. -/
def nameParts (path : Path) : List Path := splitNames [] path.tail

/-- The first name of the rest of a path and what is behind it, as one turn of the loop of
`vfs_resolve` takes them. -/
def takePart (rest : Path) : Path × Path :=
  let part := (rest.take (vfsNameMax - 1)).takeWhile (· ≠ slash)
  let rest := rest.drop part.length
  (part, if rest.head? = some slash then rest.tail else rest)

/-- The last slash of a path. -/
def lastSlash : Path → Option ℕ
  | [] => none
  | c :: cs =>
    match lastSlash cs with
    | some i => some (i + 1)
    | none => if c = slash then some 0 else none

/-! ### Normal form -/

/-- The runs of bytes between slashes. -/
def slashRuns : Path → Path → List Path
  | acc, [] => if acc = [] then [] else [acc]
  | acc, c :: cs =>
    if c = slash then (if acc = [] then [] else [acc]) ++ slashRuns [] cs
    else slashRuns (acc ++ [c]) cs

/-- The loop of `vfs_normalize`; `parts` are the names kept so far, the last one first. Names after
the thirty-second are ignored. -/
def normalizeLoop : List Path → List Path → Except PeakErr (List Path)
  | [], parts => .ok parts
  | part :: rest, parts =>
    if 32 ≤ parts.length then .ok parts
    else if vfsNameMax ≤ part.length then .error .einval
    else if part = [46] then normalizeLoop rest parts
    else if part = [46, 46] then normalizeLoop rest parts.tail
    else normalizeLoop rest (part :: parts)

def renderNames (names : List Path) : Path :=
  if names = [] then [slash] else names.flatMap (slash :: ·)

def vfsNormalize (path : Path) (outLen : ℕ) : Except PeakErr Path :=
  if outLen < 2 then .error .einval
  else if path.head? ≠ some slash then .error .einval
  else
    match normalizeLoop (slashRuns [] path.tail) [] with
    | .error e => .error e
    | .ok parts =>
      let out := renderNames parts.reverse
      if outLen ≤ out.length then .error .enospc else .ok out

/-! ### Joining -/

def pathJoin1 (base part : Path) (outLen : ℕ) : Except PeakErr Path :=
  let tmp := base.take (vfsPathMax - 1)
  if vfsPathMax ≤ tmp.length + 1 + part.length then .error .enospc
  else
    let tmp := if tmp = [slash] then tmp else tmp ++ [slash]
    vfsNormalize (tmp ++ part) outLen

def pathDirname (path : Path) : Except PeakErr Path :=
  match vfsNormalize path vfsPathMax with
  | .error _ => .error .einval
  | .ok norm =>
    if norm.length ≤ 1 then .ok [slash]
    else
      match lastSlash norm with
      | none | some 0 => .ok [slash]
      | some last => .ok (norm.take last)

/-- Append to a buffer of `VFS_PATH_MAX` bytes, dropping what does not fit. -/
def appendFit (buf more : Path) : Path := buf ++ more.take (vfsPathMax - 1 - buf.length)

/-- The text of a link as a path: relative to the directory the link is in. -/
def linkBase (linkPath target : Path) : Except PeakErr Path :=
  if target.head? = some slash then .ok (appendFit [] target)
  else
    match pathDirname linkPath with
    | .error _ => .error .enospc
    | .ok dir =>
      let dir := appendFit [] dir
      if vfsPathMax ≤ dir.length + 1 then .error .enospc
      else .ok (appendFit (dir ++ [slash]) target)

/-- Append what was behind the link. -/
def withRemainder (combined remainder : Path) : Except PeakErr Path :=
  if remainder = [] then .ok combined
  else if remainder.head? = some slash then .ok (appendFit combined remainder)
  else if vfsPathMax ≤ combined.length + 1 then .error .enospc
  else .ok (appendFit (combined ++ [slash]) remainder)

/-- `expand_symlink_at` on the text of the link, `none` if there is none. -/
def expandSymlinkAt (linkPath : Path) (target : Option Path) (remainder : Path) (outLen : ℕ) :
    Except PeakErr Path :=
  match target with
  | none => .error .einval
  | some target =>
    match linkBase linkPath target with
    | .error e => .error e
    | .ok combined =>
      match withRemainder combined remainder with
      | .error e => .error e
      | .ok combined => vfsNormalize combined outLen

/-! ### Paths within the limits -/

/-- No name in the path is too long. -/
def ShortNames (path : Path) : Prop :=
  ∀ a name b, path = a ++ name ++ b → slash ∉ name → name.length < vfsNameMax

/-- The path fits `VFS_PATH_MAX` and its names fit `VFS_NAME_MAX`. -/
structure PathOk (path : Path) : Prop where
  length : path.length < vfsPathMax
  names : ShortNames path

/-- The last name of the path is not empty. -/
def HasLeaf (path : Path) : Prop := path.getLast? ≠ some slash

variable {p acc l path name n : Path} {i outLen : ℕ} {rest parts out ns names : List Path}

theorem ShortNames.of_infix {q : Path} (h : ShortNames p) (hq : q <:+: p) : ShortNames q := by
  obtain ⟨x, y, rfl⟩ := hq
  intro a name b hab hs
  exact h (x ++ a) name (b ++ y) (by rw [hab]; simp) hs

theorem lastSlash_some (h : lastSlash p = some i) :
    p = p.take i ++ slash :: p.drop (i + 1) ∧ slash ∉ p.drop (i + 1) := by
  induction p generalizing i with
  | nil => cases h
  | cons c cs ih =>
    rw [lastSlash] at h
    cases hcs : lastSlash cs with
    | some j =>
      rw [hcs] at h
      injection h with h
      subst h
      obtain ⟨h1, h2⟩ := ih hcs
      exact ⟨by simpa using h1, by simpa using h2⟩
    | none =>
      rw [hcs] at h
      have hnone : ∀ {l : Path}, lastSlash l = none → slash ∉ l := by
        intro l
        induction l with
        | nil => simp
        | cons d l ih =>
          intro hl
          rw [lastSlash] at hl
          cases hl' : lastSlash l with
          | some k => rw [hl'] at hl; cases hl
          | none =>
            rw [hl'] at hl
            dsimp only at hl
            split at hl
            · cases hl
            next hd =>
              simp only [mem_cons, not_or]
              exact ⟨fun e => hd e.symm, ih hl'⟩
      dsimp only at h
      split at h
      next hc =>
        injection h with h
        subst h
        exact ⟨by simp [hc], by simpa using hnone hcs⟩
      · cases h

theorem splitNames_append_slash (acc l m : Path) :
    splitNames acc (l ++ slash :: m) = splitNames acc l ++ splitNames [] m := by
  induction l generalizing acc with
  | nil => simp [splitNames]
  | cons c cs ih =>
    rw [cons_append, splitNames, splitNames]
    split
    · rw [ih, append_assoc]
    split
    · exact ih _
    · rw [ih]; rfl

theorem splitNames_short (hs : slash ∉ l) (hlen : acc.length + l.length < vfsNameMax)
    (hne : acc ++ l ≠ []) : splitNames acc l = [acc ++ l] := by
  induction l generalizing acc with
  | nil =>
    rw [append_nil] at hne ⊢
    rw [splitNames, if_neg hne]
  | cons c cs ih =>
    have hc : c ≠ slash := fun e => hs (by simp [e])
    simp only [length_cons] at hlen
    rw [splitNames, if_neg hc, if_pos (by omega), ih (fun h => hs (by simp [h]))
      (by simp only [length_append, length_singleton]; omega) (by simp)]
    simp

/-- **The leaf.** The parts of a path are those of its parent and its last name. -/
theorem nameParts_leaf (hi : lastSlash p = some i) (hhead : p.head? = some slash)
    (hleaf : p.drop (i + 1) ≠ []) (hlen : (p.drop (i + 1)).length < vfsNameMax) :
    nameParts p = nameParts (p.take i) ++ [p.drop (i + 1)] := by
  obtain ⟨hp, hs⟩ := lastSlash_some hi
  have hsplit : splitNames [] (p.drop (i + 1)) = [p.drop (i + 1)] :=
    splitNames_short hs (by simpa using hlen) (by simpa using hleaf)
  cases i with
  | zero =>
    cases p with
    | nil => cases hhead
    | cons c cs => simpa [nameParts, splitNames] using hsplit
  | succ k =>
    cases p with
    | nil => cases hhead
    | cons c cs =>
      simp only [take_succ_cons, cons_append, List.cons.injEq, true_and] at hp hsplit ⊢
      conv_lhs => rw [nameParts, tail_cons, hp]
      rw [splitNames_append_slash, hsplit]
      rfl

/-! ### Long names -/

theorem nameParts_mem (h : p ∈ nameParts path) : p ≠ [] ∧ p.length < vfsNameMax := by
  have hsplit : ∀ {l acc : Path}, acc.length < vfsNameMax → p ∈ splitNames acc l →
      p ≠ [] ∧ p.length < vfsNameMax := by
    intro l
    have hemit : ∀ {acc : Path}, acc.length < vfsNameMax → p ∈ (if acc = [] then [] else [acc]) →
        p ≠ [] ∧ p.length < vfsNameMax := by
      intro acc hacc hmem
      split at hmem
      · cases hmem
      next hne =>
        rw [mem_singleton] at hmem
        exact hmem ▸ ⟨hne, hacc⟩
    induction l with
    | nil => exact fun hacc hmem => hemit hacc hmem
    | cons c cs ih =>
      intro acc hacc hmem
      rw [splitNames] at hmem
      split at hmem
      · rcases mem_append.1 hmem with hmem | hmem
        · exact hemit hacc hmem
        · exact ih (by decide) hmem
      split at hmem
      · exact ih (by simpa using ‹_›) hmem
      rcases mem_cons.1 hmem with rfl | hmem
      · refine ⟨?_, hacc⟩
        rintro rfl
        rename_i hlen
        exact hlen (by decide)
      · exact ih (by simp [vfsNameMax]) hmem
  exact hsplit (by decide) h

theorem ShortNames.of_length (h : p.length < vfsNameMax) : ShortNames p := by
  intro a name b hab _
  have := congrArg length hab
  simp only [length_append] at this
  omega

/-- A run of bytes without a slash lies on one side of a slash. -/
theorem ShortNames.append_slash {a b : Path} (ha : ShortNames a) (hb : ShortNames b) :
    ShortNames (a ++ slash :: b) := by
  intro x name y hxy hs
  rcases append_eq_append_iff.1 hxy.symm with ⟨c, hc, -⟩ | ⟨c, hc, hc'⟩
  · exact ha x name c hc hs
  cases c with
  | nil => exact ha x name [] (by simpa using hc.symm) hs
  | cons d c =>
    obtain ⟨rfl, hby⟩ := List.cons.inj hc'
    rcases append_eq_append_iff.1 hc with ⟨e, he, he'⟩ | ⟨e, he, he'⟩
    · exact absurd (by rw [he']; simp) hs
    cases e with
    | nil => exact absurd (by rw [← nil_append name, ← he']; simp) hs
    | cons f e =>
      obtain ⟨-, hce⟩ := List.cons.inj he'
      exact hb e name y (by rw [hby, hce]; rfl) hs

/-- What the names of a path take in the buffer `build` of `vfs_mkdir`, each with a slash. -/
def builtLength (parts : List Path) : ℕ := (parts.map fun p => p.length + 1).sum

theorem builtLength_append (ps qs : List Path) :
    builtLength (ps ++ qs) = builtLength ps + builtLength qs := by simp [builtLength]

theorem splitNames_built (acc : Path) (hs : slash ∉ acc) (h : ShortNames (acc ++ l)) :
    builtLength (splitNames acc l) ≤ acc.length + l.length + 1 := by
  have hemit : ∀ acc : Path, builtLength (if acc = [] then [] else [acc]) ≤ acc.length + 1 := by
    intro acc
    split <;> simp [builtLength]
  induction l generalizing acc with
  | nil => simpa [splitNames] using hemit acc
  | cons c cs ih =>
    rw [splitNames]
    by_cases hc : c = slash
    · subst hc
      rw [if_pos rfl, builtLength_append, length_cons]
      have h1 := hemit acc
      have h2 := ih [] (by simp) (h.of_infix ⟨acc ++ [slash], [], by simp⟩)
      simp only [length_nil] at h2
      omega
    have hs' : slash ∉ acc ++ [c] := by
      simp only [mem_append, mem_singleton, not_or]
      exact ⟨hs, fun e => hc e.symm⟩
    have hlen := h [] (acc ++ [c]) cs (by simp) hs'
    rw [length_append, length_singleton] at hlen
    rw [if_neg hc, if_pos hlen]
    have hih := ih (acc ++ [c]) hs' (by simpa using h)
    simp only [length_append, length_cons, length_nil] at hih ⊢
    omega

/-- Without long names, cutting an absolute path adds no slashes. -/
theorem nameParts_built (h : ShortNames path) (hhead : path.head? = some slash) :
    builtLength (nameParts path) ≤ path.length := by
  cases path with
  | nil => cases hhead
  | cons c cs =>
    have := splitNames_built [] (by simp) (h.of_infix ⟨[c], [], by simp⟩ : ShortNames cs)
    simpa [nameParts, add_comm] using this

/-! ### Normal form -/

theorem slashRuns_mem (hs : slash ∉ acc) (h : name ∈ slashRuns acc l) :
    name ≠ [] ∧ slash ∉ name := by
  have hemit : ∀ {acc : Path}, slash ∉ acc → name ∈ (if acc = [] then [] else [acc]) →
      name ≠ [] ∧ slash ∉ name := by
    intro acc hs hmem
    split at hmem
    · cases hmem
    next hne =>
      rw [mem_singleton] at hmem
      exact hmem ▸ ⟨hne, hs⟩
  induction l generalizing acc with
  | nil => exact hemit hs h
  | cons c cs ih =>
    rw [slashRuns] at h
    split at h
    · rcases mem_append.1 h with h | h
      · exact hemit hs h
      · exact ih (by simp) h
    next hc =>
      refine ih ?_ h
      simp only [mem_append, mem_singleton, not_or]
      exact ⟨hs, fun e => hc e.symm⟩

theorem normalizeLoop_mem (h : normalizeLoop rest parts = .ok out) (hname : name ∈ out) :
    name ∈ parts ∨ name ∈ rest ∧ name.length < vfsNameMax := by
  induction rest generalizing parts with
  | nil =>
    injection h with h
    exact .inl (h ▸ hname)
  | cons part rest ih =>
    rw [normalizeLoop] at h
    split at h
    · injection h with h
      exact .inl (h ▸ hname)
    split at h
    · cases h
    have hstep : ∀ {ps : List Path}, normalizeLoop rest ps = .ok out →
        (∀ n ∈ ps, n = part ∨ n ∈ parts) →
        name ∈ parts ∨ name ∈ part :: rest ∧ name.length < vfsNameMax := by
      intro ps hps hsub
      rcases ih hps with hmem | ⟨hmem, hl⟩
      · rcases hsub name hmem with rfl | hmem
        · exact .inr ⟨mem_cons_self .., by omega⟩
        · exact .inl hmem
      · exact .inr ⟨mem_cons_of_mem _ hmem, hl⟩
    split at h
    · exact hstep h fun n hn => .inr hn
    split at h
    · exact hstep h fun n hn => .inr (mem_of_mem_tail hn)
    · exact hstep h fun n hn => mem_cons.1 hn

theorem shortNames_flatMap (hn : n.length < vfsNameMax)
    (hns : ∀ m ∈ ns, m.length < vfsNameMax) : ShortNames (n ++ ns.flatMap (slash :: ·)) := by
  induction ns generalizing n with
  | nil => simpa using ShortNames.of_length hn
  | cons m ms ih =>
    exact (ShortNames.of_length hn).append_slash
      (ih (hns m (by simp)) fun x hx => hns x (by simp [hx]))

/-- The names that are kept are not dots, and there are at most thirty-two. -/
theorem normalizeLoop_kept (h : normalizeLoop rest parts = .ok out)
    (hlen : parts.length ≤ 32) (hparts : ∀ n ∈ parts, n ≠ [46] ∧ n ≠ [46, 46]) :
    out.length ≤ 32 ∧ ∀ n ∈ out, n ≠ [46] ∧ n ≠ [46, 46] := by
  induction rest generalizing parts with
  | nil =>
    injection h with h
    exact h ▸ ⟨hlen, hparts⟩
  | cons part rest ih =>
    rw [normalizeLoop] at h
    split at h
    · injection h with h
      exact h ▸ ⟨hlen, hparts⟩
    split at h
    · cases h
    split at h
    · exact ih h hlen hparts
    split at h
    · refine ih h ?_ fun n hn => hparts n (mem_of_mem_tail hn)
      rw [length_tail]
      omega
    next hfull _ hdot hdots =>
      refine ih h (by rw [length_cons]; omega) fun n hn => ?_
      rcases mem_cons.1 hn with rfl | hn
      · exact ⟨hdot, hdots⟩
      · exact hparts n hn

theorem normalizeLoop_append (rest : List Path) (hlen : parts.length + names.length ≤ 32)
    (hnames : ∀ n ∈ names, n.length < vfsNameMax ∧ n ≠ [46] ∧ n ≠ [46, 46]) :
    normalizeLoop (names ++ rest) parts = normalizeLoop rest (names.reverse ++ parts) := by
  induction names generalizing parts with
  | nil => rfl
  | cons part names ih =>
    obtain ⟨hshort, hdot, hdots⟩ := hnames part (by simp)
    rw [length_cons] at hlen
    rw [cons_append, normalizeLoop, if_neg (by omega), if_neg (by omega), if_neg hdot,
      if_neg hdots, ih (by rw [length_cons]; omega) fun n hn =>
        hnames n (mem_cons_of_mem _ hn)]
    simp

/-- Without a name `..` the names kept so far stay. -/
theorem normalizeLoop_suffix (h : normalizeLoop rest parts = .ok out)
    (hdots : [46, 46] ∉ rest) : parts <:+ out := by
  induction rest generalizing parts with
  | nil =>
    injection h with h
    exact h ▸ suffix_rfl
  | cons part rest ih =>
    rw [mem_cons, not_or] at hdots
    rw [normalizeLoop] at h
    split_ifs at h with hfull hlong hdot hdotdot
    · injection h with h
      exact h ▸ suffix_rfl
    · exact ih h hdots.2
    · exact absurd hdotdot.symm hdots.1
    · exact (suffix_cons part parts).trans (ih h hdots.2)

theorem slashRuns_run (hs : slash ∉ l) (m : Path) :
    slashRuns acc (l ++ m) = slashRuns (acc ++ l) m := by
  induction l generalizing acc with
  | nil => simp
  | cons c cs ih =>
    have hc : c ≠ slash := fun e => hs (by simp [e])
    rw [cons_append, slashRuns, if_neg hc, ih fun h => hs (by simp [h])]
    simp

theorem slashRuns_render (hn : n ≠ [])
    (hns : ∀ m ∈ ns, m ≠ [] ∧ slash ∉ m) : slashRuns n (ns.flatMap (slash :: ·)) = n :: ns := by
  induction ns generalizing n with
  | nil => simp [slashRuns, hn]
  | cons m ms ih =>
    obtain ⟨hm, hs⟩ := hns m (by simp)
    rw [flatMap_cons, cons_append, slashRuns, if_neg hn, slashRuns_run hs, nil_append,
      ih hm fun x hx => hns x (mem_cons_of_mem _ hx)]
    rfl

theorem slashRuns_append_slash (acc l m : Path) :
    slashRuns acc (l ++ slash :: m) = slashRuns acc l ++ slashRuns [] m := by
  induction l generalizing acc with
  | nil => simp [slashRuns]
  | cons c cs ih =>
    rw [cons_append, slashRuns, slashRuns]
    split
    · rw [ih, append_assoc]
    · exact ih _

/-- The names of a path in normal form. -/
def CleanNames (names : List Path) : Prop :=
  names.length ≤ 32 ∧
    ∀ m ∈ names, (m ≠ [] ∧ slash ∉ m) ∧ m.length < vfsNameMax ∧ m ≠ [46] ∧ m ≠ [46, 46]

theorem vfsNormalize_names {out : Path} (h : vfsNormalize path outLen = .ok out) :
    ∃ parts, normalizeLoop (slashRuns [] path.tail) [] = .ok parts ∧
      out = renderNames parts.reverse ∧ CleanNames parts.reverse ∧
        2 ≤ outLen ∧ out.length < outLen := by
  rw [vfsNormalize] at h
  split_ifs at h with hsmall hhead
  cases hloop : normalizeLoop (slashRuns [] path.tail) [] with
  | error e =>
    rw [hloop] at h
    cases h
  | ok parts =>
    rw [hloop] at h
    dsimp only at h
    split_ifs at h with hlen
    injection h with h
    subst h
    obtain ⟨hcount, hdots⟩ := normalizeLoop_kept hloop (by simp) (by simp)
    refine ⟨parts, rfl, rfl, ⟨by simpa using hcount, fun m hm => ?_⟩, by omega, by omega⟩
    rw [mem_reverse] at hm
    rcases normalizeLoop_mem hloop hm with hnil | ⟨hrun, hshort⟩
    · cases hnil
    · exact ⟨slashRuns_mem (by simp) hrun, hshort, hdots m hm⟩

theorem slashRuns_renderNames (h : CleanNames names) :
    slashRuns [] (renderNames names).tail = names := by
  cases names with
  | nil => rfl
  | cons n ns =>
    obtain ⟨⟨hn, hs⟩, -⟩ := h.2 n (by simp)
    rw [renderNames, if_neg (by simp), flatMap_cons, cons_append, tail_cons, slashRuns_run hs]
    exact slashRuns_render hn fun m hm => (h.2 m (mem_cons_of_mem _ hm)).1

/-- Both ways of cutting a path agree on a normal form. -/
theorem nameParts_renderNames (h : CleanNames names) : nameParts (renderNames names) = names := by
  have hsplit : ∀ ns : List Path, (∀ m ∈ ns, (m ≠ [] ∧ slash ∉ m) ∧ m.length < vfsNameMax) →
      ∀ n, n ≠ [] ∧ slash ∉ n → n.length < vfsNameMax →
      splitNames [] (n ++ ns.flatMap (slash :: ·)) = n :: ns := by
    intro ns hns
    induction ns with
    | nil =>
      intro n hn hlen
      rw [flatMap_nil, append_nil]
      exact splitNames_short hn.2 (by simpa using hlen) (by simpa using hn.1)
    | cons m ms ih =>
      intro n hn hlen
      obtain ⟨hm, hmlen⟩ := hns m (by simp)
      rw [flatMap_cons, cons_append, splitNames_append_slash,
        splitNames_short hn.2 (by simpa using hlen) (by simpa using hn.1),
        ih (fun x hx => hns x (mem_cons_of_mem _ hx)) m hm hmlen]
      rfl
  cases names with
  | nil => rfl
  | cons n ns =>
    obtain ⟨hn, hlen, -⟩ := h.2 n (by simp)
    exact hsplit ns (fun m hm => ⟨(h.2 m (mem_cons_of_mem _ hm)).1,
      (h.2 m (mem_cons_of_mem _ hm)).2.1⟩) n hn hlen

theorem head_renderNames (names : List Path) : (renderNames names).head? = some slash := by
  cases names with
  | nil => rfl
  | cons n ns => simp [renderNames]

/-- **Normal form.** A normalised path is absolute, within the limits, and has a last name unless it
is the root. -/
theorem vfsNormalize_spec {out : Path} (h : vfsNormalize path vfsPathMax = .ok out) :
    PathOk out ∧ out.head? = some slash ∧ (out = [slash] ∨ HasLeaf out) := by
  obtain ⟨parts, -, rfl, ⟨-, hmem⟩, -, hlen⟩ := vfsNormalize_names h
  refine ⟨⟨hlen, ?_⟩, head_renderNames _, ?_⟩ <;>
    generalize parts.reverse = names at hmem <;> rw [renderNames] <;> by_cases hne : names = []
  · rw [if_pos hne]
    exact ShortNames.of_length (by decide)
  · rw [if_neg hne]
    simpa using shortNames_flatMap (n := []) (by decide) fun m hm => (hmem m hm).2.1
  · exact .inl (if_pos hne)
  · rw [if_neg hne]
    refine .inr ?_
    -- the last byte is that of the last name
    obtain ⟨ns, n, rfl⟩ := (eq_nil_or_concat' names).resolve_left hne
    obtain ⟨⟨h1, h2⟩, -⟩ := hmem n (by simp)
    obtain ⟨m, c, rfl⟩ := (eq_nil_or_concat' n).resolve_left h1
    simp only [HasLeaf, flatMap_append, flatMap_singleton]
    rw [← cons_append, ← append_assoc, getLast?_concat]
    intro e
    injection e with e
    exact h2 (by simp [e])

theorem vfsNormalize_renderNames (h : CleanNames names)
    (hsmall : 2 ≤ outLen) (hfits : (renderNames names).length < outLen) :
    vfsNormalize (renderNames names) outLen = .ok (renderNames names) := by
  have hloop : normalizeLoop (names ++ []) [] = _ :=
    normalizeLoop_append [] (by simpa using h.1) fun m hm => (h.2 m hm).2
  rw [append_nil, append_nil] at hloop
  rw [vfsNormalize, if_neg (by omega), if_neg (by simp [head_renderNames]),
    slashRuns_renderNames h, hloop]
  simp only [normalizeLoop, reverse_reverse]
  rw [if_neg (by omega)]

/-- **A path in normal form** is its own normal form. -/
theorem vfsNormalize_idem {out : Path} (h : vfsNormalize path outLen = .ok out) :
    vfsNormalize out outLen = .ok out := by
  obtain ⟨parts, -, rfl, hclean, hsmall, hfits⟩ := vfsNormalize_names h
  exact vfsNormalize_renderNames hclean hsmall hfits

/-- **The paths `vfs_normalize` puts out** are those that `vfs_lookup` cuts into clean names with
nothing left over. -/
theorem normal_forms {out : Path} : (∃ path, vfsNormalize path outLen = .ok out) ↔
    CleanNames (nameParts out) ∧ renderNames (nameParts out) = out ∧ 2 ≤ outLen ∧
      out.length < outLen := by
  constructor
  · rintro ⟨path, h⟩
    obtain ⟨parts, -, rfl, hclean, hsmall, hfits⟩ := vfsNormalize_names h
    rw [nameParts_renderNames hclean]
    exact ⟨hclean, rfl, hsmall, hfits⟩
  · rintro ⟨hclean, hout, hsmall, hfits⟩
    have hnorm := vfsNormalize_renderNames hclean hsmall (by rwa [hout])
    exact ⟨_, hnorm.trans (by rw [hout])⟩

/-- The leaf of a path within the limits. -/
theorem PathOk.leaf (h : PathOk path) (hleaf : HasLeaf path) (hi : lastSlash path = some i) :
    path.drop (i + 1) ≠ [] ∧ (path.drop (i + 1)).length < vfsNameMax := by
  obtain ⟨hp, hs⟩ := lastSlash_some hi
  refine ⟨fun hnil => hleaf ?_, h.names (path.take i ++ [slash]) _ [] (by simpa using hp) hs⟩
  rw [hnil] at hp
  rw [hp, getLast?_concat]

end PeakOs.Vfs
