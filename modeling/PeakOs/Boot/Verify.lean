import PeakOs.Boot.Conf

/-!
# The digest of the kernel

`boot/common/verify_kernel.c`: the digest a kernel image must have is taken from the configuration,
or else from a manifest in the format of `sha256sum`. The hash function is a parameter.

A configuration never supplies one. The value of a line is cut to 63 characters before its length
is compared with 64, so that `kernel_sha256` has no effect at all, and the manifest decides.

## Main results

* `peakConfParse_kernelSha256` — no text sets the digest
* `pin_enforced_iff` — what a pinned digest amounts to
* `pin_ignored` — a kernel with another digest is accepted
-/

namespace PeakOs.Boot

open List

abbrev Digest := List UInt8

def hexNibble (c : Char) : Option UInt8 :=
  if '0' ≤ c ∧ c ≤ '9' then some (UInt8.ofNat (c.toNat - '0'.toNat))
  else if 'a' ≤ c ∧ c ≤ 'f' then some (UInt8.ofNat (c.toNat - 'a'.toNat + 10))
  else if 'A' ≤ c ∧ c ≤ 'F' then some (UInt8.ofNat (c.toNat - 'A'.toNat + 10))
  else none

/-- `n` bytes from pairs of digits, and what is behind them. -/
def hexBytes : ℕ → Text → Option (Digest × Text)
  | 0, hex => some ([], hex)
  | n + 1, a :: b :: hex =>
    match hexNibble a, hexNibble b with
    | some hi, some lo =>
      (hexBytes n hex).map fun (bytes, rest) => (((hi <<< 4) ||| lo) :: bytes, rest)
    | _, _ => none
  | _ + 1, _ => none

/-- A digest, with the end of the string or a space behind it. -/
def parseHex32 (hex : Text) : Option Digest :=
  match hexBytes digestLen hex with
  | some (bytes, rest) =>
    if rest.head?.all (fun c => c = nul || isSpace c) then some bytes else none
  | none => none

/-! ### The manifest -/

def pathSuffixEq (path want : Text) : Bool :=
  want.length ≤ path.length &&
    strncaseEq want.length (path.drop (path.length - want.length)) want

def nameKernel : Text := ['k', 'e', 'r', 'n', 'e', 'l', '.', 'e', 'l', 'f']
def nameKernelUpper : Text := ['K', 'E', 'R', 'N', 'E', 'L', '.', 'E', 'L', 'F']

/-- The names under which a manifest may list the kernel. -/
def kernelPaths : List Text :=
  [['x', '8', '6', '_', '6', '4', '/'] ++ nameKernel, nameKernel, nameKernelUpper,
    ['b', 'o', 'o', 't', '/'] ++ nameKernel, ['B', 'O', 'O', 'T', '/'] ++ nameKernelUpper,
    ['E', 'F', 'I', '/', 'P', 'E', 'A', 'K', '/'] ++ nameKernelUpper]

def isBlank (c : Char) : Bool := c = ' ' || c = '\t'

/-- The path of a manifest line, as far as the buffer of 64 bytes takes it. -/
def linePath (line : Text) : Text :=
  (cString ((line.drop (digestLen * 2)).dropWhile isBlank)).take (64 - 1)

/-- The digest of a manifest line, if it is about the kernel. -/
def lineDigest (line : Text) : Option Digest :=
  if line.length < digestLen * 2 + 3 then none
  else if kernelPaths.any (pathSuffixEq (linePath line)) then
    parseHex32 (line.take (digestLen * 2))
  else none

def manifestLookup (manifest : Text) : Option Digest := (lineRuns [] manifest).findSome? lineDigest

/-! ### Verification -/

variable (sha256 : List UInt8 → Digest)

/-- Whether `boot_verify_kernel` returns 0; an image without bytes stands for a missing one. -/
def bootVerifyKernel (conf : LoaderConf) (img : List UInt8) (manifest : Text) : Bool :=
  if img = [] then !conf.verifyRequired
  else if conf.kernelSha256 ≠ [] then
    match parseHex32 conf.kernelSha256 with
    | none => false
    | some expect => sha256 img = expect
  else
    match manifestLookup manifest with
    | some expect => sha256 img = expect
    | none => !conf.verifyRequired

/-! ### The pinned digest -/

theorem length_valueBuffer (value : Text) : (valueBuffer value).length < digestLen * 2 :=
  calc (valueBuffer value).length
      ≤ (value.take (valueSize - 1)).length := (takeWhile_sublist _).length_le
    _ ≤ valueSize - 1 := length_take_le _ _
    _ < digestLen * 2 := by decide

/-- No key changes the digest: the only one that would is given a value that is too short. -/
theorem applyKey_kernelSha256 (key : Text) {value : Text} (h : value.length < digestLen * 2)
    (out : LoaderConf) : (applyKey key value out).kernelSha256 = out.kernelSha256 := by
  have hlast : ¬ value.length = digestLen * 2 := h.ne
  simp only [applyKey, if_neg hlast, apply_ite LoaderConf.kernelSha256, ite_self]
  split
  · split <;> rfl
  · rfl

theorem parseLine_kernelSha256 (out : LoaderConf) (line : Text) :
    (parseLine out line).kernelSha256 = out.kernelSha256 := by
  rw [parseLine]
  split_ifs
  · rfl
  · exact applyKey_kernelSha256 _ (length_valueBuffer _) out
  · rfl

/-- **No text sets the digest.** -/
theorem peakConfParse_kernelSha256 (text : Text) : (peakConfParse text).kernelSha256 = [] := by
  have hfold : ∀ (lines : List Text) (out : LoaderConf),
      (lines.foldl parseLine out).kernelSha256 = out.kernelSha256 := by
    intro lines
    induction lines with
    | nil => intro out; rfl
    | cons line lines ih =>
      intro out
      rw [foldl_cons, ih, parseLine_kernelSha256]
  exact hfold _ _

/-- A line of the text pins the digest, and no later line does. -/
def Pins (text : Text) (pin : Digest) : Prop :=
  ∃ before hex after, lineRuns [] text = before ++ (keyKernelSha256 ++ '=' :: hex) :: after ∧
    hex.length = digestLen * 2 ∧ parseHex32 hex = some pin ∧
    ∀ line ∈ after, ¬ (keyKernelSha256 ++ ['=']) <+: line

/-- Whatever the configuration, the manifest and `verify_required` decide. -/
theorem bootVerifyKernel_parse (text : Text) (img : List UInt8) (manifest : Text) :
    bootVerifyKernel sha256 (peakConfParse text) img manifest = true ↔
      if img = [] then (peakConfParse text).verifyRequired = false
      else match manifestLookup manifest with
        | some expect => sha256 img = expect
        | none => (peakConfParse text).verifyRequired = false := by
  rw [bootVerifyKernel, peakConfParse_kernelSha256]
  by_cases himg : img = []
  · rw [if_pos himg, if_pos himg, Bool.not_eq_true']
  rw [if_neg himg, if_neg himg]
  rcases manifestLookup manifest with _ | expect
  · exact iff_of_eq (Bool.not_eq_true' _)
  · exact decide_eq_true_iff

/-- **A pinned digest** is enforced exactly if the image has it anyway, or is refused for another
reason: the manifest lists a different digest, or none although one is required. -/
theorem pin_enforced_iff (text : Text) (pin : Digest) (_h : Pins text pin) (img : List UInt8)
    (manifest : Text) :
    (bootVerifyKernel sha256 (peakConfParse text) img manifest = true → sha256 img = pin) ↔
      sha256 img = pin ∨
        if img = [] then (peakConfParse text).verifyRequired = true
        else match manifestLookup manifest with
          | some expect => sha256 img ≠ expect
          | none => (peakConfParse text).verifyRequired = true := by
  rw [bootVerifyKernel_parse, imp_iff_or_not]
  refine or_congr_right ?_
  by_cases himg : img = []
  · rw [if_pos himg, if_pos himg, Bool.not_eq_false]
  rw [if_neg himg, if_neg himg]
  rcases manifestLookup manifest with _ | expect
  · exact iff_of_eq (Bool.not_eq_false _)
  · exact Iff.rfl

/-- A text of one line, which pins the digest written with one digit. -/
def pinText (c : Char) : Text := keyKernelSha256 ++ '=' :: List.replicate 64 c

theorem pins_zero : Pins (pinText '0') (replicate 32 0) :=
  ⟨[], replicate 64 '0', [], by decide, by decide, by decide, nofun⟩

theorem pins_one : Pins (pinText '1') (replicate 32 17) :=
  ⟨[], replicate 64 '1', [], by decide, by decide, by decide, nofun⟩

/-- With `verify_required` and no manifest, an image without the pinned digest is refused. -/
theorem pin_enforced_required :
    Pins (keyVerifyRequired ++ ['=', '1', '\n'] ++ pinText '0') (List.replicate 32 0) ∧
      (bootVerifyKernel id
        (peakConfParse (keyVerifyRequired ++ ['=', '1', '\n'] ++ pinText '0')) [1] [] = true →
        [1] = List.replicate 32 (0 : UInt8)) := by
  have hpins : Pins (keyVerifyRequired ++ ['=', '1', '\n'] ++ pinText '0') (replicate 32 0) :=
    ⟨[keyVerifyRequired ++ ['=', '1']], replicate 64 '0', [], by decide, by decide, by decide,
      nofun⟩
  refine ⟨hpins, (pin_enforced_iff id _ _ hpins [1] []).2 (.inr ?_)⟩
  show (peakConfParse (keyVerifyRequired ++ ['=', '1', '\n'] ++ pinText '0')).verifyRequired = true
  decide

/-- **A pinned digest is ignored**: without a manifest every image is accepted, and no hash function
changes that. -/
theorem pin_ignored : ¬ ∃ sha256 : List UInt8 → Digest,
    ∀ (text : Text) (pin : Digest), Pins text pin → ∀ (img : List UInt8) (manifest : Text),
      bootVerifyKernel sha256 (peakConfParse text) img manifest = true → sha256 img = pin := by
  rintro ⟨sha256, h⟩
  have hone : ∀ c, (peakConfParse (pinText c)).verifyRequired = false →
      bootVerifyKernel sha256 (peakConfParse (pinText c)) [1] [] = true := by
    intro c hc
    exact (bootVerifyKernel_parse sha256 _ [1] []).2 hc
  have hzero := h _ _ pins_zero [1] [] (hone '0' (by decide))
  have hother := h _ _ pins_one [1] [] (hone '1' (by decide))
  exact absurd (hzero.symm.trans hother) (by decide)

end PeakOs.Boot
