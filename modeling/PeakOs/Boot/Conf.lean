import Mathlib.Data.List.DropRight

/-!
# The configuration of the boot loader

`boot/common/peak_conf.c`. A text is cut into lines, each line into a key and a value, which are
copied into buffers of 48 and 64 bytes on the way. A C string is the list of its characters without
the terminating zero; a text may contain zeros, and then a buffer filled from it holds a shorter
string than was copied.
-/

namespace PeakOs.Boot

abbrev Text := List Char

def nul : Char := Char.ofNat 0

/-- The string in a buffer that holds these characters and a zero behind them. -/
def cString (buffer : Text) : Text := buffer.takeWhile (· ≠ nul)

def isSpace (c : Char) : Bool := c = ' ' || c = '\t' || c = '\r' || c = '\n'

def isLineBreak (c : Char) : Bool := c = '\n' || c = '\r'

/-- The runs of characters between line breaks, with `acc` the part of the current run that is
already read. -/
def lineRuns : Text → Text → List Text
  | acc, [] => if acc = [] then [] else [acc]
  | acc, c :: cs =>
    if isLineBreak c then (if acc = [] then [] else [acc]) ++ lineRuns [] cs
    else lineRuns (acc ++ [c]) cs

/-- A line without the spaces at both ends. -/
def trim (line : Text) : Text := (line.dropWhile isSpace).rdropWhile isSpace

def lower (c : Char) : Char := if 'A' ≤ c ∧ c ≤ 'Z' then Char.ofNat (c.toNat + 32) else c

/-- Whether `boot_strncasecmp` finds no difference in the first `n` characters. -/
def strncaseEq : ℕ → Text → Text → Bool
  | 0, _, _ => true
  | _ + 1, [], [] => true
  | n + 1, a :: as, b :: bs => lower a = lower b && strncaseEq n as bs
  | _ + 1, _, _ => false

def keyEq (key name : Text) : Bool := key.length = name.length && strncaseEq name.length key name

/-! ### Numbers -/

def isDigit (c : Char) : Bool := '0' ≤ c && c ≤ '9'

def digitValue (c : Char) : UInt32 := UInt32.ofNat (c.toNat - '0'.toNat)

/-- The digits at the start of a string; eleven of them are too many. -/
def parseU32 (s : Text) : Option UInt32 :=
  let digits := s.takeWhile isDigit
  if digits = [] ∨ 10 < digits.length then none
  else some (digits.foldl (fun v c => v * 10 + digitValue c) 0)

/-- One number of an address, with `v` the value of the digits already read. -/
def parseOctet (v : UInt32) : Text → Option (UInt32 × Text)
  | [] => some (v, [])
  | c :: cs =>
    if isDigit c then
      let v := v * 10 + digitValue c
      if 255 < v then none else parseOctet v cs
    else some (v, c :: cs)

/-- `n` more numbers of an address, with dots between them. -/
def parseOctets : ℕ → Text → Option (List UInt32 × Text)
  | 0, s => some ([], s)
  | n + 1, s =>
    if (s.takeWhile isDigit) = [] then none
    else
      match parseOctet 0 s with
      | none => none
      | some (v, s) =>
        if n = 0 then some ([v], s)
        else if s.head? ≠ some '.' then none
        else (parseOctets n s.tail).map fun (vs, s) => (v :: vs, s)

def parseIpv4 (s : Text) : Option UInt32 :=
  match parseOctets 4 s with
  | some ([a, b, c, d], rest) =>
    if rest.head?.all isSpace then some ((a <<< 24) ||| (b <<< 16) ||| (c <<< 8) ||| d) else none
  | _ => none

/-! ### The configuration -/

inductive NetMode
  | dhcpFallback
  | static
  | dhcpOnly
  deriving DecidableEq, Repr

structure NetConfig where
  mode : NetMode
  ip : UInt32
  mask : UInt32
  gw : UInt32
  dns : UInt32
  dhcpTimeoutTicks : UInt32
  deriving DecidableEq, Repr

structure LoaderConf where
  width : UInt16
  height : UInt16
  bpp : UInt16
  smokePersist : Bool
  verifyRequired : Bool
  verifySig : Bool
  kernelSha256 : Text
  net : NetConfig
  deriving DecidableEq, Repr

def peakConfDefaults : LoaderConf where
  width := 1920
  height := 1080
  bpp := 32
  smokePersist := false
  verifyRequired := false
  verifySig := false
  kernelSha256 := []
  net :=
    { mode := .dhcpFallback
      ip := 0x0A00020F
      mask := 0xFFFFFF00
      gw := 0x0A000202
      dns := 0x0A000203
      dhcpTimeoutTicks := 300 }

def digestLen : ℕ := 32
def keySize : ℕ := 48
def valueSize : ℕ := 64

/-- Whether a flag is switched on; a zero leaves it as it is. -/
def parseFlag (value : Text) (old : Bool) : Bool :=
  match parseU32 value with
  | some v => v ≠ 0 || old
  | none => old

/-- The width and the height, if both are read and neither is out of range. -/
def parseResolution (value : Text) : Option (UInt32 × UInt32) := do
  let w ← parseU32 value
  let h ← parseU32 (← (value.dropWhile fun c => !(c = 'x' || c = 'X')).tail?)
  if 0 < w ∧ 0 < h ∧ w ≤ 7680 ∧ h ≤ 4320 then some (w, h) else none

def parseNetMode (value : Text) : NetMode :=
  if strncaseEq 6 value ['s', 't', 'a', 't', 'i', 'c'] then .static
  else if strncaseEq 9 value ['d', 'h', 'c', 'p', '_', 'o', 'n', 'l', 'y'] then .dhcpOnly
  else .dhcpFallback

def parseTimeout (value : Text) (old : UInt32) : UInt32 :=
  match parseU32 value with
  | some t => if 0 < t ∧ t < 100000 then t else old
  | none => old

def keyResolution : Text := ['r', 'e', 's', 'o', 'l', 'u', 't', 'i', 'o', 'n']
def keyBpp : Text := ['b', 'p', 'p']
def keyNetMode : Text := ['n', 'e', 't', '_', 'm', 'o', 'd', 'e']
def keyNetIp : Text := ['n', 'e', 't', '_', 'i', 'p']
def keyNetMask : Text := ['n', 'e', 't', '_', 'm', 'a', 's', 'k']
def keyNetGw : Text := ['n', 'e', 't', '_', 'g', 'w']
def keyNetDns : Text := ['n', 'e', 't', '_', 'd', 'n', 's']
def keyDhcpTimeout : Text :=
  ['d', 'h', 'c', 'p', '_', 't', 'i', 'm', 'e', 'o', 'u', 't', '_', 't', 'i', 'c', 'k', 's']
def keySmokePersist : Text := ['s', 'm', 'o', 'k', 'e', '_', 'p', 'e', 'r', 's', 'i', 's', 't']
def keyVerifyRequired : Text :=
  ['v', 'e', 'r', 'i', 'f', 'y', '_', 'r', 'e', 'q', 'u', 'i', 'r', 'e', 'd']
def keyVerifySig : Text := ['v', 'e', 'r', 'i', 'f', 'y', '_', 's', 'i', 'g']
def keyKernelSha256 : Text := ['k', 'e', 'r', 'n', 'e', 'l', '_', 's', 'h', 'a', '2', '5', '6']

/-- What one key does with its value; other keys are ignored. -/
def applyKey (key value : Text) (out : LoaderConf) : LoaderConf :=
  if keyEq key keyResolution then
    match parseResolution value with
    | some (w, h) => { out with width := w.toUInt16, height := h.toUInt16 }
    | none => out
  else if keyEq key keyBpp then
    if parseU32 value = some 32 then { out with bpp := 32 } else out
  else if keyEq key keyNetMode then { out with net.mode := parseNetMode value }
  else if keyEq key keyNetIp then { out with net.ip := (parseIpv4 value).getD out.net.ip }
  else if keyEq key keyNetMask then { out with net.mask := (parseIpv4 value).getD out.net.mask }
  else if keyEq key keyNetGw then { out with net.gw := (parseIpv4 value).getD out.net.gw }
  else if keyEq key keyNetDns then { out with net.dns := (parseIpv4 value).getD out.net.dns }
  else if keyEq key keyDhcpTimeout then
    { out with net.dhcpTimeoutTicks := parseTimeout value out.net.dhcpTimeoutTicks }
  else if keyEq key keySmokePersist then
    { out with smokePersist := parseFlag value out.smokePersist }
  else if keyEq key keyVerifyRequired then
    { out with verifyRequired := parseFlag value out.verifyRequired }
  else if keyEq key keyVerifySig then { out with verifySig := parseFlag value out.verifySig }
  else if keyEq key keyKernelSha256 then
    if value.length = digestLen * 2 then { out with kernelSha256 := value } else out
  else out

/-- The string that `end - val` characters leave in the value buffer. -/
def valueBuffer (value : Text) : Text := cString (value.take (valueSize - 1))

def parseLine (out : LoaderConf) (line : Text) : LoaderConf :=
  let line := trim line
  if line = [] ∨ line.head? = some '#' then out
  else if '=' ∉ line then out
  else
    let key := (line.takeWhile (· ≠ '=')).rdropWhile isSpace
    let value := ((line.dropWhile (· ≠ '=')).tail).dropWhile isSpace
    applyKey (key.take (keySize - 1)) (valueBuffer value) out

def peakConfParse (text : Text) : LoaderConf := (lineRuns [] text).foldl parseLine peakConfDefaults

end PeakOs.Boot
