import PeakOs.Crypto.Hash
import PeakOs.Lib.Lines
import PeakOs.Lib.Transition

/-!
# Trust on first use

`net/tls_trust.c` remembers the digests of accepted certificates in a text file, one line
`host:digest` each. A certificate with another digest than the first line of its host is refused; a
host without a line is unknown, and with the setting for it is trusted at once.

Hosts are compared byte by byte, and a line for which there is no room is not written. So a host is
protected as long as it is spelled as it was accepted, and its line was written. What the checks of
the certificate path (`webpki_verify_chain`) and of the host name (`verify_cert_hostname`) say is a
parameter.

## Main results

* `keeps_verify`, `keeps_accept`, `keeps_forget` — the first line of an accepted host stays
* `tofu_protects` — another certificate is refused until it is accepted
* `tofu_letter_case` — not so for the host in other letters
-/

namespace PeakOs.Tofu

open Crypto List Option

def newline : UInt8 := 10
def colon : UInt8 := 58
def tofuMax : ℕ := 8192

/-! ### The store -/

/-- The digits of `tls_hex_encode`. -/
def hexDigit (n : ℕ) : UInt8 := .ofNat (if n < 10 then 48 + n else 87 + n)

def hexEncode (digest : Bytes) : Bytes :=
  digest.flatMap fun b => [hexDigit (b.toNat / 16), hexDigit (b.toNat % 16)]

/-- The line is one of the host: the host, a colon, and something else. -/
def hits (host line : Bytes) : Bool :=
  host.length + 1 < line.length && (host ++ [colon]).isPrefixOf line

/-- `tls_tofu_check_store`: whether the digest is the one of the host, none for an unknown host. -/
def tofuCheckStore (store host hex : Bytes) : Option Bool :=
  if host = [] then none
  else
    ((linesOf newline store).find? (hits host)).map fun line =>
      let rest := line.drop (host.length + 1)
      rest.length = 64 && rest.take 64 = hex.take 64

/-- What `vfs_read_file` reads into `tofu_buf`. -/
def readStore (store : Bytes) : Bytes := store.take (tofuMax - 1)

def tofuCheck (store host hex : Bytes) : Option Bool := tofuCheckStore (readStore store) host hex

/-- `tofu_remember`; `written` says whether `vfs_write_file` succeeds. -/
def tofuRemember (written : Bool) (host hex store : Bytes) : Bytes :=
  let old := readStore store
  if host = [] ∨ tofuMax < old.length + (host.length + 1 + 64 + 1) + 1 ∨ written = false then store
  else old ++ host ++ [colon] ++ hex ++ [newline]

def drops (host line : Bytes) : Bool :=
  host.length < line.length && (host ++ [colon]).isPrefixOf line

def keepLine (host out line : Bytes) : Bytes :=
  if !drops host line && out.length + line.length + 1 < tofuMax then out ++ line ++ [newline]
  else out

def tofuForgetHost (written : Bool) (host store : Bytes) : Bytes :=
  if host = [] ∨ store = [] ∨ written = false then store
  else (linesOf newline (readStore store)).foldl (keepLine host) []

/-! ### Verification and the user's decisions -/

structure State where
  store : Bytes
  pins : List Bytes
  lastFailDigest : Bytes
  lastFailHost : Bytes
  lastFailOk : Bool
  /-- Not of the source: the host that `lastFailHost` is cut from. -/
  lastHost : Bytes

/-- The answers of `verify_cert_hostname`. -/
inductive HostCheck
  | matched
  | mismatch
  | noNames
  | malformed
  deriving DecidableEq

def HostCheck.passes (c : HostCheck) : Bool := c = .matched || c = .noNames

/-- The other checks of a certificate message for a host. -/
structure Checks where
  webpki : Bytes → Bytes → Bool
  hostname : Bytes → Bytes → HostCheck

def stashFailDigest (host digest : Bytes) (s : State) : State :=
  if host = [] then s
  else
    { s with
      lastFailDigest := digest
      lastFailHost := host.take 127
      lastFailOk := true
      lastHost := host }

/-- `tls_verify_cert_chain`; `tofuOn` is the setting. -/
def verifyCertChain (C : Checks) (tofuOn written : Bool) (msg host : Bytes) (s : State) :
    Bool × State :=
  let digest := sha256 msg
  let hn := C.hostname msg host
  if msg.length < 10 ∨ msg.head? ≠ some 11 then (false, s)
  else if digest ∈ s.pins then (hn.passes, s)
  else if C.webpki msg host then (true, s)
  else
    match tofuCheck s.store host (hexEncode digest) with
    | some true => (hn.passes, s)
    | some false => (false, stashFailDigest host digest s)
    | none =>
      if tofuOn then
        let s := { s with store := tofuRemember written host (hexEncode digest) s.store }
        (hn.passes, if hn = .mismatch then stashFailDigest host digest s else s)
      else (false, stashFailDigest host digest s)

/-- `tls_trust_accept_last`, where it returns 0. -/
def acceptLast (written₁ written₂ : Bool) (s : State) : Option State :=
  if s.lastFailOk = false ∨ s.lastFailHost = [] then none
  else
    let store := tofuForgetHost written₁ s.lastFailHost s.store
    some { s with store := tofuRemember written₂ s.lastFailHost (hexEncode s.lastFailDigest) store }

/-- `tls_trust_forget_host`; an empty host stands for the last one that failed. -/
def forgetHost (written : Bool) (host : Bytes) (s : State) : Option State :=
  let host := if host = [] then s.lastFailHost else host
  if host = [] then none
  else
    some { s with
      store := tofuForgetHost written host s.store
      lastFailOk := s.lastFailOk && host ≠ s.lastFailHost }

/-! ### Runs, with what the user decided -/

def lower (host : Bytes) : Bytes := host.map fun c => if 65 ≤ c ∧ c ≤ 90 then c + 32 else c

/-- The state, and the digest the user accepted for each host, in lower case. -/
structure Run where
  state : State
  accepted : Bytes → Option Bytes

inductive Call
  | verify (tofuOn written : Bool) (msg host : Bytes)
  | accept (written₁ written₂ : Bool)
  | forget (written : Bool) (host : Bytes)

def Run.step (C : Checks) (r : Run) : Call → Run
  | .verify tofuOn written msg host =>
    { r with state := (verifyCertChain C tofuOn written msg host r.state).2 }
  | .accept w₁ w₂ =>
    match acceptLast w₁ w₂ r.state with
    | none => r
    | some s =>
      ⟨s, Function.update r.accepted (lower s.lastHost) (some s.lastFailDigest)⟩
  | .forget written host =>
    match forgetHost written host r.state with
    | none => r
    | some s =>
      ⟨s, Function.update r.accepted (lower (if host = [] then s.lastHost else host)) none⟩

/-- Nothing was remembered, accepted or refused yet. -/
def Run.Start (r : Run) : Prop :=
  (∃ pins digest, r.state = ⟨[], pins, digest, [], false, []⟩) ∧ r.accepted = fun _ => none

/-- A certificate that was not accepted for the host, and is not valid otherwise, is refused. -/
def Protected (C : Checks) (r : Run) (host : Bytes) : Prop :=
  ∀ tofuOn written msg digest, r.accepted (lower host) = some digest → sha256 msg ≠ digest →
    C.webpki msg host = false → (verifyCertChain C tofuOn written msg host r.state).1 = false

/-- A host name that a line can hold and that has no capital letter. -/
structure Plain (host : Bytes) : Prop where
  nonempty : host ≠ []
  colon : colon ∉ host
  newline : newline ∉ host
  lower : lower host = host

/-- An acceptance is for such a host of less than 128 bytes, its line finds room when the old lines
of the host are dropped, and it is written. The last host is forgotten only if it was not cut. -/
def Call.Safe (r : Run) : Call → Prop
  | .accept w₁ w₂ => r.state.lastFailOk = true →
      Plain r.state.lastHost ∧ r.state.lastHost.length < 128 ∧ w₁ = true ∧ w₂ = true ∧
        (tofuForgetHost true r.state.lastHost r.state.store).length + r.state.lastHost.length + 67 ≤
          tofuMax
  | .forget _ host => host = [] → r.state.lastHost.length < 128
  | .verify .. => True

/-! ### Digests -/

theorem hexDigit_injective : ∀ m < 16, ∀ n < 16, hexDigit m = hexDigit n → m = n := by decide

variable {a host digest store : Bytes}

theorem hexEncode_injective {b : Bytes} (h : hexEncode a = hexEncode b) : a = b := by
  induction a generalizing b with
  | nil => cases b <;> simp_all [hexEncode]
  | cons x a ih =>
    cases b with
    | nil => simp [hexEncode] at h
    | cons y b =>
      simp only [hexEncode, flatMap_cons, cons_append, List.cons.injEq] at h
      have hx := x.toNat_lt
      have hy := y.toNat_lt
      have hhi := hexDigit_injective _ (by omega) _ (by omega) h.1
      have hlo := hexDigit_injective _ (by omega) _ (by omega) h.2.1
      rw [ih h.2.2, UInt8.toNat_inj.1 (show x.toNat = y.toNat by omega)]

theorem length_hexEncode (a : Bytes) : (hexEncode a).length = 2 * a.length := by
  simp [hexEncode, mul_comm]

theorem notMem_hexEncode {c : UInt8} (hc : ∀ n < 16, hexDigit n ≠ c) (a : Bytes) :
    c ∉ hexEncode a := by
  intro h
  obtain ⟨b, -, hb⟩ := mem_flatMap.1 h
  have := b.toNat_lt
  simp only [mem_cons, not_mem_nil, or_false] at hb
  rcases hb with hb | hb <;> exact hc _ (by omega) hb.symm

/-! ### The lines of the store -/

def lineOf (host digest : Bytes) : Bytes := host ++ colon :: hexEncode digest

/-- A line without other colons belongs to one host. -/
theorem eq_of_isPrefixOf (hhost : colon ∉ host)
    (h : (a ++ [colon]).isPrefixOf (lineOf host digest) = true) : a = host := by
  obtain ⟨t, ht⟩ := isPrefixOf_iff_prefix.1 h
  rw [append_assoc] at ht
  rcases append_eq_append_iff.1 ht with ⟨u, rfl, hu⟩ | ⟨u, rfl, hu⟩
  · cases u with
    | nil => simp
    | cons c u =>
      obtain ⟨rfl, -⟩ := List.cons.inj hu
      simp at hhost
  cases u with
  | nil => simp
  | cons c u =>
    have hmem : colon ∈ hexEncode digest := by simp [(List.cons.inj hu).2]
    exact absurd hmem (notMem_hexEncode (by decide) digest)

theorem drops_lineOf (hhost : Plain host) (hne : a ≠ host) :
    drops a (lineOf host digest) = false := by
  rw [drops, Bool.and_eq_false_iff]
  exact .inr (Bool.eq_false_iff.2 fun hpre => hne (eq_of_isPrefixOf hhost.colon hpre))

theorem drops_of_hits {line : Bytes} (h : hits host line = true) : drops host line = true := by
  simp only [hits, drops, Bool.and_eq_true, decide_eq_true_eq] at h ⊢
  exact ⟨by omega, h.2⟩

theorem hits_lineOf (host : Bytes) (hd : digest.length = 32) :
    hits host (lineOf host digest) = true := by
  simp only [hits, lineOf, Bool.and_eq_true, decide_eq_true_eq, length_append, length_cons,
    length_hexEncode]
  exact ⟨by omega, isPrefixOf_iff_prefix.2 ⟨hexEncode digest, by simp⟩⟩

/-- The store holds whole lines, and fits the buffer it is read to. -/
structure Stored (store : Bytes) (ls : List Bytes) : Prop where
  text : store = render newline ls
  lines : ∀ l ∈ ls, newline ∉ l
  fits : store.length ≤ tofuMax - 1

theorem Stored.readStore {ls : List Bytes} (h : Stored store ls) :
    readStore store = store := take_of_length_le h.fits

theorem foldl_keepLine (ls : List Bytes) :
    ∀ out : Bytes, out.length + (render newline ls).length ≤ tofuMax - 1 →
      ls.foldl (keepLine host) out = out ++ render newline (ls.filter (!drops host ·)) := by
  induction ls with
  | nil => simp
  | cons l ls ih =>
    intro out hout
    simp only [render_cons, length_append, length_cons, tofuMax] at hout
    rw [foldl_cons, keepLine, filter_cons]
    cases hd : drops host l with
    | true =>
      exact ih out (by rw [tofuMax]; omega)
    | false =>
      have hroom : out.length + l.length + 1 < tofuMax := by rw [tofuMax]; omega
      simp only [Bool.not_false, Bool.true_and, decide_eq_true hroom, if_true]
      rw [ih _ (by simp only [length_append, length_singleton, tofuMax]; omega)]
      simp

/-- Forgetting a host drops its lines, if anything is written. -/
theorem Stored.forget {ls : List Bytes} (h : Stored store ls) (written : Bool)
    (host : Bytes) : ∃ p : Bytes → Bool, Stored (tofuForgetHost written host store) (ls.filter p) ∧
        (∀ l, drops host l = false → p l = true) ∧
        (written = true → host ≠ [] → ∀ l ∈ ls.filter p, drops host l = false) := by
  by_cases hskip : host = [] ∨ store = [] ∨ written = false
  · refine ⟨fun _ => true, ?_, fun _ _ => rfl, fun hw hne l hl => ?_⟩
    · rwa [tofuForgetHost, if_pos hskip, filter_true]
    rcases hskip with h1 | h1 | h1
    · exact absurd h1 hne
    · have hnil : ls = [] := by
        cases ls with
        | nil => rfl
        | cons l ls => simp [h1] at h; exact absurd h.text (by simp)
      simp [hnil] at hl
    · simp [h1] at hw
  refine ⟨(!drops host ·), ?_, by simp, by simp⟩
  have hout : tofuForgetHost written host store = render newline (ls.filter (!drops host ·)) := by
    rw [tofuForgetHost, if_neg hskip, h.readStore, h.text, linesOf_render h.lines,
      foldl_keepLine ls [] (by simpa [← h.text] using h.fits), nil_append]
  refine ⟨hout, fun l hl => h.lines l (mem_of_mem_filter hl), ?_⟩
  rw [hout]
  exact (length_render_filter_le _ ls).trans (h.text ▸ h.fits)

/-- Remembering a digest adds lines at the end, if there is room and something is written. -/
theorem Stored.remember {ls : List Bytes} (h : Stored store ls) (written : Bool)
    (host : Bytes) (hd : digest.length = 32) :
    ∃ ms, Stored (tofuRemember written host (hexEncode digest) store) (ls ++ ms) ∧
      (written = true → Plain host → store.length + host.length + 67 ≤ tofuMax →
        ms = [lineOf host digest]) := by
  simp only [tofuRemember, h.readStore]
  split
  next hskip =>
    refine ⟨[], by simpa using h, fun hw hplain hroom => ?_⟩
    rcases hskip with h1 | h1 | h1
    · exact absurd h1 hplain.nonempty
    · omega
    · simp [h1] at hw
  · have hline : store ++ host ++ [colon] ++ hexEncode digest ++ [newline] =
        store ++ (lineOf host digest ++ [newline]) := by simp [lineOf]
    have hlen : (lineOf host digest ++ [newline]).length = host.length + 66 := by
      simp [lineOf, length_hexEncode, hd]
    have hfits : (store ++ (lineOf host digest ++ [newline])).length ≤ tofuMax - 1 := by
      rw [length_append]
      omega
    rw [hline]
    by_cases hplain : Plain host
    · have hfree : newline ∉ lineOf host digest := by
        simp only [lineOf, mem_append, mem_cons, not_or]
        exact ⟨hplain.newline, by decide, notMem_hexEncode (by decide) digest⟩
      refine ⟨[lineOf host digest], ⟨by simp [h.text], ?_, hfits⟩, fun _ _ _ => rfl⟩
      simp only [mem_append, mem_singleton]
      rintro l (hl | rfl)
      · exact h.lines l hl
      · exact hfree
    obtain ⟨ms, hms, hfree⟩ : ∃ ms : List Bytes,
        lineOf host digest ++ [newline] = render newline ms ∧ ∀ l ∈ ms, newline ∉ l :=
      exists_render _
    refine ⟨ms, ⟨by rw [hms, h.text, render_append], ?_, hfits⟩, fun _ hp => absurd hp hplain⟩
    simp only [mem_append]
    rintro l (hl | hl)
    · exact h.lines l hl
    · exact hfree l hl

/-! ### The invariant -/

/-- The first line of every accepted host has the accepted digest. -/
structure Keeps (r : Run) (ls : List Bytes) : Prop where
  stored : Stored r.state.store ls
  cut : r.state.lastFailHost = r.state.lastHost.take 127
  digest : r.state.lastFailOk = true → r.state.lastFailDigest.length = 32
  accepted : ∀ host digest, r.accepted host = some digest →
    Plain host ∧ digest.length = 32 ∧ ls.find? (hits host) = some (lineOf host digest)

variable {C : Checks} {r : Run} {ls : List Bytes}

section

variable (h : Keeps r ls)
include h

/-- Lines at the end do not matter to a host that has one. -/
theorem Keeps.append {ms : List Bytes} (hstore : Stored store (ls ++ ms)) :
    Keeps { r with state := { r.state with store := store } } (ls ++ ms) where
  stored := hstore
  cut := h.cut
  digest := h.digest
  accepted host digest ha := by
    obtain ⟨hp, hd, hfind⟩ := h.accepted host digest ha
    exact ⟨hp, hd, by rw [find?_append, hfind, some_or]⟩

theorem Keeps.stash (host msg : Bytes) :
    Keeps { r with state := stashFailDigest host (sha256 msg) r.state } ls := by
  rw [stashFailDigest]
  split
  · exact h
  · exact ⟨h.stored, rfl, fun _ => length_sha256 msg, h.accepted⟩

theorem keeps_verify (tofuOn written : Bool) (msg host : Bytes) :
    ∃ ms, Keeps (r.step C (.verify tofuOn written msg host)) ms := by
  obtain ⟨ms, hms, -⟩ := h.stored.remember written host (length_sha256 msg)
  simp only [Run.step, verifyCertChain]
  iterate 4
    split
    · exact ⟨ls, h⟩
  · exact ⟨ls, h.stash host msg⟩
  · split
    · split
      · exact ⟨_, (h.append hms).stash host msg⟩
      · exact ⟨_, h.append hms⟩
    · exact ⟨ls, h.stash host msg⟩

theorem keeps_accept {w₁ w₂ : Bool} (hsafe : (Call.accept w₁ w₂).Safe r) :
    ∃ ms, Keeps (r.step C (.accept w₁ w₂)) ms := by
  simp only [Run.step, acceptLast]
  split_ifs with hnone
  · exact ⟨ls, h⟩
  · obtain ⟨hok, -⟩ := not_or.1 hnone
    obtain ⟨hplain, hshort, rfl, rfl, hroom⟩ := hsafe (by simpa using hok)
    have hhost : r.state.lastFailHost = r.state.lastHost := by
      rw [h.cut, take_of_length_le (by omega)]
    have hd := h.digest (by simpa using hok)
    rw [hhost]
    obtain ⟨p, hforget, hp, hgone⟩ := h.stored.forget true r.state.lastHost
    obtain ⟨ms, hms, hline⟩ := hforget.remember true r.state.lastHost hd
    obtain rfl := hline rfl hplain hroom
    refine ⟨_, hms, (take_of_length_le (by dsimp only; omega)).symm, h.digest, ?_⟩
    intro host digest ha
    simp only [hplain.lower] at ha
    rcases eq_or_ne host r.state.lastHost with rfl | hne
    · -- All older lines of the host are gone.
      rw [Function.update_self, some.injEq] at ha
      subst ha
      have hnew : (ls.filter p).find? (hits r.state.lastHost) = none := by
        refine find?_eq_none.2 fun l hl hhit => ?_
        exact Bool.noConfusion ((hgone rfl hplain.nonempty l hl).symm.trans (drops_of_hits hhit))
      refine ⟨hplain, hd, ?_⟩
      rw [find?_append, hnew, none_or, find?_cons, hits_lineOf _ hd]
    rw [Function.update_of_ne hne] at ha
    obtain ⟨hp', hd', hfind⟩ := h.accepted host digest ha
    have hkeep : drops r.state.lastHost (lineOf host digest) = false :=
      drops_lineOf hp' (Ne.symm hne)
    exact ⟨hp', hd', by rw [find?_append, find_filter hfind (hp _ hkeep), some_or]⟩

theorem keeps_forget {written : Bool} (hsafe : (Call.forget written host).Safe r) :
    ∃ ms, Keeps (r.step C (.forget written host)) ms := by
  simp only [Run.step, forgetHost]
  set name := if host = [] then r.state.lastFailHost else host with hname
  by_cases hnone : name = []
  · exact ⟨ls, by simpa only [if_pos hnone] using h⟩
  obtain ⟨p, hforget, hp, -⟩ := h.stored.forget written name
  simp only [if_neg hnone]
  refine ⟨_, hforget, h.cut, fun hok => h.digest (Bool.and_eq_true_iff.1 hok).1, ?_⟩
  intro accepted digest ha
  -- The host that was forgotten has no accepted digest any more.
  have hfull : name = if host = [] then r.state.lastHost else host := by
    rw [hname, h.cut]
    split_ifs with hhost
    · exact take_of_length_le (Nat.le_of_lt_succ (hsafe hhost))
    · rfl
  simp only [← hfull] at ha
  rcases eq_or_ne accepted (lower name) with rfl | hne
  · simp at ha
  rw [Function.update_of_ne hne] at ha
  obtain ⟨hplain, hd, hfind⟩ := h.accepted accepted digest ha
  have hkeep : drops name (lineOf accepted digest) = false :=
    drops_lineOf hplain fun heq => hne (by rw [heq, hplain.lower])
  exact ⟨hplain, hd, find_filter hfind (hp _ hkeep)⟩

end

/-- **Trust on first use.** In every run whose acceptances are safe, a certificate with another
digest than the accepted one, that is not valid under WebPKI and not pinned, is refused for a host
without capital letters. -/
theorem tofu_protects (h : Reach Run.Start (fun r c => c.Safe r) (Run.step C) r) {host : Bytes}
    (hcase : lower host = host) {msg digest : Bytes} (hpin : sha256 msg ∉ r.state.pins)
    (hacc : r.accepted (lower host) = some digest) (hne : sha256 msg ≠ digest)
    (hweb : C.webpki msg host = false) (tofuOn written : Bool) :
    (verifyCertChain C tofuOn written msg host r.state).1 = false := by
  obtain ⟨ls, hkeeps⟩ : ∃ ls, Keeps r ls := by
    refine h.invariant (fun r => ∃ ls, Keeps r ls) ?_ ?_
    · rintro ⟨_, _⟩ ⟨⟨pins, digest, rfl⟩, rfl⟩
      exact ⟨[], ⟨rfl, by simp, by simp⟩, rfl, by simp, by simp⟩
    rintro r c ⟨ls, hr⟩ hc
    cases c with
    | verify on w msg host => exact keeps_verify hr on w msg host
    | accept => exact keeps_accept hr hc
    | forget => exact keeps_forget hr hc
  rw [hcase] at hacc
  obtain ⟨hplain, hd, hfind⟩ := hkeeps.accepted host digest hacc
  have hcheck : tofuCheck r.state.store host (hexEncode (sha256 msg)) = some false := by
    have hrest : (lineOf host digest).drop (host.length + 1) = hexEncode digest := by
      rw [lineOf, ← singleton_append, ← append_assoc]
      exact drop_left' (by simp)
    have hhex : ∀ d : Bytes, d.length = 32 → (hexEncode d).take 64 = hexEncode d :=
      fun d hd => take_of_length_le (by rw [length_hexEncode, hd])
    rw [tofuCheck, hkeeps.stored.readStore, tofuCheckStore, if_neg hplain.nonempty,
      hkeeps.stored.text, linesOf_render hkeeps.stored.lines, hfind]
    simp only [map_some, hrest, hhex _ hd, hhex _ (length_sha256 msg), some.injEq,
      Bool.and_eq_false_iff, decide_eq_false_iff_not]
    exact .inr fun heq => hne (hexEncode_injective heq).symm
  simp only [verifyCertChain, hweb, hcheck]
  split <;> rfl

/-- No certificate is valid under WebPKI, and every name matches. -/
def selfSigned : Checks := ⟨fun _ _ => false, fun _ _ => .matched⟩

/-- A certificate message, by its last byte. -/
def certMsg (b : UInt8) : Bytes := [11, 0, 0, 0, 0, 0, 0, 0, 0, b]

def noTrust : Run := ⟨⟨[], [], [], [], false, []⟩, fun _ => none⟩

/-- The certificate of the host `a` is refused, and the user accepts it. -/
def acceptedRun : Run :=
  Run.step selfSigned (Run.step selfSigned noTrust (.verify false true (certMsg 0) [97]))
    (.accept true true)

theorem acceptedRun_reach :
    Reach Run.Start (fun r c => c.Safe r) (Run.step selfSigned) acceptedRun := by
  refine .call _ (.call _ (.start ⟨⟨_, _, rfl⟩, rfl⟩) ?_) ?_
  · exact (show Call.Safe _ (.verify ..) from trivial)
  intro _
  exact ⟨⟨by decide, by decide, by decide, by decide⟩, by decide, rfl, rfl, by decide⟩

theorem tofu_protects_accepted :
    (verifyCertChain selfSigned true true (certMsg 1) [97] acceptedRun.state).1 = false :=
  tofu_protects acceptedRun_reach (by decide) (by decide)
    (show acceptedRun.accepted (lower [97]) = some (sha256 (certMsg 0)) from rfl)
    (by decide +kernel) rfl true true

/-- With the setting on, another certificate is trusted for the host in capital letters. -/
theorem tofu_letter_case : ¬ ∀ (C : Checks) (r : Run),
    Reach Run.Start (fun _ _ => True) (Run.step C) r → ∀ host, Protected C r host := by
  intro hall
  have h := hall selfSigned acceptedRun (acceptedRun_reach.mono fun _ _ _ => trivial) [65] true true
    (certMsg 1) (sha256 (certMsg 0)) rfl (by decide +kernel) rfl
  exact absurd h (by decide +kernel)

end PeakOs.Tofu
