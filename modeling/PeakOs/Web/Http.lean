import Mathlib.Data.List.Basic
import Mathlib.Data.List.TakeWhile

/-!
# Origins and header fields

`http_util.c` has two parsers of URLs: one for origins, which cuts a host of 128 bytes and more, and
one for requests, which refuses it.

`http_header_value` looks for a field in the text of a response, line by line. It takes two line
ends in a row for the end of the header section only where a line starts; behind the last header
line the scan stands on one line end, so the empty line is passed over like any other and the body
is searched too. The scan is first told in lines (`findField_eq`), then compared with the header
section.

A message is the list of its bytes, with zero bytes if it has some; names are without their
terminating zero.

## Main results

* `same_server` — URLs of one origin are URLs of one server
* `findField_eq` — the lines that are searched
* `header_value_iff` — when the field that is found is the one of the header section
* `body_seen` — a field in the body is found
-/

namespace PeakOs.Http

open List Option

abbrev Str := List UInt8

def slash : UInt8 := 47
def colon : UInt8 := 58

/-! ### Origins -/

def digit (c : UInt8) : Bool := 48 ≤ c && c ≤ 57

/-- `parse_port_dec`. -/
def parsePort (text : Str) : Option ℕ :=
  let digits := text.takeWhile digit
  if digits = [] then none
  else digits.foldlM (fun port c =>
    let port := port * 10 + (c.toNat - 48)
    if 65535 < port then none else some port) 0

structure Origin where
  scheme : Str
  host : Str
  port : ℕ
  deriving DecidableEq

/-- `http`, and with another letter `https`. -/
def http : Str := [104, 116, 116, 112]

/-- The schemes that `parse_url_parts` accepts, with their ports; neither has `://` in it, so the
first one in the text is the one behind the scheme. -/
def schemes : List (Str × ℕ) := [(http, 80), (http ++ [115], 443)]

/-- `parse_url_parts`, with a host of at most 127 bytes. -/
def parseUrlParts (url : Str) : Option Origin :=
  (schemes.find? fun p => (p.1 ++ [colon, slash, slash]).isPrefixOf url).bind fun (scheme, port) =>
    let rest := url.drop (scheme.length + 3)
    let host := (rest.takeWhile fun c => c ∉ [slash, 63, 35, colon]).take 127
    if host = [] then none
    else
      match rest.drop host.length with
      | [] => some ⟨scheme, host, port⟩
      | c :: rest => if c = colon then (parsePort rest).map fun port => ⟨scheme, host, port⟩
        else some ⟨scheme, host, port⟩

/-- The text of an origin. -/
def Origin.text (o : Origin) : Str :=
  o.scheme ++ [colon, slash, slash] ++ o.host ++ [colon] ++
    (Nat.toDigits 10 o.port).map fun c => .ofNat c.toNat

/-! ### Requests -/

/-- `http_same_origin`. The text of an origin always fits its buffer. -/
def httpSameOrigin (a b : Str) : Bool :=
  ((parseUrlParts a).bind fun o => (parseUrlParts b).map fun o' => o.text == o'.text).getD false

/-- The rest of a URL, if it can be a path. -/
def urlPath (rest : Str) : Str :=
  if rest.head?.any (· ∈ [slash, 63, 35]) then rest.take 255 else [slash]

/-- `http_parse_url` into the buffers of `net_http_request`, with the scheme for `https`. -/
def httpParseUrl (url : Str) : Option (Origin × Str) :=
  (schemes.find? fun p => (p.1 ++ [colon, slash, slash]).isPrefixOf url).bind fun (scheme, port) =>
    let rest := url.drop (scheme.length + 3)
    let host := (rest.takeWhile fun c => c ∉ [slash, 63, 35, colon]).take 127
    if host = [] then none
    else
      match rest.drop host.length with
      | [] => some (⟨scheme, host, port⟩, [slash])
      | c :: rest =>
        if c = colon then
          (parsePort rest).map fun port => (⟨scheme, host, port⟩, urlPath (rest.dropWhile digit))
        else if c ∈ [slash, 63, 35] then some (⟨scheme, host, port⟩, urlPath (c :: rest))
        else none

variable {url text text' : Str} {o o' : Origin}

theorem parseUrlParts_of_request {p : Origin × Str} (h : httpParseUrl url = some p) :
    parseUrlParts url = some p.1 := by
  rw [httpParseUrl, bind_eq_some_iff] at h
  obtain ⟨⟨scheme, port⟩, hscheme, h⟩ := h
  rw [parseUrlParts, hscheme, bind_some]
  dsimp only at h ⊢
  split at h
  · cases h
  rename_i hhost
  rw [if_neg hhost]
  generalize drop _ (drop _ url) = rest at h ⊢
  cases rest with
  | nil =>
    cases h
    rfl
  | cons c rest =>
    dsimp only at h ⊢
    by_cases hc : c = colon
    · rw [if_pos hc] at h ⊢
      obtain ⟨port, hport, rfl⟩ := map_eq_some_iff.1 h
      rw [hport]
      rfl
    rw [if_neg hc] at h ⊢
    split at h <;> cases h
    rfl

/-! ### Texts of origins -/

theorem colon_notMem (h : parseUrlParts url = some o) : colon ∉ o.scheme ∧ colon ∉ o.host := by
  rw [parseUrlParts, bind_eq_some_iff] at h
  obtain ⟨⟨scheme, port⟩, hscheme, h⟩ := h
  have hs : ∀ p ∈ schemes, colon ∉ p.1 := by decide
  dsimp only at h
  split at h
  · cases h
  have hhost : colon ∉ ((url.drop (scheme.length + 3)).takeWhile
      fun c => c ∉ [slash, 63, 35, colon]).take 127 :=
    fun hc => by simpa using mem_takeWhile_imp (mem_of_mem_take hc)
  have ho : o.scheme = scheme ∧ colon ∉ o.host := by
    split at h
    · cases h
      exact ⟨rfl, hhost⟩
    split at h
    · obtain ⟨port, -, rfl⟩ := map_eq_some_iff.1 h
      exact ⟨rfl, hhost⟩
    · cases h
      exact ⟨rfl, hhost⟩
  exact ⟨ho.1 ▸ hs _ (mem_of_find?_eq_some hscheme), ho.2⟩

theorem split_colon {a a' b b' : Str} (ha : colon ∉ a) (ha' : colon ∉ a')
    (h : a ++ colon :: b = a' ++ colon :: b') : a = a' ∧ b = b' := by
  induction a generalizing a' with cases a'
  | nil | cons => grind

/-- The digits of a port give the port. -/
theorem port_inj {p p' : ℕ} (h : (Nat.toDigits 10 p).map (fun c => UInt8.ofNat c.toNat) =
    (Nat.toDigits 10 p').map fun c => UInt8.ofNat c.toNat) : p = p' := by
  have hback (p : ℕ) : ((Nat.toDigits 10 p).map (fun c => UInt8.ofNat c.toNat)).map
      (fun b => Char.ofNat b.toNat) = Nat.toDigits 10 p := by
    rw [List.map_map]
    refine (map_congr_left fun c hc => ?_).trans (List.map_id _)
    have hd := Nat.isDigit_of_mem_toDigits (by decide) (by decide) hc
    simp only [Char.isDigit, Bool.and_eq_true, decide_eq_true_eq, UInt32.le_iff_toNat_le] at hd
    have hlt : c.toNat < 256 := Nat.lt_of_le_of_lt hd.2 (by decide)
    simp [Nat.mod_eq_of_lt hlt]
  have := congrArg (fun l => Nat.ofDigitChars 10 (l.map fun b => Char.ofNat b.toNat) 0) h
  simpa only [hback, Nat.ofDigitChars_toDigits (show 1 < 10 by decide) (by decide)] using this

/-- **The text of an origin** determines it. -/
theorem text_inj (h : colon ∉ o.scheme ∧ colon ∉ o.host) (h' : colon ∉ o'.scheme ∧ colon ∉ o'.host)
    (ht : o.text = o'.text) : o = o' := by
  simp only [Origin.text, append_assoc, cons_append, nil_append] at ht
  obtain ⟨hs, ht⟩ := split_colon h.1 h'.1 ht
  simp only [cons.injEq, true_and] at ht
  obtain ⟨hh, ht⟩ := split_colon h.2 h'.2 ht
  have := port_inj ht
  cases o
  cases o'
  simp_all

/-- **One origin, one server.** Two URLs of one origin that the request parser accepts have the same
scheme, host and port: a host that the origin parser would cut is one that the request parser
refuses, and the text of an origin is read back in one way only. -/
theorem same_server (a b : Str) (h : httpSameOrigin a b = true) (p q : Origin × Str)
    (hp : httpParseUrl a = some p) (hq : httpParseUrl b = some q) : p.1 = q.1 := by
  have hp := parseUrlParts_of_request hp
  have hq := parseUrlParts_of_request hq
  rw [httpSameOrigin, hp, hq] at h
  exact text_inj (colon_notMem hp) (colon_notMem hq) (by simpa using h)

/-- `http://h`. -/
def home : Str := http ++ [colon, slash, slash, 104]

/-- The default port, and the same port with zeros in front and a query behind it. -/
theorem same_server_zeros : ∃ p q, httpParseUrl home = some p ∧
    httpParseUrl (home ++ [colon, 48, 48, 56, 48, 63, 120]) = some q ∧ p.1 = q.1 := by
  have hp : httpParseUrl home = some (⟨http, [104], 80⟩, [slash]) := by decide +kernel
  have hq : httpParseUrl (home ++ [colon, 48, 48, 56, 48, 63, 120]) =
      some (⟨http, [104], 80⟩, [63, 120]) := by decide +kernel
  exact ⟨_, _, hp, hq, same_server _ _ (by decide +kernel) _ _ hp hq⟩

/-! ### Header fields -/

def crlf : Str := [13, 10]

def lower (c : UInt8) : UInt8 := if 65 ≤ c ∧ c ≤ 90 then c + 32 else c

/-- The text behind a name and its colon. -/
def fieldRest : Str → Str → Option Str
  | [], c :: p => if c = colon then some p else none
  | k :: key, c :: p => if lower c = lower k then fieldRest key p else none
  | _, [] => none

def skipBlanks (p : Str) : Str := p.dropWhile fun c => c = 32 ∨ c = 9

/-- What is copied of the text behind the colon, in a buffer that is large enough. -/
def fieldValue (p : Str) : Str := (skipBlanks p).takeWhile fun c => c ≠ 13 ∧ c ≠ 10

/-- The value of a field, unless it is too long. -/
def copyValue (cap : ℕ) (p : Str) : Option Str :=
  if (fieldValue p).length < cap then some (fieldValue p) else none

/-- The text behind the end of the line. -/
def skipLine : Str → Option Str
  | 13 :: 10 :: p => some p
  | _ :: p => skipLine p
  | [] => none

theorem length_skipLine {p q : Str} (h : skipLine p = some q) : q.length < p.length := by
  fun_induction skipLine p with
  | case1 p =>
    cases h
    simp only [length_cons]
    omega
  | case2 _ _ _ ih => exact (ih h).trans (Nat.lt_succ_self _)
  | case3 => cases h

/-- The loop over the lines of a text without zero bytes. -/
def findField (key : Str) (cap : ℕ) (p : Str) : Option Str :=
  if p = [] ∨ (crlf ++ crlf).isPrefixOf p then none
  else
    match fieldRest key p with
    | some rest => copyValue cap rest
    | none =>
      match _h : skipLine p with
      | some p => findField key cap p
      | none => none
  termination_by p.length
  decreasing_by exact length_skipLine _h

/-- `http_header_value`. Every loop of it stops at the first zero byte of the message. -/
def httpHeaderValue (key : Str) (cap : ℕ) (raw : Str) : Option Str :=
  if cap < 2 ∨ key = [] then none else findField key cap (raw.takeWhile (· ≠ 0))

/-! ### The lines of a message

The pieces between line ends; the last one, behind the last line end, need not be empty. -/

/-- The pieces of a text between line ends. -/
def lines : Str → List Str
  | 13 :: 10 :: p => [] :: lines p
  | c :: p => (lines p).modifyHead (c :: ·)
  | [] => [[]]

/-- The lines before the first empty one. -/
def headerLines (raw : Str) : List Str := (lines raw).takeWhile (· ≠ [])

/-- The empty line and what stands behind it. -/
def bodyLines (raw : Str) : List Str := (lines raw).dropWhile (· ≠ [])

/-- The text behind the colon of the first field of that name in the header section. -/
def headerField (key raw : Str) : Option Str := (headerLines raw).findSome? (fieldRest key)

/-- The lines before the first two empty ones in a row. -/
def upToBlanks : List Str → List Str
  | [] :: [] :: _ :: _ => []
  | l :: ls => l :: upToBlanks ls
  | [] => []

/-- The lines up to the first zero byte. -/
def upToZero : List Str → List Str
  | [] => []
  | l :: ls => if 0 ∈ l then [l.takeWhile (· ≠ 0)] else l :: upToZero ls

variable {key l p q : Str} {cap : ℕ} {ls : List Str}

theorem lines_ne_nil (p : Str) : lines p ≠ [] := by
  fun_induction lines p with
  | case1 => simp
  | case2 c p _ ih => cases hl : lines p <;> simp_all
  | case3 => simp

/-- A text is one line, or a line, its end and another text. -/
theorem lines_cases (p : Str) : skipLine p = none ∧ lines p = [p] ∨
    ∃ l q, p = l ++ crlf ++ q ∧ skipLine p = some q ∧ lines p = l :: lines q := by
  fun_induction skipLine p with
  | case1 p => exact .inr ⟨[], p, rfl, rfl, rfl⟩
  | case2 c p hc ih =>
    rw [lines]
    · rcases ih with ⟨hnone, hlines⟩ | ⟨l, q, rfl, hsome, hlines⟩
      · exact .inl ⟨hnone, by rw [hlines]; rfl⟩
      · exact .inr ⟨c :: l, q, rfl, hsome, by rw [hlines]; rfl⟩
    · exact hc
  | case3 => exact .inl ⟨rfl, rfl⟩

theorem fieldRest_append (hkey : 13 ∉ key) (l p : Str) :
    fieldRest key (l ++ crlf ++ p) = (fieldRest key l).map (· ++ crlf ++ p) := by
  induction key generalizing l with
  | nil => cases l <;> grind [fieldRest, crlf, colon]
  | cons k key ih =>
    obtain ⟨hk, hkey⟩ := not_or.1 (mt mem_cons.2 hkey)
    cases l with
    | nil =>
      have hne : lower 13 ≠ lower k := by grind [lower]
      simp [fieldRest, crlf, hne]
    | cons c l =>
      simp only [cons_append, fieldRest]
      split
      · exact ih hkey l
      · rfl

theorem fieldValue_append (l p : Str) : fieldValue (l ++ crlf ++ p) = fieldValue l := by
  have hskip : skipBlanks (l ++ crlf ++ p) = skipBlanks l ++ crlf ++ p := by
    simp only [skipBlanks, append_assoc, dropWhile_append]
    split
    · simp_all [crlf]
    · rfl
  rw [fieldValue, hskip, append_assoc, takeWhile_append]
  split
  · rename_i hall
    rw [fieldValue, List.IsPrefix.eq_of_length (List.takeWhile_prefix _) hall]
    simp [crlf]
  · rfl

theorem upToBlanks_cons (h : ¬ (l = [] ∧ ∃ ls', ls = [] :: ls' ∧ ls' ≠ [])) :
    upToBlanks (l :: ls) = l :: upToBlanks ls := by
  rw [upToBlanks]
  rintro m ms rfl rfl
  exact h ⟨rfl, m :: ms, rfl, by simp⟩

/-- One round of the scan. -/
theorem findField_step (hgo : ¬ (p = [] ∨ (crlf ++ crlf).isPrefixOf p)) :
    findField key cap p = match fieldRest key p with
      | some rest => copyValue cap rest
      | none => (skipLine p).bind (findField key cap) := by
  rw [findField, if_neg hgo]
  cases fieldRest key p with
  | some rest => rfl
  | none =>
    dsimp only
    split <;> simp_all

/-- **The scan in lines**: the first field of that name before two empty lines in a row. -/
theorem findField_eq (hkey : 13 ∉ key) (p : Str) : findField key cap p =
    ((upToBlanks (lines p)).findSome? (fieldRest key)).bind (copyValue cap) := by
  have hnil : fieldRest key [] = none := by cases key <;> rfl
  induction hn : p.length using Nat.strong_induction_on generalizing p with
  | _ n ih =>
    subst hn
    by_cases hgo : p = [] ∨ (crlf ++ crlf).isPrefixOf p
    · rw [findField, if_pos hgo]
      rcases hgo with rfl | hend
      · simp [lines, upToBlanks, hnil]
      obtain ⟨q, rfl⟩ := isPrefixOf_iff_prefix.1 hend
      obtain ⟨m, ms, hq⟩ := exists_cons_of_ne_nil (lines_ne_nil q)
      simp [crlf, lines, hq, upToBlanks]
    rw [findField_step hgo]
    rcases lines_cases p with ⟨hskip, hlines⟩ | ⟨l, q, rfl, hskip, hlines⟩
    · rw [hlines, upToBlanks_cons (by simp)]
      cases hf : fieldRest key p with
      | none => simp [hf, hskip, upToBlanks]
      | some rest => simp [hf]
    have hstep : upToBlanks (l :: lines q) = l :: upToBlanks (lines q) := by
      refine upToBlanks_cons ?_
      rintro ⟨rfl, ls', hq, hne⟩
      rcases lines_cases q with ⟨-, hone⟩ | ⟨m, r, rfl, -, hm⟩
      · simp_all
      · obtain rfl : m = [] := by simp_all
        refine hgo (.inr ?_)
        exact isPrefixOf_iff_prefix.2 ⟨r, by simp [crlf]⟩
    rw [hlines, hstep, findSome?_cons, fieldRest_append hkey]
    cases fieldRest key l with
    | none =>
      simp only [Option.map_none, hskip, bind_some]
      exact ih q.length (by simp only [length_append, crlf, length_cons]; omega) q rfl
    | some rest => simp only [Option.map_some, bind_some, copyValue, fieldValue_append]

/-! ### Zero bytes -/

theorem lines_takeWhile (raw : Str) : lines (raw.takeWhile (· ≠ 0)) = upToZero (lines raw) := by
  fun_induction lines raw with
  | case1 p ih => simpa [lines, upToZero] using ih
  | case2 c p hc ih =>
    obtain ⟨l, ls, hl⟩ := exists_cons_of_ne_nil (lines_ne_nil p)
    by_cases hz : c = 0
    · simp [hz, hl, lines, upToZero]
    have hp : ∀ q, c = 13 → p.takeWhile (· ≠ 0) ≠ 10 :: q := by
      rintro q rfl hq
      cases p with
      | nil => cases hq
      | cons d p =>
        rw [takeWhile_cons] at hq
        split at hq <;> cases hq
        exact hc p rfl rfl
    rw [takeWhile_cons_of_pos (by simpa using hz), lines]
    · rw [ih, hl]
      simp only [upToZero, modifyHead_cons, mem_cons, Ne.symm hz, false_or]
      split <;> simp [hz]
    · exact fun q h1 h2 => hp q h1 h2
  | case3 => rfl

theorem fieldRest_takeWhile (hkey : 0 ∉ key) (l : Str) :
    fieldRest key (l.takeWhile (· ≠ 0)) = (fieldRest key l).map (takeWhile (· ≠ 0)) := by
  induction key generalizing l with
  | nil =>
    cases l with
    | nil => rfl
    | cons c l => by_cases hz : c = 0 <;> by_cases hc : c = colon <;> simp_all [fieldRest, colon]
  | cons k key ih =>
    obtain ⟨hk, hkey⟩ := not_or.1 (mt mem_cons.2 hkey)
    cases l with
    | nil => rfl
    | cons c l =>
      by_cases hz : c = 0
      · have hne : lower 0 ≠ lower k := by grind [lower]
        simp [hz, fieldRest, hne]
      rw [takeWhile_cons_of_pos (by simpa using hz), fieldRest, fieldRest]
      split
      · exact ih hkey l
      · rfl

/-- When a value is copied as it stands behind its blanks. -/
theorem copyValue_takeWhile (rest : Str) :
    copyValue cap (rest.takeWhile (· ≠ 0)) = some (skipBlanks rest) ↔
      (skipBlanks rest).length < cap ∧ ∀ c ∈ skipBlanks rest, c ≠ 0 ∧ c ≠ 13 ∧ c ≠ 10 := by
  have hskip : skipBlanks (rest.takeWhile (· ≠ 0)) = (skipBlanks rest).takeWhile (· ≠ 0) := by
    unfold skipBlanks
    induction rest with
    | nil => rfl
    | cons c rest ih =>
      by_cases hb : c = 32 ∨ c = 9
      · have hz : c ≠ 0 := by rintro rfl; simp at hb
        simpa [hb, hz] using ih
      · by_cases hz : c = 0 <;> simp [hb, hz]
  have hvalue : fieldValue (rest.takeWhile (· ≠ 0)) =
      (skipBlanks rest).takeWhile fun c => c ≠ 0 ∧ c ≠ 13 ∧ c ≠ 10 := by
    rw [fieldValue, hskip, takeWhile_takeWhile]
    congr 1
    funext c
    simp [and_comm]
  rw [copyValue, hvalue]
  constructor
  · intro h
    split at h
    · rename_i hlen
      have hself := some.inj h
      exact ⟨hself ▸ hlen, by simpa using takeWhile_eq_self_iff.1 hself⟩
    · cases h
  · rintro ⟨hlen, hall⟩
    rw [takeWhile_eq_self_iff.2 (by simpa using hall), if_pos hlen]

/-! ### The header section -/

theorem upToBlanks_upToZero (hl : l ≠ []) : upToBlanks (upToZero (l :: ls)) =
    l.takeWhile (· ≠ 0) :: if 0 ∈ l then [] else upToBlanks (upToZero ls) := by
  rw [upToZero]
  split
  · exact upToBlanks_cons (by simp)
  · rename_i hz
    rw [upToBlanks_cons (by simp [hl]), takeWhile_eq_self_iff.2]
    intro c hc
    simpa using fun h : c = 0 => hz (h ▸ hc)

/-- What follows the header section, as far as the scan goes. -/
def reached (raw : Str) : List Str := upToBlanks (upToZero (bodyLines raw))

/-- The scan of lines that are not empty, with others behind them. -/
theorem scan_iff (hkey : 0 ∉ key) (body : List Str) {head : List Str}
    (hhead : ∀ l ∈ head, l ≠ []) :
    ((upToBlanks (upToZero (head ++ body))).findSome? (fieldRest key)).bind (copyValue cap) =
        (head.findSome? (fieldRest key)).map skipBlanks ↔
      match head.findSome? (fieldRest key) with
      | some rest => (∀ l ∈ head.takeWhile fun l => fieldRest key l = none, 0 ∉ l) ∧
        (skipBlanks rest).length < cap ∧ ∀ c ∈ skipBlanks rest, c ≠ 0 ∧ c ≠ 13 ∧ c ≠ 10
      | none => (∃ l ∈ head, 0 ∈ l) ∨
        ∀ rest, (upToBlanks (upToZero body)).findSome? (fieldRest key) = some rest →
          cap ≤ (fieldValue rest).length := by
  induction head with
  | nil =>
    simp only [nil_append, findSome?_nil, Option.map_none, not_mem_nil, false_and, exists_false,
      false_or, bind_eq_none_iff, copyValue, ite_eq_right_iff, reduceCtorEq, imp_false, not_lt]
  | cons l head ih =>
    obtain ⟨hl, hhead⟩ := forall_mem_cons.1 hhead
    rw [cons_append, upToBlanks_upToZero hl, findSome?_cons, findSome?_cons,
      fieldRest_takeWhile hkey]
    cases hf : fieldRest key l with
    | some rest => simpa [hf] using copyValue_takeWhile rest
    | none =>
      by_cases hz : 0 ∈ l
      · cases head.findSome? (fieldRest key) <;> simp [hz, hf]
      · have := ih hhead
        simp only [hz, if_false, Option.map_none]
        rw [this]
        cases head.findSome? (fieldRest key) <;> simp [hz, hf]

/-- **What `http_header_value` sees**, for every message and name. A field of the header section is
returned if it fits the buffer and no zero byte or stray line end stands in it or before it. If
there is none, the lines behind the header section must not show one, up to two empty lines in a
row. -/
theorem header_value_iff (raw key : Str) (cap : ℕ) (hkey : key ≠ [] ∧ 13 ∉ key ∧ 0 ∉ key)
    (hcap : 2 ≤ cap) :
    httpHeaderValue key cap raw = (headerField key raw).map skipBlanks ↔
      match headerField key raw with
      | some rest => (∀ l ∈ (headerLines raw).takeWhile fun l => fieldRest key l = none, 0 ∉ l) ∧
        (skipBlanks rest).length < cap ∧ ∀ c ∈ skipBlanks rest, c ≠ 0 ∧ c ≠ 13 ∧ c ≠ 10
      | none => (∃ l ∈ headerLines raw, 0 ∈ l) ∨
        ∀ rest, (reached raw).findSome? (fieldRest key) = some rest →
          cap ≤ (fieldValue rest).length := by
  obtain ⟨hne, hcr, hzero⟩ := hkey
  have hsplit : lines raw = headerLines raw ++ bodyLines raw :=
    (takeWhile_append_dropWhile ..).symm
  have hhead : ∀ l ∈ headerLines raw, l ≠ [] := fun l hl => by simpa using mem_takeWhile_imp hl
  rw [httpHeaderValue, if_neg (not_or.2 ⟨hcap.not_gt, hne⟩), findField_eq hcr, lines_takeWhile,
    hsplit]
  exact scan_iff hzero (bodyLines raw) hhead

/-- A status line, a field, and a body that begins with a field of the same name. -/
theorem header_value_found : httpHeaderValue [120] 64
    (http ++ crlf ++ [120, colon, 49] ++ crlf ++ crlf ++ [120, colon, 50]) = some [49] :=
  (header_value_iff _ [120] 64 (by decide) (by decide)).2
    (show (∀ l ∈ [http], 0 ∉ l) ∧ _ by decide +kernel)

/-- A status line, and a body that begins with a field. -/
theorem body_seen : ¬ ∀ (raw key : Str) (cap : ℕ), key ≠ [] ∧ 13 ∉ key ∧ 0 ∉ key → 2 ≤ cap →
    httpHeaderValue key cap raw = (headerField key raw).map skipBlanks := by
  intro h
  have := h (http ++ crlf ++ crlf ++ [120, colon, 49]) [120] 64 (by decide) (by decide)
  rw [httpHeaderValue, if_neg (by decide), findField_eq (by decide)] at this
  revert this
  decide

end PeakOs.Http
