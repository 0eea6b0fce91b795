import PeakOs.Vfs.Apart
import PeakOs.Vfs.Files
import Mathlib.Data.List.DropRight

/-!
# The HTTP server of a container

`serve_http_conn` and `ctr_http_get` of `kernel/ctr_http.c`: the path of a request is normalised,
joined to the root directory of the container in a buffer of 256 bytes that cuts it, compared with
that directory as a text, looked up as it is, and normalised and resolved again when the file is
read. The functions below give the body of the response.

Two states of the file system that agree below the root directory (`Agrees`) give the same body:
every place that is looked at lies at or below the directory, or on the way to it.

## Main results

* `under_names` — what the comparison of texts says about names, before and after normalisation
* `pathForIo_agrees`, `vfsReadFile_alike` — resolving and reading such a path
* `http_confined` — the same body for every request
-/

namespace PeakOs.Ctr

open List Option Vfs

variable {B : Type}

abbrev Text := List UInt8

def ascii (s : String) : Text := s.toList.map fun c => UInt8.ofNat c.toNat

/-! ### The path of a request -/

/-- `snprintf` into a buffer of `cap` bytes. -/
def fit (cap : ℕ) (t : Path) : Path := t.take (cap - 1)

/-- `?` and `#` end the path. -/
def endsPath (c : UInt8) : Bool := c = 63 || c = 35

/-- The loop of `http_normalize_path`; `parts` are the names kept so far, the last one first. A name
of more than 63 bytes is cut into several. -/
def httpParts : ℕ → Path → List Path → Option (List Path)
  | 0, _, parts => some parts
  | fuel + 1, rest, parts =>
    if rest = [] ∨ 32 ≤ parts.length then some parts
    else
      let rest := rest.dropWhile (· = slash)
      if rest.head?.all endsPath then some parts
      else
        let part := (rest.takeWhile fun c => c ≠ slash && !endsPath c).take 63
        let rest := rest.drop part.length
        if part = [46] then httpParts fuel rest parts
        else if part = [46, 46] then
          match parts with
          | [] => none
          | _ :: parts => httpParts fuel rest parts
        else httpParts fuel rest (part :: parts)

def httpNormalizePath (raw : Path) : Option Path :=
  if raw.head? ≠ some slash then none
  else
    match httpParts (raw.length + 1) raw.tail [] with
    | none => none
    | some parts =>
      let out := renderNames parts.reverse
      if parts ≠ [] ∧ vfsPathMax ≤ out.length + 1 then none else some out

/-! ### Candidates -/

/-- A byte of a tag that is kept, or `_`. -/
def tagByte (c : UInt8) : UInt8 :=
  if 97 ≤ c ∧ c ≤ 122 ∨ 65 ≤ c ∧ c ≤ 90 ∨ 48 ≤ c ∧ c ≤ 57 ∨ c = 45 ∨ c = 95 then c else 95

/-- `ctr_sanitize_tag` into 64 bytes. -/
def ctrSanitizeTag (tag : Text) : Path :=
  let out := (tag.take 63).map tagByte
  if out = [] then [105] else out

/-- The root directory of the containers of an image. -/
def ctrImageRootfsPath (tag : Text) : Path :=
  fit vfsPathMax (ascii "/var/lib/peak-ctr/images/" ++ ctrSanitizeTag tag ++ ascii "/rootfs")

/-- The search for a name `..`. -/
def hasParent (path : Path) : Bool := (slashRuns [] path).any fun name => decide (name = [46, 46])

/-- The root directory without slashes at its end. -/
def stripSlashes (path : Path) : Path := path.take 1 ++ path.tail.rdropWhile (· = slash)

def pathUnderPrefix (path pre : Path) : Bool :=
  decide (path.take pre.length = pre) &&
    (decide (path.length = pre.length) || decide (path[pre.length]? = some slash))

def ctrPathUnderRootfs (rootfs path : Path) : Bool :=
  decide (rootfs.head? = some slash) && decide (path.head? = some slash) && !hasParent path &&
    pathUnderPrefix path (stripSlashes rootfs)

def ctrResolveRootfsCandidates (rootfs path : Path) : Option (List Path) :=
  if path ≠ [] ∧ path.head? ≠ some slash ∨ hasParent path then none
  else
    let candidates :=
      (if path = [slash] ∨ path = [] then
        [rootfs ++ ascii "/usr/share/nginx/html/index.html", rootfs ++ ascii "/index.html",
          rootfs ++ ascii "/html/index.html"]
      else
        [rootfs ++ path, rootfs ++ ascii "/usr/share/nginx/html" ++ path,
          rootfs ++ path ++
            ascii (if path.getLast? = some slash then "index.html" else "/index.html")]).map
        (fit vfsPathMax)
    if candidates.all (ctrPathUnderRootfs rootfs) then some candidates else none

/-! ### Files and directories -/

def vfsIsFile (path : Path) (s : State B) : Bool :=
  match vfsLookup path s with
  | none => false
  | some n => decide ((s.nodes n).type = some .file)

def vfsIsDir (path : Path) (s : State B) : Bool :=
  match vfsLookup path s with
  | none => false
  | some n => decide ((s.nodes n).type = some .dir)

/-- A line of `vfs_list`. -/
def listLine (n : Node) : Path :=
  n.name ++
    (if n.type = some .dir then [47] else if n.type = some .symlink then [64] else []) ++ [10]

def listLoop (s : State B) (outLen : ℕ) : ℕ → Option ℕ → Path → Path
  | 0, _, out => out
  | _, none, out => out
  | k + 1, some c, out =>
    if outLen ≤ out.length + (s.nodes c).name.length + 2 then out
    else listLoop s outLen k (s.sibling c) (out ++ listLine (s.nodes c))

def vfsList (path : Path) (outLen : ℕ) (s : State B) : Except PeakErr Path :=
  match vfsLookup path s with
  | none => .error .enotdir
  | some d =>
    if (s.nodes d).type ≠ some .dir then .error .enotdir
    else .ok (listLoop s outLen vfsMaxNodes (s.nodes d).child [])

def tryRead (api : BlobApi B) (path : Path) (cap : ℕ) (s : State B) : Option Text × State B :=
  if vfsIsFile path s then
    match vfsReadFile api path (cap - 1) s with
    | (.ok bytes, s) => (some bytes, s)
    | (.error _, s) => (none, s)
  else (none, s)

def readFirst (api : BlobApi B) (cap : ℕ) : List Path → State B → Option Text × State B
  | [], s => (none, s)
  | path :: paths, s =>
    match tryRead api path cap s with
    | (some body, s) => (some body, s)
    | (none, s) => readFirst api cap paths s

def resolveRootfsFile (api : BlobApi B) (rootfs path : Path) (cap : ℕ) (s : State B) :
    Option Text × State B :=
  match ctrResolveRootfsCandidates rootfs path with
  | none => (none, s)
  | some candidates => readFirst api cap candidates s

def ctrHttpBodyMax : ℕ := 24576

/-- `snprintf` behind what is already in the body. -/
def appendBody (body more : Text) : Text := body ++ more.take (ctrHttpBodyMax - body.length - 1)

/-- The lines of an index, from the text that `vfs_list` gives. -/
def indexLines (url : Path) : ℕ → Text → Text → Text
  | 0, _, body => body
  | fuel + 1, listing, body =>
    if listing = [] ∨ ctrHttpBodyMax ≤ body.length + 64 then body
    else
      let name := (listing.takeWhile (· ≠ 10)).take 63
      let rest := listing.drop name.length
      let rest := if rest.head? = some 10 then rest.tail else rest
      indexLines url fuel rest
        (if name = [] then body
        else appendBody body (ascii "<a href=\"" ++ (if url = [slash] then [] else url) ++
          (if url.getLast? = some slash then [] else [slash]) ++ name ++ ascii "\">" ++ name ++
          ascii "</a>\n"))

def ctrDirIndexListing (rootfs url : Path) (s : State B) : Option Text :=
  let dir := fit vfsPathMax (if url = [slash] ∨ url = [] then rootfs else rootfs ++ url)
  if !ctrPathUnderRootfs rootfs dir || !vfsIsDir dir s then none
  else
    match vfsList dir 2048 s with
    | .error _ => none
    | .ok listing =>
      let head := appendBody [] (ascii "<html><head><title>Index of " ++ url ++
        ascii "</title></head><body><h1>Index of " ++ url ++ ascii "</h1><pre>\n")
      some (appendBody (indexLines url (listing.length + 1) listing head)
        (ascii "</pre></body></html>\n"))

/-! ### Responses -/

/-- The body that `serve_http_conn` sends to a `GET` request, or to a `HEAD` request. `range` is
what `parse_content_range` makes of the request and the length of the file. -/
def serveHttpConn (api : BlobApi B) (rootfs raw : Path) (head : Bool)
    (range : ℕ → Option (ℕ × ℕ)) (s : State B) : Text :=
  match httpNormalizePath raw with
  | none => ascii "bad path\n"
  | some path =>
    let (file, s) := resolveRootfsFile api rootfs path ctrHttpBodyMax s
    match file <|> ctrDirIndexListing rootfs path s with
    | none => if head then [] else ascii "<html><body><h1>404</h1><p>not found</p></body></html>"
    | some body =>
      if head then []
      else
        match range body.length with
        | none => body
        | some (start, stop) => (body.drop start).take (stop - start + 1)

/-- The body that `ctr_http_get` returns for the path of its URL. -/
def ctrHttpGet (api : BlobApi B) (rootfs raw : Path) (cap : ℕ) (s : State B) : Text :=
  match httpNormalizePath raw with
  | none => fit cap (ascii "bad path")
  | some path =>
    match (resolveRootfsFile api rootfs path cap s).1 with
    | some body => body
    | none => fit cap (ascii "<html><body><h1>404</h1><p>" ++ path ++
        ascii " not found</p></body></html>")

/-! ### Agreement below a directory -/

/-- The children of a directory, in the order in which they are listed. -/
def entries (nodes : ℕ → Node) : ℕ → Option ℕ → List (Path × Option VfsType)
  | _, none => []
  | 0, some _ => []
  | k + 1, some c => ((nodes c).name, (nodes c).type) :: entries nodes k (nodes c).sibling

/-- What a node is and holds, apart from a blob. -/
structure View where
  type : Option VfsType
  size : ℕ
  bytes : Option (List UInt8)
  inBlob : Prop
  entries : List (Path × Option VfsType)

def view (s : State B) (i : ℕ) : View where
  type := (s.nodes i).type
  size := (s.nodes i).size
  bytes := (s.nodes i).data.map s.bufs
  inBlob := (s.nodes i).blobId ≠ 0
  entries := entries s.nodes vfsMaxNodes (s.nodes i).child

/-- Reading the two blobs gives the same bytes, and keeps `E`. -/
def SameReads (api : BlobApi B) (E : B → B → Prop) (id id' : ℕ) : Prop :=
  ∀ b b', E b b' → ∀ off len, (api.read id off len b).1 = (api.read id' off len b').1 ∧
    E (api.read id off len b).2 (api.read id' off len b').2

/-- The two states agree on every place at or below `R`, and none of these places is a symbolic
link. `E` says that the blobs of the files there agree: reads give the same bytes, now and after any
such reads. -/
structure Agrees (api : BlobApi B) (E : B → B → Prop) (R : List Path) (s s' : State B) : Prop where
  linked : ∃ kids, Linked s kids
  linked' : ∃ kids, Linked s' kids
  plain : ∀ rest c, walkNames s root (R ++ rest) = some c → (s.nodes c).type ≠ some .symlink
  views : ∀ rest, (walkNames s root (R ++ rest)).map (view s) =
    (walkNames s' root (R ++ rest)).map (view s')
  blobs : E s.blobs s'.blobs
  reads : ∀ rest f f', walkNames s root (R ++ rest) = some f →
    walkNames s' root (R ++ rest) = some f' →
      SameReads api E (s.nodes f).blobId (s'.nodes f').blobId

/-! ### Names -/

theorem tagByte_ne (c : UInt8) : tagByte c ≠ slash ∧ tagByte c ≠ 46 := by
  rw [tagByte]
  split
  next hc => refine ⟨?_, ?_⟩ <;> rintro rfl <;> exact absurd hc (by decide)
  · decide

/-- The path of a root directory is in normal form. -/
theorem rootfs_normal (tag : Text) :
    vfsNormalize (ctrImageRootfsPath tag) vfsPathMax = .ok (ctrImageRootfsPath tag) := by
  have hsafe : ctrSanitizeTag tag ≠ [] ∧ (ctrSanitizeTag tag).length < 64 ∧
      ∀ c ∈ ctrSanitizeTag tag, c ≠ slash ∧ c ≠ 46 := by
    rw [ctrSanitizeTag]
    split
    · refine ⟨cons_ne_nil _ _, by simp, fun c hc => ?_⟩
      rw [mem_singleton.1 hc]
      decide
    next hne =>
      refine ⟨hne, by simp, fun c hc => ?_⟩
      obtain ⟨b, -, rfl⟩ := List.mem_map.1 hc
      exact tagByte_ne b
  rw [ctrImageRootfsPath]
  generalize ctrSanitizeTag tag = safe at hsafe
  obtain ⟨hne, hlen, hbytes⟩ := hsafe
  have hnames : ascii "/var/lib/peak-ctr/images/" ++ safe ++ ascii "/rootfs" = renderNames
      [ascii "var", ascii "lib", ascii "peak-ctr", ascii "images", safe, ascii "rootfs"] := by rfl
  have hfits :
      (ascii "/var/lib/peak-ctr/images/" ++ safe ++ ascii "/rootfs").length < vfsPathMax := by
    simp only [length_append, show (ascii "/var/lib/peak-ctr/images/").length = 25 from rfl,
      show (ascii "/rootfs").length = 7 from rfl, vfsPathMax]
    omega
  rw [fit, take_of_length_le (by omega), hnames]
  refine vfsNormalize_renderNames ⟨by simp, ?_⟩ (by decide) (hnames ▸ hfits)
  simp only [forall_mem_cons]
  refine ⟨by decide, by decide, by decide, by decide,
    ⟨⟨hne, fun h => (hbytes _ h).1 rfl⟩, hlen, ?_, ?_⟩,
    by decide, by simp⟩ <;> rintro rfl <;> exact (hbytes 46 (by simp)).2 rfl

theorem stripSlashes_normal {rootfs : Path} (h : vfsNormalize rootfs vfsPathMax = .ok rootfs) :
    stripSlashes rootfs = rootfs := by
  obtain ⟨-, hhead, hleaf⟩ := vfsNormalize_spec h
  cases rootfs with
  | nil => cases hhead
  | cons c cs =>
    rw [stripSlashes, tail_cons, take_succ_cons, take_zero]
    rw [rdropWhile_eq_self_iff.2 fun hne => ?_]
    · rfl
    rcases hleaf with hroot | hleaf
    · injection hroot with _ hnil
      exact absurd hnil hne
    · rw [HasLeaf, getLast?_cons, getLast?_eq_some_getLast hne] at hleaf
      simpa using hleaf

theorem nameParts_under {path pre : Path} (hpre : pre ≠ []) (h : pathUnderPrefix path pre = true) :
    nameParts pre <+: nameParts path := by
  simp only [pathUnderPrefix, Bool.and_eq_true, Bool.or_eq_true, decide_eq_true_eq] at h
  obtain ⟨htake, hend⟩ := h
  obtain ⟨c, cs, rfl⟩ := exists_cons_of_ne_nil hpre
  cases path with
  | nil => simp at htake
  | cons d ds =>
    simp only [length_cons, take_succ_cons, List.cons.injEq] at htake
    obtain ⟨rfl, htake⟩ := htake
    simp only [nameParts, tail_cons]
    rcases hend with hlen | hslash
    · simp only [length_cons, add_right_cancel_iff] at hlen
      rw [← hlen, take_length] at htake
      subst htake
      exact prefix_rfl
    simp only [length_cons, getElem?_cons_succ] at hslash
    have hsplit : ds = cs ++ slash :: ds.drop (cs.length + 1) := by
      obtain ⟨hlt, hget⟩ := List.getElem?_eq_some_iff.1 hslash
      conv_lhs => rw [← take_append_drop cs.length ds, htake, drop_eq_getElem_cons hlt, hget]
    rw [hsplit, splitNames_append_slash]
    exact prefix_append _ _

/-- **A path under the root directory** has the names of the directory first, as it is and in normal
form. -/
theorem under_names {rootfs path : Path} (hR : vfsNormalize rootfs vfsPathMax = .ok rootfs)
    (h : ctrPathUnderRootfs rootfs path = true) :
    nameParts rootfs <+: nameParts path ∧ path.head? = some slash ∧
      ∀ work, vfsNormalize path vfsPathMax = .ok work →
        ∃ rest, CleanNames (nameParts rootfs ++ rest) ∧
          work = renderNames (nameParts rootfs ++ rest) := by
  obtain ⟨parts, -, hrender, hclean, -⟩ := vfsNormalize_names hR
  simp only [ctrPathUnderRootfs, Bool.and_eq_true, decide_eq_true_eq, Bool.not_eq_true',
    stripSlashes_normal hR] at h
  obtain ⟨⟨⟨hhead, hphead⟩, hdots⟩, hunder⟩ := h
  have hne : rootfs ≠ [] := by
    rintro rfl
    cases hhead
  refine ⟨nameParts_under hne hunder, hphead, fun work hwork => ?_⟩
  obtain ⟨parts', hloop, rfl, hclean', -⟩ := vfsNormalize_names hwork
  have hnames : nameParts rootfs = parts.reverse := by rw [hrender, nameParts_renderNames hclean]
  have hruns : slashRuns [] rootfs.tail = parts.reverse := by
    rw [hrender, slashRuns_renderNames hclean]
  -- the runs of the path are those of the directory and some more
  obtain ⟨more, hmore⟩ : ∃ more, slashRuns [] path.tail = parts.reverse ++ more := by
    simp only [pathUnderPrefix, Bool.and_eq_true, Bool.or_eq_true, decide_eq_true_eq] at hunder
    obtain ⟨htake, hend⟩ := hunder
    have hsplit : path = rootfs ++ path.drop rootfs.length := by
      conv_lhs => rw [← take_append_drop rootfs.length path, htake]
    have htail : path.tail = rootfs.tail ++ path.drop rootfs.length := by
      conv_lhs => rw [hsplit, tail_append_of_ne_nil hne]
    rcases hend with hlen | hslash
    · refine ⟨[], ?_⟩
      rw [htail, ← hlen, drop_length, append_nil, append_nil, hruns]
    obtain ⟨hlt, hget⟩ := List.getElem?_eq_some_iff.1 hslash
    refine ⟨slashRuns [] (path.drop (rootfs.length + 1)), ?_⟩
    rw [htail, drop_eq_getElem_cons hlt, hget, slashRuns_append_slash, hruns]
  have hdots' : [46, 46] ∉ more := by
    intro hmem
    cases path with
    | nil => cases hphead
    | cons c cs =>
      obtain rfl := some.inj hphead
      rw [hasParent, slashRuns, if_pos rfl, if_pos rfl, nil_append, List.any_eq_false] at hdots
      exact hdots [46, 46] (by rw [show slashRuns [] cs = _ from hmore]; simp [hmem]) (by decide)
  rw [hmore, normalizeLoop_append _ (by simpa using hclean.1) fun m hm => (hclean.2 m hm).2,
    reverse_reverse, append_nil] at hloop
  obtain ⟨rest, hrest⟩ := normalizeLoop_suffix hloop hdots'
  refine ⟨rest.reverse, ?_⟩
  rw [hnames, ← reverse_append, hrest]
  exact ⟨hclean', rfl⟩

/-! ### Resolving -/

section Agreement

variable {api : BlobApi B} {E : B → B → Prop} {R : List Path} {s s' : State B}

/-- The names as one turn after the other takes them. -/
def joined : List Path → Path
  | [] => []
  | n :: ns => n ++ ns.flatMap (slash :: ·)

theorem takePart_joined {n : Path} {ns : List Path} (hs : slash ∉ n)
    (hlen : n.length < vfsNameMax) :
    takePart (joined (n :: ns)) = (n, joined ns) := by
  have hpart : ((joined (n :: ns)).take (vfsNameMax - 1)).takeWhile (· ≠ slash) = n := by
    have hname : ∀ c ∈ n, decide (c ≠ slash) = true := fun c hc =>
      decide_eq_true fun e => hs (e ▸ hc)
    have hend : ∀ k, ((ns.flatMap (slash :: ·)).take k).takeWhile (· ≠ slash) = [] := by
      intro k
      cases k <;> cases ns <;> simp
    rw [joined, take_append, take_of_length_le (by omega),
      takeWhile_append_of_pos hname, hend, append_nil]
  rw [takePart, hpart, joined, drop_left]
  cases ns <;> simp [joined]

/-- The two states have nodes of the same kind there, and no link. -/
def SameKind (s s' : State B) (names : List Path) : Prop :=
  (walkNames s root names).map s.type = (walkNames s' root names).map s'.type ∧
    ∀ c, walkNames s root names = some c → s.type c ≠ some .symlink

def Along (s s' : State B) (names : List Path) : Prop :=
  ∀ before, before <+: names → SameKind s s' before

/-- What has something below it is a directory. -/
theorem walkNames_dir {names more : List Path} {name : Path} (h : ∃ kids, Linked s kids)
    (hbelow : walkNames s root (names ++ name :: more) ≠ none) :
    ∃ d, walkNames s root names = some d ∧ s.type d = some .dir := by
  obtain ⟨kids, hk⟩ := h
  rw [walkNames_append] at hbelow
  cases hd : walkNames s root names with
  | none => simp [hd] at hbelow
  | some d =>
    cases hfind : findChild s d name with
    | none => simp [hd, walkNames, hfind] at hbelow
    | some c => exact ⟨d, rfl, hk.dirs d (ne_nil_of_mem (hk.findChild_mem hfind).1)⟩

theorem Agrees.along (h : Agrees api E R s s') (hR : walkNames s root R ≠ none) (rest : List Path) :
    Along s s' (R ++ rest) := by
  intro before hbefore
  have hbelow : ∀ more, SameKind s s' (R ++ more) := fun more => by
    refine ⟨?_, h.plain more⟩
    have hviews := congrArg (Option.map View.type) (h.views more)
    rwa [Option.map_map, Option.map_map] at hviews
  rcases prefix_or_prefix_of_prefix hbefore (prefix_append R rest) with
    ⟨_ | ⟨name, more⟩, hup⟩ | ⟨more, rfl⟩
  · rw [append_nil] at hup
    simpa [hup] using hbelow []
  · have hR' : walkNames s' root R ≠ none := fun hnone => hR (by simpa [hnone] using h.views [])
    rw [← hup] at hR hR'
    obtain ⟨d, hd, hdir⟩ := walkNames_dir h.linked hR
    obtain ⟨d', hd', hdir'⟩ := walkNames_dir h.linked' hR'
    rw [SameKind, hd, hd', map_some, map_some, hdir, hdir']
    refine ⟨rfl, fun x hx => ?_⟩
    rw [← some.inj hx, hdir]
    decide
  · exact hbelow more

theorem resolveWalk_along (n : ℕ) (ns before : List Path) {cur cur' : ℕ}
    (linkPath : Path) (hcur : walkNames s root before = some cur)
    (hcur' : walkNames s' root before = some cur') (h : Along s s' (before ++ ns))
    (hns : ∀ m ∈ ns, (m ≠ [] ∧ slash ∉ m) ∧ m.length < vfsNameMax) :
    (resolveWalk s n cur linkPath (joined ns) = .done ∧
        resolveWalk s' n cur' linkPath (joined ns) = .done) ∨
      ∃ e msg, resolveWalk s n cur linkPath (joined ns) = .fail e msg ∧
        resolveWalk s' n cur' linkPath (joined ns) = .fail e msg := by
  induction n generalizing ns before cur cur' linkPath with
  | zero => exact .inl ⟨rfl, rfl⟩
  | succ n ih =>
    cases ns with
    | nil => exact .inl ⟨rfl, rfl⟩
    | cons m ns =>
      obtain ⟨⟨hm, hslash⟩, hlen⟩ := hns m (by simp)
      have hrest : joined (m :: ns) ≠ [] := by simp [joined, hm]
      simp only [resolveWalk, if_neg hrest, takePart_joined hslash hlen, if_neg hm]
      cases pathJoin1 linkPath m vfsPathMax with
      | error e => exact .inr ⟨e, none, rfl, rfl⟩
      | ok linkPath =>
        obtain ⟨hkind, hlink⟩ := h (before ++ [m]) ⟨ns, by simp⟩
        have hstep : walkNames s root (before ++ [m]) = findChild s cur m := by
          rw [walkNames_concat, hcur, bind_some]
        have hstep' : walkNames s' root (before ++ [m]) = findChild s' cur' m := by
          rw [walkNames_concat, hcur', bind_some]
        rw [hstep, hstep'] at hkind
        rcases hc : findChild s cur m with _ | c <;>
          rcases hc' : findChild s' cur' m with _ | c' <;>
          rw [hc, hc'] at hkind
        · exact .inr ⟨_, _, rfl, rfl⟩
        · cases hkind
        · cases hkind
        · have htype : (s.nodes c).type = (s'.nodes c').type := some.inj hkind
          have hplain : (s.nodes c).type ≠ some .symlink := hlink c (hstep.trans hc)
          rw [htype] at hplain
          simp only [htype, if_neg hplain]
          split
          · exact .inr ⟨_, _, rfl, rfl⟩
          · exact ih ns _ linkPath (hstep.trans hc) (hstep'.trans hc') (by simpa using h)
              fun x hx => hns x (by simp [hx])

/-- Resolving gives the same answer in both states, and no other path than the normal form. -/
theorem pathForIo_agrees {rootfs path : Path} (hR : vfsNormalize rootfs vfsPathMax = .ok rootfs)
    (hunder : ctrPathUnderRootfs rootfs path = true)
    (h : ∀ rest, Along s s' (nameParts rootfs ++ rest)) :
    (∃ e, (pathForIo path s).1 = .error e ∧ (pathForIo path s').1 = .error e) ∨
      ∃ work rest, (pathForIo path s).1 = .ok work ∧ (pathForIo path s').1 = .ok work ∧
        nameParts work = nameParts rootfs ++ rest ∧ work.head? = some slash := by
  obtain ⟨-, -, hnormal⟩ := under_names hR hunder
  rw [pathForIo, pathForIo, vfsResolve, vfsResolve]
  cases hwork : vfsNormalize path vfsPathMax with
  | error e => cases e <;> exact .inl ⟨_, rfl, rfl⟩
  | ok work =>
    obtain ⟨rest, hclean, rfl⟩ := hnormal work hwork
    have htail : (renderNames (nameParts rootfs ++ rest)).tail =
        joined (nameParts rootfs ++ rest) := by
      cases nameParts rootfs ++ rest with
      | nil => rfl
      | cons m ns => simp [renderNames, joined]
    have hnames := nameParts_renderNames hclean
    have hhead := head_renderNames (nameParts rootfs ++ rest)
    have hwalk := resolveWalk_along ((renderNames (nameParts rootfs ++ rest)).length + 1)
      (nameParts rootfs ++ rest) [] [slash] rfl rfl (h rest)
      fun m hm => ⟨(hclean.2 m hm).1, (hclean.2 m hm).2.1⟩
    rw [← htail] at hwalk
    dsimp only
    rw [resolveLoop, resolveLoop]
    rcases hwalk with ⟨hs, hs'⟩ | ⟨e, msg, hs, hs'⟩ <;> rw [hs, hs']
    · exact .inr ⟨_, rest, rfl, rfl, hnames, hhead⟩
    · cases msg <;> cases e <;>
        first
        | exact .inl ⟨_, rfl, rfl⟩
        | exact .inr ⟨_, rest, rfl, rfl, hnames, hhead⟩

/-! ### Reading -/

/-- What reading changes in a state. -/
def Touched (s t : State B) : Prop :=
  ∃ e b heapFault, t = { s with err := e, blobs := b, heapFault := heapFault }

theorem Agrees.touched (h : Agrees api E R s s') {t t' : State B} (ht : Touched s t)
    (ht' : Touched s' t') (hE : E t.blobs t'.blobs) : Agrees api E R t t' := by
  have hwalk : ∀ {s t : State B}, Touched s t →
      SameTree s t ∧ ∀ names, walkNames t root names = walkNames s root names := by
    rintro s _ ⟨e, b, f, rfl⟩
    exact ⟨sameTree_of_nodes rfl rfl rfl rfl, fun names =>
      walkNames_congr (s := s) (t := { s with err := e, blobs := b, heapFault := f })
        rfl rfl rfl rfl root names⟩
  obtain ⟨htree, hw⟩ := hwalk ht
  obtain ⟨htree', hw'⟩ := hwalk ht'
  obtain ⟨e, b, f, rfl⟩ := ht
  obtain ⟨e', b', f', rfl⟩ := ht'
  refine ⟨h.linked.imp fun _ hk => hk.congr htree,
    h.linked'.imp fun _ hk => hk.congr htree', ?_, ?_, hE, ?_⟩ <;> simp only [hw, hw']
  · exact h.plain
  · exact h.views
  · exact h.reads

/-- Looking up a path with the names of the root directory first. -/
theorem Agrees.lookup (h : Agrees api E R s s') {path : Path} {rest : List Path}
    (hnames : nameParts path = R ++ rest) (hhead : path.head? = some slash) :
    (vfsLookup path s = none ∧ vfsLookup path s' = none) ∨
      ∃ f f', vfsLookup path s = some f ∧ vfsLookup path s' = some f' ∧ view s f = view s' f' ∧
        SameReads api E (s.nodes f).blobId (s'.nodes f').blobId := by
  have hviews := h.views rest
  have hreads := h.reads rest
  rw [vfsLookup, vfsLookup, if_neg (not_not.2 hhead), if_neg (not_not.2 hhead), hnames]
  rcases hf : walkNames s root (R ++ rest) with _ | f <;>
    rcases hf' : walkNames s' root (R ++ rest) with _ | f' <;> rw [hf, hf'] at hviews
  · exact .inl ⟨rfl, rfl⟩
  · cases hviews
  · cases hviews
  · exact .inr ⟨f, f', rfl, rfl, some.inj hviews, hreads f f' hf hf'⟩

/-- Two calls give the same value, in states that agree again. -/
structure Alike (api : BlobApi B) (E : B → B → Prop) (R : List Path) {α : Type}
    (r r' : α × State B) : Prop where
  value : r.1 = r'.1
  state : Agrees api E R r.2 r'.2

theorem readNode_alike (h : Agrees api E R s s') {f f' : ℕ} (hview : view s f = view s' f')
    (hreads : SameReads api E (s.nodes f).blobId (s'.nodes f').blobId) (off len : ℕ) :
    Alike api E R (readNode api f off len s) (readNode api f' off len s') := by
  have hsize : (s.nodes f).size = (s'.nodes f').size := congrArg View.size hview
  have hblob : ((s.nodes f).blobId ≠ 0) = ((s'.nodes f').blobId ≠ 0) := congrArg View.inBlob hview
  have hbytes : (s.nodes f).data.map s.bufs = (s'.nodes f').data.map s'.bufs :=
    congrArg View.bytes hview
  simp only [readNode, hsize, hblob]
  split
  · exact ⟨rfl, h⟩
  generalize (if (s'.nodes f').size < (off + len) % 2 ^ 64 then (s'.nodes f').size - off
    else len) = n
  split
  · obtain ⟨hval, hE⟩ := hreads _ _ h.blobs off n
    generalize api.read (s.nodes f).blobId off n s.blobs = r at hval hE ⊢
    generalize api.read (s'.nodes f').blobId off n s'.blobs = r' at hval hE ⊢
    rcases r with ⟨_ | bytes, b⟩ <;> obtain ⟨_, b'⟩ := r' <;> cases hval <;>
      exact ⟨rfl, h.touched ⟨_, _, _, rfl⟩ ⟨_, _, _, rfl⟩ hE⟩
  rcases hd : (s.nodes f).data with _ | buf <;>
    rcases hd' : (s'.nodes f').data with _ | buf' <;> rw [hd, hd'] at hbytes <;> dsimp only
  · split <;> exact ⟨rfl, h⟩
  · cases hbytes
  · cases hbytes
  · rw [show s.bufs buf = s'.bufs buf' from some.inj hbytes]
    exact ⟨rfl, h.touched ⟨_, _, _, rfl⟩ ⟨_, _, _, rfl⟩ h.blobs⟩

section Rootfs

variable {rootfs path : Path} (hR : vfsNormalize rootfs vfsPathMax = .ok rootfs)
  (h : Agrees api E (nameParts rootfs) s s')

include hR h

theorem vfsReadFile_alike (hroot : walkNames s root (nameParts rootfs) ≠ none)
    (hunder : ctrPathUnderRootfs rootfs path = true) (len : ℕ) :
    Alike api E (nameParts rootfs) (vfsReadFile api path len s) (vfsReadFile api path len s') := by
  obtain ⟨e, he⟩ := pathForIo_state path s
  obtain ⟨e', he'⟩ := pathForIo_state path s'
  have hio := pathForIo_agrees hR hunder (h.along hroot)
  have hthen : Agrees api E (nameParts rootfs) (pathForIo path s).2 (pathForIo path s').2 :=
    h.touched ⟨e, _, _, he⟩ ⟨e', _, _, he'⟩ (by rw [he, he']; exact h.blobs)
  rw [vfsReadFile, vfsReadFile, vfsReadAt, vfsReadAt]
  generalize pathForIo path s = r at hio hthen ⊢
  generalize pathForIo path s' = r' at hio hthen ⊢
  obtain ⟨_, t⟩ := r
  obtain ⟨_, t'⟩ := r'
  rcases hio with ⟨e, hr, hr'⟩ | ⟨work, rest, hr, hr', hnames, hhead⟩ <;> cases hr <;> cases hr'
  · exact ⟨rfl, hthen⟩
  · rcases hthen.lookup hnames hhead with ⟨hf, hf'⟩ | ⟨f, f', hf, hf', hview, hreads⟩
    · simp only [hf, hf']
      exact ⟨rfl, hthen⟩
    have htype : (t.nodes f).type = (t'.nodes f').type := congrArg View.type hview
    simp only [hf, hf', htype]
    split
    · exact ⟨rfl, hthen⟩
    · exact readNode_alike hthen hview hreads 0 len

theorem tryRead_alike (hunder : ctrPathUnderRootfs rootfs path = true) (cap : ℕ) :
    Alike api E (nameParts rootfs) (tryRead api path cap s) (tryRead api path cap s') := by
  obtain ⟨⟨rest, hnames⟩, hhead, -⟩ := under_names hR hunder
  rcases h.lookup hnames.symm hhead with ⟨hf, hf'⟩ | ⟨f, f', hf, hf', hview, -⟩
  · simp only [tryRead, vfsIsFile, hf, hf']
    exact ⟨rfl, h⟩
  have htype : (s.nodes f).type = (s'.nodes f').type := congrArg View.type hview
  have hroot : walkNames s root (nameParts rootfs) ≠ none := by
    intro hnone
    rw [vfsLookup, if_neg (not_not.2 hhead), ← hnames, walkNames_append, hnone] at hf
    cases hf
  obtain ⟨hval, hthen⟩ := vfsReadFile_alike hR h hroot hunder (cap - 1)
  simp only [tryRead, vfsIsFile, hf, hf', htype]
  generalize vfsReadFile api path (cap - 1) s = r at hval hthen ⊢
  generalize vfsReadFile api path (cap - 1) s' = r' at hval hthen ⊢
  split
  · rcases r with ⟨_ | bytes, t⟩ <;> obtain ⟨_, t'⟩ := r' <;> cases hval <;> exact ⟨rfl, hthen⟩
  · exact ⟨rfl, h⟩

omit h in
theorem readFirst_alike (cap : ℕ) (paths : List Path)
    (hunder : ∀ path ∈ paths, ctrPathUnderRootfs rootfs path = true) :
    ∀ {s s' : State B}, Agrees api E (nameParts rootfs) s s' → Alike api E (nameParts rootfs)
      (readFirst api cap paths s) (readFirst api cap paths s') := by
  induction paths with
  | nil => exact fun h => ⟨rfl, h⟩
  | cons path paths ih =>
    intro s s' h
    obtain ⟨hval, hthen⟩ := tryRead_alike hR h (hunder path (by simp)) cap
    rw [readFirst, readFirst]
    generalize tryRead api path cap s = r at hval hthen ⊢
    generalize tryRead api path cap s' = r' at hval hthen ⊢
    rcases r with ⟨_ | body, t⟩ <;> obtain ⟨_, t'⟩ := r' <;> cases hval
    · exact ih (fun p hp => hunder p (by simp [hp])) hthen
    · exact ⟨rfl, hthen⟩

theorem resolveRootfsFile_alike (path : Path) (cap : ℕ) :
    Alike api E (nameParts rootfs) (resolveRootfsFile api rootfs path cap s)
      (resolveRootfsFile api rootfs path cap s') := by
  rw [resolveRootfsFile, resolveRootfsFile]
  cases hc : ctrResolveRootfsCandidates rootfs path with
  | none => exact ⟨rfl, h⟩
  | some candidates =>
    refine readFirst_alike hR cap candidates ?_ h
    rw [ctrResolveRootfsCandidates, ite_none_left_eq_some, ite_none_right_eq_some] at hc
    obtain ⟨-, hall, hc⟩ := hc
    rw [← some.inj hc]
    exact List.all_eq_true.1 hall

omit hR h in
theorem listLoop_congr (n : ℕ) : ∀ (k : ℕ) {c c' : Option ℕ} (out : Path),
    entries s.nodes k c = entries s'.nodes k c' →
      listLoop s n k c out = listLoop s' n k c' out := by
  intro k
  induction k with
  | zero => exact fun _ _ => rfl
  | succ k ih =>
    intro c c' out h
    rcases c with _ | c <;> rcases c' with _ | c'
    · rfl
    · cases h
    · cases h
    · rw [entries, entries, List.cons.injEq, Prod.mk.injEq] at h
      obtain ⟨⟨hname, htype⟩, hrest⟩ := h
      rw [listLoop, listLoop, listLine, listLine, hname, htype]
      split
      · rfl
      · exact ih _ hrest

theorem ctrDirIndexListing_agrees (url : Path) :
    ctrDirIndexListing rootfs url s = ctrDirIndexListing rootfs url s' := by
  rw [ctrDirIndexListing, ctrDirIndexListing]
  generalize fit vfsPathMax (if url = [slash] ∨ url = [] then rootfs else rootfs ++ url) = dir
  cases hunder : ctrPathUnderRootfs rootfs dir with
  | false => rfl
  | true =>
    obtain ⟨⟨rest, hnames⟩, hhead, -⟩ := under_names hR hunder
    rcases h.lookup hnames.symm hhead with ⟨hf, hf'⟩ | ⟨f, f', hf, hf', hview, -⟩
    · simp only [vfsIsDir, hf, hf']
      rfl
    have htype : (s.nodes f).type = (s'.nodes f').type := congrArg View.type hview
    have hlist : listLoop s 2048 vfsMaxNodes (s.nodes f).child [] =
        listLoop s' 2048 vfsMaxNodes (s'.nodes f').child [] :=
      listLoop_congr 2048 vfsMaxNodes [] (congrArg View.entries hview)
    simp only [vfsIsDir, vfsList, hf, hf', htype, hlist]

end Rootfs

/-- **The server shows nothing outside the root directory**: two states that agree there give the
same body for every path of a request, and so does the client. -/
theorem http_confined (tag raw : Path)
    (h : Agrees api E (nameParts (ctrImageRootfsPath tag)) s s') :
    (∀ head range, serveHttpConn api (ctrImageRootfsPath tag) raw head range s =
        serveHttpConn api (ctrImageRootfsPath tag) raw head range s') ∧
      ∀ cap, ctrHttpGet api (ctrImageRootfsPath tag) raw cap s =
        ctrHttpGet api (ctrImageRootfsPath tag) raw cap s' := by
  have hR := rootfs_normal tag
  refine ⟨fun head range => ?_, fun cap => ?_⟩
  · rw [serveHttpConn, serveHttpConn]
    cases httpNormalizePath raw with
    | none => rfl
    | some path =>
      obtain ⟨hfile, hthen⟩ := resolveRootfsFile_alike hR h path ctrHttpBodyMax
      simp only [hfile, ctrDirIndexListing_agrees hR hthen]
  rw [ctrHttpGet, ctrHttpGet]
  cases httpNormalizePath raw with
  | none => rfl
  | some path => simp only [(resolveRootfsFile_alike hR h path cap).1]

end Agreement

/-- A directory that holds one file and nothing else. -/
theorem walkNames_oneFile {s : State B} {kids : ℕ → List ℕ} (h : Linked s kids) {d c : ℕ}
    (hchild : s.child d = some c) (hlast : s.sibling c = none) (hleaf : s.child c = none)
    (names : List Path) :
    walkNames s d names =
      if names = [] then some d else if names = [s.name c] then some c else none := by
  have hd : kids d = [c] := (h.forest.chain d).unique ⟨hchild, hlast⟩
  have hc : kids c = [] := h.child_eq_none_iff.1 hleaf
  rcases names with _ | ⟨name, more⟩
  · rfl
  rw [walkNames, h.findChild_eq, hd, find?_singleton]
  rcases more with _ | ⟨name', more⟩ <;> by_cases hname : s.name c = name
  · simp [hname, walkNames]
  · simp [hname, Ne.symm hname]
  · simp [hname, walkNames, h.findChild_eq, hc]
  · simp [hname]

/-- A root directory with the file `/i`, and the same with a file outside it. -/
def oneFile : State Unit :=
  [.mkdir (ctrImageRootfsPath [97]),
    .writeFile (ctrImageRootfsPath [97] ++ [slash, 105]) [120]].foldl
      (State.step noBlobstore) (vfsInit (fun _ => false) ())

def fileOutside : State Unit := oneFile.step noBlobstore (.writeFile [slash, 115] [121])

theorem http_confined_oneFile :
    ctrHttpGet noBlobstore (ctrImageRootfsPath [97]) (ascii "/i") 64 oneFile = [120] ∧
      ctrHttpGet noBlobstore (ctrImageRootfsPath [97]) (ascii "/i") 64 oneFile =
        ctrHttpGet noBlobstore (ctrImageRootfsPath [97]) (ascii "/i") 64 fileOutside := by
  have hserved : ctrHttpGet noBlobstore (ctrImageRootfsPath [97]) (ascii "/i") 64 oneFile =
      [120] := by decide +kernel
  have hsane : Sane oneFile := by
    rw [oneFile, foldl_cons, foldl_cons, foldl_nil]
    exact ((sane_vfsInit _ ()).step noBlobstore _).step noBlobstore _
  have hsane' : Sane fileOutside := hsane.step noBlobstore _
  have hwalk : walkNames oneFile root (nameParts (ctrImageRootfsPath [97])) = some 6 ∧
      walkNames fileOutside root (nameParts (ctrImageRootfsPath [97])) = some 6 := by decide +kernel
  have hlinks : (oneFile.child 6 = some 7 ∧ oneFile.sibling 7 = none ∧ oneFile.child 7 = none) ∧
      fileOutside.child 6 = some 7 ∧ fileOutside.sibling 7 = none ∧ fileOutside.child 7 = none ∧
      fileOutside.name 7 = oneFile.name 7 := by decide +kernel
  have hdir : (oneFile.nodes 6).type ≠ some .symlink ∧ (oneFile.nodes 7).type ≠ some .symlink := by
    decide +kernel
  have hview : ∀ i ∈ [6, 7], view oneFile i = view fileOutside i := by
    have hsame : ∀ i ∈ [6, 7], (oneFile.nodes i).type = (fileOutside.nodes i).type ∧
        (oneFile.nodes i).size = (fileOutside.nodes i).size ∧
        (oneFile.nodes i).data.map oneFile.bufs = (fileOutside.nodes i).data.map fileOutside.bufs ∧
        (oneFile.nodes i).blobId = (fileOutside.nodes i).blobId ∧
        entries oneFile.nodes vfsMaxNodes (oneFile.nodes i).child =
          entries fileOutside.nodes vfsMaxNodes (fileOutside.nodes i).child := by decide +kernel
    intro i hi
    obtain ⟨htype, hsize, hdata, hblob, hentries⟩ := hsame i hi
    rw [view, view, htype, hsize, hdata, hblob, hentries]
  generalize oneFile = s at *
  generalize fileOutside = s' at *
  obtain ⟨⟨kids, hk⟩, -⟩ := hsane
  obtain ⟨⟨kids', hk'⟩, -⟩ := hsane'
  obtain ⟨⟨h6, hlast, h7⟩, h6', hlast', h7', hname⟩ := hlinks
  refine ⟨hserved,
    (http_confined (E := Eq) [97] _ ⟨⟨kids, hk⟩, ⟨kids', hk'⟩, ?_, ?_, rfl, ?_⟩).2 64⟩
  · intro rest c hc
    rw [walkNames_append, hwalk.1, bind_some, walkNames_oneFile hk h6 hlast h7] at hc
    split_ifs at hc <;> rw [← some.inj hc]
    exacts [hdir.1, hdir.2]
  · intro rest
    rw [walkNames_append, walkNames_append, hwalk.1, hwalk.2, bind_some, bind_some,
      walkNames_oneFile hk h6 hlast h7, walkNames_oneFile hk' h6' hlast' h7', hname]
    split_ifs <;> simp [hview 6, hview 7]
  · rintro rest f f' - - b _ rfl off len
    exact ⟨rfl, rfl⟩

end PeakOs.Ctr
