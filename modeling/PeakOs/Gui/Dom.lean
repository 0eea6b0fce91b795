import PeakOs.Lib.Orchard

/-!
# The document tree

`gui/dom_core.c` and `gui/dom_parse.c`. Nodes live in a table of `domMaxNodes` entries and link to
each other by index; `none` is the index `-1`. Texts and attributes are left out, since no link
depends on them. A negative id given by a caller is like one past the table: `dom_node` refuses
both.
-/

namespace PeakOs.Dom

def domMaxNodes : ℕ := 768

structure Node where
  used : Bool := false
  /-- `DOM_TEXT`; else an element. -/
  isText : Bool := false
  tag : List Char := []
  parent : Option ℕ := none
  firstChild : Option ℕ := none
  nextSibling : Option ℕ := none
  deriving DecidableEq

structure Doc where
  nodes : ℕ → Node
  nnodes : ℕ

/-- `dom_doc_init`, `dom_doc_clear`. -/
def Doc.empty : Doc := ⟨fun _ => {}, 0⟩

/-- `dom_node`. -/
def Doc.node? (d : Doc) (id : ℕ) : Option Node :=
  if id < d.nnodes ∧ (d.nodes id).used then some (d.nodes id) else none

def Doc.modify (d : Doc) (id : ℕ) (f : Node → Node) : Doc :=
  { d with nodes := Function.update d.nodes id (f (d.nodes id)) }

def Doc.setChild (d : Doc) (id : ℕ) (x : Option ℕ) : Doc :=
  d.modify id fun n => { n with firstChild := x }

def Doc.setSibling (d : Doc) (id : ℕ) (x : Option ℕ) : Doc :=
  d.modify id fun n => { n with nextSibling := x }

/-- A new parent and no next sibling. -/
def Doc.setPlace (d : Doc) (id : ℕ) (x : Option ℕ) : Doc :=
  d.modify id fun n => { n with parent := x, nextSibling := none }

/-! The links of the nodes in use. -/

def Doc.child (d : Doc) (id : ℕ) : Option ℕ := (d.node? id).bind (·.firstChild)

def Doc.sibling (d : Doc) (id : ℕ) : Option ℕ := (d.node? id).bind (·.nextSibling)

def Doc.parent (d : Doc) (id : ℕ) : Option ℕ := (d.node? id).bind (·.parent)

/-! ### Nodes -/

/-- The sibling loop of `dom_unlink_from_parent` ends at a node that is its own sibling. -/
def Doc.stepSibling (d : Doc) (s : ℕ) : Option ℕ :=
  if d.sibling s = some s then none else d.sibling s

def Doc.stepParent (d : Doc) (p : ℕ) : Option ℕ :=
  if d.parent p = some p then none else d.parent p

def domNextSibling (d : Doc) (id : ℕ) : Option ℕ :=
  if d.sibling id = some id then none
  else (d.sibling id).filter fun next => (d.node? next).isSome

/-- Take `child`, whose next sibling is `next`, off the child list of `q`. -/
def takeOff (d : Doc) (q child : ℕ) (next : Option ℕ) : Doc :=
  match d.node? q with
  | none => d
  | some p =>
    if p.firstChild = some child then d.setChild q next
    else
      match firstOnChain d.stepSibling (fun s => d.sibling s = some child) d.nnodes
          p.firstChild with
      | none => d
      | some s => d.setSibling s next

def unlinkFromParent (d : Doc) (child : ℕ) : Doc :=
  match d.node? child with
  | none => d
  | some c =>
    match c.parent with
    | none => d
    | some q => (takeOff d q child c.nextSibling).setPlace child none

def isAncestorOf (d : Doc) (anc node : ℕ) : Bool :=
  (firstOnChain d.stepParent (· = anc) d.nnodes (some node)).isSome

/-- `alloc_node`, with the type and the tag its callers set. -/
def allocNode (d : Doc) (isText : Bool) (tag : List Char) : Doc × Option ℕ :=
  if domMaxNodes ≤ d.nnodes then (d, none)
  else
    (⟨Function.update d.nodes d.nnodes { used := true, isText := isText, tag := tag },
      d.nnodes + 1⟩, some d.nnodes)

def domCreateElement (d : Doc) (tag : List Char) : Doc × Option ℕ :=
  allocNode d false ((tag.take 31).map Char.toLower)

def domCreateText (d : Doc) : Doc × Option ℕ := allocNode d true []

/-- Link `child`, which has no parent, after the last child of `parent`. When no end of the child
list is found, it keeps its new parent although it is on no list. -/
def linkLast (d : Doc) (parent child : ℕ) : Doc × Bool :=
  let d := d.setPlace child (some parent)
  match d.child parent with
  | none => (d.setChild parent (some child), true)
  | some a =>
    match firstOnChain (domNextSibling d) (fun s => (d.node? s).isSome && d.sibling s = none)
        d.nnodes (some a) with
    | none => (d, false)
    | some s => (d.setSibling s (some child), true)

/-- The document after the call, and whether it returned `0`. -/
def domAppendChild (d : Doc) (parent child : ℕ) : Doc × Bool :=
  match d.node? parent, d.node? child with
  | some p, some c =>
    if p.isText ∨ parent = child ∨ isAncestorOf d child parent then (d, false)
    else if c.parent = some parent ∧
        (firstOnChain (domNextSibling d) (· = child) d.nnodes p.firstChild).isSome then (d, true)
    else linkLast (unlinkFromParent d child) parent child
  | _, _ => (d, false)

/-- A new text node at the end of the children of `id`. -/
def appendText (d : Doc) (id : ℕ) : Doc :=
  match domCreateText d with
  | (d', some t) => (domAppendChild d' id t).1
  | (d', none) => d'

def domSetText (d : Doc) (id : ℕ) : Doc :=
  match d.node? id with
  | none => d
  | some n =>
    if n.isText then d
    else appendText (d.setChild id none) id

/-- `mark_subtree_unused`; the depth of the recursion is bounded by the first argument. -/
def markSubtreeUnused : ℕ → Doc → Option ℕ → Doc
  | 0, d, _ => d
  | _, d, none => d
  | fuel + 1, d, some id =>
    match d.node? id with
    | none => d
    | some n =>
      markSubtreeUnused fuel
        (markSubtreeUnused fuel
          (d.modify id fun n => { n with
            used := false, firstChild := none, nextSibling := none, parent := none })
          n.firstChild)
        n.nextSibling

def domSetInnerHtml (d : Doc) (id : ℕ) (html : List Char) : Doc :=
  match d.node? id with
  | none => d
  | some n =>
    if n.isText then d
    else
      let d' := markSubtreeUnused (domMaxNodes + 1) (d.setChild id none) n.firstChild
      if html = [] then d' else appendText d' id

/-! ### The tokens of a page

What `dom_parse_html` reads, as the list of what it does with the nodes: comments, scripts, styles
and titles only move the reading position. -/

inductive Token
  | text
  | close (tag : List Char)
  | element (tag : List Char) (self : Bool)
  deriving DecidableEq

def isWs (c : Char) : Bool := c = ' ' || c = '\t' || c = '\n' || c = '\r'

def skipWs (s : List Char) : List Char := s.dropWhile isWs

def skipGt (s : List Char) : List Char := (s.dropWhile (· ≠ '>')).drop 1

/-- The single and the double quote. -/
def isQuote (c : Char) : Bool := c.toNat = 39 || c.toNat = 34

/-- The end of a name in a tag. -/
def isEnd (c : Char) : Bool := c = ' ' || c = '>' || c = '/'

/-- At most `n` characters, as long as `p` holds. -/
def dropUpTo (p : Char → Bool) : ℕ → List Char → List Char
  | n + 1, c :: s => if p c then dropUpTo p n s else c :: s
  | _, s => s

def skipValue (s : List Char) : List Char :=
  match skipWs s with
  | [] => []
  | q :: r =>
    if isQuote q then (r.dropWhile (· ≠ q)).drop 1 else (q :: r).dropWhile fun c => !isEnd c

/-- `parse_attrs`: the position after the attributes. -/
def skipAttrs : ℕ → List Char → List Char
  | 0, s => s
  | fuel + 1, s =>
    if s.head?.all fun c => c = '>' || c = '/' then s
    else
      let s := skipWs s
      if s.head?.all fun c => c = '>' || c = '/' then s
      else
        match skipWs (s.dropWhile fun c => !isEnd c && c ≠ '=') with
        | '=' :: r => skipAttrs fuel (skipValue r)
        | r => skipAttrs fuel r

/-- The rest of a script's tag after its attributes, where `src=` takes a value. -/
def skipScriptTag : ℕ → List Char → List Char
  | 0, s => s
  | _, [] => []
  | fuel + 1, c :: s =>
    if c = '>' then s
    else if ((c :: s).take 4).map Char.toLower = ['s', 'r', 'c', '='] then
      match s.drop 3 with
      | [] => []
      | q :: r =>
        if isQuote q then
          match dropUpTo (· ≠ q) 159 r with
          | [] => []
          | x :: r => skipScriptTag fuel (if x = q then r else x :: r)
        else skipScriptTag fuel (dropUpTo (fun c => c ≠ ' ' && c ≠ '>') 159 (q :: r))
    else skipScriptTag fuel s

def atCloseTag (s tag : List Char) : Bool :=
  match s with
  | '<' :: '/' :: r =>
    (r.take tag.length).map Char.toLower = tag &&
      (r.drop tag.length).head?.any fun c => isWs c || c = '>' || c = '/'
  | _ => false

def skipRawUntilClose (tag : List Char) : List Char → List Char
  | [] => []
  | c :: s => if atCloseTag (c :: s) tag then skipGt (c :: s) else skipRawUntilClose tag s

def entities : List (String × ℕ) :=
  [("amp;", 38), ("lt;", 60), ("gt;", 62), ("quot;", 34), ("apos;", 39), ("nbsp;", 32),
    ("mdash;", 45), ("ndash;", 45), ("hellip;", 46), ("rsquo;", 39), ("lsquo;", 39), ("ldquo;", 34),
    ("rdquo;", 34), ("raquo;", 62), ("laquo;", 60), ("bull;", 42), ("middot;", 42), ("copy;", 99),
    ("trade;", 116), ("reg;", 114), ("amp", 38)]

def digit? (hex : Bool) (c : Char) : Option ℕ :=
  if '0' ≤ c ∧ c ≤ '9' then some (c.toNat - 48)
  else if hex ∧ 'a' ≤ c ∧ c ≤ 'f' then some (c.toNat - 87)
  else if hex ∧ 'A' ≤ c ∧ c ≤ 'F' then some (c.toNat - 55)
  else none

/-- Up to `n` digits: the value, whether there was one, and the rest. -/
def digits (hex : Bool) : ℕ → ℕ → Bool → List Char → ℕ × Bool × List Char
  | n + 1, v, any, c :: s =>
    match digit? hex c with
    | some k => digits hex n (v * (if hex then 16 else 10) + k) true s
    | none => (v, any, c :: s)
  | _, v, any, s => (v, any, s)

/-- `decode_entity` after the ampersand. -/
def decodeEntity (s : List Char) : Option (Char × List Char) :=
  match entities.find? fun e => e.1.toList.isPrefixOf s with
  | some (name, c) => some (Char.ofNat c, s.drop name.length)
  | none =>
    match s with
    | '#' :: r =>
      let hex := r.head?.any fun c => c = 'x' || c = 'X'
      match digits hex 7 0 false (if hex then r.tail else r) with
      | (_, false, _) => none
      | (v, true, r) =>
        let c := if v = 160 then 32 else v
        some (Char.ofNat (if 32 ≤ c ∧ c < 127 then c else 63),
          if r.head? = some ';' then r.tail else r)
    | _ => none

/-- One run of text: how many characters are kept, and the rest. `blank` says that the last kept
character is a space or that there is none. -/
def textRun : ℕ → ℕ → Bool → List Char → ℕ × List Char
  | 0, ti, _, s => (ti, s)
  | _, ti, _, [] => (ti, [])
  | fuel + 1, ti, blank, c :: s =>
    if c = '<' ∨ 200 ≤ ti + 1 then (ti, c :: s)
    else
      let (c, s) := if c = '&' then (decodeEntity s).getD (c, s) else (c, s)
      if isWs c then
        if blank then textRun fuel ti true s else textRun fuel (ti + 1) true s
      else textRun fuel (ti + 1) false s

/-- What follows a `<`: the token, if there is one, and the rest. -/
def tagToken (s : List Char) : Option Token × List Char :=
  let closing := s.head? = some '/'
  let s := if closing then s.tail else s
  if s.head?.any fun c => c = '!' || c = '?' then (none, skipGt s)
  else
    let tag := ((s.takeWhile fun c => !isEnd c).take 31).map Char.toLower
    let s := s.drop tag.length
    let raw := ["style".toList, "head".toList, "svg".toList]
    if tag = "script".toList then
      if closing then (none, skipGt s)
      else
        let s := skipAttrs (s.length + 1) s
        (none, skipRawUntilClose tag (skipScriptTag (s.length + 1) s))
    else if tag ∈ raw then (none, if closing then s else skipRawUntilClose tag (skipGt s))
    else if tag = "title".toList ∧ !closing then
      (none, skipGt (dropUpTo (· ≠ '<') 63 (skipGt s)))
    else if closing then (some (.close tag), skipGt s)
    else
      let s := skipAttrs (s.length + 1) s
      let self := s.head? = some '/'
      let s := if self then s.tail else s
      (some (.element tag self), if s.head? = some '>' then s.tail else s)

def tokens : ℕ → List Char → List Token
  | 0, _ => []
  | _, [] => []
  | fuel + 1, c :: s =>
    if c = '<' then
      let (t, r) := tagToken s
      t.toList ++ tokens fuel r
    else
      let (ti, r) := textRun (s.length + 1) 0 true (c :: s)
      (if ti = 0 then [] else [Token.text]) ++ tokens fuel r

/-- The position after the tag of the body, if there is one. -/
def bodyStart (html : List Char) : List Char → List Char
  | [] => html
  | c :: s =>
    if ((c :: s).take 3).map Char.toLower = ['<', 'b', 'o'] then skipGt (c :: s)
    else bodyStart html s

/-! ### The page -/

def isVoidTag (tag : List Char) : Bool :=
  tag ∈ ["br".toList, "hr".toList, "img".toList, "input".toList, "meta".toList, "link".toList,
    "source".toList]

/-- The stack, whose top comes first, after a closing tag. -/
def popTo (d : Doc) (tag : List Char) : List ℕ → List ℕ
  | top :: below :: stack =>
    if (d.nodes top).tag = tag then below :: stack else popTo d tag (below :: stack)
  | stack => stack

def build : List Token → List ℕ → Doc → Doc
  | t :: ts, top :: stack, d =>
    if domMaxNodes - 4 ≤ d.nnodes then d
    else
      match t with
      | .text => build ts (top :: stack) (appendText d top)
      | .close tag => build ts (popTo d tag (top :: stack)) d
      | .element tag self =>
        match domCreateElement d tag with
        | (d', none) => d'
        | (d', some el) =>
          build ts
            (if !self && !isVoidTag tag && stack.length + 1 < 64 then el :: top :: stack
              else top :: stack)
            (domAppendChild d' top el).1
  | _, _, d => d

/-- The table is cleared, so that the elements of the page's own tags are the nodes `0` and `1`. -/
def domParseHtml (html : List Char) : Doc :=
  let d := (domCreateElement (domCreateElement .empty "html".toList).1 "body".toList).1
  build (tokens (html.length + 1) (bodyStart html html)) [1] (domAppendChild d 0 1).1

/-! ### Calls -/

inductive Call
  | createElement (tag : List Char)
  | createText
  | appendChild (parent child : ℕ)
  | setText (id : ℕ)
  | setInnerHtml (id : ℕ) (html : List Char)
  | parseHtml (html : List Char)

def step (d : Doc) : Call → Doc
  | .createElement tag => (domCreateElement d tag).1
  | .createText => (domCreateText d).1
  | .appendChild parent child => (domAppendChild d parent child).1
  | .setText id => domSetText d id
  | .setInnerHtml id html => domSetInnerHtml d id html
  | .parseHtml html => domParseHtml html

end PeakOs.Dom
