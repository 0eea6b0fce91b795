import PeakOs.Lib.Transition
import PeakOs.Net.Tcp

/-!
# Which connection a slot stands for

The applications of `net/tcp.c` hold slots: `net_tcp_connect` and `net_tcp_accept` hand them out,
`net_tcp_close` gives them back. `App` is the connection table with the slots that are held, and the
connection each of them was obtained for.

Bytes carry the connection they belong to: those of a packet the one the packet came from, those
that are sent the one the slot was obtained for. The code moves them without looking at it.

## Main results

* `Bound.step` — an event keeps every held slot at its connection, unless a reset or
  `net_tcp_unlisten` frees a slot that is held
* `slots_identify` — in every run without such an event all bytes go where they belong
* `slot_rebound` — after a reset the slot is given to the next peer, with the application still
  reading from it
-/

namespace PeakOs.Net

namespace Identity

open Function List

/-- A byte and the connection it belongs to. -/
abbrev Tagged := Key × UInt8

structure App where
  stack : Stack Tagged
  held : Slot → Option Key
  /-- What was received from held slots, with the connections they had been obtained for. -/
  received : List (Key × List Tagged)

def App.conn (a : App) (i : Slot) : TcpConn Tagged := a.stack.tcps i

/-- The slot an event gives back. -/
def closes (s : Stack Tagged) : Stack.Event Tagged → Option Slot
  | .fdClose fd => some fd
  | .close => some s.tcpCur
  | _ => none

/-- The slot an event receives from. -/
def receives (s : Stack Tagged) : Stack.Event Tagged → Option Slot
  | .fdRecv fd _ => some fd
  | .recv _ => some s.tcpCur
  | _ => none

/-- What a step leaves in the hands of the application. -/
def App.obtain (a : App) : Outcome Tagged → Slot → Option Key
  | .connected slot key => Function.update a.held slot (some key)
  | .accepted slot => Function.update a.held slot (some (a.conn slot).key)
  | _ => a.held

def App.giveBack (a : App) : Option Slot → Slot → Option Key
  | some i => Function.update a.held i none
  | none => a.held

def App.log (a : App) : Option Slot → Outcome Tagged → List (Key × List Tagged)
  | some i, .bytes data => (a.held i).toList.map (·, data) ++ a.received
  | _, _ => a.received

def App.step (a : App) (e : Stack.Event Tagged) : App :=
  let r := a.stack.step e
  let a' : App :=
    { stack := r.1
      held := a.giveBack (closes a.stack e)
      received := a.log (receives a.stack e) r.2 }
  { a' with held := a'.obtain r.2 }

/-- The slots as `net_init` leaves them. -/
structure Start (a : App) : Prop where
  tcps : ∀ i, a.conn i = TcpConn.zero
  waiting : a.stack.waiting = []
  sent : a.stack.sent = []
  held : ∀ i, a.held i = none
  received : a.received = []

/-- All bytes of a list belong to a connection. -/
def Of (key : Key) (data : List Tagged) : Prop := ∀ b ∈ data, b.1 = key

def Segment.key (g : Segment Tagged) : Key := ⟨g.dst, g.dport, g.sport⟩

/-- Packets arrive at any time. Calls follow one another, on slots that are held, and what is sent
to a slot is meant for the connection it was obtained for. -/
def Possible (a : App) : Stack.Event Tagged → Prop
  | .arrive _ src h => Of ⟨src, h.sport, h.dport⟩ h.data
  | .goOn _ _ _ => True
  | .connect _ _ _ | .listen _ | .unlisten _ | .accept _ => a.stack.waiting = []
  | .fdSend fd data => a.stack.waiting = [] ∧ ∃ key, a.held fd = some key ∧ Of key data
  | .send data => a.stack.waiting = [] ∧ ∃ key, a.held a.stack.tcpCur = some key ∧ Of key data
  | .fdRecv fd _ | .fdClose fd | .fdShutdown fd _ => a.stack.waiting = [] ∧ a.held fd ≠ none
  | .recv _ | .close => a.stack.waiting = [] ∧ a.held a.stack.tcpCur ≠ none

/-- A held slot stands for the connection it was obtained for, and all bytes belong to the
connection they were received from or sent to. -/
structure Identifies (a : App) : Prop where
  slots : ∀ i key, a.held i = some key → (a.conn i).key = key
  received : ∀ r ∈ a.received, Of r.1 r.2
  sent : ∀ g ∈ a.stack.sent, Of (Segment.key g) g.data

/-! ### The condition -/

def Wait.isConnect : Wait Tagged → Bool
  | .send _ _ (.connecting _ _) => true
  | .poll _ _ => true
  | _ => false

/-- The slot is held, or `net_tcp_connect` is about to hand it out. -/
def InUse (a : App) (i : Slot) : Prop :=
  a.held i ≠ none ∨ i = a.stack.tcpCur ∧ ∃ w ∈ a.stack.waiting, Wait.isConnect w = true

/-- No reset and no end of a listener takes a slot away that is in use. -/
def Undisturbed (a : App) : Stack.Event Tagged → Prop
  | .arrive _ src h => hasFlag h.flags tcpRst = true →
      ∀ i, a.stack.netTcpFindSlot src h.sport h.dport = some i → ¬ InUse a i
  | .unlisten port => ∀ i, (a.conn i).isServer = true → (a.conn i).localPort = port →
      (a.conn i).state ≠ .closed → ¬ InUse a i
  | _ => True

/-! ### The invariant -/

/-- What `net_tcp_connect` relies on while it waits. -/
structure Connecting (a : App) (key : Key) : Prop where
  key : (a.conn a.stack.tcpCur).key = key
  state : (a.conn a.stack.tcpCur).state ≠ .closed
  held : a.held a.stack.tcpCur = none

def ContOk (a : App) (i : Slot) : Cont Tagged → Prop
  | .handler _ => True
  | .connecting _ key => Connecting a key
  | .sending rest => ∃ key, a.held i = some key ∧ Of key rest
  | .closing _ => a.held i = none
  | .shutdown _ => True

def WaitOk (a : App) : Wait Tagged → Prop
  | .send i g k => Of (Segment.key g) g.data ∧ ContOk a i k
  | .poll _ key => Connecting a key

def Wait.isHandler : Wait Tagged → Bool
  | .send _ _ (.handler _) => true
  | _ => false

structure Bound (a : App) : Prop where
  held : ∀ i key, a.held i = some key → (a.conn i).key = key ∧ (a.conn i).state ≠ .closed
  rx : ∀ i, Of (a.conn i).key (a.conn i).rx
  waits : ∀ w ∈ a.stack.waiting, WaitOk a w
  /-- A call waits below all handlers. -/
  bottom : ∀ w rest, w :: rest <:+ a.stack.waiting → Wait.isHandler w = false → rest = []
  received : ∀ r ∈ a.received, Of r.1 r.2
  sent : ∀ g ∈ a.stack.sent, Of (Segment.key g) g.data

theorem Bound.identifies {a : App} (h : Bound a) : Identifies a :=
  ⟨fun i key hk => (h.held i key hk).1, h.received, h.sent⟩

theorem Bound.of_start {a : App} (h : Start a) : Bound a where
  held i key hk := by simp [h.held] at hk
  rx i := by simp [h.tcps, TcpConn.zero, Of]
  waits := by simp [h.waiting]
  bottom w rest hsuf := by simp [h.waiting] at hsuf
  received := by simp [h.received]
  sent := by simp [h.sent]

/-! ### What keeps the invariant

One lemma for each thing that can happen to the table: a slot is changed, a handler or a call begins
to wait, one goes on, a segment goes out. -/

variable {a a' : App} {i : Slot}

def App.withStack (a : App) (s : Stack Tagged) : App := { a with stack := s }

theorem Connecting.congr {key : Key} (h : Connecting a key) (hheld : a'.held = a.held)
    (hcur : a'.stack.tcpCur = a.stack.tcpCur)
    (hconn : (a'.conn a.stack.tcpCur).key = (a.conn a.stack.tcpCur).key ∧
      (a'.conn a.stack.tcpCur).state ≠ .closed) : Connecting a' key where
  key := by rw [hcur, hconn.1, h.key]
  state := by rw [hcur]; exact hconn.2
  held := by rw [hcur, hheld, h.held]

variable {k : Cont Tagged} {w : Wait Tagged} {src : UInt32} {data : List Tagged}
    {o : Outcome Tagged}

theorem ContOk.congr (h : ContOk a i k) (hheld : a'.held = a.held)
    (hcur : a'.stack.tcpCur = a.stack.tcpCur) (hconn : ∀ synSeq key, k = .connecting synSeq key →
      (a'.conn a.stack.tcpCur).key = (a.conn a.stack.tcpCur).key ∧
        (a'.conn a.stack.tcpCur).state ≠ .closed) : ContOk a' i k := by
  cases k with
  | handler p => trivial
  | connecting synSeq key => exact Connecting.congr h hheld hcur (hconn _ _ rfl)
  | sending rest => obtain ⟨key, hk, hof⟩ := h; exact ⟨key, by rw [hheld, hk], hof⟩
  | closing viaFd => exact (congrFun hheld i).trans h
  | shutdown both => trivial

theorem WaitOk.congr (h : WaitOk a w) (hheld : a'.held = a.held)
    (hcur : a'.stack.tcpCur = a.stack.tcpCur) (hconn : Wait.isConnect w = true →
      (a'.conn a.stack.tcpCur).key = (a.conn a.stack.tcpCur).key ∧
        (a'.conn a.stack.tcpCur).state ≠ .closed) : WaitOk a' w := by
  cases w with
  | send j g k =>
    refine ⟨h.1, h.2.congr hheld hcur ?_⟩
    rintro synSeq key rfl
    exact hconn rfl
  | poll synSeq key => exact Connecting.congr h hheld hcur (hconn rfl)

theorem WaitOk.state (h : WaitOk a w) (hconn : Wait.isConnect w = true) :
    (a.conn a.stack.tcpCur).state ≠ .closed := by
  cases w with
  | send j g k =>
    cases k with
    | connecting synSeq key => exact h.2.state
    | _ => simp [Wait.isConnect] at hconn
  | poll synSeq key => exact Connecting.state h

section

variable (h : Bound a)
include h

/-- A slot in use is not closed. -/
theorem Bound.state_of_inUse (hi : InUse a i) : (a.conn i).state ≠ .closed := by
  rcases hi with hheld | ⟨rfl, w, hw, hconn⟩
  · obtain ⟨key, hkey⟩ := Option.ne_none_iff_exists'.1 hheld
    exact (h.held i key hkey).2
  · exact (h.waits w hw).state hconn

/-- Those that wait only look at the slots and at who holds them. -/
theorem Bound.waits_congr (hheld : a'.held = a.held)
    (htcps : a'.stack.tcps = a.stack.tcps) (hcur : a'.stack.tcpCur = a.stack.tcpCur) :
    ∀ w ∈ a.stack.waiting, WaitOk a' w := by
  intro w hw
  refine (h.waits w hw).congr hheld hcur fun hconn => ?_
  have hstate := h.state_of_inUse (.inr ⟨rfl, w, hw, hconn⟩)
  simp only [App.conn, htcps]
  exact ⟨trivial, hstate⟩

/-- A slot that is not in use may become anything; one that is in use stays open and with its
peer. -/
theorem Bound.setConn {c : TcpConn Tagged}
    (huse : InUse a i → c.key = (a.conn i).key ∧ c.state ≠ .closed) (hrx : Of c.key c.rx) :
    Bound (a.withStack (a.stack.setConn i c)) := by
  have hself : (a.withStack (a.stack.setConn i c)).conn i = c := update_self _ _ _
  have hother : ∀ j, j ≠ i → (a.withStack (a.stack.setConn i c)).conn j = a.conn j :=
    fun j hj => update_of_ne hj _ _
  refine ⟨fun j key hk => ?_,
    (forall_update_iff a.stack.tcps fun _ c => Of c.key c.rx).2 ⟨hrx, fun j _ => h.rx j⟩,
    fun w hw => ?_, h.bottom, h.received, h.sent⟩
  · by_cases hj : j = i
    · subst hj
      obtain ⟨hckey, hcstate⟩ := huse (.inl (by rw [show a.held j = some key from hk]; simp))
      rw [hself]
      exact ⟨hckey.trans (h.held j key hk).1, hcstate⟩
    · rw [hother j hj]
      exact h.held j key hk
  refine (h.waits w hw).congr rfl rfl fun hconn => ?_
  by_cases hj : a.stack.tcpCur = i
  · rw [hj, hself]
    exact huse (.inr ⟨hj.symm, w, hw, hconn⟩)
  · rw [hother _ hj]
    exact ⟨rfl, h.state_of_inUse (.inr ⟨rfl, w, hw, hconn⟩)⟩

theorem Bound.push_handler (flags : UInt8) (p : Pending) :
    Bound (a.withStack (a.stack.netTcpSendSegSlot i flags [] (.handler p))) := by
  refine ⟨h.held, h.rx, fun w hw => ?_, fun w rest hsuf hw => ?_, h.received, h.sent⟩
  · rcases mem_cons.1 hw with rfl | hw
    · exact ⟨by simp [Of], trivial⟩
    · refine h.waits_congr ?_ ?_ ?_ w hw <;> rfl
  rcases suffix_cons_iff.1 hsuf with heq | hsuf
  · obtain ⟨rfl, -⟩ := List.cons.inj heq
    simp [Wait.isHandler] at hw
  · exact h.bottom w rest hsuf hw

/-- A call begins to wait when nothing else does. -/
theorem Bound.push_call (hnone : a.stack.waiting = [])
    (hw : WaitOk a w) : Bound (a.withStack { a.stack with waiting := w :: a.stack.waiting }) := by
  refine ⟨h.held, h.rx, fun w' hw' => ?_, fun w' rest hsuf _ => ?_, h.received, h.sent⟩
  · obtain rfl : w' = w := by simpa [App.withStack, hnone] using hw'
    exact hw.congr rfl rfl fun hconn => ⟨rfl, hw.state hconn⟩
  have hlen := hsuf.length_le
  simp only [App.withStack, hnone, length_cons, length_nil] at hlen
  exact eq_nil_of_length_eq_zero (by omega)

/-- The one that waits on top, and the table without it. -/
theorem Bound.pop {rest : List (Wait Tagged)} (hw : a.stack.waiting = w :: rest) :
    Bound (a.withStack { a.stack with waiting := rest }) ∧
      WaitOk (a.withStack { a.stack with waiting := rest }) w ∧
      (Wait.isHandler w = false → rest = []) := by
  have hmem : ∀ w' ∈ w :: rest, WaitOk (a.withStack { a.stack with waiting := rest }) w' := by
    intro w' hw'
    rw [← hw] at hw'
    refine h.waits_congr ?_ ?_ ?_ w' hw' <;> rfl
  refine ⟨⟨h.held, h.rx, fun w' hw' => hmem w' (mem_cons_of_mem _ hw'), ?_, h.received,
    h.sent⟩, hmem w mem_cons_self, h.bottom w rest (hw ▸ suffix_rfl)⟩
  intro w' rest' hsuf
  refine h.bottom w' rest' ?_
  rw [hw]
  exact hsuf.trans (suffix_cons w rest)

theorem Bound.transmitted {g : Segment Tagged} (hg : Of (Segment.key g) g.data) :
    Bound (a.withStack (a.stack.transmitted i g)) := by
  have hset := h.setConn (i := i) (c := { a.conn i with sndNxt :=
    (a.conn i).sndNxt + (if hasFlag g.flags tcpSyn then 1 else 0)
      + (if hasFlag g.flags tcpFin then 1 else 0) + UInt32.ofNat g.data.length })
    (fun hi => ⟨rfl, h.state_of_inUse hi⟩) (h.rx i)
  exact ⟨hset.held, hset.rx, hset.waits_congr rfl rfl rfl, hset.bottom, hset.received,
    forall_mem_cons.2 ⟨hg, h.sent⟩⟩

theorem Bound.answer {r : TcpConn Tagged × Option Pending}
    (huse : InUse a i → r.1.key = (a.conn i).key ∧ r.1.state ≠ .closed)
    (hrx : Of r.1.key r.1.rx) : Bound (a.withStack (a.stack.answer i r)) := by
  have hset := h.setConn huse hrx
  unfold Stack.answer
  split
  · exact hset
  · exact hset.push_handler tcpAck _

/-! ### Packets -/

theorem Bound.alloc (hi : a.stack.netTcpAllocSlot = some i) : ¬ InUse a i := by
  intro huse
  have hclosed := find?_some hi
  simp only [decide_eq_true_eq] at hclosed
  exact h.state_of_inUse huse hclosed

theorem Bound.arrive {ticks : UInt16} {hdr : TcpHdrInfo Tagged}
    (hof : Of ⟨src, hdr.sport, hdr.dport⟩ hdr.data) (hrst : Undisturbed a (.arrive ticks src hdr)) :
    Bound (a.withStack (a.stack.netHandleTcp ticks src hdr)) := by
  unfold Stack.netHandleTcp
  split
  next slot hslot =>
    obtain ⟨hkey, hopen⟩ := Stack.find_slot hslot
    obtain ⟨hk, hr, hstate⟩ := (a.stack.tcps slot).onSegment_cases hdr
    refine h.answer (fun huse => ⟨hk, hstate ?_ hopen⟩) ?_
    · by_contra hr
      exact hrst (by simpa using hr) slot hslot huse
    rw [hk]
    rcases hr with hr | hr <;> rw [hr]
    · exact h.rx slot
    · intro b hb
      rcases mem_append.1 hb with hb | hb
      · exact h.rx slot b hb
      · rw [hkey]
        exact hof b hb
  · split
    · split
      · exact h
      rename_i slot hslot
      refine Bound.push_handler (a := a.withStack _) (h.setConn (i := slot) ?_ ?_) _ _
      · exact fun huse => absurd huse (h.alloc hslot)
      · simp [Stack.serverConn, TcpConn.zero, Of]
    · exact h

/-! ### Calls and their continuations -/

omit h in
/-- Nothing is in use but what is held, when nobody waits. -/
theorem not_inUse (hheld : a.held i = none) (hnone : a.stack.waiting = []) : ¬ InUse a i := by
  rintro (h | ⟨-, w, hw, -⟩)
  · exact h hheld
  · simp [hnone] at hw

theorem Bound.sendChunks (hnone : a.stack.waiting = [])
    {key : Key} (hk : a.held i = some key) (hof : Of key data) :
    Bound (a.withStack (a.stack.sendChunks i data).1) := by
  unfold Stack.sendChunks
  split
  · exact h
  refine h.push_call hnone ⟨?_, key, hk, fun b hb => hof b (mem_of_mem_drop hb)⟩
  intro b hb
  rw [hof b (mem_of_mem_take hb)]
  exact (h.held i key hk).1.symm

theorem Bound.closed (hheld : a.held i = none) (hnone : a.stack.waiting = [])
    (viaFd : Bool) : Bound (a.withStack (a.stack.closed i viaFd).1) := by
  refine h.setConn (fun huse => absurd huse (not_inUse hheld hnone)) ?_
  cases viaFd <;> simp [Of]

end

/-- An outcome that gives no slot to the application. -/
def Plain : Outcome Tagged → Prop
  | .connected _ _ | .accepted _ => False
  | _ => True

theorem transmitted_conn (s : Stack Tagged) (g : Segment Tagged) (j : Slot) :
    ((s.transmitted i g).tcps j).key = (s.tcps j).key ∧
      ((s.transmitted i g).tcps j).state = (s.tcps j).state := by
  refine (forall_update_iff s.tcps fun j c =>
    c.key = (s.tcps j).key ∧ c.state = (s.tcps j).state).2 ⟨?_, fun _ _ => ⟨rfl, rfl⟩⟩ j
  exact ⟨rfl, rfl⟩

theorem obtain_of_plain (ho : Plain o) : a.obtain o = a.held := by
  cases o <;> first | rfl | exact ho.elim

theorem sendChunks_plain (s : Stack Tagged) (data : List Tagged) :
    Plain (s.sendChunks i data).2 := by
  unfold Stack.sendChunks
  split <;> trivial

theorem Bound.afterSend (h : Bound a) (hk : ContOk a i k)
    (hbottom : (∀ p, k ≠ .handler p) → a.stack.waiting = []) (ok : Bool) :
    Bound (a.withStack (a.stack.afterSend i ok k).1) ∧ Plain (a.stack.afterSend i ok k).2 := by
  cases k with
  | handler p =>
    obtain ⟨hkey, hrx, hstate⟩ := (a.stack.tcps i).resume_cases p
    refine ⟨h.answer (fun huse => ⟨hkey, hstate (h.state_of_inUse huse)⟩) ?_, trivial⟩
    rw [hkey, hrx]
    exact h.rx i
  | connecting synSeq key =>
    have hnone := hbottom (by simp)
    cases ok
    · exact ⟨h, trivial⟩
    · exact ⟨h.push_call hnone (w := .poll synSeq key) hk, trivial⟩
  | sending rest =>
    have hnone := hbottom (by simp)
    obtain ⟨key, hheld, hof⟩ := hk
    cases ok
    · exact ⟨h, trivial⟩
    · exact ⟨h.sendChunks hnone hheld hof, sendChunks_plain _ _⟩
  | closing viaFd =>
    exact ⟨h.closed hk (hbottom (by simp)) viaFd, trivial⟩
  | shutdown both =>
    cases ok
    · exact ⟨h, trivial⟩
    · refine ⟨h.setConn (fun huse => ?_) ?_, trivial⟩
      · cases both <;> exact ⟨rfl, h.state_of_inUse huse⟩
      cases both
      · exact h.rx i
      · simp [Of]

/-- The application after a step of the table that gives nothing back and receives nothing. -/
def App.after (a : App) (r : Stack Tagged × Outcome Tagged) : App :=
  { a.withStack r.1 with held := (a.withStack r.1).obtain r.2 }

theorem Bound.after {r : Stack Tagged × Outcome Tagged} (h : Bound (a.withStack r.1))
    (ho : Plain r.2) : Bound (a.after r) := by rwa [App.after, obtain_of_plain ho]

section

variable (h : Bound a)
include h

theorem Bound.unchanged (ho : Plain o) :
    Bound (a.after (a.stack, o)) := Bound.after (r := (a.stack, o)) h ho

section

variable (hnone : a.stack.waiting = [])
include hnone

/-- A slot is handed out for what it stands for, or given back. -/
theorem Bound.setHeld {o : Option Key}
    (ho : ∀ key ∈ o, (a.conn i).key = key ∧ (a.conn i).state ≠ .closed) :
    Bound { a with held := update a.held i o } := by
  refine ⟨fun j key hk => ?_, h.rx, by simp [hnone], h.bottom, h.received, h.sent⟩
  change update a.held i o j = some key at hk
  by_cases hj : j = i
  · subst hj
    rw [update_self] at hk
    exact ho key hk
  · rw [update_of_ne hj] at hk
    exact h.held j key hk

theorem Bound.connectTurn {key : Key}
    (hc : Connecting a key) (synSeq : UInt32) (retry timedOut : Bool) :
    Bound (a.after (a.stack.connectTurn synSeq key retry timedOut)) := by
  have hfree : ¬ InUse a a.stack.tcpCur := not_inUse hc.held hnone
  unfold Stack.connectTurn
  dsimp only
  split
  · refine Bound.after (h.setConn (fun huse => absurd huse hfree) ?_) trivial
    exact h.rx a.stack.tcpCur
  split
  · -- the slot is handed out, and still stands for what was asked for
    exact h.setHeld hnone fun key' hk => ⟨hc.key.trans (Option.some.inj hk), hc.state⟩
  split
  · exact h.unchanged trivial
  split
  · refine Bound.after ?_ trivial
    have hset := h.setConn (i := a.stack.tcpCur)
      (c := { a.conn a.stack.tcpCur with sndNxt := synSeq })
      (fun huse => absurd huse hfree) (h.rx _)
    have hself : (a.withStack (a.stack.setConn a.stack.tcpCur
        { a.conn a.stack.tcpCur with sndNxt := synSeq })).conn a.stack.tcpCur
        = { a.conn a.stack.tcpCur with sndNxt := synSeq } := update_self _ _ _
    refine hset.push_call hnone ⟨by simp [Of], hc.congr rfl rfl ?_⟩
    rw [hself]
    exact ⟨rfl, hc.state⟩
  · exact (h.push_call hnone (w := .poll synSeq key) hc).after trivial

theorem Bound.connect (ticks : UInt16) (ip : UInt32)
    (port : UInt16) : Bound (a.after (a.stack.netTcpConnect ticks ip port)) := by
  unfold Stack.netTcpConnect
  iterate 3
    split
    · exact h.unchanged trivial
  rename_i slot hslot
  refine Bound.after ?_ trivial
  have hfree := h.alloc hslot
  have hset := h.setConn (i := slot)
    (c := Stack.clientConn ticks ip port a.stack.ephemPort)
    (fun huse => absurd huse hfree) (by simp [Stack.clientConn, TcpConn.zero, Of])
  have hself : (a.stack.setConn slot
      (Stack.clientConn ticks ip port a.stack.ephemPort)).tcps slot
      = Stack.clientConn ticks ip port a.stack.ephemPort := update_self _ _ _
  have hcur : Bound (a.withStack { a.stack.setConn slot
      (Stack.clientConn ticks ip port a.stack.ephemPort) with
      tcpCur := slot, ephemPort := Stack.nextEphemPort a.stack.ephemPort }) :=
    ⟨hset.held, hset.rx, by simp [App.withStack, Stack.setConn, hnone], hset.bottom,
      hset.received, hset.sent⟩
  refine hcur.push_call hnone ⟨by simp [Of], ?_, ?_, ?_⟩
  · exact congrArg TcpConn.key hself
  · exact fun hs => TcpState.noConfusion ((congrArg TcpConn.state hself).symm.trans hs)
  · by_contra hheld
    exact hfree (.inl hheld)

theorem Bound.unlisten {port : UInt16} (hfree : Undisturbed a (.unlisten port)) :
    Bound (a.after (a.stack.netTcpUnlisten port, .ok)) := by
  refine Bound.after ⟨fun i key hk => ?_, fun i => ?_, ?_, ?_, h.received, h.sent⟩ trivial
  · obtain ⟨hkey, hstate⟩ := h.held i key hk
    have hkeep : (a.stack.netTcpUnlisten port).tcps i = a.stack.tcps i := by
      refine if_neg fun hc => ?_
      exact hfree i hc.1 hc.2.1 hc.2.2 (.inl (by rw [show a.held i = some key from hk]; simp))
    simp only [App.conn, App.withStack, hkeep]
    exact ⟨hkey, hstate⟩
  · simp only [App.conn, App.withStack, Stack.netTcpUnlisten]
    split
    · simp [Of]
    · exact h.rx i
  · simp [App.withStack, Stack.netTcpUnlisten, hnone]
  · exact h.bottom

theorem Bound.accept (id : Fin 8) : Bound (a.after (a.stack.netTcpAccept id)) := by
  unfold Stack.netTcpAccept
  iterate 2
    split
    · exact h.unchanged trivial
  rename_i slot hslot
  have hfound := find?_some hslot
  simp only [decide_eq_true_eq] at hfound
  have hopen : (a.conn slot).state ≠ .closed := by
    rcases hfound.2.2.2 with hs | hs <;> rw [App.conn, hs] <;> decide
  have hset := h.setConn (i := slot) (c := { a.conn slot with accepted := true })
    (fun _ => ⟨rfl, hopen⟩) (h.rx slot)
  have hself : (a.stack.setConn slot { a.conn slot with accepted := true }).tcps slot
      = { a.conn slot with accepted := true } := update_self _ _ _
  refine hset.setHeld hnone fun key hk => ⟨Option.some.inj hk, fun hs => hopen ?_⟩
  exact (congrArg TcpConn.state hself).symm.trans hs

theorem Bound.fdSend {key : Key} (hk : a.held i = some key) (hof : Of key data) :
    Bound (a.after (a.stack.netTcpFdSend i data)) := by
  unfold Stack.netTcpFdSend
  split
  · exact h.unchanged trivial
  · exact Bound.after (h.sendChunks hnone hk hof) (sendChunks_plain _ _)

theorem Bound.fdShutdown (how : Stack.How) : Bound (a.after (a.stack.netTcpFdShutdown i how)) := by
  unfold Stack.netTcpFdShutdown
  dsimp only
  split
  · refine Bound.after (h.setConn (fun huse => ⟨rfl, h.state_of_inUse huse⟩) ?_) trivial
    simp [Of]
  split
  · exact Bound.after (h.push_call hnone ⟨by simp [Of], trivial⟩) trivial
  refine Bound.after (h.setConn (fun huse => ?_) ?_) trivial
  · split <;> exact ⟨rfl, h.state_of_inUse huse⟩
  split
  · simp [Of]
  · exact h.rx i

theorem Bound.fdClose (hheld : a.held i = none)
    (viaFd : Bool) : Bound (a.after (a.stack.netTcpFdClose i viaFd)) := by
  unfold Stack.netTcpFdClose
  split
  · exact Bound.after (h.push_call hnone ⟨by simp [Of], hheld⟩) trivial
  · exact Bound.after (h.closed hheld hnone viaFd) trivial

end

theorem Bound.goOn (found retry timedOut : Bool) :
    Bound (a.after (a.stack.goOn found retry timedOut)) := by
  unfold Stack.goOn
  split
  · exact h.unchanged trivial
  next slot g k rest hw =>
    obtain ⟨hpop, ⟨hg, hk⟩, hbottom⟩ := h.pop hw
    have hrest : (∀ p, k ≠ .handler p) → rest = [] := by
      intro hnh
      refine hbottom ?_
      cases k <;> simp_all [Wait.isHandler]
    split
    · have htrans := hpop.transmitted (i := slot) hg
      refine (htrans.afterSend (hk.congr rfl rfl ?_) hrest true).elim Bound.after
      rintro synSeq key rfl
      obtain ⟨hkey, hstate⟩ := transmitted_conn (i := slot) { a.stack with waiting := rest } g
        a.stack.tcpCur
      exact ⟨hkey, fun hs => hk.state (hstate.symm.trans hs)⟩
    · exact (hpop.afterSend hk hrest false).elim Bound.after
  next synSeq key rest hw =>
    obtain ⟨hpop, hconn, hbottom⟩ := h.pop hw
    exact hpop.connectTurn (hbottom rfl) hconn synSeq retry timedOut

theorem Bound.listen (port : UInt16) : Bound (a.after (a.stack.netTcpListen port)) := by
  unfold Stack.netTcpListen
  iterate 4
    split
    · exact h.unchanged trivial
  · refine Bound.after ?_ trivial
    exact ⟨h.held, h.rx, h.waits_congr rfl rfl rfl, h.bottom, h.received, h.sent⟩

theorem Bound.fdRecv (i : Slot) (cap : ℕ) : Bound { a.withStack (a.stack.netTcpFdRecv i cap).1 with
      received := a.log (some i) (a.stack.netTcpFdRecv i cap).2
      held := (a.withStack (a.stack.netTcpFdRecv i cap).1).obtain
        (a.stack.netTcpFdRecv i cap).2 } := by
  obtain ⟨n, hn, hout⟩ := a.stack.netTcpFdRecv_cases i cap
  rw [hn]
  have hset := h.setConn (i := i)
    (c := { a.stack.tcps i with rx := (a.stack.tcps i).rx.drop n })
    (fun huse => ⟨rfl, h.state_of_inUse huse⟩)
    (fun b hb => h.rx i b (mem_of_mem_drop hb))
  rcases hout with hout | ⟨e, hout⟩ <;> rw [hout]
  case inr => exact hset
  refine ⟨hset.held, hset.rx, hset.waits_congr rfl rfl rfl, hset.bottom, fun r hr => ?_, hset.sent⟩
  rcases mem_append.1 hr with hr | hr
  · obtain ⟨key, hkey, rfl⟩ := mem_map.1 hr
    intro b hb
    rw [← (h.held i key (Option.mem_toList.1 hkey)).1]
    exact h.rx i b (mem_of_mem_take hb)
  · exact h.received r hr

/-! ### Runs -/

/-- **The step lemma.** -/
theorem Bound.step {e : Stack.Event Tagged} (hp : Possible a e)
    (hu : Undisturbed a e) : Bound (a.step e) := by
  cases e with
  | arrive ticks src hdr => exact Bound.after (r := (_, .none)) (h.arrive hp hu) trivial
  | goOn found retry timedOut => exact h.goOn found retry timedOut
  | connect ticks ip port => exact h.connect hp ticks ip port
  | listen port => exact h.listen port
  | unlisten port => exact h.unlisten hp hu
  | accept id => exact h.accept hp id
  | fdSend fd data | send data =>
    obtain ⟨hnone, key, hk, hof⟩ := hp
    exact h.fdSend hnone hk hof
  | fdRecv fd cap => exact h.fdRecv fd cap
  | recv cap => exact h.fdRecv a.stack.tcpCur cap
  | fdShutdown fd how => exact h.fdShutdown hp.1 how
  | fdClose fd =>
    exact (h.setHeld hp.1 (by simp)).fdClose (i := fd) hp.1 (update_self _ _ _) true
  | close =>
    exact (h.setHeld hp.1 (by simp)).fdClose (i := a.stack.tcpCur) hp.1
      (update_self _ _ _) false

end

/-- **A slot stands for the connection it was obtained for**, in every run in which no reset and no
end of a listener reaches a slot that is in use. -/
theorem slots_identify
    (h : Reach Start (fun a e => Possible a e ∧ Undisturbed a e) App.step a) : Identifies a :=
  (h.invariant Bound (fun _ hs => .of_start hs) fun _ _ hb hok => hb.step hok.1 hok.2).identifies

/-! ### A slot that changes hands -/

/-- The table after `net_init`, with listeners allowed. -/
def booted : App where
  stack :=
    { tcps := fun _ => TcpConn.zero
      listens := fun _ => ⟨false, 0⟩
      tcpCur := ⟨0, by decide⟩
      ephemPort := 40000
      localIp := 0x0A00020F
      netReady := true
      privacy := ⟨false, true, true, true, true, true, true, true⟩
      waiting := []
      sent := [] }
  held := fun _ => none
  received := []

theorem booted_start : Start booted := ⟨fun _ => rfl, rfl, rfl, fun _ => rfl, rfl⟩

def firstPeer : Key := ⟨0x0A000202, 5000, 80⟩
def secondPeer : Key := ⟨0x0A000203, 6000, 80⟩

/-- A packet of a peer, with bytes of its own. -/
def packet (k : Key) (seq : UInt32) (flags : UInt8) (data : List UInt8) : Stack.Event Tagged :=
  .arrive 0 k.remoteIp ⟨k.remotePort, k.localPort, seq, 0, flags, data.map (k, ·)⟩

theorem packet_possible (b : App) (k : Key) (seq : UInt32) (flags : UInt8) (data : List UInt8) :
    Possible b (packet k seq flags data) := by
  intro t ht
  obtain ⟨x, -, rfl⟩ := mem_map.1 ht
  rfl

/-- A peer connects and is accepted. -/
def opening : List (Stack.Event Tagged) :=
  [.listen 80, packet firstPeer 0 tcpSyn [], .goOn true false false, .accept ⟨0, by decide⟩]

theorem slots_identify_opening :
    Identifies (opening.foldl App.step booted) ∧
      (opening.foldl App.step booted).held ⟨0, by decide⟩ = some firstPeer := by
  refine ⟨slots_identify (Reach.calls (.start booted_start) opening ?_), by decide⟩
  refine ⟨⟨rfl, trivial⟩, ⟨packet_possible _ _ _ _ _, ?_⟩, ⟨trivial, trivial⟩, ⟨rfl, trivial⟩,
    trivial⟩
  exact fun h => absurd h (by decide)

/-- The first peer resets its connection, a second one connects and sends a byte, and the
application receives it from the slot it holds for the first. -/
theorem slot_rebound : ¬ ∀ a : App, Reach Start Possible App.step a → Identifies a := by
  intro h
  have hall : AllowedFrom Possible App.step booted
      (opening ++ [packet firstPeer 1 tcpRst [], packet secondPeer 9 tcpSyn [],
        .goOn true false false, packet secondPeer 10 tcpAck [65], .goOn true false false,
        .fdRecv ⟨0, by decide⟩ 16]) := by
    refine ⟨rfl, packet_possible _ _ _ _ _, trivial, rfl, packet_possible _ _ _ _ _,
      packet_possible _ _ _ _ _, trivial, packet_possible _ _ _ _ _, trivial, ⟨rfl, ?_⟩, trivial⟩
    decide
  have hrun := h _ (Reach.calls (.start booted_start) _ hall)
  exact absurd (hrun.slots ⟨0, by decide⟩ firstPeer (by decide)) (by decide)

end Identity

end PeakOs.Net
