import Mathlib.Data.List.FinRange
import PeakOs.Lib.BitMask

/-!
# The scheduler

`kernel/sched.c`: 32 task slots, the mask of the READY ones, the cached tick of the earliest
sleeper, and the task whose stack is in use. There is one processor, and a task gives it up only by
calling the scheduler; a timer interrupt wakes sleepers but never switches.

A call that switches stacks returns when its task is dispatched again. `Phase` is where a task
stands: in its own code, in the loop at the end of `sched_sleep_ticks`, or in the one of
`sched_exit`. The loops are run by the step `resume`.

Stacks are numbered in the order of allocation, with a log of those given back. Names, capabilities,
floating-point state and the statistics of the scheduler are left out.
-/

namespace PeakOs.Sched

inductive TaskState
  | unused
  | ready
  | running
  | blocked
  | zombie
  deriving DecidableEq

structure Task where
  pid : ℕ
  state : TaskState
  kstackBase : Option ℕ
  cpuTicks : ℕ
  /-- `0` is no timer. -/
  wakeTick : ℕ

/-- A slot after `memset`. -/
def Task.clear : Task := ⟨0, .unused, none, 0, 0⟩

inductive Phase
  | own
  | sleeping
  | exiting
  deriving DecidableEq

abbrev Slot := Fin 32

structure State where
  tasks : Slot → Task
  current : Slot
  nextPid : ℕ
  needResched : Bool
  guiFairBias : ℕ
  ctxSwitches : ℕ
  readyMask : BitVec 32
  /-- The earliest wake tick of a sleeper, `0` if there is none. -/
  nextSleeperWake : ℕ
  /-- `timer_ticks`. -/
  now : ℕ
  phase : Slot → Phase
  stackCount : ℕ
  freedStacks : List ℕ

namespace State

def setTask (s : State) (i : Slot) (t : Task) : State :=
  { s with tasks := Function.update s.tasks i t }

def setState (s : State) (i : Slot) (st : TaskState) : State :=
  s.setTask i { s.tasks i with state := st }

def setPhase (s : State) (i : Slot) (p : Phase) : State :=
  { s with phase := Function.update s.phase i p }

def readyMark (s : State) (i : Slot) : State :=
  { s with readyMask := BitMask.setBit s.readyMask i }

def readyUnmark (s : State) (i : Slot) : State :=
  { s with readyMask := BitMask.clearBit s.readyMask i }

end State

/-- The scheduler at a tick of the timer: slot 0 is the boot thread, which becomes the idle task. -/
def schedInit (now : ℕ) : State where
  tasks := Function.update (fun _ => Task.clear) 0 { Task.clear with pid := 1, state := .running }
  current := 0
  nextPid := 2
  needResched := false
  guiFairBias := 0
  ctxSwitches := 0
  readyMask := 0
  nextSleeperWake := 0
  now
  phase := fun _ => .own
  stackCount := 0
  freedStacks := []

/-! ### Switching -/

/-- The first READY slot behind the current one, in a circle. With a load from the desktop the
lowest READY slot but 0 goes first. -/
def pickNext (s : State) : Slot :=
  let mask := s.readyMask
  if mask = 0 then
    if (s.tasks s.current).state = .running then s.current
    else if (s.tasks 0).state = .ready ∨ (s.tasks 0).state = .running then 0
    else s.current
  else
    let low : Slot := Fin.ofNat 32 (BitMask.trailingZeros mask)
    if s.guiFairBias ≠ 0 ∧ 0 < (s.tasks s.current).pid ∧ low ≠ 0 ∧ 0 < (s.tasks low).pid ∧
        (s.tasks low).state = .ready ∧ low ≠ s.current then low
    else
      let start := if s.current.val + 1 < 32 then s.current.val + 1 else 0
      if mask >>> start ≠ 0 then Fin.ofNat 32 (start + BitMask.trailingZeros (mask >>> start))
      else low

/-- The stack of slot `i` is taken up. -/
def dispatch (s : State) (i : Slot) : State :=
  ({ s with current := i, ctxSwitches := s.ctxSwitches + 1 }.setState i .running).readyUnmark i

/-- The first part of `sched_yield`: a RUNNING task becomes READY. -/
def offer (s : State) : State :=
  if (s.tasks s.current).state = .running then
    (s.setState s.current .ready).readyMark s.current
  else s

/-- No other task was picked: one that was READY goes on. -/
def settle (s : State) : State :=
  (if (s.tasks s.current).state = .ready then s.setState s.current .running else s).readyUnmark
    s.current

/-- The rest of `sched_yield` for that case: if the task has blocked or ended, slot 0 takes over,
in whatever state it is. -/
def stay (s : State) : State :=
  if (((settle s).tasks s.current).state = .blocked ∨
        ((settle s).tasks s.current).state = .zombie) ∧
      ((settle s).tasks 0).state ≠ .unused ∧ s.current ≠ 0 then dispatch (settle s) 0
  else settle s

def schedYield (s : State) : State :=
  let s := offer s
  if pickNext s = s.current then stay s else dispatch s (pickNext s)

/-! ### Tasks come and go -/

def reapTaskStack (s : State) (i : Slot) : State :=
  match (s.tasks i).kstackBase with
  | none => s
  | some k =>
    { s.setTask i { s.tasks i with kstackBase := none } with
      freedStacks := s.freedStacks ++ [k] }

/-- The slot a new task gets. -/
def freeSlot (s : State) : Option Slot :=
  (List.finRange 32).find? fun i =>
    (s.tasks i).state = .unused || (s.tasks i).state = .zombie

/-- A slot out of use is cleared and gets the next number; a stack it still has is given back. -/
def vacate (s : State) (i : Slot) : State :=
  let s := if (s.tasks i).state = .zombie then reapTaskStack s i else s
  { s.setTask i { Task.clear with pid := s.nextPid } with nextPid := s.nextPid + 1 }

/-- The slot gets a stack and is READY to enter its function. -/
def launch (s : State) (i : Slot) : State :=
  let s := { s.setTask i { s.tasks i with kstackBase := some s.stackCount, state := .ready } with
    stackCount := s.stackCount + 1 }
  (s.setPhase i .own).readyMark i

/-- `sched_spawn_kthread` with an entry; `stackOk` is whether `kzalloc` has a stack. -/
def schedSpawnKthread (stackOk : Bool) (s : State) : State :=
  match freeSlot s with
  | none => s
  | some i => if !stackOk then (vacate s i).setState i .unused else launch (vacate s i) i

/-- `sched_exit` in front of its loop. -/
def schedExit (s : State) : State :=
  ((s.readyUnmark s.current).setState s.current .zombie).setPhase s.current .exiting

def killSlot (s : State) (pid : ℕ) : Option Slot :=
  (List.finRange 32).find? fun i =>
    i ≠ 0 && (s.tasks i).state ≠ .unused && (s.tasks i).state ≠ .zombie && (s.tasks i).pid = pid

def schedKill (pid : ℕ) (s : State) : State :=
  if pid = 0 ∨ (s.tasks s.current).pid = pid ∨ (s.tasks 0).pid = pid then s
  else
    match killSlot s pid with
    | none => s
    | some i => (s.readyUnmark i).setState i .zombie

/-! ### Sleepers -/

/-- One slot of the loop in `sched_wake_sleepers`, with the earliest tick found so far. -/
def wakeSlot (r : State × ℕ) (i : Slot) : State × ℕ :=
  let (s, next) := r
  let t := s.tasks i
  if t.state ≠ .blocked ∨ t.wakeTick = 0 then (s, next)
  else if t.wakeTick ≤ s.now then
    ((s.setTask i { t with wakeTick := 0, state := .ready }).readyMark i, next)
  else if next = 0 ∨ t.wakeTick < next then (s, t.wakeTick)
  else (s, next)

def schedWakeSleepers (s : State) : State :=
  if s.nextSleeperWake = 0 ∨ s.now < s.nextSleeperWake then s
  else
    let (s, next) := (List.finRange 32).foldl wakeSlot (s, 0)
    { s with nextSleeperWake := next }

/-- `sched_sleep_ticks` in front of the first `sched_yield`. The sum of ticks wraps. -/
def block (ticks : ℕ) (s : State) : State :=
  let wake := (s.now + ticks) % 2 ^ 64
  let s := s.readyUnmark s.current
  let s := s.setTask s.current { s.tasks s.current with wakeTick := wake, state := .blocked }
  if s.nextSleeperWake = 0 ∨ wake < s.nextSleeperWake then { s with nextSleeperWake := wake }
  else s

def schedSleepTicks (ticks : ℕ) (s : State) : State :=
  if ticks = 0 then s else schedYield ((block ticks s).setPhase s.current .sleeping)

/-- A task in one of the two loops goes on: it yields once more, or its sleep is at an end. -/
def resume (s : State) : State :=
  match s.phase s.current with
  | .own => s
  | .exiting => schedYield s
  | .sleeping =>
    let t := s.tasks s.current
    if t.wakeTick ≠ 0 ∧ s.now < t.wakeTick then schedYield s
    else (s.setTask s.current { t with wakeTick := 0 }).setPhase s.current .own

/-! ### The timer -/

/-- READY tasks other than the current one. -/
def others (s : State) : BitVec 32 := BitMask.clearBit s.readyMask s.current

def schedOnTimer (s : State) : State :=
  let t := s.tasks s.current
  let s := schedWakeSleepers (s.setTask s.current { t with cpuTicks := t.cpuTicks + 1 })
  if others s ≠ 0 then { s with needResched := true } else s

def schedMaybePreempt (s : State) : State :=
  if !s.needResched then s
  else
    let s := { s with needResched := false }
    if others s ≠ 0 then schedYield s else s

/-! ### Runs -/

inductive Action
  | spawn (stackOk : Bool)
  | yield
  | exit
  | kill (pid : ℕ)
  | sleep (ticks : ℕ)
  | preempt
  | guiLoad (weight : ℕ)
  | resume
  | wake
  | timer

def step (s : State) : Action → State
  | .spawn stackOk => schedSpawnKthread stackOk s
  | .yield => schedYield s
  | .exit => schedYield (schedExit s)
  | .kill pid => schedKill pid s
  | .sleep ticks => schedSleepTicks ticks s
  | .preempt => schedMaybePreempt s
  | .guiLoad weight => { s with guiFairBias := weight }
  | .resume => Sched.resume s
  | .wake => schedWakeSleepers s
  | .timer => schedOnTimer { s with now := (s.now + 1) % 2 ^ 64 }

/-- A task calls the scheduler from its own code, with a count of 64 bits; the loops and the timer
go on by themselves. -/
def Allowed (s : State) : Action → Prop
  | .sleep ticks => s.phase s.current = .own ∧ ticks < 2 ^ 64
  | .spawn _ | .yield | .exit | .kill _ | .preempt | .guiLoad _ => s.phase s.current = .own
  | .resume => s.phase s.current ≠ .own
  | .wake | .timer => True

def Start (s : State) : Prop := ∃ now < 2 ^ 64, s = schedInit now

/-- Slot 0 does not end and does not sleep while it is the only task that could run, and no sleep
ends at a tick that is `0` modulo `2 ^ 64`. -/
def Spares (s : State) : Action → Prop
  | .exit => s.current ≠ 0
  | .sleep ticks => ticks ≠ 0 →
      (s.now + ticks) % 2 ^ 64 ≠ 0 ∧ (s.current = 0 → s.readyMask ≠ 0)
  | _ => True

end PeakOs.Sched
