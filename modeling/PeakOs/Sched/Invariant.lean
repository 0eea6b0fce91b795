import PeakOs.Lib.Transition
import PeakOs.Sched.Model

/-!
# What the scheduler keeps

Task states, ready mask, cached tick and the log of stacks are four views of one thing, and
`Consistent` says that they agree. Two facts about slot 0 carry the switching: the idle task is
alive, and it does not go to sleep when it is the last one that could run. Then there is a task to
switch to whenever the current one blocks or ends, and no zombie is ever picked.

## Main results

* `pickNext_spec` — the task that is picked is READY
* `Poised.schedYield` — a switch, from the moment the current task has blocked or ended
-/

namespace PeakOs.Sched

open BitMask
open Function

@[simp] theorem State.setTask_self (s : State) (i : Slot) (t : Task) :
    (s.setTask i t).tasks i = t := update_self ..

variable {i : Slot} {s s' : State} {t : Task}

theorem State.setTask_of_ne (s : State) {j : Slot} (t : Task) (h : j ≠ i) :
    (s.setTask i t).tasks j = s.tasks j := update_of_ne h ..

/-! ### The mask -/

/-- Bit `i` of the mask is set exactly if slot `i` is READY. -/
def MaskOk (s : State) : Prop :=
  ∀ i : Slot, s.readyMask.getLsbD i = decide ((s.tasks i).state = .ready)

/-- Putting a slot into the mask and giving it a task that is READY. -/
theorem MaskOk.mark (h : MaskOk s) (i : Slot) (ht : t.state = .ready) :
    MaskOk ((s.setTask i t).readyMark i) := by
  intro j
  show (setBit s.readyMask i).getLsbD j = decide ((update s.tasks i t j).state = .ready)
  rw [getLsbD_setBit _ i.isLt, h j]
  by_cases hj : j = i
  · subst hj
    simp [ht]
  have hne : (j : ℕ) ≠ i := fun he => hj (Fin.ext he)
  rw [update_of_ne hj]
  simp [hne]

/-- Taking a slot out of the mask and giving it a state other than READY. -/
theorem MaskOk.unmark (h : MaskOk s) (i : Slot) (ht : t.state ≠ .ready) :
    MaskOk ((s.setTask i t).readyUnmark i) := by
  intro j
  show (clearBit s.readyMask i).getLsbD j = decide ((update s.tasks i t j).state = .ready)
  rw [getLsbD_clearBit _ i.isLt, h j]
  by_cases hj : j = i
  · subst hj
    simp [ht]
  have hne : (j : ℕ) ≠ i := fun he => hj (Fin.ext he)
  rw [update_of_ne hj]
  simp [hne]

theorem MaskOk.ne_zero_iff (h : MaskOk s) : s.readyMask ≠ 0 ↔ ∃ i, (s.tasks i).state = .ready := by
  rw [show (0 : BitVec 32) = 0#32 from rfl, BitMask.ne_zero_iff]
  constructor
  · rintro ⟨i, hi⟩
    have hlt := BitVec.lt_of_getLsbD hi
    refine ⟨⟨i, hlt⟩, ?_⟩
    have := h ⟨i, hlt⟩
    rw [hi] at this
    simpa using this.symm
  · rintro ⟨i, hi⟩
    exact ⟨i, by rw [h i]; simpa using hi⟩

theorem MaskOk.ready_of_bit (h : MaskOk s) {k : ℕ} (hk : s.readyMask.getLsbD k = true) :
    (s.tasks (Fin.ofNat 32 k)).state = .ready := by
  have hlt := BitVec.lt_of_getLsbD hk
  have := h (Fin.ofNat 32 k)
  rw [show ((Fin.ofNat 32 k : Slot) : ℕ) = k from Nat.mod_eq_of_lt hlt, hk] at this
  simpa using this.symm

/-- What `pick_next` picks: a READY task, or if there is none and no other task is RUNNING, the
current one. -/
theorem pickNext_spec (h : MaskOk s) (hrun : ∀ i, (s.tasks i).state = .running → i = s.current) :
    (s.tasks (pickNext s)).state = .ready ∨
      (∀ i, (s.tasks i).state ≠ .ready) ∧ pickNext s = s.current := by
  by_cases hm : s.readyMask = 0
  · right
    have hnone : ∀ i, (s.tasks i).state ≠ .ready := by
      intro i hi
      exact h.ne_zero_iff.2 ⟨i, hi⟩ hm
    refine ⟨hnone, ?_⟩
    simp only [pickNext, if_pos hm]
    split
    · rfl
    split
    next h0 => exact hrun 0 (h0.resolve_left (hnone 0))
    · rfl
  left
  have hlow := h.ready_of_bit (getLsbD_trailingZeros hm)
  simp only [pickNext, if_neg hm]
  generalize (if s.current.val + 1 < 32 then s.current.val + 1 else 0) = start
  split
  · exact hlow
  split
  next htail =>
    have hbit := getLsbD_trailingZeros htail
    rw [BitVec.getLsbD_ushiftRight] at hbit
    exact h.ready_of_bit hbit
  · exact hlow

/-! ### What a switch leaves alone -/

/-- From `s` to `s'` tasks change in their state alone, and none becomes BLOCKED, a ZOMBIE or
UNUSED. -/
structure Switch (s s' : State) : Prop where
  task : ∀ i, s'.tasks i = s.tasks i ∨
    ∃ st, s'.tasks i = { s.tasks i with state := st } ∧ (st = .ready ∨ st = .running)
  nextSleeperWake : s'.nextSleeperWake = s.nextSleeperWake
  stackCount : s'.stackCount = s.stackCount
  freedStacks : s'.freedStacks = s.freedStacks

theorem Switch.refl (s : State) : Switch s s := ⟨fun _ => .inl rfl, rfl, rfl, rfl⟩

theorem Switch.trans {s'' : State} (h : Switch s s') (h' : Switch s' s'') : Switch s s'' where
  task i := by
    rcases h'.task i with h2 | ⟨st, h2, hst⟩ <;> rcases h.task i with h1 | ⟨st', h1, hst'⟩
    · exact .inl (h2.trans h1)
    · exact .inr ⟨st', h2.trans h1, hst'⟩
    all_goals exact .inr ⟨st, by rw [h2, h1], hst⟩
  nextSleeperWake := h'.nextSleeperWake.trans h.nextSleeperWake
  stackCount := h'.stackCount.trans h.stackCount
  freedStacks := h'.freedStacks.trans h.freedStacks

theorem Switch.of_update {st : TaskState} (hst : st = .ready ∨ st = .running)
    (htasks : s'.tasks = update s.tasks i { s.tasks i with state := st })
    (hn : s'.nextSleeperWake = s.nextSleeperWake) (hc : s'.stackCount = s.stackCount)
    (hf : s'.freedStacks = s.freedStacks) : Switch s s' where
  task j := by
    rw [htasks]
    by_cases hj : j = i
    · subst hj
      exact .inr ⟨st, update_self .., hst⟩
    · exact .inl (update_of_ne hj ..)
  nextSleeperWake := hn
  stackCount := hc
  freedStacks := hf

theorem switch_offer (s : State) : Switch s (offer s) := by
  rw [offer]
  split
  · exact .of_update (.inl rfl) rfl rfl rfl rfl
  · exact .refl s

theorem switch_dispatch (s : State) (i : Slot) : Switch s (dispatch s i) :=
  .of_update (.inr rfl) rfl rfl rfl rfl

theorem switch_settle (s : State) : Switch s (settle s) := by
  rw [settle]
  split
  · exact .of_update (.inr rfl) rfl rfl rfl rfl
  · exact ⟨fun _ => .inl rfl, rfl, rfl, rfl⟩

theorem switch_stay (s : State) : Switch s (stay s) := by
  rw [stay]
  split
  · exact (switch_settle s).trans (switch_dispatch _ 0)
  · exact switch_settle s

theorem switch_schedYield (s : State) : Switch s (schedYield s) := by
  simp only [schedYield]
  split
  · exact (switch_offer s).trans (switch_stay _)
  · exact (switch_offer s).trans (switch_dispatch _ _)

/-! ### Sleepers and stacks -/

/-- Every BLOCKED task has a tick to wake at, and the cached tick is not later. -/
def SleepersOk (s : State) : Prop :=
  ∀ i, (s.tasks i).state = .blocked →
    (s.tasks i).wakeTick ≠ 0 ∧ s.nextSleeperWake ≠ 0 ∧ s.nextSleeperWake ≤ (s.tasks i).wakeTick

/-- A stack belongs to one task or has been given back once. -/
structure StacksOk (s : State) : Prop where
  nodup : s.freedStacks.Nodup
  freed : ∀ k ∈ s.freedStacks, k < s.stackCount
  owned : ∀ i k, (s.tasks i).kstackBase = some k → k < s.stackCount ∧ k ∉ s.freedStacks
  inj : ∀ i j k, (s.tasks i).kstackBase = some k → (s.tasks j).kstackBase = some k → i = j

theorem SleepersOk.switch (h : SleepersOk s) (hs : Switch s s') : SleepersOk s' := by
  intro i hi
  rw [hs.nextSleeperWake]
  rcases hs.task i with he | ⟨st, he, hst⟩
  · rw [he] at hi ⊢
    exact h i hi
  · rw [he] at hi
    rcases hst with rfl | rfl <;> cases hi

/-- Tasks may change as long as they keep their stacks. -/
theorem StacksOk.congr (h : StacksOk s) (hk : ∀ i, (s'.tasks i).kstackBase = (s.tasks i).kstackBase)
    (hc : s'.stackCount = s.stackCount) (hf : s'.freedStacks = s.freedStacks) : StacksOk s' where
  nodup := hf ▸ h.nodup
  freed := by rw [hf, hc]; exact h.freed
  owned i k := by rw [hk, hc, hf]; exact h.owned i k
  inj i j k := by rw [hk, hk]; exact h.inj i j k

theorem Switch.kstackBase (h : Switch s s') (i : Slot) :
    (s'.tasks i).kstackBase = (s.tasks i).kstackBase := by
  rcases h.task i with he | ⟨st, he, -⟩ <;> rw [he]

theorem StacksOk.switch (h : StacksOk s) (hs : Switch s s') : StacksOk s' :=
  h.congr hs.kstackBase hs.stackCount hs.freedStacks

/-! ### A switch -/

/-- The task states and the mask agree, and the current task is the one that runs. -/
structure Running (s : State) : Prop where
  mask : MaskOk s
  running : ∀ i, (s.tasks i).state = .running ↔ i = s.current
  idle : (s.tasks 0).state ≠ .unused ∧ (s.tasks 0).state ≠ .zombie

/-- The same while the current task may have blocked or ended: slot 0 does so only if another task
is READY. -/
structure Poised (s : State) : Prop where
  mask : MaskOk s
  only : ∀ i, (s.tasks i).state = .running → i = s.current
  alive : (s.tasks s.current).state ≠ .unused
  idle : (s.tasks 0).state ≠ .unused ∧ (s.tasks 0).state ≠ .zombie
  another : s.current = 0 → (s.tasks 0).state = .running ∨ ∃ i, (s.tasks i).state = .ready

theorem Running.poised (h : Running s) : Poised s where
  mask := h.mask
  only i := (h.running i).1
  alive := by rw [(h.running s.current).2 rfl]; decide
  idle := h.idle
  another h0 := .inl ((h.running 0).2 h0.symm)

theorem MaskOk.dispatch (h : MaskOk s) (i : Slot) : MaskOk (dispatch s i) :=
  MaskOk.unmark (s := { s with current := i, ctxSwitches := s.ctxSwitches + 1 }) h i (by simp)

/-- With nobody RUNNING, the dispatched task is the one that runs. -/
theorem running_dispatch (hm : MaskOk s) (hnone : ∀ i, (s.tasks i).state ≠ .running)
    (hidle : (s.tasks 0).state ≠ .unused ∧ (s.tasks 0).state ≠ .zombie) (i : Slot) :
    Running (dispatch s i) where
  mask := hm.dispatch i
  running j := by
    show (update s.tasks i _ j).state = .running ↔ j = i
    by_cases hj : j = i
    · subst hj
      simp
    · simp [hj, hnone j]
  idle := by
    show (update s.tasks i _ 0).state ≠ .unused ∧
      (update s.tasks i _ 0).state ≠ .zombie
    by_cases hi : (0 : Slot) = i
    · subst hi
      simp
    · rwa [update_of_ne hi]

theorem offer_of_running (h : (s.tasks s.current).state = .running) :
    offer s = (s.setState s.current .ready).readyMark s.current := if_pos h

theorem offer_of_ne (h : (s.tasks s.current).state ≠ .running) : offer s = s :=
  if_neg h

@[simp] theorem offer_current (s : State) : (offer s).current = s.current := by
  rw [offer]
  split <;> rfl

theorem MaskOk.offer (h : MaskOk s) : MaskOk (offer s) := by
  rw [Sched.offer]
  split
  · exact h.mark _ rfl
  · exact h

theorem offer_task_of_ne (hi : i ≠ s.current) : (offer s).tasks i = s.tasks i := by
  rw [offer]
  split
  · exact update_of_ne hi ..
  · rfl

theorem offer_not_running (h : ∀ i, (s.tasks i).state = .running → i = s.current)
    (i : Slot) : ((offer s).tasks i).state ≠ .running := by
  by_cases hr : (s.tasks s.current).state = .running
  · rw [offer_of_running hr]
    show (update s.tasks s.current _ i).state ≠ .running
    by_cases hi : i = s.current
    · subst hi
      simp
    · rw [update_of_ne hi]
      exact fun hi' => hi (h i hi')
  · rw [offer_of_ne hr]
    exact fun hi => hr (h i hi ▸ hi)

theorem offer_idle (h : (s.tasks 0).state ≠ .unused ∧ (s.tasks 0).state ≠ .zombie) :
    ((offer s).tasks 0).state ≠ .unused ∧ ((offer s).tasks 0).state ≠ .zombie := by
  rcases (switch_offer s).task 0 with he | ⟨st, he, rfl | rfl⟩
  · rwa [he]
  all_goals
    rw [he]
    exact ⟨nofun, nofun⟩

/-- The current task goes on. -/
theorem running_stay_of_ready (hm : MaskOk s) (hnone : ∀ i, (s.tasks i).state ≠ .running)
    (hidle : (s.tasks 0).state ≠ .unused ∧ (s.tasks 0).state ≠ .zombie)
    (hready : (s.tasks s.current).state = .ready) : Running (stay s) := by
  have hsettle : settle s = (s.setState s.current .running).readyUnmark s.current := by
    rw [settle, if_pos hready]
  have hrun : ((settle s).tasks s.current).state = .running := by
    rw [hsettle]
    exact congrArg Task.state (update_self s.current _ s.tasks)
  have hstay : stay s = settle s := by
    rw [stay, hrun]
    exact if_neg (by simp)
  rw [hstay, hsettle]
  have h := running_dispatch hm hnone hidle s.current
  exact ⟨h.mask, h.running, h.idle⟩

/-- The current task has blocked or ended and nobody is READY: the idle task takes over. -/
theorem stay_of_not_ready (hready : (s.tasks s.current).state ≠ .ready)
    (hgone : (s.tasks s.current).state = .blocked ∨ (s.tasks s.current).state = .zombie)
    (hidle : (s.tasks 0).state ≠ .unused) (hcur : s.current ≠ 0) :
    stay s = dispatch (s.readyUnmark s.current) 0 := by
  have hsettle : settle s = s.readyUnmark s.current := by rw [settle, if_neg hready]
  rw [stay, hsettle]
  exact if_pos ⟨hgone, hidle, hcur⟩

theorem MaskOk.readyUnmark (h : MaskOk s) (hi : (s.tasks i).state ≠ .ready) :
    MaskOk (s.readyUnmark i) := by
  have := h.unmark i hi
  rwa [State.setTask, update_eq_self] at this

/-- **A switch** leaves exactly one task RUNNING. -/
theorem Poised.schedYield (h : Poised s) : Running (schedYield s) := by
  have hm := h.mask.offer
  have hnone := offer_not_running h.only
  have hidle := offer_idle h.idle
  simp only [Sched.schedYield]
  rcases pickNext_spec hm (fun i hi => absurd hi (hnone i)) with hready | ⟨hnobody, hpick⟩
  · split
    next hcur => exact running_stay_of_ready hm hnone hidle (hcur ▸ hready)
    · exact running_dispatch hm hnone hidle _
  rw [if_pos hpick]
  -- nobody is READY, so that the current task was not RUNNING either
  have hcur : (s.tasks s.current).state ≠ .running := by
    intro hr
    refine hnobody s.current ?_
    rw [offer_of_running hr]
    exact congrArg Task.state (update_self s.current _ s.tasks)
  rw [offer_of_ne hcur] at hnobody hm hnone hidle ⊢
  have hne : s.current ≠ 0 := by
    intro h0
    rcases h.another h0 with hr | ⟨i, hi⟩
    · exact hcur (h0 ▸ hr)
    · exact hnobody i hi
  have hgone : (s.tasks s.current).state = .blocked ∨ (s.tasks s.current).state = .zombie := by
    have h1 := h.alive
    have h2 := hnobody s.current
    cases hst : (s.tasks s.current).state <;> simp_all
  rw [stay_of_not_ready (hnobody _) hgone hidle.1 hne]
  exact running_dispatch (hm.readyUnmark (hnobody _)) hnone hidle 0

/-- Whoever is switched to was alive. -/
theorem schedYield_alive (hm : MaskOk s) (honly : ∀ i, (s.tasks i).state = .running → i = s.current)
    (hidle : s.current = 0 ∨ (s.tasks 0).state ≠ .unused ∧ (s.tasks 0).state ≠ .zombie)
    (hne : (schedYield s).current ≠ s.current) : (s.tasks (schedYield s).current).state ≠ .unused ∧
      (s.tasks (schedYield s).current).state ≠ .zombie := by
  have hspec := pickNext_spec hm.offer (fun i hi => absurd hi (offer_not_running honly i))
  simp only [schedYield] at hne ⊢
  split at hne
  next hpick =>
    rw [if_pos hpick]
    -- staying with the current task changes `current` only to slot 0
    have hstay : (stay (offer s)).current = (offer s).current ∨ (stay (offer s)).current = 0 := by
      rw [stay]
      split
      · exact .inr rfl
      left
      rw [settle]
      split <;> rfl
    rcases hstay with he | he
    · exact absurd (he.trans (offer_current s)) hne
    · rw [he] at hne ⊢
      exact hidle.resolve_left (Ne.symm hne)
  next hpick =>
    rw [if_neg hpick]
    have hdiff : pickNext (offer s) ≠ s.current := by rwa [offer_current] at hpick
    rcases hspec with hready | ⟨-, hcur⟩
    · rw [offer_task_of_ne hdiff] at hready
      rw [show (dispatch (offer s) (pickNext (offer s))).current = pickNext (offer s) from rfl,
        hready]
      exact ⟨nofun, nofun⟩
    · exact absurd hcur hpick

end PeakOs.Sched
