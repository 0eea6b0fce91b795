import PeakOs.Sched.Invariant

/-!
# Runs of the scheduler

The invariant over whole runs. Three kinds of call break it, and `Spares` leaves them out:

* slot 0 goes to sleep while no other task is READY. `sched_yield` then finds nobody to switch to
  and returns with the current task BLOCKED, so that no task is RUNNING;
* slot 0 ends. `sched_yield` falls back on slot 0 without a look at its state, and dispatches the
  zombie when all other tasks sleep;
* a sleep whose last tick is `0` modulo `2 ^ 64`. A wake tick of `0` means no timer, so the sleeper
  is never woken, and the cached tick is overwritten with "no sleepers" for all the others too.

## Main results

* `Consistent.step` — one step
* `sound_of_run` — every run without such calls
* `idle_sleeps_alone`, `zombie_dispatched`, `sleepers_forgotten` — the three calls
-/

namespace PeakOs.Sched

open BitMask List
open Function

/-! ### Waking -/

/-- A sleeper whose tick has come. -/
def Due (now : ℕ) (t : Task) : Prop := t.state = .blocked ∧ t.wakeTick ≠ 0 ∧ t.wakeTick ≤ now

instance (now : ℕ) (t : Task) : Decidable (Due now t) :=
  inferInstanceAs (Decidable (_ ∧ _ ∧ _))

def wakeTask (now : ℕ) (t : Task) : Task :=
  if Due now t then { t with wakeTick := 0, state := .ready } else t

variable {now ticks : ℕ} {t : Task} {s s' : State} {i : Slot}

theorem wakeTask_of_due (h : Due now t) :
    wakeTask now t = { t with wakeTick := 0, state := .ready } := if_pos h

theorem wakeTask_of_not_due (h : ¬ Due now t) : wakeTask now t = t := if_neg h

/-- Who is still BLOCKED was not touched. -/
theorem wakeTask_eq_of_blocked (h : (wakeTask now t).state = .blocked) : wakeTask now t = t := by
  by_cases hd : Due now t
  · rw [wakeTask_of_due hd] at h
    cases h
  · exact wakeTask_of_not_due hd

theorem wakeTask_idem (now : ℕ) (t : Task) : wakeTask now (wakeTask now t) = wakeTask now t := by
  by_cases hd : Due now t
  · refine wakeTask_of_not_due fun h => ?_
    rw [wakeTask_of_due hd] at h
    cases h.1
  · rw [wakeTask_of_not_due hd, wakeTask_of_not_due hd]

theorem wakeTask_kstackBase (now : ℕ) (t : Task) : (wakeTask now t).kstackBase = t.kstackBase := by
  rw [wakeTask]
  split <;> rfl

/-- What the loop has done once it has been through the slots of `l`: it has woken them, and the
tick it carries is not later than that of any sleeper left among them. -/
structure Woken (l : List Slot) (r r' : State × ℕ) : Prop where
  tasks : ∀ i, r'.1.tasks i = if i ∈ l then wakeTask r.1.now (r.1.tasks i) else r.1.tasks i
  mask : MaskOk r.1 → MaskOk r'.1
  now : r'.1.now = r.1.now
  current : r'.1.current = r.1.current
  stackCount : r'.1.stackCount = r.1.stackCount
  freedStacks : r'.1.freedStacks = r.1.freedStacks
  earlier : r.2 ≠ 0 → r'.2 ≠ 0 ∧ r'.2 ≤ r.2
  earliest : ∀ i ∈ l, (r'.1.tasks i).state = .blocked → (r'.1.tasks i).wakeTick ≠ 0 →
    r'.2 ≠ 0 ∧ r'.2 ≤ (r'.1.tasks i).wakeTick

theorem Woken.refl (r : State × ℕ) : Woken [] r r where
  tasks i := by simp
  mask := id
  now := rfl
  current := rfl
  stackCount := rfl
  freedStacks := rfl
  earlier h := ⟨h, le_rfl⟩
  earliest i hi := by cases hi

theorem Woken.trans {l l' : List Slot} {r r' r'' : State × ℕ} (h : Woken l r r')
    (h' : Woken l' r' r'') : Woken (l ++ l') r r'' where
  tasks i := by
    rw [h'.tasks, h.tasks, h.now]
    by_cases hl : i ∈ l <;> by_cases hl' : i ∈ l' <;> simp [hl, hl', wakeTask_idem]
  mask hm := h'.mask (h.mask hm)
  now := h'.now.trans h.now
  current := h'.current.trans h.current
  stackCount := h'.stackCount.trans h.stackCount
  freedStacks := h'.freedStacks.trans h.freedStacks
  earlier hr :=
    have h1 := h.earlier hr
    have h2 := h'.earlier h1.1
    ⟨h2.1, h2.2.trans h1.2⟩
  earliest i hi hb hw := by
    rcases mem_append.1 hi with hl | hl'
    · -- still BLOCKED after the second part, so the second part has left it alone
      have hsame : r''.1.tasks i = r'.1.tasks i := by
        rw [h'.tasks] at hb ⊢
        split at hb
        next hmem => rw [if_pos hmem, wakeTask_eq_of_blocked hb]
        next hmem => rw [if_neg hmem]
      rw [hsame] at hb hw ⊢
      have h1 := h.earliest i hl hb hw
      have h2 := h'.earlier h1.1
      exact ⟨h2.1, h2.2.trans h1.2⟩
    · exact h'.earliest i hl' hb hw

/-- A slot that is not due stays as it is. -/
theorem Woken.keep {next next' : ℕ} (hd : ¬ Due s.now (s.tasks i))
    (hearlier : next ≠ 0 → next' ≠ 0 ∧ next' ≤ next)
    (hearliest : (s.tasks i).state = .blocked → (s.tasks i).wakeTick ≠ 0 →
      next' ≠ 0 ∧ next' ≤ (s.tasks i).wakeTick) : Woken [i] (s, next) (s, next') where
  tasks j := by
    by_cases hj : j = i
    · subst hj
      rw [wakeTask_of_not_due hd, ite_self]
    · rw [if_neg (by simpa using hj)]
  mask := id
  now := rfl
  current := rfl
  stackCount := rfl
  freedStacks := rfl
  earlier := hearlier
  earliest j hj := by
    rw [mem_singleton] at hj
    subst hj
    exact hearliest

theorem woken_wakeSlot (s : State) (next : ℕ) (i : Slot) :
    Woken [i] (s, next) (wakeSlot (s, next) i) := by
  simp only [wakeSlot]
  split
  next hno =>
    refine .keep (fun hd => ?_) (fun h => ⟨h, le_rfl⟩) (fun hb hw => ?_)
    · rcases hno with hb | hw
      · exact hb hd.1
      · exact hd.2.1 hw
    rcases hno with hb' | hw'
    · exact absurd hb hb'
    · exact absurd hw' hw
  rename_i hyes
  push Not at hyes
  split
  next hdue =>
    have hd : Due s.now (s.tasks i) := ⟨hyes.1, hyes.2, hdue⟩
    refine ⟨fun j => ?_, fun hm => hm.mark i rfl, rfl, rfl, rfl, rfl, fun h => ⟨h, le_rfl⟩,
      fun j hj hb => ?_⟩
    · show update s.tasks i _ j = _
      by_cases hj : j = i
      · subst hj
        rw [update_self, if_pos (mem_singleton_self j), wakeTask_of_due hd]
      · rw [update_of_ne hj, if_neg (by simpa using hj)]
    rw [mem_singleton] at hj
    subst hj
    replace hb : (update s.tasks j _ j).state = .blocked := hb
    rw [update_self] at hb
    cases hb
  rename_i hlater
  have hd : ¬ Due s.now (s.tasks i) := fun hd => hlater hd.2.2
  split
  next hfirst =>
    exact .keep hd (fun h => ⟨hyes.2, (hfirst.resolve_left h).le⟩) (fun _ _ => ⟨hyes.2, le_rfl⟩)
  next hother =>
    push Not at hother
    exact .keep hd (fun h => ⟨h, le_rfl⟩) (fun _ _ => hother)

theorem woken_foldl (l : List Slot) (r : State × ℕ) : Woken l r (l.foldl wakeSlot r) := by
  induction l generalizing r with
  | nil => exact .refl r
  | cons i l ih => exact (woken_wakeSlot r.1 r.2 i).trans (ih _)

/-! ### The invariant -/

/-- The redundant views of the scheduler agree. -/
structure Consistent (s : State) : Prop extends Running s where
  sleepers : SleepersOk s
  stacksOk : StacksOk s

theorem Poised.consistent (h : Poised s) (hs : SleepersOk s) (hk : StacksOk s) :
    Consistent (Sched.schedYield s) :=
  ⟨h.schedYield, hs.switch (switch_schedYield s), hk.switch (switch_schedYield s)⟩

theorem State.setTask_proj {β : Type} (g : Task → β) (hg : g t = g (s.tasks i)) (j : Slot) :
    g ((s.setTask i t).tasks j) = g (s.tasks j) := by
  by_cases hj : j = i
  · subst hj
    rw [setTask_self, hg]
  · rw [setTask_of_ne _ _ hj]

/-- Whose stack it is. -/
theorem owner_setTask {j : Slot} {k : ℕ} (hj : ((s.setTask i t).tasks j).kstackBase = some k) :
    j = i ∧ t.kstackBase = some k ∨ j ≠ i ∧ (s.tasks j).kstackBase = some k := by
  by_cases hji : j = i
  · subst hji
    rw [State.setTask_self] at hj
    exact .inl ⟨rfl, hj⟩
  · rw [s.setTask_of_ne t hji] at hj
    exact .inr ⟨hji, hj⟩

/-- A slot loses its stack without giving it back. -/
theorem StacksOk.setNone (h : StacksOk s) (i : Slot)
    (ht : t.kstackBase = none) : StacksOk (s.setTask i t) := by
  have hk : ∀ j k, ((s.setTask i t).tasks j).kstackBase = some k →
      (s.tasks j).kstackBase = some k := by
    intro j k hj
    rcases owner_setTask hj with ⟨-, hnew⟩ | ⟨-, hold⟩
    · cases ht.symm.trans hnew
    · exact hold
  exact ⟨h.nodup, h.freed, fun j k hj => h.owned j k (hk j k hj),
    fun j j' k hj hj' => h.inj j j' k (hk j k hj) (hk j' k hj')⟩

/-- The stack of a slot is given back, for the first time. -/
theorem StacksOk.reapTaskStack (h : StacksOk s) (i : Slot) : StacksOk (reapTaskStack s i) := by
  rw [Sched.reapTaskStack]
  split
  · exact h
  rename_i k hk
  obtain ⟨hlt, hnot⟩ := h.owned i k hk
  have hnone := h.setNone i (t := { s.tasks i with kstackBase := none }) rfl
  refine ⟨?_, fun k' hk' => ?_, fun j k' hj => ⟨(hnone.owned j k' hj).1, ?_⟩, hnone.inj⟩
  · exact nodup_append.2 ⟨h.nodup, nodup_singleton k, by
      rintro a ha b hb rfl
      exact hnot (mem_singleton.1 hb ▸ ha)⟩
  · rcases mem_append.1 hk' with hk' | hk'
    · exact h.freed k' hk'
    · rw [mem_singleton.1 hk']
      exact hlt
  intro hmem
  rcases mem_append.1 hmem with hmem | hmem
  · exact (hnone.owned j k' hj).2 hmem
  -- the stack just given back belonged to no other slot
  rw [mem_singleton] at hmem
  subst hmem
  rcases owner_setTask hj with ⟨-, hnew⟩ | ⟨hji, hold⟩
  · cases hnew
  · exact hji (h.inj j i k' hold hk)

theorem StacksOk.alloc (h : StacksOk s) (i : Slot) (ht : t.kstackBase = some s.stackCount) :
    StacksOk { s.setTask i t with stackCount := s.stackCount + 1 } := by
  have hk : ∀ j k, ((s.setTask i t).tasks j).kstackBase = some k →
      j = i ∧ s.stackCount = k ∨ j ≠ i ∧ (s.tasks j).kstackBase = some k := fun j k hj =>
    (owner_setTask hj).imp_left (And.imp_right fun hnew => Option.some.inj (ht.symm.trans hnew))
  refine ⟨h.nodup, fun k hk => (h.freed k hk).trans (Nat.lt_succ_self _), fun j k hj => ?_,
    fun j j' k hj hj' => ?_⟩
  · rcases hk j k hj with ⟨-, rfl⟩ | ⟨-, hold⟩
    · exact ⟨Nat.lt_succ_self _, fun hm => lt_irrefl _ (h.freed _ hm)⟩
    · exact ⟨(h.owned j k hold).1.trans (Nat.lt_succ_self _), (h.owned j k hold).2⟩
  rcases hk j k hj with ⟨hji, hnew⟩ | ⟨-, hold⟩ <;>
    rcases hk j' k hj' with ⟨hji', hnew'⟩ | ⟨-, hold'⟩
  · rw [hji, hji']
  · exact absurd (h.owned j' k hold').1 (by omega)
  · exact absurd (h.owned j k hold).1 (by omega)
  · exact h.inj j j' k hold hold'

theorem reapTaskStack_task_of_ne {j : Slot} (hj : j ≠ i) :
    (reapTaskStack s i).tasks j = s.tasks j := by
  rw [reapTaskStack]
  split
  · rfl
  · exact update_of_ne hj ..

@[simp] theorem vacate_state (s : State) (i : Slot) : ((vacate s i).tasks i).state = .unused :=
  congrArg Task.state (State.setTask_self _ i _)

/-- The parts of `block`. -/
theorem block_spec (ticks : ℕ) (s : State) :
    (block ticks s).tasks = (s.setTask s.current { s.tasks s.current with
        wakeTick := (s.now + ticks) % 2 ^ 64, state := .blocked }).tasks ∧
      (block ticks s).readyMask = clearBit s.readyMask s.current ∧
      (block ticks s).current = s.current ∧ (block ticks s).stackCount = s.stackCount ∧
      (block ticks s).freedStacks = s.freedStacks ∧
      (block ticks s).nextSleeperWake =
        if s.nextSleeperWake = 0 ∨ (s.now + ticks) % 2 ^ 64 < s.nextSleeperWake then
          (s.now + ticks) % 2 ^ 64
        else s.nextSleeperWake := by
  simp only [block]
  split
  next hfirst =>
    refine ⟨rfl, rfl, rfl, rfl, rfl, (if_pos ?_).symm⟩
    exact hfirst
  next hlater =>
    refine ⟨rfl, rfl, rfl, rfl, rfl, (if_neg ?_).symm⟩
    exact hlater

theorem MaskOk.block (h : MaskOk s) (ticks : ℕ) : MaskOk (block ticks s) := by
  obtain ⟨htasks, hmask, -⟩ := block_spec ticks s
  intro j
  rw [hmask, htasks]
  exact h.unmark s.current (t := { s.tasks s.current with
    wakeTick := (s.now + ticks) % 2 ^ 64, state := .blocked }) nofun j

/-! ### What keeps the invariant -/

section

variable (h : Consistent s)
include h

theorem Consistent.schedYield : Consistent (Sched.schedYield s) :=
  h.toRunning.poised.consistent h.sleepers h.stacksOk

/-- One slot changes, and is not what runs unless it is the current one. -/
theorem Consistent.put (hothers : ∀ j, j ≠ i → s'.tasks j = s.tasks j)
    (hcur : s'.current = s.current) (hnext : s'.nextSleeperWake = s.nextSleeperWake)
    (hmask : MaskOk s') (hrun : (s'.tasks i).state = .running ↔ i = s.current)
    (hidle : i = 0 → (s'.tasks i).state ≠ .unused ∧ (s'.tasks i).state ≠ .zombie)
    (hsleep : (s'.tasks i).state = .blocked → (s'.tasks i).wakeTick ≠ 0 ∧
      s.nextSleeperWake ≠ 0 ∧ s.nextSleeperWake ≤ (s'.tasks i).wakeTick)
    (hstacks : StacksOk s') : Consistent s' := by
  refine ⟨⟨hmask, fun j => ?_, ?_⟩, fun j hj => ?_, hstacks⟩
  · rw [hcur]
    by_cases hj : j = i
    · rwa [hj]
    · rw [hothers j hj]
      exact h.running j
  · by_cases hi : i = 0
    · exact hi ▸ hidle hi
    · rw [hothers 0 (Ne.symm hi)]
      exact h.idle
  rw [hnext]
  by_cases hji : j = i
  · subst hji
    exact hsleep hj
  · rw [hothers j hji] at hj ⊢
    exact h.sleepers j hj

/-- A task may change in what the invariant does not look at. -/
theorem Consistent.setTask
    (hst : t.state = (s.tasks i).state) (hk : t.kstackBase = (s.tasks i).kstackBase)
    (hw : t.state = .blocked → t.wakeTick = (s.tasks i).wakeTick) : Consistent (s.setTask i t) := by
  have hstate := State.setTask_proj Task.state hst
  refine h.put (i := i) (fun j hj => s.setTask_of_ne t hj) rfl rfl (fun j => ?_) ?_ (fun h0 => ?_)
    (fun hb => ?_) (h.stacksOk.congr (State.setTask_proj Task.kstackBase hk) rfl rfl)
  · rw [hstate]
    exact h.mask j
  · rw [hstate]
    exact h.running i
  · rw [hstate, h0]
    exact h.idle
  rw [State.setTask_self] at hb ⊢
  rw [hw hb]
  exact h.sleepers i (hst ▸ hb)

theorem Consistent.schedWakeSleepers : Consistent (Sched.schedWakeSleepers s) := by
  rw [Sched.schedWakeSleepers]
  split
  · exact h
  have hw := woken_foldl (finRange 32) (s, 0)
  generalize (finRange 32).foldl wakeSlot (s, 0) = r at hw ⊢
  have htasks : ∀ i, r.1.tasks i = wakeTask s.now (s.tasks i) := fun i => by
    rw [hw.tasks, if_pos (mem_finRange i)]
  refine ⟨⟨hw.mask h.mask, fun i => ?_, ?_⟩, fun i hb => ?_, h.stacksOk.congr (fun i => ?_)
    hw.stackCount hw.freedStacks⟩
  · rw [hw.current, htasks, ← h.running, wakeTask]
    split
    next hd => simp [hd.1]
    · rfl
  · rw [htasks, wakeTask]
    split
    · exact ⟨nofun, nofun⟩
    · exact h.idle
  · have hsame : r.1.tasks i = s.tasks i := by
      rw [htasks] at hb ⊢
      exact wakeTask_eq_of_blocked hb
    have hne : (r.1.tasks i).wakeTick ≠ 0 := by
      rw [hsame] at hb ⊢
      exact (h.sleepers i hb).1
    exact ⟨hne, hw.earliest i (mem_finRange i) hb hne⟩
  · rw [htasks, wakeTask_kstackBase]

/-- A sleeper whose tick has come is READY after the call. -/
theorem Consistent.woken (hb : (s.tasks i).state = .blocked) (hw : (s.tasks i).wakeTick ≤ s.now) :
    ((Sched.schedWakeSleepers s).tasks i).state = .ready := by
  obtain ⟨hne, hcache, hle⟩ := h.sleepers i hb
  rw [Sched.schedWakeSleepers, if_neg (by omega)]
  have hl := (woken_foldl (finRange 32) (s, 0)).tasks i
  rw [hl, if_pos (mem_finRange i), wakeTask_of_due ⟨hb, hne, hw⟩]

/-! ### Tasks come and go -/

theorem Consistent.congr (ht : s'.tasks = s.tasks)
    (hc : s'.current = s.current) (hm : s'.readyMask = s.readyMask)
    (hn : s'.nextSleeperWake = s.nextSleeperWake) (hk : s'.stackCount = s.stackCount)
    (hf : s'.freedStacks = s.freedStacks) : Consistent s' := by
  refine ⟨⟨?_, ?_, ?_⟩, ?_, h.stacksOk.congr (fun i => by rw [ht]) hk hf⟩
  · intro i
    rw [hm, ht]
    exact h.mask i
  · rw [ht, hc]
    exact h.running
  · rw [ht]
    exact h.idle
  intro i
  rw [ht, hn]
  exact h.sleepers i

section

variable (hi : (s.tasks i).state = .unused ∨ (s.tasks i).state = .zombie)
include hi

theorem Consistent.ne_of_out_of_use : i ≠ s.current ∧ i ≠ 0 := by
  constructor
  · rintro rfl
    rw [(h.running _).2 rfl] at hi
    rcases hi with hi | hi <;> cases hi
  · rintro rfl
    exact hi.elim h.idle.1 h.idle.2

/-- A slot out of use gets a task that is READY, or none. -/
theorem Consistent.fill (hothers : ∀ j, j ≠ i → s'.tasks j = s.tasks j)
    (hnew : (s'.tasks i).state = .unused ∨ (s'.tasks i).state = .ready)
    (hmask : MaskOk s') (hcur : s'.current = s.current)
    (hnext : s'.nextSleeperWake = s.nextSleeperWake) (hstacks : StacksOk s') : Consistent s' := by
  obtain ⟨hne, hne0⟩ := h.ne_of_out_of_use hi
  refine h.put hothers hcur hnext hmask (iff_of_false (fun hr => ?_) hne)
    (fun h0 => absurd h0 hne0) (fun hb => ?_) hstacks
  · rw [hr] at hnew
    rcases hnew with hn | hn <;> cases hn
  · rw [hb] at hnew
    rcases hnew with hn | hn <;> cases hn

theorem Consistent.vacate : Consistent (vacate s i) := by
  have hnr : (s.tasks i).state ≠ .ready := by rcases hi with hi | hi <;> rw [hi] <;> decide
  have hfill : ∀ s₁ : State, (∀ j, j ≠ i → s₁.tasks j = s.tasks j) → s₁.readyMask = s.readyMask →
      s₁.current = s.current → s₁.nextSleeperWake = s.nextSleeperWake → StacksOk s₁ →
      Consistent { s₁.setTask i { Task.clear with pid := s₁.nextPid } with
        nextPid := s₁.nextPid + 1 } := by
    intro s₁ hothers hmask hcur hnext hstacks
    have hset := fun j (hj : j ≠ i) => s₁.setTask_of_ne { Task.clear with pid := s₁.nextPid } hj
    refine h.fill hi (fun j hj => (hset j hj).trans (hothers j hj)) (.inl ?_) (fun j => ?_) hcur
      hnext ((hstacks.setNone i rfl).congr (fun _ => rfl) rfl rfl)
    · exact congrArg Task.state (s₁.setTask_self i _)
    show s₁.readyMask.getLsbD j = decide (((s₁.setTask i _).tasks j).state = .ready)
    rw [hmask, h.mask j]
    by_cases hj : j = i
    · subst hj
      simp [hnr, Task.clear]
    · rw [hset j hj, hothers j hj]
  simp only [Sched.vacate]
  split
  · refine hfill _ (fun j hj => reapTaskStack_task_of_ne hj) ?_ ?_ ?_ (h.stacksOk.reapTaskStack i)
    all_goals
      rw [Sched.reapTaskStack]
      split <;> rfl
  · exact hfill s (fun _ _ => rfl) rfl rfl rfl h.stacksOk

end

theorem Consistent.launch (hi : (s.tasks i).state = .unused) : Consistent (launch s i) := by
  refine h.fill (.inl hi) (fun j hj => ?_) (.inr ?_) ?_ rfl rfl ?_
  · exact s.setTask_of_ne _ hj
  · exact congrArg Task.state (s.setTask_self i _)
  · exact h.mask.mark i rfl
  · exact (h.stacksOk.alloc i rfl).congr (fun _ => rfl) rfl rfl

theorem Consistent.spawn (stackOk : Bool) : Consistent (schedSpawnKthread stackOk s) := by
  rw [schedSpawnKthread]
  split
  · exact h
  rename_i i hfree
  have hi : (s.tasks i).state = .unused ∨ (s.tasks i).state = .zombie := by
    simpa using find?_some hfree
  split
  · exact (h.vacate hi).setTask (vacate_state s i).symm rfl nofun
  · exact (h.vacate hi).launch (vacate_state s i)

theorem Consistent.kill (pid : ℕ) : Consistent (schedKill pid s) := by
  rw [schedKill]
  split
  · exact h
  rename_i hrefused
  push Not at hrefused
  split
  · exact h
  rename_i i hfind
  have hi : i ≠ 0 ∧ (s.tasks i).pid = pid := by
    have := find?_some hfind
    simp only [Bool.and_eq_true, decide_eq_true_eq] at this
    exact ⟨this.1.1.1, this.2⟩
  have hne : i ≠ s.current := by
    rintro rfl
    exact hrefused.2.1 hi.2
  have hself : ((s.readyUnmark i).setState i .zombie).tasks i =
      { s.tasks i with state := .zombie } := State.setTask_self ..
  refine h.put (i := i) (fun j hj => State.setTask_of_ne _ _ hj) rfl rfl (h.mask.unmark i nofun)
    (iff_of_false ?_ hne) (fun h0 => absurd h0 hi.1) (fun hb => ?_) (h.stacksOk.congr ?_ rfl rfl)
  · rw [hself]
    nofun
  · rw [hself] at hb
    cases hb
  · exact State.setTask_proj Task.kstackBase rfl

/-- The current task is about to leave, with `s'` as it is then: it keeps its stack, and unless it
is slot 0 with nobody else READY there is somebody to switch to. -/
theorem Consistent.leave (hcur : s'.current = s.current)
    (hothers : ∀ j, j ≠ s.current → s'.tasks j = s.tasks j)
    (hgone : (s'.tasks s.current).state = .blocked ∨ (s'.tasks s.current).state = .zombie)
    (hidle : s.current = 0 → (s'.tasks 0).state = .blocked ∧ s.readyMask ≠ 0)
    (hk : (s'.tasks s.current).kstackBase = (s.tasks s.current).kstackBase)
    (hmask : MaskOk s') (hcount : s'.stackCount = s.stackCount)
    (hfreed : s'.freedStacks = s.freedStacks) : Poised s' ∧ StacksOk s' := by
  refine ⟨⟨hmask, fun j hj => ?_, ?_, ?_, fun h0 => .inr ?_⟩,
    h.stacksOk.congr (fun j => ?_) hcount hfreed⟩
  · rw [hcur]
    by_contra hne
    rw [hothers j hne] at hj
    exact hne ((h.running j).1 hj)
  · rw [hcur]
    rcases hgone with hg | hg <;> rw [hg] <;> decide
  · by_cases h0 : s.current = 0
    · rw [(hidle h0).1]
      exact ⟨nofun, nofun⟩
    · rw [hothers 0 (Ne.symm h0)]
      exact h.idle
  · obtain ⟨i, hi⟩ := h.mask.ne_zero_iff.1 (hidle (hcur ▸ h0)).2
    refine ⟨i, ?_⟩
    rw [hothers i, hi]
    rintro rfl
    rw [(h.running s.current).2 rfl] at hi
    cases hi
  by_cases hj : j = s.current
  · rw [hj, hk]
  · rw [hothers j hj]

theorem Consistent.exit (hcur : s.current ≠ 0) : Consistent (Sched.schedYield (schedExit s)) := by
  have hothers : ∀ j, j ≠ s.current → (schedExit s).tasks j = s.tasks j :=
    fun j hj => State.setTask_of_ne _ _ hj
  have hself : (schedExit s).tasks s.current = { s.tasks s.current with state := .zombie } :=
    State.setTask_self ..
  obtain ⟨hpoised, hstacks⟩ := @Consistent.leave s (schedExit s) h rfl hothers
    (.inr (by rw [hself])) (fun h0 => absurd h0 hcur) (by rw [hself])
    (h.mask.unmark s.current nofun) rfl rfl
  refine hpoised.consistent (fun j hj => ?_) hstacks
  by_cases hji : j = s.current
  · rw [hji, hself] at hj
    cases hj
  · rw [hothers j hji] at hj ⊢
    exact h.sleepers j hj

theorem Consistent.sleep
    (hwake : (s.now + ticks) % 2 ^ 64 ≠ 0) (hidle : s.current = 0 → s.readyMask ≠ 0) :
    Consistent (schedSleepTicks ticks s) := by
  rw [schedSleepTicks]
  split
  · exact h
  have hm := h.mask.block ticks
  obtain ⟨htasks, -, hcur, hcount, hfreed, hnext⟩ := block_spec ticks s
  generalize block ticks s = s' at hm htasks hcur hcount hfreed hnext ⊢
  generalize (s.now + ticks) % 2 ^ 64 = wake at *
  have hothers : ∀ j, j ≠ s.current → s'.tasks j = s.tasks j := fun j hj => by
    rw [htasks, s.setTask_of_ne _ hj]
  have hself : s'.tasks s.current =
      { s.tasks s.current with wakeTick := wake, state := .blocked } := by
    rw [htasks, State.setTask_self]
  have hk : (s'.tasks s.current).kstackBase = (s.tasks s.current).kstackBase := by rw [hself]
  obtain ⟨hpoised, hstacks⟩ := @Consistent.leave s (s'.setPhase s.current .sleeping) h hcur hothers
    (.inl (congrArg Task.state hself))
    (fun h0 => ⟨congrArg Task.state (h0 ▸ hself), hidle h0⟩) hk hm hcount hfreed
  refine hpoised.consistent (fun j hj => ?_) hstacks
  replace hj : (s'.tasks j).state = .blocked := hj
  show (s'.tasks j).wakeTick ≠ 0 ∧ s'.nextSleeperWake ≠ 0 ∧
    s'.nextSleeperWake ≤ (s'.tasks j).wakeTick
  rw [hnext]
  by_cases hji : j = s.current
  · rw [hji, hself]
    split
    · exact ⟨hwake, hwake, le_rfl⟩
    next hlater =>
      push Not at hlater
      exact ⟨hwake, hlater⟩
  rw [hothers j hji] at hj ⊢
  obtain ⟨h1, h2, h3⟩ := h.sleepers j hj
  split
  next hfirst => exact ⟨h1, hwake, (hfirst.resolve_left h2).le.trans h3⟩
  · exact ⟨h1, h2, h3⟩

theorem Consistent.resume : Consistent (Sched.resume s) := by
  rw [Sched.resume]
  split
  · exact h
  · exact h.schedYield
  dsimp only
  split
  · exact h.schedYield
  refine (h.setTask (i := s.current) (t := { s.tasks s.current with wakeTick := 0 }) rfl rfl
    fun hb => ?_).congr rfl rfl rfl rfl rfl rfl
  rw [(h.running s.current).2 rfl] at hb
  cases hb

theorem Consistent.schedOnTimer : Consistent (schedOnTimer s) := by
  have hw := (h.setTask (i := s.current)
    (t := { s.tasks s.current with cpuTicks := (s.tasks s.current).cpuTicks + 1 })
    rfl rfl fun _ => rfl).schedWakeSleepers
  simp only [Sched.schedOnTimer]
  split
  · exact hw.congr rfl rfl rfl rfl rfl rfl
  · exact hw

theorem Consistent.preempt : Consistent (schedMaybePreempt s) := by
  have h' : Consistent { s with needResched := false } := h.congr rfl rfl rfl rfl rfl rfl
  simp only [schedMaybePreempt]
  split
  · exact h
  split
  · exact h'.schedYield
  · exact h'

end

theorem consistent_schedInit (now : ℕ) : Consistent (schedInit now) := by
  have hstate : ∀ i, ((schedInit now).tasks i).state = if i = 0 then .running else .unused := by
    intro i
    show (update (fun _ => Task.clear) 0 _ i).state = _
    rw [update_apply]
    split_ifs <;> rfl
  have hstack : ∀ i, ((schedInit now).tasks i).kstackBase = none := by
    intro i
    show (update (fun _ => Task.clear) 0 _ i).kstackBase = _
    rw [update_apply]
    split <;> rfl
  refine ⟨⟨fun i => ?_, fun i => ?_, ?_⟩, fun i hi => ?_, ⟨nodup_nil, nofun, ?_, ?_⟩⟩
  · rw [hstate]
    show (0 : BitVec 32).getLsbD i = _
    rw [show (0 : BitVec 32) = 0#32 from rfl, BitVec.getLsbD_zero]
    split <;> rfl
  · rw [hstate]
    show _ ↔ i = 0
    split <;> simp [*]
  · exact ⟨nofun, nofun⟩
  · rw [hstate] at hi
    split at hi <;> cases hi
  · intro i k hk
    rw [hstack] at hk
    cases hk
  intro i j k hk
  rw [hstack] at hk
  cases hk

/-! ### Runs -/

/-- **One step.** -/
theorem Consistent.step (h : Consistent s) (a : Action) (hs : Spares s a) :
    Consistent (step s a) := by
  cases a with
  | spawn stackOk => exact h.spawn stackOk
  | yield => exact h.schedYield
  | exit => exact h.exit hs
  | kill pid => exact h.kill pid
  | sleep ticks =>
    by_cases ht : ticks = 0
    · show Consistent (schedSleepTicks ticks s)
      rw [schedSleepTicks, if_pos ht]
      exact h
    · exact h.sleep (hs ht).1 (hs ht).2
  | preempt => exact h.preempt
  | guiLoad weight => exact h.congr rfl rfl rfl rfl rfl rfl
  | resume => exact h.resume
  | wake => exact h.schedWakeSleepers
  | timer => exact Consistent.schedOnTimer (h.congr rfl rfl rfl rfl rfl rfl)

/-- A step that switches to a task out of use. -/
def DispatchesDead (s : State) (a : Action) : Prop :=
  (step s a).current ≠ s.current ∧
    ((s.tasks (step s a).current).state = .unused ∨ (s.tasks (step s a).current).state = .zombie)

/-- The property of a state of the scheduler, with the step that is taken next. -/
structure Sound (s : State) : Prop where
  mask : ∀ i : Slot, s.readyMask.getLsbD i = true ↔ (s.tasks i).state = .ready
  running : ∃! i, (s.tasks i).state = .running
  dispatch : ∀ a, Allowed s a → ¬ DispatchesDead s a
  stacksOnce : s.freedStacks.Nodup
  currentStack : ∀ k ∈ s.freedStacks, (s.tasks s.current).kstackBase ≠ some k
  wake : ∀ i, (s.tasks i).state = .blocked → (s.tasks i).wakeTick ≤ s.now →
    ((schedWakeSleepers s).tasks i).state = .ready

/-- Whoever is switched to was in use before the step, even if the current task has changed on the
way to the switch. -/
theorem Consistent.yield_alive {s₀ : State} (h : Consistent s) (hcur : s₀.current = s.current)
    (hothers : ∀ j, j ≠ s.current → s₀.tasks j = s.tasks j) (hmask : MaskOk s₀) :
    ¬ ((Sched.schedYield s₀).current ≠ s.current ∧
      ((s.tasks (Sched.schedYield s₀).current).state = .unused ∨
        (s.tasks (Sched.schedYield s₀).current).state = .zombie)) := by
  rintro ⟨hne, hdead⟩
  have honly : ∀ i, (s₀.tasks i).state = .running → i = s₀.current := by
    intro i hi
    rw [hcur]
    by_contra hi'
    rw [hothers i hi'] at hi
    exact hi' ((h.running i).1 hi)
  have hidle : s₀.current = 0 ∨ (s₀.tasks 0).state ≠ .unused ∧ (s₀.tasks 0).state ≠ .zombie := by
    by_cases h0 : s.current = 0
    · exact .inl (hcur.trans h0)
    right
    rw [hothers 0 (Ne.symm h0)]
    exact h.idle
  have halive := schedYield_alive hmask honly hidle (by rwa [hcur])
  rw [hothers _ hne] at halive
  rcases hdead with hd | hd
  · exact halive.1 hd
  · exact halive.2 hd

theorem schedWakeSleepers_current (s : State) : (schedWakeSleepers s).current = s.current := by
  rw [schedWakeSleepers]
  split
  · rfl
  have hc := (woken_foldl (finRange 32) (s, 0)).current
  generalize (finRange 32).foldl wakeSlot (s, 0) = r at hc ⊢
  exact hc

theorem schedSpawnKthread_current (stackOk : Bool) (s : State) :
    (schedSpawnKthread stackOk s).current = s.current := by
  have hvacate : ∀ i, (vacate s i).current = s.current := by
    intro i
    simp only [vacate]
    split
    · rw [reapTaskStack]
      split <;> rfl
    · rfl
  rw [schedSpawnKthread]
  split
  · rfl
  split <;> exact hvacate _

theorem schedKill_current (pid : ℕ) (s : State) : (schedKill pid s).current = s.current := by
  rw [schedKill]
  split
  · rfl
  split <;> rfl

theorem schedOnTimer_current (s : State) : (schedOnTimer s).current = s.current := by
  have hc := schedWakeSleepers_current (s.setTask s.current
    { s.tasks s.current with cpuTicks := (s.tasks s.current).cpuTicks + 1 })
  simp only [schedOnTimer]
  split <;> exact hc

theorem Consistent.not_dispatchesDead (h : Consistent s) (a : Action) : ¬ DispatchesDead s a := by
  cases a with
  | spawn stackOk => exact fun hd => hd.1 (schedSpawnKthread_current stackOk s)
  | yield => exact h.yield_alive rfl (fun _ _ => rfl) h.mask
  | exit =>
    exact @Consistent.yield_alive s (schedExit s) h rfl (fun j hj => State.setTask_of_ne _ _ hj)
      (h.mask.unmark s.current nofun)
  | kill pid => exact fun hd => hd.1 (schedKill_current pid s)
  | sleep ticks =>
    rw [DispatchesDead, show Sched.step s (.sleep ticks) = schedSleepTicks ticks s from rfl,
      schedSleepTicks]
    split
    · exact fun hd => hd.1 rfl
    obtain ⟨htasks, -, hcur, -⟩ := block_spec ticks s
    refine h.yield_alive hcur (fun j hj => ?_) (h.mask.block ticks)
    show (block ticks s).tasks j = _
    rw [htasks, s.setTask_of_ne _ hj]
  | preempt =>
    rw [DispatchesDead, show Sched.step s .preempt = schedMaybePreempt s from rfl,
      schedMaybePreempt]
    dsimp only
    split
    · exact fun hd => hd.1 rfl
    split
    · exact h.yield_alive rfl (fun _ _ => rfl) h.mask
    · exact fun hd => hd.1 rfl
  | guiLoad weight => exact fun hd => hd.1 rfl
  | resume =>
    rw [DispatchesDead, show Sched.step s .resume = Sched.resume s from rfl, Sched.resume]
    split
    · exact fun hd => hd.1 rfl
    · exact h.yield_alive rfl (fun _ _ => rfl) h.mask
    dsimp only
    split
    · exact h.yield_alive rfl (fun _ _ => rfl) h.mask
    · exact fun hd => hd.1 rfl
  | wake => exact fun hd => hd.1 (schedWakeSleepers_current s)
  | timer => exact fun hd => hd.1 (schedOnTimer_current _)

theorem Consistent.sound (h : Consistent s) : Sound s where
  mask i := by
    rw [h.mask i]
    exact decide_eq_true_iff
  running := ⟨s.current, (h.running _).2 rfl, fun i hi => (h.running i).1 hi⟩
  dispatch a _ := h.not_dispatchesDead a
  stacksOnce := h.stacksOk.nodup
  currentStack k hk hc := (h.stacksOk.owned _ k hc).2 hk
  wake _ hb hw := h.woken hb hw

/-- **The scheduler is sound** in every run that spares slot 0 and tick 0. -/
theorem sound_of_run {s : State}
    (h : Reach Start (fun s a => Allowed s a ∧ Spares s a) step s) : Sound s := by
  refine Consistent.sound (h.invariant Consistent ?_ ?_)
  · rintro s ⟨now, -, rfl⟩
    exact consistent_schedInit now
  · rintro s a hs ⟨-, hspares⟩
    exact hs.step a hspares

theorem start_zero : Start (schedInit 0) := ⟨0, by decide, rfl⟩

/-- The boot thread starts a task and goes to sleep. -/
theorem sound_spawn_sleep : Sound (step (step (schedInit 0) (.spawn true)) (.sleep 5)) := by
  have hspawn : Allowed (schedInit 0) (.spawn true) ∧ Spares (schedInit 0) (.spawn true) :=
    ⟨rfl, trivial⟩
  have hsleep : Allowed (step (schedInit 0) (.spawn true)) (.sleep 5) ∧
      Spares (step (schedInit 0) (.spawn true)) (.sleep 5) := by
    refine ⟨⟨?_, by decide⟩, fun _ => ⟨?_, fun _ => ?_⟩⟩ <;> decide +kernel
  exact sound_of_run (Reach.call _ (Reach.call _ (.start start_zero) hspawn) hsleep)

/-! ### The calls left out -/

/-- **The boot thread sleeps alone**, and no task is RUNNING. -/
theorem idle_sleeps_alone : ¬ ∀ s, Reach Start Allowed step s → Sound s := by
  intro hall
  have hsleep : Allowed (schedInit 0) (.sleep 1) := ⟨rfl, by decide⟩
  obtain ⟨i, hi, -⟩ := (hall _ (.call _ (.start start_zero) hsleep)).running
  have hnone : ∀ i : Slot, ((step (schedInit 0) (.sleep 1)).tasks i).state ≠ .running := by
    decide +kernel
  exact hnone i hi

/-- The boot thread ends; when the task it started goes to sleep, the zombie is dispatched. -/
theorem zombie_dispatched : ∃ s, Reach Start Allowed step s ∧ Allowed s (.sleep 1) ∧
    DispatchesDead s (.sleep 1) := by
  have hspawn : Allowed (schedInit 0) (.spawn true) := rfl
  have hexit : Allowed (step (schedInit 0) (.spawn true)) .exit := by
    rw [Allowed]
    decide +kernel
  refine ⟨step (step (schedInit 0) (.spawn true)) .exit,
    Reach.call _ (Reach.call _ (.start start_zero) hspawn) hexit, ⟨?_, by decide⟩, ?_, ?_⟩
  all_goals decide +kernel

/-- After a sleep whose last tick wraps to `0` nobody is woken, at any time, until another task goes
to sleep. -/
theorem sleepers_forgotten (s : State) (ht : ticks ≠ 0)
    (hwrap : (s.now + ticks) % 2 ^ 64 = 0) (now : ℕ) :
    schedWakeSleepers { schedSleepTicks ticks s with now } =
      { schedSleepTicks ticks s with now } := by
  rw [schedWakeSleepers, if_pos]
  left
  rw [schedSleepTicks, if_neg ht]
  rw [(switch_schedYield _).nextSleeperWake]
  show (block ticks s).nextSleeperWake = 0
  rw [(block_spec ticks s).2.2.2.2.2]
  split <;> omega

end PeakOs.Sched
