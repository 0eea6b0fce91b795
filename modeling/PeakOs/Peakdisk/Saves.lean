import PeakOs.Lib.Transition
import PeakOs.Peakdisk.Model

/-!
# Saves that run next to each other

A save of `kernel/peakdisk.c` yields: before it measures, exports, seals and writes, and after every
sixteenth sector. Three ways lead into it — a call of `peakdisk_save`, the worker that
`peakdisk_save_async` spawns, and the worker that `peakdisk_autosave_tick` spawns again — and two
flags are to keep them apart: `save_busy` while a save runs, `save_queued` while a worker waits.

`peakdisk_save` itself looks at neither. And `save_queued` stands for a worker that waits as well as
for one that could not be spawned; the tick takes it for the second and spawns another.

A task is where its save has been interrupted, and `running` is the one that has not come to a yield
yet. The export yields as well; it is one step here.

## Main results

* `prepare_ok_iff` — the checks between the yields are those of `prepare`
* `Alone.step` — one event
* `exclusive_of_run` — every run
* `two_workers_write` — two workers in the middle of their writes
-/

namespace PeakOs.Peakdisk

open Function Option

/-- Where a save has been interrupted. -/
inductive SavePc
  /-- A worker that has not started. -/
  | waiting
  /-- `save_busy` is set. -/
  | entered
  /-- There is a buffer of `need` bytes. -/
  | measured (need : ℤ)
  | exported (image : List UInt8)
  /-- The payload is ready. -/
  | sealed (image : List UInt8)
  /-- `k` sectors have been written. -/
  | writing (image : List UInt8) (k : ℕ)

structure Task where
  pc : SavePc
  worker : Bool

/-- The variables of `peakdisk.c` that saves share, and the tasks. -/
structure Saves where
  busy : Bool
  queued : Bool
  dirty : Bool
  dirtySince : UInt64
  interval : UInt32
  tasks : ℕ → Option Task
  nextTask : ℕ
  running : Option ℕ
  /-- The image of the last save that returned 0. -/
  saved : Option (List UInt8)

namespace Saves

/-! ### The steps of a save -/

/-- What a save reads before it sets `save_busy`. -/
def enterOk (env : SaveEnv) : Bool :=
  env.present && env.capDiskPersist && decide (0 < env.persistProfile)

/-- What it reads before it exports. -/
def measureOk (env : SaveEnv) : Bool :=
  decide ((minImage : ℤ) ≤ env.exportSize) && decide (env.exportSize ≤ maxImage) && env.heapOk &&
    env.allocBlob

/-- The export fits into the buffer. -/
def exportOk (need : ℤ) (image : List UInt8) : Bool :=
  decide ((image.length : ℤ) ≤ need) && decide (minImage ≤ image.length)

/-- **The checks between the yields** are those of `prepare`. -/
theorem prepare_ok_iff (env : SaveEnv) (pass : List UInt8) :
    (∃ save, prepare env pass = .ok save) ↔
      enterOk env = true ∧ measureOk env = true ∧ exportOk env.exportSize env.exported = true := by
  rw [prepare, enterOk, measureOk, exportOk]
  simp only [Bool.and_eq_true, decide_eq_true_iff]
  constructor
  · rintro ⟨save, h⟩
    split_ifs at h
    simp_all
    omega
  rintro ⟨⟨⟨hp, hc⟩, hprof⟩, ⟨⟨⟨hmin, hmax⟩, hheap⟩, halloc⟩, hfit, hlen⟩
  rw [hp, hc, hheap, halloc, dif_neg (not_lt.2 hmax), dif_neg (not_lt.2 hfit),
    dif_neg (not_lt.2 hlen), if_neg (not_le.2 hprof), if_neg (not_lt.2 hmin)]
  exact ⟨_, rfl⟩

/-- The task is interrupted at `pc`. -/
def park (i : ℕ) (t : Task) (pc : SavePc) (q : Saves) : Saves :=
  { q with tasks := Function.update q.tasks i (some { t with pc := pc }), running := none }

/-- The task goes on to `pc` without a yield. -/
def go (i : ℕ) (t : Task) (pc : SavePc) (q : Saves) : Saves :=
  { q with tasks := Function.update q.tasks i (some { t with pc := pc }), running := some i }

/-- The save is over before `save_busy` was set. -/
def leave (i : ℕ) (q : Saves) : Saves :=
  { q with tasks := Function.update q.tasks i none, running := none }

/-- The save has failed. -/
def fail (i : ℕ) (q : Saves) : Saves := { leave i q with busy := false }

/-- The save has succeeded. -/
def complete (i : ℕ) (image : List UInt8) (q : Saves) : Saves :=
  { leave i q with busy := false, dirty := false, saved := some image }

/-- `peakdisk_save` up to its first yield. -/
def enter (env : SaveEnv) (i : ℕ) (t : Task) (q : Saves) : Saves :=
  if enterOk env then park i t .entered { q with busy := true } else leave i q

/-- Task `i` goes on; `diskOk` is the answer of the device, if it is asked. -/
def resume (env : SaveEnv) (diskOk : Bool) (i : ℕ) (q : Saves) : Saves :=
  match q.tasks i with
  | none => q
  | some t =>
    match t.pc with
    -- `peakdisk_save_worker`
    | .waiting => enter env i t { q with queued := false }
    | .entered => if measureOk env then park i t (.measured env.exportSize) q else fail i q
    | .measured need =>
      if exportOk need env.exported then park i t (.exported env.exported) q else fail i q
    | .exported image => park i t (.sealed image) q
    | .sealed image => go i t (.writing image 0) q
    | .writing image k =>
      if !diskOk then fail i q
      else if k < blockCount sectorSize image.length then
        if k % 16 = 15 then park i t (.writing image (k + 1)) q
        else go i t (.writing image (k + 1)) q
      -- the flush, the header, and the flush after it
      else complete i image q

/-! ### The ways in -/

/-- `sched_spawn_kthread` for a worker. -/
def spawnWorker (ok : Bool) (q : Saves) : Saves :=
  if ok then
    { q with
      tasks := Function.update q.tasks q.nextTask (some ⟨.waiting, true⟩)
      nextTask := q.nextTask + 1 }
  else q

def peakdiskSaveAsync (present spawn : Bool) (q : Saves) : Saves :=
  if !present then q
  else if q.busy || q.queued then q
  else spawnWorker spawn { q with queued := true }

/-- What `peakdisk_autosave_tick` reads from the rest of the kernel. -/
structure TickEnv where
  present : Bool
  capDiskPersist : Bool
  persistProfile : ℤ
  now : UInt64
  exportSize : ℤ
  heapOk : Bool
  spawn : Bool

def peakdiskAutosaveTick (env : TickEnv) (q : Saves) : Saves :=
  if q.queued && !q.busy then spawnWorker env.spawn q
  else if !q.dirty || q.interval == 0 || !env.present then q
  else if q.busy || q.queued then q
  else if env.persistProfile ≤ 0 then q
  else if !env.capDiskPersist then q
  else if env.now - q.dirtySince < q.interval.toUInt64 then q
  else if (minImage : ℤ) ≤ env.exportSize ∧ !env.heapOk then q
  else peakdiskSaveAsync env.present env.spawn q

def peakdiskMarkDirty (now : UInt64) (q : Saves) : Saves :=
  if !q.dirty then { q with dirty := true, dirtySince := now } else q

/-- A task calls `peakdisk_save`. -/
def callSave (env : SaveEnv) (q : Saves) : Saves :=
  enter env q.nextTask ⟨.entered, false⟩ { q with nextTask := q.nextTask + 1 }

inductive Event
  | saveAsync (present spawn : Bool)
  | autosaveTick (env : TickEnv)
  | save (env : SaveEnv)
  | markDirty (now : UInt64)
  | resume (i : ℕ) (env : SaveEnv) (diskOk : Bool)

/-- What other tasks do while none is in the middle of a save's step. -/
def calls (q : Saves) : Event → Saves
  | .saveAsync present spawn => peakdiskSaveAsync present spawn q
  | .autosaveTick env => peakdiskAutosaveTick env q
  | .save env => callSave env q
  | .markDirty now => peakdiskMarkDirty now q
  | .resume i env diskOk => resume env diskOk i q

/-- A task that has not come to a yield is the only one that can go on. -/
def step (q : Saves) (e : Event) : Saves :=
  match q.running with
  | none => calls q e
  | some j =>
    match e with
    | .resume i env diskOk => if i = j then resume env diskOk i q else q
    | _ => q

def idle (interval : UInt32) : Saves :=
  ⟨false, false, false, 0, interval, fun _ => none, 0, none, none⟩

def Start (q : Saves) : Prop := ∃ interval, q = idle interval

/-! ### Mutual exclusion -/

/-- The save has written its first block, and not yet its header. -/
def InWrites (q : Saves) (i : ℕ) : Prop :=
  ∃ t image k, q.tasks i = some t ∧ t.pc = .writing image k ∧ 0 < k

def IsWorker (q : Saves) (i : ℕ) : Prop := ∃ t, q.tasks i = some t ∧ t.worker = true

/-- At most one save is writing, and at most one worker waits or runs. -/
structure Exclusive (q : Saves) : Prop where
  writes : ∀ i j, q.InWrites i → q.InWrites j → i = j
  workers : ∀ i j, q.IsWorker i → q.IsWorker j → i = j

/-- `peakdisk_save` is called when no save runs and none is queued, and the tick finds `save_queued`
only if there is no worker. -/
def KeptApart (q : Saves) : Event → Prop
  | .save _ => q.busy = false ∧ q.queued = false
  | .autosaveTick _ => q.queued = true → q.busy = false → ∀ i, q.tasks i = none
  | _ => True

/-- There is at most one save, and the flags say where it is. -/
structure Alone (q : Saves) : Prop where
  one : ∀ i j, q.tasks i ≠ none → q.tasks j ≠ none → i = j
  waits : ∀ i t, q.tasks i = some t → t.pc = .waiting → q.queued = true ∧ q.busy = false
  runs : ∀ i t, q.tasks i = some t → t.pc ≠ .waiting → q.busy = true ∧ q.queued = false

variable {q : Saves} {i : ℕ} {e : Event}

theorem Alone.exclusive (h : Alone q) : Exclusive q where
  writes i j := by
    rintro ⟨t, _, _, hi, -⟩ ⟨t', _, _, hj, -⟩
    exact h.one i j (by rw [hi]; exact some_ne_none t) (by rw [hj]; exact some_ne_none t')
  workers i j := by
    rintro ⟨t, hi, -⟩ ⟨t', hj, -⟩
    exact h.one i j (by rw [hi]; exact some_ne_none t) (by rw [hj]; exact some_ne_none t')

/-- Neither flag is set, so there is no save. -/
theorem Alone.tasks_none (h : Alone q) (hbusy : q.busy = false)
    (hqueued : q.queued = false) (i : ℕ) : q.tasks i = none := by
  rcases ht : q.tasks i with _ | t
  · rfl
  by_cases hpc : t.pc = .waiting
  · rw [(h.waits i t ht hpc).1] at hqueued
    cases hqueued
  · rw [(h.runs i t ht hpc).1] at hbusy
    cases hbusy

/-- No task but `i`. -/
theorem Alone.other (h : Alone q) (hi : q.tasks i ≠ none) {j : ℕ} (hj : j ≠ i) :
    q.tasks j = none := by
  by_contra hne
  exact hj (h.one j i hne hi)

theorem alone_of_none (h : ∀ i, q.tasks i = none) : Alone q where
  one i _ hi := absurd (h i) hi
  waits i t hi := by
    rw [h i] at hi
    cases hi
  runs i t hi := by
    rw [h i] at hi
    cases hi

/-- The only task is `i`. -/
theorem alone_of_single {t : Task} (hi : q.tasks i = some t)
    (hother : ∀ j, j ≠ i → q.tasks j = none)
    (hwaits : t.pc = .waiting → q.queued = true ∧ q.busy = false)
    (hruns : t.pc ≠ .waiting → q.busy = true ∧ q.queued = false) : Alone q := by
  have heq : ∀ j, q.tasks j ≠ none → j = i := fun j hj => by
    by_contra hne
    exact hj (hother j hne)
  have ht : ∀ j u, q.tasks j = some u → u = t := fun j u hu => by
    obtain rfl := heq j (by rw [hu]; exact some_ne_none u)
    exact some.inj (hu.symm.trans hi)
  refine ⟨fun j k hj hk => (heq j hj).trans (heq k hk).symm, fun j u hu hpc => ?_,
    fun j u hu hpc => ?_⟩
  · rw [ht j u hu] at hpc
    exact hwaits hpc
  · rw [ht j u hu] at hpc
    exact hruns hpc

section Steps

variable {q : Saves} {i : ℕ} (hother : ∀ j, j ≠ i → q.tasks j = none)

include hother

theorem alone_park (t : Task) {pc : SavePc} (hpc : pc ≠ .waiting) (hbusy : q.busy = true)
    (hqueued : q.queued = false) : Alone (park i t pc q) :=
  alone_of_single (update_self ..)
    (fun _ hj => (update_of_ne hj ..).trans (hother _ hj)) (fun h => absurd h hpc)
    fun _ => ⟨hbusy, hqueued⟩

theorem alone_go (t : Task) {pc : SavePc} (hpc : pc ≠ .waiting) (hbusy : q.busy = true)
    (hqueued : q.queued = false) : Alone (go i t pc q) :=
  alone_of_single (update_self ..)
    (fun _ hj => (update_of_ne hj ..).trans (hother _ hj)) (fun h => absurd h hpc)
    fun _ => ⟨hbusy, hqueued⟩

theorem tasks_leave : ∀ j, (leave i q).tasks j = none :=
  (forall_update_iff q.tasks fun _ t => t = none).2 ⟨rfl, hother⟩

theorem alone_fail : Alone (fail i q) := alone_of_none (tasks_leave hother)

theorem alone_complete (image : List UInt8) : Alone (complete i image q) :=
  alone_of_none (tasks_leave hother)

theorem alone_enter (env : SaveEnv) (t : Task) (hqueued : q.queued = false) :
    Alone (enter env i t q) := by
  rw [enter]
  split
  · exact alone_park (q := { q with busy := true }) hother t (fun hpc => SavePc.noConfusion hpc) rfl
      hqueued
  · exact alone_of_none (tasks_leave hother)

end Steps

theorem Alone.resume (h : Alone q) (env : SaveEnv) (diskOk : Bool) (i : ℕ) :
    Alone (resume env diskOk i q) := by
  rw [Saves.resume]
  rcases ht : q.tasks i with _ | ⟨pc, worker⟩
  · exact h
  have hother : ∀ j, j ≠ i → q.tasks j = none := fun j hj =>
    h.other (by rw [ht]; exact some_ne_none _) hj
  have hflags := h.runs i _ ht
  rcases pc with _ | _ | need | image | image | ⟨image, k⟩
  · exact alone_enter (q := { q with queued := false }) hother env _ rfl
  all_goals
    obtain ⟨hbusy, hqueued⟩ := hflags fun hpc => SavePc.noConfusion hpc
    dsimp only
  · split
    · exact alone_park hother _ (fun hpc => SavePc.noConfusion hpc) hbusy hqueued
    · exact alone_fail hother
  · split
    · exact alone_park hother _ (fun hpc => SavePc.noConfusion hpc) hbusy hqueued
    · exact alone_fail hother
  · exact alone_park hother _ (fun hpc => SavePc.noConfusion hpc) hbusy hqueued
  · exact alone_go hother _ (fun hpc => SavePc.noConfusion hpc) hbusy hqueued
  · split
    · exact alone_fail hother
    split
    · split
      · exact alone_park hother _ (fun hpc => SavePc.noConfusion hpc) hbusy hqueued
      · exact alone_go hother _ (fun hpc => SavePc.noConfusion hpc) hbusy hqueued
    · exact alone_complete hother image

/-- A worker is spawned where there is no save. -/
theorem alone_spawnWorker (hnone : ∀ i, q.tasks i = none) (hqueued : q.queued = true)
    (hbusy : q.busy = false) (ok : Bool) : Alone (spawnWorker ok q) := by
  rw [spawnWorker]
  split
  · exact alone_of_single (update_self ..)
      (fun _ hj => (update_of_ne hj ..).trans (hnone _)) (fun _ => ⟨hqueued, hbusy⟩)
      fun h => absurd rfl h
  · exact alone_of_none hnone

theorem Alone.saveAsync (h : Alone q) (present spawn : Bool) :
    Alone (peakdiskSaveAsync present spawn q) := by
  rw [peakdiskSaveAsync]
  split
  · exact h
  split
  · exact h
  next hfree =>
  rw [Bool.or_eq_true, not_or, Bool.not_eq_true, Bool.not_eq_true] at hfree
  exact alone_spawnWorker (q := { q with queued := true })
    (h.tasks_none hfree.1 hfree.2) rfl hfree.1 spawn

theorem Alone.autosaveTick (h : Alone q) (env : TickEnv)
    (hretry : q.queued = true → q.busy = false → ∀ i, q.tasks i = none) :
    Alone (peakdiskAutosaveTick env q) := by
  rw [peakdiskAutosaveTick]
  split
  next hqueued =>
    rw [Bool.and_eq_true, Bool.not_eq_true'] at hqueued
    exact alone_spawnWorker (hretry hqueued.1 hqueued.2) hqueued.1 hqueued.2 env.spawn
  -- every other way out changes nothing, but for the last
  iterate 6
    split
    · exact h
  exact h.saveAsync env.present env.spawn

/-- **One event.** -/
theorem Alone.calls (h : Alone q) (hok : KeptApart q e) : Alone (calls q e) := by
  rcases e with ⟨present, spawn⟩ | env | env | now | ⟨i, env, diskOk⟩
  · exact h.saveAsync present spawn
  · exact h.autosaveTick env hok
  · exact alone_enter (q := { q with nextTask := q.nextTask + 1 })
      (fun j _ => h.tasks_none hok.1 hok.2 j) env _ hok.2
  · show Alone (peakdiskMarkDirty now q)
    rw [peakdiskMarkDirty]
    split
    · exact ⟨h.one, h.waits, h.runs⟩
    · exact h
  · exact h.resume env diskOk i

theorem Alone.step (h : Alone q) (hok : KeptApart q e) : Alone (step q e) := by
  rw [Saves.step]
  split
  · exact h.calls hok
  split
  · split
    · exact h.resume _ _ _
    · exact h
  · exact h

/-- The sectors task `i` has written. -/
def sectorsWritten (q : Saves) (i : ℕ) : ℕ :=
  match q.tasks i with
  | some ⟨.writing _ k, _⟩ => k
  | _ => 0

theorem inWrites_of_sectorsWritten (h : 0 < sectorsWritten q i) : q.InWrites i := by
  rw [sectorsWritten] at h
  split at h
  next image k worker ht => exact ⟨_, image, k, ht, rfl, h⟩
  · cases h

/-- A workspace of 17 sectors, on a system that lets it be saved. -/
def someEnv : SaveEnv :=
  ⟨true, true, 2, 8193, List.replicate 8193 0, true, true, true, false, none, none⟩

def someTick : TickEnv := ⟨true, true, 2, 0, 8193, true, true⟩

/-- A worker could not be spawned. The tick spawns it, and finds it again in the middle of its
writes. When it has ended, a task calls `peakdisk_save`. -/
def inTurn : List Event :=
  [.saveAsync true false, .autosaveTick someTick] ++ List.replicate 21 (.resume 0 someEnv true) ++
    [.autosaveTick someTick] ++ List.replicate 2 (.resume 0 someEnv true) ++ [.save someEnv] ++
    List.replicate 20 (.resume 1 someEnv true)

theorem allowedFrom_resume (q : Saves) (n i : ℕ) (env : SaveEnv) (diskOk : Bool) :
    AllowedFrom KeptApart step q (List.replicate n (.resume i env diskOk)) := by
  induction n generalizing q with
  | zero => trivial
  | succ n ih => exact ⟨trivial, ih _⟩

/-- **Every run** in which the ways into a save are kept apart. -/
theorem exclusive_of_run {q : Saves} (h : Reach Start KeptApart step q) : Exclusive q := by
  refine (h.invariant Alone ?_ fun _ _ hq hok => hq.step hok).exclusive
  rintro _ ⟨interval, rfl⟩
  exact alone_of_none fun _ => rfl

theorem exclusive_inTurn :
    0 < sectorsWritten (inTurn.foldl step (idle 120)) 1 ∧
      Exclusive (inTurn.foldl step (idle 120)) := by
  refine ⟨by decide +kernel, exclusive_of_run ((Reach.start ⟨120, rfl⟩).calls _ ?_)⟩
  simp only [inTurn, allowedFrom_append]
  refine ⟨⟨⟨⟨⟨⟨trivial, fun _ _ _ => rfl, trivial⟩, allowedFrom_resume ..⟩, ?_, trivial⟩,
    allowedFrom_resume ..⟩, ?_, trivial⟩, allowedFrom_resume ..⟩
  · exact fun hqueued => absurd hqueued (by decide +kernel)
  · exact ⟨by decide +kernel, by decide +kernel⟩

/-- A worker is queued; before it starts, the tick spawns another. Both then write. -/
def twoWorkers : List Event :=
  [.saveAsync true true, .autosaveTick someTick] ++
    List.replicate 21 (.resume 0 someEnv true) ++ List.replicate 21 (.resume 1 someEnv true)

theorem two_workers_write : ¬ ∀ q, Reach Start (fun _ _ => True) step q → Exclusive q := by
  intro h
  have hq := h _ ((Reach.start ⟨120, rfl⟩).calls twoWorkers (allowedFrom_true step _ _))
  have hzero : 0 < sectorsWritten (twoWorkers.foldl step (idle 120)) 0 := by decide +kernel
  have hone : 0 < sectorsWritten (twoWorkers.foldl step (idle 120)) 1 := by decide +kernel
  exact absurd (hq.writes 0 1 (inWrites_of_sectorsWritten hzero) (inWrites_of_sectorsWritten hone))
    (by decide)

end Saves

end PeakOs.Peakdisk
