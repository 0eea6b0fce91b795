import PeakOs.Blobstore.Contents

/-!
# Calls that fail

A call of the blobstore fails cleanly if it takes nothing with it: a creation or a change of size
that returns an error leaves the tables alone, and bytes that were accepted are read back unless a
read, a write or a sync has reported an error since. `Sys.audit` is the record of `Contents` with
that excuse: what was written before a reported error is no longer owed.

Two kinds of call are not clean. `blobstore_create` takes its pages before it looks for an entry of
the object table, and keeps them when there is none. And the cache drops a page that could not be
written back, or fills one with zeros that could not be read for a write, and says nothing. Runs
without such calls are clean whatever else the device refuses: a page that cannot be written may
stay in the cache, a sync may fail on it, and the pages of an object that is deleted may be lost.

## Main results

* `failures_clean` — every run without such calls
* `dirty_page_dropped` — a byte that is lost
-/

namespace PeakOs.Blobstore

/-- The call is a read, a write or a sync that returns an error. -/
def reports (s : Store) : Io × Call → Bool
  | (io, .read id off len) => (blobstoreRead io id off len s).1.isNone
  | (io, .write id off bytes) => (blobstoreWrite io id off bytes s).1.isNone
  | (io, .sync) => !(blobstoreSync io s).1
  | _ => false

/-- A step that owes nothing from before a reported error. -/
def Sys.audit (σ : Sys) (e : Io × Call) : Sys :=
  ⟨(σ.step e).store, if reports σ.store e then fun _ _ => none else (σ.step e).written⟩

structure SameTables (s s' : Store) : Prop where
  objects : s'.objects = s.objects
  freeSpans : s'.freeSpans = s.freeSpans
  nextPage : s'.super.nextPage = s.super.nextPage

/-- What a call that fails leaves alone, and what a read that succeeds returns. -/
def Clean (σ : Sys) : Io × Call → Prop
  | (io, .create size) => (blobstoreCreate io size σ.store).1 = none →
      SameTables σ.store (blobstoreCreate io size σ.store).2
  | (io, .resize id size) => (blobstoreResize io id size σ.store).1 = false →
      SameTables σ.store (blobstoreResize io id size σ.store).2
  | (io, .read id off len) => ∀ bytes, (blobstoreRead io id off len σ.store).1 = some bytes →
      ∃ i, findObj id σ.store = some i ∧
        bytes.length = min len.toNat ((σ.store.objects i).size.toNat - off.toNat) ∧
        ∀ k b, k < bytes.length → σ.written id (off.toNat + k) = some b → bytes[k]? = some b
  | _ => True

/-- A creation that finds pages finds an entry for them. -/
def Room (σ : Sys) : Io × Call → Prop
  | (_, .create size) => (takePages (pagesFor size) σ.store).1 ≠ none →
      ∃ i, (σ.store.objects i).inUse = false
  | _ => True

/-- No page that is put out of the cache is lost, no sum wraps, and creations find room. -/
def Careful (σ : Sys) (e : Io × Call) : Prop := Spared σ e ∧ Fresh σ e ∧ Room σ e

variable {σ : Sys} {v : View} {e : Io × Call}

/-- **One call** of a run. -/
theorem Consistent.audit (h : Consistent σ v) (he : Careful σ e) :
    ∃ v', Consistent (σ.audit e) v' := by
  obtain ⟨v', h'⟩ := h.step he.1 he.2.1
  refine ⟨v', h'.cache, h'.layout, h'.unique, fun hi hb => ?_⟩
  dsimp only [Sys.audit] at hi hb
  split at hb
  · cases hb
  · exact h'.held hi hb

/-- The answers of one call. -/
theorem Consistent.clean (h : Consistent σ v) (he : Careful σ e) : Clean σ e := by
  obtain ⟨io, c⟩ := e
  obtain ⟨hspared, hfresh, hroom⟩ := he
  cases c with
  | create size =>
    intro hnone
    obtain heq | ⟨start, s₁, htake, -, ⟨hfull, -⟩ | ⟨i, -, heq⟩⟩ :=
      h.layout.create_cases io hfresh.1
    · rw [heq]
      exact ⟨rfl, rfl, rfl⟩
    · obtain ⟨i, hi⟩ := hroom (by rw [htake]; exact Option.some_ne_none _)
      exact absurd ((hfull i).symm.trans hi) (by decide)
    · rw [heq] at hnone
      cases hnone
  | resize id size =>
    intro hfalse
    obtain heq | ⟨i, s₁, -, heq, -⟩ := h.layout.resize_cases io id hfresh <;> rw [heq] at hfalse ⊢
    · exact ⟨rfl, rfl, rfl⟩
    · cases hfalse
  | read id off len =>
    intro bytes hbytes
    rcases hfind : findObj id σ.store with _ | i
    · rw [blobstoreRead, hfind] at hbytes
      cases hbytes
    obtain ⟨r, s₁, hread, -, rfl | ⟨rfl, -⟩⟩ := h.read hspared hfind <;>
      rw [hread] at hbytes <;> cases hbytes
    refine ⟨i, rfl, View.length_bytes .., fun k b hk hb => h.recorded hfind ?_ hb⟩
    rwa [View.length_bytes] at hk
  | delete | write | sync | load | disturb => trivial

/-- **Every run** in which no page that is put out of the cache is lost, no sum wraps and creations
find room: the next such call is clean as well. -/
theorem failures_clean (h : Reach Sys.Start Careful Sys.audit σ) (he : Careful σ e) :
    Clean σ e := by
  obtain ⟨v, hv⟩ := h.invariant (fun σ => ∃ v, Consistent σ v) (fun _ => Consistent.start)
    fun _ _ ⟨_, hv⟩ he => hv.audit he
  exact hv.clean he

/-- A device that can be read but not written. -/
def fullIo : Io := { goodIo with writeOk := fun _ => false }

/-- Forty-nine pages, one more than the cache has, and a byte in the first of them. -/
def dropCalls : List (Io × Call) :=
  [(goodIo, .create 200704), (goodIo, .write 1 0 [65]), (fullIo, .read 1 4096 196608)]

theorem fresh_create : Fresh ⟨freshStore, fun _ _ => none⟩ (goodIo, .create 200704) :=
  ⟨by rw [NoWrap]; decide +kernel, by decide +kernel⟩

/-- Every write of the device fails: two objects are made and written, and the second is deleted
with its page still dirty. -/
def fullCalls : List (Io × Call) :=
  [(fullIo, .create 4096), (fullIo, .write 1 0 [65]), (fullIo, .create 4096),
    (fullIo, .write 2 0 [66]), (fullIo, .delete 2)]

/-- All 48 pages of the cache are dirty, and the device takes no writes. -/
theorem failures_clean_full :
    let σ := fullCalls.foldl Sys.audit ⟨freshStore, fun _ _ => none⟩
    (blobstoreRead fullIo 1 0 1 σ.store).1 = some [65] ∧ Clean σ (fullIo, .read 1 0 1) := by
  refine ⟨by decide +kernel, failures_clean ((Reach.start start_freshStore).calls fullCalls
    ⟨?_, ?_, ?_, ?_, ⟨trivial, trivial, trivial⟩, trivial⟩) ?_⟩
  · exact ⟨trivial, ⟨by rw [NoWrap]; decide +kernel, by decide +kernel⟩,
      fun _ => ⟨0, by decide +kernel⟩⟩
  · exact ⟨by rw [Spared]; decide +kernel, trivial, trivial⟩
  · exact ⟨trivial, ⟨by rw [NoWrap]; decide +kernel, by decide +kernel⟩,
      fun _ => ⟨1, by decide +kernel⟩⟩
  · exact ⟨by rw [Spared]; decide +kernel, trivial, trivial⟩
  · exact ⟨by rw [Spared]; decide +kernel, trivial, trivial⟩

/-- **A dirty page is dropped** by a read of others that succeeds, and its byte reads as zero. -/
theorem dirty_page_dropped :
    ¬ ∀ σ e, Reach Sys.Start Fresh Sys.audit σ → Fresh σ e → Clean σ e := by
  intro h
  have hrun : Reach Sys.Start Fresh Sys.audit _ := (Reach.start start_freshStore).calls dropCalls
    ⟨fresh_create, trivial, trivial, trivial⟩
  obtain ⟨i, -, -, hbytes⟩ := h _ (goodIo, .read 1 0 1) hrun trivial [0] (by decide +kernel)
  exact absurd (hbytes 0 65 (by decide) (by decide +kernel)) (by decide)

end PeakOs.Blobstore
