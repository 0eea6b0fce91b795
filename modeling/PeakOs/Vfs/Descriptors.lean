import PeakOs.Vfs.Files
import PeakOs.Vfs.Apart

/-!
# File descriptors

`sys_open`, `sys_read` and `sys_close` of `kernel/syscall.c`. A descriptor keeps the resolved path,
in a process no more than the 95 bytes that fit `struct proc_fd`, and an offset. No call looks at
the offset: `sys_read` asks for the first bytes of the file each time. So the bytes a program gets
are the contents of the file in only two cases, an empty file and a file that cannot be read.

## Main results

* `Named.sysRead` — what one read gives
* `sequential_iff` — when every sequence of reads gives the file
-/

namespace PeakOs.Vfs

open Blobstore (Io)
open Function List

variable {B : Type}

/-- `struct proc_fd`. -/
structure ProcFd where
  used : Bool
  path : Path
  rights : ℕ
  offset : ℕ

/-- The descriptors of a process, or those of early boot, which have no rights and no offset. -/
structure FdTable where
  isProc : Bool
  fds : ℕ → ProcFd

def FdTable.size (t : FdTable) : ℕ := if t.isProc then 32 else 8

/-- The size of the buffer for the path. -/
def FdTable.pathSize (t : FdTable) : ℕ := if t.isProc then 96 else vfsPathMax

inductive SysErr
  | eacces
  | efault
  | fs (e : PeakErr)

def capFsRead : ℕ := 1

/-- `user` is the string in user memory, `none` if it is not readable. -/
def sysOpen (cap : Bool) (user : Option Path) (t : FdTable) (s : State B) :
    Except SysErr ℕ × FdTable × State B :=
  if cap = false then (.error .eacces, t, s)
  else
    match user with
    | none => (.error .efault, t, s)
    | some path =>
      -- `copyinstr_from_user` looks for the zero byte in the first 255 bytes only
      if vfsPathMax ≤ path.length + 1 then (.error .efault, t, s)
      else
        match vfsResolve path s with
        | (.error e, s) => (.error (.fs e), t, s)
        | (.ok resolved, s) =>
          if vfsLookup resolved s = none then (.error (.fs .enoent), t, s)
          else
            match (List.range t.size).find? fun i => !(t.fds i).used with
            | none => (.error (.fs .ebusy), t, s)
            | some i =>
              let fd := ⟨true, resolved.take (t.pathSize - 1), capFsRead, 0⟩
              (.ok i, { t with fds := update t.fds i fd }, s)

/-- The bytes copied to the user; `writable` says whether the user's buffer can be written. -/
def sysRead (api : BlobApi B) (t : FdTable) (fd : ℤ) (len : ℕ) (writable : Bool) (s : State B) :
    Except SysErr (List UInt8) × State B :=
  if fd < 0 ∨ t.size ≤ fd ∨ (t.fds fd.toNat).used = false then (.error (.fs .einval), s)
  else
    match vfsReadFile api (t.fds fd.toNat).path (min len 4096) s with
    | (.error e, s) => (.error (.fs e), s)
    | (.ok out, s) => (if out ≠ [] ∧ writable = false then .error .efault else .ok out, s)

/-- The bytes of a sequence of reads on one descriptor; a failed read gives none. -/
def sysReads (api : BlobApi B) (t : FdTable) (fd : ℤ) : List (ℕ × Bool) → State B →
    List UInt8 × State B
  | [], s => ([], s)
  | (len, writable) :: calls, s =>
    let r := sysRead api t fd len writable s
    let more := sysReads api t fd calls r.2
    (r.1.toOption.getD [] ++ more.1, more.2)

/-- The reads give the bytes `a` in order, and all of them before a read answers 0. -/
def Sequential (api : BlobApi B) (t : FdTable) (fd : ℤ) (s : State B) (a : List UInt8) : Prop :=
  ∀ calls, (sysReads api t fd calls s).1 <+: a ∧
    ∀ len writable, 0 < len →
      (sysRead api t fd len writable (sysReads api t fd calls s).2).1.toOption = some [] →
      (sysReads api t fd calls s).1 = a

/-! ### One read -/

section Reading

variable (s : State B) (path : Path) (e : VfsError) (blobs : B) (fault : Bool)

theorem resolveLoop_congr (links : ℕ) (work : Path) :
    resolveLoop { s with err := e, blobs := blobs, heapFault := fault } links work =
      resolveLoop s links work := by
  have hwalk : ∀ n cur linkPath rest,
      resolveWalk { s with err := e, blobs := blobs, heapFault := fault } n cur linkPath rest =
        resolveWalk s n cur linkPath rest := by
    intro n
    induction n with
    | zero => exact fun _ _ _ => rfl
    | succ n ih =>
      intro cur linkPath rest
      simp only [resolveWalk, ih]
      rfl
  induction links generalizing work with
  | zero => rw [resolveLoop, resolveLoop, hwalk]
  | succ links ih =>
    rw [resolveLoop, resolveLoop, hwalk]
    simp only [ih]

theorem opens_eq : s.opens path =
    match vfsNormalize path vfsPathMax with
    | .error _ => none
    | .ok work =>
      match resolveLoop s vfsSymlinkLoopMax work with
      | .error (.enoent, _) => vfsLookup work s
      | .error _ => none
      | .ok work => vfsLookup work s := by
  unfold State.opens pathForIo vfsResolve
  rcases hn : vfsNormalize path vfsPathMax with e | work
  · cases e <;> rfl
  dsimp only
  rcases resolveLoop s vfsSymlinkLoopMax work with ⟨e, _ | _⟩ | _
  · cases e <;> rfl
  · cases e <;> first | rfl | exact vfsLookup_setErr ..
  · exact vfsLookup_setErr ..

/-- Reading leaves the way from a path to its node as it is. -/
theorem opens_congr :
    State.opens { s with err := e, blobs := blobs, heapFault := fault } path = s.opens path := by
  have hlookup : ∀ path, vfsLookup path { s with err := e, blobs := blobs, heapFault := fault } =
      vfsLookup path s := by
    intro path
    unfold vfsLookup
    rw [walkNames_congr (s := s) (t := { s with err := e, blobs := blobs, heapFault := fault })
      rfl rfl rfl rfl]
  simp only [opens_eq, resolveLoop_congr, hlookup]

end Reading

/-- What a path leads to: a file with contents, or no file. -/
def Named (s : State Blobstore.Store) (path : Path) : Option (List UInt8) → Prop
  | some a => ∃ f, s.opens path = some f ∧ Holds f s a
  | none => ∀ f, s.opens path = some f → (s.nodes f).type ≠ some .file

/-- A path that leads to no file cannot be read. -/
theorem vfsReadAt_not_file {s : State B} {path : Path} (api : BlobApi B) (off len : ℕ)
    (h : ∀ f, s.opens path = some f → (s.nodes f).type ≠ some .file) :
    ∃ err e, vfsReadAt api path off len s = (.error err, s.setErr e) := by
  rw [State.opens] at h
  obtain ⟨e, ⟨err, hio⟩ | ⟨out, -, hio, -⟩⟩ := pathForIo_cases path s <;> rw [vfsReadAt, hio]
  · exact ⟨err, e, rfl⟩
  · rw [hio] at h
    dsimp only at h ⊢
    cases hf : vfsLookup out (s.setErr e) with
    | none => exact ⟨_, e, rfl⟩
    | some f => exact ⟨_, e, if_pos (h f hf)⟩

variable {io : Io} {s s' : State Blobstore.Store} {path : Path} {a b : List UInt8}
  {c : Option (List UInt8)} {t t' : FdTable} {fd len : ℕ}

/-- **`vfs_read_file`** of a path gives the beginning of the file, and changes nothing of it. -/
theorem Named.readFile (hio : io.Working) (h : Named s path c) (hlen : len ≤ 4096) :
    (vfsReadFile (blobApi io) path len s).1.toOption = c.map (·.take len) ∧
      Named (vfsReadFile (blobApi io) path len s).2 path c := by
  rw [vfsReadFile]
  cases c with
  | some a =>
    obtain ⟨f, ho, hf⟩ := h
    obtain ⟨hans, hthen⟩ := hf.readAt (fun _ => hio) ho (.inr (by omega : 0 + len < 2 ^ 64))
    obtain ⟨e, blobs, fault, hs⟩ := vfsReadAt_state (blobApi io) path 0 len s
    refine ⟨by rw [hans]; rfl, f, ?_, hthen⟩
    rw [hs, opens_congr, ho]
  | none =>
    obtain ⟨err, e, hr⟩ := vfsReadAt_not_file (blobApi io) 0 len h
    rw [hr]
    exact ⟨rfl, fun f hf => h f ((opens_congr s path e _ _).symm.trans hf)⟩

/-- An open descriptor. -/
def FdTable.Open (t : FdTable) (fd : ℕ) : Prop := fd < t.size ∧ (t.fds fd).used = true

theorem sysOpen_open {cap : Bool} {user : Option Path}
    (h : sysOpen cap user t s = (.ok fd, t', s')) : t'.Open fd := by
  unfold sysOpen at h
  iterate 6
    split at h
    · cases h
  rename_i i hi
  cases h
  exact ⟨mem_range.1 (mem_of_find?_eq_some hi), by dsimp only; rw [update_self]⟩

/-- **A read** on a descriptor is a read of the first bytes of what its path leads to. -/
theorem Named.sysRead (hio : io.Working) (hopen : t.Open fd) (h : Named s (t.fds fd).path c)
    (len : ℕ) (writable : Bool) :
    (sysRead (blobApi io) t fd len writable s).1.toOption =
        (c.map (·.take (min len 4096))).filter (fun out => out = [] || writable) ∧
      Named (sysRead (blobApi io) t fd len writable s).2 (t.fds fd).path c := by
  obtain ⟨hans, hthen⟩ := h.readFile hio (min_le_right len 4096)
  rw [Vfs.sysRead, if_neg (by simpa [hopen.2] using hopen.1), Int.toNat_natCast]
  rw [← hans]
  rcases hr : vfsReadFile (blobApi io) (t.fds fd).path (min len 4096) s with ⟨e | out, s₁⟩ <;>
    rw [hr] at hthen
  · exact ⟨rfl, hthen⟩
  · refine ⟨?_, hthen⟩
    by_cases hout : out = [] <;> cases writable <;> simp [hout, Except.toOption, Option.filter]

/-! ### Sequences of reads -/

/-- Reads of an empty file, or of no file, give no bytes. -/
theorem Named.sysReads (hio : io.Working) (hopen : t.Open fd) (h : Named s (t.fds fd).path c)
    (calls : List (ℕ × Bool)) :
    Named (sysReads (blobApi io) t fd calls s).2 (t.fds fd).path c ∧
      (c.getD [] = [] → (sysReads (blobApi io) t fd calls s).1 = []) := by
  induction calls generalizing s with
  | nil => exact ⟨h, fun _ => rfl⟩
  | cons call calls ih =>
    obtain ⟨hans, hthen⟩ := h.sysRead hio hopen call.1 call.2
    obtain ⟨hnamed, hnil⟩ := ih hthen
    refine ⟨hnamed, fun hc => ?_⟩
    rw [Vfs.sysReads, hnil hc, hans, append_nil]
    cases c with
    | none => rfl
    | some a =>
      obtain rfl : a = [] := hc
      simp [Option.filter]

/-- Single bytes read from a file are its first byte, again and again. -/
theorem Named.sysReads_first (hio : io.Working) (hopen : t.Open fd) {x : UInt8}
    (h : Named s (t.fds fd).path (some (x :: b))) (n : ℕ) :
    (Vfs.sysReads (blobApi io) t fd (replicate n (1, true)) s).1 = replicate n x := by
  induction n generalizing s with
  | zero => rfl
  | succ n ih =>
    obtain ⟨hans, hthen⟩ := h.sysRead hio hopen 1 true
    rw [replicate_succ, Vfs.sysReads, ih hthen, hans]
    rfl

/-- **Reads are sequential only on an empty file**, or where the path kept by the descriptor leads
to no file. -/
theorem sequential_iff {cap : Bool} {contents : Path → Option (List UInt8)} (hio : io.Working)
    (hopen : sysOpen cap (some path) t s = (.ok fd, t', s')) (hc : ∀ p, Named s' p (contents p))
    (ha : contents path = some a) : Sequential (blobApi io) t' fd s' a ↔
      contents (t'.fds fd).path = none ∨ contents (t'.fds fd).path = some [] ∧ a = [] := by
  have hfd := sysOpen_open hopen
  have hnamed := hc (t'.fds fd).path
  generalize contents (t'.fds fd).path = c at hnamed
  constructor
  · intro h
    rcases c with _ | _ | ⟨x, b⟩
    · exact .inl rfl
    · obtain ⟨hans, -⟩ := hnamed.sysRead hio hfd 1 true
      exact .inr ⟨rfl, ((h []).2 1 true one_pos hans).symm⟩
    have hlong := (h (replicate (a.length + 1) (1, true))).1.length_le
    rw [hnamed.sysReads_first hio hfd, length_replicate] at hlong
    omega
  rintro (rfl | ⟨rfl, rfl⟩) calls <;> obtain ⟨hthen, hnil⟩ := hnamed.sysReads hio hfd calls
  · refine ⟨by rw [hnil rfl]; exact nil_prefix, fun len w _ hzero => ?_⟩
    rw [(hthen.sysRead hio hfd len w).1] at hzero
    cases hzero
  · exact ⟨by rw [hnil rfl], fun _ _ _ _ => hnil rfl⟩

/-- A file system with the single file `/a`, opened by a process. -/
def oneFile (bytes : List UInt8) : State Blobstore.Store :=
  (vfsWriteFile [slash, 97] bytes (vfsInit (fun _ => false) Blobstore.freshStore)).2.setErr .none

def noFds : FdTable := ⟨true, fun _ => ⟨false, [], 0, 0⟩⟩

def oneFd : FdTable := { noFds with fds := update noFds.fds 0 ⟨true, [slash, 97], capFsRead, 0⟩ }

theorem named_oneFile (hcount : (oneFile a).nodeCount = 2) (h : Holds 1 (oneFile a) a) (p : Path) :
    Named (oneFile a) p (if (oneFile a).opens p = some 1 then some a else none) := by
  have hsane : Sane (oneFile a) :=
    (vfsWriteFile_sane (sane_vfsInit _ _) _ _).congr (sameTree_of_nodes rfl rfl rfl rfl) rfl
  obtain ⟨kids, hk⟩ := hsane.linked
  split_ifs with ho
  · exact ⟨1, ho, h⟩
  · intro f hf htype
    have hlt := hk.bound f (by rw [State.type, htype]; simp)
    obtain rfl | rfl : f = root ∨ f = 1 := by
      rw [root]
      omega
    · exact absurd (hk.rootDir.symm.trans htype) (by decide)
    · exact ho hf

theorem sequential_oneFile : Sequential (blobApi Blobstore.goodIo) oneFd 0 (oneFile []) [] := by
  have hopen : sysOpen true (some [slash, 97]) noFds (oneFile []) = (.ok 0, oneFd, oneFile []) := by
    rfl
  have hholds : Holds 1 (oneFile []) [] :=
    ⟨by decide +kernel, by decide +kernel, .inl
      ⟨by decide +kernel, by decide +kernel, by decide +kernel, by decide +kernel⟩⟩
  refine (sequential_iff Blobstore.goodIo_working hopen
    (named_oneFile (by decide +kernel) hholds) ?_).2 (.inr ⟨?_, rfl⟩)
  all_goals exact if_pos (by decide +kernel)

/-- Two reads of one byte each of the file `A` give `AA`. -/
theorem reads_start_again : ¬ ∀ (io : Io) (cap : Bool) (path : Path) (t t' : FdTable) (fd : ℕ)
    (s s' : State Blobstore.Store) (contents : Path → Option (List UInt8)) (a : List UInt8),
    io.Working → sysOpen cap (some path) t s = (.ok fd, t', s') →
    (∀ p, Named s' p (contents p)) → contents path = some a →
    Sequential (blobApi io) t' fd s' a := by
  intro h
  have hholds : Holds 1 (oneFile [65]) [65] :=
    ⟨by decide +kernel, by decide +kernel, .inl
      ⟨by decide +kernel, by decide +kernel, by decide +kernel, by decide +kernel⟩⟩
  have hprefix := (h Blobstore.goodIo true [slash, 97] noFds oneFd 0 (oneFile [65]) (oneFile [65]) _
    [65] Blobstore.goodIo_working (by rfl) (named_oneFile (by decide +kernel) hholds)
    (if_pos (by decide +kernel)) [(1, true), (1, true)]).1
  exact absurd hprefix (by decide +kernel)

end PeakOs.Vfs
