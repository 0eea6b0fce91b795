import PeakOs.Peakdisk.Model

/-!
# Saves that are cut short

A save writes its payload over the old one and then replaces the header. Until the header is
written, a load takes the size and the keys of the old image and finds some sectors of the new
payload in the place of old ones. This is harmless in two cases only: the new payload does not
change the old one, or it changes one sector of it and the old header fits the new image as well.

## Main results

* `load_after_cut` — what a load finds after any number of writes
* `crashConsistent_iff` — when every such load gives the old image or the new one
* `longer_image_lost` — two images for which some load gives neither
* `peakdiskSave_cut` — a save that fails stops after such a number of writes
-/

namespace PeakOs.Peakdisk

open Function List Option

variable (C : Cipher) {pass : List UInt8}

/-! ### Encryption -/

@[simp] theorem Cipher.length_xor (key : C.Key) (nonce bytes : List UInt8) :
    (C.xor key nonce bytes).length = bytes.length := by simp [Cipher.xor]

theorem Cipher.xor_xor (key : C.Key) (nonce bytes : List UInt8) :
    C.xor key nonce (C.xor key nonce bytes) = bytes := by
  refine ext_getElem (by simp) fun i hi hi' => ?_
  simp only [Cipher.xor, getElem_mapIdx]
  rw [UInt8.xor_assoc, UInt8.xor_self, UInt8.xor_zero]

theorem Cipher.xor_injective (key : C.Key) (nonce : List UInt8) : Injective (C.xor key nonce) :=
  Function.LeftInverse.injective (C.xor_xor key nonce)

variable {env : LoadEnv} {hdr : Sector} {blob image old new : List UInt8} {s : Save pass}
    {d : Disk} {i k : ℕ}

section

variable (h : openPayload C env pass hdr blob = some image)
include h

/-- What decryption accepts, it decrypts with the same key stream. -/
theorem openPayload_eq_some : image = if field hdr 0 8 = magic3 then
      C.xor (C.pbkdf2 pass (field hdr 12 16) (itersOf hdr)) (field hdr 28 12) blob else blob := by
  rw [openPayload] at h
  by_cases hv3 : field hdr 0 8 = magic3
  · rw [if_pos hv3] at h ⊢
    simp only [ite_none_left_eq_some, Cipher.decrypt, ite_none_right_eq_some, some.injEq] at h
    exact h.2.2.2.symm
  rw [if_neg hv3] at h ⊢
  injection h with h
  exact h.symm

/-- Two payloads that are decrypted to the same image under one header are the same. -/
theorem openPayload_injective {blob' : List UInt8}
    (h' : openPayload C env pass hdr blob' = some image) : blob = blob' := by
  have heq := (openPayload_eq_some C h).symm.trans (openPayload_eq_some C h')
  by_cases hv3 : field hdr 0 8 = magic3
  · rw [if_pos hv3, if_pos hv3] at heq
    exact C.xor_injective _ _ heq
  · rwa [if_neg hv3, if_neg hv3] at heq

theorem openPayload_length : image.length = blob.length := by
  rw [openPayload_eq_some C h]
  split
  · exact C.length_xor ..
  · rfl

end

/-! ### The header -/

theorem Save.length_payload (s : Save pass) : (s.payload C).length = s.image.length := by
  rw [Save.payload]
  split
  · rfl
  · exact C.length_xor ..

theorem Save.length_lt (s : Save pass) : s.image.length < 2 ^ 32 :=
  s.maxSize.trans_lt (by decide)

theorem Save.header_clear (hs : s.sealing = none) :
    field (s.header C) 0 8 = magic1 ∧ readLe32 (field (s.header C) 8 4) = s.image.length := by
  have hheader : s.header C = blockOf sectorSize (magic1 ++ le32 s.image.length) 0 := by
    rw [Save.header, hs]
  have hfit : (magic1 ++ le32 s.image.length).length ≤ sectorSize := (by decide : 12 ≤ 512)
  have hsize : field (s.header C) 8 4 = le32 s.image.length := hheader ▸
    field_blockOf magic1 (le32 s.image.length) [] (append_nil _).symm hfit rfl rfl
  rw [hsize, readLe32_le32 s.length_lt, hheader]
  exact ⟨field_blockOf [] magic1 (le32 _) rfl hfit rfl rfl, rfl⟩

/-- The fields of a `PEAKDSK3` header; the offsets are those of the source. -/
theorem field_sealed {size : ℕ} {salt nonce tag : List UInt8} (hsalt : salt.length = 16)
    (hnonce : nonce.length = 12) (htag : tag.length = 16) (hhdr : hdr = blockOf sectorSize
      (magic3 ++ le32 size ++ salt ++ nonce ++ tag ++ le32 kdfIters) 0) :
    field hdr 0 8 = magic3 ∧ field hdr 8 4 = le32 size ∧ field hdr 12 16 = salt ∧
      field hdr 28 12 = nonce ∧ field hdr 40 16 = tag ∧ field hdr 56 4 = le32 kdfIters := by
  have hfit : (magic3 ++ le32 size ++ salt ++ nonce ++ tag ++ le32 kdfIters).length ≤
      sectorSize := by
    simp only [length_append, hsalt, hnonce, htag, length_le32]
    decide
  rw [hhdr]
  refine ⟨
    field_blockOf [] magic3 (le32 size ++ salt ++ nonce ++ tag ++ le32 kdfIters) ?_ hfit rfl rfl,
    field_blockOf magic3 (le32 size) (salt ++ nonce ++ tag ++ le32 kdfIters) ?_ hfit rfl rfl,
    field_blockOf (magic3 ++ le32 size) salt (nonce ++ tag ++ le32 kdfIters) ?_ hfit rfl hsalt,
    field_blockOf (magic3 ++ le32 size ++ salt) nonce (tag ++ le32 kdfIters) ?_ hfit ?_ hnonce,
    field_blockOf (magic3 ++ le32 size ++ salt ++ nonce) tag (le32 kdfIters) rfl hfit ?_ htag,
    field_blockOf (magic3 ++ le32 size ++ salt ++ nonce ++ tag) (le32 kdfIters) [] ?_ hfit ?_ rfl⟩
  all_goals simp only [append_assoc, nil_append, append_nil, length_append,
    hsalt, hnonce, htag, length_le32]
  all_goals rfl

theorem Save.header_sealed {salt : Block 16} {nonce : Block 12}
    (hs : s.sealing = some (salt, nonce)) :
    field (s.header C) 0 8 = magic3 ∧ readLe32 (field (s.header C) 8 4) = s.image.length ∧
      field (s.header C) 12 16 = ofFn salt ∧ field (s.header C) 28 12 = ofFn nonce ∧
      field (s.header C) 40 16 = ofFn (s.encrypted C salt nonce).2 ∧
      itersOf (s.header C) = kdfIters := by
  have hheader : s.header C = blockOf sectorSize (magic3 ++ le32 s.image.length ++ ofFn salt ++
      ofFn nonce ++ ofFn (s.encrypted C salt nonce).2 ++ le32 kdfIters) 0 := by rw [Save.header, hs]
  obtain ⟨h0, h8, h12, h28, h40, h56⟩ := field_sealed (length_ofFn (f := salt))
    (length_ofFn (f := nonce)) (length_ofFn (f := (s.encrypted C salt nonce).2)) hheader
  refine ⟨h0, ?_, h12, h28, h40, ?_⟩
  · rw [h8, readLe32_le32 s.length_lt]
  · rw [itersOf, h56]
    rfl

/-! ### Loading -/

/-- A load to which nothing else happens: the device answers, and there is memory. -/
def LoadEnv.ready : LoadEnv := ⟨true, fun _ => true, true, true⟩

/-- Sealing the new image as the old one was sealed gives the new payload, and the old tag. If
neither is encrypted, this always holds. -/
def SealsAlike (old new : Save pass) : Prop :=
  match old.sealing with
  | none => new.payload C = new.image
  | some (salt, nonce) =>
    new.encrypted C salt nonce = (new.payload C, (old.encrypted C salt nonce).2)

/-- The new payload, under the old header. -/
theorem openPayload_iff (old new : Save pass) :
    openPayload C .ready pass (old.header C) (new.payload C) = some new.image ↔
      SealsAlike C old new := by
  rw [SealsAlike]
  rcases hs : old.sealing with _ | ⟨salt, nonce⟩
  · have hmagic : field (old.header C) 0 8 ≠ magic3 := by
      rw [(old.header_clear C hs).1]
      decide
    rw [openPayload, if_neg hmagic, some_inj]
  obtain ⟨h0, -, h12, h28, h40, hiters⟩ := old.header_sealed C hs
  have hpass : pass ≠ [] := old.passSet (by rw [hs]; simp)
  have hmem : ¬ (!LoadEnv.ready.allocDec) = true := by decide
  show _ ↔ new.encrypted C salt nonce = (new.payload C, (old.encrypted C salt nonce).2)
  rw [openPayload, if_pos h0, if_neg hpass, if_neg hmem, h12, h28, h40, hiters, Cipher.decrypt,
    ite_none_right_eq_some, some_inj, Prod.ext_iff]
  generalize (old.encrypted C salt nonce).2 = tag
  rw [Save.encrypted, Cipher.encrypt, ofFn_inj]
  dsimp only
  constructor
  · rintro ⟨htag, himage⟩
    have hcipher := himage ▸ C.xor_xor _ _ (new.payload C)
    exact ⟨hcipher, hcipher.symm ▸ htag⟩
  rintro ⟨hcipher, htag⟩
  rw [← hcipher]
  exact ⟨htag, C.xor_xor ..⟩

theorem SealsAlike.refl (s : Save pass) : SealsAlike C s s := by
  rcases hs : s.sealing with _ | ⟨salt, nonce⟩ <;> rw [SealsAlike, Save.payload, hs]

theorem openPayload_payload (s : Save pass) :
    openPayload C .ready pass (s.header C) (s.payload C) = some s.image :=
  (openPayload_iff C s s).2 (.refl C s)

/-- A load under the header of a save reads as many bytes as that save had. -/
theorem load_of_header (s : Save pass) (h : d peakdiskLba0 = s.header C) :
    peakdiskLoad C .ready pass d = openPayload C .ready pass (s.header C)
      (readBytes d (peakdiskLba0 + 1) s.image.length) := by
  have hmagic : field (s.header C) 0 8 ≠ magic2 ∧
      ¬ (field (s.header C) 0 8 ≠ magic3 ∧ field (s.header C) 0 8 ≠ magic1) ∧
      readLe32 (field (s.header C) 8 4) = s.image.length := by
    rcases hs : s.sealing with _ | ⟨salt, nonce⟩
    · obtain ⟨h0, h8⟩ := s.header_clear C hs
      rw [h0]
      exact ⟨by decide, by decide, h8⟩
    obtain ⟨h0, h8, -⟩ := s.header_sealed C hs
    rw [h0]
    exact ⟨by decide, by decide, h8⟩
  obtain ⟨h2, h13, hsize⟩ := hmagic
  have hbounds : ¬ (s.image.length < minImage ∨ maxImage < s.image.length) := by
    have := s.minSize
    have := s.maxSize
    omega
  have hread : readPayloadStreamed .ready d s.image.length =
      some (readBytes d (peakdiskLba0 + 1) s.image.length) := by
    rw [readPayloadStreamed, if_pos (by simp [LoadEnv.ready]),
      readLoop_eq d _ _ (le_mul_blockCount _)]
  rw [peakdiskLoad, if_neg (by decide)]
  rw [h, if_neg h2, if_neg h13, hsize, if_neg hbounds, if_neg (by decide), hread]

/-! ### Prefixes of a save -/

variable {C}

theorem Save.length_writes (s : Save pass) :
    (s.writes C).length = blockCount sectorSize s.image.length + 1 := by
  rw [Save.writes, length_append, Save.payloadWrites, length_streamWrites, s.length_payload]
  rfl

/-- The payload of a finished save, byte by byte. -/
theorem Save.byteAt_writes (s : Save pass) (d : Disk) (hi : i < s.image.length) :
    byteAt (applyWrites (s.writes C) d) (peakdiskLba0 + 1) i = (s.payload C).getD i 0 := by
  have hall : (s.payloadWrites C).take (blockCount sectorSize (s.payload C).length) =
      s.payloadWrites C := take_of_length_le (by rw [Save.payloadWrites, length_streamWrites])
  have hcover : i / sectorSize < blockCount sectorSize (s.payload C).length := by
    rw [s.length_payload]
    exact lt_blockCount.2 (hi.trans_le (le_mul_blockCount _))
  calc byteAt (applyWrites (s.writes C) d) (peakdiskLba0 + 1) i
      = byteAt (applyWrites (s.payloadWrites C) d) (peakdiskLba0 + 1) i := by
        rw [Save.writes, applyWrites_append]
        exact byteAt_congr (fun lba hlba => update_of_ne (Nat.ne_of_gt hlba) ..) i
    _ = (s.payload C).getD i 0 := by
        rw [← hall, Save.payloadWrites, byteAt_take_stream _ _ d le_rfl, if_pos hcover]

/-- A finished save is loaded again. -/
theorem Save.load_writes (s : Save pass) (d : Disk) :
    peakdiskLoad C .ready pass (applyWrites (s.writes C) d) = some s.image := by
  have hhdr : applyWrites (s.writes C) d peakdiskLba0 = s.header C := by
    rw [Save.writes, applyWrites_append, applyWrites_singleton, update_self]
  have hpayload : readBytes (applyWrites (s.writes C) d) (peakdiskLba0 + 1) s.image.length =
      s.payload C := by
    refine ext_getElem (by rw [length_readBytes, s.length_payload]) fun i hi hi' => ?_
    simp only [readBytes, getElem_map, getElem_range]
    rw [s.byteAt_writes d (by rwa [length_readBytes] at hi)]
    exact (getElem_eq_getD 0).symm
  rw [load_of_header C s hhdr, hpayload, openPayload_payload]

/-- A payload `old` of which the first `k` sectors were overwritten with those of `new`. -/
def mixed (old new : List UInt8) (k : ℕ) : List UInt8 :=
  (List.range old.length).map fun i => if i / sectorSize < k then new.getD i 0 else old.getD i 0

/-- **After any number of payload sectors**, a load takes the old header, and the sectors written
so far for the old ones. -/
theorem load_after_cut (old new : Save pass) (d : Disk)
    (hk : k ≤ blockCount sectorSize new.image.length) :
    peakdiskLoad C .ready pass
        (applyWrites ((new.writes C).take k) (applyWrites (old.writes C) d)) =
      openPayload C .ready pass (old.header C) (mixed (old.payload C) (new.payload C) k) := by
  have hk' : k ≤ blockCount sectorSize (new.payload C).length := by rwa [new.length_payload]
  have htake : (new.writes C).take k = (new.payloadWrites C).take k := by
    rw [Save.writes, take_append_of_le_length]
    rwa [Save.payloadWrites, length_streamWrites]
  rw [htake]
  have hhdr : applyWrites ((new.payloadWrites C).take k) (applyWrites (old.writes C) d)
      peakdiskLba0 = old.header C := by
    rw [applyWrites_of_notMem fun w hw => ?_]
    · rw [Save.writes, applyWrites_append, applyWrites_singleton, update_self]
    · exact ne_of_gt (le_of_mem_streamWrites (mem_of_mem_take hw)).1
  rw [load_of_header C old hhdr]
  congr 1
  refine ext_getElem (by rw [length_readBytes, mixed, length_map, length_range,
    old.length_payload]) fun i hi hi' => ?_
  rw [length_readBytes] at hi
  simp only [readBytes, mixed, getElem_map, getElem_range]
  rw [Save.payloadWrites, byteAt_take_stream _ _ _ hk', old.byteAt_writes d hi]

/-! ### When a cut is harmless -/

@[simp] theorem length_mixed (old new : List UInt8) (k : ℕ) :
    (mixed old new k).length = old.length := by simp [mixed]

theorem getD_mixed (hi : i < old.length) :
    (mixed old new k).getD i 0 = if i / sectorSize < k then new.getD i 0 else old.getD i 0 := by
  rw [getD_eq_getElem _ _ (by simpa using hi)]
  simp [mixed]

/-- Two lists of the length of `old` are compared byte by byte. -/
theorem mixed_eq_iff {other : List UInt8} (hlen : other.length = old.length) :
    mixed old new k = other ↔ ∀ i < old.length,
      (if i / sectorSize < k then new.getD i 0 else old.getD i 0) = other.getD i 0 := by
  constructor
  · rintro rfl i hi
    exact (getD_mixed hi).symm
  intro h
  refine ext_getElem (by simp [hlen]) fun i hi hi' => ?_
  rw [length_mixed] at hi
  simp only [mixed, getElem_map, getElem_range]
  rw [h i hi]
  exact (getElem_eq_getD 0).symm

/-- No byte of the old payload is changed. -/
def KeepsOld (old new : List UInt8) : Prop :=
  ∀ i < old.length, i < sectorSize * blockCount sectorSize new.length → new.getD i 0 = old.getD i 0

/-- The payloads have one length, and differ in at most one sector. -/
def OneSector (old new : List UInt8) : Prop :=
  new.length = old.length ∧
    ∃ j, ∀ i < old.length, i / sectorSize ≠ j → new.getD i 0 = old.getD i 0

theorem KeepsOld.mixed_eq (h : KeepsOld old new)
    (hk : k ≤ blockCount sectorSize new.length) : mixed old new k = old := by
  refine (mixed_eq_iff rfl).2 fun i hi => ?_
  by_cases hik : i / sectorSize < k
  · rw [if_pos hik]
    exact h i hi (lt_blockCount.1 (hik.trans_le hk))
  · rw [if_neg hik]

theorem OneSector.mixed_eq (h : OneSector old new) (k : ℕ) :
    mixed old new k = old ∨ mixed old new k = new := by
  obtain ⟨hlen, j, hj⟩ := h
  rcases lt_or_ge j k with hjk | hjk
  · refine .inr ((mixed_eq_iff hlen).2 fun i hi => ?_)
    by_cases hik : i / sectorSize < k
    · rw [if_pos hik]
    · rw [if_neg hik, hj i hi (by omega)]
  refine .inl ((mixed_eq_iff rfl).2 fun i hi => ?_)
  by_cases hik : i / sectorSize < k
  · rw [if_pos hik, hj i hi (by omega)]
  · rw [if_neg hik]

/-- Once all sectors are written, the payload is the new one, up to the old length. -/
theorem mixed_full (hlen : new.length = old.length) :
    mixed old new (blockCount sectorSize new.length) = new := by
  refine (mixed_eq_iff hlen).2 fun i hi => if_pos ?_
  exact lt_blockCount.2 ((hlen.symm ▸ hi).trans_le (le_mul_blockCount _))

theorem keepsOld_of_mixed
    (h : mixed old new (blockCount sectorSize new.length) = old) : KeepsOld old new := by
  intro i hi hlt
  have := (mixed_eq_iff rfl).1 h i hi
  rwa [if_pos (lt_blockCount.2 hlt)] at this

/-- If the last cut gives the new payload, and so does the first one that does not give the old
one, they differ in one sector. -/
theorem oneSector_of_mixed (hlen : new.length = old.length) {j : ℕ}
    (hold : mixed old new j = old) (hnew : mixed old new (j + 1) = new) : OneSector old new := by
  refine ⟨hlen, j, fun i hi hij => ?_⟩
  rcases lt_or_gt_of_ne hij with hlt | hgt
  · have := (mixed_eq_iff rfl).1 hold i hi
    rwa [if_pos hlt] at this
  have := (mixed_eq_iff hlen).1 hnew i hi
  rw [if_neg (by omega)] at this
  exact this.symm

/-! ### Crashes -/

variable (C)

/-- A machine that stops after any number of the block writes of a save loads the old image or the
new one. -/
def CrashConsistent (d : Disk) (old new : Save pass) : Prop :=
  ∀ k, let d' := applyWrites ((new.writes C).take k) (applyWrites (old.writes C) d)
    peakdiskLoad C .ready pass d' = some old.image ∨ peakdiskLoad C .ready pass d' = some new.image

variable {C}

/-- With the old header in place, only the old payload gives the old image. -/
theorem mixed_of_load {old : Save pass}
    (h : openPayload C .ready pass (old.header C) (mixed (old.payload C) new k) = some old.image) :
    mixed (old.payload C) new k = old.payload C :=
  openPayload_injective C h (openPayload_payload C old)

theorem CrashConsistent.cases {old new : Save pass} (h : CrashConsistent C d old new) :
    KeepsOld (old.payload C) (new.payload C) ∨
      OneSector (old.payload C) (new.payload C) ∧ SealsAlike C old new := by
  set last := blockCount sectorSize (new.payload C).length with hlast
  have hopen : ∀ k ≤ last, mixed (old.payload C) (new.payload C) k ≠ old.payload C →
      openPayload C .ready pass (old.header C) (mixed (old.payload C) (new.payload C) k) =
        some new.image := by
    intro k hk hne
    have hload := h k
    rw [hlast, new.length_payload] at hk
    dsimp only at hload
    rw [load_after_cut old new d hk] at hload
    exact hload.resolve_left fun hold => hne (mixed_of_load hold)
  by_cases hkeep : mixed (old.payload C) (new.payload C) last = old.payload C
  · exact .inl (keepsOld_of_mixed hkeep)
  -- the last cut gives the new image, so that the lengths agree
  have hfull := hopen last le_rfl hkeep
  have hlen : (new.payload C).length = (old.payload C).length := by
    rw [new.length_payload, openPayload_length C hfull, length_mixed]
  rw [mixed_full hlen] at hfull
  -- the first cut that does not give the old payload
  obtain ⟨j, hj, hold, hnew⟩ : ∃ j < last, mixed (old.payload C) (new.payload C) j = old.payload C ∧
      mixed (old.payload C) (new.payload C) (j + 1) ≠ old.payload C := by
    by_contra hno
    push Not at hno
    have hall : ∀ j ≤ last, mixed (old.payload C) (new.payload C) j = old.payload C := by
      intro j
      induction j with
      | zero => exact fun _ => (mixed_eq_iff rfl).2 fun i _ => if_neg (Nat.not_lt_zero _)
      | succ j ih => exact fun hj => hno j hj (ih (Nat.le_of_succ_le hj))
    exact hkeep (hall last le_rfl)
  refine .inr ⟨oneSector_of_mixed hlen hold ?_, (openPayload_iff C old new).1 hfull⟩
  exact openPayload_injective C (hopen (j + 1) hj hnew) hfull

/-- **A save is crash consistent** exactly if its payload leaves the old one as it is, or changes
one sector of it, and sealing the new image as the old one was would have given the same. -/
theorem crashConsistent_iff (d : Disk) (old new : Save pass) :
    CrashConsistent C d old new ↔
      KeepsOld (old.payload C) (new.payload C) ∨
        OneSector (old.payload C) (new.payload C) ∧ SealsAlike C old new := by
  refine ⟨CrashConsistent.cases, fun h k => ?_⟩
  dsimp only
  rcases lt_or_ge (blockCount sectorSize new.image.length) k with hk | hk
  · rw [take_of_length_le (by rw [new.length_writes]; omega)]
    exact .inr (new.load_writes _)
  rw [load_after_cut old new d hk]
  rcases h with hkeep | ⟨hone, hseal⟩
  · rw [hkeep.mixed_eq (by rwa [new.length_payload]), openPayload_payload]
    exact .inl rfl
  rcases hone.mixed_eq k with hmix | hmix
  · rw [hmix, openPayload_payload]
    exact .inl rfl
  · rw [hmix]
    exact .inr ((openPayload_iff C old new).2 hseal)

/-- A cipher that does nothing, for images that are not encrypted. -/
def nullCipher : Cipher := ⟨Unit, fun _ _ _ => (), fun _ _ _ => 0, fun _ _ _ _ _ => 0⟩

/-- An image of `n` equal bytes, not encrypted. -/
def plainSave (n : ℕ) (b : UInt8) (hmin : minImage ≤ n) (hmax : n ≤ maxImage) : Save [] :=
  ⟨List.replicate n b, none, by simpa using hmin, by simpa using hmax, fun h => absurd rfl h⟩

/-- **A longer image lost**: before the header is written, twelve bytes of the new image are loaded
in the place of the old one. -/
theorem longer_image_lost :
    ¬ ∀ (C : Cipher) (pass : List UInt8) (d : Disk) (old new : Save pass),
      CrashConsistent C d old new := by
  intro h
  have hcut := (h nullCipher [] (fun _ _ => 0) (plainSave 12 0 (by decide) (by decide))
    (plainSave 13 1 (by decide) (by decide))).cases
  rcases hcut with hkeep | ⟨hone, -⟩
  · exact absurd (hkeep 0 (by decide) (by decide)) (by decide)
  · exact absurd hone.1 (by decide)

/-! ### The save itself -/

/-- Whatever the device refuses, a save leaves the disk after a prefix of its writes, and after all
of them if it reports success. -/
theorem peakdiskSave_cut (env : SaveEnv) (dev : Device) (d : Disk) (hs : prepare env pass = .ok s) :
    ∃ k, (peakdiskSave C env dev pass d).2 = applyWrites ((s.writes C).take k) d ∧
      ∀ n, (peakdiskSave C env dev pass d).1 = .ok n → (s.writes C).length ≤ k := by
  set done := (s.payloadWrites C).takeWhile fun w => dev.writeOk w.1 with hdone
  have hpre : done = (s.payloadWrites C).take done.length :=
    prefix_iff_eq_take.1 (List.takeWhile_prefix _)
  have hcut : (s.writes C).take done.length = done := by
    rw [Save.writes, take_append_of_le_length (List.takeWhile_prefix _).length_le, ← hpre]
  rw [peakdiskSave, hs]
  dsimp only
  rw [← hdone]
  by_cases hlt : done.length < (s.payloadWrites C).length
  · rw [if_pos hlt]
    exact ⟨done.length, by rw [hcut], nofun⟩
  split_ifs
  · exact ⟨done.length, by rw [hcut], nofun⟩
  · exact ⟨done.length, by rw [hcut], nofun⟩
  all_goals
    -- the header has been written
    have hwhole : done = s.payloadWrites C := by rw [hpre, take_of_length_le (Nat.le_of_not_lt hlt)]
    refine ⟨(s.writes C).length, ?_, fun _ _ => le_rfl⟩
    rw [take_length, Save.writes, applyWrites_append, hwhole]

end PeakOs.Peakdisk
