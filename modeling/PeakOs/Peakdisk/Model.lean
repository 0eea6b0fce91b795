import PeakOs.Lib.BlockStream

/-!
# PeakDisk

`kernel/peakdisk.c`: the workspace is exported to one image, which is stored on the block device as
a header sector at LBA 1 and a payload from LBA 2 on. With a passphrase the payload is encrypted
(`PEAKDSK3`), without one it is the image itself (`PEAKDSK1`).

A save is split here into `prepare`, everything up to the first block write, and the writes it then
issues; `peakdiskSave` runs them against a device that may refuse some. The ciphers of
`kernel/net/crypto_aead.c` are a stream cipher and a message authentication code, whose values are
left open (`Cipher`). What a load returns is the image it hands to `vfs_load_ramdisk`.

Left out are the progress percentage and the log. The yields of a save and the queue in front of it
are not here but in `Peakdisk.Saves`.
-/

namespace PeakOs.Peakdisk

def sectorSize : ℕ := 512

instance : NeZero sectorSize := ⟨by decide⟩

abbrev Sector := Block sectorSize

/-- The block device, by LBA. -/
abbrev Disk := ℕ → Sector

def peakdiskLba0 : ℕ := 1
def kdfIters : ℕ := 4096
def minImage : ℕ := 12
def maxImage : ℕ := 32 * 1024 * 1024

/-! ### Encryption -/

/-- `pbkdf2_hmac_sha256` and the two halves of `chacha20_poly1305`. -/
structure Cipher where
  Key : Type
  pbkdf2 : List UInt8 → List UInt8 → ℕ → Key
  keystream : Key → List UInt8 → ℕ → UInt8
  mac : Key → List UInt8 → List UInt8 → List UInt8 → Block 16

variable (C : Cipher)

/-- `chacha20_xor`. -/
def Cipher.xor (key : C.Key) (nonce bytes : List UInt8) : List UInt8 :=
  bytes.mapIdx fun i b => b ^^^ C.keystream key nonce i

/-- `chacha20_poly1305_encrypt`. -/
def Cipher.encrypt (key : C.Key) (nonce aad plain : List UInt8) : List UInt8 × Block 16 :=
  let cipher := C.xor key nonce plain
  (cipher, C.mac key nonce aad cipher)

/-- `chacha20_poly1305_decrypt`. -/
def Cipher.decrypt (key : C.Key) (nonce aad cipher : List UInt8) (tag : List UInt8) :
    Option (List UInt8) :=
  if List.ofFn (C.mac key nonce aad cipher) = tag then some (C.xor key nonce cipher) else none

/-! ### Saving -/

/-- What `peakdisk_save` reads from the rest of the kernel. -/
structure SaveEnv where
  present : Bool
  capDiskPersist : Bool
  persistProfile : ℤ
  exportSize : ℤ
  exported : List UInt8
  heapOk : Bool
  allocBlob : Bool
  allocEnc : Bool
  randomReady : Bool
  salt : Option (Block 16)
  nonce : Option (Block 12)

inductive SaveError
  | noBlockDevice
  | capNotGranted
  | privateProfile
  | exportSizeInvalid
  | tooLarge
  | heapPressure
  | outOfMemory
  | exportFailed
  | payloadWrite
  | payloadFlush
  | headerWrite
  | headerFlush
  deriving DecidableEq, Repr

/-- An image that is about to be written, with the salt and the nonce if it is encrypted under
`pass`. -/
structure Save (pass : List UInt8) where
  image : List UInt8
  sealing : Option (Block 16 × Block 12)
  minSize : minImage ≤ image.length
  maxSize : image.length ≤ maxImage
  passSet : sealing ≠ none → pass ≠ []

/-- The salt and the nonce, if there is a passphrase and nothing fails on the way to an encrypted
image. -/
def sealingFor (env : SaveEnv) (pass : List UInt8) : Option (Block 16 × Block 12) :=
  if env.randomReady ∧ pass ≠ [] ∧ env.allocEnc then
    match env.salt, env.nonce with
    | some salt, some nonce => some (salt, nonce)
    | _, _ => none
  else none

theorem pass_of_sealingFor {env : SaveEnv} {pass : List UInt8} (h : sealingFor env pass ≠ none) :
    pass ≠ [] := by
  rintro rfl
  simp [sealingFor] at h

/-- `peakdisk_save` up to the first block write. -/
def prepare (env : SaveEnv) (pass : List UInt8) : Except SaveError (Save pass) :=
  if !env.present then .error .noBlockDevice
  else if !env.capDiskPersist then .error .capNotGranted
  else if env.persistProfile ≤ 0 then .error .privateProfile
  else if env.exportSize < minImage then .error .exportSizeInvalid
  else if hmax : (maxImage : ℤ) < env.exportSize then .error .tooLarge
  else if !env.heapOk then .error .heapPressure
  else if !env.allocBlob then .error .outOfMemory
  -- `vfs_export_ramdisk` fails if the buffer is too small
  else if hcap : env.exportSize < env.exported.length then .error .exportFailed
  else if hmin : env.exported.length < minImage then .error .exportFailed
  else .ok
    { image := env.exported
      sealing := sealingFor env pass
      minSize := by omega
      maxSize := by omega
      passSet := pass_of_sealingFor }

variable {pass : List UInt8}

/-- The payload and the tag. -/
def Save.encrypted (s : Save pass) (salt : Block 16) (nonce : Block 12) : List UInt8 × Block 16 :=
  C.encrypt (C.pbkdf2 pass (List.ofFn salt) kdfIters) (List.ofFn nonce) (List.ofFn salt) s.image

def Save.payload (s : Save pass) : List UInt8 :=
  match s.sealing with
  | none => s.image
  | some (salt, nonce) => (s.encrypted C salt nonce).1

def magic1 : List UInt8 := [80, 69, 65, 75, 68, 83, 75, 49]
def magic2 : List UInt8 := [80, 69, 65, 75, 68, 83, 75, 50]
def magic3 : List UInt8 := [80, 69, 65, 75, 68, 83, 75, 51]

/-- The header sector; what follows the fields is zero. -/
def Save.header (s : Save pass) : Sector :=
  match s.sealing with
  | none => blockOf sectorSize (magic1 ++ le32 s.image.length) 0
  | some (salt, nonce) =>
    blockOf sectorSize (magic3 ++ le32 s.image.length ++ List.ofFn salt ++ List.ofFn nonce ++
      List.ofFn (s.encrypted C salt nonce).2 ++ le32 kdfIters) 0

/-- The writes of `write_payload_streamed`. -/
def Save.payloadWrites (s : Save pass) : List (ℕ × Sector) :=
  streamWrites sectorSize (peakdiskLba0 + 1) (s.payload C)

/-- All block writes of a save, in order: the payload, then the header. -/
def Save.writes (s : Save pass) : List (ℕ × Sector) :=
  s.payloadWrites C ++ [(peakdiskLba0, s.header C)]

/-- The answers of the block device during a save. -/
structure Device where
  writeOk : ℕ → Bool
  flushPayload : Bool
  flushHeader : Bool

def peakdiskSave (env : SaveEnv) (dev : Device) (pass : List UInt8) (d : Disk) :
    Except SaveError ℕ × Disk :=
  match prepare env pass with
  | .error e => (.error e, d)
  | .ok s =>
    let done := (s.payloadWrites C).takeWhile fun w => dev.writeOk w.1
    if done.length < (s.payloadWrites C).length then (.error .payloadWrite, applyWrites done d)
    else
      let d := applyWrites done d
      if !dev.flushPayload then (.error .payloadFlush, d)
      else if !dev.writeOk peakdiskLba0 then (.error .headerWrite, d)
      else
        let d := applyWrites [(peakdiskLba0, s.header C)] d
        if !dev.flushHeader then (.error .headerFlush, d) else (.ok s.image.length, d)

/-! ### Loading -/

/-- What `peakdisk_load` reads from the rest of the kernel. -/
structure LoadEnv where
  present : Bool
  readOk : ℕ → Bool
  allocBlob : Bool
  allocDec : Bool

/-- `read_payload_streamed`. -/
def readPayloadStreamed (env : LoadEnv) (d : Disk) (len : ℕ) : Option (List UInt8) :=
  let sectors := blockCount sectorSize len
  if (List.range sectors).all fun s => env.readOk (peakdiskLba0 + 1 + s) then
    some (readLoop d (peakdiskLba0 + 1) sectors len)
  else none

/-- The number of iterations in a header, if it is plausible. -/
def itersOf (hdr : Sector) : ℕ :=
  let iters := readLe32 (field hdr 56 4)
  if iters < 1000 ∨ 1000000 < iters then kdfIters else iters

/-- The plain image, from the header and the payload. -/
def openPayload (env : LoadEnv) (pass : List UInt8) (hdr : Sector) (blob : List UInt8) :
    Option (List UInt8) :=
  if field hdr 0 8 = magic3 then
    if pass = [] then none
    else if !env.allocDec then none
    else
      let salt := field hdr 12 16
      C.decrypt (C.pbkdf2 pass salt (itersOf hdr)) (field hdr 28 12) salt blob (field hdr 40 16)
  else some blob

/-- The image `peakdisk_load` hands to `vfs_load_ramdisk`. -/
def peakdiskLoad (env : LoadEnv) (pass : List UInt8) (d : Disk) : Option (List UInt8) :=
  if !env.present ∨ !env.readOk peakdiskLba0 then none
  else
    let hdr := d peakdiskLba0
    if field hdr 0 8 = magic2 then none
    else if field hdr 0 8 ≠ magic3 ∧ field hdr 0 8 ≠ magic1 then none
    else
      let sz := readLe32 (field hdr 8 4)
      if sz < minImage ∨ maxImage < sz then none
      else if !env.allocBlob then none
      else
        match readPayloadStreamed env d sz with
        | none => none
        | some blob => openPayload C env pass hdr blob

end PeakOs.Peakdisk
