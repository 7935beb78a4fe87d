import CapazOS.Fat.Device
import Mathlib.Data.Int.Notation

/-!
# FAT volumes: boot sectors, discovery, the write-ahead log

Parsing a BIOS parameter block, finding the volume on the disk, laying out the write-ahead log in
the reserved sectors, validating the geometry, and replaying the log. Where the two formats differ
in the source the definitions differ by name. A computation of type `Checked α` is `none` where
Swift would stop with a runtime trap. The statistics counters and console messages are left out.
-/

namespace CapazOS

/-- A computation that may stop with a Swift runtime trap, `none`. -/
abbrev Checked (α : Type) := Option α

/-! ### The BIOS parameter block -/

inductive FatType where
  | fat16
  | fat32
  deriving DecidableEq

structure FatBPB where
  fatType : FatType
  bytesPerSector : ℕ
  sectorsPerCluster : ℕ
  reservedSectors : ℕ
  numFATs : ℕ
  rootEntryCount : ℕ
  totalSectors : ℕ
  sectorsPerFAT : ℕ
  rootCluster : ℕ
  baseLBA : ℕ
  fatStartLBA : ℕ
  dataStartLBA : ℕ
  rootDirStartLBA : ℕ
  rootDirSectors : ℕ
  deriving DecidableEq

def fatRootDirSectors (bytesPerSector rootEntryCount : ℕ) : ℕ :=
  if bytesPerSector = 0 ∨ rootEntryCount = 0 then 0
  else (rootEntryCount * 32 + bytesPerSector - 1) / bytesPerSector

/-- `fatDetectType`; fewer than 4085 clusters would be FAT12, which is not supported. -/
def fatDetectType (totalSectors reservedSectors numFATs sectorsPerFAT rootDirSectors
    sectorsPerCluster : ℕ) : Option FatType :=
  if sectorsPerCluster = 0 then none
  else
    let dataSectors : ℤ := (totalSectors : ℤ) - reservedSectors - numFATs * sectorsPerFAT - rootDirSectors
    if dataSectors ≤ 0 then none
    else
      let clusters := dataSectors.toNat / sectorsPerCluster
      if clusters < 4085 then none
      else if clusters < 65525 then some .fat16
      else some .fat32

/-- A count kept in a 16-bit field, or in a 32-bit one when the first is zero. -/
def countField (data : Bytes) (off16 off32 : ℕ) : ℕ :=
  if readLE 2 data off16 ≠ 0 then readLE 2 data off16 else readLE 4 data off32

/-- `fatParseBPB`. The three LBAs are 32-bit sums; the largest of them decides whether one traps. -/
def fatParseBPB (data : Bytes) (baseLBA : ℕ) : Checked (Option FatBPB) :=
  if data.length < 90 then some none
  else
    let bytesPerSector := readLE 2 data 11
    let sectorsPerCluster := (data.getD 13 0).toNat
    let reservedSectors := readLE 2 data 14
    let numFATs := (data.getD 16 0).toNat
    let rootEntryCount := readLE 2 data 17
    let sectorsPerFAT16 := readLE 2 data 22
    let rootCluster := readLE 4 data 44
    let totalSectors := countField data 19 32
    let sectorsPerFAT := countField data 22 36
    if bytesPerSector = 0 ∨ sectorsPerCluster = 0 ∨ sectorsPerFAT = 0 ∨ totalSectors = 0 then
      some none
    else
      let rootDirSectors := fatRootDirSectors bytesPerSector rootEntryCount
      match fatDetectType totalSectors reservedSectors numFATs sectorsPerFAT rootDirSectors sectorsPerCluster with
      | none => some none
      | some fatType =>
        if fatType = .fat32 ∧ (rootEntryCount ≠ 0 ∨ sectorsPerFAT16 ≠ 0 ∨ rootCluster < 2) then
          some none
        else
          let fatStartLBA := baseLBA + reservedSectors
          let rootDirStartLBA := fatStartLBA + numFATs * sectorsPerFAT
          let dataStartLBA := rootDirStartLBA + rootDirSectors
          if 2 ^ 32 ≤ dataStartLBA then none
          else
            some (some { fatType, bytesPerSector, sectorsPerCluster, reservedSectors, numFATs,
                         rootEntryCount, totalSectors, sectorsPerFAT, rootCluster, baseLBA,
                         fatStartLBA, dataStartLBA, rootDirStartLBA, rootDirSectors })

/-- `Fat16Volume` and `Fat32Volume`: the parameter block with the region of the log. -/
structure Volume extends FatBPB where
  walStartLBA : ℕ
  walSectors : ℕ
  deriving DecidableEq

/-- `configureWalRegion`: the last two reserved sectors, when at least sixteen are reserved. -/
def configureWalRegion (bpb : FatBPB) : Volume :=
  let walSectors := 2
  if bpb.reservedSectors < 16 ∨ bpb.reservedSectors ≤ walSectors + 8 then
    { bpb with walStartLBA := 0, walSectors := 0 }
  else
    let walStart := bpb.baseLBA + bpb.reservedSectors - walSectors
    if walStart ≤ bpb.baseLBA + 8 then { bpb with walStartLBA := 0, walSectors := 0 }
    else { bpb with walStartLBA := walStart, walSectors }

def parseBootSector (ty : FatType) (data : Bytes) (baseLBA : ℕ) : Checked (Option FatBPB) :=
  (fatParseBPB data baseLBA).map fun bpb? ↦ bpb?.filter fun bpb ↦ bpb.fatType = ty

/-! ### Finding the volume -/

def fatFindPartitionLBAFromMBR (mbr : Bytes) (types : List UInt8) : Option ℕ :=
  if mbr.length < 512 then none
  else if mbr.getD 510 0 ≠ 0x55 ∨ mbr.getD 511 0 ≠ 0xAA then none
  else
    (List.range 4).findSome? fun i ↦
      let off := 446 + i * 16
      if mbr.getD (off + 4) 0 ∈ types then
        let lba := readLE 4 mbr (off + 8)
        if lba ≠ 0 then some lba else none
      else none

def gptSignature : Bytes := [0x45, 0x46, 0x49, 0x20, 0x50, 0x41, 0x52, 0x54]

def efiSystemGuid : Bytes :=
  [0x28, 0x73, 0x2A, 0xC1, 0x1F, 0xF8, 0xD2, 0x11, 0xBA, 0x4B, 0x00, 0xA0, 0xC9, 0x3E, 0xC9, 0x3B]

def msBasicDataGuid : Bytes :=
  [0xA2, 0xA0, 0xD0, 0xEB, 0xE5, 0xB9, 0x33, 0x44, 0x87, 0xC0, 0x68, 0xB6, 0xB7, 0x26, 0x99, 0xC7]

section

variable {ss : ℕ}

/-- `fatFindPartitionLBAFromGPT`. It traps when the table's sector count does not fit 32 bits, and
when the end of the table does not fit 64. -/
def fatFindPartitionLBAFromGPT (block : BlockDevice ss) (d : Disk ss) : Checked (Option ℕ) :=
  match block.read d 1 1 with
  | none => some none
  | some header =>
    if header.length < 92 then some none
    else if slice header 0 8 ≠ gptSignature then some none
    else
      let entriesLBA := readLE 8 header 72
      let numEntries := readLE 4 header 80
      let entrySize := readLE 4 header 84
      if entriesLBA = 0 ∨ numEntries = 0 ∨ entrySize < 128 then some none
      else
        let sectors := (numEntries * entrySize + ss - 1) / ss
        if sectors = 0 then some none
        else if 2 ^ 32 ≤ sectors ∨ 2 ^ 64 ≤ entriesLBA + sectors then none
        else
          match block.read d entriesLBA sectors with
          | none => some none
          | some entriesData =>
            let maxEntries := min numEntries (entriesData.length / entrySize)
            some ((List.range maxEntries).findSome? fun i ↦
              let off := i * entrySize
              let typeGuid := slice entriesData off 16
              if typeGuid = efiSystemGuid ∨ typeGuid = msBasicDataGuid then
                let firstLBA := readLE 8 entriesData (off + 32)
                if firstLBA ≠ 0 then some firstLBA else none
              else none)

/-- The GPT step of a search that reads boot sectors with `parse`. -/
def fatLocateGPT (parse : Bytes → ℕ → Checked (Option FatBPB)) (block : BlockDevice ss) (d : Disk ss) :
    Checked (Option FatBPB) :=
  (fatFindPartitionLBAFromGPT block d).bind fun gpt? ↦
    match gpt? with
    | none => some none
    | some gptLBA =>
      if 2 ^ 32 ≤ gptLBA then some none
      else
        match block.read d gptLBA 1 with
        | none => some none
        | some boot => parse boot gptLBA

/-- Its MBR step, for partitions of one of `types`. -/
def fatLocateMBR (parse : Bytes → ℕ → Checked (Option FatBPB)) (types : List UInt8) (block : BlockDevice ss)
    (d : Disk ss) (boot0 : Bytes) : Checked (Option FatBPB) :=
  match fatFindPartitionLBAFromMBR boot0 types with
  | none => some none
  | some partLBA =>
    match block.read d partLBA 1 with
    | none => some none
    | some boot => parse boot partLBA

/-- The search that the two `mount` functions and `fsDetectKind` share: at LBA 0, else in a GPT
partition, else in an MBR partition. -/
def discover (parse : Bytes → ℕ → Checked (Option FatBPB)) (types : List UInt8) (block : BlockDevice ss)
    (d : Disk ss) : Checked (Option FatBPB) :=
  match block.read d 0 1 with
  | none => some none
  | some boot0 =>
    (parse boot0 0).bind fun here? ↦
      match here? with
      | some bpb => some (some bpb)
      | none =>
        (fatLocateGPT parse block d).bind fun gpt? ↦
          match gpt? with
          | some bpb => some (some bpb)
          | none => fatLocateMBR parse types block d boot0

/-- How the two `mount` functions find their volume. -/
def fatLocate (ty : FatType) (types : List UInt8) (block : BlockDevice ss) (d : Disk ss) : Checked (Option FatBPB) :=
  discover (parseBootSector ty) types block d

end

/-! ### The write-ahead log

The log is two sectors: a header, with a magic number, a state and the target LBA, and the payload.
State 1 means prepared. -/

def walMagic : Bytes := [0x57, 0x41, 0x4C, 0x31]

/-- The header `walWriteSector` of `Core/Fat16.swift` writes: magic, state and target. -/
def walHeader16 (sectorSize targetLBA : ℕ) : Bytes :=
  let header := writeAt (List.replicate sectorSize 0) 0 walMagic
  let header := writeLE 4 1 header 4
  writeLE 8 targetLBA header 8

/-- The header `walWriteSector` of `Core/Fat32.swift` writes, with a count and a length as well. -/
def walHeader32 (sectorSize targetLBA : ℕ) : Bytes :=
  let header := writeAt (List.replicate sectorSize 0) 0 walMagic
  let header := writeLE 4 1 header 4
  let header := writeLE 8 targetLBA header 8
  let header := writeLE 4 1 header 16
  writeLE 4 sectorSize header 20

/-- The target of a prepared FAT16 log header, by the checks of `walReplayIfNeeded`. -/
def walPending16 (header : Bytes) : Option ℕ :=
  if header.length < 16 then none
  else if slice header 0 4 ≠ walMagic then none
  else if readLE 4 header 4 ≠ 1 then none
  else some (readLE 8 header 8)

/-- The target of a prepared FAT32 log header, by the checks of `walReplayIfNeeded`. -/
def walPending32 (bytesPerSector : ℕ) (header : Bytes) : Option ℕ :=
  if header.length < 32 then none
  else if slice header 0 4 ≠ walMagic then none
  else if readLE 4 header 4 ≠ 1 then none
  else
    let targetLBA := readLE 8 header 8
    let count := readLE 4 header 16
    let dataLen := readLE 4 header 20
    if count ≠ 1 ∨ dataLen = 0 ∨ bytesPerSector < dataLen then none else some targetLBA

/-- The header `walWriteSector` writes. -/
def walHeader (ty : FatType) (sectorSize targetLBA : ℕ) : Bytes :=
  match ty with
  | .fat16 => walHeader16 sectorSize targetLBA
  | .fat32 => walHeader32 sectorSize targetLBA

section

variable {ss : ℕ} (block : BlockDevice ss) (vol : Volume)

/-- The two writes of a replay, whose results are ignored. The first traps when the target is the
last 64-bit number. -/
def walReplayWrites (dev : Dev ss) (targetLBA : ℕ) (data : Bytes) : Checked (Dev ss) :=
  if 2 ^ 64 ≤ targetLBA + 1 then none
  else
    let dev := (block.write dev targetLBA data).2
    let clear := List.replicate vol.bytesPerSector 0
    some (block.write dev vol.walStartLBA clear).2

def walReplayIfNeeded16 (dev : Dev ss) : Checked (Dev ss) :=
  if vol.walStartLBA = 0 ∨ vol.walSectors < 2 then some dev
  else
    match block.read dev.disk vol.walStartLBA 1 with
    | none => some dev
    | some header =>
      match walPending16 header with
      | none => some dev
      | some target =>
        match block.read dev.disk (vol.walStartLBA + 1) 1 with
        | none => some dev
        | some data => walReplayWrites block vol dev target data

/-- `walReplayIfNeeded` of `Core/Fat32.swift`: a target of 0 is refused. -/
def walReplayIfNeeded32 (dev : Dev ss) : Checked (Dev ss) :=
  if vol.walStartLBA = 0 ∨ vol.walSectors < 2 then some dev
  else
    match block.read dev.disk vol.walStartLBA 1 with
    | none => some dev
    | some header =>
      match walPending32 vol.bytesPerSector header with
      | none => some dev
      | some target =>
        match block.read dev.disk (vol.walStartLBA + 1) 1 with
        | none => some dev
        | some data =>
          if data.length < vol.bytesPerSector ∨ target = 0 then some dev
          else walReplayWrites block vol dev target data

def walReplayIfNeeded : FatType → BlockDevice ss → Volume → Dev ss → Checked (Dev ss)
  | .fat16 => walReplayIfNeeded16
  | .fat32 => walReplayIfNeeded32

/-- The four writes of `walWriteSector`: header, payload, target, and the header cleared. The first
three stop the sequence when they fail; `simulateCrash` stops it before the target. -/
def walWrites (dev : Dev ss) (header : Bytes)
    (targetLBA : ℕ) (data : Bytes) (simulateCrash : Bool) : Bool × Dev ss :=
  let (ok, dev) := block.write dev vol.walStartLBA header
  if !ok then (false, dev)
  else
    let (ok, dev) := block.write dev (vol.walStartLBA + 1) data
    if !ok then (false, dev)
    else if simulateCrash then (false, dev)
    else
      let (ok, dev) := block.write dev targetLBA data
      if !ok then (false, dev)
      else
        let clear := List.replicate vol.bytesPerSector 0
        (true, (block.write dev vol.walStartLBA clear).2)

/-- `walWriteSector` of `Core/Fat16.swift`; without a log region it is a plain write. -/
def walWriteSector16 (simulateCrash : Bool)
    (targetLBA : ℕ) (data : Bytes) (dev : Dev ss) : Bool × Dev ss :=
  if vol.walStartLBA = 0 ∨ vol.walSectors < 2 then block.write dev targetLBA data
  else
    let sectorSize := vol.bytesPerSector
    if data.length < sectorSize then (false, dev)
    else
      walWrites block vol dev (walHeader16 sectorSize targetLBA) targetLBA (data.take sectorSize) simulateCrash

/-- `walWriteSector` of `Core/Fat32.swift`; without a log region it fails. -/
def walWriteSector32 (targetLBA : ℕ) (data : Bytes) (dev : Dev ss) : Bool × Dev ss :=
  if vol.walStartLBA = 0 ∨ vol.walSectors < 2 then (false, dev)
  else
    let sectorSize := vol.bytesPerSector
    if data.length < sectorSize then (false, dev)
    else walWrites block vol dev (walHeader32 sectorSize targetLBA) targetLBA data false

/-- `walWriteSector`, without a simulated crash. -/
def walWriteSector : FatType → BlockDevice ss → Volume → ℕ → Bytes → Dev ss → Bool × Dev ss
  | .fat16, block, vol => walWriteSector16 block vol false
  | .fat32, block, vol => walWriteSector32 block vol

/-! ### Mounting -/

/-- The checks the two `validate` functions share. -/
def validateCommon : Bool :=
  let last := vol.baseLBA + vol.totalSectors
  let fatEnd := vol.fatStartLBA + vol.sectorsPerFAT * vol.numFATs
  vol.bytesPerSector ≠ 0 && vol.sectorsPerCluster ≠ 0 && vol.sectorsPerFAT ≠ 0 &&
    ss = vol.bytesPerSector && vol.totalSectors ≠ 0 && last ≤ block.capacitySectors &&
    vol.baseLBA ≤ vol.fatStartLBA && fatEnd ≤ last &&
    vol.baseLBA ≤ vol.dataStartLBA && vol.dataStartLBA < last

/-- `validateFat16Volume`: the root directory is checked as well. -/
def validateFat16Volume : Bool :=
  let last := vol.baseLBA + vol.totalSectors
  validateCommon block vol && vol.baseLBA ≤ vol.rootDirStartLBA && vol.rootDirStartLBA + vol.rootDirSectors ≤ last

def validateFat32Volume : Bool := validateCommon block vol

def validateVolume : FatType → BlockDevice ss → Volume → Bool
  | .fat16 => validateFat16Volume
  | .fat32 => validateFat32Volume

/-- The MBR partition types each `mount` function accepts. -/
def mbrTypes : FatType → List UInt8
  | .fat16 => [0x04, 0x06, 0x0E]
  | .fat32 => [0x0B, 0x0C]

/-- `mountFat16` and `mountFat32`. -/
def mount (ty : FatType) (block : BlockDevice ss) (dev : Dev ss) : Checked (Option Volume × Dev ss) :=
  (fatLocate ty (mbrTypes ty) block dev.disk).bind fun bpb? ↦
    match bpb? with
    | none => some (none, dev)
    | some bpb =>
      let out := configureWalRegion bpb
      if !validateVolume ty block out then some (none, dev)
      else (walReplayIfNeeded ty block out dev).map fun dev ↦ (some out, dev)

end

end CapazOS
