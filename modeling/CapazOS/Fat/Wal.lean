import CapazOS.Fat.Geometry
import Mathlib.Tactic.ByContra

/-!
# Logged sector writes

`walWriteSector` announces a sector write in the log before it performs it: header, payload, target,
header cleared (`walWriteSector_eq`). A replay writes the payload of a prepared log to the target
its header announces; FAT32 refuses target 0 (`walReplay_eq`). What a crash in between can do is the
subject of `Fat/Recovery`.
-/

namespace CapazOS

open List Function

variable {n t target : ℕ}

variable {ss : ℕ}
variable {dev : Dev ss} {d : Disk ss}

/-! ### Headers -/

/-- A log header in state 1. -/
def WalPrepared (header : Bytes) : Prop := slice header 0 4 = walMagic ∧ readLE 4 header 4 = 1

instance (header : Bytes) : Decidable (WalPrepared header) := inferInstanceAs (Decidable (_ ∧ _))

theorem walHeader16_fields (hn : 16 ≤ n) (ht : t < 2 ^ 64) :
    (walHeader16 n t).length = n ∧ slice (walHeader16 n t) 0 4 = walMagic ∧
      readLE 4 (walHeader16 n t) 4 = 1 ∧ readLE 8 (walHeader16 n t) 8 = t := by
  have hmagic : (writeAt (replicate n 0) 0 walMagic).length = n := by simp
  have hstate : (writeLE 4 1 (writeAt (replicate n 0) 0 walMagic) 4).length = n := by simp
  refine ⟨?_, ?_, ?_, ?_⟩ <;> unfold walHeader16
  · simp
  · rw [writeLE, slice_writeAt_disjoint (by rw [length_leBytes]; omega) (.inl (by omega)),
      writeLE, slice_writeAt_disjoint (by rw [length_leBytes]; omega) (.inl (by omega))]
    have hfit : 0 + walMagic.length ≤ (replicate n (0 : UInt8)).length := by
      rw [length_replicate]
      show 0 + 4 ≤ n
      omega
    exact slice_writeAt_self hfit
  · rw [readLE_writeLE_disjoint (by omega) (.inl (by omega)), readLE_writeLE_self (by omega) (by norm_num)]
  · exact readLE_writeLE_self (by omega) (by norm_num; omega)

theorem walHeader32_eq (n t : ℕ) : walHeader32 n t = writeLE 4 n (writeLE 4 1 (walHeader16 n t) 16) 20 := rfl

theorem walHeader32_fields (hn : 32 ≤ n) (hn' : n < 2 ^ 32) (ht : t < 2 ^ 64) :
    (walHeader32 n t).length = n ∧ slice (walHeader32 n t) 0 4 = walMagic ∧
      readLE 4 (walHeader32 n t) 4 = 1 ∧ readLE 8 (walHeader32 n t) 8 = t ∧
      readLE 4 (walHeader32 n t) 16 = 1 ∧ readLE 4 (walHeader32 n t) 20 = n := by
  obtain ⟨hlen, hmagic, hstate, htarget⟩ := walHeader16_fields (by omega : 16 ≤ n) ht
  have hlen' : (writeLE 4 1 (walHeader16 n t) 16).length = n := by rw [length_writeLE, hlen]
  rw [walHeader32_eq]
  refine ⟨?_, ?_, ?_, ?_, ?_, ?_⟩
  · rw [length_writeLE, hlen']
  · rw [writeLE, slice_writeAt_disjoint (by rw [length_leBytes]; omega) (.inl (by omega)),
      writeLE, slice_writeAt_disjoint (by rw [length_leBytes]; omega) (.inl (by omega)), hmagic]
  · rw [readLE_writeLE_disjoint (by omega) (.inl (by omega)),
      readLE_writeLE_disjoint (by omega) (.inl (by omega)), hstate]
  · rw [readLE_writeLE_disjoint (by omega) (.inl (by omega)),
      readLE_writeLE_disjoint (by omega) (.inl (by omega)), htarget]
  · rw [readLE_writeLE_disjoint (by omega) (.inl (by omega)), readLE_writeLE_self (by omega) (by norm_num)]
  · exact readLE_writeLE_self (by omega) (by norm_num; omega)

theorem walPending16_header (hn : 16 ≤ n) (ht : t < 2 ^ 64) : walPending16 (walHeader16 n t) = some t := by
  obtain ⟨hlen, hmagic, hstate, htarget⟩ := walHeader16_fields hn ht
  rw [walPending16, if_neg (by omega), if_neg (not_not.2 hmagic), if_neg (not_not.2 hstate), htarget]

theorem walPending32_header (hn : 32 ≤ n) (hn' : n < 2 ^ 32) (ht : t < 2 ^ 64) :
    walPending32 n (walHeader32 n t) = some t := by
  obtain ⟨hlen, hmagic, hstate, htarget, hcount, hdata⟩ := walHeader32_fields hn hn' ht
  rw [walPending32, if_neg (by omega), if_neg (not_not.2 hmagic), if_neg (not_not.2 hstate)]
  simp only [htarget, hcount, hdata]
  rw [if_neg (by omega)]

/-- The target of a prepared log header. -/
def walPending : FatType → ℕ → Bytes → Option ℕ
  | .fat16, _ => walPending16
  | .fat32, bytesPerSector => walPending32 bytesPerSector

theorem walPending_of_not_prepared (ty : FatType) {header : Bytes} (h : ¬WalPrepared header) :
    walPending ty n header = none := by
  cases ty <;> simp only [walPending, walPending16, walPending32] <;> split_ifs with hlen hmagic hstate <;>
    first | rfl | exact absurd ⟨not_not.1 hmagic, not_not.1 hstate⟩ h

def zeroSector (ss : ℕ) : Sector ss := ⟨replicate ss 0, length_replicate⟩

theorem not_prepared_zero (n : ℕ) : ¬WalPrepared (replicate n 0) := by
  rintro ⟨hmagic, -⟩
  have hmem : (0x57 : UInt8) ∈ slice (replicate n 0) 0 4 := by
    rw [hmagic]
    exact mem_cons_self
  have hzero := eq_of_mem_replicate (mem_of_mem_drop (mem_of_mem_take hmem))
  exact absurd hzero (by decide)

/-! ### The four writes -/

theorem BlockDevice.write_sector {block : BlockDevice ss} {lba : ℕ} (hlba : lba < block.capacitySectors)
    (s : Sector ss) : block.write dev lba s.1 = (true, dev.put (update dev.disk lba s)) := by
  rw [BlockDevice.write_eq hlba s.2.ge, Sector.ofBytes_coe]

section

variable {ty : FatType} {block : BlockDevice ss} {vol : Volume}

theorem length_walHeader (ty : FatType) (n t : ℕ) : (walHeader ty n t).length = n := by
  cases ty <;> simp [walHeader, walHeader16, walHeader32]

def walHeaderSector (ty : FatType) (ss t : ℕ) : Sector ss :=
  ⟨walHeader ty ss t, length_walHeader ..⟩

theorem walHeader16_eq_coe (t : ℕ) : walHeader16 ss t = (walHeaderSector .fat16 ss t).1 := by
  simp only [walHeaderSector, walHeader]

theorem walHeader32_eq_coe (t : ℕ) : walHeader32 ss t = (walHeaderSector .fat32 ss t).1 := by
  simp only [walHeaderSector, walHeader]

theorem clear_eq (hm : Mountable ty block vol) : replicate vol.bytesPerSector 0 = (zeroSector ss).1 := by
  rw [hm.bounds.1]
  rfl

def walDisk₁ (ty : FatType) (vol : Volume) (target : ℕ) (d : Disk ss) : Disk ss :=
  update d vol.walStartLBA (walHeaderSector ty ss target)

def walDisk₂ (ty : FatType) (vol : Volume) (target : ℕ) (data : Sector ss) (d : Disk ss) : Disk ss :=
  update (walDisk₁ ty vol target d) (vol.walStartLBA + 1) data

def walDisk₃ (ty : FatType) (vol : Volume) (target : ℕ) (data : Sector ss) (d : Disk ss) : Disk ss :=
  update (walDisk₂ ty vol target data d) target data

def walDisk₄ (ty : FatType) (vol : Volume) (target : ℕ) (data : Sector ss) (d : Disk ss) : Disk ss :=
  update (walDisk₃ ty vol target data d) vol.walStartLBA (zeroSector ss)

theorem walWrites_eq (hm : Mountable ty block vol) (hwal : vol.walStartLBA ≠ 0)
    (htarget : target < block.capacitySectors) (data : Sector ss) (dev : Dev ss) :
    walWrites block vol dev (walHeaderSector ty ss target).1 target data.1 false =
      (true, (((dev.put (walDisk₁ ty vol target dev.disk)).put (walDisk₂ ty vol target data dev.disk)).put
        (walDisk₃ ty vol target data dev.disk)).put (walDisk₄ ty vol target data dev.disk)) := by
  obtain ⟨hsectors, hend, -, hcap⟩ := hm.wal hwal
  have hw₀ : vol.walStartLBA < block.capacitySectors := by omega
  have hw₁ : vol.walStartLBA + 1 < block.capacitySectors := by omega
  simp only [walWrites, BlockDevice.write_sector hw₀, BlockDevice.write_sector hw₁,
    BlockDevice.write_sector htarget, clear_eq hm, Bool.not_true, Bool.false_eq_true, if_false]
  rfl

theorem walWriteSector_eq (hm : Mountable ty block vol) (hwal : vol.walStartLBA ≠ 0)
    (htarget : target < block.capacitySectors) (data : Sector ss) (dev : Dev ss) :
    walWriteSector ty block vol target data.1 dev = (true, (((dev.put (walDisk₁ ty vol target dev.disk)).put
        (walDisk₂ ty vol target data dev.disk)).put
        (walDisk₃ ty vol target data dev.disk)).put (walDisk₄ ty vol target data dev.disk)) := by
  obtain ⟨hsectors, -⟩ := hm.wal hwal
  have hbps := hm.bounds.1
  have hon : ¬(vol.walStartLBA = 0 ∨ vol.walSectors < 2) := by omega
  have hlen : ¬data.1.length < vol.bytesPerSector := by rw [data.2]; omega
  cases ty with
  | fat16 =>
    have htake : data.1.take vol.bytesPerSector = data.1 := take_of_length_le (by rw [data.2, hbps])
    simp only [walWriteSector, walWriteSector16]
    rw [if_neg hon, if_neg hlen, htake, hbps, walHeader16_eq_coe]
    exact walWrites_eq hm hwal htarget data dev
  | fat32 =>
    simp only [walWriteSector, walWriteSector32]
    rw [if_neg hon, if_neg hlen, hbps, walHeader32_eq_coe]
    exact walWrites_eq hm hwal htarget data dev

/-! ### Replay -/

/-- The target of a replay of the log on `d`, which FAT32 refuses when it is 0. -/
def replayTarget (ty : FatType) (vol : Volume) (d : Disk ss) : Option ℕ :=
  if vol.walStartLBA = 0 then none
  else (walPending ty vol.bytesPerSector (d vol.walStartLBA).1).filter fun target ↦ ty = .fat16 ∨ target ≠ 0

/-- A replay without a target changes nothing; one with a target writes the payload there, if it
can, and clears the header. -/
theorem walReplay_eq (hm : Mountable ty block vol) (dev : Dev ss) :
    walReplayIfNeeded ty block vol dev = (replayTarget ty vol dev.disk).elim (some dev) fun target ↦
      walReplayWrites block vol dev target (dev.disk (vol.walStartLBA + 1)).1 := by
  unfold replayTarget
  split
  · next hzero =>
    cases ty <;> simp [walReplayIfNeeded, walReplayIfNeeded16, walReplayIfNeeded32, hzero]
  next hwal =>
  obtain ⟨hsectors, hend, -, hcap⟩ := hm.wal hwal
  have hread : block.read dev.disk vol.walStartLBA 1 = some (dev.disk vol.walStartLBA).1 := by
    rw [BlockDevice.read_eq _ (by omega), diskBytes_one]
  have hpayload : block.read dev.disk (vol.walStartLBA + 1) 1 = some (dev.disk (vol.walStartLBA + 1)).1 := by
    rw [BlockDevice.read_eq _ (by omega), diskBytes_one]
  cases ty with
  | fat16 =>
    simp only [walReplayIfNeeded, walReplayIfNeeded16]
    rw [if_neg (by omega), hread]
    rcases hp : walPending16 (dev.disk vol.walStartLBA).1 with - | target <;>
      simp [walPending, hp, hpayload, Option.filter_some]
  | fat32 =>
    have hlen : ¬(dev.disk (vol.walStartLBA + 1)).1.length < vol.bytesPerSector := by
      rw [(dev.disk (vol.walStartLBA + 1)).2, hm.bounds.1]
      exact lt_irrefl _
    simp only [walReplayIfNeeded, walReplayIfNeeded32]
    rw [if_neg (by omega), hread]
    rcases hp : walPending32 vol.bytesPerSector (dev.disk vol.walStartLBA).1 with - | target
    · simp [walPending, hp]
    · rcases eq_or_ne target 0 with rfl | hne
      · simp [walPending, hp, hpayload, Option.filter_some]
      · simp [walPending, hp, hpayload, hne, hlen, Option.filter_some]

theorem replayTarget_of_not_prepared (h : ¬WalPrepared (d vol.walStartLBA).1) : replayTarget ty vol d = none := by
  rw [replayTarget, walPending_of_not_prepared ty h, Option.filter_none, ite_self]

theorem walReplay_of_not_prepared (hm : Mountable ty block vol)
    (h : ¬WalPrepared (dev.disk vol.walStartLBA).1) : walReplayIfNeeded ty block vol dev = some dev := by
  rw [walReplay_eq hm, replayTarget_of_not_prepared h]
  rfl

/-- The disk after a prepared log is replayed: the payload goes to the target, the header is
cleared. -/
def walReplayed (vol : Volume) (target : ℕ) (d : Disk ss) : Disk ss :=
  update (update d target (d (vol.walStartLBA + 1))) vol.walStartLBA (zeroSector ss)

theorem walReplayWrites_eq (hm : Mountable ty block vol) (hwal : vol.walStartLBA ≠ 0)
    (htarget : target < block.capacitySectors) (dev : Dev ss) :
    walReplayWrites block vol dev target (dev.disk (vol.walStartLBA + 1)).1 =
      some ((dev.put (update dev.disk target (dev.disk (vol.walStartLBA + 1)))).put
        (walReplayed vol target dev.disk)) := by
  obtain ⟨-, hend, -, hcap⟩ := hm.wal hwal
  have hcap64 := block.capacity_lt
  simp only [walReplayWrites, clear_eq hm]
  rw [if_neg (by omega), BlockDevice.write_sector htarget,
    BlockDevice.write_sector (by omega : vol.walStartLBA < block.capacitySectors)]
  rfl

theorem walPending_header (hm : Mountable ty block vol) (htarget : target < block.capacitySectors) :
    walPending ty ss (walHeaderSector ty ss target).1 = some target := by
  have hge := hm.ss_ge
  have hlt := hm.ss_lt
  have hcap64 := block.capacity_lt
  cases ty with
  | fat16 =>
    rw [← walHeader16_eq_coe]
    exact walPending16_header (by omega) (by omega)
  | fat32 =>
    rw [← walHeader32_eq_coe]
    exact walPending32_header (by omega) (by omega) (by omega)

theorem walReplay_of_header (hm : Mountable ty block vol) (hwal : vol.walStartLBA ≠ 0)
    (htarget : target < block.capacitySectors) (h : dev.disk vol.walStartLBA = walHeaderSector ty ss target) :
    ∃ dev', walReplayIfNeeded ty block vol dev = some dev' ∧
      dev'.disk = if ty = .fat32 ∧ target = 0 then dev.disk else walReplayed vol target dev.disk := by
  rw [walReplay_eq hm, replayTarget, if_neg hwal, hm.bounds.1, h, walPending_header hm htarget]
  by_cases hrefuse : ty = .fat32 ∧ target = 0
  · rw [if_pos hrefuse, hrefuse.1, hrefuse.2]
    exact ⟨dev, rfl, rfl⟩
  · have hkeep : ty = .fat16 ∨ target ≠ 0 := by cases ty <;> simp_all
    rw [if_neg hrefuse, Option.filter_some, if_pos (decide_eq_true hkeep)]
    exact ⟨_, walReplayWrites_eq hm hwal htarget dev, rfl⟩

/-- The target sector of the write lies on the device and outside the log. -/
structure WalTarget (block : BlockDevice ss) (vol : Volume) (target : ℕ) : Prop where
  lt : target < block.capacitySectors
  ne_header : target ≠ vol.walStartLBA
  ne_payload : target ≠ vol.walStartLBA + 1

theorem walDisk₄_apply (ht : WalTarget block vol target) (data : Sector ss) (d : Disk ss) (lba : ℕ) :
    walDisk₄ ty vol target data d lba = if lba = target then data
      else if lba = vol.walStartLBA then zeroSector ss
      else if lba = vol.walStartLBA + 1 then data
      else d lba := by
  have hne := ht.ne_header
  simp only [walDisk₄, walDisk₃, walDisk₂, walDisk₁, update_apply]
  split_ifs <;> first | rfl | omega

end

/-! ### A small volume -/

/-- The boot sector of a FAT16 volume of 5000 sectors, with one sector per cluster. -/
def boot16 : Sector 512 := ⟨writeLE 2 20 (writeLE 2 5000 (writeLE 2 512 (writeAt (writeLE 2 16 (writeAt
    (writeLE 2 512 (replicate 512 0) 11) 13 [1]) 14) 16 [2]) 17) 19) 22, by
    simp only [length_writeLE, length_writeAt, length_replicate]⟩

def bpb16 : FatBPB where
  fatType := .fat16
  bytesPerSector := 512
  sectorsPerCluster := 1
  reservedSectors := 16
  numFATs := 2
  rootEntryCount := 512
  totalSectors := 5000
  sectorsPerFAT := 20
  rootCluster := 0
  baseLBA := 0
  fatStartLBA := 16
  dataStartLBA := 88
  rootDirStartLBA := 56
  rootDirSectors := 32

theorem parse_boot16 : parseBootSector .fat16 boot16.1 0 = some (some bpb16) := by decide +kernel

def block16 : BlockDevice 512 := ⟨5000, by decide⟩

/-- The small volume, with its log in sectors 14 and 15. -/
def vol16 : Volume := configureWalRegion bpb16

theorem vol16_mountable : Mountable .fat16 block16 vol16 :=
  ⟨⟨boot16, bpb16, parse_boot16, rfl⟩, by decide⟩

def filled (b : UInt8) : Sector 512 := ⟨replicate 512 b, length_replicate⟩

theorem filled_ne {a b : UInt8} (h : a ≠ b) : filled a ≠ filled b := fun heq ↦
  h ((replicate_inj.1 (congrArg Subtype.val heq)).2.resolve_left (by decide))

end CapazOS
