import CapazOS.Fat.Regions
import CapazOS.Lib.Lists

/-!
# Format detection against mounting

`fsDetectKind` decides which file system an operation runs, and the `mount` function of that file
system then searches for the volume again. On the MBR they need not agree: detection takes the first
entry of **any** FAT partition type, mounting the first entry of **its own** types
(`detect_mount_agree_iff`).
-/

namespace CapazOS

open List

variable {ss : ℕ}

/-! ### The model -/

/-- The MBR partition types `fsDetectKind` looks at. -/
def detectTypes : List UInt8 := [0x04, 0x06, 0x0E, 0x0B, 0x0C]

/-- The parameter block `fsDetectKind` bases its answer on. -/
def fsDetectBPB (block : BlockDevice ss) (d : Disk ss) : Checked (Option FatBPB) :=
  discover fatParseBPB detectTypes block d

def fsDetectKind (block : BlockDevice ss) (d : Disk ss) : Checked (Option FatType) :=
  (fsDetectBPB block d).map fun bpb? ↦ bpb?.map FatBPB.fatType

/-! ### The partition table -/

def mbrEntryType (mbr : Bytes) (i : ℕ) : UInt8 := mbr.getD (446 + i * 16 + 4) 0

def mbrEntryLBA (mbr : Bytes) (i : ℕ) : ℕ := readLE 4 mbr (446 + i * 16 + 8)

/-- The first entry with one of the given types and a first sector other than 0 starts at `lba`. -/
def FirstEntry (mbr : Bytes) (types : List UInt8) (lba : ℕ) : Prop :=
  ∃ i < 4, mbrEntryType mbr i ∈ types ∧ mbrEntryLBA mbr i = lba ∧ lba ≠ 0 ∧
    ∀ j < i, mbrEntryType mbr j ∈ types → mbrEntryLBA mbr j = 0

theorem firstEntry_of_find {mbr : Bytes} {types : List UInt8} {lba : ℕ}
    (h : fatFindPartitionLBAFromMBR mbr types = some lba) : FirstEntry mbr types lba := by
  unfold fatFindPartitionLBAFromMBR at h
  split_ifs at h
  obtain ⟨i, hi, hentry, hbefore⟩ := findSome?_range_eq_some.1 h
  simp only [Option.ite_none_right_eq_some, Option.some.injEq] at hentry
  obtain ⟨htype, hne, rfl⟩ := hentry
  refine ⟨i, hi, htype, rfl, hne, fun j hj htype' ↦ ?_⟩
  have hnone := hbefore j hj
  simp only [ite_eq_right_iff, reduceCtorEq, imp_false, not_not] at hnone
  exact hnone htype'

theorem FirstEntry.unique {mbr : Bytes} {types : List UInt8} {lba lba' : ℕ}
    (h : FirstEntry mbr types lba) (h' : FirstEntry mbr types lba') : lba = lba' := by
  obtain ⟨i, -, htype, rfl, hne, hbefore⟩ := h
  obtain ⟨j, -, htype', rfl, hne', hbefore'⟩ := h'
  rcases lt_trichotomy i j with hlt | rfl | hlt
  · exact absurd (hbefore' i hlt htype) hne
  · rfl
  · exact absurd (hbefore j hlt htype') hne'

/-! ### Agreement -/

/-- Sector `lba` holds the boot sector of a FAT volume, of either format. -/
def HoldsVolume (d : Disk ss) (lba : ℕ) : Prop := ∃ bpb, fatParseBPB (d lba).1 lba = some (some bpb)

theorem parseBootSector_of_parse {data : Bytes} {lba : ℕ} {bpb : FatBPB} (h : fatParseBPB data lba = some (some bpb)) :
    parseBootSector bpb.fatType data lba = some (some bpb) := by
  simp [parseBootSector, h]

theorem parseBootSector_of_none (ty : FatType) {data : Bytes} {lba : ℕ}
    (h : fatParseBPB data lba = some none) : parseBootSector ty data lba = some none := by
  simp [parseBootSector, h]

/-- **Detection and mounting, exactly.** When `fsDetectKind` finds a volume and the mount function
of its format mounts one, the two are the same **if and only if** the start of the disk or the GPT
decided, or the first FAT entry of the MBR starts where the first entry of the format's own types
does. -/
theorem detect_mount_agree_iff {block : BlockDevice ss} {d : Disk ss} {bpb : FatBPB} {vol : Volume}
    {dev' : Dev ss} (hdetect : fsDetectBPB block d = some (some bpb))
    (hmount : mount bpb.fatType block (Dev.start d) = some (some vol, dev')) :
    vol.baseLBA = bpb.baseLBA ↔ HoldsVolume d 0 ∨ (∃ lba, GptBoot block d lba ∧ HoldsVolume d lba) ∨
        ∃ lba, FirstEntry (d 0).1 detectTypes lba ∧ FirstEntry (d 0).1 (mbrTypes bpb.fatType) lba := by
  obtain ⟨hnone, -⟩ | ⟨vol', heq, -, hlocate, -⟩ := mount_cases hmount
  · cases hnone
  obtain rfl := Option.some.inj heq
  have hfound : Discovered (parseBootSector bpb.fatType) (mbrTypes bpb.fatType) block d
    vol.toFatBPB := discovered_of_discover hlocate
  have hsame : ∀ {lba : ℕ}, fatParseBPB (d lba).1 lba = some (some bpb) →
      parseBootSector bpb.fatType (d lba).1 lba = some (some vol.toFatBPB) →
      vol.baseLBA = bpb.baseLBA := by
    intro lba hparse hparse'
    rw [parseBootSector_of_parse hparse] at hparse'
    rw [Option.some.inj (Option.some.inj hparse')]
  cases discovered_of_discover hdetect with
  | bare hparse =>
    refine iff_of_true ?_ (.inl ⟨bpb, hparse⟩)
    -- mounting cannot have gone on to the partition tables
    have hhere := parseBootSector_of_parse hparse
    cases hfound with
    | bare hparse' => exact hsame hparse hparse'
    | gpt _ hbare | mbr _ hbare =>
      rw [hhere] at hbare
      cases Option.some.inj hbare
  | gpt lba hbare hgpt hparse =>
    refine iff_of_true ?_ (.inr (.inl ⟨lba, hgpt, bpb, hparse⟩))
    have hhere := parseBootSector_of_none bpb.fatType hbare
    cases hfound with
    | bare hparse' =>
      rw [hhere] at hparse'
      cases Option.some.inj hparse'
    | gpt lba' _ hgpt' hparse' =>
      obtain rfl := Option.some.inj (Option.some.inj (hgpt.1.symm.trans hgpt'.1))
      exact hsame hparse hparse'
    | mbr _ _ hgpt' =>
      have hnone := hgpt' lba hgpt
      rw [parseBootSector_of_parse hparse] at hnone
      cases Option.some.inj hnone
  | mbr lba hbare hgpt hmbr hparse =>
    have hhere := parseBootSector_of_none bpb.fatType hbare
    have hbase : bpb.baseLBA = lba := (parsed_of_parse (parseBootSector_of_parse hparse)).2.base_eq
    cases hfound with
    | bare hparse' =>
      rw [hhere] at hparse'
      cases Option.some.inj hparse'
    | gpt lba' _ hgpt' hparse' =>
      rw [parseBootSector_of_none _ (hgpt lba' hgpt')] at hparse'
      cases Option.some.inj hparse'
    | mbr lba' _ _ hmbr' hparse' =>
      have hbase' : vol.baseLBA = lba' := (parsed_of_parse hparse').2.base_eq
      have hfirst := firstEntry_of_find hmbr
      have hfirst' := firstEntry_of_find hmbr'
      rw [hbase, hbase']
      constructor
      · rintro rfl
        exact .inr (.inr ⟨_, hfirst, hfirst'⟩)
      · rintro (⟨other, hother⟩ | ⟨other, hgpt', found, hother⟩ | ⟨other, hall, hown⟩)
        · rw [hbare] at hother
          cases Option.some.inj hother
        · rw [hgpt other hgpt'] at hother
          cases Option.some.inj hother
        · rw [hfirst'.unique hown, hfirst.unique hall]

theorem detect_mount_agree_disk16 : vol16.baseLBA = bpb16.baseLBA := by
  have hdetect : fsDetectBPB block16 (disk16 (filled 0) (filled 0)) = some (some bpb16) := by decide +kernel
  have hmount : mount bpb16.fatType block16 (Dev.start (disk16 (filled 0) (filled 0))) =
      some (some vol16, Dev.start (disk16 (filled 0) (filled 0))) := disk16_mount _ _
  refine (detect_mount_agree_iff hdetect hmount).2 (.inl ⟨bpb16, ?_⟩)
  decide +kernel

/-- An MBR with a FAT32 partition from sector 100 on and a FAT16 partition from sector 6000 on. -/
def mbrTwo : Sector 512 := ⟨writeLE 2 0xAA55 (writeLE 4 6000 (writeAt (writeLE 4 100 (writeAt (replicate 512 0)
    450 [0x0C]) 454) 466 [0x06]) 470) 510, by
    simp only [length_writeLE, length_writeAt, length_replicate]⟩

def diskTwo : Disk 512 :=
  fun lba ↦ if lba = 0 then mbrTwo else if lba = 100 ∨ lba = 6000 then boot16 else filled 0

def blockTwo : BlockDevice 512 := ⟨11000, by decide⟩

/-- The volume of `boot16` in a partition from sector `base` on. -/
def bpbAt (base : ℕ) : FatBPB := { bpb16 with
    baseLBA := base, fatStartLBA := base + 16, rootDirStartLBA := base + 56,
    dataStartLBA := base + 88 }

/-- **Detection and mounting can disagree**: the first partition is detected, the second mounted. -/
theorem detect_mount_differ : fsDetectKind blockTwo diskTwo = some (some .fat16) ∧
    fsDetectBPB blockTwo diskTwo = some (some (bpbAt 100)) ∧
    ∃ vol dev', mount .fat16 blockTwo (Dev.start diskTwo) = some (some vol, dev') ∧
      vol.baseLBA = 6000 ∧ vol.baseLBA ≠ (bpbAt 100).baseLBA := by
  have hdetect : fsDetectBPB blockTwo diskTwo = some (some (bpbAt 100)) := by decide +kernel
  have hlocate : fatLocate .fat16 (mbrTypes .fat16) blockTwo diskTwo = some (some (bpbAt 6000)) := by decide +kernel
  have hvalid : validateVolume .fat16 blockTwo (configureWalRegion (bpbAt 6000)) = true := by decide
  have hparse : parseBootSector .fat16 (diskTwo 6000).1 6000 = some (some (bpbAt 6000)) := by decide +kernel
  have hm : Mountable .fat16 blockTwo (configureWalRegion (bpbAt 6000)) :=
    ⟨⟨diskTwo 6000, bpbAt 6000, hparse, rfl⟩, hvalid⟩
  have hidle : ¬WalPrepared ((Dev.start diskTwo).disk (configureWalRegion (bpbAt 6000)).walStartLBA).1 :=
    not_prepared_zero 512
  refine ⟨by rw [fsDetectKind, hdetect]; rfl, hdetect, configureWalRegion (bpbAt 6000),
    Dev.start diskTwo, ?_, rfl, by decide⟩
  have hlocate' : fatLocate .fat16 (mbrTypes .fat16) blockTwo (Dev.start diskTwo).disk =
    some (some (bpbAt 6000)) := hlocate
  rw [mount_of_locate hlocate' hvalid, walReplay_of_not_prepared hm hidle]
  rfl

end CapazOS
