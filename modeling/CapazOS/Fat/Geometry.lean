import CapazOS.Fat.Volume
import Mathlib.Tactic.SplitIfs

/-!
# The geometry of a mountable volume

`Mountable ty block vol` says that `vol` is a volume the mount function of format `ty` can return
on `block`: it was parsed from a sector of the device, its log region was configured, and it passed
validation. What the later modules need of it is collected here once, so that none of them looks
into the parser again.
-/

namespace CapazOS

variable {ty : FatType} {bpb : FatBPB}

variable {ss : ℕ}
variable {block : BlockDevice ss} {d : Disk ss}

/-- A volume that the mount function of its format can return. -/
structure Mountable (ty : FatType) (block : BlockDevice ss) (vol : Volume) : Prop where
  parsed : ∃ (boot : Sector ss) (bpb : FatBPB),
    parseBootSector ty boot.1 vol.baseLBA = some (some bpb) ∧ vol = configureWalRegion bpb
  valid : validateVolume ty block vol = true

/-- What a successful parse says about the parameter block. -/
structure FatBPB.Parsed (ty : FatType) (baseLBA : ℕ) (bpb : FatBPB) : Prop where
  fatType_eq : bpb.fatType = ty
  base_eq : bpb.baseLBA = baseLBA
  fatStart_eq : bpb.fatStartLBA = baseLBA + bpb.reservedSectors
  rootDirStart_eq : bpb.rootDirStartLBA = bpb.fatStartLBA + bpb.numFATs * bpb.sectorsPerFAT
  dataStart_eq : bpb.dataStartLBA = bpb.rootDirStartLBA + bpb.rootDirSectors
  dataStart_lt : bpb.dataStartLBA < 2 ^ 32
  bytesPerSector_lt : bpb.bytesPerSector < 2 ^ 16
  detect : fatDetectType bpb.totalSectors bpb.reservedSectors bpb.numFATs bpb.sectorsPerFAT
    bpb.rootDirSectors bpb.sectorsPerCluster = some ty

theorem parsed_of_parse {data : Bytes} {baseLBA : ℕ} (h : parseBootSector ty data baseLBA = some (some bpb)) :
    90 ≤ data.length ∧ bpb.Parsed ty baseLBA := by
  simp only [parseBootSector, Option.map_eq_some_iff] at h
  obtain ⟨bpb?, hparse, hfilter⟩ := h
  obtain ⟨rfl, hty⟩ := Option.filter_eq_some_iff.1 hfilter
  replace hty : bpb.fatType = ty := of_decide_eq_true hty
  unfold fatParseBPB at hparse
  split at hparse
  · cases Option.some.inj hparse
  · next hlen =>
    simp only at hparse
    split at hparse
    · cases Option.some.inj hparse
    · split at hparse
      · cases Option.some.inj hparse
      · next ty' hdetect =>
        split at hparse
        · cases Option.some.inj hparse
        · split at hparse
          · cases hparse
          · next hlt =>
            obtain rfl := Option.some.inj (Option.some.inj hparse)
            obtain rfl : ty' = ty := hty
            exact ⟨by omega, rfl, rfl, rfl, rfl, rfl, Nat.lt_of_not_le hlt, readLE_lt 2 data 11, hdetect⟩

@[simp] theorem configureWalRegion_toFatBPB (bpb : FatBPB) : (configureWalRegion bpb).toFatBPB = bpb := by
  simp only [configureWalRegion]
  split_ifs <;> rfl

theorem configureWalRegion_cases (bpb : FatBPB) :
    (configureWalRegion bpb).walStartLBA = 0 ∧ (configureWalRegion bpb).walSectors = 0 ∨
      16 ≤ bpb.reservedSectors ∧ (configureWalRegion bpb).walSectors = 2 ∧
        (configureWalRegion bpb).walStartLBA + 2 = bpb.baseLBA + bpb.reservedSectors := by
  simp only [configureWalRegion]
  split_ifs with hfew hlow
  · exact .inl ⟨rfl, rfl⟩
  · exact .inl ⟨rfl, rfl⟩
  · refine .inr ⟨by omega, rfl, ?_⟩
    show bpb.baseLBA + bpb.reservedSectors - 2 + 2 = _
    omega

namespace Mountable

variable {vol : Volume}

section

variable (h : Mountable ty block vol)
include h

theorem parse : 90 ≤ ss ∧ vol.toFatBPB.Parsed ty vol.baseLBA := by
  obtain ⟨boot, bpb, hparse, rfl⟩ := h.parsed
  obtain ⟨hlen, hbpb⟩ := parsed_of_parse hparse
  rw [boot.2] at hlen
  rw [configureWalRegion_toFatBPB] at hbpb ⊢
  exact ⟨hlen, hbpb⟩

theorem common : validateCommon block vol = true := by
  have hvalid := h.valid
  cases ty with
  | fat16 =>
    simp only [validateVolume, validateFat16Volume, Bool.and_eq_true] at hvalid
    exact hvalid.1.1
  | fat32 => exact hvalid

theorem bounds : vol.bytesPerSector = ss ∧ 0 < vol.sectorsPerCluster ∧ 0 < vol.sectorsPerFAT ∧
      vol.baseLBA + vol.totalSectors ≤ block.capacitySectors ∧
      vol.fatStartLBA + vol.sectorsPerFAT * vol.numFATs ≤ vol.baseLBA + vol.totalSectors ∧
      vol.dataStartLBA < vol.baseLBA + vol.totalSectors := by
  have hcommon := h.common
  simp only [validateCommon, Bool.and_eq_true, decide_eq_true_eq] at hcommon
  omega

theorem ss_ge : 90 ≤ ss := h.parse.1

theorem ss_lt : ss < 2 ^ 16 := by
  have := h.parse.2.bytesPerSector_lt
  rwa [h.bounds.1] at this

theorem wal (hwal : vol.walStartLBA ≠ 0) : vol.walSectors = 2 ∧ vol.walStartLBA + 2 = vol.fatStartLBA ∧
      vol.baseLBA + 14 ≤ vol.walStartLBA ∧ vol.fatStartLBA ≤ block.capacitySectors := by
  have hbounds := h.bounds
  have hstart := h.parse.2.fatStart_eq
  obtain ⟨boot, bpb, -, rfl⟩ := h.parsed
  have hbpb := configureWalRegion_toFatBPB bpb
  rcases configureWalRegion_cases bpb with ⟨hzero, -⟩ | ⟨hres, hsectors, hend⟩
  · exact absurd hzero hwal
  · rw [hbpb] at hstart hbounds ⊢
    refine ⟨hsectors, ?_, ?_, ?_⟩ <;> omega

end

end Mountable

/-! ### What discovery and mounting return -/

theorem BlockDevice.read_one {lba : ℕ} {boot : Bytes} (h : block.read d lba 1 = some boot) :
    lba < block.capacitySectors ∧ boot = (d lba).1 := by
  unfold BlockDevice.read at h
  rw [if_neg one_ne_zero] at h
  split at h
  · cases h
  · next hcap =>
    rw [diskBytes_one] at h
    exact ⟨by omega, (Option.some.inj h).symm⟩

/-- The first usable GPT partition of `d`, when a boot sector can be read from it. -/
def GptBoot (block : BlockDevice ss) (d : Disk ss) (lba : ℕ) : Prop :=
  fatFindPartitionLBAFromGPT block d = some (some lba) ∧ lba < 2 ^ 32 ∧ lba < block.capacitySectors

/-- Where a search found its parameter block: at the start of the disk, else in a GPT partition,
else in an MBR partition. -/
inductive Discovered (parse : Bytes → ℕ → Checked (Option FatBPB)) (types : List UInt8)
    (block : BlockDevice ss) (d : Disk ss) (bpb : FatBPB) : Prop where
  | bare (hparse : parse (d 0).1 0 = some (some bpb))
  | gpt (lba : ℕ) (hbare : parse (d 0).1 0 = some none) (hgpt : GptBoot block d lba)
      (hparse : parse (d lba).1 lba = some (some bpb))
  | mbr (lba : ℕ) (hbare : parse (d 0).1 0 = some none)
      (hgpt : ∀ lba', GptBoot block d lba' → parse (d lba').1 lba' = some none)
      (hmbr : fatFindPartitionLBAFromMBR (d 0).1 types = some lba)
      (hparse : parse (d lba).1 lba = some (some bpb))

theorem discovered_of_discover {parse : Bytes → ℕ → Checked (Option FatBPB)} {types : List UInt8}
    (h : discover parse types block d = some (some bpb)) : Discovered parse types block d bpb := by
  unfold discover fatLocateGPT fatLocateMBR at h
  split at h
  · cases Option.some.inj h
  next boot0 hboot =>
  obtain ⟨-, rfl⟩ := BlockDevice.read_one hboot
  obtain ⟨here?, hhere, h⟩ := Option.bind_eq_some_iff.1 h
  split at h
  · obtain rfl := Option.some.inj (Option.some.inj h)
    exact .bare hhere
  obtain ⟨gpt?, hgpt, h⟩ := Option.bind_eq_some_iff.1 h
  obtain ⟨lba?, hfind, hgpt⟩ := Option.bind_eq_some_iff.1 hgpt
  split at h
  · -- in a GPT partition
    obtain rfl := Option.some.inj (Option.some.inj h)
    split at hgpt
    · cases Option.some.inj hgpt
    split at hgpt
    · cases Option.some.inj hgpt
    next hlt =>
    split at hgpt
    · cases Option.some.inj hgpt
    next hread =>
    obtain ⟨hcap, rfl⟩ := BlockDevice.read_one hread
    exact .gpt _ hhere ⟨hfind, by omega, hcap⟩ hgpt
  · -- in an MBR partition
    have hnone : ∀ lba', GptBoot block d lba' → parse (d lba').1 lba' = some none := by
      rintro lba' ⟨hfind', hlt, hcap⟩
      obtain rfl := Option.some.inj (hfind.symm.trans hfind')
      simp only at hgpt
      rw [if_neg (by omega), BlockDevice.read_eq d (by omega), diskBytes_one] at hgpt
      exact hgpt
    split at h
    · cases Option.some.inj h
    next hmbr =>
    split at h
    · cases Option.some.inj h
    next hread =>
    obtain ⟨-, rfl⟩ := BlockDevice.read_one hread
    exact .mbr _ hhere hnone hmbr h

theorem Discovered.boot {parse : Bytes → ℕ → Checked (Option FatBPB)} {types : List UInt8}
    (h : Discovered parse types block d bpb) : ∃ lba, parse (d lba).1 lba = some (some bpb) := by
  cases h with
  | bare hparse => exact ⟨0, hparse⟩
  | gpt lba _ _ hparse => exact ⟨lba, hparse⟩
  | mbr lba _ _ _ hparse => exact ⟨lba, hparse⟩

/-- A volume at the start of the disk is found there. -/
theorem fatLocate_bare {types : List UInt8} (hcap : 0 < block.capacitySectors)
    (hparse : parseBootSector ty (d 0).1 0 = some (some bpb)) : fatLocate ty types block d = some (some bpb) := by
  rw [fatLocate, discover.eq_def, BlockDevice.read_eq d hcap, diskBytes_one]
  show Option.bind (parseBootSector ty (d 0).1 0) _ = _
  rw [hparse]
  rfl

theorem mount_of_locate {dev : Dev ss} (hlocate : fatLocate ty (mbrTypes ty) block dev.disk = some (some bpb))
    (hvalid : validateVolume ty block (configureWalRegion bpb) = true) :
    mount ty block dev = (walReplayIfNeeded ty block (configureWalRegion bpb) dev).map fun dev ↦
      (some (configureWalRegion bpb), dev) := by
  rw [mount, hlocate]
  simp [hvalid]

/-- **Mounting**, inverted: it fails and changes nothing, or it returns a volume that passed
validation and has replayed its log. -/
theorem mount_cases {dev dev' : Dev ss} {vol? : Option Volume} (h : mount ty block dev = some (vol?, dev')) :
    vol? = none ∧ dev' = dev ∨ ∃ vol, vol? = some vol ∧ Mountable ty block vol ∧
        fatLocate ty (mbrTypes ty) block dev.disk = some (some vol.toFatBPB) ∧
        walReplayIfNeeded ty block vol dev = some dev' := by
  obtain ⟨bpb?, hlocate, h⟩ := Option.bind_eq_some_iff.1 h
  split at h
  · obtain ⟨rfl, rfl⟩ := Prod.mk.inj (Option.some.inj h)
    exact .inl ⟨rfl, rfl⟩
  next bpb =>
  simp only at h
  split at h
  · obtain ⟨rfl, rfl⟩ := Prod.mk.inj (Option.some.inj h)
    exact .inl ⟨rfl, rfl⟩
  next hvalid =>
  obtain ⟨dev₁, hreplay, hpair⟩ := Option.map_eq_some_iff.1 h
  obtain ⟨rfl, rfl⟩ := Prod.mk.inj hpair
  obtain ⟨lba, hparse⟩ := (discovered_of_discover hlocate).boot
  have hbase : bpb.baseLBA = lba := (parsed_of_parse hparse).2.base_eq
  refine .inr ⟨configureWalRegion bpb, rfl, ⟨⟨dev.disk lba, bpb, ?_, rfl⟩, ?_⟩, ?_, hreplay⟩
  · rw [configureWalRegion_toFatBPB, hbase]
    exact hparse
  · simpa using hvalid
  · rw [configureWalRegion_toFatBPB]
    exact hlocate

end CapazOS
