import CapazOS.Fat.Flat
import Mathlib

/-!
# The regions of a mounted volume, and what mounting writes

A mounted volume divides its partition into **regions**: the boot sector, the log, the copies of the
table, the root directory of FAT16 and the clusters. They are disjoint and in bounds exactly when
three fields of the boot sector are sane, which the mount functions do not check
(`mount_regions_iff`). Mounting writes to the log header and to one sector of the contents only,
exactly when the log is harmless (`mount_writes_iff`): **nothing compares the target of a replay
with the regions**.
-/

namespace CapazOS

open List hiding Disjoint
open Function

variable {r : ℕ × ℕ} {ty : FatType} {target : ℕ} {vol : Volume}

variable {ss : ℕ}
variable {block : BlockDevice ss} {d : Disk ss}

/-! ### Regions -/

/-- The runs of sectors `[start, end)` that hold the contents of a volume: the copies of the table,
the root directory of FAT16, and the clusters. -/
def Volume.contentRegions (vol : Volume) : List (ℕ × ℕ) :=
  (range vol.numFATs).map (fun k ↦
    (vol.fatStartLBA + k * vol.sectorsPerFAT, vol.fatStartLBA + (k + 1) * vol.sectorsPerFAT)) ++
  [(vol.rootDirStartLBA, vol.rootDirStartLBA + vol.rootDirSectors),
    (vol.dataStartLBA, vol.dataStartLBA + (fatMaxCluster vol - 1) * vol.sectorsPerCluster)]

/-- All regions of a volume: the boot sector, the log when there is one, and the contents. -/
def Volume.regions (vol : Volume) : List (ℕ × ℕ) :=
  (vol.baseLBA, vol.baseLBA + 1) ::
    ((if vol.walStartLBA = 0 then [] else [(vol.walStartLBA, vol.walStartLBA + vol.walSectors)]) ++ vol.contentRegions)

/-- **Sound geometry**: the regions do not meet, they lie in the partition and on the device, there
is a copy of the table, and it has an entry for every cluster. -/
structure RegionsSound (block : BlockDevice ss) (vol : Volume) : Prop where
  disjoint : vol.regions.Pairwise fun r r' ↦ Disjoint (Set.Ico r.1 r.2) (Set.Ico r'.1 r'.2)
  inside : ∀ r ∈ vol.regions, vol.baseLBA ≤ r.1 ∧ r.2 ≤ vol.baseLBA + vol.totalSectors ∧ r.2 ≤ block.capacitySectors
  copies : 1 ≤ vol.numFATs
  entries : (fatMaxCluster vol + 1) * fatEntryBytes vol.fatType ≤ vol.sectorsPerFAT * vol.bytesPerSector

theorem Mountable.clusters_le (h : Mountable ty block vol) :
    vol.dataStartLBA + (fatMaxCluster vol - 1) * vol.sectorsPerCluster ≤ vol.baseLBA + vol.totalSectors := by
  have hdata := h.bounds.2.2.2.2.2
  rcases Nat.lt_or_ge (fatMaxCluster vol) 2 with hlt | hge
  · rw [show fatMaxCluster vol - 1 = 0 by omega, Nat.zero_mul]
    omega
  · have hlast := h.cluster_le ⟨hge, Nat.le_refl _⟩
    have hsplit : fatMaxCluster vol - 1 = fatMaxCluster vol - 2 + 1 := by omega
    rw [hsplit, Nat.succ_mul]
    unfold clusterLBA at hlast
    omega

theorem copy_le {k : ℕ} (hk : k ∈ range vol.numFATs) :
    (k + 1) * vol.sectorsPerFAT ≤ vol.numFATs * vol.sectorsPerFAT := Nat.mul_le_mul_right _ (mem_range.1 hk)

theorem Mountable.content_bounds (h : Mountable ty block vol) (hr : r ∈ vol.contentRegions) :
    vol.fatStartLBA ≤ r.1 ∧ r.2 ≤ vol.baseLBA + vol.totalSectors := by
  obtain ⟨hfat, hroot, -⟩ := h.areas
  have hclusters := h.clusters_le
  rcases mem_append.1 hr with hr | hr
  · obtain ⟨k, hk, rfl⟩ := mem_map.1 hr
    have hcopy := copy_le hk
    exact ⟨Nat.le_add_right _ _, by simp only; omega⟩
  · simp only [mem_cons, not_mem_nil, or_false] at hr
    rcases hr with rfl | rfl
    · exact ⟨by simp only; omega, by simp only; omega⟩
    · exact ⟨by simp only; omega, hclusters⟩

theorem disjoint_of_le {r' : ℕ × ℕ} (h : r.2 ≤ r'.1) : Disjoint (Set.Ico r.1 r.2) (Set.Ico r'.1 r'.2) :=
  Set.Ico_disjoint_Ico.2 ((min_le_left _ _).trans (h.trans (le_max_right _ _)))

theorem Mountable.content_sorted (h : Mountable ty block vol) : vol.contentRegions.Pairwise fun r r' ↦ r.2 ≤ r'.1 := by
  obtain ⟨hfat, hroot, -⟩ := h.areas
  refine pairwise_append.2 ⟨?_, ?_, ?_⟩
  · refine pairwise_map.2 (pairwise_lt_range.imp fun {k k'} hlt ↦ ?_)
    exact Nat.add_le_add_left (Nat.mul_le_mul_right _ hlt) _
  · exact pairwise_pair.2 hroot.le
  · intro r hr r' hr'
    obtain ⟨k, hk, rfl⟩ := mem_map.1 hr
    have hcopy := copy_le hk
    simp only [mem_cons, not_mem_nil, or_false] at hr'
    rcases hr' with rfl | rfl <;> simp only <;> omega

theorem Mountable.regions_sorted (h : Mountable ty block vol) (hres : 1 ≤ vol.reservedSectors) :
    vol.regions.Pairwise fun r r' ↦ r.2 ≤ r'.1 := by
  have hstart := h.parse.2.fatStart_eq
  have hcontent : ∀ r ∈ vol.contentRegions, vol.fatStartLBA ≤ r.1 := fun r hr ↦ (h.content_bounds hr).1
  unfold Volume.regions
  split
  · refine pairwise_cons.2 ⟨fun r hr ↦ ?_, h.content_sorted⟩
    have := hcontent r hr
    omega
  · next hwal =>
    obtain ⟨hsectors, hend, hlow, -⟩ := h.wal hwal
    refine pairwise_cons.2 ⟨fun r hr ↦ ?_, pairwise_cons.2 ⟨fun r hr ↦ ?_, h.content_sorted⟩⟩
    · rcases mem_cons.1 hr with rfl | hr
      · simp only
        omega
      · have := hcontent r hr
        omega
    · have := hcontent r hr
      omega

theorem Mountable.regions_inside (h : Mountable ty block vol) (hr : r ∈ vol.regions) :
    vol.baseLBA ≤ r.1 ∧ r.2 ≤ vol.baseLBA + vol.totalSectors := by
  obtain ⟨-, -, -, -, -, hdata⟩ := h.bounds
  obtain ⟨hfat, hroot, hbase⟩ := h.areas
  rcases mem_cons.1 hr with rfl | hr
  · exact ⟨Nat.le_refl _, by simp only; omega⟩
  rcases mem_append.1 hr with hr | hr
  · split at hr
    · cases hr
    · next hwal =>
      obtain ⟨hsectors, hend, hlow, -⟩ := h.wal hwal
      obtain rfl := mem_singleton.1 hr
      exact ⟨by simp only; omega, by simp only; omega⟩
  · have := h.content_bounds hr
    omega

/-- **Accepted geometry, exactly.** The regions of a mounted volume are disjoint, inside the
partition and on the device, with a copy of the table that indexes every cluster, **if and only if**
the boot sector announces a copy of the table, reserves a sector, and makes the table long
enough. -/
theorem mount_regions_iff {ty : FatType} {block : BlockDevice ss} {dev dev' : Dev ss} {vol : Volume}
    (hmount : mount ty block dev = some (some vol, dev')) :
    RegionsSound block vol ↔ 1 ≤ vol.numFATs ∧ 1 ≤ vol.reservedSectors ∧
        (fatMaxCluster vol + 1) * fatEntryBytes ty ≤ vol.sectorsPerFAT * vol.bytesPerSector := by
  obtain ⟨hnone, -⟩ | ⟨vol', heq, hm, -, -⟩ := mount_cases hmount
  · cases hnone
  obtain rfl := Option.some.inj heq
  have hty := hm.fatType_eq
  obtain ⟨-, -, hspf, hcap, -, -⟩ := hm.bounds
  constructor
  · rintro ⟨hdisjoint, -, hcopies, hentries⟩
    refine ⟨hcopies, Nat.one_le_iff_ne_zero.2 fun hres ↦ ?_, hty ▸ hentries⟩
    -- without a reserved sector the first copy of the table starts on the boot sector
    have hstart : vol.fatStartLBA = vol.baseLBA := by rw [hm.parse.2.fatStart_eq, hres, Nat.add_zero]
    have hcopy : (vol.fatStartLBA + 0 * vol.sectorsPerFAT,
        vol.fatStartLBA + (0 + 1) * vol.sectorsPerFAT) ∈ vol.contentRegions :=
      mem_append_left _ (mem_map.2 ⟨0, mem_range.2 hcopies, rfl⟩)
    have hmeet := (pairwise_cons.1 hdisjoint).1 _ (mem_append_right _ hcopy)
    have hboot : vol.baseLBA ∈ Set.Ico vol.baseLBA (vol.baseLBA + 1) := ⟨Nat.le_refl _, Nat.lt_succ_self _⟩
    exact Set.disjoint_left.1 hmeet hboot ⟨by simp only; omega, by simp only; omega⟩
  · rintro ⟨hcopies, hres, hentries⟩
    refine ⟨(hm.regions_sorted hres).imp fun hle ↦ disjoint_of_le hle, fun r hr ↦ ?_, hcopies, hty ▸ hentries⟩
    obtain ⟨hlow, hhigh⟩ := hm.regions_inside hr
    exact ⟨hlow, hhigh, hhigh.trans hcap⟩

theorem mount_bare {bpb : FatBPB} (hcap : 0 < block.capacitySectors)
    (hparse : parseBootSector ty (d 0).1 0 = some (some bpb))
    (hvalid : validateVolume ty block (configureWalRegion bpb) = true) :
    mount ty block (Dev.start d) = (walReplayIfNeeded ty block (configureWalRegion bpb) (Dev.start d)).map fun dev ↦
        (some (configureWalRegion bpb), dev) :=
  mount_of_locate (fatLocate_bare hcap hparse) hvalid

theorem mount_regions_disk16 : RegionsSound block16 vol16 :=
  (mount_regions_iff (disk16_mount (filled 0) (filled 0))).2 ⟨by decide, by decide, by decide⟩

/-- The boot sector of the small volume, with no copy of the table announced. -/
def bootNoFats : Sector 512 := ⟨writeAt boot16.1 16 [0], by rw [length_writeAt, boot16.2]⟩

def volNoFats : Volume :=
  configureWalRegion { bpb16 with numFATs := 0, dataStartLBA := 48, rootDirStartLBA := 16 }

def diskNoFats : Disk 512 := fun lba ↦ if lba = 0 then bootNoFats else filled 0

/-- **A volume without a table is mounted.** -/
theorem mount_without_fats : ∃ dev', mount .fat16 block16 (Dev.start diskNoFats) =
    some (some volNoFats, dev') ∧ ¬RegionsSound block16 volNoFats := by
  have hparse : parseBootSector .fat16 (diskNoFats 0).1 0 = some (some volNoFats.toFatBPB) := by decide +kernel
  have hvalid : validateVolume .fat16 block16 volNoFats = true := by decide
  have hm : Mountable .fat16 block16 volNoFats := ⟨⟨diskNoFats 0, volNoFats.toFatBPB, hparse, rfl⟩, hvalid⟩
  have hidle : ¬WalPrepared ((Dev.start diskNoFats).disk volNoFats.walStartLBA).1 := not_prepared_zero 512
  refine ⟨Dev.start diskNoFats, ?_, fun hsound ↦ absurd hsound.copies (by decide)⟩
  have hcap : 0 < block16.capacitySectors := by decide
  rw [mount_bare hcap hparse hvalid]
  show Option.map _ (walReplayIfNeeded .fat16 block16 volNoFats _) = _
  rw [walReplay_of_not_prepared hm hidle]
  rfl

/-! ### What mounting writes -/

/-- A sector of the table, the root directory or the clusters. -/
def Volume.InContents (vol : Volume) (lba : ℕ) : Prop :=
  ∃ r ∈ vol.contentRegions, r.1 ≤ lba ∧ lba < r.2

/-- Of the disk `d`, mounting has changed the log header and one sector of the contents at most; a
failed mount has changed nothing. -/
def MountConfined (vol? : Option Volume) (d d' : Disk ss) : Prop :=
  match vol? with
  | none => d' = d
  | some vol => ∃ target, ∀ lba, d' lba ≠ d lba →
      lba = vol.walStartLBA ∧ vol.walStartLBA ≠ 0 ∨ lba = target ∧ vol.InContents lba

/-- A replay of the log on `d` stays in the volume: its target is a sector of the contents, or the
log header, or off the device, or it already holds the payload. -/
def ReplayHarmless (ty : FatType) (block : BlockDevice ss) (vol : Volume) (d : Disk ss) : Prop :=
  ∀ target, replayTarget ty vol d = some target →
    vol.InContents target ∨ target = vol.walStartLBA ∨ block.capacitySectors ≤ target ∨
      d (vol.walStartLBA + 1) = d target

theorem walStartLBA_of_target (h : replayTarget ty vol d = some target) : vol.walStartLBA ≠ 0 := by
  intro hzero
  rw [replayTarget, if_pos hzero] at h
  cases h

theorem states_of_replay (hm : Mountable ty block vol) {dev' : Dev ss} (h : replayTarget ty vol d = some target)
    (hrun : walReplayIfNeeded ty block vol (Dev.start d) = some dev') :
    dev'.states = if target < block.capacitySectors then
        [walReplayed vol target d, update d target (d (vol.walStartLBA + 1)), d]
      else [update d vol.walStartLBA (zeroSector ss), d] := by
  have hwal := walStartLBA_of_target h
  rw [walReplay_eq hm, show replayTarget ty vol (Dev.start d).disk = _ from h, Option.elim_some] at hrun
  split
  · next hlt =>
    rw [walReplayWrites_eq hm hwal hlt] at hrun
    rw [← Option.some.inj hrun]
    rfl
  · next hge =>
    obtain ⟨-, hend, -, hcap⟩ := hm.wal hwal
    unfold walReplayWrites at hrun
    split at hrun
    · cases hrun
    · simp only [clear_eq hm] at hrun
      rw [BlockDevice.write_short (by omega : block.capacitySectors ≤ target),
        BlockDevice.write_sector (by omega : vol.walStartLBA < block.capacitySectors)] at hrun
      rw [← Option.some.inj hrun]
      rfl

theorem mountConfined_of_frame {d' : Disk ss} (target : ℕ) (hwal : vol.walStartLBA ≠ 0)
    (hother : ∀ lba, lba ≠ target → lba ≠ vol.walStartLBA → d' lba = d lba)
    (htarget : d' target ≠ d target → target = vol.walStartLBA ∨ vol.InContents target) :
    MountConfined (some vol) d d' := by
  refine ⟨target, fun lba hne ↦ ?_⟩
  by_cases hheader : lba = vol.walStartLBA
  · exact .inl ⟨hheader, hwal⟩
  · obtain rfl : lba = target := by
      by_contra hlba
      exact hne (hother lba hlba hheader)
    exact .inr ⟨rfl, (htarget hne).resolve_left hheader⟩

/-- A replay to a sector of the device is confined exactly when that sector may change, or does not
change. -/
theorem replay_confined_iff (hwal : vol.walStartLBA ≠ 0) :
    (∀ d' ∈ [walReplayed vol target d, update d target (d (vol.walStartLBA + 1)), d], MountConfined (some vol) d d') ↔
      vol.InContents target ∨ target = vol.walStartLBA ∨ d (vol.walStartLBA + 1) = d target := by
  constructor
  · intro hconfined
    obtain ⟨one, hone⟩ := hconfined (update d target (d (vol.walStartLBA + 1))) (mem_cons_of_mem _ mem_cons_self)
    by_cases hpayload : d (vol.walStartLBA + 1) = d target
    · exact .inr (.inr hpayload)
    · rcases hone target (by rwa [update_self]) with ⟨heq, -⟩ | ⟨-, hin⟩
      · exact .inr (.inl heq)
      · exact .inl hin
  · intro hok d' hd'
    have hchange : d (vol.walStartLBA + 1) ≠ d target →
        target = vol.walStartLBA ∨ vol.InContents target := fun hne ↦ by tauto
    simp only [mem_cons, not_mem_nil, or_false] at hd'
    rcases hd' with rfl | rfl | rfl
    · refine mountConfined_of_frame target hwal (fun lba hlba hheader ↦ ?_) fun hne ↦ ?_
      · rw [walReplayed, update_of_ne hheader, update_of_ne hlba]
      · by_cases hheader : target = vol.walStartLBA
        · exact .inl hheader
        · rw [walReplayed, update_of_ne hheader, update_self] at hne
          exact hchange hne
    · refine mountConfined_of_frame target hwal (fun lba hlba _ ↦ update_of_ne hlba ..) fun hne ↦ ?_
      rw [update_self] at hne
      exact hchange hne
    · exact mountConfined_of_frame target hwal (fun _ _ _ ↦ rfl) fun hne ↦ absurd rfl hne

/-- **What mounting writes, exactly.** Every disk a mount goes through differs from the one it
found in the log header and one sector of the contents at most, **if and only if** the log it found
is harmless. -/
theorem mount_writes_iff {ty : FatType} {block : BlockDevice ss} {d : Disk ss} {dev' : Dev ss}
    {vol? : Option Volume} (hmount : mount ty block (Dev.start d) = some (vol?, dev')) :
    (∀ d' ∈ dev'.states, MountConfined vol? d d') ↔ ∀ vol, vol? = some vol → ReplayHarmless ty block vol d := by
  obtain ⟨rfl, rfl⟩ | ⟨vol, rfl, hm, -, hreplay⟩ := mount_cases hmount
  · refine iff_of_true (fun d' hd' ↦ ?_) fun vol hvol ↦ nomatch hvol
    exact mem_singleton.1 hd'
  simp only [Option.some.injEq, forall_eq']
  rcases htarget : replayTarget ty vol d with - | target
  · -- nothing to replay
    rw [walReplay_eq hm, show replayTarget ty vol (Dev.start d).disk = _ from htarget] at hreplay
    obtain rfl := Option.some.inj hreplay
    refine iff_of_true (fun d' hd' ↦ ?_) fun target hsome ↦ ?_
    · obtain rfl := mem_singleton.1 hd'
      exact ⟨0, fun lba hne ↦ absurd rfl hne⟩
    · rw [htarget] at hsome
      cases hsome
  have hwal := walStartLBA_of_target htarget
  have hharmless : ReplayHarmless ty block vol d ↔
      vol.InContents target ∨ target = vol.walStartLBA ∨ block.capacitySectors ≤ target ∨
        d (vol.walStartLBA + 1) = d target := by
    simp [ReplayHarmless, htarget, forall_eq']
  rw [states_of_replay hm htarget hreplay, hharmless]
  split
  · next hlt =>
    rw [replay_confined_iff hwal, or_iff_right (Nat.not_le.2 hlt)]
  · next hge =>
    -- the write to the target fails, the header is cleared
    refine iff_of_true (fun d' hd' ↦ ?_) (.inr (.inr (.inl (Nat.le_of_not_lt hge))))
    refine mountConfined_of_frame vol.walStartLBA hwal (fun lba hlba _ ↦ ?_) fun _ ↦ .inl rfl
    simp only [mem_cons, not_mem_nil, or_false] at hd'
    rcases hd' with rfl | rfl
    · exact update_of_ne hlba ..
    · rfl

/-- A log that announces a write of `0xAA` bytes to a sector. -/
def pendingLog (target : ℕ) : Disk 512 := fun lba ↦
  if lba = 0 then boot16
  else if lba = 14 then walHeaderSector .fat16 512 target
  else if lba = 15 then filled 0xAA
  else filled 0

theorem mount_pendingLog (target : ℕ) (hlt : target < 5000) (hne : target ≠ vol16.walStartLBA) :
    ∃ dev', mount .fat16 block16 (Dev.start (pendingLog target)) = some (some vol16, dev') ∧
      dev'.disk target = filled 0xAA := by
  have hheader : (Dev.start (pendingLog target)).disk vol16.walStartLBA = walHeaderSector .fat16 512 target := rfl
  obtain ⟨dev', hreplay, hdisk⟩ := walReplay_of_header vol16_mountable (by decide) hlt hheader
  refine ⟨dev', ?_, ?_⟩
  · have hcap : 0 < block16.capacitySectors := by decide
    have hboot : parseBootSector .fat16 (pendingLog target 0).1 0 = some (some bpb16) := parse_boot16
    rw [mount_bare hcap hboot vol16_mountable.valid]
    show Option.map _ (walReplayIfNeeded .fat16 block16 vol16 _) = _
    rw [hreplay]
    rfl
  · rw [hdisk, if_neg (by simp), walReplayed, update_of_ne hne, update_self]
    rfl

theorem mount_writes_disk16 : ∃ dev', mount .fat16 block16 (Dev.start (pendingLog 100)) = some (some vol16, dev') ∧
    dev'.disk 100 = filled 0xAA ∧ ∀ d' ∈ dev'.states, MountConfined (some vol16) (pendingLog 100) d' := by
  obtain ⟨dev', hmount, hdisk⟩ := mount_pendingLog 100 (by decide) (by decide)
  refine ⟨dev', hmount, hdisk, (mount_writes_iff hmount).2 fun vol hvol target htarget ↦ .inl ?_⟩
  obtain rfl := Option.some.inj hvol
  have hpending : replayTarget .fat16 vol16 (pendingLog 100) = some 100 := by decide +kernel
  obtain rfl := Option.some.inj (hpending.symm.trans htarget)
  rw [Volume.InContents]
  decide

/-- **A log header can aim at the boot sector**: mounting `pendingLog 0` overwrites it. -/
theorem mount_overwrites_boot : ∃ dev', mount .fat16 block16 (Dev.start (pendingLog 0)) = some (some vol16, dev') ∧
      dev'.disk 0 = filled 0xAA ∧ ¬∀ d' ∈ dev'.states, MountConfined (some vol16) (pendingLog 0) d' := by
  obtain ⟨dev', hmount, hzero⟩ := mount_pendingLog 0 (by decide) (by decide)
  refine ⟨dev', hmount, hzero, fun hconfined ↦ ?_⟩
  obtain ⟨target, htarget⟩ := hconfined dev'.disk mem_cons_self
  have hne : dev'.disk 0 ≠ pendingLog 0 0 := by
    rw [hzero]
    exact fun heq ↦ absurd (congrArg (fun s : Sector 512 ↦ s.1.getD 0 0) heq) (by decide +kernel)
  rcases htarget 0 hne with ⟨heq, -⟩ | ⟨-, r, hr, hlow, -⟩
  · exact absurd heq (by decide)
  · have := (vol16_mountable.content_bounds hr).1
    exact absurd (this.trans hlow) (by decide)

end CapazOS
