import CapazOS.Fat.Lookup32
import CapazOS.Fat.Edit

/-!
# The sector updates of the FAT32 operations

Each writing function of `Core/Fat32.swift` succeeds on a sound volume, as long as its sector
updates do (`Puts`): always without the log, and with the log if the volume has one. A write is
performed in phases — tables, slot, data, slot —, and each phase changes one part of the view.
-/

namespace CapazOS

open List

variable {loc : SlotLoc} {s s₀ data : Bytes} {cs : List ℕ} {c off : ℕ}

variable {ss : ℕ} {block : BlockDevice ss} {vol : Volume} {safe : Bool}
variable {us : List (ℕ × Sector ss)} {dev : Dev ss}

/-! ### Single updates -/

theorem puts_fat32Put (hm : Mountable .fat32 block vol) (hlog : safe = true → vol.walStartLBA ≠ 0) :
    Puts block vol (fat32Put block vol safe) := by
  intro lba s dev hlba hnot
  cases safe with
  | false => exact puts_write block vol lba s dev hlba hnot
  | true => exact puts_wal hm (hlog rfl) lba s dev hlba hnot

theorem fat32Put_no_log (hlog : vol.walStartLBA = 0) (lba : ℕ) (data : Bytes) (dev : Dev ss) :
    fat32Put block vol true lba data dev = (false, dev.put dev.disk) := by
  simp only [fat32Put, if_true, Dev.unit, walWriteSector32, hlog, true_or]
  rfl

/-! ### What a phase does to the view -/

namespace Performed

variable {dev' : Dev ss}

theorem view_eq (hs : SoundVolume block vol) (h : Performed vol dev us dev') :
    view vol dev'.disk = view vol (applyUpdates (body vol dev.disk) us) := by
  rw [← h.body_eq, view_body hs]

theorem view_table (hs : SoundVolume block vol) {fat : Bytes}
    (hfat : fat.length = vol.sectorsPerFAT * ss) (h : Performed vol dev (tableUpdates ss vol fat) dev') :
    view vol dev'.disk = (view vol dev.disk).setLink (fatNextCluster vol.fatType fat) := by
  rw [h.view_eq hs, view_tableUpdates hs _ hfat, view_body hs]

theorem view_slot (hs : SoundVolume block vol) (hloc : ValidSlot vol (view vol dev.disk) loc)
    (hlen : s.length = 32) (h : Performed vol dev [slotUpdate vol dev.disk loc s] dev') :
    view vol dev'.disk = (view vol dev.disk).setSlot loc s := by
  rw [h.view_eq hs, ← slotUpdate_body hs hloc, view_slotUpdate hs (hloc.of_disk _) hlen, view_body hs]

end Performed

def InClusters (vol : Volume) (cs : List ℕ) (us : List (ℕ × Sector ss)) : Prop :=
  ∀ u ∈ us, ∃ c ∈ cs, clusterLBA vol c ≤ u.1 ∧ u.1 < clusterLBA vol c + vol.sectorsPerCluster

theorem inClusters_clusterUpdates (hc : c ∈ cs) (content : Bytes) :
    InClusters vol cs (clusterUpdates ss vol c content) := by
  intro u hu
  obtain ⟨i, hi, rfl⟩ := mem_runUpdates.1 hu
  exact ⟨c, hc, Nat.le_add_right _ _, Nat.add_lt_add_left hi _⟩

section

variable (hs : SoundVolume block vol) (hcs : ∀ c ∈ cs, 2 ≤ c ∧ c ≤ fatMaxCluster vol) (h : InClusters vol cs us)
include hs hcs h

theorem InClusters.inVolume : InVolume vol us := by
  intro u hu
  obtain ⟨c, hc, hge, hlt⟩ := h u hu
  have hle := hs.mountable.cluster_le (hcs c hc)
  have hdata := Mountable.dataStart_le_cluster vol c
  obtain ⟨hfat, hroot, -⟩ := hs.mountable.areas
  omega

theorem view_inClusters (d : Disk ss) : (view vol (applyUpdates d us)).link = (view vol d).link ∧
      ∀ b, (∀ c ∈ cs, b ≠ some c) → (view vol (applyUpdates d us)).block b = (view vol d).block b := by
  obtain ⟨hfat, hroot, -⟩ := hs.mountable.areas
  have htable := hs.table_le
  have hge : ∀ u ∈ us, vol.dataStartLBA ≤ u.1 := by
    intro u hu
    obtain ⟨c, -, hle, -⟩ := h u hu
    exact (Mountable.dataStart_le_cluster vol c).trans hle
  constructor
  · have hlink : table vol (applyUpdates d us) = table vol d := bytes_applyUpdates_of_disjoint fun u hu ↦ by
        have := hge u hu
        omega
    exact congrArg (fatNextCluster vol.fatType) hlink
  · intro b hb
    cases b with
    | none =>
      exact bytes_applyUpdates_of_disjoint fun u hu ↦ by
        have := hge u hu
        omega
    | some c' =>
      show (if c' < 2 then [] else _) = if c' < 2 then [] else _
      split
      · rfl
      · next hc' =>
        refine bytes_applyUpdates_of_disjoint fun u hu ↦ ?_
        obtain ⟨c, hc, hlo, hhi⟩ := h u hu
        have := clusterLBA_separate vol (Nat.not_lt.1 hc') (hcs c hc).1 fun heq ↦ hb c hc (congrArg some heq)
        omega

end

/-! ### Tables -/

theorem writeFatTables_performed (hs : SoundVolume block vol)
    (hput : Puts block vol (fat32Put block vol safe)) {fat : Bytes}
    (hfat : fat.length = vol.sectorsPerFAT * ss) (dev : Dev ss) :
    ∃ dev', writeFatTables block vol fat safe dev = (true, dev') ∧
      Performed vol dev (tableUpdates ss vol fat) dev' := by
  obtain ⟨hbps, -, hspf, -⟩ := hs.mountable.bounds
  have hge := hs.mountable.ss_ge
  have hpos : 0 < vol.sectorsPerFAT * ss := Nat.mul_pos hspf (by omega)
  obtain ⟨dev', hall, hperf⟩ := putAll_performed hput ((inVolume_tableUpdates hs fat).can_put hs) dev
  refine ⟨dev', ?_, hperf⟩
  simp only [writeFatTables, hbps]
  rw [if_neg (by omega), fatTableSectors_eq hbps hfat, hall]

/-! ### Slots -/

theorem writeAt_writeAt {out s' : Bytes} (h : off + s.length ≤ out.length) (hlen : s'.length = s.length) :
    writeAt (writeAt out off s) off s' = writeAt out off s' := by
  refine ext_getElem? fun i ↦ ?_
  rw [getElem?_writeAt _ off s' (by rw [length_writeAt, hlen]; exact h),
    getElem?_writeAt out off s h, getElem?_writeAt out off s' (by rw [hlen]; exact h), hlen]
  split_ifs <;> rfl

theorem writeLE_lift {out : Bytes} {n v o : ℕ} (hout : off + 32 ≤ out.length) (hs : s.length = 32)
    (ho : o + n ≤ 32) : writeLE n v (writeAt out off s) (off + o) = writeAt out off (writeLE n v s o) := by
  have hself : slice (writeAt out off s) off s.length = s := slice_writeAt_self (by rw [hs]; exact hout)
  rw [hs] at hself
  have hlift : writeAt (writeAt out off s) (off + o) (leBytes n v) = _ :=
    writeAt_lift (by rw [length_writeAt]; exact hout) (by rw [length_leBytes]; exact ho)
  rw [hself] at hlift
  rw [writeLE, hlift, writeLE, writeAt_writeAt (by rw [hs]; exact hout) (length_writeAt ..)]

theorem setSlotFields_lift {sector : Bytes} (h : off + 32 ≤ sector.length) (fc size : ℕ) :
    writeLE 4 size (writeLE 2 (fc % 2 ^ 16)
      (writeLE 2 (fc / 2 ^ 16 % 2 ^ 16) sector (off + 20)) (off + 26)) (off + 28) =
        writeAt sector off (setSlotFields (slice sector off 32) fc size) := by
  have hlen := length_slice h
  set s := slice sector off 32 with hs
  have hsector : sector = writeAt sector off s := (writeAt_slice h).symm
  conv_lhs => rw [hsector]
  rw [writeLE_lift h hlen (by omega), writeLE_lift h (by rw [length_writeLE, hlen]) (by omega),
    writeLE_lift h (by rw [length_writeLE, length_writeLE, hlen]) (by omega)]
  rfl

theorem markDeleted_lift {sector : Bytes} (h : off + 32 ≤ sector.length) :
    writeAt sector off [0xE5] = writeAt sector off (writeAt (slice sector off 32) 0 [0xE5]) := by
  have hlift : writeAt sector (off + 0) [0xE5] = _ := writeAt_lift h (by decide : 0 + [(0xE5 : UInt8)].length ≤ 32)
  rwa [Nat.add_zero] at hlift

section

variable (hs : SoundVolume block vol) (hput : Puts block vol (fat32Put block vol safe))
  (hloc : ValidSlot vol (view vol dev.disk) loc) (hc : loc.cluster = some c)
  (hslot : ((view vol dev.disk).slots loc.cluster)[loc.slot]? = some s₀)
include hs hput hloc hc hslot

theorem fat32WriteSlot_performed {need : ℕ} (hneed : need ≤ 32) {f : Bytes → ℕ → Bytes} {g : Bytes → Bytes}
    (hf : ∀ {sector off}, off + 32 ≤ sector.length → f sector off = writeAt sector off (g (slice sector off 32))) :
    ∃ dev', fat32WriteSlot block vol loc need f safe dev = (true, dev') ∧
      Performed vol dev [slotUpdate vol dev.disk loc (g s₀)] dev' := by
  have hbps := hs.mountable.bounds.1
  obtain ⟨-, -, hoff, -⟩ := hs.slot_place hloc
  have hin := (inVolume_slotUpdate hs hloc dev.disk (g s₀)).can_put hs _ mem_cons_self
  obtain ⟨dev', hone, hu⟩ := hput _ (slotUpdate vol dev.disk loc (g s₀)).2 dev hin.1 hin.2
  refine ⟨dev', ?_, .single hu⟩
  have hfit : ¬clusterSize vol < loc.slot * 32 + need := by
    have hlt := hloc.lt
    rw [View.slots, length_slotsOf, length_view_block hloc.block, hc] at hlt
    simp only [blockSectors] at hlt
    rw [hs.mountable.clusterSize_eq]
    omega
  have hlen := (dev.disk (slotLBA vol loc)).2
  have hread : block.read dev.disk (slotLBA vol loc) 1 = some (dev.disk (slotLBA vol loc)).1 := by
    rw [BlockDevice.read_eq _ hin.1, diskBytes_one]
  have hsector : f (dev.disk (slotLBA vol loc)).1 (slotOffset vol loc) = (slotUpdate vol dev.disk loc (g s₀)).2.1 := by
    rw [hf (by omega), sector_slot hs hloc hslot]
    rfl
  simp only [fat32WriteSlot, if_neg hfit, hread]
  rw [if_neg (by omega), hsector]
  exact hone

theorem updateDirEntryOnDisk_performed (fc size : ℕ) :
    ∃ dev', updateDirEntryOnDisk block vol loc fc size safe dev = (true, dev') ∧
      Performed vol dev [slotUpdate vol dev.disk loc (setSlotFields s₀ fc size)] dev' :=
  fat32WriteSlot_performed (g := fun s ↦ setSlotFields s fc size) hs hput hloc hc hslot
    (Nat.le_refl 32) fun h ↦ setSlotFields_lift h fc size

theorem markDirEntryDeleted_performed : ∃ dev', markDirEntryDeleted block vol loc safe dev = (true, dev') ∧
      Performed vol dev [slotUpdate vol dev.disk loc (writeAt s₀ 0 [0xE5])] dev' :=
  fat32WriteSlot_performed (g := fun s ↦ writeAt s 0 [0xE5]) hs hput hloc hc hslot (by omega) markDeleted_lift

end

/-! ### Data -/

theorem clusterSectors_eq (hbps : vol.bytesPerSector = ss) (hdata : data.length = vol.sectorsPerCluster * ss) :
    clusterSectors vol c data = (clusterUpdates ss vol c data).map fun u ↦ (u.1, u.2.1) := by
  rw [clusterSectors, clusterUpdates, runUpdates, map_map]
  refine map_congr_left fun i hi ↦ ?_
  have hle : (i + 1) * ss ≤ vol.sectorsPerCluster * ss := Nat.mul_le_mul_right ss (mem_range.1 hi)
  rw [Nat.succ_mul] at hle
  simp [hbps, chunk_coe (by omega : i * ss + ss ≤ data.length)]

theorem writeCluster_performed (hs : SoundVolume block vol) (hput : Puts block vol (fat32Put block vol safe))
    (hc : 2 ≤ c ∧ c ≤ fatMaxCluster vol) (hdata : data.length = clusterSize vol) (dev : Dev ss) :
    ∃ dev', writeCluster block vol c data safe dev = (true, dev') ∧
      Performed vol dev (clusterUpdates ss vol c data) dev' := by
  have hle := hs.mountable.cluster_le hc
  obtain ⟨hbps, -, -, hcap, -⟩ := hs.mountable.bounds
  obtain ⟨dev', hall, hperf⟩ := putAll_performed hput ((inVolume_clusterUpdates hs hc data).can_put hs) dev
  refine ⟨dev', ?_, hperf⟩
  have hlong : ¬data.length < vol.bytesPerSector * vol.sectorsPerCluster := Nat.not_lt.2 hdata.ge
  rw [writeCluster, if_neg (by omega), if_neg (by omega), if_neg hlong,
    clusterSectors_eq hbps (by rw [hdata, hs.mountable.clusterSize_eq]), hall]

theorem fat32ClusterBase_eq (hs : SoundVolume block vol) (d : Disk ss) (old : Bool)
    (hc : 2 ≤ c ∧ c ≤ fatMaxCluster vol) :
    ∃ base, fat32ClusterBase block vol d old c = some base ∧ base.length = clusterSize vol := by
  cases old with
  | false => exact ⟨_, rfl, length_replicate⟩
  | true =>
    have hlen := length_view_cluster hs.mountable d hc.1
    refine ⟨(view vol d).cluster c, ?_, hlen⟩
    simp [fat32ClusterBase, readCluster_eq hs.mountable hc, hlen]

/-- **The data loop** writes the clusters of the chain one by one, until the data ends. -/
theorem fat32WriteClusters_performed (hs : SoundVolume block vol)
    (hput : Puts block vol (fat32Put block vol safe)) (oldCount : ℕ)
    (hcs : ∀ c ∈ cs, 2 ≤ c ∧ c ≤ fatMaxCluster vol) (hnodup : cs.Nodup) {i : ℕ}
    (hlen : data.length ≤ cs.length * clusterSize vol) (hguard : i + cs.length ≤ chainGuard) (dev : Dev ss) :
    ∃ dev' us, fat32WriteClusters block vol safe oldCount cs i data dev = (.ok (), dev') ∧
      Performed vol dev us dev' ∧ InClusters vol cs us ∧
      Holds (clusterSize vol) (view vol dev'.disk) cs data := by
  induction cs generalizing i data dev with
  | nil =>
    obtain rfl : data = [] := length_eq_zero_iff.1 (by simpa using hlen)
    exact ⟨dev, [], rfl, .nil, fun u hu ↦ (nomatch hu), .done⟩
  | cons c cs ih =>
    obtain ⟨hc, hrest⟩ := forall_mem_cons.1 hcs
    obtain ⟨hnot, hnodup⟩ := nodup_cons.1 hnodup
    rw [length_cons] at hguard
    obtain ⟨base, hbase, hbaseLen⟩ := fat32ClusterBase_eq hs dev.disk (i < oldCount) hc
    set n := min data.length (clusterSize vol) with hn
    set content := data.take n ++ base.drop n with hcontent
    have hcontentLen : content.length = clusterSize vol := by
      rw [hcontent, length_append, length_take, length_drop]
      omega
    obtain ⟨dev₁, hcluster, hperf₁⟩ := writeCluster_performed hs hput hc hcontentLen dev
    have hview := hperf₁.view_eq hs
    rw [view_clusterUpdates hs _ hc, take_of_length_le hcontentLen.le, padZeros_of_length hcontentLen] at hview
    have htake : data.take n = data.take (clusterSize vol) := by rw [hn, Nat.min_comm, ← take_eq_take_min]
    have hdrop : data.drop n = data.drop (clusterSize vol) := by
      rcases Nat.le_total data.length (clusterSize vol) with hle | hge
      · rw [hn, Nat.min_eq_left hle, drop_length, drop_of_length_le hle]
      · rw [hn, Nat.min_eq_right hge]
    have hunfold : fat32WriteClusters block vol safe oldCount (c :: cs) i data dev =
        if data.drop n = [] then (.ok (), dev₁)
        else fat32WriteClusters block vol safe oldCount cs (i + 1) (data.drop n) dev₁ := by
      rw [fat32WriteClusters, if_neg (by omega), hbase]
      simp [← hn, ← hcontent, hcluster]
    have hself : ∀ {v : View}, v.cluster c = content → (v.cluster c).length = clusterSize vol ∧
        data.take (clusterSize vol) <+: v.cluster c := by
      rintro v hv
      rw [hv]
      exact ⟨hcontentLen, htake ▸ prefix_append _ _⟩
    have hblock₁ : (view vol dev₁.disk).cluster c = content := by
      rw [hview]
      exact View.setBlock_block_self _ (some c) _
    rw [hunfold]
    rcases Decidable.em (data.drop n = []) with hdone | hmore
    · refine ⟨dev₁, _, if_pos hdone, hperf₁, inClusters_clusterUpdates mem_cons_self _, ?_⟩
      refine .cons (hself hblock₁).1 (hself hblock₁).2 ?_
      rw [← hdrop, hdone]
      exact .done
    · have hlen' : (data.drop n).length ≤ cs.length * clusterSize vol := by
        rw [length_cons, Nat.succ_mul] at hlen
        rw [length_drop]
        omega
      obtain ⟨dev', us, hloop, hperf, hin, hholds⟩ := ih (i := i + 1) hrest hnodup hlen' (by omega) dev₁
      have hkeep := (view_inClusters hs hrest hin (body vol dev₁.disk)).2 (some c) fun x hx heq ↦
        hnot (Option.some.inj heq ▸ hx)
      rw [← hperf.view_eq hs, view_body hs] at hkeep
      refine ⟨dev', _, by rw [if_neg hmore, hloop], hperf₁.append hperf, ?_, ?_⟩
      · intro u hu
        rcases mem_append.1 hu with hu | hu
        · exact inClusters_clusterUpdates mem_cons_self _ u hu
        · obtain ⟨x, hx, hrange⟩ := hin u hu
          exact ⟨x, mem_cons_of_mem _ hx, hrange⟩
      · have hs' := hself (hkeep.trans hblock₁)
        exact .cons hs'.1 hs'.2 (hdrop ▸ hholds)

end CapazOS
