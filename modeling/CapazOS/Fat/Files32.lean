import CapazOS.Fat.Write32

/-!
# FAT32 writes and deletions as edits

`fat32WriteFileData` and `fat32DeleteFile` on the path of a file: each succeeds with an `Edit` of
the volume after which the path leads to exactly the data, or nowhere; or it fails and changes
nothing. The failures left on a device without errors are a lack of free clusters and, in safe mode,
a volume without a log.
-/

namespace CapazOS

open List

variable {loc : SlotLoc} {cs chain : List ℕ} {c size required : ℕ} {s data s₀ : Bytes} {v : View}
  {segs : List Bytes} {e : FatDirEntry}

variable {ss : ℕ} {block : BlockDevice ss} {vol : Volume} {safe : Bool}
variable {d : Disk ss} {us : List (ℕ × Sector ss)} {dev dev₁ dev' : Dev ss}

/-! ### The copies of the table -/

/-- All copies of the table are equal. -/
def Mirrored (vol : Volume) (d : Disk ss) : Prop :=
  ∀ k < vol.numFATs, d.bytes (vol.fatStartLBA + k * vol.sectorsPerFAT) vol.sectorsPerFAT = table vol d

section

variable (hs : SoundVolume block vol)
include hs

theorem Mirrored.of_agree {d' : Disk ss} (h : Mirrored vol d)
    (hagree : ∀ lba, vol.fatStartLBA ≤ lba → lba < vol.rootDirStartLBA → d' lba = d lba) :
    Mirrored vol d' := by
  obtain ⟨hfat, -, -⟩ := hs.mountable.areas
  have hcopy : ∀ k < vol.numFATs, d'.bytes (vol.fatStartLBA + k * vol.sectorsPerFAT) vol.sectorsPerFAT =
        d.bytes (vol.fatStartLBA + k * vol.sectorsPerFAT) vol.sectorsPerFAT := by
    intro k hk
    have hmul := Nat.mul_le_mul_right vol.sectorsPerFAT (Nat.succ_le_of_lt hk)
    rw [Nat.succ_mul] at hmul
    exact diskBytes_congr fun x hx hx' ↦ hagree x (by omega) (by omega)
  have hfirst := hcopy 0 hs.fats
  rw [Nat.zero_mul, Nat.add_zero] at hfirst
  intro k hk
  rw [hcopy k hk, h k hk]
  exact hfirst.symm

theorem Performed.mirrored_above (h : Performed vol dev us dev') (hus : ∀ u ∈ us, vol.rootDirStartLBA ≤ u.1)
    (hm : Mirrored vol dev.disk) : Mirrored vol dev'.disk := by
  refine hm.of_agree hs fun lba hlba hlt ↦ ?_
  have hlog := hs.mountable.not_onLog hlba
  rw [← body_of_not_onLog hlog dev'.disk, h.body_eq, applyUpdates_of_notMem fun u hu heq ↦ ?_, body_of_not_onLog hlog]
  have := hus u hu
  omega

theorem Performed.mirrored_table {fat : Bytes} (hfat : fat.length = vol.sectorsPerFAT * ss)
    (h : Performed vol dev (tableUpdates ss vol fat) dev') : Mirrored vol dev'.disk := by
  have hcopies : Mirrored vol (applyUpdates (body vol dev.disk) (tableUpdates ss vol fat)) := by
    have hcopy := fun k (hk : k < vol.numFATs) ↦ bytes_tableUpdates (body vol dev.disk) hfat hk
    have hfirst := hcopy 0 hs.fats
    rw [Nat.zero_mul, Nat.add_zero] at hfirst
    intro k hk
    rw [hcopy k hk]
    exact hfirst.symm
  rw [← h.body_eq] at hcopies
  exact hcopies.of_agree hs fun lba hlba _ ↦ (body_of_not_onLog (hs.mountable.not_onLog hlba) dev'.disk).symm

theorem above_slotUpdate (hloc : ValidSlot vol (view vol d) loc) (d' : Disk ss) (s : Bytes) :
    ∀ u ∈ [slotUpdate vol d' loc s], vol.rootDirStartLBA ≤ u.1 := by
  intro u hu
  obtain rfl := mem_singleton.1 hu
  obtain ⟨hlba, -⟩ := hs.slot_place hloc
  show vol.rootDirStartLBA ≤ slotLBA vol loc
  rw [hlba]
  exact (hs.mountable.block_le hloc.block).1.trans (Nat.le_add_right _ _)

theorem InClusters.above (h : InClusters vol cs us) : ∀ u ∈ us, vol.rootDirStartLBA ≤ u.1 := by
  intro u hu
  obtain ⟨c, -, hge, -⟩ := h u hu
  have hdata := Mountable.dataStart_le_cluster vol c
  obtain ⟨-, hroot, -⟩ := hs.mountable.areas
  omega

end

/-! ### A file and its slot -/

/-- The file at `segs`: its slot, the bytes there, and its chain. -/
structure Located (vol : Volume) (v : View) (segs : List Bytes) (loc : SlotLoc) (e : FatDirEntry)
    (s₀ : Bytes) (chain : List ℕ) : Prop where
  tree : WellFormed vol v
  plain : ∀ x ∈ segs, PlainName x
  resolves : Resolves vol v (rootDir vol) segs loc e
  file : e.isDir = false
  slot : (v.slots loc.cluster)[loc.slot]? = some s₀
  chain : EntryChain vol v e chain

namespace Located

variable {v' : View}

section

variable (h : Located vol v segs loc e s₀ chain)
include h

theorem live : Live vol v loc e := h.resolves.live h.tree.toChained h.plain

theorem spare (hc : c ∈ chain) : Spare vol v loc c := .inr ⟨e, chain, h.live, h.file, h.chain, hc⟩

theorem apart (hc : Spare vol v loc c) : loc.cluster ≠ some c := by
  intro heq
  obtain ⟨dir, bs, hr, hmem, -⟩ := h.live
  exact hc.not_dir h.tree.toConsistent hr (heq ▸ (mem_block_of_mem_dir hmem).1)

theorem validSlot : ValidSlot vol v loc := by
  obtain ⟨dir, bs, hr, hmem, -⟩ := h.live
  exact ⟨hr.isDir.validBlock (mem_block_of_mem_dir hmem).1, (List.getElem?_eq_some_iff.1 h.slot).1⟩

theorem block_eq (hty : vol.fatType = .fat32) : ∃ c, loc.cluster = some c := by
  obtain ⟨dir, bs, hr, hmem, -⟩ := h.live
  have hblock := (mem_block_of_mem_dir hmem).1
  have hisDir := hr.isDir
  cases hisDir with
  | area =>
    rcases hr.owner with hroot | ⟨_, _, _, _, _, hroot, _⟩
    · rw [rootDir, hty] at hroot
      cases hroot
    · cases hroot
  | chain _ =>
    obtain ⟨c, -, hc⟩ := mem_map.1 hblock
    exact ⟨c, hc.symm⟩

theorem edit {touched : List ℕ} (hchange : FileChange v v' loc s₀ s touched)
    (hspare : ∀ c ∈ touched, Spare vol v loc c) : Edit vol v v' segs loc e s₀ s touched :=
  ⟨h.tree, h.plain, h.resolves, h.file, hchange, hspare⟩

theorem length_slot : s₀.length = 32 := length_of_slot h.slot

end

theorem walk (hs : SoundVolume block vol) (hty : vol.fatType = .fat32)
    (h : Located vol (view vol d) segs loc e s₀ chain) :
    (if 2 ≤ e.firstCluster then fat32ClusterChain vol (table vol d) e.firstCluster else []) = chain := by
  rcases h.chain with ⟨hlt, rfl⟩ | hc
  · rw [if_neg (by omega)]
  · have hwalk := hc.walk hs
    rw [hty] at hwalk
    rw [if_pos hc.1.start_range.1, fat32ClusterChain, hwalk, Option.getD_some]

theorem range (h : Located vol v segs loc e s₀ chain) : ∀ c ∈ chain, 2 ≤ c ∧ c ≤ fatMaxCluster vol := by
  rcases h.chain with ⟨-, rfl⟩ | hc
  · exact fun c hc ↦ nomatch hc
  · exact hc.1.range

theorem nodup (h : Located vol v segs loc e s₀ chain) : chain.Nodup := by
  rcases h.chain with ⟨-, rfl⟩ | hc
  · exact nodup_nil
  · exact hc.1.linked.nodup

end Located

/-! ### Rewritten slots -/

theorem slotCluster_lt (s : Bytes) : slotCluster s < 2 ^ 32 := by
  have hhi := readLE_lt 2 s 20
  have hlo := readLE_lt 2 s 26
  rw [slotCluster]
  omega

theorem sameName_setSlotFields (hs : s.length = 32) {fc : ℕ} (hfc : fc < 2 ^ 32) (hsize : size < 2 ^ 32) :
    SameName s (setSlotFields s fc size) := by
  obtain ⟨-, hname, hattr, -⟩ := setSlotFields_fields hs hfc hsize
  exact ⟨hname, hattr⟩

theorem edited_setSlotFields (hs : s.length = 32) {fc : ℕ} (hfc : fc < 2 ^ 32) (hsize : size < 2 ^ 32)
    (e : FatDirEntry) :
    Edit.edited e (setSlotFields s fc size) = { e with firstCluster := fc, fileSize := size } := by
  obtain ⟨-, -, -, hcluster, hsize'⟩ := setSlotFields_fields hs hfc hsize
  rw [Edit.edited, hcluster, hsize']

section

section

variable (h : Located vol v segs loc e s₀ chain)
include h

theorem Located.edited_self : Edit.edited e s₀ = e := by
  obtain ⟨dir, bs, -, hmem, -⟩ := h.live
  obtain ⟨-, -, -, -, -, hrec⟩ := mem_dirRecords.1 hmem
  rw [recordAt, h.slot, Option.bind_some, slotRecord, kind_of_slotRecord hrec] at hrec
  obtain ⟨name, -, rfl⟩ := Option.map_eq_some_iff.1 hrec
  rfl

theorem Located.first_lt : e.firstCluster < 2 ^ 32 := by
  rw [← h.edited_self]
  exact slotCluster_lt s₀

theorem Located.head (hc : chain.head? = some c) : c = e.firstCluster := by
  rcases h.chain with ⟨-, rfl⟩ | hchain
  · cases hc
  · rw [hchain.1.linked.head?_eq] at hc
    exact (Option.some.inj hc).symm

end

end

/-! ### The data phase -/

/-- The device after the data was written to the clusters `cs` and then the slot. -/
structure StoresData (vol : Volume) (dev dev₁ dev' : Dev ss) (loc : SlotLoc) (s : Bytes)
    (cs : List ℕ) (data : Bytes) (us : List (ℕ × Sector ss)) : Prop where
  clusters : Performed vol dev us dev₁
  inside : InClusters vol cs us
  holds : Holds (clusterSize vol) (view vol dev₁.disk) cs data
  slot : Performed vol dev₁ [slotUpdate vol dev₁.disk loc s] dev'

theorem slots_inClusters (hs : SoundVolume block vol) (hcs : ∀ c ∈ cs, 2 ≤ c ∧ c ≤ fatMaxCluster vol)
    (hin : InClusters vol cs us) (h : Performed vol dev us dev₁) {b : Option ℕ} (hb : ∀ c ∈ cs, b ≠ some c) :
    (view vol dev₁.disk).slots b = (view vol dev.disk).slots b := by
  have hkeep := (view_inClusters hs hcs hin (body vol dev.disk)).2 b hb
  rw [← h.view_eq hs, view_body hs] at hkeep
  rw [View.slots, View.slots, hkeep]

theorem fat32Store_performed (hs : SoundVolume block vol) (hput : Puts block vol (fat32Put block vol safe))
    (hloc : ValidSlot vol (view vol dev.disk) loc) {c₀ : ℕ} (hc₀ : loc.cluster = some c₀)
    (hslot : ((view vol dev.disk).slots loc.cluster)[loc.slot]? = some s) {first : ℕ}
    (hfirst : chain.head? = some first) (oldCount : ℕ) (htake : chain.take required = cs)
    (hcs : ∀ c ∈ cs, 2 ≤ c ∧ c ≤ fatMaxCluster vol) (hnodup : cs.Nodup) (hapart : ∀ c ∈ cs, loc.cluster ≠ some c)
    (hlen : data.length ≤ cs.length * clusterSize vol) (hguard : cs.length ≤ chainGuard) (hsize : data.length < 2 ^ 32) :
    ∃ dev₁ dev' us, fat32Store block vol loc chain oldCount required data safe dev = some (.ok (), dev') ∧
      StoresData vol dev dev₁ dev' loc (setSlotFields s first data.length) cs data us := by
  obtain ⟨dev₁, us, hloop, hperf, hin, hholds⟩ := fat32WriteClusters_performed hs hput oldCount hcs
    hnodup hlen (by omega : 0 + cs.length ≤ chainGuard) dev
  have hslot₁ : ((view vol dev₁.disk).slots loc.cluster)[loc.slot]? = some s := by
    rw [slots_inClusters hs hcs hin hperf hapart, hslot]
  obtain ⟨dev', hupdate, hperf'⟩ := updateDirEntryOnDisk_performed hs hput (hloc.of_disk _) hc₀ hslot₁ first data.length
  refine ⟨dev₁, dev', us, ?_, hperf, hin, hholds, hperf'⟩
  simp only [fat32Store, hfirst, htake, hloop]
  rw [if_neg (by omega), hupdate]
  rfl

theorem StoresData.writtenTo (hs : SoundVolume block vol) (hloc : ValidSlot vol (view vol dev.disk) loc)
    (hslen : s.length = 32) (hcs : ∀ c ∈ cs, 2 ≤ c ∧ c ≤ fatMaxCluster vol)
    (hapart : ∀ c ∈ cs, loc.cluster ≠ some c) (h : StoresData vol dev dev₁ dev' loc s cs data us) :
    WrittenTo (clusterSize vol) (view vol dev.disk) (view vol dev'.disk) (view vol dev.disk).link cs
      data loc s := by
  have hview := h.slot.view_slot hs (hloc.of_disk _) hslen
  obtain ⟨hlink, hblock⟩ := view_inClusters hs hcs h.inside (body vol dev.disk)
  rw [← h.clusters.view_eq hs, view_body hs] at hlink hblock
  have hslots := slots_inClusters hs hcs h.inside h.clusters hapart
  refine ⟨?_, ?_, fun b hb hbcs ↦ ?_, ?_⟩
  · rw [hview, View.setSlot_link, hlink]
  · rw [hview, View.slots_setSlot_self hslen (hloc.of_disk _).lt, hslots]
  · rw [hview, View.block_setSlot_of_ne hb, hblock b hbcs]
  · refine h.holds.congr fun c hc ↦ ?_
    rw [hview, View.block_setSlot_of_ne (hapart c hc).symm]

/-! ### The growth phase -/

/-- The device after the tables and then the slot were written. -/
structure ExtendsChain (vol : Volume) (dev dev₁ dev' : Dev ss) (loc : SlotLoc) (s fat : Bytes) : Prop where
  tables : Performed vol dev (tableUpdates ss vol fat) dev₁
  slot : Performed vol dev₁ [slotUpdate vol dev₁.disk loc s] dev'

theorem fat32Extend_performed (hs : SoundVolume block vol) (hty : vol.fatType = .fat32)
    (hput : Puts block vol (fat32Put block vol safe)) (hloc : ValidSlot vol (view vol dev.disk) loc) {c₀ : ℕ}
    (hc₀ : loc.cluster = some c₀) (hslot : ((view vol dev.disk).slots loc.cluster)[loc.slot]? = some s)
    {extra : List ℕ} (henough : required - chain.length ≤ (freeClusters vol (view vol dev.disk).link).length)
    (hextra : extra = (freeClusters vol (view vol dev.disk).link).take (required - chain.length)) {first : ℕ}
    (hfirst : (chain ++ extra).head? = some first) (hsize : size < 2 ^ 32) :
    ∃ dev₁ dev', fat32Extend block vol (table vol dev.disk) loc chain required size safe dev =
        some (.ok (chain ++ extra), dev') ∧
      ExtendsChain vol dev dev₁ dev' loc (setSlotFields s first size)
        (growTable .fat32 (table vol dev.disk) chain extra) := by
  have hlink := view_link_of_type hty dev.disk
  have hfat : (growTable .fat32 (table vol dev.disk) chain extra).length =
      vol.sectorsPerFAT * ss := by rw [length_growTable, length_table]
  obtain ⟨dev₁, htables, hperf₁⟩ := writeFatTables_performed hs hput hfat dev
  have hslot₁ : ((view vol dev₁.disk).slots loc.cluster)[loc.slot]? = some s := by
    rw [hperf₁.view_table hs hfat, View.slots, View.setLink_block]
    exact hslot
  obtain ⟨dev', hupdate, hperf'⟩ := updateDirEntryOnDisk_performed hs hput (hloc.of_disk _) hc₀ hslot₁ first size
  refine ⟨dev₁, dev', ?_, hperf₁, hperf'⟩
  unfold fat32Extend
  rw [fatFindFreeClusters_eq, ← hlink, if_neg (Nat.not_lt.2 henough), ← hextra]
  simp only [htables, Bool.not_true, Bool.false_eq_true, if_false, hfirst, hupdate, if_neg (Nat.not_le.2 hsize)]

theorem fat32Extend_full (hty : vol.fatType = .fat32)
    (hfew : (freeClusters vol (view vol dev.disk).link).length < required - chain.length) (loc : SlotLoc)
    (size : ℕ) :
    fat32Extend block vol (table vol dev.disk) loc chain required size safe dev =
      some (.error .noFreeClusters, dev) := by
  have hlink := view_link_of_type hty dev.disk
  rw [fat32Extend, fatFindFreeClusters_eq, ← hlink, if_pos hfew]

section

variable {fat : Bytes} (hs : SoundVolume block vol) (hloc : ValidSlot vol (view vol dev.disk) loc)
  (hslen : s.length = 32) (hfat : fat.length = vol.sectorsPerFAT * ss) (h : ExtendsChain vol dev dev₁ dev' loc s fat)
include hs hloc hslen hfat h

theorem ExtendsChain.view_eq :
    view vol dev'.disk = ((view vol dev.disk).setLink (fatNextCluster vol.fatType fat)).setSlot loc s := by
  rw [h.slot.view_slot hs (hloc.of_disk _) hslen, h.tables.view_table hs hfat]

theorem ExtendsChain.slots_eq :
    (view vol dev'.disk).slots loc.cluster = ((view vol dev.disk).slots loc.cluster).set loc.slot s := by
  have hlt : loc.slot < (((view vol dev.disk).setLink (fatNextCluster vol.fatType fat)).slots loc.cluster).length := by
    rw [View.slots, View.setLink_block]
    exact hloc.lt
  rw [h.view_eq hs hloc hslen hfat, View.slots_setSlot_self hslen hlt, View.slots, View.setLink_block]
  rfl

end

theorem link_growTable (hs : SoundVolume block vol) (hty : vol.fatType = .fat32) {extra : List ℕ} {d : Disk ss}
    (hchain : ∀ c ∈ chain, 2 ≤ c ∧ c ≤ fatMaxCluster vol) (hextra : ∀ c ∈ extra, 2 ≤ c ∧ c ≤ fatMaxCluster vol) :
    fatNextCluster vol.fatType (growTable .fat32 (table vol d) chain extra) =
      grown .fat32 (view vol d).link chain extra := by
  have hmax : fatMaxCluster vol < 0x0FFFFFF7 := hs.clusters hty
  have hentries : ∀ {l : List ℕ}, (∀ c ∈ l, 2 ≤ c ∧ c ≤ fatMaxCluster vol) → Entries .fat32 (table vol d).length l := by
    intro l hl c hc
    have hle := (hl c hc).2
    have hentry := hs.entry_le hle
    rw [hty] at hentry
    refine ⟨by rwa [length_table], ?_⟩
    show c < 0x0FFFFFF8
    omega
  rw [hty, fatNextCluster_growTable (hentries hchain) (hentries hextra), view_link_of_type hty d]

/-! ### Writing -/

/-- The file at `segs` is rewritten with `data`, and nothing else changes. -/
structure Rewritten (vol : Volume) (dev dev' : Dev ss) (segs : List Bytes) (data : Bytes) : Prop where
  edit : ∃ loc e s₀ s touched cs,
    Edit vol (view vol dev.disk) (view vol dev'.disk) segs loc e s₀ s touched ∧ SameName s₀ s ∧
      Edit.Fits vol (view vol dev'.disk) e s cs ∧ (∀ c ∈ cs, Spare vol (view vol dev.disk) loc c) ∧
      contents (view vol dev'.disk) cs (readLE 4 s 28) = data
  performed : ∃ us, Performed vol dev us dev' ∧ InVolume vol us
  mirrored : Mirrored vol dev.disk → Mirrored vol dev'.disk

theorem length_le_required (hpos : 0 < clusterSize vol) (data : Bytes) :
    data.length ≤ requiredClusters vol data * clusterSize vol := by
  rw [requiredClusters]
  have hdiv := Nat.div_add_mod (data.length + clusterSize vol - 1) (clusterSize vol)
  have hmod := Nat.mod_lt (data.length + clusterSize vol - 1) hpos
  rw [Nat.mul_comm] at hdiv
  omega

theorem required_pos (hpos : 0 < clusterSize vol) (hne : data ≠ []) : 0 < requiredClusters vol data := by
  have hlen := length_pos_iff.2 hne
  exact Nat.div_pos (by omega) hpos

def newClusters (vol : Volume) (v : View) (chain : List ℕ) (data : Bytes) : List ℕ :=
  (freeClusters vol v.link).take (requiredClusters vol data - chain.length)

theorem mem_newClusters (hc : c ∈ newClusters vol v chain data) : (2 ≤ c ∧ c ≤ fatMaxCluster vol) ∧ v.link c = 0 :=
  mem_freeClusters.1 (mem_of_mem_take hc)

theorem Located.chainFrom_grown (h : Located vol v segs loc e s₀ chain) (hs : SoundVolume block vol)
    (hty : vol.fatType = .fat32) {extra : List ℕ} (hne : extra ≠ []) (hnodup : extra.Nodup)
    (hfree : ∀ c ∈ extra, (2 ≤ c ∧ c ≤ fatMaxCluster vol) ∧ v.link c = 0) {first : ℕ}
    (hfirst : (chain ++ extra).head? = some first) (hlen : (chain ++ extra).length ≤ chainGuard) {v' : View}
    (hlink : v'.link = grown .fat32 v.link chain extra) : ChainFrom vol v' first (chain ++ extra) := by
  refine ⟨?_, hlen⟩
  rw [hlink, hty]
  have hold : chain = [] ∨ ClusterChain .fat32 (fatMaxCluster vol) v.link e.firstCluster chain := by
    rcases h.chain with ⟨-, hnil⟩ | hc
    · exact .inl hnil
    · exact .inr (hty ▸ hc.1)
  refine clusterChain_grown ?_ hold hne hnodup (fun c hc ↦ (hfree c hc).1) (fun c hc ↦ (hfree c hc).2) hfirst
  have hmax : fatMaxCluster vol < 0x0FFFFFF7 := hs.clusters hty
  show fatMaxCluster vol < 0x0FFFFFF8
  omega

section

variable (hs : SoundVolume block vol) (hty : vol.fatType = .fat32) (hput : Puts block vol (fat32Put block vol safe))
  (h : Located vol (view vol dev.disk) segs loc e s₀ chain)
include hs hty h

theorem fat32WriteAt_eq (hne : data ≠ []) : fat32WriteAt block vol (table vol dev.disk) e loc data safe dev =
      if chain.length < requiredClusters vol data then
        (fat32Extend block vol (table vol dev.disk) loc chain (requiredClusters vol data) data.length
          safe dev).bind fun (chain?, dev) ↦
            match chain? with
            | .error err => some (.error err, dev)
            | .ok chain' =>
              fat32Store block vol loc chain' chain.length (requiredClusters vol data) data safe dev
      else fat32Store block vol loc chain chain.length (requiredClusters vol data) data safe dev := by
  have hpos := hs.mountable.clusterSize_pos
  unfold fat32WriteAt
  rw [if_neg (by rw [h.file]; exact Bool.false_ne_true), if_neg (by omega), if_neg hne]
  rewrite [h.walk hs hty]
  rfl

theorem fat32WriteAt_full (hne : data ≠ [])
    (hfew : (freeClusters vol (view vol dev.disk).link).length < requiredClusters vol data - chain.length) :
    fat32WriteAt block vol (table vol dev.disk) e loc data safe dev = some (.error .noFreeClusters, dev) := by
  rw [fat32WriteAt_eq hs hty h hne, if_pos (by omega), fat32Extend_full hty hfew, Option.bind_some]

include hput

/-- **Writing nothing** sets the size to zero and keeps the chain. -/
theorem fat32WriteAt_empty :
    ∃ dev', fat32WriteAt block vol (table vol dev.disk) e loc [] safe dev = some (.ok (), dev') ∧
      Rewritten vol dev dev' segs [] := by
  have hpos := hs.mountable.clusterSize_pos
  obtain ⟨c₀, hc₀⟩ := h.block_eq hty
  obtain ⟨dev', hupdate, hperf⟩ := updateDirEntryOnDisk_performed hs hput h.validSlot hc₀ h.slot e.firstCluster 0
  have hzero : 0 < 2 ^ 32 := Nat.two_pow_pos 32
  obtain ⟨hslen, -, -, hcluster, hsize⟩ := setSlotFields_fields h.length_slot h.first_lt hzero
  have hview := hperf.view_slot hs h.validSlot hslen
  refine ⟨dev', ?_, ⟨loc, e, s₀, _, [], chain, h.edit ⟨h.slot, ?_, fun c _ ↦ ?_, fun b hb _ ↦ ?_⟩
    fun c hc ↦ (nomatch hc), sameName_setSlotFields h.length_slot h.first_lt hzero, ⟨?_, ?_⟩,
    fun c hc ↦ h.spare hc, ?_⟩, ⟨_, hperf, inVolume_slotUpdate hs h.validSlot _ _⟩,
    hperf.mirrored_above hs (above_slotUpdate hs h.validSlot _ _)⟩
  · simp only [fat32WriteAt, h.file, Bool.false_eq_true, if_false, hupdate, Bool.not_true, if_true]
    rw [if_neg (by omega)]
  · rw [hview, View.slots_setSlot_self hslen h.validSlot.lt]
  · rw [hview, View.setSlot_link]
  · rw [hview, View.block_setSlot_of_ne hb]
  · rw [edited_setSlotFields h.length_slot h.first_lt hzero]
    refine EntryChain.congr (v := view vol dev.disk) h.chain fun c _ ↦ ?_
    rw [hview, View.setSlot_link]
  · rw [hsize]
    exact Nat.zero_le _
  · rw [hsize, contents, take_zero]

theorem fat32WriteAt_keep (hne : data ≠ []) (hsize : data.length < 2 ^ 32)
    (hroom : requiredClusters vol data ≤ chain.length) (hguard : requiredClusters vol data ≤ chainGuard) :
    ∃ dev', fat32WriteAt block vol (table vol dev.disk) e loc data safe dev = some (.ok (), dev') ∧
      Rewritten vol dev dev' segs data := by
  have hpos := hs.mountable.clusterSize_pos
  have hreq := required_pos hpos hne
  obtain ⟨c₀, hc₀⟩ := h.block_eq hty
  set cs := chain.take (requiredClusters vol data) with hcs
  have hmem : ∀ c ∈ cs, c ∈ chain := fun c hc ↦ mem_of_mem_take hc
  have hlen : cs.length = requiredClusters vol data := length_take_of_le hroom
  obtain ⟨first, hfirst⟩ : ∃ first, chain.head? = some first :=
    ⟨_, head?_eq_some_head (ne_nil_of_length_pos (by omega))⟩
  obtain rfl := h.head hfirst
  have hapart : ∀ c ∈ cs, loc.cluster ≠ some c := fun c hc ↦ h.apart (h.spare (hmem c hc))
  have hrange : ∀ c ∈ cs, 2 ≤ c ∧ c ≤ fatMaxCluster vol := fun c hc ↦ h.range c (hmem c hc)
  have hdata : data.length ≤ cs.length * clusterSize vol := hlen ▸ length_le_required hpos data
  obtain ⟨dev₁, dev', us, hstore, hphases⟩ := fat32Store_performed hs hput h.validSlot hc₀ h.slot
    hfirst chain.length rfl hrange (h.nodup.sublist (take_sublist _ _)) hapart hdata
    (hlen.le.trans hguard) hsize
  obtain ⟨hslen, -, -, -, hsize'⟩ := setSlotFields_fields h.length_slot h.first_lt hsize
  have hwritten := hphases.writtenTo hs h.validSlot hslen hrange hapart
  have hholds : Holds (clusterSize vol) (view vol dev'.disk) chain data := by
    have happend := hwritten.holds.append (chain.drop (requiredClusters vol data))
    rwa [hcs, take_append_drop] at happend
  refine ⟨dev', ?_, ⟨loc, e, s₀, _, chain, chain,
    h.edit (hwritten.fileChange hmem h.slot fun c _ ↦ rfl) fun c hc ↦ h.spare hc,
    sameName_setSlotFields h.length_slot h.first_lt hsize, ⟨?_, ?_⟩, fun c hc ↦ h.spare hc, ?_⟩,
    ⟨_, hphases.clusters.append hphases.slot, (hphases.inside.inVolume hs hrange).append
      (inVolume_slotUpdate hs h.validSlot _ _)⟩, fun hm ↦ ?_⟩
  · rw [fat32WriteAt_eq hs hty h hne, if_neg (Nat.not_lt.2 hroom), hstore]
  · rw [edited_setSlotFields h.length_slot h.first_lt hsize]
    refine EntryChain.congr (v := view vol dev.disk) h.chain fun c _ ↦ ?_
    rw [hwritten.link_eq]
  · rw [hsize']
    exact (length_le_required hpos data).trans (Nat.mul_le_mul_right _ hroom)
  · rw [hsize', hholds.contents_eq]
  · exact hphases.slot.mirrored_above hs (above_slotUpdate hs h.validSlot _ _)
      (hphases.clusters.mirrored_above hs (hphases.inside.above hs) hm)

theorem fat32WriteAt_grow (hne : data ≠ []) (hsize : data.length < 2 ^ 32)
    (hroom : chain.length < requiredClusters vol data) (hguard : requiredClusters vol data ≤ chainGuard)
    (henough : requiredClusters vol data - chain.length ≤ (freeClusters vol (view vol dev.disk).link).length) :
    ∃ dev', fat32WriteAt block vol (table vol dev.disk) e loc data safe dev = some (.ok (), dev') ∧
      Rewritten vol dev dev' segs data := by
  have hpos := hs.mountable.clusterSize_pos
  obtain ⟨c₀, hc₀⟩ := h.block_eq hty
  set extra := newClusters vol (view vol dev.disk) chain data with hextra
  have hmem : ∀ c ∈ extra, (2 ≤ c ∧ c ≤ fatMaxCluster vol) ∧ (view vol dev.disk).link c = 0 :=
    fun c hc ↦ mem_newClusters hc
  have hlenExtra : extra.length = requiredClusters vol data - chain.length := length_take_of_le henough
  have hextraNe : extra ≠ [] := ne_nil_of_length_pos (by omega)
  have hnodupExtra : extra.Nodup := (nodup_freeClusters vol _).sublist (take_sublist _ _)
  set cs := chain ++ extra with hcs
  have hlen : cs.length = requiredClusters vol data := by
    rw [hcs, length_append, hlenExtra]
    omega
  have htake : cs.take (requiredClusters vol data) = cs := take_of_length_le hlen.le
  have hspare : ∀ c ∈ cs, Spare vol (view vol dev.disk) loc c := fun c hc ↦
    (mem_append.1 hc).elim h.spare fun hc ↦ .inl (hmem c hc).2
  have hrange : ∀ c ∈ cs, 2 ≤ c ∧ c ≤ fatMaxCluster vol := fun c hc ↦
    (mem_append.1 hc).elim (h.range c) fun hc ↦ (hmem c hc).1
  have hapart : ∀ c ∈ cs, loc.cluster ≠ some c := fun c hc ↦ h.apart (hspare c hc)
  obtain ⟨first, hfirst⟩ : ∃ first, cs.head? = some first :=
    ⟨_, head?_eq_some_head (append_ne_nil_of_right_ne_nil _ hextraNe)⟩
  have hfirstLt : first < 2 ^ 32 := by
    have := (hrange first (mem_of_mem_head? hfirst)).2
    have hmax : fatMaxCluster vol < 0x0FFFFFF7 := hs.clusters hty
    omega
  -- the tables and the entry
  obtain ⟨dev₁, dev₂, hextend, hgrowth⟩ := fat32Extend_performed hs hty hput h.validSlot hc₀ h.slot
    henough rfl hfirst hsize
  set s₁ := setSlotFields s₀ first data.length with hs₁
  have hs₁len : s₁.length = 32 := (setSlotFields_fields h.length_slot hfirstLt hsize).1
  have hfat : (growTable .fat32 (table vol dev.disk) chain extra).length =
      vol.sectorsPerFAT * ss := by rw [length_growTable, length_table]
  have hview₂ := hgrowth.view_eq hs h.validSlot hs₁len hfat
  have hslots₂ := hgrowth.slots_eq hs h.validSlot hs₁len hfat
  have hslot₂ : ((view vol dev₂.disk).slots loc.cluster)[loc.slot]? = some s₁ := by
    rw [hslots₂, getElem?_set_self h.validSlot.lt]
  -- the data and the entry again
  have hdata : data.length ≤ cs.length * clusterSize vol := hlen ▸ length_le_required hpos data
  have hnodup : cs.Nodup := h.nodup.append hnodupExtra fun c hc hc' ↦ h.chain.link_ne_zero hc (hmem c hc').2
  obtain ⟨dev₃, dev', us, hstore, hphases⟩ := fat32Store_performed hs hput (h.validSlot.of_disk _) hc₀
    hslot₂ hfirst chain.length htake hrange hnodup hapart hdata (hlen.le.trans hguard) hsize
  obtain ⟨hs₂len, hs₂name, hs₂attr, hs₂cluster, hs₂size⟩ := setSlotFields_fields hs₁len hfirstLt hsize
  have hname : SameName s₀ (setSlotFields s₁ first data.length) := by
    have hname₁ := sameName_setSlotFields h.length_slot hfirstLt hsize
    exact ⟨hs₂name.trans hname₁.name, hs₂attr.trans hname₁.attr⟩
  have hwritten := hphases.writtenTo hs (h.validSlot.of_disk _) hs₂len hrange hapart
  have hlink : (view vol dev'.disk).link = grown .fat32 (view vol dev.disk).link chain extra := by
    rw [hwritten.link_eq, hview₂, View.setSlot_link, View.setLink_link,
      link_growTable hs hty h.range fun c hc ↦ (hmem c hc).1]
  have hchange : FileChange (view vol dev.disk) (view vol dev'.disk) loc s₀
      (setSlotFields s₁ first data.length) cs := by
    refine ⟨h.slot, ?_, fun c hc ↦ ?_, fun b hb hbcs ↦ ?_⟩
    · rw [hwritten.slots_eq, hslots₂, set_set]
    · rw [hlink, grown_of_notMem (fun hc' ↦ hc (mem_append_left _ hc')) fun hc' ↦ hc (mem_append_right _ hc')]
    · rw [hwritten.block_eq b hb hbcs, hview₂, View.block_setSlot_of_ne hb, View.setLink_block]
  have hchain : ChainFrom vol (view vol dev'.disk) first cs :=
    h.chainFrom_grown hs hty hextraNe hnodupExtra hmem hfirst (hlen.le.trans hguard) hlink
  refine ⟨dev', ?_, ⟨loc, e, s₀, _, cs, cs, h.edit hchange hspare, hname, ⟨?_, ?_⟩, hspare, ?_⟩, ⟨_,
      (hgrowth.tables.append hgrowth.slot).append (hphases.clusters.append hphases.slot),
      ((inVolume_tableUpdates hs _).append (inVolume_slotUpdate hs h.validSlot _ _)).append
        ((hphases.inside.inVolume hs hrange).append (inVolume_slotUpdate hs h.validSlot _ _))⟩,
    fun _ ↦ ?_⟩
  · rw [fat32WriteAt_eq hs hty h hne, if_pos hroom, hextend, Option.bind_some]
    exact hstore
  · exact .inr (by rw [edited_setSlotFields hs₁len hfirstLt hsize]; exact hchain)
  · rw [hs₂size, hlen]
    exact length_le_required hpos data
  · rw [hs₂size, hwritten.holds.contents_eq]
  · refine hphases.slot.mirrored_above hs (above_slotUpdate hs h.validSlot _ _)
      (hphases.clusters.mirrored_above hs (hphases.inside.above hs) ?_)
    exact hgrowth.slot.mirrored_above hs (above_slotUpdate hs h.validSlot _ _) (hgrowth.tables.mirrored_table hs hfat)

theorem fat32WriteAt_big (hsize : 2 ^ 32 ≤ data.length) (hguard : requiredClusters vol data ≤ chainGuard) :
    fat32WriteAt block vol (table vol dev.disk) e loc data safe dev = none ∨
      fat32WriteAt block vol (table vol dev.disk) e loc data safe dev = some (.error .noFreeClusters, dev) := by
  have hpos := hs.mountable.clusterSize_pos
  have hne : data ≠ [] := by
    rintro rfl
    exact absurd hsize (by decide)
  have hreq := required_pos hpos hne
  rcases Nat.lt_or_ge chain.length (requiredClusters vol data) with hroom | hroom
  · rcases Nat.lt_or_ge (freeClusters vol (view vol dev.disk).link).length
      (requiredClusters vol data - chain.length) with hfew | henough
    · exact .inr (fat32WriteAt_full hs hty h hne hfew)
    · refine .inl ?_
      have hlink := view_link_of_type hty dev.disk
      set extra := newClusters vol (view vol dev.disk) chain data with hextra
      obtain ⟨dev₁, htables, -⟩ := writeFatTables_performed hs hput
        (by rw [length_growTable, length_table] : (growTable .fat32 (table vol dev.disk) chain
          extra).length = vol.sectorsPerFAT * ss) dev
      have hextend : fat32Extend block vol (table vol dev.disk) loc chain (requiredClusters vol data)
          data.length safe dev = none := by
        rw [newClusters] at hextra
        unfold fat32Extend
        rw [fatFindFreeClusters_eq, ← hlink, if_neg (Nat.not_lt.2 henough), ← hextra]
        simp only [htables, Bool.not_true, Bool.false_eq_true, if_false, if_pos hsize]
        have hlen : extra.length = _ := hextra ▸ length_take_of_le henough
        rw [head?_eq_some_head (append_ne_nil_of_right_ne_nil _ (ne_nil_of_length_pos (by omega)))]
      rw [fat32WriteAt_eq hs hty h hne, if_pos hroom, hextend, Option.bind_none]
  · refine .inl ?_
    have hlen : (chain.take (requiredClusters vol data)).length = requiredClusters vol data := length_take_of_le hroom
    have hcons : chain ≠ [] := ne_nil_of_length_pos (by omega)
    obtain ⟨dev₁, us, hloop, -⟩ := fat32WriteClusters_performed hs hput chain.length
      (fun c hc ↦ h.range c (mem_of_mem_take hc)) (h.nodup.sublist (take_sublist _ _))
      (hlen.symm ▸ length_le_required hpos data :
        data.length ≤ (chain.take (requiredClusters vol data)).length * clusterSize vol)
      (by omega : 0 + (chain.take (requiredClusters vol data)).length ≤ chainGuard) dev
    rw [fat32WriteAt_eq hs hty h hne, if_neg (Nat.not_lt.2 hroom)]
    simp only [fat32Store, head?_eq_some_head hcons, hloop, if_pos hsize]

/-- **`fat32WriteFileData` on a file**: it is rewritten, or there is not enough room. -/
theorem fat32WriteAt_cases (hsize : data.length < 2 ^ 32) (hguard : requiredClusters vol data ≤ chainGuard) :
    fat32WriteAt block vol (table vol dev.disk) e loc data safe dev = some (.error .noFreeClusters, dev) ∨
      ∃ dev', fat32WriteAt block vol (table vol dev.disk) e loc data safe dev = some (.ok (), dev') ∧
        Rewritten vol dev dev' segs data := by
  rcases eq_or_ne data [] with rfl | hne
  · exact .inr (fat32WriteAt_empty hs hty hput h)
  · rcases Nat.lt_or_ge chain.length (requiredClusters vol data) with hroom | hroom
    · rcases Nat.lt_or_ge (freeClusters vol (view vol dev.disk).link).length
        (requiredClusters vol data - chain.length) with hfew | henough
      · exact .inl (fat32WriteAt_full hs hty h hne hfew)
      · exact .inr (fat32WriteAt_grow hs hty hput h hne hsize hroom hguard henough)
    · exact .inr (fat32WriteAt_keep hs hty hput h hne hsize hroom hguard)

end

/-! ### Deleting -/

/-- The file at `segs` is deleted, and nothing else changes. -/
structure Removed (vol : Volume) (dev dev' : Dev ss) (segs : List Bytes) : Prop where
  edit : ∃ loc e s₀ s touched,
    Edit vol (view vol dev.disk) (view vol dev'.disk) segs loc e s₀ s touched ∧ slotKind s = .deleted
  performed : ∃ us, Performed vol dev us dev' ∧ InVolume vol us
  mirrored : Mirrored vol dev.disk → Mirrored vol dev'.disk

theorem slotKind_marked (hs : s.length = 32) : slotKind (writeAt s 0 [0xE5]) = .deleted := by
  cases s with
  | nil => cases hs
  | cons b rest => rfl

section

/-- The updates of the tables that a deletion makes: none for a file without clusters. -/
def freeUpdates (vol : Volume) (fat : Bytes) (e : FatDirEntry) (chain : List ℕ) : List (ℕ × Sector ss) :=
  if 2 ≤ e.firstCluster then tableUpdates ss vol (releaseClusters .fat32 fat chain) else []

variable (hs : SoundVolume block vol) (hty : vol.fatType = .fat32) (hput : Puts block vol (fat32Put block vol safe))
  (h : Located vol (view vol dev.disk) segs loc e s₀ chain)
include hs hty h

theorem view_freeUpdates (hperf : Performed vol dev (freeUpdates vol (table vol dev.disk) e chain) dev₁) :
    view vol dev₁.disk = (view vol dev.disk).setLink (released (view vol dev.disk).link chain) := by
  have hlink := view_link_of_type hty dev.disk
  unfold freeUpdates at hperf
  split at hperf
  · rw [hperf.view_table hs (by rw [length_releaseClusters, length_table]), hlink, hty,
      fatNextCluster_releaseClusters fun c hc ↦ ?_]
    have hentry := hs.entry_le (h.range c hc).2
    rw [hty] at hentry
    rwa [length_table]
  · next hlt =>
    obtain rfl : chain = [] := by
      rcases h.chain with ⟨-, hnil⟩ | hc
      · exact hnil
      · exact absurd hc.1.start_range.1 hlt
    cases hperf
    rfl

include hput in
/-- **`fat32DeleteFile` on a file** frees its chain and then marks its slot. -/
theorem fat32DeleteAt_performed : ∃ dev', fat32DeleteAt block vol (table vol dev.disk) e loc safe dev = (true, dev') ∧
      Removed vol dev dev' segs := by
  obtain ⟨c₀, hc₀⟩ := h.block_eq hty
  obtain ⟨dev₁, htables, hperf₁⟩ : ∃ dev₁, (if 2 ≤ e.firstCluster then writeFatTables block vol
      (releaseClusters .fat32 (table vol dev.disk) (fat32ClusterChain vol (table vol dev.disk) e.firstCluster)) safe dev
      else (true, dev)) = (true, dev₁) ∧
      Performed vol dev (freeUpdates vol (table vol dev.disk) e chain) dev₁ := by
    have hwalk := h.walk hs hty
    unfold freeUpdates
    split at hwalk
    · next hge =>
      rw [if_pos hge, if_pos hge, hwalk]
      exact writeFatTables_performed hs hput (by rw [length_releaseClusters, length_table]) dev
    · next hlt =>
      rw [if_neg hlt, if_neg hlt]
      exact ⟨dev, rfl, .nil⟩
  have hview₁ := view_freeUpdates hs hty h hperf₁
  have hslot₁ : ((view vol dev₁.disk).slots loc.cluster)[loc.slot]? = some s₀ := by
    rw [hview₁, View.slots, View.setLink_block]
    exact h.slot
  obtain ⟨dev', hmark, hperf₂⟩ := markDirEntryDeleted_performed hs hput (h.validSlot.of_disk _) hc₀ hslot₁
  have hslen : (writeAt s₀ 0 [0xE5]).length = 32 := by rw [length_writeAt, h.length_slot]
  have hview := hperf₂.view_slot hs (h.validSlot.of_disk _) hslen
  have hin : InVolume vol (freeUpdates vol (table vol dev.disk) e chain : List (ℕ × Sector ss)) := by
    unfold freeUpdates
    split
    · exact inVolume_tableUpdates hs _
    · exact fun u hu ↦ by cases hu
  refine ⟨dev', ?_, ⟨loc, e, s₀, _, chain, h.edit ⟨h.slot, ?_, fun c hc ↦ ?_, fun b hb _ ↦ ?_⟩ fun c hc ↦ h.spare hc,
    slotKind_marked h.length_slot⟩, ⟨_, hperf₁.append hperf₂,
    hin.append (inVolume_slotUpdate hs h.validSlot _ _)⟩, fun hm ↦ ?_⟩
  · simp only [fat32DeleteAt, h.file, Bool.false_eq_true, if_false, htables, if_true]
    exact hmark
  · rw [hview, View.slots_setSlot_self hslen (h.validSlot.of_disk _).lt, hview₁, View.slots, View.setLink_block]
    rfl
  · rw [hview, View.setSlot_link, hview₁, View.setLink_link, released_of_notMem hc]
  · rw [hview, View.block_setSlot_of_ne hb, hview₁, View.setLink_block]
  · refine hperf₂.mirrored_above hs (above_slotUpdate hs h.validSlot _ _) ?_
    unfold freeUpdates at hperf₁
    split at hperf₁
    · exact hperf₁.mirrored_table hs (by rw [length_releaseClusters, length_table])
    · cases hperf₁
      exact hm

end

/-! ### Safe mode without a log -/

section

variable (hlog : vol.walStartLBA = 0)
include hlog

theorem putAll_no_log {us : List (ℕ × Bytes)} (hne : us ≠ []) (dev : Dev ss) :
    putAll (fat32Put block vol true) us dev = (false, dev.put dev.disk) := by
  obtain ⟨u, us, rfl⟩ := exists_cons_of_ne_nil hne
  simp [putAll, fat32Put_no_log hlog]

theorem writeFatTables_no_log (hs : SoundVolume block vol) (fat : Bytes) (dev : Dev ss) :
    ∃ dev', writeFatTables block vol fat true dev = (false, dev') ∧ dev'.disk = dev.disk := by
  simp only [writeFatTables]
  split
  · exact ⟨dev, rfl, rfl⟩
  · refine ⟨_, putAll_no_log hlog ?_ dev, rfl⟩
    have hfats := hs.fats
    have hspf := hs.mountable.bounds.2.2.1
    exact ne_nil_of_mem (mem_flatMap.2 ⟨0, mem_range.2 hfats, mem_map_of_mem (mem_range.2 hspf)⟩)

theorem writeCluster_no_log (hs : SoundVolume block vol) (c : ℕ) (data : Bytes) (dev : Dev ss) :
    ∃ dev', writeCluster block vol c data true dev = (false, dev') ∧ dev'.disk = dev.disk := by
  unfold writeCluster
  split
  · exact ⟨dev, rfl, rfl⟩
  · split
    · exact ⟨dev, rfl, rfl⟩
    · split
      · exact ⟨dev, rfl, rfl⟩
      · refine ⟨_, putAll_no_log hlog ?_ dev, rfl⟩
        rw [clusterSectors, ← length_pos_iff, length_map, length_range]
        exact hs.mountable.bounds.2.1

theorem fat32WriteSlot_no_log (loc : SlotLoc) (need : ℕ) (f : Bytes → ℕ → Bytes) (dev : Dev ss) :
    ∃ dev', fat32WriteSlot block vol loc need f true dev = (false, dev') ∧ dev'.disk = dev.disk := by
  unfold fat32WriteSlot
  split
  · exact ⟨dev, rfl, rfl⟩
  · simp only
    split
    · exact ⟨dev, rfl, rfl⟩
    · split
      · exact ⟨dev, rfl, rfl⟩
      · exact ⟨_, fat32Put_no_log hlog _ _ dev, rfl⟩

section

variable (hs : SoundVolume block vol)
include hs

theorem fat32Store_no_log (loc : SlotLoc) (chain : List ℕ) (oldCount : ℕ) (hpos : 0 < required) (data : Bytes)
    (dev : Dev ss) :
    ∃ err dev', fat32Store block vol loc chain oldCount required data true dev =
      some (.error err, dev') ∧ dev'.disk = dev.disk := by
  rw [fat32Store]
  rcases chain with - | ⟨c, rest⟩
  · exact ⟨_, dev, rfl, rfl⟩
  · obtain ⟨n, rfl⟩ : ∃ n, required = n + 1 := ⟨required - 1, by omega⟩
    simp only [head?_cons, take_succ_cons, fat32WriteClusters]
    rcases fat32ClusterBase block vol dev.disk (0 < oldCount) c with - | base
    · exact ⟨_, dev, rfl, rfl⟩
    · obtain ⟨dev', hcluster, hdisk⟩ := writeCluster_no_log hlog hs c
        (data.take (min data.length (clusterSize vol)) ++ base.drop (min data.length (clusterSize vol)))
        dev
      simp only [hcluster, Bool.not_false, if_true]
      exact ⟨_, dev', rfl, hdisk⟩

theorem fat32Extend_no_log (fat : Bytes) (loc : SlotLoc) (chain : List ℕ) (required size : ℕ) (dev : Dev ss) :
    ∃ err dev', fat32Extend block vol fat loc chain required size true dev =
      some (.error err, dev') ∧ dev'.disk = dev.disk := by
  unfold fat32Extend
  split
  · exact ⟨_, dev, rfl, rfl⟩
  · next extra _ =>
    obtain ⟨dev', htables, hdisk⟩ := writeFatTables_no_log hlog hs (growTable .fat32 fat chain extra) dev
    simp only [htables, Bool.not_false, if_true]
    exact ⟨_, dev', rfl, hdisk⟩

/-- **A safe write fails without a log**, and changes nothing. -/
theorem fat32WriteAt_no_log (fat : Bytes) (e : FatDirEntry) (loc : SlotLoc) (data : Bytes) (dev : Dev ss) :
    ∃ err dev', fat32WriteAt block vol fat e loc data true dev = some (.error err, dev') ∧ dev'.disk = dev.disk := by
  have hsize := hs.mountable.clusterSize_pos
  unfold fat32WriteAt
  split
  · exact ⟨_, dev, rfl, rfl⟩
  · split
    · exact ⟨_, dev, rfl, rfl⟩
    · split
      · obtain ⟨dev', hslot, hdisk⟩ : ∃ dev', updateDirEntryOnDisk block vol loc e.firstCluster 0 true
            dev = (false, dev') ∧ dev'.disk = dev.disk := fat32WriteSlot_no_log hlog loc 32 _ dev
        simp only [hslot, Bool.not_false, if_true]
        exact ⟨_, dev', rfl, hdisk⟩
      · next hne =>
        have hpos := required_pos hsize hne
        generalize (if 2 ≤ e.firstCluster then fat32ClusterChain vol fat e.firstCluster else []) = chain
        simp only
        split
        · obtain ⟨err, dev', hextend, hdisk⟩ := fat32Extend_no_log hlog hs fat loc chain
            (requiredClusters vol data) data.length dev
          rw [hextend]
          exact ⟨err, dev', rfl, hdisk⟩
        · exact fat32Store_no_log hlog hs loc _ _ hpos data dev

theorem fat32DeleteAt_no_log (fat : Bytes) (e : FatDirEntry) (loc : SlotLoc) (dev : Dev ss) :
    ∃ dev', fat32DeleteAt block vol fat e loc true dev = (false, dev') ∧ dev'.disk = dev.disk := by
  unfold fat32DeleteAt
  split
  · exact ⟨dev, rfl, rfl⟩
  · rcases Nat.lt_or_ge e.firstCluster 2 with hlt | hge
    · simp only [if_neg (Nat.not_le.2 hlt), if_true]
      exact fat32WriteSlot_no_log hlog loc 1 _ dev
    · obtain ⟨dev', htables, hdisk⟩ := writeFatTables_no_log hlog hs
        (releaseClusters .fat32 fat (fat32ClusterChain vol fat e.firstCluster)) dev
      simp only [if_pos hge, htables, Bool.false_eq_true, if_false]
      exact ⟨dev', rfl, hdisk⟩

end

end

end CapazOS
