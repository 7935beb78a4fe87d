import CapazOS.Fat.Updates
import CapazOS.Fat.Slots

/-!
# From disks to views

Where a volume keeps its tables, its root area and its clusters. The areas are disjoint and lie
behind the log, so that each kind of update changes one component of the view
(`view_clusterUpdates`, `view_tableUpdates`, `view_slotUpdate`). `SoundVolume` collects what is
assumed beyond the checks of the mount functions: there is a table with an entry for every cluster,
slots do not straddle sectors, and cluster numbers stay below the reserved ones.
-/

namespace CapazOS

open List Function

variable {lba c n : ℕ} {ty : FatType} {vol : Volume} {b : Option ℕ} {v : View} {loc : SlotLoc} {s fat : Bytes}

variable {ss : ℕ}
variable {block : BlockDevice ss} {d : Disk ss} {us : List (ℕ × Sector ss)} {u : ℕ × Sector ss}

/-! ### Geometry -/

/-- A volume whose geometry a formatter would produce. -/
structure SoundVolume (block : BlockDevice ss) (vol : Volume) : Prop where
  mountable : Mountable vol.fatType block vol
  fats : 1 ≤ vol.numFATs
  entries : (fatMaxCluster vol + 1) * fatEntryBytes vol.fatType ≤ vol.sectorsPerFAT * ss
  slots : 32 ∣ ss
  clusters : vol.fatType = .fat32 → fatMaxCluster vol < fatBadCluster .fat32

namespace Mountable

section

variable (h : Mountable ty block vol)
include h

theorem fatType_eq : vol.fatType = ty := h.parse.2.fatType_eq

theorem areas : vol.fatStartLBA + vol.numFATs * vol.sectorsPerFAT = vol.rootDirStartLBA ∧
      vol.rootDirStartLBA + vol.rootDirSectors = vol.dataStartLBA ∧
      vol.baseLBA ≤ vol.fatStartLBA := by
  obtain ⟨-, hp⟩ := h.parse
  have h₁ := hp.fatStart_eq
  have h₂ := hp.rootDirStart_eq
  have h₃ := hp.dataStart_eq
  omega

theorem not_onLog (hlba : vol.fatStartLBA ≤ lba) : ¬vol.OnLog lba := by
  rintro ⟨hwal, heq⟩
  have := h.wal hwal
  omega

theorem clusterSize_eq : clusterSize vol = vol.sectorsPerCluster * ss := by
  rw [clusterSize, h.bounds.1, Nat.mul_comm]

theorem clusterSize_pos : 0 < clusterSize vol := by
  rw [h.clusterSize_eq]
  exact Nat.mul_pos h.bounds.2.1 (by have := h.ss_ge; omega)

theorem cluster_le (hc : 2 ≤ c ∧ c ≤ fatMaxCluster vol) :
    clusterLBA vol c + vol.sectorsPerCluster ≤ vol.baseLBA + vol.totalSectors := by
  obtain ⟨-, hspc, -, -, -, hdata⟩ := h.bounds
  set n := (vol.totalSectors - (vol.dataStartLBA - vol.baseLBA)) / vol.sectorsPerCluster with hn
  have hmax : fatMaxCluster vol = if n = 0 then 0 else n + 1 := rfl
  have hle : c - 2 + 1 ≤ n := by
    rw [hmax] at hc
    split at hc <;> omega
  have hmul : (c - 2 + 1) * vol.sectorsPerCluster ≤ n * vol.sectorsPerCluster := Nat.mul_le_mul_right _ hle
  have hdiv : n * vol.sectorsPerCluster ≤ vol.totalSectors - (vol.dataStartLBA - vol.baseLBA) := Nat.div_mul_le_self _ _
  rw [Nat.succ_mul] at hmul
  unfold clusterLBA
  omega

end

theorem dataStart_le_cluster (vol : Volume) (c : ℕ) : vol.dataStartLBA ≤ clusterLBA vol c :=
  Nat.le_add_right _ _

theorem fat16_max_lt (h : Mountable .fat16 block vol) : fatMaxCluster vol < fatBadCluster .fat16 := by
  obtain ⟨hfat, hroot, hbase⟩ := h.areas
  obtain ⟨-, hp⟩ := h.parse
  have hdetect := hp.detect
  have hstart := hp.fatStart_eq
  unfold fatDetectType at hdetect
  split at hdetect
  · cases hdetect
  simp only at hdetect
  split at hdetect
  · cases hdetect
  split at hdetect
  · cases hdetect
  split at hdetect
  · next hlt =>
    have hdata : ((vol.totalSectors : ℤ) - vol.reservedSectors - vol.numFATs * vol.sectorsPerFAT -
        vol.rootDirSectors).toNat = vol.totalSectors - (vol.dataStartLBA - vol.baseLBA) := by
      omega
    rw [hdata] at hlt
    show (if _ = 0 then 0 else _ + 1) < 0xFFF7
    split <;> omega
  · cases hdetect

end Mountable

namespace SoundVolume

theorem max_lt (h : SoundVolume block vol) : fatMaxCluster vol < fatBadCluster vol.fatType := by
  have hm := h.mountable
  rcases hty : vol.fatType with - | -
  · rw [hty] at hm
    exact hm.fat16_max_lt
  · exact h.clusters hty

theorem entry_le (h : SoundVolume block vol) (hc : c ≤ fatMaxCluster vol) :
    (c + 1) * fatEntryBytes vol.fatType ≤ vol.sectorsPerFAT * ss :=
  (Nat.mul_le_mul_right _ (Nat.succ_le_succ hc)).trans h.entries

theorem table_le (h : SoundVolume block vol) : vol.fatStartLBA + vol.sectorsPerFAT ≤ vol.rootDirStartLBA := by
  obtain ⟨hfat, -, -⟩ := h.mountable.areas
  have := Nat.mul_le_mul_right vol.sectorsPerFAT h.fats
  omega

end SoundVolume

/-! ### The view of a disk -/

def table (vol : Volume) (d : Disk ss) : Bytes := d.bytes vol.fatStartLBA vol.sectorsPerFAT

def view (vol : Volume) (d : Disk ss) : View where
  link := fatNextCluster vol.fatType (table vol d)
  cluster c := if c < 2 then [] else d.bytes (clusterLBA vol c) vol.sectorsPerCluster
  root := d.bytes vol.rootDirStartLBA vol.rootDirSectors

@[simp] theorem length_table (vol : Volume) (d : Disk ss) :
    (table vol d).length = vol.sectorsPerFAT * ss := length_diskBytes ..

theorem view_link (vol : Volume) (d : Disk ss) : (view vol d).link = fatNextCluster vol.fatType (table vol d) := rfl

theorem view_link_of_type (hty : vol.fatType = ty) (d : Disk ss) :
    (view vol d).link = fatNextCluster ty (table vol d) := by
  rw [view_link, hty]

theorem view_cluster (vol : Volume) (d : Disk ss) (hc : 2 ≤ c) :
    (view vol d).cluster c = d.bytes (clusterLBA vol c) vol.sectorsPerCluster := if_neg (Nat.not_lt.2 hc)

theorem length_view_cluster (h : Mountable ty block vol) (d : Disk ss) (hc : 2 ≤ c) :
    ((view vol d).cluster c).length = clusterSize vol := by
  rw [view_cluster vol d hc, length_diskBytes, h.clusterSize_eq]

theorem length_flatMap_cluster (hm : Mountable ty block vol) (d : Disk ss) {cs : List ℕ}
    (hcs : ∀ c ∈ cs, 2 ≤ c) : (cs.flatMap (view vol d).cluster).length = cs.length * clusterSize vol := by
  induction cs with
  | nil => simp
  | cons c cs ih =>
    obtain ⟨hc, hrest⟩ := forall_mem_cons.1 hcs
    rw [flatMap_cons, length_append, ih hrest, length_view_cluster hm d hc, length_cons, Nat.succ_mul, Nat.add_comm]

theorem length_flatMap_chain (hm : Mountable ty block vol) {d : Disk ss} {c : ℕ} {cs : List ℕ}
    (hcs : c < 2 ∧ cs = [] ∨ ChainFrom vol (view vol d) c cs) :
    (cs.flatMap (view vol d).cluster).length = cs.length * clusterSize vol := by
  refine length_flatMap_cluster hm d fun x hx ↦ ?_
  rcases hcs with ⟨-, rfl⟩ | hchain
  · cases hx
  · exact (hchain.1.range x hx).1

theorem view_cluster_congr {d' : Disk ss} (hd : ∀ lba, vol.dataStartLBA ≤ lba → d' lba = d lba) :
    (view vol d').cluster = (view vol d).cluster := by
  funext c
  show (if c < 2 then [] else _) = if c < 2 then [] else _
  rw [diskBytes_congr fun x hx _ ↦ hd x ((Mountable.dataStart_le_cluster vol c).trans hx)]

theorem view_congr (h : SoundVolume block vol) {d' : Disk ss}
    (hd : ∀ lba, vol.fatStartLBA ≤ lba → d' lba = d lba) : view vol d' = view vol d := by
  obtain ⟨hfat, hroot, -⟩ := h.mountable.areas
  have htable : table vol d' = table vol d := diskBytes_congr fun x hx _ ↦ hd x hx
  have hcluster : (view vol d').cluster = (view vol d).cluster := view_cluster_congr fun x _ ↦ hd x (by omega)
  have hrootArea : (view vol d').root = (view vol d).root := diskBytes_congr fun x hx _ ↦ hd x (by omega)
  show View.mk _ _ _ = View.mk _ _ _
  rw [htable]
  exact congrArg₂ (View.mk _) hcluster hrootArea

theorem view_body (h : SoundVolume block vol) (d : Disk ss) : view vol (body vol d) = view vol d :=
  view_congr h fun _ hlba ↦ body_of_not_onLog (h.mountable.not_onLog hlba) d

/-! ### Updates of a run of sectors -/

theorem bytes_applyUpdates_of_disjoint (h : ∀ u ∈ us, u.1 < lba ∨ lba + n ≤ u.1) :
    (applyUpdates d us).bytes lba n = d.bytes lba n :=
  diskBytes_congr fun x hx hx' ↦ applyUpdates_of_notMem fun u hu heq ↦ by
    have := h u hu
    omega

/-- The updates that store `content` in `n` sectors from `lba` on. -/
def runUpdates (ss lba n : ℕ) (content : Bytes) : List (ℕ × Sector ss) :=
  (range n).map fun i ↦ (lba + i, chunk ss content i)

theorem mem_runUpdates {content : Bytes} :
    u ∈ runUpdates ss lba n content ↔ ∃ i < n, u = (lba + i, chunk ss content i) := by
  simp [runUpdates, eq_comm]

theorem nodup_runUpdates (lba n : ℕ) (content : Bytes) : ((runUpdates ss lba n content).map Prod.fst).Nodup := by
  rw [runUpdates, map_map]
  exact nodup_range.map fun i j heq ↦ Nat.add_left_cancel heq

theorem slice_padZeros {content : Bytes} {i : ℕ} (hi : i < n) :
    slice (padZeros (n * ss) (content.take (n * ss))) (i * ss) ss = (chunk ss content i).1 := by
  have hle : (i + 1) * ss ≤ n * ss := Nat.mul_le_mul_right ss hi
  rw [Nat.succ_mul] at hle
  refine ext_getElem? fun j ↦ ?_
  have hpad : ∀ {m : ℕ} {bs : Bytes} {k : ℕ}, (padZeros m bs)[k]? =
      if k < bs.length then bs[k]? else if k < m then some 0 else none := by
    intro m bs k
    rw [padZeros, getElem?_append, getElem?_replicate]
    split_ifs <;> first | rfl | omega
  rw [getElem?_slice, chunk, hpad, hpad, getElem?_take, getElem?_slice, slice, length_take, length_take, length_drop]
  split_ifs <;> first | rfl | omega

theorem bytes_runUpdates (d : Disk ss) (lba n : ℕ) (content : Bytes) :
    (applyUpdates d (runUpdates ss lba n content)).bytes lba n = padZeros (n * ss) (content.take (n * ss)) := by
  refine diskBytes_eq_of_chunks _ (length_padZeros (length_take_le _ _)) fun i hi ↦ ?_
  have hmem : (lba + i, chunk ss content i) ∈ runUpdates ss lba n content := mem_runUpdates.2 ⟨i, hi, rfl⟩
  rw [slice_padZeros hi]
  exact congrArg Subtype.val (applyUpdates_of_mem (nodup_runUpdates lba n content) hmem)

theorem bytes_update_inside {i o : ℕ} {bs : Bytes} (hi : i < n) (ho : o + bs.length ≤ ss) {s : Sector ss}
    (hs : s.1 = writeAt (d (lba + i)).1 o bs) :
    Disk.bytes (update d (lba + i) s) lba n = writeAt (d.bytes lba n) (i * ss + o) bs := by
  have hle : (i + 1) * ss ≤ n * ss := Nat.mul_le_mul_right ss hi
  rw [Nat.succ_mul] at hle
  have hlen := length_diskBytes d lba n
  refine diskBytes_eq_of_chunks _ (by rw [length_writeAt, hlen]) fun j hj ↦ ?_
  rcases eq_or_ne j i with rfl | hne
  · rw [update_self, hs, slice_writeAt_inside (by omega) (by omega) (by omega),
      slice_diskBytes d hj, Nat.add_sub_cancel_left]
  · have hsep : (j + 1) * ss ≤ i * ss ∨ (i + 1) * ss ≤ j * ss := by
      rcases Nat.lt_or_gt_of_ne hne with h | h
      · exact .inl (Nat.mul_le_mul_right ss h)
      · exact .inr (Nat.mul_le_mul_right ss h)
    rw [Nat.succ_mul, Nat.succ_mul] at hsep
    rw [update_of_ne (by omega), slice_writeAt_disjoint (by omega) (by omega), slice_diskBytes d hj]

/-! ### Updates of a view -/

namespace View

def setBlock (v : View) (b : Option ℕ) (bytes : Bytes) : View :=
  match b with
  | none => { v with root := bytes }
  | some c => { v with cluster := update v.cluster c bytes }

def setLink (v : View) (link : ℕ → ℕ) : View := { v with link }

def setSlot (v : View) (loc : SlotLoc) (s : Bytes) : View :=
  v.setBlock loc.cluster (writeAt (v.block loc.cluster) (loc.slot * 32) s)

@[simp] theorem setBlock_link (v : View) (b : Option ℕ) (bytes : Bytes) : (v.setBlock b bytes).link = v.link := by
  cases b <;> rfl

@[simp] theorem setBlock_block_self (v : View) (b : Option ℕ) (bytes : Bytes) :
    (v.setBlock b bytes).block b = bytes := by
  cases b with
  | none => rfl
  | some c => exact update_self ..

@[simp] theorem setBlock_self (v : View) (b : Option ℕ) : v.setBlock b (v.block b) = v := by
  cases b with
  | none => rfl
  | some c => exact congrArg (View.mk v.link · v.root) (update_eq_self c v.cluster)

theorem setBlock_block_of_ne (v : View) {b' : Option ℕ} (h : b' ≠ b) (bytes : Bytes) :
    (v.setBlock b bytes).block b' = v.block b' := by
  cases b with
  | none =>
    cases b' with
    | none => exact absurd rfl h
    | some c => rfl
  | some c =>
    cases b' with
    | none => rfl
    | some c' => exact update_of_ne (fun heq ↦ h (by rw [heq])) ..

@[simp] theorem setLink_link (v : View) (link : ℕ → ℕ) : (v.setLink link).link = link := rfl

@[simp] theorem setLink_block (v : View) (link : ℕ → ℕ) (b : Option ℕ) : (v.setLink link).block b = v.block b := by
  cases b <;> rfl

@[simp] theorem setSlot_link (v : View) (loc : SlotLoc) (s : Bytes) :
    (v.setSlot loc s).link = v.link := setBlock_link ..

theorem slots_setSlot_self (hs : s.length = 32) (hloc : loc.slot < (v.slots loc.cluster).length) :
    (v.setSlot loc s).slots loc.cluster = (v.slots loc.cluster).set loc.slot s := by
  rw [View.slots, length_slotsOf] at hloc
  rw [View.slots, setSlot, setBlock_block_self, slotsOf_writeAt hs hloc]
  rfl

theorem setSlot_self (h : (v.slots loc.cluster)[loc.slot]? = some s) : v.setSlot loc s = v := by
  have hlt := (List.getElem?_eq_some_iff.1 h).1
  rw [View.slots, length_slotsOf] at hlt
  rw [View.slots, getElem?_slotsOf hlt] at h
  rw [setSlot, ← Option.some.inj h, writeAt_slice (by omega), setBlock_self]

theorem block_setSlot_of_ne (h : b ≠ loc.cluster) : (v.setSlot loc s).block b = v.block b :=
  setBlock_block_of_ne v h _

end View

/-! ### Blocks on the disk -/

def blockLBA (vol : Volume) : Option ℕ → ℕ
  | none => vol.rootDirStartLBA
  | some c => clusterLBA vol c

def blockSectors (vol : Volume) : Option ℕ → ℕ
  | none => vol.rootDirSectors
  | some _ => vol.sectorsPerCluster

/-- The root area, or a cluster of the volume. -/
def ValidBlock (vol : Volume) (b : Option ℕ) : Prop :=
  ∀ c, b = some c → 2 ≤ c ∧ c ≤ fatMaxCluster vol

theorem IsDir.validBlock {dir : Option ℕ} {bs : List (Option ℕ)} (h : IsDir vol v dir bs) (hb : b ∈ bs) :
    ValidBlock vol b := by
  rintro c rfl
  cases h with
  | area => simp at hb
  | chain hchain =>
    obtain ⟨c', hc', heq⟩ := mem_map.1 hb
    exact Option.some.inj heq ▸ hchain.1.range c' hc'

theorem view_block (d : Disk ss) (hb : ValidBlock vol b) :
    (view vol d).block b = d.bytes (blockLBA vol b) (blockSectors vol b) := by
  cases b with
  | none => rfl
  | some c => exact view_cluster vol d (hb c rfl).1

theorem Mountable.block_le (h : Mountable ty block vol) (hb : ValidBlock vol b) :
    vol.rootDirStartLBA ≤ blockLBA vol b ∧ blockLBA vol b + blockSectors vol b ≤ vol.baseLBA + vol.totalSectors := by
  obtain ⟨hfat, hroot, -⟩ := h.areas
  obtain ⟨-, -, -, -, -, hdata⟩ := h.bounds
  cases b with
  | none =>
    simp only [blockLBA, blockSectors]
    omega
  | some c =>
    have hle := h.cluster_le (hb c rfl)
    have hge := Mountable.dataStart_le_cluster vol c
    simp only [blockLBA, blockSectors]
    omega

theorem clusterLBA_separate (vol : Volume) {c' : ℕ} (hc : 2 ≤ c) (hc' : 2 ≤ c') (hne : c ≠ c') :
    clusterLBA vol c + vol.sectorsPerCluster ≤ clusterLBA vol c' ∨
      clusterLBA vol c' + vol.sectorsPerCluster ≤ clusterLBA vol c := by
  rcases Nat.lt_or_gt_of_ne hne with h | h
  · have hmul := Nat.mul_le_mul_right vol.sectorsPerCluster (by omega : c - 2 + 1 ≤ c' - 2)
    rw [Nat.succ_mul] at hmul
    simp only [clusterLBA]
    omega
  · have hmul := Nat.mul_le_mul_right vol.sectorsPerCluster (by omega : c' - 2 + 1 ≤ c - 2)
    rw [Nat.succ_mul] at hmul
    simp only [clusterLBA]
    omega

/-- **Updates inside one block** change that block of the view and nothing else. -/
theorem view_blockUpdates (h : SoundVolume block vol) (d : Disk ss) (hb : ValidBlock vol b)
    (hus : ∀ u ∈ us, blockLBA vol b ≤ u.1 ∧ u.1 < blockLBA vol b + blockSectors vol b) :
    view vol (applyUpdates d us) = (view vol d).setBlock b
      ((applyUpdates d us).bytes (blockLBA vol b) (blockSectors vol b)) := by
  obtain ⟨hfat, hroot, -⟩ := h.mountable.areas
  have htable := h.table_le
  have hblock := (h.mountable.block_le hb).1
  have hlink : table vol (applyUpdates d us) = table vol d := bytes_applyUpdates_of_disjoint fun u hu ↦ by
      have := hus u hu
      omega
  cases b with
  | none =>
    simp only [blockLBA, blockSectors] at hus ⊢
    have hcluster : (view vol (applyUpdates d us)).cluster = (view vol d).cluster :=
      view_cluster_congr fun _ _ ↦ applyUpdates_of_notMem fun u hu heq ↦ by
        have := hus u hu
        omega
    show View.mk _ _ _ = View.mk _ _ _
    rw [hlink]
    exact congrArg₂ (View.mk _) hcluster rfl
  | some c =>
    simp only [blockLBA, blockSectors] at hus ⊢
    obtain ⟨hc, -⟩ := hb c rfl
    have hge := Mountable.dataStart_le_cluster vol c
    have hcluster : (view vol (applyUpdates d us)).cluster = update (view vol d).cluster c
        ((applyUpdates d us).bytes (clusterLBA vol c) vol.sectorsPerCluster) := by
      funext c'
      rcases eq_or_ne c' c with rfl | hne
      · rw [update_self]
        exact view_cluster vol _ hc
      · rw [update_of_ne hne]
        show (if c' < 2 then [] else _) = if c' < 2 then [] else _
        split
        · rfl
        · next hc' =>
          refine bytes_applyUpdates_of_disjoint fun u hu ↦ ?_
          have := hus u hu
          have := clusterLBA_separate vol (Nat.not_lt.1 hc') hc hne
          omega
    have hrootArea : (view vol (applyUpdates d us)).root = (view vol d).root :=
      bytes_applyUpdates_of_disjoint fun u hu ↦ by
        have := hus u hu
        omega
    show View.mk _ _ _ = View.mk _ _ _
    rw [hlink]
    exact congrArg₂ (View.mk _) hcluster hrootArea

def clusterUpdates (ss : ℕ) (vol : Volume) (c : ℕ) (content : Bytes) : List (ℕ × Sector ss) :=
  runUpdates ss (clusterLBA vol c) vol.sectorsPerCluster content

theorem view_clusterUpdates (h : SoundVolume block vol) (d : Disk ss) (hc : 2 ≤ c ∧ c ≤ fatMaxCluster vol)
    (content : Bytes) :
    view vol (applyUpdates d (clusterUpdates ss vol c content)) = (view vol d).setBlock (some c)
        (padZeros (clusterSize vol) (content.take (clusterSize vol))) := by
  have hb : ValidBlock vol (some c) := fun x hx ↦ Option.some.inj hx ▸ hc
  rw [view_blockUpdates h d hb, h.mountable.clusterSize_eq]
  · exact congrArg _ (bytes_runUpdates d _ _ content)
  · intro u hu
    obtain ⟨i, hi, rfl⟩ := mem_runUpdates.1 hu
    simp only [blockLBA, blockSectors]
    omega

/-- The updates that store `fat` in every copy of the table. -/
def tableUpdates (ss : ℕ) (vol : Volume) (fat : Bytes) : List (ℕ × Sector ss) :=
  (range vol.numFATs).flatMap fun k ↦ runUpdates ss (vol.fatStartLBA + k * vol.sectorsPerFAT) vol.sectorsPerFAT fat

theorem mem_tableUpdates : u ∈ tableUpdates ss vol fat ↔ ∃ k < vol.numFATs, ∃ i < vol.sectorsPerFAT,
      u = (vol.fatStartLBA + k * vol.sectorsPerFAT + i, chunk ss fat i) := by
  simp [tableUpdates, mem_flatMap, mem_runUpdates]

theorem nodup_tableUpdates (ss : ℕ) (vol : Volume) (fat : Bytes) : ((tableUpdates ss vol fat).map Prod.fst).Nodup := by
  rw [tableUpdates, map_flatMap, nodup_flatMap]
  refine ⟨fun k _ ↦ nodup_runUpdates _ _ _, ?_⟩
  refine List.Pairwise.imp (fun {k k'} hlt ↦ ?_) (pairwise_lt_range)
  intro lba hmem hmem'
  obtain ⟨u, hu, rfl⟩ := mem_map.1 hmem
  obtain ⟨u', hu', heq⟩ := mem_map.1 hmem'
  obtain ⟨i, hi, rfl⟩ := mem_runUpdates.1 hu
  obtain ⟨i', hi', rfl⟩ := mem_runUpdates.1 hu'
  have hmul := Nat.mul_le_mul_right vol.sectorsPerFAT (Nat.succ_le_of_lt hlt)
  rw [Nat.succ_mul] at hmul
  omega

theorem range_of_mem_tableUpdates (h : SoundVolume block vol) (hu : u ∈ tableUpdates ss vol fat) :
    vol.fatStartLBA ≤ u.1 ∧ u.1 < vol.rootDirStartLBA := by
  obtain ⟨k, hk, i, hi, rfl⟩ := mem_tableUpdates.1 hu
  obtain ⟨hfat, -, -⟩ := h.mountable.areas
  have hmul := Nat.mul_le_mul_right vol.sectorsPerFAT (Nat.succ_le_of_lt hk)
  rw [Nat.succ_mul] at hmul
  omega

theorem bytes_tableUpdates (d : Disk ss) (hfat : fat.length = vol.sectorsPerFAT * ss) {k : ℕ} (hk : k < vol.numFATs) :
    (applyUpdates d (tableUpdates ss vol fat)).bytes (vol.fatStartLBA + k * vol.sectorsPerFAT)
      vol.sectorsPerFAT = fat := by
  refine diskBytes_eq_of_chunks _ hfat fun i hi ↦ ?_
  have hmem : (vol.fatStartLBA + k * vol.sectorsPerFAT + i, chunk ss fat i) ∈
      tableUpdates ss vol fat := mem_tableUpdates.2 ⟨k, hk, i, hi, rfl⟩
  have hle : (i + 1) * ss ≤ vol.sectorsPerFAT * ss := Nat.mul_le_mul_right ss hi
  rw [Nat.succ_mul] at hle
  rw [← chunk_coe (by omega)]
  exact congrArg Subtype.val (applyUpdates_of_mem (d := d) (nodup_tableUpdates ss vol fat) hmem)

theorem view_updates_tables (h : SoundVolume block vol) (d : Disk ss)
    (hus : ∀ u ∈ us, vol.fatStartLBA ≤ u.1 ∧ u.1 < vol.rootDirStartLBA) :
    view vol (applyUpdates d us) = (view vol d).setLink
      (fatNextCluster vol.fatType (table vol (applyUpdates d us))) := by
  obtain ⟨hfat, hroot, -⟩ := h.mountable.areas
  have hcluster : (view vol (applyUpdates d us)).cluster = (view vol d).cluster :=
    view_cluster_congr fun _ _ ↦ applyUpdates_of_notMem fun u hu heq ↦ by
      have := hus u hu
      omega
  have hrootArea : (view vol (applyUpdates d us)).root = (view vol d).root :=
    bytes_applyUpdates_of_disjoint fun u hu ↦ by
      have := hus u hu
      omega
  exact congrArg₂ (View.mk _) hcluster hrootArea

theorem fatTableSectors_eq (hbps : vol.bytesPerSector = ss) (hfat : fat.length = vol.sectorsPerFAT * ss) :
    fatTableSectors vol fat = (tableUpdates ss vol fat).map fun u ↦ (u.1, u.2.1) := by
  rw [fatTableSectors, tableUpdates, map_flatMap]
  refine flatMap_congr fun k _ ↦ ?_
  rw [runUpdates, map_map]
  refine map_congr_left fun i hi ↦ ?_
  have hle : (i + 1) * ss ≤ vol.sectorsPerFAT * ss := Nat.mul_le_mul_right ss (mem_range.1 hi)
  rw [Nat.succ_mul] at hle
  simp [hbps, chunk_coe (by omega : i * ss + ss ≤ fat.length)]

theorem view_tableUpdates (h : SoundVolume block vol) (d : Disk ss) (hfat : fat.length = vol.sectorsPerFAT * ss) :
    view vol (applyUpdates d (tableUpdates ss vol fat)) = (view vol d).setLink (fatNextCluster vol.fatType fat) := by
  have htable := bytes_tableUpdates d hfat h.fats
  rw [Nat.zero_mul, Nat.add_zero] at htable
  rw [view_updates_tables h d fun u hu ↦ range_of_mem_tableUpdates h hu, table, htable]

def slotUpdate (vol : Volume) (d : Disk ss) (loc : SlotLoc) (s : Bytes) : ℕ × Sector ss :=
  (slotLBA vol loc, ⟨writeAt (d (slotLBA vol loc)).1 (slotOffset vol loc) s, by
    rw [length_writeAt, (d (slotLBA vol loc)).2]⟩)

/-- A slot of the volume: it stands in a block. -/
structure ValidSlot (vol : Volume) (v : View) (loc : SlotLoc) : Prop where
  block : ValidBlock vol loc.cluster
  lt : loc.slot < (v.slots loc.cluster).length

theorem length_view_block (hb : ValidBlock vol b) (d : Disk ss) :
    ((view vol d).block b).length = blockSectors vol b * ss := by
  rw [view_block d hb, length_diskBytes]

theorem ValidSlot.of_disk (h : ValidSlot vol (view vol d) loc) (d' : Disk ss) : ValidSlot vol (view vol d') loc := by
  refine ⟨h.block, ?_⟩
  have hlt := h.lt
  rwa [View.slots, length_slotsOf, length_view_block h.block] at hlt ⊢

theorem SoundVolume.slot_place (h : SoundVolume block vol) (hloc : ValidSlot vol (view vol d) loc) :
    slotLBA vol loc = blockLBA vol loc.cluster + loc.slot * 32 / ss ∧
      loc.slot * 32 / ss < blockSectors vol loc.cluster ∧ slotOffset vol loc + 32 ≤ ss ∧
      loc.slot * 32 / ss * ss + slotOffset vol loc = loc.slot * 32 := by
  have hss := h.mountable.bounds.1
  have hpos : 0 < ss := by
    have := h.mountable.ss_ge
    omega
  have hlt := hloc.lt
  rw [View.slots, length_slotsOf, view_block d hloc.block, length_diskBytes] at hlt
  have hlen : loc.slot * 32 < blockSectors vol loc.cluster * ss := by omega
  refine ⟨?_, Nat.div_lt_of_lt_mul (by rwa [Nat.mul_comm ss]), ?_, ?_⟩
  · rw [slotLBA, hss]
    cases loc.cluster <;> rfl
  · rw [slotOffset, hss]
    obtain ⟨m, hm⟩ := h.slots
    have hmod : loc.slot * 32 % ss = 32 * (loc.slot % m) := by rw [hm, Nat.mul_comm loc.slot 32, Nat.mul_mod_mul_left]
    have hmpos : 0 < m := by
      rcases Nat.eq_zero_or_pos m with hzero | hm'
      · rw [hzero] at hm
        omega
      · exact hm'
    have hle := Nat.mul_le_mul_left 32 (Nat.succ_le_of_lt (Nat.mod_lt loc.slot hmpos))
    omega
  · rw [slotOffset, hss, Nat.mul_comm]
    exact Nat.div_add_mod _ _

theorem sector_slot (hs : SoundVolume block vol) (hloc : ValidSlot vol (view vol d) loc) {s₀ : Bytes}
    (h : ((view vol d).slots loc.cluster)[loc.slot]? = some s₀) :
    slice (d (slotLBA vol loc)).1 (slotOffset vol loc) 32 = s₀ := by
  obtain ⟨hlba, hlt, hoff, hpos⟩ := hs.slot_place hloc
  have hvalid := hloc.lt
  rw [View.slots, length_slotsOf] at hvalid
  rw [View.slots, getElem?_slotsOf hvalid, view_block d hloc.block] at h
  rw [← Option.some.inj h, hlba, ← slice_diskBytes d hlt, slice_slice hoff, hpos]

theorem view_slotUpdate (h : SoundVolume block vol) (hloc : ValidSlot vol (view vol d) loc) (hs : s.length = 32) :
    view vol (applyUpdates d [slotUpdate vol d loc s]) = (view vol d).setSlot loc s := by
  obtain ⟨hlba, hlt, hoff, hpos⟩ := h.slot_place hloc
  rw [view_blockUpdates h d hloc.block, View.setSlot, view_block d hloc.block]
  · congr 1
    have hupdate : applyUpdates d [slotUpdate vol d loc s] =
        update d (blockLBA vol loc.cluster + loc.slot * 32 / ss) (slotUpdate vol d loc s).2 := by
      rw [← hlba]
      rfl
    have hsector : (slotUpdate vol d loc s).2.1 = writeAt
        (d (blockLBA vol loc.cluster + loc.slot * 32 / ss)).1 (slotOffset vol loc) s := by
      rw [← hlba]
      rfl
    rw [hupdate, bytes_update_inside hlt (by omega) hsector, hpos]
  · intro u hu
    obtain rfl := mem_singleton.1 hu
    show _ ≤ slotLBA vol loc ∧ slotLBA vol loc < _
    rw [hlba]
    exact ⟨Nat.le_add_right _ _, Nat.add_lt_add_left hlt _⟩

/-! ### Updates inside the volume -/

/-- Updates of sectors from the tables on. -/
def InVolume (vol : Volume) (us : List (ℕ × Sector ss)) : Prop :=
  ∀ u ∈ us, vol.fatStartLBA ≤ u.1 ∧ u.1 < vol.baseLBA + vol.totalSectors

theorem InVolume.append {us' : List (ℕ × Sector ss)} (h : InVolume vol us) (h' : InVolume vol us') :
    InVolume vol (us ++ us') := forall_mem_append.2 ⟨h, h'⟩

section

variable (hs : SoundVolume block vol)
include hs

theorem InVolume.can_put (h : InVolume vol us) : ∀ u ∈ us, u.1 < block.capacitySectors ∧ ¬vol.OnLog u.1 := by
  intro u hu
  obtain ⟨hge, hlt⟩ := h u hu
  have hcap := hs.mountable.bounds.2.2.2.1
  exact ⟨by omega, hs.mountable.not_onLog hge⟩

theorem inVolume_clusterUpdates (hc : 2 ≤ c ∧ c ≤ fatMaxCluster vol) (content : Bytes) :
    InVolume vol (clusterUpdates ss vol c content) := by
  intro u hu
  obtain ⟨i, hi, rfl⟩ := mem_runUpdates.1 hu
  obtain ⟨hfat, hroot, -⟩ := hs.mountable.areas
  have hle := hs.mountable.cluster_le hc
  have hge := Mountable.dataStart_le_cluster vol c
  omega

theorem inVolume_tableUpdates (fat : Bytes) : InVolume vol (tableUpdates ss vol fat) := by
  intro u hu
  have hrange := range_of_mem_tableUpdates hs hu
  obtain ⟨-, hroot, -⟩ := hs.mountable.areas
  have hdata := hs.mountable.bounds.2.2.2.2.2
  omega

theorem inVolume_slotUpdate (hloc : ValidSlot vol (view vol d) loc) (d' : Disk ss) (s : Bytes) :
    InVolume vol [slotUpdate vol d' loc s] := by
  intro u hu
  obtain rfl := mem_singleton.1 hu
  obtain ⟨hlba, hlt, -, -⟩ := hs.slot_place hloc
  obtain ⟨hge, hle⟩ := hs.mountable.block_le hloc.block
  obtain ⟨hfat, -, -⟩ := hs.mountable.areas
  have hstart : vol.fatStartLBA ≤ blockLBA vol loc.cluster := by omega
  show vol.fatStartLBA ≤ slotLBA vol loc ∧ slotLBA vol loc < _
  rw [hlba]
  exact ⟨hstart.trans (Nat.le_add_right _ _), (Nat.add_lt_add_left hlt _).trans_le hle⟩

theorem slotUpdate_body (hloc : ValidSlot vol (view vol d) loc) (s : Bytes) :
    slotUpdate vol (body vol d) loc s = slotUpdate vol d loc s := by
  have hge := (inVolume_slotUpdate hs hloc d s _ mem_cons_self).1
  have hbody : body vol d (slotLBA vol loc) = d (slotLBA vol loc) := body_of_not_onLog (hs.mountable.not_onLog hge) d
  simp only [slotUpdate, hbody]

end

/-- The updates of a deletion: the tables, if a chain is freed, and the slot. -/
def deleteUpdates (vol : Volume) (d : Disk ss) (fat? : Option Bytes) (loc : SlotLoc) (s : Bytes) :
    List (ℕ × Sector ss) :=
  let us := fat?.elim [] (tableUpdates ss vol)
  us ++ [slotUpdate vol (applyUpdates d us) loc s]

theorem view_deleteUpdates (hs : SoundVolume block vol) (d : Disk ss) {fat? : Option Bytes}
    (hfat : ∀ fat ∈ fat?, fat.length = vol.sectorsPerFAT * ss) (hloc : ValidSlot vol (view vol d) loc)
    (hslot : s.length = 32) :
    view vol (applyUpdates d (deleteUpdates vol d fat? loc s)) = ((view vol d).setLink
      (fat?.elim (view vol d).link (fatNextCluster vol.fatType))).setSlot loc s := by
  rw [deleteUpdates, applyUpdates_append, view_slotUpdate hs (hloc.of_disk _) hslot]
  cases fat? with
  | none => rfl
  | some fat =>
    show (view vol (applyUpdates d (tableUpdates ss vol fat))).setSlot loc s = _
    rw [view_tableUpdates hs d (hfat fat rfl)]
    rfl

/-! ### Finding the volume again -/

/-- The sectors that file operations may write: the log, and everything from the tables on. -/
def Volume.Owned (vol : Volume) (lba : ℕ) : Prop :=
  vol.OnLog lba ∨ vol.fatStartLBA ≤ lba ∧ lba < vol.baseLBA + vol.totalSectors

/-- The volume is found on every disk that agrees with `d` outside the sectors it owns: the boot
sector and the partition tables are not among them. -/
def Anchored (block : BlockDevice ss) (vol : Volume) (d : Disk ss) : Prop :=
  ∀ d' : Disk ss, (∀ lba, ¬vol.Owned lba → d' lba = d lba) →
    fatLocate vol.fatType (mbrTypes vol.fatType) block d' = some (some vol.toFatBPB)

/-- A volume at the start of the disk, with its boot sector outside the sectors it owns, is found
and stays so. -/
theorem anchored_of_boot (hcap : 0 < block.capacitySectors) (hfree : ¬vol.Owned 0)
    (hparse : parseBootSector vol.fatType (d 0).1 0 = some (some vol.toFatBPB)) : Anchored block vol d :=
  fun _ hd' ↦ fatLocate_bare hcap (hd' 0 hfree ▸ hparse)

theorem Anchored.of_agree {d' : Disk ss} (h : Anchored block vol d)
    (hd : ∀ lba, ¬vol.Owned lba → d' lba = d lba) : Anchored block vol d' :=
  fun d'' hd'' ↦ h d'' fun lba hlba ↦ (hd'' lba hlba).trans (hd lba hlba)

theorem anchored_body : Anchored block vol (body vol d) ↔ Anchored block vol d := by
  have hagree : ∀ lba, ¬vol.Owned lba → body vol d lba = d lba := fun lba hlba ↦
    body_of_not_onLog (fun hlog ↦ hlba (.inl hlog)) d
  exact ⟨fun h ↦ h.of_agree fun lba hlba ↦ (hagree lba hlba).symm, fun h ↦ h.of_agree hagree⟩

theorem Anchored.applyUpdates (h : Anchored block vol d) (hus : InVolume vol us) :
    Anchored block vol (applyUpdates d us) :=
  h.of_agree fun _ hlba ↦ applyUpdates_of_notMem fun u hu heq ↦ hlba (heq ▸ .inr (hus u hu))

/-- **Mounting** a volume that is found replays its log. -/
theorem mount_eq_replay (hm : Mountable vol.fatType block vol) {dev : Dev ss}
    (hanchor : Anchored block vol dev.disk) :
    mount vol.fatType block dev =
      (walReplayIfNeeded vol.fatType block vol dev).map fun dev ↦ (some vol, dev) := by
  have hconf : configureWalRegion vol.toFatBPB = vol := by
    obtain ⟨boot, bpb, -, heq⟩ := hm.parsed
    rw [heq, configureWalRegion_toFatBPB]
  have hmount := mount_of_locate (hanchor dev.disk fun _ _ ↦ rfl) (hconf.symm ▸ hm.valid)
  rwa [hconf] at hmount

/-- **Mounting** a volume whose log is idle changes nothing. -/
theorem mount_eq (hm : Mountable vol.fatType block vol) {dev : Dev ss}
    (hanchor : Anchored block vol dev.disk) (hidle : Idle vol dev.disk) :
    mount vol.fatType block dev = some (some vol, dev) := by
  have hreplay : walReplayIfNeeded vol.fatType block vol dev = some dev := by
    rcases eq_or_ne vol.walStartLBA 0 with hzero | hwal
    · cases vol.fatType <;>
      simp [walReplayIfNeeded, walReplayIfNeeded16, walReplayIfNeeded32, hzero]
    · exact walReplay_of_not_prepared hm (hidle hwal)
  rw [mount_eq_replay hm hanchor, hreplay]
  rfl

theorem Performed.mount_eq (hm : Mountable vol.fatType block vol) {dev dev' : Dev ss}
    (h : Performed vol dev us dev') (hus : InVolume vol us) (hanchor : Anchored block vol dev.disk)
    (hidle : Idle vol dev.disk) :
    Anchored block vol dev'.disk ∧ mount vol.fatType block dev' = some (some vol, dev') := by
  have hanchor' : Anchored block vol dev'.disk := by
    rw [← anchored_body, h.body_eq]
    exact (anchored_body.2 hanchor).applyUpdates hus
  exact ⟨hanchor', CapazOS.mount_eq hm hanchor' (h.idle hidle)⟩

/-- **A volume in good order**: its geometry is sound, it is found on the disk and stays found, and
its directories and chains are well formed. -/
structure GoodDisk (block : BlockDevice ss) (vol : Volume) (d : Disk ss) : Prop where
  sound : SoundVolume block vol
  anchored : Anchored block vol d
  tree : WellFormed vol (view vol d)

end CapazOS
