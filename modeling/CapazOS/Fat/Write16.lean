import CapazOS.Fat.Find16
import CapazOS.Fat.FileChange

/-!
# The sector updates of the FAT16 operations

Each writing function of `Core/Fat16.swift` succeeds on a sound volume, and performs a list of
updates that is known in advance: the data clusters in order, every copy of the table, and one
sector with a slot. What they do to the view follows from the layout.
-/

namespace CapazOS

open List

variable {cs : List ℕ} {fat : Bytes} {loc : SlotLoc}

variable {ss : ℕ} {block : BlockDevice ss} {vol : Volume}

/-! ### Data -/

theorem runUpdates_succ (lba n : ℕ) (content : Bytes) : runUpdates ss lba (n + 1) content =
      (lba, chunk ss content 0) :: runUpdates ss (lba + 1) n (content.drop ss) := by
  have hchunk : ∀ i, chunk ss content (i + 1) = chunk ss (content.drop ss) i := by
    intro i
    simp only [chunk, slice, drop_drop, Nat.succ_mul, Nat.add_comm ss]
  rw [runUpdates, range_succ_eq_map, map_cons, map_map, runUpdates, Nat.add_zero]
  refine congrArg _ (map_congr_left fun i _ ↦ ?_)
  show (lba + (i + 1), chunk ss content (i + 1)) = _
  rw [hchunk, Nat.add_assoc, Nat.add_comm 1 i]

theorem fat16WriteSectors_performed (hbps : vol.bytesPerSector = ss) {n lba : ℕ} {rest : Bytes}
    (hus : ∀ u ∈ runUpdates ss lba n rest, u.1 < block.capacitySectors ∧ ¬vol.OnLog u.1)
    (dev : Dev ss) :
    ∃ dev', fat16WriteSectors block vol n lba rest dev = (true, rest.drop (n * ss), dev') ∧
      Performed vol dev (runUpdates ss lba n rest) dev' := by
  induction n generalizing lba rest dev with
  | zero =>
    refine ⟨dev, ?_, .nil⟩
    rw [fat16WriteSectors, Nat.zero_mul, drop_zero]
  | succ n ih =>
    rw [runUpdates_succ] at hus ⊢
    obtain ⟨⟨hlba, hlog⟩, hrest⟩ := forall_mem_cons.1 hus
    obtain ⟨dev₁, hput, hu⟩ := puts_write block vol lba (chunk ss rest 0) dev hlba hlog
    obtain ⟨dev', hloop, hperf⟩ := ih hrest dev₁
    refine ⟨dev', ?_, .cons hu hperf⟩
    have hchunk : padZeros ss (rest.take ss) = (chunk ss rest 0).1 := by simp [chunk, slice, drop_zero]
    simp only [fat16WriteSectors, hbps, hchunk, hput, if_true, hloop]
    rw [drop_drop, Nat.succ_mul, Nat.add_comm ss]

def dataUpdates (ss : ℕ) (vol : Volume) : List ℕ → Bytes → List (ℕ × Sector ss)
  | [], _ => []
  | c :: cs, rest =>
    if rest = [] then []
    else clusterUpdates ss vol c rest ++ dataUpdates ss vol cs (rest.drop (clusterSize vol))

section

variable (hs : SoundVolume block vol) (hcs : ∀ c ∈ cs, 2 ≤ c ∧ c ≤ fatMaxCluster vol)
include hs hcs

theorem inVolume_dataUpdates (data : Bytes) : InVolume vol (dataUpdates ss vol cs data) := by
  induction cs generalizing data with
  | nil => exact fun u hu ↦ nomatch hu
  | cons c cs ih =>
    obtain ⟨hc, hrest⟩ := forall_mem_cons.1 hcs
    rw [dataUpdates]
    split
    · exact fun u hu ↦ nomatch hu
    · exact (inVolume_clusterUpdates hs hc data).append (ih hrest _)

theorem fat16WriteClusters_performed (data : Bytes) (dev : Dev ss) :
    ∃ dev', fat16WriteClusters block vol cs data dev = (true, dev') ∧
      Performed vol dev (dataUpdates ss vol cs data) dev' := by
  induction cs generalizing data dev with
  | nil => exact ⟨dev, rfl, .nil⟩
  | cons c cs ih =>
    obtain ⟨hc, hrest⟩ := forall_mem_cons.1 hcs
    rw [fat16WriteClusters, dataUpdates]
    split
    · exact ⟨dev, rfl, .nil⟩
    · obtain ⟨dev₁, hcluster, hperf₁⟩ := fat16WriteSectors_performed hs.mountable.bounds.1
        ((inVolume_clusterUpdates hs hc data).can_put hs) dev
      obtain ⟨dev', hloop, hperf'⟩ := ih hrest (data.drop (clusterSize vol)) dev₁
      rw [← hs.mountable.clusterSize_eq] at hcluster
      refine ⟨dev', ?_, hperf₁.append hperf'⟩
      simp [hcluster, hloop]

theorem view_dataUpdates (hnodup : cs.Nodup) (data : Bytes) (hlen : data.length ≤ cs.length * clusterSize vol)
    (d : Disk ss) :
    (view vol (applyUpdates d (dataUpdates ss vol cs data))).link = (view vol d).link ∧ (∀ b, (∀ c ∈ cs, b ≠ some c) →
        (view vol (applyUpdates d (dataUpdates ss vol cs data))).block b = (view vol d).block b) ∧
      Holds (clusterSize vol) (view vol (applyUpdates d (dataUpdates ss vol cs data))) cs data := by
  induction cs generalizing data d with
  | nil =>
    have hnil : data = [] := length_eq_zero_iff.1 (by simpa using hlen)
    subst hnil
    exact ⟨rfl, fun _ _ ↦ rfl, .done⟩
  | cons c cs ih =>
    obtain ⟨hc, hrest⟩ := forall_mem_cons.1 hcs
    obtain ⟨hnot, hnodup⟩ := nodup_cons.1 hnodup
    rw [dataUpdates]
    split
    · next hnil =>
      subst hnil
      exact ⟨rfl, fun _ _ ↦ rfl, .done⟩
    · have hdrop : (data.drop (clusterSize vol)).length ≤ cs.length * clusterSize vol := by
        rw [length_cons, Nat.succ_mul] at hlen
        rw [length_drop]
        omega
      have hview := view_clusterUpdates hs d hc data
      rw [applyUpdates_append]
      obtain ⟨hlink, hblock, hholds⟩ := ih hrest hnodup (data.drop (clusterSize vol)) hdrop
        (applyUpdates d (clusterUpdates ss vol c data))
      rw [hview] at hlink hblock
      refine ⟨?_, ?_, .cons ?_ ?_ hholds⟩
      · rw [hlink, View.setBlock_link]
      · intro b hb
        obtain ⟨hbc, hbcs⟩ := forall_mem_cons.1 hb
        rw [hblock b hbcs, View.setBlock_block_of_ne _ hbc]
      · exact length_view_cluster hs.mountable _ hc.1
      · -- the later clusters do not touch this one
        have hself := hblock (some c) fun x hx heq ↦ hnot (Option.some.inj heq ▸ hx)
        rw [View.setBlock_block_self] at hself
        replace hself : (view vol _).cluster c = _ := hself
        rw [hself]
        exact prefix_append _ _

end

/-! ### Tables and slots -/

theorem fat16WriteFatTables_performed (hs : SoundVolume block vol) (hty : vol.fatType = .fat16)
    (hfat : fat.length = vol.sectorsPerFAT * ss) (safe : Bool) (dev : Dev ss) :
    ∃ dev', fat16WriteFatTables block vol fat safe false dev = (true, dev') ∧
      Performed vol dev (tableUpdates ss vol fat) dev' := by
  obtain ⟨hbps, -, hspf, -⟩ := hs.mountable.bounds
  have hge := hs.mountable.ss_ge
  have hm := hs.mountable
  rw [hty] at hm
  have hpos : 0 < vol.sectorsPerFAT * ss := Nat.mul_pos hspf (by omega)
  obtain ⟨dev', hput, hperf⟩ := putAll_performed (puts_fat16Put hm safe) ((inVolume_tableUpdates hs fat).can_put hs) dev
  refine ⟨dev', ?_, hperf⟩
  simp only [fat16WriteFatTables, hbps]
  rw [if_neg (by omega), fatTableSectors_eq hbps hfat, hput]

theorem fat16WriteSlot_performed (hs : SoundVolume block vol) (hty : vol.fatType = .fat16) {dev : Dev ss}
    (hloc : ValidSlot vol (view vol dev.disk) loc) {bytes s : Bytes} (hbytes : bytes.length ≤ 32)
    (hs' : s = writeAt (slice (dev.disk (slotLBA vol loc)).1 (slotOffset vol loc) 32) 0 bytes) (safe : Bool) :
    ∃ dev', fat16WriteSlot block vol loc bytes safe false dev = (true, dev') ∧
      Performed vol dev [slotUpdate vol dev.disk loc s] dev' := by
  have hm := hs.mountable
  rw [hty] at hm
  have hbps := hm.bounds.1
  obtain ⟨-, -, hoff, -⟩ := hs.slot_place hloc
  have hin := (inVolume_slotUpdate hs hloc dev.disk s).can_put hs _ mem_cons_self
  obtain ⟨dev', hput, hu⟩ := puts_fat16Put hm safe _ (slotUpdate vol dev.disk loc s).2 dev hin.1 hin.2
  refine ⟨dev', ?_, .single hu⟩
  have hlen := (dev.disk (slotLBA vol loc)).2
  have hread : block.read dev.disk (slotLBA vol loc) 1 = some (dev.disk (slotLBA vol loc)).1 := by
    rw [BlockDevice.read_eq _ hin.1, diskBytes_one]
  have hsector : writeAt (dev.disk (slotLBA vol loc)).1 (slotOffset vol loc) bytes =
      (slotUpdate vol dev.disk loc s).2.1 := by
    have hfit : slotOffset vol loc + 32 ≤ (dev.disk (slotLBA vol loc)).1.length := by omega
    have hlift : writeAt (dev.disk (slotLBA vol loc)).1 (slotOffset vol loc + 0) bytes = _ :=
      writeAt_lift hfit (by omega)
    rw [Nat.add_zero, ← hs'] at hlift
    exact hlift
  simp only [fat16WriteSlot, hread]
  rw [if_neg (by omega), hsector]
  exact hput

/-! ### The bytes of an entry -/

theorem fat16EntryBytes_fields {short : Bytes} (attr : UInt8) {fc size : ℕ}
    (hshort : short.length = 11) (hfc : fc < 2 ^ 32) (hsize : size < 2 ^ 32) :
    (fat16EntryBytes short attr fc size).length = 32 ∧ slice (fat16EntryBytes short attr fc size) 0 11 = short ∧
      (fat16EntryBytes short attr fc size).getD 11 0 = attr ∧
      slotCluster (fat16EntryBytes short attr fc size) = fc ∧
      readLE 4 (fat16EntryBytes short attr fc size) 28 = size := by
  set e₁ := writeAt (replicate 32 (0 : UInt8)) 0 short with he₁
  have hlen₁ : e₁.length = 32 := by rw [he₁, length_writeAt, length_replicate]
  have hname : slice e₁ 0 11 = short := by
    have hself : slice e₁ 0 short.length = short := slice_writeAt_self (by rw [length_replicate, hshort]; omega)
    rwa [hshort] at hself
  set e₂ := e₁.set 11 attr with he₂
  have hset : e₂ = writeAt e₁ 11 [attr] := rfl
  have hlen₂ : e₂.length = 32 := by rw [he₂, length_set, hlen₁]
  have hname₂ : slice e₂ 0 11 = short := by
    have hfit : 11 + [attr].length ≤ e₁.length := by rw [hlen₁, length_singleton]; omega
    rw [hset, slice_writeAt_disjoint hfit (.inl (by omega)), hname]
  have hattr₂ : e₂.getD 11 0 = attr := by
    rw [getD_eq_getElem?_getD, he₂, getElem?_set_self (by omega), Option.getD_some]
  obtain ⟨hlen, hslice, hattr, hcluster, hsize'⟩ := setSlotFields_fields hlen₂ hfc hsize
  exact ⟨hlen, hslice.trans hname₂, hattr.trans hattr₂, hcluster, hsize'⟩

/-! ### A whole write -/

def writeUpdates (vol : Volume) (d : Disk ss) (cs : List ℕ) (data fat : Bytes) (loc : SlotLoc)
    (s : Bytes) : List (ℕ × Sector ss) :=
  let us := dataUpdates ss vol cs data ++ tableUpdates ss vol fat
  us ++ [slotUpdate vol (applyUpdates d us) loc s]

theorem inVolume_writeUpdates (hs : SoundVolume block vol) {d : Disk ss}
    (hcs : ∀ c ∈ cs, 2 ≤ c ∧ c ≤ fatMaxCluster vol) (data fat : Bytes) (hloc : ValidSlot vol (view vol d) loc)
    (s : Bytes) : InVolume vol (writeUpdates vol d cs data fat loc s) :=
  ((inVolume_dataUpdates hs hcs data).append (inVolume_tableUpdates hs fat)).append (inVolume_slotUpdate hs hloc _ s)

/-- **`fat16WriteFile` from the reshaped chain on**: data, tables and entry are written in this
order, and the call succeeds. -/
theorem fat16WriteAt_performed (hs : SoundVolume block vol) (hty : vol.fatType = .fat16) {dev : Dev ss}
    (cur : FatDirEntry) {data : Bytes} {chain : List ℕ} {short : Bytes}
    (hchain : (if 2 ≤ cur.firstCluster then
      (fatClusterChain .fat16 (table vol dev.disk) cur.firstCluster (fatMaxCluster vol)).getD [] else []) = chain)
    (hreshape : fat16Reshape vol (table vol dev.disk) chain (clustersFor vol data) = some (cs, fat))
    (hcs : ∀ c ∈ cs, 2 ≤ c ∧ c ≤ fatMaxCluster vol) (hfat : fat.length = vol.sectorsPerFAT * ss)
    (hdata : data.length < 2 ^ 32) (hshort : fatEncodeShortName cur.name = some short)
    (hloc : ValidSlot vol (view vol dev.disk) loc) (safe : Bool) :
    ∃ dev', fat16WriteAt block vol (table vol dev.disk) cur loc data safe false dev = some (true, dev') ∧
      Performed vol dev (writeUpdates vol (body vol dev.disk) cs data fat loc
        (fat16EntryBytes short cur.attr (cs.head?.getD 0) data.length)) dev' := by
  have hsize := hs.mountable.clusterSize_pos
  obtain ⟨dev₁, hclusters, hperf₁⟩ := fat16WriteClusters_performed hs hcs data dev
  obtain ⟨dev₂, htables, hperf₂⟩ := fat16WriteFatTables_performed hs hty hfat safe dev₁
  have hbody := (hperf₁.append hperf₂).body_eq
  have hloc₂ := hloc.of_disk dev₂.disk
  set s := fat16EntryBytes short cur.attr (cs.head?.getD 0) data.length with hs_def
  have hslen : s.length = 32 := by
    simp [hs_def, fat16EntryBytes, length_writeLE, length_set, length_writeAt]
  -- a slot of 32 bytes is replaced as a whole
  have hsectorLen : slotOffset vol loc + 32 ≤ (dev₂.disk (slotLBA vol loc)).1.length := by
    rw [(dev₂.disk (slotLBA vol loc)).2]
    exact (hs.slot_place hloc₂).2.2.1
  have hwhole : s = writeAt (slice (dev₂.disk (slotLBA vol loc)).1 (slotOffset vol loc) 32) 0 s := by
    have hself := slice_writeAt_self (by rw [length_slice hsectorLen, hslen] :
      0 + s.length ≤ (slice (dev₂.disk (slotLBA vol loc)).1 (slotOffset vol loc) 32).length)
    have htotal : (writeAt (slice (dev₂.disk (slotLBA vol loc)).1 (slotOffset vol loc) 32) 0
        s).length = s.length := by rw [length_writeAt, length_slice hsectorLen, hslen]
    rw [← htotal, slice_zero_length] at hself
    exact hself.symm
  obtain ⟨dev', hslot, hperf₃⟩ := fat16WriteSlot_performed hs hty hloc₂ hslen.le hwhole safe
  refine ⟨dev', ?_, ?_⟩
  · simp only [fat16WriteAt, hchain, hreshape, hclusters, hshort]
    rw [if_neg (by omega), if_neg (by simp), if_neg (by omega)]
    simp only [htables, Bool.not_true, Bool.false_eq_true, if_false, fat16WriteDirEntry]
    rw [← hs_def, hslot]
    rfl
  · rw [← slotUpdate_body hs hloc₂, hbody] at hperf₃
    exact (hperf₁.append hperf₂).append hperf₃

theorem view_writeUpdates (hs : SoundVolume block vol) (d : Disk ss)
    (hcs : ∀ c ∈ cs, 2 ≤ c ∧ c ≤ fatMaxCluster vol) (hnodup : cs.Nodup) {data : Bytes}
    (hdata : data.length ≤ cs.length * clusterSize vol) (hfat : fat.length = vol.sectorsPerFAT * ss)
    (hloc : ValidSlot vol (view vol d) loc) (hapart : ∀ c ∈ cs, loc.cluster ≠ some c) {s : Bytes}
    (hslot : s.length = 32) :
    WrittenTo (clusterSize vol) (view vol d) (view vol (applyUpdates d (writeUpdates vol d cs data fat loc s)))
      (fatNextCluster vol.fatType fat) cs data loc s := by
  obtain ⟨-, hblock, hholds⟩ := view_dataUpdates hs hcs hnodup data hdata d
  set d₁ := applyUpdates d (dataUpdates ss vol cs data) with hd₁
  have hview : view vol (applyUpdates d (writeUpdates vol d cs data fat loc s)) =
      ((view vol d₁).setLink (fatNextCluster vol.fatType fat)).setSlot loc s := by
    rw [writeUpdates, applyUpdates_append, view_slotUpdate hs (hloc.of_disk _) hslot,
      applyUpdates_append, view_tableUpdates hs _ hfat]
  have hslots : ((view vol d₁).setLink (fatNextCluster vol.fatType fat)).slots loc.cluster =
      (view vol d).slots loc.cluster := by
    rw [View.slots, View.setLink_block, hblock loc.cluster hapart]
    rfl
  refine ⟨?_, ?_, fun b hb hbcs ↦ ?_, ?_⟩
  · rw [hview, View.setSlot_link, View.setLink_link]
  · rw [hview, View.slots_setSlot_self hslot (by rw [hslots]; exact hloc.lt), hslots]
  · rw [hview, View.block_setSlot_of_ne hb, View.setLink_block, hblock b hbcs]
  · refine hholds.congr fun c hc ↦ ?_
    rw [hview, View.block_setSlot_of_ne (hapart c hc).symm, View.setLink_block]

end CapazOS
