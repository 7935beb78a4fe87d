import CapazOS.Fat.Create16

/-!
# Deleting a FAT16 file

`fat16DeleteFile` looks for its slot with the scan of `fat16WriteFile`, which reports the first
deleted slot it passes and never the slot of the entry. So the path of a regular file is never
deleted (`fat16_delete_fails`).
-/

namespace CapazOS

open List

variable {e : FatDirEntry} {cs : List ℕ} {loc : SlotLoc} {path : NormalizedPath}

variable {ss : ℕ} {block : BlockDevice ss} {vol : Volume}
variable {dev : Dev ss}

/-! ### The operation -/

def freedChain (vol : Volume) (fat : Bytes) (e : FatDirEntry) : Option (List ℕ) :=
  if 2 ≤ e.firstCluster then fatClusterChain .fat16 fat e.firstCluster (fatMaxCluster vol) else none

theorem freedChain_range {fat : Bytes} (h : freedChain vol fat e = some cs) :
    ∀ c ∈ cs, 2 ≤ c ∧ c ≤ fatMaxCluster vol := by
  unfold freedChain at h
  split at h
  · exact fatClusterChain_range h
  · cases h

theorem EntryChain.freed (hs : SoundVolume block vol) (hty : vol.fatType = .fat16) {d : Disk ss}
    (h : EntryChain vol (view vol d) e cs) : (freedChain vol (table vol d) e).getD [] = cs := by
  rw [freedChain]
  rcases h with ⟨hlt, rfl⟩ | h
  · rw [if_neg (by omega)]
    rfl
  · have hwalk := h.walk hs
    rw [hty] at hwalk
    rw [if_pos h.1.start_range.1, hwalk]
    rfl

def markDeleted (slot : Bytes) : Bytes := writeAt slot 0 [0xE5]

theorem markDeleted_of_deleted {slot : Bytes} (h : slotKind slot = .deleted) : markDeleted slot = slot := by
  have hfirst : slot.getD 0 0 = 0xE5 := by
    unfold slotKind at h
    simp only at h
    split at h
    · cases h
    · split at h
      · assumption
      · split at h
        · cases h
        · split at h <;> cases h
  cases slot with
  | nil => rfl
  | cons b rest =>
    obtain rfl : b = 0xE5 := hfirst
    rfl

/-- **`fat16DeleteFile` from the entry and the slot on**: the chain is freed, the slot is marked,
and the call succeeds. -/
theorem fat16DeleteAt_performed (hs : SoundVolume block vol) (hty : vol.fatType = .fat16)
    (hfile : e.isDir = false) (hloc : ValidSlot vol (view vol dev.disk) loc) {s₀ : Bytes}
    (hslot : ((view vol dev.disk).slots loc.cluster)[loc.slot]? = some s₀) (safe : Bool) :
    ∃ dev', fat16DeleteAt block vol (table vol dev.disk) e loc safe dev = (true, dev') ∧
      Performed vol dev (deleteUpdates vol (body vol dev.disk)
        ((freedChain vol (table vol dev.disk) e).map (releaseClusters .fat16 (table vol dev.disk)))
        loc (markDeleted s₀)) dev' := by
  set fat? := (freedChain vol (table vol dev.disk) e).map
    (releaseClusters .fat16 (table vol dev.disk)) with hfat?
  -- the tables
  obtain ⟨dev₁, htables, hperf₁⟩ : ∃ dev₁, (freedChain vol (table vol dev.disk) e).elim (true, dev)
      (fun chain ↦ fat16WriteFatTables block vol (releaseClusters .fat16 (table vol dev.disk) chain) safe
        false dev) = (true, dev₁) ∧
      Performed vol dev (fat?.elim [] (tableUpdates ss vol)) dev₁ := by
    rcases hfreed : freedChain vol (table vol dev.disk) e with - | cs
    · rw [hfat?, hfreed]
      exact ⟨dev, rfl, .nil⟩
    · rw [hfat?, hfreed]
      exact fat16WriteFatTables_performed hs hty (by rw [length_releaseClusters, length_table]) safe dev
  have hloc₁ := hloc.of_disk dev₁.disk
  have hbody := hperf₁.body_eq
  -- the slot is as it was
  have hsector : slice (dev₁.disk (slotLBA vol loc)).1 (slotOffset vol loc) 32 = s₀ := by
    refine sector_slot hs hloc₁ ?_
    rw [← view_body hs dev₁.disk, hbody]
    have hkeep : (view vol (applyUpdates (body vol dev.disk) (fat?.elim [] (tableUpdates ss vol)))).slots loc.cluster =
        (view vol dev.disk).slots loc.cluster := by
      rw [hfat?]
      rcases freedChain vol (table vol dev.disk) e with - | cs
      · exact congrArg (View.slots · loc.cluster) (view_body hs dev.disk)
      · show (view vol (applyUpdates (body vol dev.disk) (tableUpdates ss vol
          (releaseClusters .fat16 (table vol dev.disk) cs)))).slots loc.cluster = _
        rw [view_tableUpdates hs _ (by rw [length_releaseClusters, length_table]), View.slots,
          View.setLink_block, view_body hs]
        rfl
    rw [hkeep, hslot]
  obtain ⟨dev', hmark, hperf₂⟩ := fat16WriteSlot_performed hs hty hloc₁
    (by decide : [(0xE5 : UInt8)].length ≤ 32) rfl safe
  rw [hsector] at hperf₂
  refine ⟨dev', ?_, ?_⟩
  · simp only [fat16DeleteAt, hfile, Bool.false_eq_true, if_false]
    rcases hfreed : freedChain vol (table vol dev.disk) e with - | cs
    · rw [hfreed] at htables
      rw [freedChain] at hfreed
      obtain rfl := (Prod.mk.inj htables).2
      simp only [hfreed, if_true]
      exact hmark
    · rw [hfreed, Option.elim_some] at htables
      rw [freedChain] at hfreed
      simp only [hfreed, htables, if_true]
      exact hmark
  · rw [← slotUpdate_body hs hloc₁, hbody] at hperf₂
    exact hperf₁.append hperf₂

theorem fat16DeleteFile_eq (hs : SoundVolume block vol) {dev₁ : Dev ss}
    (hmount : mount .fat16 block dev = some (some vol, dev₁)) (hroot : path.isRoot = false)
    {init : List Bytes} {name : Bytes} (hsegs : path.segments = init ++ [name]) {dir : Option ℕ}
    (hdir : fat16ResolveDir block vol dev₁.disk (table vol dev₁.disk) none init = some dir) (safe : Bool) :
    fat16DeleteFile block path safe dev =
      match fat16FindEntryOrFreeLocation block vol dev₁.disk (table vol dev₁.disk) dir name with
      | (some entry, some loc) =>
        some (fat16DeleteAt block vol (table vol dev₁.disk) entry loc safe dev₁)
      | _ => some (false, dev₁) := by
  unfold fat16DeleteFile
  rw [if_neg (by rw [hroot]; exact Bool.false_ne_true), hmount, Option.bind_some]
  rcases hfind : fat16FindEntryOrFreeLocation block vol dev₁.disk (table vol dev₁.disk) dir name with
    ⟨- | e, - | loc⟩ <;>
    simp only [readFAT_eq hs, hsegs, dropLast_concat, hdir, getLast?_concat, hfind]

/-- **A deletion that marks a deleted slot** frees the chain and changes nothing else. -/
theorem fat16DeleteAt_misses (hs : SoundVolume block vol) (hty : vol.fatType = .fat16)
    (hfile : e.isDir = false) (hloc : ValidSlot vol (view vol dev.disk) loc) {s₀ : Bytes}
    (hslot : ((view vol dev.disk).slots loc.cluster)[loc.slot]? = some s₀) (hkind : slotKind s₀ = .deleted)
    (safe : Bool) :
    ∃ dev', fat16DeleteAt block vol (table vol dev.disk) e loc safe dev = (true, dev') ∧
      view vol dev'.disk = (view vol dev.disk).setLink (released (view vol dev.disk).link
        ((freedChain vol (table vol dev.disk) e).getD [])) := by
  obtain ⟨dev', hdelete, hperf⟩ := fat16DeleteAt_performed hs hty hfile hloc hslot safe
  refine ⟨dev', hdelete, ?_⟩
  have hslots : s₀.length = 32 := length_of_slot hslot
  rw [← view_body hs dev'.disk, hperf.body_eq, view_deleteUpdates hs _ ?_ (hloc.of_disk _)
    (by rw [markDeleted_of_deleted hkind, hslots]), view_body hs, markDeleted_of_deleted hkind,
    View.setSlot_self (by rw [View.slots, View.setLink_block]; exact hslot)]
  · congr 1
    rcases hfreed : freedChain vol (table vol dev.disk) e with - | cs
    · funext c
      exact (released_of_notMem not_mem_nil).symm
    · have hlink := view_link_of_type hty dev.disk
      rw [hlink]
      show fatNextCluster vol.fatType (releaseClusters .fat16 (table vol dev.disk) cs) = _
      rw [hty]
      refine fatNextCluster_releaseClusters fun c hc ↦ ?_
      have hentry := hs.entry_le (freedChain_range hfreed c hc).2
      rw [hty] at hentry
      rwa [length_table]
  · intro fat hfat
    obtain ⟨cs, -, rfl⟩ := Option.map_eq_some_iff.1 hfat
    rw [length_releaseClusters, length_table]

/-! ### Nothing is deleted -/

theorem sameDirs_of_freed {v : View} (hw : Consistent vol v) (hlive : Live vol v loc e)
    (hfile : e.isDir = false) {freed : List ℕ} (hcs : EntryChain vol v e cs)
    (h : ∀ c, 2 ≤ c → c ≤ fatMaxCluster vol → (released v.link freed c = 0 ↔ v.link c = 0 ∨ c ∈ cs)) :
    SameDirs vol v (v.setLink (released v.link freed)) := by
  intro dir bs hr
  refine ⟨?_, fun b _ ↦ View.setLink_block ..⟩
  have hdir := hr.isDir
  cases hdir with
  | area => exact .area
  | chain hc =>
    refine .chain ⟨hc.1.congr fun c hmem ↦ ?_, hc.2⟩
    obtain ⟨hge, hle⟩ := hc.1.range c hmem
    -- a cluster of a directory is neither free nor part of the file
    have hne : released v.link freed c ≠ 0 := by
      rw [Ne, h c hge hle, not_or]
      exact ⟨hc.1.link_ne_zero hmem, fun hin ↦ hw.file_not_dir hlive hfile hcs hin hr (mem_map_of_mem hmem)⟩
    refine released_of_notMem fun hin ↦ hne ?_
    exact if_pos hin

/-- The file of `path`, in slot `loc` with the clusters `cs`, is deleted, and nothing else. -/
structure Deleted (block : BlockDevice ss) (vol : Volume) (path : NormalizedPath) (loc : SlotLoc)
    (cs : List ℕ) (d d' : Disk ss) : Prop where
  gone : resolveFat16PathEntry block vol d' (table vol d') path = none
  freed : ∀ c, 2 ≤ c → c ≤ fatMaxCluster vol → ((view vol d').link c = 0 ↔ (view vol d).link c = 0 ∨ c ∈ cs)
  others : ∀ {l : SlotLoc} {e : FatDirEntry}, l ≠ loc → (Live vol (view vol d') l e ↔ Live vol (view vol d) l e)
  chains : ∀ {l : SlotLoc} {e : FatDirEntry} {cs' : List ℕ}, l ≠ loc →
    Live vol (view vol d) l e → EntryChain vol (view vol d) e cs' → EntryChain vol (view vol d') e cs'

/-- What `fat16DeleteFile` does with the path of a regular file: it fails and changes nothing, or it
frees a chain, leaves the directories alone and succeeds. -/
theorem fat16DeleteFile_cases (hs : SoundVolume block vol) (hty : vol.fatType = .fat16) {dev₁ : Dev ss}
    (hmount : mount .fat16 block dev = some (some vol, dev₁)) (hw : Consistent vol (view vol dev₁.disk))
    (hpath : NormalPath path) (hres : Resolves vol (view vol dev₁.disk) (rootDir vol) path.segments loc e)
    (safe : Bool) :
    fat16DeleteFile block path safe dev = some (false, dev₁) ∨
      ∃ dev' freed, fat16DeleteFile block path safe dev = some (true, dev') ∧ view vol dev'.disk =
          (view vol dev₁.disk).setLink (released (view vol dev₁.disk).link freed) := by
  obtain ⟨init, name, dir, hsegs, hdir, -⟩ := hres
  have hroot := fat16ResolveDir_root hs hty hw.toChained (hpath.plain_init hsegs) dir
  obtain ⟨bs, hr⟩ := hroot.2 hdir
  have hparent := hroot.1.2 hdir
  rw [fat16DeleteFile_eq hs hmount hpath.isRoot hsegs hparent, fat16FindEntryOrFreeLocation_eq hs hty hr.isDir]
  have hscan := findFlat_spec (fatEncodeShortName name) name (dirSlots (view vol dev₁.disk) bs) none
  rcases hresult : findFlat (fatEncodeShortName name) name (dirSlots (view vol dev₁.disk) bs) none
    with ⟨- | e', - | free⟩
  · exact .inl rfl
  · exact .inl rfl
  · exact .inl rfl
  · rw [hresult] at hscan
    obtain ⟨-, -, -, -, -, hfree⟩ := hscan.entry_slot
    obtain ⟨s₀, hshown, hkind⟩ := hfree free rfl
    rcases hisDir : e'.isDir with - | -
    · obtain ⟨dev', hdelete, hview⟩ := fat16DeleteAt_misses hs hty hisDir
        (hr.isDir.validSlot hshown.mem) (mem_dirSlots.1 hshown.mem).2 hkind safe
      exact .inr ⟨dev', _, congrArg some hdelete, hview⟩
    · refine .inl (congrArg some ?_)
      rw [fat16DeleteAt, if_pos hisDir]

theorem normalPath_of_resolves {v : View} {raw : Bytes} (h : normalizePath raw = some path) {dir : Option ℕ}
    (hres : Resolves vol v dir path.segments loc e) : NormalPath path := by
  obtain ⟨init, name, -, hsegs, -⟩ := hres
  exact normalPath_of_segments h hsegs

/-- **FAT16 delete never deletes.** Whatever the volume, a call of `fat16DeleteFile` on the path of
a regular file does not have the effect of a deletion. A call that returns false leaves the mounted
disk as it is. -/
theorem fat16_delete_fails (hty : vol.fatType = .fat16) {dev dev₁ : Dev ss}
    (hmount : mount .fat16 block dev = some (some vol, dev₁))
    (hgood : GoodDisk block vol dev₁.disk) {raw : Bytes} {path : NormalizedPath}
    (hraw : normalizePath raw = some path) {loc : SlotLoc} {e : FatDirEntry}
    (hres : Resolves vol (view vol dev₁.disk) (rootDir vol) path.segments loc e)
    (hfile : e.isDir = false) {cs : List ℕ} (hcs : EntryChain vol (view vol dev₁.disk) e cs)
    (safe : Bool) :
    (¬∃ dev', fat16DeleteFile block path safe dev = some (true, dev') ∧
      Deleted block vol path loc cs dev₁.disk dev'.disk) ∧
    ∀ dev', fat16DeleteFile block path safe dev = some (false, dev') → dev' = dev₁ := by
  obtain ⟨hs, -, hw⟩ := hgood
  have hpath := normalPath_of_resolves hraw hres
  have hlive := hres.live hw.toChained hpath.plain
  rcases fat16DeleteFile_cases hs hty hmount hw.toConsistent hpath hres safe with
    hfalse | ⟨dev₂, freed, htrue, hview⟩
  · rw [hfalse]
    refine ⟨?_, fun dev' h ↦ (Prod.mk.inj (Option.some.inj h)).2.symm⟩
    rintro ⟨dev', h, -⟩
    cases (Prod.mk.inj (Option.some.inj h)).1
  · rw [htrue]
    refine ⟨?_, fun dev' h ↦ by cases (Prod.mk.inj (Option.some.inj h)).1⟩
    rintro ⟨dev', h, hdel⟩
    obtain rfl := (Prod.mk.inj (Option.some.inj h)).2
    have hfreed := hdel.freed
    rw [hview] at hfreed
    have hsame : SameDirs vol (view vol dev₁.disk) (view vol dev₂.disk) := by
      rw [hview]
      exact sameDirs_of_freed hw.toConsistent hlive hfile hcs hfreed
    have hgone := hdel.gone
    rw [resolveFat16PathEntry_congr hs hty hw.toConsistent hsame hpath,
      (resolveFat16PathEntry_iff hs hty hw.toChained hpath).2 ⟨loc, hres⟩] at hgone
    cases hgone

/-! ### A file behind a deleted slot -/

def holeSlot : Bytes := 0xE5 :: replicate 31 0

/-- The slot of a file `A` of one byte, in cluster 2. -/
def slotA : Bytes := 0x41 :: replicate 10 0x20 ++ 0x20 :: replicate 14 0 ++ [2, 0, 1, 0, 0, 0]

def fileA : FatDirEntry := { name := [0x41], attr := 0x20, firstCluster := 2, fileSize := 1 }

def table2 : Sector 512 :=
   ⟨padZeros 512 [0xF8, 0xFF, 0xFF, 0xFF, 0xFF, 0xFF], length_padZeros (by decide)⟩

def holedDir : Sector 512 :=  ⟨padZeros 512 (holeSlot ++ slotA), length_padZeros (by decide)⟩

def holed16 : Disk 512 := disk16 table2 holedDir

theorem holed16_records : dirRecords .fat16 (view vol16 holed16) [none] = [(⟨none, 1⟩, fileA)] := by
  rw [holed16, disk16_records]
  decide +kernel

theorem holed16_flat : Flat vol16 (view vol16 holed16) [none] := ⟨.area, fun hmem ↦ by
    have hty : vol16.fatType = .fat16 := rfl
    rw [hty, holed16_records] at hmem
    rw [(Prod.mk.inj (mem_singleton.1 hmem)).2]
    decide⟩

theorem holed16_link : (view vol16 holed16).link 2 = 0xFFFF := by
  rw [holed16, disk16_link _ _ (by decide)]
  decide +kernel

theorem holed16_chain : EntryChain vol16 (view vol16 holed16) fileA [2] := by
  refine .inr ⟨⟨.last ?_, by decide⟩, by decide⟩
  show linkNext .fat16 (view vol16 holed16).link 2 = none
  rw [linkNext, holed16_link]
  decide

theorem holed16_good : GoodDisk block16 vol16 holed16 := by
  refine ⟨vol16_sound, disk16_anchored _ _, holed16_flat.wellFormed holed16_records (by decide) ?_⟩
  intro x hx
  rw [mem_singleton.1 hx]
  exact ⟨[2], holed16_chain, fun _ ↦ by decide, by decide⟩

theorem holed16_resolves : Resolves vol16 (view vol16 holed16) (rootDir vol16) pathA.segments ⟨none, 1⟩ fileA := by
  refine ⟨[], [0x41], none, rfl, .nil, [none], .area, ?_⟩
  have hty : vol16.fatType = .fat16 := rfl
  rw [hty, holed16_records]
  decide

theorem holed16_slots : ∃ rest, dirSlots (view vol16 holed16) [none] =
    (⟨none, 0⟩, holeSlot) :: (⟨none, 1⟩, slotA) :: rest ∧ ∀ x ∈ rest, slotKind x.2 = .endMark := by
  obtain ⟨ends, hends, heq⟩ := disk16_slots table2 holedDir
  obtain ⟨more, hmore, hkinds⟩ : ∃ more, slotsOf holedDir.1 = holeSlot :: slotA :: more ∧
      ∀ s ∈ more, slotKind s = .endMark := by
    refine ⟨(slotsOf holedDir.1).drop 2, ?_⟩
    decide +kernel
  rw [dirSlots, flatMap_singleton, holed16, heq, hmore]
  refine ⟨blockSlots none (more ++ ends) 2, rfl, fun x hx ↦ ?_⟩
  rcases mem_append.1 (mem_of_getElem? (mem_blockSlots.1 hx).2.2) with hmem | hmem
  · exact hkinds _ hmem
  · exact hends _ hmem

theorem holed16_find : fat16FindEntryOrFreeLocation block16 vol16 holed16 (table vol16 holed16) none
    [0x41] = (some fileA, some ⟨none, 0⟩) := by
  obtain ⟨rest, hslots, -⟩ := holed16_slots
  rw [fat16FindEntryOrFreeLocation_eq vol16_sound rfl .area, hslots, findFlat]
  have hhole : slotKind holeSlot = .deleted := by decide
  have hlive : slotKind slotA = .live := by decide
  have hname : fatEncodeShortName [0x41] = some (slice slotA 0 11) := by decide
  have hentry : slotEntry [0x41] slotA = fileA := by decide
  simp [hhole, findFlat, hlive, if_pos hname, hentry]

/-- The call returns true, the path still resolves, and the cluster of the file is free. -/
theorem fat16_delete_leaves_entry : GoodDisk block16 vol16 holed16 ∧
    Resolves vol16 (view vol16 holed16) (rootDir vol16) pathA.segments ⟨none, 1⟩ fileA ∧
    EntryChain vol16 (view vol16 holed16) fileA [2] ∧
    ∃ dev', fat16DeleteFile block16 pathA true (Dev.start holed16) = some (true, dev') ∧
      (view vol16 dev'.disk).link 2 = 0 ∧
      resolveFat16PathEntry block16 vol16 dev'.disk (table vol16 dev'.disk) pathA = some fileA ∧
      ¬Deleted block16 vol16 pathA ⟨none, 1⟩ [2] holed16 dev'.disk := by
  have hw := holed16_good.tree.toConsistent
  have hpath : NormalPath pathA := normalPath_of_resolves
    (by decide : normalizePath [0x2F, 0x41] = some pathA) holed16_resolves
  refine ⟨holed16_good, holed16_resolves, holed16_chain, ?_⟩
  obtain ⟨rest, hslots, -⟩ := holed16_slots
  have hmem : (⟨none, 0⟩, holeSlot) ∈ dirSlots (view vol16 holed16) [none] := hslots ▸ mem_cons_self
  have hmount : mount .fat16 block16 (Dev.start holed16) = some (some vol16, Dev.start holed16) := disk16_mount _ _
  have hdir : IsDir vol16 (view vol16 (Dev.start holed16).disk) none [none] := .area
  obtain ⟨dev', hdelete, hview⟩ := fat16DeleteAt_misses vol16_sound rfl
    (by decide : fileA.isDir = false) (hdir.validSlot hmem) (mem_dirSlots.1 hmem).2 (by decide) true
  have hfreed : (freedChain vol16 (table vol16 (Dev.start holed16).disk) fileA).getD [] = [2] :=
    holed16_chain.freed vol16_sound rfl
  rw [hfreed] at hview
  have hresolve : resolveFat16PathEntry block16 vol16 dev'.disk (table vol16 dev'.disk) pathA = some fileA := by
    rw [resolveFat16PathEntry_congr vol16_sound rfl hw ?_ hpath]
    · exact (resolveFat16PathEntry_iff vol16_sound rfl hw.toChained hpath).2 ⟨_, holed16_resolves⟩
    · intro dir bs hr
      obtain ⟨rfl, rfl⟩ := holed16_flat.reach hr
      rw [hview]
      exact ⟨.area, fun b _ ↦ View.setLink_block ..⟩
  refine ⟨dev', ?_, ?_, hresolve, fun hdel ↦ ?_⟩
  · rw [fat16DeleteFile_eq vol16_sound hmount rfl (by rfl : pathA.segments = [] ++ [[0x41]]) rfl]
    have hfind : fat16FindEntryOrFreeLocation block16 vol16 (Dev.start holed16).disk
        (table vol16 (Dev.start holed16).disk) none [0x41] = (some fileA, some ⟨none, 0⟩) := holed16_find
    rw [hfind]
    exact congrArg some hdelete
  · rw [hview]
    rfl
  · have hgone := hdel.gone
    rw [hresolve] at hgone
    cases hgone

theorem fat16_delete_fails_holed : ¬∃ dev', fat16DeleteFile block16 pathA true (Dev.start holed16) = some (true, dev') ∧
      Deleted block16 vol16 pathA ⟨none, 1⟩ [2] holed16 dev'.disk :=
  (fat16_delete_fails rfl (disk16_mount _ _) holed16_good
    (by decide : normalizePath [0x2F, 0x41] = some pathA) holed16_resolves (by decide)
    holed16_chain true).1

end CapazOS
