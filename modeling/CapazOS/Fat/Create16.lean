import CapazOS.Fat.Flat
import CapazOS.Fat.Write16

/-!
# Creating a FAT16 file

`fat16WriteFile` on a path without an entry takes the first free slot of the directory, deleted or
the end marker, and a chain of free clusters. The volume stays consistent, the new entry is the one
the scan shows, and the data is read back (`fat16_create_then_read`).
-/

namespace CapazOS

open List

variable {s name data : Bytes} {e : FatDirEntry} {vol : Volume} {dir : Option ℕ} {bs : List (Option ℕ)}
  {loc : SlotLoc} {path : NormalizedPath} {init : List Bytes} {v : View}

variable {ss : ℕ}
variable {dev : Dev ss}

/-! ### Records of a slot -/

theorem slotRecord_fields {lfn : List (List ℕ)} (h : slotRecord lfn s = some e) :
    e.attr = s.getD 11 0 ∧ e.firstCluster = slotCluster s ∧ e.fileSize = readLE 4 s 28 := by
  unfold slotRecord at h
  split at h
  · obtain ⟨name, -, rfl⟩ := Option.map_eq_some_iff.1 h
    exact ⟨rfl, rfl, rfl⟩
  · cases h

theorem notDirSlot_of_attr (h : s.getD 11 0 &&& 0x10 = 0) : NotDirSlot s := by
  intro lfn e hrec
  rw [FatDirEntry.isDir, (slotRecord_fields hrec).1, h]
  rfl

theorem notDirSlot_of_kind (h : slotKind s ≠ .live) : NotDirSlot s :=
  fun hrec ↦ absurd (kind_of_slotRecord hrec) h

theorem slotKind_live (hzero : s.getD 0 0 ≠ 0x00) (hdel : s.getD 0 0 ≠ 0xE5) (hlong : s.getD 11 0 ≠ 0x0F)
    (hlabel : s.getD 11 0 &&& 0x08 = 0) : slotKind s = .live := by
  unfold slotKind
  rw [if_neg hzero, if_neg hdel, if_neg hlong, if_neg (not_not.2 hlabel)]

/-! ### A free slot is taken -/

/-- The view after a new entry, with a chain of free clusters, was written to a free slot of a
directory. -/
structure Created (vol : Volume) (v v' : View) (bs : List (Option ℕ)) (loc : SlotLoc) (s : Bytes)
    (cs : List ℕ) (data : Bytes) : Prop where
  ty : vol.fatType = .fat16
  tree : Consistent vol v
  reach : ∃ dir, Reach vol v dir bs
  tail : TailFree v bs
  slot : ∃ s₀, Shown v bs loc s₀ ∧ (slotKind s₀ = .deleted ∨ slotKind s₀ = .endMark)
  free : ∀ c ∈ cs, v.link c = 0
  written : WrittenTo (clusterSize vol) v v' v'.link cs data loc s
  links : ∀ c ∉ cs, v'.link c = v.link c
  live : slotKind s = .live
  file : s.getD 11 0 &&& 0x10 = 0
  chain : slotCluster s < 2 ∧ cs = [] ∨ ChainFrom vol v' (slotCluster s) cs
  size : readLE 4 s 28 ≤ cs.length * clusterSize vol

namespace Created

variable {v' : View} {cs : List ℕ}

section

variable (h : Created vol v v' bs loc s cs data)
include h

theorem mem_block : loc.cluster ∈ bs := by
  obtain ⟨s₀, hshown, -⟩ := h.slot
  exact (mem_dirSlots.1 hshown.mem).1

theorem spare : ∀ c ∈ cs, Spare vol v loc c := fun c hc ↦ .inl (h.free c hc)

theorem fileChange : ∃ s₀, FileChange v v' loc s₀ s cs ∧ (loc, s₀) ∈ dirSlots v bs ∧
      (slotKind s₀ = .deleted ∨ slotKind s₀ = .endMark) := by
  obtain ⟨s₀, hshown, hkind⟩ := h.slot
  exact ⟨s₀, h.written.fileChange (fun c hc ↦ hc) (mem_dirSlots.1 hshown.mem).2 h.links, hshown.mem, hkind⟩

theorem changesOnly : ChangesOnly vol v v' loc := by
  obtain ⟨dir, hr⟩ := h.reach
  obtain ⟨s₀, hfc, hmem, hkind⟩ := h.fileChange
  have hw := hfc.slotWritten h.tree h.spare
  have hd : NotDirSlot s := notDirSlot_of_attr h.file
  rcases hkind with hdel | hend
  · have hq₀ : Quiet s₀ := by rw [Quiet, hdel]; decide
    have hq : Quiet s := by rw [Quiet, h.live]; decide
    exact changesOnly_of_quiet hw hq₀ hq (notDirSlot_of_kind (by rw [hdel]; decide)) hd
  · exact changesOnly_of_end h.ty h.tree hw hr h.mem_block hend (h.tail.endsAfter hmem hend) hd

theorem shown : Shown v' bs loc s := by
  obtain ⟨dir, hr⟩ := h.reach
  obtain ⟨s₀, hshown, -⟩ := h.slot
  obtain ⟨s₁, hfc, hmem, -⟩ := h.fileChange
  have hw := hfc.slotWritten h.tree h.spare
  obtain rfl := Option.some.inj (hw.old.symm.trans (mem_dirSlots.1 hshown.mem).2)
  exact hw.shown_self hr hshown

theorem entryChain {lfn : List (List ℕ)} (hrec : slotRecord lfn s = some e) :
    EntryChain vol v' e cs ∧ Covers vol e cs := by
  obtain ⟨-, hfc, hsize⟩ := slotRecord_fields hrec
  refine ⟨?_, fun _ ↦ hsize ▸ h.size⟩
  rw [EntryChain, hfc]
  exact h.chain

theorem keeps {l : SlotLoc} {cs' : List ℕ} (hlive : Live vol v l e) (hne : l ≠ loc)
    (hcs' : EntryChain vol v e cs') : EntryChain vol v' e cs' := by
  obtain ⟨s₀, hfc, -⟩ := h.fileChange
  exact hfc.entryChain h.tree h.spare hlive hne hcs'

theorem fits (hlive : Live vol v' loc e) : ChangesOnly.FitsIn vol v v' loc e := by
  obtain ⟨dir, bs', -, hmem, -⟩ := hlive
  obtain ⟨-, -, -, -, -, hrec⟩ := mem_dirRecords.1 hmem
  have hget : (v'.slots loc.cluster)[loc.slot]? = some s := (mem_dirSlots.1 h.shown.mem).2
  rw [recordAt, hget, Option.bind_some] at hrec
  obtain ⟨hchain, hcov⟩ := h.entryChain hrec
  refine ⟨cs, hchain, hcov, fun hlive' hne hcs' c hc ↦ ?_, fun hroot hcs₀ c hc₀ hc ↦ ?_⟩
  · exact (h.spare c hc).not_entry h.tree hlive' hne hcs'
  · exact (h.spare c hc).not_root h.tree hroot hcs₀ hc₀

theorem consistent : Consistent vol v' := h.changesOnly.consistent h.tree h.keeps h.fits

end

end Created

/-! ### The operation -/

theorem length_of_encode {short : Bytes} (h : fatEncodeShortName name = some short) : short.length = 11 := by
  unfold fatEncodeShortName at h
  split at h
  · cases h
  · split at h
    · cases h
    · split at h
      · cases h
      · next hlen =>
        obtain rfl := Option.some.inj h
        rw [length_append, length_padSpaces (by omega), length_padSpaces (by omega)]

theorem length_le_clustersFor (hpos : 0 < clusterSize vol) (data : Bytes) :
    data.length ≤ clustersFor vol data * clusterSize vol := by
  unfold clustersFor
  split
  · next hnil => rw [hnil, Nat.zero_mul, length_nil]
  · rw [requiredClusters]
    have hdiv := Nat.div_add_mod (data.length + clusterSize vol - 1) (clusterSize vol)
    have hmod := Nat.mod_lt (data.length + clusterSize vol - 1) hpos
    rw [Nat.mul_comm] at hdiv
    omega

section

variable {block : BlockDevice ss}

theorem fat16Reshape_nil (vol : Volume) (fat : Bytes) (required : ℕ) : fat16Reshape vol fat [] required =
      if (freeClusters vol (fatNextCluster .fat16 fat)).length < required then none
      else some ((freeClusters vol (fatNextCluster .fat16 fat)).take required,
        linkClusters .fat16 fat ((freeClusters vol (fatNextCluster .fat16 fat)).take required)) := by
  unfold fat16Reshape
  rw [length_nil, Nat.sub_zero, fatFindFreeClusters_eq]
  rcases Nat.eq_zero_or_pos required with rfl | hpos
  · rw [if_neg (Nat.lt_irrefl 0), if_neg (Nat.lt_irrefl 0), if_neg (Nat.not_lt_zero _), take_zero]
    rfl
  · rw [if_pos hpos]
    split <;> simp_all [growTable_nil]

theorem length_freeClusters_le (vol : Volume) (link : ℕ → ℕ) :
    (freeClusters vol link).length ≤ fatMaxCluster vol - 1 := by
  have h := length_filter_le (fun c ↦ decide (link c = 0)) (range' 2 (fatMaxCluster vol - 1))
  rwa [length_range'] at h

theorem fat16WriteAt_new (hs : SoundVolume block vol) (hty : vol.fatType = .fat16)
    (hw : Consistent vol (view vol dev.disk)) (hr : Reach vol (view vol dev.disk) dir bs)
    (htail : TailFree (view vol dev.disk) bs) {s₀ : Bytes} (hshown : Shown (view vol dev.disk) bs loc s₀)
    (hkind : slotKind s₀ = .deleted ∨ slotKind s₀ = .endMark) {short : Bytes}
    (hshort : fatEncodeShortName name = some short) (hzero : short.getD 0 0 ≠ 0x00)
    (hdel : short.getD 0 0 ≠ 0xE5) (hdata : data.length < 2 ^ 32)
    (henough : clustersFor vol data ≤ (freeClusters vol (view vol dev.disk).link).length) (safe : Bool) :
    ∃ dev' us cs s, fat16WriteAt block vol (table vol dev.disk)
        { name, attr := 0x20, firstCluster := 0, fileSize := 0 } loc data safe false dev =
        some (true, dev') ∧
      Performed vol dev us dev' ∧ InVolume vol us ∧ slice s 0 11 = short ∧
      readLE 4 s 28 = data.length ∧
      Created vol (view vol dev.disk) (view vol dev'.disk) bs loc s cs data := by
  have hm := hs.mountable
  rw [hty] at hm
  have hmax := hm.fat16_max_lt
  have hmax' : fatMaxCluster vol < 0xFFF7 := hmax
  have hlink := view_link_of_type hty dev.disk
  set free := freeClusters vol (view vol dev.disk).link with hfree_def
  set cs := free.take (clustersFor vol data) with hcs_def
  have hmem : ∀ c ∈ cs, (2 ≤ c ∧ c ≤ fatMaxCluster vol) ∧ (view vol dev.disk).link c = 0 :=
    fun c hc ↦ mem_freeClusters.1 (mem_of_mem_take hc)
  have hrange : ∀ c ∈ cs, 2 ≤ c ∧ c ≤ fatMaxCluster vol := fun c hc ↦ (hmem c hc).1
  have hnodup : cs.Nodup := (nodup_freeClusters vol _).sublist (take_sublist _ _)
  have hlen : cs.length = clustersFor vol data := length_take_of_le henough
  set fat := linkClusters .fat16 (table vol dev.disk) cs with hfat_def
  have hfat : fat.length = vol.sectorsPerFAT * ss := by rw [hfat_def, length_linkClusters, length_table]
  have hreshape : fat16Reshape vol (table vol dev.disk) [] (clustersFor vol data) = some (cs, fat) := by
    rw [fat16Reshape_nil, ← hlink, ← hfree_def, if_neg (Nat.not_lt.2 henough)]
  -- the slot lies in a block of a directory, so apart from the free clusters
  obtain ⟨hblock, hget⟩ := mem_dirSlots.1 hshown.mem
  have hvalid := hr.isDir.validSlot hshown.mem
  have hapart : ∀ c ∈ cs, loc.cluster ≠ some c := fun c hc heq ↦ hr.isDir.link_ne_zero (heq ▸ hblock) (hmem c hc).2
  obtain ⟨dev', hwrite, hperf⟩ := fat16WriteAt_performed hs hty ⟨name, 0x20, 0, 0⟩ rfl
    hreshape hrange hfat hdata hshort hvalid safe
  have hfc : cs.head?.getD 0 < 2 ^ 32 := by
    rcases hhead : cs.head? with - | c
    · exact Nat.two_pow_pos 32
    · have := (hrange c (mem_of_mem_head? hhead)).2
      show c < 2 ^ 32
      omega
  obtain ⟨hslen, hsname, hsattr, hscluster, hssize⟩ := fat16EntryBytes_fields 0x20 (length_of_encode hshort) hfc hdata
  have hwritten := view_writeUpdates hs (body vol dev.disk) hrange hnodup
    ((length_le_clustersFor hm.clusterSize_pos data).trans (by rw [hlen])) hfat
    (hvalid.of_disk _) hapart hslen
  rw [← hperf.body_eq, view_body hs, view_body hs] at hwritten
  have hlink' : (view vol dev'.disk).link = threaded .fat16 (view vol dev.disk).link cs := by
    rw [hwritten.link_eq, hty, hfat_def, fatNextCluster_linkClusters, hlink]
    intro c hc
    have hentry := hs.entry_le (hrange c hc).2
    rw [hty] at hentry
    have hle := (hrange c hc).2
    refine ⟨by rwa [length_table], ?_⟩
    show c < 0xFFF8
    omega
  have hfirst : (fat16EntryBytes short 0x20 (cs.head?.getD 0) data.length).getD 0 0 = short.getD 0 0 := by
    rw [← getD_slice_zero _ (by omega : 0 < 11), hsname]
  refine ⟨dev', _, cs, _, hwrite, hperf,
    inVolume_writeUpdates hs hrange data fat (hvalid.of_disk _) _, hsname, hssize, ?_⟩
  refine ⟨hty, hw, ⟨dir, hr⟩, htail, ⟨s₀, hshown, hkind⟩, fun c hc ↦ (hmem c hc).2,
    { hwritten with link_eq := rfl }, fun c hc ↦ ?_, ?_, ?_, ?_, ?_⟩
  · rw [hlink', threaded_of_notMem hc]
  · refine slotKind_live ?_ ?_ ?_ ?_
    · rwa [hfirst]
    · rwa [hfirst]
    · rw [hsattr]
      decide
    · rw [hsattr]
      decide
  · rw [hsattr]
    decide
  · rw [hscluster]
    rcases hcons : cs with - | ⟨c, rest⟩
    · exact .inl ⟨Nat.two_pos, rfl⟩
    · refine .inr ⟨?_, ?_⟩
      · rw [hlink', hty, hcons]
        refine chain_of_free ?_ (hcons ▸ hnodup) (hcons ▸ hrange)
        show fatMaxCluster vol < 0xFFF8
        omega
      · have hle : free.length ≤ fatMaxCluster vol - 1 := length_freeClusters_le vol _
        rw [← hcons, chainGuard]
        omega
  · rw [hssize, hlen]
    exact length_le_clustersFor hm.clusterSize_pos data

theorem fat16WriteAt_new_full (hs : SoundVolume block vol) (hty : vol.fatType = .fat16)
    (hfew : (freeClusters vol (view vol dev.disk).link).length < clustersFor vol data) (loc : SlotLoc)
    (safe : Bool) :
    fat16WriteAt block vol (table vol dev.disk)
      { name, attr := 0x20, firstCluster := 0, fileSize := 0 } loc data safe false dev =
      some (false, dev) := by
  have hlink := view_link_of_type hty dev.disk
  have hpos := hs.mountable.clusterSize_pos
  rw [hlink] at hfew
  simp only [fat16WriteAt, fat16Reshape_nil, if_pos hfew, if_neg (by omega : ¬2 ≤ 0)]
  rw [if_neg (by omega)]

theorem fat16WriteFile_eq (hs : SoundVolume block vol) {dev₁ : Dev ss}
    (hmount : mount .fat16 block dev = some (some vol, dev₁)) (hroot : path.isRoot = false)
    (hsegs : path.segments = init ++ [name])
    (hdir : fat16ResolveDir block vol dev₁.disk (table vol dev₁.disk) none init = some dir) (data : Bytes)
    (safe simulateCrash : Bool) :
    fat16WriteFile block path data safe simulateCrash dev =
      match fat16FindEntryOrFreeLocation block vol dev₁.disk (table vol dev₁.disk) dir name with
      | (_, none) => some (false, dev₁)
      | (existing, some loc) =>
        let cur := existing.getD { name, attr := 0x20, firstCluster := 0, fileSize := 0 }
        if cur.isDir then some (false, dev₁)
        else fat16WriteAt block vol (table vol dev₁.disk) cur loc data safe simulateCrash dev₁ := by
  unfold fat16WriteFile
  rw [if_neg (by rw [hroot]; exact Bool.false_ne_true), hmount, Option.bind_some]
  simp only [readFAT_eq hs, hsegs, dropLast_concat, hdir, getLast?_concat]
  rcases fat16FindEntryOrFreeLocation block vol dev₁.disk (table vol dev₁.disk) dir name with
    ⟨e, - | loc⟩ <;> rfl

end

/-! ### Create, then read -/

def NoLongNames (v : View) (bs : List (Option ℕ)) : Prop :=
  ∀ x ∈ dirSlots v bs, slotKind x.2 ≠ .longName

theorem lfnBefore_eq_nil {slots : List Bytes} (h : ∀ s ∈ slots, slotKind s ≠ .longName) (j : ℕ) :
    lfnBefore slots j = [] := by
  have hfold : ∀ l : List Bytes, (∀ s ∈ l, slotKind s ≠ .longName) → l.foldl lfnAfter [] = [] := by
    intro l hl
    induction l with
    | nil => rfl
    | cons s l ih =>
      obtain ⟨hs, hrest⟩ := forall_mem_cons.1 hl
      have hafter : lfnAfter [] s = [] := by
        unfold lfnAfter
        split
        · next hkind => exact absurd hkind hs
        · rfl
      rw [foldl_cons, hafter]
      exact ih hrest
  exact hfold _ fun s hs ↦ h s (mem_of_mem_take hs)

theorem record_of_shown (hlong : NoLongNames v bs) (hshown : Shown v bs loc s) (hlive : slotKind s = .live)
    (hname : fatDecodeShortName s = some name) : (loc, slotEntry name s) ∈ dirRecords .fat16 v bs := by
  refine mem_dirRecords16.2 ⟨s, hshown, ?_⟩
  have hnil : lfnBefore (v.slots loc.cluster) loc.slot = [] := by
    refine lfnBefore_eq_nil (fun x hx ↦ ?_) _
    obtain ⟨j, hj⟩ := mem_iff_getElem?.1 hx
    exact hlong (⟨loc.cluster, j⟩, x) (mem_dirSlots.2 ⟨(mem_dirSlots.1 hshown.mem).1, hj⟩)
  rw [hnil, slotRecord, hlive]
  simp only [slotName, hname]
  rfl

namespace Created

variable {v' : View} {cs : List ℕ}

theorem noLongNames (h : Created vol v v' bs loc s cs data) (hlong : NoLongNames v bs) : NoLongNames v' bs := by
  obtain ⟨dir, hr⟩ := h.reach
  obtain ⟨s₀, hfc, -⟩ := h.fileChange
  have hw := hfc.slotWritten h.tree h.spare
  rintro ⟨l, x⟩ hx
  obtain ⟨hb, hget⟩ := mem_dirSlots.1 hx
  rcases eq_or_ne l.cluster loc.cluster with heq | hne
  · rw [heq, h.written.slots_eq, getElem?_set] at hget
    split at hget
    · split at hget
      · rw [← Option.some.inj hget, h.live]
        decide
      · cases hget
    · exact hlong (⟨loc.cluster, l.slot⟩, x) (mem_dirSlots.2 ⟨h.mem_block, hget⟩)
  · rw [hw.other hr _ hb hne] at hget
    exact hlong (l, x) (mem_dirSlots.2 ⟨hb, hget⟩)

section

variable (h : Created vol v v' bs loc s cs data) (hw : WellFormed vol v) (hlong : NoLongNames v bs)
  (hname : fatDecodeShortName s = some name)
  (hnew : ∀ {l : SlotLoc} {e : FatDirEntry}, (l, e) ∈ dirRecords .fat16 v bs → e.name ≠ name)
include h hw hlong hname hnew

/-- **The volume stays well formed**, and the new entry is shown under its name. -/
theorem wellFormed : WellFormed vol v' ∧ (loc, slotEntry name s) ∈ dirRecords .fat16 v' bs := by
  have hrecord := record_of_shown (h.noLongNames hlong) h.shown h.live hname
  refine ⟨h.changesOnly.wellFormed hw h.keeps h.fits ?_, hrecord⟩
  intro dir' bs' e hr' he l e' hne he'
  -- a record in the new slot is the new entry, and its directory the given one
  obtain rfl := dirRecords_unique he (h.ty ▸ hrecord)
  obtain ⟨dir, hr⟩ := h.reach
  obtain rfl := hw.toConsistent.dir_unique hr' hr (mem_block_of_mem_dir he).1 h.mem_block
  obtain rfl := hr'.isDir.unique hr.isDir
  rw [h.ty] at he'
  exact hnew he'

theorem fileAt (hsize : readLE 4 s 28 = data.length) (hinit : ∀ x ∈ init, PlainName x)
    (hdir : ResolvesDir vol v (rootDir vol) init dir) (hr : Reach vol v dir bs) :
    FileAt vol v' (init ++ [name]) data := by
  obtain ⟨hw', hrecord⟩ := h.wellFormed hw hlong hname hnew
  obtain ⟨bs₀, hr₀⟩ := hw.reach_root
  have hc := h.changesOnly
  have hr' := (hc.reach_iff h.tree).2 hr
  rw [← h.ty] at hrecord
  have hfile : (slotEntry name s).isDir = false := by
    show decide (s.getD 11 0 &&& 0x10 ≠ 0) = false
    rw [h.file]
    rfl
  refine ⟨loc, slotEntry name s, cs, ⟨init, name, dir, rfl, ?_, ?_⟩, hfile, h.chain, ?_⟩
  · exact (hc.resolvesDir_iff hw hw' hr₀ hinit).2 hdir
  · exact (hw'.finds_iff hr').2 ⟨hrecord, rfl⟩
  · show data = contents v' cs (readLE 4 s 28)
    rw [hsize, h.written.holds.contents_eq]

end

theorem fileAt_of_fileAt (h : Created vol v v' bs loc s cs data) (hw : WellFormed vol v)
    (hw' : WellFormed vol v') {segs : List Bytes} (hsegs : ∀ x ∈ segs, PlainName x) {bytes : Bytes}
    (hfile : FileAt vol v segs bytes) : FileAt vol v' segs bytes := by
  obtain ⟨dir, hr⟩ := h.reach
  obtain ⟨s₀, hfc, hmem, hkind⟩ := h.fileChange
  obtain ⟨l, e, cs', hres, hisFile, hcs', rfl⟩ := hfile
  have hlive := hres.live hw.toChained hsegs
  -- the free slot held no entry
  have hne : l ≠ loc := by
    rintro rfl
    obtain ⟨dir', bs', -, hrec, -⟩ := hlive
    obtain ⟨-, -, -, -, -, hrec⟩ := mem_dirRecords.1 hrec
    rw [recordAt, (mem_dirSlots.1 hmem).2, Option.bind_some] at hrec
    rw [kind_of_slotRecord hrec] at hkind
    rcases hkind with hkind | hkind <;> cases hkind
  refine ⟨l, e, cs', (h.changesOnly.resolves_iff hw hw' hsegs hne).2 hres, hisFile,
    hfc.entryChain h.tree h.spare hlive hne hcs', ?_⟩
  exact (hfc.contents_eq h.tree h.spare hr h.mem_block hlive hne hisFile hcs' _).symm

end Created

/-- The directories of a volume that was written with short names only. -/
structure PlainDirs (vol : Volume) (v : View) : Prop where
  noLong : ∀ {dir : Option ℕ} {bs : List (Option ℕ)}, Reach vol v dir bs → NoLongNames v bs
  clean : ∀ {dir : Option ℕ} {bs : List (Option ℕ)}, Reach vol v dir bs → TailClean v bs

def VisiblePath (path : NormalizedPath) : Prop :=
  ∀ seg ∈ path.segments, ∀ b ∈ seg, 0x21 ≤ b ∧ b ≤ 0x7E

theorem encode_of_visible (hpath : NormalPath path) (hvisible : VisiblePath path) (hname : name ∈ path.segments) :
    ∃ short, fatEncodeShortName name = some short ∧ short.getD 0 0 ≠ 0x00 ∧
      short.getD 0 0 ≠ 0xE5 ∧ ∀ s, slice s 0 11 = short → fatDecodeShortName s = some name := by
  obtain ⟨base, ext, hnormal⟩ := hpath.normal name hname
  have hspace : ∀ b ∈ name, b ≠ 0x20 := by
    rintro b hb rfl
    exact absurd (hvisible name hname _ hb).1 (by decide)
  obtain ⟨b, rest, hbase⟩ := exists_cons_of_ne_nil hnormal.base_ne
  have hfirst : (padSpaces 8 base ++ padSpaces 3 ext).getD 0 0 = b := by rw [hbase]; rfl
  have hb := hvisible name hname b (by
    rw [hnormal.seg_eq, joinName, hbase]
    exact mem_append_left _ mem_cons_self)
  refine ⟨_, hnormal.encode, ?_, ?_, fun s hs ↦ decode_of_encoded hnormal hspace hs⟩
  · rw [hfirst]
    rintro rfl
    exact absurd hb.1 (by decide)
  · rw [hfirst]
    rintro rfl
    exact absurd hb.2 (by decide)

theorem normalPath_of_segments {raw : Bytes} (h : normalizePath raw = some path)
    (hsegs : path.segments = init ++ [name]) : NormalPath path := by
  rcases normalizePath_cases h with ⟨-, hnil⟩ | ⟨hroot, hne, hnormal⟩
  · rw [hsegs] at hnil
    exact absurd hnil (by simp)
  · exact ⟨hroot, hne, hnormal⟩

theorem normalPath_of_read {block : BlockDevice ss} {dev₁ : Dev ss} {raw : Bytes}
    (h : normalizePath raw = some path) {bytes : Bytes}
    (hread : fat16ReadFile block path dev = some (some bytes, dev₁)) : NormalPath path := by
  rcases normalizePath_cases h with ⟨hroot, -⟩ | ⟨hroot, hne, hnormal⟩
  · have hnone : ∀ vol d fat, resolveFat16PathEntry block vol d fat path = none := fun vol d fat ↦ if_pos (.inl hroot)
    obtain ⟨⟨vol?, dev'⟩, -, heq⟩ := Option.map_eq_some_iff.1 hread
    rcases vol? with - | vol
    · cases heq
    · simp only [hnone] at heq
      split at heq <;> cases heq
  · exact ⟨hroot, hne, hnormal⟩

/-- **FAT16 create-then-read.** On a FAT16 volume in good order without long names and with clean
directory tails, write `data` to a visible path whose parent resolves and whose name has no entry.
The call does not trap. If it returns true, reading the path returns exactly `data`, and every path
that could be read before reads the same bytes. It does return true when the parent has a free slot
and there are enough free clusters. -/
theorem fat16_create_then_read {block : BlockDevice ss} {vol : Volume} (hty : vol.fatType = .fat16) {dev dev₁ : Dev ss}
    (hmount : mount .fat16 block dev = some (some vol, dev₁))
    (hgood : GoodDisk block vol dev₁.disk) (hplain : PlainDirs vol (view vol dev₁.disk))
    {raw : Bytes} {path : NormalizedPath} (hpath : normalizePath raw = some path)
    (hvisible : VisiblePath path) {init : List Bytes} {name : Bytes}
    (hsegs : path.segments = init ++ [name]) {dir : Option ℕ}
    (hparent : fat16ResolveDir block vol dev₁.disk (table vol dev₁.disk) none init = some dir)
    (hnew : findFat16EntryInDir block vol dev₁.disk (table vol dev₁.disk) dir name = none)
    {data : Bytes} (hdata : data.length < 2 ^ 32) (safe : Bool) :
    ∃ ok dev', fat16WriteFile block path data safe false dev = some (ok, dev') ∧
      (ok = true → fat16ReadFile block path dev' = some (some data, dev') ∧
        ∀ (raw' : Bytes) (q : NormalizedPath) (bytes : Bytes), normalizePath raw' = some q →
          fat16ReadFile block q dev = some (some bytes, dev₁) →
          fat16ReadFile block q dev' = some (some bytes, dev')) ∧
      ((∃ bs, IsDir vol (view vol dev₁.disk) dir bs ∧ ∃ x ∈ dirSlots (view vol dev₁.disk) bs,
          slotKind x.2 = .deleted ∨ slotKind x.2 = .endMark) →
        clustersFor vol data ≤ (freeClusters vol (view vol dev₁.disk).link).length → ok = true) := by
  obtain ⟨hs, hanchor, hw⟩ := hgood
  have hm := hs.mountable
  rw [hty] at hm
  have hnpath := normalPath_of_segments hpath hsegs
  have hinit := hnpath.plain_init hsegs
  obtain ⟨short, hshort, hzero, hdel, hdecode⟩ :=
    encode_of_visible hnpath hvisible (by rw [hsegs]; simp : name ∈ path.segments)
  -- the parent directory
  have hroot := fat16ResolveDir_root hs hty hw.toChained hinit dir
  have hdir := hroot.1.1 hparent
  obtain ⟨bs, hr⟩ := hroot.2 hdir
  have hnone : ∀ {l : SlotLoc} {e : FatDirEntry},
      (l, e) ∈ dirRecords .fat16 (view vol dev₁.disk) bs → e.name ≠ name := by
    intro l e he heq
    have hfind := (findFat16EntryInDir_iff hs hty hr.isDir).2 ⟨l, (hw.finds_iff hr).2 ⟨by rw [hty]; exact he, heq⟩⟩
    rw [hnew] at hfind
    cases hfind
  rw [fat16WriteFile_eq hs hmount hnpath.isRoot hsegs hparent, fat16FindEntryOrFreeLocation_eq hs hty hr.isDir, hshort]
  have hscan := findFlat_spec (some short) name (dirSlots (view vol dev₁.disk) bs) none
  rcases hresult : findFlat (some short) name (dirSlots (view vol dev₁.disk) bs) none with
    ⟨- | e, - | loc⟩
  · -- neither an entry nor a free slot
    rw [hresult] at hscan
    refine ⟨false, dev₁, rfl, fun h ↦ absurd h Bool.false_ne_true, ?_⟩
    rintro ⟨bs', hbs', x, hx, hkind⟩ -
    obtain rfl := hr.isDir.unique hbs'
    have := hscan.no_free_slot x hx
    tauto
  · -- a free slot
    rw [hresult] at hscan
    obtain ⟨s₀, hshown, hkind⟩ := hscan.free_slot
    have hcur : (⟨name, 0x20, 0, 0⟩ : FatDirEntry).isDir = false := by
      show decide ((0x20 : UInt8) &&& 0x10 ≠ 0) = false
      decide
    simp only [Option.getD_none, hcur, Bool.false_eq_true, if_false]
    rcases Nat.lt_or_ge (freeClusters vol (view vol dev₁.disk).link).length (clustersFor vol data)
      with hfew | henough
    · refine ⟨false, dev₁, fat16WriteAt_new_full hs hty hfew loc safe,
        fun h ↦ absurd h Bool.false_ne_true, fun _ hle ↦ absurd hle (Nat.not_le.2 hfew)⟩
    · obtain ⟨dev', us, cs, s, hwrite, hperf, hin, hname, hsize, hcreated⟩ :=
        fat16WriteAt_new hs hty hw.toConsistent hr (hplain.clean hr).tailFree hshown hkind hshort hzero hdel
          hdata henough safe
      obtain ⟨hanchor', hmount'⟩ := hperf.mount_eq hs.mountable hin hanchor (idle_of_mount16 hm hmount)
      rw [hty] at hmount'
      have hdecoded := hdecode _ hname
      obtain ⟨hw', -⟩ := hcreated.wellFormed hw (hplain.noLong hr) hdecoded hnone
      refine ⟨true, dev', hwrite, fun _ ↦ ⟨?_, fun raw' q bytes hq hread ↦ ?_⟩, fun _ _ ↦ rfl⟩
      · refine (fat16ReadFile_iff hs hty hw'.toChained hmount' hnpath).2 ?_
        rw [hsegs]
        exact hcreated.fileAt hw (hplain.noLong hr) hdecoded hnone hsize hinit hdir hr
      · have hq' := normalPath_of_read hq hread
        refine (fat16ReadFile_iff hs hty hw'.toChained hmount' hq').2 ?_
        exact hcreated.fileAt_of_fileAt hw hw' hq'.plain ((fat16ReadFile_iff hs hty hw.toChained hmount hq').1 hread)
  all_goals
    -- an entry with the short name would be one with the name
    rw [hresult] at hscan
    obtain ⟨l, s, hshown, ⟨hlive, hcarries⟩, -, -⟩ := hscan.entry_slot
    have hrecord := record_of_shown (hplain.noLong hr) hshown hlive (hdecode s (Option.some.inj hcarries).symm)
    exact absurd rfl (hnone hrecord)

def blank16 : Disk 512 := disk16 (filled 0) (filled 0)

theorem blank16_kind {x : SlotLoc × Bytes} (hx : x ∈ dirSlots (view vol16 blank16) [none]) :
    slotKind x.2 = .endMark := by
  obtain ⟨ends, hends, heq⟩ := disk16_slots (filled 0) (filled 0)
  have hget := mem_of_getElem? (mem_blockSlots.1 (by simpa [dirSlots] using hx)).2.2
  rw [blank16, heq, mem_append] at hget
  rcases hget with hmem | hmem
  · exact slotKind_of_zeros (fun b hb ↦ eq_of_mem_replicate hb) hmem
  · exact hends _ hmem

theorem blank16_records : dirRecords .fat16 (view vol16 blank16) [none] = [] := by
  rw [blank16, disk16_records]
  decide +kernel

theorem blank16_flat : Flat vol16 (view vol16 blank16) [none] := ⟨.area, fun hmem ↦ by
    have hty : vol16.fatType = .fat16 := rfl
    rw [hty, blank16_records] at hmem
    cases hmem⟩

theorem blank16_good : GoodDisk block16 vol16 blank16 :=
  ⟨vol16_sound, disk16_anchored _ _, blank16_flat.wellFormed blank16_records (Nat.zero_le 1) fun _ hx ↦ nomatch hx⟩

theorem blank16_plain : PlainDirs vol16 (view vol16 blank16) := by
  constructor
  · intro dir bs hr x hx
    obtain ⟨-, rfl⟩ := blank16_flat.reach hr
    rw [blank16_kind hx]
    decide
  · intro dir bs hr pre suf loc s heq _ x hx
    obtain ⟨-, rfl⟩ := blank16_flat.reach hr
    exact blank16_kind (heq ▸ mem_append_right _ (mem_cons_of_mem _ hx))

theorem fat16_create_then_read_blank : ∃ dev',
    fat16WriteFile block16 pathA [1] true false (Dev.start blank16) = some (true, dev') ∧
      fat16ReadFile block16 pathA dev' = some (some [1], dev') := by
  have hfind : findFat16EntryInDir block16 vol16 blank16 (table vol16 blank16) none [0x41] = none := by
    rw [findFat16EntryInDir_eq vol16_sound rfl .area]
    show Option.map _ (lookupName (dirRecords .fat16 _ _) _) = _
    rw [blank16_records]
    rfl
  have hpath : normalizePath [0x2F, 0x41] = some pathA := by decide
  have hvisible : VisiblePath pathA := by
    rw [VisiblePath]
    decide +kernel
  have hsegs : pathA.segments = [] ++ [[0x41]] := rfl
  have hdata : [(1 : UInt8)].length < 2 ^ 32 := by decide
  obtain ⟨ok, dev', hwrite, hread, hok⟩ := fat16_create_then_read rfl (disk16_mount _ _)
    blank16_good blank16_plain hpath hvisible hsegs rfl hfind hdata true
  have hslot : ∃ bs, IsDir vol16 (view vol16 blank16) none bs ∧
      ∃ x ∈ dirSlots (view vol16 blank16) bs, slotKind x.2 = .deleted ∨ slotKind x.2 = .endMark := by
    have hlen : 0 < ((view vol16 blank16).slots none).length := by
      obtain ⟨ends, -, heq⟩ := disk16_slots (filled 0) (filled 0)
      rw [blank16, heq, length_append, length_slotsOf, (filled 0).2]
      omega
    obtain ⟨s, hs⟩ := exists_mem_of_length_pos hlen
    obtain ⟨j, hj⟩ := mem_iff_getElem?.1 hs
    have hmem : (⟨none, j⟩, s) ∈ dirSlots (view vol16 blank16) [none] := mem_dirSlots.2 ⟨mem_singleton_self _, hj⟩
    exact ⟨[none], .area, _, hmem, .inr (blank16_kind hmem)⟩
  have hfree : clustersFor vol16 [1] ≤ (freeClusters vol16 (view vol16 blank16).link).length := by
    have hmem : 2 ∈ freeClusters vol16 (view vol16 blank16).link := by
      refine mem_freeClusters.2 ⟨by decide, ?_⟩
      rw [blank16, disk16_link _ _ (by decide)]
      decide +kernel
    have hone : clustersFor vol16 [1] = 1 := by decide
    rw [hone]
    exact length_pos_of_mem hmem
  obtain rfl := hok hslot hfree
  exact ⟨dev', hwrite, (hread rfl).1⟩

end CapazOS
