import CapazOS.Fat.Delete16

/-!
# Overwriting a FAT16 file

`fat16WriteFile` on the path of a file reshapes its chain (`fat16Reshape_spec`), but stores the new
entry in the slot that the scan reports, which is never the one of the file. So the call either
fails or leaves **two** live slots with the same short name and the same clusters.
-/

namespace CapazOS

open List

variable {chain cs : List ℕ} {dir : Option ℕ} {bs : List (Option ℕ)} {loc : SlotLoc} {s short data : Bytes}
  {e : FatDirEntry}

variable {ss : ℕ} {block : BlockDevice ss} {vol : Volume}
variable {dev : Dev ss}

/-! ### Reshaping a chain -/

/-- What reshaping the chain `chain` to `required` clusters gives. -/
structure Reshaped (vol : Volume) (fat : Bytes) (chain : List ℕ) (required : ℕ) (cs : List ℕ)
    (fat' : Bytes) : Prop where
  length_eq : cs.length = required
  range : ∀ c ∈ cs, 2 ≤ c ∧ c ≤ fatMaxCluster vol
  nodup : cs.Nodup
  table_length : fat'.length = fat.length
  mem : ∀ c ∈ cs, c ∈ chain ∨ fatNextCluster .fat16 fat c = 0
  frame : ∀ c ∉ chain, fatNextCluster .fat16 fat c ≠ 0 → fatNextCluster .fat16 fat' c = fatNextCluster .fat16 fat c
  head : 0 < required → ∀ c ∈ chain.head?, cs.head? = some c
  cleared : required = 0 → ∀ c ∈ chain, fatNextCluster .fat16 fat' c = 0

section

variable {fat : Bytes} {required : ℕ} (hs : SoundVolume block vol) (hty : vol.fatType = .fat16)
  (hfat : fat.length = vol.sectorsPerFAT * ss) (hrange : ∀ c ∈ chain, 2 ≤ c ∧ c ≤ fatMaxCluster vol)
  (hnodup : chain.Nodup)
include hs hty hfat

theorem fat16_entry_le {c : ℕ} (hc : c ≤ fatMaxCluster vol) : (c + 1) * fatEntryBytes .fat16 ≤ fat.length := by
  have hle := hs.entry_le hc
  rw [hty] at hle
  rwa [hfat]

include hrange hnodup

/-- Growth: the first free clusters are hung onto the chain. -/
theorem reshaped_grow (hused : ∀ c ∈ chain, fatNextCluster .fat16 fat c ≠ 0) (hlt : chain.length < required)
    (hfree : required - chain.length ≤ (freeClusters vol (fatNextCluster .fat16 fat)).length) {extra : List ℕ}
    (hextra : extra = (freeClusters vol (fatNextCluster .fat16 fat)).take (required - chain.length)) :
    Reshaped vol fat chain required (chain ++ extra) (growTable .fat16 fat chain extra) := by
  have hm := hs.mountable
  rw [hty] at hm
  have hmax : fatMaxCluster vol < 0xFFF7 := hm.fat16_max_lt
  have hentries : ∀ {l : List ℕ}, (∀ c ∈ l, 2 ≤ c ∧ c ≤ fatMaxCluster vol) → Entries .fat16 fat.length l := by
    intro l hl c hc
    refine ⟨fat16_entry_le hs hty hfat (hl c hc).2, ?_⟩
    have := (hl c hc).2
    show c < 0xFFF8
    omega
  have hmem : ∀ c ∈ extra, (2 ≤ c ∧ c ≤ fatMaxCluster vol) ∧ fatNextCluster .fat16 fat c = 0 := fun c hc ↦
    mem_freeClusters.1 (mem_of_mem_take (hextra ▸ hc))
  have hlink := fatNextCluster_growTable (hentries hrange) (hentries fun c hc ↦ (hmem c hc).1)
  refine ⟨?_, ?_, ?_, length_growTable .fat16 fat chain extra, ?_, ?_, ?_, ?_⟩
  · rw [hextra, length_append, length_take_of_le hfree]
    omega
  · intro c hc
    rcases mem_append.1 hc with hc | hc
    · exact hrange c hc
    · exact (hmem c hc).1
  · refine nodup_append.2 ⟨hnodup, hextra ▸ (nodup_freeClusters vol _).sublist (take_sublist _ _),
      fun a ha b hb hab ↦ ?_⟩
    exact hused a ha (hab ▸ (hmem b hb).2)
  · intro c hc
    rcases mem_append.1 hc with hc | hc
    · exact .inl hc
    · exact .inr (hmem c hc).2
  · intro c hc hne
    refine (congrFun hlink c).trans (grown_of_notMem hc fun hin ↦ hne (hmem c hin).2)
  · intro _ c hc
    rw [head?_append, hc]
    rfl
  · omega

/-- Shrinking: the rest of the chain is freed, and what is left gets an end. -/
theorem reshaped_shrink (hlt : required < chain.length) : Reshaped vol fat chain required (chain.take required)
    (match (chain.take required).getLast? with
      | some last => fat16SetCluster (releaseClusters .fat16 fat (chain.drop required)) last 0xFFFF
      | none => releaseClusters .fat16 fat (chain.drop required)) := by
  have hentry : ∀ {c}, c ∈ chain → (c + 1) * fatEntryBytes .fat16 ≤ fat.length := fun {c} hc ↦
    fat16_entry_le hs hty hfat (hrange c hc).2
  have hreleased : fatNextCluster .fat16 (releaseClusters .fat16 fat (chain.drop required)) =
      released (fatNextCluster .fat16 fat) (chain.drop required) :=
    fatNextCluster_releaseClusters fun c hc ↦ hentry (mem_of_mem_drop hc)
  have hlen := length_releaseClusters .fat16 fat (chain.drop required)
  refine ⟨length_take_of_le hlt.le, fun c hc ↦ hrange c (mem_of_mem_take hc),
    hnodup.sublist (take_sublist _ _), ?_, fun c hc ↦ .inl (mem_of_mem_take hc),
    fun c hc hne ↦ ?_, fun hpos c hc ↦ ?_, ?_⟩
  · split
    · exact (length_fatSetCluster .fat16 _ _ _).trans hlen
    · exact hlen
  · have hrest : fatNextCluster .fat16 (releaseClusters .fat16 fat (chain.drop required)) c =
        fatNextCluster .fat16 fat c := by
      rw [hreleased, released_of_notMem fun hin ↦ hc (mem_of_mem_drop hin)]
    split
    · next last hlast =>
      have hin := mem_of_mem_take (mem_of_getLast? hlast)
      have hset := fatNextCluster_set (v := 0xFFFF) (by rw [hlen]; exact hentry hin) (fatEocMark_lt .fat16)
      have hother : c ≠ last := by
        rintro rfl
        exact hc hin
      refine (congrFun hset c).trans ?_
      rw [Function.update_of_ne hother, hrest]
    · exact hrest
  · cases chain with
    | nil => cases hc
    | cons x rest =>
      obtain ⟨n, rfl⟩ := Nat.exists_eq_succ_of_ne_zero hpos.ne'
      exact hc
  · rintro rfl c hc
    show fatNextCluster .fat16 (releaseClusters .fat16 fat (chain.drop 0)) c = 0
    rw [hreleased]
    exact if_pos hc

theorem fat16Reshape_spec (hused : ∀ c ∈ chain, fatNextCluster .fat16 fat c ≠ 0) {fat' : Bytes}
    (h : fat16Reshape vol fat chain required = some (cs, fat')) : Reshaped vol fat chain required cs fat' := by
  unfold fat16Reshape at h
  split at h
  · next hlt =>
    rw [fatFindFreeClusters_eq] at h
    split at h
    · cases h
    · next extra hextra =>
      split at hextra
      · cases hextra
      · next hfree =>
        obtain ⟨rfl, rfl⟩ := Prod.mk.inj (Option.some.inj h)
        exact reshaped_grow hs hty hfat hrange hnodup hused hlt (Nat.not_lt.1 hfree) (Option.some.inj hextra).symm
  · split at h
    · next hlt =>
      obtain ⟨rfl, rfl⟩ := Prod.mk.inj (Option.some.inj h)
      exact reshaped_shrink hs hty hfat hrange hnodup hlt
    · next hle hge =>
      obtain ⟨rfl, rfl⟩ := Prod.mk.inj (Option.some.inj h)
      refine ⟨by omega, hrange, hnodup, rfl, fun c hc ↦ .inl hc, fun _ _ _ ↦ rfl, fun _ c hc ↦ hc, fun hzero c hc ↦ ?_⟩
      have hnil : chain = [] := length_eq_zero_iff.1 (by omega)
      rw [hnil] at hc
      cases hc

end

/-! ### The scan finds the file -/

/-- Every live slot that a directory shows has a name, since the format has no names of spaces. -/
def Named (vol : Volume) (v : View) : Prop :=
  ∀ dir bs, Reach vol v dir bs → ∀ loc s, Shown v bs loc s → slotKind s = .live →
    ∃ name, fatDecodeShortName s = some name

theorem Named.live {v : View} (h : Named vol v) (hty : vol.fatType = .fat16) (hr : Reach vol v dir bs)
    (hshown : Shown v bs loc s) (hlive : slotKind s = .live) (hfile : s.getD 11 0 &&& 0x10 = 0) :
    ∃ e, Live vol v loc e ∧ e.isDir = false ∧ e.firstCluster = slotCluster s ∧ e.fileSize = readLE 4 s 28 := by
  obtain ⟨name, hname⟩ := h dir bs hr loc s hshown hlive
  obtain ⟨e, hrec⟩ : ∃ e, slotRecord (lfnBefore (v.slots loc.cluster) loc.slot) s = some e := by
    rw [slotRecord, hlive, slotName, hname]
    rcases fatDecodeLfn (lfnBefore (v.slots loc.cluster) loc.slot) with - | n <;> exact ⟨_, rfl⟩
  obtain ⟨hattr, hfc, hsize⟩ := slotRecord_fields hrec
  have hisDir : e.isDir = false := notDirSlot_of_attr hfile hrec
  refine ⟨e, ⟨dir, bs, hr, ?_, fun hdot ↦ ?_⟩, hisDir, hfc, hsize⟩
  · rw [hty]
    exact mem_dirRecords16.2 ⟨s, hshown, hrec⟩
  · rw [hdot.1] at hisDir
    cases hisDir

section

variable (hs : SoundVolume block vol) (hty : vol.fatType = .fat16)
include hs hty

theorem EntryChain.current {d : Disk ss} (h : EntryChain vol (view vol d) e chain) {fc : ℕ}
    (hfc : e.firstCluster = fc) :
    (if 2 ≤ fc then (fatClusterChain .fat16 (table vol d) fc (fatMaxCluster vol)).getD [] else []) = chain := by
  have hfreed := h.freed hs hty
  rw [freedChain, hfc] at hfreed
  rw [← hfreed]
  split <;> rfl

/-- **The write of a file that the scan has found**, into the deleted slot `loc` in front of it. The
slot of the file stays as it is. -/
theorem fat16WriteAt_found (hw : Consistent vol (view vol dev.disk))
    (hr : Reach vol (view vol dev.disk) dir bs) {cur : FatDirEntry} {l : SlotLoc}
    (hlive : Live vol (view vol dev.disk) l e) (hfile : e.isDir = false)
    (hchain : EntryChain vol (view vol dev.disk) e chain) (hfc : e.firstCluster = cur.firstCluster)
    (hshort : fatEncodeShortName cur.name = some short) {s₀ : Bytes}
    (hfree : Shown (view vol dev.disk) bs loc s₀) (hdata : data.length < 2 ^ 32) {fat : Bytes}
    (hreshape : fat16Reshape vol (table vol dev.disk) chain (clustersFor vol data) = some (cs, fat))
    (safe : Bool) :
    ∃ dev' s, fat16WriteAt block vol (table vol dev.disk) cur loc data safe false dev = some (true, dev') ∧
      SlotWritten vol (view vol dev.disk) (view vol dev'.disk) loc s₀ s ∧ slice s 0 11 = short ∧
      s.getD 11 0 = cur.attr := by
  have hm := hs.mountable
  rw [hty] at hm
  have hmax : fatMaxCluster vol < 0xFFF7 := hm.fat16_max_lt
  have hlink := view_link_of_type hty dev.disk
  -- the chain of the file
  have hchainRange : (∀ c ∈ chain, 2 ≤ c ∧ c ≤ fatMaxCluster vol) ∧ chain.Nodup := by
    rcases hchain with ⟨-, rfl⟩ | hc
    · exact ⟨fun c hc ↦ absurd hc not_mem_nil, nodup_nil⟩
    · exact ⟨hc.1.range, hc.1.linked.nodup⟩
  have hre := fat16Reshape_spec hs hty (length_table ..) hchainRange.1 hchainRange.2
    (fun c hc ↦ hlink ▸ hchain.link_ne_zero hc) hreshape
  have hfat : fat.length = vol.sectorsPerFAT * ss := by rw [hre.table_length, length_table]
  -- no cluster of it is a block of a directory, and no free one is
  have hout : ∀ c ∈ cs, ∀ {dir' bs'}, Reach vol (view vol dev.disk) dir' bs' → some c ∉ bs' := by
    intro c hc dir' bs' hr' hb
    rcases hre.mem c hc with hin | hzero
    · exact hw.file_not_dir hlive hfile hchain hin hr' hb
    · exact hr'.isDir.link_ne_zero hb (by rw [hlink, hzero])
  obtain ⟨hblock, hget⟩ := mem_dirSlots.1 hfree.mem
  have hvalid := hr.isDir.validSlot hfree.mem
  have hapart : ∀ c ∈ cs, loc.cluster ≠ some c := fun c hc heq ↦ hout c hc hr (heq ▸ hblock)
  obtain ⟨dev', hwrite, hperf⟩ := fat16WriteAt_performed hs hty cur
    (hchain.current hs hty hfc) hreshape hre.range hfat hdata hshort hvalid safe
  have hhead : cs.head?.getD 0 < 2 ^ 32 := by
    rcases hhead : cs.head? with - | c
    · exact Nat.two_pow_pos 32
    · have := (hre.range c (mem_of_mem_head? hhead)).2
      show c < 2 ^ 32
      omega
  obtain ⟨hslen, hsname, hsattr, -⟩ := fat16EntryBytes_fields cur.attr (length_of_encode hshort) hhead hdata
  have hwritten := view_writeUpdates hs (body vol dev.disk) hre.range hre.nodup
    ((length_le_clustersFor hm.clusterSize_pos data).trans (by rw [hre.length_eq])) hfat
    (hvalid.of_disk _) hapart hslen
  rw [← hperf.body_eq, view_body hs, view_body hs] at hwritten
  have hlink' : (view vol dev'.disk).link = fatNextCluster .fat16 fat := by rw [hwritten.link_eq, hty]
  refine ⟨dev', _, hwrite, ⟨?_, hget, hwritten.slots_eq, ?_⟩, hsname, hsattr⟩
  · intro dir' bs' hr'
    have hdir := hr'.isDir
    cases hdir with
    | area => exact .area
    | chain hc =>
      refine .chain ⟨hc.1.congr fun c hmem ↦ ?_, hc.2⟩
      have hb : some c ∈ map some _ := mem_map_of_mem hmem
      rw [hlink', hlink]
      refine hre.frame c (fun hin ↦ hw.file_not_dir hlive hfile hchain hin hr' hb) ?_
      rw [← hlink]
      exact hc.1.link_ne_zero hmem
  · intro dir' bs' hr' b hb hne
    have hkeep := hwritten.block_eq b hne fun c hc heq ↦ hout c hc hr' (heq ▸ hb)
    rw [View.slots, View.slots, hkeep]

theorem fat16WriteAt_full {cur : FatDirEntry} (hchain : EntryChain vol (view vol dev.disk) e chain)
    (hfc : e.firstCluster = cur.firstCluster)
    (hreshape : fat16Reshape vol (table vol dev.disk) chain (clustersFor vol data) = none) (loc : SlotLoc)
    (safe : Bool) :
    fat16WriteAt block vol (table vol dev.disk) cur loc data safe false dev = some (false, dev) := by
  have hpos := hs.mountable.clusterSize_pos
  simp only [fat16WriteAt, hchain.current hs hty hfc, hreshape]
  rw [if_neg (by omega)]

end

/-! ### Overwriting -/

theorem slotKind_congr {s' : Bytes} (hfirst : s.getD 0 0 = s'.getD 0 0) (hattr : s.getD 11 0 = s'.getD 11 0) :
    slotKind s = slotKind s' := by
  rw [slotKind, slotKind, hfirst, hattr]

theorem first_of_live (h : slotKind s = .live) : s.getD 0 0 ≠ 0x00 ∧ s.getD 0 0 ≠ 0xE5 := by
  unfold slotKind at h
  constructor
  · intro hzero
    rw [if_pos hzero] at h
    cases h
  · intro hdel
    rw [if_neg (by rw [hdel]; decide), if_pos hdel] at h
    cases h

theorem getD_of_slice (h : slice s 0 11 = short) : short.getD 0 0 = s.getD 0 0 := by
  rw [← h, getD_slice_zero _ (by omega : 0 < 11)]

/-- The directory `dir` shows exactly one live slot with the short name `short`, whose chain and
size describe `data`. -/
def StoredOnce (vol : Volume) (v : View) (dir : Option ℕ) (short data : Bytes) : Prop :=
  ∃ bs loc s cs, IsDir vol v dir bs ∧
    (∀ l x, Shown v bs l x ∧ slotKind x = .live ∧ slice x 0 11 = short ↔ l = loc ∧ x = s) ∧
    (slotCluster s < 2 ∧ cs = [] ∨ ChainFrom vol v (slotCluster s) cs) ∧
    readLE 4 s 28 = data.length ∧ contents v cs data.length = data

theorem Created.storedOnce {v v' : View} (h : Created vol v v' bs loc s cs data) (hr : Reach vol v dir bs)
    (hname : slice s 0 11 = short) (hsize : readLE 4 s 28 = data.length)
    (hnew : ∀ l x, Shown v bs l x → ¬Carries (some short) x) : StoredOnce vol v' dir short data := by
  obtain ⟨s₀, hfc, hmem, -⟩ := h.fileChange
  have hw := hfc.slotWritten h.tree h.spare
  refine ⟨bs, loc, s, cs, hw.dirs hr, fun l x ↦ ⟨?_, ?_⟩, h.chain, hsize, h.written.holds.contents_eq⟩
  · rintro ⟨hshown, hlive, hx⟩
    rcases eq_or_ne l loc with rfl | hne
    · exact ⟨rfl, Option.some.inj ((mem_dirSlots.1 hshown.mem).2.symm.trans (mem_dirSlots.1 h.shown.mem).2)⟩
    · have hbefore := hw.shown_of_shown hr hmem h.tail hne hlive hshown
      exact absurd ⟨hlive, congrArg some hx.symm⟩ (hnew l x hbefore)
  · rintro ⟨rfl, rfl⟩
    exact ⟨h.shown, h.live, hname⟩

/-- A call that returns false stores nothing. -/
theorem not_stored_of_false {dev : Dev ss} {P : Dev ss → Prop} :
    ¬∃ dev', some (false, dev) = some (true, dev') ∧ P dev' := by
  rintro ⟨dev', heq, -⟩
  cases (Prod.mk.inj (Option.some.inj heq)).1

/-- **A file that the scan finds is not overwritten**: the call fails, or there are two slots with
its name. -/
theorem fat16WriteFile_found (hs : SoundVolume block vol) (hty : vol.fatType = .fat16) {dev₁ : Dev ss}
    (hmount : mount .fat16 block dev = some (some vol, dev₁)) (hw : Consistent vol (view vol dev₁.disk))
    (hnamed : Named vol (view vol dev₁.disk)) {path : NormalizedPath} (hroot : path.isRoot = false)
    {init : List Bytes} {name : Bytes} (hsegs : path.segments = init ++ [name])
    (hparent : fat16ResolveDir block vol dev₁.disk (table vol dev₁.disk) none init = some dir)
    (hr : Reach vol (view vol dev₁.disk) dir bs) (hshort : fatEncodeShortName name = some short)
    {f : Option SlotLoc}
    (hfind : fat16FindEntryOrFreeLocation block vol dev₁.disk (table vol dev₁.disk) dir name = (some e, f))
    (hdata : data.length < 2 ^ 32) (safe : Bool) :
    ¬∃ dev', fat16WriteFile block path data safe false dev = some (true, dev') ∧
      StoredOnce vol (view vol dev'.disk) dir short data := by
  rw [fat16WriteFile_eq hs hmount hroot hsegs hparent, hfind]
  rcases f with - | loc
  · exact not_stored_of_false
  rw [fat16FindEntryOrFreeLocation_eq hs hty hr.isDir, hshort] at hfind
  have hscan := findFlat_spec (some short) name (dirSlots (view vol dev₁.disk) bs) none
  rw [hfind] at hscan
  obtain ⟨l, x, hshown, ⟨hlive, hname⟩, rfl, hfree⟩ := hscan.entry_slot
  obtain ⟨s₀, hshown₀, hkind₀⟩ := hfree loc rfl
  have hname : slice x 0 11 = short := (Option.some.inj hname).symm
  simp only [Option.getD_some]
  rcases hisDir : (slotEntry name x).isDir with - | -
  · simp only [Bool.false_eq_true, if_false]
    have hattr : x.getD 11 0 &&& 0x10 = 0 := by
      have hdec : decide (x.getD 11 0 &&& 0x10 ≠ 0) = false := hisDir
      simpa using hdec
    obtain ⟨e, helive, hfile, hefc, -⟩ := hnamed.live hty hr hshown hlive hattr
    have hfc : e.firstCluster = (slotEntry name x).firstCluster := hefc
    obtain ⟨chain, hchain, -⟩ := hw.chain helive
    rcases hreshape : fat16Reshape vol (table vol dev₁.disk) chain (clustersFor vol data) with
      - | ⟨cs, fat⟩
    · rw [fat16WriteAt_full hs hty hchain hfc hreshape loc safe]
      exact not_stored_of_false
    · have hshort' : fatEncodeShortName (slotEntry name x).name = some short := hshort
      obtain ⟨dev₂, s, hwrite, hslot, hsname, hsattr⟩ := fat16WriteAt_found hs
        hty hw hr helive hfile hchain hfc hshort' hshown₀ hdata hreshape safe
      rw [hwrite]
      rintro ⟨dev', heq, bs₂, l₁, s₁, -, hbs₂, hone, -⟩
      obtain rfl := (Prod.mk.inj (Option.some.inj heq)).2
      obtain rfl := (hslot.dirs hr).unique hbs₂
      -- both the old slot and the new one are live and carry the name
      have hkind : slotKind s = .live := by
        rw [← hlive]
        exact slotKind_congr (by rw [← getD_of_slice hsname, ← getD_of_slice hname]) hsattr
      have hne : l ≠ loc := by
        rintro rfl
        have heq := (mem_dirSlots.1 hshown.mem).2.symm.trans (mem_dirSlots.1 hshown₀.mem).2
        rw [← Option.some.inj heq, hlive] at hkind₀
        cases hkind₀
      have hold := hslot.shown_other hr hshown₀.mem (by rw [hkind]; decide) hne hshown
      obtain ⟨rfl, -⟩ := (hone l x).1 ⟨hold, hlive, hname⟩
      obtain ⟨rfl, -⟩ := (hone loc s).1 ⟨hslot.shown_self hr hshown₀, hkind, hsname⟩
      exact hne rfl
  · simp only [if_true]
    exact not_stored_of_false

/-- **FAT16 overwrite, exactly.** On a FAT16 volume in good order, let the directory of a path
resolve. A write to the path returns true and leaves one live slot with the short name, describing
`data`, and disjoint chains **if and only if** no live slot of the directory carries the short name
before the call — a file under that path is then found by its long name only —, the directory has a
free slot, the short name can be stored, and the free clusters alone are enough. -/
theorem fat16_overwrite_iff (hty : vol.fatType = .fat16) {dev dev₁ : Dev ss}
    (hmount : mount .fat16 block dev = some (some vol, dev₁))
    (hgood : GoodDisk block vol dev₁.disk) (hnamed : Named vol (view vol dev₁.disk)) {raw : Bytes}
    {path : NormalizedPath} (hraw : normalizePath raw = some path) {init : List Bytes} {name : Bytes}
    (hsegs : path.segments = init ++ [name]) {dir : Option ℕ} {bs : List (Option ℕ)}
    (hdir : ResolvesDir vol (view vol dev₁.disk) (rootDir vol) init dir)
    (hbs : IsDir vol (view vol dev₁.disk) dir bs) (htail : TailFree (view vol dev₁.disk) bs)
    {short : Bytes} (hshort : fatEncodeShortName name = some short) {data : Bytes}
    (hdata : data.length < 2 ^ 32) (safe : Bool) :
    (∃ dev', fat16WriteFile block path data safe false dev = some (true, dev') ∧
      StoredOnce vol (view vol dev'.disk) dir short data ∧
      ChainsDisjoint vol (view vol dev'.disk)) ↔
    (∀ l x, Shown (view vol dev₁.disk) bs l x → ¬Carries (some short) x) ∧ (∃ x ∈ dirSlots (view vol dev₁.disk) bs,
        slotKind x.2 = .deleted ∨ slotKind x.2 = .endMark) ∧
      (short.getD 0 0 ≠ 0x00 ∧ short.getD 0 0 ≠ 0xE5) ∧
      clustersFor vol data ≤ (freeClusters vol (view vol dev₁.disk).link).length := by
  obtain ⟨hs, -, hw⟩ := hgood
  have hnpath := normalPath_of_segments hraw hsegs
  have hroot := fat16ResolveDir_root hs hty hw.toChained (hnpath.plain_init hsegs) dir
  obtain ⟨bs', hr⟩ := hroot.2 hdir
  obtain rfl := hr.isDir.unique hbs
  have hparent := hroot.1.2 hdir
  have hfind := fat16FindEntryOrFreeLocation_eq hs hty hr.isDir name
  rw [hshort] at hfind
  have hscan := findFlat_spec (some short) name (dirSlots (view vol dev₁.disk) bs') none
  rcases hresult : findFlat (some short) name (dirSlots (view vol dev₁.disk) bs') none with
    ⟨- | e, - | loc⟩
  · -- no slot carries the name, and none is free
    rw [hresult] at hscan
    rw [fat16WriteFile_eq hs hmount hnpath.isRoot hsegs hparent, hfind, hresult]
    refine iff_of_false not_stored_of_false ?_
    rintro ⟨-, ⟨x, hx, hkind⟩, -⟩
    have := hscan.no_free_slot x hx
    tauto
  · -- no slot carries the name: a file is created
    rw [hresult] at hscan
    obtain ⟨s₀, hshown, hkind⟩ := hscan.free_slot
    have hnew : ∀ l x, Shown (view vol dev₁.disk) bs' l x → ¬Carries (some short) x := fun l x ↦ hscan.not_carried
    have hcur : (⟨name, 0x20, 0, 0⟩ : FatDirEntry).isDir = false := by
      show decide ((0x20 : UInt8) &&& 0x10 ≠ 0) = false
      decide
    rw [fat16WriteFile_eq hs hmount hnpath.isRoot hsegs hparent, hfind, hresult]
    simp only [Option.getD_none, hcur, Bool.false_eq_true, if_false]
    rcases Nat.lt_or_ge (freeClusters vol (view vol dev₁.disk).link).length (clustersFor vol data)
      with hfew | henough
    · rw [fat16WriteAt_new_full hs hty hfew loc safe]
      exact iff_of_false not_stored_of_false fun h ↦ absurd h.2.2.2 (Nat.not_le.2 hfew)
    · constructor
      · rintro ⟨dev', -, ⟨bs₂, l, s, -, -, hone, -⟩, -⟩
        obtain ⟨-, hlive, hname⟩ := (hone l s).2 ⟨rfl, rfl⟩
        rw [getD_of_slice hname]
        exact ⟨hnew, ⟨(loc, s₀), hshown.mem, hkind⟩, first_of_live hlive, henough⟩
      · rintro ⟨-, -, ⟨hzero, hdel⟩, -⟩
        obtain ⟨dev', us, cs, s, hwrite, -, -, hname, hsize, hcreated⟩ := fat16WriteAt_new hs hty
          hw.toConsistent hr htail hshown hkind hshort hzero hdel hdata henough safe
        exact ⟨dev', hwrite, hcreated.storedOnce hr hname hsize hnew, hcreated.consistent.disjoint⟩
  all_goals
    -- the file is found
    rw [hresult] at hscan hfind
    obtain ⟨l, x, hshown, hcarries, -⟩ := hscan.entry_slot
    refine iff_of_false ?_ fun h ↦ h.1 l x hshown hcarries
    rintro ⟨dev', hwrite, hstored, -⟩
    exact fat16WriteFile_found hs hty hmount hw.toConsistent hnamed hnpath.isRoot hsegs hparent hr
      hshort hfind hdata safe ⟨dev', hwrite, hstored⟩

theorem holed16_tail : TailFree (view vol16 holed16) [none] := by
  obtain ⟨rest, hslots, hends⟩ := holed16_slots
  intro pre suf loc s heq hend x hx
  rw [hslots] at heq
  have hin : x ∈ rest := by
    rcases pre with - | ⟨a, - | ⟨b, pre⟩⟩
    · rw [← (Prod.mk.inj (List.cons.inj heq).1).2] at hend
      exact absurd hend (by decide)
    · rw [← (Prod.mk.inj (List.cons.inj (List.cons.inj heq).2).1).2] at hend
      exact absurd hend (by decide)
    · rw [(List.cons.inj (List.cons.inj heq).2).2]
      exact mem_append_right _ (mem_cons_of_mem _ hx)
  rw [hends x hin]
  decide

theorem holed16_named : Named vol16 (view vol16 holed16) := by
  intro dir bs hr loc s hshown hlive
  obtain ⟨-, rfl⟩ := holed16_flat.reach hr
  obtain ⟨rest, hslots, hends⟩ := holed16_slots
  have hmem := hshown.mem
  rw [hslots] at hmem
  rcases mem_cons.1 hmem with heq | hmem
  · rw [(Prod.mk.inj heq).2] at hlive
    exact absurd hlive (by decide)
  · rcases mem_cons.1 hmem with heq | hmem
    · exact ⟨[0x41], by rw [(Prod.mk.inj heq).2]; decide⟩
    · rw [hends _ hmem] at hlive
      cases hlive

/-- Overwriting the file behind the deleted slot with one byte leaves two entries. -/
theorem fat16_overwrite_doubles : GoodDisk block16 vol16 holed16 ∧
    Resolves vol16 (view vol16 holed16) (rootDir vol16) pathA.segments ⟨none, 1⟩ fileA ∧
    fileA.isDir = false ∧ EntryChain vol16 (view vol16 holed16) fileA [2] ∧
    clustersFor vol16 [7] ≤ [2].length ∧ fatEncodeShortName [0x41] = some (slice slotA 0 11) ∧
    ¬∃ dev', fat16WriteFile block16 pathA [7] true false (Dev.start holed16) = some (true, dev') ∧
      StoredOnce vol16 (view vol16 dev'.disk) none (slice slotA 0 11) [7] := by
  have hshort : fatEncodeShortName [0x41] = some (slice slotA 0 11) := by decide
  refine ⟨holed16_good, holed16_resolves, by decide, holed16_chain, by decide, hshort, ?_⟩
  obtain ⟨bs₀, hr₀⟩ := holed16_good.tree.reach_root
  exact fat16WriteFile_found vol16_sound rfl (disk16_mount _ _) holed16_good.tree.toConsistent
    holed16_named rfl (by rfl : pathA.segments = [] ++ [[0x41]]) rfl hr₀ hshort holed16_find
    (by decide) true

theorem fat16_overwrite_iff_holed :
    (∃ dev', fat16WriteFile block16 pathA [7] true false (Dev.start holed16) = some (true, dev') ∧
      StoredOnce vol16 (view vol16 dev'.disk) none (slice slotA 0 11) [7] ∧
      ChainsDisjoint vol16 (view vol16 dev'.disk)) ↔
    (∀ l x, Shown (view vol16 holed16) [none] l x → ¬Carries (some (slice slotA 0 11)) x) ∧
      (∃ x ∈ dirSlots (view vol16 holed16) [none], slotKind x.2 = .deleted ∨ slotKind x.2 = .endMark) ∧
      ((slice slotA 0 11).getD 0 0 ≠ 0x00 ∧ (slice slotA 0 11).getD 0 0 ≠ 0xE5) ∧
      clustersFor vol16 [7] ≤ (freeClusters vol16 (view vol16 holed16).link).length :=
  fat16_overwrite_iff rfl (disk16_mount _ _) holed16_good holed16_named
    (by decide : normalizePath [0x2F, 0x41] = some pathA)
    (by rfl : pathA.segments = [] ++ [[0x41]]) .nil .area holed16_tail (by decide) (by decide) true

end CapazOS
