import CapazOS.Fat.FileChange

/-!
# Editing the file at a path

An `Edit` is a change of one file of a well-formed volume: the slot of the file is replaced, and
besides only clusters change that are free or belong to the file. The new slot keeps name and
attributes (`SameName`), or is a deleted one; either way every other path leads to the same file
with the same bytes.
-/

namespace CapazOS

open List

variable {s s₀ bytes : Bytes} {l : SlotLoc} {x : FatDirEntry} {cs : List ℕ} {q : List Bytes}

/-! ### Slots with the same name -/

theorem slice_of_slice {o n : ℕ} (h : slice s 0 11 = slice s₀ 0 11) (hle : o + n ≤ 11) :
    slice s o n = slice s₀ o n := by
  have hcut : ∀ t : Bytes, slice (slice t 0 11) o n = slice t o n := fun t ↦ by rw [slice_slice hle, Nat.zero_add]
  rw [← hcut s, h, hcut]

theorem fatDecodeShortName_congr (h : slice s 0 11 = slice s₀ 0 11) : fatDecodeShortName s = fatDecodeShortName s₀ := by
  rw [fatDecodeShortName, fatDecodeShortName, slice_of_slice h (by omega : 0 + 8 ≤ 11),
    slice_of_slice h (by omega : 8 + 3 ≤ 11)]

/-- The new slot `s` has the name and the attributes of `s₀`. -/
structure SameName (s₀ s : Bytes) : Prop where
  name : slice s 0 11 = slice s₀ 0 11
  attr : s.getD 11 0 = s₀.getD 11 0

theorem SameName.kind (h : SameName s₀ s) : slotKind s = slotKind s₀ := by
  have hfirst : s.getD 0 0 = s₀.getD 0 0 := by
    rw [← getD_slice_zero s (by omega : 0 < 11), h.name, getD_slice_zero _ (by omega)]
  rw [slotKind, slotKind, hfirst, h.attr]

theorem SameName.record (h : SameName s₀ s) {lfn : List (List ℕ)} {e : FatDirEntry} (he : slotRecord lfn s₀ = some e) :
    slotRecord lfn s = some { e with firstCluster := slotCluster s, fileSize := readLE 4 s 28 } := by
  have hkind := kind_of_slotRecord he
  rw [slotRecord, hkind] at he
  obtain ⟨name, hname, rfl⟩ := Option.map_eq_some_iff.1 he
  rw [slotRecord, h.kind, hkind]
  simp only [slotName, fatDecodeShortName_congr h.name] at hname ⊢
  rw [hname, Option.map_some, slotEntry, slotEntry, h.attr]

/-! ### Edits -/

/-- The file `e` at `segs`, in slot `loc`, is edited: its slot `s₀` is replaced by `s`, and besides
only `touched` clusters change, which are free or belong to the file. -/
structure Edit (vol : Volume) (v v' : View) (segs : List Bytes) (loc : SlotLoc) (e : FatDirEntry)
    (s₀ s : Bytes) (touched : List ℕ) : Prop where
  tree : WellFormed vol v
  plain : ∀ x ∈ segs, PlainName x
  resolves : Resolves vol v (rootDir vol) segs loc e
  file : e.isDir = false
  change : FileChange v v' loc s₀ s touched
  spare : ∀ c ∈ touched, Spare vol v loc c

namespace Edit

variable {vol : Volume} {v v' : View} {segs : List Bytes} {loc : SlotLoc} {e : FatDirEntry} {touched : List ℕ}

section

variable (h : Edit vol v v' segs loc e s₀ s touched)
include h

theorem live : Live vol v loc e := h.resolves.live h.tree.toChained h.plain

theorem slotWritten : SlotWritten vol v v' loc s₀ s :=
  h.change.slotWritten h.tree.toConsistent h.spare

theorem record : slotRecord (lfnBefore (v.slots loc.cluster) loc.slot) s₀ = some e := by
  obtain ⟨dir, bs, -, hmem, -⟩ := h.live
  obtain ⟨-, -, -, -, -, hrec⟩ := mem_dirRecords.1 hmem
  rwa [h.slotWritten.recordAt_old] at hrec

theorem kind : slotKind s₀ = .live := kind_of_slotRecord h.record

theorem attr : e.attr = s₀.getD 11 0 := by
  have hrec := h.record
  rw [slotRecord, h.kind] at hrec
  obtain ⟨name, -, rfl⟩ := Option.map_eq_some_iff.1 hrec
  rfl

theorem notDir {x : Bytes} (hx : x.getD 11 0 = s₀.getD 11 0) : NotDirSlot x := by
  intro lfn e' hrec
  have hfile := h.file
  rw [slotRecord, kind_of_slotRecord hrec] at hrec
  obtain ⟨name, -, rfl⟩ := Option.map_eq_some_iff.1 hrec
  rw [FatDirEntry.isDir, h.attr] at hfile
  rw [FatDirEntry.isDir, slotEntry, hx]
  exact hfile

theorem changesOnly (hs : SameName s₀ s ∨ slotKind s = .deleted) : ChangesOnly vol v v' loc := by
  have hq₀ : Quiet s₀ := by rw [Quiet, h.kind]; decide
  have hd₀ : NotDirSlot s₀ := h.notDir rfl
  rcases hs with hs | hs
  · have hq : Quiet s := by rw [Quiet, hs.kind, h.kind]; decide
    exact changesOnly_of_quiet h.slotWritten hq₀ hq hd₀ (h.notDir hs.attr)
  · have hq : Quiet s := by rw [Quiet, hs]; decide
    have hd : NotDirSlot s := fun hrec ↦ by
      rw [kind_of_slotRecord hrec] at hs
      cases hs
    exact changesOnly_of_quiet h.slotWritten hq₀ hq hd₀ hd

theorem entryChain (hlive : Live vol v l x) (hne : l ≠ loc) (hcs : EntryChain vol v x cs) :
    EntryChain vol v' x cs := h.change.entryChain h.tree.toConsistent h.spare hlive hne hcs

theorem path_eq (hq : ∀ x ∈ q, PlainName x) (hres : Resolves vol v (rootDir vol) q loc x) :
    q = segs := hres.path_unique h.tree.toConsistent hq h.plain h.resolves

theorem fileAt_iff (hc : ChangesOnly vol v v' loc) (hw' : WellFormed vol v') (hq : ∀ x ∈ q, PlainName x)
    (hne : ∀ x, ¬Resolves vol v (rootDir vol) q loc x) (hne' : ∀ x, ¬Resolves vol v' (rootDir vol) q loc x) :
    FileAt vol v' q bytes ↔ FileAt vol v q bytes := by
  obtain ⟨dir, bs, hr, hmem, -⟩ := h.live
  exact h.change.fileAt_iff hc h.tree hw' h.spare hr (mem_block_of_mem_dir hmem).1 hq hne hne'

end

/-! ### The name is kept -/

/-- The file after an edit that keeps its name: chain and size as the new slot says. -/
def edited (e : FatDirEntry) (s : Bytes) : FatDirEntry :=
  { e with firstCluster := slotCluster s, fileSize := readLE 4 s 28 }

theorem mem_edited (h : Edit vol v v' segs loc e s₀ s touched) (hs : SameName s₀ s)
    {dir : Option ℕ} {bs : List (Option ℕ)} (hr : Reach vol v dir bs)
    (hmem : (loc, e) ∈ dirRecords vol.fatType v bs) :
    (loc, edited e s) ∈ dirRecords vol.fatType v' bs := by
  have hw := h.slotWritten
  obtain ⟨before, after, heq, hends, hno, -⟩ := mem_dirRecords.1 hmem
  have hnodup := hr.isDir.nodup
  refine mem_dirRecords.2 ⟨before, after, heq, fun hty b hb ↦ ?_, ?_, ?_⟩
  · have hne : b ≠ loc.cluster := by
      rintro rfl
      rw [heq] at hnodup
      exact (nodup_append.1 hnodup).2.2 _ hb _ mem_cons_self rfl
    rw [NoEnd, hw.other hr b (by rw [heq]; exact mem_append_left _ hb) hne]
    exact hends hty b hb
  · rw [hw.self, NoEndBefore, take_set_of_le (Nat.le_refl _)]
    exact hno
  · rw [hw.recordAt_self]
    exact hs.record h.record

/-- The clusters `cs` serve as the chain of the edited file. -/
structure Fits (vol : Volume) (v' : View) (e : FatDirEntry) (s : Bytes) (cs : List ℕ) : Prop where
  chain : EntryChain vol v' (edited e s) cs
  covers : readLE 4 s 28 ≤ cs.length * clusterSize vol

section

variable (h : Edit vol v v' segs loc e s₀ s touched)
include h

/-- **An edit that keeps the name keeps the volume well formed**, if the new chain consists of spare
clusters. -/
theorem wellFormed (hs : SameName s₀ s) (hfits : Fits vol v' e s cs) (hcs : ∀ c ∈ cs, Spare vol v loc c) :
    WellFormed vol v' := by
  obtain ⟨dir, bs, hr, hmem, -⟩ := h.live
  have hw := h.tree.toConsistent
  have hmem' := h.mem_edited hs hr hmem
  refine (h.changesOnly (.inl hs)).wellFormed h.tree h.entryChain ?_ ?_
  · rintro x ⟨dir', bs', -, hx, -⟩
    obtain rfl := dirRecords_unique hx hmem'
    refine ⟨cs, hfits.chain, fun _ ↦ hfits.covers, fun hlive hne hcs' c hc ↦ ?_, ?_⟩
    · exact (hcs c hc).not_entry hw hlive hne hcs'
    · exact fun hroot hcs₀ c hc₀ hc ↦ (hcs c hc).not_root hw hroot hcs₀ hc₀
  · intro dir' bs' x hr' hx l x' hne hx' heq
    -- the name of the file was unique already
    obtain rfl := dirRecords_unique hx hmem'
    obtain rfl := hw.dir_unique hr' hr (mem_block_of_mem_dir hx).1 (mem_block_of_mem_dir hmem).1
    obtain rfl := hr'.isDir.unique hr.isDir
    have hpair := inj_on_of_nodup_map (h.tree.names hr) hx' hmem heq
    exact hne (Prod.mk.inj hpair).1

section

variable (hs : SameName s₀ s) (hw' : WellFormed vol v')
include hs hw'

theorem resolves_edited : Resolves vol v' (rootDir vol) segs loc (edited e s) := by
  have hc := h.changesOnly (.inl hs)
  have hw := h.tree.toConsistent
  obtain ⟨bs₀, hr₀⟩ := hw.reach_root
  obtain ⟨init, name, dir, hsegs, hdir, hf⟩ := h.resolves
  have hplain := h.plain
  rw [hsegs] at hplain
  have hinit : ∀ x ∈ init, PlainName x := fun x hx ↦ hplain x (mem_append_left _ hx)
  obtain ⟨bs, hr⟩ := hdir.reach hw.toChained hinit hr₀
  obtain ⟨hmem, hname⟩ := (h.tree.finds_iff hr).1 hf
  exact ⟨init, name, dir, hsegs, (hc.resolvesDir_iff h.tree hw' hr₀ hinit).2 hdir,
    (hw'.finds_iff ((hc.reach_iff hw).2 hr)).2 ⟨h.mem_edited hs hr hmem, hname⟩⟩

theorem fileAt_self (hfits : Fits vol v' e s cs) : FileAt vol v' segs (contents v' cs (readLE 4 s 28)) :=
  ⟨loc, edited e s, cs, h.resolves_edited hs hw', h.file, hfits.chain, rfl⟩

theorem fileAt_other (hq : ∀ x ∈ q, PlainName x) (hne : q ≠ segs) : FileAt vol v' q bytes ↔ FileAt vol v q bytes :=
  h.fileAt_iff (h.changesOnly (.inl hs)) hw' hq (fun _ hres ↦ hne (h.path_eq hq hres))
    fun _ hres ↦ hne (hres.path_unique hw'.toConsistent hq h.plain (h.resolves_edited hs hw'))

theorem resolves_of_edited (hq : ∀ x ∈ q, PlainName x) (hres : Resolves vol v' (rootDir vol) q l x) :
    ∃ l x, Resolves vol v (rootDir vol) q l x := by
  rcases eq_or_ne l loc with rfl | hne
  · have hpath := hres.path_unique hw'.toConsistent hq h.plain (h.resolves_edited hs hw')
    exact ⟨l, e, hpath ▸ h.resolves⟩
  · exact ⟨l, x, ((h.changesOnly (.inl hs)).resolves_iff h.tree hw' hq hne).1 hres⟩

end

/-! ### The slot is deleted -/

section

variable (hs : slotKind s = .deleted)
include hs

theorem not_mem_deleted {bs : List (Option ℕ)} : (loc, x) ∉ dirRecords vol.fatType v' bs := by
  intro hmem
  obtain ⟨-, -, -, -, -, hrec⟩ := mem_dirRecords.1 hmem
  rw [h.slotWritten.recordAt_self] at hrec
  rw [kind_of_slotRecord hrec] at hs
  cases hs

theorem wellFormed_deleted : WellFormed vol v' := by
  refine (h.changesOnly (.inr hs)).wellFormed h.tree h.entryChain ?_ ?_
  · rintro x ⟨dir', bs', -, hx, -⟩
    exact absurd hx (h.not_mem_deleted hs)
  · intro dir' bs' x hr' hx
    exact absurd hx (h.not_mem_deleted hs)

theorem not_resolves_deleted : ¬Resolves vol v' (rootDir vol) q loc x := by
  rintro ⟨init, name, dir, -, -, bs, -, hfind⟩
  exact h.not_mem_deleted hs (mem_of_lookupName hfind).1

theorem resolves_of_deleted (hq : ∀ x ∈ q, PlainName x) (hres : Resolves vol v' (rootDir vol) q l x) :
    Resolves vol v (rootDir vol) q l x := by
  have hne : l ≠ loc := by
    rintro rfl
    exact h.not_resolves_deleted hs hres
  exact ((h.changesOnly (.inr hs)).resolves_iff h.tree (h.wellFormed_deleted hs) hq hne).1 hres

theorem gone : ¬Resolves vol v' (rootDir vol) segs l x := by
  intro hres
  obtain ⟨rfl, -⟩ := (h.resolves_of_deleted hs h.plain hres).unique h.resolves
  exact h.not_resolves_deleted hs hres

theorem fileAt_other_deleted (hq : ∀ x ∈ q, PlainName x) (hne : q ≠ segs) :
    FileAt vol v' q bytes ↔ FileAt vol v q bytes := h.fileAt_iff (h.changesOnly (.inr hs)) (h.wellFormed_deleted hs) hq
    (fun _ hres ↦ hne (h.path_eq hq hres)) fun _ hres ↦ h.not_resolves_deleted hs hres

end

end

end Edit

end CapazOS
