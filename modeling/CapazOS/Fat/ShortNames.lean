import CapazOS.Fat.Reads

/-!
# Opening a file by its short name

The lookups compare a segment with **one** name of an entry: the long name when fragments of one
stand in front of it, and only otherwise the short name. `lookup_short_iff` says which entries are
found by their short name: those without a long name, and those whose long name is the short name,
letter for letter.
-/

namespace CapazOS

open List

variable {ss : ℕ}

/-! ### Entries and their names -/

/-- Slot `loc` of the directory with blocks `bs` holds the live entry `s`, and the scan of the
format reaches it. -/
structure DirSlot (ty : FatType) (v : View) (bs : List (Option ℕ)) (loc : SlotLoc) (s : Bytes) : Prop where
  reached : ∃ before after, bs = before ++ loc.cluster :: after ∧ (ty = .fat16 → ∀ b ∈ before, NoEnd v b)
  noEnd : NoEndBefore (v.slots loc.cluster) loc.slot
  slot_eq : (v.slots loc.cluster)[loc.slot]? = some s
  live : slotKind s = .live

/-- The long name in front of slot `loc`, if there is one. -/
def longName (v : View) (loc : SlotLoc) : Option Bytes :=
  fatDecodeLfn (lfnBefore (v.slots loc.cluster) loc.slot)

/-- `name` is the long or the short name of the entry in slot `loc`. -/
def HasName (v : View) (loc : SlotLoc) (s : Bytes) (name : Bytes) : Prop :=
  longName v loc = some name ∨ fatDecodeShortName s = some name

/-- No two entries of the directory share a name. -/
def UniqueNames (ty : FatType) (v : View) (bs : List (Option ℕ)) : Prop :=
  ∀ {loc loc' : SlotLoc} {s s' name : Bytes}, DirSlot ty v bs loc s → DirSlot ty v bs loc' s' →
    HasName v loc s name → HasName v loc' s' name → loc = loc'

/-- The eleven name bytes of a slot are a valid upper-case short name: up to eight and up to three
visible characters, none of them a dot or a lower-case letter. -/
structure ShortName (s base ext : Bytes) : Prop where
  bytes : slice s 0 11 = padSpaces 8 base ++ padSpaces 3 ext
  base_ne : base ≠ []
  base_le : base.length ≤ 8
  ext_le : ext.length ≤ 3
  chars : ∀ b ∈ base ++ ext, 0x21 ≤ b ∧ b ≤ 0x7E ∧ b ≠ 0x2E ∧ ¬(0x61 ≤ b ∧ b ≤ 0x7A)

namespace ShortName

variable {s base ext : Bytes}

theorem normalName (h : ShortName s base ext) : NormalName (joinName base ext) base ext := by
  have hbase : ∀ b ∈ base, b ≠ 0x2E ∧ toUpperASCII b = b := fun b hb ↦ by
    obtain ⟨-, -, hdot, hlower⟩ := h.chars b (mem_append_left _ hb)
    exact ⟨hdot, if_neg hlower⟩
  have hext : ∀ b ∈ ext, b ≠ 0x2E ∧ toUpperASCII b = b := fun b hb ↦ by
    obtain ⟨-, -, hdot, hlower⟩ := h.chars b (mem_append_right _ hb)
    exact ⟨hdot, if_neg hlower⟩
  exact ⟨rfl, h.base_ne, h.base_le, h.ext_le, fun hmem ↦ (hbase _ hmem).1 rfl, fun hmem ↦ (hext _ hmem).1 rfl,
    (map_congr_left fun b hb ↦ (hbase b hb).2).trans (map_id base),
    (map_congr_left fun b hb ↦ (hext b hb).2).trans (map_id ext)⟩

theorem decode (h : ShortName s base ext) : fatDecodeShortName s = some (joinName base ext) := by
  refine decode_of_encoded h.normalName (fun b hb heq ↦ ?_) h.bytes
  subst heq
  have hmem : (0x20 : UInt8) ∈ base ++ ext := by
    rcases mem_append.1 hb with hb | hb
    · exact mem_append_left _ hb
    · split at hb
      · cases hb
      · exact mem_append_right _ ((mem_cons.1 hb).resolve_left (by decide))
  exact absurd (h.chars _ hmem).1 (by decide)

theorem normalize (h : ShortName s base ext) : normalizeSegment (joinName base ext) = some (joinName base ext) :=
  h.normalName.normalize

end ShortName

/-! ### Records -/

section

variable {ty : FatType} {v : View} {bs : List (Option ℕ)} {loc : SlotLoc} {s name : Bytes}

theorem DirSlot.record (h : DirSlot ty v bs loc s) (hname : (longName v loc).or (fatDecodeShortName s) = some name) :
    (loc, slotEntry name s) ∈ dirRecords ty v bs := by
  obtain ⟨before, after, hbs, hend⟩ := h.reached
  refine mem_dirRecords.2 ⟨before, after, hbs, hend, h.noEnd, ?_⟩
  rw [recordAt, h.slot_eq, Option.bind_some, slotRecord, h.live]
  rw [slotName, show fatDecodeLfn _ = longName v loc from rfl, hname, Option.map_some]

theorem dirSlot_of_record {e : FatDirEntry} (h : (loc, e) ∈ dirRecords ty v bs) :
    ∃ s, DirSlot ty v bs loc s ∧ (longName v loc).or (fatDecodeShortName s) = some e.name ∧ e = slotEntry e.name s := by
  obtain ⟨before, after, hbs, hend, hno, hrec⟩ := mem_dirRecords.1 h
  obtain ⟨s, hget, hrec⟩ := Option.bind_eq_some_iff.1 hrec
  have hlive := kind_of_slotRecord hrec
  rw [slotRecord, hlive] at hrec
  obtain ⟨name, hname, rfl⟩ := Option.map_eq_some_iff.1 hrec
  exact ⟨s, ⟨⟨before, after, hbs, hend⟩, hno, hget, hlive⟩, hname, rfl⟩

theorem hasName_of_or (h : (longName v loc).or (fatDecodeShortName s) = some name) : HasName v loc s name := by
  rcases Option.or_eq_some_iff.1 h with hlong | ⟨-, hshort⟩
  · exact .inl hlong
  · exact .inr hshort

/-- **Looking up a name of an entry** finds that entry or nothing: it finds it exactly when this is
the name it is listed under. -/
theorem lookupName_iff (huniq : UniqueNames ty v bs) (h : DirSlot ty v bs loc s) (hname : HasName v loc s name) :
    lookupName (dirRecords ty v bs) name = some (loc, slotEntry name s) ↔
      (longName v loc).or (fatDecodeShortName s) = some name := by
  constructor
  · intro hfind
    obtain ⟨hmem, -⟩ := mem_of_lookupName hfind
    obtain ⟨s', h', hname', -⟩ := dirSlot_of_record hmem
    obtain rfl := Option.some.inj (h.slot_eq.symm.trans h'.slot_eq)
    exact hname'
  · intro hlisted
    rcases hfind : lookupName (dirRecords ty v bs) name with - | ⟨loc', e⟩
    · exact absurd rfl (of_decide_eq_false (Bool.eq_false_iff.2 (find?_eq_none.1 hfind _ (h.record hlisted))))
    · obtain ⟨hmem, rfl⟩ := mem_of_lookupName hfind
      obtain ⟨s', h', hname', heq⟩ := dirSlot_of_record hmem
      obtain rfl := huniq h h' hname (hasName_of_or hname')
      obtain rfl := Option.some.inj (h.slot_eq.symm.trans h'.slot_eq)
      rw [← heq]

end

/-! ### The lookups -/

/-- The lookups of the format find the entry in slot `loc` under the segment `seg`. -/
def FindsEntry (block : BlockDevice ss) (vol : Volume) (d : Disk ss) (dir : Option ℕ) (seg : Bytes)
    (loc : SlotLoc) (s : Bytes) : Prop :=
  match vol.fatType, dir with
  | .fat16, dir => findFat16EntryInDir block vol d (table vol d) dir seg = some (slotEntry seg s)
  | .fat32, some c => findEntryInDir block vol d (table vol d) c seg = some (slotEntry seg s) ∧
      findEntryLocationInDir block vol d (table vol d) c seg = some (slotEntry seg s, loc)
  | .fat32, none => False

/-- **Lookup by short name, exactly.** An entry of a directory with unique names, whose short name
is a valid upper-case one, is found under the normalized segment of that short name **if and only
if** no long name stands in front of it, or the long name is that segment itself. -/
theorem lookup_short_iff {block : BlockDevice ss} {vol : Volume} {d : Disk ss}
    (hs : SoundVolume block vol) {dir : Option ℕ} {bs : List (Option ℕ)}
    (hdir : IsDir vol (view vol d) dir bs) (harea : vol.fatType = .fat32 → dir ≠ none)
    (huniq : UniqueNames vol.fatType (view vol d) bs) {loc : SlotLoc} {s : Bytes}
    (hslot : DirSlot vol.fatType (view vol d) bs loc s) {base ext : Bytes}
    (hshort : ShortName s base ext) :
    normalizeSegment (joinName base ext) = some (joinName base ext) ∧
      (FindsEntry block vol d dir (joinName base ext) loc s ↔ longName (view vol d) loc = none ∨
          longName (view vol d) loc = some (joinName base ext)) := by
  refine ⟨hshort.normalize, ?_⟩
  have hname : HasName (view vol d) loc s (joinName base ext) := .inr hshort.decode
  have hlisted : (longName (view vol d) loc).or (fatDecodeShortName s) = some (joinName base ext) ↔
      longName (view vol d) loc = none ∨ longName (view vol d) loc = some (joinName base ext) := by
    rw [hshort.decode]
    cases longName (view vol d) loc <;> simp
  rw [← hlisted, ← lookupName_iff huniq hslot hname]
  -- what the lookups find is what `lookupName` finds
  have hfinds : ∀ {loc' : SlotLoc} {e : FatDirEntry}, Finds vol (view vol d) dir (joinName base ext) loc' e ↔
        lookupName (dirRecords vol.fatType (view vol d) bs) (joinName base ext) = some (loc', e) := by
    intro loc' e
    constructor
    · rintro ⟨bs', hdir', hfind⟩
      obtain rfl := hdir.unique hdir'
      exact hfind
    · exact fun hfind ↦ ⟨bs, hdir, hfind⟩
  -- an entry found under this segment stands in slot `loc`
  have hloc : ∀ {loc' : SlotLoc} {e : FatDirEntry},
      Finds vol (view vol d) dir (joinName base ext) loc' e → loc' = loc := by
    intro loc' e hfind
    obtain ⟨hmem, heq⟩ := mem_of_lookupName (hfinds.1 hfind)
    obtain ⟨s', hslot', hname', -⟩ := dirSlot_of_record hmem
    rw [show e.name = joinName base ext from heq] at hname'
    exact huniq hslot' hslot (hasName_of_or hname') hname
  rcases hty : vol.fatType with - | -
  · simp only [FindsEntry, hty]
    rw [findFat16EntryInDir_iff hs hty hdir, ← hty, ← hfinds]
    constructor
    · rintro ⟨loc', hfind⟩
      exact hloc hfind ▸ hfind
    · exact fun hfind ↦ ⟨loc, hfind⟩
  · obtain ⟨c, rfl⟩ := Option.ne_none_iff_exists'.1 (harea hty)
    simp only [FindsEntry, hty]
    rw [findEntryInDir_iff hs hty hdir, findEntryLocationInDir_iff hs hty hdir, ← hty, ← hfinds]
    constructor
    · exact fun h ↦ h.2
    · exact fun hfind ↦ ⟨⟨loc, hfind⟩, hfind⟩

/-! ### A file with and without a long name -/

def rootOf (dir : Sector 512) : View := view vol16 (disk16 table2 dir)

theorem uniqueNames_of_single {dir : Sector 512} {r : SlotLoc × FatDirEntry}
    (hrecords : dirRecords .fat16 (rootOf dir) [none] = [r]) :
    UniqueNames .fat16 (rootOf dir) [none] := by
  have hloc : ∀ {loc : SlotLoc} {s name : Bytes}, DirSlot .fat16 (rootOf dir) [none] loc s →
      HasName (rootOf dir) loc s name → loc = r.1 := by
    intro loc s name hslot hname
    obtain ⟨listed, hlisted⟩ : ∃ n, (longName (rootOf dir) loc).or (fatDecodeShortName s) = some n := by
      rcases hname with h | h
      · exact ⟨name, by rw [h, Option.some_or]⟩
      · cases hlong : longName (rootOf dir) loc with
        | none => exact ⟨name, by rw [Option.none_or, h]⟩
        | some long => exact ⟨long, by rw [Option.some_or]⟩
    have hmem := hslot.record hlisted
    rw [hrecords] at hmem
    exact congrArg Prod.fst (mem_singleton.1 hmem)
  intro loc loc' s s' name hslot hslot' hname hname'
  rw [hloc hslot hname, hloc hslot' hname']

theorem rootOf_isDir (dir : Sector 512) : IsDir vol16 (rootOf dir) none [none] := .area

theorem slotA_short : ShortName slotA [0x41] [] :=
  ⟨by decide +kernel, by decide, by decide, by decide +kernel, by decide +kernel⟩

/-- A root directory with the file `A` behind a slot with the long name `a`. -/
def longDir : Sector 512 := ⟨padZeros 512 (0x41 :: 0x61 :: replicate 9 0 ++ 0x0F :: replicate 20 0 ++ slotA),
    length_padZeros (by decide)⟩

theorem dirSlot_of_first {dir : Sector 512} (hget : (slotsOf dir.1)[1]? = some slotA)
    (hfirst : ∀ s ∈ (slotsOf dir.1).take 1, slotKind s ≠ .endMark) :
    DirSlot .fat16 (rootOf dir) [none] ⟨none, 1⟩ slotA := by
  obtain ⟨ends, -, heq⟩ := disk16_slots table2 dir
  have hlen : 1 < (slotsOf dir.1).length := (List.getElem?_eq_some_iff.1 hget).1
  refine ⟨⟨[], [], rfl, fun _ b hb ↦ nomatch hb⟩, ?_, ?_, by decide +kernel⟩
  · show NoEndBefore ((rootOf dir).slots none) 1
    rw [NoEndBefore, rootOf, heq, take_append_of_le_length hlen.le]
    exact hfirst
  · show ((rootOf dir).slots none)[1]? = some slotA
    rw [rootOf, heq, getElem?_append_left hlen, hget]

theorem lookup_short_holed : FindsEntry block16 vol16 holed16 none [0x41] ⟨none, 1⟩ slotA := by
  have hslot : DirSlot .fat16 (rootOf holedDir) [none] ⟨none, 1⟩ slotA :=
    dirSlot_of_first (by decide +kernel) (by decide +kernel)
  have hlong : longName (rootOf holedDir) ⟨none, 1⟩ = none := by decide +kernel
  exact (lookup_short_iff vol16_sound (rootOf_isDir holedDir) (fun h ↦ nomatch h)
    (uniqueNames_of_single holed16_records) hslot slotA_short).2.2 (.inl hlong)

/-- **A file with a long name is not found under its short name.** -/
theorem lookup_short_misses : SoundVolume block16 vol16 ∧
    IsDir vol16 (rootOf longDir) none [none] ∧ UniqueNames .fat16 (rootOf longDir) [none] ∧
    DirSlot .fat16 (rootOf longDir) [none] ⟨none, 1⟩ slotA ∧ ShortName slotA [0x41] [] ∧
    ¬FindsEntry block16 vol16 (disk16 table2 longDir) none (joinName [0x41] []) ⟨none, 1⟩ slotA := by
  have hrecords : dirRecords .fat16 (rootOf longDir) [none] = [(⟨none, 1⟩, slotEntry [0x61] slotA)] := by
    rw [rootOf, disk16_records]
    decide +kernel
  refine ⟨vol16_sound, rootOf_isDir _, uniqueNames_of_single hrecords,
    dirSlot_of_first (by decide +kernel) (by decide +kernel), slotA_short, fun hfind ↦ ?_⟩
  have hfind : findFat16EntryInDir block16 vol16 (disk16 table2 longDir)
    (table vol16 (disk16 table2 longDir)) none [0x41] = some (slotEntry [0x41] slotA) := hfind
  rw [findFat16EntryInDir_eq vol16_sound rfl .area] at hfind
  rw [show dirRecords vol16.fatType (view vol16 (disk16 table2 longDir)) [none] = _ from hrecords] at hfind
  exact absurd hfind (by decide +kernel)

end CapazOS
