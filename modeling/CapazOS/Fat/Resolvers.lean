import CapazOS.Fat.LongNames

/-!
# Two ways to look up a name

Each format looks names up in two ways, and **they need not agree**. On FAT16 a reader compares the
names that a listing shows, a writer the eleven bytes of the slots: they find the same slot exactly
when the first slot that matches for one of them matches for the other (`fat16_lookups_agree_iff`).
On FAT32 `stat` and `list` read a directory to its end before they compare; `read`, `write` and
`delete` compare cluster by cluster. They agree exactly when the walk over the parent comes to its
end or does not meet the name (`fat32_resolvers_agree_iff`).
-/

namespace CapazOS

open List

variable {ss : ℕ} {block : BlockDevice ss} {vol : Volume} {d : Disk ss} {fat : Bytes} {v : View} {name : Bytes}
  {lfn : List (List ℕ)}

/-! ### FAT16 -/

/-- A live slot that a listing reaches: its place, the name that is shown, and its bytes. -/
structure ListedSlot where
  loc : SlotLoc
  visible : Option Bytes
  slot : Bytes
  deriving DecidableEq

/-- The live slots of a block up to an end marker, from slot number `i` on and with the fragments of
a long name before it. -/
def listSlots (b : Option ℕ) : List Bytes → ℕ → List (List ℕ) → List ListedSlot
  | [], _, _ => []
  | slot :: rest, i, lfn =>
    if slotKind slot = .endMark then []
    else
      let tail := listSlots b rest (i + 1) (lfnAfter lfn slot)
      if slotKind slot = .live then ⟨⟨b, i⟩, slotName lfn slot, slot⟩ :: tail else tail

def listedSlots (v : View) : List (Option ℕ) → List ListedSlot
  | [] => []
  | b :: bs => listSlots b (v.slots b) 0 [] ++ if blockEnds v b then [] else listedSlots v bs

namespace ListedSlot

def Shows (name : Bytes) (x : ListedSlot) : Bool := x.visible = some name

def Holds (name : Bytes) (x : ListedSlot) : Bool :=
  fatEncodeShortName name = some (slice x.slot 0 11)

/-- The record of the slot in a listing, if its name can be decoded. -/
def record (x : ListedSlot) : Option (SlotLoc × FatDirEntry) :=
  x.visible.map fun name ↦ (x.loc, slotEntry name x.slot)

end ListedSlot

theorem listSlots_cons {slot : Bytes} (h : slotKind slot ≠ .endMark) (b : Option ℕ) (rest : List Bytes) (i : ℕ)
    (lfn : List (List ℕ)) : listSlots b (slot :: rest) i lfn =
      (if slotKind slot = .live then [⟨⟨b, i⟩, slotName lfn slot, slot⟩] else []) ++
        listSlots b rest (i + 1) (lfnAfter lfn slot) := by
  rw [listSlots, if_neg h]
  split <;> rfl

theorem listSlots_endMark {slot : Bytes} (h : slotKind slot = .endMark) (b : Option ℕ) (rest : List Bytes)
    (i : ℕ) (lfn : List (List ℕ)) : listSlots b (slot :: rest) i lfn = [] := by
  rw [listSlots, if_pos h]

theorem filterMap_listSlots (b : Option ℕ) (slots : List Bytes) (i : ℕ) (lfn : List (List ℕ)) :
    (listSlots b slots i lfn).filterMap ListedSlot.record = (scanSlots slots i lfn).1.map fun r ↦ (⟨b, r.1⟩, r.2) := by
  induction slots generalizing i lfn with
  | nil => rfl
  | cons slot rest ih =>
    by_cases hend : slotKind slot = .endMark
    · rw [listSlots_endMark hend, scanSlots_endMark hend]
      rfl
    · rw [listSlots_cons hend, scanSlots_cons hend, filterMap_append, map_append, ih, slotRecord]
      rcases hkind : slotKind slot with - | - | - | - | - <;> try rfl
      rcases hname : slotName lfn slot with - | name <;> simp [ListedSlot.record]

theorem filterMap_listedSlots (v : View) (bs : List (Option ℕ)) :
    (listedSlots v bs).filterMap ListedSlot.record = dirRecords .fat16 v bs := by
  induction bs with
  | nil => rfl
  | cons b bs ih =>
    rw [listedSlots, dirRecords, filterMap_append, filterMap_listSlots]
    congr 1
    simp only [true_and]
    split
    · rfl
    · exact ih

/-- The scan for the short name in a block takes the first slot that holds it, and without one ends
where a listing ends. -/
theorem findSlots_eq (name : Bytes) (b : Option ℕ) (slots : List Bytes) (i : ℕ) (lfn : List (List ℕ))
    (freeLoc : Option SlotLoc) :
    (findSlots (fatEncodeShortName name) name b slots i freeLoc).1 =
        ((listSlots b slots i lfn).find? (ListedSlot.Holds name)).map (fun x ↦ slotEntry name x.slot) ∧
      ((findSlots (fatEncodeShortName name) name b slots i freeLoc).1 = none →
        (findSlots (fatEncodeShortName name) name b slots i freeLoc).2.1 = (scanSlots slots i lfn).2) := by
  induction slots generalizing i lfn freeLoc with
  | nil => exact ⟨rfl, fun _ ↦ rfl⟩
  | cons slot rest ih =>
    by_cases hend : slotKind slot = .endMark
    · rw [listSlots_endMark hend, scanSlots_endMark hend, findSlots, hend]
      exact ⟨rfl, fun _ ↦ rfl⟩
    · rw [listSlots_cons hend, scanSlots_cons hend, findSlots]
      rcases hkind : slotKind slot with - | - | - | - | -
      · exact absurd hkind hend
      · exact ih _ _ _
      · exact ih _ _ _
      · exact ih _ _ _
      · by_cases hmatch : fatEncodeShortName name = some (slice slot 0 11)
        · simp [hmatch, ListedSlot.Holds]
        · simpa [hmatch, ListedSlot.Holds] using ih (i + 1) (lfnAfter lfn slot) freeLoc

theorem findFlat_listed (name : Bytes) (bs : List (Option ℕ)) (freeLoc : Option SlotLoc) :
    (findFlat (fatEncodeShortName name) name (dirSlots v bs) freeLoc).1 =
      ((listedSlots v bs).find? (ListedSlot.Holds name)).map fun x ↦ slotEntry name x.slot := by
  induction bs generalizing freeLoc with
  | nil => rfl
  | cons b bs ih =>
    obtain ⟨hfound, hends⟩ := findSlots_eq name b (v.slots b) 0 [] freeLoc
    have hblock : blockEnds v b = (scanSlots (v.slots b) 0 []).2 := rfl
    rw [← hblock] at hends
    rw [dirSlots_cons, findFlat_block, listedSlots, find?_append, Option.map_or, ← hfound]
    rcases hscan : findSlots (fatEncodeShortName name) name b (v.slots b) 0 freeLoc with ⟨- | e, ended, f⟩
    · rw [hscan] at hends
      rw [← hends rfl, Option.none_or]
      rcases ended with - | -
      · exact ih f
      · rfl
    · rfl

/-- The slots that both lookups go through: those of the root area, or of the clusters that the
table gives for a directory. -/
def dirListing (vol : Volume) (d : Disk ss) (fat : Bytes) : Option ℕ → List ListedSlot
  | none => listedSlots (view vol d) [none]
  | some c => listedSlots (view vol d) (((fatClusterChain .fat16 fat c (fatMaxCluster vol)).getD []).map some)

def readSlot (vol : Volume) (d : Disk ss) (fat : Bytes) (dir : Option ℕ) (name : Bytes) : Option ListedSlot :=
  (dirListing vol d fat dir).find? (ListedSlot.Shows name)

def writeSlot (vol : Volume) (d : Disk ss) (fat : Bytes) (dir : Option ℕ) (name : Bytes) : Option ListedSlot :=
  (dirListing vol d fat dir).find? (ListedSlot.Holds name)

theorem find?_records (l : List ListedSlot) (name : Bytes) :
    ((l.filterMap ListedSlot.record).map Prod.snd).find? (fun e ↦ e.name = name) =
      (l.find? (ListedSlot.Shows name)).map fun x ↦ slotEntry name x.slot := by
  induction l with
  | nil => rfl
  | cons x l ih =>
    rcases x with ⟨loc, - | visible, slot⟩
    · exact ih
    · have hrec : ListedSlot.record ⟨loc, some visible, slot⟩ = some (loc, slotEntry visible slot) := rfl
      rw [List.filterMap_cons_some hrec, map_cons, find?_cons, find?_cons, ih]
      by_cases hname : visible = name
      · simp [ListedSlot.Shows, hname, slotEntry]
      · simp [ListedSlot.Shows, hname, slotEntry]

theorem findFat16EntryInDir_listed (hm : Mountable .fat16 block vol) (dir : Option ℕ) (name : Bytes) :
    findFat16EntryInDir block vol d fat dir name = (readSlot vol d fat dir name).map fun x ↦ slotEntry name x.slot := by
  rw [readSlot, ← find?_records]
  cases dir with
  | none =>
    rw [dirListing, filterMap_listedSlots, dirRecords, dirRecords, ite_self, append_nil, map_snd_blockRecords]
    have hread := hm.read_block (d := d) (b := none) (fun _ hc ↦ by cases hc)
    simp only [blockLBA, blockSectors] at hread
    simp only [findFat16EntryInDir, readFat16RootDirEntries]
    split
    · next hzero =>
      have hnil : (view vol d).block none = [] := by
        show d.bytes vol.rootDirStartLBA vol.rootDirSectors = []
        rw [hzero]
        rfl
      rw [hnil]
      rfl
    · rw [hread]
      rfl
  | some c =>
    rw [dirListing, filterMap_listedSlots]
    simp only [findFat16EntryInDir, readFat16DirEntriesCluster]
    rcases hchain : fatClusterChain .fat16 fat c (fatMaxCluster vol) with - | cs
    · rfl
    · rw [Option.bind_some, fat16DirLoop_eq hm (fatClusterChain_range hchain)]
      rfl

theorem fat16FindEntryOrFreeLocation_listed (hm : Mountable .fat16 block vol) (dir : Option ℕ) (name : Bytes) :
    (fat16FindEntryOrFreeLocation block vol d fat dir name).1 =
      (writeSlot vol d fat dir name).map fun x ↦ slotEntry name x.slot := by
  cases dir with
  | none =>
    have hread := hm.read_block (d := d) (b := none) (fun _ hc ↦ nomatch hc)
    simp only [blockLBA, blockSectors] at hread
    simp only [fat16FindEntryOrFreeLocation, hread, writeSlot, dirListing, listedSlots, ite_self, append_nil]
    exact (findSlots_eq name none ((view vol d).slots none) 0 [] none).1
  | some c =>
    simp only [fat16FindEntryOrFreeLocation, writeSlot, dirListing]
    rcases hchain : fatClusterChain .fat16 fat c (fatMaxCluster vol) with - | cs
    · rfl
    · simp only [Option.getD_some]
      rw [fat16FindLoop_eq hm _ _ (fatClusterChain_range hchain), findFlat_listed]

/-- **When reading and writing look up the same slot.** In every directory of a mounted FAT16
volume, the two lookups return the entries of the slots they take, and these are the same **if and
only if** the first slot that shows the name or holds its short form does both. -/
theorem fat16_lookups_agree_iff (hm : Mountable .fat16 block vol) (d : Disk ss) (fat : Bytes) (dir : Option ℕ)
    (name : Bytes) :
    findFat16EntryInDir block vol d fat dir name = (readSlot vol d fat dir name).map (fun x ↦ slotEntry name x.slot) ∧
      (fat16FindEntryOrFreeLocation block vol d fat dir name).1 =
        (writeSlot vol d fat dir name).map (fun x ↦ slotEntry name x.slot) ∧
      (readSlot vol d fat dir name = writeSlot vol d fat dir name ↔
        ∀ pre x suf, dirListing vol d fat dir = pre ++ x :: suf →
          (∀ y ∈ pre, y.Shows name = false ∧ y.Holds name = false) → x.Shows name = x.Holds name) :=
  ⟨findFat16EntryInDir_listed hm dir name, fat16FindEntryOrFreeLocation_listed hm dir name, find?_eq_find?_iff⟩

/-- A root directory with a file `b` whose short name is `B`. -/
def longRoot : Sector 512 := ⟨padZeros 512 (lfnSlotB ++ shortSlotB), length_padZeros (by decide)⟩

theorem fat16_lookups_longRoot : findFat16EntryInDir block16 vol16 (disk16 (filled 0) longRoot) [] none [0x42] =
        (readSlot vol16 (disk16 (filled 0) longRoot) [] none [0x42]).map (fun x ↦ slotEntry [0x42] x.slot) ∧
      (fat16FindEntryOrFreeLocation block16 vol16 (disk16 (filled 0) longRoot) [] none [0x42]).1 =
        (writeSlot vol16 (disk16 (filled 0) longRoot) [] none [0x42]).map (fun x ↦ slotEntry [0x42] x.slot) ∧
      (readSlot vol16 (disk16 (filled 0) longRoot) [] none [0x42] =
          writeSlot vol16 (disk16 (filled 0) longRoot) [] none [0x42] ↔
        ∀ pre x suf, dirListing vol16 (disk16 (filled 0) longRoot) [] none = pre ++ x :: suf →
          (∀ y ∈ pre, y.Shows [0x42] = false ∧ y.Holds [0x42] = false) → x.Shows [0x42] = x.Holds [0x42]) :=
  fat16_lookups_agree_iff vol16_mountable _ _ _ _

/-- A writer finds the file under its short name, a reader does not. -/
theorem fat16_lookups_differ : normalizeSegment [0x42] = some [0x42] ∧
      findFat16EntryInDir block16 vol16 (disk16 (filled 0) longRoot) [] none [0x42] = none ∧
      (fat16FindEntryOrFreeLocation block16 vol16 (disk16 (filled 0) longRoot) [] none [0x42]).1 =
        some (slotEntry [0x42] shortSlotB) := by
  decide +kernel

/-! ### FAT32 -/

section

variable (block : BlockDevice ss) (vol : Volume) (d : Disk ss) (fat : Bytes)

/-- `findEntryInDir` with its arithmetic checked: the offset of the first cluster in the table, a
32-bit product, traps when it does not fit. Later clusters of a walk are entries of the table, which
have 28 bits. -/
def findEntryInDirChecked (dirCluster : ℕ) (name : Bytes) : Checked (Option FatDirEntry) :=
  if 2 ^ 32 ≤ dirCluster * 4 ∧ (readCluster block vol d dirCluster).isSome then none
  else some (findEntryInDir block vol d fat dirCluster name)

/-- `findEntryLocationInDir` with its arithmetic checked. An entry in the first cluster is returned
before the offset is computed. -/
def findEntryLocationInDirChecked (dirCluster : ℕ) (name : Bytes) : Checked (Option (FatDirEntry × SlotLoc)) :=
  if 2 ^ 32 ≤ dirCluster * 4 ∧ (readCluster block vol d dirCluster).any (fun data ↦
      ((fatScanDirEntriesEx data).1.find? fun rec ↦ rec.2.name = name).isNone) then none
  else some (findEntryLocationInDir block vol d fat dirCluster name)

/-- The loop of `resolvePathEntry` and of `resolvePathEntryLocation`, which differ in what they do
with the last segment. -/
def resolveSegments {α : Type} (last : ℕ → Bytes → Checked (Option α)) : ℕ → List Bytes → Checked (Option α)
  | _, [] => some none
  | dirCluster, [name] => last dirCluster name
  | dirCluster, name :: rest =>
    (findEntryInDirChecked block vol d fat dirCluster name).bind fun entry? ↦
      match entry? with
      | none => some none
      | some entry =>
        if !entry.isDir ∨ entry.firstCluster < 2 then some none
        else resolveSegments last entry.firstCluster rest

/-- `resolvePathEntry`; the root has an entry of its own. -/
def resolvePathEntry (path : NormalizedPath) : Checked (Option FatDirEntry) :=
  if path.isRoot ∨ path.segments = [] then
    some (some { name := [0x2F], attr := 0x10, firstCluster := vol.rootCluster, fileSize := 0 })
  else resolveSegments block vol d fat (findEntryInDirChecked block vol d fat) vol.rootCluster path.segments

/-- `resolvePathEntryLocation` with its arithmetic checked. -/
def resolvePathEntryLocationChecked (path : NormalizedPath) : Checked (Option (FatDirEntry × SlotLoc)) :=
  if path.isRoot ∨ path.segments = [] then some none
  else
    resolveSegments block vol d fat (findEntryLocationInDirChecked block vol d fat) vol.rootCluster path.segments

/-- The entry of a name in the clusters that a walk reads. -/
def walkFinds (dirCluster : ℕ) (name : Bytes) : Option (SlotLoc × FatDirEntry) :=
  lookupName (dirRecords .fat32 (view vol d) ((dirWalk vol fat chainGuard dirCluster).1.map some)) name

/-- A list of directory names leads from one directory to another. -/
inductive Leads : ℕ → List Bytes → ℕ → Prop
  | nil {dir : ℕ} : Leads dir [] dir
  | cons {dir dir' : ℕ} {name : Bytes} {rest : List Bytes} {loc : SlotLoc} {e : FatDirEntry} :
      (dirWalk vol fat chainGuard dir).2 = true → walkFinds vol d fat dir name = some (loc, e) →
      e.isDir = true → 2 ≤ e.firstCluster → Leads e.firstCluster rest dir' → Leads dir (name :: rest) dir'

end

section

variable {c dir dir' : ℕ} {segs : List Bytes} {e : FatDirEntry} {loc : SlotLoc}

theorem dirWalk_wide (hc : 2 ≤ c ∧ c ≤ fatMaxCluster vol) (hwide : 2 ^ 32 ≤ c * 4) :
    dirWalk vol fat chainGuard c = ([c], false) := by
  rw [show chainGuard = 0xFFFFF + 1 from rfl, dirWalk, if_neg (by omega), if_neg (by omega), if_pos hwide]

theorem readCluster_out (hc : ¬(2 ≤ c ∧ c ≤ fatMaxCluster vol)) : readCluster block vol d c = none := by
  rw [readCluster, if_pos (by omega)]

theorem walkFinds_out (hc : ¬(2 ≤ c ∧ c ≤ fatMaxCluster vol)) (name : Bytes) : walkFinds vol d fat c name = none := by
  have hwalk : (dirWalk vol fat chainGuard c).1 = [] := by
    rw [show chainGuard = 0xFFFFF + 1 from rfl, dirWalk]
    split
    · rfl
    · rw [if_pos (by omega)]
  rw [walkFinds, hwalk]
  rfl

/-- **The lookup of `stat` and `list`** returns an entry if the walk finds it and comes to its
end. -/
theorem findEntryInDirChecked_iff (hm : Mountable .fat32 block vol) :
    findEntryInDirChecked block vol d fat dir name = some (some e) ↔
      (dirWalk vol fat chainGuard dir).2 = true ∧ ∃ loc, walkFinds vol d fat dir name = some (loc, e) := by
  by_cases hc : 2 ≤ dir ∧ dir ≤ fatMaxCluster vol
  · rw [findEntryInDirChecked, readCluster_eq hm hc]
    by_cases hwide : 2 ^ 32 ≤ dir * 4
    · rw [if_pos ⟨hwide, rfl⟩, dirWalk_wide hc hwide]
      exact iff_of_false (by simp) fun h ↦ Bool.false_ne_true h.1
    · rw [if_neg fun h ↦ hwide h.1, findEntryInDir, readDirEntries, readDirEntriesLoop_walk hm (Nat.not_le.1 hwide)]
      split
      · next hend =>
        simp only [hend, Option.bind_some, find?_map, Option.some.injEq, Option.map_eq_some_iff,
          Prod.exists, exists_eq_right, true_and]
        rfl
      · next hend => exact iff_of_false (by simp) fun h ↦ hend h.1
  · have hfind : findEntryInDir block vol d fat dir name = none := by
      rw [findEntryInDir, readDirEntries, show chainGuard = 0xFFFFF + 1 from rfl, readDirEntriesLoop,
        readCluster_out hc]
      split <;> rfl
    rw [findEntryInDirChecked, readCluster_out hc, if_neg (fun h ↦ by cases h.2), hfind, walkFinds_out hc]
    exact iff_of_false (by simp) (by simp)

/-- **The lookup of `read`, `write` and `delete`** returns an entry if the walk finds it. -/
theorem findEntryLocationInDirChecked_iff (hm : Mountable .fat32 block vol) :
    findEntryLocationInDirChecked block vol d fat dir name = some (some (e, loc)) ↔
      walkFinds vol d fat dir name = some (loc, e) := by
  by_cases hc : 2 ≤ dir ∧ dir ≤ fatMaxCluster vol
  · rw [findEntryLocationInDirChecked, readCluster_eq hm hc]
    by_cases hwide : 2 ^ 32 ≤ dir * 4
    · -- only the first cluster is read, and nothing is returned without a match in it
      rw [walkFinds, dirWalk_wide hc hwide, map_singleton, dirRecords_singleton32, lookupName_blockRecords]
      have hlen := length_view_cluster hm d hc.1
      rw [findEntryLocationInDir, show chainGuard = 0xFFFFF + 1 from rfl, findEntryLocationLoop,
        if_neg (by omega : ¬dir < 2), readCluster_eq hm hc]
      simp only [hlen, lt_irrefl, if_false, hwide, true_and, Option.any_some]
      rcases hfind : (fatScanDirEntriesEx ((view vol d).cluster dir)).1.find? fun r ↦ r.2.name = name with - | r
      · simp [hfind]
      · simp [hfind, and_comm]
    · rw [if_neg fun h ↦ hwide h.1, findEntryLocationInDir,
        findEntryLocationLoop_walk hm (Nat.not_le.1 hwide), walkFinds]
      simp only [Option.some.injEq, Option.map_eq_some_iff, Prod.exists, Prod.mk.injEq]
      refine ⟨?_, fun hfind ↦ ⟨loc, e, hfind, rfl, rfl⟩⟩
      rintro ⟨_, _, hfind, rfl, rfl⟩
      exact hfind
  · have hfind : findEntryLocationInDir block vol d fat dir name = none := by
      rw [findEntryLocationInDir, show chainGuard = 0xFFFFF + 1 from rfl, findEntryLocationLoop, readCluster_out hc]
      split <;> rfl
    rw [findEntryLocationInDirChecked, readCluster_out hc, if_neg (fun h ↦ by cases h.2), hfind, walkFinds_out hc]
    exact iff_of_false (by simp) (by simp)

theorem Leads.unique {d₁ d₂ : ℕ} (h : Leads vol d fat dir segs d₁) (h' : Leads vol d fat dir segs d₂) : d₁ = d₂ := by
  induction h with
  | nil =>
    cases h'
    rfl
  | cons _ hfind _ _ _ ih =>
    cases h' with
    | cons _ hfind' _ _ hrest' =>
      obtain ⟨-, rfl⟩ := Prod.mk.inj (Option.some.inj (hfind.symm.trans hfind'))
      exact ih hrest'

/-- **A path is resolved** in the directory that the segments before the last lead to. -/
theorem resolveSegments_iff (hm : Mountable .fat32 block vol) {α : Type} {last : ℕ → Bytes → Checked (Option α)}
    {x : α} : resolveSegments block vol d fat last dir segs = some (some x) ↔
      ∃ init name dir', segs = init ++ [name] ∧ Leads vol d fat dir init dir' ∧ last dir' name = some (some x) := by
  induction segs generalizing dir with
  | nil =>
    refine iff_of_false nofun ?_
    rintro ⟨init, name, -, heq, -⟩
    exact absurd heq.symm (append_ne_nil_of_right_ne_nil _ (cons_ne_nil _ _))
  | cons name rest ih =>
    rcases rest with - | ⟨next, rest⟩
    · constructor
      · exact fun h ↦ ⟨[], name, dir, rfl, .nil, h⟩
      · rintro ⟨init, name', dir', heq, hleads, h⟩
        obtain ⟨rfl, rfl⟩ : init = [] ∧ name' = name := by
          rcases init with - | ⟨_, init⟩
          · exact ⟨rfl, (singleton_inj.1 heq).symm⟩
          · exact absurd (cons.inj heq).2.symm (append_ne_nil_of_right_ne_nil _ (cons_ne_nil _ _))
        cases hleads
        exact h
    · rw [resolveSegments]
      · constructor
        · intro h
          obtain ⟨e?, hfind, h⟩ := Option.bind_eq_some_iff.1 h
          rcases e? with - | e
          · cases h
          · simp only at h
            split at h
            · cases h
            · next hok =>
              simp only [not_or, Bool.not_eq_true', Bool.not_eq_false, Nat.not_lt] at hok
              obtain ⟨hend, loc, hfinds⟩ := (findEntryInDirChecked_iff hm).1 hfind
              obtain ⟨init, last', dir', heq, hleads, h⟩ := ih.1 h
              exact ⟨name :: init, last', dir', by rw [heq]; rfl, .cons hend hfinds hok.1 hok.2 hleads, h⟩
        · rintro ⟨- | ⟨a, init⟩, last', dir', heq, hleads, h⟩
          · exact absurd (List.cons.inj heq).2 (cons_ne_nil _ _)
          · obtain ⟨rfl, hrest⟩ := List.cons.inj heq
            cases hleads with
            | @cons _ _ _ _ loc e hend hfinds hdir hge hleads =>
              rw [(findEntryInDirChecked_iff hm).2 ⟨hend, loc, hfinds⟩, Option.bind_some]
              simp only [hdir, Bool.not_true, Bool.false_eq_true, false_or, if_neg (Nat.not_lt.2 hge)]
              exact ih.2 ⟨init, last', dir', hrest, hleads, h⟩
      · exact cons_ne_nil _ _

end

/-- **When the two resolvers agree.** On every disk with a mounted FAT32 volume and for every path
but the root, `resolvePathEntry` returns an entry exactly when `resolvePathEntryLocation` returns
one, and the same, **if and only if** the walk over the parent directory comes to its end or does
not find the last segment. -/
theorem fat32_resolvers_agree_iff (hm : Mountable .fat32 block vol) (d : Disk ss) (fat : Bytes)
    {path : NormalizedPath} (hroot : path.isRoot = false) (hsegs : path.segments ≠ []) :
    (∀ e, resolvePathEntry block vol d fat path = some (some e) ↔
        ∃ loc, resolvePathEntryLocationChecked block vol d fat path = some (some (e, loc))) ↔
      ∀ init name dir, path.segments = init ++ [name] → Leads vol d fat vol.rootCluster init dir →
        (dirWalk vol fat chainGuard dir).2 = true ∨ walkFinds vol d fat dir name = none := by
  have hnot : ¬(path.isRoot = true ∨ path.segments = []) := by
    rw [hroot]
    simpa using hsegs
  simp only [resolvePathEntry, resolvePathEntryLocationChecked, if_neg hnot, resolveSegments_iff hm,
    findEntryInDirChecked_iff hm, findEntryLocationInDirChecked_iff hm]
  constructor
  · intro hagree init name dir hsplit hleads
    rw [or_iff_not_imp_right]
    intro hfound
    obtain ⟨⟨loc, e⟩, hfind⟩ := Option.ne_none_iff_exists'.1 hfound
    obtain ⟨init', name', dir', hsplit', hleads', hend, -⟩ := (hagree e).2 ⟨loc, init, name, dir, hsplit, hleads, hfind⟩
    obtain ⟨rfl, -⟩ := append_inj' (hsplit.symm.trans hsplit') rfl
    rwa [hleads.unique hleads']
  · intro hcond e
    constructor
    · rintro ⟨init, name, dir, hsplit, hleads, -, loc, hfind⟩
      exact ⟨loc, init, name, dir, hsplit, hleads, hfind⟩
    · rintro ⟨loc, init, name, dir, hsplit, hleads, hfind⟩
      have hend := (hcond init name dir hsplit hleads).resolve_right (by rw [hfind]; exact nofun)
      exact ⟨init, name, dir, hsplit, hleads, hend, loc, hfind⟩

def tableOut : Sector 512 :=
  ⟨padZeros 512 [0xF8, 0xFF, 0xFF, 0x0F, 0xFF, 0xFF, 0xFF, 0x0F, 0xFF, 0xFF, 0xFF, 0], length_padZeros (by decide)⟩

/-- The file `A` in a root directory that leaves the volume. -/
def cut32 : Disk 512 := disk32 tableOut dir32

theorem cut32_walk : dirWalk vol32 (table vol32 cut32) chainGuard 2 = ([2], false) := by
  have hty : vol32.fatType = .fat32 := rfl
  have hnext : fatNextCluster .fat32 (table vol32 cut32) 2 = 0xFFFFFF := by
    rw [← hty, ← view_link, cut32, disk32_link _ _ (by decide)]
    decide +kernel
  have hmax : fatMaxCluster vol32 = 65601 := by decide
  rw [show chainGuard = 0xFFFFE + 1 + 1 from rfl, dirWalk, dirWalk, hnext, hmax]
  decide

theorem fat32_resolvers_cut32 : (∀ e, resolvePathEntry block32 vol32 cut32 (table vol32 cut32) pathA = some (some e) ↔
        ∃ loc, resolvePathEntryLocationChecked block32 vol32 cut32 (table vol32 cut32) pathA = some (some (e, loc))) ↔
      ∀ init name dir, pathA.segments = init ++ [name] →
        Leads vol32 cut32 (table vol32 cut32) vol32.rootCluster init dir →
        (dirWalk vol32 (table vol32 cut32) chainGuard dir).2 = true ∨
          walkFinds vol32 cut32 (table vol32 cut32) dir name = none :=
  fat32_resolvers_agree_iff vol32_sound.mountable cut32 (table vol32 cut32) rfl (by decide)

/-- The file can be read, but `stat` does not find it. -/
theorem fat32_resolvers_differ : resolvePathEntry block32 vol32 cut32 (table vol32 cut32) pathA = some none ∧
      resolvePathEntryLocationChecked block32 vol32 cut32 (table vol32 cut32) pathA =
        some (some (fileA32, ⟨some 2, 0⟩)) := by
  have hm := vol32_sound.mountable
  have hfinds : walkFinds vol32 cut32 (table vol32 cut32) 2 [0x41] = some (⟨some 2, 0⟩, fileA32) := by
    rw [walkFinds, cut32_walk, map_singleton, cut32, disk32_records]
    decide +kernel
  constructor
  · rw [resolvePathEntry, if_neg (by decide)]
    show findEntryInDirChecked block32 vol32 cut32 (table vol32 cut32) 2 [0x41] = some none
    rw [findEntryInDirChecked, if_neg (fun h ↦ absurd h.1 (by decide)), findEntryInDir, readDirEntries,
      readDirEntriesLoop_walk hm (by decide), cut32_walk, if_neg Bool.false_ne_true, Option.bind_none]
  · rw [resolvePathEntryLocationChecked, if_neg (by decide)]
    exact (findEntryLocationInDirChecked_iff hm).2 hfinds

end CapazOS
