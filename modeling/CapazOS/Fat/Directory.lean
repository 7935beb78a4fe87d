import CapazOS.Fat.Names

/-!
# Directory slots

A directory block is a list of 32-byte slots. `fatScanDirEntriesEx` collects the live entries for
reading, under their long name where one precedes them; the local function `scanData` of
`fat16FindEntryOrFreeLocation` compares raw short names for writing, and remembers the first free
slot it passes.
-/

namespace CapazOS

open List

structure FatDirEntry where
  name : Bytes
  attr : UInt8
  firstCluster : ℕ
  fileSize : ℕ
  deriving DecidableEq

def FatDirEntry.isDir (e : FatDirEntry) : Bool := e.attr &&& 0x10 ≠ 0

/-- The slots of a block; bytes after the last whole slot are not looked at. -/
def slotsOf (data : Bytes) : List Bytes :=
  (range (data.length / 32)).map fun i ↦ slice data (i * 32) 32

/-! ### One slot -/

/-- How a scan treats a slot. -/
inductive SlotKind where
  | endMark
  | deleted
  | longName
  | label
  | live
  deriving DecidableEq

def slotKind (slot : Bytes) : SlotKind :=
  let first := slot.getD 0 0
  let attr := slot.getD 11 0
  if first = 0x00 then .endMark
  else if first = 0xE5 then .deleted
  else if attr = 0x0F then .longName
  else if attr &&& 0x08 ≠ 0 then .label
  else .live

/-- The offsets of the thirteen UTF-16 units of a long-name slot. -/
def lfnOffsets : List ℕ := [1, 3, 5, 7, 9, 14, 16, 18, 20, 22, 24, 28, 30]

/-- `fatAppendLfnChars`: the units up to the first terminator or padding. -/
def fatAppendLfnChars (slot : Bytes) : List ℕ :=
  (lfnOffsets.map fun i ↦ readLE 2 slot i).takeWhile fun ch ↦ ch ≠ 0x0000 ∧ ch ≠ 0xFFFF

/-- `fatDecodeLfn`: the fragments are stored last part first, and only ASCII is kept. -/
def fatDecodeLfn (segments : List (List ℕ)) : Option Bytes :=
  let out := segments.reverse.flatten.map fun ch ↦ if ch ≤ 0x7F then UInt8.ofNat ch else 0x3F
  if out = [] then none else some out

/-- The first cluster in a slot, from its high and low halves. -/
def slotCluster (slot : Bytes) : ℕ := readLE 2 slot 20 * 2 ^ 16 + readLE 2 slot 26

def slotEntry (name : Bytes) (slot : Bytes) : FatDirEntry :=
  { name, attr := slot.getD 11 0, firstCluster := slotCluster slot, fileSize := readLE 4 slot 28 }

/-- The name of a live slot: a decodable long name wins over the short one. -/
def slotName (lfn : List (List ℕ)) (slot : Bytes) : Option Bytes :=
  (fatDecodeLfn lfn).or (fatDecodeShortName slot)

/-! ### Scanning for entries -/

/-- The long-name fragments after a slot. -/
def lfnAfter (lfn : List (List ℕ)) (slot : Bytes) : List (List ℕ) :=
  match slotKind slot with
  | .longName =>
    let seg := fatAppendLfnChars slot
    if seg = [] then lfn else lfn ++ [seg]
  | _ => []

/-- The entry a slot contributes, given the fragments before it. -/
def slotRecord (lfn : List (List ℕ)) (slot : Bytes) : Option FatDirEntry :=
  match slotKind slot with
  | .live => (slotName lfn slot).map fun name ↦ slotEntry name slot
  | _ => none

/-- `fatScanDirEntriesEx` with long names, from slot number `i` on: the records, each with its slot
number, and whether an end marker was reached. -/
def scanSlots : List Bytes → ℕ → List (List ℕ) → List (ℕ × FatDirEntry) × Bool
  | [], _, _ => ([], false)
  | slot :: rest, i, lfn =>
    if slotKind slot = .endMark then ([], true)
    else
      let (records, endReached) := scanSlots rest (i + 1) (lfnAfter lfn slot)
      match slotRecord lfn slot with
      | some e => ((i, e) :: records, endReached)
      | none => (records, endReached)

/-- `fatScanDirEntriesEx`. A record's offset is 32 times its slot number. -/
def fatScanDirEntriesEx (data : Bytes) : List (ℕ × FatDirEntry) × Bool :=
  scanSlots (slotsOf data) 0 []

/-! ### Scanning for an entry or a free slot -/

/-- A slot: the cluster of its block, none for the FAT16 root area, and its number in the block. -/
structure SlotLoc where
  cluster : Option ℕ
  slot : ℕ
  deriving DecidableEq

/-- `scanData`: the entry whose eleven name bytes are `short`, whether the end marker was reached,
and the first free slot met so far. -/
def findSlots (short : Option Bytes) (name : Bytes) (cluster : Option ℕ) :
    List Bytes → ℕ → Option SlotLoc → Option FatDirEntry × Bool × Option SlotLoc
  | [], _, freeLoc => (none, false, freeLoc)
  | slot :: rest, i, freeLoc =>
    match slotKind slot with
    | .endMark => (none, true, freeLoc.or (some ⟨cluster, i⟩))
    | .deleted => findSlots short name cluster rest (i + 1) (freeLoc.or (some ⟨cluster, i⟩))
    | .longName => findSlots short name cluster rest (i + 1) freeLoc
    | .label => findSlots short name cluster rest (i + 1) freeLoc
    | .live =>
      if short = some (slice slot 0 11) then (some (slotEntry name slot), false, freeLoc)
      else findSlots short name cluster rest (i + 1) freeLoc

/-! ### Scans, one slot at a time -/

theorem scanSlots_endMark {slot : Bytes} (h : slotKind slot = .endMark) (rest : List Bytes) (i : ℕ)
    (lfn : List (List ℕ)) : scanSlots (slot :: rest) i lfn = ([], true) := by
  rw [scanSlots, if_pos h]

theorem scanSlots_cons {slot : Bytes} (h : slotKind slot ≠ .endMark) (rest : List Bytes) (i : ℕ)
    (lfn : List (List ℕ)) : scanSlots (slot :: rest) i lfn = ((slotRecord lfn slot).toList.map (fun e ↦ (i, e)) ++
        (scanSlots rest (i + 1) (lfnAfter lfn slot)).1,
        (scanSlots rest (i + 1) (lfnAfter lfn slot)).2) := by
  rw [scanSlots, if_neg h]
  rcases slotRecord lfn slot with - | e <;> rfl

theorem le_of_mem_scanSlots {slots : List Bytes} {i : ℕ} {lfn : List (List ℕ)} {r : ℕ × FatDirEntry}
    (h : r ∈ (scanSlots slots i lfn).1) : i ≤ r.1 := by
  induction slots generalizing i lfn with
  | nil => cases h
  | cons slot rest ih =>
    rcases eq_or_ne (slotKind slot) .endMark with hend | hend
    · rw [scanSlots_endMark hend] at h
      cases h
    · rw [scanSlots_cons hend, mem_append, mem_map] at h
      rcases h with ⟨e, -, rfl⟩ | h
      · exact Nat.le_refl _
      · exact Nat.le_of_succ_le (ih h)

theorem nodup_scanSlots (slots : List Bytes) (i : ℕ) (lfn : List (List ℕ)) : (scanSlots slots i lfn).1.Nodup := by
  induction slots generalizing i lfn with
  | nil => exact nodup_nil
  | cons slot rest ih =>
    rcases eq_or_ne (slotKind slot) .endMark with hend | hend
    · rw [scanSlots_endMark hend]
      exact nodup_nil
    · rw [scanSlots_cons hend]
      rcases slotRecord lfn slot with - | e
      · exact ih _ _
      · refine nodup_cons.2 ⟨fun hmem ↦ ?_, ih _ _⟩
        exact Nat.not_succ_le_self i (le_of_mem_scanSlots hmem)

theorem scanSlots_unique {slots : List Bytes} {i j : ℕ} {lfn : List (List ℕ)} {e e' : FatDirEntry}
    (h : (j, e) ∈ (scanSlots slots i lfn).1) (h' : (j, e') ∈ (scanSlots slots i lfn).1) :
    e = e' := by
  induction slots generalizing i lfn with
  | nil => cases h
  | cons slot rest ih =>
    rcases eq_or_ne (slotKind slot) .endMark with hend | hend
    · rw [scanSlots_endMark hend] at h
      cases h
    · have hgt : ∀ {x}, (i, x) ∉ (scanSlots rest (i + 1) (lfnAfter lfn slot)).1 := fun hx ↦
        Nat.not_succ_le_self i (le_of_mem_scanSlots hx)
      rw [scanSlots_cons hend, mem_append, mem_map] at h h'
      rcases h with ⟨x, hx, heq⟩ | h <;> rcases h' with ⟨x', hx', heq'⟩ | h'
      · obtain ⟨rfl, rfl⟩ := Prod.mk.inj heq
        obtain ⟨-, rfl⟩ := Prod.mk.inj heq'
        exact Option.some.inj ((Option.mem_toList.1 hx).symm.trans (Option.mem_toList.1 hx'))
      · obtain ⟨rfl, -⟩ := Prod.mk.inj heq
        exact absurd h' hgt
      · obtain ⟨rfl, -⟩ := Prod.mk.inj heq'
        exact absurd h hgt
      · exact ih h h'

/-! ### Assigning fields -/

def setSlotFields (slot : Bytes) (fc size : ℕ) : Bytes :=
  writeLE 4 size (writeLE 2 (fc % 2 ^ 16) (writeLE 2 (fc / 2 ^ 16 % 2 ^ 16) slot 20) 26) 28

theorem setSlotFields_fields {slot : Bytes} {fc size : ℕ} (hlen : slot.length = 32)
    (hfc : fc < 2 ^ 32) (hsize : size < 2 ^ 32) :
    (setSlotFields slot fc size).length = 32 ∧ slice (setSlotFields slot fc size) 0 11 = slice slot 0 11 ∧
      (setSlotFields slot fc size).getD 11 0 = slot.getD 11 0 ∧
      slotCluster (setSlotFields slot fc size) = fc ∧
      readLE 4 (setSlotFields slot fc size) 28 = size := by
  set e₁ := writeLE 2 (fc / 2 ^ 16 % 2 ^ 16) slot 20 with he₁
  have hlen₁ : e₁.length = 32 := by rw [he₁, length_writeLE, hlen]
  set e₂ := writeLE 2 (fc % 2 ^ 16) e₁ 26 with he₂
  have hlen₂ : e₂.length = 32 := by rw [he₂, length_writeLE, hlen₁]
  have heq : setSlotFields slot fc size = writeLE 4 size e₂ 28 := rfl
  have hkeep : ∀ {n off : ℕ} {e : Bytes} (v : ℕ), off + n ≤ e.length → 12 ≤ off →
      slice (writeLE n v e off) 0 11 = slice e 0 11 ∧ (writeLE n v e off)[11]? = e[11]? := by
    intro n off e v hfit hoff
    have hbs : (leBytes n v).length = n := length_leBytes n v
    refine ⟨slice_writeAt_disjoint (by omega) (.inl (by omega)), ?_⟩
    rw [writeLE, getElem?_writeAt _ _ _ (by omega), if_neg (by omega)]
  obtain ⟨hn₁, ha₁⟩ := hkeep (fc / 2 ^ 16 % 2 ^ 16) (by omega : 20 + 2 ≤ slot.length) (by omega)
  obtain ⟨hn₂, ha₂⟩ := hkeep (fc % 2 ^ 16) (by omega : 26 + 2 ≤ e₁.length) (by omega)
  obtain ⟨hn₃, ha₃⟩ := hkeep size (by omega : 28 + 4 ≤ e₂.length) (by omega)
  have hhi : readLE 2 (writeLE 4 size e₂ 28) 20 = fc / 2 ^ 16 % 2 ^ 16 := by
    rw [readLE_writeLE_disjoint (by omega) (.inl (by omega)), he₂,
      readLE_writeLE_disjoint (by omega) (.inl (by omega)), he₁,
      readLE_writeLE_self (by omega) (by omega)]
  have hlo : readLE 2 (writeLE 4 size e₂ 28) 26 = fc % 2 ^ 16 := by
    rw [readLE_writeLE_disjoint (by omega) (.inl (by omega)), he₂, readLE_writeLE_self (by omega) (by omega)]
  rw [heq]
  refine ⟨by rw [length_writeLE, hlen₂], by rw [hn₃, hn₂, hn₁], ?_, ?_, ?_⟩
  · rw [getD_eq_getElem?_getD, ha₃, ha₂, ha₁, ← getD_eq_getElem?_getD]
  · rw [slotCluster, hhi, hlo]
    omega
  · exact readLE_writeLE_self (by omega) (by omega)

end CapazOS
