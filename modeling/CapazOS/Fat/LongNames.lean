import CapazOS.Fat.Store32
import Mathlib.Data.List.Perm.Subperm
import CapazOS.Lib.Lists

/-!
# Long names and cluster boundaries

A long name is stored in the slots before its short entry, thirteen UTF-16 units a slot, last part
first; a scan of **one buffer** inverts this (`long_name_scan`). Between two clusters the fragments
are dropped, and on FAT32 the end marker is forgotten. `listing_joined_iff` says for which chains
this makes no difference.
-/

namespace CapazOS

open List Function

/-! ### Scans of concatenated slots -/

theorem scanSlots_append {a : List Bytes} (h : ∀ s ∈ a, slotKind s ≠ .endMark) (b : List Bytes)
    (i : ℕ) (lfn : List (List ℕ)) : (scanSlots (a ++ b) i lfn).1 =
      (scanSlots a i lfn).1 ++ (scanSlots b (i + a.length) (a.foldl lfnAfter lfn)).1 := by
  induction a generalizing i lfn with
  | nil => rfl
  | cons slot rest ih =>
    obtain ⟨hslot, hrest⟩ := forall_mem_cons.1 h
    rw [cons_append, scanSlots_cons hslot, scanSlots_cons hslot, ih hrest, append_assoc,
      length_cons, Nat.add_right_comm, Nat.add_assoc]
    rfl

theorem scanSlots_append_of_ends {a : List Bytes} (h : ∃ s ∈ a, slotKind s = .endMark) (b : List Bytes)
    (i : ℕ) (lfn : List (List ℕ)) : (scanSlots (a ++ b) i lfn).1 = (scanSlots a i lfn).1 := by
  induction a generalizing i lfn with
  | nil => simp at h
  | cons slot rest ih =>
    by_cases hend : slotKind slot = .endMark
    · rw [cons_append, scanSlots_endMark hend, scanSlots_endMark hend]
    · have hrest : ∃ s ∈ rest, slotKind s = .endMark := by simpa [hend] using h
      rw [cons_append, scanSlots_cons hend, scanSlots_cons hend, ih hrest]

theorem scanSlots_shift (slots : List Bytes) (i : ℕ) (lfn : List (List ℕ)) :
    (scanSlots slots i lfn).1 = (scanSlots slots 0 lfn).1.map fun r ↦ (i + r.1, r.2) := by
  have hstep : ∀ k, (scanSlots slots (i + k) lfn).1 = (scanSlots slots k lfn).1.map fun r ↦ (i + r.1, r.2) := by
    induction slots generalizing lfn with
    | nil => exact fun _ ↦ rfl
    | cons slot rest ih =>
      intro k
      by_cases hend : slotKind slot = .endMark
      · rw [scanSlots_endMark hend, scanSlots_endMark hend]
        rfl
      · rw [scanSlots_cons hend, scanSlots_cons hend, Nat.add_assoc, ih, map_append, map_map]
        rfl
  exact hstep 0

theorem scanSlots_longNames {slots : List Bytes} (h : ∀ s ∈ slots, slotKind s = .longName) (i : ℕ)
    (lfn : List (List ℕ)) : (scanSlots slots i lfn).1 = [] := by
  induction slots generalizing i lfn with
  | nil => rfl
  | cons slot rest ih =>
    obtain ⟨hslot, hrest⟩ := forall_mem_cons.1 h
    rw [scanSlots_cons (by rw [hslot]; decide), ih hrest, slotRecord, hslot]
    rfl

theorem slotsOf_flatten {slots : List Bytes} (h : ∀ s ∈ slots, s.length = 32) : slotsOf slots.flatten = slots := by
  induction slots with
  | nil => rfl
  | cons slot rest ih =>
    obtain ⟨hslot, hrest⟩ := forall_mem_cons.1 h
    have hone : slotsOf slot = [slot] := by
      rw [slotsOf, hslot, show (32 : ℕ) / 32 = 1 from rfl, range_one, map_singleton, slice,
        Nat.zero_mul, drop_zero, take_of_length_le hslot.le]
    rw [flatten_cons, slotsOf_append (by rw [hslot]), hone, ih hrest]
    rfl

/-! ### The encoding of long names -/

def lfnCount (name : Bytes) : ℕ := (name.length + 12) / 13

/-- The thirteen units of part `k` of a name: its characters, then a terminator and padding. -/
def lfnPart (name : Bytes) (k : ℕ) : List ℕ :=
  ((name.map UInt8.toNat ++ 0x0000 :: replicate 12 0xFFFF).drop (13 * k)).take 13

/-- A slot that stores part `k` of a name. Its type, checksum and cluster bytes are free. -/
structure LfnSlot (name : Bytes) (k : ℕ) (slot : Bytes) : Prop where
  length : slot.length = 32
  order : slot.getD 0 0 = UInt8.ofNat (k + 1) ||| if k + 1 = lfnCount name then 0x40 else 0
  attr : slot.getD 11 0 = 0x0F
  units : lfnOffsets.map (fun i ↦ readLE 2 slot i) = lfnPart name k

/-- The slots of a long name, last part first. -/
def LfnSequence (name : Bytes) (slots : List Bytes) : Prop :=
  List.Forall₂ (LfnSlot name) (range (lfnCount name)).reverse slots

/-- A long name of one to 255 printable ASCII characters. -/
structure LongName (name : Bytes) : Prop where
  pos : 1 ≤ name.length
  le : name.length ≤ 255
  ascii : ∀ b ∈ name, 0x20 ≤ b ∧ b ≤ 0x7E

section

variable {name : Bytes} {k : ℕ} {slot : Bytes} {slots : List Bytes}

theorem LongName.toNat (h : LongName name) {b : UInt8} (hb : b ∈ name) : 0x20 ≤ b.toNat ∧ b.toNat ≤ 0x7E :=
  (h.ascii b hb).imp UInt8.le_iff_toNat_le.1 UInt8.le_iff_toNat_le.1

theorem LfnSequence.of_mem (h : LfnSequence name slots) (hs : slot ∈ slots) :
    ∃ k < lfnCount name, LfnSlot name k slot := by
  obtain ⟨i, hi, rfl⟩ := mem_iff_getElem.1 hs
  have hi' : i < (range (lfnCount name)).reverse.length := h.length_eq ▸ hi
  exact ⟨_, mem_range.1 (mem_reverse.1 (get_mem _ ⟨i, hi'⟩)), h.get hi' hi⟩

theorem LfnSlot.kind (h : LfnSlot name k slot) (hname : LongName name) (hk : k < lfnCount name) :
    slotKind slot = .longName := by
  have hlt : k < 20 := by
    have := hname.le
    unfold lfnCount at hk
    omega
  have hbyte : ∀ k < 20, ∀ m ∈ [0x40, (0 : UInt8)],
      UInt8.ofNat (k + 1) ||| m ≠ 0 ∧ UInt8.ofNat (k + 1) ||| m ≠ 0xE5 := by decide +kernel
  obtain ⟨hzero, hdel⟩ : slot.getD 0 0 ≠ 0 ∧ slot.getD 0 0 ≠ 0xE5 := by
    rw [h.order]
    split
    · exact hbyte k hlt _ (by simp)
    · exact hbyte k hlt _ (by simp)
  rw [slotKind, if_neg hzero, if_neg hdel, if_pos h.attr]

theorem LfnSlot.chars (h : LfnSlot name k slot) (hname : LongName name) (hk : k < lfnCount name) :
    fatAppendLfnChars slot = ((name.map UInt8.toNat).drop (13 * k)).take 13 := by
  have hle : 13 * k ≤ (name.map UInt8.toNat).length := by
    rw [length_map]
    unfold lfnCount at hk
    omega
  rw [fatAppendLfnChars, h.units, lfnPart, drop_append_of_le_length hle, take_append, takeWhile_append_of_pos]
  · cases 13 - ((name.map UInt8.toNat).drop (13 * k)).length <;> simp
  · intro ch hch
    obtain ⟨b, hb, rfl⟩ := mem_map.1 (mem_of_mem_drop (mem_of_mem_take hch))
    have hb' := hname.toNat hb
    simp only [decide_eq_true_eq]
    omega

theorem foldl_lfnAfter {ks : List ℕ} (hname : LongName name)
    (h : List.Forall₂ (LfnSlot name) ks slots) (hks : ∀ k ∈ ks, k < lfnCount name)
    (lfn : List (List ℕ)) : slots.foldl lfnAfter lfn =
      lfn ++ ks.map fun k ↦ ((name.map UInt8.toNat).drop (13 * k)).take 13 := by
  induction h generalizing lfn with
  | nil => simp
  | @cons k slot ks slots hslot _ ih =>
    obtain ⟨hk, hrest⟩ := forall_mem_cons.1 hks
    have hne : ((name.map UInt8.toNat).drop (13 * k)).take 13 ≠ [] := by
      rw [← length_pos_iff, length_take, length_drop, length_map]
      unfold lfnCount at hk
      omega
    rw [foldl_cons, ih hrest, lfnAfter, hslot.kind hname hk]
    simp only [hslot.chars hname hk, if_neg hne]
    rw [append_assoc, map_cons, singleton_append]

theorem LfnSequence.decode (h : LfnSequence name slots) (hname : LongName name) :
    fatDecodeLfn (slots.foldl lfnAfter []) = some name := by
  have hpos := hname.pos
  have hcount : name.length ≤ 13 * lfnCount name := by
    unfold lfnCount
    omega
  have hchars : (name.map UInt8.toNat).map (fun ch ↦ if ch ≤ 0x7F then UInt8.ofNat ch else 0x3F) = name := by
    rw [map_map]
    refine (map_congr_left fun b hb ↦ ?_).trans (map_id _)
    have hb' := hname.toNat hb
    rw [comp_apply, if_pos (by omega), UInt8.ofNat_toNat, id]
  rw [foldl_lfnAfter hname h (fun k hk ↦ by simpa using hk), nil_append, fatDecodeLfn,
    ← map_reverse, reverse_reverse, flatten_parts, take_of_length_le (by simpa), hchars,
    if_neg (by rintro rfl; simp at hpos)]

end

/-- **A scan inverts the encoding of a long name.** The slots of a long name followed by a live
short entry show exactly one entry, under the long name and with the fields of the short entry,
whatever stands behind them and whatever complete entries stand before. -/
theorem long_name_scan {name : Bytes} (hname : LongName name) {lfn : List Bytes}
    (hlfn : LfnSequence name lfn) {short : Bytes} (hlen : short.length = 32)
    (hfirst : short.getD 0 0 ≠ 0x00 ∧ short.getD 0 0 ≠ 0xE5) (hattr : short.getD 11 0 &&& 0x08 = 0)
    {before after : List Bytes} (hbefore : ∀ s ∈ before, s.length = 32 ∧ slotKind s ≠ .endMark)
    (hcomplete : before.foldl lfnAfter [] = []) (hafter : ∀ s ∈ after, s.length = 32) :
    (fatScanDirEntriesEx (before ++ lfn ++ short :: after).flatten).1.map Prod.snd =
      (fatScanDirEntriesEx before.flatten).1.map Prod.snd ++ slotEntry name short ::
        (fatScanDirEntriesEx after.flatten).1.map Prod.snd := by
  have hlive : slotKind short = .live := by
    have hlong : short.getD 11 0 ≠ 0x0F := fun h ↦ by rw [h] at hattr; exact absurd hattr (by decide)
    rw [slotKind, if_neg hfirst.1, if_neg hfirst.2, if_neg hlong, if_neg (not_not.2 hattr)]
  have hseq : ∀ s ∈ lfn, s.length = 32 ∧ slotKind s = .longName := by
    intro s hs
    obtain ⟨k, hk, hslot⟩ := hlfn.of_mem hs
    exact ⟨hslot.length, hslot.kind hname hk⟩
  have hall : ∀ s ∈ before ++ lfn ++ short :: after, s.length = 32 := by
    simp only [mem_append, mem_cons]
    rintro s ((hs | hs) | rfl | hs)
    exacts [(hbefore s hs).1, (hseq s hs).1, hlen, hafter s hs]
  have hrecord : slotRecord (lfn.foldl lfnAfter []) short = some (slotEntry name short) := by
    simp [slotRecord, hlive, slotName, hlfn.decode hname]
  rw [fatScanDirEntriesEx, fatScanDirEntriesEx, fatScanDirEntriesEx, slotsOf_flatten hall,
    slotsOf_flatten fun s hs ↦ (hbefore s hs).1, slotsOf_flatten hafter, append_assoc,
    scanSlots_append fun s hs ↦ (hbefore s hs).2, hcomplete, scanSlots_append
    fun s hs ↦ by rw [(hseq s hs).2]; decide, scanSlots_longNames fun s hs ↦ (hseq s hs).2,
    scanSlots_cons (by rw [hlive]; decide), hrecord, scanSlots_shift after]
  simp [lfnAfter, hlive, comp_def]

def lfnSlotB : Bytes :=
  [0x41, 0x62, 0, 0, 0] ++ replicate 6 0xFF ++ [0x0F, 0, 0] ++ replicate 12 0xFF ++ [0, 0] ++
    replicate 4 0xFF

/-- The slot of a file `B` of one byte in cluster 4. -/
def shortSlotB : Bytes := 0x42 :: replicate 10 0x20 ++ 0x20 :: replicate 14 0 ++ [4, 0, 1, 0, 0, 0]

/-- The slots of a name of fourteen `b`, last part first. -/
def lfnSlotsB : List Bytes :=
  [0x42 :: 0x62 :: replicate 3 0 ++ replicate 6 0xFF ++ [0x0F, 0, 0] ++ replicate 12 0xFF ++ [0, 0] ++
    replicate 4 0xFF,
  1 :: (replicate 5 [0x62, 0]).flatten ++ [0x0F, 0, 0] ++ (replicate 6 [0x62, 0]).flatten ++
    [0, 0, 0x62, 0, 0x62, 0]]

theorem long_name_scan_b :
    (fatScanDirEntriesEx ([shortSlotB] ++ lfnSlotsB ++ [shortSlotB, shortSlotB]).flatten).1.map Prod.snd =
      (fatScanDirEntriesEx (List.flatten [shortSlotB])).1.map Prod.snd ++ slotEntry (replicate 14 0x62) shortSlotB ::
        (fatScanDirEntriesEx (List.flatten [shortSlotB])).1.map Prod.snd :=
  long_name_scan ⟨by decide, by decide, by decide +kernel⟩
    (show List.Forall₂ (LfnSlot (replicate 14 0x62)) [1, 0] lfnSlotsB from
      .cons ⟨rfl, by decide, by decide, by decide⟩ (.cons ⟨rfl, by decide, by decide, by decide⟩ .nil))
    rfl (by decide) (by decide) (by decide) (by decide) (by decide)

/-! ### Cluster boundaries -/

section

variable {v : View} {ty : FatType} {lfn : List (List ℕ)} {cs : List ℕ} {left : ℕ}

/-- The records of one scan over the slots of several clusters, each with its place. -/
def joinedRecords (v : View) : List (List ℕ) → List ℕ → List (SlotLoc × FatDirEntry)
  | _, [] => []
  | lfn, c :: cs =>
    (scanSlots (v.slots (some c)) 0 lfn).1.map (fun r ↦ (⟨some c, r.1⟩, r.2)) ++ if blockEnds v (some c) then []
      else joinedRecords v ((v.slots (some c)).foldl lfnAfter lfn) cs

/-- The place of a record of the scan of concatenated clusters, of `n` slots each. -/
def placeRecord (cs : List ℕ) (n : ℕ) (r : ℕ × FatDirEntry) : SlotLoc × FatDirEntry :=
  (⟨some (cs.getD (r.1 / n) 0), r.1 % n⟩, r.2)

theorem map_placeRecord {n : ℕ} (lfn : List (List ℕ)) (before : List ℕ) (hn : ∀ c ∈ cs, (v.slots (some c)).length = n) :
    (scanSlots (cs.flatMap fun c ↦ v.slots (some c)) (before.length * n) lfn).1.map
      (placeRecord (before ++ cs) n) = joinedRecords v lfn cs := by
  induction cs generalizing before lfn with
  | nil => rfl
  | cons c cs ih =>
    obtain ⟨hc, hcs⟩ := forall_mem_cons.1 hn
    -- the records of the first cluster
    have hfirst : (scanSlots (v.slots (some c)) (before.length * n) lfn).1.map (placeRecord (before ++ c :: cs) n) =
        (scanSlots (v.slots (some c)) 0 lfn).1.map fun r ↦ (⟨some c, r.1⟩, r.2) := by
      rw [scanSlots_shift, map_map]
      refine map_congr_left fun r hr ↦ ?_
      have hlt : r.1 < n := by
        have hmem : (0 + r.1, r.2) ∈ (scanSlots (v.slots (some c)) 0 lfn).1 := by rwa [Nat.zero_add]
        obtain ⟨s, hs, -⟩ := Option.bind_eq_some_iff.1 (mem_scanSlots.1 hmem).2
        exact hc ▸ (List.getElem?_eq_some_iff.1 hs).1
      rw [comp_apply, placeRecord, Nat.mul_comm, Nat.mul_add_div (by omega),
        Nat.div_eq_of_lt hlt, Nat.mul_add_mod, Nat.mod_eq_of_lt hlt]
      simp
    rw [flatMap_cons, joinedRecords]
    by_cases hends : blockEnds v (some c) = true
    · rw [scanSlots_append_of_ends (blockEnds_iff.1 hends), hfirst, if_pos hends, append_nil]
    · have hnext := ih ((v.slots (some c)).foldl lfnAfter lfn) (before ++ [c]) hcs
      rw [length_append, length_singleton, Nat.succ_mul, append_assoc] at hnext
      rw [scanSlots_append (blockEnds_eq_false_iff.1 (Bool.eq_false_iff.2 hends)), map_append,
        hfirst, hc, if_neg hends, ← hnext]
      rfl

/-- **Boundaries that make no difference**, for a listing that reads `left` clusters: in no cluster
does a record depend on the fragments of long names collected before it, up to the first end marker;
behind it, on FAT32, the clusters that are listed show nothing; and the clusters that are not listed
show nothing up to the first end marker. -/
def CleanBoundaries (ty : FatType) (v : View) : ℕ → List (List ℕ) → List ℕ → Prop
  | _, _, [] => True
  | left, lfn, c :: cs =>
    (scanSlots (v.slots (some c)) 0 lfn).1 = (if left = 0 then [] else (scanSlots (v.slots (some c)) 0 []).1) ∧
      if blockEnds v (some c) then ty = .fat32 → ∀ b ∈ cs.take (left - 1), blockRecords v (some b) = []
      else CleanBoundaries ty v (left - 1) ((v.slots (some c)).foldl lfnAfter lfn) cs

theorem dirRecords32_eq_nil : dirRecords .fat32 v (cs.map some) = [] ↔ ∀ b ∈ cs, blockRecords v (some b) = [] := by
  induction cs with
  | nil => simp [dirRecords]
  | cons c cs ih => rw [map_cons, dirRecords_cons32, append_eq_nil_iff, ih, forall_mem_cons]

theorem append_inj_of_cluster {c : ℕ} {a a' b b' : List (SlotLoc × FatDirEntry)}
    (ha : ∀ r ∈ a, r.1.cluster = some c) (ha' : ∀ r ∈ a', r.1.cluster = some c)
    (hb : ∀ r ∈ b, r.1.cluster ≠ some c) (hb' : ∀ r ∈ b', r.1.cluster ≠ some c) :
    a ++ b = a' ++ b' ↔ a = a' ∧ b = b' := by
  refine ⟨fun heq ↦ ?_, fun ⟨h, h'⟩ ↦ by rw [h, h']⟩
  have hfilter : ∀ {a b : List (SlotLoc × FatDirEntry)}, (∀ r ∈ a, r.1.cluster = some c) →
      (∀ r ∈ b, r.1.cluster ≠ some c) → (a ++ b).filter (fun r ↦ r.1.cluster = some c) = a := by
    intro a b ha hb
    rw [filter_append, filter_eq_self.2 (by simpa using ha), filter_eq_nil_iff.2 (by simpa using hb), append_nil]
  have hfirst : a = a' := by rw [← hfilter ha hb, heq, hfilter ha' hb']
  exact ⟨hfirst, append_cancel_left (hfirst ▸ heq)⟩

theorem cluster_of_mem_joined {r : SlotLoc × FatDirEntry} (h : r ∈ joinedRecords v lfn cs) :
    ∃ c ∈ cs, r.1.cluster = some c := by
  induction cs generalizing lfn with
  | nil => cases h
  | cons c cs ih =>
    rw [joinedRecords, mem_append, mem_map] at h
    rcases h with ⟨x, -, rfl⟩ | h
    · exact ⟨c, mem_cons_self, rfl⟩
    · split at h
      · cases h
      · obtain ⟨x, hx, hr⟩ := ih h
        exact ⟨x, mem_cons_of_mem _ hx, hr⟩

theorem dirRecords_eq_joined_iff (hnodup : cs.Nodup) :
    dirRecords ty v ((cs.take left).map some) = joinedRecords v lfn cs ↔ CleanBoundaries ty v left lfn cs := by
  induction cs generalizing left lfn with
  | nil => simp [dirRecords, joinedRecords, CleanBoundaries]
  | cons c cs ih =>
    obtain ⟨hnotMem, hnodup⟩ := nodup_cons.1 hnodup
    -- the listing, split at its first cluster
    have hlist : dirRecords ty v (((c :: cs).take left).map some) =
        (if left = 0 then [] else (scanSlots (v.slots (some c)) 0 []).1).map (fun r ↦ (⟨some c, r.1⟩, r.2)) ++
          if ty = .fat16 ∧ blockEnds v (some c) then []
          else dirRecords ty v ((cs.take (left - 1)).map some) := by
      cases left with
      | zero => simp [dirRecords]
      | succ left => rfl
    have hother : ∀ r ∈ joinedRecords v ((v.slots (some c)).foldl lfnAfter lfn) cs, r.1.cluster ≠ some c := by
      intro r hr heq
      obtain ⟨x, hx, hxr⟩ := cluster_of_mem_joined hr
      exact hnotMem (Option.some.inj (heq.symm.trans hxr) ▸ hx)
    have hother' : ∀ r ∈ dirRecords ty v ((cs.take (left - 1)).map some), r.1.cluster ≠ some c := by
      rintro ⟨loc, e⟩ hr heq
      obtain ⟨before, after, hsplit, -⟩ := mem_dirRecords.1 hr
      have hmem : loc.cluster ∈ (cs.take (left - 1)).map some := by rw [hsplit]; simp
      obtain ⟨x, hx, hxr⟩ := mem_map.1 hmem
      exact hnotMem (Option.some.inj (heq.symm.trans hxr.symm) ▸ mem_of_mem_take hx)
    have hinj : Injective fun r : ℕ × FatDirEntry ↦ ((⟨some c, r.1⟩, r.2) : SlotLoc × _) := by
      rintro ⟨i, e⟩ ⟨j, e'⟩ heq
      simpa using heq
    have hself : ∀ l : List (ℕ × FatDirEntry), ∀ r ∈ l.map fun r ↦ ((⟨some c, r.1⟩, r.2) : SlotLoc × _),
        r.1.cluster = some c := by
      intro l r hr
      obtain ⟨x, -, rfl⟩ := mem_map.1 hr
      rfl
    rw [hlist, joinedRecords, CleanBoundaries, append_inj_of_cluster (hself _) (hself _)
      (by split; exacts [forall_mem_nil _, hother']) (by split; exacts [forall_mem_nil _, hother]),
      hinj.list_map.eq_iff, eq_comm]
    refine and_congr_right fun _ ↦ ?_
    by_cases hends : blockEnds v (some c) = true
    · rw [if_pos hends, if_pos hends]
      cases ty with
      | fat16 => exact iff_of_true (if_pos ⟨rfl, hends⟩) (by rintro ⟨⟩)
      | fat32 =>
        rw [if_neg (fun h ↦ by cases h.1), dirRecords32_eq_nil]
        exact ⟨fun h _ ↦ h, fun h ↦ h rfl⟩
    · rw [if_neg fun h ↦ hends h.2, if_neg hends, if_neg hends, ih hnodup]

theorem slotsOf_flatMap (h : ∀ c ∈ cs, 32 ∣ (v.cluster c).length) :
    slotsOf (cs.flatMap v.cluster) = cs.flatMap fun c ↦ v.slots (some c) := by
  induction cs with
  | nil => simp [slotsOf]
  | cons c cs ih =>
    obtain ⟨hc, hcs⟩ := forall_mem_cons.1 h
    rw [flatMap_cons, flatMap_cons, slotsOf_append hc, ih hcs]
    rfl

end

section

variable {ss : ℕ} {block : BlockDevice ss} {vol : Volume} {d : Disk ss} {start : ℕ} {cs : List ℕ}

/-- `readDirEntries` with its arithmetic checked: the offset of the first cluster in the table, a
32-bit product, traps when it does not fit. Later clusters are entries of the table, which have 28
bits. -/
def readDirEntriesChecked (block : BlockDevice ss) (vol : Volume) (d : Disk ss) (fat : Bytes) (startCluster : ℕ) :
    Checked (Option (List FatDirEntry)) :=
  if 2 ^ 32 ≤ startCluster * 4 ∧ (readCluster block vol d startCluster).isSome then none
  else some (readDirEntries block vol d fat startCluster)

/-- `readFat16DirEntriesCluster` or `readDirEntries`, on a volume whose table was read. -/
def readDirectory (block : BlockDevice ss) (vol : Volume) (d : Disk ss) (start : ℕ) :
    Checked (Option (List FatDirEntry)) :=
  match vol.fatType with
  | .fat16 => some (readFat16DirEntriesCluster block vol d (table vol d) start)
  | .fat32 => readDirEntriesChecked block vol d (table vol d) start

/-- **What a listing returns** on a chain of clusters, and where it traps. -/
theorem readDirectory_eq (hm : Mountable vol.fatType block vol)
    (hc : ClusterChain vol.fatType (fatMaxCluster vol) (view vol d).link start cs)
    (hbad : ∀ c ∈ cs, (view vol d).link c ≠ fatBadCluster vol.fatType) :
    readDirectory block vol d start = if start < 2 ^ 30 then
      some (some ((dirRecords vol.fatType (view vol d) ((cs.take chainGuard).map some)).map Prod.snd)) else none := by
  have hlink := view_link vol d
  have hstart := hc.range start hc.linked.head_mem
  unfold readDirectory
  rcases hty : vol.fatType with - | -
  · rw [hty] at hm hc hlink
    have hmax := hm.fat16_max_lt
    have hsmall : start < 2 ^ 30 := by
      simp only [fatBadCluster] at hmax
      omega
    -- a chain of a FAT16 volume is shorter than the guard
    have hlen : cs.length ≤ chainGuard := by
      have hsub : cs ⊆ range (fatMaxCluster vol + 1) := fun c hmem ↦ by
        have := (hc.range c hmem).2
        simp only [mem_range]
        omega
      have := (hc.linked.nodup.subperm hsub).length_le
      simp only [length_range, fatBadCluster] at this hmax
      unfold chainGuard
      omega
    simp only [readFat16DirEntriesCluster]
    rw [if_pos hsmall, fatClusterChain_eq hmax (hlink ▸ hc) hlen, Option.bind_some, fat16DirLoop_eq hm hc.range,
      take_of_length_le hlen]
  · rw [hty] at hm hc hbad
    show readDirEntriesChecked block vol d (table vol d) start = _
    rw [readDirEntriesChecked, readCluster_eq hm hstart]
    by_cases hsmall : start < 2 ^ 30
    · rw [if_pos hsmall, if_neg (by omega), readDirEntries, readDirEntriesLoop_walk hm (by omega),
        dirWalk_chain hty hc.linked hc.range hbad (by omega), if_pos rfl]
    · rw [if_neg hsmall, if_pos ⟨by omega, rfl⟩]

/-- **Which directories are listed as one buffer.** On a chain of clusters of a mounted volume the
listing returns, unless its first cluster is so large that the offset in the table traps; and record
by record, with its slot, it is that of one scan over the concatenated clusters **if and only if**
the boundaries make no difference. -/
theorem listing_joined_iff (hm : Mountable vol.fatType block vol) (hslots : 32 ∣ ss)
    (hc : ClusterChain vol.fatType (fatMaxCluster vol) (view vol d).link start cs)
    (hbad : ∀ c ∈ cs, (view vol d).link c ≠ fatBadCluster vol.fatType) :
    (readDirectory block vol d start = if start < 2 ^ 30 then
        some (some ((dirRecords vol.fatType (view vol d) ((cs.take chainGuard).map some)).map Prod.snd)) else none) ∧
      (dirRecords vol.fatType (view vol d) ((cs.take chainGuard).map some) =
          (fatScanDirEntriesEx (cs.flatMap (view vol d).cluster)).1.map (placeRecord cs (clusterSize vol / 32)) ↔
        CleanBoundaries vol.fatType (view vol d) chainGuard [] cs) := by
  refine ⟨readDirectory_eq hm hc hbad, ?_⟩
  have hlen : ∀ c ∈ cs, ((view vol d).cluster c).length = clusterSize vol := fun c hmem ↦
    length_view_cluster hm d (hc.range c hmem).1
  have hdvd : 32 ∣ clusterSize vol := by
    rw [hm.clusterSize_eq]
    exact hslots.mul_left _
  have hlen' : ∀ c ∈ cs, ((view vol d).slots (some c)).length = clusterSize vol / 32 := fun c hmem ↦ by
    rw [View.slots, length_slotsOf]
    exact congrArg (· / 32) (hlen c hmem)
  have hjoined := map_placeRecord [] [] hlen'
  rw [length_nil, Nat.zero_mul, nil_append] at hjoined
  rw [fatScanDirEntriesEx, slotsOf_flatMap fun c hmem ↦ by rwa [hlen c hmem], hjoined,
    dirRecords_eq_joined_iff hc.linked.nodup]

end

/-! ### A long name across two clusters -/

def table23 : Sector 512 :=
  ⟨padZeros 512 [0xF8, 0xFF, 0xFF, 0x0F, 0xFF, 0xFF, 0xFF, 0x0F, 3, 0, 0, 0, 0xFF, 0xFF, 0xFF, 0x0F],
    length_padZeros (by decide)⟩

def lfnAtEnd : Sector 512 :=
  ⟨(replicate 15 (0xE5 :: replicate 31 0)).flatten ++ lfnSlotB, by decide +kernel⟩

def shortAtStart : Sector 512 := ⟨padZeros 512 shortSlotB, length_padZeros (by decide)⟩

/-- The FAT32 volume with these two clusters as its root directory. -/
def straddling32 : Disk 512 := update (disk32 table23 lfnAtEnd) 1073 shortAtStart

theorem straddling32_chain : ClusterChain .fat32 (fatMaxCluster vol32) (view vol32 straddling32).link 2 [2, 3] ∧
      ∀ c ∈ [2, 3], (view vol32 straddling32).link c ≠ fatBadCluster .fat32 := by
  have htable : table vol32 straddling32 = table vol32 (disk32 table23 lfnAtEnd) :=
    diskBytes_congr fun x _ hx ↦ update_of_ne (by have : x < 32 + 520 := hx; omega) ..
  have hlink : ∀ c < 128, (view vol32 straddling32).link c = fatNextCluster .fat32 table23.1 c := by
    intro c hc
    rw [view_link, htable, ← view_link, disk32_link _ _ hc]
  have h₂ : (view vol32 straddling32).link 2 = 3 := (hlink 2 (by decide)).trans (by decide +kernel)
  have h₃ : (view vol32 straddling32).link 3 = 0x0FFFFFFF := (hlink 3 (by decide)).trans (by decide +kernel)
  have hmax : fatMaxCluster vol32 = 65601 := by decide
  refine ⟨⟨.cons (b := 3) (by rw [linkNext, h₂]; rfl) (.last (by rw [linkNext, h₃]; rfl)), ?_⟩, ?_⟩
  · simp [hmax]
  · simp [h₂, h₃, fatBadCluster]

/-- The listing shows the file under its short name, one scan under its long name. -/
theorem listing_drops_long_name :
    readDirectory block32 vol32 straddling32 2 = some (some [slotEntry [0x42] shortSlotB]) ∧
      (fatScanDirEntriesEx ([2, 3].flatMap (view vol32 straddling32).cluster)).1.map Prod.snd =
        [slotEntry [0x62] shortSlotB] := by
  have h₂ : (view vol32 straddling32).cluster 2 = lfnAtEnd.1 := diskBytes_one straddling32 1072
  have h₃ : (view vol32 straddling32).cluster 3 = shortAtStart.1 := diskBytes_one straddling32 1073
  constructor
  · have hty : vol32.fatType = .fat32 := rfl
    rw [readDirectory_eq vol32_sound.mountable straddling32_chain.1 straddling32_chain.2, if_pos (by decide),
      take_of_length_le (by decide), hty, map_cons, map_singleton, dirRecords_cons32,
      dirRecords_cons32, map_append, map_append, map_snd_blockRecords, map_snd_blockRecords]
    simp only [View.block, h₂, h₃]
    decide +kernel
  · rw [flatMap_cons, flatMap_singleton, h₂, h₃]
    decide +kernel

theorem listing_joined_straddling32 : (readDirectory block32 vol32 straddling32 2 = if 2 < 2 ^ 30 then
        some (some ((dirRecords .fat32 (view vol32 straddling32) (([2, 3].take chainGuard).map some)).map Prod.snd))
          else none) ∧
      (dirRecords .fat32 (view vol32 straddling32) (([2, 3].take chainGuard).map some) =
          (fatScanDirEntriesEx ([2, 3].flatMap (view vol32 straddling32).cluster)).1.map
            (placeRecord [2, 3] (clusterSize vol32 / 32)) ↔
        CleanBoundaries .fat32 (view vol32 straddling32) chainGuard [] [2, 3]) :=
  listing_joined_iff vol32_sound.mountable (by decide) straddling32_chain.1 straddling32_chain.2

end CapazOS
