import CapazOS.Fat.Directory

/-!
# Canonical paths and stored names

Grants are compared by the flat form of a path, and entries by the eleven bytes of a slot.
**Normalization is a projection** (`normalizePath_canonical`): the flat form of an accepted path
without spaces is accepted as that path. **A segment is read back from its slot unless its first
byte marks a slot as unused** (`shortName_roundTrip_iff`): the encoder passes `0x00` and `0xE5` on.
-/

namespace CapazOS

open List

variable {raw seg piece : Bytes} {path : NormalizedPath}

/-! ### Bytes of a segment -/

/-- **A segment of a normalized path** is normal, and its bytes are path bytes; they are no spaces
if the path has none. -/
theorem normalName_of_mem (h : normalizePath raw = some path) (hseg : seg ∈ path.segments) :
    (∃ base ext, NormalName seg base ext) ∧ ∀ b ∈ seg, PathByte b ∧ (0x20 ∉ raw → b ≠ 0x20) := by
  rcases normalizePath_pieces h with rfl | ⟨-, -, -, hpieces⟩
  · cases hseg
  · obtain ⟨piece, hpiece, hbytes⟩ := hpieces seg hseg
    obtain ⟨base, ext, hsplit, hname⟩ := normalName_of_normalizeSegment hpiece
    refine ⟨⟨base, ext, hname⟩, fun b hb ↦ ?_⟩
    have hparts : b ∈ base ++ ext → PathByte b ∧ (0x20 ∉ raw → b ≠ 0x20) := fun hb ↦ by
      obtain ⟨a, ha, rfl⟩ := mem_of_splitName hsplit hb
      obtain ⟨⟨hslash, hback, hcolon⟩, hmem⟩ := hbytes a ha
      exact ⟨⟨toUpperASCII_ne (by decide) hslash, toUpperASCII_ne (by decide) hback,
          toUpperASCII_ne (by decide) hcolon⟩,
        fun hraw ↦ toUpperASCII_ne (by decide) fun heq ↦ hraw (heq ▸ hmem)⟩
    rw [hname.seg_eq, joinName] at hb
    rcases mem_append.1 hb with hb | hb
    · exact hparts (mem_append_left _ hb)
    · split at hb
      · cases hb
      · rcases mem_cons.1 hb with rfl | hb
        · exact ⟨by decide, fun _ ↦ by decide⟩
        · exact hparts (mem_append_right _ hb)

/-! ### Normalizing a flat form -/

theorem pathSegments_append (h : ∀ b ∈ piece, PathByte b) (rest current : Bytes) :
    pathSegments (piece ++ rest) current = pathSegments rest (current ++ piece) := by
  induction piece generalizing current with
  | nil => rw [nil_append, append_nil]
  | cons b piece ih =>
    obtain ⟨⟨hslash, hback, hcolon⟩, hpiece⟩ := forall_mem_cons.1 h
    rw [cons_append, pathSegments, if_neg (not_or.2 ⟨hback, hcolon⟩), if_neg hslash, ih hpiece, append_assoc]
    rfl

theorem pathSegments_intercalate {segs : List Bytes}
    (h : ∀ seg ∈ segs, normalizeSegment seg = some seg ∧ ∀ b ∈ seg, PathByte b) :
    pathSegments ([(0x2F : UInt8)].intercalate segs) [] = some segs := by
  induction segs with
  | nil => rfl
  | cons s segs ih =>
    obtain ⟨⟨hs, hbytes⟩, hsegs⟩ := forall_mem_cons.1 h
    have hne : s ≠ [] := fun hnil ↦ by
      rw [hnil] at hs
      cases hs
    rcases segs with - | ⟨t, segs⟩
    · have happend := pathSegments_append hbytes [] []
      rw [append_nil] at happend
      rw [intercalate_singleton, happend, nil_append, pathSegments, if_neg hne, hs, Option.map_some]
    · rw [intercalate_cons_cons, append_assoc, pathSegments_append hbytes, nil_append, singleton_append,
        pathSegments, if_neg (by decide), if_pos rfl, if_neg hne, hs, Option.bind_some, ih hsegs,
        Option.map_some]

theorem mem_intercalate {segs : List Bytes} {sep b : UInt8} (h : b ∈ [sep].intercalate segs) :
    b = sep ∨ ∃ seg ∈ segs, b ∈ seg := by
  induction segs with
  | nil => cases h
  | cons s segs ih =>
    rcases segs with - | ⟨s', segs⟩
    · exact .inr ⟨s, mem_cons_self, by simpa [List.intercalate] using h⟩
    · rw [intercalate_cons_cons, mem_append, mem_append] at h
      rcases h with (h | h) | h
      · exact .inr ⟨s, mem_cons_self, h⟩
      · exact .inl (mem_singleton.1 h)
      · rcases ih h with h | ⟨seg, hseg, h⟩
        · exact .inl h
        · exact .inr ⟨seg, mem_cons_of_mem _ hseg, h⟩

/-- The flat form of a normalized path without spaces normalizes to the path. -/
theorem normalizePath_flat (hraw : 0x20 ∉ raw) (h : normalizePath raw = some path) :
    normalizePath path.flat = some path := by
  have hsegs := fun seg (hseg : seg ∈ path.segments) ↦ normalName_of_mem h hseg
  rcases normalizePath_pieces h with rfl | ⟨hroot, hne, hflat, -⟩
  · decide
  obtain ⟨flat, segments, isRoot⟩ := path
  obtain ⟨s, ss, rfl⟩ := exists_cons_of_ne_nil hne
  simp only at hroot hflat hsegs ⊢
  subst hroot hflat
  have hspace : ∀ b ∈ [(0x2F : UInt8)].intercalate (s :: ss), b ≠ 0x20 := by
    intro b hb
    rcases mem_intercalate hb with rfl | ⟨seg, hseg, hb⟩
    · decide
    · exact ((hsegs seg hseg).2 b hb).2 hraw
  -- the first byte belongs to the first segment
  obtain ⟨b, rest, hcons, hb⟩ : ∃ b rest, [(0x2F : UInt8)].intercalate (s :: ss) = b :: rest ∧ b ≠ 0x2F := by
    obtain ⟨⟨base, ext, hname⟩, hbytes⟩ := hsegs s mem_cons_self
    obtain ⟨b, s, rfl⟩ := exists_cons_of_ne_nil hname.seg_ne_nil
    have hb := (hbytes b mem_cons_self).1.1
    rcases ss with - | ⟨t, ss⟩
    · exact ⟨b, s, intercalate_singleton, hb⟩
    · exact ⟨b, _, intercalate_cons_cons, hb⟩
  have hsplit : pathSegments ([(0x2F : UInt8)].intercalate (s :: ss)) [] = some (s :: ss) :=
    pathSegments_intercalate fun seg hseg ↦ by
      obtain ⟨⟨base, ext, hname⟩, hbytes⟩ := hsegs seg hseg
      exact ⟨hname.normalize, fun b hb ↦ (hbytes b hb).1⟩
  have htrim := trimSpaces_padSpaces (n := 0) hspace
  rw [padSpaces, Nat.zero_sub, replicate_zero, append_nil] at htrim
  have hnil : b :: rest ≠ [] := cons_ne_nil _ _
  have hslash : b :: rest ≠ [0x2F] := fun heq ↦ hb (List.cons.inj heq).1
  have hhead : (b :: rest).head? ≠ some 0x2F := fun heq ↦ hb (Option.some.inj heq)
  rw [hcons] at htrim hsplit ⊢
  simp only [normalizePath, htrim, if_neg hnil, if_neg hslash, if_neg hhead, hsplit, hcons]

/-- **Normalization is canonical**: it accepts its own flat form as the same path, flat forms are
equal exactly when the segments are, and every segment is an upper-case 8.3 name without a slash
that is neither `.` nor `..`. -/
theorem normalizePath_canonical {raw : Bytes} {path : NormalizedPath} (hraw : 0x20 ∉ raw)
    (h : normalizePath raw = some path) :
    normalizePath path.flat = some path ∧
      (∀ {raw' : Bytes} {path' : NormalizedPath}, 0x20 ∉ raw' → normalizePath raw' = some path' →
        (path.flat = path'.flat ↔ path.segments = path'.segments)) ∧
      ∀ seg ∈ path.segments, (∃ base ext, NormalName seg base ext) ∧ seg ≠ [0x2E] ∧ seg ≠ [0x2E, 0x2E] ∧
        0x2F ∉ seg := by
  refine ⟨normalizePath_flat hraw h, fun {raw' path'} hraw' h' ↦ ⟨fun heq ↦ ?_, fun heq ↦ ?_⟩, fun seg hseg ↦ ?_⟩
  · have hflat := normalizePath_flat hraw h
    rw [heq, normalizePath_flat hraw' h'] at hflat
    rw [Option.some.inj hflat]
  · rcases normalizePath_pieces h with rfl | ⟨-, hne, hflat, -⟩ <;>
      rcases normalizePath_pieces h' with rfl | ⟨-, hne', hflat', -⟩
    · rfl
    · exact absurd heq.symm hne'
    · exact absurd heq hne
    · rw [hflat, hflat', heq]
  · obtain ⟨⟨base, ext, hname⟩, hbytes⟩ := normalName_of_mem h hseg
    obtain ⟨hdot, hdots⟩ := hname.not_dots
    exact ⟨⟨base, ext, hname⟩, hdot, hdots, fun hmem ↦ (hbytes _ hmem).1.1 rfl⟩

theorem normalizePath_canonical_ab : normalizePath [0x2F, 0x61, 0x2F, 0x62, 0x2E, 0x74] =
      some ⟨[0x41, 0x2F, 0x42, 0x2E, 0x54], [[0x41], [0x42, 0x2E, 0x54]], false⟩ ∧
    normalizePath [0x41, 0x2F, 0x42, 0x2E, 0x54] =
      some ⟨[0x41, 0x2F, 0x42, 0x2E, 0x54], [[0x41], [0x42, 0x2E, 0x54]], false⟩ := by
  have h : normalizePath [0x2F, 0x61, 0x2F, 0x62, 0x2E, 0x74] =
    some ⟨[0x41, 0x2F, 0x42, 0x2E, 0x54], [[0x41], [0x42, 0x2E, 0x54]], false⟩ := by decide +kernel
  exact ⟨h, (normalizePath_canonical (by decide) h).1⟩

/-! ### Stored names -/

theorem NormalName.head_encode {base ext : Bytes} (h : NormalName seg base ext) :
    seg.head? = some ((padSpaces 8 base ++ padSpaces 3 ext).getD 0 0) := by
  obtain ⟨b, base, rfl⟩ := exists_cons_of_ne_nil h.base_ne
  rw [h.seg_eq]
  rfl

theorem scan_regular {slot : Bytes} (hlen : slot.length = 32) (hattr : slot.getD 11 0 &&& 0x18 = 0) :
    (fatScanDirEntriesEx slot).1 = if slot.getD 0 0 = 0x00 ∨ slot.getD 0 0 = 0xE5 then []
      else ((fatDecodeShortName slot).map fun name ↦ (0, slotEntry name slot)).toList := by
  have hslots : slotsOf slot = [slot] := by
    rw [slotsOf, hlen]
    simp [slice, take_of_length_le hlen.le]
  have hall : ∀ n < 256, UInt8.ofNat n &&& 0x18 = 0 → UInt8.ofNat n ≠ 0x0F ∧ UInt8.ofNat n &&& 0x08 = 0 := by
    decide +kernel
  have hkind := hall (slot.getD 11 0).toNat (slot.getD 11 0).toNat_lt
  rw [UInt8.ofNat_toNat] at hkind
  obtain ⟨hlong, hlabel⟩ := hkind hattr
  rw [fatScanDirEntriesEx, hslots]
  rcases eq_or_ne (slot.getD 0 0) 0x00 with hzero | hzero
  · have hend : slotKind slot = .endMark := by
      rw [slotKind]
      simp only [hzero, if_true]
    rw [scanSlots_endMark hend, if_pos (.inl hzero)]
  rcases eq_or_ne (slot.getD 0 0) 0xE5 with hdel | hdel
  · have hdeleted : slotKind slot = .deleted := by
      rw [slotKind]
      simp only [hdel, if_true]
      rfl
    rw [scanSlots_cons (by rw [hdeleted]; decide), if_pos (.inr hdel), slotRecord, hdeleted]
    rfl
  · have hlive : slotKind slot = .live := by
      rw [slotKind]
      simp only [if_neg hzero, if_neg hdel, if_neg hlong, hlabel, ne_eq, not_true, if_false]
    rw [scanSlots_cons (by rw [hlive]; decide), if_neg (not_or.2 ⟨hzero, hdel⟩), slotRecord, hlive]
    show (Option.map _ (slotName [] slot)).toList.map _ ++ [] = _
    rw [append_nil, slotName, show fatDecodeLfn [] = none from rfl, Option.none_or]
    cases fatDecodeShortName slot <;> rfl

/-- **A segment is read back from a slot with its encoding iff its first byte is none of the two
that mark a slot as unused**; and distinct segments have distinct encodings. -/
theorem shortName_roundTrip_iff {raw : Bytes} {path : NormalizedPath} (hraw : 0x20 ∉ raw)
    (h : normalizePath raw = some path) {seg : Bytes} (hseg : seg ∈ path.segments) :
    ∃ short, fatEncodeShortName seg = some short ∧ short.length = 11 ∧
      (∀ {slot : Bytes}, slot.length = 32 → slice slot 0 11 = short → slot.getD 11 0 &&& 0x18 = 0 →
        ((∃ e, (fatScanDirEntriesEx slot).1 = [(0, e)] ∧ e.name = seg) ↔
          seg.head? ≠ some 0x00 ∧ seg.head? ≠ some 0xE5)) ∧
      ∀ {raw' : Bytes} {path' : NormalizedPath}, 0x20 ∉ raw' → normalizePath raw' = some path' →
        ∀ seg' ∈ path'.segments, fatEncodeShortName seg' = some short → seg' = seg := by
  obtain ⟨⟨base, ext, hname⟩, hbytes⟩ := normalName_of_mem h hseg
  have hlen : (padSpaces 8 base ++ padSpaces 3 ext).length = 11 := by
    rw [length_append, length_padSpaces hname.base_le, length_padSpaces hname.ext_le]
  refine ⟨_, hname.encode, hlen, fun {slot} hslot hshort hattr ↦ ?_, fun {raw' path'} hraw' h' seg' hseg' hshort' ↦ ?_⟩
  · have hfirst : seg.head? = some (slot.getD 0 0) := by
      rw [hname.head_encode, ← hshort, getD_slice_zero slot (by omega)]
    rw [scan_regular hslot hattr, hfirst, decode_of_encoded hname (fun b hb ↦ (hbytes b hb).2 hraw) hshort]
    simp only [ne_eq, Option.some.injEq]
    split
    · next hfree => exact iff_of_false (fun ⟨e, hnil, _⟩ ↦ nomatch hnil) (by tauto)
    · next hfree => exact iff_of_true ⟨_, rfl, rfl⟩ (by tauto)
  · obtain ⟨⟨base', ext', hname'⟩, hbytes'⟩ := normalName_of_mem h' hseg'
    have hself : slice (padSpaces 8 base ++ padSpaces 3 ext) 0 11 = padSpaces 8 base ++ padSpaces 3 ext := by
      rw [slice, drop_zero, take_of_length_le hlen.le]
    have hdecode := decode_of_encoded hname (fun b hb ↦ (hbytes b hb).2 hraw) hself
    rw [decode_of_encoded hname' (fun b hb ↦ (hbytes' b hb).2 hraw')
      (hself.trans (Option.some.inj (hshort'.symm.trans hname'.encode)))] at hdecode
    exact Option.some.inj hdecode

/-- A slot with the name bytes `short` and the attribute of an ordinary file. -/
def plainSlot (short : Bytes) : Bytes := short ++ 0x20 :: replicate 20 0

theorem shortName_roundTrip_a : ∃ e,
    (fatScanDirEntriesEx (plainSlot (padSpaces 8 [0x41] ++ padSpaces 3 [0x54]))).1 = [(0, e)] ∧
      e.name = [0x41, 0x2E, 0x54] := by
  have h : normalizePath [0x61, 0x2E, 0x74] = some ⟨[0x41, 0x2E, 0x54], [[0x41, 0x2E, 0x54]], false⟩ := by
    decide +kernel
  obtain ⟨short, hshort, -, hscan, -⟩ := shortName_roundTrip_iff (by decide) h mem_cons_self
  obtain rfl : padSpaces 8 [0x41] ++ padSpaces 3 [0x54] = short := by
    refine Option.some.inj (Eq.trans ?_ hshort)
    decide +kernel
  exact (hscan (by decide +kernel) (by decide +kernel) (by decide +kernel)).2 (by decide)

/-- **A name that starts with `0xE5` is stored as a deleted slot.** -/
theorem shortName_lost : normalizePath [0xE5] = some ⟨[0xE5], [[0xE5]], false⟩ ∧
    fatEncodeShortName [0xE5] = some (padSpaces 8 [0xE5] ++ padSpaces 3 []) ∧
    (fatScanDirEntriesEx (plainSlot (padSpaces 8 [0xE5] ++ padSpaces 3 []))).1 = [] := by
  decide +kernel

end CapazOS
