import CapazOS.Lib.Bytes
import Mathlib.Data.List.DropRight

/-!
# Names and paths

Upper-case 8.3 names, as a path names them (`BASE.EXT`) and as a slot stores them (eleven bytes
padded with spaces), and the normalization of paths. A segment without spaces is what a slot with
its encoding is read back as (`decode_of_encoded`).
-/

namespace CapazOS

open List

variable {bs raw seg base ext : Bytes} {n : ℕ}

/-! ### The source functions -/

def toUpperASCII (b : UInt8) : UInt8 := if 0x61 ≤ b ∧ b ≤ 0x7A then b - 0x20 else b

def trimSpaces (bytes : Bytes) : Bytes := (bytes.dropWhile (· = 0x20)).rdropWhile (· = 0x20)

/-- The loops of `normalizeSegment` and `fatEncodeShortName`: the bytes before and after the dot in
upper case, `none` at a second dot. -/
def splitName (raw : Bytes) : Option (Bytes × Bytes) :=
  let base := raw.takeWhile (· ≠ 0x2E)
  let ext := (raw.dropWhile (· ≠ 0x2E)).drop 1
  if 0x2E ∈ ext then none else some (base.map toUpperASCII, ext.map toUpperASCII)

/-- A name and an extension with the dot between them, when there is an extension. -/
def joinName (base ext : Bytes) : Bytes := base ++ if ext = [] then [] else 0x2E :: ext

def normalizeSegment (raw : Bytes) : Option Bytes :=
  if raw = [] ∨ raw = [0x2E] ∨ raw = [0x2E, 0x2E] then none
  else
    match splitName raw with
    | none => none
    | some (name, ext) =>
      if name = [] ∨ 8 < name.length ∨ 3 < ext.length then none else some (joinName name ext)

structure NormalizedPath where
  flat : Bytes
  segments : List Bytes
  isRoot : Bool
  deriving DecidableEq

/-- The loop of `normalizePath` over the bytes after the leading slash; a trailing slash is
allowed, an empty segment is not. -/
def pathSegments : Bytes → Bytes → Option (List Bytes)
  | [], current => if current = [] then some [] else (normalizeSegment current).map fun s ↦ [s]
  | b :: rest, current =>
    if b = 0x5C ∨ b = 0x3A then none
    else if b = 0x2F then
      if current = [] then none
      else
        (normalizeSegment current).bind fun s ↦ (pathSegments rest []).map fun ss ↦ s :: ss
    else pathSegments rest (current ++ [b])

def normalizePath (raw : Bytes) : Option NormalizedPath :=
  let trimmed := trimSpaces raw
  if trimmed = [] then none
  else if trimmed = [0x2F] then some { flat := [0x2F], segments := [], isRoot := true }
  else
    let trimmed := if trimmed.head? = some 0x2F then trimmed.drop 1 else trimmed
    match pathSegments trimmed [] with
    | none => none
    | some [] => none
    | some (s :: ss) =>
      some { flat := [(0x2F : UInt8)].intercalate (s :: ss), segments := s :: ss, isRoot := false }

/-- `fatDecodeShortName` of a directory slot. -/
def fatDecodeShortName (slot : Bytes) : Option Bytes :=
  let nameBytes := trimSpaces (slice slot 0 8)
  let extBytes := trimSpaces (slice slot 8 3)
  if nameBytes = [] then none
  else some (joinName (nameBytes.map toUpperASCII) (extBytes.map toUpperASCII))

def padSpaces (n : ℕ) (bytes : Bytes) : Bytes := bytes ++ replicate (n - bytes.length) 0x20

def fatEncodeShortName (name : Bytes) : Option Bytes :=
  if name = [] then none
  else
    match splitName name with
    | none => none
    | some (base, ext) =>
      if base = [] ∨ 8 < base.length ∨ 3 < ext.length then none
      else some (padSpaces 8 base ++ padSpaces 3 ext)

/-! ### Normalized segments -/

/-- A normalized segment, taken apart. -/
structure NormalName (seg base ext : Bytes) : Prop where
  seg_eq : seg = joinName base ext
  base_ne : base ≠ []
  base_le : base.length ≤ 8
  ext_le : ext.length ≤ 3
  base_dot : 0x2E ∉ base
  ext_dot : 0x2E ∉ ext
  base_upper : base.map toUpperASCII = base
  ext_upper : ext.map toUpperASCII = ext

theorem toUpperASCII_idem (b : UInt8) : toUpperASCII (toUpperASCII b) = toUpperASCII b := by
  have hall : ∀ n < 256, toUpperASCII (toUpperASCII (UInt8.ofNat n)) = toUpperASCII (UInt8.ofNat n) := by decide +kernel
  have hb := hall b.toNat b.toNat_lt
  rwa [UInt8.ofNat_toNat] at hb

theorem toUpperASCII_ne {b c : UInt8} (hc : ¬(0x41 ≤ c ∧ c ≤ 0x5A)) (h : b ≠ c) : toUpperASCII b ≠ c := by
  have hall : ∀ n < 256, toUpperASCII (UInt8.ofNat n) = UInt8.ofNat n ∨
      0x41 ≤ toUpperASCII (UInt8.ofNat n) ∧ toUpperASCII (UInt8.ofNat n) ≤ 0x5A := by
    decide +kernel
  have hb := hall b.toNat b.toNat_lt
  rw [UInt8.ofNat_toNat] at hb
  rcases hb with hb | hb
  · rwa [hb]
  · exact fun heq ↦ hc (heq ▸ hb)

theorem dot_notMem_map_upper (h : 0x2E ∉ bs) : 0x2E ∉ bs.map toUpperASCII := by
  intro hmem
  obtain ⟨b, hb, hdot⟩ := mem_map.1 hmem
  exact toUpperASCII_ne (c := 0x2E) (by decide) (fun heq ↦ h (heq ▸ hb)) hdot

theorem map_upper_idem (bs : Bytes) : (bs.map toUpperASCII).map toUpperASCII = bs.map toUpperASCII := by
  rw [map_map]
  exact map_congr_left fun b _ ↦ toUpperASCII_idem b

theorem dot_notMem_takeWhile (raw : Bytes) : 0x2E ∉ raw.takeWhile (· ≠ 0x2E) := fun hmem ↦
  absurd (mem_takeWhile_imp hmem) (by simp)

theorem mem_of_splitName (h : splitName raw = some (base, ext)) {b : UInt8} (hb : b ∈ base ++ ext) :
    ∃ a ∈ raw, toUpperASCII a = b := by
  unfold splitName at h
  simp only at h
  split at h
  · cases h
  · obtain ⟨rfl, rfl⟩ := Prod.mk.inj (Option.some.inj h)
    rw [← map_append] at hb
    obtain ⟨a, ha, rfl⟩ := mem_map.1 hb
    refine ⟨a, ?_, rfl⟩
    rcases mem_append.1 ha with ha | ha
    · exact IsPrefix.mem ha <| takeWhile_prefix _
    · exact ((drop_suffix _ _).trans (dropWhile_suffix _)).subset ha

theorem normalName_of_normalizeSegment (h : normalizeSegment raw = some seg) :
    ∃ base ext, splitName raw = some (base, ext) ∧ NormalName seg base ext := by
  unfold normalizeSegment at h
  split at h
  · cases h
  · split at h
    · cases h
    · next name ext hsplit =>
      refine ⟨name, ext, hsplit, ?_⟩
      unfold splitName at hsplit
      simp only at hsplit
      split at hsplit
      · cases hsplit
      · next hdot =>
        obtain ⟨rfl, rfl⟩ := Prod.mk.inj (Option.some.inj hsplit)
        split at h
        · cases h
        · next hlen =>
          obtain rfl := Option.some.inj h
          exact ⟨rfl, by tauto, by omega, by omega,
            dot_notMem_map_upper (dot_notMem_takeWhile raw), dot_notMem_map_upper hdot,
            map_upper_idem _, map_upper_idem _⟩

section

variable (h : NormalName seg base ext)
include h

theorem NormalName.split : splitName seg = some (base, ext) := by
  have hbase : ∀ b ∈ base, (decide (b ≠ 0x2E)) = true := fun b hb ↦ decide_eq_true fun heq ↦ h.base_dot (heq ▸ hb)
  have htake : ∀ rest : Bytes, rest.head? = none ∨ rest.head? = some 0x2E →
      (base ++ rest).takeWhile (· ≠ 0x2E) = base ∧ (base ++ rest).dropWhile (· ≠ 0x2E) = rest := by
    intro rest hrest
    rw [takeWhile_append_of_pos hbase, dropWhile_append_of_pos hbase]
    rcases rest with - | ⟨b, rest⟩
    · exact ⟨append_nil _, rfl⟩
    · rcases hrest with hnone | hsome
      · cases hnone
      · obtain rfl := Option.some.inj hsome
        exact ⟨by simp, by simp⟩
  rw [h.seg_eq, joinName, splitName]
  split
  · next hext =>
    obtain ⟨h₁, h₂⟩ := htake [] (.inl rfl)
    simp only [h₁, h₂, h.base_upper, hext]
    rfl
  · obtain ⟨h₁, h₂⟩ := htake (0x2E :: ext) (.inr rfl)
    simp only [h₁, h₂, drop_one, tail_cons]
    rw [if_neg h.ext_dot, h.base_upper, h.ext_upper]

theorem NormalName.seg_ne_nil : seg ≠ [] := by
  rw [h.seg_eq, joinName]
  exact fun heq ↦ h.base_ne (append_eq_nil_iff.1 heq).1

theorem NormalName.encode : fatEncodeShortName seg = some (padSpaces 8 base ++ padSpaces 3 ext) := by
  have hlen₈ := h.base_le
  have hlen₃ := h.ext_le
  rw [fatEncodeShortName, if_neg h.seg_ne_nil, h.split]
  simp only
  rw [if_neg (by simp only [h.base_ne, false_or]; omega)]

theorem NormalName.not_dots : seg ≠ [0x2E] ∧ seg ≠ [0x2E, 0x2E] := by
  have hhead : ∀ rest : Bytes, seg ≠ 0x2E :: rest := by
    intro rest heq
    rw [h.seg_eq, joinName] at heq
    obtain ⟨b, bs, hb⟩ := exists_cons_of_ne_nil h.base_ne
    rw [hb, cons_append] at heq
    exact h.base_dot (by rw [hb, (List.cons.inj heq).1]; exact mem_cons_self)
  exact ⟨hhead _, hhead _⟩

theorem NormalName.normalize : normalizeSegment seg = some seg := by
  obtain ⟨hdot, hdots⟩ := h.not_dots
  have hlen := h.base_le
  have hlen' := h.ext_le
  rw [normalizeSegment, if_neg (by simp only [h.seg_ne_nil, hdot, hdots, or_self, not_false_iff]), h.split]
  simp only
  rw [if_neg (by simp only [h.base_ne, false_or]; omega), h.seg_eq]

end

/-- A byte that may stand between two slashes. -/
def PathByte (b : UInt8) : Prop := b ≠ 0x2F ∧ b ≠ 0x5C ∧ b ≠ 0x3A

instance (b : UInt8) : Decidable (PathByte b) := inferInstanceAs (Decidable (_ ∧ _))

theorem mem_pathSegments {current : Bytes} {segs : List Bytes} (h : pathSegments raw current = some segs)
    (hcur : ∀ b ∈ current, PathByte b) :
    ∀ seg ∈ segs, ∃ piece, normalizeSegment piece = some seg ∧ ∀ b ∈ piece, PathByte b ∧ b ∈ current ++ raw := by
  induction raw generalizing current segs with
  | nil =>
    rw [pathSegments] at h
    split at h
    · obtain rfl := Option.some.inj h
      simp
    · obtain ⟨s, hs, rfl⟩ := Option.map_eq_some_iff.1 h
      intro seg hseg
      obtain rfl := mem_singleton.1 hseg
      exact ⟨current, hs, fun b hb ↦ ⟨hcur b hb, mem_append_left _ hb⟩⟩
  | cons b raw ih =>
    rw [pathSegments] at h
    split_ifs at h with hbad hslash
    · obtain ⟨s, hs, h⟩ := Option.bind_eq_some_iff.1 h
      obtain ⟨ss, hss, rfl⟩ := Option.map_eq_some_iff.1 h
      intro seg hseg
      rcases mem_cons.1 hseg with rfl | hseg
      · exact ⟨current, hs, fun b hb ↦ ⟨hcur b hb, mem_append_left _ hb⟩⟩
      · obtain ⟨piece, hpiece, hbytes⟩ := ih hss (fun _ hb ↦ nomatch hb) seg hseg
        exact ⟨piece, hpiece, fun x hx ↦ ⟨(hbytes x hx).1, mem_append_right _ (mem_cons_of_mem _ (hbytes x hx).2)⟩⟩
    · intro seg hseg
      have hcur' : ∀ x ∈ current ++ [b], PathByte x := fun x hx ↦ by
        rcases mem_append.1 hx with hx | hx
        · exact hcur x hx
        · rw [mem_singleton.1 hx]
          exact ⟨hslash, fun heq ↦ hbad (.inl heq), fun heq ↦ hbad (.inr heq)⟩
      obtain ⟨piece, hpiece, hbytes⟩ := ih h hcur' seg hseg
      rw [append_assoc] at hbytes
      exact ⟨piece, hpiece, hbytes⟩

/-- **What a normalized path is**: the root, or the normal forms of pieces of it. -/
theorem normalizePath_pieces {path : NormalizedPath} (h : normalizePath raw = some path) : path = ⟨[0x2F], [], true⟩ ∨
      path.isRoot = false ∧ path.segments ≠ [] ∧ path.flat = [(0x2F : UInt8)].intercalate path.segments ∧
        ∀ seg ∈ path.segments, ∃ piece, normalizeSegment piece = some seg ∧ ∀ b ∈ piece, PathByte b ∧ b ∈ raw := by
  unfold normalizePath at h
  simp only at h
  split at h
  · cases h
  · split at h
    · exact .inl (Option.some.inj h).symm
    · split at h
      · cases h
      · cases h
      · next s ss hsegs =>
        obtain rfl := Option.some.inj h
        refine .inr ⟨rfl, cons_ne_nil _ _, rfl, fun seg hseg ↦ ?_⟩
        obtain ⟨piece, hpiece, hbytes⟩ := mem_pathSegments hsegs (fun _ hb ↦ nomatch hb) seg hseg
        refine ⟨piece, hpiece, fun b hb ↦ ⟨(hbytes b hb).1, ?_⟩⟩
        have hmem : b ∈ trimSpaces raw := by
          have hmem := (hbytes b hb).2
          split at hmem
          · exact mem_of_mem_drop hmem
          · exact hmem
        exact (dropWhile_suffix _).subset <| IsPrefix.mem hmem <| rdropWhile_prefix _ _

theorem normalizePath_cases {path : NormalizedPath} (h : normalizePath raw = some path) :
    path.isRoot = true ∧ path.segments = [] ∨ path.isRoot = false ∧ path.segments ≠ [] ∧
        ∀ seg ∈ path.segments, ∃ base ext, NormalName seg base ext := by
  rcases normalizePath_pieces h with rfl | ⟨hroot, hne, -, hpieces⟩
  · exact .inl ⟨rfl, rfl⟩
  · refine .inr ⟨hroot, hne, fun seg hseg ↦ ?_⟩
    obtain ⟨piece, hpiece, -⟩ := hpieces seg hseg
    obtain ⟨base, ext, -, hname⟩ := normalName_of_normalizeSegment hpiece
    exact ⟨base, ext, hname⟩

/-! ### The round trip -/

theorem rdropWhile_padSpaces (hspace : ∀ b ∈ bs, b ≠ 0x20) : (padSpaces n bs).rdropWhile (· = 0x20) = bs := by
  unfold padSpaces
  induction n - bs.length with
  | zero =>
    rw [replicate_zero, append_nil, rdropWhile_eq_self_iff]
    intro hne
    exact by simpa using hspace _ (getLast_mem hne)
  | succ k ih =>
    rw [replicate_succ', ← append_assoc, rdropWhile_concat_pos _ _ _ (by simp), ih]

theorem trimSpaces_padSpaces (hspace : ∀ b ∈ bs, b ≠ 0x20) : trimSpaces (padSpaces n bs) = bs := by
  rcases bs with - | ⟨b, bs⟩
  · have hall : ∀ k : ℕ, trimSpaces (replicate k 0x20) = [] := by
      intro k
      have hdrop : (replicate k (0x20 : UInt8)).dropWhile (· = 0x20) = [] := by
        rw [dropWhile_eq_nil_iff]
        intro b hb
        exact decide_eq_true (eq_of_mem_replicate hb)
      rw [trimSpaces, hdrop]
      rfl
    exact hall _
  · have hdrop : (padSpaces n (b :: bs)).dropWhile (· = 0x20) = padSpaces n (b :: bs) := by
      rw [padSpaces, cons_append, dropWhile_cons_of_neg (by simpa using hspace b mem_cons_self)]
    rw [trimSpaces, hdrop, rdropWhile_padSpaces hspace]

@[simp] theorem length_padSpaces (h : bs.length ≤ n) : (padSpaces n bs).length = n := by
  rw [padSpaces, length_append, length_replicate]
  omega

/-- A slot whose first eleven bytes are the encoding of a normalized segment without spaces is read
as that segment. -/
theorem decode_of_encoded {slot : Bytes} (h : NormalName seg base ext) (hspace : ∀ b ∈ seg, b ≠ 0x20)
    (hslot : slice slot 0 11 = padSpaces 8 base ++ padSpaces 3 ext) : fatDecodeShortName slot = some seg := by
  have hbase : ∀ b ∈ base, b ≠ 0x20 := fun b hb ↦ hspace b (by
    rw [h.seg_eq, joinName]
    exact mem_append_left _ hb)
  have hext : ∀ b ∈ ext, b ≠ 0x20 := fun b hb ↦ hspace b (by
    rw [h.seg_eq, joinName, if_neg (ne_nil_of_mem hb)]
    exact mem_append_right _ (mem_cons_of_mem _ hb))
  have hlen₈ := length_padSpaces h.base_le
  have hname : slice slot 0 8 = padSpaces 8 base := by
    have hsub : slice (slice slot 0 11) 0 8 = slice slot 0 8 := slice_slice (by omega)
    rw [← hsub, hslot, slice, drop_zero, take_append_of_le_length (by omega), take_of_length_le (by omega)]
  have hextSlice : slice slot 8 3 = padSpaces 3 ext := by
    have hsub : slice (slice slot 0 11) 8 3 = slice slot (0 + 8) 3 := slice_slice (by omega)
    rw [← hsub, hslot, slice, drop_append_of_le_length (by omega), drop_of_length_le (by omega),
      nil_append, take_of_length_le (by rw [length_padSpaces h.ext_le])]
  rw [fatDecodeShortName, hname, hextSlice, trimSpaces_padSpaces hbase, trimSpaces_padSpaces hext,
    if_neg h.base_ne, h.base_upper, h.ext_upper, h.seg_eq]

end CapazOS
