import CapazOS.Fat.Frame

/-!
# Scans as membership

Which records a directory shows, slot by slot: slot `j` of a block contributes `recordAt` unless an
end marker stands before it — in its block on FAT32, in the whole directory on FAT16. Replacing a
slot that is neither an end marker nor a long-name fragment by another such slot leaves every other
record alone (`changesOnly_of_quiet`), and so does replacing the first end marker of a FAT16
directory, provided that only end markers follow it (`changesOnly_of_end`).
-/

namespace CapazOS

open List

variable {lfn : List (List ℕ)} {e : FatDirEntry} {i j : ℕ} {v : View} {b : Option ℕ} {ty : FatType}
  {bs : List (Option ℕ)} {data s s₀ : Bytes} {α : Type*} {a : α}

/-! ### One block -/

/-- The long-name fragments collected before slot `j` of a block. -/
def lfnBefore (slots : List Bytes) (j : ℕ) : List (List ℕ) := (slots.take j).foldl lfnAfter []

def recordAt (slots : List Bytes) (j : ℕ) : Option FatDirEntry :=
  slots[j]?.bind (slotRecord (lfnBefore slots j))

def NoEndBefore (slots : List Bytes) (j : ℕ) : Prop := ∀ s ∈ slots.take j, slotKind s ≠ .endMark

theorem kind_of_slotRecord {slot : Bytes} (h : slotRecord lfn slot = some e) : slotKind slot = .live := by
  unfold slotRecord at h
  split at h
  · assumption
  · cases h

theorem mem_scanSlots {slots : List Bytes} : (i + j, e) ∈ (scanSlots slots i lfn).1 ↔ NoEndBefore slots j ∧
      slots[j]?.bind (slotRecord ((slots.take j).foldl lfnAfter lfn)) = some e := by
  induction slots generalizing i j lfn with
  | nil =>
    refine iff_of_false (not_mem_nil) ?_
    rintro ⟨-, h⟩
    cases h
  | cons slot rest ih =>
    rcases eq_or_ne (slotKind slot) .endMark with hend | hend
    · rw [scanSlots_endMark hend]
      refine iff_of_false (not_mem_nil) ?_
      rintro ⟨hno, hrec⟩
      cases j with
      | zero =>
        rw [kind_of_slotRecord (by simpa using hrec)] at hend
        cases hend
      | succ j => exact hno slot (by rw [take_succ_cons]; exact mem_cons_self) hend
    · rw [scanSlots_cons hend, mem_append, mem_map]
      cases j with
      | zero =>
        constructor
        · rintro (⟨x, hx, heq⟩ | h)
          · obtain ⟨-, rfl⟩ := Prod.mk.inj heq
            exact ⟨by simp [NoEndBefore], Option.mem_toList.1 hx⟩
          · exact absurd (le_of_mem_scanSlots h) (Nat.not_succ_le_self i)
        · rintro ⟨-, hrec⟩
          exact .inl ⟨e, Option.mem_toList.2 hrec, rfl⟩
      | succ j =>
        have hshift : i + (j + 1) = i + 1 + j := by omega
        have hno : NoEndBefore (slot :: rest) (j + 1) ↔ NoEndBefore rest j := by
          simp only [NoEndBefore, take_succ_cons, mem_cons, forall_eq_or_imp]
          exact and_iff_right hend
        rw [hshift, hno, take_succ_cons, foldl_cons, getElem?_cons_succ, ← ih]
        refine or_iff_right ?_
        rintro ⟨x, -, heq⟩
        have := (Prod.mk.inj heq).1
        omega

theorem scanSlots_ends {slots : List Bytes} :
    (scanSlots slots i lfn).2 = true ↔ ∃ s ∈ slots, slotKind s = .endMark := by
  induction slots generalizing i lfn with
  | nil => simp [scanSlots]
  | cons slot rest ih =>
    rcases eq_or_ne (slotKind slot) .endMark with hend | hend
    · rw [scanSlots_endMark hend]
      exact iff_of_true rfl ⟨slot, mem_cons_self, hend⟩
    · rw [scanSlots_cons hend, ih]
      simp [hend]

/-! ### Blocks of a volume -/

def View.slots (v : View) (b : Option ℕ) : List Bytes := slotsOf (v.block b)

theorem mem_scan_block : (j, e) ∈ (fatScanDirEntriesEx (v.block b)).1 ↔
      NoEndBefore (v.slots b) j ∧ recordAt (v.slots b) j = some e := by
  have h : (0 + j, e) ∈ (scanSlots (v.slots b) 0 []).1 ↔ _ := mem_scanSlots
  rwa [Nat.zero_add] at h

theorem blockEnds_iff : blockEnds v b = true ↔ ∃ s ∈ v.slots b, slotKind s = .endMark :=
  scanSlots_ends

def NoEnd (v : View) (b : Option ℕ) : Prop := ∀ s ∈ v.slots b, slotKind s ≠ .endMark

theorem blockEnds_eq_false_iff : blockEnds v b = false ↔ NoEnd v b := by
  rw [← Bool.not_eq_true, blockEnds_iff, NoEnd]
  simp

/-- **The records of a directory**, slot by slot. On FAT16 an end marker hides the blocks after its
own. -/
theorem mem_dirRecords {loc : SlotLoc} :
    (loc, e) ∈ dirRecords ty v bs ↔ ∃ before after, bs = before ++ loc.cluster :: after ∧
      (ty = .fat16 → ∀ b ∈ before, NoEnd v b) ∧
      NoEndBefore (v.slots loc.cluster) loc.slot ∧
      recordAt (v.slots loc.cluster) loc.slot = some e := by
  induction bs with
  | nil =>
    refine iff_of_false not_mem_nil ?_
    rintro ⟨before, after, heq, -⟩
    exact absurd heq.symm (append_ne_nil_of_right_ne_nil _ (cons_ne_nil _ _))
  | cons b bs ih =>
    rw [dirRecords, mem_append, mem_blockRecords, mem_scan_block]
    constructor
    · rintro (⟨rfl, hrec⟩ | h)
      · exact ⟨[], bs, rfl, by simp, hrec⟩
      · split at h
        · cases h
        · next hstop =>
          obtain ⟨before, after, rfl, hno, hrec⟩ := ih.1 h
          refine ⟨b :: before, after, rfl, fun hty x hx ↦ ?_, hrec⟩
          rcases mem_cons.1 hx with rfl | hx
          · exact blockEnds_eq_false_iff.1 (Bool.eq_false_iff.2 fun hends ↦ hstop ⟨hty, hends⟩)
          · exact hno hty x hx
    · rintro ⟨before, after, heq, hno, hrec⟩
      rcases before with - | ⟨x, before⟩
      · obtain ⟨rfl, rfl⟩ := List.cons.inj heq
        exact .inl ⟨rfl, hrec⟩
      · obtain ⟨rfl, rfl⟩ := List.cons.inj heq
        refine .inr ?_
        rw [if_neg]
        · exact ih.2 ⟨before, after, rfl, fun hty x hx ↦ hno hty x (mem_cons_of_mem _ hx), hrec⟩
        · rintro ⟨hty, hends⟩
          rw [blockEnds_eq_false_iff.2 (hno hty b mem_cons_self)] at hends
          cases hends

/-! ### Overwriting a slot -/

theorem length_slotsOf (data : Bytes) : (slotsOf data).length = data.length / 32 := by
  rw [slotsOf, length_map, length_range]

theorem getElem?_slotsOf (hi : i < data.length / 32) : (slotsOf data)[i]? = some (slice data (i * 32) 32) := by
  rw [slotsOf, getElem?_map, getElem?_range hi]
  rfl

theorem length_of_slot (h : (slotsOf data)[i]? = some s) : s.length = 32 := by
  have hi := (List.getElem?_eq_some_iff.1 h).1
  rw [length_slotsOf] at hi
  rw [getElem?_slotsOf hi] at h
  rw [← Option.some.inj h, length_slice (by omega)]

theorem slotsOf_writeAt (hs : s.length = 32) (hi : i < data.length / 32) :
    slotsOf (writeAt data (i * 32) s) = (slotsOf data).set i s := by
  have hfit : i * 32 + s.length ≤ data.length := by omega
  refine ext_getElem? fun j ↦ ?_
  rcases Nat.lt_or_ge j (data.length / 32) with hj | hj
  · rw [getElem?_slotsOf (by rwa [length_writeAt]), getElem?_set, length_slotsOf]
    rcases eq_or_ne i j with rfl | hne
    · have hself := slice_writeAt_self hfit
      rw [hs] at hself
      rw [if_pos rfl, if_pos hi, hself]
    · rw [if_neg hne, getElem?_slotsOf hj, slice_writeAt_disjoint hfit (by omega)]
  · rw [getElem?_eq_none (by rwa [length_slotsOf, length_writeAt]),
      getElem?_eq_none (by rwa [length_set, length_slotsOf])]

/-- The kinds of slots that neither end a directory nor add to a long name. -/
def Quiet (slot : Bytes) : Prop := slotKind slot ≠ .endMark ∧ slotKind slot ≠ .longName

theorem Quiet.lfnAfter {slot : Bytes} (h : Quiet slot) (lfn : List (List ℕ)) : lfnAfter lfn slot = [] := by
  unfold CapazOS.lfnAfter
  split
  · next hkind => exact absurd hkind h.2
  · rfl

theorem lfnBefore_set_of_le {slots : List Bytes} (s : Bytes) (h : j ≤ i) :
    lfnBefore (slots.set i s) j = lfnBefore slots j := by
  rw [lfnBefore, lfnBefore, take_set_of_le h]

theorem split_at {l : List α} (h : l[i]? = some a) : ∃ pre suf, l = pre ++ a :: suf ∧ pre.length = i := by
  obtain ⟨hlt, rfl⟩ := List.getElem?_eq_some_iff.1 h
  refine ⟨l.take i, l.drop (i + 1), ?_, by rw [length_take]; omega⟩
  rw [← drop_eq_getElem_cons hlt, take_append_drop]

theorem lfnBefore_set_of_lt {slots : List Bytes} (h : i < j) (h₀ : slots[i]? = some s₀) (hs₀ : Quiet s₀)
    (hs : Quiet s) : lfnBefore (slots.set i s) j = lfnBefore slots j := by
  obtain ⟨pre, suf, rfl, rfl⟩ := split_at h₀
  obtain ⟨k, rfl⟩ := Nat.exists_eq_add_of_lt h
  have hfold : ∀ x, Quiet x → lfnBefore (pre ++ x :: suf) (pre.length + k + 1) = (suf.take k).foldl lfnAfter [] := by
    intro x hx
    rw [lfnBefore, Nat.add_assoc, take_length_add_append, take_succ_cons, foldl_append, foldl_cons, hx.lfnAfter]
  have hset : (pre ++ s₀ :: suf).set pre.length s = pre ++ s :: suf := by
    rw [set_append_right _ _ (Nat.le_refl _), Nat.sub_self, set_cons_zero]
  rw [hset, hfold s hs, hfold s₀ hs₀]

theorem recordAt_set_of_ne {slots : List Bytes} (hne : j ≠ i) (h₀ : slots[i]? = some s₀) (hs₀ : Quiet s₀)
    (hs : Quiet s) : recordAt (slots.set i s) j = recordAt slots j := by
  rw [recordAt, recordAt, getElem?_set_ne hne.symm]
  rcases Nat.lt_or_gt_of_ne hne with hlt | hgt
  · rw [lfnBefore_set_of_le s hlt.le]
  · rw [lfnBefore_set_of_lt hgt h₀ hs₀ hs]

theorem recordAt_set_self {slots : List Bytes} (hi : i < slots.length) :
    recordAt (slots.set i s) i = slotRecord (lfnBefore slots i) s := by
  rw [recordAt, getElem?_set_self hi, lfnBefore_set_of_le s (Nat.le_refl i)]
  rfl

/-- Whether an end marker stands among some slots is not affected by overwriting one that is not an
end marker with another. -/
theorem forall_take_set {p : Bytes → Prop} {slots : List Bytes} {n : ℕ} (h₀ : slots[i]? = some s₀)
    (hp₀ : p s₀) (hp : p s) : (∀ x ∈ (slots.set i s).take n, p x) ↔ ∀ x ∈ slots.take n, p x := by
  obtain ⟨pre, suf, rfl, rfl⟩ := split_at h₀
  have hset : (pre ++ s₀ :: suf).set pre.length s = pre ++ s :: suf := by
    rw [set_append_right _ _ (Nat.le_refl _), Nat.sub_self, set_cons_zero]
  have hall : ∀ x, p x → ((∀ y ∈ (pre ++ x :: suf).take n, p y) ↔
      (∀ y ∈ pre.take n, p y) ∧ ∀ y ∈ suf.take (n - pre.length - 1), p y) := by
    intro x hx
    rw [take_append, forall_mem_append]
    refine and_congr_right fun _ ↦ ?_
    rcases Nat.lt_or_ge pre.length n with hlt | hge
    · obtain ⟨k, rfl⟩ := Nat.exists_eq_add_of_lt hlt
      rw [show pre.length + k + 1 - pre.length = k + 1 by omega, take_succ_cons, forall_mem_cons, Nat.add_sub_cancel]
      exact and_iff_right hx
    · rw [Nat.sub_eq_zero_of_le hge]
      simp
  rw [hset, hall s hp, hall s₀ hp₀]

/-- The blocks of the volume's directories in `v'` are those in `v` with one slot overwritten. -/
structure SlotWritten (vol : Volume) (v v' : View) (loc₀ : SlotLoc) (s₀ s : Bytes) : Prop where
  dirs : ∀ {dir : Option ℕ} {bs : List (Option ℕ)}, Reach vol v dir bs → IsDir vol v' dir bs
  old : (v.slots loc₀.cluster)[loc₀.slot]? = some s₀
  self : v'.slots loc₀.cluster = (v.slots loc₀.cluster).set loc₀.slot s
  other : ∀ {dir : Option ℕ} {bs : List (Option ℕ)}, Reach vol v dir bs → ∀ b ∈ bs,
    b ≠ loc₀.cluster → v'.slots b = v.slots b

def NotDirSlot (slot : Bytes) : Prop :=
  ∀ {lfn : List (List ℕ)} {e : FatDirEntry}, slotRecord lfn slot = some e → e.isDir = false

section

variable {vol : Volume} {v' : View} {loc₀ : SlotLoc}

section

variable (h : SlotWritten vol v v' loc₀ s₀ s)
include h

theorem SlotWritten.recordAt_self : recordAt (v'.slots loc₀.cluster) loc₀.slot =
      slotRecord (lfnBefore (v.slots loc₀.cluster) loc₀.slot) s := by
  obtain ⟨hlt, -⟩ := List.getElem?_eq_some_iff.1 h.old
  rw [h.self, recordAt_set_self hlt]

theorem SlotWritten.recordAt_old : recordAt (v.slots loc₀.cluster) loc₀.slot =
      slotRecord (lfnBefore (v.slots loc₀.cluster) loc₀.slot) s₀ := by
  rw [recordAt, h.old]
  rfl

theorem SlotWritten.file (hs₀ : NotDirSlot s₀) (hmem : (loc₀, e) ∈ dirRecords ty v bs) : e.isDir = false := by
  obtain ⟨-, -, -, -, -, hrec⟩ := mem_dirRecords.1 hmem
  rw [h.recordAt_old] at hrec
  exact hs₀ hrec

theorem SlotWritten.file' (hs : NotDirSlot s) (hmem : (loc₀, e) ∈ dirRecords ty v' bs) : e.isDir = false := by
  obtain ⟨-, -, -, -, -, hrec⟩ := mem_dirRecords.1 hmem
  rw [h.recordAt_self] at hrec
  exact hs hrec

end

/-- **A quiet slot replaced by a quiet slot** changes no other record, in either format. -/
theorem changesOnly_of_quiet (h : SlotWritten vol v v' loc₀ s₀ s) (hq₀ : Quiet s₀) (hq : Quiet s)
    (hd₀ : NotDirSlot s₀) (hd : NotDirSlot s) : ChangesOnly vol v v' loc₀ where
  dirs := h.dirs
  file := fun _ ↦ h.file hd₀
  file' := fun _ ↦ h.file' hd
  mem_iff := by
    intro dir bs hr loc e hne
    have hends : ∀ b ∈ bs, NoEnd v' b ↔ NoEnd v b := by
      intro b hb
      rcases eq_or_ne b loc₀.cluster with rfl | hbne
      · have hall := forall_take_set (p := fun x ↦ slotKind x ≠ .endMark)
          (n := (v.slots loc₀.cluster).length) h.old hq₀.1 hq.1
        rw [take_of_length_le (by rw [length_set]), take_length] at hall
        rw [NoEnd, h.self]
        exact hall
      · rw [NoEnd, NoEnd, h.other hr b hb hbne]
    have hslot : loc.cluster ∈ bs → ((NoEndBefore (v'.slots loc.cluster) loc.slot ↔
          NoEndBefore (v.slots loc.cluster) loc.slot) ∧
        recordAt (v'.slots loc.cluster) loc.slot = recordAt (v.slots loc.cluster) loc.slot) := by
      intro hb
      rcases eq_or_ne loc.cluster loc₀.cluster with hcl | hcl
      · have hslotne : loc.slot ≠ loc₀.slot := fun hs ↦ hne (by
          cases loc
          cases loc₀
          simp_all)
        rw [hcl, h.self]
        exact ⟨forall_take_set (p := fun x ↦ slotKind x ≠ .endMark) h.old hq₀.1 hq.1,
          recordAt_set_of_ne hslotne h.old hq₀ hq⟩
      · rw [h.other hr _ hb hcl]
        exact ⟨Iff.rfl, rfl⟩
    rw [mem_dirRecords, mem_dirRecords]
    refine exists_congr fun before ↦ exists_congr fun after ↦ and_congr_right fun heq ↦ ?_
    have hmem : loc.cluster ∈ bs := heq ▸ mem_append_right _ mem_cons_self
    rw [(hslot hmem).1, (hslot hmem).2]
    refine and_congr_left' (imp_congr_right fun _ ↦ forall₂_congr fun b hb ↦ hends b ?_)
    rw [heq]
    exact mem_append_left _ hb

/-- No live slot follows the slot `loc₀` in its directory. -/
def EndsAfter (v : View) (bs : List (Option ℕ)) (loc₀ : SlotLoc) : Prop :=
  (∀ j s, loc₀.slot < j → (v.slots loc₀.cluster)[j]? = some s → slotKind s ≠ .live) ∧
    ∀ before after, bs = before ++ loc₀.cluster :: after → ∀ b ∈ after, ∀ s ∈ v.slots b, slotKind s ≠ .live

/-- Two ways of cutting a list at an element: the first cut is the earlier one, the same, or the
later one. -/
theorem cut_cases {l₁ l₂ m₁ m₂ : List α} {b : α} (h : l₁ ++ a :: l₂ = m₁ ++ b :: m₂) :
    (∃ t, m₁ = l₁ ++ a :: t ∧ l₂ = t ++ b :: m₂) ∨ (l₁ = m₁ ∧ a = b ∧ l₂ = m₂) ∨
      ∃ t, l₁ = m₁ ++ b :: t ∧ m₂ = t ++ a :: l₂ := by
  rcases append_eq_append_iff.1 h with ⟨t, rfl, ht⟩ | ⟨t, rfl, ht⟩
  · rcases t with - | ⟨x, t⟩
    · obtain ⟨rfl, rfl⟩ := List.cons.inj ht
      exact .inr (.inl ⟨(append_nil _).symm, rfl, rfl⟩)
    · obtain ⟨rfl, rfl⟩ := List.cons.inj ht
      exact .inl ⟨t, rfl, rfl⟩
  · rcases t with - | ⟨x, t⟩
    · obtain ⟨rfl, rfl⟩ := List.cons.inj ht
      exact .inr (.inl ⟨append_nil _, rfl, rfl⟩)
    · obtain ⟨rfl, rfl⟩ := List.cons.inj ht
      exact .inr (.inr ⟨t, rfl, rfl⟩)

theorem order_of_split {l₁ l₂ m₁ m₂ : List α} {b : α} (h : l₁ ++ a :: l₂ = m₁ ++ b :: m₂) (hne : a ≠ b) :
    a ∈ m₁ ∧ b ∈ l₂ ∨ a ∈ m₂ ∧ b ∈ l₁ := by
  rcases cut_cases h with ⟨t, rfl, rfl⟩ | ⟨-, heq, -⟩ | ⟨t, rfl, rfl⟩
  · exact .inl ⟨by simp, by simp⟩
  · exact absurd heq hne
  · exact .inr ⟨by simp, by simp⟩

theorem NoEndBefore.lt {slots : List Bytes} (h : NoEndBefore slots j) (h₀ : slots[i]? = some s₀)
    (hend : slotKind s₀ = .endMark) : j ≤ i := by
  by_contra hlt
  refine h s₀ (mem_of_getElem? (i := i) ?_) hend
  rw [getElem?_take_of_lt (by omega), h₀]

/-- **The first end marker of a FAT16 directory replaced by a live slot** changes no other record,
when no live slot follows it. -/
theorem changesOnly_of_end (hty : vol.fatType = .fat16) (hw : Consistent vol v)
    (h : SlotWritten vol v v' loc₀ s₀ s) {dir₀ : Option ℕ} {bs₀ : List (Option ℕ)}
    (hr₀ : Reach vol v dir₀ bs₀) (hmem₀ : loc₀.cluster ∈ bs₀) (hend : slotKind s₀ = .endMark)
    (htail : EndsAfter v bs₀ loc₀) (hd : NotDirSlot s) : ChangesOnly vol v v' loc₀ where
  dirs := h.dirs
  file := fun _ ↦ h.file fun hrec ↦ by
    rw [kind_of_slotRecord hrec] at hend
    cases hend
  file' := fun _ ↦ h.file' hd
  mem_iff := by
    intro dir bs hr loc e hne
    rcases Decidable.em (loc₀.cluster ∈ bs) with hin | hout
    · -- the directory of the slot itself
      obtain rfl := hw.dir_unique hr hr₀ hin hmem₀
      obtain rfl := hr.isDir.unique hr₀.isDir
      have hnodup := hr.isDir.nodup
      -- a slot of the same block is hidden after `loc₀` and unaffected before it
      have hsame : loc.cluster = loc₀.cluster → loc.slot < loc₀.slot →
          ((NoEndBefore (v'.slots loc.cluster) loc.slot ↔ NoEndBefore (v.slots loc.cluster) loc.slot) ∧
          recordAt (v'.slots loc.cluster) loc.slot = recordAt (v.slots loc.cluster) loc.slot) := by
        intro hcl hlt
        rw [hcl, h.self, NoEndBefore, NoEndBefore, take_set_of_le hlt.le, recordAt, recordAt,
          getElem?_set_ne hlt.ne', lfnBefore_set_of_le s hlt.le]
        exact ⟨Iff.rfl, rfl⟩
      have hslotne : loc.cluster = loc₀.cluster → loc.slot ≠ loc₀.slot := fun hcl hs ↦ hne (by
        cases loc
        cases loc₀
        simp_all)
      have hbefore : ∀ {before after}, bs = before ++ loc.cluster :: after →
          loc₀.cluster ∉ before → ((vol.fatType = .fat16 → ∀ b ∈ before, NoEnd v' b) ↔
            (vol.fatType = .fat16 → ∀ b ∈ before, NoEnd v b)) := by
        intro before after heq hnot
        refine imp_congr_right fun _ ↦ forall₂_congr fun b hb ↦ ?_
        have hbne : b ≠ loc₀.cluster := fun hbeq ↦ hnot (hbeq ▸ hb)
        rw [NoEnd, NoEnd, h.other hr b (by rw [heq]; exact mem_append_left _ hb) hbne]
      rw [mem_dirRecords, mem_dirRecords]
      refine exists_congr fun before ↦ exists_congr fun after ↦ and_congr_right fun heq ↦ ?_
      have hmem : loc.cluster ∈ bs := heq ▸ mem_append_right _ mem_cons_self
      have hnot : loc₀.cluster ∈ loc.cluster :: after → loc₀.cluster ∉ before := by
        intro ha hb
        rw [heq] at hnodup
        exact (nodup_append.1 hnodup).2.2 _ hb _ ha rfl
      rcases eq_or_ne loc.cluster loc₀.cluster with hcl | hcl
      · rw [hbefore heq (hnot (hcl ▸ mem_cons_self))]
        rcases Nat.lt_or_gt_of_ne (hslotne hcl) with hlt | hgt
        · rw [(hsame hcl hlt).1, (hsame hcl hlt).2]
        · refine and_congr_right fun _ ↦ iff_of_false ?_ ?_
          · rintro ⟨-, hrec⟩
            rw [hcl, h.self, recordAt, getElem?_set_ne hgt.ne] at hrec
            obtain ⟨x, hx, hrec⟩ := Option.bind_eq_some_iff.1 hrec
            exact htail.1 _ x hgt hx (kind_of_slotRecord hrec)
          · rintro ⟨hno, -⟩
            rw [hcl] at hno
            exact absurd (hno.lt h.old hend) (Nat.not_le.2 hgt)
      · have hother := h.other hr _ hmem hcl
        rw [hother]
        obtain ⟨before₀, after₀, heq₀⟩ := append_of_mem hin
        rcases order_of_split (heq₀.symm.trans heq) hcl.symm with ⟨hb, ha⟩ | ⟨ha, -⟩
        · -- a later block: no slot in it is live
          refine iff_of_false ?_ ?_
          · rintro ⟨-, -, hrec⟩
            obtain ⟨x, hx, hrec⟩ := Option.bind_eq_some_iff.1 hrec
            exact htail.2 _ _ heq₀ _ ha x (mem_of_getElem? hx) (kind_of_slotRecord hrec)
          · rintro ⟨hno, -⟩
            exact hno hty _ hb s₀ (mem_of_getElem? h.old) hend
        · rw [hbefore heq (hnot (mem_cons_of_mem _ ha))]
    · rw [dirRecords_congr fun b hb ↦ h.other hr b hb fun heq ↦ hout (heq ▸ hb)]

end

end CapazOS
