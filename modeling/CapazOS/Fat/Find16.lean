import CapazOS.Fat.Lookup16

/-!
# The FAT16 scan for an entry or a free slot

Over the list of all slots of a directory `fat16FindEntryOrFreeLocation` is one loop, `findFlat`: it
returns the first live slot that carries the short name, or none if an end marker comes first, and
in either case **the first deleted slot on the way**, or else the end marker (`findFlat_spec`).
-/

namespace CapazOS

open List

variable {v : View} {bs : List (Option ℕ)} {loc l : SlotLoc} {s x name : Bytes} {vol : Volume}
  {dir : Option ℕ} {pre suf slots : List (SlotLoc × Bytes)} {short : Option Bytes} {freeLoc : Option SlotLoc}

variable {ss : ℕ}

/-! ### The slots of a directory -/

/-- The slots of a block from number `i` on, with their places. -/
def blockSlots (b : Option ℕ) (slots : List Bytes) (i : ℕ) : List (SlotLoc × Bytes) :=
  (slots.zipIdx i).map fun x ↦ (⟨b, x.2⟩, x.1)

/-- The slots of a directory in the order of a scan, with their places. -/
def dirSlots (v : View) (bs : List (Option ℕ)) : List (SlotLoc × Bytes) :=
  bs.flatMap fun b ↦ blockSlots b (v.slots b) 0

theorem blockSlots_cons (b : Option ℕ) (slot : Bytes) (slots : List Bytes) (i : ℕ) :
    blockSlots b (slot :: slots) i = (⟨b, i⟩, slot) :: blockSlots b slots (i + 1) := rfl

theorem blockSlots_append (b : Option ℕ) (s t : List Bytes) (i : ℕ) :
    blockSlots b (s ++ t) i = blockSlots b s i ++ blockSlots b t (i + s.length) := by
  rw [blockSlots, zipIdx_append, map_append]
  rfl

theorem dirSlots_cons (v : View) (b : Option ℕ) (bs : List (Option ℕ)) :
    dirSlots v (b :: bs) = blockSlots b (v.slots b) 0 ++ dirSlots v bs := flatMap_cons

theorem length_blockSlots (b : Option ℕ) (slots : List Bytes) (i : ℕ) :
    (blockSlots b slots i).length = slots.length := by
  rw [blockSlots, length_map, length_zipIdx]

theorem getElem?_blockSlots (b : Option ℕ) (slots : List Bytes) (j : ℕ) :
    (blockSlots b slots 0)[j]? = slots[j]?.map fun s ↦ (⟨b, j⟩, s) := by
  rw [blockSlots, getElem?_map, getElem?_zipIdx, Option.map_map]
  refine congrArg (Option.map · slots[j]?) (funext fun s ↦ ?_)
  simp

theorem mem_blockSlots {b : Option ℕ} {slots : List Bytes} {i : ℕ} {x : SlotLoc × Bytes} :
    x ∈ blockSlots b slots i ↔ x.1.cluster = b ∧ i ≤ x.1.slot ∧ slots[x.1.slot - i]? = some x.2 := by
  obtain ⟨⟨b', j⟩, s⟩ := x
  rw [blockSlots, mem_map]
  constructor
  · rintro ⟨⟨s', j'⟩, hmem, heq⟩
    obtain ⟨hloc, rfl⟩ := Prod.mk.inj heq
    obtain ⟨rfl, rfl⟩ := SlotLoc.mk.inj hloc
    exact ⟨rfl, mk_mem_zipIdx_iff_le_and_getElem?_sub.1 hmem⟩
  · rintro ⟨rfl, hle, hget⟩
    exact ⟨(s, j), mk_mem_zipIdx_iff_le_and_getElem?_sub.2 ⟨hle, hget⟩, rfl⟩

theorem mem_dirSlots : (loc, s) ∈ dirSlots v bs ↔ loc.cluster ∈ bs ∧ (v.slots loc.cluster)[loc.slot]? = some s := by
  simp only [dirSlots, mem_flatMap, mem_blockSlots, Nat.zero_le, true_and, Nat.sub_zero]
  constructor
  · rintro ⟨b, hb, rfl, hget⟩
    exact ⟨hb, hget⟩
  · rintro ⟨hb, hget⟩
    exact ⟨loc.cluster, hb, rfl, hget⟩

theorem dirSlots_at (v : View) (before after : List (Option ℕ)) (h : (v.slots loc.cluster)[loc.slot]? = some s) :
    dirSlots v (before ++ loc.cluster :: after) =
      (dirSlots v before ++ blockSlots loc.cluster ((v.slots loc.cluster).take loc.slot) 0) ++
        (loc, s) :: (blockSlots loc.cluster ((v.slots loc.cluster).drop (loc.slot + 1))
          (loc.slot + 1) ++ dirSlots v after) := by
  obtain ⟨hlt, rfl⟩ := List.getElem?_eq_some_iff.1 h
  have hsplit : v.slots loc.cluster = (v.slots loc.cluster).take loc.slot ++
      (v.slots loc.cluster)[loc.slot] :: (v.slots loc.cluster).drop (loc.slot + 1) := by
    rw [← drop_eq_getElem_cons hlt, take_append_drop]
  have hblock : blockSlots loc.cluster (v.slots loc.cluster) 0 =
      blockSlots loc.cluster ((v.slots loc.cluster).take loc.slot) 0 ++ (loc, (v.slots loc.cluster)[loc.slot]) ::
          blockSlots loc.cluster ((v.slots loc.cluster).drop (loc.slot + 1)) (loc.slot + 1) := by
    conv_lhs => rw [hsplit]
    rw [blockSlots_append, length_take_of_le hlt.le, Nat.zero_add, blockSlots_cons]
  rw [dirSlots, flatMap_append, flatMap_cons, hblock]
  simp only [append_assoc, cons_append]
  rfl

/-! ### Slots that a scan reaches -/

/-- The scan of a directory reaches the slot `loc`, which holds `s`. -/
def Shown (v : View) (bs : List (Option ℕ)) (loc : SlotLoc) (s : Bytes) : Prop :=
  ∃ pre suf, dirSlots v bs = pre ++ (loc, s) :: suf ∧ ∀ x ∈ pre, slotKind x.2 ≠ .endMark

theorem Shown.mem (h : Shown v bs loc s) : (loc, s) ∈ dirSlots v bs := by
  obtain ⟨pre, suf, heq, -⟩ := h
  exact heq ▸ mem_append_right _ mem_cons_self

theorem IsDir.validSlot (h : IsDir vol v dir bs) (hmem : (loc, s) ∈ dirSlots v bs) : ValidSlot vol v loc := by
  obtain ⟨hblock, hget⟩ := mem_dirSlots.1 hmem
  exact ⟨h.validBlock hblock, (List.getElem?_eq_some_iff.1 hget).1⟩

theorem blocks_of_dirSlots (h : dirSlots v bs = pre ++ (loc, s) :: suf) :
    ∃ before after, bs = before ++ loc.cluster :: after ∧ (v.slots loc.cluster)[loc.slot]? = some s ∧
      pre = dirSlots v before ++ blockSlots loc.cluster ((v.slots loc.cluster).take loc.slot) 0 := by
  induction bs generalizing pre with
  | nil => exact absurd h.symm (append_ne_nil_of_right_ne_nil _ (cons_ne_nil _ _))
  | cons b bs ih =>
    -- the slot stands in a later block
    have hlater : ∀ {t}, dirSlots v bs = t ++ (loc, s) :: suf → pre = blockSlots b (v.slots b) 0 ++ t →
        ∃ before after, b :: bs = before ++ loc.cluster :: after ∧
          (v.slots loc.cluster)[loc.slot]? = some s ∧ pre = dirSlots v before ++
            blockSlots loc.cluster ((v.slots loc.cluster).take loc.slot) 0 := by
      intro t ht hpre
      obtain ⟨before, after, rfl, hget, rfl⟩ := ih ht
      refine ⟨b :: before, after, rfl, hget, ?_⟩
      rw [hpre, dirSlots_cons, append_assoc]
    rw [dirSlots_cons] at h
    rcases append_eq_append_iff.1 h with ⟨t, hpre, ht⟩ | ⟨t, hblock, ht⟩
    · exact hlater ht hpre
    · rcases t with - | ⟨x, t⟩
      · exact hlater (t := []) ht.symm (by rw [hblock, append_nil, append_nil])
      · -- it stands in this one, and its number is the number of slots before it
        obtain ⟨rfl, -⟩ := List.cons.inj ht
        have hget : (blockSlots b (v.slots b) 0)[pre.length]? = some (loc, s) := by
          rw [hblock, getElem?_append_right (Nat.le_refl _), Nat.sub_self]
          rfl
        rw [getElem?_blockSlots, Option.map_eq_some_iff] at hget
        obtain ⟨s', hget, heq⟩ := hget
        obtain ⟨rfl, rfl⟩ := Prod.mk.inj heq
        have hlt := (List.getElem?_eq_some_iff.1 hget).1
        refine ⟨[], bs, rfl, hget, ?_⟩
        rw [← take_append_drop pre.length (v.slots b), blockSlots_append] at hblock
        refine (append_inj_left hblock ?_).symm
        rw [length_blockSlots, length_take]
        omega

/-- **Slots a scan reaches**: no end marker stands before them, in their block or an earlier one. -/
theorem shown_iff : Shown v bs loc s ↔ ∃ before after, bs = before ++ loc.cluster :: after ∧
      (∀ b ∈ before, NoEnd v b) ∧ NoEndBefore (v.slots loc.cluster) loc.slot ∧
      (v.slots loc.cluster)[loc.slot]? = some s := by
  have hpre : ∀ before : List (Option ℕ), (∀ x ∈ dirSlots v before ++
        blockSlots loc.cluster ((v.slots loc.cluster).take loc.slot) 0,
        slotKind x.2 ≠ .endMark) ↔
      (∀ b ∈ before, NoEnd v b) ∧ NoEndBefore (v.slots loc.cluster) loc.slot := by
    intro before
    rw [forall_mem_append]
    refine and_congr ⟨fun h b hb s hs ↦ ?_, ?_⟩ ⟨fun h s hs ↦ ?_, ?_⟩
    · obtain ⟨j, hj⟩ := mem_iff_getElem?.1 hs
      exact h (⟨b, j⟩, s) (mem_dirSlots.2 ⟨hb, hj⟩)
    · rintro h ⟨l, s⟩ hmem
      obtain ⟨hb, hget⟩ := mem_dirSlots.1 hmem
      exact h _ hb s (mem_of_getElem? hget)
    · obtain ⟨j, hj⟩ := mem_iff_getElem?.1 hs
      exact h (⟨loc.cluster, j⟩, s) (mem_blockSlots.2 ⟨rfl, Nat.zero_le _, hj⟩)
    · rintro h ⟨l, s⟩ hmem
      exact h s (mem_of_getElem? (mem_blockSlots.1 hmem).2.2)
  constructor
  · rintro ⟨pre, suf, heq, hno⟩
    obtain ⟨before, after, hbs, hget, rfl⟩ := blocks_of_dirSlots heq
    obtain ⟨hb, hs⟩ := (hpre before).1 hno
    exact ⟨before, after, hbs, hb, hs, hget⟩
  · rintro ⟨before, after, rfl, hb, hs, hget⟩
    exact ⟨_, _, dirSlots_at v before after hget, (hpre before).2 ⟨hb, hs⟩⟩

theorem mem_dirRecords16 {e : FatDirEntry} : (loc, e) ∈ dirRecords .fat16 v bs ↔ ∃ s, Shown v bs loc s ∧
      slotRecord (lfnBefore (v.slots loc.cluster) loc.slot) s = some e := by
  rw [mem_dirRecords]
  simp only [shown_iff, forall_const, recordAt, Option.bind_eq_some_iff]
  constructor
  · rintro ⟨before, after, hbs, hb, hs, s, hget, hrec⟩
    exact ⟨s, ⟨before, after, hbs, hb, hs, hget⟩, hrec⟩
  · rintro ⟨s, ⟨before, after, hbs, hb, hs, hget⟩, hrec⟩
    exact ⟨before, after, hbs, hb, hs, s, hget, hrec⟩

/-- Only end markers follow an end marker in the directory. -/
def TailClean (v : View) (bs : List (Option ℕ)) : Prop :=
  ∀ pre suf loc s, dirSlots v bs = pre ++ (loc, s) :: suf → slotKind s = .endMark → ∀ x ∈ suf, slotKind x.2 = .endMark

/-- No live slot follows an end marker in the directory. -/
def TailFree (v : View) (bs : List (Option ℕ)) : Prop :=
  ∀ pre suf loc s, dirSlots v bs = pre ++ (loc, s) :: suf → slotKind s = .endMark → ∀ x ∈ suf, slotKind x.2 ≠ .live

theorem TailClean.tailFree (h : TailClean v bs) : TailFree v bs := by
  intro pre suf loc s heq hend x hx
  rw [h pre suf loc s heq hend x hx]
  decide

theorem TailFree.endsAfter (h : TailFree v bs) (hmem : (loc, s) ∈ dirSlots v bs)
    (hend : slotKind s = .endMark) : EndsAfter v bs loc := by
  obtain ⟨hb, hget⟩ := mem_dirSlots.1 hmem
  have hafter : ∀ before after, bs = before ++ loc.cluster :: after →
      ∀ x ∈ blockSlots loc.cluster ((v.slots loc.cluster).drop (loc.slot + 1)) (loc.slot + 1) ++
        dirSlots v after, slotKind x.2 ≠ .live := by
    rintro before after rfl
    exact h _ _ loc s (dirSlots_at v before after hget) hend
  constructor
  · intro j s' hlt hget'
    obtain ⟨before, after, hbs⟩ := append_of_mem hb
    refine hafter before after hbs (⟨loc.cluster, j⟩, s') (mem_append_left _ ?_)
    refine mem_blockSlots.2 ⟨rfl, hlt, ?_⟩
    rw [getElem?_drop, ← hget']
    congr 1
    show loc.slot + 1 + (j - (loc.slot + 1)) = j
    omega
  · intro before after hbs b hb' s' hs'
    obtain ⟨j, hj⟩ := mem_iff_getElem?.1 hs'
    exact hafter before after hbs (⟨b, j⟩, s') (mem_append_right _ (mem_dirSlots.2 ⟨hb', hj⟩))

/-! ### Slots after one of them was overwritten -/

section

variable {v' : View} {loc₀ : SlotLoc} {s₀ : Bytes}

/-- What is in one slot matters for another one only as an end marker before it. -/
theorem Shown.swap (hold : dirSlots v bs = pre ++ (loc₀, s₀) :: suf) (hnew : dirSlots v' bs = pre ++ (loc₀, s) :: suf)
    (hne : l ≠ loc₀) (hs : (l, x) ∈ suf → slotKind s ≠ .endMark) (hshown : Shown v bs l x) : Shown v' bs l x := by
  obtain ⟨p, q, heq, hp⟩ := hshown
  rcases cut_cases (hold.symm.trans heq) with ⟨t, rfl, rfl⟩ | ⟨-, hloc, -⟩ | ⟨t, rfl, rfl⟩
  · refine ⟨pre ++ (loc₀, s) :: t, q, ?_, ?_⟩
    · rw [hnew, append_assoc, cons_append]
    · rw [forall_mem_append, forall_mem_cons] at hp ⊢
      exact ⟨hp.1, hs (mem_append_right _ mem_cons_self), hp.2.2⟩
  · exact absurd (Prod.mk.inj hloc).1.symm hne
  · refine ⟨p, t ++ (loc₀, s) :: suf, ?_, hp⟩
    rw [hnew, append_assoc, cons_append]

section

variable (h : SlotWritten vol v v' loc₀ s₀ s) (hr : Reach vol v dir bs)
include h hr

theorem SlotWritten.dirSlots_eq (heq : dirSlots v bs = pre ++ (loc₀, s₀) :: suf) :
    dirSlots v' bs = pre ++ (loc₀, s) :: suf := by
  obtain ⟨before, after, rfl, hget, rfl⟩ := blocks_of_dirSlots heq
  have hlt := (List.getElem?_eq_some_iff.1 hget).1
  rw [dirSlots_at v before after hget] at heq
  obtain rfl := (List.cons.inj (append_cancel_left heq)).2
  have hnodup := hr.isDir.nodup
  -- the other blocks are the same
  have hblocks : ∀ l : List (Option ℕ), (∀ b ∈ l, b ∈ before ++ loc₀.cluster :: after) →
      loc₀.cluster ∉ l → dirSlots v' l = dirSlots v l := by
    intro l hl hnot
    refine flatMap_congr fun b hb ↦ ?_
    rw [h.other hr b (hl b hb) fun heq ↦ hnot (heq ▸ hb)]
  obtain ⟨-, hafter, hsep⟩ := nodup_append.1 hnodup
  have hnew : (v'.slots loc₀.cluster)[loc₀.slot]? = some s := by rw [h.self, getElem?_set_self hlt]
  rw [dirSlots_at v' before after hnew, h.self, take_set_of_le (Nat.le_refl _), drop_set_of_lt (Nat.lt_succ_self _),
    hblocks before (fun b hb ↦ mem_append_left _ hb) fun hb ↦ hsep _ hb _ mem_cons_self rfl,
    hblocks after (fun b hb ↦ mem_append_right _ (mem_cons_of_mem _ hb)) (nodup_cons.1 hafter).1]

theorem SlotWritten.shown_self (hshown : Shown v bs loc₀ s₀) : Shown v' bs loc₀ s := by
  obtain ⟨pre, suf, heq, hpre⟩ := hshown
  exact ⟨pre, suf, h.dirSlots_eq hr heq, hpre⟩

theorem SlotWritten.shown_other (hmem : (loc₀, s₀) ∈ dirSlots v bs) (hs : slotKind s ≠ .endMark)
    (hne : l ≠ loc₀) (hshown : Shown v bs l x) : Shown v' bs l x := by
  obtain ⟨pre, suf, hsplit⟩ := append_of_mem hmem
  exact hshown.swap hsplit (h.dirSlots_eq hr hsplit) hne fun _ ↦ hs

/-- Live slots that are reached after the write were reached before, if no live slot followed an end
marker. -/
theorem SlotWritten.shown_of_shown (hmem : (loc₀, s₀) ∈ dirSlots v bs) (htail : TailFree v bs)
    (hne : l ≠ loc₀) (hlive : slotKind x = .live) (hshown : Shown v' bs l x) : Shown v bs l x := by
  obtain ⟨pre, suf, hsplit⟩ := append_of_mem hmem
  exact hshown.swap (h.dirSlots_eq hr hsplit) hsplit hne fun hsuf hend ↦
    htail pre _ loc₀ s₀ hsplit hend (l, x) hsuf hlive

end

end

/-! ### The scan -/

def findFlat (short : Option Bytes) (name : Bytes) :
    List (SlotLoc × Bytes) → Option SlotLoc → Option FatDirEntry × Option SlotLoc
  | [], freeLoc => (none, freeLoc)
  | (loc, slot) :: rest, freeLoc =>
    match slotKind slot with
    | .endMark => (none, freeLoc.or (some loc))
    | .deleted => findFlat short name rest (freeLoc.or (some loc))
    | .longName => findFlat short name rest freeLoc
    | .label => findFlat short name rest freeLoc
    | .live =>
      if short = some (slice slot 0 11) then (some (slotEntry name slot), freeLoc)
      else findFlat short name rest freeLoc

theorem findFlat_block (short : Option Bytes) (name : Bytes) (b : Option ℕ) (slots : List Bytes)
    (i : ℕ) (rest : List (SlotLoc × Bytes)) (freeLoc : Option SlotLoc) :
    findFlat short name (blockSlots b slots i ++ rest) freeLoc = match findSlots short name b slots i freeLoc with
      | (some entry, _, freeLoc) => (some entry, freeLoc)
      | (none, true, freeLoc) => (none, freeLoc)
      | (none, false, freeLoc) => findFlat short name rest freeLoc := by
  induction slots generalizing i freeLoc with
  | nil => rfl
  | cons slot slots ih =>
    rw [blockSlots_cons, cons_append, findFlat, findSlots]
    rcases slotKind slot with - | - | - | - | -
    · rfl
    · exact ih _ _
    · exact ih _ _
    · exact ih _ _
    · rcases Decidable.em (short = some (slice slot 0 11)) with hmatch | hmatch
      · simp only [if_pos hmatch]
      · simp only [if_neg hmatch]
        exact ih _ _

section

variable {block : BlockDevice ss} {d : Disk ss}

theorem fat16FindLoop_eq {ty : FatType} (h : Mountable ty block vol) (short : Option Bytes) (name : Bytes)
    {cs : List ℕ} (hcs : ∀ c ∈ cs, 2 ≤ c ∧ c ≤ fatMaxCluster vol) (freeLoc : Option SlotLoc) :
    fat16FindLoop block vol d short name cs freeLoc =
      findFlat short name (dirSlots (view vol d) (cs.map some)) freeLoc := by
  induction cs generalizing freeLoc with
  | nil => rfl
  | cons c cs ih =>
    obtain ⟨hc, hrest⟩ := forall_mem_cons.1 hcs
    rw [fat16FindLoop, readFat16Cluster_eq h hc, map_cons, dirSlots_cons, findFlat_block]
    have hslots : (view vol d).slots (some c) = slotsOf ((view vol d).cluster c) := rfl
    simp only [hslots]
    rcases findSlots short name (some c) (slotsOf ((view vol d).cluster c)) 0 freeLoc with
      ⟨- | e, - | -, f⟩
    · exact ih hrest f
    · rfl
    · rfl
    · rfl

/-- **The scan of the source is one loop over the slots of the directory.** -/
theorem fat16FindEntryOrFreeLocation_eq (h : SoundVolume block vol) (hty : vol.fatType = .fat16)
    (hdir : IsDir vol (view vol d) dir bs) (name : Bytes) :
    fat16FindEntryOrFreeLocation block vol d (table vol d) dir name =
      findFlat (fatEncodeShortName name) name (dirSlots (view vol d) bs) none := by
  cases hdir with
  | area =>
    have hread := h.mountable.read_block (d := d) (b := none) (fun _ hc ↦ nomatch hc)
    simp only [blockLBA, blockSectors] at hread
    have hslots : (view vol d).slots none = slotsOf (view vol d).root := rfl
    have hroot : (view vol d).block none = (view vol d).root := rfl
    rw [dirSlots_cons, findFlat_block, hslots]
    simp only [fat16FindEntryOrFreeLocation, hread, hroot]
    rcases findSlots (fatEncodeShortName name) name none (slotsOf (view vol d).root) 0 none with
      ⟨- | e, - | -, f⟩ <;> rfl
  | chain hc =>
    have hwalk := hc.walk h
    rw [hty] at hwalk
    simp only [fat16FindEntryOrFreeLocation, hwalk]
    exact fat16FindLoop_eq h.mountable _ _ hc.1.range none

end

/-- A live slot that carries the short name. -/
def Carries (short : Option Bytes) (slot : Bytes) : Prop :=
  slotKind slot = .live ∧ short = some (slice slot 0 11)

/-- A slot a scan passes over in search of a short name. -/
def Passed (short : Option Bytes) (slot : Bytes) : Prop :=
  slotKind slot ≠ .endMark ∧ ¬Carries short slot

def firstDeleted (slots : List (SlotLoc × Bytes)) : Option SlotLoc :=
  (slots.find? fun x ↦ slotKind x.2 = .deleted).map Prod.fst

theorem firstDeleted_cons (x : SlotLoc × Bytes) (slots : List (SlotLoc × Bytes)) : firstDeleted (x :: slots) =
      if slotKind x.2 = .deleted then some x.1 else firstDeleted slots := by
  rw [firstDeleted, find?_cons]
  split
  · next hdel => rw [if_pos (of_decide_eq_true hdel), Option.map_some]
  · next hdel => rw [if_neg (of_decide_eq_false hdel), firstDeleted]

theorem mem_of_firstDeleted (h : firstDeleted slots = some loc) : ∃ s, (loc, s) ∈ slots ∧ slotKind s = .deleted := by
  obtain ⟨⟨loc', s⟩, hfind, rfl⟩ := Option.map_eq_some_iff.1 h
  exact ⟨s, mem_of_find?_eq_some hfind, by simpa using find?_some hfind⟩

theorem firstDeleted_eq_none : firstDeleted slots = none ↔ ∀ x ∈ slots, slotKind x.2 ≠ .deleted := by
  simp [firstDeleted, find?_eq_none]

inductive Scan (short : Option Bytes) (name : Bytes) (freeLoc : Option SlotLoc) :
    List (SlotLoc × Bytes) → Option FatDirEntry × Option SlotLoc → Prop
  | found {pre suf : List (SlotLoc × Bytes)} {loc : SlotLoc} {s : Bytes} :
      (∀ x ∈ pre, Passed short x.2) → Carries short s →
      Scan short name freeLoc (pre ++ (loc, s) :: suf) (some (slotEntry name s), freeLoc.or (firstDeleted pre))
  | ended {pre suf : List (SlotLoc × Bytes)} {loc : SlotLoc} {s : Bytes} :
      (∀ x ∈ pre, Passed short x.2) → slotKind s = .endMark →
      Scan short name freeLoc (pre ++ (loc, s) :: suf) (none, freeLoc.or ((firstDeleted pre).or (some loc)))
  | exhausted {pre : List (SlotLoc × Bytes)} : (∀ x ∈ pre, Passed short x.2) →
      Scan short name freeLoc pre (none, freeLoc.or (firstDeleted pre))

theorem Scan.cons {x : SlotLoc × Bytes} {r : Option FatDirEntry × Option SlotLoc} (hx : Passed short x.2)
    (h : Scan short name (if slotKind x.2 = .deleted then freeLoc.or (some x.1) else freeLoc) slots r) :
    Scan short name freeLoc (x :: slots) r := by
  have hfree : ∀ pre, (if slotKind x.2 = .deleted then freeLoc.or (some x.1) else freeLoc).or
      (firstDeleted pre) = freeLoc.or (firstDeleted (x :: pre)) := by
    intro pre
    rw [firstDeleted_cons]
    split
    · rw [Option.or_assoc, Option.some_or]
    · rfl
  have hcons : ∀ {pre : List (SlotLoc × Bytes)}, (∀ y ∈ pre, Passed short y.2) →
      ∀ y ∈ x :: pre, Passed short y.2 := fun hpre ↦ forall_mem_cons.2 ⟨hx, hpre⟩
  cases h with
  | found hpre hs =>
    rw [hfree]
    exact .found (hcons hpre) hs
  | ended hpre hs =>
    rw [← Option.or_assoc, hfree, Option.or_assoc]
    exact .ended (hcons hpre) hs
  | exhausted hpre =>
    rw [hfree]
    exact .exhausted (hcons hpre)

theorem findFlat_spec (short : Option Bytes) (name : Bytes) (slots : List (SlotLoc × Bytes))
    (freeLoc : Option SlotLoc) :
    Scan short name freeLoc slots (findFlat short name slots freeLoc) := by
  induction slots generalizing freeLoc with
  | nil =>
    have h : Scan short name freeLoc [] (none, freeLoc.or (firstDeleted [])) := .exhausted (by simp)
    rwa [firstDeleted, find?_nil, Option.map_none, Option.or_none] at h
  | cons x slots ih =>
    obtain ⟨loc, slot⟩ := x
    have hpass : slotKind slot ≠ .endMark → ¬Carries short slot →
        Scan short name freeLoc ((loc, slot) :: slots) (findFlat short name slots
          (if slotKind slot = .deleted then freeLoc.or (some loc) else freeLoc)) :=
      fun hend hcarry ↦ Scan.cons ⟨hend, hcarry⟩ (ih _)
    rw [findFlat]
    rcases hkind : slotKind slot with - | - | - | - | -
    · have h : Scan short name freeLoc ([] ++ (loc, slot) :: slots)
          (none, freeLoc.or ((firstDeleted []).or (some loc))) := .ended (by simp) hkind
      exact h
    · have h := hpass (by simp [hkind]) (by simp [Carries, hkind])
      rwa [if_pos hkind] at h
    · have h := hpass (by simp [hkind]) (by simp [Carries, hkind])
      rwa [if_neg (by simp [hkind])] at h
    · have h := hpass (by simp [hkind]) (by simp [Carries, hkind])
      rwa [if_neg (by simp [hkind])] at h
    · rcases Decidable.em (short = some (slice slot 0 11)) with hmatch | hmatch
      · have h : Scan short name freeLoc ([] ++ (loc, slot) :: slots)
            (some (slotEntry name slot), freeLoc.or (firstDeleted [])) := .found (by simp) ⟨hkind, hmatch⟩
        rw [firstDeleted, find?_nil, Option.map_none, Option.or_none] at h
        simp only [if_pos hmatch]
        exact h
      · have h := hpass (by simp [hkind]) (fun hc ↦ hmatch hc.2)
        rw [if_neg (by simp [hkind])] at h
        simp only [if_neg hmatch]
        exact h

theorem shown_of_firstDeleted (heq : dirSlots v bs = pre ++ suf) (hpre : ∀ x ∈ pre, Passed short x.2)
    (hfirst : firstDeleted pre = some loc) : ∃ s, Shown v bs loc s ∧ slotKind s = .deleted := by
  obtain ⟨s, hmem, hkind⟩ := mem_of_firstDeleted hfirst
  obtain ⟨l₁, l₂, rfl⟩ := append_of_mem hmem
  refine ⟨s, ⟨l₁, l₂ ++ suf, ?_, fun x hx ↦ (hpre x (mem_append_left _ hx)).1⟩, hkind⟩
  rw [heq, append_assoc, cons_append]

theorem Scan.free_slot (h : Scan short name none (dirSlots v bs) (none, some loc)) :
    ∃ s, Shown v bs loc s ∧ (slotKind s = .deleted ∨ slotKind s = .endMark) := by
  generalize hslots : dirSlots v bs = slots at h
  generalize hr : ((none : Option FatDirEntry), some loc) = r at h
  cases h with
  | found _ _ => cases (Prod.mk.inj hr).1
  | @ended pre suf loc' s hpre hend =>
    have hloc := (Prod.mk.inj hr).2
    rcases hfirst : firstDeleted pre with - | loc''
    · rw [hfirst, Option.none_or] at hloc
      obtain rfl := Option.some.inj hloc
      exact ⟨s, ⟨pre, suf, hslots, fun x hx ↦ (hpre x hx).1⟩, .inr hend⟩
    · rw [hfirst, Option.some_or] at hloc
      obtain rfl := Option.some.inj hloc
      obtain ⟨s, hshown, hkind⟩ := shown_of_firstDeleted hslots hpre hfirst
      exact ⟨s, hshown, .inl hkind⟩
  | exhausted hpre =>
    have hloc := (Prod.mk.inj hr).2
    obtain ⟨s, hshown, hkind⟩ := shown_of_firstDeleted (hslots.trans (append_nil _).symm) hpre hloc.symm
    exact ⟨s, hshown, .inl hkind⟩

theorem Scan.no_free_slot (h : Scan short name none slots (none, none)) :
    ∀ x ∈ slots, slotKind x.2 ≠ .deleted ∧ slotKind x.2 ≠ .endMark := by
  generalize hr : ((none : Option FatDirEntry), (none : Option SlotLoc)) = r at h
  cases h with
  | found _ _ => cases (Prod.mk.inj hr).1
  | @ended pre suf loc s hpre hend =>
    have hloc := (Prod.mk.inj hr).2
    rcases hfirst : firstDeleted pre with - | l
    · rw [hfirst] at hloc
      cases hloc
    · rw [hfirst] at hloc
      cases hloc
  | exhausted hpre =>
    have hloc := (Prod.mk.inj hr).2
    exact fun x hx ↦ ⟨firstDeleted_eq_none.1 hloc.symm x hx, (hpre x hx).1⟩

/-- The entry of a successful scan stands in a slot that the directory shows, and the location that
comes with it is **another** slot, a deleted one. -/
theorem Scan.entry_slot {e : FatDirEntry} (h : Scan short name none (dirSlots v bs) (some e, freeLoc)) :
    ∃ loc s, Shown v bs loc s ∧ Carries short s ∧ e = slotEntry name s ∧
      ∀ free ∈ freeLoc, ∃ s₀, Shown v bs free s₀ ∧ slotKind s₀ = .deleted := by
  generalize hslots : dirSlots v bs = slots at h
  generalize hr : (some e, freeLoc) = r at h
  cases h with
  | @found pre suf loc s hpre hs =>
    obtain ⟨he, hfree⟩ := Prod.mk.inj hr
    refine ⟨loc, s, ⟨pre, suf, hslots, fun x hx ↦ (hpre x hx).1⟩, hs, Option.some.inj he, ?_⟩
    intro free hmem
    rw [hfree, Option.none_or] at hmem
    exact shown_of_firstDeleted hslots hpre hmem
  | ended _ _ => cases (Prod.mk.inj hr).1
  | exhausted _ => cases (Prod.mk.inj hr).1

theorem Scan.not_carried (h : Scan short name none (dirSlots v bs) (none, freeLoc)) (hshown : Shown v bs l x) :
    ¬Carries short x := by
  obtain ⟨p, q, heq, hp⟩ := hshown
  generalize hslots : dirSlots v bs = slots at h
  generalize hr : ((none : Option FatDirEntry), freeLoc) = r at h
  cases h with
  | found _ _ => cases (Prod.mk.inj hr).1
  | @ended pre suf loc s hpre hend =>
    rcases cut_cases (hslots.symm.trans heq) with ⟨t, rfl, -⟩ | ⟨-, hloc, -⟩ | ⟨t, rfl, -⟩
    · exact absurd hend (hp (loc, s) (mem_append_right _ mem_cons_self))
    · rintro ⟨hlive, -⟩
      rw [← (Prod.mk.inj hloc).2, hend] at hlive
      cases hlive
    · exact (hpre (l, x) (mem_append_right _ mem_cons_self)).2
  | exhausted hpre =>
    refine (hpre (l, x) ?_).2
    rw [← hslots, heq]
    exact mem_append_right _ mem_cons_self

end CapazOS
