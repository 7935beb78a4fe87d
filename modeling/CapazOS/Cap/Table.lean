import Mathlib.Data.BitVec
import Mathlib.Data.Finset.Card
import Mathlib.Data.Fintype.Basic
import Mathlib.Data.List.FinRange

/-!
# The capability table

A task names its capabilities by handles, 64-bit words that pack a slot index with the *generation*
of the slot. Removing an entry advances the generation. The model keeps `free_stack[0..free_top)` as
a list with the top first; a slot holds the entry itself, and whether `cap_entry_alloc` finds memory
is an argument.

`CapTable.Inv` ties the arrays together: the stack lists the empty slots, each once, no generation
is zero, and an occupied slot holds a valid entry of the slot's generation.
-/

namespace CapazOS

open List Function

variable {idx : BitVec 32} {obj : ℕ}

/-! ### Rights, types and handles -/

def capTableSlots : ℕ := 256

variable {i : Fin capTableSlots}

instance : NeZero capTableSlots := ⟨by decide⟩

inductive CapType where
  | invalid | task | thread | vmo | vmap | endpoint
  deriving DecidableEq

/-- `cap_rights_t`, a bit mask. -/
abbrev CapRights := BitVec 32

def capRRead : CapRights := 1#32 <<< 0

/-- `CAP_R_DUP`: may duplicate. -/
def capRDup : CapRights := 1#32 <<< 3

/-- `CAP_R_TRANSFER`: may transfer ownership. -/
def capRTransfer : CapRights := 1#32 <<< 4

/-- `cap_handle_t`, packed as `[gen:32][index:32]`. -/
abbrev CapHandle := BitVec 64

variable {hd : CapHandle}

def capHandleInvalid : CapHandle := 0

def capHandleIndex (h : CapHandle) : BitVec 32 := (h &&& 0xFFFFFFFF#64).setWidth 32

def capHandleGen (h : CapHandle) : BitVec 32 := (h >>> 32).setWidth 32

def capHandleMake (gen idx : BitVec 32) : CapHandle := gen.setWidth 64 <<< 32 ||| idx.setWidth 64

theorem getLsbD_low_mask {j : ℕ} (hj : j < 32) : (0xFFFFFFFF#64).getLsbD j = true := by
  rw [BitVec.getLsbD_ofNat, show 0xFFFFFFFF = 2 ^ 32 - 1 from rfl, Nat.testBit_two_pow_sub_one,
    decide_eq_true hj, decide_eq_true (by omega), Bool.and_self]

@[simp] theorem capHandleIndex_make (gen idx : BitVec 32) : capHandleIndex (capHandleMake gen idx) = idx := by
  refine BitVec.eq_of_getLsbD_eq fun j hj ↦ ?_
  simp only [capHandleIndex, capHandleMake, BitVec.getLsbD_setWidth, BitVec.getLsbD_and,
    BitVec.getLsbD_or, BitVec.getLsbD_shiftLeft, getLsbD_low_mask hj, hj]
  simp [show j < 64 by omega]

@[simp] theorem capHandleGen_make (gen idx : BitVec 32) : capHandleGen (capHandleMake gen idx) = gen := by
  refine BitVec.eq_of_getLsbD_eq fun j hj ↦ ?_
  simp only [capHandleGen, capHandleMake, BitVec.getLsbD_setWidth, BitVec.getLsbD_or,
    BitVec.getLsbD_shiftLeft, BitVec.getLsbD_ushiftRight, hj]
  simp [show 32 + j < 64 by omega, show j < 64 by omega]

/-! ### Entries and tables -/

def capEntryFlagValid : BitVec 32 := 1#32 <<< 0

/-- `cap_entry_t`. The object is an address, `0` for `NULL`. -/
structure CapEntry where
  type : CapType
  rights : CapRights
  obj : ℕ
  gen : BitVec 32
  flags : BitVec 32
  deriving DecidableEq

variable {e : CapEntry}

def CapEntry.Valid (e : CapEntry) : Prop := e.flags &&& capEntryFlagValid ≠ 0

instance : DecidablePred CapEntry.Valid := fun _ ↦ inferInstanceAs (Decidable (_ ≠ _))

/-- `cap_table_t`; `freeStack` is `free_stack[0..free_top)` with the top of the stack first. -/
structure CapTable where
  slots : Fin capTableSlots → Option CapEntry
  gens : Fin capTableSlots → BitVec 32
  freeStack : List (BitVec 32)

/-- The errors of `cap_status_t`. `CAP_ERR_NO_ENTRY` and `CAP_ERR_STALE` are names for
`CAP_ERR_INVALID`. -/
inductive CapErr where
  | invalid | noSlots | denied | noMem
  deriving DecidableEq

/-- A slot number as the 32-bit index kept in the stack and in handles. -/
def capIndex (i : Fin capTableSlots) : BitVec 32 := BitVec.ofNat 32 i

/-- The slot behind an index, when `cap_slot_valid_index` accepts it. -/
def capSlotValidIndex (idx : BitVec 32) : Option (Fin capTableSlots) :=
  if h : idx.toNat < capTableSlots then some ⟨idx.toNat, h⟩ else none

theorem toNat_capIndex (i : Fin capTableSlots) : (capIndex i).toNat = i := by
  have hlt : (i : ℕ) < 2 ^ 32 := i.isLt.trans (by decide)
  rw [capIndex, BitVec.toNat_ofNat, Nat.mod_eq_of_lt hlt]

@[simp] theorem capSlotValidIndex_capIndex (i : Fin capTableSlots) : capSlotValidIndex (capIndex i) = some i := by
  simp [capSlotValidIndex, toNat_capIndex]

theorem capSlotValidIndex_eq_some : capSlotValidIndex idx = some i ↔ idx = capIndex i := by
  refine ⟨fun h ↦ ?_, fun h ↦ h ▸ capSlotValidIndex_capIndex i⟩
  unfold capSlotValidIndex at h
  split at h
  · exact BitVec.eq_of_toNat_eq ((congrArg Fin.val (Option.some.inj h)).trans (toNat_capIndex i).symm)
  · cases h

theorem eq_capIndex (h : idx.toNat < capTableSlots) : idx = capIndex ⟨idx.toNat, h⟩ :=
  BitVec.eq_of_toNat_eq (toNat_capIndex ⟨idx.toNat, h⟩).symm

theorem capIndex_injective : Injective capIndex := fun i j h ↦
  Option.some.inj (by rw [← capSlotValidIndex_capIndex i, h, capSlotValidIndex_capIndex])

/-! ### The operations -/

/-- `cap_table_alloc_slot`: pop a free index. -/
def capTableAllocSlot (t : CapTable) : Except CapErr (Fin capTableSlots) × CapTable :=
  match t.freeStack with
  | [] => (.error .noSlots, t)
  | idx :: rest =>
    match capSlotValidIndex idx with
    | none => (.error .invalid, { t with freeStack := rest })
    | some i => (.ok i, { t with freeStack := rest })

/-- `cap_table_free_slot`: push an index, unless the stack is full. -/
def capTableFreeSlot (t : CapTable) (i : Fin capTableSlots) : CapTable :=
  if t.freeStack.length < capTableSlots then { t with freeStack := capIndex i :: t.freeStack } else t

/-- `cap_lookup_ex`, with the status it reports. -/
def capLookupEx (t : CapTable) (h : CapHandle) (need : CapRights) : Except CapErr CapEntry :=
  match capSlotValidIndex (capHandleIndex h) with
  | none => .error .invalid
  | some i =>
    match t.slots i with
    | none => .error .invalid
    | some e =>
      if ¬e.Valid then .error .invalid
      else if capHandleGen h = 0 ∨ capHandleGen h ≠ t.gens i ∨ capHandleGen h ≠ e.gen then
        .error .invalid
      else if e.rights &&& need ≠ need then .error .denied
      else .ok e

/-- `cap_lookup`; `none` is `NULL`. -/
def capLookup (t : CapTable) (h : CapHandle) (need : CapRights) : Option CapEntry :=
  (capLookupEx t h need).toOption

/-- `cap_bump_gen`: the next generation, skipping the reserved generation `0`. -/
def capBumpGen (gen : BitVec 32) : BitVec 32 := if gen + 1 = 0 then 1 else gen + 1

def capTableInit : CapTable where
  slots _ := none
  gens _ := 1
  freeStack := ((List.finRange capTableSlots).map capIndex).reverse

/-- `cap_table_insert`; `mem` says whether `cap_entry_alloc` returns an entry. -/
def capTableInsert (t : CapTable) (type : CapType) (rights : CapRights) (obj : ℕ) (mem : Bool) :
    Except CapErr CapHandle × CapTable :=
  match capTableAllocSlot t with
  | (.error st, t') => (.error st, t')
  | (.ok i, t') =>
    if mem then
      (.ok (capHandleMake (t'.gens i) (capIndex i)), { t' with
          slots := update t'.slots i (some ⟨type, rights, obj, t'.gens i, capEntryFlagValid⟩) })
    else (.error .noMem, capTableFreeSlot t' i)

/-- What `cap_table_remove` and `cap_table_invalidate_object` do with a slot: clear it, advance its
generation, push its index. -/
def CapTable.clearSlot (t : CapTable) (i : Fin capTableSlots) : CapTable :=
  capTableFreeSlot { t with
      slots := update t.slots i none
      gens := update t.gens i (capBumpGen (t.gens i)) } i

@[simp] theorem CapTable.clearSlot_slots (t : CapTable) (i : Fin capTableSlots) :
    (t.clearSlot i).slots = update t.slots i none := by
  unfold clearSlot capTableFreeSlot
  split <;> rfl

@[simp] theorem CapTable.clearSlot_gens (t : CapTable) (i : Fin capTableSlots) :
    (t.clearSlot i).gens = update t.gens i (capBumpGen (t.gens i)) := by
  unfold clearSlot capTableFreeSlot
  split <;> rfl

def capTableRemove (t : CapTable) (h : CapHandle) : Except CapErr Unit × CapTable :=
  match capLookupEx t h 0 with
  | .error st => (.error st, t)
  | .ok _ =>
    match capSlotValidIndex (capHandleIndex h) with
    | none => (.error .invalid, t)
    | some i => (.ok (), t.clearSlot i)

def capTableInvalidate (t : CapTable) (h : CapHandle) : Except CapErr Unit × CapTable :=
  capTableRemove t h

/-- The loop body of `cap_table_invalidate_object`. -/
def CapTable.invalidateSlot (obj : ℕ) (t : CapTable) (i : Fin capTableSlots) : CapTable :=
  match t.slots i with
  | none => t
  | some e => if ¬e.Valid then t else if e.obj ≠ obj then t else t.clearSlot i

def capTableInvalidateObject (t : CapTable) (obj : ℕ) : CapTable :=
  if obj = 0 then t else (List.finRange capTableSlots).foldl (CapTable.invalidateSlot obj) t

/-! ### The invariant -/

namespace CapTable

def occupied (t : CapTable) : Finset (Fin capTableSlots) :=
  Finset.univ.filter fun i ↦ (t.slots i).isSome

/-- **The representation invariant** of a capability table. -/
structure Inv (t : CapTable) : Prop where
  nodup : t.freeStack.Nodup
  lt_slots : ∀ idx ∈ t.freeStack, idx.toNat < capTableSlots
  mem_iff : ∀ i, capIndex i ∈ t.freeStack ↔ t.slots i = none
  gen_ne : ∀ i, t.gens i ≠ 0
  valid : ∀ i e, t.slots i = some e → e.Valid
  gen_eq : ∀ i e, t.slots i = some e → e.gen = t.gens i

theorem mem_freeStack_init : idx ∈ capTableInit.freeStack ↔ ∃ i, capIndex i = idx := by
  simp [capTableInit]

theorem inv_init : Inv capTableInit where
  nodup := by
    simp only [capTableInit, nodup_reverse]
    exact (nodup_finRange _).map capIndex_injective
  lt_slots idx hidx := by
    obtain ⟨i, rfl⟩ := mem_freeStack_init.1 hidx
    rw [toNat_capIndex]
    exact i.isLt
  mem_iff i := iff_of_true (mem_freeStack_init.2 ⟨i, rfl⟩) rfl
  gen_ne _ := show (1 : BitVec 32) ≠ 0 by decide
  valid _ _ h := nomatch h
  gen_eq _ _ h := nomatch h

variable {t : CapTable}

theorem Inv.toFinset_freeStack (h : t.Inv) :
    t.freeStack.toFinset = (Finset.univ.filter fun i ↦ ¬(t.slots i).isSome).image capIndex := by
  ext idx
  simp only [mem_toFinset, Finset.mem_image, Finset.mem_filter, Finset.mem_univ, true_and,
    Option.not_isSome_iff_eq_none]
  constructor
  · intro hidx
    have hi := eq_capIndex (h.lt_slots idx hidx)
    exact ⟨_, (h.mem_iff _).1 (hi ▸ hidx), hi.symm⟩
  · rintro ⟨i, hi, rfl⟩
    exact (h.mem_iff i).2 hi

/-- **Free and occupied slots add up** to the size of the table. -/
theorem Inv.length_add_card (h : t.Inv) : t.freeStack.length + t.occupied.card = capTableSlots := by
  rw [← toFinset_card_of_nodup h.nodup, h.toFinset_freeStack,
    Finset.card_image_of_injective _ capIndex_injective, Nat.add_comm, occupied,
    Finset.card_filter_add_card_filter_not, Finset.card_univ, Fintype.card_fin]

theorem Inv.length_lt (h : t.Inv) (hi : t.slots i = some e) : t.freeStack.length < capTableSlots := by
  have hpos : 0 < t.occupied.card := Finset.card_pos.2 ⟨i, Finset.mem_filter.2 ⟨Finset.mem_univ i, by rw [hi]; rfl⟩⟩
  have := h.length_add_card
  omega

/-! ### What a call does to a slot -/

def put (t : CapTable) (i : Fin capTableSlots) (rest : List (BitVec 32)) (e : CapEntry) : CapTable :=
  ⟨update t.slots i (some e), t.gens, rest⟩

@[simp] theorem put_slots_self (t : CapTable) (i : Fin capTableSlots) (rest : List (BitVec 32))
    (e : CapEntry) : (t.put i rest e).slots i = some e := update_self ..

theorem put_slots_of_ne (t : CapTable) {j : Fin capTableSlots} (hji : j ≠ i) (rest : List (BitVec 32))
    (e : CapEntry) : (t.put i rest e).slots j = t.slots j := update_of_ne hji ..

def newEntry (t : CapTable) (i : Fin capTableSlots) (type : CapType) (rights : CapRights) (obj : ℕ) : CapEntry :=
  ⟨type, rights, obj, t.gens i, capEntryFlagValid⟩

/-- **What `cap_table_insert` does**: it finds the stack empty, or takes the empty slot on top of
the stack; when the entry cannot be allocated the slot goes back and the table is as before. -/
theorem Inv.insert_cases (h : t.Inv) (type : CapType) (rights : CapRights) (obj : ℕ) (mem : Bool) :
    (t.freeStack = [] ∧ capTableInsert t type rights obj mem = (.error .noSlots, t)) ∨
    ∃ i rest, t.freeStack = capIndex i :: rest ∧ t.slots i = none ∧
      (mem = false ∧ capTableInsert t type rights obj mem = (.error .noMem, t) ∨
        mem = true ∧ capTableInsert t type rights obj mem = (.ok (capHandleMake (t.gens i) (capIndex i)),
            t.put i rest (t.newEntry i type rights obj))) := by
  rcases hstack : t.freeStack with _ | ⟨idx, rest⟩
  · exact .inl ⟨rfl, by simp only [capTableInsert, capTableAllocSlot, hstack]⟩
  · have hmem : idx ∈ t.freeStack := hstack ▸ mem_cons_self
    obtain ⟨i, rfl⟩ : ∃ i, idx = capIndex i := ⟨_, eq_capIndex (h.lt_slots idx hmem)⟩
    refine .inr ⟨i, rest, rfl, (h.mem_iff i).1 hmem, ?_⟩
    have hlen : rest.length < capTableSlots := by
      have := h.length_add_card
      rw [hstack, length_cons] at this
      omega
    cases mem with
    | false =>
      refine .inl ⟨rfl, ?_⟩
      simp only [capTableInsert, capTableAllocSlot, hstack, capSlotValidIndex_capIndex,
        capTableFreeSlot, if_pos hlen, Bool.false_eq_true, if_false]
      rw [← hstack]
    | true =>
      refine .inr ⟨rfl, ?_⟩
      simp only [capTableInsert, capTableAllocSlot, hstack, capSlotValidIndex_capIndex, if_true]
      rfl

/-- **What a successful insertion issues**: a handle for a slot that was empty, at the generation of
the slot, and the slot is occupied afterwards. -/
theorem Inv.insert_ok (h : t.Inv) {type : CapType} {rights : CapRights} {mem : Bool}
    (hok : (capTableInsert t type rights obj mem).1 = .ok hd) :
    ∃ i rest, t.slots i = none ∧ t.freeStack = capIndex i :: rest ∧ hd = capHandleMake (t.gens i) (capIndex i) ∧
      (capTableInsert t type rights obj mem).2 = t.put i rest (t.newEntry i type rights obj) := by
  rcases h.insert_cases type rights obj mem with
    ⟨-, heq⟩ | ⟨i, rest, hstack, hfree, ⟨-, heq⟩ | ⟨-, heq⟩⟩ <;> rw [heq] at hok
  · cases hok
  · cases hok
  · exact ⟨i, rest, hfree, hstack, (Except.ok.inj hok).symm, by rw [heq]⟩

theorem Inv.freeStack_eq_nil (h : t.Inv) : t.freeStack = [] ↔ ∀ i, (t.slots i).isSome := by
  constructor
  · intro hnil i
    rw [← Option.ne_none_iff_isSome, ne_eq, ← h.mem_iff, hnil]
    exact not_mem_nil
  · intro hall
    have hfull : t.occupied = Finset.univ := Finset.filter_true_of_mem fun i _ ↦ hall i
    have hsum := h.length_add_card
    rw [hfull, Finset.card_univ, Fintype.card_fin] at hsum
    exact length_eq_zero_iff.1 (by omega)

theorem Inv.insert_eq_noSlots (h : t.Inv) {type : CapType} {rights : CapRights} {mem : Bool} :
    (capTableInsert t type rights obj mem).1 = .error .noSlots ↔ t.freeStack = [] := by
  rcases h.insert_cases type rights obj mem with
    ⟨hnil, heq⟩ | ⟨i, rest, hstack, -, ⟨-, heq⟩ | ⟨-, heq⟩⟩
  · exact iff_of_true (by rw [heq]) hnil
  · exact iff_of_false (by rw [heq]; nofun) (by rw [hstack]; nofun)
  · exact iff_of_false (by rw [heq]; nofun) (by rw [hstack]; nofun)

theorem Inv.allocSlot_ne (h : t.Inv) : (capTableAllocSlot t).1 ≠ .error .invalid := by
  unfold capTableAllocSlot
  split
  · nofun
  · rename_i idx rest hstack
    rw [eq_capIndex (h.lt_slots idx (hstack ▸ mem_cons_self)), capSlotValidIndex_capIndex]
    nofun

theorem Inv.put (h : t.Inv) {rest : List (BitVec 32)} (hstack : t.freeStack = capIndex i :: rest)
    (hvalid : e.Valid) (hgen : e.gen = t.gens i) : (t.put i rest e).Inv := by
  have hnodup := h.nodup
  rw [hstack, nodup_cons] at hnodup
  have hslot : ∀ j e', (t.put i rest e).slots j = some e' → j = i ∧ e' = e ∨ t.slots j = some e' := by
    intro j e' hj
    rcases eq_or_ne j i with rfl | hji
    · exact .inl ⟨rfl, Option.some.inj (hj.symm.trans (t.put_slots_self ..))⟩
    · exact .inr ((t.put_slots_of_ne hji ..).symm.trans hj)
  refine ⟨hnodup.2, fun idx hidx ↦ h.lt_slots idx (hstack ▸ mem_cons_of_mem _ hidx), ?_, h.gen_ne, ?_, ?_⟩
  · intro j
    show capIndex j ∈ rest ↔ (t.put i rest e).slots j = none
    rcases eq_or_ne j i with rfl | hji
    · rw [put_slots_self]
      exact iff_of_false hnodup.1 nofun
    · rw [t.put_slots_of_ne hji, ← h.mem_iff, hstack, mem_cons, or_iff_right fun heq ↦ hji (capIndex_injective heq)]
  · intro j e' hj
    rcases hslot j e' hj with ⟨-, rfl⟩ | hj
    exacts [hvalid, h.valid j e' hj]
  · intro j e' hj
    rcases hslot j e' hj with ⟨rfl, rfl⟩ | hj
    exacts [hgen, h.gen_eq j e' hj]

theorem valid_newEntry (t : CapTable) (i : Fin capTableSlots) (type : CapType) (rights : CapRights)
    (obj : ℕ) : (t.newEntry i type rights obj).Valid := by
  show capEntryFlagValid &&& capEntryFlagValid ≠ 0
  decide

theorem capBumpGen_ne_zero (gen : BitVec 32) : capBumpGen gen ≠ 0 := by
  unfold capBumpGen
  split
  · decide
  · assumption

theorem Inv.clearSlot_eq (h : t.Inv) (hi : t.slots i = some e) : t.clearSlot i = ⟨update t.slots i none,
      update t.gens i (capBumpGen (t.gens i)), capIndex i :: t.freeStack⟩ := by
  rw [clearSlot, capTableFreeSlot, if_pos (h.length_lt hi)]

theorem Inv.clearSlot (h : t.Inv) (hi : t.slots i = some e) : (t.clearSlot i).Inv := by
  have hfree : capIndex i ∉ t.freeStack := fun hmem ↦ by
    rw [(h.mem_iff i).1 hmem] at hi
    cases hi
  rw [h.clearSlot_eq hi]
  have hold : ∀ j e', update t.slots i none j = some e' → j ≠ i ∧ t.slots j = some e' := by
    intro j e' hj
    rcases eq_or_ne j i with rfl | hji
    · rw [update_self] at hj
      cases hj
    · rw [update_of_ne hji] at hj
      exact ⟨hji, hj⟩
  refine ⟨nodup_cons.2 ⟨hfree, h.nodup⟩, ?_, ?_, ?_, fun j e' hj ↦ ?_, fun j e' hj ↦ ?_⟩
  · intro idx hidx
    rcases mem_cons.1 hidx with rfl | hidx
    · rw [toNat_capIndex]
      exact i.isLt
    · exact h.lt_slots idx hidx
  · intro j
    show capIndex j ∈ capIndex i :: t.freeStack ↔ update t.slots i none j = none
    rcases eq_or_ne j i with rfl | hji
    · exact iff_of_true mem_cons_self (update_self ..)
    · rw [update_of_ne hji, ← h.mem_iff, mem_cons, or_iff_right fun heq ↦ hji (capIndex_injective heq)]
  · intro j
    show update t.gens i (capBumpGen (t.gens i)) j ≠ 0
    rcases eq_or_ne j i with rfl | hji
    · rw [update_self]
      exact capBumpGen_ne_zero _
    · rw [update_of_ne hji]
      exact h.gen_ne j
  · exact h.valid j e' (hold j e' hj).2
  · show e'.gen = update t.gens i (capBumpGen (t.gens i)) j
    obtain ⟨hji, hj⟩ := hold j e' hj
    rw [update_of_ne hji, h.gen_eq j e' hj]

/-! ### Lookup -/

/-- **When a handle resolves**: its index names an occupied slot, its generation is the slot's, and
the entry has the rights. -/
theorem Inv.lookup_eq_ok (h : t.Inv) {need : CapRights} :
    capLookupEx t hd need = .ok e ↔ ∃ i, capHandleIndex hd = capIndex i ∧ t.slots i = some e ∧
      capHandleGen hd = t.gens i ∧ e.rights &&& need = need := by
  constructor
  · intro hok
    unfold capLookupEx at hok
    split at hok
    · cases hok
    · rename_i i hidx
      split at hok
      · cases hok
      · rename_i e' hslot
        split_ifs at hok with hv hg hr
        obtain rfl : e' = e := Except.ok.inj hok
        rw [not_or, not_or, not_not, not_not] at hg
        exact ⟨i, capSlotValidIndex_eq_some.1 hidx, hslot, hg.2.1, not_not.1 hr⟩
  · rintro ⟨i, hidx, hslot, hgen, hr⟩
    have hg : ¬(capHandleGen hd = 0 ∨ capHandleGen hd ≠ t.gens i ∨ capHandleGen hd ≠ e.gen) := by
      rw [h.gen_eq i e hslot, hgen, not_or, not_or, not_not]
      exact ⟨h.gen_ne i, rfl, rfl⟩
    simp only [capLookupEx, hidx, capSlotValidIndex_capIndex, hslot,
      if_neg (not_not.2 (h.valid i e hslot)), if_neg hg, hr, ne_eq, not_true_eq_false, if_false]

theorem capLookup_eq_some {need : CapRights} : capLookup t hd need = some e ↔ capLookupEx t hd need = .ok e := by
  unfold capLookup
  cases capLookupEx t hd need <;> simp [Except.toOption]

/-- **What `cap_table_remove` does**: it refuses the handle and changes nothing, or clears the
occupied slot the handle resolves to. -/
theorem Inv.remove_cases (h : t.Inv) (hd : CapHandle) :
    (∃ st, capLookupEx t hd 0 = .error st ∧ capTableRemove t hd = (.error st, t)) ∨
    ∃ i e, capHandleIndex hd = capIndex i ∧ t.slots i = some e ∧ capHandleGen hd = t.gens i ∧
      capTableRemove t hd = (.ok (), t.clearSlot i) := by
  rcases hlook : capLookupEx t hd 0 with st | e
  · exact .inl ⟨st, rfl, by simp only [capTableRemove, hlook]⟩
  · obtain ⟨i, hidx, hslot, hgen, -⟩ := h.lookup_eq_ok.1 hlook
    exact .inr ⟨i, e, hidx, hslot, hgen, by simp only [capTableRemove, hlook, hidx, capSlotValidIndex_capIndex]⟩

/-! ### Revoking an object -/

def Names (t : CapTable) (obj : ℕ) (i : Fin capTableSlots) : Prop :=
  ∃ e, t.slots i = some e ∧ e.obj = obj

theorem Inv.invalidateSlot_eq (h : t.Inv) (obj : ℕ) (i : Fin capTableSlots) :
    (t.Names obj i ∧ t.invalidateSlot obj i = t.clearSlot i) ∨ (¬t.Names obj i ∧ t.invalidateSlot obj i = t) := by
  unfold invalidateSlot
  rcases hslot : t.slots i with _ | e
  · refine .inr ⟨fun ⟨e, he, _⟩ ↦ ?_, rfl⟩
    rw [hslot] at he
    cases he
  · by_cases hobj : e.obj = obj
    · refine .inl ⟨⟨e, hslot, hobj⟩, ?_⟩
      simp [if_neg (not_not.2 (h.valid i e hslot)), hobj]
    · refine .inr ⟨fun ⟨e', he', ho⟩ ↦ ?_, ?_⟩
      · rw [hslot] at he'
        exact hobj (Option.some.inj he' ▸ ho)
      · simp [hobj]

theorem Inv.invalidateSlot (h : t.Inv) (obj : ℕ) (i : Fin capTableSlots) : (t.invalidateSlot obj i).Inv := by
  rcases h.invalidateSlot_eq obj i with ⟨⟨e, he, -⟩, heq⟩ | ⟨-, heq⟩
  · rw [heq]
    exact h.clearSlot he
  · rwa [heq]

theorem Inv.invalidateSlot_of_ne (h : t.Inv) (obj : ℕ) {j : Fin capTableSlots} (hji : j ≠ i) :
    (t.invalidateSlot obj i).slots j = t.slots j ∧ (t.invalidateSlot obj i).gens j = t.gens j := by
  rcases h.invalidateSlot_eq obj i with ⟨⟨e, he, -⟩, heq⟩ | ⟨-, heq⟩
  · rw [heq, clearSlot_slots, clearSlot_gens]
    exact ⟨update_of_ne hji .., update_of_ne hji ..⟩
  · rw [heq]
    exact ⟨rfl, rfl⟩

end CapTable

/-- **The three things a call can do to a slot.** -/
inductive SlotStep (t t' : CapTable) (i : Fin capTableSlots) : Prop where
  | keep (slot : t'.slots i = t.slots i) (gen : t'.gens i = t.gens i)
  | fill (e : CapEntry) (free : t.slots i = none) (slot : t'.slots i = some e) (gen : t'.gens i = t.gens i)
  | free (e : CapEntry) (slot : t.slots i = some e) (free : t'.slots i = none) (gen : t'.gens i = capBumpGen (t.gens i))

namespace CapTable

variable {t : CapTable}

theorem slotStep_clearSlot (hi : t.slots i = some e) (j : Fin capTableSlots) : SlotStep t (t.clearSlot i) j := by
  rcases eq_or_ne j i with rfl | hji
  · refine .free e hi ?_ ?_
    · rw [clearSlot_slots, update_self]
    · rw [clearSlot_gens, update_self]
  · refine .keep ?_ ?_
    · rw [clearSlot_slots, update_of_ne hji]
    · rw [clearSlot_gens, update_of_ne hji]

theorem Inv.slotStep_insert (h : t.Inv) (type : CapType) (rights : CapRights) (obj : ℕ) (mem : Bool)
    (j : Fin capTableSlots) : SlotStep t (capTableInsert t type rights obj mem).2 j := by
  rcases h.insert_cases type rights obj mem with
    ⟨-, heq⟩ | ⟨i, rest, -, hfree, ⟨-, heq⟩ | ⟨-, heq⟩⟩
  · exact heq ▸ .keep rfl rfl
  · exact heq ▸ .keep rfl rfl
  · rw [heq]
    rcases eq_or_ne j i with rfl | hji
    · exact .fill _ hfree (t.put_slots_self ..) rfl
    · exact .keep (t.put_slots_of_ne hji ..) rfl

theorem Inv.slotStep_remove (h : t.Inv) (hd : CapHandle) (j : Fin capTableSlots) :
    SlotStep t (capTableRemove t hd).2 j := by
  rcases h.remove_cases hd with ⟨st, -, heq⟩ | ⟨i, e, -, hslot, -, heq⟩
  · exact heq ▸ .keep rfl rfl
  · exact heq ▸ slotStep_clearSlot hslot j

theorem Inv.foldl_invalidateSlot (obj : ℕ) (l : List (Fin capTableSlots)) :
    ∀ {t : CapTable}, t.Inv → l.Nodup → (l.foldl (CapTable.invalidateSlot obj) t).Inv ∧
      ∀ j, j ∈ l ∧ t.Names obj j ∧ (l.foldl (CapTable.invalidateSlot obj) t).slots j = none ∧
          (l.foldl (CapTable.invalidateSlot obj) t).gens j = capBumpGen (t.gens j) ∨
        ¬(j ∈ l ∧ t.Names obj j) ∧ (l.foldl (CapTable.invalidateSlot obj) t).slots j = t.slots j ∧
          (l.foldl (CapTable.invalidateSlot obj) t).gens j = t.gens j := by
  -- Induction on the slots still to be visited; a visited slot is not visited again.
  induction l with
  | nil => exact fun h _ ↦ ⟨h, fun j ↦ .inr ⟨by simp, rfl, rfl⟩⟩
  | cons i l ih =>
    intro t h hnodup
    obtain ⟨hi, hl⟩ := nodup_cons.1 hnodup
    obtain ⟨hinv, hrest⟩ := ih (h.invalidateSlot obj i) hl
    refine ⟨hinv, fun j ↦ ?_⟩
    rcases eq_or_ne j i with rfl | hji
    · obtain ⟨hslot, hgen⟩ := ((hrest j).resolve_left fun hj ↦ hi hj.1).2
      rw [foldl_cons, hslot, hgen]
      rcases h.invalidateSlot_eq obj j with ⟨hn, heq⟩ | ⟨hn, heq⟩
      · obtain ⟨e, he, ho⟩ := hn
        refine .inl ⟨mem_cons_self, ⟨e, he, ho⟩, ?_⟩
        rw [heq, clearSlot_slots, clearSlot_gens]
        exact ⟨update_self .., update_self ..⟩
      · rw [heq]
        exact .inr ⟨fun hj ↦ hn hj.2, rfl, rfl⟩
    · obtain ⟨hslot, hgen⟩ := h.invalidateSlot_of_ne obj hji
      have hnames : (t.invalidateSlot obj i).Names obj j ↔ t.Names obj j := by
        unfold Names
        rw [hslot]
      have := hrest j
      rwa [hnames, hslot, hgen, ← foldl_cons, ← or_iff_right (b := j ∈ l) hji, ← mem_cons] at this

/-- **What `cap_table_invalidate_object` does**: it clears every slot that holds an entry for the
object and leaves the others alone. -/
theorem Inv.invalidateObject_spec (h : t.Inv) (hobj : obj ≠ 0) : (capTableInvalidateObject t obj).Inv ∧
      ∀ j, t.Names obj j ∧ (capTableInvalidateObject t obj).slots j = none ∧
          (capTableInvalidateObject t obj).gens j = capBumpGen (t.gens j) ∨
        ¬t.Names obj j ∧ (capTableInvalidateObject t obj).slots j = t.slots j ∧
          (capTableInvalidateObject t obj).gens j = t.gens j := by
  rw [capTableInvalidateObject, if_neg hobj]
  obtain ⟨hinv, hall⟩ := h.foldl_invalidateSlot obj _ (nodup_finRange capTableSlots)
  refine ⟨hinv, fun j ↦ ?_⟩
  have := hall j
  rwa [and_iff_right (mem_finRange j), ← and_assoc, and_iff_right (mem_finRange j), and_assoc] at this

theorem Inv.slotStep_invalidateObject (h : t.Inv) (obj : ℕ) (j : Fin capTableSlots) :
    SlotStep t (capTableInvalidateObject t obj) j := by
  by_cases hobj : obj = 0
  · rw [capTableInvalidateObject, if_pos hobj]
    exact .keep rfl rfl
  · rcases (h.invalidateObject_spec hobj).2 j with ⟨⟨e, he, -⟩, hs, hg⟩ | ⟨-, hs, hg⟩
    exacts [.free e he hs hg, .keep hs hg]

/-! ### The calls keep the invariant -/

theorem Inv.insert (h : t.Inv) (type : CapType) (rights : CapRights) (obj : ℕ) (mem : Bool) :
    (capTableInsert t type rights obj mem).2.Inv := by
  rcases h.insert_cases type rights obj mem with
    ⟨-, heq⟩ | ⟨i, rest, hstack, -, ⟨-, heq⟩ | ⟨-, heq⟩⟩
  · exact heq ▸ h
  · exact heq ▸ h
  · exact heq ▸ h.put hstack (t.valid_newEntry i type rights obj) rfl

theorem Inv.remove (h : t.Inv) (hd : CapHandle) : (capTableRemove t hd).2.Inv := by
  rcases h.remove_cases hd with ⟨st, -, heq⟩ | ⟨i, e, -, hslot, -, heq⟩
  · exact heq ▸ h
  · exact heq ▸ h.clearSlot hslot

theorem Inv.invalidateObject (h : t.Inv) (obj : ℕ) : (capTableInvalidateObject t obj).Inv := by
  by_cases hobj : obj = 0
  · rwa [capTableInvalidateObject, if_pos hobj]
  · exact (h.invalidateObject_spec hobj).1

end CapTable

end CapazOS
