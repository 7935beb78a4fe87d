import CapazOS.Cap.Table

/-!
# Capability operations over many tables

`cap_ops.c` creates, duplicates, transfers, drops and invalidates capabilities. The state is a
family of tables over any index type, so that `src == dst` needs no case of its own. All operations
come down to filling an empty slot and clearing an occupied one (`exec_effect`).
-/

namespace CapazOS

open Function

def capRightsHas (rights needed : CapRights) : Prop := rights &&& needed = needed

instance (rights needed : CapRights) : Decidable (capRightsHas rights needed) :=
  inferInstanceAs (Decidable (_ = _))

variable {ι : Type*}

section

variable [DecidableEq ι]

/-! ### The operations -/

def capCreate (ts : ι → CapTable) (τ : ι) (type : CapType) (rights : CapRights) (obj : ℕ)
    (mem : Bool) : Except CapErr CapHandle × (ι → CapTable) :=
  match capTableInsert (ts τ) type rights obj mem with
  | (r, t) => (r, update ts τ t)

/-- `cap_dup`: requires `CAP_R_DUP`, and keeps the rights in `mask`. -/
def capDup (ts : ι → CapTable) (src : ι) (h : CapHandle) (dst : ι) (mask : CapRights) (mem : Bool) :
    Except CapErr CapHandle × (ι → CapTable) :=
  match capLookup (ts src) h capRDup with
  | none => (.error .denied, ts)
  | some e =>
    match capTableInsert (ts dst) e.type (e.rights &&& mask) e.obj mem with
    | (r, t) => (r, update ts dst t)

/-- `cap_transfer`: insert into the destination, then remove from the source, rolling back if the
removal fails. It gives the status (`none` for `CAP_OK`), the final contents of `*out`, which holds
`out` before the call, and the tables. -/
def capTransferOut (ts : ι → CapTable) (src : ι) (h : CapHandle) (dst : ι) (mask : CapRights)
    (mem : Bool) (out : CapHandle) : Option CapErr × CapHandle × (ι → CapTable) :=
  match capLookup (ts src) h capRTransfer with
  | none => (some .denied, out, ts)
  | some e =>
    match capTableInsert (ts dst) e.type (e.rights &&& mask) e.obj mem with
    | (.error st, t) => (some st, out, update ts dst t)
    | (.ok hd, t) =>
      let ts₁ := update ts dst t
      match capTableRemove (ts₁ src) h with
      | (.error st, t₁) =>
        -- the rollback: the handle stays in `*out`
        let ts₂ := update ts₁ src t₁
        (some st, hd, update ts₂ dst (capTableRemove (ts₂ dst) hd).2)
      | (.ok (), t₁) => (none, hd, update ts₁ src t₁)

/-- `cap_transfer` for a caller that looks at the handle only after `CAP_OK`. -/
def capTransfer (ts : ι → CapTable) (src : ι) (h : CapHandle) (dst : ι) (mask : CapRights) (mem : Bool) :
    Except CapErr CapHandle × (ι → CapTable) :=
  match capTransferOut ts src h dst mask mem 0 with
  | (none, hd, ts') => (.ok hd, ts')
  | (some st, _, ts') => (.error st, ts')

def capDrop (ts : ι → CapTable) (τ : ι) (h : CapHandle) : Except CapErr Unit × (ι → CapTable) :=
  match capTableRemove (ts τ) h with
  | (r, t) => (r, update ts τ t)

def capInvalidate (ts : ι → CapTable) (τ : ι) (h : CapHandle) : Except CapErr Unit × (ι → CapTable) :=
  match capTableInvalidate (ts τ) h with
  | (r, t) => (r, update ts τ t)

/-- A call of the capability system, with the outcome of the entry allocation it may make. -/
inductive CapOp (ι : Type*) where
  | create (τ : ι) (type : CapType) (rights : CapRights) (obj : ℕ) (mem : Bool)
  | dup (src : ι) (h : CapHandle) (dst : ι) (mask : CapRights) (mem : Bool)
  | transfer (src : ι) (h : CapHandle) (dst : ι) (mask : CapRights) (mem : Bool)
  | drop (τ : ι) (h : CapHandle)
  | invalidate (τ : ι) (h : CapHandle)
  | invalidateObject (τ : ι) (obj : ℕ)

/-- The handle a call issues, if any, and the tables after it. -/
def CapOp.exec (ts : ι → CapTable) : CapOp ι → Option CapHandle × (ι → CapTable)
  | .create τ type rights obj mem =>
    ((capCreate ts τ type rights obj mem).1.toOption, (capCreate ts τ type rights obj mem).2)
  | .dup src h dst mask mem =>
    ((capDup ts src h dst mask mem).1.toOption, (capDup ts src h dst mask mem).2)
  | .transfer src h dst mask mem =>
    ((capTransfer ts src h dst mask mem).1.toOption, (capTransfer ts src h dst mask mem).2)
  | .drop τ h => (none, (capDrop ts τ h).2)
  | .invalidate τ h => (none, (capInvalidate ts τ h).2)
  | .invalidateObject τ obj => (none, update ts τ (capTableInvalidateObject (ts τ) obj))

def capTables : List (CapOp ι) → ι → CapTable
  | [] => fun _ ↦ capTableInit
  | op :: hist => (op.exec (capTables hist)).2

end

/-! ### Entries of a family of tables -/

def liveEntry (ts : ι → CapTable) (p : ι × Fin capTableSlots) : Option CapEntry :=
  (ts p.1).slots p.2

theorem liveEntry_update [DecidableEq ι] (ts : ι → CapTable) (τ : ι) (t : CapTable) (p : ι × Fin capTableSlots) :
    liveEntry (update ts τ t) p = if p.1 = τ then t.slots p.2 else liveEntry ts p := by
  unfold liveEntry
  split
  · rename_i h
    rw [h, update_self]
  · rename_i h
    rw [update_of_ne h]

def CapInv (ts : ι → CapTable) : Prop := ∀ τ, (ts τ).Inv

theorem CapInv.update [DecidableEq ι] {ts : ι → CapTable} (h : CapInv ts) {τ : ι} {t : CapTable} (ht : t.Inv) :
    CapInv (update ts τ t) := by
  intro σ
  rcases eq_or_ne σ τ with rfl | hne
  · rwa [update_self]
  · rw [update_of_ne hne]
    exact h σ

/-- A new entry appears in the empty slot `p`, under the handle `hd`, and the others stay. -/
structure Fills (ts ts' : ι → CapTable) (p : ι × Fin capTableSlots) (hd : CapHandle) (type : CapType)
    (rights : CapRights) (obj : ℕ) : Prop where
  index : capHandleIndex hd = capIndex p.2
  empty : liveEntry ts p = none
  entry : ∃ e, liveEntry ts' p = some e ∧ e.type = type ∧ e.rights = rights ∧ e.obj = obj
  others : ∀ q, q ≠ p → liveEntry ts' q = liveEntry ts q

/-- The handle `h` resolves in the table `p.1` to the entry `e` of the slot `p.2`. -/
structure ResolvesTo (ts : ι → CapTable) (h : CapHandle) (p : ι × Fin capTableSlots) (e : CapEntry) : Prop where
  index : capHandleIndex h = capIndex p.2
  entry : liveEntry ts p = some e

def Shrinks (ts ts' : ι → CapTable) : Prop :=
  ∀ p, liveEntry ts' p = liveEntry ts p ∨ liveEntry ts' p = none

theorem Shrinks.refl (ts : ι → CapTable) : Shrinks ts ts := fun _ ↦ .inl rfl

inductive CapOp.Effect (ts : ι → CapTable) : CapOp ι → Option CapHandle → (ι → CapTable) → Prop
  | shrink {op : CapOp ι} {ts' : ι → CapTable} (h : Shrinks ts ts') : Effect ts op none ts'
  | create {τ : ι} {type : CapType} {rights : CapRights} {obj : ℕ} {mem : Bool} {ts' : ι → CapTable}
      {i : Fin capTableSlots} {hd : CapHandle} (h : Fills ts ts' (τ, i) hd type rights obj) :
      Effect ts (.create τ type rights obj mem) (some hd) ts'
  | dup {src dst : ι} {h : CapHandle} {mask : CapRights} {mem : Bool} {ts' : ι → CapTable}
      {i k : Fin capTableSlots} {hd : CapHandle} {e : CapEntry} (hsrc : ResolvesTo ts h (src, k) e)
      (hdup : capRightsHas e.rights capRDup)
      (hfill : Fills ts ts' (dst, i) hd e.type (e.rights &&& mask) e.obj) :
      Effect ts (.dup src h dst mask mem) (some hd) ts'
  | transfer {src dst : ι} {h : CapHandle} {mask : CapRights} {mem : Bool} {ts₁ ts' : ι → CapTable}
      {i k : Fin capTableSlots} {hd : CapHandle} {e : CapEntry} (hsrc : ResolvesTo ts h (src, k) e)
      (hfill : Fills ts ts₁ (dst, i) hd e.type (e.rights &&& mask) e.obj)
      (hgone : liveEntry ts' (src, k) = none)
      (hothers : ∀ q, q ≠ (src, k) → liveEntry ts' q = liveEntry ts₁ q) :
      Effect ts (.transfer src h dst mask mem) (some hd) ts'

/-! ### The elementary changes -/

namespace CapInv

variable {ts : ι → CapTable}

theorem resolvesTo (hts : CapInv ts) {src : ι} {h : CapHandle} {need : CapRights} {e : CapEntry}
    (hlook : capLookup (ts src) h need = some e) :
    ∃ k, ResolvesTo ts h (src, k) e ∧ capHandleGen h = (ts src).gens k ∧ capRightsHas e.rights need := by
  obtain ⟨k, hidx, hslot, hgen, hr⟩ := (hts src).lookup_eq_ok.1 (CapTable.capLookup_eq_some.1 hlook)
  exact ⟨k, ⟨hidx, hslot⟩, hgen, hr⟩

variable [DecidableEq ι]

theorem insert_cases (hts : CapInv ts) (τ : ι) (type : CapType) (rights : CapRights) (obj : ℕ) (mem : Bool) :
    (∃ st, capTableInsert (ts τ) type rights obj mem = (.error st, ts τ)) ∨
    ∃ i hd t, capTableInsert (ts τ) type rights obj mem = (.ok hd, t) ∧ t.Inv ∧
      Fills ts (Function.update ts τ t) (τ, i) hd type rights obj := by
  have hinv := (hts τ).insert type rights obj mem
  rcases (hts τ).insert_cases type rights obj mem with
    ⟨-, heq⟩ | ⟨i, rest, -, hfree, ⟨-, heq⟩ | ⟨-, heq⟩⟩
  · exact .inl ⟨_, heq⟩
  · exact .inl ⟨_, heq⟩
  · rw [heq] at hinv
    refine .inr ⟨i, _, _, heq, hinv, capHandleIndex_make .., hfree, ?_, fun q hq ↦ ?_⟩
    · exact ⟨_, by rw [liveEntry_update, if_pos rfl, CapTable.put_slots_self], rfl, rfl, rfl⟩
    · rw [liveEntry_update]
      split
      · rename_i hτ
        rw [CapTable.put_slots_of_ne _ fun hi ↦ hq (Prod.ext hτ hi), ← hτ]
        rfl
      · rfl

theorem liveEntry_clearSlot (ts : ι → CapTable) (τ : ι) (k : Fin capTableSlots) :
    liveEntry (Function.update ts τ ((ts τ).clearSlot k)) (τ, k) = none ∧ ∀ q, q ≠ (τ, k) →
        liveEntry (Function.update ts τ ((ts τ).clearSlot k)) q = liveEntry ts q := by
  refine ⟨by rw [liveEntry_update, if_pos rfl, CapTable.clearSlot_slots, update_self], fun q hq ↦ ?_⟩
  rw [liveEntry_update]
  split
  · rename_i hτ
    rw [CapTable.clearSlot_slots, update_of_ne fun hk ↦ hq (Prod.ext hτ hk), ← hτ]
    rfl
  · rfl

theorem shrinks_update {τ : ι} {t : CapTable} (h : ∀ i, t.slots i = (ts τ).slots i ∨ t.slots i = none) :
    Shrinks ts (Function.update ts τ t) := by
  intro p
  rw [liveEntry_update]
  split
  · rename_i hτ
    rw [liveEntry, hτ]
    exact h p.2
  · exact .inl rfl

section

variable (hts : CapInv ts)
include hts

theorem shrinks_remove (τ : ι) (h : CapHandle) : Shrinks ts (Function.update ts τ (capTableRemove (ts τ) h).2) := by
  refine shrinks_update fun i ↦ ?_
  rcases (hts τ).remove_cases h with ⟨st, -, heq⟩ | ⟨k, e, -, -, -, heq⟩
  · exact .inl (by rw [heq])
  · rw [heq, CapTable.clearSlot_slots]
    rcases eq_or_ne i k with rfl | hik
    exacts [.inr (update_self ..), .inl (update_of_ne hik ..)]

theorem shrinks_invalidateObject (τ : ι) (obj : ℕ) :
    Shrinks ts (Function.update ts τ (capTableInvalidateObject (ts τ) obj)) := by
  refine shrinks_update fun i ↦ ?_
  by_cases hobj : obj = 0
  · exact .inl (by rw [capTableInvalidateObject, if_pos hobj])
  · rcases ((hts τ).invalidateObject_spec hobj).2 i with ⟨-, hs, -⟩ | ⟨-, hs, -⟩
    exacts [.inr hs, .inl hs]

/-! ### The operations -/

theorem create (τ : ι) (type : CapType) (rights : CapRights) (obj : ℕ) (mem : Bool) :
    CapInv (capCreate ts τ type rights obj mem).2 ∧ CapOp.Effect ts (.create τ type rights obj mem)
        (capCreate ts τ type rights obj mem).1.toOption (capCreate ts τ type rights obj mem).2 := by
  rcases hts.insert_cases τ type rights obj mem with ⟨st, heq⟩ | ⟨i, hd, t, heq, hinv, hfill⟩
  · simp only [capCreate, heq, update_eq_self]
    exact ⟨hts, .shrink (.refl ts)⟩
  · simp only [capCreate, heq]
    exact ⟨hts.update hinv, .create hfill⟩

theorem dup (src : ι) (h : CapHandle) (dst : ι) (mask : CapRights) (mem : Bool) :
    CapInv (capDup ts src h dst mask mem).2 ∧ CapOp.Effect ts (.dup src h dst mask mem)
        (capDup ts src h dst mask mem).1.toOption (capDup ts src h dst mask mem).2 := by
  rcases hlook : capLookup (ts src) h capRDup with _ | e
  · simp only [capDup, hlook]
    exact ⟨hts, .shrink (.refl ts)⟩
  · obtain ⟨k, hsrc, -, hdup⟩ := hts.resolvesTo hlook
    rcases hts.insert_cases dst e.type (e.rights &&& mask) e.obj mem with
      ⟨st, heq⟩ | ⟨i, hd, t, heq, hinv, hfill⟩
    · simp only [capDup, hlook, heq, update_eq_self]
      exact ⟨hts, .shrink (.refl ts)⟩
    · simp only [capDup, hlook, heq]
      exact ⟨hts.update hinv, .dup hsrc hdup hfill⟩

/-- The removal that ends a transfer succeeds: the insertion took another slot, so that the source
handle still resolves. -/
theorem remove_after_fill {src dst : ι} {h : CapHandle} {t : CapTable} {i k : Fin capTableSlots}
    {hd : CapHandle} {type : CapType} {rights : CapRights} {obj : ℕ} {e : CapEntry}
    (hsrc : ResolvesTo ts h (src, k) e) (hgen : capHandleGen h = (ts src).gens k)
    (hgens : t.gens = (ts dst).gens) (hinv : t.Inv)
    (hfill : Fills ts (Function.update ts dst t) (dst, i) hd type rights obj) :
    liveEntry (Function.update ts dst t) (src, k) = some e ∧ capTableRemove (Function.update ts dst t src) h =
        (.ok (), (Function.update ts dst t src).clearSlot k) := by
  have hinv₁ : CapInv (Function.update ts dst t) := hts.update hinv
  have hlive : liveEntry (Function.update ts dst t) (src, k) = some e := by
    rw [hfill.others _ fun heq ↦ ?_, hsrc.entry]
    have hempty := hfill.empty
    rw [← heq, hsrc.entry] at hempty
    cases hempty
  have hgen₁ : capHandleGen h = (Function.update ts dst t src).gens k := by
    rcases eq_or_ne src dst with rfl | hne
    · rw [update_self, hgens, hgen]
    · rw [update_of_ne hne, hgen]
  refine ⟨hlive, ?_⟩
  have hok : capLookupEx (Function.update ts dst t src) h 0 = .ok e :=
    (hinv₁ src).lookup_eq_ok.2 ⟨k, hsrc.index, hlive, hgen₁, BitVec.and_zero⟩
  simp only [capTableRemove, hok, hsrc.index, capSlotValidIndex_capIndex]

theorem transfer (src : ι) (h : CapHandle) (dst : ι) (mask : CapRights) (mem : Bool) :
    CapInv (capTransfer ts src h dst mask mem).2 ∧ CapOp.Effect ts (.transfer src h dst mask mem)
        (capTransfer ts src h dst mask mem).1.toOption (capTransfer ts src h dst mask mem).2 := by
  rcases hlook : capLookup (ts src) h capRTransfer with _ | e
  · simp only [capTransfer, capTransferOut, hlook]
    exact ⟨hts, .shrink (.refl ts)⟩
  · obtain ⟨k, hsrc, hgen, -⟩ := hts.resolvesTo hlook
    rcases hts.insert_cases dst e.type (e.rights &&& mask) e.obj mem with
      ⟨st, heq⟩ | ⟨i, hd, t, heq, hinv, hfill⟩
    · simp only [capTransfer, capTransferOut, hlook, heq, update_eq_self]
      exact ⟨hts, .shrink (.refl ts)⟩
    · have hgens : t.gens = (ts dst).gens := by
        obtain ⟨j, rest, -, -, -, hput⟩ := (hts dst).insert_ok (congrArg Prod.fst heq)
        have hgens := congrArg CapTable.gens hput
        rwa [heq] at hgens
      obtain ⟨hlive, hrem⟩ := hts.remove_after_fill hsrc hgen hgens hinv hfill
      have hinv₁ : CapInv (Function.update ts dst t) := hts.update hinv
      obtain ⟨hgone, hothers⟩ := liveEntry_clearSlot (Function.update ts dst t) src k
      simp only [capTransfer, capTransferOut, hlook, heq, hrem]
      exact ⟨hinv₁.update ((hinv₁ src).clearSlot hlive), .transfer hsrc hfill hgone hothers⟩

/-- **Every call keeps the invariant, and its effect on the entries.** -/
theorem exec_effect (op : CapOp ι) : CapInv (op.exec ts).2 ∧ op.Effect ts (op.exec ts).1 (op.exec ts).2 := by
  cases op with
  | create τ type rights obj mem => exact hts.create τ type rights obj mem
  | dup src h dst mask mem => exact hts.dup src h dst mask mem
  | transfer src h dst mask mem => exact hts.transfer src h dst mask mem
  | drop τ h => exact ⟨hts.update ((hts τ).remove h), .shrink (hts.shrinks_remove τ h)⟩
  | invalidate τ h => exact ⟨hts.update ((hts τ).remove h), .shrink (hts.shrinks_remove τ h)⟩
  | invalidateObject τ obj =>
    exact ⟨hts.update ((hts τ).invalidateObject obj), .shrink (hts.shrinks_invalidateObject τ obj)⟩

end

end CapInv

theorem capInv_capTables [DecidableEq ι] (hist : List (CapOp ι)) : CapInv (capTables hist) := by
  induction hist with
  | nil => exact fun _ ↦ CapTable.inv_init
  | cons op hist ih => exact (ih.exec_effect op).1

/-! ### The representation invariant -/

/-- **The representation invariant of a capability table.** After any history of calls on any number
of tables: the free stack lists pairwise distinct indices below `CONFIG_CAP_TABLE_SLOTS`, exactly
those of the empty slots; free and occupied slots add up; no generation is zero; and an occupied
slot holds a valid entry of its generation. So an insertion reports `CAP_ERR_NO_SLOTS` exactly when
all slots are occupied, and the corruption branch of `cap_table_alloc_slot` is not taken. -/
theorem cap_table_invariant [DecidableEq ι] (hist : List (CapOp ι)) (τ : ι) : (capTables hist τ).freeStack.Nodup ∧
    (∀ idx ∈ (capTables hist τ).freeStack, idx.toNat < capTableSlots) ∧
    (∀ i, capIndex i ∈ (capTables hist τ).freeStack ↔ (capTables hist τ).slots i = none) ∧
    (capTables hist τ).freeStack.length + (capTables hist τ).occupied.card = capTableSlots ∧
    (∀ i, (capTables hist τ).gens i ≠ 0) ∧
    (∀ i e, (capTables hist τ).slots i = some e → e.Valid ∧ e.gen = (capTables hist τ).gens i) ∧
    (∀ type rights obj mem, (capTableInsert (capTables hist τ) type rights obj mem).1 = .error .noSlots ↔
        ∀ i, ((capTables hist τ).slots i).isSome) ∧
    (capTableAllocSlot (capTables hist τ)).1 ≠ .error .invalid := by
  have h : (capTables hist τ).Inv := capInv_capTables hist τ
  refine ⟨h.nodup, h.lt_slots, h.mem_iff, h.length_add_card, h.gen_ne,
    fun i e he ↦ ⟨h.valid i e he, h.gen_eq i e he⟩, fun type rights obj mem ↦ ?_, h.allocSlot_ne⟩
  rw [h.insert_eq_noSlots, h.freeStack_eq_nil]

end CapazOS
