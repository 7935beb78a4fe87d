import CapazOS.Cap.Ops

/-!
# Removing capabilities

`cap_drop` takes one capability out of a table, `cap_table_invalidate_object` all that name an
object. Removal is a right of its own, `CAP_R_DROP`; **no lookup asks for it**.
-/

namespace CapazOS

open Finset

variable {ι : Type*} [DecidableEq ι]

/-- `CAP_R_DROP`: may remove the capability from its table. -/
def capRDrop : CapRights := 1#32 <<< 5

inductive KsStatus where
  | ok | invalidArg | invalidState | noRights | noSpace | outOfMemory | notFound | notSupported | busy
  | timedOut | internal
  deriving DecidableEq

/-- `cka_cap_release`; `core` is the table `g_core_caps`, if there is one. -/
def ckaCapRelease (ts : ι → CapTable) (core : Option ι) (h : CapHandle) : KsStatus × (ι → CapTable) :=
  match core with
  | none => (.invalidState, ts)
  | some τ =>
    match capDrop ts τ h with
    | (.ok (), ts) => (.ok, ts)
    | (.error .invalid, ts) => (.notFound, ts)
    | (.error .denied, ts) => (.noRights, ts)
    | (.error .noSlots, ts) => (.outOfMemory, ts)
    | (.error .noMem, ts) => (.internal, ts)

/-- The calls that may not take a capability without `CAP_R_DROP` out of its table; those that name
a capability name it by the handle `h` of the table `τ`. -/
def CapOp.KeepsThrough (τ : ι) (h : CapHandle) : CapOp ι → Prop
  | .create .. | .dup .. => True
  | .drop τ' h' | .invalidate τ' h' => τ' = τ ∧ h' = h
  | .transfer .. | .invalidateObject .. => False

/-- Removal through the handle `h` of the table `τ` needs the drop right. -/
structure DropGuarded (ts : ι → CapTable) (τ : ι) (h : CapHandle) : Prop where
  refused : (∃ e, capLookup (ts τ) h capRDrop = some e) ∨
    (capDrop ts τ h).1 ≠ .ok () ∧ (capDrop ts τ h).2 = ts ∧
      (ckaCapRelease ts (some τ) h).1 ≠ .ok ∧ (ckaCapRelease ts (some τ) h).2 = ts
  kept : ∀ op : CapOp ι, op.KeepsThrough τ h → ∀ p e, liveEntry ts p = some e →
    ¬capRightsHas e.rights capRDrop → liveEntry (op.exec ts).2 p = some e

namespace CapInv

variable {ts : ι → CapTable}

theorem create_keeps (hts : CapInv ts) (τ : ι) (type : CapType) (rights : CapRights) (obj : ℕ) (mem : Bool)
    {p : ι × Fin capTableSlots} {e : CapEntry} (he : liveEntry ts p = some e) :
    liveEntry (capCreate ts τ type rights obj mem).2 p = some e := by
  rcases hts.insert_cases τ type rights obj mem with ⟨st, heq⟩ | ⟨i, hd, t, heq, -, hfill⟩
  · simpa only [capCreate, heq, Function.update_eq_self] using he
  · simp only [capCreate, heq]
    rwa [hfill.others]
    rintro rfl
    rw [hfill.empty] at he
    cases he

theorem dup_keeps (hts : CapInv ts) (src dst : ι) (h : CapHandle) (mask : CapRights) (mem : Bool)
    {p : ι × Fin capTableSlots} {e : CapEntry} (he : liveEntry ts p = some e) :
    liveEntry (capDup ts src h dst mask mem).2 p = some e := by
  rcases hlook : capLookup (ts src) h capRDup with _ | e'
  · simpa only [capDup, hlook] using he
  · rw [capDup, hlook]
    exact hts.create_keeps dst e'.type (e'.rights &&& mask) e'.obj mem he

/-- A removal is refused, or clears the slot of the entry behind the handle. -/
theorem drop_cases (hts : CapInv ts) (τ : ι) (h : CapHandle) :
    (capLookup (ts τ) h 0 = none ∧ ∃ st, capDrop ts τ h = (.error st, ts)) ∨
    ∃ i e, liveEntry ts (τ, i) = some e ∧
      (∀ need e', capLookup (ts τ) h need = some e' ↔ e = e' ∧ capRightsHas e.rights need) ∧
      capDrop ts τ h = (.ok (), Function.update ts τ ((ts τ).clearSlot i)) := by
  rcases (hts τ).remove_cases h with ⟨st, hlook, hrem⟩ | ⟨i, e, hidx, hslot, hgen, hrem⟩
  · refine .inl ⟨by rw [capLookup, hlook]; rfl, st, ?_⟩
    simp only [capDrop, hrem, Function.update_eq_self]
  · refine .inr ⟨i, e, hslot, fun need e' ↦ ?_, by simp only [capDrop, hrem]⟩
    rw [CapTable.capLookup_eq_some, (hts τ).lookup_eq_ok]
    constructor
    · rintro ⟨j, hj, hslot', -, hr⟩
      obtain rfl := capIndex_injective (hidx.symm.trans hj)
      obtain rfl := Option.some.inj (hslot.symm.trans hslot')
      exact ⟨rfl, hr⟩
    · rintro ⟨rfl, hr⟩
      exact ⟨i, hidx, hslot, hgen, hr⟩

theorem drop_keeps (hts : CapInv ts) {τ : ι} {h : CapHandle} {p : ι × Fin capTableSlots} {e : CapEntry}
    (he : liveEntry ts p = some e) (hne : capLookup (ts τ) h 0 ≠ some e) :
    liveEntry (capDrop ts τ h).2 p = some e := by
  rcases hts.drop_cases τ h with ⟨-, st, heq⟩ | ⟨i, e', he', hlook, heq⟩
  · rwa [heq]
  · rw [heq, (liveEntry_clearSlot ts τ i).2, he]
    rintro rfl
    exact hne ((hlook 0 e).2 ⟨Option.some.inj (he'.symm.trans he), BitVec.and_zero⟩)

end CapInv

/-- **Removal needs the drop right exactly where the capability has it.** No lookup asks for
`CAP_R_DROP`, so every handle that resolves can be dropped. -/
theorem drop_guarded_iff (hist : List (CapOp ι)) (τ : ι) (h : CapHandle) : DropGuarded (capTables hist) τ h ↔
      ∀ e, capLookup (capTables hist τ) h 0 = some e → capRightsHas e.rights capRDrop := by
  have hts := capInv_capTables hist
  generalize capTables hist = ts at hts
  constructor
  · intro hg e he
    rcases hts.drop_cases τ h with ⟨hnone, -⟩ | ⟨i, e', -, hlook, heq⟩
    · rw [hnone] at he
      cases he
    · obtain rfl := ((hlook 0 e).1 he).1
      rcases hg.refused with ⟨e₁, he₁⟩ | ⟨hne, -⟩
      · exact ((hlook _ e₁).1 he₁).2
      · rw [heq] at hne
        exact absurd rfl hne
  · intro hall
    have hkeeps : ∀ p e, liveEntry ts p = some e → ¬capRightsHas e.rights capRDrop →
        liveEntry (capDrop ts τ h).2 p = some e := fun p e he hr ↦ hts.drop_keeps he fun hlook ↦ hr (hall e hlook)
    have hcases : (∃ e, capLookup (ts τ) h capRDrop = some e) ∨ ∃ st, capDrop ts τ h = (.error st, ts) := by
      rcases hts.drop_cases τ h with ⟨-, hst⟩ | ⟨i, e, -, hlook, -⟩
      · exact .inr hst
      · exact .inl ⟨e, (hlook _ e).2 ⟨rfl, hall e ((hlook 0 e).2 ⟨rfl, BitVec.and_zero⟩)⟩⟩
    refine ⟨hcases.imp_right ?_, fun op hop p e he hr ↦ ?_⟩
    · rintro ⟨st, heq⟩
      cases st <;> simp [ckaCapRelease, heq]
    · cases op with
      | create τ' type rights obj mem => exact hts.create_keeps τ' type rights obj mem he
      | dup src h' dst mask mem => exact hts.dup_keeps src dst h' mask mem he
      | drop τ' h' =>
        obtain ⟨rfl, rfl⟩ := hop
        exact hkeeps p e he hr
      | invalidate τ' h' =>
        obtain ⟨rfl, rfl⟩ := hop
        exact hkeeps p e he hr
      | transfer => exact hop.elim
      | invalidateObject => exact hop.elim

def readOnly : List (CapOp Unit) := [.create () .endpoint capRRead 1 true]

theorem drop_without_right : (ckaCapRelease (capTables readOnly) (some ())
      (capHandleMake 1 (capIndex 255))).1 = .ok ∧
    ¬DropGuarded (capTables readOnly) () (capHandleMake 1 (capIndex 255)) := by
  have hdrop : (capDrop (capTables readOnly) () (capHandleMake 1 (capIndex 255))).1 = .ok () := by decide +kernel
  have hright : capLookup (capTables readOnly ()) (capHandleMake 1 (capIndex 255)) capRDrop = none := by
    decide +kernel
  refine ⟨by decide +kernel, fun hg ↦ ?_⟩
  rcases hg.refused with ⟨e, he⟩ | ⟨hne, -⟩
  · rw [hright] at he
    cases he
  · exact hne hdrop

/-- **Revoking an object is exact**: no handle resolves to it afterwards, handles to other objects
resolve as before, and the free slots grow by the number of entries that named it. -/
theorem object_revocation_exact (hist : List (CapOp ι)) (τ : ι) {obj : ℕ} (hobj : obj ≠ 0) :
    let t := capTables hist τ
    let t' := capTableInvalidateObject t obj
    (∀ h need e, capLookup t' h need = some e → e.obj ≠ obj) ∧
    (∀ h need e, capLookup t h need = some e → e.obj ≠ obj → capLookup t' h need = some e) ∧
    t'.freeStack.length = t.freeStack.length + #{i | (t.slots i).map CapEntry.obj = some obj} := by
  have h : (capTables hist τ).Inv := capInv_capTables hist τ
  generalize capTables hist τ = t at h
  obtain ⟨h', hslots⟩ := h.invalidateObject_spec hobj
  simp only [CapTable.capLookup_eq_some, h'.lookup_eq_ok, h.lookup_eq_ok]
  generalize capTableInvalidateObject t obj = t' at h' hslots
  refine ⟨?_, ?_, ?_⟩
  · rintro hd need e ⟨i, -, hslot, -⟩ heq
    rcases hslots i with ⟨-, hnone, -⟩ | ⟨hnames, hkeep, -⟩
    · cases hslot.symm.trans hnone
    · exact hnames ⟨e, hkeep.symm.trans hslot, heq⟩
  · rintro hd need e ⟨i, hidx, hslot, hgen, hr⟩ hne
    rcases hslots i with ⟨⟨e', he', heq⟩, -⟩ | ⟨-, hkeep, hgens⟩
    · exact absurd (Option.some.inj (hslot.symm.trans he') ▸ heq) hne
    · exact ⟨i, hidx, hkeep.trans hslot, hgen.trans hgens.symm, hr⟩
  · have hstays : {i ∈ t.occupied | (t'.slots i).isSome} = t'.occupied := by
      ext i
      rcases hslots i with ⟨-, hnone, -⟩ | ⟨-, hkeep, -⟩
      · simp [CapTable.occupied, hnone]
      · simp [CapTable.occupied, hkeep]
    have hgoes : {i ∈ t.occupied | ¬(t'.slots i).isSome} =
        ({i | (t.slots i).map CapEntry.obj = some obj} : Finset _) := by
      ext i
      rcases hslots i with ⟨⟨e, he, heq⟩, hnone, -⟩ | ⟨hnames, hkeep, -⟩
      · simp [CapTable.occupied, hnone, he, heq]
      · cases hslot : t.slots i with
        | none => simp [CapTable.occupied, hkeep, hslot]
        | some e => simpa [CapTable.occupied, hkeep, hslot] using fun heq ↦ hnames ⟨e, hslot, heq⟩
    have hsplit := card_filter_add_card_filter_not (s := t.occupied) fun i ↦ (t'.slots i).isSome = true
    rw [hstays, hgoes] at hsplit
    have := h.length_add_card
    have := h'.length_add_card
    omega

theorem object_revocation_exact_endpoint :
    (capTableInvalidateObject (capTables readOnly ()) 1).freeStack.length =
      capTableSlots := by
  rw [(object_revocation_exact readOnly () (by decide : 1 ≠ 0)).2.2]
  decide +kernel

end CapazOS
