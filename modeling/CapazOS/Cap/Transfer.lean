import CapazOS.Cap.Ops

/-!
# Transfers as the caller sees them

`cap_transfer` reports through a status and an out parameter; `cap_table_insert` has stored the new
handle by the time the removal from the source can fail. On tables that satisfy the invariant this
does not happen (`CapInv.transferOut_cases`). A lookup reads the slot the handle names and nothing
else (`capLookupEx_congr`).
-/

namespace CapazOS

open Function

theorem capHandle_ext {h h' : CapHandle} (hidx : capHandleIndex h = capHandleIndex h')
    (hgen : capHandleGen h = capHandleGen h') : h = h' := by
  refine BitVec.eq_of_getLsbD_eq fun j hj ↦ ?_
  rcases Nat.lt_or_ge j 32 with hlow | hhigh
  · have := congrArg (BitVec.getLsbD · j) hidx
    simpa only [capHandleIndex, BitVec.getLsbD_setWidth, BitVec.getLsbD_and, getLsbD_low_mask hlow,
      Bool.and_true, hlow, decide_true, Bool.true_and] using this
  · have := congrArg (BitVec.getLsbD · (j - 32)) hgen
    simpa [capHandleGen, show j - 32 < 32 by omega, Nat.add_sub_cancel' hhigh] using this

/-! ### What a lookup reads -/

namespace CapTable

variable {t t' : CapTable}

theorem capLookupEx_congr {h : CapHandle} (need : CapRights)
    (hslot : ∀ i, capHandleIndex h = capIndex i → t'.slots i = t.slots i ∧ t'.gens i = t.gens i) :
    capLookupEx t' h need = capLookupEx t h need := by
  unfold capLookupEx
  split
  · rfl
  · rename_i i hidx
    obtain ⟨hs, hg⟩ := hslot i (capSlotValidIndex_eq_some.1 hidx)
    rw [hs, hg]

theorem capLookupEx_eq_invalid {h : CapHandle} (need : CapRights) {i : Fin capTableSlots}
    (hidx : capHandleIndex h = capIndex i)
    (hdead : t.slots i = none ∨ capHandleGen h ≠ t.gens i) :
    capLookupEx t h need = .error .invalid := by
  unfold capLookupEx
  rw [hidx, capSlotValidIndex_capIndex]
  rcases hslot : t.slots i with _ | e
  · simp only [hslot]
  · have hgen : capHandleGen h ≠ t.gens i := hdead.resolve_left (by simp [hslot])
    simp only [hslot, if_pos (Or.inr (Or.inl hgen)), ite_self]

end CapTable

variable {ι : Type*}

/-! ### An entry moves -/

/-- A transfer that succeeds, in terms of the slots: the entry `e` of slot `k` of the source moves,
with fewer rights, to the empty slot `i` of the destination. -/
structure Moves (ts ts' : ι → CapTable) (src : ι) (h : CapHandle) (dst : ι) (mask : CapRights)
    (hd : CapHandle) (i k : Fin capTableSlots) (e : CapEntry) : Prop where
  index : capHandleIndex h = capIndex k
  gen : capHandleGen h = (ts src).gens k
  entry : (ts src).slots k = some e
  empty : (ts dst).slots i = none
  handle : hd = capHandleMake ((ts dst).gens i) (capIndex i)
  inv : CapInv ts'
  gone : (ts' src).slots k = none
  moved : (ts' dst).slots i = some ((ts dst).newEntry i e.type (e.rights &&& mask) e.obj)
  gens : (ts' dst).gens i = (ts dst).gens i
  others : ∀ τ j, (τ, j) ≠ (src, k) → (τ, j) ≠ (dst, i) →
    (ts' τ).slots j = (ts τ).slots j ∧ (ts' τ).gens j = (ts τ).gens j

namespace Moves

variable {ts ts' : ι → CapTable} {src dst : ι} {h hd : CapHandle} {mask : CapRights}
  {i k : Fin capTableSlots} {e : CapEntry}

section

variable (hm : Moves ts ts' src h dst mask hd i k e)
include hm

theorem resolves {need : CapRights} (hneed : capRightsHas (e.rights &&& mask) need) :
    ∃ e', capLookup (ts' dst) hd need = some e' ∧ e'.type = e.type ∧ e'.obj = e.obj ∧
      e'.rights = e.rights &&& mask := by
  refine ⟨_, CapTable.capLookup_eq_some.2 ((hm.inv dst).lookup_eq_ok.2 ⟨i, ?_, hm.moved, ?_, hneed⟩), rfl, rfl, rfl⟩
  · rw [hm.handle, capHandleIndex_make]
  · rw [hm.handle, capHandleGen_make, hm.gens]

theorem stale (need : CapRights) :
    capLookupEx (ts' src) h need = .error .invalid := CapTable.capLookupEx_eq_invalid need hm.index (.inl hm.gone)

theorem lookup_other {τ : ι} {h' : CapHandle} (hold : (τ, h') ≠ (src, h)) (hnew : (τ, h') ≠ (dst, hd))
    (need : CapRights) : capLookupEx (ts' τ) h' need = capLookupEx (ts τ) h' need := by
  by_cases hk : τ = src ∧ capHandleIndex h' = capIndex k
  · -- the emptied slot: only `h` resolved in it
    obtain ⟨rfl, hidx⟩ := hk
    have hgen : capHandleGen h' ≠ (ts τ).gens k := fun hgen ↦
      hold (Prod.ext rfl (capHandle_ext (hidx.trans hm.index.symm) (hgen.trans hm.gen.symm)))
    rw [CapTable.capLookupEx_eq_invalid need hidx (.inr hgen), CapTable.capLookupEx_eq_invalid need hidx (.inl hm.gone)]
  by_cases hi : τ = dst ∧ capHandleIndex h' = capIndex i
  · -- the filled slot: only the new handle resolves in it
    obtain ⟨rfl, hidx⟩ := hi
    have hgen : capHandleGen h' ≠ (ts' τ).gens i := by
      intro hgen
      refine hnew (Prod.ext rfl (capHandle_ext ?_ ?_))
      · rw [hm.handle, capHandleIndex_make, hidx]
      · rw [hm.handle, capHandleGen_make, hgen, hm.gens]
    rw [CapTable.capLookupEx_eq_invalid need hidx (.inl hm.empty),
      CapTable.capLookupEx_eq_invalid need hidx (.inr hgen)]
  refine CapTable.capLookupEx_congr need fun j hj ↦ hm.others τ j ?_ ?_
  · rintro ⟨rfl, rfl⟩
    exact hk ⟨rfl, hj⟩
  · rintro ⟨rfl, rfl⟩
    exact hi ⟨rfl, hj⟩

end

end Moves

variable [DecidableEq ι]

/-! ### What a transfer does to the slots -/

theorem update_put (ts : ι → CapTable) (dst : ι) (i : Fin capTableSlots) (rest : List (BitVec 32)) (e : CapEntry) :
    (update ts dst ((ts dst).put i rest e) dst).slots i = some e ∧
    (∀ τ j, (τ, j) ≠ (dst, i) → (update ts dst ((ts dst).put i rest e) τ).slots j = (ts τ).slots j) ∧
    ∀ τ, (update ts dst ((ts dst).put i rest e) τ).gens = (ts τ).gens := by
  refine ⟨by rw [update_self, CapTable.put_slots_self], fun τ j hj ↦ ?_, fun τ ↦ ?_⟩
  · rcases eq_or_ne τ dst with rfl | hτ
    · rw [update_self, CapTable.put_slots_of_ne _ fun hji ↦ hj (by rw [hji])]
    · rw [update_of_ne hτ]
  · rcases eq_or_ne τ dst with rfl | hτ
    · rw [update_self]
      rfl
    · rw [update_of_ne hτ]

theorem update_clearSlot (ts : ι → CapTable) (src : ι) (k : Fin capTableSlots) :
    (update ts src ((ts src).clearSlot k) src).slots k = none ∧
    ∀ τ j, (τ, j) ≠ (src, k) → (update ts src ((ts src).clearSlot k) τ).slots j = (ts τ).slots j ∧
      (update ts src ((ts src).clearSlot k) τ).gens j = (ts τ).gens j := by
  refine ⟨by rw [update_self, CapTable.clearSlot_slots, update_self], fun τ j hj ↦ ?_⟩
  rcases eq_or_ne τ src with rfl | hτ
  · have hjk : j ≠ k := fun hjk ↦ hj (by rw [hjk])
    simp [update_of_ne hjk]
  · rw [update_of_ne hτ]
    exact ⟨rfl, rfl⟩

namespace CapInv

variable {ts : ι → CapTable}

/-- **What a transfer does**: it changes nothing, neither the tables nor `*out`, or it moves the
entry. -/
theorem transferOut_cases (hts : CapInv ts) (src : ι) (h : CapHandle) (dst : ι) (mask : CapRights)
    (mem : Bool) (out : CapHandle) :
    (∃ st, capTransferOut ts src h dst mask mem out = (some st, out, ts)) ∨
    ∃ hd ts' i k e, capTransferOut ts src h dst mask mem out = (none, hd, ts') ∧
      capLookup (ts src) h capRTransfer = some e ∧ Moves ts ts' src h dst mask hd i k e := by
  rcases hlook : capLookup (ts src) h capRTransfer with _ | e
  · exact .inl ⟨.denied, by simp only [capTransferOut, hlook]⟩
  obtain ⟨k, hsrc, hgen, -⟩ := hts.resolvesTo hlook
  have hentry : (ts src).slots k = some e := hsrc.entry
  rcases (hts dst).insert_cases e.type (e.rights &&& mask) e.obj mem with
    ⟨-, heq⟩ | ⟨i, rest, hstack, hfree, ⟨-, heq⟩ | ⟨-, heq⟩⟩
  · exact .inl ⟨.noSlots, by simp [capTransferOut, hlook, heq]⟩
  · exact .inl ⟨.noMem, by simp [capTransferOut, hlook, heq]⟩
  right
  have hne : (src, k) ≠ (dst, i) := by
    rintro ⟨rfl, rfl⟩
    rw [hfree] at hentry
    cases hentry
  obtain ⟨hnew, hkeep₁, hgens₁⟩ := update_put ts dst i rest ((ts dst).newEntry i e.type (e.rights &&& mask) e.obj)
  have hinv₁ : CapInv (Function.update ts dst ((ts dst).put i rest
      ((ts dst).newEntry i e.type (e.rights &&& mask) e.obj))) :=
    hts.update ((hts dst).put hstack (CapTable.valid_newEntry _ _ _ _ _) rfl)
  set ts₁ := Function.update ts dst ((ts dst).put i rest _) with hts₁
  have hentry₁ : (ts₁ src).slots k = some e := by rw [hkeep₁ src k hne, hentry]
  -- the handle resolves in the source after the insertion, so the removal clears its slot
  have hrem : capTableRemove (ts₁ src) h = (.ok (), (ts₁ src).clearSlot k) := by
    have hok : capLookupEx (ts₁ src) h 0 = .ok e :=
      (hinv₁ src).lookup_eq_ok.2 ⟨k, hsrc.index, hentry₁, by rw [hgens₁, hgen], BitVec.and_zero⟩
    simp only [capTableRemove, hok, hsrc.index, capSlotValidIndex_capIndex]
  obtain ⟨hgone, hkeep⟩ := update_clearSlot ts₁ src k
  refine ⟨capHandleMake ((ts dst).gens i) (capIndex i),
    Function.update ts₁ src ((ts₁ src).clearSlot k), i, k, e, ?_, rfl, ?_⟩
  · simp only [capTransferOut, hlook, heq, ← hts₁, hrem]
  · refine ⟨hsrc.index, hgen, hentry, hfree, rfl, hinv₁.update ((hinv₁ src).clearSlot hentry₁),
      ?_, ?_, ?_, fun τ j hj hj' ↦ ?_⟩
    · exact hgone
    · rw [(hkeep dst i hne.symm).1, hnew]
    · rw [(hkeep dst i hne.symm).2, hgens₁]
    · rw [(hkeep τ j hj).1, (hkeep τ j hj).2, hkeep₁ τ j hj', hgens₁]
      exact ⟨rfl, rfl⟩

end CapInv

/-! ### Atomicity -/

/-- **Transfers are atomic.** In the tables after any history of calls, for any source and
destination, equal or not: a transfer that returns `CAP_OK` had found an entry with the transfer
right under the handle; afterwards that handle does not resolve in the source, `*out` resolves in
the destination to the same type and object with the masked rights, and every other handle of every
table is looked up with the same result. A transfer that fails leaves all tables and `*out` as they
were. -/
theorem cap_transfer_atomic (hist : List (CapOp ι)) (src : ι) (h : CapHandle) (dst : ι)
    (mask : CapRights) (mem : Bool) (out : CapHandle) :
    match capTransferOut (capTables hist) src h dst mask mem out with
    | (some _, out', ts') => ts' = capTables hist ∧ out' = out
    | (none, out', ts') =>
      (∀ need, capLookup (ts' src) h need = none) ∧
      (∃ e e', capLookup (capTables hist src) h capRTransfer = some e ∧ capLookup (ts' dst) out' 0 = some e' ∧
        e'.type = e.type ∧ e'.obj = e.obj ∧ e'.rights = e.rights &&& mask) ∧
      ∀ τ h' need, (τ, h') ≠ (src, h) → (τ, h') ≠ (dst, out') →
        capLookupEx (ts' τ) h' need = capLookupEx (capTables hist τ) h' need := by
  have hts := capInv_capTables hist
  rcases hts.transferOut_cases src h dst mask mem out with
    ⟨st, heq⟩ | ⟨hd, ts', i, k, e, heq, hlook, hm⟩
  · rw [heq]
    exact ⟨rfl, rfl⟩
  · rw [heq]
    obtain ⟨e', hlook', htype, hobj, hrights⟩ := hm.resolves BitVec.and_zero
    refine ⟨fun need ↦ ?_, ⟨e, e', hlook, hlook', htype, hobj, hrights⟩,
      fun τ h' need hold hnew ↦ hm.lookup_other hold hnew need⟩
    rw [capLookup, hm.stale need]
    rfl

end CapazOS
