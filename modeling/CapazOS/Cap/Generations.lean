import CapazOS.Cap.Table

/-!
# Stale handles

A handle names a slot at one generation. Each removal advances the generation by `cap_bump_gen`,
which runs through the `2 ^ 32 - 1` nonzero generations in a cycle, so that the number of removals
along a run determines it (`gens_runOps`). **A removed handle does not resolve, and no handle is
issued twice.**
-/

namespace CapazOS

open Function

/-! ### The cycle of generations -/

theorem toNat_ne_zero {gen : BitVec 32} (h : gen ≠ 0) : gen.toNat ≠ 0 :=
  fun h' ↦ h (BitVec.eq_of_toNat_eq (h'.trans BitVec.toNat_zero.symm))

theorem toNat_capBumpGen {gen : BitVec 32} (h : gen ≠ 0) :
    (capBumpGen gen).toNat = (gen.toNat - 1 + 1) % (2 ^ 32 - 1) + 1 := by
  have hpos := toNat_ne_zero h
  have hsucc : (gen + 1).toNat = (gen.toNat + 1) % 2 ^ 32 := BitVec.toNat_add gen 1
  unfold capBumpGen
  split
  · rename_i hwrap
    have hzero : (gen + 1).toNat = 0 := congrArg BitVec.toNat hwrap
    have hone : (1 : BitVec 32).toNat = 1 := rfl
    omega
  · rename_i hwrap
    have hne := toNat_ne_zero hwrap
    omega

theorem iterate_capBumpGen_ne_zero {gen : BitVec 32} (h : gen ≠ 0) (k : ℕ) : capBumpGen^[k] gen ≠ 0 := by
  cases k with
  | zero => exact h
  | succ k =>
    rw [iterate_succ_apply']
    exact CapTable.capBumpGen_ne_zero _

theorem toNat_iterate_capBumpGen {gen : BitVec 32} (h : gen ≠ 0) (k : ℕ) :
    (capBumpGen^[k] gen).toNat = (gen.toNat - 1 + k) % (2 ^ 32 - 1) + 1 := by
  induction k with
  | zero =>
    have hpos := toNat_ne_zero h
    rw [iterate_zero_apply, Nat.add_zero, Nat.mod_eq_of_lt (by omega)]
    omega
  | succ k ih =>
    rw [iterate_succ_apply', toNat_capBumpGen (iterate_capBumpGen_ne_zero h k), ih,
      Nat.add_sub_cancel, Nat.mod_add_mod, Nat.add_assoc]

/-- **A generation does not come back** within fewer than `2 ^ 32 - 1` removals. -/
theorem iterate_capBumpGen_ne {gen : BitVec 32} (h : gen ≠ 0) {k : ℕ} (hpos : 0 < k)
    (hk : k < 2 ^ 32 - 1) : capBumpGen^[k] gen ≠ gen := by
  intro heq
  have hgen := toNat_iterate_capBumpGen h k
  rw [heq] at hgen
  rcases Nat.lt_or_ge (gen.toNat - 1 + k) (2 ^ 32 - 1) with hsmall | hbig
  · rw [Nat.mod_eq_of_lt hsmall] at hgen
    omega
  · rw [Nat.mod_eq_sub_mod hbig, Nat.mod_eq_of_lt (by omega)] at hgen
    omega

/-! ### Runs of a table -/

inductive TableOp where
  | insert (type : CapType) (rights : CapRights) (obj : ℕ) (mem : Bool)
  | remove (h : CapHandle)
  | invalidate (h : CapHandle)
  | invalidateObject (obj : ℕ)

def TableOp.run (t : CapTable) : TableOp → CapTable
  | .insert type rights obj mem => (capTableInsert t type rights obj mem).2
  | .remove h => (capTableRemove t h).2
  | .invalidate h => (capTableInvalidate t h).2
  | .invalidateObject obj => capTableInvalidateObject t obj

namespace CapTable

def runOps (t : CapTable) (ops : List TableOp) : CapTable := ops.foldl TableOp.run t

def Removes (t : CapTable) (op : TableOp) (i : Fin capTableSlots) : Prop :=
  (t.slots i).isSome ∧ (op.run t).slots i = none

instance (t : CapTable) (op : TableOp) (i : Fin capTableSlots) : Decidable (t.Removes op i) :=
  inferInstanceAs (Decidable (_ ∧ _))

/-- How many calls of the sequence remove the entry of the slot. -/
def removals (t : CapTable) (i : Fin capTableSlots) : List TableOp → ℕ
  | [] => 0
  | op :: ops => (if t.Removes op i then 1 else 0) + (op.run t).removals i ops

variable {t : CapTable}

section

variable (h : t.Inv)
include h

theorem Inv.run (op : TableOp) : (op.run t).Inv := by
  cases op with
  | insert type rights obj mem => exact h.insert type rights obj mem
  | remove hd => exact h.remove hd
  | invalidate hd => exact h.remove hd
  | invalidateObject obj => exact h.invalidateObject obj

theorem Inv.slotStep (op : TableOp) (i : Fin capTableSlots) : SlotStep t (op.run t) i := by
  cases op with
  | insert type rights obj mem => exact h.slotStep_insert type rights obj mem i
  | remove hd => exact h.slotStep_remove hd i
  | invalidate hd => exact h.slotStep_remove hd i
  | invalidateObject obj => exact h.slotStep_invalidateObject obj i

theorem Inv.runOps (ops : List TableOp) : (t.runOps ops).Inv := by
  induction ops generalizing t with
  | nil => exact h
  | cons op ops ih => exact ih (h.run op)

theorem Inv.gens_run (op : TableOp) (i : Fin capTableSlots) :
    (op.run t).gens i = capBumpGen^[if t.Removes op i then 1 else 0] (t.gens i) := by
  rcases h.slotStep op i with ⟨hs, hg⟩ | ⟨e, hfree, hs, hg⟩ | ⟨e, hs, hfree, hg⟩
  · rw [if_neg fun hr ↦ ?_, hg, iterate_zero_apply]
    have hsome := hr.1
    rw [← hs, hr.2] at hsome
    cases hsome
  · rw [if_neg fun hr ↦ ?_, hg, iterate_zero_apply]
    have hnone := hr.2
    rw [hs] at hnone
    cases hnone
  · rw [if_pos ⟨by rw [hs]; rfl, hfree⟩, hg, iterate_one]

/-- **The number of removals determines the generation.** -/
theorem Inv.gens_runOps (ops : List TableOp) (i : Fin capTableSlots) :
    (t.runOps ops).gens i = capBumpGen^[t.removals i ops] (t.gens i) := by
  induction ops generalizing t with
  | nil => rfl
  | cons op ops ih =>
    rw [removals, Nat.add_comm, iterate_add_apply, ← h.gens_run op i]
    exact ih (h.run op)

theorem Inv.isSome_runOps {ops : List TableOp} {i : Fin capTableSlots} (hi : (t.slots i).isSome)
    (hnone : t.removals i ops = 0) : ((t.runOps ops).slots i).isSome := by
  induction ops generalizing t with
  | nil => exact hi
  | cons op ops ih =>
    rw [removals, Nat.add_eq_zero_iff] at hnone
    refine ih (h.run op) ?_ hnone.2
    by_contra hgone
    rw [if_pos ⟨hi, Option.not_isSome_iff_eq_none.1 hgone⟩] at hnone
    cases hnone.1

theorem Inv.insert_ne_invalid (type : CapType) (rights : CapRights) (obj : ℕ) (mem : Bool) :
    (capTableInsert t type rights obj mem).1 ≠ .ok capHandleInvalid := by
  intro hok
  obtain ⟨i, -, -, -, hmake, -⟩ := h.insert_ok hok
  have hgen := congrArg capHandleGen hmake
  rw [capHandleGen_make] at hgen
  exact h.gen_ne i (hgen.symm.trans (by decide))

theorem Inv.lookup_eq_none_of_gen {hd : CapHandle} {i : Fin capTableSlots}
    (hidx : capHandleIndex hd = capIndex i) (hgen : t.gens i ≠ capHandleGen hd) (need : CapRights) :
    capLookup t hd need = none := by
  rw [Option.eq_none_iff_forall_ne_some]
  intro e he
  obtain ⟨j, hj, -, hg, -⟩ := h.lookup_eq_ok.1 (capLookup_eq_some.1 he)
  obtain rfl := capIndex_injective (hidx.symm.trans hj)
  exact hgen hg.symm

end

end CapTable

/-! ### Handles are never reused -/

open CapTable in
/-- **Stale handles never resolve.** Let a sequence of calls lead from `cap_table_init` to `t`.

* When a handle resolves and a call then removes its entry, the handle does not resolve after any
  further calls that remove its slot fewer than `2 ^ 32 - 2` times.
* A handle that an insertion returns is not returned again as long as its slot is removed fewer than
  `2 ^ 32 - 1` times.
* `CAP_HANDLE_INVALID` is not returned. -/
theorem stale_handles_never_resolve (ops : List TableOp) :
    (∀ (hd : CapHandle) (i : Fin capTableSlots) (op : TableOp) (ops' : List TableOp),
      (capLookup (capTableInit.runOps ops) hd 0).isSome → capHandleIndex hd = capIndex i →
      (capTableInit.runOps ops).Removes op i →
      (op.run (capTableInit.runOps ops)).removals i ops' < 2 ^ 32 - 2 →
      ∀ need, capLookup ((op.run (capTableInit.runOps ops)).runOps ops') hd need = none) ∧
    (∀ type rights obj mem (hd : CapHandle) (i : Fin capTableSlots) (ops' : List TableOp),
      (capTableInsert (capTableInit.runOps ops) type rights obj mem).1 = .ok hd →
      capHandleIndex hd = capIndex i →
      ((TableOp.insert type rights obj mem).run (capTableInit.runOps ops)).removals i ops' < 2 ^ 32 - 1 →
      ∀ type' rights' obj' mem', (capTableInsert
        (((TableOp.insert type rights obj mem).run (capTableInit.runOps ops)).runOps ops')
          type' rights' obj' mem').1 ≠ .ok hd) ∧
    ∀ type rights obj mem, (capTableInsert (capTableInit.runOps ops) type rights obj mem).1 ≠ .ok capHandleInvalid := by
  have h : (capTableInit.runOps ops).Inv := inv_init.runOps ops
  generalize capTableInit.runOps ops = t at h ⊢
  refine ⟨?_, ?_, h.insert_ne_invalid⟩
  · intro hd i op ops' hlook hidx hrem hbound need
    obtain ⟨e, he⟩ := Option.isSome_iff_exists.1 hlook
    obtain ⟨j, hj, -, hgen, -⟩ := h.lookup_eq_ok.1 (capLookup_eq_some.1 he)
    obtain rfl := capIndex_injective (hidx.symm.trans hj)
    refine ((h.run op).runOps ops').lookup_eq_none_of_gen hidx ?_ need
    rw [(h.run op).gens_runOps, h.gens_run, if_pos hrem, ← iterate_add_apply, hgen]
    exact iterate_capBumpGen_ne (h.gen_ne i) (by omega) (by omega)
  · intro type rights obj mem hd i ops' hok hidx hbound type' rights' obj' mem' hok'
    have h₁ := h.run (.insert type rights obj mem)
    have h₂ := h₁.runOps ops'
    obtain ⟨j, rest, -, -, rfl, hput⟩ := h.insert_ok hok
    rw [capHandleIndex_make] at hidx
    obtain rfl := capIndex_injective hidx
    obtain ⟨k, -, hfree, -, hmake, -⟩ := h₂.insert_ok hok'
    have hk := congrArg capHandleIndex hmake
    rw [capHandleIndex_make, capHandleIndex_make] at hk
    obtain rfl := capIndex_injective hk
    have hgen := congrArg capHandleGen hmake
    rw [capHandleGen_make, capHandleGen_make, h₁.gens_runOps] at hgen
    have hslot : ((TableOp.insert type rights obj mem).run t) = _ := hput
    -- Either the slot was never emptied again, or its generation has moved on.
    rcases Nat.eq_zero_or_pos (((TableOp.insert type rights obj mem).run t).removals j ops') with hzero | hpos
    · have hfull : (((TableOp.insert type rights obj mem).run t).slots j).isSome := by
        rw [hslot, put_slots_self]
        rfl
      have hsome := h₁.isSome_runOps hfull hzero
      rw [hfree] at hsome
      cases hsome
    · refine iterate_capBumpGen_ne (h.gen_ne j) hpos hbound ?_
      rw [hslot] at hgen
      rw [hslot]
      exact hgen.symm

theorem stale_handles_never_resolve_once : let t := capTableInit.runOps [.insert .endpoint capRRead 0x1234 true]
    let hd := capHandleMake 1 (capIndex 255)
    (capLookup t hd 0).isSome ∧ capLookup ((TableOp.remove hd).run t) hd capRRead = none ∧
      (capTableInsert ((TableOp.remove hd).run t) .vmo capRRead 0xBEEF true).1 ≠ .ok hd := by
  have hlook : (capLookup (capTableInit.runOps [.insert .endpoint capRRead 0x1234 true])
      (capHandleMake 1 (capIndex 255)) 0).isSome := by decide +kernel
  refine ⟨hlook, ?_, ?_⟩
  · exact (stale_handles_never_resolve [.insert .endpoint capRRead 0x1234 true]).1
      (capHandleMake 1 (capIndex 255)) 255 (.remove (capHandleMake 1 (capIndex 255))) [] hlook
      (capHandleIndex_make ..) (by decide +kernel) (by decide) capRRead
  · exact (stale_handles_never_resolve []).2.1 .endpoint capRRead 0x1234 true
      (capHandleMake 1 (capIndex 255)) 255 [.remove (capHandleMake 1 (capIndex 255))]
      (by decide +kernel) (capHandleIndex_make ..) (by decide +kernel) .vmo capRRead 0xBEEF true

end CapazOS
