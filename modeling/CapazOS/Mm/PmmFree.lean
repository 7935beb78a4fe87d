import CapazOS.Mm.PmmSearch

/-!
# Which pages are ever handed out

`pmm_init` leaves a page free exactly when it lies in a usable range, rounded inwards, and in none
of the ranges it reserves itself, rounded outwards (`pmmInit_free`). **A page is returned by some
later allocation if and only if it was free then** (`PmmSys.returns_iff`): no call frees a page that
was reserved, and allocations of single pages come to every free page, since a run of one page never
straddles the hint.
-/

namespace CapazOS

open List

namespace PmmState

theorem sameWindow_foldl {β : Type*} {f : PmmState → β → PmmState} (hf : ∀ st x, SameWindow st (f st x))
    (l : List β) (st : PmmState) : SameWindow st (l.foldl f st) := by
  induction l generalizing st with
  | nil => exact SameWindow.refl st
  | cons x l ih => exact (hf st x).trans (ih (f st x))

theorem mem_clampIndices_iff {st : PmmState} (hw : st.WholePages) {s e i : ℕ} (hs : s % pageSize = 0)
    (he : e % pageSize = 0) (hi : i < st.totalPages) : i ∈ st.clampIndices s e ↔
      s ≤ st.basePa + i * pageSize ∧ st.basePa + i * pageSize < e := by
  refine ⟨fun hmem ↦ ?_, fun ⟨hlo, hhi⟩ ↦ mem_clampIndices hw he hi hlo hhi⟩
  have hbase := hw.base_mod
  simp only [clampIndices, pageSize] at *
  split_ifs at hmem
  · simp at hmem
  · simp at hmem
  · rw [mem_range'_1] at hmem
    omega

theorem bitTest_markFree (st : PmmState) (i j : ℕ) :
    bitTest (st.markFree i).bitmap j = (!decide (j = i) && bitTest st.bitmap j) := by
  unfold markFree
  split
  · exact bitTest_bitClear st.bitmap i j
  · next hclear =>
    by_cases h : j = i
    · subst h
      simp [hclear]
    · simp [h]

theorem bitTest_foldl_markFree (l : List ℕ) (st : PmmState) (j : ℕ) :
    bitTest (l.foldl markFree st).bitmap j = false ↔ j ∈ l ∨ bitTest st.bitmap j = false := by
  induction l generalizing st with
  | nil => simp
  | cons i l ih =>
    rw [foldl_cons, ih, bitTest_markFree, mem_cons]
    by_cases h : j = i <;> simp [h]

end PmmState

open PmmState

section

variable {st : PmmState} {i : ℕ}

theorem markRangeFree_free (hw : st.WholePages) (hi : i < st.totalPages) (s e : ℕ) :
    bitTest (bitmapMarkRangeFree st s e).bitmap i = false ↔
      (alignUp4k s ≤ st.basePa + i * pageSize ∧ st.basePa + i * pageSize < alignDown4k e) ∨
        bitTest st.bitmap i = false := by
  rw [bitmapMarkRangeFree, bitTest_foldl_markFree, mem_clampIndices_iff hw (alignUp4k_mod s) (alignDown4k_mod e) hi]

theorem markRangeReserved_free (hw : st.WholePages) (hi : i < st.totalPages) (s e : ℕ) :
    bitTest (bitmapMarkRangeReserved st s e).bitmap i = false ↔
      ¬(alignDown4k s ≤ st.basePa + i * pageSize ∧ st.basePa + i * pageSize < alignUp4k e) ∧
        bitTest st.bitmap i = false := by
  rw [bitmapMarkRangeReserved, bitTest_foldl_markReserved, Bool.or_eq_false_iff, decide_eq_false_iff_not,
    mem_clampIndices_iff hw (alignDown4k_mod s) (alignUp4k_mod e) hi]

theorem sameWindow_markRangeFree (st : PmmState) (s e : ℕ) :
    SameWindow st (bitmapMarkRangeFree st s e) := sameWindow_foldl sameWindow_markFree _ st

theorem sameWindow_markRangeReserved (st : PmmState) (s e : ℕ) :
    SameWindow st (bitmapMarkRangeReserved st s e) := sameWindow_foldl sameWindow_markReserved _ st

theorem markAllReserved_set (h : st.bitmapBytes = (st.totalPages + 7) / 8) (hi : i < st.totalPages) :
    ¬bitTest (bitmapMarkAllReserved st).bitmap i = false := fun hclear ↦ by
  have hones : ∀ k < (st.totalPages + 7) / 8, (bitmapMarkAllReserved st).bitmap k = 0xFF#8 := fun k hk ↦
    if_pos (by omega)
  have hmem := mem_clearBits.2 ⟨hi, hclear⟩
  rw [clearBits_eq_empty_of_ones _ hones] at hmem
  exact absurd hmem (Finset.notMem_empty i)

theorem foldl_markRangeFree_free (usable : List DtbRange) (hw : st.WholePages) (hi : i < st.totalPages) :
    bitTest (usable.foldl (fun st r ↦ bitmapMarkRangeFree st r.base r.stop) st).bitmap i = false ↔
      (∃ r ∈ usable, alignUp4k r.base ≤ st.basePa + i * pageSize ∧
        st.basePa + i * pageSize < alignDown4k r.stop) ∨ bitTest st.bitmap i = false := by
  induction usable generalizing st with
  | nil => simp
  | cons r usable ih =>
    have hsame := sameWindow_markRangeFree st r.base r.stop
    rw [foldl_cons, ih (hw.of_sameWindow hsame) (by rwa [hsame.totalPages]), hsame.basePa,
      markRangeFree_free hw hi, exists_mem_cons_iff, or_assoc]
    exact or_left_comm

theorem foldl_markRangeReserved_free (marks : List (ℕ × ℕ)) (hw : st.WholePages) (hi : i < st.totalPages) :
    bitTest (marks.foldl (fun st w ↦ bitmapMarkRangeReserved st w.1 w.2) st).bitmap i = false ↔
      (∀ w ∈ marks, ¬(alignDown4k w.1 ≤ st.basePa + i * pageSize ∧
        st.basePa + i * pageSize < alignUp4k w.2)) ∧ bitTest st.bitmap i = false := by
  induction marks generalizing st with
  | nil => simp
  | cons w marks ih =>
    have hsame := sameWindow_markRangeReserved st w.1 w.2
    rw [foldl_cons, ih (hw.of_sameWindow hsame) (by rwa [hsame.totalPages]), hsame.basePa,
      markRangeReserved_free hw hi, forall_mem_cons, and_assoc]
    exact and_left_comm

/-- **The three marking stages**: all pages are reserved, some ranges freed, some reserved again. -/
theorem marking_free (usable : List DtbRange) (marks : List (ℕ × ℕ)) (hw : st.WholePages)
    (hbytes : st.bitmapBytes = (st.totalPages + 7) / 8) {st' : PmmState}
    (hst' : marks.foldl (fun st w ↦ bitmapMarkRangeReserved st w.1 w.2)
      (usable.foldl (fun st r ↦ bitmapMarkRangeFree st r.base r.stop) (bitmapMarkAllReserved st)) = st') :
    SameWindow st st' ∧ ∀ i < st.totalPages, bitTest st'.bitmap i = false ↔
      (∃ r ∈ usable, alignUp4k r.base ≤ st.basePa + i * pageSize ∧ st.basePa + i * pageSize < alignDown4k r.stop) ∧
      ∀ w ∈ marks, ¬(alignDown4k w.1 ≤ st.basePa + i * pageSize ∧ st.basePa + i * pageSize < alignUp4k w.2) := by
  subst hst'
  have hall : SameWindow st (bitmapMarkAllReserved st) := ⟨rfl, rfl, rfl, rfl, rfl, rfl⟩
  have hfreed := sameWindow_foldl (fun st (r : DtbRange) ↦ sameWindow_markRangeFree st r.base r.stop)
    usable (bitmapMarkAllReserved st)
  have hmarked := sameWindow_foldl (fun st (w : ℕ × ℕ) ↦ sameWindow_markRangeReserved st w.1 w.2) marks
    (usable.foldl (fun st r ↦ bitmapMarkRangeFree st r.base r.stop) (bitmapMarkAllReserved st))
  refine ⟨hall.trans (hfreed.trans hmarked), fun i hi ↦ ?_⟩
  rw [foldl_markRangeReserved_free marks ((hw.of_sameWindow hall).of_sameWindow hfreed)
      (by rwa [hfreed.totalPages]), hfreed.basePa,
    foldl_markRangeFree_free usable (hw.of_sameWindow hall) hi,
    or_iff_left (markAllReserved_set hbytes hi), and_comm]
  rfl

end

/-! ### `pmm_init` -/

/-- The ranges that `pmm_init` reserves itself. -/
def pmmMarks (env : PmmInitEnv) (runtimeEndPa metaBasePa metaEndPa : ℕ) : List (ℕ × ℕ) :=
  let kernelBase := env.bootInfo.kernelPhysBase
  let dtbPhys := env.board.hhVirtToPhys env.bootInfo.dtbPtr
  (lowestRamBase env.board env.memory, kernelBase) :: (kernelBase, alignUp4k runtimeEndPa) ::
    ((if env.bootInfo.dtbPtr = 0 ∨ dtbReservedSize env = 0 then []
      else [(alignDown4k dtbPhys, alignUp4k (u64 (dtbPhys + dtbReservedSize env)))]) ++
      [(metaBasePa, metaEndPa)])

theorem pmmReserveImplicit_eq (env : PmmInitEnv) (runtimeEndPa metaBasePa metaEndPa : ℕ)
    (st : PmmState) : pmmReserveImplicit env runtimeEndPa metaBasePa metaEndPa st =
      (pmmMarks env runtimeEndPa metaBasePa metaEndPa).foldl (fun st w ↦ bitmapMarkRangeReserved st w.1 w.2) st := by
  rw [pmmReserveImplicit, pmmMarks, pmmReserveDtb]
  by_cases hdtb : env.bootInfo.dtbPtr = 0 ∨ dtbReservedSize env = 0
  · rw [if_pos hdtb, if_pos hdtb]
    simp
  · rw [if_neg hdtb, if_neg hdtb]
    simp

theorem pmmInit_free {env : PmmInitEnv} {ctr : PmmCounters} {g : Pmm} {usable : List DtbRange}
    (husable : env.usable = some usable) (h : pmmInit env ctr = some g) {i : ℕ}
    (hi : i < g.st.totalPages) :
    let runtimeEndPa := env.board.hhVirtToPhys env.runtimeEnd
    let metaBasePa := alignUp4k runtimeEndPa
    bitTest g.st.bitmap i = false ↔ (∃ r ∈ usable, alignUp4k r.base ≤ g.st.basePa + i * pageSize ∧
        g.st.basePa + i * pageSize < alignDown4k r.stop) ∧
      ∀ w ∈ pmmMarks env runtimeEndPa metaBasePa (u64 (metaBasePa + pmmMetadataPages * pageSize)),
        ¬(alignDown4k w.1 ≤ g.st.basePa + i * pageSize ∧ g.st.basePa + i * pageSize < alignUp4k w.2) := by
  rw [pmmInit, husable] at h
  simp only at h
  split_ifs at h with hwin hempty hmeta hfit
  obtain rfl := Option.some.inj h
  simp only [pmmReserveImplicit_eq] at hi ⊢
  obtain ⟨hsame, hbits⟩ := @marking_free (pmmRawState env (alignUp4k (max (pmmWindow usable).1 env.board.ramBase))
      (alignDown4k (min (pmmWindow usable).2 env.board.windowEnd))
      (alignUp4k (env.board.hhVirtToPhys env.runtimeEnd))) usable
    (pmmMarks env (env.board.hhVirtToPhys env.runtimeEnd) (alignUp4k (env.board.hhVirtToPhys env.runtimeEnd))
      (u64 (alignUp4k (env.board.hhVirtToPhys env.runtimeEnd) + pmmMetadataPages * pageSize)))
    ⟨alignUp4k_mod _, alignDown4k_mod _, Nat.lt_of_not_le hempty, rfl⟩ rfl _ rfl
  rw [hsame.totalPages] at hi
  rw [hsame.basePa]
  exact hbits i hi

/-! ### Allocations -/

namespace PmmSys

/-- **The page is returned** by an allocation of some run. -/
def Returns (g₀ : Pmm) (p : ℕ) : Prop :=
  ∃ s, Relation.ReflTransGen Step ⟨g₀, ∅⟩ s ∧ ∃ count pa, count < 2 ^ 32 ∧
    (pmmAllocPages s.g count).1 = some pa ∧ p ∈ pageSpan pa count

theorem exists_alloc_page {g₀ : Pmm} (hr : g₀.st.Ready) {n i : ℕ} {s : PmmSys}
    (hrun : Relation.ReflTransGen Step ⟨g₀, ∅⟩ s) (hn : s.g.st.freePages ≤ n)
    (hi : i < s.g.st.totalPages) (hclear : bitTest s.g.st.bitmap i = false) :
    ∃ s', Relation.ReflTransGen Step ⟨g₀, ∅⟩ s' ∧ (pmmAllocPages s'.g 1).1 = some (s.g.st.basePa + i * pageSize) := by
  induction n generalizing s with
  | zero =>
    have hcount := (inv_of_run hr hrun).ready.counted
    have hmem := mem_clearBits.2 ⟨hi, hclear⟩
    have hpos := Finset.card_pos.2 ⟨i, hmem⟩
    rw [Counted, clearCount] at hcount
    omega
  | succ n ih =>
    have hinv := inv_of_run hr hrun
    have hfree : s.g.st.FreeRunAt 1 i := ⟨hi, fun j hj ↦ by
      obtain rfl : j = 0 := by omega
      exact hclear⟩
    have hsome : (pmmAllocPages s.g 1).1.isSome := by
      rw [isSome_pmmAllocPages hinv.ready.counted Nat.one_pos]
      exact ⟨i, hfree, fun hstraddle ↦ by have := hstraddle.1; have := hstraddle.2; omega⟩
    obtain ⟨pa, halloc⟩ := Option.isSome_iff_exists.1 hsome
    obtain ⟨-, k, rfl, hk, hst, hfresh⟩ := alloc_fresh hinv halloc
    rcases eq_or_ne k i with rfl | hne
    · exact ⟨s, hrun, halloc⟩
    -- another page was found: the one we look for is still free
    have hstep : Step s (s.step (.alloc 1)) := ⟨.alloc 1, show 1 < 2 ^ 32 by decide, rfl⟩
    have hst' : (s.step (.alloc 1)).g.st = s.g.st.commitRun 1 k := hst
    have hclear' : bitTest (s.step (.alloc 1)).g.st.bitmap i = false := by
      rw [hst']
      show bitTest (setRun s.g.st.bitmap k 1) i = false
      rw [bitTest_setRun, hclear, Bool.or_false, decide_eq_false_iff_not]
      omega
    have hbase : (s.step (.alloc 1)).g.st.basePa = s.g.st.basePa := by rw [hst']; rfl
    rw [← hbase]
    refine ih (hrun.tail hstep) ?_ ?_ hclear'
    · rw [hst']
      show s.g.st.freePages - 1 ≤ n
      omega
    · rw [hst']
      exact hi

/-- **A page is returned by some allocation if and only if it was free after `pmm_init`.** -/
theorem returns_iff {g₀ : Pmm} (hr : g₀.st.Ready) {p : ℕ} : Returns g₀ p ↔
    ∃ i < g₀.st.totalPages, p = g₀.st.basePa + i * pageSize ∧ bitTest g₀.st.bitmap i = false := by
  constructor
  · rintro ⟨s, hrun, count, pa, -, halloc, hmem⟩
    have hinv := inv_of_run hr hrun
    obtain ⟨-, i, rfl, hle, -, hfresh⟩ := alloc_fresh hinv halloc
    obtain ⟨k, hk, rfl⟩ := exists_index_of_mem_pageSpan hmem
    rw [hinv.total_eq] at hle
    exact ⟨i + k, by omega, by rw [hinv.base_eq], (hfresh k hk).2.1⟩
  · rintro ⟨i, hi, rfl, hclear⟩
    obtain ⟨s, hrun, halloc⟩ := exists_alloc_page hr .refl le_rfl hi hclear
    refine ⟨s, hrun, 1, _, by decide, halloc, ?_⟩
    rw [pageSpan, Finset.range_one, Finset.image_singleton, Nat.zero_mul, Nat.add_zero]
    exact Finset.mem_singleton_self _

end PmmSys

end CapazOS
