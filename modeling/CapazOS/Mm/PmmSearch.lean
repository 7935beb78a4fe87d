import CapazOS.Mm.PmmOwnership

/-!
# The search for a run of free pages

`pmm_alloc_pages` searches from the hint to the end of the window and then from its start up to the
hint. A run that **straddles** the hint is inside neither pass, so an allocation fails although a
free run exists exactly when every free run of that length straddles the hint. Such states are
reached.
-/

namespace CapazOS

namespace PmmState

/-- `count` free pages in a row from page `i` on, inside the window. -/
def FreeRunAt (st : PmmState) (count i : ℕ) : Prop :=
  i + count ≤ st.totalPages ∧ ∀ j < count, bitTest st.bitmap (i + j) = false

def searchStart (st : PmmState) : ℕ := if st.totalPages ≤ st.nextHint then 0 else st.nextHint

/-- A run of `count` pages at `i` has pages on both sides of the point where the search starts. -/
def Straddles (st : PmmState) (count i : ℕ) : Prop :=
  i < st.searchStart ∧ st.searchStart < i + count

theorem searchStart_le (st : PmmState) : st.searchStart ≤ st.totalPages := by
  unfold searchStart
  split <;> omega

end PmmState

/-! ### What the search finds -/

theorem isSome_pmmScanPass {bm : Bitmap} {count i0 i1 : ℕ} : (pmmScanPass bm count i0 i1).isSome ↔
      ∃ i, i0 ≤ i ∧ i + count ≤ i1 ∧ ∀ j < count, bitTest bm (i + j) = false := by
  unfold pmmScanPass
  split
  · rename_i hlt
    exact iff_of_false nofun fun ⟨i, _, hle, _⟩ ↦ by omega
  · rename_i hle
    simp only [List.find?_isSome, List.mem_range'_1, runClear_iff]
    constructor
    · rintro ⟨i, hi, hclear⟩
      exact ⟨i, by omega, by omega, hclear⟩
    · rintro ⟨i, h0, h1, hclear⟩
      exact ⟨i, by omega, hclear⟩

/-- **What the two passes find**: a free run that does not straddle the hint. -/
theorem isSome_pmmFindRun (st : PmmState) (count : ℕ) :
    (pmmFindRun st count).isSome ↔ ∃ i, st.FreeRunAt count i ∧ ¬st.Straddles count i := by
  have hstart := st.searchStart_le
  show ((pmmScanPass st.bitmap count st.searchStart st.totalPages).or
    (pmmScanPass st.bitmap count 0 st.searchStart)).isSome ↔ _
  rw [Option.isSome_or, Bool.or_eq_true, isSome_pmmScanPass, isSome_pmmScanPass]
  constructor
  · rintro (⟨i, h0, h1, hclear⟩ | ⟨i, -, h1, hclear⟩)
    · exact ⟨i, ⟨h1, hclear⟩, fun hs ↦ by have := hs.1; omega⟩
    · exact ⟨i, ⟨by omega, hclear⟩, fun hs ↦ by have := hs.2; omega⟩
  · rintro ⟨i, ⟨hle, hclear⟩, hns⟩
    rcases Nat.lt_or_ge i st.searchStart with hlt | hge
    · exact .inr ⟨i, by omega, not_lt.1 fun hs ↦ hns ⟨hlt, hs⟩, hclear⟩
    · exact .inl ⟨i, hge, hle, hclear⟩

theorem PmmState.FreeRunAt.le_freePages {st : PmmState} {count i : ℕ} (h : st.FreeRunAt count i)
    (hc : st.Counted) : count ≤ st.freePages := by
  have hrun := clearCount_setRun h.1 h.2
  have hfree : st.freePages = clearCount st.bitmap st.totalPages := hc
  omega

theorem isSome_pmmAllocPages {g : Pmm} (hc : g.st.Counted) {count : ℕ} (hpos : 0 < count) :
    (pmmAllocPages g count).1.isSome ↔ ∃ i, g.st.FreeRunAt count i ∧ ¬g.st.Straddles count i := by
  rw [← isSome_pmmFindRun]
  simp only [pmmAllocPages, if_neg hpos.ne']
  have hrun : (pmmFindRun g.st count).isSome → ∃ i, g.st.FreeRunAt count i := fun h ↦
    ((isSome_pmmFindRun g.st count).1 h).imp fun _ ↦ And.left
  split_ifs with hfree htotal
  · refine iff_of_false Bool.false_ne_true fun h ↦ ?_
    obtain ⟨i, hi⟩ := hrun h
    have := hi.le_freePages hc
    omega
  · refine iff_of_false Bool.false_ne_true fun h ↦ ?_
    obtain ⟨i, hi⟩ := hrun h
    have := hi.1
    omega
  · cases pmmFindRun g.st count <;> rfl

/-! ### Reachable states -/

/-- A call, whoever makes it: the page of a release need not be held. -/
def PmmOp.exec (g : Pmm) : PmmOp → Pmm
  | .alloc count => (pmmAllocPages g count).2
  | .free pa => pmmFreePage g pa

def pmmRun (g : Pmm) (ops : List PmmOp) : Pmm := ops.foldl PmmOp.exec g

/-- What `pmm_free_page` can do: leave the record alone, or release a marked page that is not
metadata. -/
theorem pmmFreePage_cases {g : Pmm} (hr : g.st.Ready) (pa : ℕ) :
    (pmmFreePage g pa).st = g.st ∨ ∃ i < g.st.totalPages, bitTest g.st.bitmap i = true ∧
      ¬(g.st.metaBasePa ≤ g.st.basePa + i * pageSize ∧
        g.st.basePa + i * pageSize < u64 (g.st.metaBasePa + g.st.metaPages * pageSize)) ∧
      (pmmFreePage g pa).st = g.st.releasePage i := by
  simp only [pmmFreePage]
  split_ifs with hwin hmod htotal hmeta hbit
  · exact .inl rfl
  · exact .inl rfl
  · exact .inl rfl
  · exact .inl rfl
  · have hpa : g.st.basePa + (pa - g.st.basePa) / pageSize * pageSize = pa := by
      have hbase := hr.whole.base_mod
      simp only [pageSize] at hbase hmod ⊢
      omega
    refine .inr ⟨(pa - g.st.basePa) / pageSize, by omega, hbit, ?_, rfl⟩
    rw [hpa]
    exact hmeta
  · exact .inl rfl

theorem ready_exec {g : Pmm} (hr : g.st.Ready) (op : PmmOp) : (op.exec g).st.Ready := by
  cases op with
  | alloc count =>
    show (pmmAllocPages g count).2.st.Ready
    rcases pmmAllocPages_cases g count with ⟨-, hst⟩ | ⟨i, -, -, hle, hclear, -, hst⟩
    · rwa [hst]
    · rw [hst]
      exact PmmSys.ready_commitRun hr hle hclear
  | free pa =>
    show (pmmFreePage g pa).st.Ready
    rcases pmmFreePage_cases hr pa with hst | ⟨i, hi, hset, hmeta, hst⟩
    · rwa [hst]
    · rw [hst]
      exact PmmSys.ready_releasePage hr hi hset hmeta

theorem ready_pmmRun {g : Pmm} (hr : g.st.Ready) (ops : List PmmOp) : (pmmRun g ops).st.Ready := by
  induction ops generalizing g with
  | nil => exact hr
  | cons op ops ih => exact ih (ready_exec hr op)

/-- **When contiguous allocation is complete.** In every state that allocations and releases reach
from `pmm_init`, and for every positive count: the allocation succeeds exactly when there is a run
of free pages of that length **iff** not every such run straddles the hint, or there is none. -/
theorem pmm_alloc_complete_iff {env : PmmInitEnv} {ctr : PmmCounters} {g₀ : Pmm}
    (hinit : pmmInit env ctr = some g₀) (ops : List PmmOp) {count : ℕ} (hpos : 0 < count) :
    ((pmmAllocPages (pmmRun g₀ ops) count).1.isSome ↔ ∃ i, (pmmRun g₀ ops).st.FreeRunAt count i) ↔
      ((∃ i, (pmmRun g₀ ops).st.FreeRunAt count i) →
        ∃ i, (pmmRun g₀ ops).st.FreeRunAt count i ∧ ¬(pmmRun g₀ ops).st.Straddles count i) := by
  have hr := ready_pmmRun (pmmInit_ready hinit) ops
  rw [isSome_pmmAllocPages hr.counted hpos]
  exact ⟨fun h ↦ h.2, fun h ↦ ⟨fun ⟨i, hi, _⟩ ↦ ⟨i, hi⟩, h⟩⟩

/-- Calls on `virtEnv` after which the free pages are the pages 35 and 36 and the hint is 36. -/
def straddlingCalls : List PmmOp :=
  [.alloc 16, .alloc 1, .alloc 1, .alloc 1, .alloc 1, .free 0x40023000, .alloc 2, .free 0x40024000]

theorem straddlingCalls_eval : ((pmmInit virtEnv .initial).map fun g ↦
      ((pmmAllocPages (pmmRun g straddlingCalls) 2).1.isSome, (pmmRun g straddlingCalls).st.totalPages,
        bitTest (pmmRun g straddlingCalls).st.bitmap 35,
        bitTest (pmmRun g straddlingCalls).st.bitmap 36)) =
      some (false, 40, false, false) := by
  decide +kernel

/-- Two free pages in a row, and a request for two pages that fails. -/
theorem pmm_alloc_misses_run : ∃ g₀, pmmInit virtEnv .initial = some g₀ ∧
    ¬((pmmAllocPages (pmmRun g₀ straddlingCalls) 2).1.isSome ↔ ∃ i, (pmmRun g₀ straddlingCalls).st.FreeRunAt 2 i) := by
  obtain ⟨g₀, hinit, heval⟩ := Option.map_eq_some_iff.1 straddlingCalls_eval
  simp only [Prod.mk.injEq] at heval
  obtain ⟨hfail, htotal, h35, h36⟩ := heval
  refine ⟨g₀, hinit, fun hiff ↦ ?_⟩
  have hrun : (pmmRun g₀ straddlingCalls).st.FreeRunAt 2 35 := by
    refine ⟨by omega, fun j hj ↦ ?_⟩
    interval_cases j
    exacts [h35, h36]
  rw [hiff.2 ⟨35, hrun⟩] at hfail
  cases hfail

theorem pmm_alloc_complete_virtEnv : ∃ g₀, pmmInit virtEnv .initial = some g₀ ∧
    ((pmmAllocPages (pmmRun g₀ straddlingCalls) 1).1.isSome ↔ ∃ i, (pmmRun g₀ straddlingCalls).st.FreeRunAt 1 i) := by
  obtain ⟨g₀, hinit, heval⟩ := Option.map_eq_some_iff.1 straddlingCalls_eval
  simp only [Prod.mk.injEq] at heval
  obtain ⟨-, htotal, h35, -⟩ := heval
  refine ⟨g₀, hinit, (pmm_alloc_complete_iff hinit straddlingCalls one_pos).2 fun _ ↦ ⟨35, ?_, ?_⟩⟩
  · exact ⟨by omega, fun j hj ↦ by rwa [Nat.lt_one_iff.1 hj]⟩
  · rintro ⟨hlt, hgt⟩
    omega

end CapazOS
