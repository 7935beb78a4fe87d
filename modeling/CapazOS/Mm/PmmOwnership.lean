import CapazOS.Mm.Pmm
import Mathlib.Logic.Relation
import Mathlib.Data.Finset.Image

/-!
# Ownership of physical pages

The allocator together with the set of pages its callers hold. In `PmmSys.Inv` the counter is the
number of clear bits below `total_pages`, the hint is at most `total_pages`, and a bit is clear
**exactly** when it was clear after `pmm_init` and its page is not held. So a page found by the
search is held by nobody and was not reserved, and the release of a held page is never refused.
-/

namespace CapazOS

open List

variable {st : PmmState} {i x count base pa : ℕ} {g g₀ : Pmm}

/-! ### Marking keeps the window and the count -/

namespace PmmState

/-- Two states of one managed window: everything but the bitmap and the counter agrees. -/
structure SameWindow (a b : PmmState) : Prop where
  basePa : b.basePa = a.basePa
  limitPa : b.limitPa = a.limitPa
  totalPages : b.totalPages = a.totalPages
  nextHint : b.nextHint = a.nextHint
  metaBasePa : b.metaBasePa = a.metaBasePa
  metaPages : b.metaPages = a.metaPages

theorem SameWindow.refl (a : PmmState) : SameWindow a a := ⟨rfl, rfl, rfl, rfl, rfl, rfl⟩

theorem SameWindow.trans {a b c : PmmState} (h : SameWindow a b) (h' : SameWindow b c) : SameWindow a c :=
  ⟨h'.basePa.trans h.basePa, h'.limitPa.trans h.limitPa, h'.totalPages.trans h.totalPages,
    h'.nextHint.trans h.nextHint, h'.metaBasePa.trans h.metaBasePa,
    h'.metaPages.trans h.metaPages⟩

/-- The counter is the number of clear bits below `total_pages`. -/
def Counted (st : PmmState) : Prop := st.freePages = clearCount st.bitmap st.totalPages

/-- The window is made of whole pages. -/
structure WholePages (st : PmmState) : Prop where
  base_mod : st.basePa % pageSize = 0
  limit_mod : st.limitPa % pageSize = 0
  base_lt : st.basePa < st.limitPa
  total_eq : st.totalPages = (st.limitPa - st.basePa) / pageSize

theorem WholePages.of_sameWindow {a b : PmmState} (hw : WholePages a) (h : SameWindow a b) : WholePages b where
  base_mod := by rw [h.basePa]; exact hw.base_mod
  limit_mod := by rw [h.limitPa]; exact hw.limit_mod
  base_lt := by rw [h.basePa, h.limitPa]; exact hw.base_lt
  total_eq := by rw [h.totalPages, h.basePa, h.limitPa]; exact hw.total_eq

theorem sameWindow_markFree (st : PmmState) (i : ℕ) : SameWindow st (st.markFree i) := by
  unfold markFree
  split
  · exact ⟨rfl, rfl, rfl, rfl, rfl, rfl⟩
  · exact SameWindow.refl st

theorem sameWindow_markReserved (st : PmmState) (i : ℕ) : SameWindow st (st.markReserved i) := by
  unfold markReserved
  split
  · exact SameWindow.refl st
  · exact ⟨rfl, rfl, rfl, rfl, rfl, rfl⟩

theorem counted_markFree (h : st.Counted) (hi : i < st.totalPages) : (st.markFree i).Counted := by
  unfold markFree
  split
  · next hset =>
    show st.freePages + 1 = clearCount (bitClear st.bitmap i) st.totalPages
    rw [clearCount_bitClear hi hset, h]
  · exact h

theorem counted_markReserved (h : st.Counted) (hi : i < st.totalPages) : (st.markReserved i).Counted := by
  unfold markReserved
  split
  · exact h
  · next hclear =>
    have hcount := clearCount_bitSet hi (Bool.eq_false_iff.2 hclear)
    have hfree : st.freePages = clearCount st.bitmap st.totalPages := h
    show st.freePages - 1 = clearCount (bitSet st.bitmap i) st.totalPages
    omega

theorem bitTest_markReserved (st : PmmState) (i j : ℕ) :
    bitTest (st.markReserved i).bitmap j = (decide (j = i) || bitTest st.bitmap j) := by
  unfold markReserved
  split
  · next hset =>
    by_cases h : j = i
    · simp [h, hset]
    · simp [h]
  · exact bitTest_bitSet st.bitmap i j

theorem lt_of_mem_clampIndices (hw : st.WholePages) {s e : ℕ} (hi : i ∈ st.clampIndices s e) : i < st.totalPages := by
  rw [hw.total_eq]
  simp only [clampIndices, pageSize] at hi ⊢
  split_ifs at hi
  · simp at hi
  · simp at hi
  · rw [mem_range'_1] at hi
    omega

theorem mem_clampIndices (hw : st.WholePages) {s e : ℕ} (he : e % pageSize = 0) (hi : i < st.totalPages)
    (hs : s ≤ st.basePa + i * pageSize) (hlt : st.basePa + i * pageSize < e) : i ∈ st.clampIndices s e := by
  have hbase := hw.base_mod
  rw [hw.total_eq] at hi
  simp only [clampIndices, pageSize] at *
  rw [if_neg (by omega), if_neg (by omega), mem_range'_1]
  constructor <;> omega

end PmmState

open PmmState

/-- What a marking pass does whatever it marks: the window stays, and so does the agreement of
counter and bitmap. -/
theorem markRangeFree_spec (hw : st.WholePages) (hc : st.Counted) (s e : ℕ) :
    SameWindow st (bitmapMarkRangeFree st s e) ∧ (bitmapMarkRangeFree st s e).Counted := by
  refine List.foldlRecOn _ _ (motive := fun st' ↦ SameWindow st st' ∧ st'.Counted) ⟨SameWindow.refl st, hc⟩ ?_
  rintro st' ⟨hsame, hcount⟩ i hi
  refine ⟨hsame.trans (sameWindow_markFree st' i), counted_markFree hcount ?_⟩
  rw [hsame.totalPages]
  exact lt_of_mem_clampIndices hw hi

theorem markRangeReserved_spec (hw : st.WholePages) (hc : st.Counted) (s e : ℕ) :
    SameWindow st (bitmapMarkRangeReserved st s e) ∧ (bitmapMarkRangeReserved st s e).Counted := by
  refine List.foldlRecOn _ _ (motive := fun st' ↦ SameWindow st st' ∧ st'.Counted) ⟨SameWindow.refl st, hc⟩ ?_
  rintro st' ⟨hsame, hcount⟩ i hi
  refine ⟨hsame.trans (sameWindow_markReserved st' i), counted_markReserved hcount ?_⟩
  rw [hsame.totalPages]
  exact lt_of_mem_clampIndices hw hi

theorem bitTest_foldl_markReserved (l : List ℕ) (st : PmmState) (j : ℕ) :
    bitTest (l.foldl markReserved st).bitmap j = (decide (j ∈ l) || bitTest st.bitmap j) := by
  induction l generalizing st with
  | nil => simp
  | cons i l ih =>
    rw [foldl_cons, ih, bitTest_markReserved, ← Bool.or_assoc, ← Bool.decide_or]
    congr 1
    exact decide_eq_decide.2 (by rw [mem_cons]; exact Or.comm)

/-! ### What `pmm_init` establishes -/

/-- A state fit to serve allocations: whole pages, a correct counter, a hint in range, and the
metadata pages reserved. -/
structure PmmState.Ready (st : PmmState) : Prop where
  whole : st.WholePages
  limit_lt : st.limitPa < 2 ^ 64
  counted : st.Counted
  hint_le : st.nextHint ≤ st.totalPages
  meta_reserved : ∀ i < st.totalPages, st.metaBasePa ≤ st.basePa + i * pageSize →
    st.basePa + i * pageSize < u64 (st.metaBasePa + st.metaPages * pageSize) →
    bitTest st.bitmap i = true

theorem clearBits_eq_empty_of_ones (bm : Bitmap) {n : ℕ}
    (h : ∀ i < (n + 7) / 8, bm i = 0xFF#8) : clearBits bm n = ∅ := by
  ext i
  rw [mem_clearBits]
  refine iff_of_false ?_ (by simp)
  rintro ⟨hi, hclear⟩
  rw [bitTest_eq_getLsbD, h (i / 8) (by omega)] at hclear
  have hk : i % 8 < 8 := Nat.mod_lt _ (by omega)
  generalize i % 8 = k at hk hclear
  interval_cases k <;> simp at hclear

theorem counted_markAllReserved (h : st.bitmapBytes = (st.totalPages + 7) / 8) :
    (bitmapMarkAllReserved st).Counted := by
  show 0 = clearCount (bitmapMarkAllReserved st).bitmap st.totalPages
  rw [clearCount, clearBits_eq_empty_of_ones _ fun i hi ↦ ?_, Finset.card_empty]
  show (if i < st.bitmapBytes then 0xFF#8 else st.bitmap i) = 0xFF#8
  rw [if_pos (by omega)]

/-- The implicit reservations keep window and counter, and the last of them reserves the metadata
pages. -/
theorem reserveImplicit_spec (env : PmmInitEnv) (runtimeEndPa metaBasePa metaEndPa : ℕ) (hw : st.WholePages)
    (hc : st.Counted) : let st' := pmmReserveImplicit env runtimeEndPa metaBasePa metaEndPa st
    SameWindow st st' ∧ st'.Counted ∧ ∀ i < st.totalPages, alignDown4k metaBasePa ≤ st.basePa + i * pageSize →
        st.basePa + i * pageSize < alignUp4k metaEndPa → bitTest st'.bitmap i = true := by
  have hpass : ∀ {a : PmmState}, SameWindow st a → a.Counted → ∀ s e,
      SameWindow st (bitmapMarkRangeReserved a s e) ∧ (bitmapMarkRangeReserved a s e).Counted := by
    intro a hsame hcount s e
    obtain ⟨hs, hcnt⟩ := markRangeReserved_spec (hw.of_sameWindow hsame) hcount s e
    exact ⟨hsame.trans hs, hcnt⟩
  obtain ⟨h₁, c₁⟩ := hpass (SameWindow.refl st) hc (lowestRamBase env.board env.memory) env.bootInfo.kernelPhysBase
  obtain ⟨h₂, c₂⟩ := hpass h₁ c₁ env.bootInfo.kernelPhysBase (alignUp4k runtimeEndPa)
  obtain ⟨h₃, c₃⟩ : SameWindow st (pmmReserveDtb env (bitmapMarkRangeReserved
      (bitmapMarkRangeReserved st (lowestRamBase env.board env.memory)
        env.bootInfo.kernelPhysBase) env.bootInfo.kernelPhysBase (alignUp4k runtimeEndPa))) ∧
      (pmmReserveDtb env _).Counted := by
    unfold pmmReserveDtb
    split
    · exact ⟨h₂, c₂⟩
    · exact hpass h₂ c₂ _ _
  obtain ⟨h₄, c₄⟩ := hpass h₃ c₃ metaBasePa metaEndPa
  refine ⟨h₄, c₄, fun i hi hlo hhi ↦ ?_⟩
  simp only [pmmReserveImplicit]
  rw [bitmapMarkRangeReserved, bitTest_foldl_markReserved, Bool.or_eq_true]
  refine .inl (decide_eq_true (mem_clampIndices (hw.of_sameWindow h₃) (alignUp4k_mod _) ?_ ?_ ?_))
  · rw [h₃.totalPages]; exact hi
  · rw [h₃.basePa]; exact hlo
  · rw [h₃.basePa]; exact hhi

/-- A page-aligned 64-bit address is its own rounding, upwards too: there is room for the
remainder below `2 ^ 64`. -/
theorem alignUp4k_of_mod (hx : x < 2 ^ 64) (hmod : x % pageSize = 0) : alignUp4k x = x := by
  simp only [alignUp4k, alignDown4k, u64, pageSize] at *
  omega

theorem alignDown4k_of_mod (hmod : x % pageSize = 0) : alignDown4k x = x := by
  rw [alignDown4k, hmod, Nat.sub_zero]

theorem ready_of_marking (env : PmmInitEnv) (usable : List DtbRange) (runtimeEndPa metaBasePa : ℕ)
    {basePa limitPa : ℕ} (hbase : basePa % pageSize = 0)
    (hlimit : limitPa % pageSize = 0) (hlt : basePa < limitPa) (hlimit64 : limitPa < 2 ^ 64)
    (hmeta : metaBasePa % pageSize = 0) :
    let st := pmmReserveImplicit env runtimeEndPa metaBasePa (u64 (metaBasePa + pmmMetadataPages * pageSize))
      (usable.foldl (fun st r ↦ bitmapMarkRangeFree st r.base r.stop)
        (bitmapMarkAllReserved (pmmRawState env basePa limitPa metaBasePa)))
    SameWindow (pmmRawState env basePa limitPa metaBasePa) st ∧ st.Ready := by
  intro st
  set raw := pmmRawState env basePa limitPa metaBasePa
  have hwhole : (bitmapMarkAllReserved raw).WholePages := ⟨hbase, hlimit, hlt, rfl⟩
  -- the usable ranges are freed one by one
  have hfold : SameWindow (bitmapMarkAllReserved raw)
      (usable.foldl (fun st r ↦ bitmapMarkRangeFree st r.base r.stop) (bitmapMarkAllReserved raw)) ∧
      (usable.foldl (fun st r ↦ bitmapMarkRangeFree st r.base r.stop) (bitmapMarkAllReserved raw)).Counted := by
    refine List.foldlRecOn _ _ (motive := fun st ↦ SameWindow (bitmapMarkAllReserved raw) st ∧ st.Counted)
      ⟨SameWindow.refl _, counted_markAllReserved rfl⟩ ?_
    rintro st ⟨hsame, hcount⟩ r -
    obtain ⟨hs, hc⟩ := markRangeFree_spec (hwhole.of_sameWindow hsame) hcount r.base r.stop
    exact ⟨hsame.trans hs, hc⟩
  obtain ⟨hsame₁, hcount₁⟩ := hfold
  obtain ⟨hsame₂, hcount₂, hmetaBits⟩ := reserveImplicit_spec env runtimeEndPa metaBasePa
    (u64 (metaBasePa + pmmMetadataPages * pageSize)) (hwhole.of_sameWindow hsame₁) hcount₁
  have hsame := hsame₁.trans hsame₂
  have hraw : SameWindow raw (bitmapMarkAllReserved raw) := ⟨rfl, rfl, rfl, rfl, rfl, rfl⟩
  refine ⟨hraw.trans hsame, hwhole.of_sameWindow hsame, ?_, hcount₂, ?_, ?_⟩
  · rw [hsame.limitPa]
    exact hlimit64
  · rw [hsame.nextHint]
    exact Nat.zero_le _
  · intro i hi hlo hhi
    rw [hsame.totalPages, ← hsame₁.totalPages] at hi
    rw [hsame.metaBasePa, hsame.basePa, ← hsame₁.basePa] at hlo
    rw [hsame.metaBasePa, hsame.basePa, hsame.metaPages, ← hsame₁.basePa] at hhi
    have hendMod : u64 (metaBasePa + pmmMetadataPages * pageSize) % pageSize = 0 := by
      simp only [u64, pmmMetadataPages, pageSize] at hmeta ⊢
      omega
    refine hmetaBits i hi ?_ ?_
    · rw [alignDown4k_of_mod hmeta]
      exact hlo
    · rw [alignUp4k_of_mod (u64_lt _) hendMod]
      exact hhi

/-- **Initialization.** Whatever ranges, boot record and old metadata bytes it is given, a
`pmm_init` that does not panic leaves a state ready to serve, over the clamped window. -/
theorem pmmInit_spec {env : PmmInitEnv} {ctr : PmmCounters} (h : pmmInit env ctr = some g) :
    g.st.Ready ∧ ∃ usable, env.usable = some usable ∧
      g.st.basePa = alignUp4k (max (pmmWindow usable).1 env.board.ramBase) ∧
      g.st.limitPa = alignDown4k (min (pmmWindow usable).2 env.board.windowEnd) := by
  rcases hu : env.usable with - | usable
  · rw [pmmInit, hu] at h
    cases h
  rw [pmmInit, hu] at h
  simp only at h
  split_ifs at h with hwin hempty hmeta hfit
  obtain rfl := Option.some.inj h
  have hle : alignDown4k (min (pmmWindow usable).2 env.board.windowEnd) ≤ env.board.windowEnd :=
    le_trans (alignDown4k_le _) (min_le_right _ _)
  have hmarked := ready_of_marking env usable (env.board.hhVirtToPhys env.runtimeEnd)
    (alignUp4k (env.board.hhVirtToPhys env.runtimeEnd)) (alignUp4k_mod _) (alignDown4k_mod _)
    (Nat.lt_of_not_le hempty) (lt_of_le_of_lt hle (u64_lt _)) (alignUp4k_mod _)
  dsimp only at hmarked ⊢
  exact ⟨hmarked.2, usable, rfl, hmarked.1.basePa, hmarked.1.limitPa⟩

theorem pmmInit_ready {env : PmmInitEnv} {ctr : PmmCounters} (h : pmmInit env ctr = some g) : g.st.Ready :=
  (pmmInit_spec h).1

theorem pmmWindow_fst (usable : List DtbRange) :
    (pmmWindow usable).1 % pageSize = 0 ∧ (pmmWindow usable).1 < 2 ^ 64 := by
  refine List.foldlRecOn (motive := fun w : ℕ × ℕ ↦ w.1 % pageSize = 0 ∧ w.1 < 2 ^ 64) _ _
    ⟨rfl, by norm_num⟩ fun w hw r _ ↦ ?_
  dsimp only
  split
  · exact hw
  · dsimp only
    split
    · exact ⟨alignUp4k_mod _, alignUp4k_lt _⟩
    · exact hw

theorem le_alignUp4k (hx : x + pageSize ≤ 2 ^ 64) : x ≤ alignUp4k x := by
  simp only [alignUp4k, alignDown4k, u64, pageSize] at *
  omega

/-! ### What one call does -/

theorem pmmScanPass_spec {bm : Bitmap} {i0 i1 : ℕ} (h : pmmScanPass bm count i0 i1 = some i) :
    i + count ≤ i1 ∧ ∀ j < count, bitTest bm (i + j) = false := by
  unfold pmmScanPass at h
  split at h
  · cases h
  · have hrun : runClear bm count i = true := find?_some h
    have hmem := mem_of_find?_eq_some h
    rw [mem_range'_1] at hmem
    exact ⟨by omega, runClear_iff.1 hrun⟩

/-- **The search is sound**: a run it finds lies in the window and is clear throughout. -/
theorem pmmFindRun_spec (h : pmmFindRun st count = some i) :
    i + count ≤ st.totalPages ∧ ∀ j < count, bitTest st.bitmap (i + j) = false := by
  simp only [pmmFindRun, Option.or_eq_some_iff] at h
  rcases h with h | ⟨-, h⟩
  · exact pmmScanPass_spec h
  · obtain ⟨hle, hclear⟩ := pmmScanPass_spec h
    refine ⟨le_trans hle ?_, hclear⟩
    split <;> omega

/-- What `pmm_alloc_pages` can do: fail and leave the record alone, or commit a run of clear bits
inside the window. -/
theorem pmmAllocPages_cases (g : Pmm) (count : ℕ) :
    (pmmAllocPages g count).1 = none ∧ (pmmAllocPages g count).2.st = g.st ∨
      ∃ i, 0 < count ∧ count ≤ g.st.freePages ∧ i + count ≤ g.st.totalPages ∧
        (∀ j < count, bitTest g.st.bitmap (i + j) = false) ∧
        (pmmAllocPages g count).1 = some (g.st.basePa + i * pageSize) ∧
        (pmmAllocPages g count).2.st = g.st.commitRun count i := by
  simp only [pmmAllocPages]
  split_ifs with hzero hfree htotal
  · exact .inl ⟨rfl, rfl⟩
  · exact .inl ⟨rfl, rfl⟩
  · exact .inl ⟨rfl, rfl⟩
  · rcases hfind : pmmFindRun g.st count with - | i
    · exact .inl ⟨rfl, rfl⟩
    · obtain ⟨hle, hclear⟩ := pmmFindRun_spec hfind
      exact .inr ⟨i, by omega, by omega, hle, hclear, rfl, rfl⟩

theorem pmmFreePage_st (hr : g.st.Ready) (hi : i < g.st.totalPages) (hset : bitTest g.st.bitmap i = true)
    (hmeta : ¬(g.st.metaBasePa ≤ g.st.basePa + i * pageSize ∧
      g.st.basePa + i * pageSize < u64 (g.st.metaBasePa + g.st.metaPages * pageSize))) :
    (pmmFreePage g (g.st.basePa + i * pageSize)).st = g.st.releasePage i := by
  have hidx : (g.st.basePa + i * pageSize - g.st.basePa) / pageSize = i := by
    simp only [pageSize]
    omega
  have hin : g.st.basePa + i * pageSize < g.st.limitPa := by
    have htotal := hr.whole.total_eq
    simp only [pageSize] at htotal ⊢
    omega
  have hmod : (g.st.basePa + i * pageSize) % pageSize = 0 := by
    have hbase := hr.whole.base_mod
    simp only [pageSize] at hbase ⊢
    omega
  simp only [pmmFreePage]
  rw [if_neg (by omega), if_neg (by simp [hmod]), hidx, if_neg (by omega), if_neg hmeta, if_pos hset]

/-! ### The allocator and its callers -/

/-- The allocator together with the pages its callers hold. -/
structure PmmSys where
  g : Pmm
  owned : Finset ℕ

variable {s : PmmSys}

inductive PmmOp where
  | alloc (count : ℕ)
  | free (pa : ℕ)

def pageSpan (pa count : ℕ) : Finset ℕ := (Finset.range count).image fun k ↦ pa + k * pageSize

namespace PmmSys

/-- One call: a successful allocation adds its pages to those held, a release removes its page. -/
def step (s : PmmSys) : PmmOp → PmmSys
  | .alloc count =>
    { g := (pmmAllocPages s.g count).2
      owned := match (pmmAllocPages s.g count).1 with
        | none => s.owned
        | some pa => s.owned ∪ pageSpan pa count }
  | .free pa => { g := pmmFreePage s.g pa, owned := s.owned.erase pa }

/-- Callers pass a `uint32_t` count and release only pages they hold. -/
def Allowed (s : PmmSys) : PmmOp → Prop
  | .alloc count => count < 2 ^ 32
  | .free pa => pa ∈ s.owned

def Step (s s' : PmmSys) : Prop := ∃ op, s.Allowed op ∧ s' = s.step op

/-- **The invariant**, relative to the state `pmm_init` left: the record is ready, it is the same
window, and a bit is clear exactly when it was clear at the start and its page is not held. -/
structure Inv (g₀ : Pmm) (s : PmmSys) : Prop where
  ready : s.g.st.Ready
  base_eq : s.g.st.basePa = g₀.st.basePa
  total_eq : s.g.st.totalPages = g₀.st.totalPages
  meta_eq : s.g.st.metaBasePa = g₀.st.metaBasePa ∧ s.g.st.metaPages = g₀.st.metaPages
  clear_iff : ∀ i < s.g.st.totalPages, bitTest s.g.st.bitmap i = false ↔
    bitTest g₀.st.bitmap i = false ∧ s.g.st.basePa + i * pageSize ∉ s.owned
  owned_page : ∀ pa ∈ s.owned, ∃ i < s.g.st.totalPages, pa = s.g.st.basePa + i * pageSize ∧
    bitTest g₀.st.bitmap i = false

theorem page_inj {j : ℕ} (h : base + i * pageSize = base + j * pageSize) : i = j := by
  simp only [pageSize] at h
  omega

theorem inv_init (hr : g₀.st.Ready) : Inv g₀ ⟨g₀, ∅⟩ where
  ready := hr
  base_eq := rfl
  total_eq := rfl
  meta_eq := ⟨rfl, rfl⟩
  clear_iff := by simp
  owned_page := by simp

theorem mem_pageSpan_index {j : ℕ} :
    base + j * pageSize ∈ pageSpan (base + i * pageSize) count ↔ i ≤ j ∧ j < i + count := by
  simp only [pageSpan, Finset.mem_image, Finset.mem_range, pageSize]
  constructor
  · rintro ⟨k, hk, heq⟩
    omega
  · rintro ⟨hle, hlt⟩
    exact ⟨j - i, by omega, by omega⟩

theorem exists_index_of_mem_pageSpan (h : pa ∈ pageSpan (base + i * pageSize) count) :
    ∃ k < count, pa = base + (i + k) * pageSize := by
  simp only [pageSpan, Finset.mem_image, Finset.mem_range] at h
  obtain ⟨k, hk, rfl⟩ := h
  exact ⟨k, hk, by simp only [pageSize]; omega⟩

theorem ready_commitRun (hr : st.Ready) (hle : i + count ≤ st.totalPages)
    (hclear : ∀ j < count, bitTest st.bitmap (i + j) = false) : (st.commitRun count i).Ready where
  whole := ⟨hr.whole.1, hr.whole.2, hr.whole.3, hr.whole.4⟩
  limit_lt := hr.limit_lt
  counted := by
    have hcount := clearCount_setRun hle hclear
    have hfree : st.freePages = clearCount st.bitmap st.totalPages := hr.counted
    show st.freePages - count = clearCount (setRun st.bitmap i count) st.totalPages
    omega
  hint_le := hle
  meta_reserved := fun j hj hlo hhi ↦ by
    show bitTest (setRun st.bitmap i count) j = true
    rw [bitTest_setRun, hr.meta_reserved j hj hlo hhi, Bool.or_true]

theorem ready_releasePage (hr : st.Ready) (hi : i < st.totalPages) (hset : bitTest st.bitmap i = true)
    (hmeta : ¬(st.metaBasePa ≤ st.basePa + i * pageSize ∧
      st.basePa + i * pageSize < u64 (st.metaBasePa + st.metaPages * pageSize))) :
    (st.releasePage i).Ready where
  whole := ⟨hr.whole.1, hr.whole.2, hr.whole.3, hr.whole.4⟩
  limit_lt := hr.limit_lt
  counted := by
    show st.freePages + 1 = clearCount (bitClear st.bitmap i) st.totalPages
    rw [clearCount_bitClear hi hset, hr.counted]
  hint_le := by
    show (if i < st.nextHint then i else st.nextHint) ≤ st.totalPages
    split <;> omega
  meta_reserved := fun j hj hlo hhi ↦ by
    show bitTest (bitClear st.bitmap i) j = true
    have hne : j ≠ i := by
      rintro rfl
      exact hmeta ⟨hlo, hhi⟩
    rw [bitTest_bitClear_of_ne _ hne]
    exact hr.meta_reserved j hj hlo hhi

theorem inv_alloc (h : Inv g₀ s) (count : ℕ) : Inv g₀ (s.step (.alloc count)) := by
  rcases pmmAllocPages_cases s.g count with ⟨hnone, hst⟩ | ⟨i, -, -, hle, hclear, hsome, hst⟩
  · have hstep : s.step (.alloc count) = ⟨(pmmAllocPages s.g count).2, s.owned⟩ := by simp only [step, hnone]
    rw [hstep]
    refine ⟨?_, ?_, ?_, ?_, ?_, ?_⟩ <;> simp only [hst]
    · exact h.ready
    · exact h.base_eq
    · exact h.total_eq
    · exact h.meta_eq
    · exact h.clear_iff
    · exact h.owned_page
  · have hstep : s.step (.alloc count) = ⟨(pmmAllocPages s.g count).2,
        s.owned ∪ pageSpan (s.g.st.basePa + i * pageSize) count⟩ := by
      simp only [step, hsome]
    rw [hstep]
    refine ⟨?_, ?_, ?_, ?_, ?_, ?_⟩ <;> simp only [hst]
    · exact ready_commitRun h.ready hle hclear
    · exact h.base_eq
    · exact h.total_eq
    · exact h.meta_eq
    · intro j hj
      show bitTest (setRun s.g.st.bitmap i count) j = false ↔ _ ∧ s.g.st.basePa + j * pageSize ∉ _
      rw [bitTest_setRun, Finset.mem_union, mem_pageSpan_index, Bool.or_eq_false_iff,
        decide_eq_false_iff_not, h.clear_iff j hj]
      tauto
    · intro pa hpa
      rcases Finset.mem_union.1 hpa with hpa | hpa
      · exact h.owned_page pa hpa
      · obtain ⟨k, hk, rfl⟩ := exists_index_of_mem_pageSpan hpa
        have hlt : i + k < s.g.st.totalPages := by omega
        exact ⟨i + k, hlt, rfl, ((h.clear_iff _ hlt).1 (hclear k hk)).1⟩

section

variable (hr₀ : g₀.st.Ready) (h : Inv g₀ s)
include hr₀ h

/-- The release of a held page is never refused: its bit is set because it is held, and it is not
metadata because metadata was reserved at the start. -/
theorem free_owned (hpa : pa ∈ s.owned) : ∃ i < s.g.st.totalPages, pa = s.g.st.basePa + i * pageSize ∧
      bitTest g₀.st.bitmap i = false ∧ (pmmFreePage s.g pa).st = s.g.st.releasePage i ∧
      (s.g.st.releasePage i).Ready := by
  obtain ⟨i, hi, rfl, hclear₀⟩ := h.owned_page pa hpa
  have hset : bitTest s.g.st.bitmap i = true := by
    by_contra hclear
    exact ((h.clear_iff i hi).1 (Bool.eq_false_iff.2 hclear)).2 hpa
  have hmeta : ¬(s.g.st.metaBasePa ≤ s.g.st.basePa + i * pageSize ∧ s.g.st.basePa + i * pageSize <
      u64 (s.g.st.metaBasePa + s.g.st.metaPages * pageSize)) := by
    rintro ⟨hlo, hhi⟩
    rw [h.meta_eq.1, h.base_eq] at hlo
    rw [h.meta_eq.1, h.meta_eq.2, h.base_eq] at hhi
    have hreserved := hr₀.meta_reserved i (h.total_eq ▸ hi) hlo hhi
    rw [hclear₀] at hreserved
    cases hreserved
  exact ⟨i, hi, rfl, hclear₀, pmmFreePage_st h.ready hi hset hmeta, ready_releasePage h.ready hi hset hmeta⟩

theorem inv_free (hpa : pa ∈ s.owned) : Inv g₀ (s.step (.free pa)) := by
  obtain ⟨i, hi, rfl, hclear₀, hst, hready⟩ := free_owned hr₀ h hpa
  refine ⟨?_, ?_, ?_, ?_, ?_, ?_⟩ <;> simp only [step, hst]
  · exact hready
  · exact h.base_eq
  · exact h.total_eq
  · exact h.meta_eq
  · intro j hj
    show bitTest (bitClear s.g.st.bitmap i) j = false ↔ bitTest g₀.st.bitmap j = false ∧
      s.g.st.basePa + j * pageSize ∉ s.owned.erase (s.g.st.basePa + i * pageSize)
    rcases eq_or_ne j i with rfl | hji
    · exact iff_of_true (bitTest_bitClear_self _ _) ⟨hclear₀, Finset.notMem_erase _ _⟩
    · have hmem : s.g.st.basePa + j * pageSize ∈ s.owned.erase (s.g.st.basePa + i * pageSize) ↔
          s.g.st.basePa + j * pageSize ∈ s.owned := by
        rw [Finset.mem_erase, and_iff_right fun heq ↦ hji (page_inj heq)]
      rw [bitTest_bitClear_of_ne _ hji, h.clear_iff j hj, hmem]
  · intro pa' hpa'
    exact h.owned_page pa' (Finset.mem_of_mem_erase hpa')

theorem inv_step {op : PmmOp} (hop : s.Allowed op) : Inv g₀ (s.step op) := by
  cases op with
  | alloc count => exact inv_alloc h count
  | free pa => exact inv_free hr₀ h hop

end

theorem inv_of_run (hr₀ : g₀.st.Ready) (hrun : Relation.ReflTransGen Step ⟨g₀, ∅⟩ s) : Inv g₀ s := by
  induction hrun with
  | refl => exact inv_init hr₀
  | tail _ hstep ih =>
    obtain ⟨op, hop, rfl⟩ := hstep
    exact inv_step hr₀ ih hop

theorem alloc_fresh (h : Inv g₀ s) (halloc : (pmmAllocPages s.g count).1 = some pa) :
    0 < count ∧ ∃ i, pa = s.g.st.basePa + i * pageSize ∧ i + count ≤ s.g.st.totalPages ∧
      (pmmAllocPages s.g count).2.st = s.g.st.commitRun count i ∧
      ∀ k < count, bitTest s.g.st.bitmap (i + k) = false ∧
        bitTest g₀.st.bitmap (i + k) = false ∧ pa + k * pageSize ∉ s.owned := by
  rcases pmmAllocPages_cases s.g count with ⟨hnone, -⟩ | ⟨i, hpos, -, hle, hclear, hsome, hst⟩
  · rw [hnone] at halloc
    cases halloc
  · rw [hsome] at halloc
    obtain rfl := Option.some.inj halloc
    refine ⟨hpos, i, rfl, hle, hst, fun k hk ↦ ⟨hclear k hk, ?_⟩⟩
    obtain ⟨hclear₀, hown⟩ := (h.clear_iff (i + k) (by omega)).1 (hclear k hk)
    refine ⟨hclear₀, ?_⟩
    have haddr : s.g.st.basePa + i * pageSize + k * pageSize = s.g.st.basePa + (i + k) * pageSize := by
      rw [Nat.add_mul, Nat.add_assoc]
    rw [haddr]
    exact hown

theorem page_in_window (hw : st.WholePages) (hi : i < st.totalPages) : (st.basePa + i * pageSize) % pageSize = 0 ∧
      st.basePa ≤ st.basePa + i * pageSize ∧ st.basePa + i * pageSize + pageSize ≤ st.limitPa := by
  have hbase := hw.base_mod
  rw [hw.total_eq] at hi
  simp only [pageSize] at *
  omega

end PmmSys

/-- **Ownership safety of the page allocator.** From any state `pmm_init` leaves, along any
sequence of allocations and of releases of pages currently held: the counter is the number of clear
bits and the hint is in range; a successful allocation returns aligned, contiguous pages of the
window that nobody holds and that were free after `pmm_init`, and changes no other page's bit; a
failed one changes neither bitmap nor counter. A release clears the bit of its page and no other. -/
theorem pmm_ownership_safe {env : PmmInitEnv} {ctr : PmmCounters} {g₀ : Pmm}
    (hinit : pmmInit env ctr = some g₀) {s : PmmSys}
    (hrun : Relation.ReflTransGen PmmSys.Step ⟨g₀, ∅⟩ s) :
    s.g.st.freePages = clearCount s.g.st.bitmap s.g.st.totalPages ∧
    s.g.st.nextHint ≤ s.g.st.totalPages ∧
    (∀ count pa, (pmmAllocPages s.g count).1 = some pa →
      (∀ k < count, (pa + k * pageSize) % pageSize = 0 ∧ s.g.st.basePa ≤ pa + k * pageSize ∧
        pa + k * pageSize + pageSize ≤ s.g.st.limitPa ∧ pa + k * pageSize ∉ s.owned ∧
        bitTest g₀.st.bitmap ((pa + k * pageSize - s.g.st.basePa) / pageSize) = false ∧
        bitTest (pmmAllocPages s.g count).2.st.bitmap ((pa + k * pageSize - s.g.st.basePa) / pageSize) = true) ∧
      ∀ j < s.g.st.totalPages, s.g.st.basePa + j * pageSize ∉ pageSpan pa count →
        bitTest (pmmAllocPages s.g count).2.st.bitmap j = bitTest s.g.st.bitmap j) ∧
    (∀ count, (pmmAllocPages s.g count).1 = none → (pmmAllocPages s.g count).2.st.bitmap = s.g.st.bitmap ∧
      (pmmAllocPages s.g count).2.st.freePages = s.g.st.freePages) ∧
    ∀ pa ∈ s.owned, ∀ j < s.g.st.totalPages, bitTest (pmmFreePage s.g pa).st.bitmap j =
        (bitTest s.g.st.bitmap j && decide (s.g.st.basePa + j * pageSize ≠ pa)) := by
  have hr₀ := pmmInit_ready hinit
  have hinv := PmmSys.inv_of_run hr₀ hrun
  refine ⟨hinv.ready.counted, hinv.ready.hint_le, ?_, ?_, ?_⟩
  · intro count pa halloc
    obtain ⟨-, i, rfl, hle, hst, hfresh⟩ := PmmSys.alloc_fresh hinv halloc
    have haddr : ∀ k, s.g.st.basePa + i * pageSize + k * pageSize =
        s.g.st.basePa + (i + k) * pageSize := fun k ↦ by rw [Nat.add_mul, Nat.add_assoc]
    constructor
    · intro k hk
      obtain ⟨-, hclear₀, hown⟩ := hfresh k hk
      obtain ⟨hmod, hge, hlt⟩ := PmmSys.page_in_window hinv.ready.whole (i := i + k) (by omega)
      have hidx : (s.g.st.basePa + (i + k) * pageSize - s.g.st.basePa) / pageSize = i + k := by
        rw [Nat.add_sub_cancel_left, Nat.mul_div_cancel _ (by decide)]
      rw [haddr] at hown ⊢
      rw [hidx, hst]
      refine ⟨hmod, hge, hlt, hown, hclear₀, ?_⟩
      show bitTest (setRun s.g.st.bitmap i count) (i + k) = true
      rw [bitTest_setRun, Bool.or_eq_true]
      exact .inl (decide_eq_true ⟨by omega, by omega⟩)
    · intro j _ hout
      rw [PmmSys.mem_pageSpan_index] at hout
      rw [hst]
      show bitTest (setRun s.g.st.bitmap i count) j = bitTest s.g.st.bitmap j
      rw [bitTest_setRun, decide_eq_false hout, Bool.false_or]
  · intro count hnone
    rcases pmmAllocPages_cases s.g count with ⟨-, hst⟩ | ⟨i, -, -, -, -, hsome, -⟩
    · rw [hst]
      exact ⟨rfl, rfl⟩
    · rw [hsome] at hnone
      cases hnone
  · intro pa hpa j hj
    obtain ⟨i, -, rfl, -, hst, -⟩ := PmmSys.free_owned hr₀ hinv hpa
    rw [hst]
    show bitTest (bitClear s.g.st.bitmap i) j = _
    rcases eq_or_ne j i with rfl | hji
    · rw [bitTest_bitClear_self, decide_eq_false (not_not.2 rfl), Bool.and_false]
    · have hne : s.g.st.basePa + j * pageSize ≠ s.g.st.basePa + i * pageSize := fun heq ↦ hji (PmmSys.page_inj heq)
      rw [bitTest_bitClear_of_ne _ hji, decide_eq_true hne, Bool.and_true]

/-- The `virt` board with 40 pages of RAM above the kernel. -/
def virtEnv : PmmInitEnv where
  board := ⟨0x40000000, 0x40000000, 0xFFFF800000000000⟩
  bootInfo := ⟨0x40000000, 0, 0⟩
  usable := some [⟨0x40000000, 0x28000⟩]
  memory := none
  dtbTotalsize := 0
  runtimeEnd := 0xFFFF800040002000
  metaBytes := fun _ ↦ 0

theorem virtEnv_alloc : ((pmmInit virtEnv .initial).map fun g ↦ (pmmAllocPages g 2).1) = some (some 0x40012000) := by
  decide +kernel

theorem pmm_ownership_safe_virtEnv : ∃ g₀ s, pmmInit virtEnv .initial = some g₀ ∧
    Relation.ReflTransGen PmmSys.Step ⟨g₀, ∅⟩ s ∧ 0x40012000 ∈ s.owned ∧
    s.g.st.freePages = clearCount s.g.st.bitmap s.g.st.totalPages := by
  obtain ⟨g₀, hinit, halloc⟩ := Option.map_eq_some_iff.1 virtEnv_alloc
  have hrun : Relation.ReflTransGen PmmSys.Step ⟨g₀, ∅⟩ (PmmSys.step ⟨g₀, ∅⟩ (.alloc 2)) :=
    Relation.ReflTransGen.single ⟨.alloc 2, show 2 < 2 ^ 32 by decide, rfl⟩
  refine ⟨g₀, _, hinit, hrun, ?_, (pmm_ownership_safe hinit hrun).1⟩
  simp only [PmmSys.step, halloc]
  decide

end CapazOS
