import CapazOS.Mm.Pmm
import CapazOS.Lib.Intervals

/-!
# The usable ranges of the platform

The model of `platform_get_usable_ranges` of `Kern/Kernel/platform/platform.c`: the memory ranges
are rounded inwards to pages and clamped to the direct-map window, the reserved ranges are rounded
outwards, and the second list is subtracted from the first. Where no 64-bit sum wraps, sorting,
merging and subtracting are the passes of `Lib.Intervals` (`normalizeMerge_spans`,
`subtractReserved_spans`).
-/

namespace CapazOS

open List hiding merge
open Intervals

variable {r : DtbRange} {l out rsv : List DtbRange} {cap : ℕ}

/-! ### The passes over arrays of ranges -/

def sortRanges (r : List DtbRange) : List DtbRange := sortBy DtbRange.base r

/-- One round of `normalize_merge`, on the entries below `w` with the last one in front. -/
def normalizeStep : List DtbRange → DtbRange → List DtbRange
  | [], r => if r.size = 0 then [] else [r]
  | prev :: out, r =>
    if r.size = 0 then prev :: out
    else if r.base ≤ prev.stop then
      if prev.stop < r.stop then { prev with size := u64 (r.stop + 2 ^ 64 - prev.base) } :: out
      else prev :: out
    else r :: prev :: out

def normalizeMerge (r : List DtbRange) : List DtbRange := (r.foldl normalizeStep []).reverse

/-- The store of a segment into `out`, which holds at most `cap` ranges. -/
def pushSegment (cap : ℕ) (out : List DtbRange) (lo hi : ℕ) : Option (List DtbRange) :=
  if lo < hi then
    if cap ≤ out.length then none else some (out ++ [⟨lo, hi - lo⟩])
  else some out

/-- The inner loop of `subtract_reserved`, over the reserved ranges from the cursor on. -/
def subtractLoop (cap mEnd : ℕ) : List DtbRange → ℕ → List DtbRange → Option (ℕ × List DtbRange)
  | [], cur, out => some (cur, out)
  | r :: rsv, cur, out =>
    if r.base < mEnd then
      let pushed := if cur < r.base then pushSegment cap out cur (if r.base < mEnd then r.base else mEnd)
        else some out
      match pushed with
      | none => none
      | some out =>
        let cur := if cur < r.stop then r.stop else cur
        if mEnd ≤ cur then some (cur, out) else subtractLoop cap mEnd rsv cur out
    else some (cur, out)

def subtractRanges (cap : ℕ) : List DtbRange → List DtbRange → List DtbRange → Option (List DtbRange)
  | [], _, out => some out
  | m :: mem, rsv, out =>
    if m.size = 0 then subtractRanges cap mem rsv out
    else
      let rsv := rsv.dropWhile fun r ↦ r.stop ≤ m.base
      match subtractLoop cap m.stop rsv m.base out with
      | none => none
      | some (cur, out) =>
        match pushSegment cap out cur m.stop with
        | none => none
        | some out => subtractRanges cap mem rsv out

def subtractReserved (cap : ℕ) (mem rsv : List DtbRange) : Option (List DtbRange) :=
  subtractRanges cap mem rsv []

/-! ### Reservations -/

/-- The range from `start` to `stop`, clamped to the direct-map window. -/
def windowRange (bd : Board) (start stop : ℕ) : Option DtbRange :=
  let start := if start < bd.ramBase then bd.ramBase else start
  let stop := if bd.windowEnd < stop then bd.windowEnd else stop
  if stop ≤ start then none else some ⟨start, stop - start⟩

/-- The loops that round ranges inwards to pages: over the memory ranges, and at the end over the
result. -/
def wholePages (bd : Board) (r : List DtbRange) : List DtbRange :=
  r.filterMap fun r ↦ windowRange bd (alignUp4k r.base) (alignDown4k r.stop)

/-- `PLATFORM_MAX_RANGES * 2`, the length of `all_rsv`. -/
def maxReserved : ℕ := 128

def pushReserved (rsv : List DtbRange) : Option DtbRange → List DtbRange
  | none => rsv
  | some r => if rsv.length < maxReserved then rsv ++ [r] else rsv

/-- The reserved range of the device tree, rounded outwards. -/
def touchedPages (bd : Board) (r : DtbRange) : Option DtbRange :=
  if r.size = 0 then none else windowRange bd (alignDown4k r.base) (alignUp4k r.stop)

/-- The range of the metadata pages behind the kernel; its start is not clamped. -/
def metadataRange (bd : Board) (runtimeEndPa : ℕ) : Option DtbRange :=
  let start := alignUp4k runtimeEndPa
  let stop := u64 (start + pmmMetadataPages * pageSize)
  if start < bd.windowEnd then
    let stop := if bd.windowEnd < stop then bd.windowEnd else stop
    if start < stop then some ⟨start, stop - start⟩ else none
  else none

/-- The size of the device-tree blob: the tree's own total size, bounded by what the loader
reported. -/
def dtbBlobSize (totalsize dtbSize : ℕ) : ℕ :=
  let sz := if totalsize = 0 then dtbSize else totalsize
  if dtbSize ≠ 0 ∧ dtbSize < sz then dtbSize else sz

/-- What `platform_get_usable_ranges` asks its surroundings for: the answers of
`dtb_get_memory_ranges`, `dtb_get_reserved_ranges` and `dtb_get_totalsize`, and the address of
`__kernel_runtime_end`. -/
structure UsableEnv where
  board : Board
  memory : List DtbRange
  reserved : List DtbRange
  dtbTotalsize : ℕ
  runtimeEnd : ℕ

namespace UsableEnv

variable (env : UsableEnv)

def runtimeEndPa : ℕ := env.board.hhVirtToPhys env.runtimeEnd

/-- The implicit reservations, behind those of the device tree. -/
def reserveImplicit (memMin : ℕ) (bi : BootInfo) (rsv : List DtbRange) : List DtbRange :=
  let bd := env.board
  let rsv := if memMin ≠ 2 ^ 64 - 1 ∧ memMin < bi.kernelPhysBase then
      pushReserved rsv (windowRange bd (alignDown4k memMin) (alignUp4k bi.kernelPhysBase))
    else rsv
  let rsv := pushReserved rsv (windowRange bd (alignDown4k bi.kernelPhysBase) (alignUp4k env.runtimeEndPa))
  let rsv := pushReserved rsv (metadataRange bd env.runtimeEndPa)
  if bi.dtbPtr = 0 then rsv
  else
    let dtbPhys := bd.hhVirtToPhys bi.dtbPtr
    pushReserved rsv (windowRange bd (alignDown4k dtbPhys)
      (alignUp4k (u64 (dtbPhys + dtbBlobSize env.dtbTotalsize bi.dtbSize))))

def allReserved (memMin : ℕ) (bootInfo : Option BootInfo) : List DtbRange :=
  let rsv := env.reserved.foldl (fun rsv r ↦ pushReserved rsv (touchedPages env.board r)) []
  match bootInfo with
  | none => rsv
  | some bi => env.reserveImplicit memMin bi rsv

def mergedMemory : List DtbRange := normalizeMerge (sortRanges (wholePages env.board env.memory))

def memMinBase : ℕ := (env.mergedMemory.head?.map DtbRange.base).getD env.board.ramBase

def mergedReserved (bootInfo : Option BootInfo) : List DtbRange :=
  normalizeMerge (sortRanges (env.allReserved env.memMinBase bootInfo))

end UsableEnv

/-- `platform_get_usable_ranges`, with room for `cap` ranges; `none` where it returns false. -/
def platformGetUsableRanges (env : UsableEnv) (bootInfo : Option BootInfo) (cap : ℕ) : Option (List DtbRange) :=
  if env.memory = [] then none
  else
    (subtractReserved cap env.mergedMemory (env.mergedReserved bootInfo)).map fun out ↦
      normalizeMerge (sortRanges (wholePages env.board out))

/-! ### Spans -/

def DtbRange.span (r : DtbRange) : ℕ × ℕ := (r.base, r.base + r.size)

theorem DtbRange.span_fst (r : DtbRange) : r.span.1 = r.base := rfl

def SpansFit (l : List DtbRange) : Prop := ∀ r ∈ l, r.span.2 < 2 ^ 64

theorem DtbRange.stop_eq (h : r.span.2 < 2 ^ 64) : r.stop = r.span.2 := Nat.mod_eq_of_lt h

theorem spansFit_cons : SpansFit (r :: l) ↔ r.span.2 < 2 ^ 64 ∧ SpansFit l := forall_mem_cons

theorem normalizeStep_spans (hout : SpansFit out) (hr : r.span.2 < 2 ^ 64) :
    (normalizeStep out r).map DtbRange.span = mergeStep (out.map DtbRange.span) r.span ∧
      SpansFit (normalizeStep out r) := by
  have hne : r.size = 0 ↔ ¬r.span.1 < r.span.2 := by
    simp only [DtbRange.span]
    omega
  cases out with
  | nil =>
    rw [normalizeStep, map_nil, mergeStep]
    by_cases hzero : r.size = 0
    · rw [if_pos hzero, if_neg (hne.1 hzero)]
      exact ⟨rfl, hout⟩
    · rw [if_neg hzero, if_pos (not_not.1 (hne.not.1 hzero))]
      exact ⟨rfl, spansFit_cons.2 ⟨hr, hout⟩⟩
  | cons prev out =>
    obtain ⟨hprev, hrest⟩ := spansFit_cons.1 hout
    rw [normalizeStep, map_cons, mergeStep, DtbRange.stop_eq hprev, DtbRange.stop_eq hr]
    by_cases hzero : r.size = 0
    · rw [if_pos hzero, if_neg (hne.1 hzero)]
      exact ⟨rfl, hout⟩
    rw [if_neg hzero, if_pos (not_not.1 (hne.not.1 hzero))]
    by_cases htouch : r.base ≤ prev.span.2
    · rw [if_pos htouch, if_pos (show r.span.1 ≤ prev.span.2 from htouch)]
      by_cases hlonger : prev.span.2 < r.span.2
      · -- the difference of the ends does not wrap
        have hspan : (DtbRange.mk prev.base (u64 (r.span.2 + 2 ^ 64 - prev.base))).span = (prev.span.1, r.span.2) := by
          simp only [DtbRange.span] at hr hlonger ⊢
          rw [u64, show r.base + r.size + 2 ^ 64 - prev.base =
            r.base + r.size - prev.base + 2 ^ 64 by omega, Nat.add_mod_right,
            Nat.mod_eq_of_lt (by omega)]
          congr 1
          omega
        rw [if_pos hlonger, Nat.max_eq_right hlonger.le]
        refine ⟨by rw [map_cons, hspan], spansFit_cons.2 ⟨?_, hrest⟩⟩
        rw [hspan]
        exact hr
      · rw [if_neg hlonger, Nat.max_eq_left (Nat.not_lt.1 hlonger)]
        exact ⟨rfl, hout⟩
    · rw [if_neg htouch, if_neg (show ¬r.span.1 ≤ prev.span.2 from htouch)]
      exact ⟨rfl, spansFit_cons.2 ⟨hr, hout⟩⟩

theorem normalizeMerge_spans (h : SpansFit l) :
    (normalizeMerge l).map DtbRange.span = merge (l.map DtbRange.span) ∧ SpansFit (normalizeMerge l) := by
  have hfold : ∀ out : List DtbRange, SpansFit out → (l.foldl normalizeStep out).map DtbRange.span =
          (l.map DtbRange.span).foldl mergeStep (out.map DtbRange.span) ∧
        SpansFit (l.foldl normalizeStep out) := by
    induction l with
    | nil => exact fun out hout ↦ ⟨rfl, hout⟩
    | cons r l ih =>
      intro out hout
      obtain ⟨hr, hl⟩ := spansFit_cons.1 h
      obtain ⟨hstep, hfit⟩ := normalizeStep_spans hout hr
      obtain ⟨heq, hfit'⟩ := ih hl _ hfit
      refine ⟨?_, hfit'⟩
      rw [foldl_cons, heq, hstep]
      rfl
  obtain ⟨heq, hfit⟩ := hfold [] fun _ hr ↦ nomatch hr
  refine ⟨?_, fun r hr ↦ hfit r (mem_reverse.1 hr)⟩
  rw [normalizeMerge, map_reverse, heq]
  rfl

theorem sortRanges_perm (l : List DtbRange) : (sortRanges l).Perm l := sortBy_perm _ l

theorem sortRanges_fit (h : SpansFit l) : SpansFit (sortRanges l) :=
  fun r hr ↦ h r ((sortRanges_perm l).mem_iff.1 hr)

theorem sortRanges_lowSorted (l : List DtbRange) : LowSorted ((sortRanges l).map DtbRange.span) :=
  pairwise_map.2 (sortBy_sorted DtbRange.base l)

theorem covers_normalize (h : SpansFit l) (x : ℕ) :
    Intervals.Covers ((normalizeMerge (sortRanges l)).map DtbRange.span) x ↔
      Intervals.Covers (l.map DtbRange.span) x := by
  rw [(normalizeMerge_spans (sortRanges_fit h)).1, covers_merge (sortRanges_lowSorted l),
    Intervals.Covers.perm ((sortRanges_perm l).map _)]

theorem separated_normalize (h : SpansFit l) : Separated ((normalizeMerge (sortRanges l)).map DtbRange.span) := by
  rw [(normalizeMerge_spans (sortRanges_fit h)).1]
  exact separated_merge (sortRanges_lowSorted l)

theorem normalize_forall {P Q : ℕ → Prop} (h : SpansFit l) (hl : ∀ r ∈ l, P r.span.1 ∧ Q r.span.2) :
    ∀ r ∈ normalizeMerge (sortRanges l), P r.span.1 ∧ Q r.span.2 := by
  intro r hr
  have hmem := mem_map_of_mem (f := DtbRange.span) hr
  rw [(normalizeMerge_spans (sortRanges_fit h)).1] at hmem
  refine merge_forall (fun w hw ↦ ?_) _ hmem
  obtain ⟨r', hr', rfl⟩ := mem_map.1 hw
  exact hl r' ((sortRanges_perm l).mem_iff.1 hr')

/-! ### Subtraction -/

theorem pushSegment_eq {lo hi : ℕ} {out' : List DtbRange} (h : pushSegment cap out lo hi = some out') :
    out'.map DtbRange.span = out.map DtbRange.span ++ piece lo hi := by
  rw [pushSegment] at h
  rw [piece]
  split_ifs at h ⊢ with hlt hcap
  · obtain rfl := Option.some.inj h
    rw [map_append, map_singleton, DtbRange.span, Nat.add_sub_cancel' hlt.le]
  · obtain rfl := Option.some.inj h
    rw [append_nil]

theorem subtractLoop_spans {mEnd cur cur' : ℕ} {out' out'' : List DtbRange} (hrsv : SpansFit rsv)
    (hcur : cur < mEnd) (hloop : subtractLoop cap mEnd rsv cur out = some (cur', out'))
    (hpush : pushSegment cap out' cur' mEnd = some out'') :
    out''.map DtbRange.span = out.map DtbRange.span ++ cut mEnd (rsv.map DtbRange.span) cur := by
  induction rsv generalizing cur out with
  | nil =>
    obtain ⟨rfl, rfl⟩ := Prod.mk.inj (Option.some.inj hloop)
    exact pushSegment_eq hpush
  | cons r rsv ih =>
    obtain ⟨hr, hrsv⟩ := spansFit_cons.1 hrsv
    rw [subtractLoop, DtbRange.stop_eq hr] at hloop
    rw [map_cons, cut, DtbRange.span_fst]
    by_cases hlow : r.base < mEnd
    swap
    · rw [if_neg hlow] at hloop
      obtain ⟨rfl, rfl⟩ := Prod.mk.inj (Option.some.inj hloop)
      rw [if_neg hlow]
      exact pushSegment_eq hpush
    simp only [if_pos hlow] at hloop
    rw [if_pos hlow]
    have hsegment : ∀ out₁, (if cur < r.base then pushSegment cap out cur r.base else some out) =
        some out₁ → out₁.map DtbRange.span = out.map DtbRange.span ++ piece cur r.base := by
      intro out₁ h
      split_ifs at h with hlt
      · exact pushSegment_eq h
      · obtain rfl := Option.some.inj h
        rw [piece, if_neg hlt, append_nil]
    have hmax : (if cur < r.span.2 then r.span.2 else cur) = max cur r.span.2 := by
      split_ifs with hlt
      · exact (Nat.max_eq_right hlt.le).symm
      · exact (Nat.max_eq_left (Nat.not_lt.1 hlt)).symm
    rw [hmax] at hloop
    split at hloop
    · cases hloop
    next out₁ hout₁ =>
    by_cases hdone : mEnd ≤ max cur r.span.2
    · rw [if_pos hdone] at hloop
      obtain ⟨rfl, rfl⟩ := Prod.mk.inj (Option.some.inj hloop)
      rw [if_pos hdone, append_nil, ← hsegment out₁ hout₁, pushSegment_eq hpush, piece,
        if_neg (Nat.not_lt.2 hdone), append_nil]
    · rw [if_neg hdone] at hloop
      rw [if_neg hdone, ih hrsv (Nat.not_le.1 hdone) hloop, hsegment out₁ hout₁, append_assoc]

theorem map_span_dropWhile (h : SpansFit rsv) (lo : ℕ) :
    (rsv.dropWhile fun r ↦ decide (r.stop ≤ lo)).map DtbRange.span =
      (rsv.map DtbRange.span).dropWhile fun r ↦ decide (r.2 ≤ lo) := by
  induction rsv with
  | nil => rfl
  | cons r rsv ih =>
    obtain ⟨hr, hrsv⟩ := spansFit_cons.1 h
    rw [map_cons, dropWhile_cons, dropWhile_cons, DtbRange.stop_eq hr]
    split_ifs
    · exact ih hrsv
    · rfl

theorem subtractReserved_spans {mem : List DtbRange} (hmem : SpansFit mem) (hrsv : SpansFit rsv)
    (h : subtractReserved cap mem rsv = some out) :
    out.map DtbRange.span = subtract (mem.map DtbRange.span) (rsv.map DtbRange.span) := by
  have hloop : ∀ out₀ : List DtbRange, subtractRanges cap mem rsv out₀ = some out → out.map DtbRange.span =
        out₀.map DtbRange.span ++ subtract (mem.map DtbRange.span) (rsv.map DtbRange.span) := by
    clear h
    induction mem generalizing rsv with
    | nil =>
      intro out₀ h
      obtain rfl := Option.some.inj h
      rw [map_nil, subtract, append_nil]
    | cons m mem ih =>
      intro out₀ h
      obtain ⟨hm, hmem⟩ := spansFit_cons.1 hmem
      rw [subtractRanges, DtbRange.stop_eq hm] at h
      rw [map_cons, subtract]
      by_cases hzero : m.size = 0
      · rw [if_pos hzero] at h
        rw [if_neg (show ¬m.span.1 < m.span.2 by simp only [DtbRange.span]; omega)]
        exact ih hmem hrsv out₀ h
      have hlt : m.base < m.span.2 := by
        simp only [DtbRange.span]
        omega
      have hfit : SpansFit (rsv.dropWhile fun r ↦ decide (r.stop ≤ m.base)) := fun r hr ↦
        hrsv r ((dropWhile_sublist _).mem hr)
      rw [if_neg hzero] at h
      rw [if_pos (show m.span.1 < m.span.2 from hlt)]
      simp only at h ⊢
      split at h
      · cases h
      next cur out₁ hcut =>
      split at h
      · cases h
      next out₂ hpush =>
      rw [ih hmem hfit out₂ h, subtractLoop_spans hfit hlt hcut hpush, map_span_dropWhile hrsv, append_assoc]
      rfl
  rw [hloop [] h, map_nil, nil_append]

end CapazOS
