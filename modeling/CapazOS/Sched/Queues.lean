import CapazOS.Sched.Model
import Mathlib.Data.List.Perm.Subperm

/-!
# The ready queues as lists

`Represents s q` reads the links and tail pointers of the scheduler as four lists of threads, with
the place in the pick pattern. Under it each queue function of `sched.c` is an arrival, a departure
or a turn of the server of `PatternQueues`, and cannot run into a broken ring. The stack checks are
set apart as `SchedFault.IsStackCheck`.
-/

namespace CapazOS

open List LinkRing PatternQueues Function

/-- The lists of ready threads, and the cursor in the pick pattern. -/
abbrev ReadyQueues := PatternQueues.State SchedIntent Tid

/-- **The links represent the lists.** -/
structure Represents (s : Sched) (q : ReadyQueues) : Prop where
  ring : ∀ i, IsRing s.rqNext (s.readyTail i) (q.queue i)
  wf : q.Wf
  linked : ∀ t, (s.rqNext t).isSome → ∃ i, t ∈ q.queue i
  cursor : s.pickCursor = q.cursor
  lt_next : ∀ i t, t ∈ q.queue i → t < s.nextTid

/-- A check of the stack of the thread that is put into a queue. -/
def SchedFault.IsStackCheck : SchedFault → Prop
  | .kstackBaseNull | .kstackTopNull | .kstackSizeZero | .irqSpNull | .irqSpUnaligned
  | .irqSpBelowBase | .irqSpBeyondTop | .ctxSpUnaligned => True
  | _ => False

theorem schedValidateIrqSp_cases (s : Sched) (t : Tid) :
    schedValidateIrqSp s t = .ok () ∨ ∃ f : SchedFault, f.IsStackCheck ∧ schedValidateIrqSp s t = .error f := by
  unfold schedValidateIrqSp
  split_ifs <;> first
    | exact .inl rfl
    | (refine .inr ⟨_, ?_, rfl⟩; trivial)

namespace Represents

variable {s : Sched} {q : ReadyQueues}

theorem isSome_iff (h : Represents s q) (t : Tid) : (s.rqNext t).isSome ↔ ∃ i, t ∈ q.queue i :=
  ⟨h.linked t, fun ⟨i, hi⟩ ↦ (h.ring i).isSome hi⟩

theorem isSome_readyTail (h : Represents s q) (i : SchedIntent) : (s.readyTail i).isSome = !(q.queue i).isEmpty := by
  rw [Bool.eq_iff_iff, Bool.not_eq_true', isEmpty_eq_false_iff, ← Option.ne_none_iff_isSome,
    ne_eq, (h.ring i).tail_isNone]

theorem congr (h : Represents s q) {s' : Sched} (hnext : s'.rqNext = s.rqNext)
    (htail : s'.readyTail = s.readyTail) (hcursor : s'.pickCursor = s.pickCursor)
    (htid : s'.nextTid = s.nextTid) : Represents s' q where
  ring i := by rw [hnext, htail]; exact h.ring i
  wf := h.wf
  linked t := by rw [hnext]; exact h.linked t
  cursor := hcursor.trans h.cursor
  lt_next i t ht := by rw [htid]; exact h.lt_next i t ht

theorem length_le (h : Represents s q) (i : SchedIntent) : (q.queue i).length ≤ s.nextTid := by
  have hsub : (q.queue i) ⊆ range s.nextTid := fun t ht ↦ mem_range.2 (h.lt_next i t ht)
  have := (subperm_of_subset (h.wf.nodup i) hsub).length_le
  rwa [length_range] at this

/-- **One queue changes.** The links of the threads in the other queues stay. -/
theorem setQueue (h : Represents s q) {i : SchedIntent} {next : Links Tid} {tail : Option Tid}
    {l : List Tid} (cursor : ℕ) (hring : IsRing next tail l)
    (hold : ∀ j, j ≠ i → ∀ t ∈ q.queue j, next t = s.rqNext t)
    (hwf : (⟨update q.queue i l, cursor⟩ : ReadyQueues).Wf)
    (hlinked : ∀ t, (next t).isSome → t ∈ l ∨ ∃ j, j ≠ i ∧ t ∈ q.queue j)
    (hlt : ∀ t ∈ l, t < s.nextTid) :
    Represents { s with rqNext := next, readyTail := update s.readyTail i tail, pickCursor := cursor }
      ⟨update q.queue i l, cursor⟩ where
  ring j := by
    rcases eq_or_ne j i with rfl | hji
    · simp only [update_self]
      exact hring
    · simp only [update_of_ne hji]
      exact (h.ring j).congr fun t ht ↦ hold j hji t ht
  wf := hwf
  linked t ht := by
    rcases hlinked t ht with htl | ⟨j, hji, hj⟩
    · exact ⟨i, by simp only [update_self]; exact htl⟩
    · exact ⟨j, by simp only [update_of_ne hji]; exact hj⟩
  cursor := rfl
  lt_next j t ht := by
    rcases eq_or_ne j i with rfl | hji
    · simp only [update_self] at ht
      exact hlt t ht
    · simp only [update_of_ne hji] at ht
      exact h.lt_next j t ht

/-! ### Insertion -/

/-- **`rq_insert_tail_locked` is an arrival**, or a stack check fails. -/
theorem insertTail (h : Represents s q) {t : Tid} (hready : (s.threads t).state = .ready)
    (ht : ∀ i, t ∉ q.queue i) (hlt : t < s.nextTid) :
    (∃ f : SchedFault, f.IsStackCheck ∧ rqInsertTailLocked s t = .error f) ∨
    ∃ next tails, rqInsertTailLocked s t = .ok { s with rqNext := next, readyTail := tails } ∧
      Represents { s with rqNext := next, readyTail := tails }
        (q.step kPickPattern (.push (s.threads t).schedIntent t)).1 := by
  have hnone : (s.rqNext t).isSome = false := by
    rw [Bool.eq_false_iff]
    exact fun hsome ↦ (ht _) (h.linked t hsome).choose_spec
  unfold rqInsertTailLocked
  rw [hnone, hready]
  rcases schedValidateIrqSp_cases s t with hok | ⟨f, hf, herr⟩
  · rw [hok]
    by_cases hsp : (s.threads t).ctx.sp ≠ 0 ∧ (s.threads t).ctx.sp % 16 ≠ 0
    · exact .inl ⟨.ctxSpUnaligned, trivial, by simp [hsp]⟩
    · refine .inr ⟨(LinkRing.insertTail s.rqNext (s.readyTail (s.threads t).schedIntent) t).1,
        update s.readyTail (s.threads t).schedIntent
          (LinkRing.insertTail s.rqNext (s.readyTail (s.threads t).schedIntent) t).2, ?_, ?_⟩
      · simp [if_neg hsp]
      obtain ⟨hring, -, hold⟩ := insertTail_spec (h.ring (s.threads t).schedIntent) (ht _)
      have hwf := h.wf.step kPickPattern (.push (s.threads t).schedIntent t) ht
      have hrep := h.setQueue q.cursor hring (fun j hj u hu ↦ hold u (fun hu' ↦ hj (h.wf.disjoint _ _ u hu hu'))
          fun heq ↦ ht j (heq ▸ hu)) hwf ?_ ?_
      · exact hrep.congr rfl rfl h.cursor rfl
      · intro u hu
        by_cases hut : u = t
        · exact .inl (by simp [hut])
        by_cases hui : u ∈ q.queue (s.threads t).schedIntent
        · exact .inl (mem_append_left _ hui)
        · rw [hold u hui hut] at hu
          obtain ⟨j, hj⟩ := h.linked u hu
          exact .inr ⟨j, fun heq ↦ hui (heq ▸ hj), hj⟩
      · intro u hu
        rcases mem_append.1 hu with hu | hu
        · exact h.lt_next _ u hu
        · rwa [mem_singleton.1 hu]
  · exact .inl ⟨f, hf, by simp [herr]⟩

/-! ### Removal -/

theorem mem_all (i : SchedIntent) : i ∈ SchedIntent.all := by cases i <;> decide

theorem rqRemoveFrom_eq (h : Represents s q) {i : SchedIntent} {t : Tid} (ht : t ∈ q.queue i)
    (is : List SchedIntent) (hi : i ∈ is) :
    ∃ next tail, rqRemoveFrom s t is = .ok (true, { s with rqNext := next, readyTail := update s.readyTail i tail }) ∧
      IsRing next tail ((q.queue i).erase t) ∧ next t = none ∧
      ∀ u, u ∉ q.queue i → next u = s.rqNext u := by
  induction is with
  | nil => cases hi
  | cons j is ih =>
    have hring := h.ring j
    rcases htail : s.readyTail j with _ | tail
    · rw [htail] at hring
      have hji : j ≠ i := fun heq ↦ by
        rw [← heq, show q.queue j = [] from hring] at ht
        cases ht
      simp only [rqRemoveFrom, htail]
      exact ih ((mem_cons.1 hi).resolve_left hji.symm)
    · rw [htail] at hring
      rcases eq_or_ne j i with rfl | hji
      · obtain ⟨next, tail', heq, hring', hnone, hold⟩ := remove_spec hring ht (h.length_le j)
        exact ⟨next, tail', by simp only [rqRemoveFrom, htail, heq], hring', hnone, hold⟩
      · have hnot : t ∉ q.queue j := fun hj ↦ hji (h.wf.disjoint _ _ t hj ht)
        simp only [rqRemoveFrom, htail, remove_of_not_mem hring hnot (h.length_le j)]
        exact ih ((mem_cons.1 hi).resolve_left hji.symm)

/-- **`rq_remove_locked` is a departure.** -/
theorem remove (h : Represents s q) {i : SchedIntent} {t : Tid} (ht : t ∈ q.queue i) :
    ∃ next tails, rqRemoveLocked s t = .ok (true, { s with rqNext := next, readyTail := tails }) ∧
      Represents { s with rqNext := next, readyTail := tails } (q.step kPickPattern (.erase i t)).1 := by
  obtain ⟨next, tail, heq, hring, hnone, hold⟩ := h.rqRemoveFrom_eq ht SchedIntent.all (mem_all i)
  refine ⟨_, _, heq, ?_⟩
  have hwf := h.wf.step kPickPattern (.erase i t) trivial
  have hrep := h.setQueue q.cursor hring (fun j hj u hu ↦ hold u fun hu' ↦ hj (h.wf.disjoint _ _ u hu hu')) hwf ?_
    fun u hu ↦ h.lt_next i u (mem_of_mem_erase hu)
  · exact hrep.congr rfl rfl h.cursor rfl
  · intro u hu
    by_cases hui : u ∈ q.queue i
    · refine .inl ((mem_erase_of_ne ?_).2 hui)
      rintro rfl
      rw [hnone] at hu
      cases hu
    · rw [hold u hui] at hu
      obtain ⟨j, hj⟩ := h.linked u hu
      exact .inr ⟨j, fun heq ↦ hui (heq ▸ hj), hj⟩

/-! ### Taking the next thread -/

theorem exists_place (i : SchedIntent) : ∃ p : ℕ, kPickPattern[p]? = some i := by
  cases i
  exacts [⟨0, rfl⟩, ⟨6, rfl⟩, ⟨10, rfl⟩, ⟨12, rfl⟩]

theorem popHeadIntent (h : Represents s q) {i : SchedIntent} {t : Tid} {rest : List Tid}
    (hq : q.queue i = t :: rest) (cursor : ℕ) :
    ∃ next tails, rqPopHeadIntentLocked { s with pickCursor := cursor } i =
        .ok (some t, { s with rqNext := next, readyTail := tails, pickCursor := cursor }) ∧
      Represents { s with rqNext := next, readyTail := tails, pickCursor := cursor }
        ⟨update q.queue i rest, cursor⟩ := by
  have hring := h.ring i
  have hnodup := h.wf.nodup i
  rw [hq] at hring hnodup
  rcases htail : s.readyTail i with _ | tail
  · rw [htail] at hring
    cases hring
  · rw [htail] at hring
    obtain ⟨next, tail', heq, hring', hnone, hold⟩ := popHead_spec hring
    refine ⟨next, update s.readyTail i tail', ?_, ?_⟩
    · simp only [rqPopHeadIntentLocked, htail, heq]
    · have hmem : ∀ u ∈ rest, u ∈ q.queue i := fun u hu ↦ hq ▸ mem_cons_of_mem _ hu
      refine h.setQueue cursor hring' (fun j hj u hu ↦ hold u fun hu' ↦ hj ?_)
        (h.wf.setQueue cursor (nodup_cons.1 hnodup).2 fun u hu ↦ .inl (hmem u hu)) ?_
        fun u hu ↦ h.lt_next i u (hmem u hu)
      · exact h.wf.disjoint _ _ u hu (hq ▸ hu')
      · intro u hu
        by_cases hui : u ∈ t :: rest
        · refine .inl ((mem_cons.1 hui).resolve_left ?_)
          rintro rfl
          rw [hnone] at hu
          cases hu
        · rw [hold u hui] at hu
          obtain ⟨j, hj⟩ := h.linked u hu
          exact .inr ⟨j, fun heq ↦ hui (hq ▸ heq ▸ hj), hj⟩

/-- **`rq_pop_best_locked` is a turn of the server.** -/
theorem popBest (h : Represents s q) : ∃ next tails, rqPopBestLocked s = .ok ((q.step kPickPattern .pop).2.head?,
        { s with rqNext := next, readyTail := tails, pickCursor := (q.step kPickPattern .pop).1.cursor }) ∧
      Represents { s with rqNext := next, readyTail := tails, pickCursor := (q.step kPickPattern .pop).1.cursor }
        (q.step kPickPattern .pop).1 := by
  have hbusy : (fun i ↦ (s.readyTail i).isSome) = fun i ↦ !(q.queue i).isEmpty := funext h.isSome_readyTail
  unfold rqPopBestLocked schedPickIntentLocked
  rw [hbusy, h.cursor]
  by_cases hall : ∀ i, q.queue i = []
  · -- All queues are empty: the pattern finds nothing, and neither does the loop after it.
    have hpick : PatternQueues.pick kPickPattern (fun i ↦ !(q.queue i).isEmpty) q.cursor = none := by
      simp [PatternQueues.pick, PatternQueues.offset, hall]
    have hstep : q.step kPickPattern .pop = (q, []) := by simp only [State.step, State.pop, hpick]
    have htail : ∀ i, s.readyTail i = none := fun i ↦ (h.ring i).tail_isNone.2 (hall i)
    refine ⟨s.rqNext, s.readyTail, ?_, ?_⟩
    · rw [hpick, hstep]
      simp [rqPopHeadIntentLocked, htail, ← h.cursor]
    · rw [hstep]
      exact h.congr rfl rfl h.cursor.symm rfl
  · obtain ⟨i, hi⟩ := not_forall.1 hall
    obtain ⟨p, hp⟩ := exists_place i
    have hbusy : (!(q.queue i).isEmpty) = true := by simpa using hi
    obtain ⟨c, cursor, hpick, hc, -⟩ := pick_of_busy (fun i ↦ !(q.queue i).isEmpty) hp hbusy q.cursor
    rcases hq : q.queue c with _ | ⟨u, rest⟩
    · rw [hq] at hc
      cases hc
    · have hstep : q.step kPickPattern .pop = (⟨update q.queue c rest, cursor⟩, [u]) := by
        simp only [State.step, State.pop, hpick, hq]
      obtain ⟨next, tails, hpop, hrep⟩ := h.popHeadIntent hq cursor
      rw [hpick, hstep]
      exact ⟨next, tails, hpop, hrep⟩

end Represents

end CapazOS
