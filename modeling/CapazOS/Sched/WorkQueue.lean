import CapazOS.Lib.Linked
import Mathlib.Logic.Function.Basic

/-!
# The deferred work queue

`work_queue.c` links work items through their `next` fields; interrupt handlers append items, a
thread takes them off. Between `irq_save` and `irq_restore`, and in a handler, nothing else runs, so
that these parts are single steps; **an interrupt may come at every other point** of
`workq_dequeue`.
-/

namespace CapazOS

open Function List

variable {ι : Type} {l : List ι} {i : ι}

/-- `workq_t`, and the `next` field of every item. -/
structure Workq (ι : Type) where
  head : Option ι
  tail : Option ι
  next : ι → Option ι

/-- The items linked from `head` are those of the list. -/
def Workq.Links (q : Workq ι) (l : List ι) : Prop :=
  q.head = none ∧ l = [] ∨ ∃ a, q.head = some a ∧ Linked q.next a l

theorem Workq.Links.unique {q : Workq ι} {l' : List ι} (h : q.Links l) (h' : q.Links l') : l = l' := by
  rcases h with ⟨hnone, rfl⟩ | ⟨a, ha, hl⟩ <;> rcases h' with ⟨hnone', rfl⟩ | ⟨a', ha', hl'⟩
  · rfl
  · cases hnone.symm.trans ha'
  · cases hnone'.symm.trans ha
  · cases ha.symm.trans ha'
    exact hl.unique hl'

variable [DecidableEq ι]

def Workq.setNext (q : Workq ι) (i : ι) (x : Option ι) : Workq ι := { q with next := update q.next i x }

def workqInit (q : Workq ι) : Workq ι := { q with head := none, tail := none }

/-- `workq_enqueue_from_irq`; `fn` tells whether an item has a function. -/
def workqEnqueueFromIrq (fn : ι → Bool) (q : Workq ι) (item : ι) : Bool × Workq ι :=
  if !fn item then (false, q)
  else
    let q := q.setNext item none
    match q.tail with
    | some t => (true, { q.setNext t (some item) with tail := some item })
    | none => (true, { q with head := some item, tail := some item })

def workqDequeue (q : Workq ι) : Option ι × Workq ι :=
  match q.head with
  | none => (none, q)
  | some it =>
    let q := { q with head := q.next it }
    let q := if q.head = none then { q with tail := none } else q
    (some it, q.setNext it none)

variable {q : Workq ι} {fn : ι → Bool}

theorem Workq.Links.enqueue (h : q.Links l) (htail : q.tail = l.getLast?) (hfn : fn i = true) (hi : i ∉ l) :
    (workqEnqueueFromIrq fn q i).1 = true ∧ (workqEnqueueFromIrq fn q i).2.Links (l ++ [i]) ∧
      (workqEnqueueFromIrq fn q i).2.tail = (l ++ [i]).getLast? := by
  rcases h with ⟨-, rfl⟩ | ⟨a, ha, hl⟩
  · have htail : q.tail = none := htail
    simp only [workqEnqueueFromIrq, hfn, Workq.setNext, htail]
    exact ⟨rfl, .inr ⟨i, rfl, .last (update_self ..)⟩, rfl⟩
  · rw [getLast?_eq_some_getLast hl.ne_nil] at htail
    have hne : i ≠ l.getLast hl.ne_nil := fun heq ↦ hi (heq ▸ getLast_mem _)
    simp only [workqEnqueueFromIrq, hfn, Workq.setNext, htail]
    refine ⟨rfl, .inr ⟨a, ha, hl.append (update_self ..) (.last ?_) fun x hx hlast ↦ ?_⟩, getLast?_concat.symm⟩
    · exact (update_of_ne hne ..).trans (update_self ..)
    · exact (update_of_ne hlast ..).trans (update_of_ne (ne_of_mem_of_not_mem hx hi) ..)

theorem Workq.Links.dequeue (h : q.Links l) (htail : q.tail = l.getLast?) : (workqDequeue q).1 = l.head? ∧
    (workqDequeue q).2.Links l.tail ∧ (workqDequeue q).2.tail = l.tail.getLast? ∧ ∀ x ∈ l.head?, x ∉ l.tail := by
  rcases h with ⟨hnone, rfl⟩ | ⟨a, ha, hl⟩
  · simp only [workqDequeue, hnone]
    exact ⟨rfl, .inl ⟨hnone, rfl⟩, htail, nofun⟩
  · have hnodup := hl.nodup
    simp only [workqDequeue, ha, Workq.setNext]
    cases hl with
    | last hstop => simp [hstop, Links]
    | @cons _ b l hnext hrest =>
      have hout := (nodup_cons.1 hnodup).1
      obtain ⟨y, l, rfl⟩ := exists_cons_of_ne_nil hrest.ne_nil
      simp only [hnext, reduceCtorEq, if_false]
      refine ⟨rfl, .inr ⟨b, rfl, hrest.congr fun x hx ↦ update_of_ne (ne_of_mem_of_not_mem hx hout) ..⟩, htail, ?_⟩
      rintro x ⟨⟩
      exact hout

/-- Where the thread stands: outside, before `irq_save`, and after `irq_restore` with the item it
will return. -/
inductive WorkThread (ι : Type) where
  | idle
  | called
  | returning (it : Option ι)

/-- The item that the thread is about to return. -/
def WorkThread.inHand : WorkThread ι → List ι
  | .returning it => it.toList
  | _ => []

/-- The queue, the thread, and the items added and returned so far. -/
structure WorkState (ι : Type) where
  q : Workq ι
  thread : WorkThread ι
  enqueued : List ι
  returned : List ι

/-- One step. An interrupt comes at any time, with an item that has no function or is not linked. -/
inductive WorkStep (fn : ι → Bool) (s : WorkState ι) : WorkState ι → Prop
  | irq (i : ι) (hfree : fn i → ∀ l, s.q.Links l → i ∉ l) : WorkStep fn s { s with
      q := (workqEnqueueFromIrq fn s.q i).2
      enqueued := s.enqueued ++ if (workqEnqueueFromIrq fn s.q i).1 then [i] else [] }
  | call (hs : s.thread = .idle) : WorkStep fn s { s with thread := .called }
  | take (hs : s.thread = .called) :
    WorkStep fn s { s with q := (workqDequeue s.q).2, thread := .returning (workqDequeue s.q).1 }
  | ret (it : Option ι) (hs : s.thread = .returning it) :
    WorkStep fn s { s with thread := .idle, returned := s.returned ++ it.toList }

inductive WorkReach (fn : ι → Bool) : WorkState ι → Prop
  | init (q : Workq ι) : WorkReach fn ⟨workqInit q, .idle, [], []⟩
  | step {s s' : WorkState ι} (h : WorkReach fn s) (hstep : WorkStep fn s s') : WorkReach fn s'

variable {s s' : WorkState ι}

/-- **The invariant.** -/
def WorkState.Fifo (s : WorkState ι) : Prop :=
  ∃ l, s.q.Links l ∧ s.q.tail = l.getLast? ∧ s.returned ++ s.thread.inHand ++ l = s.enqueued

theorem WorkStep.fifo (hstep : WorkStep fn s s') (h : s.Fifo) : s'.Fifo := by
  obtain ⟨l, hq, htail, heq⟩ := h
  cases hstep with
  | irq i hfree =>
    by_cases hfn : fn i
    · obtain ⟨hres, hq', htail'⟩ := hq.enqueue htail hfn (hfree hfn l hq)
      exact ⟨_, hq', htail', by rw [hres, ← heq, ← append_assoc]; rfl⟩
    · have hsame : workqEnqueueFromIrq fn s.q i = (false, s.q) := if_pos (by simp [hfn])
      exact ⟨l, by rwa [hsame], by rwa [hsame], by simpa [hsame] using heq⟩
  | call hs => exact ⟨l, hq, htail, by simpa [hs, WorkThread.inHand] using heq⟩
  | take hs =>
    obtain ⟨hres, hq', htail', -⟩ := hq.dequeue htail
    refine ⟨_, hq', htail', ?_⟩
    rw [hs] at heq
    rw [hres, ← heq]
    cases l <;> simp [WorkThread.inHand]
  | ret it hs => exact ⟨l, hq, htail, by simpa [hs, WorkThread.inHand] using heq⟩

theorem WorkReach.fifo (h : WorkReach fn s) : s.Fifo := by
  induction h with
  | init q => exact ⟨[], .inl ⟨rfl, rfl⟩, rfl, rfl⟩
  | step _ hstep ih => exact hstep.fifo ih

/-- **The deferred work queue is a FIFO.** The items returned, the one about to be returned and
those linked from `head` are the items added, in order; `head` is `NULL` exactly when `tail` is; and
an item just taken off may be added again before `workq_dequeue` returns it. -/
theorem work_queue_fifo (h : WorkReach fn s) : (∃ l, s.q.Links l ∧ s.returned ++ s.thread.inHand ++ l = s.enqueued) ∧
    (s.q.head = none ↔ s.q.tail = none) ∧
    ∀ x, s.thread = .called → (workqDequeue s.q).1 = some x → fn x → ∃ s₁ s₂, WorkStep fn s s₁ ∧
      s₁.thread = .returning (some x) ∧ WorkStep fn s₁ s₂ ∧ s₂.enqueued = s₁.enqueued ++ [x] := by
  obtain ⟨l, hq, htail, heq⟩ := h.fifo
  refine ⟨⟨l, hq, heq⟩, ?_, fun x hs hx hfn ↦ ?_⟩
  · rw [htail, getLast?_eq_none_iff]
    rcases hq with ⟨hnone, rfl⟩ | ⟨a, ha, hl⟩
    · exact iff_of_true hnone rfl
    · simp [ha, hl.ne_nil]
  · obtain ⟨hres, hq', htail', hout⟩ := hq.dequeue htail
    have hfree := hout x (hres ▸ hx)
    refine ⟨_, _, .take hs, by rw [hx], .irq x fun _ l' hl' ↦ hl'.unique hq' ▸ hfree, ?_⟩
    simp [(hq'.enqueue htail' hfn hfree).1]

/-- Items 5 and 7 are added, the second while the thread is in its call, and 5 is returned. -/
theorem work_queue_fifo_one : ∃ s : WorkState ℕ, WorkReach (fun _ ↦ true) s ∧ s.enqueued = [5, 7] ∧ s.returned = [5] ∧
    ∃ l, s.q.Links l ∧ s.returned ++ s.thread.inHand ++ l = s.enqueued := by
  have h : WorkReach (fun _ ↦ true) (⟨workqInit ⟨none, none, fun _ ↦ none⟩, .idle, [], []⟩ : WorkState ℕ) := .init _
  have h₁ := (h.step (.irq 5 fun _ l hl ↦ by simp_all [Workq.Links, workqInit])).step (.call rfl)
  have h₂ := h₁.step (.irq 7 fun _ l hl ↦ by
    obtain ⟨l', hl', -, heq⟩ := h₁.fifo
    rw [hl.unique hl', show l' = [5] from heq]
    decide)
  have h₃ := (h₂.step (.take rfl)).step (.ret (some 5) rfl)
  exact ⟨_, h₃, rfl, rfl, (work_queue_fifo h₃).1⟩

end CapazOS
