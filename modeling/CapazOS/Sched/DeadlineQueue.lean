import Mathlib.Data.Multiset.Range
import Mathlib.Data.Multiset.AddSub
import Mathlib.Logic.Function.Basic

/-!
# The deadline queue

`deadline_queue.c` keeps its items in an unsorted array, looks for the earliest deadline by a linear
scan and removes an item by moving the last one into its slot. **As a multiset the array loses the
item found** (`map_range_swap`).
-/

namespace CapazOS

open Function Multiset

variable {κ : Type*}

def dlqMaxItems : ℕ := 64

/-- `dlq_item_t`; the cookie is opaque. -/
structure DlqItem (κ : Type*) where
  deadline : ℕ
  cookie : κ

/-- `deadline_queue_t`: the slots from `count` on hold whatever was left there. -/
structure DeadlineQueue (κ : Type*) where
  items : ℕ → DlqItem κ
  count : ℕ
  bound : count ≤ dlqMaxItems

/-- The loop of `dlq_find_min_index` up to slot `n`: `best` and `best_deadline`. -/
def dlqScan (items : ℕ → DlqItem κ) : ℕ → ℕ × ℕ
  | 0 => (0, (items 0).deadline)
  | n + 1 =>
    if (items (n + 1)).deadline < (dlqScan items n).2 then (n + 1, (items (n + 1)).deadline) else dlqScan items n

/-- `dlq_find_min_index`; `none` for `-1`. -/
def dlqFindMinIndex (q : DeadlineQueue κ) : Option ℕ :=
  if q.count = 0 then none else some (dlqScan q.items (q.count - 1)).1

def dlqInit (items : ℕ → DlqItem κ) : DeadlineQueue κ := ⟨items, 0, Nat.zero_le _⟩

def dlqPush (q : DeadlineQueue κ) (deadline : ℕ) (cookie : κ) : Bool × DeadlineQueue κ :=
  if h : dlqMaxItems ≤ q.count then (false, q)
  else (true, ⟨update q.items q.count ⟨deadline, cookie⟩, q.count + 1, not_le.1 h⟩)

def dlqPeekNext (q : DeadlineQueue κ) : Option (DlqItem κ) := (dlqFindMinIndex q).map q.items

def dlqPopNext (q : DeadlineQueue κ) : Option (DlqItem κ × DeadlineQueue κ) :=
  (dlqFindMinIndex q).map fun i ↦ (q.items i,
    { items := if i ≠ q.count - 1 then update q.items i (q.items (q.count - 1)) else q.items
      count := q.count - 1
      bound := (Nat.sub_le _ _).trans q.bound })

def DeadlineQueue.held (q : DeadlineQueue κ) : Multiset (DlqItem κ) := (range q.count).map q.items

variable {q q' : DeadlineQueue κ} {x : DlqItem κ} {i n : ℕ}

theorem dlqScan_spec (f : ℕ → DlqItem κ) (n : ℕ) : (dlqScan f n).1 ≤ n ∧
    (dlqScan f n).2 = (f (dlqScan f n).1).deadline ∧ ∀ i ≤ n, (dlqScan f n).2 ≤ (f i).deadline := by
  induction n with
  | zero => exact ⟨le_rfl, rfl, fun i hi ↦ by rw [Nat.le_zero.1 hi]; rfl⟩
  | succ n ih =>
    obtain ⟨hle, heq, hmin⟩ := ih
    rw [dlqScan]
    split
    · next hlt =>
      refine ⟨le_rfl, rfl, fun i hi ↦ ?_⟩
      rcases Nat.le_succ_iff.1 hi with hi | rfl
      · exact hlt.le.trans (hmin i hi)
      · exact le_rfl
    · next hlt =>
      refine ⟨Nat.le_succ_of_le hle, heq, fun i hi ↦ ?_⟩
      rcases Nat.le_succ_iff.1 hi with hi | rfl
      · exact hmin i hi
      · exact not_lt.1 hlt

theorem dlqFindMinIndex_eq_some (h : dlqFindMinIndex q = some i) :
    i < q.count ∧ ∀ k < q.count, (q.items i).deadline ≤ (q.items k).deadline := by
  rw [dlqFindMinIndex, Option.ite_none_left_eq_some] at h
  obtain ⟨hne, rfl⟩ := h.imp_right Option.some.inj
  obtain ⟨hle, heq, hmin⟩ := dlqScan_spec q.items (q.count - 1)
  exact ⟨by omega, fun k hk ↦ heq ▸ hmin k (by omega)⟩

/-- **Moving the last item into a slot removes that slot's item.** -/
theorem map_range_swap {α : Type*} (f : ℕ → α) (hi : i ≤ n) :
    (range (n + 1)).map f = f i ::ₘ (range n).map (if i ≠ n then update f i (f n) else f) := by
  rw [range_succ, map_cons]
  split
  · next hne =>
    have hmem : i ∈ range n := mem_range.2 (lt_of_le_of_ne hi hne)
    have herase : ((range n).erase i).map (update f i (f n)) = ((range n).erase i).map f :=
      map_congr rfl fun k hk ↦ update_of_ne ((nodup_range n).mem_erase_iff.1 hk).1 ..
    rw [← cons_erase hmem, map_cons, map_cons, herase, update_self, cons_swap]
  · next hne => rw [not_not.1 hne]

/-- **A pop takes an earliest item out**, the one that a peek shows. -/
theorem dlqPopNext_spec (h : dlqPopNext q = some (x, q')) :
    q.held = x ::ₘ q'.held ∧ q.count = q'.count + 1 ∧ ∀ y ∈ q.held, x.deadline ≤ y.deadline := by
  obtain ⟨i, hfind, heq⟩ := Option.map_eq_some_iff.1 h
  obtain ⟨rfl, rfl⟩ := Prod.mk.inj heq
  obtain ⟨hi, hmin⟩ := dlqFindMinIndex_eq_some hfind
  obtain ⟨n, hn⟩ : ∃ n, q.count = n + 1 := Nat.exists_eq_succ_of_ne_zero (by omega)
  refine ⟨?_, (Nat.succ_pred (by omega)).symm, fun y hy ↦ ?_⟩
  · simp only [DeadlineQueue.held, hn, Nat.add_sub_cancel]
    exact map_range_swap q.items (by omega)
  · obtain ⟨k, hk, rfl⟩ := mem_map.1 hy
    exact hmin k (mem_range.1 hk)

theorem dlqPopNext_eq_none : dlqPopNext q = none ↔ q.count = 0 := by
  simp [dlqPopNext, dlqFindMinIndex]

theorem held_push {d : ℕ} {c : κ} (h : q.count < dlqMaxItems) :
    (dlqPush q d c).1 = true ∧ (dlqPush q d c).2.held = ⟨d, c⟩ ::ₘ q.held := by
  rw [dlqPush, dif_neg (not_le.2 h)]
  refine ⟨rfl, ?_⟩
  simp only [DeadlineQueue.held, range_succ, map_cons, update_self]
  exact congrArg _ (map_congr rfl fun k hk ↦ update_of_ne (mem_range.1 hk).ne ..)

/-! ### Whole runs -/

inductive DlqOp (κ : Type*) where
  | push (deadline : ℕ) (cookie : κ)
  | peek
  | pop

/-- A queue with what its calls have put in and taken out so far. -/
structure DlqRun (κ : Type*) where
  queue : DeadlineQueue κ
  pushed : Multiset (DlqItem κ)
  popped : Multiset (DlqItem κ)

/-- One call; a peek gets the queue as `const`. -/
def DlqRun.step (r : DlqRun κ) : DlqOp κ → DlqRun κ
  | .push d c =>
    ⟨(dlqPush r.queue d c).2, if (dlqPush r.queue d c).1 then ⟨d, c⟩ ::ₘ r.pushed else r.pushed, r.popped⟩
  | .peek => r
  | .pop =>
    match dlqPopNext r.queue with
    | none => r
    | some (x, q) => ⟨q, r.pushed, x ::ₘ r.popped⟩

def DlqRun.after (items : ℕ → DlqItem κ) (ops : List (DlqOp κ)) : DlqRun κ :=
  ops.foldl step ⟨dlqInit items, 0, 0⟩

theorem DlqRun.step_balance {r : DlqRun κ} (h : r.queue.held + r.popped = r.pushed) (op : DlqOp κ) :
    (r.step op).queue.held + (r.step op).popped = (r.step op).pushed := by
  cases op with
  | push d c =>
    simp only [step]
    by_cases hfull : r.queue.count < dlqMaxItems
    · rw [(held_push hfull).1, (held_push hfull).2, cons_add, h]
      rfl
    · rw [dlqPush, dif_pos (not_lt.1 hfull)]
      exact h
  | peek => exact h
  | pop =>
    rw [step]
    split
    · exact h
    · next x q hpop => rw [← h, (dlqPopNext_spec hpop).1, add_cons, cons_add]

def dlqDrain : ℕ → DeadlineQueue κ → List (DlqItem κ) × DeadlineQueue κ
  | 0, q => ([], q)
  | n + 1, q =>
    match dlqPopNext q with
    | none => ([], q)
    | some (x, q') => (x :: (dlqDrain n q').1, (dlqDrain n q').2)

theorem dlqDrain_spec (n : ℕ) : ∀ {q : DeadlineQueue κ}, q.count = n → (dlqDrain n q).2.count = 0 ∧
    ((dlqDrain n q).1 : Multiset (DlqItem κ)) = q.held ∧
    ((dlqDrain n q).1.map DlqItem.deadline).Pairwise (· ≤ ·) := by
  induction n with
  | zero => exact fun {q} h ↦ ⟨h, by simp [dlqDrain, DeadlineQueue.held, h], List.Pairwise.nil⟩
  | succ n ih =>
    intro q h
    rcases hpop : dlqPopNext q with - | ⟨x, q'⟩
    · rw [dlqPopNext_eq_none.1 hpop] at h
      cases h
    · obtain ⟨hheld, hcount, hmin⟩ := dlqPopNext_spec hpop
      obtain ⟨hzero, hrest, hsorted⟩ := ih (q := q') (by omega)
      simp only [dlqDrain, hpop]
      refine ⟨hzero, by rw [← cons_coe, hrest, hheld], List.pairwise_cons.2 ⟨fun d hd ↦ ?_, hsorted⟩⟩
      obtain ⟨y, hy, rfl⟩ := List.mem_map.1 hd
      refine hmin y ?_
      rw [hheld, ← hrest]
      exact mem_cons_of_mem hy

/-- **The deadline queue is a bounded multiset with minimum extraction.** After any sequence of
calls it holds what was pushed and not popped; a push is refused exactly when it is full; a peek
shows what a pop returns, an item with the least deadline; and popping until the queue is empty
yields all items by deadline. -/
theorem deadline_queue_multiset (items : ℕ → DlqItem κ) (ops : List (DlqOp κ)) :
    let r := DlqRun.after items ops
    r.queue.held + r.popped = r.pushed ∧
    (∀ d c, (dlqPush r.queue d c).1 = false ↔ card r.queue.held = dlqMaxItems) ∧
    dlqPeekNext r.queue = (dlqPopNext r.queue).map Prod.fst ∧
    (dlqPeekNext r.queue = none ↔ r.queue.held = 0) ∧
    (∀ x, dlqPeekNext r.queue = some x → x ∈ r.queue.held ∧ ∀ y ∈ r.queue.held, x.deadline ≤ y.deadline) ∧
    (dlqDrain r.queue.count r.queue).2.held = 0 ∧
    ((dlqDrain r.queue.count r.queue).1 : Multiset (DlqItem κ)) = r.queue.held ∧
    ((dlqDrain r.queue.count r.queue).1.map DlqItem.deadline).Pairwise (· ≤ ·) := by
  intro r
  have hpeek : dlqPeekNext r.queue = (dlqPopNext r.queue).map Prod.fst := by
    rw [dlqPeekNext, dlqPopNext, Option.map_map]
    rfl
  have hzero : ∀ q : DeadlineQueue κ, q.held = 0 ↔ q.count = 0 := fun q ↦ by
    rw [← card_eq_zero, DeadlineQueue.held, card_map, card_range]
  obtain ⟨hcount, hdrain, hsorted⟩ := dlqDrain_spec r.queue.count (q := r.queue) rfl
  refine ⟨?_, fun d c ↦ ?_, hpeek, ?_, fun x hx ↦ ?_, (hzero _).2 hcount, hdrain, hsorted⟩
  · exact List.foldlRecOn (motive := fun r : DlqRun κ ↦ r.queue.held + r.popped = r.pushed) ops DlqRun.step
      (by simp [dlqInit, DeadlineQueue.held]) fun r hr op _ ↦ DlqRun.step_balance hr op
  · rw [DeadlineQueue.held, card_map, card_range]
    by_cases hfull : r.queue.count < dlqMaxItems
    · simp [(held_push hfull).1, hfull.ne]
    · simp [dlqPush, r.queue.bound.antisymm (not_lt.1 hfull)]
  · rw [hpeek, Option.map_eq_none_iff, dlqPopNext_eq_none, hzero]
  · rw [hpeek] at hx
    obtain ⟨⟨y, q'⟩, hpop, rfl⟩ := Option.map_eq_some_iff.1 hx
    obtain ⟨hheld, -, hmin⟩ := dlqPopNext_spec hpop
    exact ⟨hheld ▸ mem_cons_self _ _, hmin⟩

end CapazOS
