import CapazOS.Sched.Queues
import Mathlib.Data.Finset.Insert

/-!
# The run-queue invariant

A run of the scheduler is any sequence of its calls, in which a thread is enqueued at most once.
`SchedInv`: the threads in the queue of an intent have that intent and are `READY`, an enqueued
thread that is `READY` is in a queue, and the current thread is in none. **Between the steps of one
call this does not hold**, so that marking a thread and moving it are treated together
(`QueueInv.insertReady`, `QueueInv.popRunning`).
-/

namespace CapazOS

open List PatternQueues Function

variable {t u cur : Tid} {s : Sched} {q : ReadyQueues}

/-! ### Runs -/

/-- The scheduler with the set of threads that were enqueued. -/
structure SchedSys where
  s : Sched
  enqueued : Finset Tid

def SchedSys.boot : SchedSys := ⟨schedInitBootstrap .bss, ∅⟩

/-- Only threads made by `thread_create` are enqueued, and each of them once. -/
def SchedSys.Allowed (σ : SchedSys) : SchedOp → Prop
  | .enqueue t => t ≠ bootstrapThread ∧ t < σ.s.nextTid ∧ t ∉ σ.enqueued
  | _ => True

def SchedOp.enqueues (enqueued : Finset Tid) : SchedOp → Finset Tid
  | .enqueue t => insert t enqueued
  | _ => enqueued

/-- A call, on the scheduler with the record of enqueued threads. -/
def SchedSys.step (σ : SchedSys) (op : SchedOp) : Except SchedFault (SchedSys × SchedOut) :=
  (σ.s.step op).map fun r ↦ (⟨r.1, op.enqueues σ.enqueued⟩, r.2)

/-- A run: the calls with what they show of their decisions. -/
inductive SchedRun : SchedSys → List (SchedOp × SchedOut) → SchedSys → Prop
  | nil (σ : SchedSys) : SchedRun σ [] σ
  | cons {σ σ₁ σ' : SchedSys} {op : SchedOp} {out : SchedOut} {tr : List (SchedOp × SchedOut)}
      (hallowed : σ.Allowed op) (hstep : σ.step op = .ok (σ₁, out)) (hrest : SchedRun σ₁ tr σ') :
      SchedRun σ ((op, out) :: tr) σ'

/-! ### The invariant -/

/-- The part of the invariant that is about the queues and the threads. -/
structure QueueInv (s : Sched) (q : ReadyQueues) (enq : Finset Tid) : Prop where
  rep : Represents s q
  intent : ∀ i t, t ∈ q.queue i → (s.threads t).schedIntent = i
  queued_ready : ∀ i t, t ∈ q.queue i → (s.threads t).state = .ready
  queued_enq : ∀ i t, t ∈ q.queue i → t ∈ enq
  ready_queued : ∀ t ∈ enq, (s.threads t).state = .ready → ∃ i, t ∈ q.queue i
  blocked_enq : ∀ t, (s.threads t).state = .blocked → t ∈ enq
  boot_not_enq : bootstrapThread ∉ enq
  enq_lt : ∀ t ∈ enq, t < s.nextTid
  next_pos : 0 < s.nextTid

/-- **The run-queue invariant**, with the current thread. -/
structure SchedInv (σ : SchedSys) (q : ReadyQueues) : Prop extends QueueInv σ.s q σ.enqueued where
  current : ∃ cur, σ.s.current = some cur ∧ (∀ i, cur ∉ q.queue i) ∧ (cur = bootstrapThread ∨ cur ∈ σ.enqueued) ∧
    ((σ.s.threads cur).state = .running ∨ (σ.s.threads cur).state = .dead)

theorem schedInv_boot : SchedInv .boot ⟨fun _ ↦ [], 0⟩ where
  rep :=
    { ring := fun _ ↦ rfl
      wf := ⟨fun _ ↦ nodup_nil, fun _ _ _ h ↦ nomatch h⟩
      linked := fun t ht ↦ by
        simp only [SchedSys.boot, schedInitBootstrap, Sched.bss, update_apply, ite_self] at ht
        cases ht
      cursor := rfl
      lt_next := fun _ _ h ↦ nomatch h }
  intent _ _ h := nomatch h
  queued_ready _ _ h := nomatch h
  queued_enq _ _ h := nomatch h
  ready_queued _ h := absurd h (Finset.notMem_empty _)
  blocked_enq t h := by
    simp only [SchedSys.boot, schedInitBootstrap, Sched.bss, update_apply] at h
    split_ifs at h
  boot_not_enq := Finset.notMem_empty _
  enq_lt _ h := absurd h (Finset.notMem_empty _)
  next_pos := Nat.one_pos
  current := ⟨bootstrapThread, rfl, fun _ ↦ not_mem_nil, .inl rfl, .inl rfl⟩

/-! ### Changes of one thread -/

namespace Sched

@[simp] theorem modify_threads_self (s : Sched) (t : Tid) (f : Thread → Thread) :
    (s.modify t f).threads t = f (s.threads t) := update_self ..

theorem modify_threads_of_ne (s : Sched) (h : u ≠ t) (f : Thread → Thread) :
    (s.modify t f).threads u = s.threads u := update_of_ne h ..

@[simp] theorem setState_threads_self (s : Sched) (t : Tid) (st : ThreadState) :
    (s.setState t st).threads t = (s.threads t).setState st := s.modify_threads_self t _

theorem setState_threads_of_ne (s : Sched) (h : u ≠ t) (st : ThreadState) :
    (s.setState t st).threads u = s.threads u := s.modify_threads_of_ne h _

@[simp] theorem setCurrent_threads (s : Sched) (t : Tid) : (s.setCurrent t).threads = s.threads :=
  rfl

/-- Other links and tails, and nothing else. -/
def relink (s : Sched) (next : Tid → Option Tid) (tails : SchedIntent → Option Tid) : Sched :=
  { s with rqNext := next, readyTail := tails }

@[simp] theorem relink_threads (s : Sched) (next : Tid → Option Tid)
    (tails : SchedIntent → Option Tid) : (s.relink next tails).threads = s.threads := rfl

end Sched

namespace QueueInv

variable {enq : Finset Tid}

theorem congr (h : QueueInv s q enq) {s' : Sched} (hrep : Represents s' q)
    (hintent : ∀ i t, t ∈ q.queue i → (s'.threads t).schedIntent = (s.threads t).schedIntent)
    (hqueued : ∀ i t, t ∈ q.queue i → (s'.threads t).state = (s.threads t).state)
    (hready : ∀ t ∈ enq, (s'.threads t).state = .ready → (s.threads t).state = .ready)
    (hblocked : ∀ t, (s'.threads t).state = .blocked → t ∈ enq)
    (hnext : s'.nextTid = s.nextTid) : QueueInv s' q enq where
  rep := hrep
  intent i t ht := (hintent i t ht).trans (h.intent i t ht)
  queued_ready i t ht := (hqueued i t ht).trans (h.queued_ready i t ht)
  queued_enq := h.queued_enq
  ready_queued t ht hst := h.ready_queued t ht (hready t ht hst)
  blocked_enq := hblocked
  boot_not_enq := h.boot_not_enq
  enq_lt t ht := by rw [hnext]; exact h.enq_lt t ht
  next_pos := by rw [hnext]; exact h.next_pos

theorem of_threads_eq (h : QueueInv s q enq) {s' : Sched} (hthreads : s'.threads = s.threads)
    (hlinks : s'.rqNext = s.rqNext) (htail : s'.readyTail = s.readyTail)
    (hcursor : s'.pickCursor = s.pickCursor) (htid : s'.nextTid = s.nextTid) : QueueInv s' q enq :=
  h.congr (h.rep.congr hlinks htail hcursor htid) (fun _ _ _ ↦ by rw [hthreads])
    (fun _ _ _ ↦ by rw [hthreads]) (fun _ _ hst ↦ by rwa [hthreads] at hst)
    (fun t hst ↦ h.blocked_enq t (by rwa [hthreads] at hst)) htid

theorem modify (h : QueueInv s q enq) (t : Tid) {f : Thread → Thread}
    (hintent : (f (s.threads t)).schedIntent = (s.threads t).schedIntent)
    (hstate : (f (s.threads t)).state = (s.threads t).state) : QueueInv (s.modify t f) q enq := by
  have hsame : ∀ u, ((s.modify t f).threads u).schedIntent = (s.threads u).schedIntent ∧
      ((s.modify t f).threads u).state = (s.threads u).state := by
    intro u
    rcases eq_or_ne u t with rfl | hut
    · rw [Sched.modify_threads_self]
      exact ⟨hintent, hstate⟩
    · rw [s.modify_threads_of_ne hut]
      exact ⟨rfl, rfl⟩
  exact h.congr (h.rep.congr rfl rfl rfl rfl) (fun _ u _ ↦ (hsame u).1) (fun _ u _ ↦ (hsame u).2)
    (fun u _ hst ↦ (hsame u).2 ▸ hst) (fun u hst ↦ h.blocked_enq u ((hsame u).2 ▸ hst)) rfl

theorem modify_idle (h : QueueInv s q enq) (ht : ∀ i, t ∉ q.queue i) {f : Thread → Thread}
    (hready : (f (s.threads t)).state = .ready → (s.threads t).state = .ready)
    (hblocked : (f (s.threads t)).state = .blocked → t ∈ enq) : QueueInv (s.modify t f) q enq := by
  have hother : ∀ i u, u ∈ q.queue i → (s.modify t f).threads u = s.threads u := fun i u hu ↦
    s.modify_threads_of_ne (fun heq : u = t ↦ ht i (heq ▸ hu)) f
  refine h.congr (h.rep.congr rfl rfl rfl rfl) (fun i u hu ↦ by rw [hother i u hu])
    (fun i u hu ↦ by rw [hother i u hu]) (fun u _ hst ↦ ?_) (fun u hst ↦ ?_) rfl
  · rcases eq_or_ne u t with rfl | hut
    · rw [Sched.modify_threads_self] at hst
      exact hready hst
    · rwa [s.modify_threads_of_ne hut] at hst
  · rcases eq_or_ne u t with rfl | hut
    · rw [Sched.modify_threads_self] at hst
      exact hblocked hst
    · rw [s.modify_threads_of_ne hut] at hst
      exact h.blocked_enq u hst

/-! ### The pairs of steps -/

/-- **Marking a thread `READY` and putting it into its queue.** -/
theorem insertReady (h : QueueInv s q enq) (ht : ∀ i, t ∉ q.queue i) (hlt : t < s.nextTid)
    (hboot : t ≠ bootstrapThread) :
    (∃ f : SchedFault, f.IsStackCheck ∧ rqInsertTailLocked (s.setState t .ready) t = .error f) ∨
    ∃ next tails, rqInsertTailLocked (s.setState t .ready) t = .ok ((s.setState t .ready).relink next tails) ∧
      QueueInv ((s.setState t .ready).relink next tails)
        (q.step kPickPattern (.push (s.threads t).schedIntent t)).1 (insert t enq) := by
  have hself := s.setState_threads_self t .ready
  have hother : ∀ u, u ≠ t → (s.setState t .ready).threads u = s.threads u :=
    fun u hu ↦ s.setState_threads_of_ne hu .ready
  have hrep : Represents (s.setState t .ready) q := h.rep.congr rfl rfl rfl rfl
  rcases hrep.insertTail (by rw [hself]; rfl) ht hlt with hfault | ⟨next, tails, hok, hrep'⟩
  · exact .inl hfault
  rw [hself] at hrep'
  refine .inr ⟨next, tails, hok, hrep', fun i u hu ↦ ?_, fun i u hu ↦ ?_, fun i u hu ↦ ?_, ?_, ?_, ?_, ?_, h.next_pos⟩
  · rw [Sched.relink_threads]
    rcases (State.mem_push kPickPattern).1 hu with hu | ⟨rfl, rfl⟩
    · rw [hother u fun heq ↦ ht i (heq ▸ hu)]
      exact h.intent i u hu
    · rw [hself]
      rfl
  · rw [Sched.relink_threads]
    rcases (State.mem_push kPickPattern).1 hu with hu | ⟨rfl, rfl⟩
    · rw [hother u fun heq ↦ ht i (heq ▸ hu)]
      exact h.queued_ready i u hu
    · rw [hself]
      rfl
  · rcases (State.mem_push kPickPattern).1 hu with hu | ⟨rfl, rfl⟩
    · exact Finset.mem_insert_of_mem (h.queued_enq i u hu)
    · exact Finset.mem_insert_self ..
  · intro u hu hst
    rcases eq_or_ne u t with rfl | hut
    · exact ⟨_, (State.mem_push kPickPattern).2 (.inr ⟨rfl, rfl⟩)⟩
    · rw [Sched.relink_threads, hother u hut] at hst
      obtain ⟨i, hi⟩ := h.ready_queued u ((Finset.mem_insert.1 hu).resolve_left hut) hst
      exact ⟨i, (State.mem_push kPickPattern).2 (.inl hi)⟩
  · intro u hst
    rcases eq_or_ne u t with rfl | hut
    · exact Finset.mem_insert_self ..
    · rw [Sched.relink_threads, hother u hut] at hst
      exact Finset.mem_insert_of_mem (h.blocked_enq u hst)
  · rw [Finset.mem_insert, not_or]
    exact ⟨Ne.symm hboot, h.boot_not_enq⟩
  · intro u hu
    rcases Finset.mem_insert.1 hu with rfl | hu
    exacts [hlt, h.enq_lt u hu]

/-- The outcome of `sched_pick_next_locked`: nothing is ready, or the thread popped is in no queue
and still marked `READY`. -/
inductive Picked (s : Sched) (q : ReadyQueues) (enq : Finset Tid) (cur : Tid) : Prop where
  | idle (s₁ : Sched) (hpick : schedPickNextLocked s cur = .ok (cur, none, s₁))
      (hthreads : s₁.threads = s.threads) (hframes : s₁.frames = s.frames)
      (hcurrent : s₁.current = s.current) (hnext : s₁.nextTid = s.nextTid)
      (hstep : q.step kPickPattern .pop = (q, []))
      (hempty : ∀ i, q.queue i = []) (hinv : QueueInv s₁ q enq)
  | thread (t : Tid) (s₁ : Sched) (q₁ : ReadyQueues)
      (hpick : schedPickNextLocked s cur = .ok (t, some t, s₁)) (hthreads : s₁.threads = s.threads)
      (hframes : s₁.frames = s.frames) (hcurrent : s₁.current = s.current)
      (hnext : s₁.nextTid = s.nextTid) (hstep : q.step kPickPattern .pop = (q₁, [t]))
      (hq : ∃ i, t ∈ q.queue i) (ht : ∀ i, t ∉ q₁.queue i) (hsub : ∀ i u, u ∈ q₁.queue i → u ∈ q.queue i)
      (hinv : ∀ f : Thread → Thread, (f (s.threads t)).state ≠ .ready → QueueInv (s₁.modify t f) q₁ enq)

/-- **Taking a thread out of its queue**; the invariant is back as soon as its state changes. -/
theorem picked (h : QueueInv s q enq) (cur : Tid) : Picked s q enq cur := by
  obtain ⟨next, tails, hpop, hrep⟩ := h.rep.popBest
  rcases q.step_pop_cases kPickPattern with ⟨hnone, hstep⟩ | ⟨t, q₁, hsome, hstep⟩
  · rw [hstep] at hpop hrep
    refine .idle { s with rqNext := next, readyTail := tails, pickCursor := q.cursor }
      (by simp [schedPickNextLocked, hpop]) rfl rfl rfl rfl hstep
      ?_
      (h.congr hrep (fun _ _ _ ↦ rfl) (fun _ _ _ ↦ rfl) (fun _ _ hst ↦ hst) h.blocked_enq rfl)
    intro i
    by_contra hi
    obtain ⟨u, hu⟩ := exists_mem_of_ne_nil _ hi
    obtain ⟨p, hp⟩ := Represents.exists_place i
    obtain ⟨_, _, _, _, -, hsome, -⟩ := q.pop_of_mem hp hu
    rw [hnone] at hsome
    cases hsome
  · rw [hstep] at hpop hrep
    obtain ⟨hq, hmem⟩ := h.rep.wf.mem_pop hsome
    refine .thread t { s with rqNext := next, readyTail := tails, pickCursor := q₁.cursor } q₁
      (by simp [schedPickNextLocked, hpop]) rfl rfl rfl rfl
      hstep hq (fun i ht ↦ ((hmem i t).1 ht).2 rfl) (fun i u hu ↦ ((hmem i u).1 hu).1) fun f hf ↦ ?_
    generalize hs₁ : ({ s with rqNext := next, readyTail := tails, pickCursor := q₁.cursor } : Sched) = s₁ at hrep
    have hthreads : s₁.threads = s.threads := by rw [← hs₁]
    have hnext : s₁.nextTid = s.nextTid := by rw [← hs₁]
    have hother : ∀ u, u ≠ t → (s₁.modify t f).threads u = s.threads u := fun u hu ↦ by
      rw [s₁.modify_threads_of_ne hu, hthreads]
    refine ⟨hrep.congr rfl rfl rfl rfl, fun i u hu ↦ ?_, fun i u hu ↦ ?_, fun i u hu ↦ ?_,
      fun u hu hst ↦ ?_, fun u hst ↦ ?_, h.boot_not_enq, fun u hu ↦ ?_, ?_⟩
    · rw [hother u ((hmem i u).1 hu).2]
      exact h.intent i u ((hmem i u).1 hu).1
    · rw [hother u ((hmem i u).1 hu).2]
      exact h.queued_ready i u ((hmem i u).1 hu).1
    · exact h.queued_enq i u ((hmem i u).1 hu).1
    · rcases eq_or_ne u t with rfl | hut
      · rw [Sched.modify_threads_self, hthreads] at hst
        exact absurd hst hf
      · rw [hother u hut] at hst
        obtain ⟨i, hi⟩ := h.ready_queued u hu hst
        exact ⟨i, (hmem i u).2 ⟨hi, hut⟩⟩
    · rcases eq_or_ne u t with rfl | hut
      · obtain ⟨i, hi⟩ := hq
        exact h.queued_enq i u hi
      · rw [hother u hut] at hst
        exact h.blocked_enq u hst
    · show u < s₁.nextTid
      rw [hnext]
      exact h.enq_lt u hu
    · show 0 < s₁.nextTid
      rw [hnext]
      exact h.next_pos

end QueueInv

/-! ### What the calls do to the queues -/

def requeueEvents (s : Sched) (t : Tid) : List (Event SchedIntent Tid) :=
  if t ≠ bootstrapThread ∧ (s.threads t).state = .running then [.push (s.threads t).schedIntent t]
  else []

/-- The events of a call that gives up the processor. -/
def dispatchEvents (s : Sched) : List (Event SchedIntent Tid) :=
  match s.current with
  | none => []
  | some cur => requeueEvents s cur ++ [.pop]

/-- **The queue events of a call.** -/
def SchedOp.events (s : Sched) : SchedOp → List (Event SchedIntent Tid)
  | .enqueue t => if (s.threads t).state = .dead then [] else [.push (s.threads t).schedIntent t]
  | .yield _ => dispatchEvents s
  | .blockCurrent _ => [.pop]
  | .wake t => if (s.threads t).state = .blocked then [.push (s.threads t).schedIntent t] else []
  | .setIntent t raw =>
    if (s.threads t).schedIntent = schedIntentSanitize raw then []
    else if (s.threads t).state = .ready ∧ (s.rqNext t).isSome then
      [.erase (s.threads t).schedIntent t, .push (schedIntentSanitize raw) t]
    else []
  | .irqExit _ _ => if s.needResched = false ∨ s.preemptCount ≠ 0 then [] else dispatchEvents s
  | _ => []

/-! ### Giving up the processor -/

structure Stays (s s' : Sched) (cur : Tid) : Prop where
  current : s'.current = some cur
  state : (s'.threads cur).state = .running
  others : ∀ u, u ≠ cur → s'.threads u = s.threads u
  frames : ∀ u, u ≠ cur → s'.frames u = s.frames u
  next : s'.nextTid = s.nextTid

/-- The processor passes from `cur` to `t`. -/
structure Switches (s s' : Sched) (cur t : Tid) (st : ThreadState) : Prop where
  ne : t ≠ cur
  current : s'.current = some t
  state_next : (s'.threads t).state = .running
  state_cur : (s'.threads cur).state = st
  others : ∀ u, u ≠ cur → u ≠ t → s'.threads u = s.threads u
  frames : ∀ u, u ≠ cur → s'.frames u = s.frames u
  next : s'.nextTid = s.nextTid

/-- The state in which `yield` and `sched_irq_exit` leave the thread that gives up the processor. -/
def leavingState (s : Sched) (cur : Tid) : ThreadState :=
  if cur ≠ bootstrapThread ∧ (s.threads cur).state = .running then .ready else (s.threads cur).state

namespace QueueInv

variable {enq : Finset Tid}

theorem requeue (h : QueueInv s q enq) (hcur : ∀ i, cur ∉ q.queue i) (hknown : cur = bootstrapThread ∨ cur ∈ enq) :
    (∃ f : SchedFault, f.IsStackCheck ∧ requeueRunning s cur = .error f) ∨
    ∃ s₁ q₁, requeueRunning s cur = .ok s₁ ∧ q.run kPickPattern (requeueEvents s cur) = (q₁, []) ∧
      q.RunValid kPickPattern (requeueEvents s cur) ∧ QueueInv s₁ q₁ enq ∧
      s₁.current = s.current ∧ s₁.nextTid = s.nextTid ∧ s₁.frames = s.frames ∧
      (∀ u, u ≠ cur → s₁.threads u = s.threads u) ∧
      s₁.threads cur = (s.threads cur).setState (leavingState s cur) ∧
      ((s.threads cur).state = .running ∨ q₁ = q) ∧
      (∀ i u, u ≠ cur → u ∈ q₁.queue i → u ∈ q.queue i) := by
  unfold requeueRunning requeueEvents leavingState
  by_cases hrun : cur ≠ bootstrapThread ∧ (s.threads cur).state = .running
  · simp only [if_pos hrun]
    have henq : cur ∈ enq := hknown.resolve_left hrun.1
    rcases h.insertReady hcur (h.enq_lt cur henq) hrun.1 with hfault | ⟨next, tails, hok, hinv⟩
    · exact .inl hfault
    rw [Finset.insert_eq_of_mem henq] at hinv
    refine .inr ⟨_, _, hok, rfl, ⟨hcur, trivial⟩, hinv, rfl, rfl, rfl, fun u hu ↦ ?_, ?_,
      .inl hrun.2, fun i u hu hmem ↦ ?_⟩
    · rw [Sched.relink_threads, s.setState_threads_of_ne hu]
    · rw [Sched.relink_threads, s.setState_threads_self]
    · exact ((State.mem_push kPickPattern).1 hmem).resolve_right fun hp ↦ hu hp.2
  · simp only [if_neg hrun]
    exact .inr ⟨s, q, rfl, rfl, trivial, h, rfl, rfl, rfl, fun _ _ ↦ rfl, rfl, .inr rfl, fun _ _ _ hu ↦ hu⟩

/-- The processor is handed over to `t`; the thread that gives it up changes by `f`. -/
def handOver (s : Sched) (cur t : Tid) (f : Thread → Thread) : Sched :=
  ((schedPrepareRunningLocked s t).setCurrent t).modify cur f

theorem handOver_threads_next (s : Sched) (h : t ≠ cur) (f : Thread → Thread) :
    ((handOver s cur t f).threads t).state = .running := by
  rw [handOver, Sched.modify_threads_of_ne _ h, Sched.setCurrent_threads, schedPrepareRunningLocked,
    Sched.modify_threads_self]
  rfl

theorem handOver_threads_cur (s : Sched) (h : t ≠ cur) (f : Thread → Thread) :
    (handOver s cur t f).threads cur = f (s.threads cur) := by
  rw [handOver, Sched.modify_threads_self, Sched.setCurrent_threads, schedPrepareRunningLocked,
    Sched.modify_threads_of_ne _ h.symm]

theorem handOver_threads_of_ne (s : Sched) (hu : u ≠ cur) (hut : u ≠ t) (f : Thread → Thread) :
    (handOver s cur t f).threads u = s.threads u := by
  rw [handOver, Sched.modify_threads_of_ne _ hu, Sched.setCurrent_threads,
    schedPrepareRunningLocked, Sched.modify_threads_of_ne _ hut]

/-- The outcome of the pick after the current thread left or was put back (`s₁`): it goes on, or the
processor is handed over to a thread that was ready. -/
inductive Dispatched (s s₁ : Sched) (q : ReadyQueues) (enq : Finset Tid) (cur : Tid)
    (evs : List (Event SchedIntent Tid)) : Prop where
  | stay (s₂ : Sched) (q' : ReadyQueues) (popped : Option Tid)
      (hpick : schedPickNextLocked s₁ cur = .ok (cur, popped, s₂)) (hpop : ∀ t ∈ popped, t = cur)
      (hrun : q.run kPickPattern (evs ++ [.pop]) = (q', popped.toList))
      (hidle : (s.threads cur).state = .running ∨ ∀ i, q.queue i = [])
      (hstay : ∀ f : Thread → Thread, (f (s₁.threads cur)).state = .running →
        SchedInv ⟨s₂.modify cur f, enq⟩ q' ∧ Stays s (s₂.modify cur f) cur)
  | switch (s₂ : Sched) (q' : ReadyQueues) (t : Tid) (hne : t ≠ cur)
      (hpick : schedPickNextLocked s₁ cur = .ok (t, some t, s₂))
      (hthreads : s₂.threads = s₁.threads) (hframes : s₂.frames = s₁.frames)
      (hrun : q.run kPickPattern (evs ++ [.pop]) = (q', [t])) (hq : ∃ i, t ∈ q.queue i)
      (hswitch : ∀ f : Thread → Thread, (f (s₁.threads cur)).schedIntent = (s₁.threads cur).schedIntent →
        (f (s₁.threads cur)).state = (s₁.threads cur).state →
        SchedInv ⟨handOver s₂ cur t f, enq⟩ q' ∧ Switches s (handOver s₂ cur t f) cur t (s₁.threads cur).state)

theorem dispatched {s₁ : Sched} {q₁ : ReadyQueues} {evs : List (Event SchedIntent Tid)}
    (hrun : q.run kPickPattern evs = (q₁, [])) (hinv : QueueInv s₁ q₁ enq) (hcurrent : s₁.current = some cur)
    (hnext : s₁.nextTid = s.nextTid) (hcur : ∀ i, cur ∉ q.queue i)
    (hknown : cur = bootstrapThread ∨ cur ∈ enq) (hothers : ∀ u, u ≠ cur → s₁.threads u = s.threads u)
    (hframes : ∀ u, u ≠ cur → s₁.frames u = s.frames u)
    (hsub : ∀ i u, u ≠ cur → u ∈ q₁.queue i → u ∈ q.queue i)
    (hidle : (s.threads cur).state = .running ∨ q₁ = q) : Dispatched s s₁ q enq cur evs := by
  have happend : ∀ q' l, q₁.step kPickPattern .pop = (q', l) →
      q.run kPickPattern (evs ++ [.pop]) = (q', l) := fun q' l hstep ↦ by
    rw [State.run_append, hrun]
    simp [State.run, hstep]
  have hstays : ∀ (s₂ : Sched) (f : Thread → Thread), s₂.threads = s₁.threads →
      s₂.frames = s₁.frames → s₂.current = s₁.current → s₂.nextTid = s₁.nextTid →
      (f (s₁.threads cur)).state = .running → Stays s (s₂.modify cur f) cur := by
    intro s₂ f ht hf hc hn hst
    refine ⟨hc.trans hcurrent, ?_, fun u hu ↦ ?_, fun u hu ↦ (congrFun hf u).trans (hframes u hu), hn.trans hnext⟩
    · rw [Sched.modify_threads_self, ht, hst]
    · rw [Sched.modify_threads_of_ne _ hu, ht, hothers u hu]
  cases hinv.picked cur with
  | idle s₂ hpick hthreads hfr hcur₂ hnext₂ hstep hempty hinv₂ =>
    refine .stay s₂ q₁ none hpick (by simp) (happend q₁ [] hstep) ?_ fun f hf ↦
      ⟨⟨hinv₂.modify_idle (fun i ↦ by rw [hempty i]; exact not_mem_nil) ?_ ?_, cur,
        hcur₂.trans hcurrent, fun i ↦ ?_, hknown, .inl ?_⟩, hstays s₂ f hthreads hfr hcur₂ hnext₂ hf⟩
    · exact hidle.imp_right fun heq i ↦ by rw [← heq, hempty i]
    · simp [hthreads, hf]
    · simp [hthreads, hf]
    · rw [hempty i]
      exact not_mem_nil
    · exact (hstays s₂ f hthreads hfr hcur₂ hnext₂ hf).state
  | thread t s₂ q₂ hpick hthreads hfr hcur₂ hnext₂ hstep hq ht hsub₂ hinv₂ =>
    obtain ⟨i, hi⟩ := hq
    rcases eq_or_ne t cur with rfl | hne
    · refine .stay s₂ q₂ (some t) hpick (fun _ h ↦ (Option.some.inj h).symm) (happend q₂ [t] hstep) ?_ fun f hf ↦
        ⟨⟨hinv₂ f (by simp [hf]), t, hcur₂.trans hcurrent, ht, hknown, .inl ?_⟩,
          hstays s₂ f hthreads hfr hcur₂ hnext₂ hf⟩
      · refine .inl (hidle.resolve_right fun heq ↦ ?_)
        rw [heq] at hi
        exact hcur i hi
      · exact (hstays s₂ f hthreads hfr hcur₂ hnext₂ hf).state
    · refine .switch s₂ q₂ t hne hpick hthreads hfr (happend q₂ [t] hstep) ⟨i, hsub i t hne hi⟩
        fun f hint hst ↦ ⟨⟨?_, t, rfl, ht, .inr (hinv.queued_enq i t hi),
          .inl (handOver_threads_next s₂ hne f)⟩, hne, rfl, handOver_threads_next s₂ hne f, ?_,
          fun u hu hut ↦ ?_, fun u hu ↦ (congrFun hfr u).trans (hframes u hu), hnext₂.trans hnext⟩
      · have hprep : QueueInv (schedPrepareRunningLocked s₂ t) q₂ enq := hinv₂ _ (by rintro ⟨⟩)
        have hsame : ((schedPrepareRunningLocked s₂ t).setCurrent t).threads cur = s₁.threads cur := by
          rw [Sched.setCurrent_threads, schedPrepareRunningLocked, Sched.modify_threads_of_ne _ hne.symm, hthreads]
        have hset : QueueInv ((schedPrepareRunningLocked s₂ t).setCurrent t) q₂ enq :=
          hprep.of_threads_eq rfl rfl rfl rfl rfl
        exact hset.modify cur (by rw [hsame, hint]) (by rw [hsame, hst])
      · rw [handOver_threads_cur s₂ hne, hthreads, hst]
      · rw [handOver_threads_of_ne s₂ hu hut, hthreads, hothers u hu]

end QueueInv

/-- How a thread gives up the processor. -/
inductive Mechanism where
  | coop (regs : Ctx)
  | irq (tf : ℕ) (frame : TrapFrame)

/-- What is recorded of the thread that gives up the processor, and what the next one is resumed
from. -/
def Mechanism.Records (s s' : Sched) (cur t : Tid) (saved : Saved) : Mechanism → Prop
  | .coop regs => saved = .ctx (s.threads t).ctx ∧ (s'.threads cur).ctx = regs
  | .irq tf frame => saved = .frame (s.frames t (s.threads t).irqSp) ∧
    (cur ≠ bootstrapThread → (s.threads cur).state = .running → (s'.threads cur).irqSp = tf ∧ s'.frames cur tf = frame)

/-- **The outcome of a call that gives up the processor.** -/
inductive GaveUp (σ : SchedSys) (q : ReadyQueues) (cur : Tid) (st : ThreadState)
    (evs : List (Event SchedIntent Tid)) (m : Mechanism)
    (r : Except SchedFault (Sched × SchedOut)) : Prop where
  | fault (f : SchedFault) (hf : f.IsStackCheck ∨ f = .nextIrqSpNull) (hr : r = .error f)
  | stay (s' : Sched) (q' : ReadyQueues) (popped : Option Tid) (hr : r = .ok (s', ⟨popped, none⟩))
      (hpop : ∀ t ∈ popped, t = cur)
      (hrun : q.run kPickPattern evs = (q', popped.toList)) (hvalid : q.RunValid kPickPattern evs)
      (hidle : (σ.s.threads cur).state = .running ∨ ∀ i, q.queue i = [])
      (hinv : SchedInv ⟨s', σ.enqueued⟩ q') (hstay : Stays σ.s s' cur)
  | switch (s' : Sched) (q' : ReadyQueues) (t : Tid) (saved : Saved)
      (hr : r = .ok (s', ⟨some t, some (t, saved)⟩)) (hrun : q.run kPickPattern evs = (q', [t]))
      (hvalid : q.RunValid kPickPattern evs) (hq : ∃ i, t ∈ q.queue i)
      (hinv : SchedInv ⟨s', σ.enqueued⟩ q') (hswitch : Switches σ.s s' cur t st)
      (hrec : m.Records σ.s s' cur t saved)

namespace SchedInv

variable {σ : SchedSys}

theorem of_current (h : SchedInv σ q) (hcurrent : σ.s.current = some cur) : (∀ i, cur ∉ q.queue i) ∧
    (cur = bootstrapThread ∨ cur ∈ σ.enqueued) ∧
    ((σ.s.threads cur).state = .running ∨ (σ.s.threads cur).state = .dead) := by
  obtain ⟨cur', hcur', h⟩ := h.current
  obtain rfl := Option.some.inj (hcurrent.symm.trans hcur')
  exact h

theorem rqNext_current (h : SchedInv σ q) (hcur : ∀ i, cur ∉ q.queue i) : (σ.s.rqNext cur).isSome = false := by
  rw [Bool.eq_false_iff]
  intro hsome
  obtain ⟨i, hi⟩ := h.rep.linked cur hsome
  exact hcur i hi

theorem runValid_pop {evs : List (Event SchedIntent Tid)} (h : q.RunValid kPickPattern evs) :
    q.RunValid kPickPattern (evs ++ [.pop]) := State.runValid_append.2 ⟨h, trivial, trivial⟩

theorem yield (h : SchedInv σ q) (hcurrent : σ.s.current = some cur) (regs : Ctx) :
    GaveUp σ q cur (leavingState σ.s cur) (dispatchEvents σ.s) (.coop regs) (CapazOS.yield σ.s regs) := by
  obtain ⟨hout, hknown, -⟩ := h.of_current hcurrent
  have hq : QueueInv (preemptClearNeedResched σ.s) q σ.enqueued := h.of_threads_eq rfl rfl rfl rfl rfl
  have hevs : dispatchEvents σ.s = requeueEvents (preemptClearNeedResched σ.s) cur ++ [.pop] := by
    simp only [dispatchEvents, hcurrent]
    rfl
  simp only [CapazOS.yield, hcurrent, h.rqNext_current hout, hevs, Bool.false_eq_true, if_false]
  rcases hq.requeue hout hknown with ⟨f, hf, herr⟩ | ⟨s₁, q₁, hok, hrun, hvalid, hinv, hc, hn, hfr,
    hothers, hself, hidle, hsub⟩
  · exact .fault f (.inl hf) (by simp only [herr])
  simp only [hok]
  have hst : leavingState (preemptClearNeedResched σ.s) cur = leavingState σ.s cur := rfl
  have hdone := QueueInv.dispatched (s := σ.s) hrun hinv (hc.trans hcurrent) hn hout hknown hothers
    (fun u _ ↦ congrFun hfr u) hsub hidle
  cases hdone with
  | stay s₂ q' popped hpick hpop hrun' hidle' hstay =>
    obtain ⟨hinv', hstays⟩ := hstay Thread.prepareRunning rfl
    exact .stay _ q' popped (by simp only [hpick]; rfl) hpop hrun' (runValid_pop hvalid) hidle' hinv' hstays
  | switch s₂ q' t hne hpick hthreads hframes hrun' hq' hswitch =>
    obtain ⟨hinv', hsw⟩ := hswitch (fun th ↦ { th with ctx := regs }) rfl rfl
    rw [hself, hst] at hsw
    refine .switch _ q' t _ (by simp only [hpick, hne]; rfl) hrun' (runValid_pop hvalid) hq' hinv' hsw ⟨?_, ?_⟩
    · rw [hthreads, hothers t hne]
      rfl
    · exact congrArg Thread.ctx (QueueInv.handOver_threads_cur s₂ hne _)

/-- **`sched_block_current`**, of a thread other than the bootstrap thread. -/
theorem blockCurrent (h : SchedInv σ q) (hcurrent : σ.s.current = some cur) (hboot : cur ≠ bootstrapThread)
    (regs : Ctx) : GaveUp σ q cur .blocked [.pop] (.coop regs) (schedBlockCurrent σ.s regs) := by
  obtain ⟨hout, hknown, -⟩ := h.of_current hcurrent
  have henq : cur ∈ σ.enqueued := hknown.resolve_left hboot
  have hinv : QueueInv (σ.s.setState cur .blocked) q σ.enqueued := h.modify_idle hout nofun fun _ ↦ henq
  have hself := σ.s.setState_threads_self cur .blocked
  have hdone := QueueInv.dispatched (s := σ.s) (show q.run kPickPattern [] = (q, []) from rfl) hinv hcurrent rfl
    hout hknown
    (fun u hu ↦ σ.s.setState_threads_of_ne hu _) (fun _ _ ↦ rfl) (fun _ _ _ hu ↦ hu) (.inr rfl)
  simp only [schedBlockCurrent, hcurrent, h.rqNext_current hout, Bool.false_eq_true, if_false, hboot]
  cases hdone with
  | stay s₁ q' popped hpick hpop hrun hidle hstay =>
    obtain ⟨hinv', hstays⟩ := hstay (·.setState .running) rfl
    exact .stay _ q' popped (by simp only [hpick]; rfl) hpop hrun ⟨trivial, trivial⟩ hidle hinv' hstays
  | switch s₁ q' t hne hpick hthreads hframes hrun hq hswitch =>
    obtain ⟨hinv', hsw⟩ := hswitch (fun th ↦ { th with ctx := regs }) rfl rfl
    rw [hself] at hsw
    refine .switch _ q' t _ (by simp only [hpick, hne]; rfl) hrun ⟨trivial, trivial⟩ hq hinv' hsw ⟨?_, ?_⟩
    · rw [hthreads, σ.s.setState_threads_of_ne hne]
    · exact congrArg Thread.ctx (QueueInv.handOver_threads_cur s₁ hne _)

/-- The state in which `sched_irq_exit` puts the current thread back. -/
structure FrameRecorded (s s₀ : Sched) (cur : Tid) (tf : ℕ) (frame : TrapFrame) : Prop where
  others : ∀ u, u ≠ cur → s₀.threads u = s.threads u
  frames : ∀ u, u ≠ cur → s₀.frames u = s.frames u
  frame : s₀.frames cur tf = frame
  intent : (s₀.threads cur).schedIntent = (s.threads cur).schedIntent
  state : (s₀.threads cur).state = (s.threads cur).state
  irqSp : cur ≠ bootstrapThread → (s.threads cur).state = .running → (s₀.threads cur).irqSp = tf
  next : s₀.nextTid = s.nextTid

theorem frameRecorded (h : SchedInv σ q) (hcurrent : σ.s.current = some cur) (tf : ℕ) (frame : TrapFrame)
    {s₀ : Sched} (hs₀ : recordIrqSp (preemptClearNeedResched (pushFrame σ.s cur tf frame)) cur tf = s₀) :
    QueueInv s₀ q σ.enqueued ∧ s₀.current = some cur ∧ FrameRecorded σ.s s₀ cur tf frame := by
  have hinv : QueueInv (preemptClearNeedResched (pushFrame σ.s cur tf frame)) q σ.enqueued :=
    h.of_threads_eq rfl rfl rfl rfl rfl
  have hfr : ∀ u, u ≠ cur → (pushFrame σ.s cur tf frame).frames u = σ.s.frames u := fun u hu ↦ update_of_ne hu ..
  have hself : (pushFrame σ.s cur tf frame).frames cur tf = frame := by simp [pushFrame]
  rw [← hs₀]
  unfold recordIrqSp
  split_ifs with hrun
  · refine ⟨hinv.modify cur rfl rfl, hcurrent, fun u hu ↦ Sched.modify_threads_of_ne _ hu _, hfr,
      hself, ?_, ?_, fun _ _ ↦ ?_, rfl⟩
    all_goals rw [Sched.modify_threads_self]
    all_goals rfl
  · exact ⟨hinv, hcurrent, fun _ _ ↦ rfl, hfr, hself, rfl, rfl, fun hb hst ↦ absurd ⟨hb, hst⟩ hrun, rfl⟩

theorem irqExit (h : SchedInv σ q) (hcurrent : σ.s.current = some cur) {tf : ℕ} (htf : tf ≠ 0)
    (hneed : σ.s.needResched = true) (hcount : σ.s.preemptCount = 0) (frame : TrapFrame) :
    GaveUp σ q cur (leavingState σ.s cur) (dispatchEvents σ.s) (.irq tf frame) (schedIrqExit σ.s tf frame) := by
  obtain ⟨hout, hknown, -⟩ := h.of_current hcurrent
  generalize hs₀ : recordIrqSp (preemptClearNeedResched (pushFrame σ.s cur tf frame)) cur tf = s₀
  obtain ⟨hq, hcur₀, hrec⟩ := h.frameRecorded hcurrent tf frame hs₀
  have hevs : dispatchEvents σ.s = requeueEvents s₀ cur ++ [.pop] := by
    simp only [dispatchEvents, hcurrent, requeueEvents, hrec.state, hrec.intent]
  have hst : leavingState s₀ cur = leavingState σ.s cur := by simp only [leavingState, hrec.state]
  simp only [schedIrqExit, hcurrent, h.rqNext_current hout, hevs, Bool.false_eq_true, if_false, htf,
    hneed, hcount, hs₀, not_true, or_self, Bool.true_eq_false, ne_eq]
  rcases hq.requeue hout hknown with ⟨f, hf, herr⟩ | ⟨s₁, q₁, hok, hrun, hvalid, hinv, hc, hn, hfr,
    hothers, hself, hidle, hsub⟩
  · exact .fault f (.inl hf) (by simp only [herr])
  simp only [hok]
  have hdone := QueueInv.dispatched (s := σ.s) hrun hinv (hc.trans hcur₀) (hn.trans hrec.next) hout hknown
    (fun u hu ↦ (hothers u hu).trans (hrec.others u hu))
    (fun u hu ↦ (congrFun hfr u).trans (hrec.frames u hu)) hsub
    (hrec.state ▸ hidle)
  cases hdone with
  | stay s₂ q' popped hpick hpop hrun' hidle' hstay =>
    obtain ⟨hinv', hstays⟩ := hstay Thread.prepareRunning rfl
    exact .stay _ q' popped (by simp only [hpick]; rfl) hpop hrun' (runValid_pop hvalid) hidle' hinv' hstays
  | switch s₂ q' t hne hpick hthreads hframes hrun' hq' hswitch =>
    obtain ⟨hinv', hsw⟩ := hswitch (fun th ↦ { th with
      preemptions := if cur ≠ bootstrapThread then th.preemptions + 1 else th.preemptions }) rfl rfl
    rw [hself] at hsw
    by_cases hsp : (s₂.threads t).irqSp = 0
    · exact .fault .nextIrqSpNull (.inr rfl) (by simp only [hpick, hne, hsp]; rfl)
    refine .switch _ q' t _ (by simp only [hpick, hne, hsp]; rfl) hrun' (runValid_pop hvalid) hq' hinv'
      (hst ▸ hsw) ⟨?_, fun hb hr ↦ ⟨?_, ?_⟩⟩
    · rw [hframes, hfr, hrec.frames t hne, hthreads, hothers t hne, hrec.others t hne]
    · refine (congrArg Thread.irqSp (QueueInv.handOver_threads_cur s₂ hne _)).trans ?_
      rw [hthreads, hself]
      exact hrec.irqSp hb hr
    · show s₂.frames cur tf = frame
      rw [hframes, hfr, hrec.frame]

end SchedInv

end CapazOS
