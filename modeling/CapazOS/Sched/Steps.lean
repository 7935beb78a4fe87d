import CapazOS.Sched.Invariant

/-!
# Every call of the scheduler

`SchedInv.outcome` says once, for every call of the scheduler, what it can do: end in one of the
panics about stacks, frames and the preemption count, keep the current thread and change at most one
queue, or give up the processor (`GaveUp`). **Runs** inherit this by induction (`SchedRun.outcome`).
-/

namespace CapazOS

open PatternQueues LinkRing Function

variable {t : Tid} {s' : Sched} {op : SchedOp} {σ' σ : SchedSys} {tr : List (SchedOp × SchedOut)} {q : ReadyQueues}

/-! ### Calls that keep the current thread -/

namespace QueueInv

variable {s : Sched} {enq : Finset Tid}

theorem modify_unqueued (h : QueueInv s q enq) (ht : ∀ i, t ∉ q.queue i) {f : Thread → Thread}
    (hstate : (f (s.threads t)).state = (s.threads t).state) : QueueInv (s.modify t f) q enq :=
  h.modify_idle ht hstate.symm.trans fun hst ↦ h.blocked_enq t (hstate.symm.trans hst)

theorem create (h : QueueInv s q enq) (img : ThreadImage) : QueueInv (threadCreate s img) q enq := by
  have hnew : ∀ u, u < s.nextTid → (threadCreate s img).threads u = s.threads u := fun u hu ↦ update_of_ne hu.ne ..
  have hlink : ∀ u, u < s.nextTid → (threadCreate s img).rqNext u = s.rqNext u := fun u hu ↦ update_of_ne hu.ne ..
  refine ⟨⟨fun i ↦ (h.rep.ring i).congr fun u hu ↦ hlink u (h.rep.lt_next i u hu), h.rep.wf,
    fun u hu ↦ ?_, h.rep.cursor, fun i u hu ↦ Nat.lt_succ_of_lt (h.rep.lt_next i u hu)⟩,
    fun i u hu ↦ ?_, fun i u hu ↦ ?_, h.queued_enq, fun u hu hst ↦ ?_, fun u hst ↦ ?_, h.boot_not_enq,
    fun u hu ↦ Nat.lt_succ_of_lt (h.enq_lt u hu), Nat.succ_pos _⟩
  · rcases eq_or_ne u s.nextTid with rfl | hne
    · simp only [threadCreate, update_self, Option.isSome_none, Bool.false_eq_true] at hu
    · simp only [threadCreate, update_of_ne hne] at hu
      exact h.rep.linked u hu
  · rw [hnew u (h.rep.lt_next i u hu)]
    exact h.intent i u hu
  · rw [hnew u (h.rep.lt_next i u hu)]
    exact h.queued_ready i u hu
  · rw [hnew u (h.enq_lt u hu)] at hst
    exact h.ready_queued u hu hst
  · rcases eq_or_ne u s.nextTid with rfl | hne
    · simp only [threadCreate, update_self, reduceCtorEq] at hst
    · simp only [threadCreate, update_of_ne hne] at hst
      exact h.blocked_enq u hst

theorem insert_dead (h : QueueInv s q enq) (hdead : (s.threads t).state = .dead) (hboot : t ≠ bootstrapThread)
    (hlt : t < s.nextTid) : QueueInv s q (insert t enq) where
  rep := h.rep
  intent := h.intent
  queued_ready := h.queued_ready
  queued_enq i u hu := Finset.mem_insert_of_mem (h.queued_enq i u hu)
  ready_queued u hu hst := by
    rcases Finset.mem_insert.1 hu with rfl | hu
    · rw [hdead] at hst
      cases hst
    · exact h.ready_queued u hu hst
  blocked_enq u hst := Finset.mem_insert_of_mem (h.blocked_enq u hst)
  boot_not_enq hmem := (Finset.mem_insert.1 hmem).elim (fun h' ↦ hboot h'.symm) h.boot_not_enq
  enq_lt u hu := by
    rcases Finset.mem_insert.1 hu with rfl | hu
    exacts [hlt, h.enq_lt u hu]
  next_pos := h.next_pos

theorem requeueIntent (h : QueueInv s q enq) {i : SchedIntent} (ht : t ∈ q.queue i) (j : SchedIntent) :
    ∃ s₁, rqRemoveLocked s t = .ok (true, s₁) ∧ ((∃ f : SchedFault, f.IsStackCheck ∧
        rqInsertTailLocked (s₁.modify t (·.setIntent j)) t = .error f) ∨
      ∃ next tails, rqInsertTailLocked (s₁.modify t (·.setIntent j)) t =
          .ok ((s.modify t (·.setIntent j)).relink next tails) ∧
        QueueInv ((s.modify t (·.setIntent j)).relink next tails)
          (q.run kPickPattern [.erase i t, .push j t]).1 enq) := by
  obtain ⟨next, tails, hremove, hrep⟩ := h.rep.remove ht
  have hself : (s.modify t (·.setIntent j)).threads t = (s.threads t).setIntent j := s.modify_threads_self t _
  have hother : ∀ u, u ≠ t → (s.modify t (·.setIntent j)).threads u = s.threads u := fun u hu ↦
    s.modify_threads_of_ne hu _
  have hgone : ∀ c, t ∉ (q.step kPickPattern (.erase i t)).1.queue c := fun c hc ↦ by
    obtain ⟨hc, hne⟩ := (h.rep.wf.mem_erase kPickPattern).1 hc
    exact hne ⟨h.rep.wf.disjoint c i t hc ht, rfl⟩
  have hrep₁ : Represents ((s.relink next tails).modify t (·.setIntent j))
      (q.step kPickPattern (.erase i t)).1 := hrep.congr rfl rfl rfl rfl
  refine ⟨s.relink next tails, hremove, ?_⟩
  rcases hrep₁.insertTail (by rw [Sched.modify_threads_self]; exact h.queued_ready i t ht) hgone
    (h.rep.lt_next i t ht) with hfault | ⟨next', tails', hok, hrep'⟩
  · exact .inl hfault
  rw [Sched.modify_threads_self] at hrep'
  have hmem : ∀ c u, u ∈ (q.run kPickPattern [.erase i t, .push j t]).1.queue c ↔
      u ≠ t ∧ u ∈ q.queue c ∨ c = j ∧ u = t := by
    intro c u
    refine (State.mem_push kPickPattern).trans (or_congr_left ?_)
    rw [h.rep.wf.mem_erase kPickPattern]
    constructor
    · rintro ⟨hu, hne⟩
      refine ⟨fun heq ↦ hne ⟨?_, heq⟩, hu⟩
      subst heq
      exact h.rep.wf.disjoint c i u hu ht
    · exact fun ⟨hne, hu⟩ ↦ ⟨hu, fun heq ↦ hne heq.2⟩
  refine .inr ⟨next', tails', hok, hrep', fun c u hu ↦ ?_, fun c u hu ↦ ?_, fun c u hu ↦ ?_,
    fun u hu hst ↦ ?_, fun u hst ↦ ?_, h.boot_not_enq, h.enq_lt, h.next_pos⟩
  · rw [Sched.relink_threads]
    rcases (hmem c u).1 hu with ⟨hne, hu⟩ | ⟨rfl, rfl⟩
    · rw [hother u hne]
      exact h.intent c u hu
    · rw [hself]
      rfl
  · rw [Sched.relink_threads]
    rcases (hmem c u).1 hu with ⟨hne, hu⟩ | ⟨rfl, rfl⟩
    · rw [hother u hne]
      exact h.queued_ready c u hu
    · rw [hself]
      exact h.queued_ready i u ht
  · rcases (hmem c u).1 hu with ⟨-, hu⟩ | ⟨rfl, rfl⟩
    exacts [h.queued_enq c u hu, h.queued_enq i u ht]
  · rcases eq_or_ne u t with rfl | hne
    · exact ⟨j, (hmem j u).2 (.inr ⟨rfl, rfl⟩)⟩
    · rw [Sched.relink_threads, hother u hne] at hst
      obtain ⟨c, hc⟩ := h.ready_queued u hu hst
      exact ⟨c, (hmem c u).2 (.inl ⟨hne, hc⟩)⟩
  · rcases eq_or_ne u t with rfl | hne
    · exact h.queued_enq i u ht
    · rw [Sched.relink_threads, hother u hne] at hst
      exact h.blocked_enq u hst

end QueueInv

/-- A call that keeps the current thread, and what it leaves alone: the saved states of the other
threads, and the mark of a dead thread. -/
structure KeepsCurrent (s s' : Sched) (cur : Tid) : Prop where
  current : s'.current = some cur
  threads : ∀ u, u < s.nextTid → u ≠ cur → (s'.threads u).ctx = (s.threads u).ctx ∧
    (s'.threads u).irqSp = (s.threads u).irqSp
  frames : ∀ u, u < s.nextTid → u ≠ cur → s'.frames u = s.frames u
  dead : ∀ u, u < s.nextTid → (s.threads u).state = .dead → (s'.threads u).state = .dead
  next_le : s.nextTid ≤ s'.nextTid

namespace KeepsCurrent

variable {s : Sched} {cur : Tid}

theorem of_threads_eq (hcurrent : s'.current = some cur) (hthreads : s'.threads = s.threads)
    (hframes : ∀ u, u ≠ cur → s'.frames u = s.frames u) (hnext : s'.nextTid = s.nextTid) :
    KeepsCurrent s s' cur := ⟨hcurrent, fun u _ _ ↦ by rw [hthreads]; exact ⟨rfl, rfl⟩, fun u _ hu ↦ hframes u hu,
    fun u _ hu ↦ by rwa [hthreads], hnext.ge⟩

theorem of_modify (hcurrent : s.current = some cur) {f : Thread → Thread}
    (hctx : (f (s.threads t)).ctx = (s.threads t).ctx) (hirq : (f (s.threads t)).irqSp = (s.threads t).irqSp)
    (hdead : (s.threads t).state = .dead → (f (s.threads t)).state = .dead)
    (hthreads : s'.threads = (s.modify t f).threads) (hcur : s'.current = s.current)
    (hframes : s'.frames = s.frames) (hnext : s'.nextTid = s.nextTid) : KeepsCurrent s s' cur := by
  refine ⟨hcur.trans hcurrent, fun u _ _ ↦ ?_, fun u _ _ ↦ by rw [hframes], fun u _ hu ↦ ?_, hnext.ge⟩
  · rw [hthreads]
    rcases eq_or_ne u t with rfl | hut
    · rw [Sched.modify_threads_self]
      exact ⟨hctx, hirq⟩
    · rw [Sched.modify_threads_of_ne _ hut]
      exact ⟨rfl, rfl⟩
  · rw [hthreads]
    rcases eq_or_ne u t with rfl | hut
    · rw [Sched.modify_threads_self]
      exact hdead hu
    · rwa [Sched.modify_threads_of_ne _ hut]

end KeepsCurrent

/-- The panics about stacks, trap frames and the preemption count. -/
def SchedFault.IsGuard (f : SchedFault) : Prop :=
  f.IsStackCheck ∨ f = .nextIrqSpNull ∨ f = .bootstrapBlocks ∨ f = .nullTrapFrame ∨ f = .preemptUnderflow

def SchedOp.mechanism (s : Sched) : SchedOp → Option Mechanism
  | .yield regs => some (.coop regs)
  | .blockCurrent regs => some (.coop regs)
  | .irqExit tf frame =>
    if s.needResched = false ∨ s.preemptCount ≠ 0 then none else some (.irq tf frame)
  | _ => none

/-- The state in which a call leaves the thread that gives up the processor. -/
def SchedOp.leaves (s : Sched) (cur : Tid) : SchedOp → ThreadState
  | .blockCurrent _ => .blocked
  | _ => leavingState s cur

/-- **What a call can do.** -/
inductive SchedOutcome (σ : SchedSys) (q : ReadyQueues) (cur : Tid) (op : SchedOp) : Prop where
  | fault (f : SchedFault) (hf : f.IsGuard) (hr : σ.s.step op = .error f)
  | quiet (s' : Sched) (q' : ReadyQueues) (hr : σ.s.step op = .ok (s', .none))
      (hrun : q.run kPickPattern (op.events σ.s) = (q', []))
      (hvalid : q.RunValid kPickPattern (op.events σ.s))
      (hinv : SchedInv ⟨s', op.enqueues σ.enqueued⟩ q') (hkeeps : KeepsCurrent σ.s s' cur)
      (hnew : s'.nextTid = σ.s.nextTid ∨ ∃ img, op = .create img) (hm : op.mechanism σ.s = none)
  | gaveUp (m : Mechanism) (hm : op.mechanism σ.s = some m) (henq : op.enqueues σ.enqueued = σ.enqueued)
      (hgave : GaveUp σ q cur (op.leaves σ.s cur) (op.events σ.s) m (σ.s.step op))

namespace SchedInv

variable {cur : Tid}

section

variable (h : SchedInv σ q) (hcurrent : σ.s.current = some cur)
include h hcurrent

theorem ofKeepsCurrent {q' : ReadyQueues} {enq : Finset Tid} (hq : QueueInv s' q' enq)
    (hsub : σ.enqueued ⊆ enq) (hcur : s'.current = some cur) (hout : ∀ i, cur ∉ q'.queue i)
    (hstate : (s'.threads cur).state = (σ.s.threads cur).state ∨ (s'.threads cur).state = .dead) :
    SchedInv ⟨s', enq⟩ q' := by
  obtain ⟨-, hknown, hst⟩ := h.of_current hcurrent
  refine ⟨hq, cur, hcur, hout, hknown.imp_right fun hmem ↦ hsub hmem, ?_⟩
  rcases hstate with hsame | hdead
  · rw [hsame]
    exact hst
  · exact .inr hdead

theorem not_mem_queue (i : SchedIntent) : cur ∉ q.queue i := (h.of_current hcurrent).1 i

theorem current_lt : cur < σ.s.nextTid := by
  rcases (h.of_current hcurrent).2.1 with rfl | hmem
  exacts [h.next_pos, h.enq_lt cur hmem]

theorem current_state : (σ.s.threads cur).state = .running ∨ (σ.s.threads cur).state = .dead :=
  (h.of_current hcurrent).2.2

theorem create (img : ThreadImage) : SchedOutcome σ q cur (.create img) := by
  have hnew : ∀ u, u < σ.s.nextTid → (threadCreate σ.s img).threads u = σ.s.threads u := fun u hu ↦
    update_of_ne hu.ne ..
  refine .quiet _ q rfl rfl trivial (h.ofKeepsCurrent hcurrent (h.toQueueInv.create img) subset_rfl hcurrent
    (h.not_mem_queue hcurrent) (.inl ?_)) ⟨hcurrent, fun u hu _ ↦ ?_, fun u hu _ ↦ ?_, fun u hu hst ↦ ?_,
    Nat.le_succ _⟩ (.inr ⟨img, rfl⟩) rfl
  · rw [hnew cur (h.current_lt hcurrent)]
  · rw [hnew u hu]
    exact ⟨rfl, rfl⟩
  · exact update_of_ne hu.ne ..
  · rwa [hnew u hu]

theorem outcome_push (hstep : σ.s.step op = (rqInsertTailLocked (σ.s.setState t .ready) t).map (·, .none))
    (hevs : op.events σ.s = [.push (σ.s.threads t).schedIntent t])
    (henq : op.enqueues σ.enqueued = insert t σ.enqueued) (hm : op.mechanism σ.s = none)
    (ht : ∀ i, t ∉ q.queue i) (hlt : t < σ.s.nextTid) (hboot : t ≠ bootstrapThread) (hne : cur ≠ t)
    (hdead : (σ.s.threads t).state ≠ .dead) : SchedOutcome σ q cur op := by
  rcases h.insertReady ht hlt hboot with ⟨f, hf, herr⟩ | ⟨next, tails, hok, hinv⟩
  · exact .fault f (.inl hf) (by rw [hstep, herr]; rfl)
  rw [← henq] at hinv
  refine .quiet _ _ (by rw [hstep, hok]; rfl) (by rw [hevs]; rfl) (by rw [hevs]; exact ⟨ht, trivial⟩)
    (h.ofKeepsCurrent hcurrent hinv ?_ hcurrent (fun i hi ↦ ?_) (.inl ?_))
    (.of_modify (t := t) (f := (·.setState .ready)) hcurrent rfl rfl (fun hst ↦ absurd hst hdead) rfl
      rfl rfl rfl) (.inl rfl) hm
  · rw [henq]
    exact Finset.subset_insert ..
  · rcases (State.mem_push kPickPattern).1 hi with hi | ⟨-, rfl⟩
    exacts [h.not_mem_queue hcurrent i hi, hne rfl]
  · rw [Sched.relink_threads, σ.s.setState_threads_of_ne hne]

theorem enqueue (hallowed : σ.Allowed (.enqueue t)) : SchedOutcome σ q cur (.enqueue t) := by
  obtain ⟨hboot, hlt, hfresh⟩ := hallowed
  have hne : cur ≠ t := by
    rintro rfl
    exact (h.of_current hcurrent).2.1.elim hboot hfresh
  by_cases hdead : (σ.s.threads t).state = .dead
  · refine .quiet σ.s q ?_ ?_ ?_ (h.ofKeepsCurrent hcurrent (h.insert_dead hdead hboot hlt)
      (Finset.subset_insert ..) hcurrent (h.not_mem_queue hcurrent) (.inl rfl))
      (.of_threads_eq hcurrent rfl (fun _ _ ↦ rfl) rfl) (.inl rfl) rfl
    · simp only [Sched.step, schedEnqueue, hdead, if_true]
      rfl
    · simp only [SchedOp.events, hdead, if_true]
      rfl
    · simp only [SchedOp.events, hdead, if_true]
      trivial
  · refine h.outcome_push hcurrent ?_ ?_ rfl rfl (fun i hi ↦ hfresh (h.queued_enq i t hi)) hlt hboot hne hdead
    · simp [Sched.step, schedEnqueue, hdead]
    · simp [SchedOp.events, hdead]

theorem wake (t : Tid) : SchedOutcome σ q cur (.wake t) := by
  by_cases hblocked : (σ.s.threads t).state = .blocked
  · have henq := h.blocked_enq t hblocked
    refine h.outcome_push hcurrent ?_ ?_ ?_ rfl (fun i hi ↦ ?_) (h.enq_lt t henq) ?_ ?_ ?_
    · simp [Sched.step, schedWake, hblocked]
    · simp [SchedOp.events, hblocked]
    · exact (Finset.insert_eq_of_mem henq).symm
    · have := h.queued_ready i t hi
      rw [hblocked] at this
      cases this
    · rintro rfl
      exact h.boot_not_enq henq
    · rintro rfl
      rcases h.current_state hcurrent with hst | hst <;> rw [hblocked] at hst <;> cases hst
    · rw [hblocked]
      nofun
  · refine .quiet σ.s q ?_ ?_ ?_ h (.of_threads_eq hcurrent rfl (fun _ _ ↦ rfl) rfl) (.inl rfl) rfl
    · simp only [Sched.step, schedWake, hblocked, if_false]
      rfl
    · simp only [SchedOp.events, hblocked, if_false]
      rfl
    · simp only [SchedOp.events, hblocked, if_false]
      trivial

theorem setIntent (t : Tid) (raw : ℕ) : SchedOutcome σ q cur (.setIntent t raw) := by
  have hkeeps : ∀ (s' : Sched), s'.threads = (σ.s.modify t (·.setIntent (schedIntentSanitize raw))).threads →
      s'.current = σ.s.current → s'.frames = σ.s.frames → s'.nextTid = σ.s.nextTid → KeepsCurrent σ.s s' cur :=
    fun s' ↦ .of_modify hcurrent rfl rfl fun hst ↦ hst
  have hcur : ((σ.s.modify t (·.setIntent (schedIntentSanitize raw))).threads cur).state = (σ.s.threads cur).state := by
    rcases eq_or_ne cur t with rfl | hne
    · rw [Sched.modify_threads_self]
      rfl
    · rw [Sched.modify_threads_of_ne _ hne]
  by_cases hsame : (σ.s.threads t).schedIntent = schedIntentSanitize raw
  · refine .quiet σ.s q ?_ ?_ ?_ h (.of_threads_eq hcurrent rfl (fun _ _ ↦ rfl) rfl) (.inl rfl) rfl
    · simp only [Sched.step, schedSetThreadIntent, hsame, if_true]
      rfl
    · simp only [SchedOp.events, hsame, if_true]
      rfl
    · simp only [SchedOp.events, hsame, if_true]
      trivial
  by_cases hqueued : (σ.s.threads t).state = .ready ∧ (σ.s.rqNext t).isSome
  · obtain ⟨i, hi⟩ := h.rep.linked t hqueued.2
    obtain rfl := h.intent i t hi
    have hevs : SchedOp.events σ.s (.setIntent t raw) =
        [.erase (σ.s.threads t).schedIntent t, .push (schedIntentSanitize raw) t] := by
      simp [SchedOp.events, hsame, hqueued]
    obtain ⟨s₁, hremove, hinsert⟩ := h.requeueIntent hi (schedIntentSanitize raw)
    rcases hinsert with ⟨f, hf, herr⟩ | ⟨next, tails, hok, hinv⟩
    · refine .fault f (.inl hf) ?_
      simp only [Sched.step, schedSetThreadIntent, hsame, hqueued, if_true, if_false, and_self, hremove, herr]
      rfl
    · have hgone : ∀ c, t ∉ (q.step kPickPattern (.erase (σ.s.threads t).schedIntent t)).1.queue c := fun c hc ↦ by
          obtain ⟨hc, hne⟩ := (h.rep.wf.mem_erase kPickPattern).1 hc
          exact hne ⟨h.rep.wf.disjoint c _ t hc hi, rfl⟩
      refine .quiet _ _ ?_ (by rw [hevs]; rfl) (by rw [hevs]; exact ⟨trivial, hgone, trivial⟩)
        (h.ofKeepsCurrent hcurrent hinv subset_rfl hcurrent (fun c hc ↦ ?_) (.inl hcur))
        (hkeeps _ rfl rfl rfl rfl) (.inl rfl) rfl
      · simp only [Sched.step, schedSetThreadIntent, hsame, hqueued, if_true, if_false, and_self, hremove, hok]
        rfl
      · rcases (State.mem_push kPickPattern).1 hc with hc | ⟨-, rfl⟩
        · exact h.not_mem_queue hcurrent c ((h.rep.wf.mem_erase kPickPattern).1 hc).1
        · exact h.not_mem_queue hcurrent _ hi
  · -- A queued thread is `READY` and has a link, so this one is not queued.
    have hout : ∀ i, t ∉ q.queue i := fun i hi ↦ hqueued ⟨h.queued_ready i t hi, (h.rep.isSome_iff t).2 ⟨i, hi⟩⟩
    refine .quiet _ q ?_ ?_ ?_ (h.ofKeepsCurrent hcurrent (h.modify_unqueued hout rfl) subset_rfl hcurrent
      (h.not_mem_queue hcurrent) (.inl hcur)) (hkeeps _ rfl rfl rfl rfl) (.inl rfl) rfl
    · simp only [Sched.step, schedSetThreadIntent, hsame, hqueued, if_false]
      rfl
    · simp only [SchedOp.events, hsame, hqueued, if_false]
      rfl
    · simp only [SchedOp.events, hsame, hqueued, if_false]
      trivial

theorem outcome_current (hstep : σ.s.step op = .ok (s', .none)) (hevs : op.events σ.s = [])
    (henq : op.enqueues σ.enqueued = σ.enqueued) (hq : QueueInv s' q σ.enqueued)
    (hstate : (s'.threads cur).state = (σ.s.threads cur).state ∨ (s'.threads cur).state = .dead)
    (hkeeps : KeepsCurrent σ.s s' cur) (hnext : s'.nextTid = σ.s.nextTid) (hm : op.mechanism σ.s = none) :
    SchedOutcome σ q cur op := by
  refine .quiet s' q hstep (by rw [hevs]; rfl) (by rw [hevs]; trivial) ?_ hkeeps (.inl hnext) hm
  rw [henq]
  exact h.ofKeepsCurrent hcurrent hq subset_rfl hkeeps.current (h.not_mem_queue hcurrent) hstate

theorem timerTick (overLimit : Bool) : SchedOutcome σ q cur (.timerTick overLimit) := by
  let f : Thread → Thread := fun th ↦
    th.tick (decide (cur ≠ bootstrapThread)) (decide (cur ≠ bootstrapThread) && overLimit)
  have hq : QueueInv (σ.s.modify cur f) q σ.enqueued := h.modify_unqueued (h.not_mem_queue hcurrent) rfl
  generalize htick : schedOnTimerTick σ.s overLimit = s'
  have hthreads : s'.threads = (σ.s.modify cur f).threads := by
    simp only [← htick, schedOnTimerTick, hcurrent]
    rfl
  have hcur : s'.current = σ.s.current := by simp only [← htick, schedOnTimerTick, hcurrent]
  have hframes : s'.frames = σ.s.frames := by simp only [← htick, schedOnTimerTick, hcurrent]
  have hnext : s'.nextTid = σ.s.nextTid := by simp only [← htick, schedOnTimerTick, hcurrent]
  refine h.outcome_current hcurrent (by rw [Sched.step, htick]) rfl rfl
    (hq.of_threads_eq hthreads ?_ ?_ ?_ hnext) (.inl ?_)
    (.of_modify hcurrent rfl rfl (fun hdead ↦ hdead) hthreads hcur hframes hnext) hnext rfl
  · simp only [← htick, schedOnTimerTick, hcurrent, Sched.modify]
  · simp only [← htick, schedOnTimerTick, hcurrent, Sched.modify]
  · simp only [← htick, schedOnTimerTick, hcurrent, Sched.modify]
  · rw [hthreads, Sched.modify_threads_self]
    rfl

theorem exitMark : SchedOutcome σ q cur .exitMark := by
  refine h.outcome_current hcurrent (show σ.s.step .exitMark = .ok (σ.s.setState cur .dead, .none) from ?_) rfl rfl
    (h.modify_idle (h.not_mem_queue hcurrent) nofun nofun) (.inr ?_)
    (.of_modify hcurrent rfl rfl (fun _ ↦ rfl) rfl rfl rfl rfl) rfl rfl
  · simp only [Sched.step, threadExitMark, hcurrent]
  · rw [Sched.setState_threads_self]
    rfl

theorem outcome_flags (hstep : σ.s.step op = .ok (s', .none)) (hevs : op.events σ.s = [])
    (henq : op.enqueues σ.enqueued = σ.enqueued) (hq : QueueInv s' q σ.enqueued)
    (hcur : s'.current = σ.s.current) (hthreads : s'.threads = σ.s.threads)
    (hframes : ∀ u, u ≠ cur → s'.frames u = σ.s.frames u) (hnext : s'.nextTid = σ.s.nextTid)
    (hm : op.mechanism σ.s = none) : SchedOutcome σ q cur op :=
  h.outcome_current hcurrent hstep hevs henq hq (.inl (by rw [hthreads]))
    (.of_threads_eq (hcur.trans hcurrent) hthreads hframes hnext) hnext hm

end

/-- **Every call keeps the run-queue invariant**, and panics only for the reasons in
`SchedFault.IsGuard`. -/
theorem outcome (h : SchedInv σ q) (hcurrent : σ.s.current = some cur) (hallowed : σ.Allowed op) :
    SchedOutcome σ q cur op := by
  cases op with
  | create img => exact h.create hcurrent img
  | enqueue t => exact h.enqueue hcurrent hallowed
  | yield regs => exact .gaveUp _ rfl rfl (h.yield hcurrent regs)
  | blockCurrent regs =>
    by_cases hboot : cur = bootstrapThread
    · refine .fault .bootstrapBlocks (.inr (.inr (.inl rfl))) ?_
      simp [Sched.step, schedBlockCurrent, hcurrent, hboot, hboot ▸ h.rqNext_current (h.not_mem_queue hcurrent)]
    · exact .gaveUp _ rfl rfl (h.blockCurrent hcurrent hboot regs)
  | wake t => exact h.wake hcurrent t
  | setIntent t raw => exact h.setIntent hcurrent t raw
  | timerTick overLimit => exact h.timerTick hcurrent overLimit
  | irqExit tf frame =>
    rcases eq_or_ne tf 0 with rfl | htf
    · exact .fault .nullTrapFrame (.inr (.inr (.inr (.inl rfl)))) rfl
    by_cases hstay : σ.s.needResched = false ∨ σ.s.preemptCount ≠ 0
    · refine h.outcome_flags hcurrent
        (show σ.s.step (.irqExit tf frame) = .ok (pushFrame σ.s cur tf frame, .none) from ?_) ?_ rfl
        (h.of_threads_eq rfl rfl rfl rfl rfl) rfl rfl (fun u hu ↦ update_of_ne hu ..) rfl ?_
      · simp [Sched.step, schedIrqExit, htf, hcurrent, hstay, h.rqNext_current (h.not_mem_queue hcurrent)]
      · simp [SchedOp.events, hstay]
      · simp [SchedOp.mechanism, hstay]
    · refine .gaveUp (.irq tf frame) (by simp [SchedOp.mechanism, hstay]) rfl ?_
      have hevs : SchedOp.events σ.s (.irqExit tf frame) = dispatchEvents σ.s := by simp [SchedOp.events, hstay]
      rw [hevs]
      rw [not_or, Bool.not_eq_false, not_not] at hstay
      exact h.irqExit hcurrent htf hstay.1 hstay.2 frame
  | exitMark => exact h.exitMark hcurrent
  | preemptDisable =>
    exact h.outcome_flags hcurrent rfl rfl rfl (h.of_threads_eq rfl rfl rfl rfl rfl) rfl rfl (fun _ _ ↦ rfl) rfl rfl
  | preemptEnable =>
    by_cases hzero : σ.s.preemptCount = 0
    · refine .fault .preemptUnderflow (.inr (.inr (.inr (.inr rfl)))) ?_
      simp [Sched.step, hzero]
    · refine h.outcome_flags hcurrent (show σ.s.step .preemptEnable =
        .ok ({ σ.s with preemptCount := σ.s.preemptCount - 1 }, .none) from ?_) rfl rfl
        (h.of_threads_eq rfl rfl rfl rfl rfl) rfl rfl (fun _ _ ↦ rfl) rfl rfl
      simp [Sched.step, hzero]

theorem step (h : SchedInv σ q) (hallowed : σ.Allowed op) {out : SchedOut} (hstep : σ.step op = .ok (σ', out)) :
    ∃ q', q.run kPickPattern (op.events σ.s) = (q', out.popped.toList) ∧
      q.RunValid kPickPattern (op.events σ.s) ∧ SchedInv σ' q' := by
  obtain ⟨cur, hcurrent, -⟩ := h.current
  unfold SchedSys.step at hstep
  cases h.outcome hcurrent hallowed with
  | fault f hf hr =>
    rw [hr] at hstep
    cases hstep
  | quiet s' q' hr hrun hvalid hinv hkeeps hnew hm =>
    rw [hr] at hstep
    cases hstep
    exact ⟨q', hrun, hvalid, hinv⟩
  | gaveUp m hm henq hgave =>
    rw [henq] at hstep
    cases hgave with
    | fault f hf hr =>
      rw [hr] at hstep
      cases hstep
    | stay s' q' popped hr hpop hrun hvalid hidle hinv hstay =>
      rw [hr] at hstep
      cases hstep
      exact ⟨q', hrun, hvalid, hinv⟩
    | switch s' q' t saved hr hrun hvalid hq hinv hswitch hrec =>
      rw [hr] at hstep
      cases hstep
      exact ⟨q', hrun, hvalid, hinv⟩

end SchedInv

/-! ### Runs -/

namespace SchedRun

def popped (tr : List (SchedOp × SchedOut)) : List Tid := tr.flatMap fun c ↦ c.2.popped.toList

/-- **Every run is a run of the pattern queues.** The events are those of the calls. -/
theorem exists_events (hrun : SchedRun σ tr σ') (h : SchedInv σ q) :
    ∃ evs q', q.run kPickPattern evs = (q', popped tr) ∧ q.RunValid kPickPattern evs ∧ SchedInv σ' q' ∧
      ∀ ev ∈ evs, ∃ c ∈ tr, ∃ s, ev ∈ c.1.events s := by
  induction hrun generalizing q with
  | nil σ => exact ⟨[], q, rfl, trivial, h, nofun⟩
  | @cons σ σ₁ σ' op out tr hallowed hstep _ ih =>
    obtain ⟨q₁, hrun₁, hvalid₁, h₁⟩ := h.step hallowed hstep
    obtain ⟨evs, q', hrun', hvalid', h', hevs⟩ := ih h₁
    refine ⟨op.events σ.s ++ evs, q', ?_, State.runValid_append.2 ⟨hvalid₁, ?_⟩, h', fun ev hev ↦ ?_⟩
    · rw [State.run_append, hrun₁, hrun']
      rfl
    · rwa [hrun₁]
    · rcases List.mem_append.1 hev with hev | hev
      · exact ⟨_, List.mem_cons_self, σ.s, hev⟩
      · obtain ⟨c, hc, hev⟩ := hevs ev hev
        exact ⟨c, List.mem_cons_of_mem _ hc, hev⟩

theorem exists_inv (hrun : SchedRun .boot tr σ) : ∃ q, SchedInv σ q := by
  obtain ⟨_, q, -, -, h, -⟩ := hrun.exists_events schedInv_boot
  exact ⟨q, h⟩

theorem trans {σ₁ : SchedSys} {tr' : List (SchedOp × SchedOut)} (h : SchedRun σ tr σ₁)
    (h' : SchedRun σ₁ tr' σ') : SchedRun σ (tr ++ tr') σ' := by
  induction h with
  | nil => exact h'
  | cons hallowed hstep _ ih => exact .cons hallowed hstep (ih h')

end SchedRun

/-! ### Executing calls -/

instance (σ : SchedSys) (op : SchedOp) : Decidable (σ.Allowed op) :=
  match op with
  | .enqueue t => inferInstanceAs (Decidable (t ≠ bootstrapThread ∧ t < σ.s.nextTid ∧ t ∉ σ.enqueued))
  | .create _ | .yield _ | .blockCurrent _ | .wake _ | .setIntent _ _ | .timerTick _ | .irqExit _ _
  | .exitMark | .preemptDisable | .preemptEnable => .isTrue trivial

/-- The calls one after the other, unless one of them is not allowed or panics. -/
def SchedSys.exec (σ : SchedSys) : List SchedOp → Option (List (SchedOp × SchedOut) × SchedSys)
  | [] => some ([], σ)
  | op :: ops =>
    if σ.Allowed op then
      match σ.step op with
      | .error _ => none
      | .ok (σ₁, out) => (σ₁.exec ops).map fun r ↦ ((op, out) :: r.1, r.2)
    else none

theorem SchedRun.of_exec {ops : List SchedOp} (h : σ.exec ops = some (tr, σ')) :
    SchedRun σ tr σ' ∧ tr.map Prod.fst = ops := by
  induction ops generalizing σ tr with
  | nil =>
    cases h
    exact ⟨.nil _, rfl⟩
  | cons op ops ih =>
    simp only [SchedSys.exec] at h
    split_ifs at h with hallowed
    split at h
    · cases h
    · rename_i σ₁ out hstep
      obtain ⟨⟨tr', σ''⟩, hrest, heq⟩ := Option.map_eq_some_iff.1 h
      cases heq
      obtain ⟨hrun, hops⟩ := ih hrest
      exact ⟨.cons hallowed hstep hrun, by rw [List.map_cons, hops]⟩

theorem SchedRun.exists_of_exec (σ : SchedSys) (ops : List SchedOp) (p : List (SchedOp × SchedOut) → SchedSys → Bool)
    (h : (σ.exec ops).any (fun r ↦ p r.1 r.2) = true) :
    ∃ tr σ', SchedRun σ tr σ' ∧ tr.map Prod.fst = ops ∧ p tr σ' = true := by
  obtain ⟨⟨tr, σ'⟩, hexec, hp⟩ := (Option.any_eq_true _ _).1 h
  exact ⟨tr, σ', (of_exec hexec).1, (of_exec hexec).2, hp⟩

def SchedSys.after (σ : SchedSys) (op : SchedOp) (p : SchedSys → SchedOut → Bool) : Bool :=
  match σ.step op with
  | .error _ => false
  | .ok (σ', out) => p σ' out

theorem SchedSys.exists_of_after {p : SchedSys → SchedOut → Bool} (h : σ.after op p = true) :
    ∃ σ' out, σ.step op = .ok (σ', out) ∧ p σ' out = true := by
  unfold SchedSys.after at h
  split at h
  · cases h
  · exact ⟨_, _, ‹_›, h⟩

/-- An image for concrete runs: a thread with its stack at `va`. -/
def ThreadImage.onStack (va : ℕ) : ThreadImage := ⟨0x1000, 0, va, 0x2000, 0x3000⟩

def Ctx.withSp (sp : ℕ) : Ctx := ⟨fun _ ↦ 0, sp⟩

end CapazOS
