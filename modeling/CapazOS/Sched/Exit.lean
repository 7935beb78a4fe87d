import CapazOS.Sched.Steps

/-!
# Threads that exit

`thread_exit` marks the current thread `DEAD` and calls `yield` in a loop. When `yield` finds no
ready thread it prepares the caller for running again, **without looking at its state**, and so does
`sched_irq_exit`. `Revives` describes these calls by the state before them; without them a dead
thread stays dead (`dead_thread_stays_dead_iff`).
-/

namespace CapazOS

open PatternQueues

/-! ### Runs whose calls meet a condition -/

/-- A run in which every call meets the condition `C`. -/
inductive GuardedRun (C : SchedSys → SchedOp → Prop) : SchedSys → List (SchedOp × SchedOut) → SchedSys → Prop
  | nil (σ : SchedSys) : GuardedRun C σ [] σ
  | snoc {σ σ₁ σ' : SchedSys} {op : SchedOp} {out : SchedOut} {tr : List (SchedOp × SchedOut)}
      (hrun : GuardedRun C σ tr σ₁) (hstep : σ₁.step op = .ok (σ', out)) (hallowed : σ₁.Allowed op)
      (hC : C σ₁ op) : GuardedRun C σ (tr ++ [(op, out)]) σ'

theorem GuardedRun.run {C : SchedSys → SchedOp → Prop} {σ σ' : SchedSys}
    {tr : List (SchedOp × SchedOut)} (h : GuardedRun C σ tr σ') : SchedRun σ tr σ' := by
  induction h with
  | nil => exact .nil _
  | snoc _ hstep hallowed _ ih => exact ih.trans (.cons hallowed hstep (.nil _))

/-! ### Dead threads -/

/-- The thread neither is ready nor runs, and is in no queue. -/
def OutOfService (s : Sched) (t : Tid) : Prop :=
  (s.threads t).state ≠ .ready ∧ (s.threads t).state ≠ .running ∧ s.rqNext t = none

/-- The call is made with `t` as the current thread, reschedules, and finds every ready queue
empty. -/
def Revives (s : Sched) (t : Tid) : SchedOp → Prop
  | .yield _ => s.current = some t ∧ ∀ i, s.readyTail i = none
  | .irqExit _ _ => s.current = some t ∧ s.needResched = true ∧ s.preemptCount = 0 ∧ ∀ i, s.readyTail i = none
  | _ => False

/-- `thread_exit` does not return: a thread in its loop does not call `sched_block_current`. -/
def InExitLoop (σ : SchedSys) (t : Tid) (op : SchedOp) : Prop :=
  σ.s.current = some t → ∀ regs, op ≠ .blockCurrent regs

namespace SchedInv

variable {σ : SchedSys} {q : ReadyQueues} {t : Tid}

theorem readyTail_eq_none (h : SchedInv σ q) (i : SchedIntent) : σ.s.readyTail i = none ↔ q.queue i = [] :=
  (h.rep.ring i).tail_isNone

theorem outOfService_of_dead (h : SchedInv σ q) (hdead : (σ.s.threads t).state = .dead) : OutOfService σ.s t := by
  refine ⟨by rw [hdead]; nofun, by rw [hdead]; nofun, ?_⟩
  rw [← Option.not_isSome_iff_eq_none, h.rep.isSome_iff]
  rintro ⟨i, hi⟩
  have := h.queued_ready i t hi
  rw [hdead] at this
  cases this

theorem revives_iff (h : SchedInv σ q) {op : SchedOp} {m : Mechanism}
    (hm : op.mechanism σ.s = some m) (hexit : InExitLoop σ t op) (hcurrent : σ.s.current = some t) :
    Revives σ.s t op ↔ ∀ i, q.queue i = [] := by
  have htails : (∀ i, σ.s.readyTail i = none) ↔ ∀ i, q.queue i = [] := forall_congr' h.readyTail_eq_none
  cases op with
  | yield regs =>
    rw [← htails]
    exact and_iff_right hcurrent
  | blockCurrent regs => exact absurd rfl (hexit hcurrent regs)
  | irqExit tf frame =>
    rw [← htails]
    simp only [SchedOp.mechanism] at hm
    split_ifs at hm with hstay
    rw [not_or, Bool.not_eq_false, not_not] at hstay
    simp [Revives, hcurrent, hstay]
  | _ => cases hm

theorem leaves_eq_dead {op : SchedOp} (hdead : (σ.s.threads t).state = .dead)
    (hexit : InExitLoop σ t op) (hcurrent : σ.s.current = some t) : op.leaves σ.s t = .dead := by
  have hleaving : leavingState σ.s t = .dead := by rw [leavingState, if_neg (by simp [hdead]), hdead]
  cases op with
  | blockCurrent regs => exact absurd rfl (hexit hcurrent regs)
  | _ => exact hleaving

/-- **One call**, made while `t` is dead: it revives `t`, or `t` stays dead. -/
theorem dead_step (h : SchedInv σ q) (ht : t < σ.s.nextTid) (hdead : (σ.s.threads t).state = .dead)
    {op : SchedOp} (hallowed : σ.Allowed op) (hexit : InExitLoop σ t op) {σ' : SchedSys}
    {out : SchedOut} (hstep : σ.step op = .ok (σ', out)) :
    t < σ'.s.nextTid ∧ (Revives σ.s t op ∧ (σ'.s.threads t).state = .running ∨
      ¬Revives σ.s t op ∧ (σ'.s.threads t).state = .dead) := by
  obtain ⟨cur, hcurrent, -⟩ := h.current
  unfold SchedSys.step at hstep
  have hother : ∀ op, cur ≠ t → ¬Revives σ.s t op := by
    intro op hne hrev
    have hcur : σ.s.current = some t := by
      cases op with
      | yield regs => exact hrev.1
      | irqExit tf frame => exact hrev.1
      | _ => exact absurd hrev id
    exact hne (Option.some.inj (hcurrent.symm.trans hcur))
  cases h.outcome hcurrent hallowed with
  | fault f hf hr =>
    rw [hr] at hstep
    cases hstep
  | quiet s' q' hr hrun hvalid hinv hkeeps hnew hm =>
    rw [hr] at hstep
    cases hstep
    refine ⟨ht.trans_le hkeeps.next_le, .inr ⟨fun hrev ↦ ?_, hkeeps.dead t ht hdead⟩⟩
    cases op with
    | yield regs => cases hm
    | irqExit tf frame =>
      simp only [SchedOp.mechanism, hrev.2.1, hrev.2.2.1] at hm
      simp at hm
    | _ => exact hrev
  | gaveUp m hm henq hgave =>
    cases hgave with
    | fault f hf hr =>
      rw [hr] at hstep
      cases hstep
    | stay s' q' popped hr hpop hrun hvalid hidle hinv hstay =>
      rw [hr] at hstep
      cases hstep
      refine ⟨hstay.next ▸ ht, ?_⟩
      rcases eq_or_ne cur t with rfl | hne
      · have hempty := hidle.resolve_left (by simp [hdead])
        exact .inl ⟨(h.revives_iff hm hexit hcurrent).2 hempty, hstay.state⟩
      · refine .inr ⟨hother op hne, ?_⟩
        rw [hstay.others t hne.symm, hdead]
    | switch s' q' next saved hr hrun hvalid hq hinv hswitch hrec =>
      rw [hr] at hstep
      cases hstep
      obtain ⟨i, hi⟩ := hq
      refine ⟨hswitch.next ▸ ht, .inr ?_⟩
      rcases eq_or_ne cur t with rfl | hne
      · refine ⟨fun hrev ↦ ?_, hswitch.state_cur.trans (leaves_eq_dead hdead hexit hcurrent)⟩
        have hempty := (h.revives_iff hm hexit hcurrent).1 hrev i
        rw [hempty] at hi
        cases hi
      · have hnext : t ≠ next := by
          rintro rfl
          have := h.queued_ready i t hi
          rw [hdead] at this
          cases this
        refine ⟨hother op hne, ?_⟩
        rw [hswitch.others t hne.symm hnext, hdead]

end SchedInv

theorem GuardedRun.dead {σ σ' : SchedSys} {q : ReadyQueues} (h : SchedInv σ q) {t : Tid}
    (ht : t < σ.s.nextTid) (hdead : (σ.s.threads t).state = .dead) {tr : List (SchedOp × SchedOut)}
    (hrun : GuardedRun (fun σ op ↦ ¬Revives σ.s t op ∧ InExitLoop σ t op) σ tr σ') :
    t < σ'.s.nextTid ∧ (σ'.s.threads t).state = .dead := by
  -- Induction from the end of the run, so that the state before the last call is in view.
  induction hrun with
  | nil => exact ⟨ht, hdead⟩
  | snoc hrun hstep hallowed hC ih =>
    obtain ⟨ht₁, hdead₁⟩ := ih
    obtain ⟨_, q₁, -, -, h₁, -⟩ := hrun.run.exists_events h
    obtain ⟨ht', hcases⟩ := h₁.dead_step ht₁ hdead₁ hallowed hC.2 hstep
    exact ⟨ht', (hcases.resolve_left fun hrev ↦ hC.1 hrev.1).2⟩

/-- **A dead thread stays dead exactly as long as no call revives it.** Let `thread_exit` mark the
current thread `t` in a state reached after `sched_init_bootstrap`. In every state that calls other
than the reviving ones lead to, `t` is neither ready nor running, and in no queue; and the next call
keeps it so if and only if it is not a reviving one. -/
theorem dead_thread_stays_dead_iff {σ₀ σ₁ σ : SchedSys} {tr₀ tr : List (SchedOp × SchedOut)}
    {out : SchedOut} {t : Tid} (hreach : SchedRun .boot tr₀ σ₀) (hcurrent : σ₀.s.current = some t)
    (hmark : σ₀.step .exitMark = .ok (σ₁, out))
    (hrun : GuardedRun (fun σ op ↦ ¬Revives σ.s t op ∧ InExitLoop σ t op) σ₁ tr σ) :
    OutOfService σ.s t ∧ ∀ op σ' out', σ.Allowed op → InExitLoop σ t op →
      σ.step op = .ok (σ', out') → (OutOfService σ'.s t ↔ ¬Revives σ.s t op) := by
  obtain ⟨q₀, h₀⟩ := hreach.exists_inv
  obtain ⟨q₁, -, -, h₁⟩ := h₀.step (show σ₀.Allowed .exitMark from trivial) hmark
  have hs₁ : σ₁.s = σ₀.s.setState t .dead := by
    simp only [SchedSys.step, Sched.step, threadExitMark, hcurrent] at hmark
    cases hmark
    rfl
  have ht₁ : t < σ₁.s.nextTid := by
    rw [hs₁]
    exact h₀.current_lt hcurrent
  have hdead₁ : (σ₁.s.threads t).state = .dead := by
    rw [hs₁, Sched.setState_threads_self]
    rfl
  obtain ⟨ht, hdead⟩ := hrun.dead h₁ ht₁ hdead₁
  obtain ⟨_, q, -, -, h, -⟩ := hrun.run.exists_events h₁
  refine ⟨h.outOfService_of_dead hdead, fun op σ' out' hallowed hexit hstep ↦ ?_⟩
  obtain ⟨q', -, -, h'⟩ := h.step hallowed hstep
  obtain ⟨-, ⟨hrev, hst⟩ | ⟨hrev, hst⟩⟩ := h.dead_step ht hdead hallowed hexit hstep
  · exact iff_of_false (fun hout ↦ hout.2.1 hst) (not_not_intro hrev)
  · exact iff_of_true (h'.outOfService_of_dead hst) hrev

theorem dead_thread_stays_dead_of_two : ∃ σ₀ σ₁ σ : SchedSys, (∃ tr₀, SchedRun .boot tr₀ σ₀) ∧
    σ₀.s.current = some 1 ∧ (∃ out, σ₀.step .exitMark = .ok (σ₁, out)) ∧
    (∃ out, σ₁.step (.yield (.withSp 0)) = .ok (σ, out)) ∧ OutOfService σ.s 1 := by
  obtain ⟨tr₀, σ₀, hreach, -, hp⟩ := SchedRun.exists_of_exec .boot
    [.create (.onStack 0x40000), .create (.onStack 0x80000), .enqueue 1, .enqueue 2, .yield (.withSp 0)]
    (fun _ σ ↦ decide (σ.s.current = some 1) && σ.after .exitMark fun σ₁ _ ↦
      decide (σ₁.s.readyTail .interactive = some 2) && σ₁.after (.yield (.withSp 0)) fun _ _ ↦ true)
    (by decide +kernel)
  obtain ⟨hcurrent, hp⟩ := Bool.and_eq_true_iff.1 hp
  obtain ⟨σ₁, out, hmark, hp⟩ := SchedSys.exists_of_after hp
  obtain ⟨htail, hp⟩ := Bool.and_eq_true_iff.1 hp
  obtain ⟨σ, out', hyield, -⟩ := SchedSys.exists_of_after hp
  have hcur := of_decide_eq_true hcurrent
  refine ⟨σ₀, σ₁, σ, ⟨tr₀, hreach⟩, hcur, ⟨out, hmark⟩, ⟨out', hyield⟩, ?_⟩
  refine (dead_thread_stays_dead_iff hreach hcur hmark
    (.snoc (.nil σ₁) hyield trivial ⟨fun hrev ↦ ?_, fun _ _ ↦ nofun⟩)).1
  have := hrev.2 .interactive
  rw [of_decide_eq_true htail] at this
  cases this

/-- The only thread exits, and its `yield` makes it `RUNNING` again. -/
theorem dead_thread_revived : ¬∀ (σ₀ σ₁ σ : SchedSys) (tr₀ tr : List (SchedOp × SchedOut))
    (out : SchedOut) (t : Tid), SchedRun .boot tr₀ σ₀ → σ₀.s.current = some t →
    σ₀.step .exitMark = .ok (σ₁, out) → GuardedRun (fun σ op ↦ InExitLoop σ t op) σ₁ tr σ →
    OutOfService σ.s t := by
  intro hclaim
  obtain ⟨tr₀, σ₀, hreach, -, hp⟩ := SchedRun.exists_of_exec .boot
    [.create (.onStack 0x40000), .enqueue 1, .yield (.withSp 0)]
    (fun _ σ ↦ decide (σ.s.current = some 1) && σ.after .exitMark fun σ₁ _ ↦
      σ₁.after (.yield (.withSp 0)) fun σ _ ↦ decide ((σ.s.threads 1).state = .running))
    (by decide +kernel)
  obtain ⟨hcurrent, hp⟩ := Bool.and_eq_true_iff.1 hp
  obtain ⟨σ₁, out, hmark, hp⟩ := SchedSys.exists_of_after hp
  obtain ⟨σ, out', hyield, hrunning⟩ := SchedSys.exists_of_after hp
  have hout := hclaim σ₀ σ₁ σ tr₀ _ out 1 hreach (of_decide_eq_true hcurrent) hmark
    (.snoc (.nil σ₁) hyield trivial fun _ _ ↦ nofun)
  exact hout.2.1 (of_decide_eq_true hrunning)

end CapazOS
