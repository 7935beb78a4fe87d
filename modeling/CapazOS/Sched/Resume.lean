import CapazOS.Sched.Steps

/-!
# What a thread is resumed from

A thread that gives up the processor through `ctx_switch` leaves its registers in `ctx`, and one
that is preempted leaves the address of its trap frame in `irq_sp`; **the switch to a thread does
not look at how it was suspended**. `SuspensionRun` records the last suspension of every thread. As
long as each switch goes to a thread that was last suspended in the same way, or never ran, it
restores what that suspension recorded (`resumes_from_last_suspension_iff`).
-/

namespace CapazOS

open PatternQueues LinkRing Function

variable {σ : SchedSys} {tr : List (SchedOp × SchedOut)} {s : Sched} {t : Tid} {op : SchedOp} {out : SchedOut}
  {q : ReadyQueues}

/-! ### The last suspension -/

/-- How a thread was last suspended, with what was to be kept of it. -/
inductive Suspension where
  | never (img : ThreadImage)
  | coop (regs : Ctx)
  | irq (frame : TrapFrame)

/-- The last suspension of each thread that was created. -/
abbrev Suspensions := Tid → Option Suspension

variable {last : Suspensions}

def Mechanism.suspension : Mechanism → Suspension
  | .coop regs => .coop regs
  | .irq _ frame => .irq frame

/-- The record after a call that is made in the state `s`. -/
def recordSuspension (s : Sched) (op : SchedOp) (out : SchedOut) (last : Suspensions) : Suspensions :=
  match op with
  | .create img => update last s.nextTid (some (.never img))
  | op =>
    match out.resumed, s.current, op.mechanism s with
    | some _, some cur, some m => update last cur (some m.suspension)
    | _, _, _ => last

/-- What is restored is what the last suspension recorded, or the initial state. -/
def Restores : Option Suspension → Saved → Prop
  | some (.never img), .ctx c => c = img.initialCtx
  | some (.never img), .frame f => f = img.initialFrame
  | some (.coop regs), .ctx c => c = regs
  | some (.irq frame), .frame f => f = frame
  | _, _ => False

/-- The thread never ran, or was last suspended in the given way. -/
def SuspendedAlike : Option Suspension → Mechanism → Prop
  | some (.never _), _ => True
  | some (.coop _), .coop _ => True
  | some (.irq _), .irq _ _ => True
  | _, _ => False

/-- The thread that the ready queues and the pick pattern have in line for the call. -/
def NextInLine (s : Sched) (op : SchedOp) (t : Tid) : Prop :=
  ∃ q : ReadyQueues, Represents s q ∧ (q.run kPickPattern (op.events s)).2 = [t]

/-- If another thread is in line for the call, it was last suspended in the way in which the call
gives up the processor, or never ran. -/
def ResumesAlike (s : Sched) (last : Suspensions) (op : SchedOp) : Prop :=
  ∀ t m, NextInLine s op t → s.current ≠ some t → op.mechanism s = some m → SuspendedAlike (last t) m

/-- The states that calls meeting the condition `C` reach, with the last suspensions. -/
inductive SuspensionRun (C : Sched → Suspensions → SchedOp → Prop) :
    List (SchedOp × SchedOut) → SchedSys → Suspensions → Prop
  | boot : SuspensionRun C [] .boot fun _ ↦ none
  | call {tr : List (SchedOp × SchedOut)} {σ σ' : SchedSys} {last : Suspensions} {op : SchedOp}
      {out : SchedOut} (hrun : SuspensionRun C tr σ last) (hstep : σ.step op = .ok (σ', out))
      (hallowed : σ.Allowed op) (hC : C σ.s last op) :
      SuspensionRun C (tr ++ [(op, out)]) σ' (recordSuspension σ.s op out last)

theorem SuspensionRun.run {C : Sched → Suspensions → SchedOp → Prop} (h : SuspensionRun C tr σ last) :
    SchedRun .boot tr σ := by
  induction h with
  | boot => exact .nil _
  | call _ hstep hallowed _ ih => exact ih.trans (.cons hallowed hstep (.nil _))

/-! ### What is kept of a suspended thread -/

/-- The thread and its stack hold what its last suspension recorded. -/
def Keeping (s : Sched) (t : Tid) : Option Suspension → Prop
  | some (.never img) => (s.threads t).ctx = img.initialCtx ∧ s.frames t (s.threads t).irqSp = img.initialFrame
  | some (.coop regs) => (s.threads t).ctx = regs
  | some (.irq frame) => s.frames t (s.threads t).irqSp = frame
  | none => False

theorem Keeping.congr {s' : Sched} {last : Option Suspension} (h : Keeping s t last)
    (hctx : (s'.threads t).ctx = (s.threads t).ctx) (hirq : (s'.threads t).irqSp = (s.threads t).irqSp)
    (hframes : s'.frames t = s.frames t) : Keeping s' t last := by
  match last, h with
  | some (.never img), h => exact ⟨hctx.trans h.1, by rw [hframes, hirq, h.2]⟩
  | some (.coop regs), h => exact hctx.trans h
  | some (.irq frame), h =>
    show s'.frames t (s'.threads t).irqSp = frame
    rw [hframes, hirq]
    exact h

/-- **Every thread that may run again is kept**: all created threads but the current one and the
dead ones. The bootstrap thread does not run again once it gave up the processor. -/
def AllKept (s : Sched) (last : Suspensions) : Prop :=
  ∀ t, t < s.nextTid → t ≠ bootstrapThread → s.current ≠ some t → (s.threads t).state ≠ .dead → Keeping s t (last t)

theorem recordSuspension_of_eq_none (last : Suspensions) (hop : ∀ img, op ≠ .create img)
    (hout : out.resumed = none) : recordSuspension s op out last = last := by
  unfold recordSuspension
  split
  · exact absurd rfl (hop _)
  · simp only [hout]

theorem recordSuspension_of_eq_some (last : Suspensions) {cur : Tid} (hcurrent : s.current = some cur)
    {m : Mechanism} (hm : op.mechanism s = some m) {r : Tid × Saved} (hout : out.resumed = some r) :
    recordSuspension s op out last = update last cur (some m.suspension) := by
  unfold recordSuspension
  split
  · cases hm
  · simp only [hout, hcurrent, hm]

theorem keeping_create (s : Sched) (img : ThreadImage) :
    Keeping (threadCreate s img) s.nextTid (some (.never img)) := by
  simp [Keeping, threadCreate]

/-- **One call**: the threads that may run again are kept. -/
theorem AllKept.step {σ' : SchedSys} (h : SchedInv σ q) (hkept : AllKept σ.s last) (hallowed : σ.Allowed op)
    (hstep : σ.step op = .ok (σ', out)) : AllKept σ'.s (recordSuspension σ.s op out last) := by
  obtain ⟨cur, hcurrent, -⟩ := h.current
  unfold SchedSys.step at hstep
  cases h.outcome hcurrent hallowed with
  | fault f hf hr =>
    rw [hr] at hstep
    cases hstep
  | quiet s' q' hr hrun hvalid hinv hkeeps hnew hm =>
    rw [hr] at hstep
    cases hstep
    have hold : ∀ t, t < σ.s.nextTid → t ≠ bootstrapThread → s'.current ≠ some t →
        (s'.threads t).state ≠ .dead → Keeping s' t (last t) := by
      intro t ht hboot hcur hst
      rw [hkeeps.current, ← hcurrent] at hcur
      have hne : t ≠ cur := fun heq ↦ hcur (heq ▸ hcurrent)
      exact (hkept t ht hboot hcur fun hdead ↦ hst (hkeeps.dead t ht hdead)).congr
        (hkeeps.threads t ht hne).1 (hkeeps.threads t ht hne).2 (hkeeps.frames t ht hne)
    by_cases hcreate : ∃ img, op = .create img
    · obtain ⟨img, rfl⟩ := hcreate
      cases hr
      intro t ht hboot hcur hst
      rcases eq_or_ne t σ.s.nextTid with rfl | hne
      · rw [recordSuspension, update_self]
        exact keeping_create σ.s img
      · rw [recordSuspension, update_of_ne hne]
        exact hold t (lt_of_le_of_ne (Nat.le_of_lt_succ ht) hne) hboot hcur hst
    · rw [recordSuspension_of_eq_none last (not_exists.1 hcreate) rfl]
      intro t ht
      exact hold t (hnew.resolve_right hcreate ▸ ht)
  | gaveUp m hm henq hgave =>
    cases hgave with
    | fault f hf hr =>
      rw [hr] at hstep
      cases hstep
    | stay s' q' popped hr hpop hrun hvalid hidle hinv hstay =>
      rw [hr] at hstep
      cases hstep
      rw [recordSuspension_of_eq_none last (by rintro img rfl; cases hm) rfl]
      intro t ht hboot hcur hst
      rw [hstay.current, ← hcurrent] at hcur
      have hne : t ≠ cur := fun heq ↦ hcur (heq ▸ hcurrent)
      have hsame := hstay.others t hne
      exact (hkept t (hstay.next ▸ ht) hboot hcur (hsame ▸ hst)).congr (by rw [hsame]) (by rw [hsame])
        (hstay.frames t hne)
    | switch s' q' next saved hr hrun hvalid hq hinv hswitch hrec =>
      rw [hr] at hstep
      cases hstep
      rw [recordSuspension_of_eq_some last hcurrent hm rfl]
      intro t ht hboot hcur hst
      have hnext : t ≠ next := fun heq ↦ hcur (heq ▸ hswitch.current)
      rcases eq_or_ne t cur with rfl | hne
      · rw [update_self]
        cases m with
        | coop regs => exact hrec.2
        | irq tf frame =>
          -- The frame is recorded for a running thread only; a dead one is not kept.
          rcases h.current_state hcurrent with hrunning | hdead
          · obtain ⟨hirq, hframe⟩ := hrec.2 hboot hrunning
            show s'.frames t (s'.threads t).irqSp = frame
            rw [hirq, hframe]
          · refine absurd (hswitch.state_cur.trans ?_) hst
            cases op with
            | irqExit tf' frame' => exact (if_neg fun hrun ↦ by cases hdead.symm.trans hrun.2).trans hdead
            | _ => cases hm
      · have hsame := hswitch.others t hne hnext
        rw [update_of_ne hne]
        refine (hkept t (hswitch.next ▸ ht) hboot ?_ (hsame ▸ hst)).congr (by rw [hsame]) (by rw [hsame])
          (hswitch.frames t hne)
        exact fun heq ↦ hne (Option.some.inj (heq.symm.trans hcurrent))

theorem allKept_boot : AllKept SchedSys.boot.s fun _ ↦ none :=
  fun _ ht hboot ↦ absurd (Nat.lt_one_iff.1 ht) hboot

theorem SuspensionRun.allKept {C : Sched → Suspensions → SchedOp → Prop} (hrun : SuspensionRun C tr σ last) :
    AllKept σ.s last := by
  induction hrun with
  | boot => exact allKept_boot
  | call hrun hstep hallowed _ ih =>
    obtain ⟨q, h⟩ := hrun.run.exists_inv
    exact ih.step h hallowed hstep

/-! ### Switches -/

/-- The saved state that a switch loads, by the way in which the processor is given up. -/
def Mechanism.loads (s : Sched) (t : Tid) : Mechanism → Saved
  | .coop _ => .ctx (s.threads t).ctx
  | .irq _ _ => .frame (s.frames t (s.threads t).irqSp)

theorem Mechanism.Records.eq_loads {s' : Sched} {cur : Tid} {saved : Saved} {m : Mechanism}
    (h : m.Records s s' cur t saved) : saved = m.loads s t := by
  cases m with
  | coop regs => exact h.1
  | irq tf frame => exact h.1

theorem Keeping.restores_iff {last : Option Suspension} (h : Keeping s t last) (m : Mechanism) :
    Restores last (m.loads s t) ↔ SuspendedAlike last m := by
  match last, m, h with
  | some (.never img), .coop regs, h => exact iff_of_true h.1 trivial
  | some (.never img), .irq tf frame, h => exact iff_of_true h.2 trivial
  | some (.coop regs), .coop _, h => exact iff_of_true h trivial
  | some (.coop regs), .irq _ _, _ => exact Iff.rfl
  | some (.irq frame), .coop _, _ => exact Iff.rfl
  | some (.irq frame), .irq _ _, h => exact iff_of_true h trivial

theorem Represents.unique {q' : ReadyQueues} (h : Represents s q) (h' : Represents s q') : q = q' := by
  obtain ⟨queue, cursor⟩ := q
  obtain ⟨queue', cursor'⟩ := q'
  obtain rfl : queue = queue' := funext fun i ↦ (h.ring i).unique (h'.ring i)
  obtain rfl : cursor = cursor' := h.cursor.symm.trans h'.cursor
  rfl

theorem SchedInv.nextInLine_iff (h : SchedInv σ q) :
    NextInLine σ.s op t ↔ (q.run kPickPattern (op.events σ.s)).2 = [t] := by
  constructor
  · rintro ⟨q', hrep, ht⟩
    rwa [h.rep.unique hrep]
  · exact fun ht ↦ ⟨q, h.rep, ht⟩

/-- **A thread is resumed from its last suspension exactly as long as it is resumed the way it was
suspended.** Let every call so far have met `ResumesAlike`. If the next call switches to a thread,
it restores what the last suspension of the thread recorded, or its initial state if the thread
never ran, if and only if it meets `ResumesAlike`, too. -/
theorem resumes_from_last_suspension_iff {tr : List (SchedOp × SchedOut)} {σ σ' : SchedSys}
    {last : Suspensions} (hrun : SuspensionRun ResumesAlike tr σ last) {op : SchedOp} {out : SchedOut}
    (hstep : σ.step op = .ok (σ', out)) (hallowed : σ.Allowed op) :
    (∀ t saved, out.resumed = some (t, saved) → Restores (last t) saved) ↔ ResumesAlike σ.s last op := by
  obtain ⟨q, h⟩ := hrun.run.exists_inv
  obtain ⟨cur, hcurrent, -⟩ := h.current
  have hkept := hrun.allKept
  unfold SchedSys.step at hstep
  cases h.outcome hcurrent hallowed with
  | fault f hf hr =>
    rw [hr] at hstep
    cases hstep
  | quiet s' q' hr hrun hvalid hinv hkeeps hnew hm =>
    rw [hr] at hstep
    cases hstep
    exact iff_of_true nofun fun t m _ _ hm' ↦ by cases hm.symm.trans hm'
  | gaveUp m hm henq hgave =>
    cases hgave with
    | fault f hf hr =>
      rw [hr] at hstep
      cases hstep
    | stay s' q' popped hr hpop hrun hvalid hidle hinv hstay =>
      rw [hr] at hstep
      cases hstep
      refine iff_of_true nofun fun t m' hnext hne _ ↦ ?_
      rw [h.nextInLine_iff, hrun] at hnext
      have ht : popped = some t := Option.mem_toList.1 <| by
        rw [show popped.toList = [t] from hnext]
        exact List.mem_singleton_self t
      exact absurd (hpop t ht ▸ hcurrent) hne
    | switch s' q' next saved hr hrun hvalid hq hinv hswitch hrec =>
      rw [hr] at hstep
      cases hstep
      obtain ⟨i, hi⟩ := hq
      have henq := h.queued_enq i next hi
      have hkeeping : Keeping σ.s next (last next) := by
        refine hkept next (h.enq_lt next henq) ?_ (fun hcur ↦ h.not_mem_queue hcur i hi) ?_
        · rintro rfl
          exact h.boot_not_enq henq
        · rw [h.queued_ready i next hi]
          nofun
      have hiff := hkeeping.restores_iff m
      rw [← hrec.eq_loads] at hiff
      constructor
      · intro hrestores t m' hnext _ hm'
        rw [h.nextInLine_iff, hrun] at hnext
        obtain rfl := List.singleton_inj.1 hnext
        obtain rfl := Option.some.inj (hm.symm.trans hm')
        exact hiff.1 (hrestores _ saved rfl)
      · rintro halike t saved' heq
        cases heq
        refine hiff.2 (halike _ m ?_ ?_ hm)
        · rw [h.nextInLine_iff, hrun]
        · rw [hcurrent]
          exact fun heq ↦ hswitch.ne (Option.some.inj heq).symm

/-- Two threads that yield to each other: thread 1, suspended with the stack pointer `0x41000`,
continues with it. -/
theorem resumed_from_last_yield : ∃ (tr : List (SchedOp × SchedOut)) (σ σ' : SchedSys)
    (last : Suspensions) (out : SchedOut), SuspensionRun ResumesAlike tr σ last ∧
    σ.step (.yield (.withSp 0x81000)) = .ok (σ', out) ∧ last 1 = some (.coop (.withSp 0x41000)) ∧
    out.resumed = some (1, .ctx (.withSp 0x41000)) ∧ ResumesAlike σ.s last (.yield (.withSp 0x81000)) := by
  have hcreate₁ : SuspensionRun ResumesAlike _ _ _ :=
    .call .boot (show SchedSys.boot.step (.create (.onStack 0x40000)) = .ok (_, _) from rfl) trivial
      fun _ _ _ _ hm ↦ nomatch hm
  have hcreate₂ : SuspensionRun ResumesAlike _ _ _ :=
    .call hcreate₁ (show SchedSys.step _ (.create (.onStack 0x80000)) = .ok (_, _) from rfl) trivial
      fun _ _ _ _ hm ↦ nomatch hm
  have henqueue₁ : SuspensionRun ResumesAlike _ _ _ :=
    .call hcreate₂ (show SchedSys.step _ (.enqueue 1) = .ok (_, _) from rfl) (by decide +kernel)
      fun _ _ _ _ hm ↦ nomatch hm
  have henqueue₂ : SuspensionRun ResumesAlike _ _ _ :=
    .call henqueue₁ (show SchedSys.step _ (.enqueue 2) = .ok (_, _) from rfl) (by decide +kernel)
      fun _ _ _ _ hm ↦ nomatch hm
  have hyield {tr σ σ' last out regs} (h : SuspensionRun ResumesAlike tr σ last)
      (hstep : σ.step (.yield regs) = .ok (σ', out))
      (hrestores : ∀ t saved, out.resumed = some (t, saved) → Restores (last t) saved) :
      SuspensionRun ResumesAlike _ σ' _ :=
    .call h hstep trivial ((resumes_from_last_suspension_iff h hstep trivial).1 hrestores)
  -- the bootstrap thread yields to 1, and 1 to 2
  have hyield₁ := hyield henqueue₂ (show SchedSys.step _ (.yield (.withSp 0)) = .ok (_, _) from rfl)
    (by rintro t saved ⟨⟩; exact rfl)
  have hyield₂ := hyield hyield₁ (show SchedSys.step _ (.yield (.withSp 0x41000)) = .ok (_, _) from rfl)
    (by rintro t saved ⟨⟩; exact rfl)
  refine ⟨_, _, _, _, _, hyield₂, rfl, rfl, rfl, (resumes_from_last_suspension_iff hyield₂
    (show SchedSys.step _ (.yield (.withSp 0x81000)) = .ok (_, _) from rfl) trivial).1 ?_⟩
  rintro t saved ⟨⟩
  exact rfl

/-- The calls one after the other, with the record of the last suspensions. -/
def SchedSys.execRecord (σ : SchedSys) (last : Suspensions) : List SchedOp → Option (SchedSys × Suspensions)
  | [] => some (σ, last)
  | op :: ops =>
    if σ.Allowed op then
      match σ.step op with
      | .error _ => none
      | .ok (σ₁, out) => σ₁.execRecord (recordSuspension σ.s op out last) ops
    else none

theorem SuspensionRun.of_execRecord {ops : List SchedOp} {σ' : SchedSys} {last' : Suspensions}
    (hrun : SuspensionRun (fun _ _ _ ↦ True) tr σ last) (h : σ.execRecord last ops = some (σ', last')) :
    ∃ tr', SuspensionRun (fun _ _ _ ↦ True) tr' σ' last' := by
  induction ops generalizing σ last tr with
  | nil =>
    cases h
    exact ⟨tr, hrun⟩
  | cons op ops ih =>
    simp only [SchedSys.execRecord] at h
    split_ifs at h with hallowed
    split at h
    · cases h
    · rename_i σ₁ out hstep
      exact ih (.call hrun hstep hallowed trivial) h

/-- The first thread yields, the second is preempted: the first continues with its initial trap
frame, not with its `ctx`. -/
theorem resumed_from_stale_frame : ¬∀ (tr : List (SchedOp × SchedOut)) (σ σ' : SchedSys)
    (last : Suspensions) (op : SchedOp) (out : SchedOut),
    SuspensionRun (fun _ _ _ ↦ True) tr σ last → σ.step op = .ok (σ', out) → σ.Allowed op →
    ∀ t saved, out.resumed = some (t, saved) → Restores (last t) saved := by
  intro hclaim
  have hexec : SchedSys.boot.execRecord (fun _ ↦ none)
      [.create (.onStack 0x40000), .create (.onStack 0x80000), .enqueue 1, .enqueue 2,
        .yield (.withSp 0), .yield (.withSp 0x41000), .timerTick false, .timerTick false] = some (_, _) := rfl
  obtain ⟨tr, hrun⟩ := SuspensionRun.of_execRecord .boot hexec
  -- a trap frame is loaded, and the last suspension was a cooperative one
  exact hclaim tr _ _ _ (.irqExit 0x81000 ⟨fun _ ↦ 0, 0, 0, 0⟩) _ hrun rfl trivial 1 (.frame _) rfl

end CapazOS
