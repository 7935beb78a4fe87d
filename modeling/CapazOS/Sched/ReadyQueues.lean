import CapazOS.Sched.Steps

/-!
# The ready queues over whole runs

`run_queue_invariant` is the run-queue invariant in terms of the links and tails of the source, in
every state that calls reach from `sched_init_bootstrap`. By `bounded_waiting` a thread at position
`k` of its queue is among the next `13 * (k + 1)` threads that are picked, **whatever else is
enqueued, woken or moved meanwhile**, and the threads of one intent are picked in the order in which
they were inserted.
-/

namespace CapazOS

open List PatternQueues LinkRing

/-! ### The invariant -/

/-- The ready queues `L` in terms of the source: what the tails and links hold, and for which
threads. -/
structure ReadyQueuesOk (s : Sched) (enq : Finset Tid) (L : SchedIntent → List Tid) : Prop where
  ring : ∀ i, IsRing s.rqNext (s.readyTail i) (L i)
  disjoint : ∀ i j t, t ∈ L i → t ∈ L j → i = j
  linked : ∀ t, s.rqNext t ≠ none ↔ ∃ i, t ∈ L i
  intent : ∀ i, ∀ t ∈ L i, (s.threads t).schedIntent = i
  ready : ∀ i, ∀ t ∈ L i, (s.threads t).state = .ready
  queued : ∀ t ∈ enq, (s.threads t).state = .ready → ∃ i, t ∈ L i
  current : ∀ cur, s.current = some cur → ∀ i, cur ∉ L i

theorem SchedInv.readyQueuesOk {σ : SchedSys} {q : ReadyQueues} (h : SchedInv σ q) :
    ReadyQueuesOk σ.s σ.enqueued q.queue where
  ring := h.rep.ring
  disjoint := h.rep.wf.disjoint
  linked t := by rw [Option.ne_none_iff_isSome, h.rep.isSome_iff]
  intent := h.intent
  ready := h.queued_ready
  queued := h.ready_queued
  current _ hcur := h.not_mem_queue hcur

theorem SchedInv.step_ne_error {σ : SchedSys} {q : ReadyQueues} (h : SchedInv σ q) {op : SchedOp}
    (hallowed : σ.Allowed op) {f : SchedFault} (hf : ¬f.IsGuard) : σ.s.step op ≠ .error f := by
  obtain ⟨cur, hcurrent, -⟩ := h.current
  intro herr
  cases h.outcome hcurrent hallowed with
  | fault f' hf' hr =>
    obtain rfl := Except.error.inj (hr.symm.trans herr)
    exact hf hf'
  | quiet s' q' hr => cases hr.symm.trans herr
  | gaveUp m hm henq hgave =>
    cases hgave with
    | fault f' hf' hr =>
      obtain rfl := Except.error.inj (hr.symm.trans herr)
      exact hf (hf'.imp_right .inl)
    | stay s' q' popped hr => cases hr.symm.trans herr
    | switch s' q' t saved hr => cases hr.symm.trans herr

/-- **The run-queue invariant.** In every state reached after `sched_init_bootstrap` the four queues
are as `ReadyQueuesOk` says, and no further call ends in one of the panics about queued threads. -/
theorem run_queue_invariant {σ : SchedSys} {tr : List (SchedOp × SchedOut)}
    (hrun : SchedRun .boot tr σ) :
    (∃ L, ReadyQueuesOk σ.s σ.enqueued L) ∧ ∀ op, σ.Allowed op →
      σ.s.step op ≠ .error .alreadyQueued ∧ σ.s.step op ≠ .error .currentEnqueued ∧
        σ.s.step op ≠ .error .currentEnqueuedIrq := by
  obtain ⟨q, h⟩ := hrun.exists_inv
  refine ⟨⟨q.queue, h.readyQueuesOk⟩, fun op hop ↦ ⟨?_, ?_, ?_⟩⟩
  all_goals
    refine h.step_ne_error hop ?_
    simp [SchedFault.IsGuard, SchedFault.IsStackCheck]

theorem run_queue_invariant_start : ∃ (tr : List (SchedOp × SchedOut)) (σ : SchedSys),
    SchedRun .boot tr σ ∧ σ.s.current = some 1 ∧ σ.s.rqNext 2 = some 2 ∧
      (∃ L, ReadyQueuesOk σ.s σ.enqueued L) ∧ ∀ op, σ.Allowed op →
        σ.s.step op ≠ .error .alreadyQueued ∧ σ.s.step op ≠ .error .currentEnqueued ∧
          σ.s.step op ≠ .error .currentEnqueuedIrq := by
  obtain ⟨tr, σ, hrun, -, hp⟩ := SchedRun.exists_of_exec .boot
    [.create (.onStack 0x40000), .create (.onStack 0x80000), .enqueue 1, .enqueue 2, .yield (.withSp 0)]
    (fun _ σ ↦ decide (σ.s.current = some 1 ∧ σ.s.rqNext 2 = some 2)) (by decide +kernel)
  obtain ⟨hcurrent, hnext⟩ := of_decide_eq_true hp
  exact ⟨tr, σ, hrun, hcurrent, hnext, run_queue_invariant hrun⟩

/-! ### Waiting -/

theorem not_erase_mem_dispatchEvents (s : Sched) (i : SchedIntent) (t : Tid) : .erase i t ∉ dispatchEvents s := by
  unfold dispatchEvents requeueEvents
  split
  · exact not_mem_nil
  · split_ifs <;> simp

theorem SchedOp.eq_setIntent_of_erase {s : Sched} {op : SchedOp} {i : SchedIntent} {t : Tid}
    (h : .erase i t ∈ op.events s) : ∃ raw, op = .setIntent t raw := by
  cases op with
  | setIntent u raw =>
    simp only [SchedOp.events] at h
    split_ifs at h
    · cases h
    · simp only [mem_cons, Event.erase.injEq, reduceCtorEq, not_mem_nil, or_false] at h
      exact ⟨raw, by rw [h.2]⟩
    · cases h
  | yield regs => exact absurd h (not_erase_mem_dispatchEvents s i t)
  | irqExit tf frame =>
    simp only [SchedOp.events] at h
    split_ifs at h
    · cases h
    · exact absurd h (not_erase_mem_dispatchEvents s i t)
  | enqueue u =>
    simp only [SchedOp.events] at h
    split_ifs at h <;> simp at h
  | wake u =>
    simp only [SchedOp.events] at h
    split_ifs at h <;> simp at h
  | blockCurrent regs => simp [SchedOp.events] at h
  | _ => cases h

/-- No call of the run sets the intent of `t`. -/
def KeepsIntent (t : Tid) (tr : List (SchedOp × SchedOut)) : Prop :=
  ∀ c ∈ tr, ∀ raw, c.1 ≠ .setIntent t raw

theorem KeepsIntent.keeps {t : Tid} {tr : List (SchedOp × SchedOut)} (h : KeepsIntent t tr)
    {evs : List (Event SchedIntent Tid)} (hevs : ∀ ev ∈ evs, ∃ c ∈ tr, ∃ s, ev ∈ c.1.events s)
    (i : SchedIntent) : ∀ ev ∈ evs, Keeps i t ev := by
  intro ev hev
  cases ev with
  | push _ _ => trivial
  | pop => trivial
  | erase j u =>
    rintro ⟨rfl, rfl⟩
    obtain ⟨c, hc, s, hmem⟩ := hevs _ hev
    obtain ⟨raw, hraw⟩ := SchedOp.eq_setIntent_of_erase hmem
    exact h c hc raw hraw

/-- **Bounded waiting.** Let `l` be the ready queue of an intent in a state reached after
`sched_init_bootstrap`, and let the calls go on from there.
* A thread at position `k` of `l` is among the next `13 * (k + 1)` threads picked, unless its intent is
  changed.
* Of two threads of `l`, the one in front is picked first, unless the intent of one of them is changed.
* A thread that is inserted later stands behind the threads of `l` that still wait. -/
theorem bounded_waiting {σ : SchedSys} {tr₀ : List (SchedOp × SchedOut)}
    (hreach : SchedRun .boot tr₀ σ) {i : SchedIntent} {l : List Tid}
    (hl : IsRing σ.s.rqNext (σ.s.readyTail i) l) {σ' : SchedSys} {tr : List (SchedOp × SchedOut)}
    (hrun : SchedRun σ tr σ') :
    (∀ k t, l[k]? = some t → KeepsIntent t tr → 13 * (k + 1) ≤ (SchedRun.popped tr).length →
      t ∈ (SchedRun.popped tr).take (13 * (k + 1))) ∧
    (∀ u t, [u, t].Sublist l → KeepsIntent u tr → KeepsIntent t tr → t ∈ SchedRun.popped tr →
      (SchedRun.popped tr).idxOf u < (SchedRun.popped tr).idxOf t) ∧
    ∀ l', IsRing σ'.s.rqNext (σ'.s.readyTail i) l' → ∀ u ∈ l, KeepsIntent u tr →
      u ∉ SchedRun.popped tr → u ∈ l' ∧ ∀ t ∈ l', t ∉ l → [u, t].Sublist l' := by
  obtain ⟨q, h⟩ := hreach.exists_inv
  obtain rfl : q.queue i = l := (h.rep.ring i).unique hl
  obtain ⟨evs, q', hq', hvalid, h', hevs⟩ := hrun.exists_events h
  have hpopped : (q.run kPickPattern evs).2 = SchedRun.popped tr := by rw [hq']
  have hstate : (q.run kPickPattern evs).1 = q' := by rw [hq']
  obtain ⟨p, hp⟩ := Represents.exists_place i
  refine ⟨fun k t hk hkeep hlen ↦ ?_, fun u t hut hu ht hmem ↦ ?_, fun l' hl' u hu hkeep hwaits ↦ ?_⟩
  · obtain ⟨hklt, hk⟩ := List.getElem?_eq_some_iff.1 hk
    have ht : t ∈ q.queue i := hk ▸ getElem_mem hklt
    have hidx : (q.queue i).idxOf t = k := by
      rw [← hk, (h.rep.wf.nodup i).idxOf_getElem]
    have hrank := rank_lt hp t q
    rw [hidx, Nat.mul_comm, show kPickPattern.length = 13 from rfl] at hrank
    have htake := mem_take_run hp (hkeep.keeps hevs i) ht (by rw [hpopped]; exact hrank.trans_le hlen)
    rw [hpopped] at htake
    exact (take_sublist_take_left hrank).subset htake
  · rw [← hpopped] at hmem ⊢
    exact idxOf_lt_of_sublist (fun ev hev ↦ ⟨hu.keeps hevs i ev hev, ht.keeps hevs i ev hev⟩) h.rep.wf
      hvalid hut hmem
  · obtain rfl : q'.queue i = l' := (h'.rep.ring i).unique hl'
    rw [← hpopped] at hwaits
    rw [← hstate]
    obtain ⟨hu', hbehind⟩ := behind_run (hkeep.keeps hevs i) h.rep.wf hvalid hwaits hu
    exact ⟨hu', fun t ht hnew ↦ hbehind t (fun hin ↦ absurd hin hnew) ht⟩

theorem bounded_waiting_two : ∃ (tr₀ tr : List (SchedOp × SchedOut)) (σ σ' : SchedSys),
    SchedRun .boot tr₀ σ ∧ IsRing σ.s.rqNext (σ.s.readyTail .interactive) [1, 2] ∧
      SchedRun σ tr σ' ∧ (SchedRun.popped tr).length = 13 ∧ 1 ∈ (SchedRun.popped tr).take 13 ∧
      (SchedRun.popped tr).idxOf 1 < (SchedRun.popped tr).idxOf 2 := by
  obtain ⟨tr₀, σ, hreach, -, hp⟩ := SchedRun.exists_of_exec .boot
    [.create (.onStack 0x40000), .create (.onStack 0x80000), .enqueue 1, .enqueue 2]
    (fun _ σ ↦ (σ.exec (replicate 13 (.yield (.withSp 0)))).any (fun r ↦
      decide (SchedRun.popped r.1 = [1, 2, 1, 2, 1, 2, 1, 2, 1, 2, 1, 2, 1])) &&
        decide (σ.s.readyTail .interactive = some 2 ∧ σ.s.rqNext 2 = some 1 ∧ σ.s.rqNext 1 = some 2))
    (by decide +kernel)
  obtain ⟨hexec, hlinks⟩ := Bool.and_eq_true_iff.1 hp
  obtain ⟨htail, hnext₂, hnext₁⟩ := of_decide_eq_true hlinks
  obtain ⟨tr, σ', hrun, hops, hpopped⟩ := SchedRun.exists_of_exec σ _
    (fun tr _ ↦ decide (SchedRun.popped tr = _)) hexec
  have hpops := of_decide_eq_true hpopped
  have hring : IsRing σ.s.rqNext (σ.s.readyTail .interactive) [1, 2] := by
    rw [htail]
    exact ⟨[1], rfl, by decide, hnext₂, hnext₁⟩
  have hkeep : ∀ t, KeepsIntent t tr := fun t c hc raw heq ↦ by
    have hmem := mem_map_of_mem (f := Prod.fst) hc
    rw [hops] at hmem
    cases heq.symm.trans (eq_of_mem_replicate hmem)
  obtain ⟨hwait, horder, -⟩ := bounded_waiting hreach hring hrun
  refine ⟨tr₀, tr, σ, σ', hreach, hring, hrun, by rw [hpops]; rfl, ?_, ?_⟩
  · exact hwait 0 1 rfl (hkeep 1) (by rw [hpops]; decide)
  · exact horder 1 2 (List.Sublist.refl _) (hkeep 1) (hkeep 2) (by rw [hpops]; decide)

end CapazOS
