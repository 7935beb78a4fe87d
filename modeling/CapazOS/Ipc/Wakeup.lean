import CapazOS.Ipc.Channel

/-!
# Lost wake-ups

`ipc_recv_cap` registers the caller as the waiter with interrupts masked, unmasks them, and calls
`sched_block_current`. **In between the receiver is named as the waiter but is not blocked yet**: a
sender takes the name away, and `sched_wake` does nothing for a thread that is not `BLOCKED`.
Without a send at that point no wake-up is lost, and each such send does lose one
(`no_lost_wakeup`).
-/

namespace CapazOS

open LinkQueue Function

variable {tr : List (ℕ × IpcOut)} {s s' : Ipc} {e : Eid} {Q : Eid → List Mid}

/-- Thread `t` is blocked in `ipc_recv_cap` on `e`, the queue of `e` is not empty, and `t` is not
named as the waiter: no later send wakes it. -/
def LostWakeup (s : Ipc) (e : Eid) (t : ℕ) : Prop :=
  s.calls t = .blocked e ∧ (s.endpoints e).ends.head ≠ none ∧ (s.endpoints e).waitingRecv ≠ some t

/-- A send to `e` is about to append its message while the waiter `w` of `e` is not blocked yet. -/
def WakesTooEarly (s : Ipc) (t : ℕ) (op : IpcOp) (e : Eid) (w : ℕ) : Prop :=
  (∃ m msg, s.calls t = .sending e m msg) ∧ (match op with | .push => True | _ => False) ∧
    (s.endpoints e).waitingRecv = some w ∧ s.calls w = .blocking e

/-- The interleavings in which no send wakes its receiver too early. -/
inductive TimelyRun : List (ℕ × IpcOut) → Ipc → Prop
  | init : TimelyRun [] .init
  | step {tr : List (ℕ × IpcOut)} {s s' : Ipc} {t : ℕ} {op : IpcOp} {out : IpcOut} (h : TimelyRun tr s)
      (hstep : s.step t op = some (s', out)) (htimely : ∀ e w, ¬WakesTooEarly s t op e w) :
      TimelyRun (tr ++ [(t, out)]) s'

theorem TimelyRun.run (h : TimelyRun tr s) : IpcRun tr s := by
  induction h with
  | init => exact .init
  | step _ hstep _ ih => exact ih.step hstep

/-- **The waiter is who it should be**: an endpoint with a waiter has an empty queue, and a thread
that is blocked or about to block is the waiter. -/
structure WaiterInv (s : Ipc) : Prop where
  empty : ∀ e w, (s.endpoints e).waitingRecv = some w → (s.endpoints e).ends.head = none
  named : ∀ t e, s.calls t = .blocking e ∨ s.calls t = .blocked e → (s.endpoints e).waitingRecv = some t

theorem waiterInv_init : WaiterInv .init where
  empty _ _ h := nomatch h
  named _ _ h := by rcases h with h | h <;> cases h

namespace WaiterInv

variable {t : ℕ}

theorem setCall (h : WaiterInv s) {c : CallState} (hends : s'.endpoints = s.endpoints) (hcalls : s'.calls = s.calls)
    (hc : ∀ e, c = .blocking e ∨ c = .blocked e → (s.endpoints e).waitingRecv = some t) :
    WaiterInv (s'.setCall t c) := by
  refine ⟨fun e w hw ↦ ?_, fun u e hu ↦ ?_⟩
  · rw [show (s'.setCall t c).endpoints = s.endpoints from hends] at hw ⊢
    exact h.empty e w hw
  · rw [show (s'.setCall t c).endpoints = s.endpoints from hends]
    rcases eq_or_ne u t with rfl | hne
    · rw [Ipc.setCall_calls_self] at hu
      exact hc e hu
    · rw [Ipc.setCall_calls_of_ne _ hne, hcalls] at hu
      exact h.named u e hu

theorem push (h : WaiterInv s) {m : Mid}
    (htimely : ∀ w, (s.endpoints e).waitingRecv = some w → s.calls w ≠ .blocking e) :
    WaiterInv ((ipcSendPush s e m).setCall t .idle) := by
  have hwoken := ipcSendPush_spec s e m
  have hends : (ipcSendPush s e m).endpoints = update s.endpoints e (pushedEndpoint s e m) := hwoken.endpoints
  have hcalls : ∀ u e', (ipcSendPush s e m).calls u = .blocking e' ∨
      (ipcSendPush s e m).calls u = .blocked e' → s.calls u = (ipcSendPush s e m).calls u := by
    intro u e' hu
    rcases hwoken.calls u with hsame | ⟨_, -, -, hrecv⟩
    · exact hsame.symm
    · rw [hrecv] at hu
      rcases hu with hu | hu <;> cases hu
  refine ⟨fun e' w hw ↦ ?_, fun u e' hu ↦ ?_⟩
  · rw [show ((ipcSendPush s e m).setCall t .idle).endpoints = _ from hends] at hw ⊢
    rcases eq_or_ne e' e with rfl | hne
    · rw [update_self] at hw
      cases hw
    · rw [update_of_ne hne] at hw ⊢
      exact h.empty e' w hw
  · rcases eq_or_ne u t with rfl | hut
    · rw [Ipc.setCall_calls_self] at hu
      rcases hu with hu | hu <;> cases hu
    rw [Ipc.setCall_calls_of_ne _ hut] at hu
    have hsame := hcalls u e' hu
    have hw := h.named u e' (hsame ▸ hu)
    rw [show ((ipcSendPush s e m).setCall t .idle).endpoints = _ from hends]
    rcases eq_or_ne e' e with rfl | hne
    · -- The waiter was about to block, which is excluded, or blocked, and then it was woken.
      rcases hu with hu | hu
      · exact absurd (hsame.trans hu) (htimely u hw)
      · exact absurd hu (hwoken.not_blocked u hw e')
    · rw [update_of_ne hne]
      exact hw

theorem take (h : WaiterInv s) (hinv : ChannelInv s tr Q) {wait : Bool}
    (hcall : s.calls t = .receiving e wait) : WaiterInv (ipcTake s t e wait).1 := by
  unfold ipcTake
  split
  · rename_i m s₁ hpop
    obtain ⟨rest, hQ, -⟩ := hinv.pop hcall hpop
    have hhead : (s.endpoints e).ends.head = some m := by rw [(hinv.queue e).head, hQ, List.head?_cons]
    obtain ⟨ends', hends, hcalls⟩ := qPopHead_eq_some hpop
    have hwaits : ∀ e', (s₁.endpoints e').waitingRecv = (s.endpoints e').waitingRecv := fun e' ↦ by
      rw [hends]
      rcases eq_or_ne e' e with rfl | hne
      · rw [update_self]
        rfl
      · rw [update_of_ne hne]
    refine ⟨fun e' w hw ↦ ?_, fun u e' hu ↦ ?_⟩
    · rw [show ((s₁.setCall t (.copying e m)).endpoints e').waitingRecv = _ from hwaits e'] at hw
      rcases eq_or_ne e' e with rfl | hne
      · -- There is a message, so nobody waits.
        cases hhead.symm.trans (h.empty e' w hw)
      · rw [show (s₁.setCall t (.copying e m)).endpoints = _ from hends, update_of_ne hne]
        exact h.empty e' w hw
    · rw [show ((s₁.setCall t (.copying e m)).endpoints e').waitingRecv = _ from hwaits e']
      rcases eq_or_ne u t with rfl | hne
      · rw [Ipc.setCall_calls_self] at hu
        rcases hu with hu | hu <;> cases hu
      · rw [Ipc.setCall_calls_of_ne _ hne, hcalls] at hu
        exact h.named u e' hu
  · rename_i hpop
    split_ifs with hclosed hwait hother
    · exact h.setCall rfl rfl fun _ ↦ by rintro (h | h) <;> cases h
    · exact h.setCall rfl rfl fun _ ↦ by rintro (h | h) <;> cases h
    · exact h.setCall rfl rfl fun _ ↦ by rintro (h | h) <;> cases h
    · have hhead : (s.endpoints e).ends.head = none := by
        have hqueue := hinv.queue e
        rcases hQ : Q e with _ | ⟨m, rest⟩
        · rw [hqueue.head, hQ, List.head?_nil]
        · rw [hQ] at hqueue
          obtain ⟨n', ends', heq, -⟩ := popHead_cons hqueue
          rw [qPopHead, heq] at hpop
          cases hpop
      have hfree : ∀ u, (s.endpoints e).waitingRecv = some u → u = t := fun u hu ↦ by
        rw [hu] at hother
        simpa using hother
      refine ⟨fun e' w hw ↦ ?_, fun u e' hu ↦ ?_⟩
      · rcases eq_or_ne e' e with rfl | hne
        · simp only [Ipc.setCall, Ipc.setEndpoint_self]
          exact hhead
        · simp only [Ipc.setCall, Ipc.setEndpoint_of_ne _ hne] at hw ⊢
          exact h.empty e' w hw
      · rcases eq_or_ne u t with rfl | hut
        · rw [Ipc.setCall_calls_self] at hu
          rcases hu with hu | hu
          · cases hu
            simp only [Ipc.setCall, Ipc.setEndpoint_self]
            rfl
          · cases hu
        · rw [Ipc.setCall_calls_of_ne _ hut] at hu
          have hw := h.named u e' hu
          rcases eq_or_ne e' e with rfl | hne
          · exact absurd (hfree u hw) hut
          · simp only [Ipc.setCall, Ipc.setEndpoint_of_ne _ hne]
            exact hw

/-- **Every part of a call but an early wake-up keeps the waiters.** -/
theorem step (h : WaiterInv s) (hinv : ChannelInv s tr Q) {op : IpcOp} {out : IpcOut}
    (hstep : s.step t op = some (s', out)) (htimely : ∀ e w, ¬WakesTooEarly s t op e w) : WaiterInv s' := by
  have hstart : ∀ (s₁ : Ipc) (c : CallState), s₁.endpoints = s.endpoints → s₁.calls = s.calls →
      (∀ e, c ≠ .blocking e ∧ c ≠ .blocked e) → WaiterInv (s₁.setCall t c) := fun s₁ c hends hcalls hc ↦
    h.setCall hends hcalls fun e he ↦ (he.elim (hc e).1 (hc e).2).elim
  cases Ipc.part_of_step hstep with
  | refused => exact h
  | send => exact hstart _ _ rfl rfl fun _ ↦ ⟨nofun, nofun⟩
  | recv => exact hstart _ _ rfl rfl fun _ ↦ ⟨nofun, nofun⟩
  | @push e m msg hop hcall =>
    subst hop
    exact h.push fun w hw hblocking ↦ htimely e w ⟨⟨m, msg, hcall⟩, trivial, hw, hblocking⟩
  | take hcall => exact h.take hinv hcall
  | @block e c hcall hc =>
    refine h.setCall rfl rfl fun e' he' ↦ ?_
    rcases hc with rfl | rfl <;> rcases he' with he' | he' <;> cases he'
    exact h.named t e (.inl hcall)
  | copy => exact hstart _ _ rfl rfl fun _ ↦ ⟨nofun, nofun⟩

end WaiterInv

theorem TimelyRun.waiterInv (hrun : TimelyRun tr s) : WaiterInv s := by
  induction hrun with
  | init => exact waiterInv_init
  | step hrun hstep htimely ih =>
    obtain ⟨Q, hinv⟩ := hrun.run.exists_inv
    exact ih.step hinv hstep htimely

theorem lostWakeup_of_early (hinv : ChannelInv s tr Q) {t : ℕ} {op : IpcOp} {out : IpcOut} {w : ℕ}
    (hstep : s.step t op = some (s', out)) (hearly : WakesTooEarly s t op e w) :
    ∃ s'', s'.step w (.block false) = some (s'', .none) ∧ LostWakeup s'' e w := by
  obtain ⟨⟨m, msg, hcall⟩, hop, hw, hblocking⟩ := hearly
  cases op with
  | push =>
    simp only [Ipc.step, hcall, Option.some.injEq] at hstep
    cases hstep
    have hwoken := ipcSendPush_spec s e m
    have hinv' := (hinv.push hcall).queue e
    have hcalls : ((ipcSendPush s e m).setCall t .idle).calls w = .blocking e := by
      rcases eq_or_ne w t with rfl | hne
      · cases hcall.symm.trans hblocking
      · rw [Ipc.setCall_calls_of_ne _ hne]
        rcases hwoken.calls w with hsame | ⟨_, -, hblocked, -⟩
        · exact hsame.trans hblocking
        · cases hblocking.symm.trans hblocked
    refine ⟨_, by simp only [Ipc.step, hcalls]; rfl, Ipc.setCall_calls_self .., ?_, ?_⟩
    · show (((ipcSendPush s e m).setCall t .idle).endpoints e).ends.head ≠ none
      rw [hinv'.head]
      simp
    · have hends : (ipcSendPush s e m).endpoints e = pushedEndpoint s e m :=
        (congrFun hwoken.endpoints e).trans (update_self ..)
      show ((ipcSendPush s e m).endpoints e).waitingRecv ≠ some w
      rw [hends]
      rintro ⟨⟩
  | _ => exact hop.elim

/-- **No wake-up is lost, exactly as long as no send wakes its receiver too early.** In every state
that an interleaving without such sends reaches, no thread is blocked on an endpoint with a message
in its queue without being named as the waiter; and after a send that wakes too early the receiver
need only go on to be in such a state. -/
theorem no_lost_wakeup {tr : List (ℕ × IpcOut)} {s : Ipc} (hrun : TimelyRun tr s) :
    (∀ e t, ¬LostWakeup s e t) ∧ ∀ t op s' out e w, s.step t op = some (s', out) → WakesTooEarly s t op e w →
        ∃ s'', s'.step w (.block false) = some (s'', .none) ∧ LostWakeup s'' e w := by
  obtain ⟨Q, hinv⟩ := hrun.run.exists_inv
  exact ⟨fun e t hlost ↦ hlost.2.2 (hrun.waiterInv.named t e (.inr hlost.1)),
    fun t op s' out e w hstep hearly ↦ lostWakeup_of_early hinv hstep hearly⟩

theorem no_lost_wakeup_blocked : ∃ (tr : List (ℕ × IpcOut)) (s : Ipc), TimelyRun tr s ∧
    (s.endpoints 64).waitingRecv = some 1 ∧ ∀ e t, ¬LostWakeup s e t := by
  have hrecv := TimelyRun.step (t := 1) .init
    (show Ipc.init.step 1 (.recv (.forEndpoint 64) 0x100000000) = some (_, _) from rfl)
    fun _ _ h ↦ h.2.1
  have htake := TimelyRun.step hrecv (show Ipc.step _ 1 .take = some (_, _) from rfl) fun _ _ h ↦ h.2.1
  have hblock := TimelyRun.step htake (show Ipc.step _ 1 (.block false) = some (_, _) from rfl) fun _ _ h ↦ h.2.1
  exact ⟨_, _, hblock, rfl, (no_lost_wakeup hblock).1⟩

/-- Thread `1` registers as the waiter, thread `2` sends, thread `1` blocks: no send wakes it any
more. -/
theorem wakeup_lost : ¬∀ (tr : List (ℕ × IpcOut)) (s : Ipc), IpcRun tr s → ∀ e t, ¬LostWakeup s e t := by
  intro hclaim
  have hexec : Ipc.init.exec [(1, .recv (.forEndpoint 64) 0x100000000), (1, .take),
      (2, .send (.forEndpoint 64) 0x100000000 ⟨7, 1, fun _ ↦ 42⟩ 0), (2, .push), (1, .block false)] =
      some (_, _) := rfl
  exact hclaim _ _ (IpcRun.of_exec .init hexec) 64 1 ⟨rfl, by decide, by decide⟩

end CapazOS
