import CapazOS.Task.Model

/-!
# I/O ceilings

A block request asks `task_allow_io` whether its bytes still fit, transfers its sectors chunk by
chunk, and charges the bytes with `task_account_io` when the last chunk is done; `IoSys.step`
performs the next part of one of the interleaved requests. Nothing is reserved in between: a request
that is **alone** on its side stays under the ceiling, and two requests can both be let through for
the same bytes.
-/

namespace CapazOS

open Function

/-! ### Requests -/

def blockSectorSize : ℕ := 512

def ksIoIntentLatency : ℕ := 1

def ksIoIntentThroughput : ℕ := 2

def ksIoIntentBackground : ℕ := 3

def ckaSchedIntentFromIo (ioIntent : ℕ) : ℕ :=
  if ioIntent = ksIoIntentLatency then 1
  else if ioIntent = ksIoIntentThroughput then 2
  else if ioIntent = ksIoIntentBackground then 3
  else 0

/-- A request that was let through: `cka_block_read_intent` or `cka_block_write_intent` with the
sectors it still has to transfer. -/
structure IoRequest where
  count : Fin (2 ^ 32)
  remaining : ℕ
  isWrite : Bool
  intent : ℕ

/-- `need`, which is far below `2^64`. -/
def IoRequest.need (r : IoRequest) : ℕ := r.count * blockSectorSize

def IoRequest.maxChunk (r : IoRequest) : ℕ :=
  if r.intent = ksIoIntentThroughput then 8
  else if r.intent = ksIoIntentBackground then 1
  else r.count

/-! ### The system -/

/-- A task, the tick counter of the scheduler, and the requests of the threads of the task. -/
structure IoSys where
  task : Task
  ticks : ℕ
  requests : ℕ → Option IoRequest

/-- The next part of a request, or one of the other events.
* `request`: thread `th` calls `cka_block_read_intent` or `cka_block_write_intent` and asks.
* `transfer`: it transfers a chunk; a chunk that fails ends the request without a charge.
* `charge`: all chunks are transferred.
* `tick`: `sched_on_timer_tick`, while a thread of the task is running or not.
* `setContract`: `task_set_contract`. -/
inductive IoEvent where
  | request (th : ℕ) (count : Fin (2 ^ 32)) (isWrite : Bool) (intent : ℕ)
  | transfer (th : ℕ) (ok : Bool)
  | charge (th : ℕ)
  | tick (ofTask : Bool)
  | setContract (c : TaskContract)

namespace IoSys

def setRequest (s : IoSys) (th : ℕ) (r : Option IoRequest) : IoSys :=
  ⟨s.task, s.ticks, update s.requests th r⟩

def setTask (s : IoSys) (t : Task) : IoSys := ⟨t, s.ticks, s.requests⟩

def step (s : IoSys) : IoEvent → Option IoSys
  | .request th count isWrite intent =>
    match s.requests th with
    | some _ => none
    | none =>
      if (count : ℕ) = 0 then some s
      else
        let r : IoRequest := ⟨count, count, isWrite, intent⟩
        match taskAllowIo s.task r.need isWrite s.ticks with
        | (false, t) => some (s.setTask t)
        | (true, t) => some ((s.setTask t).setRequest th (some r))
  | .transfer th ok =>
    match s.requests th with
    | none => none
    | some r =>
      if r.remaining = 0 then none
      else if ok then
        let chunk := min r.remaining r.maxChunk
        some (s.setRequest th (some { r with remaining := r.remaining - chunk }))
      else some (s.setRequest th none)
  | .charge th =>
    match s.requests th with
    | none => none
    | some r =>
      if r.remaining = 0 then
        some ((s.setTask (taskAccountIo s.task r.need r.isWrite (ckaSchedIntentFromIo r.intent)
          s.ticks)).setRequest th none)
      else none
  | .tick ofTask =>
    let ticks := u64 (s.ticks + 1)
    some ⟨if ofTask then taskAccountCpuTick s.task ticks else s.task, ticks, s.requests⟩
  | .setContract c => some (s.setTask (taskSetContract s.task c s.ticks))

def init (ticks : ℕ) : IoSys := ⟨taskInit, ticks, fun _ ↦ none⟩

/-- **The condition on an event**: a request asks while no other request of the task on its side is
in progress, and a contract is set while no request is in progress. -/
def Alone (s : IoSys) : IoEvent → Prop
  | .request _ _ isWrite _ => ∀ th r, s.requests th = some r → r.isWrite ≠ isWrite
  | .setContract _ => ∀ th, s.requests th = none
  | _ => True

end IoSys

/-- The runs from a new task in which every event satisfies `P`. -/
inductive IoRun (P : IoSys → IoEvent → Prop) : IoSys → Prop
  | init (ticks : ℕ) : IoRun P (.init ticks)
  | step {s s' : IoSys} {ev : IoEvent} (h : IoRun P s) (hp : P s ev) (hstep : s.step ev = some s') : IoRun P s'

/-! ### The invariant -/

/-- **Under the ceiling**: the counters are, the requests in progress will be when they are charged,
now or in a new window, and there is at most one on each side. -/
structure UnderCeiling (s : IoSys) : Prop where
  window : ∀ side, s.task.ioLimit side ≠ 0 → s.task.ioWindow side ≤ s.task.ioLimit side
  pending : ∀ th r, s.requests th = some r → s.task.ioLimit r.isWrite ≠ 0 → r.need ≤ s.task.ioLimit r.isWrite ∧
      u64 (s.task.ioWindow r.isWrite + r.need) ≤ s.task.ioLimit r.isWrite
  unique : ∀ th th' r r', s.requests th = some r → s.requests th' = some r' → r.isWrite = r'.isWrite → th = th'

namespace UnderCeiling

variable {s : IoSys}

theorem need_lt (r : IoRequest) : r.need < 2 ^ 41 := by
  simp only [IoRequest.need, blockSectorSize]
  omega

theorem u64_need (r : IoRequest) : u64 r.need = r.need :=
  Nat.mod_eq_of_lt ((need_lt r).trans (by norm_num))

section

variable (h : UnderCeiling s)
include h

theorem setTask {t : Task} {ticks : ℕ} (hlimit : ∀ side, t.ioLimit side = s.task.ioLimit side)
    (hwindow : ∀ side, t.ioWindow side = s.task.ioWindow side ∨ t.ioWindow side = 0) :
    UnderCeiling ⟨t, ticks, s.requests⟩ := by
  refine ⟨fun side hne ↦ ?_, fun th r hr hne ↦ ?_, h.unique⟩
  · show t.ioWindow side ≤ t.ioLimit side
    rw [hlimit]
    rcases hwindow side with hw | hw <;> rw [hw]
    · exact h.window side (hlimit side ▸ hne)
    · exact Nat.zero_le _
  · show r.need ≤ t.ioLimit r.isWrite ∧ u64 (t.ioWindow r.isWrite + r.need) ≤ t.ioLimit r.isWrite
    rw [hlimit]
    have hp := h.pending th r hr (hlimit r.isWrite ▸ hne)
    rcases hwindow r.isWrite with hw | hw <;> rw [hw]
    · exact hp
    · rw [Nat.zero_add, u64_need]
      exact ⟨hp.1, hp.1⟩

theorem roll (nowTick : ℕ) : UnderCeiling (s.setTask (taskRollWindow s.task nowTick)) :=
  h.setTask (taskRollWindow_ioLimit s.task nowTick) (taskRollWindow_ioWindow s.task nowTick)

theorem drop (th : ℕ) : UnderCeiling (s.setRequest th none) := by
  have hold : ∀ th' r, (s.setRequest th none).requests th' = some r → s.requests th' = some r := by
    intro th' r hr
    simp only [IoSys.setRequest, update_apply] at hr
    split_ifs at hr
    exact hr
  exact ⟨h.window, fun th' r hr ↦ h.pending th' r (hold th' r hr),
    fun th₁ th₂ r₁ r₂ h₁ h₂ ↦ h.unique th₁ th₂ r₁ r₂ (hold th₁ r₁ h₁) (hold th₂ r₂ h₂)⟩

theorem progress {th : ℕ} {r r' : IoRequest} (hr : s.requests th = some r) (hcount : r'.count = r.count)
    (hside : r'.isWrite = r.isWrite) : UnderCeiling (s.setRequest th (some r')) := by
  have hneed : r'.need = r.need := by rw [IoRequest.need, IoRequest.need, hcount]
  have hold : ∀ th' q, (s.setRequest th (some r')).requests th' = some q →
      ∃ q', s.requests th' = some q' ∧ q.need = q'.need ∧ q.isWrite = q'.isWrite := by
    intro th' q hq
    simp only [IoSys.setRequest, update_apply] at hq
    split_ifs at hq with hth
    · obtain rfl := Option.some.inj hq
      exact ⟨r, hth ▸ hr, hneed, hside⟩
    · exact ⟨q, hq, rfl, rfl⟩
  refine ⟨h.window, fun th' q hq ↦ ?_, fun th₁ th₂ r₁ r₂ h₁ h₂ hw ↦ ?_⟩
  · obtain ⟨q', hq', hn, hw⟩ := hold th' q hq
    rw [hn, hw]
    exact h.pending th' q' hq'
  · obtain ⟨q₁, hq₁, -, hw₁⟩ := hold th₁ r₁ h₁
    obtain ⟨q₂, hq₂, -, hw₂⟩ := hold th₂ r₂ h₂
    exact h.unique th₁ th₂ q₁ q₂ hq₁ hq₂ (by rw [← hw₁, ← hw₂, hw])

/-- **A request that is let through while it is alone on its side.** A sum that wraps is let through
as well; then the counter is close to `2^64`, and so is the ceiling. -/
theorem letThrough {th : ℕ} {r : IoRequest}
    (halone : ∀ th' r', s.requests th' = some r' → r'.isWrite ≠ r.isWrite)
    (hallow : s.task.ioLimit r.isWrite = 0 ∨ u64 (s.task.ioWindow r.isWrite + r.need) ≤ s.task.ioLimit r.isWrite) :
    UnderCeiling (s.setRequest th (some r)) := by
  have hold : ∀ th' q, (s.setRequest th (some r)).requests th' = some q →
      th' = th ∧ q = r ∨ s.requests th' = some q := by
    intro th' q hq
    simp only [IoSys.setRequest, update_apply] at hq
    split_ifs at hq with hth
    exacts [.inl ⟨hth, (Option.some.inj hq).symm⟩, .inr hq]
  refine ⟨h.window, fun th' q hq hne ↦ ?_, fun th₁ th₂ r₁ r₂ h₁ h₂ hw ↦ ?_⟩
  · rcases hold th' q hq with ⟨-, rfl⟩ | hq
    · have hne : s.task.ioLimit q.isWrite ≠ 0 := hne
      have hwindow := h.window q.isWrite hne
      have hneed := need_lt q
      have hsum := hallow.resolve_left hne
      refine ⟨?_, hsum⟩
      show q.need ≤ s.task.ioLimit q.isWrite
      unfold u64 at hsum
      omega
    · exact h.pending th' q hq hne
  · rcases hold th₁ r₁ h₁ with ⟨rfl, rfl⟩ | hq₁ <;> rcases hold th₂ r₂ h₂ with ⟨rfl, rfl⟩ | hq₂
    · rfl
    · exact absurd hw.symm (halone th₂ r₂ hq₂)
    · exact absurd hw (halone th₁ r₁ hq₁)
    · exact h.unique th₁ th₂ r₁ r₂ hq₁ hq₂ hw

/-- **A charge**: the request was the only one on its side, and its bytes fit. -/
theorem charge {th : ℕ} {r : IoRequest} (hr : s.requests th = some r) (intent : ℕ) :
    UnderCeiling ((s.setTask (taskAccountIo s.task r.need r.isWrite intent
      s.ticks)).setRequest th none) := by
  have hroll := h.roll s.ticks
  have hlimit : ∀ side, (taskAccountIo s.task r.need r.isWrite intent s.ticks).ioLimit side =
      (taskRollWindow s.task s.ticks).ioLimit side := fun side ↦ by
    rw [taskAccountIo_ioLimit, taskRollWindow_ioLimit]
  -- the other requests are on the other side, which is not charged
  have hothers : ∀ th' r', ((s.setTask (taskAccountIo s.task r.need r.isWrite intent
      s.ticks)).setRequest th none).requests th' = some r' →
      s.requests th' = some r' ∧ r'.isWrite ≠ r.isWrite := by
    intro th' r' hr'
    simp only [IoSys.setRequest, IoSys.setTask, update_apply] at hr'
    split_ifs at hr' with hth
    exact ⟨hr', fun hw ↦ hth (h.unique th' th r' r hr' hr hw)⟩
  refine ⟨fun side hne ↦ ?_, fun th' r' hr' hne ↦ ?_, fun th₁ th₂ r₁ r₂ h₁ h₂ ↦
    h.unique th₁ th₂ r₁ r₂ (hothers th₁ r₁ h₁).1 (hothers th₂ r₂ h₂).1⟩
  · show (taskAccountIo s.task r.need r.isWrite intent s.ticks).ioWindow side ≤
      (taskAccountIo s.task r.need r.isWrite intent s.ticks).ioLimit side
    have hne : (taskRollWindow s.task s.ticks).ioLimit side ≠ 0 := hlimit side ▸ hne
    rw [hlimit, taskAccountIo_ioWindow]
    split_ifs with hside
    · rw [hside] at hne ⊢
      exact (hroll.pending th r hr hne).2
    · exact hroll.window side hne
  · obtain ⟨hold, hside⟩ := hothers th' r' hr'
    show r'.need ≤ (taskAccountIo s.task r.need r.isWrite intent s.ticks).ioLimit r'.isWrite ∧
      u64 ((taskAccountIo s.task r.need r.isWrite intent s.ticks).ioWindow r'.isWrite + r'.need) ≤
        (taskAccountIo s.task r.need r.isWrite intent s.ticks).ioLimit r'.isWrite
    have hne : (taskRollWindow s.task s.ticks).ioLimit r'.isWrite ≠ 0 := hlimit _ ▸ hne
    rw [hlimit, taskAccountIo_ioWindow, if_neg hside]
    exact hroll.pending th' r' hold hne

theorem ask {th : ℕ} {r : IoRequest} (halone : ∀ th' r', s.requests th' = some r' → r'.isWrite ≠ r.isWrite) :
    UnderCeiling (s.setTask (taskAllowIo s.task r.need r.isWrite s.ticks).2) ∧
      ((taskAllowIo s.task r.need r.isWrite s.ticks).1 = true → UnderCeiling
        ((s.setTask (taskAllowIo s.task r.need r.isWrite s.ticks).2).setRequest th (some r))) := by
  have hlimit := taskAllowIo_ioLimit s.task r.need r.isWrite s.ticks
  have hwindow := taskAllowIo_ioWindow s.task r.need r.isWrite s.ticks
  have hmoved : UnderCeiling (s.setTask (taskAllowIo s.task r.need r.isWrite s.ticks).2) :=
    h.setTask hlimit fun side ↦ by
      rw [hwindow]
      exact taskRollWindow_ioWindow s.task s.ticks side
  refine ⟨hmoved, fun hallow ↦ hmoved.letThrough halone ?_⟩
  show (taskAllowIo s.task r.need r.isWrite s.ticks).2.ioLimit r.isWrite = 0 ∨ u64
    ((taskAllowIo s.task r.need r.isWrite s.ticks).2.ioWindow r.isWrite + r.need) ≤
      (taskAllowIo s.task r.need r.isWrite s.ticks).2.ioLimit r.isWrite
  rw [hlimit, hwindow]
  exact (taskAllowIo_fst s.task r.need r.isWrite s.ticks).1 hallow

theorem step {ev : IoEvent} {s' : IoSys} (halone : s.Alone ev) (hstep : s.step ev = some s') :
    UnderCeiling s' := by
  cases ev with
  | request th count isWrite intent =>
    simp only [IoSys.step] at hstep
    split at hstep
    · cases hstep
    · split_ifs at hstep
      · cases hstep
        exact h
      · obtain ⟨hrefused, hlet⟩ := @ask s h th ⟨count, count, isWrite, intent⟩ halone
        split at hstep
        all_goals
          rename_i t ht
          cases hstep
          rw [ht] at hrefused hlet
        · exact hrefused
        · exact hlet rfl
  | transfer th ok =>
    simp only [IoSys.step] at hstep
    split at hstep
    · cases hstep
    · rename_i r hr
      split_ifs at hstep <;> cases hstep
      · exact h.progress hr rfl rfl
      · exact h.drop th
  | charge th =>
    simp only [IoSys.step] at hstep
    split at hstep
    · cases hstep
    · rename_i r hr
      split_ifs at hstep
      cases hstep
      exact h.charge hr _
  | tick ofTask =>
    cases hstep
    cases ofTask with
    | false => exact h.setTask (fun _ ↦ rfl) fun _ ↦ .inl rfl
    | true =>
      exact h.setTask (taskRollWindow_ioLimit s.task _) (taskRollWindow_ioWindow s.task _)
  | setContract c =>
    cases hstep
    refine ⟨fun side _ ↦ ?_, fun th r hr ↦ ?_, fun th _ r _ hr ↦ ?_⟩
    · exact (Task.startWindow_ioWindow _ _ side).trans_le (Nat.zero_le _)
    · exact absurd (halone th) (by rw [show s.requests th = some r from hr]; nofun)
    · exact absurd (halone th) (by rw [show s.requests th = some r from hr]; nofun)

end

end UnderCeiling

theorem underCeiling_init (ticks : ℕ) : UnderCeiling (.init ticks) where
  window side hne := absurd (by cases side <;> rfl) hne
  pending _ _ hr := nomatch hr
  unique _ _ _ _ hr := nomatch hr

theorem IoRun.underCeiling {s : IoSys} (h : IoRun IoSys.Alone s) : UnderCeiling s := by
  induction h with
  | init ticks => exact underCeiling_init ticks
  | step _ hp hstep ih => exact ih.step hp hstep

/-- **When I/O ceilings are enforced.** In every run in which a request asks only while no other
request of the task on its side is in progress, and the contract is set only while no request is in
progress, the bytes counted in the window never exceed a ceiling that is in force. -/
theorem io_ceiling_of_alone {s : IoSys} (h : IoRun IoSys.Alone s) (isWrite : Bool)
    (hlimit : s.task.ioLimit isWrite ≠ 0) : s.task.ioWindow isWrite ≤ s.task.ioLimit isWrite :=
  h.underCeiling.window isWrite hlimit

/-! ### Two requests -/

def IoSys.exec (s : IoSys) : List IoEvent → Option IoSys
  | [] => some s
  | ev :: evs => (s.step ev).bind fun s' ↦ s'.exec evs

theorem IoRun.of_exec {s s' : IoSys} {evs : List IoEvent} (h : IoRun (fun _ _ ↦ True) s)
    (hexec : s.exec evs = some s') : IoRun (fun _ _ ↦ True) s' := by
  induction evs generalizing s with
  | nil => exact Option.some.inj hexec ▸ h
  | cons ev evs ih =>
    obtain ⟨s₁, hstep, hrest⟩ := Option.bind_eq_some_iff.1 hexec
    exact ih (h.step trivial hstep) hrest

def oneSectorContract : TaskContract := ⟨0, 100, 0, 512, 0, 0⟩

/-- Two threads ask for one sector each, both before the other is charged. -/
def twoReads : List IoEvent :=
  [.setContract oneSectorContract, .request 1 1 false 1, .request 2 1 false 1, .transfer 1 true,
    .transfer 2 true, .charge 1, .charge 2]

/-- Both requests are let through, and 1024 bytes are counted under a ceiling of 512. -/
theorem io_ceiling_exceeded : ∃ s, IoRun (fun _ _ ↦ True) s ∧ s.task.ioLimit false ≠ 0 ∧
    ¬s.task.ioWindow false ≤ s.task.ioLimit false := by
  have heval : ((IoSys.init 0).exec twoReads).map
      (fun s ↦ (s.task.ioLimit false, s.task.ioWindow false)) = some (512, 1024) := by
    decide +kernel
  obtain ⟨s, hexec, heq⟩ := Option.map_eq_some_iff.1 heval
  obtain ⟨hlimit, hwindow⟩ := Prod.mk.inj heq
  refine ⟨s, (IoRun.init 0).of_exec hexec, ?_, ?_⟩ <;> omega

theorem io_ceiling_one_read : ∃ s, IoRun IoSys.Alone s ∧ s.task.ioLimit false = 512 ∧
    s.task.ioWindow false ≤ s.task.ioLimit false := by
  have h₁ := (IoRun.init 0).step
    (show IoSys.Alone _ (.setContract oneSectorContract) from fun _ ↦ rfl) rfl
  have h₂ := h₁.step (show IoSys.Alone _ (.request 1 1 false 1) from nofun) rfl
  have h₃ := h₂.step (show IoSys.Alone _ (.transfer 1 true) from trivial) rfl
  have h₄ := h₃.step (show IoSys.Alone _ (.charge 1) from trivial) rfl
  exact ⟨_, h₄, rfl, io_ceiling_of_alone h₄ false (by decide)⟩

end CapazOS
