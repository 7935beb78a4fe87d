import CapazOS.Mm.Pmm
import CapazOS.Sched.Model

/-!
# Tasks and their ceilings

The accounting part of `task.c`: a task counts CPU ticks, bytes of block I/O and bytes of memory,
and has a limit for each, `0` for none. CPU and I/O are counted over a window of timer ticks. All
counters are `uint64_t`: additions wrap (`u64`), the refund of memory saturates. The read and the
write side of the I/O functions are an argument.
-/

namespace CapazOS

/-- The part of `task_t` the accounting reads and writes; `ioOps` is the group of `io_ops_*`
counters by intent. -/
structure Task where
  defaultIntent : SchedIntent
  limitWindowTicks : ℕ
  cpuTicksLimit : ℕ
  ioReadBytesLimit : ℕ
  ioWriteBytesLimit : ℕ
  memBytesLimit : ℕ
  windowStartTick : ℕ
  cpuTicksWindow : ℕ
  ioReadBytesWindow : ℕ
  ioWriteBytesWindow : ℕ
  cpuTicksTotal : ℕ
  ioReadBytesTotal : ℕ
  ioWriteBytesTotal : ℕ
  memBytesCurrent : ℕ
  memBytesPeak : ℕ
  ioOpsTotal : ℕ
  ioOps : SchedIntent → ℕ
  cpuThrottleEvents : ℕ
  ioThrottleEvents : ℕ
  memThrottleEvents : ℕ

/-- `task_contract_t`, without its flags. -/
structure TaskContract where
  intent : ℕ
  windowTicks : ℕ
  cpuTicksLimit : ℕ
  ioReadBytesLimit : ℕ
  ioWriteBytesLimit : ℕ
  memBytesLimit : ℕ
  deriving DecidableEq

def taskInit : Task where
  defaultIntent := .interactive
  limitWindowTicks := 100
  cpuTicksLimit := 0
  ioReadBytesLimit := 0
  ioWriteBytesLimit := 0
  memBytesLimit := 0
  windowStartTick := 0
  cpuTicksWindow := 0
  ioReadBytesWindow := 0
  ioWriteBytesWindow := 0
  cpuTicksTotal := 0
  ioReadBytesTotal := 0
  ioWriteBytesTotal := 0
  memBytesCurrent := 0
  memBytesPeak := 0
  ioOpsTotal := 0
  ioOps _ := 0
  cpuThrottleEvents := 0
  ioThrottleEvents := 0
  memThrottleEvents := 0

/-! ### The window -/

def Task.startWindow (t : Task) (tick : ℕ) : Task := { t with
    windowStartTick := tick
    cpuTicksWindow := 0
    ioReadBytesWindow := 0
    ioWriteBytesWindow := 0 }

/-- `task_roll_window`: the start moves by whole windows, and a clock that runs backwards starts a
new window. -/
def taskRollWindow (t : Task) (nowTick : ℕ) : Task :=
  let window := if t.limitWindowTicks = 0 then 1 else t.limitWindowTicks
  if nowTick < t.windowStartTick then t.startWindow nowTick
  else if nowTick - t.windowStartTick < window then t
  else
    let spans := (nowTick - t.windowStartTick) / window
    let spans := if spans = 0 then 1 else spans
    t.startWindow (u64 (t.windowStartTick + spans * window))

def taskSetContract (t : Task) (c : TaskContract) (nowTick : ℕ) : Task :=
  Task.startWindow { t with
      defaultIntent := schedIntentSanitize c.intent
      limitWindowTicks := if c.windowTicks = 0 then 100 else c.windowTicks
      cpuTicksLimit := c.cpuTicksLimit
      ioReadBytesLimit := c.ioReadBytesLimit
      ioWriteBytesLimit := c.ioWriteBytesLimit
      memBytesLimit := c.memBytesLimit } nowTick

def taskAccountCpuTick (t : Task) (nowTick : ℕ) : Task :=
  let t := taskRollWindow t nowTick
  { t with
    cpuTicksTotal := u64 (t.cpuTicksTotal + 1)
    cpuTicksWindow := u64 (t.cpuTicksWindow + 1) }

/-! ### Block I/O -/

def Task.ioLimit (t : Task) (isWrite : Bool) : ℕ :=
  if isWrite then t.ioWriteBytesLimit else t.ioReadBytesLimit

def Task.ioWindow (t : Task) (isWrite : Bool) : ℕ :=
  if isWrite then t.ioWriteBytesWindow else t.ioReadBytesWindow

def taskAllowIo (t : Task) (bytes : ℕ) (isWrite : Bool) (nowTick : ℕ) : Bool × Task :=
  let t := taskRollWindow t nowTick
  if t.ioLimit isWrite ≠ 0 ∧ t.ioLimit isWrite < u64 (t.ioWindow isWrite + bytes) then
    (false, { t with ioThrottleEvents := u64 (t.ioThrottleEvents + 1) })
  else (true, t)

def taskAccountIo (t : Task) (bytes : ℕ) (isWrite : Bool) (intent : ℕ) (nowTick : ℕ) : Task :=
  let t := taskRollWindow t nowTick
  let t : Task := if isWrite then
      { t with
        ioWriteBytesTotal := u64 (t.ioWriteBytesTotal + bytes)
        ioWriteBytesWindow := u64 (t.ioWriteBytesWindow + bytes) }
    else
      { t with
        ioReadBytesTotal := u64 (t.ioReadBytesTotal + bytes)
        ioReadBytesWindow := u64 (t.ioReadBytesWindow + bytes) }
  { t with
    ioOpsTotal := u64 (t.ioOpsTotal + 1)
    ioOps := Function.update t.ioOps (schedIntentSanitize intent) (u64 (t.ioOps (schedIntentSanitize intent) + 1)) }

/-! ### Memory -/

def saturatingSubU64 (a b : ℕ) : ℕ := if b < a then a - b else 0

def taskAllowMemAlloc (t : Task) (bytes : ℕ) : Bool × Task :=
  if t.memBytesLimit = 0 then (true, t)
  else if t.memBytesLimit < u64 (t.memBytesCurrent + bytes) then
    (false, { t with memThrottleEvents := u64 (t.memThrottleEvents + 1) })
  else (true, t)

def taskAccountMemAlloc (t : Task) (bytes : ℕ) : Task :=
  let t := { t with memBytesCurrent := u64 (t.memBytesCurrent + bytes) }
  { t with
    memBytesPeak := if t.memBytesPeak < t.memBytesCurrent then t.memBytesCurrent else t.memBytesPeak }

def taskAccountMemFree (t : Task) (bytes : ℕ) : Task :=
  { t with memBytesCurrent := saturatingSubU64 t.memBytesCurrent bytes }

/-! ### What the functions leave alone -/

/-- **What the window does to the I/O counters**: they stay or start at zero, and the limits
stay. -/
theorem taskRollWindow_cases (t : Task) (nowTick : ℕ) :
    taskRollWindow t nowTick = t ∨ ∃ tick, taskRollWindow t nowTick = t.startWindow tick := by
  simp only [taskRollWindow]
  generalize (if t.limitWindowTicks = 0 then 1 else t.limitWindowTicks) = window
  generalize u64 _ = tick
  split_ifs
  exacts [.inr ⟨_, rfl⟩, .inl rfl, .inr ⟨_, rfl⟩]

@[simp] theorem Task.startWindow_ioWindow (t : Task) (tick : ℕ) (isWrite : Bool) :
    (t.startWindow tick).ioWindow isWrite = 0 := by
  cases isWrite <;> rfl

@[simp] theorem Task.startWindow_ioLimit (t : Task) (tick : ℕ) (isWrite : Bool) :
    (t.startWindow tick).ioLimit isWrite = t.ioLimit isWrite := by
  cases isWrite <;> rfl

@[simp] theorem taskRollWindow_ioLimit (t : Task) (nowTick : ℕ) (isWrite : Bool) :
    (taskRollWindow t nowTick).ioLimit isWrite = t.ioLimit isWrite := by
  rcases taskRollWindow_cases t nowTick with h | ⟨tick, h⟩ <;> rw [h]
  exact t.startWindow_ioLimit tick isWrite

theorem taskRollWindow_ioWindow (t : Task) (nowTick : ℕ) (isWrite : Bool) :
    (taskRollWindow t nowTick).ioWindow isWrite = t.ioWindow isWrite ∨
      (taskRollWindow t nowTick).ioWindow isWrite = 0 := by
  rcases taskRollWindow_cases t nowTick with h | ⟨tick, h⟩ <;> rw [h]
  exacts [.inl rfl, .inr (t.startWindow_ioWindow tick isWrite)]

section

variable (t : Task) (bytes : ℕ) (isWrite : Bool)
include t bytes isWrite

theorem taskAllowIo_ioLimit (nowTick : ℕ) (side : Bool) :
    (taskAllowIo t bytes isWrite nowTick).2.ioLimit side = t.ioLimit side := by
  rw [← taskRollWindow_ioLimit t nowTick side]
  simp only [taskAllowIo]
  split_ifs <;> rfl

theorem taskAllowIo_ioWindow (nowTick : ℕ) (side : Bool) : (taskAllowIo t bytes isWrite nowTick).2.ioWindow side =
      (taskRollWindow t nowTick).ioWindow side := by
  simp only [taskAllowIo]
  split_ifs <;> rfl

theorem taskAllowIo_fst (nowTick : ℕ) : (taskAllowIo t bytes isWrite nowTick).1 = true ↔ t.ioLimit isWrite = 0 ∨
      u64 ((taskRollWindow t nowTick).ioWindow isWrite + bytes) ≤ t.ioLimit isWrite := by
  rw [← taskRollWindow_ioLimit t nowTick isWrite]
  simp only [taskAllowIo]
  split_ifs with h
  · exact iff_of_false nofun fun h' ↦ h'.elim h.1 (Nat.not_le.2 h.2)
  · refine iff_of_true rfl ?_
    rw [not_and_or, not_not, Nat.not_lt] at h
    exact h

theorem taskAccountIo_ioLimit (intent nowTick : ℕ) (side : Bool) :
    (taskAccountIo t bytes isWrite intent nowTick).ioLimit side = t.ioLimit side := by
  rw [← taskRollWindow_ioLimit t nowTick side]
  cases isWrite <;> rfl

theorem taskAccountIo_ioWindow (intent nowTick : ℕ) (side : Bool) :
    (taskAccountIo t bytes isWrite intent nowTick).ioWindow side =
      if side = isWrite then u64 ((taskRollWindow t nowTick).ioWindow side + bytes)
      else (taskRollWindow t nowTick).ioWindow side := by
  cases isWrite <;> cases side <;> rfl

end

theorem taskAllowMemAlloc_snd (t : Task) (bytes : ℕ) :
    (taskAllowMemAlloc t bytes).2.memBytesCurrent = t.memBytesCurrent ∧
      (taskAllowMemAlloc t bytes).2.memBytesLimit = t.memBytesLimit := by
  simp only [taskAllowMemAlloc]
  split_ifs <;> exact ⟨rfl, rfl⟩

theorem taskAllowMemAlloc_fst (t : Task) (bytes : ℕ) : (taskAllowMemAlloc t bytes).1 = true ↔
    t.memBytesLimit = 0 ∨ u64 (t.memBytesCurrent + bytes) ≤ t.memBytesLimit := by
  simp only [taskAllowMemAlloc]
  split_ifs with h h'
  · exact iff_of_true rfl (.inl h)
  · exact iff_of_false nofun fun h'' ↦ h''.elim h (Nat.not_le.2 h')
  · exact iff_of_true rfl (.inr (Nat.not_lt.1 h'))

end CapazOS
