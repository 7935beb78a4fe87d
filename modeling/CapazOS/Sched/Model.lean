import CapazOS.Lib.Ring
import CapazOS.Lib.PatternQueues

/-!
# The scheduler

`sched.c` keeps four ready queues, one for each scheduling intent: rings of threads as in
`LinkRing`, served along the pattern `k_pick_pattern` as in `PatternQueues`. `yield` and
`sched_block_current` call `ctx_switch`, which stores the registers in the thread's `ctx`;
`sched_irq_exit` stores the address of the trap frame in `irq_sp`.

A failing assertion ends the run with the corresponding `SchedFault`. Threads are numbered in the
order of their creation. Whether the task of the running thread exceeds its CPU limit is an argument
of the timer tick.
-/

namespace CapazOS

open Function

/-! ### Threads -/

abbrev Tid := ℕ

/-- `bootstrap_thread`, whose `tid` is reserved. -/
def bootstrapThread : Tid := 0

inductive ThreadState where
  | ready | running | blocked | dead
  deriving DecidableEq

inductive SchedIntent where
  | interactive | latency | throughput | background
  deriving DecidableEq

def SchedIntent.all : List SchedIntent := [.interactive, .latency, .throughput, .background]

def schedIntentSanitize : ℕ → SchedIntent
  | 0 => .interactive
  | 1 => .latency
  | 2 => .throughput
  | _ => .background

def kPickPattern : List SchedIntent :=
  [.interactive, .interactive, .interactive, .interactive, .interactive, .interactive,
    .latency, .latency, .latency, .latency, .throughput, .throughput, .background]

def schedSliceForIntent : SchedIntent → ℕ
  | .interactive => 2
  | .latency => 3
  | .throughput => 5
  | .background => 8

/-- `ctx_t`: the registers `x19` to `x30` and the stack pointer. -/
structure Ctx where
  x : Fin 12 → ℕ
  sp : ℕ

/-- The fields of `trap_frame_t` that an exception return restores, and the recorded stack
pointer. -/
structure TrapFrame where
  x : Fin 31 → ℕ
  spAtFault : ℕ
  elrEl1 : ℕ
  spsrEl1 : ℕ

def trapFrameBytes : ℕ := 304

/-- `thread_t`, without its link. -/
structure Thread where
  ctx : Ctx
  kstackBase : ℕ
  kstackSize : ℕ
  kstackTop : ℕ
  irqSp : ℕ
  schedIntent : SchedIntent
  sliceTicksBudget : ℕ
  sliceTicksUsed : ℕ
  runtimeTicksTotal : ℕ
  preemptions : ℕ
  state : ThreadState

def Thread.setState (th : Thread) (st : ThreadState) : Thread := { th with state := st }

def Thread.setIntent (th : Thread) (i : SchedIntent) : Thread := { th with schedIntent := i }

/-- The globals of `sched.c`, `thread.c` and `preempt.c`, the threads, and the trap frames on their
kernel stacks, by address. -/
structure Sched where
  threads : Tid → Thread
  rqNext : Tid → Option Tid
  readyTail : SchedIntent → Option Tid
  current : Option Tid
  schedTicks : ℕ
  pickCursor : ℕ
  needResched : Bool
  preemptCount : ℕ
  nextTid : ℕ
  frames : Tid → ℕ → TrapFrame

/-- The assertions of the scheduler, by their messages. `brokenRing` stands for following a null
link or walking a ring without end. -/
inductive SchedFault where
  | alreadyQueued | enqueueNotReady | kstackBaseNull | kstackTopNull | kstackSizeZero | irqSpNull
  | irqSpUnaligned | irqSpBelowBase | irqSpBeyondTop | ctxSpUnaligned | currentNull
  | currentEnqueued | currentEnqueuedIrq | bootstrapBlocks | nullTrapFrame | nextIrqSpNull
  | preemptUnderflow | brokenRing
  deriving DecidableEq

namespace Sched

def modify (s : Sched) (t : Tid) (f : Thread → Thread) : Sched :=
  { s with threads := update s.threads t (f (s.threads t)) }

def setCurrent (s : Sched) (t : Tid) : Sched := { s with current := some t }

def setState (s : Sched) (t : Tid) (st : ThreadState) : Sched := s.modify t (·.setState st)

end Sched

def preemptClearNeedResched (s : Sched) : Sched := { s with needResched := false }

/-! ### Ready queues -/

def schedValidateIrqSp (s : Sched) (t : Tid) : Except SchedFault Unit :=
  if t = bootstrapThread then .ok ()
  else if (s.threads t).kstackBase = 0 then .error .kstackBaseNull
  else if (s.threads t).kstackTop = 0 then .error .kstackTopNull
  else if (s.threads t).kstackSize = 0 then .error .kstackSizeZero
  else if (s.threads t).irqSp = 0 then .error .irqSpNull
  else if (s.threads t).irqSp % 16 ≠ 0 then .error .irqSpUnaligned
  else if (s.threads t).irqSp < (s.threads t).kstackBase then .error .irqSpBelowBase
  else if (s.threads t).kstackTop < (s.threads t).irqSp + trapFrameBytes then .error .irqSpBeyondTop
  else .ok ()

def rqInsertTailLocked (s : Sched) (t : Tid) : Except SchedFault Sched :=
  if (s.rqNext t).isSome then .error .alreadyQueued
  else if (s.threads t).state ≠ .ready then .error .enqueueNotReady
  else match schedValidateIrqSp s t with
    | .error f => .error f
    | .ok () =>
      if (s.threads t).ctx.sp ≠ 0 ∧ (s.threads t).ctx.sp % 16 ≠ 0 then .error .ctxSpUnaligned
      else
        let i := (s.threads t).schedIntent
        .ok { s with
          rqNext := (LinkRing.insertTail s.rqNext (s.readyTail i) t).1
          readyTail := update s.readyTail i (LinkRing.insertTail s.rqNext (s.readyTail i) t).2 }

/-- The loop of `rq_remove_locked` over the ready queues. A ring holds at most as many threads as
were created. -/
def rqRemoveFrom (s : Sched) (t : Tid) : List SchedIntent → Except SchedFault (Bool × Sched)
  | [] => .ok (false, s)
  | i :: is =>
    match s.readyTail i with
    | none => rqRemoveFrom s t is
    | some tail =>
      match LinkRing.remove s.rqNext tail t s.nextTid with
      | none => .error .brokenRing
      | some none => rqRemoveFrom s t is
      | some (some (next, tail')) =>
        .ok (true, { s with rqNext := next, readyTail := update s.readyTail i tail' })

def rqRemoveLocked (s : Sched) (t : Tid) : Except SchedFault (Bool × Sched) :=
  rqRemoveFrom s t SchedIntent.all

def rqPopHeadIntentLocked (s : Sched) (i : SchedIntent) : Except SchedFault (Option Tid × Sched) :=
  match s.readyTail i with
  | none => .ok (none, s)
  | some tail =>
    match LinkRing.popHead s.rqNext tail with
    | none => .error .brokenRing
    | some (head, next, tail') =>
      .ok (some head, { s with rqNext := next, readyTail := update s.readyTail i tail' })

/-- `sched_pick_intent_locked`, with `CONFIG_SCHED_INTENT` set. -/
def schedPickIntentLocked (s : Sched) : SchedIntent × Sched :=
  match PatternQueues.pick kPickPattern (fun i ↦ (s.readyTail i).isSome) s.pickCursor with
  | some (i, cursor) => (i, { s with pickCursor := cursor })
  | none => ((SchedIntent.all.find? fun i ↦ (s.readyTail i).isSome).getD .background, s)

def rqPopBestLocked (s : Sched) : Except SchedFault (Option Tid × Sched) :=
  rqPopHeadIntentLocked (schedPickIntentLocked s).2 (schedPickIntentLocked s).1

/-- The thread gets the processor, with a new slice. -/
def Thread.prepareRunning (th : Thread) : Thread := { th with
    state := .running
    sliceTicksBudget := schedSliceForIntent th.schedIntent
    sliceTicksUsed := 0 }

def schedPrepareRunningLocked (s : Sched) (t : Tid) : Sched := s.modify t Thread.prepareRunning

/-! ### Operations -/

/-- What a switch loads: a saved context, or the trap frame at the saved address. -/
inductive Saved where
  | ctx (c : Ctx)
  | frame (f : TrapFrame)

/-- What an operation shows of its decision: the thread that `rq_pop_best_locked` returned, and the
thread switched to with the state it is resumed from. -/
structure SchedOut where
  popped : Option Tid
  resumed : Option (Tid × Saved)

def SchedOut.none : SchedOut := ⟨.none, .none⟩

/-- Initial memory: everything zero, and thread numbers start at `1`. -/
def Sched.bss : Sched where
  threads _ := ⟨⟨fun _ ↦ 0, 0⟩, 0, 0, 0, 0, .interactive, 0, 0, 0, 0, .ready⟩
  rqNext _ := none
  readyTail _ := none
  current := none
  schedTicks := 0
  pickCursor := 0
  needResched := false
  preemptCount := 0
  nextTid := 1
  frames _ _ := ⟨fun _ ↦ 0, 0, 0, 0⟩

def schedInitBootstrap (s : Sched) : Sched := { s with
    readyTail := fun _ ↦ none
    threads := update s.threads bootstrapThread ⟨⟨fun _ ↦ 0, 0⟩, 0, 0, 0, 0, .interactive, 0, 0, 0, 0, .running⟩
    rqNext := update s.rqNext bootstrapThread none
    schedTicks := 0
    pickCursor := 0
    current := some bootstrapThread }

/-- What `thread_create` is given: the entry point, its argument, the stack pages, and the addresses
of the two stubs a new thread starts at. -/
structure ThreadImage where
  entry : ℕ
  arg : ℕ
  stackVa : ℕ
  threadStart : ℕ
  threadTrampoline : ℕ

namespace ThreadImage

def stackSize : ℕ := 16384

/-- The top of the stack, aligned down to 16 bytes. -/
def stackTop (img : ThreadImage) : ℕ := img.stackVa + stackSize - (img.stackVa + stackSize) % 16

def frameSp (img : ThreadImage) : ℕ :=
  img.stackTop - trapFrameBytes - (img.stackTop - trapFrameBytes) % 16

/-- The initial trap frame: enter `thread_trampoline(entry, arg)` with interrupts enabled. -/
def initialFrame (img : ThreadImage) : TrapFrame where
  x i := if i = 0 then img.entry else if i = 1 then img.arg else 0
  spAtFault := img.stackTop
  elrEl1 := img.threadTrampoline
  spsrEl1 := 0x345

/-- The initial context: return to `thread_start` with the entry point in `x19` and its argument in
`x20`, below the reserved trap frame. -/
def initialCtx (img : ThreadImage) : Ctx where
  x i := if i = 0 then img.entry else if i = 1 then img.arg else if i = 11 then img.threadStart else 0
  sp := img.frameSp - img.frameSp % 16 - 0x100

end ThreadImage

/-- `thread_create_named`, when thread object and stack pages are found. -/
def threadCreate (s : Sched) (img : ThreadImage) : Sched := { s with
    threads := update s.threads s.nextTid
      ⟨img.initialCtx, img.stackVa, ThreadImage.stackSize, img.stackTop, img.frameSp, .interactive, 0, 0, 0, 0, .ready⟩
    rqNext := update s.rqNext s.nextTid none
    frames := update s.frames s.nextTid (update (s.frames s.nextTid) img.frameSp img.initialFrame)
    nextTid := s.nextTid + 1 }

def schedSetThreadIntent (s : Sched) (t : Tid) (raw : ℕ) : Except SchedFault Sched :=
  if (s.threads t).schedIntent = schedIntentSanitize raw then .ok s
  else if (s.threads t).state = .ready ∧ (s.rqNext t).isSome then
    match rqRemoveLocked s t with
    | .error f => .error f
    | .ok (_, s₁) => rqInsertTailLocked (s₁.modify t (·.setIntent (schedIntentSanitize raw))) t
  else .ok (s.modify t (·.setIntent (schedIntentSanitize raw)))

def schedEnqueue (s : Sched) (t : Tid) : Except SchedFault Sched :=
  if (s.threads t).state = .dead then .ok s
  else rqInsertTailLocked (s.setState t .ready) t

/-- The pick of the three switching operations: `sched_pick_next_locked` returns the thread popped,
or the current thread. -/
def schedPickNextLocked (s : Sched) (cur : Tid) : Except SchedFault (Tid × Option Tid × Sched) :=
  match rqPopBestLocked s with
  | .error f => .error f
  | .ok (popped, s₁) => .ok (popped.getD cur, popped, s₁)

/-- The part shared by `yield` and `sched_irq_exit`: a running thread other than the bootstrap
thread goes to the end of its queue. -/
def requeueRunning (s : Sched) (t : Tid) : Except SchedFault Sched :=
  if t ≠ bootstrapThread ∧ (s.threads t).state = .running then
    rqInsertTailLocked (s.setState t .ready) t
  else .ok s

/-- The switch through `ctx_switch`: the registers go to the context of `prev`, those of `next` are
loaded from its context. -/
def ctxSwitchTo (s : Sched) (prev next : Tid) (regs : Ctx) (popped : Option Tid) : Sched × SchedOut :=
  (((schedPrepareRunningLocked s next).setCurrent next).modify prev fun th ↦ { th with ctx := regs },
    ⟨popped, some (next, .ctx (s.threads next).ctx)⟩)

/-- `yield`; `regs` are the callee-saved registers at the call of `ctx_switch`. -/
def yield (s : Sched) (regs : Ctx) : Except SchedFault (Sched × SchedOut) :=
  match s.current with
  | none => .error .currentNull
  | some prev =>
    if (s.rqNext prev).isSome then .error .currentEnqueued
    else match requeueRunning (preemptClearNeedResched s) prev with
      | .error f => .error f
      | .ok s₁ =>
        match schedPickNextLocked s₁ prev with
        | .error f => .error f
        | .ok (next, popped, s₂) =>
          if next = prev then .ok (schedPrepareRunningLocked s₂ prev, ⟨popped, none⟩)
          else .ok (ctxSwitchTo s₂ prev next regs popped)

def schedBlockCurrent (s : Sched) (regs : Ctx) : Except SchedFault (Sched × SchedOut) :=
  match s.current with
  | none => .error .currentNull
  | some prev =>
    if (s.rqNext prev).isSome then .error .currentEnqueued
    else if prev = bootstrapThread then .error .bootstrapBlocks
    else match schedPickNextLocked (s.setState prev .blocked) prev with
      | .error f => .error f
      | .ok (next, popped, s₁) =>
        if next = prev then .ok (s₁.setState prev .running, ⟨popped, none⟩)
        else .ok (ctxSwitchTo s₁ prev next regs popped)

def schedWake (s : Sched) (t : Tid) : Except SchedFault Sched :=
  if (s.threads t).state = .blocked then rqInsertTailLocked (s.setState t .ready) t else .ok s

/-- A timer tick, charged to the running thread; a thread over its limit is demoted to the
background. -/
def Thread.tick (th : Thread) (charged demoted : Bool) : Thread := { th with
    runtimeTicksTotal := if charged then th.runtimeTicksTotal + 1 else th.runtimeTicksTotal
    schedIntent := if demoted then .background else th.schedIntent
    sliceTicksUsed := th.sliceTicksUsed + 1 }

/-- `sched_on_timer_tick`; `overLimit` says that the task of the thread is over its CPU limit. -/
def schedOnTimerTick (s : Sched) (overLimit : Bool) : Sched :=
  match s.current with
  | none => { s with schedTicks := s.schedTicks + 1, needResched := true }
  | some cur =>
    let charged := decide (cur ≠ bootstrapThread)
    let th := (s.threads cur).tick charged (charged && overLimit)
    { s with
      threads := update s.threads cur th
      schedTicks := s.schedTicks + 1
      needResched := s.needResched || (charged && overLimit) ||
        decide (th.sliceTicksBudget = 0 ∨ th.sliceTicksBudget ≤ th.sliceTicksUsed) }

/-- The interrupt entry: the frame of the interrupted thread is pushed at `tf`. -/
def pushFrame (s : Sched) (cur : Tid) (tf : ℕ) (frame : TrapFrame) : Sched :=
  { s with frames := update s.frames cur (update (s.frames cur) tf frame) }

/-- The switch at interrupt exit: continue with the frame at the `irq_sp` of `next`. -/
def irqSwitchTo (s : Sched) (cur next : Tid) (popped : Option Tid) : Sched × SchedOut :=
  (((schedPrepareRunningLocked s next).setCurrent next).modify cur fun th ↦
      { th with
        preemptions := if cur ≠ bootstrapThread then th.preemptions + 1 else th.preemptions },
    ⟨popped, some (next, .frame (s.frames next (s.threads next).irqSp))⟩)

/-- The record of the trap frame that `sched_irq_exit` makes for a thread it puts back in its
queue. -/
def recordIrqSp (s : Sched) (cur : Tid) (tf : ℕ) : Sched :=
  if cur ≠ bootstrapThread ∧ (s.threads cur).state = .running then
    s.modify cur fun th ↦ { th with irqSp := tf }
  else s

/-- An interrupt that ends in `sched_irq_exit`: the frame of the interrupted thread is at `tf`. -/
def schedIrqExit (s : Sched) (tf : ℕ) (frame : TrapFrame) : Except SchedFault (Sched × SchedOut) :=
  if tf = 0 then .error .nullTrapFrame
  else match s.current with
    | none => .ok (s, .none)
    | some cur =>
      if (s.rqNext cur).isSome then .error .currentEnqueuedIrq
      else if s.needResched = false ∨ s.preemptCount ≠ 0 then .ok (pushFrame s cur tf frame, .none)
      else match requeueRunning (recordIrqSp (preemptClearNeedResched (pushFrame s cur tf frame)) cur tf) cur with
        | .error f => .error f
        | .ok s₁ =>
          match schedPickNextLocked s₁ cur with
          | .error f => .error f
          | .ok (next, popped, s₂) =>
            if next = cur then .ok (schedPrepareRunningLocked s₂ cur, ⟨popped, none⟩)
            else if (s₂.threads next).irqSp = 0 then .error .nextIrqSpNull
            else .ok (irqSwitchTo s₂ cur next popped)

/-- What `thread_exit` does before its loop of `yield`s: mark the current thread. -/
def threadExitMark (s : Sched) : Sched :=
  match s.current with
  | none => s
  | some cur => s.setState cur .dead

inductive SchedOp where
  | create (img : ThreadImage)
  | enqueue (t : Tid)
  | yield (regs : Ctx)
  | blockCurrent (regs : Ctx)
  | wake (t : Tid)
  | setIntent (t : Tid) (raw : ℕ)
  | timerTick (overLimit : Bool)
  | irqExit (tf : ℕ) (frame : TrapFrame)
  | exitMark
  | preemptDisable
  | preemptEnable

def Sched.step (s : Sched) : SchedOp → Except SchedFault (Sched × SchedOut)
  | .create img => .ok (threadCreate s img, .none)
  | .enqueue t => (schedEnqueue s t).map (·, .none)
  | .yield regs => CapazOS.yield s regs
  | .blockCurrent regs => schedBlockCurrent s regs
  | .wake t => (schedWake s t).map (·, .none)
  | .setIntent t raw => (schedSetThreadIntent s t raw).map (·, .none)
  | .timerTick overLimit => .ok (schedOnTimerTick s overLimit, .none)
  | .irqExit tf frame => schedIrqExit s tf frame
  | .exitMark => .ok (threadExitMark s, .none)
  | .preemptDisable => .ok ({ s with preemptCount := s.preemptCount + 1 }, .none)
  | .preemptEnable =>
    if s.preemptCount = 0 then .error .preemptUnderflow
    else .ok ({ s with preemptCount := s.preemptCount - 1 }, .none)

end CapazOS
