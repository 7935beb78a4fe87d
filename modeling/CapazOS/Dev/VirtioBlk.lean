import Mathlib

/-!
# The virtio block driver

`virtio_blk_read` and `virtio_blk_write` publish one request, poll `used.idx` until it differs from
`last_used`, and report what the status byte says. Driver and device run concurrently; the device
completes requests **in the order of their publication**. The poll loop gives up after two million
rounds and leaves its request with the device, so that a later call can take its completion for its
own.

Cache maintenance, barriers and the contents of descriptors and buffers are left out: memory is
coherent, and a completion writes index and status byte at once.
-/

namespace CapazOS

open List

/-! ### Driver and device -/

/-- `virtio_blk_read` or `virtio_blk_write` with its arguments; `buf` is an address, `0` for
`NULL`. -/
structure BlkCall where
  isWrite : Bool
  lba : ℕ
  count : ℕ
  buf : ℕ
  bufLen : ℕ
  deriving DecidableEq

variable {c : BlkCall}

/-- A request as the descriptors show it to the device. -/
structure BlkReq where
  /-- `req.type`: 0 to read, 1 to write. -/
  type : ℕ
  /-- `req.sector`: the first sector. -/
  sector : ℕ
  /-- The length of the data descriptor. -/
  len : ℕ
  deriving DecidableEq

def BlkCall.type (c : BlkCall) : ℕ := if c.isWrite then 1 else 0

/-- Where the driver stands.
* `prepared`: request and status byte are written, the request is about to be published.
* `polling`: in the loop, after `spin` rounds.
* `leaving`: out of the loop, about to store `last_used`.
* `checking`: about to read the status byte. -/
inductive BlkPhase where
  | idle
  | prepared (r : BlkReq)
  | polling (spin : ℕ)
  | leaving
  | checking
  deriving DecidableEq

/-- The fields of `struct virtio_blk_dev` and of the rings that the two share, where the driver
stands, the requests published, and the statuses of those completed. -/
structure VirtioBlk where
  ready : Bool
  sectorSize : ℕ
  availIdx : BitVec 16
  usedIdx : BitVec 16
  lastUsed : BitVec 16
  status : BitVec 8
  phase : BlkPhase
  published : List BlkReq
  completed : List (BitVec 8)

variable {s₀ s : VirtioBlk}

/-- What happens next: a call, the next access of the driver, or the completion of the oldest
request with a status. -/
inductive BlkEvent where
  | call (c : BlkCall)
  | publish
  | poll
  | leave
  | check
  | complete (status : BitVec 8)

variable {ev : BlkEvent}

def blkSpinLimit : ℕ := 2000000

namespace VirtioBlk

def Accepts (s : VirtioBlk) (c : BlkCall) : Prop :=
  s.ready = true ∧ c.buf ≠ 0 ∧ c.count ≠ 0 ∧ c.count * s.sectorSize ≤ c.bufLen

instance (s : VirtioBlk) (c : BlkCall) : Decidable (s.Accepts c) :=
  inferInstanceAs (Decidable (_ ∧ _))

/-- The next event, with the result of the call when it returns; `none` when the event cannot
happen. -/
def step (s : VirtioBlk) : BlkEvent → Option (VirtioBlk × Option Bool)
  | .call c =>
    match s.phase with
    | .idle =>
      if s.Accepts c then
        some ({ s with
          status := 0xFF
          phase := .prepared ⟨c.type, c.lba, c.count * s.sectorSize % 2 ^ 32⟩ }, none)
      else some (s, some false)
    | _ => none
  | .publish =>
    match s.phase with
    | .prepared r =>
      some ({ s with
        availIdx := s.availIdx + 1
        published := s.published ++ [r]
        phase := .polling 0 }, none)
    | _ => none
  | .poll =>
    match s.phase with
    | .polling spin =>
      if s.usedIdx = s.lastUsed then
        if blkSpinLimit < spin + 1 then some ({ s with phase := .idle }, some false)
        else some ({ s with phase := .polling (spin + 1) }, none)
      else some ({ s with phase := .leaving }, none)
    | _ => none
  | .leave =>
    match s.phase with
    | .leaving => some ({ s with lastUsed := s.usedIdx, phase := .checking }, none)
    | _ => none
  | .check =>
    match s.phase with
    | .checking => some ({ s with phase := .idle }, some (decide (s.status = 0)))
    | _ => none
  | .complete status =>
    if s.completed.length < s.published.length then
      some ({ s with
        usedIdx := s.usedIdx + 1
        status := status
        completed := s.completed ++ [status] }, none)
    else none

def init : VirtioBlk where
  ready := true
  sectorSize := 512
  availIdx := 0
  usedIdx := 0
  lastUsed := 0
  status := 0
  phase := .idle
  published := []
  completed := []

def Quiet (s : VirtioBlk) : Prop := s.completed.length = s.published.length

end VirtioBlk

/-- The states that calls, one at a time, and completions reach. -/
inductive BlkRun : VirtioBlk → Prop
  | init : BlkRun .init
  | step {s s' : VirtioBlk} {ev : BlkEvent} {res : Option Bool} (h : BlkRun s)
      (hstep : s.step ev = some (s', res)) : BlkRun s'

/-- The states **during** the call `c` that starts in `s₀`. -/
inductive BlkBusy (s₀ : VirtioBlk) (c : BlkCall) : VirtioBlk → Prop
  | start {s : VirtioBlk} (hstep : s₀.step (.call c) = some (s, none)) : BlkBusy s₀ c s
  | step {s s' : VirtioBlk} {ev : BlkEvent} (h : BlkBusy s₀ c s) (hstep : s.step ev = some (s', none)) : BlkBusy s₀ c s'

/-- The call `c` that starts in `s₀` can **return** `res`, in the state `s`. -/
inductive BlkReturns (s₀ : VirtioBlk) (c : BlkCall) : VirtioBlk → Bool → Prop
  | refused {s : VirtioBlk} {res : Bool} (hstep : s₀.step (.call c) = some (s, some res)) : BlkReturns s₀ c s res
  | ended {s s' : VirtioBlk} {ev : BlkEvent} {res : Bool} (h : BlkBusy s₀ c s)
      (hstep : s.step ev = some (s', some res)) : BlkReturns s₀ c s' res

/-- In `s`, the request that the call started in `s₀` publishes is completed with status `0`:
requests are numbered in the order of their publication. -/
def BlkDone (s₀ s : VirtioBlk) : Prop := s.completed[s₀.published.length]? = some 0

/-! ### What an event can do -/

namespace VirtioBlk

variable {s' : VirtioBlk} {res : Option Bool}

/-- **What an event can do.** -/
theorem step_cases (h : s.step ev = some (s', res)) : (∃ c, ev = .call c ∧ s.phase = .idle ∧
      (s.Accepts c ∧ res = none ∧ s' = { s with
            status := 0xFF
            phase := .prepared ⟨c.type, c.lba, c.count * s.sectorSize % 2 ^ 32⟩ } ∨
        ¬s.Accepts c ∧ res = some false ∧ s' = s)) ∨
    (∃ r, ev = .publish ∧ s.phase = .prepared r ∧ res = none ∧ s' = { s with
        availIdx := s.availIdx + 1
        published := s.published ++ [r]
        phase := .polling 0 }) ∨
    (∃ spin phase, ev = .poll ∧ s.phase = .polling spin ∧ s' = { s with phase := phase } ∧
      (phase = .leaving ∧ res = none ∨ phase = .polling (spin + 1) ∧ res = none ∨ phase = .idle ∧ res = some false)) ∨
    (ev = .leave ∧ s.phase = .leaving ∧ res = none ∧ s' = { s with lastUsed := s.usedIdx, phase := .checking }) ∨
    (ev = .check ∧ s.phase = .checking ∧ res = some (decide (s.status = 0)) ∧ s' = { s with phase := .idle }) ∨
    ∃ status, ev = .complete status ∧ s.completed.length < s.published.length ∧ res = none ∧ s' = { s with
        usedIdx := s.usedIdx + 1
        status := status
        completed := s.completed ++ [status] } := by
  cases ev with
  | call c =>
    simp only [step] at h
    split at h
    · rename_i hphase
      split_ifs at h with hacc <;> cases h
      · exact .inl ⟨c, rfl, hphase, .inl ⟨hacc, rfl, rfl⟩⟩
      · exact .inl ⟨c, rfl, hphase, .inr ⟨hacc, rfl, rfl⟩⟩
    · cases h
  | publish =>
    simp only [step] at h
    split at h
    · rename_i r hphase
      cases h
      exact .inr (.inl ⟨r, rfl, hphase, rfl, rfl⟩)
    · cases h
  | poll =>
    simp only [step] at h
    split at h
    · rename_i spin hphase
      refine .inr (.inr (.inl ?_))
      split_ifs at h <;> cases h
      · exact ⟨spin, _, rfl, hphase, rfl, .inr (.inr ⟨rfl, rfl⟩)⟩
      · exact ⟨spin, _, rfl, hphase, rfl, .inr (.inl ⟨rfl, rfl⟩)⟩
      · exact ⟨spin, _, rfl, hphase, rfl, .inl ⟨rfl, rfl⟩⟩
    · cases h
  | leave =>
    simp only [step] at h
    split at h
    · rename_i hphase
      cases h
      exact .inr (.inr (.inr (.inl ⟨rfl, hphase, rfl, rfl⟩)))
    · cases h
  | check =>
    simp only [step] at h
    split at h
    · rename_i hphase
      cases h
      exact .inr (.inr (.inr (.inr (.inl ⟨rfl, hphase, rfl, rfl⟩))))
    · cases h
  | complete status =>
    simp only [step] at h
    split_ifs at h with hlt
    cases h
    exact .inr (.inr (.inr (.inr (.inr ⟨status, rfl, hlt, rfl, rfl⟩))))

theorem completed_le (h : BlkRun s) : s.completed.length ≤ s.published.length := by
  induction h with
  | init => exact Nat.le_refl _
  | step _ hstep ih =>
    rcases step_cases hstep with ⟨c, -, -, ⟨-, -, rfl⟩ | ⟨-, -, rfl⟩⟩ | ⟨r, -, -, -, rfl⟩ |
      ⟨spin, phase, -, -, rfl, -⟩ | ⟨-, -, -, rfl⟩ | ⟨-, -, -, rfl⟩ | ⟨status, -, hlt, -, rfl⟩
    · exact ih
    · exact ih
    · simp only [length_append, length_singleton]
      omega
    · exact ih
    · exact ih
    · exact ih
    · simp only [length_append, length_singleton]
      omega

end VirtioBlk

/-! ### A call with no other request around -/

def BlkPhase.Waits (p : BlkPhase) : Prop := p ≠ .idle ∧ ∀ r, p ≠ .prepared r

/-- The states during a call that started when all of `n` requests were completed: its own request
is not published, is with the device and the status byte untouched, or is completed with what the
status byte says. -/
inductive OwnRequest (n : ℕ) (s : VirtioBlk) : Prop
  | prepared (r : BlkReq) (hphase : s.phase = .prepared r) (hpub : s.published.length = n)
      (hdone : s.completed.length = n) (hstatus : s.status = 0xFF)
  | waiting (hphase : s.phase.Waits) (hpub : s.published.length = n + 1)
      (hdone : s.completed.length = n) (hstatus : s.status = 0xFF)
  | completed (hphase : s.phase.Waits) (hpub : s.published.length = n + 1)
      (hdone : s.completed.length = n + 1) (hown : s.completed[n]? = some s.status)

namespace OwnRequest

variable {n : ℕ} {s' : VirtioBlk}

theorem setPhase (h : OwnRequest n s) (hold : ∀ r, s.phase ≠ .prepared r) {p : BlkPhase}
    (hp : p.Waits) (lastUsed : BitVec 16) :
    OwnRequest n { s with lastUsed := lastUsed, phase := p } := by
  cases h with
  | prepared r hphase => exact absurd hphase (hold r)
  | waiting _ hpub hdone hstatus => exact .waiting hp hpub hdone hstatus
  | completed _ hpub hdone hown => exact .completed hp hpub hdone hown

/-- **An event during the call** keeps what is said about its request. -/
theorem step (h : OwnRequest n s) (hstep : s.step ev = some (s', none)) : OwnRequest n s' := by
  rcases VirtioBlk.step_cases hstep with ⟨c, -, hphase, -⟩ | ⟨r, -, hphase, -, rfl⟩ |
    ⟨spin, phase, -, hphase, rfl, hnext⟩ | ⟨-, hphase, -, rfl⟩ | ⟨-, -, hres, -⟩ |
    ⟨status, -, hlt, -, rfl⟩
  · -- a call does not start during another
    cases h with
    | prepared r hphase' => rw [hphase] at hphase'; cases hphase'
    | waiting hw => exact absurd hphase hw.1
    | completed hw => exact absurd hphase hw.1
  · cases h with
    | prepared _ _ hpub hdone hstatus =>
      refine .waiting ⟨nofun, nofun⟩ ?_ hdone hstatus
      rw [length_append, hpub, length_singleton]
    | waiting hw => exact absurd hphase (hw.2 r)
    | completed hw => exact absurd hphase (hw.2 r)
  · refine h.setPhase (by rw [hphase]; nofun) ?_ s.lastUsed
    rcases hnext with ⟨rfl, -⟩ | ⟨rfl, -⟩ | ⟨-, hres⟩
    · exact ⟨nofun, nofun⟩
    · exact ⟨nofun, nofun⟩
    · cases hres
  · exact h.setPhase (p := .checking) (by rw [hphase]; nofun) ⟨nofun, nofun⟩ s.usedIdx
  · cases hres
  · -- the only request the device has is the one of the call
    cases h with
    | prepared r _ hpub hdone => omega
    | waiting hw hpub hdone =>
      refine .completed hw hpub ?_ ?_
      · rw [length_append, hdone, length_singleton]
      · rw [getElem?_append_right (by omega), hdone, Nat.sub_self]
        rfl
    | completed _ hpub hdone => omega

theorem done (h : OwnRequest n s) (hstep : s.step ev = some (s', some true)) : s'.completed[n]? = some 0 := by
  rcases VirtioBlk.step_cases hstep with ⟨c, -, -, ⟨-, hres, -⟩ | ⟨-, hres, -⟩⟩ | ⟨r, -, -, hres, -⟩ |
    ⟨spin, phase, -, -, -, ⟨-, hres⟩ | ⟨-, hres⟩ | ⟨-, hres⟩⟩ | ⟨-, -, hres, -⟩ | ⟨-, hphase, hres, rfl⟩ |
    ⟨status, -, -, hres, -⟩
  all_goals try cases hres
  have hzero : s.status = 0 := of_decide_eq_true (Option.some.inj hres).symm
  cases h with
  | prepared r hphase' => rw [hphase] at hphase'; cases hphase'
  | waiting _ _ _ hstatus => rw [hzero] at hstatus; cases hstatus
  | completed _ _ _ hown => rwa [hzero] at hown

end OwnRequest

theorem BlkBusy.own (hquiet : s₀.Quiet) (h : BlkBusy s₀ c s) : OwnRequest s₀.published.length s := by
  induction h with
  | start hstep =>
    rcases VirtioBlk.step_cases hstep with ⟨c, -, -, ⟨-, -, rfl⟩ | ⟨-, hres, -⟩⟩ | ⟨r, hev, -⟩ |
      ⟨spin, phase, hev, -⟩ | ⟨hev, -⟩ | ⟨hev, -⟩ | ⟨status, hev, -⟩
    · exact .prepared _ rfl rfl hquiet rfl
    · cases hres
    all_goals cases hev
  | step _ hstep ih => exact ih.step hstep

/-- **A call that starts with no request with the device** returns true only when its request is
completed. -/
theorem BlkReturns.done_of_quiet (hquiet : s₀.Quiet) (h : BlkReturns s₀ c s true) : BlkDone s₀ s := by
  cases h with
  | refused hstep =>
    rcases VirtioBlk.step_cases hstep with ⟨c, -, -, ⟨-, hres, -⟩ | ⟨-, hres, -⟩⟩ | ⟨r, hev, -⟩ |
      ⟨spin, phase, hev, -⟩ | ⟨hev, -⟩ | ⟨hev, -⟩ | ⟨status, hev, -⟩
    · cases hres
    · cases hres
    all_goals cases hev
  | ended hbusy hstep => exact (hbusy.own hquiet).done hstep

/-! ### A call with another request around -/

/-- **A call that starts while a request is with the device** can return true on the completion of
that request. -/
theorem exists_blkReturns (hidle : s₀.phase = .idle) (hacc : s₀.Accepts c)
    (hlt : s₀.completed.length < s₀.published.length) :
    ∃ s, BlkReturns s₀ c s true ∧ s.completed = s₀.completed ++ [0] := by
  set r : BlkReq := ⟨c.type, c.lba, c.count * s₀.sectorSize % 2 ^ 32⟩ with hr
  have hlen : s₀.completed.length < (s₀.published ++ [r]).length := by
    rw [length_append]
    omega
  have hstart : BlkBusy s₀ c { s₀ with status := 0xFF, phase := .prepared r } :=
    .start (by simp only [VirtioBlk.step, hidle, if_pos hacc, hr])
  have hpub : BlkBusy s₀ c { s₀ with
      availIdx := s₀.availIdx + 1
      status := 0xFF
      phase := .polling 0
      published := s₀.published ++ [r] } :=
    hstart.step (show VirtioBlk.step _ .publish = _ from rfl)
  -- either the completion ends the loop, or an earlier one that nobody waited for has ended it
  have hleaving : BlkBusy s₀ c { s₀ with
      availIdx := s₀.availIdx + 1
      usedIdx := s₀.usedIdx + 1
      status := 0
      phase := .leaving
      published := s₀.published ++ [r]
      completed := s₀.completed ++ [0] } := by
    by_cases hused : s₀.usedIdx = s₀.lastUsed
    · have hne : ¬s₀.usedIdx + 1 = s₀.lastUsed := by bv_omega
      have hcomp := hpub.step (show VirtioBlk.step _ (.complete 0) = _ from if_pos hlen)
      exact hcomp.step (show VirtioBlk.step _ .poll = _ from if_neg hne)
    · have hpoll := hpub.step (show VirtioBlk.step _ .poll = _ from if_neg hused)
      exact hpoll.step (show VirtioBlk.step _ (.complete 0) = _ from if_pos hlen)
  have hchecking := hleaving.step (show VirtioBlk.step _ .leave = _ from rfl)
  exact ⟨_, .ended hchecking (show VirtioBlk.step _ .check = _ from rfl), rfl⟩

/-- **When success means completion.** In every state reached by calls, one at a time, and
completions: whatever the device does during the next call, the call returns true only after its own
request is completed with status `0`, **iff** no earlier request is still with the device when it
starts (or the call is refused at its head). -/
theorem virtio_blk_success_iff {s : VirtioBlk} (hrun : BlkRun s) (hidle : s.phase = .idle) (c : BlkCall) :
    (∀ s', BlkReturns s c s' true → BlkDone s s') ↔ s.Quiet ∨ ¬s.Accepts c := by
  constructor
  · intro h
    by_contra hcon
    rw [not_or, not_not] at hcon
    have hle := VirtioBlk.completed_le hrun
    have hlt : s.completed.length < s.published.length := Nat.lt_of_le_of_ne hle hcon.1
    obtain ⟨s', hret, hdone⟩ := exists_blkReturns hidle hcon.2 hlt
    have hown : s'.completed[s.published.length]? = some 0 := h s' hret
    rw [hdone, getElem?_eq_none (by rw [length_append, length_singleton]; omega)] at hown
    cases hown
  · rintro (hquiet | hacc) s' hret
    · exact hret.done_of_quiet hquiet
    · -- a refused call returns false
      have hrefused : s.step (.call c) = some (s, some false) := by simp only [VirtioBlk.step, hidle, if_neg hacc]
      have hbusy : ∀ s₁, ¬BlkBusy s c s₁ := by
        intro s₁ hb
        induction hb with
        | start hstep => rw [hrefused] at hstep; cases hstep
        | step _ _ ih => exact ih
      cases hret with
      | refused hstep => rw [hrefused] at hstep; cases hstep
      | ended hb => exact absurd hb (hbusy _)

/-! ### A late completion -/

theorem BlkRun.timeout (hused : s.usedIdx = s.lastUsed) (k : ℕ) :
    ∀ spin, spin + k = blkSpinLimit → BlkRun { s with phase := .polling spin } → BlkRun { s with phase := .idle } := by
  induction k with
  | zero =>
    intro spin hspin h
    refine h.step (show VirtioBlk.step _ .poll = some (_, some false) from ?_)
    simp only [VirtioBlk.step, hused, if_true, if_pos (show blkSpinLimit < spin + 1 by omega)]
  | succ k ih =>
    intro spin hspin h
    refine ih (spin + 1) (by omega) (h.step (show VirtioBlk.step _ .poll = some (_, none) from ?_))
    simp only [VirtioBlk.step, hused, if_true, if_neg (show ¬blkSpinLimit < spin + 1 by omega)]

def readSector0 : BlkCall := ⟨false, 0, 1, 0x40100000, 512⟩

def timedOut : VirtioBlk := { VirtioBlk.init with
    availIdx := 1
    status := 0xFF
    published := [⟨0, 0, 512⟩] }

theorem blkRun_timedOut : BlkRun timedOut := by
  have h₁ := BlkRun.init.step (show VirtioBlk.step _ (.call readSector0) = some (_, none) from rfl)
  have h₂ := h₁.step (show VirtioBlk.step _ .publish = some (_, none) from rfl)
  exact BlkRun.timeout (s := timedOut) rfl blkSpinLimit 0 (Nat.zero_add _) h₂

/-- The first read times out and is completed during the second, which returns true. -/
theorem virtio_blk_late_completion : ∃ s s', BlkRun s ∧ s.phase = .idle ∧
    BlkReturns s readSector0 s' true ∧ ¬BlkDone s s' := by
  obtain ⟨s', hret, hdone⟩ := @exists_blkReturns readSector0 timedOut rfl (by decide) (by decide)
  refine ⟨timedOut, s', blkRun_timedOut, rfl, hret, fun h ↦ ?_⟩
  rw [BlkDone, hdone] at h
  cases h

theorem virtio_blk_success_first : BlkRun .init ∧ ∃ s', BlkReturns .init readSector0 s' true ∧
    BlkDone .init s' := by
  have h₁ : BlkBusy .init readSector0 _ := .start rfl
  have h₂ := h₁.step (show VirtioBlk.step _ .publish = some (_, none) from rfl)
  have h₃ := h₂.step (show VirtioBlk.step _ (.complete 0) = some (_, none) from rfl)
  have h₄ := h₃.step (show VirtioBlk.step _ .poll = some (_, none) from rfl)
  have h₅ := h₄.step (show VirtioBlk.step _ .leave = some (_, none) from rfl)
  have hret : BlkReturns .init readSector0 _ true :=
    .ended h₅ (show VirtioBlk.step _ .check = some (_, some true) from rfl)
  exact ⟨.init, _, hret, (virtio_blk_success_iff .init rfl readSector0).2 (.inl rfl) _ hret⟩

end CapazOS
