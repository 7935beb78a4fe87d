import CapazOS.Cap.Table
import CapazOS.Lib.LinkQueue

/-!
# IPC endpoints

An endpoint is a queue of messages, doubly linked through the message objects, with room for one
waiting receiver. **The calls are not atomic**: a call is a sequence of parts, between which its
thread can be preempted. `CallState` says where in a call a thread stands, and `Ipc.step` performs
the next part of one thread. The parts that touch an endpoint run with interrupts masked. The first
part of a send, which checks the handle, takes a message object from its slab cache and fills it, is
**one step here although the code does not mask it**: the cache is taken to hand out an object that
is not in use. Which of the threads that could run is picked is left out.
-/

namespace CapazOS

open LinkQueue Function

/-! ### Messages -/

def ksIpcMsgMax : ℕ := 128

/-- `ks_ipc_msg_t`, and the corresponding fields of `ipc_msg_t`. -/
structure KsIpcMsg where
  tag : BitVec 32
  len : BitVec 32
  data : Fin ksIpcMsgMax → BitVec 8

/-- What a message says: its tag, its length and that many bytes. -/
structure Payload where
  tag : BitVec 32
  len : BitVec 32
  bytes : List (BitVec 8)
  deriving DecidableEq

def KsIpcMsg.payload (msg : KsIpcMsg) : Payload :=
  ⟨msg.tag, msg.len, (List.ofFn msg.data).take msg.len.toNat⟩

def KsIpcMsg.zero : KsIpcMsg := ⟨0, 0, fun _ ↦ 0⟩

def KsIpcMsg.copy (dst src : KsIpcMsg) : KsIpcMsg where
  tag := src.tag
  len := src.len
  data i := if (i : ℕ) < src.len.toNat then src.data i else dst.data i

/-- Copy out to the receiver, with the length clamped to the maximum. -/
def KsIpcMsg.copyOut (out src : KsIpcMsg) : KsIpcMsg :=
  out.copy { src with len := if ksIpcMsgMax < src.len.toNat then BitVec.ofNat 32 ksIpcMsgMax else src.len }

theorem KsIpcMsg.payload_copy (dst src : KsIpcMsg) : (dst.copy src).payload = src.payload := by
  have hbytes : (List.ofFn (dst.copy src).data).take src.len.toNat = (List.ofFn src.data).take src.len.toNat := by
    refine List.ext_getElem (by simp) fun i hi _ ↦ ?_
    have hlt : i < src.len.toNat := (List.length_take .. ▸ hi).trans_le (Nat.min_le_left ..)
    simp [List.getElem_take, List.getElem_ofFn, copy, hlt]
  show Payload.mk src.tag src.len ((List.ofFn (dst.copy src).data).take src.len.toNat) = src.payload
  rw [hbytes, payload]

theorem KsIpcMsg.payload_copyOut (out src : KsIpcMsg) (h : src.len.toNat ≤ ksIpcMsgMax) :
    (out.copyOut src).payload = src.payload := by
  rw [copyOut, if_neg (Nat.not_lt.2 h)]
  exact payload_copy out src

/-! ### Endpoints -/

abbrev Mid := ℕ

abbrev Eid := ℕ

/-- `endpoint_t`, without its number. -/
structure Endpoint where
  ends : Ends Mid
  waitingRecv : Option ℕ
  closed : Bool

def Endpoint.setEnds (ep : Endpoint) (ends : Ends Mid) : Endpoint := { ep with ends := ends }

def Endpoint.setWaiting (ep : Endpoint) (w : Option ℕ) : Endpoint := { ep with waitingRecv := w }

/-- `ks_ipc_status_t`, without `KS_IPC_OK`. -/
inductive IpcErr where
  | invalid | rights | noMem | closed | empty
  deriving DecidableEq

def capRSend : CapRights := 1#32 <<< 12

def capRRecv : CapRights := 1#32 <<< 13

def endpointFromHandle (caps : CapTable) (h : CapHandle) (need : CapRights) : Except IpcErr Eid :=
  match capLookup caps h need with
  | none => .error .rights
  | some ent => if ent.type ≠ .endpoint ∨ ent.obj = 0 then .error .invalid else .ok ent.obj

/-! ### Calls in progress -/

/-- Where in a call a thread stands.
* `sending`: the message object `m` holds a copy of `msg` and is about to be appended.
* `receiving`: about to look into the queue; `wait` in `ipc_recv_cap`, not in `ipc_try_recv_cap`.
* `blocking`: registered as the waiter, and about to call `sched_block_current`.
* `blocked`: in `sched_block_current`, in state `BLOCKED`.
* `copying`: the message object `m` was taken and is about to be copied out. -/
inductive CallState where
  | idle
  | sending (e : Eid) (m : Mid) (msg : KsIpcMsg)
  | receiving (e : Eid) (wait : Bool)
  | blocking (e : Eid)
  | blocked (e : Eid)
  | copying (e : Eid) (m : Mid)

/-- The endpoints, the message objects with their links, the message objects in use, and the calls
in progress. -/
structure Ipc where
  endpoints : Eid → Endpoint
  links : Nodes Mid
  msgs : Mid → KsIpcMsg
  allocated : Finset Mid
  calls : ℕ → CallState

/-- Endpoints as `endpoint_alloc` returns them, and no call in progress. -/
def Ipc.init : Ipc where
  endpoints _ := ⟨⟨none, none⟩, none, false⟩
  links := ⟨fun _ ↦ none, fun _ ↦ none⟩
  msgs _ := .zero
  allocated := ∅
  calls _ := .idle

namespace Ipc

def setCall (s : Ipc) (t : ℕ) (c : CallState) : Ipc := { s with calls := update s.calls t c }

def setEndpoint (s : Ipc) (e : Eid) (ep : Endpoint) : Ipc := { s with endpoints := update s.endpoints e ep }

end Ipc

def qPushTail (s : Ipc) (e : Eid) (m : Mid) : Ipc := { s with
    links := (pushTail s.links (s.endpoints e).ends m).1
    endpoints := update s.endpoints e ((s.endpoints e).setEnds (pushTail s.links (s.endpoints e).ends m).2) }

def qPopHead (s : Ipc) (e : Eid) : Option (Mid × Ipc) :=
  (popHead s.links (s.endpoints e).ends).map fun r ↦
    (r.1, { s with
      links := r.2.1
      endpoints := update s.endpoints e ((s.endpoints e).setEnds r.2.2) })

/-- `sched_wake`, as far as the calls go: a blocked receiver is made ready, and will look into the
queue again. Any other thread is left alone. -/
def ipcWake (s : Ipc) (w : ℕ) : Ipc :=
  match s.calls w with
  | .blocked e => s.setCall w (.receiving e true)
  | _ => s

/-! ### The parts of the calls -/

def ipcSendCheck (s : Ipc) (caps : CapTable) (h : CapHandle) (msg : KsIpcMsg) : Except IpcErr Eid :=
  if ksIpcMsgMax < msg.len.toNat then .error .invalid
  else match endpointFromHandle caps h capRSend with
    | .error st => .error st
    | .ok e => if (s.endpoints e).closed then .error .closed else .ok e

/-- The masked part of `ipc_send_cap`: append, and wake the waiter. -/
def ipcSendPush (s : Ipc) (e : Eid) (m : Mid) : Ipc :=
  match (s.endpoints e).waitingRecv with
  | none => qPushTail s e m
  | some w =>
    ipcWake ((qPushTail s e m).setEndpoint e (((qPushTail s e m).endpoints e).setWaiting none)) w

/-- The next uninterrupted part of a call. The first three start a call; `send` names the message
object that `ipc_msg_alloc` returns. In `block`, `stay` says that `sched_block_current` finds no
other thread to run. In `copy`, `out` is what the buffer of the receiver holds before. -/
inductive IpcOp where
  | send (caps : CapTable) (h : CapHandle) (msg : KsIpcMsg) (m : Mid)
  | recv (caps : CapTable) (h : CapHandle)
  | tryRecv (caps : CapTable) (h : CapHandle)
  | push
  | take
  | block (stay : Bool)
  | copy (out : KsIpcMsg)

/-- What a part of a call shows: the call fails, the message of a send is in the queue and the send
succeeds, a receive took a message, or a receive succeeds with the message in its buffer. -/
inductive IpcOut where
  | none
  | failed (st : IpcErr)
  | accepted (e : Eid) (p : Payload)
  | taken (e : Eid) (p : Payload)
  | delivered (e : Eid) (p : Payload)

/-- The masked part of a receive. -/
def ipcTake (s : Ipc) (t : ℕ) (e : Eid) (wait : Bool) : Ipc × IpcOut :=
  match qPopHead s e with
  | some (m, s') => (s'.setCall t (.copying e m), .taken e (s.msgs m).payload)
  | none =>
    if (s.endpoints e).closed then (s.setCall t .idle, .failed .closed)
    else if wait = false then (s.setCall t .idle, .failed .empty)
    else if (s.endpoints e).waitingRecv.any (· ≠ t) then (s.setCall t .idle, .failed .rights)
    else ((s.setEndpoint e ((s.endpoints e).setWaiting (some t))).setCall t (.blocking e), .none)

/-- Thread `t` performs the next part of a call; `none` when it does not stand there. -/
def Ipc.step (s : Ipc) (t : ℕ) : IpcOp → Option (Ipc × IpcOut)
  | .send caps h msg m =>
    match s.calls t with
    | .idle =>
      match ipcSendCheck s caps h msg with
      | .error st => some (s, .failed st)
      | .ok e =>
        if m ∈ s.allocated then none
        else some (({ s with
          msgs := update s.msgs m (KsIpcMsg.zero.copy msg)
          allocated := insert m s.allocated } : Ipc).setCall t (.sending e m msg), .none)
    | _ => none
  | .recv caps h =>
    match s.calls t with
    | .idle =>
      match endpointFromHandle caps h capRRecv with
      | .error st => some (s, .failed st)
      | .ok e => some (s.setCall t (.receiving e true), .none)
    | _ => none
  | .tryRecv caps h =>
    match s.calls t with
    | .idle =>
      match endpointFromHandle caps h capRRecv with
      | .error st => some (s, .failed st)
      | .ok e => some (s.setCall t (.receiving e false), .none)
    | _ => none
  | .push =>
    match s.calls t with
    | .sending e m msg => some ((ipcSendPush s e m).setCall t .idle, .accepted e msg.payload)
    | _ => none
  | .take =>
    match s.calls t with
    | .receiving e wait => some (ipcTake s t e wait)
    | _ => none
  | .block stay =>
    match s.calls t with
    | .blocking e => some (s.setCall t (if stay then .receiving e true else .blocked e), .none)
    | _ => none
  | .copy out =>
    match s.calls t with
    | .copying e m =>
      some (({ s with allocated := s.allocated.erase m } : Ipc).setCall t .idle,
        .delivered e (out.copyOut (s.msgs m)).payload)
    | _ => none

/-! ### What the parts change -/

namespace Ipc

@[simp] theorem setCall_calls_self (s : Ipc) (t : ℕ) (c : CallState) : (s.setCall t c).calls t = c := update_self ..

theorem setCall_calls_of_ne (s : Ipc) {t u : ℕ} (h : u ≠ t) (c : CallState) :
    (s.setCall t c).calls u = s.calls u := update_of_ne h ..

@[simp] theorem setEndpoint_self (s : Ipc) (e : Eid) (ep : Endpoint) : (s.setEndpoint e ep).endpoints e = ep :=
  update_self ..

theorem setEndpoint_of_ne (s : Ipc) {e e' : Eid} (h : e' ≠ e) (ep : Endpoint) :
    (s.setEndpoint e ep).endpoints e' = s.endpoints e' := update_of_ne h ..

end Ipc

/-- `sched_wake` changes at most where one blocked thread stands. -/
structure Woken (s s' : Ipc) (w : Option ℕ) : Prop where
  links : s'.links = s.links
  msgs : s'.msgs = s.msgs
  allocated : s'.allocated = s.allocated
  endpoints : s'.endpoints = s.endpoints
  calls : ∀ u, s'.calls u = s.calls u ∨ ∃ e, w = some u ∧ s.calls u = .blocked e ∧ s'.calls u = .receiving e true
  not_blocked : ∀ u, w = some u → ∀ e, s'.calls u ≠ .blocked e

theorem woken_ipcWake (s : Ipc) (w : ℕ) : Woken s (ipcWake s w) (some w) := by
  unfold ipcWake
  split
  · rename_i e hw
    refine ⟨rfl, rfl, rfl, rfl, fun u ↦ ?_, fun u hu e' ↦ ?_⟩
    · rcases eq_or_ne u w with rfl | hne
      · exact .inr ⟨e, rfl, hw, s.setCall_calls_self u _⟩
      · exact .inl (s.setCall_calls_of_ne hne _)
    · obtain rfl := Option.some.inj hu
      rw [Ipc.setCall_calls_self]
      nofun
  · rename_i hw
    refine ⟨rfl, rfl, rfl, rfl, fun u ↦ .inl rfl, fun u hu e' ↦ ?_⟩
    obtain rfl := Option.some.inj hu
    exact hw e'

/-- The endpoint after a message is appended: there is no waiter any more. -/
def pushedEndpoint (s : Ipc) (e : Eid) (m : Mid) : Endpoint :=
  ⟨(pushTail s.links (s.endpoints e).ends m).2, none, (s.endpoints e).closed⟩

/-- **The masked part of a send**: the message is appended, and the waiter is woken. -/
theorem ipcSendPush_spec (s : Ipc) (e : Eid) (m : Mid) : Woken { s with
        links := (pushTail s.links (s.endpoints e).ends m).1
        endpoints := update s.endpoints e (pushedEndpoint s e m) }
      (ipcSendPush s e m) (s.endpoints e).waitingRecv := by
  unfold ipcSendPush
  rcases hw : (s.endpoints e).waitingRecv with _ | w
  · refine ⟨rfl, rfl, rfl, ?_, fun u ↦ .inl rfl, fun u hu ↦ by cases hu⟩
    simp only [qPushTail, pushedEndpoint, Endpoint.setEnds, hw]
  · have hwoken := woken_ipcWake ((qPushTail s e m).setEndpoint e (((qPushTail s e m).endpoints e).setWaiting none)) w
    refine ⟨hwoken.links, hwoken.msgs, hwoken.allocated, hwoken.endpoints.trans ?_, hwoken.calls, hwoken.not_blocked⟩
    simp [Ipc.setEndpoint, qPushTail, pushedEndpoint, update_idem, Endpoint.setEnds, Endpoint.setWaiting]

theorem qPopHead_eq_some {s s' : Ipc} {e : Eid} {m : Mid} (h : qPopHead s e = some (m, s')) :
    ∃ ends', s'.endpoints = update s.endpoints e ((s.endpoints e).setEnds ends') ∧ s'.calls = s.calls := by
  obtain ⟨r, -, heq⟩ := Option.map_eq_some_iff.1 h
  cases heq
  exact ⟨r.2.2, rfl, rfl⟩

/-- **What a part of a call can do.** -/
inductive Ipc.Part (s : Ipc) (t : ℕ) (op : IpcOp) : Ipc → IpcOut → Prop
  | refused (st : IpcErr) : Part s t op s (.failed st)
  | send {caps : CapTable} {h : CapHandle} {e : Eid} {m : Mid} {msg : KsIpcMsg} (hcall : s.calls t = .idle)
      (hcheck : ipcSendCheck s caps h msg = .ok e) (hm : m ∉ s.allocated) : Part s t op (({ s with
          msgs := update s.msgs m (KsIpcMsg.zero.copy msg)
          allocated := insert m s.allocated } : Ipc).setCall t (.sending e m msg)) .none
  | recv {e : Eid} {wait : Bool} (hcall : s.calls t = .idle) : Part s t op (s.setCall t (.receiving e wait)) .none
  | push {e : Eid} {m : Mid} {msg : KsIpcMsg} (hop : op = .push) (hcall : s.calls t = .sending e m msg) :
      Part s t op ((ipcSendPush s e m).setCall t .idle) (.accepted e msg.payload)
  | take {e : Eid} {wait : Bool} (hcall : s.calls t = .receiving e wait) :
      Part s t op (ipcTake s t e wait).1 (ipcTake s t e wait).2
  | block {e : Eid} {c : CallState} (hcall : s.calls t = .blocking e)
      (hc : c = .receiving e true ∨ c = .blocked e) : Part s t op (s.setCall t c) .none
  | copy {e : Eid} {m : Mid} (buf : KsIpcMsg) (hcall : s.calls t = .copying e m) : Part s t op
      (({ s with allocated := s.allocated.erase m } : Ipc).setCall t .idle)
      (.delivered e (buf.copyOut (s.msgs m)).payload)

theorem Ipc.part_of_step {s s' : Ipc} {t : ℕ} {op : IpcOp} {out : IpcOut}
    (h : s.step t op = some (s', out)) : s.Part t op s' out := by
  cases op with
  | send caps hd msg m =>
    simp only [step] at h
    split at h
    · next hcall =>
      split at h
      · cases h
        exact .refused _
      · next hcheck =>
        split_ifs at h with hm
        cases h
        exact .send hcall hcheck hm
    · cases h
  | recv caps hd | tryRecv caps hd =>
    simp only [step] at h
    split at h
    · next hcall =>
      split at h <;> cases h
      exacts [.refused _, .recv hcall]
    · cases h
  | push =>
    simp only [step] at h
    split at h <;> cases h
    next hcall => exact .push rfl hcall
  | take =>
    simp only [step] at h
    split at h
    · next hcall =>
      obtain ⟨rfl, rfl⟩ := Prod.ext_iff.1 (Option.some.inj h)
      exact .take hcall
    · cases h
  | block stay =>
    simp only [step] at h
    split at h <;> cases h
    next hcall => exact .block hcall (by cases stay <;> simp)
  | copy buf =>
    simp only [step] at h
    split at h <;> cases h
    next hcall => exact .copy buf hcall

/-- The interleavings: which thread performed which part, and what it showed. -/
inductive IpcRun : List (ℕ × IpcOut) → Ipc → Prop
  | init : IpcRun [] .init
  | step {tr : List (ℕ × IpcOut)} {s s' : Ipc} {t : ℕ} {op : IpcOp} {out : IpcOut} (h : IpcRun tr s)
      (hstep : s.step t op = some (s', out)) : IpcRun (tr ++ [(t, out)]) s'

/-! ### Executing parts -/

/-- The parts one after the other, unless a thread does not stand there. -/
def Ipc.exec (s : Ipc) : List (ℕ × IpcOp) → Option (List (ℕ × IpcOut) × Ipc)
  | [] => some ([], s)
  | (t, op) :: ops =>
    match s.step t op with
    | none => none
    | some (s₁, out) => (s₁.exec ops).map fun r ↦ ((t, out) :: r.1, r.2)

theorem IpcRun.of_exec {ops : List (ℕ × IpcOp)} {tr tr' : List (ℕ × IpcOut)} {s s' : Ipc}
    (h : IpcRun tr s) (hexec : s.exec ops = some (tr', s')) : IpcRun (tr ++ tr') s' := by
  induction ops generalizing s tr tr' with
  | nil =>
    cases hexec
    rwa [List.append_nil]
  | cons c ops ih =>
    simp only [Ipc.exec] at hexec
    split at hexec
    · cases hexec
    · rename_i s₁ out hstep
      obtain ⟨⟨tr₁, s₂⟩, hrest, heq⟩ := Option.map_eq_some_iff.1 hexec
      cases heq
      have := ih (h.step hstep) hrest
      rwa [List.append_assoc] at this

/-- A table whose handle `0x100000000` gives the rights to send to and to receive from endpoint
`e`. -/
def CapTable.forEndpoint (e : Eid) : CapTable where
  slots i := if i = 0 then some ⟨.endpoint, capRSend ||| capRRecv, e, 1, capEntryFlagValid⟩ else none
  gens _ := 1
  freeStack := []

end CapazOS
