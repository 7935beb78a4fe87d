import CapazOS.Ipc.Channel
import CapazOS.Lib.Lists

/-!
# Console output

`UARTClient.write` packs a byte array into one message for the command endpoint of the UART driver,
and `uart_driver_pump` takes the messages off the endpoint and hands their bytes to `uart_write`;
all threads may use other endpoints meanwhile. `IntentQueue.send` keeps the first `KS_IPC_MSG_MAX`
bytes of an array, so that the output is the concatenation of the arrays **cut to that length**
(`ConsoleRun.output_eq`).
-/

namespace CapazOS

open List LinkQueue

variable {cmdEp : CapHandle} {bytes : List (BitVec 8)} {buf : Fin ksIpcMsgMax → BitVec 8} {msg : KsIpcMsg}
  {out : IpcOut} {e : Eid} {m : Mid} {s s' : Ipc} {w t p : ℕ} {ws : List (List (BitVec 8))}
  {tr : List (ℕ × IpcOut)}

/-! ### The two ends -/

def uartTagWrite : BitVec 32 := 1

/-- `IntentQueue.send`: the message it sends, `none` without a command endpoint. The message buffer
is not initialized, and holds `buf` behind the bytes that are copied. -/
def intentQueueSend (cmdEp : CapHandle) (tag : BitVec 32) (bytes : List (BitVec 8))
    (buf : Fin ksIpcMsgMax → BitVec 8) : Option KsIpcMsg :=
  if cmdEp = 0 then none
  else
    let count := min bytes.length ksIpcMsgMax
    some
      { tag := tag
        len := BitVec.ofNat 32 count
        data := fun i ↦ if (i : ℕ) < count then bytes.getD i 0 else buf i }

def uartClientWrite (cmdEp : CapHandle) (bytes : List (BitVec 8))
    (buf : Fin ksIpcMsgMax → BitVec 8) : Option KsIpcMsg :=
  intentQueueSend cmdEp uartTagWrite bytes buf

/-- What the pump hands to `uart_write` for a message it received. -/
def uartPumpWrite (p : Payload) : List (BitVec 8) :=
  if p.tag = uartTagWrite ∧ 0 < p.len.toNat then p.bytes else []

/-- The bytes thread `p` hands to `uart_write` for the messages received from endpoint `e`. -/
def consoleOutput (p : ℕ) (e : Eid) (tr : List (ℕ × IpcOut)) : List (BitVec 8) :=
  (deliveredBy p tr).flatMap fun x ↦ if x.1 = e then uartPumpWrite x.2 else []

/-- A message buffer into which the first bytes are copied, as many as fit; it holds `buf` behind
them. -/
def KsIpcMsg.pack (tag : BitVec 32) (bytes : List (BitVec 8)) (buf : Fin ksIpcMsgMax → BitVec 8) : KsIpcMsg where
  tag := tag
  len := BitVec.ofNat 32 (min bytes.length ksIpcMsgMax)
  data i := if (i : ℕ) < min bytes.length ksIpcMsgMax then bytes.getD i 0 else buf i

theorem KsIpcMsg.len_pack (tag : BitVec 32) : (pack tag bytes buf).len.toNat = min bytes.length ksIpcMsgMax := by
  rw [pack, BitVec.toNat_ofNat, Nat.mod_eq_of_lt ((Nat.min_le_right ..).trans_lt (by decide))]

theorem KsIpcMsg.bytes_pack (tag : BitVec 32) : (pack tag bytes buf).payload.bytes = bytes.take ksIpcMsgMax := by
  simp only [payload, len_pack]
  refine ext_getElem ?_ fun i hi hi' ↦ ?_
  · rw [length_take, length_take, length_ofFn]
    omega
  · rw [length_take, length_ofFn] at hi
    have hlt : i < min bytes.length ksIpcMsgMax := by omega
    rw [getElem_take, getElem_take, List.getElem_ofFn]
    refine (if_pos hlt).trans ?_
    rw [getD_eq_getElem?_getD, getElem?_eq_getElem (hlt.trans_le (Nat.min_le_left ..)), Option.getD_some]

theorem uartClientWrite_eq (h : uartClientWrite cmdEp bytes buf = some msg) : msg = .pack uartTagWrite bytes buf := by
  unfold uartClientWrite intentQueueSend at h
  split_ifs at h
  exact (Option.some.inj h).symm

theorem len_uartClientWrite (h : uartClientWrite cmdEp bytes buf = some msg) :
    msg.len.toNat = min bytes.length ksIpcMsgMax := by
  rw [uartClientWrite_eq h, KsIpcMsg.len_pack]

theorem uartPumpWrite_payload (h : uartClientWrite cmdEp bytes buf = some msg) :
    uartPumpWrite msg.payload = bytes.take ksIpcMsgMax := by
  have hlen : msg.payload.len.toNat = min bytes.length ksIpcMsgMax := len_uartClientWrite h
  rw [uartPumpWrite, hlen, uartClientWrite_eq h, KsIpcMsg.bytes_pack]
  split_ifs with hpos
  · rfl
  · have hzero : bytes.length = 0 := by
      have : (0 : ℕ) < ksIpcMsgMax := by decide
      have : ¬0 < min bytes.length ksIpcMsgMax := fun h ↦ hpos ⟨rfl, h⟩
      omega
    rw [length_eq_zero_iff.1 hzero, take_nil]

/-! ### Parts of calls and the endpoints they are about -/

def CallState.target : CallState → Option Eid
  | .idle => none
  | .sending e _ _ | .receiving e _ | .blocking e | .blocked e | .copying e _ => some e

def IpcOut.endpoint : IpcOut → Option Eid
  | IpcOut.none | .failed _ => Option.none
  | .accepted e _ | .taken e _ | .delivered e _ => some e

/-- **The frame of a part of a call**: the other threads stand where they stood, except that a
blocked one may have been woken, and what the part shows is about the endpoint of the call. -/
structure StepFrame (s s' : Ipc) (t : ℕ) (out : IpcOut) : Prop where
  calls : ∀ u, u ≠ t → s'.calls u = s.calls u ∨ ∃ e, s.calls u = .blocked e ∧ s'.calls u = .receiving e true
  shown : ∀ e, out.endpoint = some e → (s.calls t).target = some e

namespace StepFrame

variable {op : IpcOp}

theorem refl (s : Ipc) (t : ℕ) (hout : out.endpoint = none) : StepFrame s s t out :=
  ⟨fun _ _ ↦ .inl rfl, fun e he ↦ by rw [hout] at he; cases he⟩

theorem setCall {s₁ : Ipc} (hcalls : s₁.calls = s.calls) {c : CallState}
    (hout : out.endpoint = none ∨ out.endpoint = (s.calls t).target) :
    StepFrame s (s₁.setCall t c) t out := by
  refine ⟨fun u hu ↦ .inl (by rw [Ipc.setCall_calls_of_ne _ hu, hcalls]), fun e he ↦ ?_⟩
  rcases hout with hout | hout
  · rw [hout] at he
    cases he
  · rw [← hout, he]

theorem take {wait : Bool} (hcall : s.calls t = .receiving e wait) :
    StepFrame s (ipcTake s t e wait).1 t (ipcTake s t e wait).2 := by
  unfold ipcTake
  split
  · rename_i hpop
    obtain ⟨-, -, hcalls⟩ := qPopHead_eq_some hpop
    exact setCall hcalls (.inr (by rw [hcall]; rfl))
  · split_ifs
    all_goals
      refine setCall ?_ (.inl rfl)
      rfl

theorem push (hcall : s.calls t = .sending e m msg) :
    StepFrame s ((ipcSendPush s e m).setCall t .idle) t (.accepted e msg.payload) := by
  refine ⟨fun u hu ↦ ?_, fun e' he' ↦ by rw [hcall]; exact he'⟩
  rw [Ipc.setCall_calls_of_ne _ hu]
  rcases (ipcSendPush_spec s e m).calls u with hsame | ⟨e', -, hblocked, hrecv⟩
  exacts [.inl hsame, .inr ⟨e', hblocked, hrecv⟩]

theorem of_step (h : s.step t op = some (s', out)) : StepFrame s s' t out := by
  cases Ipc.part_of_step h with
  | refused => exact refl s t rfl
  | send =>
    refine setCall ?_ (.inl rfl)
    rfl
  | recv => exact setCall rfl (.inl rfl)
  | push _ hcall => exact push hcall
  | take hcall => exact take hcall
  | block => exact setCall rfl (.inl rfl)
  | copy _ hcall =>
    refine setCall ?_ (.inr (by rw [hcall]; rfl))
    rfl

theorem target (h : StepFrame s s' t out) {u : ℕ} (hu : u ≠ t) : (s'.calls u).target = (s.calls u).target := by
  rcases h.calls u hu with heq | ⟨e, hb, hr⟩
  · rw [heq]
  · rw [hb, hr]
    rfl

end StepFrame

/-! ### Writing and pumping -/

/-- **The interleavings of writes and pumping.** Thread `w` has called `UARTClient.write` with the
arrays `ws` one after the other, on handles that give the right to send to the endpoint `e`; thread
`p` runs the receive loop of `uart_driver_pump`; and any thread may meanwhile perform a part of a
call that is not about `e`. No allocation of a message object fails. -/
inductive ConsoleRun (w p : ℕ) (e : Eid) : List (List (BitVec 8)) → List (ℕ × IpcOut) → Ipc → Prop
  | init : ConsoleRun w p e [] [] .init
  | write {ws : List (List (BitVec 8))} {tr : List (ℕ × IpcOut)} {s s' : Ipc} {cmdEp : CapHandle}
      {bytes : List (BitVec 8)} {buf : Fin ksIpcMsgMax → BitVec 8} {msg : KsIpcMsg} {caps : CapTable}
      {m : Mid} (h : ConsoleRun w p e ws tr s) (hmsg : uartClientWrite cmdEp bytes buf = some msg)
      (hcall : s.calls w = .idle) (hep : endpointFromHandle caps cmdEp capRSend = .ok e)
      (hstep : s.step w (.send caps cmdEp msg m) = some (s', .none)) :
      ConsoleRun w p e (ws ++ [bytes]) (tr ++ [(w, .none)]) s'
  | push {ws : List (List (BitVec 8))} {tr : List (ℕ × IpcOut)} {s s' : Ipc} {m : Mid} {msg : KsIpcMsg}
      {out : IpcOut} (h : ConsoleRun w p e ws tr s) (hcall : s.calls w = .sending e m msg)
      (hstep : s.step w .push = some (s', out)) : ConsoleRun w p e ws (tr ++ [(w, out)]) s'
  | tryRecv {ws : List (List (BitVec 8))} {tr : List (ℕ × IpcOut)} {s s' : Ipc} {caps : CapTable}
      {cmdEp : CapHandle} {out : IpcOut} (h : ConsoleRun w p e ws tr s) (hcall : s.calls p = .idle)
      (hep : endpointFromHandle caps cmdEp capRRecv = .ok e)
      (hstep : s.step p (.tryRecv caps cmdEp) = some (s', out)) :
      ConsoleRun w p e ws (tr ++ [(p, out)]) s'
  | take {ws : List (List (BitVec 8))} {tr : List (ℕ × IpcOut)} {s s' : Ipc} {out : IpcOut}
      (h : ConsoleRun w p e ws tr s) (hcall : s.calls p = .receiving e false)
      (hstep : s.step p .take = some (s', out)) : ConsoleRun w p e ws (tr ++ [(p, out)]) s'
  | copy {ws : List (List (BitVec 8))} {tr : List (ℕ × IpcOut)} {s s' : Ipc} {m : Mid} {buf : KsIpcMsg}
      {out : IpcOut} (h : ConsoleRun w p e ws tr s) (hcall : s.calls p = .copying e m)
      (hstep : s.step p (.copy buf) = some (s', out)) : ConsoleRun w p e ws (tr ++ [(p, out)]) s'
  | other {ws : List (List (BitVec 8))} {tr : List (ℕ × IpcOut)} {s s' : Ipc} {t : ℕ} {op : IpcOp}
      {out : IpcOut} (h : ConsoleRun w p e ws tr s) (hbefore : (s.calls t).target ≠ some e)
      (hstep : s.step t op = some (s', out)) (hafter : (s'.calls t).target ≠ some e) :
      ConsoleRun w p e ws (tr ++ [(t, out)]) s'

/-- **The endpoint is drained**: its queue is empty, and no call on it is in progress. -/
def Ipc.Drained (s : Ipc) (e : Eid) : Prop :=
  (s.endpoints e).ends.head = none ∧ ∀ t, (s.calls t).target ≠ some e

/-- The message that thread `w` is about to append to the queue of `e`. -/
def Ipc.pendingSend (s : Ipc) (w : ℕ) (e : Eid) : List Payload :=
  match s.calls w with
  | .sending e' _ msg => if e' = e then [msg.payload] else []
  | _ => []

theorem Ipc.pendingSend_eq_nil (h : ∀ m msg, s.calls w ≠ .sending e m msg) : s.pendingSend w e = [] := by
  unfold pendingSend
  split
  · rename_i e' m msg hcall
    rw [if_neg]
    rintro rfl
    exact h m msg hcall
  · rfl

/-- A part of a call leaves the message about to be appended alone, unless its thread starts or ends
a send to the endpoint. -/
theorem StepFrame.pendingSend (hf : StepFrame s s' t out) (hbefore : ∀ m msg, s.calls t ≠ .sending e m msg)
    (hafter : ∀ m msg, s'.calls t ≠ .sending e m msg) : s'.pendingSend w e = s.pendingSend w e := by
  rcases eq_or_ne w t with rfl | hne
  · rw [Ipc.pendingSend_eq_nil hbefore, Ipc.pendingSend_eq_nil hafter]
  · rcases hf.calls w hne with heq | ⟨e', hb, hr⟩
    · rw [Ipc.pendingSend, Ipc.pendingSend, heq]
    · rw [Ipc.pendingSend, Ipc.pendingSend, hb, hr]

/-- The messages from `e` among what a thread took or delivered. -/
def fromEndpoint (e : Eid) (l : List (Eid × Payload)) : List Payload :=
  l.filterMap fun x ↦ if x.1 = e then some x.2 else none

/-- **The invariant of the console**: the accepted messages and the one about to be appended are
those of the arrays written, and all messages taken from the endpoint were taken by the pump. -/
structure ConsoleInv (w p : ℕ) (e : Eid) (ws : List (List (BitVec 8))) (tr : List (ℕ × IpcOut))
    (s : Ipc) : Prop where
  run : IpcRun tr s
  written : (acceptedMsgs e tr ++ s.pendingSend w e).map uartPumpWrite = ws.map (·.take ksIpcMsgMax)
  pumped : takenMsgs e tr = fromEndpoint e (takenBy p tr)

namespace ConsoleInv

variable {op : IpcOp}

section

variable (h : ConsoleInv w p e ws tr s)
include h

theorem quiet (hstep : s.step t op = some (s', out)) (hout : out.endpoint ≠ some e)
    (hpend : s'.pendingSend w e = s.pendingSend w e) : ConsoleInv w p e ws (tr ++ [(t, out)]) s' := by
  refine ⟨h.run.step hstep, ?_, ?_⟩
  · rw [hpend, ← h.written]
    cases out with
    | accepted e' pl =>
      have hne : e' ≠ e := fun heq ↦ hout (congrArg some heq)
      simp [acceptedMsgs, hne]
    | _ => simp [acceptedMsgs]
  · cases out with
    | taken e' pl =>
      have hne : e' ≠ e := fun heq ↦ hout (congrArg some heq)
      have := h.pumped
      by_cases ht : t = p <;> simpa [takenMsgs, takenBy, fromEndpoint, hne, ht] using this
    | _ => simpa [takenMsgs, takenBy, fromEndpoint] using h.pumped

theorem other (hbefore : (s.calls t).target ≠ some e) (hstep : s.step t op = some (s', out))
    (hafter : (s'.calls t).target ≠ some e) : ConsoleInv w p e ws (tr ++ [(t, out)]) s' := by
  have hf := StepFrame.of_step hstep
  refine h.quiet hstep (fun hout ↦ hbefore (hf.shown e hout)) (hf.pendingSend ?_ ?_)
  · intro m msg hcall
    exact hbefore (by rw [hcall]; rfl)
  · intro m msg hcall
    exact hafter (by rw [hcall]; rfl)

theorem write {caps : CapTable} (hmsg : uartClientWrite cmdEp bytes buf = some msg)
    (hcall : s.calls w = .idle) (hep : endpointFromHandle caps cmdEp capRSend = .ok e)
    (hstep : s.step w (.send caps cmdEp msg m) = some (s', .none)) :
    ConsoleInv w p e (ws ++ [bytes]) (tr ++ [(w, .none)]) s' := by
  have hcall' : s'.calls w = .sending e m msg := by
    simp only [Ipc.step, hcall] at hstep
    split at hstep
    · cases hstep
    · rename_i e' hcheck
      simp only [ipcSendCheck, hep] at hcheck
      split_ifs at hcheck
      cases hcheck
      split_ifs at hstep
      cases hstep
      exact Ipc.setCall_calls_self ..
  have hpend : s.pendingSend w e = [] := Ipc.pendingSend_eq_nil (by simp [hcall])
  have hpend' : s'.pendingSend w e = [msg.payload] := by
    rw [Ipc.pendingSend, hcall']
    exact if_pos rfl
  have hwritten := h.written
  rw [hpend, append_nil] at hwritten
  refine ⟨h.run.step hstep, ?_, ?_⟩
  · rw [hpend', map_append, map_append, ← hwritten, map_singleton, map_singleton, uartPumpWrite_payload hmsg]
    simp [acceptedMsgs]
  · simpa [takenMsgs, takenBy, fromEndpoint] using h.pumped

theorem push (hcall : s.calls w = .sending e m msg) (hstep : s.step w .push = some (s', out)) :
    ConsoleInv w p e ws (tr ++ [(w, out)]) s' := by
  have hrun := h.run.step hstep
  simp only [Ipc.step, hcall] at hstep
  cases hstep
  have hpend : s.pendingSend w e = [msg.payload] := by
    rw [Ipc.pendingSend, hcall]
    exact if_pos rfl
  have hpend' : ((ipcSendPush s e m).setCall w .idle).pendingSend w e = [] :=
    Ipc.pendingSend_eq_nil (by simp [Ipc.setCall_calls_self])
  refine ⟨hrun, ?_, ?_⟩
  · rw [hpend', ← h.written, hpend, append_nil]
    simp [acceptedMsgs]
  · simpa [takenMsgs, takenBy, fromEndpoint] using h.pumped

theorem tryRecv {caps : CapTable} (hcall : s.calls p = .idle)
    (hep : endpointFromHandle caps cmdEp capRRecv = .ok e)
    (hstep : s.step p (.tryRecv caps cmdEp) = some (s', out)) :
    ConsoleInv w p e ws (tr ++ [(p, out)]) s' := by
  have hf := StepFrame.of_step hstep
  have hafter : s'.calls p = .receiving e false := by
    simp only [Ipc.step, hcall, hep] at hstep
    cases hstep
    exact Ipc.setCall_calls_self ..
  refine h.quiet hstep (fun hout ↦ ?_) (hf.pendingSend (by simp [hcall]) (by simp [hafter]))
  have := hf.shown e hout
  rw [hcall] at this
  cases this

theorem take (hcall : s.calls p = .receiving e false) (hstep : s.step p .take = some (s', out)) :
    ConsoleInv w p e ws (tr ++ [(p, out)]) s' := by
  have hf := StepFrame.of_step hstep
  have hrun := h.run.step hstep
  have heq := hstep
  simp only [Ipc.step, hcall, Option.some.injEq] at heq
  unfold ipcTake at heq
  split at heq
  · cases heq
    have hpend := hf.pendingSend (w := w) (e := e) (by simp [hcall])
      (by simp [Ipc.setCall_calls_self])
    refine ⟨hrun, ?_, ?_⟩
    · rw [hpend, ← h.written]
      simp [acceptedMsgs]
    · simpa [takenMsgs, takenBy, fromEndpoint] using h.pumped
  · -- a failed look into the queue
    split_ifs at heq
    all_goals
      cases heq
      exact h.quiet hstep (by simp [IpcOut.endpoint]) (hf.pendingSend (by simp [hcall])
        (by simp [Ipc.setCall_calls_self]))

theorem copy {buf : KsIpcMsg} (hcall : s.calls p = .copying e m)
    (hstep : s.step p (.copy buf) = some (s', out)) : ConsoleInv w p e ws (tr ++ [(p, out)]) s' := by
  have hf := StepFrame.of_step hstep
  have hrun := h.run.step hstep
  simp only [Ipc.step, hcall] at hstep
  cases hstep
  have hpend := hf.pendingSend (w := w) (e := e) (by simp [hcall])
    (by simp [Ipc.setCall_calls_self])
  refine ⟨hrun, ?_, ?_⟩
  · rw [hpend, ← h.written]
    simp [acceptedMsgs]
  · simpa [takenMsgs, takenBy, fromEndpoint] using h.pumped

end

end ConsoleInv

theorem ConsoleRun.inv (h : ConsoleRun w p e ws tr s) : ConsoleInv w p e ws tr s := by
  induction h with
  | init => exact ⟨.init, rfl, rfl⟩
  | write _ hmsg hcall hep hstep ih => exact ih.write hmsg hcall hep hstep
  | push _ hcall hstep ih => exact ih.push hcall hstep
  | tryRecv _ hcall hep hstep ih => exact ih.tryRecv hcall hep hstep
  | take _ hcall hstep ih => exact ih.take hcall hstep
  | copy _ hcall hstep ih => exact ih.copy hcall hstep
  | other _ hbefore hstep hafter ih => exact ih.other hbefore hstep hafter

theorem ConsoleRun.others (h : ConsoleRun w p e ws tr s) (hw : t ≠ w) (hp : t ≠ p) :
    (s.calls t).target ≠ some e := by
  induction h with
  | init => nofun
  | write _ _ _ _ hstep ih => rwa [(StepFrame.of_step hstep).target hw]
  | push _ _ hstep ih => rwa [(StepFrame.of_step hstep).target hw]
  | tryRecv _ _ _ hstep ih => rwa [(StepFrame.of_step hstep).target hp]
  | take _ _ hstep ih => rwa [(StepFrame.of_step hstep).target hp]
  | copy _ _ hstep ih => rwa [(StepFrame.of_step hstep).target hp]
  | @other _ _ _ _ u _ _ _ _ hstep hafter ih =>
    rcases eq_or_ne t u with rfl | hu
    · exact hafter
    · rwa [(StepFrame.of_step hstep).target hu]

/-! ### The output -/

theorem consoleOutput_eq (p : ℕ) (e : Eid) (tr : List (ℕ × IpcOut)) :
    consoleOutput p e tr = ((fromEndpoint e (deliveredBy p tr)).map uartPumpWrite).flatten := by
  unfold consoleOutput fromEndpoint
  induction deliveredBy p tr with
  | nil => rfl
  | cons x l ih =>
    rw [flatMap_cons, ih, filterMap_cons]
    by_cases hx : x.1 = e
    · rw [if_pos hx, if_pos hx, map_cons, flatten_cons]
    · rw [if_neg hx, if_neg hx, nil_append]

/-- **Once the endpoint is drained**, the output is the concatenation of the arrays, each cut to the
length of a message. -/
theorem ConsoleRun.output_eq (h : ConsoleRun w p e ws tr s) (hdrained : s.Drained e) :
    consoleOutput p e tr = (ws.map (·.take ksIpcMsgMax)).flatten := by
  obtain ⟨hhead, hcalls⟩ := hdrained
  have hinv := h.inv
  obtain ⟨Q, hchan⟩ := hinv.run.exists_inv
  have hempty : Q e = [] := by
    have := (hchan.queue e).head
    rw [hhead] at this
    exact head?_eq_none_iff.1 this.symm
  have hpend : s.pendingSend w e = [] := Ipc.pendingSend_eq_nil fun m msg hcall ↦ hcalls w (by rw [hcall]; rfl)
  have hflight : fromEndpoint e (s.inFlight p) = [] := by
    unfold Ipc.inFlight
    split
    · rename_i e' m hcall
      have hne : e' ≠ e := by
        rintro rfl
        exact hcalls p (by rw [hcall]; rfl)
      simp [fromEndpoint, hne]
    · rfl
  have hdelivered : fromEndpoint e (deliveredBy p tr) = acceptedMsgs e tr := by
    rw [hchan.log e, hempty, map_nil, append_nil, hinv.pumped, hchan.flight p]
    simp only [fromEndpoint, filterMap_append] at hflight ⊢
    rw [hflight, append_nil]
  rw [consoleOutput_eq, hdelivered, ← hinv.written, hpend, append_nil]

/-- **When console output is lossless.** Once the endpoint is drained, the bytes handed to
`uart_write` are the concatenation of the arrays passed to `UARTClient.write` **iff** none of these
is longer than `KS_IPC_MSG_MAX`. -/
theorem console_lossless_iff {w p : ℕ} {e : Eid} {ws : List (List (BitVec 8))}
    {tr : List (ℕ × IpcOut)} {s : Ipc} (h : ConsoleRun w p e ws tr s) (hdrained : s.Drained e) :
    consoleOutput p e tr = ws.flatten ↔ ∀ b ∈ ws, b.length ≤ ksIpcMsgMax := by
  rw [h.output_eq hdrained, flatten_map_take_eq_iff]

theorem exists_consoleRun (bytes : List (BitVec 8)) : ∃ tr s, ConsoleRun 1 2 64 [bytes] tr s ∧ s.Drained 64 := by
  have hep : endpointFromHandle (.forEndpoint 64) 0x100000000 capRSend = .ok 64 := by decide
  have hep' : endpointFromHandle (.forEndpoint 64) 0x100000000 capRRecv = .ok 64 := by decide
  obtain ⟨msg, hmsg⟩ : ∃ msg, uartClientWrite 0x100000000 bytes (fun _ ↦ 0) = some msg := ⟨_, rfl⟩
  have hlen : ¬ksIpcMsgMax < msg.len.toNat := by
    rw [len_uartClientWrite hmsg]
    omega
  have hcheck : ipcSendCheck .init (.forEndpoint 64) 0x100000000 msg = .ok 64 := by
    simp only [ipcSendCheck, hep, if_neg hlen]
    rfl
  have hstep : Ipc.init.step 1 (.send (.forEndpoint 64) 0x100000000 msg 0) = some (Ipc.setCall { Ipc.init with
        msgs := Function.update Ipc.init.msgs 0 (KsIpcMsg.zero.copy msg)
        allocated := insert 0 Ipc.init.allocated } 1 (.sending 64 0 msg), .none) := by
    simp only [Ipc.step, show Ipc.init.calls 1 = .idle from rfl, hcheck]
    rfl
  have h₁ := ConsoleRun.write (w := 1) (p := 2) .init hmsg rfl hep hstep
  have h₂ := ConsoleRun.push h₁ rfl rfl
  have h₃ := ConsoleRun.tryRecv h₂ rfl hep' rfl
  have h₄ := ConsoleRun.take h₃ rfl rfl
  have h₅ := ConsoleRun.copy h₄ rfl (show Ipc.step _ 2 (.copy .zero) = some _ from rfl)
  refine ⟨_, _, h₅, rfl, fun t ↦ ?_⟩
  rcases eq_or_ne t 1 with rfl | h1
  · rintro ⟨⟩
  · rcases eq_or_ne t 2 with rfl | h2
    · rintro ⟨⟩
    · exact h₅.others h1 h2

/-- An array of 129 bytes loses its last byte. -/
theorem console_loses_byte : ∃ tr s, ConsoleRun 1 2 64 [replicate 129 65] tr s ∧ s.Drained 64 ∧
    consoleOutput 2 64 tr ≠ [replicate 129 65].flatten := by
  obtain ⟨tr, s, hrun, hdrained⟩ := exists_consoleRun (replicate 129 65)
  refine ⟨tr, s, hrun, hdrained, fun heq ↦ ?_⟩
  have hlen := congrArg List.length (heq.symm.trans (hrun.output_eq hdrained))
  simp [ksIpcMsgMax] at hlen

theorem console_lossless_short : ∃ tr s, ConsoleRun 1 2 64 [[72, 105]] tr s ∧ s.Drained 64 ∧
    consoleOutput 2 64 tr = [72, 105] := by
  obtain ⟨tr, s, hrun, hdrained⟩ := exists_consoleRun [72, 105]
  exact ⟨tr, s, hrun, hdrained, (console_lossless_iff hrun hdrained).2 (by decide)⟩

end CapazOS
