import CapazOS.Ipc.Endpoint

/-!
# Endpoints are reliable channels

In every interleaving of the parts of sends and receives on any number of endpoints, the messages
that receives took from an endpoint, followed by the messages still in its queue, are the messages
that sends were accepted with, in the same order; and every receive delivers what it took
(`ipc_reliable_fifo`).

The invariant behind it is **ownership of the message objects**: an object in use is in one queue,
or it is held by one thread that is about to append it or to copy it out, so that nobody else writes
to it.
-/

namespace CapazOS

open List LinkQueue Function

variable {s : Ipc} {e : Eid} {m : Mid} {msg : KsIpcMsg}

/-! ### What a run shows -/

/-- The messages with which sends to `e` were accepted. -/
def acceptedMsgs (e : Eid) (tr : List (ℕ × IpcOut)) : List Payload :=
  tr.filterMap fun c ↦ match c.2 with
    | .accepted e' p => if e' = e then some p else none
    | _ => none

/-- The messages that receives took from `e`. -/
def takenMsgs (e : Eid) (tr : List (ℕ × IpcOut)) : List Payload :=
  tr.filterMap fun c ↦ match c.2 with
    | .taken e' p => if e' = e then some p else none
    | _ => none

/-- What the receives of thread `t` took. -/
def takenBy (t : ℕ) (tr : List (ℕ × IpcOut)) : List (Eid × Payload) :=
  tr.filterMap fun c ↦ match c.2 with
    | .taken e p => if c.1 = t then some (e, p) else none
    | _ => none

/-- What the receives of thread `t` delivered. -/
def deliveredBy (t : ℕ) (tr : List (ℕ × IpcOut)) : List (Eid × Payload) :=
  tr.filterMap fun c ↦ match c.2 with
    | .delivered e p => if c.1 = t then some (e, p) else none
    | _ => none

/-- The message that thread `t` took and has not delivered yet. -/
def Ipc.inFlight (s : Ipc) (t : ℕ) : List (Eid × Payload) :=
  match s.calls t with
  | .copying e m => [(e, (s.msgs m).payload)]
  | _ => []

/-- The output shows neither of the above. -/
def IpcOut.Silent : IpcOut → Prop
  | .none | .failed _ => True
  | _ => False

/-! ### Ownership -/

/-- The message object that a thread holds. -/
def CallState.holds : CallState → Option Mid
  | .sending _ m _ => some m
  | .copying _ m => some m
  | _ => none

/-- **The invariant**: `Q` are the queues. -/
structure ChannelInv (s : Ipc) (tr : List (ℕ × IpcOut)) (Q : Eid → List Mid) : Prop where
  queue : ∀ e, IsQueue s.links (s.endpoints e).ends (Q e)
  disjoint : ∀ e e' m, m ∈ Q e → m ∈ Q e' → e = e'
  queued : ∀ e m, m ∈ Q e → m ∈ s.allocated ∧ (s.msgs m).len.toNat ≤ ksIpcMsgMax
  held : ∀ t m, (s.calls t).holds = some m → m ∈ s.allocated ∧ (∀ e, m ∉ Q e) ∧ (s.msgs m).len.toNat ≤ ksIpcMsgMax
  held_unique : ∀ t t' m, (s.calls t).holds = some m → (s.calls t').holds = some m → t = t'
  sent : ∀ t e m msg, s.calls t = .sending e m msg → (s.msgs m).payload = msg.payload
  log : ∀ e, acceptedMsgs e tr = takenMsgs e tr ++ (Q e).map fun m ↦ (s.msgs m).payload
  flight : ∀ t, takenBy t tr = deliveredBy t tr ++ s.inFlight t

theorem channelInv_init : ChannelInv .init [] fun _ ↦ [] where
  queue _ := isQueue_nil _
  disjoint _ _ _ h := nomatch h
  queued _ _ h := nomatch h
  held _ _ h := nomatch h
  held_unique _ _ _ h := nomatch h
  sent _ _ _ _ h := nomatch h
  log _ := rfl
  flight _ := rfl

theorem inFlight_eq_nil {t : ℕ} (h : (s.calls t).holds = none) : s.inFlight t = [] := by
  unfold Ipc.inFlight
  split
  · rename_i heq
    rw [heq] at h
    cases h
  · rfl

namespace ChannelInv

variable {s' : Ipc} {tr : List (ℕ × IpcOut)} {Q : Eid → List Mid} {t : ℕ} {out : IpcOut}

section

variable (h : ChannelInv s tr Q)
include h

/-- **A part of a call of thread `t`**: what is to be shown of the queues and of `t`, when no
message object that another thread holds is touched. -/
theorem of_turn {Q' : Eid → List Mid} (hqueue : ∀ e, IsQueue s'.links (s'.endpoints e).ends (Q' e))
    (hdisjoint : ∀ e e' m, m ∈ Q' e → m ∈ Q' e' → e = e')
    (hqueued : ∀ e m, m ∈ Q' e → m ∈ s'.allocated ∧ (s'.msgs m).len.toNat ≤ ksIpcMsgMax)
    (hcalls : ∀ u ≠ t, s'.calls u = s.calls u ∨ (s.calls u).holds = none ∧ (s'.calls u).holds = none)
    (hothers : ∀ u ≠ t, ∀ m, (s.calls u).holds = some m →
      m ∈ s'.allocated ∧ (∀ e, m ∉ Q' e) ∧ s'.msgs m = s.msgs m ∧ (s'.calls t).holds ≠ some m)
    (hheld : ∀ m, (s'.calls t).holds = some m →
      m ∈ s'.allocated ∧ (∀ e, m ∉ Q' e) ∧ (s'.msgs m).len.toNat ≤ ksIpcMsgMax)
    (hsent : ∀ e m msg, s'.calls t = .sending e m msg → (s'.msgs m).payload = msg.payload)
    (hlog : ∀ e, acceptedMsgs e (tr ++ [(t, out)]) =
      takenMsgs e (tr ++ [(t, out)]) ++ (Q' e).map fun m ↦ (s'.msgs m).payload)
    (hflight : takenBy t (tr ++ [(t, out)]) = deliveredBy t (tr ++ [(t, out)]) ++ s'.inFlight t) :
    ChannelInv s' (tr ++ [(t, out)]) Q' := by
  have hholds : ∀ u ≠ t, ∀ m, (s'.calls u).holds = some m → s'.calls u = s.calls u := fun u hne m hu ↦ by
    rcases hcalls u hne with hsame | ⟨-, hnone⟩
    · exact hsame
    · rw [hnone] at hu
      cases hu
  refine ⟨hqueue, hdisjoint, hqueued, fun u m hu ↦ ?_, fun u u' m hu hu' ↦ ?_, fun u e m msg hu ↦ ?_, hlog, fun u ↦ ?_⟩
  · rcases eq_or_ne u t with rfl | hne
    · exact hheld m hu
    · rw [hholds u hne m hu] at hu
      obtain ⟨halloc, hout, hmsg, -⟩ := hothers u hne m hu
      exact ⟨halloc, hout, hmsg ▸ (h.held u m hu).2.2⟩
  · rcases eq_or_ne u t with heq | hne <;> rcases eq_or_ne u' t with heq' | hne'
    · exact heq.trans heq'.symm
    · exact absurd (heq ▸ hu) (hothers u' hne' m (hholds u' hne' m hu' ▸ hu')).2.2.2
    · exact absurd (heq' ▸ hu') (hothers u hne m (hholds u hne m hu ▸ hu)).2.2.2
    · exact h.held_unique u u' m (hholds u hne m hu ▸ hu) (hholds u' hne' m hu' ▸ hu')
  · rcases eq_or_ne u t with rfl | hne
    · exact hsent e m msg hu
    · rw [hholds u hne m (by rw [hu]; rfl)] at hu
      rw [(hothers u hne m (by rw [hu]; rfl)).2.2.1]
      exact h.sent u e m msg hu
  · rcases eq_or_ne u t with rfl | hne
    · exact hflight
    have hsame : s'.inFlight u = s.inFlight u := by
      rcases hcalls u hne with hsame | ⟨hnone, hnone'⟩
      · rw [Ipc.inFlight, Ipc.inFlight, hsame]
        split
        · next m hu => rw [(hothers u hne m (by rw [hu]; rfl)).2.2.1]
        · rfl
      · rw [inFlight_eq_nil hnone, inFlight_eq_nil hnone']
    rw [hsame]
    cases out <;> simpa [takenBy, deliveredBy, hne.symm] using h.flight u

/-- A part of a call that touches neither queues nor message objects, and no thread that holds
one. -/
theorem quiet (hlinks : s'.links = s.links) (hends : ∀ e, (s'.endpoints e).ends = (s.endpoints e).ends)
    (hmsgs : s'.msgs = s.msgs) (halloc : s'.allocated = s.allocated)
    (hcalls : ∀ u, s'.calls u = s.calls u ∨ (s.calls u).holds = none ∧ (s'.calls u).holds = none)
    (hout : out.Silent) : ChannelInv s' (tr ++ [(t, out)]) Q := by
  have hholds : (s'.calls t).holds = (s.calls t).holds := by
    rcases hcalls t with heq | ⟨h₁, h₂⟩
    exacts [by rw [heq], by rw [h₁, h₂]]
  refine h.of_turn (fun e ↦ by rw [hlinks, hends]; exact h.queue e) h.disjoint (by rw [halloc, hmsgs]; exact h.queued)
    (fun u _ ↦ hcalls u) (fun u hne m hu ↦ ?_) (by rw [halloc, hmsgs, hholds]; exact h.held t) (fun e m msg hu ↦ ?_)
    (fun e ↦ ?_) ?_
  · obtain ⟨hm, hfree, -⟩ := h.held u m hu
    exact ⟨halloc ▸ hm, hfree, by rw [hmsgs], fun ht ↦ hne (h.held_unique u t m hu (hholds ▸ ht))⟩
  · rw [hmsgs]
    rcases hcalls t with heq | ⟨-, hnone⟩
    · exact h.sent t e m msg (heq ▸ hu)
    · rw [hu] at hnone
      cases hnone
  · rw [hmsgs]
    cases out with
    | none => simpa [acceptedMsgs, takenMsgs] using h.log e
    | failed st => simpa [acceptedMsgs, takenMsgs] using h.log e
    | _ => exact absurd hout id
  · have hflight : s'.inFlight t = s.inFlight t := by
      rcases hcalls t with heq | ⟨h₁, h₂⟩
      · rw [Ipc.inFlight, Ipc.inFlight, heq, hmsgs]
      · rw [inFlight_eq_nil h₁, inFlight_eq_nil h₂]
    rw [hflight]
    cases out with
    | none => simpa [takenBy, deliveredBy] using h.flight t
    | failed st => simpa [takenBy, deliveredBy] using h.flight t
    | _ => exact absurd hout id

theorem setCall {c : CallState} (hold : (s.calls t).holds = none) (hnew : c.holds = none) (hout : out.Silent) :
    ChannelInv (s.setCall t c) (tr ++ [(t, out)]) Q := by
  refine h.quiet rfl (fun _ ↦ rfl) rfl rfl (fun u ↦ ?_) hout
  rcases eq_or_ne u t with rfl | hne
  · exact .inr ⟨hold, by rwa [Ipc.setCall_calls_self]⟩
  · exact .inl (s.setCall_calls_of_ne hne c)

theorem send (hidle : s.calls t = .idle) (hlen : msg.len.toNat ≤ ksIpcMsgMax) (hm : m ∉ s.allocated) :
    ChannelInv (({ s with
      msgs := update s.msgs m (KsIpcMsg.zero.copy msg)
      allocated := insert m s.allocated } : Ipc).setCall t (.sending e m msg)) (tr ++ [(t, .none)]) Q := by
  have hmsgs : ∀ m' ∈ s.allocated, update s.msgs m (KsIpcMsg.zero.copy msg) m' = s.msgs m' := fun m' hm' ↦
    update_of_ne (fun heq : m' = m ↦ hm (heq ▸ hm')) ..
  have hself : update s.msgs m (KsIpcMsg.zero.copy msg) m = KsIpcMsg.zero.copy msg := update_self ..
  generalize update s.msgs m (KsIpcMsg.zero.copy msg) = msgs at hmsgs hself
  set s' : Ipc := ({ s with msgs := msgs, allocated := insert m s.allocated } : Ipc).setCall t (.sending e m msg)
  have hcall : s'.calls t = .sending e m msg := Ipc.setCall_calls_self ..
  refine h.of_turn h.queue h.disjoint (fun e' m' hm' ↦ ?_) (fun u hne ↦ .inl (Ipc.setCall_calls_of_ne _ hne _))
    (fun u hne m' hu ↦ ?_) (fun m' hheld ↦ ?_) (fun e' m' msg' hu ↦ ?_) (fun e' ↦ ?_) ?_
  · obtain ⟨halloc, hlen'⟩ := h.queued e' m' hm'
    exact ⟨Finset.mem_insert_of_mem halloc, by rwa [show s'.msgs m' = _ from hmsgs m' halloc]⟩
  · obtain ⟨halloc, hout, -⟩ := h.held u m' hu
    refine ⟨Finset.mem_insert_of_mem halloc, hout, hmsgs m' halloc, fun hheld ↦ hm ?_⟩
    rw [hcall] at hheld
    exact Option.some.inj hheld ▸ halloc
  · rw [hcall] at hheld
    obtain rfl := Option.some.inj hheld
    exact ⟨Finset.mem_insert_self .., fun e' hmem ↦ hm (h.queued e' _ hmem).1, by rwa [show s'.msgs m = _ from hself]⟩
  · rw [hcall] at hu
    cases hu
    rw [show s'.msgs m = _ from hself]
    exact KsIpcMsg.payload_copy ..
  · have hmap : (Q e').map (fun m ↦ (s'.msgs m).payload) = (Q e').map fun m ↦ (s.msgs m).payload :=
      map_congr_left fun m' hm' ↦ by rw [show s'.msgs m' = _ from hmsgs m' (h.queued e' m' hm').1]
    rw [hmap]
    simpa [acceptedMsgs, takenMsgs] using h.log e'
  · have hflight := h.flight t
    rw [inFlight_eq_nil (by rw [hidle]; rfl)] at hflight
    rw [Ipc.inFlight, hcall]
    simpa [takenBy, deliveredBy] using hflight

/-- **A message is appended**: it passes from the sender to the queue. -/
theorem push (hcall : s.calls t = .sending e m msg) :
    ChannelInv ((ipcSendPush s e m).setCall t .idle) (tr ++ [(t, .accepted e msg.payload)])
      (update Q e (Q e ++ [m])) := by
  have hwoken := ipcSendPush_spec s e m
  obtain ⟨halloc, hout, hlen⟩ := h.held t m (by rw [hcall]; rfl)
  obtain ⟨hpush, hframe⟩ := pushTail_spec (h.queue e) (hout e)
  set s' := (ipcSendPush s e m).setCall t .idle
  have hlinks : s'.links = (pushTail s.links (s.endpoints e).ends m).1 := hwoken.links
  have hends : s'.endpoints = update s.endpoints e (pushedEndpoint s e m) := hwoken.endpoints
  have hmsgs : s'.msgs = s.msgs := hwoken.msgs
  have halloc' : s'.allocated = s.allocated := hwoken.allocated
  have hcall' : s'.calls t = .idle := Ipc.setCall_calls_self ..
  have hmem : ∀ e' m', m' ∈ update Q e (Q e ++ [m]) e' ↔ m' ∈ Q e' ∨ e' = e ∧ m' = m := by
    intro e' m'
    rcases eq_or_ne e' e with rfl | hne
    · rw [update_self, mem_append, mem_singleton, and_iff_right rfl]
    · rw [update_of_ne hne]
      simp [hne]
  refine h.of_turn (fun e' ↦ ?_) (fun e₁ e₂ m' h₁ h₂ ↦ ?_) (fun e' m' hm' ↦ ?_) (fun u hne ↦ ?_)
    (fun u hne m' hu ↦ ?_) (by rw [hcall']; nofun) (by rw [hcall']; nofun) (fun e' ↦ ?_) ?_
  · rw [hlinks, hends]
    rcases eq_or_ne e' e with rfl | hne
    · rw [update_self, update_self]
      exact hpush
    · rw [update_of_ne hne, update_of_ne hne]
      refine (h.queue e').congr fun x hx ↦ hframe x (fun hxe ↦ hne (h.disjoint e' e x hx hxe)) ?_
      rintro rfl
      exact hout e' hx
  · rcases (hmem e₁ m').1 h₁ with hq₁ | ⟨rfl, rfl⟩
    · rcases (hmem e₂ m').1 h₂ with hq₂ | ⟨rfl, rfl⟩
      exacts [h.disjoint e₁ e₂ m' hq₁ hq₂, absurd hq₁ (hout e₁)]
    · rcases (hmem e₂ _).1 h₂ with hq₂ | ⟨rfl, -⟩
      exacts [absurd hq₂ (hout e₂), rfl]
  · rw [halloc', hmsgs]
    rcases (hmem e' m').1 hm' with hm' | ⟨-, rfl⟩
    exacts [h.queued e' m' hm', ⟨halloc, hlen⟩]
  · rw [show s'.calls u = _ from Ipc.setCall_calls_of_ne _ hne _]
    rcases hwoken.calls u with hsame | ⟨e', -, hblocked, hrecv⟩
    · exact .inl hsame
    · exact .inr ⟨by rw [show s.calls u = _ from hblocked]; rfl, by rw [hrecv]; rfl⟩
  · obtain ⟨hm, hfree, -⟩ := h.held u m' hu
    refine ⟨halloc' ▸ hm, fun e' hm' ↦ ?_, by rw [hmsgs], by rw [hcall']; nofun⟩
    rcases (hmem e' m').1 hm' with hm' | ⟨-, rfl⟩
    · exact hfree e' hm'
    · exact hne (h.held_unique u t _ hu (by rw [hcall]; rfl))
  · rw [hmsgs]
    have hlog := h.log e'
    rcases eq_or_ne e' e with rfl | hne
    · rw [update_self, map_append, ← append_assoc]
      have happend := congrArg (· ++ [msg.payload]) hlog
      simpa [acceptedMsgs, takenMsgs, h.sent t e' m msg hcall] using happend
    · rw [update_of_ne hne]
      simpa [acceptedMsgs, takenMsgs, hne.symm] using hlog
  · have hflight := h.flight t
    rw [Ipc.inFlight, hcall] at hflight
    rw [Ipc.inFlight, hcall']
    simpa [takenBy, deliveredBy] using hflight

/-- **A message is taken**: it passes from the queue to the receiver. -/
theorem pop {wait : Bool} (hcall : s.calls t = .receiving e wait) {s₁ : Ipc} (hpop : qPopHead s e = some (m, s₁)) :
    ∃ rest, Q e = m :: rest ∧ ChannelInv (s₁.setCall t (.copying e m))
      (tr ++ [(t, .taken e (s.msgs m).payload)]) (update Q e rest) := by
  have hrep := h.queue e
  rcases hQ : Q e with _ | ⟨m₀, rest⟩
  · rw [hQ] at hrep
    rw [qPopHead, popHead_nil hrep] at hpop
    cases hpop
  rw [hQ] at hrep
  obtain ⟨n', ends', heq, hqueue, hframe⟩ := popHead_cons hrep
  rw [qPopHead, heq] at hpop
  cases hpop
  have hm₀ : m₀ ∈ Q e := hQ ▸ mem_cons_self
  refine ⟨rest, rfl, ?_⟩
  have hmem : ∀ e' m', m' ∈ update Q e rest e' → m' ∈ Q e' ∧ m' ≠ m₀ := by
    intro e' m'
    rcases eq_or_ne e' e with rfl | hne
    · rw [update_self, hQ]
      intro hm'
      refine ⟨mem_cons_of_mem _ hm', ?_⟩
      rintro rfl
      exact (nodup_cons.1 hrep.nodup).1 hm'
    · rw [update_of_ne hne]
      refine fun hm' ↦ ⟨hm', ?_⟩
      rintro rfl
      exact hne (h.disjoint e' e _ hm' hm₀)
  set s' : Ipc := Ipc.setCall _ t (.copying e m₀) with hs'
  have hcall' : s'.calls t = .copying e m₀ := Ipc.setCall_calls_self ..
  refine h.of_turn (fun e' ↦ ?_) (fun e₁ e₂ m' h₁ h₂ ↦ h.disjoint e₁ e₂ m' (hmem e₁ m' h₁).1 (hmem e₂ m' h₂).1)
    (fun e' m' hm' ↦ h.queued e' m' (hmem e' m' hm').1) (fun u hne ↦ .inl (Ipc.setCall_calls_of_ne _ hne _))
    (fun u hne m' hu ↦ ?_) (fun m' hheld ↦ ?_) (by rw [hcall']; nofun) (fun e' ↦ ?_) ?_
  · rcases eq_or_ne e' e with rfl | hne
    · simp only [hs', Ipc.setCall, update_self]
      exact hqueue
    · simp only [hs', Ipc.setCall, update_of_ne hne]
      refine (h.queue e').congr fun x hx ↦ hframe x ?_
      rw [← hQ]
      exact fun hxe ↦ hne (h.disjoint e' e x hx hxe)
  · obtain ⟨halloc, hout, -⟩ := h.held u m' hu
    refine ⟨halloc, fun e' hm' ↦ hout e' (hmem e' m' hm').1, rfl, fun hheld ↦ hout e ?_⟩
    rw [hcall'] at hheld
    exact Option.some.inj hheld ▸ hm₀
  · rw [hcall'] at hheld
    obtain rfl := Option.some.inj hheld
    obtain ⟨halloc, hlen⟩ := h.queued e m₀ hm₀
    exact ⟨halloc, fun e' hm' ↦ (hmem e' _ hm').2 rfl, hlen⟩
  · have hlog := h.log e'
    rw [show s'.msgs = s.msgs from rfl]
    rcases eq_or_ne e' e with rfl | hne
    · rw [hQ] at hlog
      simpa [acceptedMsgs, takenMsgs] using hlog
    · rw [update_of_ne hne]
      simpa [acceptedMsgs, takenMsgs, hne.symm] using hlog
  · have hflight := h.flight t
    rw [inFlight_eq_nil (by rw [hcall]; rfl), append_nil] at hflight
    rw [Ipc.inFlight, hcall', show s'.msgs = s.msgs from rfl]
    simpa [takenBy, deliveredBy] using hflight

/-- **A message is delivered**, and its object goes back to the cache. -/
theorem copy (hcall : s.calls t = .copying e m) (out : KsIpcMsg) :
    ChannelInv (({ s with allocated := s.allocated.erase m } : Ipc).setCall t .idle)
      (tr ++ [(t, .delivered e (out.copyOut (s.msgs m)).payload)]) Q := by
  have hholds : (s.calls t).holds = some m := by rw [hcall]; rfl
  obtain ⟨-, hout, hlen⟩ := h.held t m hholds
  set s' : Ipc := ({ s with allocated := s.allocated.erase m } : Ipc).setCall t .idle
  have hcall' : s'.calls t = .idle := Ipc.setCall_calls_self ..
  refine h.of_turn h.queue h.disjoint (fun e' m' hm' ↦ ?_) (fun u hne ↦ .inl (Ipc.setCall_calls_of_ne _ hne _))
    (fun u hne m' hu ↦ ?_) (by rw [hcall']; nofun) (by rw [hcall']; nofun) (fun e' ↦ ?_) ?_
  · obtain ⟨halloc, hlen'⟩ := h.queued e' m' hm'
    refine ⟨Finset.mem_erase.2 ⟨?_, halloc⟩, hlen'⟩
    rintro rfl
    exact hout e' hm'
  · obtain ⟨halloc, hfree, -⟩ := h.held u m' hu
    refine ⟨Finset.mem_erase.2 ⟨?_, halloc⟩, hfree, rfl, by rw [hcall']; nofun⟩
    rintro rfl
    exact hne (h.held_unique u t _ hu hholds)
  · rw [show s'.msgs = s.msgs from rfl]
    simpa [acceptedMsgs, takenMsgs] using h.log e'
  · have hflight := h.flight t
    rw [Ipc.inFlight, hcall] at hflight
    rw [Ipc.inFlight, hcall', KsIpcMsg.payload_copyOut out _ hlen, append_nil]
    simpa [takenBy, deliveredBy] using hflight

theorem take {wait : Bool} (hcall : s.calls t = .receiving e wait) :
    ∃ Q', ChannelInv (ipcTake s t e wait).1 (tr ++ [(t, (ipcTake s t e wait).2)]) Q' := by
  have hnone : (s.calls t).holds = none := by rw [hcall]; rfl
  unfold ipcTake
  split
  · rename_i m s₁ hpop
    obtain ⟨rest, -, hinv⟩ := h.pop hcall hpop
    exact ⟨_, hinv⟩
  · split_ifs
    · exact ⟨Q, h.setCall hnone rfl trivial⟩
    · exact ⟨Q, h.setCall hnone rfl trivial⟩
    · exact ⟨Q, h.setCall hnone rfl trivial⟩
    · refine ⟨Q, h.quiet rfl (fun e' ↦ ?_) rfl rfl (fun u ↦ ?_) trivial⟩
      · rcases eq_or_ne e' e with rfl | hne
        · simp only [Ipc.setCall, Ipc.setEndpoint, update_self]
          rfl
        · simp only [Ipc.setCall, Ipc.setEndpoint, update_of_ne hne]
      · rcases eq_or_ne u t with rfl | hne
        · exact .inr ⟨hnone, by rw [Ipc.setCall_calls_self]; rfl⟩
        · exact .inl (Ipc.setCall_calls_of_ne _ hne _)

end

theorem ipcSendCheck_len {caps : CapTable} {hd : CapHandle} (h : ipcSendCheck s caps hd msg = .ok e) :
    msg.len.toNat ≤ ksIpcMsgMax := by
  unfold ipcSendCheck at h
  split_ifs at h with hlen
  exact Nat.not_lt.1 hlen

theorem step (h : ChannelInv s tr Q) {op : IpcOp} (hstep : s.step t op = some (s', out)) :
    ∃ Q', ChannelInv s' (tr ++ [(t, out)]) Q' := by
  cases Ipc.part_of_step hstep with
  | refused => exact ⟨Q, h.quiet rfl (fun _ ↦ rfl) rfl rfl (fun _ ↦ .inl rfl) trivial⟩
  | send hcall hcheck hm => exact ⟨Q, h.send hcall (ipcSendCheck_len hcheck) hm⟩
  | recv hcall => exact ⟨Q, h.setCall (by rw [hcall]; rfl) rfl trivial⟩
  | push _ hcall => exact ⟨_, h.push hcall⟩
  | take hcall => exact h.take hcall
  | block hcall hc => exact ⟨Q, h.setCall (by rw [hcall]; rfl) (by rcases hc with rfl | rfl <;> rfl) trivial⟩
  | copy buf hcall => exact ⟨Q, h.copy hcall buf⟩

end ChannelInv

theorem IpcRun.exists_inv {tr : List (ℕ × IpcOut)} (hrun : IpcRun tr s) : ∃ Q, ChannelInv s tr Q := by
  induction hrun with
  | init => exact ⟨_, channelInv_init⟩
  | step _ hstep ih =>
    obtain ⟨Q, h⟩ := ih
    exact h.step hstep

/-! ### The channel -/

/-- The message is too long, or the handle gives no right to send to an endpoint. -/
def SendRefused (caps : CapTable) (h : CapHandle) (msg : KsIpcMsg) : Prop :=
  ksIpcMsgMax < msg.len.toNat ∨ capLookup caps h capRSend = none ∨
    ∃ ent, capLookup caps h capRSend = some ent ∧ ent.type ≠ .endpoint

theorem ipcSendCheck_of_refused (s : Ipc) {caps : CapTable} {h : CapHandle} (href : SendRefused caps h msg) :
    ∃ st, ipcSendCheck s caps h msg = .error st := by
  unfold ipcSendCheck endpointFromHandle
  split_ifs with hlen
  · exact ⟨_, rfl⟩
  · rcases href with hlong | hnone | ⟨ent, hent, htype⟩
    · exact absurd hlong hlen
    · exact ⟨.rights, by rw [hnone]⟩
    · exact ⟨.invalid, by rw [hent]; simp only [htype, ne_eq, not_false_eq_true, true_or, if_true]⟩

/-- **Endpoints are reliable FIFO channels.** After any interleaving of the parts of sends and
receives:
* what receives took from an endpoint, followed by what is still in its queue, is what sends to it were
  accepted with, in this order;
* what the receives of a thread took is what they delivered, and the message that is being copied;
* a send that is too long, or without a valid handle to an endpoint with the right to send, changes
  nothing. -/
theorem ipc_reliable_fifo {tr : List (ℕ × IpcOut)} {s : Ipc} (hrun : IpcRun tr s) :
    (∀ e, ∃ l, IsQueue s.links (s.endpoints e).ends l ∧
      acceptedMsgs e tr = takenMsgs e tr ++ l.map fun m ↦ (s.msgs m).payload) ∧
    (∀ t, takenBy t tr = deliveredBy t tr ++ s.inFlight t) ∧
    ∀ t caps h msg m, s.calls t = .idle → SendRefused caps h msg →
      ∃ st, s.step t (.send caps h msg m) = some (s, .failed st) := by
  obtain ⟨Q, hinv⟩ := hrun.exists_inv
  refine ⟨fun e ↦ ⟨Q e, hinv.queue e, hinv.log e⟩, hinv.flight, fun t caps h msg m hidle href ↦ ?_⟩
  obtain ⟨st, hst⟩ := ipcSendCheck_of_refused s href
  exact ⟨st, by simp only [Ipc.step, hidle, hst]⟩

theorem ipc_reliable_fifo_one : ∃ (tr : List (ℕ × IpcOut)) (s : Ipc), IpcRun tr s ∧
    acceptedMsgs 64 tr = [⟨7, 1, [42]⟩] ∧ deliveredBy 1 tr = [(64, ⟨7, 1, [42]⟩)] ∧
    (∃ l, IsQueue s.links (s.endpoints 64).ends l ∧
      acceptedMsgs 64 tr = takenMsgs 64 tr ++ l.map fun m ↦ (s.msgs m).payload) ∧
    takenBy 1 tr = deliveredBy 1 tr ++ s.inFlight 1 := by
  have hexec : (Ipc.init.exec [(1, .recv (.forEndpoint 64) 0x100000000), (1, .take), (1, .block false),
      (2, .send (.forEndpoint 64) 0x100000000 ⟨7, 1, fun _ ↦ 42⟩ 0), (2, .push), (1, .take),
      (1, .copy .zero)]).any (fun r ↦ decide (acceptedMsgs 64 r.1 = [⟨7, 1, [42]⟩] ∧
        deliveredBy 1 r.1 = [(64, ⟨7, 1, [42]⟩)])) = true := by
    decide +kernel
  obtain ⟨⟨tr, s⟩, hexec, hp⟩ := (Option.any_eq_true _ _).1 hexec
  obtain ⟨haccepted, hdelivered⟩ := of_decide_eq_true hp
  have hrun : IpcRun tr s := IpcRun.of_exec .init hexec
  obtain ⟨hqueues, hflight, -⟩ := ipc_reliable_fifo hrun
  exact ⟨tr, s, hrun, haccepted, hdelivered, hqueues 64, hflight 1⟩

end CapazOS
