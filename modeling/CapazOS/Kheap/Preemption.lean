import CapazOS.Kheap.Accesses
import CapazOS.Lib.Lists

/-!
# The allocators under preemption

`sched_irq_exit` switches to another thread whenever interrupts are unmasked and `preempt_count` is
zero, and neither `pmm.c` nor `kheap.c` masks interrupts or disables preemption, so that a switch
can come between any two memory accesses of a call. **Two callers can be given the same page**
(`page_owned_twice`). Nobody owns anything twice as long as no switch comes while the running thread
is inside an allocator (`alloc_exclusive`).
-/

namespace CapazOS

open List hiding Disjoint
open ByteMem Interleave Function

variable {bd : Board}

/-! ### Calls -/

inductive AllocCall where
  | kmalloc (size : ℕ)
  | kfree (ptr : ℕ)
  | allocPages (count : ℕ)
  | freePage (pa : ℕ)
  deriving DecidableEq

variable {c : AllocCall}

namespace AllocCall

def prog (bd : Board) : AllocCall → Acc (Option ℕ)
  | kmalloc size => (fun p ↦ if p = 0 then none else some p) <$> kmallocProg bd size
  | kfree ptr => (fun _ ↦ none) <$> kfreeProg bd ptr
  | allocPages count => pmmAllocPagesProg count
  | freePage pa => (fun _ ↦ none) <$> pmmFreePageProg pa

/-- The same call of the sequential system. -/
def op : AllocCall → KheapOp
  | kmalloc size => .kmalloc size
  | kfree ptr => .kfree ptr
  | allocPages count => .allocPages count
  | freePage pa => .freePage pa

end AllocCall

/-! ### Threads -/

/-- The allocators and the threads that use them. -/
structure AllocSys where
  h : Kheap
  /-- The running thread. -/
  current : ℕ
  /-- The call a thread is in, and the accesses it has still to make. -/
  calls : ℕ → Option (AllocCall × Acc (Option ℕ))
  /-- Live blocks and pages, with their owners. -/
  live : List (ℕ × HeapBlock)
  held : List (ℕ × ℕ)
  preemptCount : ℕ
  irqMasked : Bool

variable {s s' : AllocSys}

inductive AllocOp where
  /-- The running thread calls an allocator, makes the next access of its call, or returns from it. -/
  | call (c : AllocCall)
  | access
  | ret
  /-- The running thread writes to memory of its own. -/
  | store (a : ℕ) (v : UInt8)
  /-- `preempt_disable`, `preempt_enable`, and the interrupt mask. -/
  | preemptDisable
  | preemptEnable
  | setIrqMask (masked : Bool)
  /-- The timer interrupt: `sched_irq_exit` switches to thread `t`. -/
  | timer (t : ℕ)

namespace AllocSys

/-- The running thread is in a call, with this program left. -/
def setCall (s : AllocSys) (c : AllocCall) (p : Acc (Option ℕ)) : AllocSys :=
  { s with calls := update s.calls s.current (some (c, p)) }

/-- A release gives up ownership as the call begins. -/
def giveUp (s : AllocSys) : AllocCall → AllocSys
  | .kfree ptr => { s with
      live := s.live.eraseP fun x ↦ decide (x.1 = s.current ∧ x.2.ptr = ptr) }
  | .freePage pa => { s with held := s.held.eraseP fun x ↦ decide (x = (s.current, pa)) }
  | _ => s

/-- An allocation is owned once the call returns. -/
def gain (s : AllocSys) : AllocCall → Option ℕ → AllocSys
  | .kmalloc size, some p => { s with live := (s.current, ⟨p, size⟩) :: s.live }
  | .allocPages count, some pa => { s with
      held := ((range count).map fun k ↦ (s.current, pa + k * pageSize)) ++ s.held }
  | _, _ => s

@[simp] theorem giveUp_h (s : AllocSys) (c : AllocCall) : (s.giveUp c).h = s.h := by cases c <;> rfl

@[simp] theorem giveUp_current (s : AllocSys) (c : AllocCall) : (s.giveUp c).current = s.current := by
  cases c <;> rfl

@[simp] theorem giveUp_calls (s : AllocSys) (c : AllocCall) : (s.giveUp c).calls = s.calls := by
  cases c <;> rfl

@[simp] theorem gain_current (s : AllocSys) (c : AllocCall) (r : Option ℕ) : (s.gain c r).current = s.current := by
  cases c <;> cases r <;> rfl

@[simp] theorem gain_calls (s : AllocSys) (c : AllocCall) (r : Option ℕ) : (s.gain c r).calls = s.calls := by
  cases c <;> cases r <;> rfl

def step (bd : Board) (s : AllocSys) : AllocOp → AllocSys
  | .call c => (s.giveUp c).setCall c (c.prog bd)
  | .access =>
    match s.calls s.current with
    | none => s
    | some (c, p) =>
      match p.step s.h with
      | none => s
      | some (p', h') => { s with h := h' }.setCall c p'
  | .ret =>
    match s.calls s.current with
    | some (c, .ret r) =>
      { s with calls := update s.calls s.current none }.gain c r
    | _ => s
  | .store a v => { s with h := s.h.setMem (update s.h.mem a v) }
  | .preemptDisable => { s with preemptCount := s.preemptCount + 1 }
  | .preemptEnable => { s with preemptCount := s.preemptCount - 1 }
  | .setIrqMask masked => { s with irqMasked := masked }
  | .timer t => { s with current := t }

/-- A call a thread may make: requests in range, releases of what is its own. -/
def CallAllowed (s : AllocSys) : AllocCall → Prop
  | .kmalloc size => size ≤ 2 ^ 32
  | .kfree ptr => ∃ b, (s.current, b) ∈ s.live ∧ b.ptr = ptr
  | .allocPages count => count < 2 ^ 32
  | .freePage pa => (s.current, pa) ∈ s.held

/-- When an event can happen. A thread that is in a call makes the accesses of the call; the timer
may switch whenever interrupts are unmasked and preemption is not disabled. -/
def Allowed (bd : Board) (s : AllocSys) : AllocOp → Prop
  | .call c => s.calls s.current = none ∧ s.CallAllowed c
  | .access => ∃ c p, s.calls s.current = some (c, p) ∧ (p.step s.h).isSome
  | .ret => ∃ c r, s.calls s.current = some (c, .ret r)
  | .store a _ => s.calls s.current = none ∧
      ((∃ b, (s.current, b) ∈ s.live ∧ a ∈ b.extent) ∨ ∃ pa, (s.current, pa) ∈ s.held ∧
        a ∈ Finset.Ico (bd.physToHhVirt pa) (bd.physToHhVirt pa + pageSize))
  | .preemptDisable => s.calls s.current = none
  | .preemptEnable => s.calls s.current = none ∧ 0 < s.preemptCount
  | .setIrqMask _ => s.calls s.current = none
  | .timer _ => s.preemptCount = 0 ∧ s.irqMasked = false

/-- The state after `pmm_init` and `kheap_init`, with thread `t` running. -/
def start (g : Pmm) (mem : Mem) (t : ℕ) : AllocSys :=
  { h := kheapInit g mem KheapCounters.initial, current := t, calls := fun _ ↦ none, live := [],
    held := [], preemptCount := 0, irqMasked := false }

def Step (bd : Board) (s s' : AllocSys) : Prop := ∃ op, s.Allowed bd op ∧ s' = s.step bd op

/-- **The condition**: no switch while the running thread is inside an allocator. -/
def Undisturbed (s : AllocSys) : AllocOp → Prop
  | .timer _ => s.calls s.current = none
  | _ => True

def UndisturbedStep (bd : Board) (s s' : AllocSys) : Prop :=
  ∃ op, s.Allowed bd op ∧ s.Undisturbed op ∧ s' = s.step bd op

/-- **Nothing is owned twice**: no page, no block, and no page that holds a block of somebody
else. -/
structure Exclusive (bd : Board) (s : AllocSys) : Prop where
  pages : s.held.Pairwise fun x y ↦ x.2 ≠ y.2
  blocks : s.live.Pairwise fun x y ↦ Disjoint x.2.extent y.2.extent
  page_block : ∀ x ∈ s.held, ∀ y ∈ s.live, Disjoint y.2.extent
    (Finset.Ico (bd.physToHhVirt x.2) (bd.physToHhVirt x.2 + pageSize))

/-- The counter is right whenever no call is in progress. -/
def Counted (s : AllocSys) : Prop :=
  (∀ t, s.calls t = none) →
    s.h.pmm.st.freePages = clearCount s.h.pmm.st.bitmap s.h.pmm.st.totalPages

/-! ### Calls as steps of the sequential system -/

/-- The sequential system: who owns what is forgotten. -/
def abs (s : AllocSys) : KheapSys := { h := s.h, live := s.live.map Prod.snd, held := (s.held.map Prod.snd).toFinset }

theorem abs_eq {t : KheapSys} (hh : s.h = t.h) (hlive : s.live.map Prod.snd = t.live)
    (hheld : (s.held.map Prod.snd).toFinset = t.held) : s.abs = t := by
  cases t
  simp only [abs, hh, hlive, hheld]

/-- No call is in progress: the sequential system is sound, and no page is recorded twice. -/
structure Quiet (bd : Board) (g₀ : Pmm) (s : AllocSys) : Prop where
  refined : s.abs.Refined bd g₀
  nodup : (s.held.map Prod.snd).Nodup

section

variable {g₀ : Pmm}

theorem Quiet.ready (hs : s.Quiet bd g₀) : s.h.pmm.st.Ready := by
  obtain ⟨σ, r, -⟩ := hs.refined
  exact r.pmm.ready

theorem Quiet.free_le (hs : s.Quiet bd g₀) : s.h.pmm.st.freePages ≤ s.h.pmm.st.totalPages := by
  rw [show s.h.pmm.st.freePages = _ from hs.ready.counted]
  exact (Finset.card_filter_le _ _).trans_eq (Finset.card_range _)

theorem Quiet.exclusive (hs : s.Quiet bd g₀) (E : HeapEnv bd g₀) : s.Exclusive bd := by
  obtain ⟨σ, r, hheld, hlive⟩ := hs.refined
  have hsound := hs.refined.sound E
  have hblocks : (s.live.map Prod.snd).Pairwise fun c d ↦ Disjoint c.extent d.extent := hsound.disjoint
  refine ⟨pairwise_map.1 hs.nodup, (pairwise_map (f := Prod.snd)).1 hblocks, fun x hx y hy ↦ ?_⟩
  have hy' : y.2 ∈ σ.live := hlive ▸ mem_map_of_mem hy
  have hx' : x.2 ∈ σ.held := hheld ▸ mem_toFinset.2 (mem_map_of_mem hx)
  obtain ⟨hlo, hhi⟩ := E.page_bounds r.pmm (HeapShape.mem_owned.2 (.inl hx'))
  rw [E.physToHhVirt_eq hlo hhi]
  refine Finset.disjoint_left.2 fun a ha hin ↦ ?_
  have hpage := pageOf_eq r.wf.hh_mod (r.wf.page_mod _ (.inl hx')) hin
  rcases (r.wf.page_of_mem hy' (y.2.extent_subset ha)).2 with h | h
  · exact Finset.disjoint_left.1 r.wf.held_slabs hx' (hpage ▸ h)
  · exact Finset.disjoint_left.1 (r.wf.big_held _ hy') (hpage ▸ h) hx'

theorem Exclusive.sublist (h : s.Exclusive bd) (hlive : s'.live.Sublist s.live)
    (hheld : s'.held.Sublist s.held) : s'.Exclusive bd :=
  ⟨h.pages.sublist hheld, h.blocks.sublist hlive, fun x hx y hy ↦ h.page_block x (hheld.subset hx) y (hlive.subset hy)⟩

theorem giveUp_sublist (s : AllocSys) (c : AllocCall) :
    (s.giveUp c).live.Sublist s.live ∧ (s.giveUp c).held.Sublist s.held := by
  cases c with
  | kmalloc size => exact ⟨List.Sublist.refl _, List.Sublist.refl _⟩
  | kfree ptr => exact ⟨eraseP_sublist, List.Sublist.refl _⟩
  | allocPages count => exact ⟨List.Sublist.refl _, List.Sublist.refl _⟩
  | freePage pa => exact ⟨List.Sublist.refl _, eraseP_sublist⟩

theorem CallAllowed.op (hc : s.CallAllowed c) : s.abs.Allowed bd c.op := by
  cases c with
  | kmalloc size => exact hc
  | kfree ptr =>
    obtain ⟨b, hb, hptr⟩ := hc
    exact ⟨b, mem_map_of_mem hb, hptr⟩
  | allocPages count => exact hc
  | freePage pa => exact mem_toFinset.2 (mem_map_of_mem hc)

theorem Quiet.owner_unique (hs : s.Quiet bd g₀) {x y : ℕ × HeapBlock} (hx : x ∈ s.live)
    (hy : y ∈ s.live) (hptr : x.2.ptr = y.2.ptr) : x = y := by
  by_contra hne
  obtain ⟨σ, r, -, hlive⟩ := hs.refined
  have hdisj : (s.live.map Prod.snd).Pairwise fun c d ↦ Disjoint c.footprint d.footprint := by
    rw [← show σ.live = s.live.map Prod.snd from hlive]
    exact r.wf.disjoint
  have hxy := ((pairwise_map (f := Prod.snd)).1 hdisj).forall hx hy hne
  have hmem : ∀ z ∈ s.live, z.2.ptr ∈ z.2.footprint := fun z hz ↦ r.wf.ptr_mem_footprint (hlive ▸ mem_map_of_mem hz)
  exact Finset.disjoint_left.1 hxy (hmem x hx) (hptr ▸ hmem y hy)

theorem Quiet.live_giveUp (hs : s.Quiet bd g₀) {ptr : ℕ} (hc : s.CallAllowed (.kfree ptr)) :
    (s.giveUp (.kfree ptr)).live.map Prod.snd = (s.live.map Prod.snd).eraseP fun c ↦ decide (c.ptr = ptr) := by
  obtain ⟨b, hb, hptr⟩ := hc
  rw [eraseP_map]
  refine congrArg (map Prod.snd) (eraseP_congr fun x hx ↦ decide_eq_decide.2 ?_)
  refine ⟨And.right, fun hx' ↦ ⟨?_, hx'⟩⟩
  rw [hs.owner_unique hx hb (hx'.trans hptr.symm)]

theorem Quiet.held_giveUp (hs : s.Quiet bd g₀) {pa : ℕ} (hc : s.CallAllowed (.freePage pa)) :
    ((s.giveUp (.freePage pa)).held.map Prod.snd).Nodup ∧ ((s.giveUp (.freePage pa)).held.map Prod.snd).toFinset =
        (s.held.map Prod.snd).toFinset.erase pa := by
  obtain ⟨x, l₁, l₂, -, hx, hsplit, herase⟩ := exists_of_eraseP
    (p := fun x ↦ decide (x = (s.current, pa))) hc (decide_eq_true rfl)
  obtain rfl := of_decide_eq_true hx
  have hnodup := hs.nodup
  rw [hsplit, map_append, map_cons, nodup_middle, nodup_cons] at hnodup
  have hheld : (s.giveUp (.freePage pa)).held = l₁ ++ l₂ := herase
  rw [hheld, hsplit, map_append, map_append, map_cons]
  refine ⟨hnodup.2, ?_⟩
  ext p
  have hout := hnodup.1
  simp only [mem_toFinset, mem_append, mem_cons, Finset.mem_erase] at hout ⊢
  constructor
  · exact fun hp ↦ ⟨fun heq ↦ hout (heq ▸ hp), hp.imp id .inr⟩
  · rintro ⟨hne, hp | hp | hp⟩
    exacts [.inl hp, absurd hp hne, .inr hp]

/-- **A call that ran without interruption is a step of the sequential system.** Here `s` is the
state in which it began, and `r` and `s'.h` are what its program returned and left. -/
theorem Quiet.ret (hs : s.Quiet bd g₀) (E : HeapEnv bd g₀) (hc : s.CallAllowed c) {r : Option ℕ}
    (hrun : (c.prog bd).run s.h = (r, s'.h)) (hlive : s'.live = (s.giveUp c).live)
    (hheld : s'.held = (s.giveUp c).held) : (s'.gain c r).Quiet bd g₀ := by
  have hstep := hs.refined.step E hc.op
  cases c with
  | kmalloc size =>
    rcases hres : kmalloc bd s.h size with ⟨p, h⟩
    simp only [AllocCall.prog, Prog.run_map, run_kmallocProg hs.free_le, hres] at hrun
    obtain ⟨rfl, hh⟩ := Prod.mk.inj hrun
    have hlive' : s'.live.map Prod.snd = s.abs.live := congrArg (map Prod.snd) hlive
    have hheld' : (s'.held.map Prod.snd).toFinset = s.abs.held :=
      congrArg (fun l ↦ (map Prod.snd l).toFinset) hheld
    rw [AllocCall.op, KheapSys.step_kmalloc hres] at hstep
    by_cases hp : p = 0
    · rw [if_pos hp] at hstep ⊢
      have habs : s'.abs = ⟨h, s.abs.live, s.abs.held⟩ := abs_eq hh.symm hlive' hheld'
      exact ⟨habs ▸ hstep, hheld ▸ hs.nodup⟩
    · rw [if_neg hp] at hstep ⊢
      have habs : (s'.gain (.kmalloc size) (some p)).abs = ⟨h, ⟨p, size⟩ :: s.abs.live, s.abs.held⟩ :=
        abs_eq hh.symm (congrArg (List.cons (⟨p, size⟩ : HeapBlock)) hlive') hheld'
      exact ⟨habs ▸ hstep, hheld ▸ hs.nodup⟩
  | kfree ptr =>
    simp only [AllocCall.prog, Prog.run_map, run_kfreeProg hs.ready] at hrun
    obtain ⟨rfl, hh⟩ := Prod.mk.inj hrun
    have habs : s'.abs = s.abs.step bd (.kfree ptr) := abs_eq hh.symm (hlive ▸ hs.live_giveUp hc) (hheld ▸ rfl)
    exact ⟨habs ▸ hstep, hheld ▸ hs.nodup⟩
  | allocPages count =>
    simp only [AllocCall.prog, run_pmmAllocPagesProg hs.free_le] at hrun
    obtain ⟨rfl, hh⟩ := Prod.mk.inj hrun
    have hlive' : s'.live.map Prod.snd = s.abs.live := congrArg (map Prod.snd) hlive
    have hheld' : (s'.held.map Prod.snd).toFinset = s.abs.held :=
      congrArg (fun l ↦ (map Prod.snd l).toFinset) hheld
    obtain ⟨σ, r, hσ, -⟩ := hs.refined
    rcases r.pmm.alloc count with ⟨g, hres, -⟩ | ⟨pa, g, hres, -, -, hfresh⟩
    · rw [AllocCall.op, KheapSys.step_allocPages_none hres] at hstep
      rw [show pmmAllocPages s.h.pmm count = _ from hres] at hh ⊢
      have habs : s'.abs = ⟨s.h.setPmm g, s.abs.live, s.abs.held⟩ := abs_eq hh.symm hlive' hheld'
      exact ⟨habs ▸ hstep, hheld ▸ hs.nodup⟩
    · rw [AllocCall.op, KheapSys.step_allocPages_some hres] at hstep
      rw [show pmmAllocPages s.h.pmm count = _ from hres] at hh ⊢
      have hmap : ((s'.gain (.allocPages count) (some pa)).held.map Prod.snd) =
          ((range count).map fun k ↦ pa + k * pageSize) ++ s'.held.map Prod.snd := by
        simp [gain]
      have hspan : ((range count).map fun k ↦ pa + k * pageSize).toFinset = pageSpan pa count := by
        ext p
        simp [pageSpan]
      have habs : (s'.gain (.allocPages count) (some pa)).abs =
          ⟨s.h.setPmm g, s.abs.live, s.abs.held ∪ pageSpan pa count⟩ := by
        refine abs_eq hh.symm hlive' ?_
        rw [hmap, toFinset_append, hspan, hheld', Finset.union_comm]
      refine ⟨habs ▸ hstep, ?_⟩
      rw [hmap]
      refine List.Nodup.append (nodup_range.map fun i j hij ↦ PmmSys.page_inj hij)
        (hheld ▸ hs.nodup) fun p hp hp' ↦ ?_
      -- the new pages were nobody's
      refine hfresh p (hspan ▸ mem_toFinset.2 hp) (HeapShape.mem_owned.2 (.inl ?_))
      rw [hσ, ← hheld']
      exact mem_toFinset.2 hp'
  | freePage pa =>
    simp only [AllocCall.prog, Prog.run_map, run_pmmFreePageProg hs.ready] at hrun
    obtain ⟨rfl, hh⟩ := Prod.mk.inj hrun
    obtain ⟨hnodup, hset⟩ := hs.held_giveUp hc
    have habs : s'.abs = s.abs.step bd (.freePage pa) := abs_eq hh.symm (hlive ▸ rfl) (hheld ▸ hset)
    exact ⟨habs ▸ hstep, hheld ▸ hnodup⟩

/-! ### Runs without a switch inside a call -/

/-- The running thread is inside `c` with `p` left of the program: the call began in a quiet state,
and since then there were only accesses of the call. -/
def InCall (bd : Board) (g₀ : Pmm) (s : AllocSys) (c : AllocCall) (p : Acc (Option ℕ)) : Prop :=
  ∃ s₀ : AllocSys, s₀.Quiet bd g₀ ∧ s₀.CallAllowed c ∧ s.live = (s₀.giveUp c).live ∧
    s.held = (s₀.giveUp c).held ∧ p.run s.h = (c.prog bd).run s₀.h

/-- **At most one call is in progress**, that of the running thread. -/
structure Serial (bd : Board) (g₀ : Pmm) (s : AllocSys) : Prop where
  others : ∀ t, t ≠ s.current → s.calls t = none
  quiet : s.calls s.current = none → s.Quiet bd g₀
  inCall : ∀ c p, s.calls s.current = some (c, p) → s.InCall bd g₀ c p

theorem Serial.exclusive (hs : s.Serial bd g₀) (E : HeapEnv bd g₀) : s.Exclusive bd := by
  rcases hcall : s.calls s.current with _ | ⟨c, p⟩
  · exact (hs.quiet hcall).exclusive E
  · obtain ⟨s₀, hquiet, -, hlive, hheld, -⟩ := hs.inCall c p hcall
    obtain ⟨hsubl, hsubh⟩ := s₀.giveUp_sublist c
    exact (hquiet.exclusive E).sublist (hlive ▸ hsubl) (hheld ▸ hsubh)

theorem Serial.counted (hs : s.Serial bd g₀) : s.Counted :=
  fun hcalls ↦ (hs.quiet (hcalls s.current)).ready.counted

theorem Quiet.congr (hs : s.Quiet bd g₀) (habs : s'.abs = s.abs) (hheld : s'.held = s.held) : s'.Quiet bd g₀ :=
  ⟨habs ▸ hs.refined, hheld ▸ hs.nodup⟩

theorem serial_start (E : HeapEnv bd g₀) (mem : Mem) (t : ℕ) : (start g₀ mem t).Serial bd g₀ :=
  ⟨fun _ _ ↦ rfl, fun _ ↦ ⟨KheapSys.refined_start E mem, nodup_nil⟩, fun _ _ h ↦ nomatch h⟩

theorem Serial.of_quiet (hs : s.Serial bd g₀) (hcall : s.calls s.current = none) (hcalls : s'.calls = s.calls)
    (hquiet : s'.Quiet bd g₀) : s'.Serial bd g₀ := by
  have hnone : ∀ t, s'.calls t = none := by
    intro t
    rw [hcalls]
    by_cases ht : t = s.current
    · rw [ht, hcall]
    · exact hs.others t ht
  exact ⟨fun t _ ↦ hnone t, fun _ ↦ hquiet, fun c p h ↦ nomatch (hnone _).symm.trans h⟩

theorem Serial.of_setCall {p : Acc (Option ℕ)} (hs : s.Serial bd g₀) (hcurrent : s'.current = s.current)
    (hcalls : s'.calls = s.calls) (hin : (s'.setCall c p).InCall bd g₀ c p) :
    (s'.setCall c p).Serial bd g₀ := by
  have hself : (s'.setCall c p).calls s'.current = some (c, p) := update_self ..
  refine ⟨fun t ht ↦ ?_, fun h ↦ (nomatch hself.symm.trans h), fun c' p' h ↦ ?_⟩
  · refine (update_of_ne ht ..).trans ?_
    rw [hcalls]
    exact hs.others t fun h ↦ ht (h.trans hcurrent.symm)
  · obtain ⟨rfl, rfl⟩ := Prod.mk.inj (Option.some.inj (hself.symm.trans h))
    exact hin

theorem Serial.step (hs : s.Serial bd g₀) (E : HeapEnv bd g₀) {op : AllocOp} (ha : s.Allowed bd op)
    (hu : s.Undisturbed op) : (s.step bd op).Serial bd g₀ := by
  cases op with
  | call c =>
    refine hs.of_setCall (giveUp_current s c) (giveUp_calls s c) ?_
    refine ⟨s, hs.quiet ha.1, ha.2, rfl, rfl, ?_⟩
    rw [show ((s.giveUp c).setCall c (c.prog bd)).h = s.h from giveUp_h s c]
  | access =>
    obtain ⟨c, p, hcall, hsome⟩ := ha
    obtain ⟨⟨p', h'⟩, hp⟩ := Option.isSome_iff_exists.1 hsome
    obtain ⟨s₀, hquiet, hc, hlive, hheld, hrun⟩ := hs.inCall c p hcall
    simp only [AllocSys.step, hcall, hp]
    exact hs.of_setCall rfl rfl ⟨s₀, hquiet, hc, hlive, hheld, (Prog.run_step hp).trans hrun⟩
  | ret =>
    obtain ⟨c, r, hcall⟩ := ha
    obtain ⟨s₀, hquiet, hc, hlive, hheld, hrun⟩ := hs.inCall c _ hcall
    simp only [AllocSys.step, hcall]
    have hnone : ∀ t, update s.calls s.current none t = none := by
      intro t
      by_cases ht : t = s.current
      · rw [ht, update_self]
      · rw [update_of_ne ht, hs.others t ht]
    refine ⟨fun t _ ↦ ?_, fun _ ↦ hquiet.ret E hc hrun.symm hlive hheld, fun c' p h ↦ ?_⟩
    · rw [gain_calls]
      exact hnone t
    · rw [gain_calls, gain_current] at h
      exact nomatch (hnone _).symm.trans h
  | store a v =>
    have hquiet := hs.quiet ha.1
    refine hs.of_quiet ha.1 rfl ⟨@KheapSys.Refined.step _ _ _ hquiet.refined E (.store a v) ?_, hquiet.nodup⟩
    rcases ha.2 with ⟨b, hb, hin⟩ | ⟨pa, hpa, hin⟩
    · exact .inl ⟨b, mem_map_of_mem hb, hin⟩
    · exact .inr ⟨pa, mem_toFinset.2 (mem_map_of_mem hpa), hin⟩
  | preemptDisable => exact hs.of_quiet ha rfl ((hs.quiet ha).congr rfl rfl)
  | preemptEnable => exact hs.of_quiet ha.1 rfl ((hs.quiet ha.1).congr rfl rfl)
  | setIrqMask masked => exact hs.of_quiet ha rfl ((hs.quiet ha).congr rfl rfl)
  | timer t =>
    have hcall : s.calls s.current = none := hu
    exact hs.of_quiet hcall rfl ((hs.quiet hcall).congr rfl rfl)

theorem serial_of_run (E : HeapEnv bd g₀) {mem : Mem} {t : ℕ}
    (hrun : Relation.ReflTransGen (UndisturbedStep bd) (start g₀ mem t) s) : s.Serial bd g₀ := by
  induction hrun with
  | refl => exact serial_start E mem t
  | tail _ hstep ih =>
    obtain ⟨op, ha, hu, rfl⟩ := hstep
    exact ih.step E ha hu

end

/-! ### Executing events -/

instance (s : AllocSys) (c : AllocCall) : Decidable (s.CallAllowed c) :=
  match c with
  | .kmalloc size => inferInstanceAs (Decidable (size ≤ 2 ^ 32))
  | .kfree ptr => decidable_of_iff (∃ x ∈ s.live, x.1 = s.current ∧ x.2.ptr = ptr)
      ⟨fun ⟨x, hx, hcur, hptr⟩ ↦ ⟨x.2, hcur ▸ hx, hptr⟩, fun ⟨_, hb, hptr⟩ ↦ ⟨_, hb, rfl, hptr⟩⟩
  | .allocPages count => inferInstanceAs (Decidable (count < 2 ^ 32))
  | .freePage pa => inferInstanceAs (Decidable ((s.current, pa) ∈ s.held))

/-- Whether a call, an access, a return or a switch can happen. -/
def canDo (s : AllocSys) : AllocOp → Bool
  | .call c => (s.calls s.current).isNone && decide (s.CallAllowed c)
  | .access => (s.calls s.current).any fun x ↦ (x.2.step s.h).isSome
  | .ret => (s.calls s.current).any fun x ↦ (x.2.step s.h).isNone
  | .timer _ => decide (s.preemptCount = 0) && !s.irqMasked
  | _ => false

theorem allowed_of_canDo {op : AllocOp} (h : s.canDo op = true) : s.Allowed bd op := by
  cases op with
  | call c =>
    obtain ⟨hcall, hc⟩ := Bool.and_eq_true_iff.1 h
    exact ⟨Option.isNone_iff_eq_none.1 hcall, of_decide_eq_true hc⟩
  | access =>
    obtain ⟨⟨c, p⟩, hcall, hp⟩ := (Option.any_eq_true _ _).1 h
    exact ⟨c, p, hcall, hp⟩
  | ret =>
    obtain ⟨⟨c, p⟩, hcall, hp⟩ := (Option.any_eq_true _ _).1 h
    cases p with
    | ret r => exact ⟨c, r, hcall⟩
    | acc upd next => cases hp
  | timer t =>
    obtain ⟨hcount, hmask⟩ := Bool.and_eq_true_iff.1 h
    exact ⟨of_decide_eq_true hcount, (Bool.not_eq_true' _).mp hmask⟩
  | store a v => cases h
  | preemptDisable => cases h
  | preemptEnable => cases h
  | setIrqMask masked => cases h

def exec (bd : Board) : List AllocOp → AllocSys → Option AllocSys
  | [], s => some s
  | op :: ops, s => if s.canDo op then exec bd ops (s.step bd op) else none

theorem run_of_exec {ops : List AllocOp} (h : exec bd ops s = some s') :
    Relation.ReflTransGen (fun s s' ↦ ∃ op ∈ ops, s.Allowed bd op ∧ s' = s.step bd op) s s' := by
  induction ops generalizing s with
  | nil => exact Option.some.inj h ▸ .refl
  | cons op ops ih =>
    rw [exec] at h
    split at h
    · next hop =>
      refine .head ⟨op, mem_cons_self, allowed_of_canDo hop, rfl⟩ (Relation.ReflTransGen.mono ?_ _ _ (ih h))
      exact fun _ _ ⟨op', hmem, hop'⟩ ↦ ⟨op', mem_cons_of_mem op hmem, hop'⟩
    · cases h

end AllocSys

/-- **Allocation is exclusive as long as no switch comes inside a call**: in every run in which the
timer switches threads only while the running thread is in no allocator, no page and no block is
ever owned twice, and the counter of free pages is right whenever no call is in progress. -/
theorem alloc_exclusive {env : PmmInitEnv} {ctr : PmmCounters} {g₀ : Pmm}
    (hinit : pmmInit env ctr = some g₀) (hboard : env.board.Placed) {mem : Mem} {t : ℕ} {s : AllocSys}
    (hrun : Relation.ReflTransGen (AllocSys.UndisturbedStep env.board) (AllocSys.start g₀ mem t) s) :
    s.Exclusive env.board ∧ s.Counted :=
  have hs := AllocSys.serial_of_run (pmmInit_heapEnv hinit hboard) hrun
  ⟨hs.exclusive (pmmInit_heapEnv hinit hboard), hs.counted⟩

/-- A whole call of `pmm_alloc_pages` for one page. -/
def allocOnePage : List AllocOp := .call (.allocPages 1) :: replicate 38 .access ++ [.ret]

theorem virtEnv_allocOnePage : ((pmmInit virtEnv .initial).bind fun g ↦
    ((AllocSys.start g (fun _ ↦ 0) 1).exec Board.virt allocOnePage).map AllocSys.held) =
    some [(1, 0x40012000)] := by
  decide +kernel

theorem alloc_exclusive_virtEnv : ∃ g₀ s, pmmInit virtEnv .initial = some g₀ ∧
    Relation.ReflTransGen (AllocSys.UndisturbedStep Board.virt) (AllocSys.start g₀ (fun _ ↦ 0) 1) s ∧
    s.held = [(1, 0x40012000)] ∧ s.Exclusive Board.virt ∧ s.Counted := by
  obtain ⟨g₀, hinit, hexec⟩ := Option.bind_eq_some_iff.1 virtEnv_allocOnePage
  obtain ⟨s, hs, hheld⟩ := Option.map_eq_some_iff.1 hexec
  have hrun : Relation.ReflTransGen (AllocSys.UndisturbedStep virtEnv.board) (AllocSys.start g₀ (fun _ ↦ 0) 1) s := by
    refine Relation.ReflTransGen.mono ?_ _ _ (AllocSys.run_of_exec hs)
    rintro x y ⟨op, hmem, hallowed, rfl⟩
    refine ⟨op, hallowed, ?_, rfl⟩
    simp only [allocOnePage, mem_append, mem_cons, mem_replicate, not_mem_nil, or_false] at hmem
    rcases hmem with (rfl | ⟨-, rfl⟩) | rfl <;> trivial
  exact ⟨g₀, s, hinit, hrun, hheld, alloc_exclusive hinit Board.placed_virt hrun⟩

/-- Thread 1 is interrupted when it has found a free page; thread 2 allocates a page; thread 1 goes
on. -/
def raceOps : List AllocOp :=
  .call (.allocPages 1) :: replicate 24 .access ++ [.timer 2] ++ allocOnePage ++
    [.timer 1] ++ replicate 14 .access ++ [.ret]

theorem virtEnv_race : ((pmmInit virtEnv .initial).bind fun g ↦
    ((AllocSys.start g (fun _ ↦ 0) 1).exec Board.virt raceOps).map AllocSys.held) =
    some [(1, 0x40012000), (2, 0x40012000)] := by
  decide +kernel

/-- **One page, two owners**, after a switch inside `pmm_alloc_pages`. -/
theorem page_owned_twice : ∃ g₀ s, pmmInit virtEnv .initial = some g₀ ∧
    Relation.ReflTransGen (AllocSys.Step Board.virt) (AllocSys.start g₀ (fun _ ↦ 0) 1) s ∧
    (1, 0x40012000) ∈ s.held ∧ (2, 0x40012000) ∈ s.held ∧ ¬s.Exclusive Board.virt := by
  obtain ⟨g₀, hinit, hexec⟩ := Option.bind_eq_some_iff.1 virtEnv_race
  obtain ⟨s, hs, hheld⟩ := Option.map_eq_some_iff.1 hexec
  have hrun : Relation.ReflTransGen (AllocSys.Step Board.virt) (AllocSys.start g₀ (fun _ ↦ 0) 1) s :=
    Relation.ReflTransGen.mono (fun _ _ ⟨op, _, hop⟩ ↦ ⟨op, hop⟩) _ _ (AllocSys.run_of_exec hs)
  refine ⟨g₀, s, hinit, hrun, hheld ▸ by decide, hheld ▸ by decide, fun hex ↦ ?_⟩
  have hpages := hex.pages
  rw [hheld] at hpages
  exact absurd hpages (by decide)

end CapazOS
