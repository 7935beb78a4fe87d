import CapazOS.Task.Model
import Mathlib.Algebra.BigOperators.Group.Finset.Basic

/-!
# Memory accounting

`cka_kmalloc` charges a block to the task of the calling thread and keeps its size in a header in
front of it; `cka_kfree` refunds that size to the task of **its** calling thread. Of the heap only
the answers are used. From a state with exact balances, a call leaves exact balances **iff** it
refunds a block to its owner and does not take a balance past the range of the counter
(`exact_step_iff`).
-/

namespace CapazOS

open Function

variable {ι : Type*} [DecidableEq ι]

/-! ### The calls -/

structure AllocHdr where
  magic : ℕ
  size : ℕ
  deriving DecidableEq

def coreAllocMagic : ℕ := 0x434150415A4D454D

def coreAllocHdrBytes : ℕ := 16

/-- The tasks, and the headers by their address. -/
structure CkaHeap (ι : Type*) where
  tasks : ι → Task
  hdrs : ℕ → AllocHdr

def CkaHeap.setHdr (s : CkaHeap ι) (a : ℕ) (hdr : AllocHdr) : CkaHeap ι :=
  ⟨s.tasks, update s.hdrs a hdr⟩

/-- Change the record of the current task, if there is one. -/
def CkaHeap.account (s : CkaHeap ι) (cur : Option ι) (f : Task → Task) : CkaHeap ι :=
  match cur with
  | none => s
  | some i => { s with tasks := update s.tasks i (f (s.tasks i)) }

/-- `cka_kmalloc`, called by a thread of task `cur`; `kmalloc` is the answer of the heap to a
size. -/
def ckaKmalloc (s : CkaHeap ι) (cur : Option ι) (size : ℕ) (kmalloc : ℕ → Option ℕ) : Option ℕ × CkaHeap ι :=
  let total := u64 (size + coreAllocHdrBytes)
  if cur.any fun i ↦ !(taskAllowMemAlloc (s.tasks i) size).1 then
    (none, s.account cur fun t ↦ (taskAllowMemAlloc t size).2)
  else
    match kmalloc total with
    | none => (none, s)
    | some hdr =>
      (some (hdr + coreAllocHdrBytes),
        (s.setHdr hdr ⟨coreAllocMagic, size⟩).account cur fun t ↦ taskAccountMemAlloc t size)

def ckaKfree (s : CkaHeap ι) (cur : Option ι) (ptr : ℕ) : CkaHeap ι :=
  if ptr = 0 then s
  else
    let hdr := ptr - coreAllocHdrBytes
    if (s.hdrs hdr).magic = coreAllocMagic then
      (s.setHdr hdr ⟨0, (s.hdrs hdr).size⟩).account cur fun t ↦ taskAccountMemFree t (s.hdrs hdr).size
    else s

/-! ### The system -/

/-- A block in use: its address, the size asked for, and the task that asked. -/
structure MemBlock (ι : Type*) where
  ptr : ℕ
  size : ℕ
  owner : ι
  deriving DecidableEq

/-- The tasks and headers, with the blocks in use. -/
structure MemSys (ι : Type*) where
  heap : CkaHeap ι
  live : Finset (MemBlock ι)

/-- A call by a thread of task `cur`; `answer` is what `kmalloc` returns if it is reached. -/
inductive MemOp (ι : Type*) where
  | kmalloc (cur : ι) (size : ℕ) (answer : Option ℕ)
  | kfree (cur : ι) (ptr : ℕ)

namespace MemSys

def step (s : MemSys ι) : MemOp ι → MemSys ι
  | .kmalloc cur size answer =>
    match ckaKmalloc s.heap (some cur) size fun _ ↦ answer with
    | (none, heap) => { s with heap }
    | (some ptr, heap) => ⟨heap, insert ⟨ptr, size, cur⟩ s.live⟩
  | .kfree cur ptr => ⟨ckaKfree s.heap (some cur) ptr, s.live.filter (·.ptr ≠ ptr)⟩

/-- A size is a `size_t`, the heap hands out blocks that are not in use, and only blocks in use are
released. -/
def Allowed (s : MemSys ι) : MemOp ι → Prop
  | .kmalloc _ size answer => size < 2 ^ 64 ∧ ∀ hdr, answer = some hdr → ∀ b ∈ s.live, b.ptr ≠ hdr + coreAllocHdrBytes
  | .kfree _ ptr => ∃ b ∈ s.live, b.ptr = ptr

def liveBytes (s : MemSys ι) (i : ι) : ℕ := ∑ b ∈ s.live, if b.owner = i then b.size else 0

def Exact (s : MemSys ι) : Prop := ∀ i, (s.heap.tasks i).memBytesCurrent = s.liveBytes i

def Served (s : MemSys ι) : MemOp ι → Prop
  | .kmalloc cur size answer => (ckaKmalloc s.heap (some cur) size fun _ ↦ answer).1.isSome
  | .kfree _ _ => False

/-- A call that returns a block leaves its task within the limit. -/
def WithinLimit (s : MemSys ι) : MemOp ι → Prop
  | .kmalloc cur size answer => s.Served (.kmalloc cur size answer) → (s.heap.tasks cur).memBytesLimit ≠ 0 →
      (s.step (.kmalloc cur size answer)).liveBytes cur ≤ (s.heap.tasks cur).memBytesLimit
  | .kfree _ _ => True

/-- **The condition on a call**: a block that is returned does not take the bytes in use of its task
to `2^64`, and a block is released by a thread of the task that owns it, unless it has size zero. -/
def Settled (s : MemSys ι) : MemOp ι → Prop
  | .kmalloc cur size answer =>
    s.Served (.kmalloc cur size answer) → s.liveBytes cur + size < 2 ^ 64
  | .kfree cur ptr => ∀ b ∈ s.live, b.ptr = ptr → b.owner = cur ∨ b.size = 0

def Along (P : MemSys ι → MemOp ι → Prop) (s : MemSys ι) : List (MemOp ι) → Prop
  | [] => True
  | op :: ops => P s op ∧ (s.step op).Along P ops

/-- The balances are exact in every state of a run, and no call passes a limit. -/
def Accounted (s : MemSys ι) : List (MemOp ι) → Prop
  | [] => s.Exact
  | op :: ops => s.Exact ∧ s.WithinLimit op ∧ (s.step op).Accounted ops

/-! ### Headers -/

/-- Every block in use has its header, and no two have the same address. -/
structure Tracked (s : MemSys ι) : Prop where
  hdr : ∀ b ∈ s.live, coreAllocHdrBytes ≤ b.ptr ∧ s.heap.hdrs (b.ptr - coreAllocHdrBytes) = ⟨coreAllocMagic, b.size⟩
  inj : ∀ b ∈ s.live, ∀ b' ∈ s.live, b.ptr = b'.ptr → b = b'

variable {s : MemSys ι}

omit [DecidableEq ι] in
theorem hdrs_setHdr (h : CkaHeap ι) (a : ℕ) (hdr : AllocHdr) : (h.setHdr a hdr).hdrs = update h.hdrs a hdr := rfl

omit [DecidableEq ι] in
theorem tasks_setHdr (h : CkaHeap ι) (a : ℕ) (hdr : AllocHdr) : (h.setHdr a hdr).tasks = h.tasks :=
  rfl

theorem hdrs_account (h : CkaHeap ι) (cur : Option ι) (f : Task → Task) : (h.account cur f).hdrs = h.hdrs := by
  cases cur <;> rfl

/-- **What `cka_kmalloc` does**: refuse and touch no balance, or charge a block to the caller's
task. -/
theorem kmalloc_cases (s : MemSys ι) (cur : ι) (size : ℕ) (answer : Option ℕ) :
    (¬s.Served (.kmalloc cur size answer) ∧ (s.step (.kmalloc cur size answer)).live = s.live ∧
      (s.step (.kmalloc cur size answer)).heap.hdrs = s.heap.hdrs ∧
      ∀ i, ((s.step (.kmalloc cur size answer)).heap.tasks i).memBytesCurrent = (s.heap.tasks i).memBytesCurrent) ∨
    ∃ hdr, answer = some hdr ∧ s.Served (.kmalloc cur size answer) ∧ ((s.heap.tasks cur).memBytesLimit = 0 ∨
        u64 ((s.heap.tasks cur).memBytesCurrent + size) ≤ (s.heap.tasks cur).memBytesLimit) ∧
      s.step (.kmalloc cur size answer) =
        ⟨(s.heap.setHdr hdr ⟨coreAllocMagic, size⟩).account (some cur) (taskAccountMemAlloc · size),
          insert ⟨hdr + coreAllocHdrBytes, size, cur⟩ s.live⟩ := by
  by_cases hallow : (taskAllowMemAlloc (s.heap.tasks cur) size).1 = true
  · rcases answer with _ | hdr
    · refine .inl ?_
      simp [Served, step, ckaKmalloc, hallow]
    · refine .inr ⟨hdr, rfl, ?_, (taskAllowMemAlloc_fst _ _).1 hallow, ?_⟩
      · simp [Served, ckaKmalloc, hallow]
      · simp [step, ckaKmalloc, hallow]
  · refine .inl ⟨?_, ?_, ?_, fun i ↦ ?_⟩
    · simp [Served, ckaKmalloc, hallow]
    · simp [step, ckaKmalloc, hallow]
    · simp [step, ckaKmalloc, hallow, hdrs_account]
    · simp only [step, ckaKmalloc, hallow, Option.any_some, Bool.not_false, if_true, CkaHeap.account]
      rcases eq_or_ne i cur with rfl | hne
      · rw [update_self, (taskAllowMemAlloc_snd _ _).1]
      · rw [update_of_ne hne]

/-- **What `cka_kfree` does** with a block in use: it refunds its size to the caller's task. -/
theorem kfree_eq (hs : s.Tracked) (cur : ι) {b : MemBlock ι} (hb : b ∈ s.live) : s.step (.kfree cur b.ptr) =
      ⟨(s.heap.setHdr (b.ptr - coreAllocHdrBytes) ⟨0, b.size⟩).account (some cur) (taskAccountMemFree · b.size),
        s.live.erase b⟩ := by
  obtain ⟨hle, hhdr⟩ := hs.hdr b hb
  have hptr : b.ptr ≠ 0 := by
    have : 0 < coreAllocHdrBytes := by decide
    omega
  have hlive : s.live.filter (·.ptr ≠ b.ptr) = s.live.erase b := by
    ext b'
    rw [Finset.mem_filter, Finset.mem_erase, and_comm]
    refine and_congr_left fun hb' ↦ ?_
    exact ⟨fun hne heq ↦ hne (heq ▸ rfl), fun hne heq ↦ hne (hs.inj b' hb' b hb heq)⟩
  simp [step, ckaKfree, if_neg hptr, hhdr, hlive]

theorem tracked_step (hs : s.Tracked) {op : MemOp ι} (hop : s.Allowed op) : (s.step op).Tracked := by
  cases op with
  | kmalloc cur size answer =>
    rcases s.kmalloc_cases cur size answer with ⟨-, hlive, hhdrs, -⟩ | ⟨hdr, rfl, -, -, heq⟩
    · exact ⟨by rw [hlive, hhdrs]; exact hs.hdr, by rw [hlive]; exact hs.inj⟩
    · have hfresh := hop.2 hdr rfl
      rw [heq]
      constructor
      · intro b hb
        rw [hdrs_account, hdrs_setHdr]
        rcases Finset.mem_insert.1 hb with rfl | hb
        · exact ⟨Nat.le_add_left .., by rw [Nat.add_sub_cancel, update_self]⟩
        · obtain ⟨hle, hb'⟩ := hs.hdr b hb
          refine ⟨hle, ?_⟩
          rw [update_of_ne, hb']
          have := hfresh b hb
          omega
      · intro b hb b' hb' hptr
        rcases Finset.mem_insert.1 hb with rfl | hb <;> rcases Finset.mem_insert.1 hb' with rfl | hb'
        · rfl
        · exact absurd hptr.symm (hfresh b' hb')
        · exact absurd hptr (hfresh b hb)
        · exact hs.inj b hb b' hb' hptr
  | kfree cur ptr =>
    obtain ⟨b, hb, rfl⟩ := hop
    rw [kfree_eq hs cur hb]
    refine ⟨fun b' hb' ↦ ?_, fun b₁ hb₁ b₂ hb₂ ↦ hs.inj b₁ (Finset.mem_of_mem_erase hb₁) b₂
      (Finset.mem_of_mem_erase hb₂)⟩
    obtain ⟨hne, hmem⟩ := Finset.mem_erase.1 hb'
    obtain ⟨hle, hhdr⟩ := hs.hdr b' hmem
    refine ⟨hle, ?_⟩
    rw [hdrs_account, hdrs_setHdr, update_of_ne, hhdr]
    have hptr : b'.ptr ≠ b.ptr := fun heq ↦ hne (hs.inj b' hmem b hb heq)
    have := (hs.hdr b hb).1
    omega

/-! ### Balances -/

theorem memBytesCurrent_account (h : CkaHeap ι) (cur : ι) (f : Task → Task) (i : ι) :
    ((h.account (some cur) f).tasks i).memBytesCurrent =
      if i = cur then (f (h.tasks cur)).memBytesCurrent else (h.tasks i).memBytesCurrent := by
  simp only [CkaHeap.account, update_apply]
  split_ifs with hi <;> rfl

theorem exact_kmalloc_iff (he : s.Exact) {cur : ι} {size : ℕ} {answer : Option ℕ}
    (hop : s.Allowed (.kmalloc cur size answer)) :
    ((s.step (.kmalloc cur size answer)).Exact ∧ s.WithinLimit (.kmalloc cur size answer)) ↔
      s.Settled (.kmalloc cur size answer) := by
  rcases s.kmalloc_cases cur size answer with ⟨hno, hlive, -, hcur⟩ | ⟨hdr, rfl, hyes, hlimit, heq⟩
  · refine iff_of_true ⟨fun i ↦ ?_, fun h ↦ absurd h hno⟩ fun h ↦ absurd h hno
    rw [hcur, he i, liveBytes, liveBytes, hlive]
  · have hfresh : (⟨hdr + coreAllocHdrBytes, size, cur⟩ : MemBlock ι) ∉ s.live := fun hmem ↦ hop.2 hdr rfl _ hmem rfl
    have hbytes : ∀ i, (s.step (.kmalloc cur size (some hdr))).liveBytes i =
        (if cur = i then size else 0) + s.liveBytes i := fun i ↦ by
      rw [heq, liveBytes, Finset.sum_insert hfresh, liveBytes]
    have hcur : ∀ i, ((s.step (.kmalloc cur size (some hdr))).heap.tasks i).memBytesCurrent =
        if i = cur then u64 (s.liveBytes cur + size) else s.liveBytes i := fun i ↦ by
      rw [heq, memBytesCurrent_account, tasks_setHdr, he i]
      simp only [taskAccountMemAlloc, he cur]
    rw [he cur] at hlimit
    simp only [Exact, WithinLimit, Settled, hcur, hbytes, hyes, if_true, forall_const]
    constructor
    · rintro ⟨hexact, -⟩
      have := hexact cur
      rw [if_pos rfl, if_pos rfl] at this
      have := u64_lt (s.liveBytes cur + size)
      omega
    · intro hlt
      have hu : u64 (s.liveBytes cur + size) = s.liveBytes cur + size := Nat.mod_eq_of_lt hlt
      rw [hu] at hlimit ⊢
      refine ⟨fun i ↦ ?_, fun hne ↦ ?_⟩
      · rcases eq_or_ne i cur with rfl | hne
        · rw [if_pos rfl, if_pos rfl, Nat.add_comm]
        · rw [if_neg hne, if_neg hne.symm, Nat.zero_add]
      · have := hlimit.resolve_left hne
        omega

theorem exact_kfree_iff (hs : s.Tracked) (he : s.Exact) {cur : ι} {ptr : ℕ} (hop : s.Allowed (.kfree cur ptr)) :
    (s.step (.kfree cur ptr)).Exact ↔ s.Settled (.kfree cur ptr) := by
  obtain ⟨b, hb, rfl⟩ := hop
  have hsettled : s.Settled (.kfree cur b.ptr) ↔ b.owner = cur ∨ b.size = 0 := by
    refine ⟨fun h ↦ h b hb rfl, fun h b' hb' hptr ↦ ?_⟩
    rwa [hs.inj b' hb' b hb hptr]
  have hbytes : ∀ i, (if b.owner = i then b.size else 0) + (s.step (.kfree cur b.ptr)).liveBytes i =
      s.liveBytes i := fun i ↦ by
    rw [kfree_eq hs cur hb]
    exact Finset.add_sum_erase s.live (fun b ↦ if b.owner = i then b.size else 0) hb
  have hcur : ∀ i, ((s.step (.kfree cur b.ptr)).heap.tasks i).memBytesCurrent =
      if i = cur then saturatingSubU64 (s.liveBytes cur) b.size else s.liveBytes i := fun i ↦ by
    rw [kfree_eq hs cur hb, memBytesCurrent_account, tasks_setHdr, he i]
    simp only [taskAccountMemFree, he cur]
  rw [hsettled]
  constructor
  · intro hexact
    by_contra hcon
    rw [not_or] at hcon
    -- the owner keeps a balance for a block that is gone
    have hown := hbytes b.owner
    have hbal := hexact b.owner
    rw [hcur, if_neg hcon.1] at hbal
    rw [if_pos rfl] at hown
    omega
  · intro h i
    have hown := hbytes i
    rw [hcur]
    simp only [saturatingSubU64]
    rcases eq_or_ne i cur with rfl | hne
    · rw [if_pos rfl]
      rcases h with howner | hzero
      · rw [if_pos howner] at hown
        split_ifs <;> omega
      · rw [hzero, ite_self] at hown
        split_ifs <;> omega
    · rw [if_neg hne]
      rcases h with howner | hzero
      · rw [if_neg (by rw [howner]; exact hne.symm)] at hown
        omega
      · rw [hzero, ite_self] at hown
        omega

/-- **One call.** From exact balances, a call leaves exact balances and stays within the limit iff
it meets the condition. -/
theorem exact_step_iff (hs : s.Tracked) (he : s.Exact) {op : MemOp ι} (hop : s.Allowed op) :
    ((s.step op).Exact ∧ s.WithinLimit op) ↔ s.Settled op := by
  cases op with
  | kmalloc cur size answer => exact exact_kmalloc_iff he hop
  | kfree cur ptr => exact (and_iff_left trivial).trans (exact_kfree_iff hs he hop)

theorem Accounted.exact {ops : List (MemOp ι)} (h : s.Accounted ops) : s.Exact := by
  cases ops with
  | nil => exact h
  | cons op ops => exact h.1

theorem accounted_iff (hs : s.Tracked) (he : s.Exact) {ops : List (MemOp ι)}
    (hops : s.Along Allowed ops) : s.Accounted ops ↔ s.Along Settled ops := by
  induction ops generalizing s with
  | nil => exact iff_of_true he trivial
  | cons op ops ih =>
    obtain ⟨hop, hrest⟩ := hops
    have hstep := exact_step_iff hs he hop
    constructor
    · rintro ⟨-, hlimit, hacc⟩
      exact ⟨hstep.1 ⟨hacc.exact, hlimit⟩, (ih (tracked_step hs hop) hacc.exact hrest).1 hacc⟩
    · rintro ⟨hsettled, halong⟩
      obtain ⟨he', hlimit⟩ := hstep.2 hsettled
      exact ⟨he, hlimit, (ih (tracked_step hs hop) he' hrest).2 halong⟩

end MemSys

/-- **When memory accounting is exact.** For any tasks with empty balances and any sequence of calls
by their threads: the balance of every task is the number of bytes in its blocks in every state, and
no call takes it past the limit, **iff** every block is released by a thread of its task (or has
size zero) and no call that returns a block takes the bytes in use of its task to `2^64`. -/
theorem mem_accounting_iff (tasks : ι → Task) (hdrs : ℕ → AllocHdr)
    (hzero : ∀ i, (tasks i).memBytesCurrent = 0) (ops : List (MemOp ι))
    (hops : MemSys.Along MemSys.Allowed ⟨⟨tasks, hdrs⟩, ∅⟩ ops) :
    MemSys.Accounted ⟨⟨tasks, hdrs⟩, ∅⟩ ops ↔ MemSys.Along MemSys.Settled ⟨⟨tasks, hdrs⟩, ∅⟩ ops := by
  refine MemSys.accounted_iff ⟨fun b hb ↦ ?_, fun b hb ↦ ?_⟩ (fun i ↦ ?_) hops
  · exact absurd hb (Finset.notMem_empty b)
  · exact absurd hb (Finset.notMem_empty b)
  · rw [hzero, MemSys.liveBytes, Finset.sum_empty]

def twoTasks : MemSys Bool := ⟨⟨fun _ ↦ taskInit, fun _ ↦ ⟨0, 0⟩⟩, ∅⟩

/-- The first task takes a block of 64 bytes, and task `cur` releases it. -/
def allocThenFree (cur : Bool) : List (MemOp Bool) :=
  [.kmalloc false 64 (some 0x1000), .kfree cur 0x1010]

theorem twoTasks_live : (twoTasks.step (.kmalloc false 64 (some 0x1000))).live = {⟨0x1010, 64, false⟩} := by
  decide +kernel

theorem allowed_allocThenFree (cur : Bool) : twoTasks.Along MemSys.Allowed (allocThenFree cur) := by
  refine ⟨⟨by norm_num, fun hdr _ b hb ↦ absurd hb (Finset.notMem_empty b)⟩, ?_, trivial⟩
  exact ⟨_, Finset.mem_singleton_self _, rfl⟩

/-- The second task releases the block of the first, whose balance of 64 bytes stays. -/
theorem mem_refund_to_wrong_task : twoTasks.Along MemSys.Allowed (allocThenFree true) ∧
    ¬twoTasks.Accounted (allocThenFree true) := by
  refine ⟨allowed_allocThenFree true, fun h ↦ ?_⟩
  have hbalance : (((twoTasks.step (.kmalloc false 64 (some 0x1000))).step
      (.kfree true 0x1010)).heap.tasks false).memBytesCurrent = 64 := by decide +kernel
  have hbytes : ((twoTasks.step (.kmalloc false 64 (some 0x1000))).step
      (.kfree true 0x1010)).liveBytes false = 0 := by decide +kernel
  have hexact := h.2.2.2.2.exact false
  rw [hbalance, hbytes] at hexact
  cases hexact

theorem mem_accounting_own_block : twoTasks.Along MemSys.Allowed (allocThenFree false) ∧
    twoTasks.Accounted (allocThenFree false) := by
  refine ⟨allowed_allocThenFree false, (mem_accounting_iff _ _ (fun _ ↦ rfl) _
    (allowed_allocThenFree false)).2 ⟨fun _ ↦ ?_, fun b hb _ ↦ ?_, trivial⟩⟩
  · exact show twoTasks.liveBytes false + 64 < 2 ^ 64 by decide +kernel
  · have hb : b ∈ (twoTasks.step (.kmalloc false 64 (some 0x1000))).live := hb
    rw [twoTasks_live, Finset.mem_singleton] at hb
    exact .inl (by rw [hb])

end CapazOS
