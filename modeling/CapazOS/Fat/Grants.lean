import CapazOS.Fat.Store32

/-!
# The order of grants

A task may read a path when **some** of its capabilities and **some** of its contracts allow it.
Writes look at the policy of the **first** contract with the write right and at no other: it decides
whether the write is denied, logged or direct. So the order of the contracts matters exactly when
two of them decide differently (`grants_order_iff`).
-/

namespace CapazOS

open List

variable {env : CapEnv} {task task' : TaskContext} {path : NormalizedPath} {rights : UInt32}

/-- The policies of the contracts of a task that carry some rights, in the order of the
contracts. -/
def TaskContext.policies (task : TaskContext) (env : CapEnv) (rights : UInt32) : List UInt32 :=
  task.contractIds.filterMap fun id ↦
    match env.contract id with
    | some (r, policy) => if r &&& rights = rights then some policy else none
    | none => none

/-- What a policy of a write contract decides: the mode of the write, `none` if it is denied. -/
def policyMode (env : CapEnv) (task : TaskContext) (path : NormalizedPath) (policy : UInt32) : Option Bool :=
  if policy = fat32PolicyBackground then none
  else if policy = fat32PolicySafe then
    if task.canWriteFileSafe env path.flat then some true else none
  else if task.canWriteFileFast env path.flat then some false else none

theorem contractPolicy_eq_head? (task : TaskContext) (env : CapEnv) (rights : UInt32) :
    task.contractPolicy env rights = (task.policies env rights).head? := head?_filterMap.symm

theorem writeMode_eq (env : CapEnv) (task : TaskContext) (path : NormalizedPath) : writeMode env task path =
      (task.policies env fat32ContractRWrite).head?.bind (policyMode env task path) := by
  rw [writeMode, contractPolicy_eq_head?]
  cases (task.policies env fat32ContractRWrite).head? <;> rfl

section

variable (hcaps : task'.capIds ~ task.capIds) (hcontracts : task'.contractIds ~ task.contractIds)

include hcaps in
theorem hasRights_perm (path : Bytes) (rights : UInt32) :
    task'.hasRights env path rights = task.hasRights env path rights := hcaps.any_eq

include hcaps in
theorem policyMode_perm (policy : UInt32) : policyMode env task' path policy = policyMode env task path policy := by
  have hsafe : task'.canWriteFileSafe env path.flat = task.canWriteFileSafe env path.flat := hasRights_perm hcaps _ _
  have hfast : task'.canWriteFileFast env path.flat = task.canWriteFileFast env path.flat := hasRights_perm hcaps _ _
  rw [policyMode, policyMode, hsafe, hfast]

include hcontracts in
theorem policies_perm : task'.policies env rights ~ task.policies env rights :=
  hcontracts.filterMap _

include hcaps hcontracts in
theorem mayRead_perm : MayRead env task' path ↔ MayRead env task path := by
  simp only [MayRead, TaskContext.canReadFile, hasRights_perm hcaps, TaskContext.hasContract,
    contractPolicy_eq_head?, isSome_head?, ← length_pos_iff, (policies_perm hcontracts).length_eq]

end

theorem exists_perm_first {policy : UInt32} (h : policy ∈ task.policies env rights) :
    ∃ ids, ids ~ task.contractIds ∧ (TaskContext.policies ⟨task.capIds, ids⟩ env rights).head? = some policy := by
  obtain ⟨id, hid, hpolicy⟩ := mem_filterMap.1 h
  refine ⟨id :: task.contractIds.erase id, (perm_cons_erase hid).symm, ?_⟩
  simp [TaskContext.policies, hpolicy]

/-- **Authorisation is independent of the order of the grants iff the write contracts of the task
all decide alike**: reading is so in any case. -/
theorem grants_order_iff (env : CapEnv) (task : TaskContext) (path : NormalizedPath) :
    (∀ task' : TaskContext, task'.capIds ~ task.capIds → task'.contractIds ~ task.contractIds →
        (MayRead env task' path ↔ MayRead env task path) ∧ writeMode env task' path = writeMode env task path) ↔
      ∀ p ∈ task.policies env fat32ContractRWrite, ∀ q ∈ task.policies env fat32ContractRWrite,
        policyMode env task path p = policyMode env task path q := by
  constructor
  · intro hall
    have hfirst : ∀ p ∈ task.policies env fat32ContractRWrite,
        policyMode env task path p = writeMode env task path := by
      intro p hp
      obtain ⟨ids, hperm, hhead⟩ := exists_perm_first hp
      have hmode := (hall ⟨task.capIds, ids⟩ (.refl _) hperm).2
      rw [writeMode_eq, hhead, Option.bind_some] at hmode
      exact hmode
    exact fun p hp q hq ↦ (hfirst p hp).trans (hfirst q hq).symm
  · intro hsame task' hcaps hcontracts
    refine ⟨mayRead_perm hcaps hcontracts, ?_⟩
    have hperm : task'.policies env fat32ContractRWrite ~ task.policies env fat32ContractRWrite :=
      policies_perm hcontracts
    rw [writeMode_eq, writeMode_eq]
    rcases hp : (task'.policies env fat32ContractRWrite).head? with - | p
    · rw [head?_eq_none_iff.1 hp] at hperm
      rw [nil_perm.1 hperm]
      rfl
    rcases hq : (task.policies env fat32ContractRWrite).head? with - | q
    · rw [head?_eq_none_iff.1 hq, perm_nil] at hperm
      rw [hperm] at hp
      cases hp
    · rw [Option.bind_some, Option.bind_some, policyMode_perm hcaps]
      exact hsame p (hperm.subset (mem_of_head? hp)) q (mem_of_head? hq)

/-- A capability for logged writes to `A`; contract 1 is for background work, contract 2 for logged
writes. -/
def orderEnv : CapEnv :=
  { fileCaps := [⟨1, capRFileWriteSafe, [0x41]⟩]
    contract := fun id ↦
      if id = 1 then some (fat32ContractRWrite, fat32PolicyBackground)
      else if id = 2 then some (fat32ContractRWrite, fat32PolicySafe) else none }

/-- **The order of two contracts decides whether a write is denied.** -/
theorem grants_order_matters : writeMode orderEnv ⟨[1], [1, 2]⟩ ⟨[0x41], [[0x41]], false⟩ = none ∧
      writeMode orderEnv ⟨[1], [2, 1]⟩ ⟨[0x41], [[0x41]], false⟩ = some true := by
  decide +kernel

end CapazOS
