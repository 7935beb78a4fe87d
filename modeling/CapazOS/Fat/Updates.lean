import CapazOS.Fat.Fat16
import CapazOS.Fat.Wal

/-!
# Sequences of sector updates

Seen from outside the log, an operation is a list of sector updates. `body vol d` is the disk with
the log masked, and `Performed vol dev us dev'` says that the device went from `dev` to `dev'` by
the updates `us`, one history entry each, with the log idle between them if it was idle at the
start.
-/

namespace CapazOS

open List Function

variable {lba : ℕ} {vol : Volume}

variable {ss : ℕ}
variable {us : List (ℕ × Sector ss)}

/-! ### Updates of a disk -/

def applyUpdates (d : Disk ss) (us : List (ℕ × Sector ss)) : Disk ss :=
  us.foldl (fun d u ↦ update d u.1 u.2) d

theorem applyUpdates_cons (d : Disk ss) (u : ℕ × Sector ss) (us : List (ℕ × Sector ss)) :
    applyUpdates d (u :: us) = applyUpdates (update d u.1 u.2) us := rfl

theorem applyUpdates_append (d : Disk ss) (us us' : List (ℕ × Sector ss)) :
    applyUpdates d (us ++ us') = applyUpdates (applyUpdates d us) us' := foldl_append

theorem applyUpdates_of_notMem {d : Disk ss} (h : ∀ u ∈ us, u.1 ≠ lba) : applyUpdates d us lba = d lba := by
  induction us generalizing d with
  | nil => rfl
  | cons u us ih =>
    rw [applyUpdates_cons, ih fun x hx ↦ h x (mem_cons_of_mem _ hx), update_of_ne (h u mem_cons_self).symm]

theorem applyUpdates_of_mem {d : Disk ss} (hnodup : (us.map Prod.fst).Nodup) {u : ℕ × Sector ss} (h : u ∈ us) :
    applyUpdates d us u.1 = u.2 := by
  induction us generalizing d with
  | nil => cases h
  | cons x us ih =>
    obtain ⟨hx, hrest⟩ := nodup_cons.1 hnodup
    rw [applyUpdates_cons]
    rcases mem_cons.1 h with rfl | hmem
    · have hnot : ∀ y ∈ us, y.1 ≠ u.1 := fun y hy heq ↦ hx (heq ▸ mem_map_of_mem hy)
      rw [applyUpdates_of_notMem hnot, update_self]
    · exact ih hrest hmem

/-! ### Sector-sized pieces -/

@[simp] theorem length_padZeros {n : ℕ} {bs : Bytes} (h : bs.length ≤ n) : (padZeros n bs).length = n := by
  rw [padZeros, length_append, length_replicate]
  omega

theorem padZeros_of_length {n : ℕ} {bs : Bytes} (h : bs.length = n) : padZeros n bs = bs := by
  rw [padZeros, h, Nat.sub_self, replicate_zero, append_nil]

/-- Piece number `i` of a byte string, filled up with zeros. -/
def chunk (ss : ℕ) (data : Bytes) (i : ℕ) : Sector ss :=
  ⟨padZeros ss (slice data (i * ss) ss), length_padZeros (by rw [slice]; exact length_take_le ..)⟩

theorem chunk_coe {data : Bytes} {i : ℕ} (h : i * ss + ss ≤ data.length) :
    (chunk ss data i).1 = slice data (i * ss) ss := padZeros_of_length (length_slice h)

/-! ### The disk outside the log -/

def Volume.OnLog (vol : Volume) (lba : ℕ) : Prop :=
  vol.walStartLBA ≠ 0 ∧ (lba = vol.walStartLBA ∨ lba = vol.walStartLBA + 1)

instance (vol : Volume) (lba : ℕ) : Decidable (vol.OnLog lba) := inferInstanceAs (Decidable (_ ∧ _))

/-- The disk with its log masked. -/
def body (vol : Volume) (d : Disk ss) : Disk ss :=
  fun lba ↦ if vol.OnLog lba then zeroSector ss else d lba

theorem body_of_not_onLog (h : ¬vol.OnLog lba) (d : Disk ss) : body vol d lba = d lba := if_neg h

theorem body_update (h : ¬vol.OnLog lba) (d : Disk ss) (s : Sector ss) :
    body vol (update d lba s) = update (body vol d) lba s := by
  funext x
  simp only [body, update_apply]
  split_ifs with hlog hx
  · exact absurd (hx ▸ hlog) h
  · rfl
  · rfl
  · rfl

/-- No logged write is pending. -/
def Idle (vol : Volume) (d : Disk ss) : Prop :=
  vol.walStartLBA ≠ 0 → ¬WalPrepared (d vol.walStartLBA).1

/-- One update of the disk outside the log. -/
structure Updated (vol : Volume) (dev : Dev ss) (u : ℕ × Sector ss) (dev' : Dev ss) : Prop where
  past : dev'.past = dev.disk :: dev.past
  body_eq : body vol dev'.disk = update (body vol dev.disk) u.1 u.2
  idle : Idle vol dev.disk → Idle vol dev'.disk

/-- A sequence of updates of the disk outside the log. -/
inductive Performed (vol : Volume) : Dev ss → List (ℕ × Sector ss) → Dev ss → Prop
  | nil {dev : Dev ss} : Performed vol dev [] dev
  | cons {dev dev₁ dev' : Dev ss} {u : ℕ × Sector ss} {us : List (ℕ × Sector ss)} :
      Updated vol dev u dev₁ → Performed vol dev₁ us dev' → Performed vol dev (u :: us) dev'

namespace Performed

variable {dev dev₁ dev' : Dev ss} {us' : List (ℕ × Sector ss)}

theorem single {u : ℕ × Sector ss} (h : Updated vol dev u dev') : Performed vol dev [u] dev' :=
  .cons h .nil

theorem append (h : Performed vol dev us dev₁) (h' : Performed vol dev₁ us' dev') :
    Performed vol dev (us ++ us') dev' := by
  induction h with
  | nil => exact h'
  | cons hu _ ih => exact .cons hu (ih h')

theorem body_eq (h : Performed vol dev us dev') : body vol dev'.disk = applyUpdates (body vol dev.disk) us := by
  induction h with
  | nil => rfl
  | cons hu _ ih => rw [ih, hu.body_eq, applyUpdates_cons]

theorem idle (h : Performed vol dev us dev') (hidle : Idle vol dev.disk) : Idle vol dev'.disk := by
  induction h with
  | nil => exact hidle
  | cons hu _ ih => exact ih (hu.idle hidle)

end Performed

/-! ### Single writes -/

/-- `put` updates any sector of the device outside the log. -/
def Puts (block : BlockDevice ss) (vol : Volume) (put : ℕ → Bytes → Dev ss → Bool × Dev ss) : Prop :=
  ∀ (lba : ℕ) (s : Sector ss) (dev : Dev ss), lba < block.capacitySectors → ¬vol.OnLog lba →
    ∃ dev', put lba s.1 dev = (true, dev') ∧ Updated vol dev (lba, s) dev'

section

variable {ty : FatType} {block : BlockDevice ss}

theorem puts_write (block : BlockDevice ss) (vol : Volume) :
    Puts block vol fun lba data dev ↦ block.write dev lba data := by
  intro lba s dev hlba hlog
  refine ⟨_, BlockDevice.write_sector hlba s, rfl, body_update hlog dev.disk s, fun hidle hwal ↦ ?_⟩
  have hne : vol.walStartLBA ≠ lba := fun heq ↦ hlog ⟨hwal, .inl heq.symm⟩
  show ¬WalPrepared (update dev.disk lba s vol.walStartLBA).1
  rw [update_of_ne hne]
  exact hidle hwal

theorem puts_wal (hm : Mountable ty block vol) (hwal : vol.walStartLBA ≠ 0) :
    Puts block vol fun lba data dev ↦ dev.unit (walWriteSector ty block vol lba data) := by
  intro lba s dev hlba hlog
  have ht : WalTarget block vol lba := ⟨hlba, fun heq ↦ hlog ⟨hwal, .inl heq⟩, fun heq ↦ hlog ⟨hwal, .inr heq⟩⟩
  have heq := walWriteSector_eq hm hwal hlba s (Dev.start dev.disk)
  refine ⟨dev.put (walDisk₄ ty vol lba s dev.disk), ?_, rfl, ?_, fun _ _ ↦ ?_⟩
  · simp only [Dev.unit, heq]
    rfl
  · funext x
    show body vol (walDisk₄ ty vol lba s dev.disk) x = _
    rw [update_apply]
    simp only [body]
    split_ifs with hx hxt hxt
    · exact absurd (hxt ▸ hx) hlog
    · rfl
    · rw [walDisk₄_apply ht, if_pos hxt]
    · rw [walDisk₄_apply ht, if_neg hxt, if_neg fun h ↦ hx ⟨hwal, .inl h⟩, if_neg fun h ↦ hx ⟨hwal, .inr h⟩]
  · have hzero : walDisk₄ ty vol lba s dev.disk vol.walStartLBA = zeroSector ss := update_self ..
    show ¬WalPrepared (walDisk₄ ty vol lba s dev.disk vol.walStartLBA).1
    rw [hzero]
    exact not_prepared_zero ss

theorem puts_fat16Put (hm : Mountable .fat16 block vol) (safe : Bool) :
    Puts block vol (fat16Put block vol safe false) := by
  intro lba s dev hlba hlog
  cases safe with
  | false => exact puts_write block vol lba s dev hlba hlog
  | true =>
    rcases eq_or_ne vol.walStartLBA 0 with hzero | hwal
    · -- without a log the safe write is a direct one, again as one update
      obtain ⟨dev', hput, hu⟩ := puts_write block vol lba s (Dev.start dev.disk) hlba hlog
      refine ⟨dev.put dev'.disk, ?_, rfl, hu.body_eq, hu.idle⟩
      simp [fat16Put, walWriteSector16, Dev.unit, hzero, hput]
    · exact puts_wal hm hwal lba s dev hlba hlog

theorem putAll_performed {put : ℕ → Bytes → Dev ss → Bool × Dev ss} (hput : Puts block vol put)
    (hus : ∀ u ∈ us, u.1 < block.capacitySectors ∧ ¬vol.OnLog u.1) (dev : Dev ss) :
    ∃ dev', putAll put (us.map fun u ↦ (u.1, u.2.1)) dev = (true, dev') ∧ Performed vol dev us dev' := by
  induction us generalizing dev with
  | nil => exact ⟨dev, rfl, .nil⟩
  | cons u us ih =>
    obtain ⟨hlba, hlog⟩ := hus u mem_cons_self
    obtain ⟨dev₁, hput₁, hu⟩ := hput u.1 u.2 dev hlba hlog
    obtain ⟨dev', hrest, hperf⟩ := ih (fun x hx ↦ hus x (mem_cons_of_mem _ hx)) dev₁
    refine ⟨dev', ?_, .cons hu hperf⟩
    rw [map_cons, putAll, hput₁]
    exact hrest

end

end CapazOS
