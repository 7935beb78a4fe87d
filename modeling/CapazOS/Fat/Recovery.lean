import CapazOS.Fat.Flat

/-!
# Logged writes, crashes and mounts

A crash may stop a logged write after any of its sector writes; the volume is then mounted again,
which replays its log. With the header written **the payload of an earlier operation is still in the
log**, and the replay writes it over the target, so a logged write is atomic exactly when that
payload is the old or the new content of the target (`wal_crash_atomic_iff`). A crash may also hit
the replay, any number of times before a mount gets through: what a **completed** write stored
survives all that (`logged_writes_durable`).

Targets lie in the tables or behind them, as those of all file operations do. The volume is then
found again on every disk a cut-off write leaves (`CutOff.anchored`), because finding it reads none
of these sectors.
-/

namespace CapazOS

open List Function

variable {ss : ℕ} {block : BlockDevice ss} {vol : Volume} {d d' d₁ : Disk ss} {t : ℕ} {data : Sector ss}

/-! ### Disks of a write that was cut off -/

/-- A sector that file operations write through the log. -/
structure LogTarget (vol : Volume) (t : ℕ) : Prop where
  /-- It is not before the tables, -/
  ge : vol.fatStartLBA ≤ t
  /-- nor behind the volume. -/
  lt : t < vol.baseLBA + vol.totalSectors

/-- `d₁` is what `d` can have become by a write to `t` that was cut off. -/
structure CutOff (vol : Volume) (t : ℕ) (d d₁ : Disk ss) : Prop where
  /-- The log announces no other target, -/
  target : ∀ t' ∈ replayTarget vol.fatType vol d₁, t' = t
  /-- and nothing outside the log and the target has changed. -/
  frame : ∀ lba, lba ≠ t → lba ≠ vol.walStartLBA → lba ≠ vol.walStartLBA + 1 → d₁ lba = d lba

theorem replayTarget_of_zero {ty : FatType} (h : d vol.walStartLBA = zeroSector ss) :
    replayTarget ty vol d = none :=
  replayTarget_of_not_prepared (h ▸ not_prepared_zero ss)

theorem CutOff.anchored (h : CutOff vol t d d₁) (hwal : vol.walStartLBA ≠ 0) (ht : LogTarget vol t)
    (hanchor : Anchored block vol d) : Anchored block vol d₁ := by
  refine hanchor.of_agree fun lba hlba ↦ h.frame lba ?_ ?_ ?_
  · exact fun heq ↦ hlba (.inr (heq ▸ ⟨ht.ge, ht.lt⟩))
  · exact fun heq ↦ hlba (.inl ⟨hwal, .inl heq⟩)
  · exact fun heq ↦ hlba (.inl ⟨hwal, .inr heq⟩)

/-- What a mount of `d₁` leaves in the target `t` of the write that was cut off. -/
def restored (vol : Volume) (t : ℕ) (d₁ : Disk ss) : Sector ss :=
  if replayTarget vol.fatType vol d₁ = none then d₁ t else d₁ (vol.walStartLBA + 1)

/-- After a crash that left `d'`, a mount finds the volume and leaves a disk on which the target of
the write holds its old content `d target` or the new `data`, and every other sector outside the log
is as in `d`. -/
def WalRecovers (block : BlockDevice ss) (vol : Volume) (target : ℕ) (data : Sector ss) (d d' : Disk ss) : Prop :=
  ∃ dev, mount vol.fatType block (Dev.start d') = some (some vol, dev) ∧
    (dev.disk target = d target ∨ dev.disk target = data) ∧
    ∀ lba, lba ≠ target → lba ≠ vol.walStartLBA → lba ≠ vol.walStartLBA + 1 → dev.disk lba = d lba

section

variable (hm : Mountable vol.fatType block vol) (hwal : vol.walStartLBA ≠ 0) (ht : LogTarget vol t)
include hm hwal ht

theorem LogTarget.walTarget : WalTarget block vol t := by
  have hge := ht.ge
  have hlog := hm.wal hwal
  exact ⟨ht.lt.trans_le hm.bounds.2.2.2.1, by omega, by omega⟩

theorem replayTarget_of_header (h : d vol.walStartLBA = walHeaderSector vol.fatType ss t) :
    replayTarget vol.fatType vol d = some t := by
  have hpending := walPending_header hm (ht.walTarget hm hwal).lt
  have hpos : t ≠ 0 := by
    have := hm.wal hwal
    have := ht.ge
    omega
  rw [replayTarget, if_neg hwal, hm.bounds.1, h, hpending, Option.filter_some, if_pos (by simp [hpos])]

theorem cutOff_of_header (d : Disk ss) (h : d₁ vol.walStartLBA = walHeaderSector vol.fatType ss t)
    (hframe : ∀ lba, lba ≠ t → lba ≠ vol.walStartLBA → lba ≠ vol.walStartLBA + 1 → d₁ lba = d lba) :
    CutOff vol t d d₁ ∧ restored vol t d₁ = d₁ (vol.walStartLBA + 1) := by
  have htarget := replayTarget_of_header hm hwal ht h
  refine ⟨⟨fun t' ht' ↦ ?_, hframe⟩, ?_⟩
  · rw [htarget] at ht'
    exact (Option.some.inj ht').symm
  · rw [restored, htarget, if_neg (by simp)]

/-- The cut after the header: the payload is still the old one. -/
theorem restored_walDisk₁ : restored vol t (walDisk₁ vol.fatType vol t d) = d (vol.walStartLBA + 1) := by
  have hheader : walDisk₁ vol.fatType vol t d vol.walStartLBA = walHeaderSector vol.fatType ss t := update_self ..
  rw [(cutOff_of_header hm hwal ht d hheader fun lba _ h₀ _ ↦ update_of_ne h₀ ..).2, walDisk₁, update_of_ne (by omega)]

theorem walDisk₁_mem_states (data : Sector ss) (d : Disk ss) : walDisk₁ vol.fatType vol t d ∈
    (walWriteSector vol.fatType block vol t data.1 (Dev.start d)).2.states := by
  rw [walWriteSector_eq hm hwal (ht.walTarget hm hwal).lt]
  simp [Dev.states, Dev.put, Dev.start]

/-- **Every disk that a logged write leads through** is a cut-off one, and a mount restores the old
content of the target, its new content or the payload that was in the log before. -/
theorem cutOff_of_mem_states (hidle : replayTarget vol.fatType vol d = none)
    (hd₁ : d₁ ∈ (walWriteSector vol.fatType block vol t data.1 (Dev.start d)).2.states) : CutOff vol t d d₁ ∧
      (restored vol t d₁ = d t ∨ restored vol t d₁ = data ∨ restored vol t d₁ = d (vol.walStartLBA + 1)) := by
  have ht' := ht.walTarget hm hwal
  have hne := ht'.ne_header.symm
  rw [walWriteSector_eq hm hwal ht'.lt] at hd₁
  simp only [Dev.states, Dev.put, Dev.start, mem_cons, not_mem_nil, or_false] at hd₁
  rcases hd₁ with rfl | rfl | rfl | rfl | rfl
  · have hzero : replayTarget vol.fatType vol (walDisk₄ vol.fatType vol t data d) = none :=
      replayTarget_of_zero (update_self ..)
    refine ⟨⟨by simp [hzero], fun lba h h₀ h₁ ↦ ?_⟩, .inr (.inl ?_)⟩
    · rw [walDisk₄_apply ht', if_neg h, if_neg h₀, if_neg h₁]
    · rw [restored, if_pos hzero, walDisk₄_apply ht', if_pos rfl]
  · have hheader : walDisk₃ vol.fatType vol t data d vol.walStartLBA = walHeaderSector vol.fatType ss t := by
      simp [walDisk₃, walDisk₂, walDisk₁, hne]
    obtain ⟨hcut, hrestored⟩ := cutOff_of_header hm hwal ht d hheader fun lba h h₀ h₁ ↦ by
      simp [walDisk₃, walDisk₂, walDisk₁, h, h₀, h₁]
    exact ⟨hcut, .inr (.inl (by rw [hrestored, walDisk₃, update_of_ne ht'.ne_payload.symm, walDisk₂, update_self]))⟩
  · have hheader : walDisk₂ vol.fatType vol t data d vol.walStartLBA = walHeaderSector vol.fatType ss t := by
      simp [walDisk₂, walDisk₁]
    obtain ⟨hcut, hrestored⟩ := cutOff_of_header hm hwal ht d hheader fun lba _ h₀ h₁ ↦ by
      simp [walDisk₂, walDisk₁, h₀, h₁]
    exact ⟨hcut, .inr (.inl (by rw [hrestored, walDisk₂, update_self]))⟩
  · exact ⟨(cutOff_of_header hm hwal ht d (update_self ..) fun lba _ h₀ _ ↦ update_of_ne h₀ ..).1,
      .inr (.inr (restored_walDisk₁ hm hwal ht))⟩
  · exact ⟨⟨by simp [hidle], fun _ _ _ _ ↦ rfl⟩, .inl (if_pos hidle)⟩

/-- **A mount of a cut-off disk** finds the volume and leaves an idle log, and every disk it leads
through is a cut-off one. -/
theorem CutOff.mount_eq (h : CutOff vol t d d₁) (hanchor : Anchored block vol d) :
    ∃ dev, mount vol.fatType block (Dev.start d₁) = some (some vol, dev) ∧
      replayTarget vol.fatType vol dev.disk = none ∧ dev.disk t = restored vol t d₁ ∧
      ∀ d' ∈ dev.states, CutOff vol t d d' := by
  have ht' := ht.walTarget hm hwal
  rw [mount_eq_replay hm (h.anchored hwal ht hanchor), walReplay_eq hm, restored]
  rcases htarget : replayTarget vol.fatType vol d₁ with - | t'
  · rw [show replayTarget vol.fatType vol (Dev.start d₁).disk = none from htarget]
    exact ⟨_, rfl, htarget, (if_pos rfl).symm, fun d' hd' ↦ mem_singleton.1 hd' ▸ h⟩
  obtain rfl := h.target t' htarget
  rw [show replayTarget vol.fatType vol (Dev.start d₁).disk = some t' from htarget, Option.elim_some,
    walReplayWrites_eq hm hwal ht'.lt, if_neg (by simp)]
  have hzero : replayTarget vol.fatType vol (walReplayed vol t' d₁) = none := replayTarget_of_zero (update_self ..)
  refine ⟨_, rfl, hzero, ?_, fun d' hd' ↦ ?_⟩
  · exact (update_of_ne ht'.ne_header ..).trans (update_self ..)
  simp only [Dev.states, Dev.put, Dev.start, mem_cons, not_mem_nil, or_false] at hd'
  rcases hd' with rfl | rfl | rfl
  · refine ⟨by simp [hzero], fun lba hlba h₀ h₁ ↦ ?_⟩
    rw [walReplayed, update_of_ne h₀, update_of_ne hlba, h.frame lba hlba h₀ h₁]
  · -- the payload is written, and the header still announces the target
    refine ⟨fun t ht ↦ h.target t ?_, fun lba hlba h₀ h₁ ↦ ?_⟩
    · rwa [replayTarget, update_of_ne ht'.ne_header.symm] at ht
    · rw [update_of_ne hlba, h.frame lba hlba h₀ h₁]
  · exact h

theorem CutOff.recovers_iff (h : CutOff vol t d d₁) (hanchor : Anchored block vol d) :
    WalRecovers block vol t data d d₁ ↔ restored vol t d₁ = d t ∨ restored vol t d₁ = data := by
  obtain ⟨dev, hmount, -, htarget, hcut⟩ := h.mount_eq hm hwal ht hanchor
  simp only [WalRecovers, hmount, Option.some.injEq, Prod.mk.injEq, true_and, exists_eq_left', htarget]
  exact and_iff_left (hcut _ mem_cons_self).frame

end

/-! ### Atomicity -/

/-- **Crash atomicity of a logged write, exactly.** Cut `walWriteSector` off after any prefix of its
sector writes and mount the volume again: the target then holds its old or its new content, and
nothing else outside the log has changed, for every cut **if and only if** the payload sector
already held the old or the new content of the target before the call. -/
theorem wal_crash_atomic_iff {block : BlockDevice ss} {vol : Volume} (hm : Mountable vol.fatType block vol)
    (hwal : vol.walStartLBA ≠ 0) {d : Disk ss} (hanchor : Anchored block vol d)
    (hclean : ¬WalPrepared (d vol.walStartLBA).1) {target : ℕ} (ht : LogTarget vol target) (data : Sector ss) :
    (∀ d' ∈ (walWriteSector vol.fatType block vol target data.1 (Dev.start d)).2.states,
      WalRecovers block vol target data d d') ↔
      d (vol.walStartLBA + 1) = d target ∨ d (vol.walStartLBA + 1) = data := by
  have hidle : replayTarget vol.fatType vol d = none := replayTarget_of_not_prepared hclean
  constructor
  · intro hall
    have hmem := walDisk₁_mem_states hm hwal ht data d
    have hcut := (cutOff_of_mem_states hm hwal ht hidle hmem).1
    have hrecovers := (hcut.recovers_iff hm hwal ht hanchor).1 (hall _ hmem)
    rwa [restored_walDisk₁ hm hwal ht] at hrecovers
  · intro hpayload d' hd'
    obtain ⟨hcut, hrestored⟩ := cutOff_of_mem_states hm hwal ht hidle hd'
    rw [hcut.recovers_iff hm hwal ht hanchor]
    rcases hrestored with h | h | h
    · exact .inl h
    · exact .inr h
    · rwa [h]

theorem disk16_target : LogTarget vol16 100 := ⟨by decide, by decide⟩

/-- The small volume without files, whose payload sector holds `0xAA` bytes. -/
def staleDisk : Disk 512 := update (disk16 (filled 0) (filled 0)) 15 (filled 0xAA)

theorem staleDisk_anchored : Anchored block16 vol16 staleDisk :=
  anchored_of_boot (by decide) (by rw [Volume.Owned, Volume.OnLog]; decide) parse_boot16

theorem staleDisk_idle : ¬WalPrepared (staleDisk vol16.walStartLBA).1 := not_prepared_zero 512

/-- Cut after the header, a write of `0x55` bytes to sector 100, which holds zeros, leaves `0xAA`
bytes there when the volume is mounted again. -/
theorem wal_stale_payload : mount .fat16 block16 (Dev.start staleDisk) = some (some vol16, Dev.start staleDisk) ∧
    vol16.walStartLBA ≠ 0 ∧ ¬WalPrepared (staleDisk vol16.walStartLBA).1 ∧ LogTarget vol16 100 ∧
    staleDisk 100 = filled 0 ∧
    ∃ d' ∈ (walWriteSector .fat16 block16 vol16 100 (filled 0x55).1 (Dev.start staleDisk)).2.states,
      (∃ dev, mount .fat16 block16 (Dev.start d') = some (some vol16, dev) ∧ dev.disk 100 = filled 0xAA) ∧
        ¬WalRecovers block16 vol16 100 (filled 0x55) staleDisk d' := by
  have hm := vol16_mountable
  have hwal : vol16.walStartLBA ≠ 0 := by decide
  have ht := disk16_target
  have hold : staleDisk 100 = filled 0 := rfl
  have hidle : replayTarget .fat16 vol16 staleDisk = none := replayTarget_of_not_prepared staleDisk_idle
  have hmount₀ : mount vol16.fatType block16 (Dev.start staleDisk) = some (some vol16, Dev.start staleDisk) :=
    mount_eq hm staleDisk_anchored fun _ ↦ staleDisk_idle
  refine ⟨hmount₀, hwal, staleDisk_idle, ht, hold, walDisk₁ .fat16 vol16 100 staleDisk, ?_⟩
  have hmem := walDisk₁_mem_states hm hwal ht (filled 0x55) staleDisk
  have hcut : CutOff vol16 100 staleDisk (walDisk₁ .fat16 vol16 100 staleDisk) :=
    (cutOff_of_mem_states hm hwal ht hidle hmem).1
  have hstale : restored vol16 100 (walDisk₁ .fat16 vol16 100 staleDisk) = filled 0xAA :=
    (restored_walDisk₁ hm hwal ht).trans (update_self ..)
  obtain ⟨dev, hmount, -, htarget, -⟩ := hcut.mount_eq hm hwal ht staleDisk_anchored
  refine ⟨hmem, ⟨dev, hmount, htarget.trans hstale⟩, ?_⟩
  rw [hcut.recovers_iff hm hwal ht staleDisk_anchored, hstale, hold]
  rintro (h | h)
  · exact filled_ne (by decide) h
  · exact filled_ne (by decide) h

theorem wal_crash_atomic_disk16 :
    mount .fat16 block16 (Dev.start (disk16 (filled 0) (filled 0))) =
        some (some vol16, Dev.start (disk16 (filled 0) (filled 0))) ∧
      ∀ d' ∈ (walWriteSector .fat16 block16 vol16 100 (filled 0x55).1
          (Dev.start (disk16 (filled 0) (filled 0)))).2.states,
        WalRecovers block16 vol16 100 (filled 0x55) (disk16 (filled 0) (filled 0)) d' :=
  ⟨disk16_mount _ _, (wal_crash_atomic_iff vol16_mountable (by decide) (disk16_anchored _ _)
    (disk16_idle _ _ (by decide)) disk16_target (filled 0x55)).2 (.inl rfl)⟩

/-! ### Durability -/

/-- A logged write that completes, or one that is cut off, after which the volume is mounted
again. -/
inductive LogEvent (ss : ℕ) where
  | write (t : ℕ) (data : Sector ss)
  | crash (t : ℕ) (data : Sector ss)

/-- What is known of a sector after an event; `none` if it is the target of a write that was cut
off. -/
def LogEvent.settle (lba : ℕ) (known : Option (Sector ss)) : LogEvent ss → Option (Sector ss)
  | .write t data => if lba = t then some data else known
  | .crash t _ => if lba = t then none else known

section

variable (block : BlockDevice ss) (vol : Volume)

/-- Mounts of `d`, of which the last one gets through, leave `d'`. -/
inductive Recovers : Disk ss → Disk ss → Prop
  | done {d vol? dev} (h : mount vol.fatType block (Dev.start d) = some (vol?, dev)) : Recovers d dev.disk
  | crash {d vol? dev d₁ d'} (h : mount vol.fatType block (Dev.start d) = some (vol?, dev))
    (hcut : d₁ ∈ dev.states) (hrest : Recovers d₁ d') : Recovers d d'

/-- The disks that runs of logged writes, crashes and mounts lead to. -/
inductive LogRun (d : Disk ss) : List (LogEvent ss) → Disk ss → Prop
  | start : LogRun d [] d
  | write {evs d'} (t data) (hrun : LogRun d evs d') (ht : LogTarget vol t) :
    LogRun d (evs ++ [.write t data]) (walWriteSector vol.fatType block vol t data.1 (Dev.start d')).2.disk
  | crash {evs d' d₁ d''} (t data) (hrun : LogRun d evs d') (ht : LogTarget vol t)
    (hcut : d₁ ∈ (walWriteSector vol.fatType block vol t data.1 (Dev.start d')).2.states)
    (hmount : Recovers block vol d₁ d'') : LogRun d (evs ++ [.crash t data]) d''

end

theorem CutOff.recovers (h : CutOff vol t d d₁) (hm : Mountable vol.fatType block vol)
    (hwal : vol.walStartLBA ≠ 0) (ht : LogTarget vol t) (hanchor : Anchored block vol d)
    (hmount : Recovers block vol d₁ d') : replayTarget vol.fatType vol d' = none ∧ CutOff vol t d d' := by
  induction hmount with
  | done hdev =>
    obtain ⟨dev, heq, hidle, -, hcut⟩ := h.mount_eq hm hwal ht hanchor
    obtain ⟨-, rfl⟩ := Prod.mk.inj (Option.some.inj (heq.symm.trans hdev))
    exact ⟨hidle, hcut _ mem_cons_self⟩
  | crash hdev hmem _ ih =>
    obtain ⟨dev, heq, -, -, hcut⟩ := h.mount_eq hm hwal ht hanchor
    obtain ⟨-, rfl⟩ := Prod.mk.inj (Option.some.inj (heq.symm.trans hdev))
    exact ih (hcut _ hmem)

/-- What a run of logged writes, crashes and mounts keeps. -/
theorem LogRun.settled (hm : Mountable vol.fatType block vol) (hwal : vol.walStartLBA ≠ 0)
    (hanchor : Anchored block vol d) (hidle : replayTarget vol.fatType vol d = none) {evs : List (LogEvent ss)}
    (hrun : LogRun block vol d evs d') :
    Anchored block vol d' ∧ replayTarget vol.fatType vol d' = none ∧
      ∀ lba, lba ≠ vol.walStartLBA → lba ≠ vol.walStartLBA + 1 →
        ∀ v ∈ evs.foldl (LogEvent.settle lba) (some (d lba)), d' lba = v := by
  induction hrun with
  | start => exact ⟨hanchor, hidle, fun lba _ _ v hv ↦ Option.some.inj hv⟩
  | @write _ d₁ t data _ ht ih =>
    obtain ⟨hanchor', hidle', hknown⟩ := ih
    have ht' := ht.walTarget hm hwal
    have hmem : _ ∈ (walWriteSector vol.fatType block vol t data.1 (Dev.start d₁)).2.states := mem_cons_self
    have hcut := (cutOff_of_mem_states hm hwal ht hidle' hmem).1
    refine ⟨hcut.anchored hwal ht hanchor', ?_, fun lba h₀ h₁ v hv ↦ ?_⟩
    · rw [walWriteSector_eq hm hwal ht'.lt]
      exact replayTarget_of_zero (update_self ..)
    rw [foldl_append, foldl_cons, foldl_nil, LogEvent.settle] at hv
    split at hv
    · next heq =>
      rw [walWriteSector_eq hm hwal ht'.lt]
      exact (walDisk₄_apply ht' ..).trans ((if_pos heq).trans (Option.some.inj hv))
    · next hne => rw [hcut.frame lba hne h₀ h₁, hknown lba h₀ h₁ v hv]
  | crash t data _ ht hmem hmount ih =>
    obtain ⟨hanchor', hidle', hknown⟩ := ih
    obtain ⟨hidle'', hcut⟩ :=
      (cutOff_of_mem_states hm hwal ht hidle' hmem).1.recovers hm hwal ht hanchor' hmount
    refine ⟨hcut.anchored hwal ht hanchor', hidle'', fun lba h₀ h₁ v hv ↦ ?_⟩
    rw [foldl_append, foldl_cons, foldl_nil, LogEvent.settle] at hv
    split at hv
    · cases hv
    · next hne => rw [hcut.frame lba hne h₀ h₁, hknown lba h₀ h₁ v hv]

/-- **Logged writes are durable.** After any run of logged writes, of crashes at any point of a
write or a mount, and of mounts, the volume is found with nothing to replay, and a sector outside
the log holds the data of the last write to it, or what it held before the run if there was none,
unless that write was cut off. -/
theorem logged_writes_durable (hm : Mountable vol.fatType block vol) (hwal : vol.walStartLBA ≠ 0)
    (hanchor : Anchored block vol d) (hidle : replayTarget vol.fatType vol d = none) {evs : List (LogEvent ss)}
    (hrun : LogRun block vol d evs d') :
    mount vol.fatType block (Dev.start d') = some (some vol, Dev.start d') ∧
      ∀ lba, lba ≠ vol.walStartLBA → lba ≠ vol.walStartLBA + 1 →
        ∀ v ∈ evs.foldl (LogEvent.settle lba) (some (d lba)), d' lba = v := by
  obtain ⟨hanchor', hidle', hknown⟩ := hrun.settled hm hwal hanchor hidle
  refine ⟨?_, hknown⟩
  rw [mount_eq_replay hm hanchor', walReplay_eq hm, show replayTarget vol.fatType vol (Dev.start d').disk = none from hidle']
  rfl

theorem logged_writes_durable_crash : ∃ d', LogRun block16 vol16 (disk16 (filled 0) (filled 0))
      [.write 100 (filled 0x55), .crash 101 (filled 0xAA)] d' ∧
    mount .fat16 block16 (Dev.start d') = some (some vol16, Dev.start d') ∧ d' 100 = filled 0x55 := by
  have hm := vol16_mountable
  have hwal : vol16.walStartLBA ≠ 0 := by decide
  have ht : LogTarget vol16 101 := ⟨by decide, by decide⟩
  have hanchor := disk16_anchored (filled 0) (filled 0)
  have hidle : replayTarget .fat16 vol16 (disk16 (filled 0) (filled 0)) = none := replayTarget_of_zero rfl
  have hstart : LogRun block16 vol16 (disk16 (filled 0) (filled 0)) [] _ := .start
  have hwrite := hstart.write 100 (filled 0x55) disk16_target
  obtain ⟨hanchor', hidle', -⟩ := hwrite.settled hm hwal hanchor hidle
  -- the write to sector 101 is cut off after its payload
  have hmem : ∀ d : Disk 512, walDisk₂ .fat16 vol16 101 (filled 0xAA) d ∈
      (walWriteSector .fat16 block16 vol16 101 (filled 0xAA).1 (Dev.start d)).2.states := fun d ↦ by
    rw [walWriteSector_eq hm hwal (by decide)]
    simp [Dev.states, Dev.put, Dev.start]
  obtain ⟨dev, hdev, -⟩ := (cutOff_of_mem_states hm hwal ht hidle' (hmem _)).1.mount_eq hm hwal ht hanchor'
  have hrun := hwrite.crash 101 (filled 0xAA) ht (hmem _) (.done hdev)
  obtain ⟨hmount, hknown⟩ := logged_writes_durable hm hwal hanchor hidle hrun
  exact ⟨_, hrun, hmount, hknown 100 (by decide) (by decide) _ rfl⟩

end CapazOS
