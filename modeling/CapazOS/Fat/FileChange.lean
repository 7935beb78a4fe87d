import CapazOS.Fat.Alloc

/-!
# Operations on one file

Creating, overwriting and deleting a file replace one directory slot, and besides change clusters
that are free or belong to the file in that slot (`Spare`). Every other entry keeps its chain
(`FileChange.entryChain`) and every other file its contents (`FileChange.fileAt_iff`).
-/

namespace CapazOS

open List

variable {loc : SlotLoc} {e : FatDirEntry} {cs : List ℕ} {c n : ℕ} {dir : Option ℕ} {bs : List (Option ℕ)}
  {data : Bytes}

variable {vol : Volume} {v v' : View} {loc₀ : SlotLoc} {s₀ s : Bytes} {touched : List ℕ}

/-! ### Clusters of files and clusters of directories -/

theorem Consistent.file_not_dir (hw : Consistent vol v) (hlive : Live vol v loc e) (hfile : e.isDir = false)
    (hcs : EntryChain vol v e cs) (hc : c ∈ cs) (hr : Reach vol v dir bs) : some c ∉ bs := by
  intro hb
  rcases hr.owner with hroot | ⟨loc', e', cs', hlive', hdir', -, hcs', rfl⟩
  · have his := hr.isDir
    cases his with
    | area => simp at hb
    | chain hc₀ =>
      obtain ⟨c', hc', heq⟩ := mem_map.1 hb
      obtain rfl := Option.some.inj heq
      exact hw.disjoint.root hroot.symm hc₀ hlive hcs hc' hc
  · obtain ⟨c', hc', heq⟩ := mem_map.1 hb
    obtain rfl := Option.some.inj heq
    have hne : loc ≠ loc' := by
      rintro rfl
      rw [hlive.unique hlive', hdir'] at hfile
      cases hfile
    exact hw.disjoint.entries hlive hlive' hne hcs hcs' hc hc'

theorem EntryChain.link_ne_zero (h : EntryChain vol v e cs) (hc : c ∈ cs) : v.link c ≠ 0 := by
  rcases h with ⟨-, rfl⟩ | h
  · cases hc
  · exact h.1.link_ne_zero hc

theorem IsDir.link_ne_zero (h : IsDir vol v dir bs) (hc : some c ∈ bs) : v.link c ≠ 0 := by
  cases h with
  | area => simp at hc
  | chain hcs =>
    obtain ⟨c', hc', heq⟩ := mem_map.1 hc
    obtain rfl := Option.some.inj heq
    exact hcs.1.link_ne_zero hc'

theorem EntryChain.congr (h : EntryChain vol v e cs) (hlink : ∀ c ∈ cs, v'.link c = v.link c) :
    EntryChain vol v' e cs := by
  rcases h with hnone | ⟨hc, hlen⟩
  · exact .inl hnone
  · exact .inr ⟨hc.congr hlink, hlen⟩

theorem contents_congr (h : ∀ c ∈ cs, v'.block (some c) = v.block (some c)) (n : ℕ) :
    contents v' cs n = contents v cs n := by
  have hmap : cs.map v'.cluster = cs.map v.cluster := map_congr_left h
  rw [contents, contents, flatMap_def, flatMap_def, hmap]

/-! ### Spare clusters -/

/-- A cluster that is free, or belongs to the file in slot `loc₀`. -/
def Spare (vol : Volume) (v : View) (loc₀ : SlotLoc) (c : ℕ) : Prop :=
  v.link c = 0 ∨ ∃ e cs, Live vol v loc₀ e ∧ e.isDir = false ∧ EntryChain vol v e cs ∧ c ∈ cs

section

variable (hw : Consistent vol v) (h : Spare vol v loc₀ c)
include hw h

theorem Spare.not_entry (hlive : Live vol v loc e) (hne : loc ≠ loc₀) (hcs : EntryChain vol v e cs) : c ∉ cs := by
  intro hc
  rcases h with hzero | ⟨e₀, cs₀, hlive₀, -, hcs₀, hc₀⟩
  · exact hcs.link_ne_zero hc hzero
  · exact hw.disjoint.entries hlive hlive₀ hne hcs hcs₀ hc hc₀

theorem Spare.not_dir (hr : Reach vol v dir bs) : some c ∉ bs := by
  intro hb
  rcases h with hzero | ⟨e₀, cs₀, hlive₀, hfile₀, hcs₀, hc₀⟩
  · exact hr.isDir.link_ne_zero hb hzero
  · exact hw.file_not_dir hlive₀ hfile₀ hcs₀ hc₀ hr hb

theorem Spare.not_root {r : ℕ} {cs₀ : List ℕ} (hroot : rootDir vol = some r) (hcs₀ : ChainFrom vol v r cs₀) :
    c ∉ cs₀ := by
  intro hc
  have hr : Reach vol v (rootDir vol) (cs₀.map some) := .root (by rw [hroot]; exact .chain hcs₀)
  exact h.not_dir hw hr (mem_map_of_mem hc)

end

/-! ### Changes -/

/-- The slot `loc₀` is replaced by `s`, and besides only the clusters `touched` change. -/
structure FileChange (v v' : View) (loc₀ : SlotLoc) (s₀ s : Bytes) (touched : List ℕ) : Prop where
  old : (v.slots loc₀.cluster)[loc₀.slot]? = some s₀
  self : v'.slots loc₀.cluster = (v.slots loc₀.cluster).set loc₀.slot s
  link : ∀ c ∉ touched, v'.link c = v.link c
  block : ∀ b, b ≠ loc₀.cluster → (∀ c ∈ touched, b ≠ some c) → v'.block b = v.block b

namespace FileChange

theorem slotWritten (h : FileChange v v' loc₀ s₀ s touched) (hw : Consistent vol v)
    (hspare : ∀ c ∈ touched, Spare vol v loc₀ c) : SlotWritten vol v v' loc₀ s₀ s where
  old := h.old
  self := h.self
  dirs := by
    intro dir bs hr
    have hkeep : ∀ c, some c ∈ bs → v'.link c = v.link c := fun c hc ↦ h.link c fun ht ↦ (hspare c ht).not_dir hw hr hc
    have his := hr.isDir
    cases his with
    | area => exact .area
    | chain hc => exact .chain ⟨hc.1.congr fun c hmem ↦ hkeep c (mem_map_of_mem hmem), hc.2⟩
  other := by
    intro dir bs hr b hb hne
    have hkeep : v'.block b = v.block b := h.block b hne fun c hc heq ↦ (hspare c hc).not_dir hw hr (heq ▸ hb)
    rw [View.slots, View.slots, hkeep]

section

variable (h : FileChange v v' loc₀ s₀ s touched) (hw : Consistent vol v) (hspare : ∀ c ∈ touched, Spare vol v loc₀ c)
include h hw hspare

theorem entryChain (hlive : Live vol v loc e) (hne : loc ≠ loc₀) (hcs : EntryChain vol v e cs) :
    EntryChain vol v' e cs := hcs.congr fun c hc ↦ h.link c fun ht ↦ (hspare c ht).not_entry hw hlive hne hcs hc

theorem contents_eq {dir₀ : Option ℕ} {bs₀ : List (Option ℕ)} (hr₀ : Reach vol v dir₀ bs₀)
    (hmem₀ : loc₀.cluster ∈ bs₀) (hlive : Live vol v loc e) (hne : loc ≠ loc₀) (hfile : e.isDir = false)
    (hcs : EntryChain vol v e cs) (n : ℕ) : contents v' cs n = contents v cs n := by
  refine contents_congr (fun c hc ↦ h.block (some c) ?_ ?_) n
  · intro heq
    exact hw.file_not_dir hlive hfile hcs hc hr₀ (heq ▸ hmem₀)
  · intro c' hc' heq
    obtain rfl := Option.some.inj heq
    exact (hspare c hc').not_entry hw hlive hne hcs hc

end

theorem fileAt_iff (h : FileChange v v' loc₀ s₀ s touched) (hc : ChangesOnly vol v v' loc₀)
    (hw : WellFormed vol v) (hw' : WellFormed vol v') (hspare : ∀ c ∈ touched, Spare vol v loc₀ c)
    {dir₀ : Option ℕ} {bs₀ : List (Option ℕ)} (hr₀ : Reach vol v dir₀ bs₀)
    (hmem₀ : loc₀.cluster ∈ bs₀) {segs : List Bytes} (hsegs : ∀ x ∈ segs, PlainName x)
    (hne : ∀ e, ¬Resolves vol v (rootDir vol) segs loc₀ e)
    (hne' : ∀ e, ¬Resolves vol v' (rootDir vol) segs loc₀ e) {bytes : Bytes} :
    FileAt vol v' segs bytes ↔ FileAt vol v segs bytes := by
  constructor
  · rintro ⟨loc, e, cs, hres, hfile, hcs, rfl⟩
    have hloc : loc ≠ loc₀ := by
      rintro rfl
      exact hne' e hres
    have hres := (hc.resolves_iff hw hw' hsegs hloc).1 hres
    have hlive := hres.live hw.toChained hsegs
    obtain ⟨cs', hcs', -⟩ := hw.chain hlive
    obtain rfl := hcs.unique (h.entryChain hw.toConsistent hspare hlive hloc hcs')
    refine ⟨loc, e, cs, hres, hfile, hcs', ?_⟩
    exact h.contents_eq hw.toConsistent hspare hr₀ hmem₀ hlive hloc hfile hcs' _
  · rintro ⟨loc, e, cs, hres, hfile, hcs, rfl⟩
    have hloc : loc ≠ loc₀ := by
      rintro rfl
      exact hne e hres
    have hlive := hres.live hw.toChained hsegs
    refine ⟨loc, e, cs, (hc.resolves_iff hw hw' hsegs hloc).2 hres, hfile,
      h.entryChain hw.toConsistent hspare hlive hloc hcs, ?_⟩
    exact (h.contents_eq hw.toConsistent hspare hr₀ hmem₀ hlive hloc hfile hcs _).symm

end FileChange

/-! ### Stored data -/

/-- The clusters `cs`, of `n` bytes each, hold `data` from the start; what follows it in the last
one, or in later ones, does not matter. -/
inductive Holds (n : ℕ) (v : View) : List ℕ → Bytes → Prop
  | done {cs : List ℕ} : Holds n v cs []
  | cons {c : ℕ} {cs : List ℕ} {data : Bytes} : (v.cluster c).length = n →
      data.take n <+: v.cluster c → Holds n v cs (data.drop n) → Holds n v (c :: cs) data

theorem Holds.contents_eq (h : Holds n v cs data) : contents v cs data.length = data := by
  induction h with
  | done => exact take_zero
  | @cons c cs data hlen hprefix _ ih =>
    rw [contents, flatMap_cons]
    rcases Nat.lt_or_ge n data.length with hgt | hle
    · -- the data fills this cluster and goes on
      have hfull : data.take n = v.cluster c := hprefix.eq_of_length (by rw [length_take, hlen]; omega)
      rw [take_append, take_of_length_le (by omega), hlen]
      have hrest : (List.flatMap v.cluster cs).take (data.length - n) = data.drop n := by
        rw [contents, length_drop] at ih
        exact ih
      rw [hrest, ← hfull, take_append_drop]
    · -- the data ends in this cluster
      rw [take_of_length_le hle] at hprefix
      rw [take_append_of_le_length (by omega)]
      exact (prefix_iff_eq_take.1 hprefix).symm

theorem Holds.congr (h : Holds n v cs data) (hagree : ∀ c ∈ cs, v'.block (some c) = v.block (some c)) :
    Holds n v' cs data := by
  induction h with
  | done => exact .done
  | @cons c cs data hlen hprefix _ ih =>
    have hc : v'.cluster c = v.cluster c := hagree c mem_cons_self
    exact .cons (hc ▸ hlen) (hc ▸ hprefix) (ih fun x hx ↦ hagree x (mem_cons_of_mem _ hx))

theorem Holds.append (h : Holds n v cs data) (cs' : List ℕ) : Holds n v (cs ++ cs') data := by
  induction h with
  | done => exact .done
  | cons hlen hprefix _ ih => exact .cons hlen hprefix ih

/-- The view after a file was written: the successor function is `link`, the clusters `cs` hold
`data`, the slot `loc` holds `s`, and the rest is as before. -/
structure WrittenTo (n : ℕ) (v v' : View) (link : ℕ → ℕ) (cs : List ℕ) (data : Bytes)
    (loc : SlotLoc) (s : Bytes) : Prop where
  link_eq : v'.link = link
  slots_eq : v'.slots loc.cluster = (v.slots loc.cluster).set loc.slot s
  block_eq : ∀ b, b ≠ loc.cluster → (∀ c ∈ cs, b ≠ some c) → v'.block b = v.block b
  holds : Holds n v' cs data

theorem WrittenTo.fileChange {link : ℕ → ℕ} (h : WrittenTo n v v' link cs data loc₀ s)
    (hcs : ∀ c ∈ cs, c ∈ touched) (hold : (v.slots loc₀.cluster)[loc₀.slot]? = some s₀)
    (hlink : ∀ c ∉ touched, link c = v.link c) : FileChange v v' loc₀ s₀ s touched where
  old := hold
  self := h.slots_eq
  link c hc := by rw [h.link_eq, hlink c hc]
  block b hb hbt := h.block_eq b hb fun c hc ↦ hbt c (hcs c hc)

end CapazOS
