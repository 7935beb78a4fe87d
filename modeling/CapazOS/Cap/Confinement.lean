import CapazOS.Cap.Ops

/-!
# Confinement of capabilities

`Descends hist n p` says that the entry now in slot `p` goes back, through duplications and
transfers, to the creation made by the `n`-th call of the history. **Rights only shrink along a
descent** (`Descends.origin`), **and a capability without `CAP_R_DUP` has at most one descendant**:
it cannot be duplicated, no descendant regains the right, and a transfer gives up the entry it
reads.
-/

namespace CapazOS

open List

variable {n : ℕ} {hd h : CapHandle} {mem : Bool} {mask : CapRights} {k : Fin capTableSlots}

variable {ι : Type*}
variable {hist : List (CapOp ι)} {p : ι × Fin capTableSlots} {src dst : ι}

theorem getElem?_reverse_cons {op op' : CapOp ι} (h : hist.reverse[n]? = some op) :
    (op' :: hist).reverse[n]? = some op := by
  rw [reverse_cons, getElem?_append_left (List.getElem?_eq_some_iff.1 h).1, h]

theorem capRightsHas_trans {a b c : CapRights} (hab : capRightsHas a b) (hbc : capRightsHas b c) :
    capRightsHas a c := by
  unfold capRightsHas at *
  rw [← hbc, ← BitVec.and_assoc, hab]

theorem capRightsHas_and (a mask : CapRights) : capRightsHas a (a &&& mask) := by
  rw [capRightsHas, ← BitVec.and_assoc, BitVec.and_self]

theorem Fills.slot_eq {ts ts' : ι → CapTable} {type : CapType} {rights : CapRights} {obj : ℕ}
    (h : Fills ts ts' p hd type rights obj) {i : Fin capTableSlots} (hi : capHandleIndex hd = capIndex i) :
    i = p.2 := capIndex_injective (hi.symm.trans h.index)

variable [DecidableEq ι]

/-- The entry in the slot `p` after the history `hist` (latest call first) **descends** from the
creation that was the `n`-th call, counted from `0` at the start. -/
inductive Descends : List (CapOp ι) → ℕ → ι × Fin capTableSlots → Prop
  | create {hist : List (CapOp ι)} {τ : ι} {type : CapType} {rights : CapRights} {obj : ℕ}
      {mem : Bool} {hd : CapHandle} {i : Fin capTableSlots}
      (hok : ((CapOp.create τ type rights obj mem).exec (capTables hist)).1 = some hd)
      (hi : capHandleIndex hd = capIndex i) :
      Descends (.create τ type rights obj mem :: hist) hist.length (τ, i)
  | dup {hist : List (CapOp ι)} {n : ℕ} {src dst : ι} {h hd : CapHandle} {mask : CapRights}
      {mem : Bool} {k i : Fin capTableSlots} (hfrom : Descends hist n (src, k))
      (hk : capHandleIndex h = capIndex k)
      (hok : ((CapOp.dup src h dst mask mem).exec (capTables hist)).1 = some hd)
      (hi : capHandleIndex hd = capIndex i) : Descends (.dup src h dst mask mem :: hist) n (dst, i)
  | transfer {hist : List (CapOp ι)} {n : ℕ} {src dst : ι} {h hd : CapHandle} {mask : CapRights}
      {mem : Bool} {k i : Fin capTableSlots} (hfrom : Descends hist n (src, k))
      (hk : capHandleIndex h = capIndex k)
      (hok : ((CapOp.transfer src h dst mask mem).exec (capTables hist)).1 = some hd)
      (hi : capHandleIndex hd = capIndex i) :
      Descends (.transfer src h dst mask mem :: hist) n (dst, i)
  | keep {hist : List (CapOp ι)} {n : ℕ} {p : ι × Fin capTableSlots} {op : CapOp ι}
      (hfrom : Descends hist n p) (hlive : (liveEntry (capTables (op :: hist)) p).isSome) :
      Descends (op :: hist) n p

/-! ### What a call does to descents -/

/-- The creation behind a descent: its number, and a live entry of the same type and object whose
rights it includes. -/
structure Origin (hist : List (CapOp ι)) (n : ℕ) (p : ι × Fin capTableSlots) : Prop where
  created : ∃ τ e rights mem, hist.reverse[n]? = some (.create τ e.type rights e.obj mem) ∧
    liveEntry (capTables hist) p = some e ∧ capRightsHas rights e.rights

theorem liveEntry_keep {op : CapOp ι} {e : CapEntry} (hp : liveEntry (capTables hist) p = some e)
    (hlive : (liveEntry (capTables (op :: hist)) p).isSome) :
    liveEntry (capTables (op :: hist)) p = some e := by
  have heff := ((capInv_capTables hist).exec_effect op).2
  have hne : ∀ {ts' q hd type rights obj}, Fills (capTables hist) ts' q hd type rights obj → p ≠ q := by
    rintro ts' q hd type rights obj hfill rfl
    rw [hfill.empty] at hp
    cases hp
  show liveEntry (op.exec (capTables hist)).2 p = some e
  change (liveEntry (op.exec (capTables hist)).2 p).isSome at hlive
  revert heff hlive
  generalize (op.exec (capTables hist)).1 = hd, (op.exec (capTables hist)).2 = ts'
  intro heff hlive
  cases heff with
  | shrink h =>
    rcases h p with heq | hnone
    · rw [heq, hp]
    · rw [hnone] at hlive
      cases hlive
  | create h => rw [h.others p (hne h), hp]
  | dup _ _ h => rw [h.others p (hne h), hp]
  | transfer hsrc h hgone hothers =>
    rw [hothers p fun heq ↦ ?_, h.others p (hne h), hp]
    rw [heq, hgone] at hlive
    cases hlive

theorem exec_fills_create {τ : ι} {type : CapType} {rights : CapRights} {obj : ℕ}
    (hok : ((CapOp.create τ type rights obj mem).exec (capTables hist)).1 = some hd) :
    ∃ i, Fills (capTables hist) (capTables (.create τ type rights obj mem :: hist)) (τ, i) hd type
      rights obj := by
  have heff := ((capInv_capTables hist).exec_effect (.create τ type rights obj mem)).2
  rw [hok] at heff
  cases heff with
  | create h => exact ⟨_, h⟩

theorem exec_fills_dup (hok : ((CapOp.dup src h dst mask mem).exec (capTables hist)).1 = some hd) :
    ∃ i k e, ResolvesTo (capTables hist) h (src, k) e ∧ capRightsHas e.rights capRDup ∧
      Fills (capTables hist) (capTables (.dup src h dst mask mem :: hist)) (dst, i) hd e.type
        (e.rights &&& mask) e.obj := by
  have heff := ((capInv_capTables hist).exec_effect (.dup src h dst mask mem)).2
  rw [hok] at heff
  cases heff with
  | dup hsrc hdup h => exact ⟨_, _, _, hsrc, hdup, h⟩

theorem exec_fills_transfer (hok : ((CapOp.transfer src h dst mask mem).exec (capTables hist)).1 = some hd) :
    ∃ i k e ts₁, ResolvesTo (capTables hist) h (src, k) e ∧
      Fills (capTables hist) ts₁ (dst, i) hd e.type (e.rights &&& mask) e.obj ∧
      liveEntry (capTables (.transfer src h dst mask mem :: hist)) (src, k) = none ∧
      ∀ q, q ≠ (src, k) → liveEntry (capTables (.transfer src h dst mask mem :: hist)) q = liveEntry ts₁ q := by
  have heff := ((capInv_capTables hist).exec_effect (.transfer src h dst mask mem)).2
  rw [hok] at heff
  cases heff with
  | transfer hsrc hfill hgone hothers => exact ⟨_, _, _, _, hsrc, hfill, hgone, hothers⟩

theorem transfer_entry {i : Fin capTableSlots} {e : CapEntry} {ts₁ : ι → CapTable}
    (hsrc : ResolvesTo (capTables hist) h (src, k) e)
    (hfill : Fills (capTables hist) ts₁ (dst, i) hd e.type (e.rights &&& mask) e.obj)
    (hothers : ∀ q, q ≠ (src, k) → liveEntry (capTables (.transfer src h dst mask mem :: hist)) q = liveEntry ts₁ q) :
    liveEntry (capTables (.transfer src h dst mask mem :: hist)) (dst, i) = liveEntry ts₁ (dst, i) := by
  refine hothers _ fun heq ↦ ?_
  have hempty := hfill.empty
  rw [heq, hsrc.entry] at hempty
  cases hempty

/-! ### Every descendant keeps the type, the object and at most the rights -/

/-- **A descent leads to a creation** of the same type and object, with at least the rights. -/
theorem Descends.origin (h : Descends hist n p) : Origin hist n p := by
  -- Induction on the descent; duplication and transfer pass a masked copy of the entry they read.
  induction h with
  | @create hist τ type rights obj mem hd i hok hi =>
    obtain ⟨j, hfill⟩ := exec_fills_create hok
    obtain rfl : i = j := hfill.slot_eq hi
    obtain ⟨e, he, rfl, rfl, rfl⟩ := hfill.entry
    refine ⟨τ, e, e.rights, mem, ?_, he, BitVec.and_self⟩
    rw [reverse_cons, getElem?_append_right (by simp), length_reverse, Nat.sub_self]
    rfl
  | dup hfrom hk hok hi ih =>
    obtain ⟨τ, e₀, rights, mem, hget, he₀, hrights⟩ := ih.created
    obtain ⟨j, k', e, hsrc, -, hfill⟩ := exec_fills_dup hok
    obtain rfl := hfill.slot_eq hi
    obtain rfl := capIndex_injective (hk.symm.trans hsrc.index)
    obtain rfl : e₀ = e := Option.some.inj (he₀.symm.trans hsrc.entry)
    obtain ⟨e', he', htype, hr, hobj⟩ := hfill.entry
    refine ⟨τ, e', rights, mem, ?_, he', ?_⟩
    · rw [htype, hobj]
      exact getElem?_reverse_cons hget
    · rw [hr]
      exact capRightsHas_trans hrights (capRightsHas_and ..)
  | transfer hfrom hk hok hi ih =>
    obtain ⟨τ, e₀, rights, mem, hget, he₀, hrights⟩ := ih.created
    obtain ⟨j, k', e, ts₁, hsrc, hfill, -, hothers⟩ := exec_fills_transfer hok
    obtain rfl := hfill.slot_eq hi
    obtain rfl := capIndex_injective (hk.symm.trans hsrc.index)
    obtain rfl : e₀ = e := Option.some.inj (he₀.symm.trans hsrc.entry)
    obtain ⟨e', he', htype, hr, hobj⟩ := hfill.entry
    refine ⟨τ, e', rights, mem, ?_, (transfer_entry hsrc hfill hothers).trans he', ?_⟩
    · rw [htype, hobj]
      exact getElem?_reverse_cons hget
    · rw [hr]
      exact capRightsHas_trans hrights (capRightsHas_and ..)
  | keep hfrom hlive ih =>
    obtain ⟨τ, e, rights, mem, hget, he, hrights⟩ := ih.created
    exact ⟨τ, e, rights, mem, getElem?_reverse_cons hget, liveEntry_keep he hlive, hrights⟩

/-! ### Every live entry descends from a creation -/

theorem exists_descends (hist : List (CapOp ι)) :
    ∀ p, (liveEntry (capTables hist) p).isSome → ∃ n, Descends hist n p := by
  -- Induction on the history: the new entry of a call descends from what the call read.
  induction hist with
  | nil => exact fun p hp ↦ nomatch hp
  | cons op hist ih =>
    intro p hp
    by_cases hold : (liveEntry (capTables hist) p).isSome
    · obtain ⟨n, hn⟩ := ih p hold
      exact ⟨n, .keep hn hp⟩
    rw [Option.not_isSome_iff_eq_none] at hold
    have heff := ((capInv_capTables hist).exec_effect op).2
    change (liveEntry (op.exec (capTables hist)).2 p).isSome at hp
    rcases hexec : op.exec (capTables hist) with ⟨hd, ts'⟩
    rw [hexec] at heff hp
    have hok : (op.exec (capTables hist)).1 = hd := congrArg Prod.fst hexec
    cases heff with
    | shrink h =>
      rcases h p with heq | heq
      · rw [heq, hold] at hp
        cases hp
      · rw [heq] at hp
        cases hp
    | create h =>
      obtain rfl : p = _ := by_contra fun hne ↦ by
        rw [h.others p hne, hold] at hp
        cases hp
      exact ⟨_, .create hok h.index⟩
    | @dup src dst hh mask mem ts' i k hd e hsrc hdup h =>
      obtain rfl : p = _ := by_contra fun hne ↦ by
        rw [h.others p hne, hold] at hp
        cases hp
      obtain ⟨n, hn⟩ := ih (src, k) (by rw [hsrc.entry]; rfl)
      exact ⟨n, .dup hn hsrc.index hok h.index⟩
    | @transfer src dst hh mask mem ts₁ ts' i k hd e hsrc h hgone hothers =>
      obtain rfl : p = _ := by_contra fun hne ↦ by
        rcases eq_or_ne p (src, k) with rfl | hpk
        · rw [hgone] at hp
          cases hp
        · rw [hothers p hpk, h.others p hne, hold] at hp
          cases hp
      obtain ⟨n, hn⟩ := ih (src, k) (by rw [hsrc.entry]; rfl)
      exact ⟨n, .transfer hn hsrc.index hok h.index⟩

/-! ### Without the duplication right there is one descendant -/

theorem Descends.lt_length (h : Descends hist n p) : n < hist.length := by
  obtain ⟨τ, e, rights, mem, hget, -⟩ := h.origin.created
  rw [← length_reverse]
  exact (List.getElem?_eq_some_iff.1 hget).1

theorem Descends.rights_of_dup (hfrom : Descends hist n (src, k)) (hk : capHandleIndex h = capIndex k)
    (hok : ((CapOp.dup src h dst mask mem).exec (capTables hist)).1 = some hd) :
    ∃ τ type rights obj mem, hist.reverse[n]? = some (.create τ type rights obj mem) ∧
      capRightsHas rights capRDup := by
  obtain ⟨τ, e, rights, mem', hget, he, hrights⟩ := hfrom.origin.created
  obtain ⟨_, k', e', hsrc, hdup, -⟩ := exec_fills_dup hok
  obtain rfl := capIndex_injective (hk.symm.trans hsrc.index)
  obtain rfl : e = e' := Option.some.inj (he.symm.trans hsrc.entry)
  exact ⟨τ, e.type, rights, e.obj, mem', hget, capRightsHas_trans hrights hdup⟩

theorem not_live_transfer (hk : capHandleIndex h = capIndex k)
    (hok : ((CapOp.transfer src h dst mask mem).exec (capTables hist)).1 = some hd) :
    liveEntry (capTables (.transfer src h dst mask mem :: hist)) (src, k) = none := by
  obtain ⟨_, k', _, _, hsrc, -, hgone, -⟩ := exec_fills_transfer hok
  obtain rfl := capIndex_injective (hk.symm.trans hsrc.index)
  exact hgone

/-- **A creation without the duplication right has at most one descendant.** -/
theorem Descends.unique {q : ι × Fin capTableSlots} (hp : Descends hist n p) (hq : Descends hist n q)
    (hdup : ∀ τ type rights obj mem, hist.reverse[n]? = some (.create τ type rights obj mem) →
      ¬capRightsHas rights capRDup) :
    p = q := by
  -- Induction on the first descent; the second one makes the same last call.
  induction hp generalizing q with
  | @create hist τ type rights obj mem hd i hok hi =>
    cases hq with
    | create hok' hi' =>
      obtain rfl := Option.some.inj (hok.symm.trans hok')
      rw [capIndex_injective (hi.symm.trans hi')]
    | keep hfrom _ => exact absurd hfrom.lt_length (lt_irrefl _)
  | dup hfrom hk hok hi _ =>
    obtain ⟨τ, type, rights, obj, mem, hget, hr⟩ := hfrom.rights_of_dup hk hok
    exact absurd hr (hdup τ type rights obj mem (getElem?_reverse_cons hget))
  | transfer hfrom hk hok hi ih =>
    cases hq with
    | transfer _ _ hok' hi' =>
      obtain rfl := Option.some.inj (hok.symm.trans hok')
      rw [capIndex_injective (hi.symm.trans hi')]
    | keep hfrom' hlive =>
      have heq := ih hfrom' fun τ type rights obj mem hget ↦ hdup τ type rights obj mem (getElem?_reverse_cons hget)
      rw [← heq, not_live_transfer hk hok] at hlive
      cases hlive
  | keep hfrom hlive ih =>
    have hdup' : ∀ τ type rights obj mem, _ → ¬capRightsHas rights capRDup := fun τ type rights obj mem hget ↦
        hdup τ type rights obj mem (getElem?_reverse_cons hget)
    cases hq with
    | create => exact absurd hfrom.lt_length (lt_irrefl _)
    | dup hfrom' hk hok hi =>
      obtain ⟨τ, type, rights, obj, mem, hget, hr⟩ := hfrom'.rights_of_dup hk hok
      exact absurd hr (hdup' τ type rights obj mem hget)
    | transfer hfrom' hk hok hi =>
      rw [ih hfrom' hdup', not_live_transfer hk hok] at hlive
      cases hlive
    | keep hfrom' _ => exact ih hfrom' hdup'

/-- **Capability confinement.** After any history of calls on any number of tables, every live entry
descends from an earlier `cap_create` of the same type and object whose rights include all of its
rights; and from a capability created without `CAP_R_DUP` at most one live entry descends. -/
theorem cap_confinement (hist : List (CapOp ι)) : (∀ p e, liveEntry (capTables hist) p = some e →
      ∃ n τ rights mem, Descends hist n p ∧
        hist.reverse[n]? = some (.create τ e.type rights e.obj mem) ∧ capRightsHas rights e.rights) ∧
    ∀ n τ type rights obj mem, hist.reverse[n]? = some (.create τ type rights obj mem) →
      ¬capRightsHas rights capRDup → ∀ p q, Descends hist n p → Descends hist n q → p = q := by
  constructor
  · intro p e he
    obtain ⟨n, hn⟩ := exists_descends hist p (by rw [he]; rfl)
    obtain ⟨τ, e', rights, mem, hget, he', hrights⟩ := hn.origin.created
    obtain rfl : e = e' := Option.some.inj (he.symm.trans he')
    exact ⟨n, τ, rights, mem, hn, hget, hrights⟩
  · intro n τ type rights obj mem hget hdup p q hp hq
    refine hp.unique hq fun τ' type' rights' obj' mem' hget' ↦ ?_
    cases Option.some.inj (hget.symm.trans hget')
    exact hdup

theorem cap_confinement_transfer : let hist : List (CapOp Bool) :=
      [.transfer false (capHandleMake 1 (capIndex 255)) true capRTransfer true,
        .create false .endpoint capRTransfer 0x1234 true]
    (liveEntry (capTables hist) (true, 255)).isSome ∧ Descends hist 0 (true, 255) ∧
      ∀ q, Descends hist 0 q → (true, 255) = q := by
  have hcreate : ((CapOp.create false .endpoint capRTransfer 0x1234 true).exec
      (capTables [])).1 = some (capHandleMake 1 (capIndex 255)) := by decide +kernel
  have htransfer : ((CapOp.transfer false (capHandleMake 1 (capIndex 255)) true capRTransfer
      true).exec (capTables [.create false .endpoint capRTransfer 0x1234 true])).1 =
        some (capHandleMake 1 (capIndex 255)) := by decide +kernel
  have hmoved := Descends.transfer (.create hcreate (capHandleIndex_make ..))
    (capHandleIndex_make ..) htransfer (capHandleIndex_make ..)
  refine ⟨by decide +kernel, hmoved, fun q hq ↦ ?_⟩
  exact (cap_confinement _).2 0 false .endpoint capRTransfer 0x1234 true rfl (by decide) _ q hmoved hq

end CapazOS
