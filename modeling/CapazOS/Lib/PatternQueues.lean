import Mathlib.Data.List.Nodup
import Mathlib.Logic.Function.Basic

/-!
# Queues served along a pattern

A server with several classes of customers, one queue for each, walks round a fixed pattern of
classes. At each turn it skips the classes whose queue is empty, takes the first customer of the
first class that has one, and leaves the cursor behind the position it stopped at.

**Nobody starves.** The distance from the cursor to a position `p` of a nonempty class goes down
with every turn until the class is served, so that a customer at position `k` is served within `k +
1` lengths of the pattern.
-/

namespace PatternQueues

open List Function

variable {n p : ℕ}

variable {κ α : Type*}

/-! ### The server -/

/-- The queue of each class, and the place of the server in the pattern. -/
structure State (κ α : Type*) where
  queue : κ → List α
  cursor : ℕ

/-- How far the server walks from the cursor to the first class that is busy. -/
def offset (pattern : List κ) (busy : κ → Bool) (cursor : ℕ) : Option ℕ :=
  (range pattern.length).find? fun i ↦ (pattern[(cursor + i) % pattern.length]?).any busy

/-- The class that is served next, and the cursor behind it. -/
def pick (pattern : List κ) (busy : κ → Bool) (cursor : ℕ) : Option (κ × ℕ) :=
  (offset pattern busy cursor).bind fun i ↦
    (pattern[(cursor + i) % pattern.length]?).map fun c ↦ (c, ((cursor + i) % pattern.length + 1) % pattern.length)

variable [DecidableEq κ]

/-- Take the first customer of the class that is served next. -/
def State.pop (pattern : List κ) (s : State κ α) : Option (α × State κ α) :=
  match pick pattern (fun c ↦ !(s.queue c).isEmpty) s.cursor with
  | none => none
  | some (c, cursor) =>
    match s.queue c with
    | [] => none
    | a :: rest => some (a, ⟨update s.queue c rest, cursor⟩)

/-- What happens to the queues: a customer arrives or leaves, or the server takes a turn. -/
inductive Event (κ α : Type*) where
  | push (c : κ) (a : α)
  | erase (c : κ) (a : α)
  | pop

variable {pattern : List κ} {c : κ} {s s' : State κ α} {t a u : α} {ev : Event κ α} {evs : List (Event κ α)}

variable [DecidableEq α]

/-- The state after an event, and the customer served in it. -/
def State.step (pattern : List κ) (s : State κ α) : Event κ α → State κ α × List α
  | .push c a => (⟨update s.queue c (s.queue c ++ [a]), s.cursor⟩, [])
  | .erase c a => (⟨update s.queue c ((s.queue c).erase a), s.cursor⟩, [])
  | .pop =>
    match s.pop pattern with
    | none => (s, [])
    | some (a, s') => (s', [a])

/-- The state after a sequence of events, and the customers served in it, in order. -/
def State.run (pattern : List κ) (s : State κ α) : List (Event κ α) → State κ α × List α
  | [] => (s, [])
  | ev :: evs =>
    (((s.step pattern ev).1.run pattern evs).1, (s.step pattern ev).2 ++ ((s.step pattern ev).1.run pattern evs).2)

theorem State.run_append (pattern : List κ) (s : State κ α) (evs evs' : List (Event κ α)) :
    s.run pattern (evs ++ evs') = (((s.run pattern evs).1.run pattern evs').1,
        (s.run pattern evs).2 ++ ((s.run pattern evs).1.run pattern evs').2) := by
  induction evs generalizing s with
  | nil => rfl
  | cons ev evs ih => simp [run, ih]

/-! ### The walk to the next busy class -/

section

omit [DecidableEq κ] in
/-- How far the cursor is from the position `p` of a pattern of length `n`. -/
def dist (n p cursor : ℕ) : ℕ := if cursor % n ≤ p then p - cursor % n else p + n - cursor % n

theorem dist_lt (hp : p < n) (cursor : ℕ) : dist n p cursor < n := by
  unfold dist
  split <;> omega

theorem add_dist_mod (hp : p < n) (cursor : ℕ) : (cursor + dist n p cursor) % n = p := by
  have hlt := Nat.mod_lt cursor (Nat.zero_lt_of_lt hp)
  rw [← Nat.mod_add_mod]
  unfold dist
  split
  · rw [Nat.add_sub_cancel' (by assumption), Nat.mod_eq_of_lt hp]
  · rw [show cursor % n + (p + n - cursor % n) = p + n by omega, Nat.add_mod_right, Nat.mod_eq_of_lt hp]

theorem dist_advance (hp : p < n) {cursor i : ℕ} (hi : i < dist n p cursor) :
    dist n p (((cursor + i) % n + 1) % n) < dist n p cursor := by
  have hlt := Nat.mod_lt cursor (Nat.zero_lt_of_lt hp)
  have hadv : ((cursor + i) % n + 1) % n = (cursor % n + i + 1) % n := by
    rw [Nat.mod_add_mod, Nat.add_assoc, Nat.add_assoc, Nat.mod_add_mod]
  rw [hadv]
  generalize hc : cursor % n = c at hlt ⊢
  unfold dist at hi ⊢
  rw [Nat.mod_mod]
  rcases Nat.lt_or_ge (c + i + 1) n with hsmall | hbig
  · rw [Nat.mod_eq_of_lt hsmall]
    split at hi <;> split <;> omega
  · have hsub : (c + i + 1) % n = c + i + 1 - n := by
      rw [Nat.mod_eq_sub_mod hbig, Nat.mod_eq_of_lt]
      split at hi <;> omega
    split at hi <;> split <;> omega

omit [DecidableEq κ] in
/-- **The server cannot walk past a busy class**: it serves that class, or some class in front of
it. -/
theorem pick_of_busy (busy : κ → Bool) (hp : pattern[p]? = some c) (hc : busy c = true) (cursor : ℕ) :
    ∃ c' cursor', pick pattern busy cursor = some (c', cursor') ∧ busy c' = true ∧
      (c' = c ∨ dist pattern.length p cursor' < dist pattern.length p cursor) := by
  have hpn : p < pattern.length := (List.getElem?_eq_some_iff.1 hp).1
  have hat : (pattern[(cursor + dist pattern.length p cursor) % pattern.length]?).any busy = true := by
    rw [add_dist_mod hpn, hp]
    exact hc
  obtain ⟨i, hi⟩ : ∃ i, offset pattern busy cursor = some i := by
    rw [← Option.isSome_iff_exists, offset, find?_isSome]
    exact ⟨_, mem_range.2 (dist_lt hpn cursor), hat⟩
  obtain ⟨hbusy, hmem, hfirst⟩ := find?_range_eq_some.1 hi
  -- The first busy place is not behind the position of the class.
  have hle : i ≤ dist pattern.length p cursor := by
    by_contra hlt
    have := hfirst _ (Nat.lt_of_not_le hlt)
    rw [hat] at this
    cases this
  obtain ⟨c', hc', hbusy'⟩ := (Option.any_eq_true _ _).1 hbusy
  refine ⟨c', ((cursor + i) % pattern.length + 1) % pattern.length, ?_, hbusy', ?_⟩
  · rw [pick, hi, Option.bind_some, hc', Option.map_some]
  · rcases Nat.eq_or_lt_of_le hle with heq | hlt
    · rw [heq, add_dist_mod hpn, hp] at hc'
      exact .inl (Option.some.inj hc').symm
    · exact .inr (dist_advance hpn hlt)

end

/-! ### Waiting -/

/-- How many turns the customer `t` of the class at position `p` may still have to wait. -/
def rank (pattern : List κ) (p : ℕ) (c : κ) (t : α) (s : State κ α) : ℕ :=
  (s.queue c).idxOf t * pattern.length + dist pattern.length p s.cursor

omit [DecidableEq κ] in
theorem rank_lt (hp : pattern[p]? = some c) (t : α) (s : State κ α) :
    rank pattern p c t s < ((s.queue c).idxOf t + 1) * pattern.length := by
  have := dist_lt (List.getElem?_eq_some_iff.1 hp).1 s.cursor
  rw [rank, Nat.succ_mul]
  omega

omit [DecidableEq α] in
theorem State.pop_of_mem (hp : pattern[p]? = some c) (ht : t ∈ s.queue c) :
    ∃ c' a rest cursor', s.queue c' = a :: rest ∧ s.pop pattern = some (a, ⟨update s.queue c' rest, cursor'⟩) ∧
      (c' = c ∨ dist pattern.length p cursor' < dist pattern.length p s.cursor) := by
  have hbusy : (!(s.queue c).isEmpty) = true := by
    rw [Bool.not_eq_true', isEmpty_eq_false_iff]
    exact ne_nil_of_mem ht
  obtain ⟨c', cursor', hpick, hb, hdist⟩ := pick_of_busy (fun c ↦ !(s.queue c).isEmpty) hp hbusy s.cursor
  rcases hq : s.queue c' with _ | ⟨a, rest⟩
  · rw [hq] at hb
    cases hb
  · exact ⟨c', a, rest, cursor', hq, by simp only [pop, hpick, hq], hdist⟩

/-- **Every turn serves the customer or brings its turn nearer.** -/
theorem rank_lt_of_pop (hp : pattern[p]? = some c) (ht : t ∈ s.queue c) : ∃ a s', s.pop pattern = some (a, s') ∧
      (a = t ∨ t ∈ s'.queue c ∧ rank pattern p c t s' < rank pattern p c t s) := by
  obtain ⟨c', a, rest, cursor', hq, hpop, hdist⟩ := s.pop_of_mem hp ht
  refine ⟨a, _, hpop, ?_⟩
  by_cases hat : a = t
  · exact .inl hat
  refine .inr ?_
  rcases eq_or_ne c' c with rfl | hne
  · -- The class is served: the customer moves up one place.
    rw [hq] at ht
    have hrest : t ∈ rest := (mem_cons.1 ht).resolve_left (Ne.symm hat)
    have hlt := dist_lt (List.getElem?_eq_some_iff.1 hp).1 cursor'
    simp only [rank, update_self, hq, idxOf_cons_ne _ hat, Nat.succ_mul]
    exact ⟨hrest, by omega⟩
  · simp only [rank, update_of_ne hne.symm]
    exact ⟨ht, Nat.add_lt_add_left (hdist.resolve_left hne) _⟩

/-- The event does not take the customer `t` out of the queue of the class `c`. -/
def Keeps (c : κ) (t : α) : Event κ α → Prop
  | .erase c' a => ¬(c' = c ∧ a = t)
  | _ => True

omit [DecidableEq κ] in
theorem idxOf_erase_le (hat : a ≠ t) (l : List α) : (l.erase a).idxOf t ≤ l.idxOf t := by
  induction l with
  | nil => exact Nat.le_refl _
  | cons b l ih =>
    rcases eq_or_ne b a with rfl | hba
    · rw [erase_cons_head, idxOf_cons_ne _ hat]
      exact Nat.le_succ _
    · rw [erase_cons_tail (by simpa using hba)]
      rcases eq_or_ne b t with rfl | hbt
      · rw [idxOf_cons_self]
        exact Nat.zero_le _
      · rw [idxOf_cons_ne _ hbt, idxOf_cons_ne _ hbt]
        exact Nat.succ_le_succ ih

theorem rank_le_of_step (pattern : List κ) (p : ℕ) (ht : t ∈ s.queue c) (hkeep : Keeps c t ev) (hpop : ev ≠ .pop) :
    (s.step pattern ev).2 = [] ∧ t ∈ (s.step pattern ev).1.queue c ∧
      rank pattern p c t (s.step pattern ev).1 ≤ rank pattern p c t s := by
  have hle : ∀ l : List α, l.idxOf t ≤ (s.queue c).idxOf t →
      l.idxOf t * pattern.length + dist pattern.length p s.cursor ≤ rank pattern p c t s :=
    fun l hl ↦ Nat.add_le_add_right (Nat.mul_le_mul_right _ hl) _
  cases ev with
  | pop => exact absurd rfl hpop
  | push c' a =>
    refine ⟨rfl, ?_⟩
    simp only [State.step, rank]
    rcases eq_or_ne c c' with rfl | hne
    · rw [update_self]
      exact ⟨mem_append_left _ ht, hle _ (Nat.le_of_eq (idxOf_append_of_mem ht))⟩
    · rw [update_of_ne hne]
      exact ⟨ht, Nat.le_refl _⟩
  | erase c' a =>
    refine ⟨rfl, ?_⟩
    simp only [State.step, rank]
    rcases eq_or_ne c c' with rfl | hne
    · have hat : a ≠ t := fun h ↦ hkeep ⟨rfl, h⟩
      rw [update_self]
      exact ⟨(mem_erase_of_ne hat.symm).2 ht, hle _ (idxOf_erase_le hat _)⟩
    · rw [update_of_ne hne]
      exact ⟨ht, Nat.le_refl _⟩

/-- **Bounded waiting.** As long as a customer does not leave its queue, it is among the first
`rank + 1` customers served. -/
theorem mem_take_run (hp : pattern[p]? = some c) (hkeep : ∀ ev ∈ evs, Keeps c t ev) (ht : t ∈ s.queue c)
    (hlen : rank pattern p c t s < (s.run pattern evs).2.length) :
    t ∈ (s.run pattern evs).2.take (rank pattern p c t s + 1) := by
  -- Induction on the events; every turn uses up one of the `rank + 1`.
  induction evs generalizing s with
  | nil => exact absurd hlen (Nat.not_lt_zero _)
  | cons ev evs ih =>
    have hkeeps : ∀ ev' ∈ evs, Keeps c t ev' := fun ev' h ↦ hkeep ev' (mem_cons_of_mem _ h)
    by_cases hpop : ev = .pop
    · subst hpop
      obtain ⟨a, s', hpop, hcase⟩ := rank_lt_of_pop hp ht
      simp only [State.run, State.step, hpop, singleton_append, take_succ_cons] at hlen ⊢
      rcases hcase with rfl | ⟨ht', hrank⟩
      · exact mem_cons_self
      · rw [length_cons] at hlen
        exact mem_cons_of_mem _ (take_subset_take_left _ hrank (ih hkeeps ht' (by omega)))
    · obtain ⟨hnil, ht', hrank⟩ := rank_le_of_step pattern p ht (hkeep ev mem_cons_self) hpop
      simp only [State.run, hnil, nil_append] at hlen ⊢
      exact take_subset_take_left _ (Nat.succ_le_succ hrank) (ih hkeeps ht' (Nat.lt_of_le_of_lt hrank hlen))

/-! ### Order of service -/

/-- No customer is in two places. -/
structure State.Wf (s : State κ α) : Prop where
  nodup : ∀ c, (s.queue c).Nodup
  disjoint : ∀ c c' a, a ∈ s.queue c → a ∈ s.queue c' → c = c'

/-- Only customers that are in no queue arrive. -/
def State.Valid (s : State κ α) : Event κ α → Prop
  | .push _ a => ∀ c, a ∉ s.queue c
  | _ => True

def State.RunValid (pattern : List κ) (s : State κ α) : List (Event κ α) → Prop
  | [] => True
  | ev :: evs => s.Valid ev ∧ (s.step pattern ev).1.RunValid pattern evs

theorem State.runValid_append {evs' : List (Event κ α)} : s.RunValid pattern (evs ++ evs') ↔
      s.RunValid pattern evs ∧ (s.run pattern evs).1.RunValid pattern evs' := by
  induction evs generalizing s with
  | nil => simp [RunValid, run]
  | cons ev evs ih => simp [RunValid, ih, run, and_assoc]

omit [DecidableEq α] in
theorem State.Wf.setQueue (h : s.Wf) {l : List α} (cursor : ℕ) (hnodup : l.Nodup)
    (hl : ∀ a ∈ l, a ∈ s.queue c ∨ ∀ c', a ∉ s.queue c') :
    (⟨update s.queue c l, cursor⟩ : State κ α).Wf := by
  have happart : ∀ c' a, c' ≠ c → a ∈ l → a ∉ s.queue c' := fun c' a hne ha hmem ↦ by
    rcases hl a ha with hin | hout
    exacts [hne (h.disjoint _ _ a hmem hin), hout c' hmem]
  refine ⟨fun c' ↦ ?_, fun c₁ c₂ a h₁ h₂ ↦ ?_⟩
  · simp only [update_apply]
    split
    exacts [hnodup, h.nodup c']
  · simp only [update_apply] at h₁ h₂
    split at h₁ <;> split at h₂
    · simp only [*]
    · exact absurd h₂ (happart c₂ a (by assumption) h₁)
    · exact absurd h₁ (happart c₁ a (by assumption) h₂)
    · exact h.disjoint c₁ c₂ a h₁ h₂

theorem State.Wf.step (pattern : List κ) (h : s.Wf) (ev : Event κ α) (hev : s.Valid ev) : (s.step pattern ev).1.Wf := by
  cases ev with
  | push c a =>
    refine h.setQueue _ (nodup_append.2 ⟨h.nodup c, nodup_singleton a, ?_⟩) fun b hb ↦ ?_
    · rintro b hb d hd rfl
      exact hev c (mem_singleton.1 hd ▸ hb)
    · rcases mem_append.1 hb with hb | hb
      · exact .inl hb
      · exact .inr (mem_singleton.1 hb ▸ hev)
  | erase c a => exact h.setQueue _ ((h.nodup c).erase a) fun b hb ↦ .inl (mem_of_mem_erase hb)
  | pop =>
    unfold State.step State.pop
    rcases pick pattern (fun c ↦ !(s.queue c).isEmpty) s.cursor with _ | ⟨c, cursor⟩
    · exact h
    · rcases hq : s.queue c with _ | ⟨a, rest⟩
      · simp only [hq]
        exact h
      · simp only [hq]
        have hnodup := h.nodup c
        rw [hq] at hnodup
        refine h.setQueue cursor (nodup_cons.1 hnodup).2 fun b hb ↦ .inl ?_
        rw [hq]
        exact mem_cons_of_mem _ hb

omit [DecidableEq α] in
theorem State.pop_eq_some (h : s.pop pattern = some (a, s')) :
    ∃ c rest, s.queue c = a :: rest ∧ s'.queue = update s.queue c rest := by
  unfold State.pop at h
  split at h
  · cases h
  · rename_i c cursor _
    split at h
    · cases h
    · rename_i b rest hq
      cases h
      exact ⟨c, rest, hq, rfl⟩

/-! ### Who is in the queues after an event -/

theorem State.mem_push (pattern : List κ) {c' : κ} {b : α} :
    b ∈ (s.step pattern (.push c a)).1.queue c' ↔ b ∈ s.queue c' ∨ c' = c ∧ b = a := by
  simp only [State.step]
  rcases eq_or_ne c' c with rfl | hne
  · rw [update_self, mem_append, mem_singleton, and_iff_right rfl]
  · rw [update_of_ne hne]
    simp [hne]

theorem State.Wf.mem_erase (pattern : List κ) (h : s.Wf) {c' : κ} {b : α} :
    b ∈ (s.step pattern (.erase c a)).1.queue c' ↔ b ∈ s.queue c' ∧ ¬(c' = c ∧ b = a) := by
  simp only [State.step]
  rcases eq_or_ne c' c with rfl | hne
  · rw [update_self, (h.nodup c').mem_erase_iff, and_comm, and_iff_right rfl]
  · rw [update_of_ne hne]
    simp [hne]

theorem State.step_pop_cases (pattern : List κ) (s : State κ α) : s.pop pattern = none ∧ s.step pattern .pop = (s, []) ∨
      ∃ a s', s.pop pattern = some (a, s') ∧ s.step pattern .pop = (s', [a]) := by
  unfold State.step
  rcases s.pop pattern with _ | ⟨a, s'⟩
  · exact .inl ⟨rfl, rfl⟩
  · exact .inr ⟨a, s', rfl, rfl⟩

omit [DecidableEq α] in
theorem State.Wf.mem_pop (h : s.Wf) (hpop : s.pop pattern = some (a, s')) :
    (∃ c, a ∈ s.queue c) ∧ ∀ c b, b ∈ s'.queue c ↔ b ∈ s.queue c ∧ b ≠ a := by
  obtain ⟨c, rest, hq, hq'⟩ := State.pop_eq_some hpop
  have ha : a ∈ s.queue c := by
    rw [hq]
    exact mem_cons_self
  have hnodup := h.nodup c
  rw [hq] at hnodup
  refine ⟨⟨c, ha⟩, fun c' b ↦ ?_⟩
  rw [hq']
  rcases eq_or_ne c' c with rfl | hne
  · rw [update_self, hq, mem_cons]
    constructor
    · intro hb
      refine ⟨.inr hb, ?_⟩
      rintro rfl
      exact (nodup_cons.1 hnodup).1 hb
    · rintro ⟨hb, hba⟩
      exact hb.resolve_left hba
  · rw [update_of_ne hne]
    refine ⟨fun hb ↦ ⟨hb, ?_⟩, fun hb ↦ hb.1⟩
    rintro rfl
    exact hne (h.disjoint _ _ b hb ha)

/-! ### First come, first served -/

omit [DecidableEq α] in
theorem sublist_of_pop (h : s.Wf) (hut : [u, t].Sublist (s.queue c)) (hpop : s.pop pattern = some (a, s'))
    (hau : a ≠ u) : a ≠ t ∧ [u, t].Sublist (s'.queue c) := by
  obtain ⟨c', rest, hq, hq'⟩ := State.pop_eq_some hpop
  have ht : t ∈ s.queue c := hut.subset (by simp)
  rcases eq_or_ne c c' with rfl | hne
  · rw [hq] at hut
    have hrest : [u, t].Sublist rest := by
      cases hut with
      | cons _ hut => exact hut
      | cons_cons _ _ => exact absurd rfl hau
    have hnodup := h.nodup c
    rw [hq] at hnodup
    refine ⟨?_, by rwa [hq', update_self]⟩
    rintro rfl
    exact (nodup_cons.1 hnodup).1 (hrest.subset (by simp))
  · refine ⟨?_, by rwa [hq', update_of_ne hne]⟩
    rintro rfl
    exact hne (h.disjoint c c' a ht (by rw [hq]; exact mem_cons_self))

theorem sublist_of_step (pattern : List κ) (hut : [u, t].Sublist (s.queue c)) (hu : Keeps c u ev)
    (ht : Keeps c t ev) (hpop : ev ≠ .pop) :
    (s.step pattern ev).2 = [] ∧ [u, t].Sublist ((s.step pattern ev).1.queue c) := by
  cases ev with
  | pop => exact absurd rfl hpop
  | push c' a =>
    refine ⟨rfl, ?_⟩
    simp only [State.step]
    rcases eq_or_ne c c' with rfl | hne
    · rw [update_self]
      exact hut.trans (sublist_append_left ..)
    · rwa [update_of_ne hne]
  | erase c' a =>
    refine ⟨rfl, ?_⟩
    simp only [State.step]
    rcases eq_or_ne c c' with rfl | hne
    · have hau : a ∉ [u, t] := by
        rw [mem_cons, mem_singleton]
        rintro (rfl | rfl)
        exacts [hu ⟨rfl, rfl⟩, ht ⟨rfl, rfl⟩]
      rw [update_self]
      have := hut.erase a
      rwa [erase_of_not_mem hau] at this
    · rwa [update_of_ne hne]

/-- **First come, first served** within a class: when `u` is in front of `t` and neither leaves, `t`
is served only after `u`. -/
theorem idxOf_lt_of_sublist (hkeep : ∀ ev ∈ evs, Keeps c u ev ∧ Keeps c t ev) (h : s.Wf)
    (hvalid : s.RunValid pattern evs) (hut : [u, t].Sublist (s.queue c)) (ht : t ∈ (s.run pattern evs).2) :
    (s.run pattern evs).2.idxOf u < (s.run pattern evs).2.idxOf t := by
  induction evs generalizing s with
  | nil => cases ht
  | cons ev evs ih =>
    have hkeeps := fun ev' h ↦ hkeep ev' (mem_cons_of_mem _ h)
    obtain ⟨hev, hvalid⟩ := hvalid
    have hwf := h.step pattern ev hev
    by_cases hpop : ev = .pop
    · subst hpop
      simp only [State.run, State.step] at ht hvalid hwf ⊢
      rcases hpop : s.pop pattern with _ | ⟨a, s'⟩
      · simp only [hpop, nil_append] at ht hvalid hwf ⊢
        exact ih hkeeps hwf hvalid hut ht
      · simp only [hpop, singleton_append] at ht hvalid hwf ⊢
        have hne : u ≠ t := fun heq ↦ by
          have := hut.nodup (h.nodup c)
          rw [heq] at this
          simp at this
        rcases eq_or_ne a u with rfl | hau
        · rw [idxOf_cons_self, idxOf_cons_ne _ hne]
          exact Nat.succ_pos _
        · obtain ⟨hat, hut'⟩ := sublist_of_pop h hut hpop hau
          rw [idxOf_cons_ne _ hau, idxOf_cons_ne _ hat]
          exact Nat.succ_lt_succ (ih hkeeps hwf hvalid hut' ((mem_cons.1 ht).resolve_left (Ne.symm hat)))
    · obtain ⟨hu, ht'⟩ := hkeep ev mem_cons_self
      obtain ⟨hnil, hut'⟩ := sublist_of_step pattern hut hu ht' hpop
      simp only [State.run, hnil, nil_append] at ht ⊢
      exact ih hkeeps hwf hvalid hut' ht

theorem behind_step (pattern : List κ) (h : s.Wf) (hkeep : Keeps c u ev) (hserved : u ∉ (s.step pattern ev).2)
    (hu : u ∈ s.queue c) :
    u ∈ (s.step pattern ev).1.queue c ∧ ∀ t, (t ∈ s.queue c → [u, t].Sublist (s.queue c)) →
      t ∈ (s.step pattern ev).1.queue c → [u, t].Sublist ((s.step pattern ev).1.queue c) := by
  cases ev with
  | push c' a =>
    refine ⟨(State.mem_push pattern).2 (.inl hu), fun t ht hmem ↦ ?_⟩
    simp only [State.step]
    rcases eq_or_ne c c' with rfl | hne
    · rw [update_self]
      rcases (State.mem_push pattern).1 hmem with htq | ⟨-, rfl⟩
      · exact (ht htq).trans (sublist_append_left ..)
      · exact (singleton_sublist.2 hu).append (List.Sublist.refl [t])
    · rw [update_of_ne hne]
      exact ht (((State.mem_push pattern).1 hmem).resolve_right fun h ↦ hne h.1)
  | erase c' a =>
    refine ⟨(h.mem_erase pattern).2 ⟨hu, fun ⟨hc, ha⟩ ↦ hkeep ⟨hc.symm, ha.symm⟩⟩, fun t ht hmem ↦ ?_⟩
    obtain ⟨htq, hta⟩ := (h.mem_erase pattern).1 hmem
    simp only [State.step]
    rcases eq_or_ne c c' with rfl | hne
    · have hau : a ∉ [u, t] := by
        rw [mem_cons, mem_singleton]
        rintro (rfl | rfl)
        exacts [hkeep ⟨rfl, rfl⟩, hta ⟨rfl, rfl⟩]
      rw [update_self]
      have := (ht htq).erase a
      rwa [erase_of_not_mem hau] at this
    · rw [update_of_ne hne]
      exact ht htq
  | pop =>
    rcases s.step_pop_cases pattern with ⟨-, hstep⟩ | ⟨a, s', hpop, hstep⟩
    · rw [hstep]
      exact ⟨hu, fun _ ht ↦ ht⟩
    · rw [hstep] at hserved ⊢
      have hau : a ≠ u := fun heq ↦ hserved (heq ▸ mem_singleton_self a)
      obtain ⟨-, hmem⟩ := h.mem_pop hpop
      exact ⟨(hmem c u).2 ⟨hu, hau.symm⟩, fun t ht ht' ↦ (sublist_of_pop h (ht ((hmem c t).1 ht').1) hpop hau).2⟩

/-- **Arrivals queue up**: as long as `u` neither is served nor leaves, whoever comes into its queue
later stands behind it. -/
theorem behind_run (hkeep : ∀ ev ∈ evs, Keeps c u ev) (h : s.Wf) (hvalid : s.RunValid pattern evs)
    (hserved : u ∉ (s.run pattern evs).2) (hu : u ∈ s.queue c) :
    u ∈ (s.run pattern evs).1.queue c ∧ ∀ t, (t ∈ s.queue c → [u, t].Sublist (s.queue c)) →
      t ∈ (s.run pattern evs).1.queue c → [u, t].Sublist ((s.run pattern evs).1.queue c) := by
  induction evs generalizing s with
  | nil => exact ⟨hu, fun _ ht ↦ ht⟩
  | cons ev evs ih =>
    simp only [State.run, mem_append, not_or] at hserved ⊢
    obtain ⟨hu', ht'⟩ := behind_step pattern h (hkeep ev mem_cons_self) hserved.1 hu
    obtain ⟨hu'', ht''⟩ := ih (fun ev' hev' ↦ hkeep ev' (mem_cons_of_mem _ hev'))
      (h.step pattern ev hvalid.1) hvalid.2 hserved.2 hu'
    exact ⟨hu'', fun t ht ↦ ht'' t (ht' t ht)⟩

end PatternQueues
