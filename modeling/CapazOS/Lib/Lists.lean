import Mathlib.Data.List.TakeDrop
import Mathlib.Data.List.Range

/-!
# Searching and cutting lists

What a search for the first hit finds, and when two searches find the same; when cutting the members
of a list off at a length changes nothing.
-/

namespace CapazOS

open List

variable {α : Type*} {p q : α → Bool} {l : List α}

/-! ### Searches -/

theorem findSome?_range_eq_some {f : ℕ → Option α} {n : ℕ} {x : α} :
    (range n).findSome? f = some x ↔ ∃ i < n, f i = some x ∧ ∀ j < i, f j = none := by
  induction n with
  | zero => simp
  | succ n ih =>
    rw [range_succ, findSome?_append, Option.or_eq_some_iff, ih]
    simp only [findSome?_eq_none_iff, mem_range, findSome?_singleton]
    constructor
    · rintro (⟨i, hi, hx, hbefore⟩ | ⟨hnone, hx⟩)
      · exact ⟨i, by omega, hx, hbefore⟩
      · exact ⟨n, by omega, hx, hnone⟩
    · rintro ⟨i, hi, hx, hbefore⟩
      rcases Nat.lt_succ_iff_lt_or_eq.1 hi with hlt | rfl
      · exact .inl ⟨i, hlt, hx, hbefore⟩
      · exact .inr ⟨hbefore, hx⟩

/-- Two searches find the same element exactly when the first element that one of them accepts is
accepted by the other. -/
theorem find?_eq_find?_iff : l.find? p = l.find? q ↔
    ∀ pre x suf, l = pre ++ x :: suf → (∀ y ∈ pre, p y = false ∧ q y = false) → p x = q x := by
  induction l with
  | nil => simp
  | cons a l ih =>
    rw [find?_cons, find?_cons]
    constructor
    · rintro h (- | ⟨b, pre⟩) x suf heq hpre
      · obtain ⟨rfl, rfl⟩ := List.cons.inj heq
        rcases hp : p a with - | - <;> rcases hq : q a with - | - <;> simp only [hp, hq] at h
        · rfl
        · exact absurd (find?_some h) (by rw [hp]; exact Bool.false_ne_true)
        · exact absurd (find?_some h.symm) (by rw [hq]; exact Bool.false_ne_true)
        · rfl
      · obtain ⟨rfl, rfl⟩ := List.cons.inj heq
        obtain ⟨⟨hp, hq⟩, hpre⟩ := forall_mem_cons.1 hpre
        simp only [hp, hq] at h
        exact ih.1 h pre x suf rfl hpre
    · intro h
      have hfirst := h [] a l rfl (forall_mem_nil _)
      rcases hp : p a with - | - <;> rw [hp] at hfirst <;> simp only [← hfirst]
      exact ih.2 fun pre x suf heq hpre ↦ h (a :: pre) x suf (by rw [heq]; rfl)
        (forall_mem_cons.2 ⟨⟨hp, hfirst.symm⟩, hpre⟩)

theorem eraseP_congr (h : ∀ x ∈ l, p x = q x) : l.eraseP p = l.eraseP q := by
  induction l with
  | nil => rfl
  | cons x l ih =>
    rw [eraseP_cons, eraseP_cons, h x mem_cons_self, ih fun y hy ↦ h y (mem_cons_of_mem x hy)]

/-! ### Concatenations -/

theorem flatten_parts (l : List α) (m n : ℕ) :
    ((range n).map fun k ↦ (l.drop (m * k)).take m).flatten = l.take (m * n) := by
  induction n with
  | zero => simp
  | succ n ih => rw [range_succ, map_append, flatten_append, ih, Nat.mul_succ, take_add]; simp

theorem flatten_map_take_eq_iff (n : ℕ) (ws : List (List α)) :
    (ws.map (·.take n)).flatten = ws.flatten ↔ ∀ b ∈ ws, b.length ≤ n := by
  have hle : ∀ l : List (List α), ((l.map (·.take n)).flatten).length ≤ l.flatten.length := by
    intro l
    induction l with
    | nil => exact le_rfl
    | cons b l ih =>
      simp only [map_cons, flatten_cons, length_append, length_take]
      omega
  induction ws with
  | nil => simp
  | cons b ws ih =>
    rw [map_cons, flatten_cons, flatten_cons, forall_mem_cons]
    constructor
    · intro heq
      -- the tails do not get longer, so the heads have the same length
      have hlen := congrArg List.length heq
      have htail := hle ws
      simp only [length_append, length_take] at hlen
      have hb : b.length ≤ n := by omega
      rw [take_of_length_le hb] at heq
      exact ⟨hb, ih.1 (append_cancel_left heq)⟩
    · rintro ⟨hb, htail⟩
      rw [take_of_length_le hb, ih.2 htail]

end CapazOS
