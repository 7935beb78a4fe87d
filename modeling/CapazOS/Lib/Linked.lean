import Mathlib.Data.List.Nodup
import Mathlib.Order.Basic

/-!
# Terminated paths along a partial successor

`Linked next a l` says that following `next` from `a` visits exactly the elements of `l`, in order,
and then stops. A path is determined by its start and visits no element twice; it depends on the
successors of its own elements only, and redirecting its last element extends it.
-/

namespace CapazOS

open List

variable {α : Type*}

/-- Following `next` from `a` visits exactly `l` and stops. -/
inductive Linked (next : α → Option α) : α → List α → Prop
  | last {a : α} : next a = none → Linked next a [a]
  | cons {a b : α} {l : List α} : next a = some b → Linked next b l → Linked next a (a :: l)

namespace Linked

variable {next next' : α → Option α} {a : α} {l : List α}

section

variable (h : Linked next a l)
include h

theorem ne_nil : l ≠ [] := by cases h <;> exact cons_ne_nil _ _

theorem head_mem : a ∈ l := by cases h <;> exact mem_cons_self

theorem head?_eq : l.head? = some a := by cases h <;> rfl

theorem unique {l' : List α} (h' : Linked next a l') : l = l' := by
  induction h generalizing l' with
  | last hstop =>
    cases h' with
    | last _ => rfl
    | cons hnext _ => exact absurd (hstop.symm.trans hnext) (Option.some_ne_none _).symm
  | cons hnext _ ih =>
    cases h' with
    | last hstop => exact absurd (hstop.symm.trans hnext) (Option.some_ne_none _).symm
    | cons hnext' htail =>
      obtain rfl := Option.some.inj (hnext.symm.trans hnext')
      rw [ih htail]

theorem drop {x : α} {k : ℕ} (hx : l[k]? = some x) : Linked next x (l.drop k) := by
  induction h generalizing k with
  | last hstop =>
    cases k with
    | zero =>
      obtain rfl := Option.some.inj hx
      exact .last hstop
    | succ k => cases hx
  | cons hnext htail ih =>
    cases k with
    | zero =>
      obtain rfl := Option.some.inj hx
      exact .cons hnext htail
    | succ k => exact ih hx

/-- A path that stops visits no element twice: the path from a repeated element would be a proper
part of itself. -/
theorem nodup : l.Nodup := by
  induction h with
  | last _ => exact nodup_singleton _
  | @cons a b l hnext htail ih =>
    refine nodup_cons.2 ⟨fun hmem ↦ ?_, ih⟩
    obtain ⟨k, hk⟩ := getElem?_of_mem hmem
    have heq := (htail.drop hk).unique (.cons hnext htail)
    have hlen := congrArg List.length heq
    rw [length_drop, length_cons] at hlen
    omega

theorem next_mem {x y : α} (hx : x ∈ l) (hy : next x = some y) : y ∈ l := by
  obtain ⟨k, hk⟩ := getElem?_of_mem hx
  have hsuf := h.drop hk
  generalize hdrop : l.drop k = suf at hsuf
  cases hsuf with
  | last hstop => exact absurd (hstop.symm.trans hy) (Option.some_ne_none _).symm
  | cons hnext htail =>
    obtain rfl := Option.some.inj (hnext.symm.trans hy)
    exact mem_of_mem_drop (hdrop ▸ mem_cons_of_mem _ htail.head_mem)

theorem congr (hagree : ∀ x ∈ l, next' x = next x) : Linked next' a l := by
  induction h with
  | @last a hstop => exact .last ((hagree a mem_cons_self).trans hstop)
  | @cons a b l hnext _ ih =>
    exact .cons ((hagree a mem_cons_self).trans hnext) (ih fun x hx ↦ hagree x (mem_cons_of_mem _ hx))

theorem append {b : α} {m : List α} (hlast : next' (l.getLast h.ne_nil) = some b) (hm : Linked next' b m)
    (hagree : ∀ x ∈ l, x ≠ l.getLast h.ne_nil → next' x = next x) : Linked next' a (l ++ m) := by
  induction h with
  | last hstop => exact .cons hlast hm
  | @cons a c l hnext htail ih =>
    have hne := htail.ne_nil
    have hnodup := (Linked.cons hnext htail).nodup
    have hgl : (a :: l).getLast (cons_ne_nil a l) = l.getLast hne := getLast_cons hne
    have hahead : a ≠ l.getLast hne := fun heq ↦ (nodup_cons.1 hnodup).1 (heq ▸ getLast_mem hne)
    refine .cons ((hagree a mem_cons_self (by rwa [hgl])).trans hnext) (ih ?_ ?_)
    · rwa [hgl] at hlast
    · intro x hx hxne
      exact hagree x (mem_cons_of_mem _ hx) (by rwa [hgl])

end

end Linked

end CapazOS
