import Mathlib.Logic.Function.Basic
import Mathlib.Data.List.Basic

/-!
# Programs made of accesses to shared state

`Prog σ α` is code that other threads may interrupt, a tree of **accesses**; each access reads the
shared state and changes it in one indivisible step. `step` performs the next access, `run` performs
them all with nothing in between. After one access, running the rest from the new state gives what
running the whole gave (`run_step`).
-/

namespace Interleave

variable {σ α β : Type}

/-- A program over shared state `σ` with a result in `α`. -/
inductive Prog (σ α : Type) where
  | ret (a : α)
  | acc (upd : σ → σ) (next : σ → Prog σ α)

namespace Prog

def bind : Prog σ α → (α → Prog σ β) → Prog σ β
  | ret a, k => k a
  | acc upd next, k => acc upd fun s ↦ (next s).bind k

instance : Monad (Prog σ) where
  pure := ret
  bind := bind

def read (f : σ → α) : Prog σ α := acc id fun s ↦ ret (f s)

def write (f : σ → σ) : Prog σ Unit := acc f fun _ ↦ ret ()

def when (c : Bool) (p : Prog σ Unit) : Prog σ Unit := if c then p else ret ()

/-- The next access and the program after it, if the program has not ended. -/
def step : Prog σ α → σ → Option (Prog σ α × σ)
  | ret _, _ => none
  | acc upd next, s => some (next s, upd s)

def run : Prog σ α → σ → α × σ
  | ret a, s => (a, s)
  | acc upd next, s => (next s).run (upd s)

/-- **The rest of a program computes what is left of it.** -/
theorem run_step {p p' : Prog σ α} {s s' : σ} (h : p.step s = some (p', s')) : p'.run s' = p.run s := by
  cases p with
  | ret a => cases h
  | acc upd next =>
    obtain ⟨rfl, rfl⟩ := Prod.mk.inj (Option.some.inj h)
    rfl

/-! ### Computing `run`

The equations are not marked as definitional (`(rfl)`), so that `simp` rewrites conditions together
with their decision procedures. -/

@[simp] theorem run_pure (a : α) (s : σ) : (pure a : Prog σ α).run s = (a, s) := (rfl)

@[simp] theorem run_ret (a : α) (s : σ) : (ret a : Prog σ α).run s = (a, s) := (rfl)

@[simp] theorem run_bind (p : Prog σ α) (k : α → Prog σ β) (s : σ) :
    (p >>= k).run s = (k (p.run s).1).run (p.run s).2 := by
  induction p generalizing s with
  | ret a => rfl
  | acc upd next ih => exact ih s (upd s)

@[simp] theorem run_map (f : α → β) (p : Prog σ α) (s : σ) : (f <$> p).run s = (f (p.run s).1, (p.run s).2) :=
  run_bind p (fun a ↦ pure (f a)) s

@[simp] theorem run_read (f : σ → α) (s : σ) : (read f).run s = (f s, s) := (rfl)

@[simp] theorem run_write (f : σ → σ) (s : σ) : (write f).run s = ((), f s) := (rfl)

@[simp] theorem run_ite (c : Prop) [Decidable c] (p q : Prog σ α) (s : σ) :
    (if c then p else q).run s = if c then p.run s else q.run s := by
  split <;> rfl

@[simp] theorem run_when (c : Bool) (p : Prog σ Unit) (s : σ) :
    (when c p).run s = ((), if c then (p.run s).2 else s) := by
  unfold when
  split <;> rfl

/-! ### Loops -/

def forEach (f : α → Prog σ Unit) : List α → Prog σ Unit
  | [] => ret ()
  | x :: l => f x >>= fun _ ↦ forEach f l

def findFirst (f : α → Prog σ Bool) : List α → Prog σ (Option α)
  | [] => ret none
  | x :: l => f x >>= fun ok ↦ if ok then ret (some x) else findFirst f l

/-- Whether all elements pass a test; the loop stops at the first that does not. -/
def allOf (f : α → Prog σ Bool) : List α → Prog σ Bool
  | [] => ret true
  | x :: l => f x >>= fun ok ↦ if ok then allOf f l else ret false

@[simp] theorem run_forEach (f : α → Prog σ Unit) (l : List α) (s : σ) :
    (forEach f l).run s = ((), l.foldl (fun s x ↦ ((f x).run s).2) s) := by
  induction l generalizing s with
  | nil => rfl
  | cons x l ih => rw [forEach, run_bind, ih, List.foldl_cons]

theorem run_findFirst {f : α → Prog σ Bool} {q : α → Bool} {s : σ}
    (hf : ∀ x, (f x).run s = (q x, s)) (l : List α) : (findFirst f l).run s = (l.find? q, s) := by
  induction l with
  | nil => rfl
  | cons x l ih =>
    rw [findFirst, run_bind, hf, List.find?_cons]
    cases q x
    · exact ih
    · rfl

theorem run_allOf {f : α → Prog σ Bool} {q : α → Bool} {s : σ}
    (hf : ∀ x, (f x).run s = (q x, s)) (l : List α) : (allOf f l).run s = (l.all q, s) := by
  induction l with
  | nil => rfl
  | cons x l ih =>
    rw [allOf, run_bind, hf, List.all_cons]
    cases q x
    · rfl
    · exact ih

end Prog

end Interleave
