import Mathlib.Data.Finset.Card
import Mathlib.Logic.Function.Basic
import Mathlib.Tactic.IntervalCases

/-!
# A byte bitmap

A bitmap stored as bytes: bit `idx` lives in byte `idx >> 3` at position `idx & 7`. `bitTest_bitSet`
and `bitTest_bitClear` say what the two writers do to **every** index, and `clearCount`, the number
of clear bits among the first `n`, moves by exactly one under either.
-/

namespace CapazOS

open Function

variable {j i n : ℕ}

abbrev Bitmap := ℕ → BitVec 8

variable {bm : Bitmap}

/-- `bm[idx >> 3] |= (uint8_t)(1u << (idx & 7))`. -/
def bitSet (bm : Bitmap) (idx : ℕ) : Bitmap :=
  update bm (idx >>> 3) (bm (idx >>> 3) ||| (1#8 <<< (idx &&& 7)))

/-- `bm[idx >> 3] &= (uint8_t)~(1u << (idx & 7))`. -/
def bitClear (bm : Bitmap) (idx : ℕ) : Bitmap :=
  update bm (idx >>> 3) (bm (idx >>> 3) &&& ~~~(1#8 <<< (idx &&& 7)))

/-- `((bm[idx >> 3] >> (idx & 7)) & 1u) != 0`. -/
def bitTest (bm : Bitmap) (idx : ℕ) : Bool := ((bm (idx >>> 3) >>> (idx &&& 7)) &&& 1#8) != 0#8

/-! ### What the accessors do to every index -/

theorem shiftRight_three (idx : ℕ) : idx >>> 3 = idx / 8 := by rw [Nat.shiftRight_eq_div_pow]

theorem and_seven (idx : ℕ) : idx &&& 7 = idx % 8 := Nat.and_two_pow_sub_one_eq_mod idx 3

theorem bitTest_eq_getLsbD (bm : Bitmap) (idx : ℕ) : bitTest bm idx = (bm (idx / 8)).getLsbD (idx % 8) := by
  rw [bitTest, shiftRight_three, and_seven]
  rw [BitVec.and_one_eq_setWidth_ofBool_getLsbD, BitVec.getLsbD_ushiftRight, Nat.add_zero]
  cases (bm (idx / 8)).getLsbD (idx % 8) <;> rfl

theorem getLsbD_one_shiftLeft {k : ℕ} (hk : k < 8) (hj : j < 8) : (1#8 <<< k).getLsbD j = decide (j = k) := by
  interval_cases k <;> interval_cases j <;> rfl

theorem index_ext (hdiv : i / 8 = j / 8) (hmod : i % 8 = j % 8) : i = j := by omega

theorem bitTest_bitSet (bm : Bitmap) (i j : ℕ) : bitTest (bitSet bm i) j = (decide (j = i) || bitTest bm j) := by
  have hi : i % 8 < 8 := Nat.mod_lt _ (by omega)
  have hj : j % 8 < 8 := Nat.mod_lt _ (by omega)
  rw [bitTest_eq_getLsbD, bitTest_eq_getLsbD, bitSet, shiftRight_three, and_seven]
  by_cases hbyte : j / 8 = i / 8
  · rw [hbyte, update_self, BitVec.getLsbD_or, getLsbD_one_shiftLeft hi hj, Bool.or_comm]
    congr 1
    exact decide_eq_decide.2 ⟨fun h ↦ index_ext hbyte h, fun h ↦ by rw [h]⟩
  · rw [update_of_ne hbyte]
    have hne : j ≠ i := fun h ↦ hbyte (by rw [h])
    simp [hne]

theorem bitTest_bitClear (bm : Bitmap) (i j : ℕ) : bitTest (bitClear bm i) j = (!decide (j = i) && bitTest bm j) := by
  have hi : i % 8 < 8 := Nat.mod_lt _ (by omega)
  have hj : j % 8 < 8 := Nat.mod_lt _ (by omega)
  rw [bitTest_eq_getLsbD, bitTest_eq_getLsbD, bitClear, shiftRight_three, and_seven]
  by_cases hbyte : j / 8 = i / 8
  · rw [hbyte, update_self, BitVec.getLsbD_and, BitVec.getLsbD_not, getLsbD_one_shiftLeft hi hj, Bool.and_comm]
    have hdec : decide (j % 8 = i % 8) = decide (j = i) :=
      decide_eq_decide.2 ⟨fun h ↦ index_ext hbyte h, fun h ↦ by rw [h]⟩
    rw [hdec]
    simp [hj]
  · rw [update_of_ne hbyte]
    have hne : j ≠ i := fun h ↦ hbyte (by rw [h])
    simp [hne]

@[simp] theorem bitTest_bitClear_self (bm : Bitmap) (i : ℕ) : bitTest (bitClear bm i) i = false := by
  simp [bitTest_bitClear]

theorem bitTest_bitClear_of_ne (bm : Bitmap) (h : j ≠ i) : bitTest (bitClear bm i) j = bitTest bm j := by
  simp [bitTest_bitClear, h]

/-! ### Counting clear bits -/

def clearBits (bm : Bitmap) (n : ℕ) : Finset ℕ :=
  (Finset.range n).filter fun i ↦ bitTest bm i = false

/-- The number of clear bits among the first `n`. -/
def clearCount (bm : Bitmap) (n : ℕ) : ℕ := (clearBits bm n).card

theorem mem_clearBits : i ∈ clearBits bm n ↔ i < n ∧ bitTest bm i = false := by simp [clearBits]

theorem clearBits_bitSet (bm : Bitmap) (n i : ℕ) : clearBits (bitSet bm i) n = (clearBits bm n).erase i := by
  ext j
  rw [Finset.mem_erase, mem_clearBits, mem_clearBits, bitTest_bitSet]
  by_cases h : j = i <;> simp [h]

theorem clearBits_bitClear (bm : Bitmap) (hi : i < n) : clearBits (bitClear bm i) n = insert i (clearBits bm n) := by
  ext j
  rw [Finset.mem_insert, mem_clearBits, mem_clearBits, bitTest_bitClear]
  by_cases h : j = i
  · simp [h, hi]
  · simp [h]

theorem clearCount_bitSet (hi : i < n) (hc : bitTest bm i = false) :
    clearCount (bitSet bm i) n + 1 = clearCount bm n := by
  rw [clearCount, clearBits_bitSet, clearCount]
  exact Finset.card_erase_add_one (mem_clearBits.2 ⟨hi, hc⟩)

theorem clearCount_bitClear (hi : i < n) (hs : bitTest bm i = true) :
    clearCount (bitClear bm i) n = clearCount bm n + 1 := by
  rw [clearCount, clearBits_bitClear bm hi, clearCount]
  refine Finset.card_insert_of_notMem fun hmem ↦ ?_
  rw [mem_clearBits, hs] at hmem
  exact Bool.noConfusion hmem.2

/-! ### Runs of bits -/

def setRun (bm : Bitmap) (i : ℕ) : ℕ → Bitmap
  | 0 => bm
  | count + 1 => bitSet (setRun bm i count) (i + count)

/-- The `count` bits from `i` on are all clear. -/
def runClear (bm : Bitmap) (count i : ℕ) : Bool :=
  (List.range count).all fun j ↦ !bitTest bm (i + j)

theorem runClear_iff {count : ℕ} : runClear bm count i = true ↔ ∀ j < count, bitTest bm (i + j) = false := by
  simp [runClear]

theorem bitTest_setRun (bm : Bitmap) (i j : ℕ) :
    ∀ count, bitTest (setRun bm i count) j = (decide (i ≤ j ∧ j < i + count) || bitTest bm j)
  | 0 => by simp [setRun]
  | count + 1 => by
    rw [setRun, bitTest_bitSet, bitTest_setRun bm i j count, ← Bool.or_assoc]
    congr 1
    rw [← Bool.decide_or]
    exact decide_eq_decide.2 (by omega)

theorem clearCount_setRun : ∀ {count}, i + count ≤ n → (∀ j < count, bitTest bm (i + j) = false) →
      clearCount (setRun bm i count) n + count = clearCount bm n
  | 0, _, _ => by rw [setRun, Nat.add_zero]
  | count + 1, hle, hclear => by
    have ih : clearCount (setRun bm i count) n + count = clearCount bm n :=
      clearCount_setRun (by omega) fun j hj ↦ hclear j (by omega)
    have hbit : bitTest (setRun bm i count) (i + count) = false := by
      rw [bitTest_setRun, hclear count (by omega)]
      simp
    have hset := clearCount_bitSet (n := n) (by omega) hbit
    rw [setRun]
    omega

end CapazOS
