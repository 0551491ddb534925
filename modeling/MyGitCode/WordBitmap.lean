import Mathlib.Data.Nat.Notation
import Mathlib.Tactic.Common

/-! # A set of small naturals kept as bits of 32-bit words

Bit `i` is bit `i % 32` of word `i / 32`, the way C code indexes an `unsigned int` array. -/
namespace WordBitmap

abbrev Bitmap (n : ℕ) := Vector (BitVec 32) n

def empty (n : ℕ) : Bitmap n := Vector.replicate n 0#32

def mask (i : ℕ) : BitVec 32 := 1#32 <<< (i % 32)

variable {n i j : ℕ} {m : Bitmap n}

def isSet (m : Bitmap n) (i : ℕ) : Bool :=
  if h : i / 32 < n then m[i / 32] &&& mask i != 0#32 else false

def set (m : Bitmap n) (i : ℕ) : Bitmap n :=
  if h : i / 32 < n then Vector.set m (i / 32) (m[i / 32] ||| mask i) else m

def clear (m : Bitmap n) (i : ℕ) : Bitmap n :=
  if h : i / 32 < n then Vector.set m (i / 32) (m[i / 32] &&& ~~~ mask i) else m

private theorem and_mask (x : BitVec 32) (i : ℕ) :
    (x &&& mask i != 0#32) = x.getLsbD (i % 32) := by
  have hi : i % 32 < 32 := Nat.mod_lt _ (by decide)
  rw [mask, ← BitVec.twoPow_eq, BitVec.and_twoPow]
  have hne : BitVec.twoPow 32 (i % 32) ≠ 0#32 := by
    intro h
    have := congrArg (fun y : BitVec 32 => y.getLsbD (i % 32)) h
    simp [hi] at this
  cases x.getLsbD (i % 32) <;> simp [hne]

theorem isSet_eq (h : i / 32 < n) : isSet m i = m[i / 32].getLsbD (i % 32) := by
  rw [isSet, dif_pos h, and_mask]

theorem isSet_of_le (h : n ≤ i / 32) : isSet m i = false := by
  rw [isSet, dif_neg (by omega)]

private theorem getLsbD_mask (i j : ℕ) :
    (mask i).getLsbD (j % 32) = decide (i % 32 = j % 32) := by
  have hi : i % 32 < 32 := Nat.mod_lt _ (by decide)
  rw [mask, ← BitVec.twoPow_eq, BitVec.getLsbD_twoPow]
  simp [hi]

private theorem same_bit : i / 32 = j / 32 ∧ i % 32 = j % 32 ↔ i = j := by omega

@[simp] theorem isSet_empty : isSet (empty n) i = false := by
  by_cases h : i / 32 < n
  · simp [isSet_eq h, empty]
  · exact isSet_of_le (by omega)

theorem isSet_set (h : i / 32 < n) : isSet (set m i) j = (decide (j = i) || isSet m j) := by
  by_cases hj : j / 32 < n
  · rw [isSet_eq hj, isSet_eq hj, set, dif_pos h]
    by_cases hw : i / 32 = j / 32
    · have hb : (i % 32 = j % 32) ↔ j = i := by have := same_bit (i := i) (j := j); omega
      simp only [hw, Vector.getElem_set_self, BitVec.getLsbD_or, getLsbD_mask, hb]
      exact Bool.or_comm _ _
    · have hne : j ≠ i := by rintro rfl; exact hw rfl
      simp [Vector.getElem_set_ne h hj hw, hne]
  · have hne : j ≠ i := by rintro rfl; exact hj h
    simp [isSet_of_le (show n ≤ j / 32 by omega), hne]

theorem isSet_clear (h : i / 32 < n) :
    isSet (clear m i) j = (decide (j ≠ i) && isSet m j) := by
  by_cases hj : j / 32 < n
  · rw [isSet_eq hj, isSet_eq hj, clear, dif_pos h]
    by_cases hw : i / 32 = j / 32
    · have hb : (i % 32 = j % 32) ↔ j = i := by have := same_bit (i := i) (j := j); omega
      have hlt : j % 32 < 32 := Nat.mod_lt _ (by decide)
      simp only [hw, Vector.getElem_set_self, BitVec.getLsbD_and, BitVec.getLsbD_not,
        getLsbD_mask, hb, hlt, decide_true, Bool.true_and]
      rw [Bool.and_comm]
      simp
    · have hne : j ≠ i := by rintro rfl; exact hw rfl
      simp [Vector.getElem_set_ne h hj hw, hne]
  · simp [isSet_of_le (show n ≤ j / 32 by omega)]

end WordBitmap
