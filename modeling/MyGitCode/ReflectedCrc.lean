import Mathlib.Data.BitVec
import Mathlib.Logic.Function.Iterate

/-! # Reflected cyclic redundancy checks

A check of any width and polynomial, a bit at a time, and the step that takes `n` bits at once
by a table of `2 ^ n` words. -/
namespace ReflectedCrc

variable {w n : ℕ} {poly : BitVec w}

/-- One division step: the lowest bit leaves, and takes the polynomial with it if it is set. -/
def shift (poly crc : BitVec w) : BitVec w :=
  if crc.getLsbD 0 then (crc >>> 1) ^^^ poly else crc >>> 1

def feed (poly crc : BitVec w) (bit : Bool) : BitVec w :=
  if (crc.getLsbD 0 ^^ bit) then (crc >>> 1) ^^^ poly else crc >>> 1

/-- The bits of a byte in the order in which a reflected check takes them. -/
def bitsOf (b : BitVec 8) : List Bool := List.ofFn fun i : Fin 8 => b.getLsbD i

def checksum (poly : BitVec w) (bytes : List (BitVec 8)) : BitVec w :=
  ~~~ (bytes.flatMap bitsOf).foldl (feed poly) (BitVec.allOnes w)

def word (w : ℕ) (bits : List Bool) : BitVec w := (BitVec.ofBoolListLE bits).setWidth w

theorem shift_xor (a b : BitVec w) : shift poly (a ^^^ b) = shift poly a ^^^ shift poly b := by
  have hpoly : ∀ x y : BitVec w, x ^^^ poly ^^^ (y ^^^ poly) = x ^^^ y := by
    intro x y
    rw [BitVec.xor_comm y, BitVec.xor_assoc, ← BitVec.xor_assoc poly, BitVec.xor_self,
      BitVec.zero_xor]
  simp only [shift, BitVec.getLsbD_xor, BitVec.ushiftRight_xor_distrib]
  cases a.getLsbD 0 <;> cases b.getLsbD 0
  · rfl
  · simp [BitVec.xor_assoc]
  · simp only [Bool.xor_false, if_true, Bool.false_eq_true, if_false]
    rw [BitVec.xor_assoc, BitVec.xor_assoc, BitVec.xor_comm poly]
  · simp [hpoly]

theorem iterate_shift_xor (n : ℕ) (a b : BitVec w) :
    (shift poly)^[n] (a ^^^ b) = (shift poly)^[n] a ^^^ (shift poly)^[n] b := by
  induction n generalizing a b with
  | zero => rfl
  | succ n ih =>
    rw [Function.iterate_succ_apply, shift_xor, ih]
    rfl

theorem iterate_shift_high {x : BitVec w} (hx : ∀ i < n, x.getLsbD i = false) :
    (shift poly)^[n] x = x >>> n := by
  induction n with
  | zero => rfl
  | succ n ih =>
    rw [Function.iterate_succ_apply', ih fun i hi => hx i (by omega), shift, if_neg,
      BitVec.shiftRight_add]
    simpa using hx n (by omega)

theorem iterate_shift (n : ℕ) (x : BitVec w) :
    (shift poly)^[n] x = (shift poly)^[n] ((x.setWidth n).setWidth w) ^^^ (x >>> n) := by
  have hx : x = (x.setWidth n).setWidth w ^^^ ((x >>> n) <<< n) := by
    apply BitVec.eq_of_getLsbD_eq
    intro i hi
    by_cases h : i < n
    · simp [h, hi]
    · simp [h, hi, Nat.add_sub_cancel' (not_lt.mp h)]
  have hhigh : ∀ i < n, ((x >>> n) <<< n).getLsbD i = false := by
    intro i hi
    simp [hi]
  have hdown : ((x >>> n) <<< n) >>> n = x >>> n := by
    apply BitVec.eq_of_getLsbD_eq
    intro i hi
    by_cases h : n + i < w
    · simp [h]
    · simp [h, BitVec.getLsbD_of_ge x (n + i) (by omega)]
  conv => lhs; rw [hx]
  rw [iterate_shift_xor, iterate_shift_high hhigh, hdown]

theorem getLsbD_word (bits : List Bool) (i : ℕ) :
    (word w bits).getLsbD i = (decide (i < w) && bits.getD i false) := by
  rw [word, BitVec.getLsbD_setWidth, BitVec.getLsbD_ofBoolListLE]

theorem word_low {b : Bool} {bits : List Bool} (hw : 0 < w) :
    (word w (b :: bits)).getLsbD 0 = b := by
  rw [getLsbD_word, decide_eq_true hw, List.getD_cons_zero, Bool.true_and]

theorem word_shift {b : Bool} {bits : List Bool} (hlen : bits.length < w) :
    word w (b :: bits) >>> 1 = word w bits := by
  apply BitVec.eq_of_getLsbD_eq
  intro i hi
  rw [BitVec.getLsbD_ushiftRight, getLsbD_word, getLsbD_word, Nat.add_comm, List.getD_cons_succ,
    decide_eq_true hi, Bool.true_and]
  by_cases h : i + 1 < w
  · rw [decide_eq_true h, Bool.true_and]
  · rw [decide_eq_false h, List.getD_eq_getElem?_getD, List.getElem?_eq_none (by omega)]
    rfl

/-- The bits of a message mixed in one by one are the word they form, mixed in before the
first step. -/
theorem foldl_feed {bits : List Bool} (hlen : bits.length ≤ w) (crc : BitVec w) :
    bits.foldl (feed poly) crc = (shift poly)^[bits.length] (crc ^^^ word w bits) := by
  induction bits generalizing crc with
  | nil =>
    have hempty : word w [] = 0#w := by
      apply BitVec.eq_of_getLsbD_eq
      intro i hi
      simp [getLsbD_word]
    simp [hempty]
  | cons b bits ih =>
    have hw : bits.length < w := by
      rw [List.length_cons] at hlen
      omega
    have hstep : shift poly (crc ^^^ word w (b :: bits)) = feed poly crc b ^^^ word w bits := by
      simp only [shift, feed, BitVec.getLsbD_xor, BitVec.ushiftRight_xor_distrib,
        word_low (Nat.zero_lt_of_lt hw), word_shift hw]
      split
      · rw [BitVec.xor_assoc, BitVec.xor_assoc, BitVec.xor_comm poly]
      · rfl
    rw [List.foldl_cons, ih hw.le, List.length_cons, Function.iterate_succ_apply, hstep]

theorem word_bitsOf (b : BitVec 8) : word w (bitsOf b) = b.setWidth w := by
  apply BitVec.eq_of_getLsbD_eq
  intro i hi
  rw [getLsbD_word, BitVec.getLsbD_setWidth, decide_eq_true hi, Bool.true_and, Bool.true_and,
    bitsOf, List.getD_eq_getElem?_getD, List.getElem?_ofFn]
  split
  · rfl
  · exact (BitVec.getLsbD_of_ge b i (by omega)).symm

theorem foldl_feed_byte (hw : 8 ≤ w) (crc : BitVec w) (b : BitVec 8) :
    (bitsOf b).foldl (feed poly) crc =
      (shift poly)^[8] ((crc.setWidth 8 ^^^ b).setWidth w) ^^^ (crc >>> 8) := by
  have hbyte : (b.setWidth w) >>> 8 = 0#w := by
    apply BitVec.eq_of_getLsbD_eq
    intro i hi
    simp
  have hlow : (crc ^^^ b.setWidth w).setWidth 8 = crc.setWidth 8 ^^^ b := by
    apply BitVec.eq_of_getLsbD_eq
    intro i hi
    have hiw : i < w := by omega
    simp [hi, hiw]
  have hlen : (bitsOf b).length = 8 := List.length_ofFn
  rw [foldl_feed (by omega), hlen, word_bitsOf, iterate_shift, hlow,
    BitVec.ushiftRight_xor_distrib, hbyte, BitVec.xor_zero]

end ReflectedCrc
