import Mathlib.Data.Nat.Notation
import Mathlib.Data.List.Basic

/-! # Bounded NUL-terminated texts

A `char[cap]` array that holds a C string is its characters before the NUL. -/
namespace CText

structure Text (cap : ℕ) where
  chars : List Char
  fits : chars.length < cap
  deriving DecidableEq

def Text.empty {cap : ℕ} (h : 0 < cap) : Text cap := ⟨[], h⟩

/-- `strncpy (dst, src, n)` into a zeroed array of `cap` bytes. It has no result where
the copy would run past the array or leave no byte for the terminator. -/
def strncpy (cap : ℕ) (src : List Char) (n : ℕ) : Option (Text cap) :=
  if h : (src.take n).length < cap then some ⟨src.take n, h⟩ else none

variable {cap : ℕ} {src : List Char} {n : ℕ} {t : Text cap}

theorem strncpy_text (t : Text cap) : strncpy cap t.chars t.chars.length = some t := by
  simp [strncpy, t.fits]

end CText
