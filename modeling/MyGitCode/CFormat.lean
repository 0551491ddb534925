import Mathlib.Algebra.Group.Nat.Defs
import Mathlib.Algebra.Ring.Int.Defs
import Mathlib.Data.List.TakeWhile

/-! # Formatted texts and decimal numbers

`sprintf` with the directives `%s`, `%d` and `%llu`, and the reading of decimal numbers. A C
string is its characters before the NUL. -/
namespace CFormat

def decimal : ℤ → List Char
  | .ofNat n => Nat.toDigits 10 n
  | .negSucc n => '-' :: Nat.toDigits 10 (n + 1)

inductive Arg where
  | s (text : List Char)
  | d (z : ℤ)
  | llu (n : ℕ)
  deriving DecidableEq, Repr

def sprintf : List Char → List Arg → List Char
  | '%' :: 's' :: format, .s text :: args => text ++ sprintf format args
  | '%' :: 'd' :: format, .d z :: args => decimal z ++ sprintf format args
  | '%' :: 'l' :: 'l' :: 'u' :: format, .llu n :: args => decimal n ++ sprintf format args
  | c :: format, args => c :: sprintf format args
  | [], _ => []

/-- A text that does not fit the array with its NUL has no defined behaviour. -/
def sprintfInto (size : ℕ) (format : List Char) (args : List Arg) : Option (List Char) :=
  if (sprintf format args).length < size then some (sprintf format args) else none

def isSpace (c : Char) : Bool := c.toNat = 32 || (9 ≤ c.toNat && c.toNat ≤ 13)

def digits (str : List Char) : ℕ := Nat.ofDigitChars 10 (str.takeWhile Char.isDigit) 0

def parseInt (str : List Char) : ℤ :=
  match str.dropWhile isSpace with
  | '-' :: rest => - (digits rest : ℤ)
  | '+' :: rest => digits rest
  | rest => digits rest

/-- `strtoll` stops at the limits of `long long`. -/
def atoll (str : List Char) : ℤ := max (-2 ^ 63) (min (parseInt str) (2 ^ 63 - 1))

/-- `strtol`, of which an `int` keeps the low bits. -/
def atoi (str : List Char) : ℤ := (atoll str).bmod (2 ^ 32)

/-- A minus sign negates the number that stands behind it. -/
def strtoull (str : List Char) : ℕ :=
  if 2 ^ 64 ≤ (parseInt str).natAbs then 2 ^ 64 - 1 else (parseInt str % 2 ^ 64).toNat

variable {z : ℤ} {n k : ℕ} {str : List Char} {c : Char}

theorem sprintfInto_eq_some {size : ℕ} {format : List Char} {args : List Arg} :
    sprintfInto size format args = some str ↔
      (sprintf format args).length < size ∧ sprintf format args = str := by
  rw [sprintfInto, Option.ite_none_right_eq_some, Option.some.injEq]

inductive Directive where
  | s | d | llu
  deriving DecidableEq, Repr

def Directive.chars : Directive → List Char
  | .s => ['%', 's']
  | .d => ['%', 'd']
  | .llu => ['%', 'l', 'l', 'u']

def Arg.directive : Arg → Directive
  | .s _ => .s
  | .d _ => .d
  | .llu _ => .llu

def Arg.text : Arg → List Char
  | .s text => text
  | .d z => decimal z
  | .llu n => decimal n

def formatOf : List (List Char × Directive) → List Char → List Char
  | [], tail => tail
  | piece :: pieces, tail => piece.1 ++ (piece.2.chars ++ formatOf pieces tail)

def filled : List (List Char × Directive) → List Arg → List Char → List Char
  | piece :: pieces, arg :: args, tail => piece.1 ++ (arg.text ++ filled pieces args tail)
  | _, _, tail => tail

theorem sprintf_plain {format : List Char} {args : List Arg} (h : '%' ∉ str) :
    sprintf (str ++ format) args = str ++ sprintf format args := by
  induction str with
  | nil => rfl
  | cons c str ih =>
    rw [List.mem_cons, not_or] at h
    rw [List.cons_append, sprintf, ih h.2]
    · rfl
    all_goals
      intros
      subst_vars
      exact absurd rfl h.1

theorem sprintf_directive {format : List Char} (arg : Arg) (args : List Arg) :
    sprintf (arg.directive.chars ++ format) (arg :: args) = arg.text ++ sprintf format args := by
  cases arg <;> rfl

theorem sprintf_formatOf {pieces : List (List Char × Directive)} {tail : List Char}
    {args : List Arg} (hargs : (args.take pieces.length).map Arg.directive = pieces.map Prod.snd)
    (hplain : ∀ piece ∈ pieces, '%' ∉ piece.1) (htail : '%' ∉ tail) :
    sprintf (formatOf pieces tail) args = filled pieces args tail := by
  induction pieces generalizing args with
  | nil =>
    have htail : sprintf (tail ++ []) args = tail ++ sprintf [] args := sprintf_plain htail
    simpa [sprintf, formatOf, filled] using htail
  | cons piece pieces ih =>
    cases args with
    | nil => simp at hargs
    | cons arg args =>
      rw [List.forall_mem_cons] at hplain
      simp only [List.length_cons, List.take_succ_cons, List.map_cons, List.cons.injEq] at hargs
      rw [formatOf, sprintf_plain hplain.1, ← hargs.1, sprintf_directive, ih hargs.2 hplain.2,
        filled]

theorem isDigit_of_mem (hc : c ∈ Nat.toDigits 10 n) : c.isDigit = true :=
  Nat.isDigit_of_mem_toDigits (by decide) (by decide) hc

theorem not_mem_decimal (hdigit : c.isDigit = false) (hminus : c ≠ '-') : c ∉ decimal z := by
  have hdigits {n : ℕ} : c ∉ Nat.toDigits 10 n := by
    intro hc
    rw [isDigit_of_mem hc] at hdigit
    cases hdigit
  cases z with
  | ofNat n => exact hdigits
  | negSucc n =>
    rw [decimal, List.mem_cons, not_or]
    exact ⟨hminus, hdigits⟩

theorem decimal_length (hk : 0 < k) (hz : z.natAbs < 10 ^ k) : (decimal z).length ≤ k + 1 := by
  have hlen {n : ℕ} (hn : n < 10 ^ k) : (Nat.toDigits 10 n).length ≤ k :=
    (Nat.length_toDigits_le_iff (by decide) hk).mpr hn
  cases z with
  | ofNat n => exact Nat.le_succ_of_le (hlen hz)
  | negSucc n => exact Nat.succ_le_succ (hlen hz)

theorem digits_toDigits : digits (Nat.toDigits 10 n) = n := by
  rw [digits, List.takeWhile_eq_self_iff.mpr fun _ => isDigit_of_mem, Nat.ofDigitChars_ten_toDigits]

theorem isSpace_of_isDigit (hc : c.isDigit = true) : isSpace c = false := by
  have hrange : 48 ≤ c.toNat ∧ c.toNat ≤ 57 := Char.isDigit_iff_toNat.mp hc
  simp only [isSpace, Bool.or_eq_false_iff, Bool.and_eq_false_iff, decide_eq_false_iff_not]
  omega

theorem parseInt_digits (h : ∀ c ∈ str, c.isDigit = true) : parseInt str = digits str := by
  have hdrop : str.dropWhile isSpace = str := by
    cases str with
    | nil => rfl
    | cons c str =>
      have hspace := isSpace_of_isDigit (h c List.mem_cons_self)
      exact List.dropWhile_cons_of_neg (by rw [hspace]; exact Bool.false_ne_true)
  rw [parseInt, hdrop]
  split
  · exact absurd (h '-' List.mem_cons_self) (by decide)
  · exact absurd (h '+' List.mem_cons_self) (by decide)
  · rfl

theorem digits_append {rest : List Char} (h : ∀ c ∈ str, c.isDigit = true) :
    digits (str ++ rest) =
      10 ^ (rest.takeWhile Char.isDigit).length * digits str + digits rest := by
  rw [digits, List.takeWhile_append_of_pos h, Nat.ofDigitChars_append,
    Nat.ofDigitChars_eq_ofDigitChars_zero, digits, List.takeWhile_eq_self_iff.mpr h]
  rfl

theorem digits_lt (h : ∀ c ∈ str, c.isDigit = true) : digits str < 10 ^ str.length := by
  induction str with
  | nil => decide
  | cons c str ih =>
    rw [List.forall_mem_cons] at h
    have hc : 48 ≤ c.toNat ∧ c.toNat ≤ 57 := Char.isDigit_iff_toNat.mp h.1
    have hone : digits [c] = c.toNat - 48 := by simp [digits, h.1, Nat.ofDigitChars_cons]
    have hsplit : digits ([c] ++ str) = _ := digits_append (by simpa using h.1)
    rw [List.takeWhile_eq_self_iff.mpr h.2, hone] at hsplit
    have hrest := ih h.2
    rw [← List.singleton_append, hsplit, List.length_append, List.length_singleton, Nat.pow_add]
    have hle := Nat.mul_le_mul_left (10 ^ str.length) (show c.toNat - 48 ≤ 9 by omega)
    omega

theorem parseInt_decimal (z : ℤ) : parseInt (decimal z) = z := by
  cases z with
  | ofNat n =>
    obtain ⟨c, rest, hcons⟩ := List.exists_cons_of_ne_nil (Nat.toDigits_ne_nil (n := n) (b := 10))
    have hc : c.isDigit = true := isDigit_of_mem (by rw [hcons]; exact List.mem_cons_self)
    have hspace := isSpace_of_isDigit hc
    have hdrop : (Nat.toDigits 10 n).dropWhile isSpace = Nat.toDigits 10 n := by
      rw [hcons, List.dropWhile_cons_of_neg (by rw [hspace]; exact Bool.false_ne_true)]
    rw [decimal, parseInt, hdrop]
    split
    · rename_i h
      rw [hcons] at h
      cases h
      cases hc
    · rename_i h
      rw [hcons] at h
      cases h
      cases hc
    · rw [digits_toDigits]
      rfl
  | negSucc n =>
    rw [decimal, parseInt, List.dropWhile_cons_of_neg (by decide)]
    simp only [digits_toDigits]
    rfl

theorem atoll_eq (hlow : -2 ^ 63 ≤ parseInt str) (hhigh : parseInt str < 2 ^ 63) :
    atoll str = parseInt str := by
  rw [atoll]
  omega

theorem atoll_of_le (h : 2 ^ 63 ≤ parseInt str) : atoll str = 2 ^ 63 - 1 := by
  rw [atoll]
  omega

theorem atoi_eq (hlow : -2 ^ 31 ≤ parseInt str) (hhigh : parseInt str < 2 ^ 31) :
    atoi str = parseInt str := by
  rw [atoi, atoll_eq (by omega) (by omega), Int.bmod_eq_of_le] <;> omega

theorem atoll_decimal (hlow : -2 ^ 63 ≤ z) (hhigh : z < 2 ^ 63) : atoll (decimal z) = z := by
  rw [← parseInt_decimal z] at hlow hhigh
  rw [atoll_eq hlow hhigh, parseInt_decimal]

theorem strtoull_lt : strtoull str < 2 ^ 64 := by
  rw [strtoull]
  split <;> omega

theorem strtoull_decimal (h : n < 2 ^ 64) : strtoull (decimal n) = n := by
  have hn : ¬ 2 ^ 64 ≤ (n : ℤ).natAbs := by omega
  rw [strtoull, parseInt_decimal, if_neg hn]
  omega

theorem atoi_decimal (hlow : -2 ^ 31 ≤ z) (hhigh : z < 2 ^ 31) : atoi (decimal z) = z := by
  rw [← parseInt_decimal z] at hlow hhigh
  rw [atoi_eq hlow hhigh, parseInt_decimal]

end CFormat
