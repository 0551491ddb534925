import Mathlib.Algebra.Field.Rat
import Mathlib.Algebra.Group.Nat.Defs
import Mathlib.Algebra.Order.Field.Power
import Mathlib.Algebra.Order.Field.Rat
import Mathlib.Algebra.Ring.Int.Defs
import Mathlib.Data.BitVec
import Mathlib.Tactic.Positivity
import MyGitCode.CFormat

/-! # `json-c`: values and the texts they are printed as

What the vendored library does with a value once it is parsed. A text is its bytes, and a double
its bits. -/
namespace JsonTexts

open CFormat

mutual

/-- A value as `json-c` keeps it; null is the NULL pointer. -/
inductive Json where
  | null
  | boolean (value : Bool)
  | double (bits : BitVec 64)
  | int (value : ℤ)
  | string (text : List Char)
  | array (elements : Elements)
  | object (members : Members)

inductive Elements where
  | nil
  | cons (value : Json) (rest : Elements)

/-- The members of an object, no two of one name. -/
inductive Members where
  | nil
  | cons (name : List Char) (value : Json) (rest : Members)

end

/-- `json_object_get_type`, as the library that is shipped numbers the types. -/
def Json.typeNumber : Json → ℕ
  | .null => 0
  | .boolean _ => 1
  | .double _ => 2
  | .int _ => 3
  | .object _ => 4
  | .array _ => 5
  | .string _ => 6

def doubleValue (bits : BitVec 64) : ℚ :=
  let sign : ℚ := if bits.toNat / 2 ^ 63 = 0 then 1 else -1
  let exponent : ℕ := bits.toNat / 2 ^ 52 % 2 ^ 11
  let fraction : ℕ := bits.toNat % 2 ^ 52
  if exponent = 0 then sign * fraction * (2 : ℚ) ^ (-1074 : ℤ)
  else sign * (2 ^ 52 + fraction : ℕ) * (2 : ℚ) ^ ((exponent : ℤ) - 1075)

/-- `n / d` rounded to the nearest number, to the even one of two. -/
def roundEven (n d : ℕ) : ℕ :=
  let r := n % d
  if 2 * r < d then n / d
  else if d < 2 * r then n / d + 1
  else n / d + n / d % 2

def millionths (q : ℚ) : ℕ := roundEven (q.num.natAbs * 10 ^ 6) q.den

def sixDigits (n : ℕ) : List Char :=
  (List.range 6).reverse.map fun i => Nat.digitChar (n / 10 ^ i % 10)

/-- `snprintf (buf, 128, "%f", value)` of a finite double whose text fits. -/
def formatDouble (bits : BitVec 64) : List Char :=
  let n := millionths (doubleValue bits)
  (if bits.toNat / 2 ^ 63 = 0 then [] else ['-']) ++
    (Nat.toDigits 10 (n / 10 ^ 6) ++ '.' :: sixDigits (n % 10 ^ 6))

def hexDigit (n : ℕ) : Char := "0123456789abcdef".toList.getD n '0'

/-- `json_escape_str`. -/
def escape (str : List Char) : List Char :=
  str.flatMap fun c =>
    if c.toNat = 8 then "\\b".toList
    else if c = '\n' then "\\n".toList
    else if c = '\r' then "\\r".toList
    else if c = '\t' then "\\t".toList
    else if c.toNat = 12 then "\\f".toList
    else if c = '"' then "\\\"".toList
    else if c = '\\' then "\\\\".toList
    else if c = '/' then "\\/".toList
    else if c < ' ' then "\\u00".toList ++ [hexDigit (c.toNat / 16), hexDigit (c.toNat % 16)]
    else [c]

mutual

/-- `json_object_to_json_string`. -/
def Json.text : Json → List Char
  | .null => "null".toList
  | .boolean value => if value then "true".toList else "false".toList
  | .double bits => formatDouble bits
  | .int value => decimal value
  | .string text => '"' :: escape text ++ ['"']
  | .array elements => '[' :: elements.text false ++ " ]".toList
  | .object members => '{' :: members.text false ++ [' ', '}']

def Elements.text (hadChildren : Bool) : Elements → List Char
  | .nil => []
  | .cons value rest =>
    (if hadChildren then ",".toList else []) ++ ' ' :: value.text ++ rest.text true

def Members.text (hadChildren : Bool) : Members → List Char
  | .nil => []
  | .cons name value rest =>
    (if hadChildren then ",".toList else []) ++ " \"".toList ++ escape name ++ "\": ".toList ++
      value.text ++ rest.text true

end

mutual

def Json.map (f : BitVec 64 → BitVec 64) : Json → Json
  | .double bits => .double (f bits)
  | .array elements => .array (elements.map f)
  | .object members => .object (members.map f)
  | .null => .null
  | .boolean value => .boolean value
  | .int value => .int value
  | .string text => .string text

def Elements.map (f : BitVec 64 → BitVec 64) : Elements → Elements
  | .nil => .nil
  | .cons value rest => .cons (value.map f) (rest.map f)

def Members.map (f : BitVec 64 → BitVec 64) : Members → Members
  | .nil => .nil
  | .cons name value rest => .cons name (value.map f) (rest.map f)

end

def Members.get : Members → List Char → Json
  | .nil, _ => .null
  | .cons name value rest, key => if name = key then value else rest.get key

/-- `json_object_object_get`. -/
def Json.get (object : Json) (key : List Char) : Json :=
  match object with
  | .object members => members.get key
  | _ => .null

/-- `json_object_get_int` of an integer. -/
def Json.getInt : Json → ℤ
  | .int value => max (-2 ^ 31) (min value (2 ^ 31 - 1))
  | _ => 0

/-- `json_object_get_double` of a double. -/
def Json.getDouble : Json → BitVec 64
  | .double bits => bits
  | _ => 0

/-- `json_object_get_string`. -/
def Json.getString : Json → List Char
  | .string text => text
  | value => value.text

def numberValue : Json → Option ℚ
  | .int value => some value
  | .double bits => some (doubleValue bits)
  | _ => none

def truncated (q : ℚ) : ℤ := q.num.tdiv q.den

def InInt (z : ℤ) : Prop := -2 ^ 31 ≤ z ∧ z < 2 ^ 31

/-- The six decimals that are printed reach the next number without decimals. -/
def RoundsUp (q : ℚ) : Prop := millionths q / 10 ^ 6 ≠ q.num.natAbs / q.den

variable {object : Json} {f : BitVec 64 → BitVec 64} {key : List Char} {bits : BitVec 64}
  {q : ℚ} {n d : ℕ}

theorem get_map : ∀ members : Members, (members.map f).get key = (members.get key).map f
  | .nil => by rw [Members.map, Members.get, Json.map]
  | .cons name value rest => by
    rw [Members.map, Members.get, Members.get]
    by_cases hname : name = key
    · rw [if_pos hname, if_pos hname]
    · rw [if_neg hname, if_neg hname, get_map rest]

theorem json_get_map : (object.map f).get key = (object.get key).map f := by
  cases object with
  | object members =>
    rw [Json.map]
    exact get_map members
  | _ => simp [Json.map, Json.get]

theorem truncated_intCast (v : ℤ) : truncated v = v := by
  rw [truncated, Rat.num_intCast, Rat.den_intCast]
  exact Int.tdiv_one v

theorem roundEven_mem (n d : ℕ) : roundEven n d = n / d ∨ roundEven n d = n / d + 1 := by
  rw [roundEven]
  split
  · exact .inl rfl
  · split
    · exact .inr rfl
    · have hmod : n / d % 2 < 2 := Nat.mod_lt _ (by decide)
      omega

theorem millionths_div (q : ℚ) : millionths q / 10 ^ 6 = q.num.natAbs / q.den ∨
    millionths q / 10 ^ 6 = q.num.natAbs / q.den + 1 := by
  have hdiv : q.num.natAbs * 10 ^ 6 / q.den / 10 ^ 6 = q.num.natAbs / q.den := by
    rw [Nat.div_div_eq_div_mul, Nat.mul_div_mul_right _ _ (by decide)]
  rw [millionths]
  rcases roundEven_mem (q.num.natAbs * 10 ^ 6) q.den with h | h
  · rw [h]
    exact .inl hdiv
  · rw [h]
    omega

theorem digits_point (n : ℕ) (rest : List Char) :
    digits (Nat.toDigits 10 n ++ '.' :: rest) = n := by
  rw [digits_append fun _ => isDigit_of_mem, digits_toDigits]
  have hstop : ('.' :: rest).takeWhile Char.isDigit = [] :=
    List.takeWhile_cons_of_neg (by decide)
  rw [digits, hstop]
  simp

theorem parseInt_point (n : ℕ) (rest : List Char) :
    parseInt (Nat.toDigits 10 n ++ '.' :: rest) = n := by
  obtain ⟨c, cs, hcons⟩ := List.exists_cons_of_ne_nil (Nat.toDigits_ne_nil (n := n) (b := 10))
  have hc : c.isDigit = true := isDigit_of_mem (by rw [hcons]; exact List.mem_cons_self)
  have hdrop : (Nat.toDigits 10 n ++ '.' :: rest).dropWhile isSpace =
      Nat.toDigits 10 n ++ '.' :: rest := by
    rw [hcons, List.cons_append,
      List.dropWhile_cons_of_neg (Bool.eq_false_iff.mp (isSpace_of_isDigit hc))]
  rw [parseInt, hdrop]
  split
  · rename_i h
    rw [hcons] at h
    cases h
    cases hc
  · rename_i h
    rw [hcons] at h
    cases h
    cases hc
  · rw [digits_point]

theorem parseInt_minus_point (n : ℕ) (rest : List Char) :
    parseInt ('-' :: (Nat.toDigits 10 n ++ '.' :: rest)) = -n := by
  rw [parseInt, List.dropWhile_cons_of_neg (by decide)]
  simp only [digits_point]

theorem doubleValue_nonneg (h : bits.toNat / 2 ^ 63 = 0) : 0 ≤ doubleValue bits := by
  rw [doubleValue]
  simp only [h, if_true]
  split <;> positivity

theorem doubleValue_nonpos (h : bits.toNat / 2 ^ 63 ≠ 0) : doubleValue bits ≤ 0 := by
  rw [doubleValue]
  simp only [h, if_false, neg_mul, one_mul]
  split <;> exact neg_nonpos.mpr (by positivity)

theorem truncated_nonneg (h : 0 ≤ q) : truncated q = (q.num.natAbs / q.den : ℕ) := by
  have hnum : (q.num.natAbs : ℤ) = q.num := Int.natAbs_of_nonneg (Rat.num_nonneg.mpr h)
  rw [truncated, ← hnum]
  rfl

theorem truncated_nonpos (h : q ≤ 0) : truncated q = -(q.num.natAbs / q.den : ℕ) := by
  have hnum : q.num = -(q.num.natAbs : ℤ) := by
    have := Rat.num_nonpos.mpr h
    omega
  rw [truncated, hnum, Int.neg_tdiv, Int.natAbs_neg, Int.natAbs_natCast]
  rfl

theorem parseInt_formatDouble (bits : BitVec 64) : parseInt (formatDouble bits) =
    if bits.toNat / 2 ^ 63 = 0 then ((millionths (doubleValue bits) / 10 ^ 6 : ℕ) : ℤ)
    else -((millionths (doubleValue bits) / 10 ^ 6 : ℕ) : ℤ) := by
  rw [formatDouble]
  generalize millionths (doubleValue bits) = n
  split
  · rw [List.nil_append, parseInt_point]
  · rw [List.singleton_append, parseInt_minus_point]

theorem parseInt_formatDouble_iff :
    parseInt (formatDouble bits) = truncated (doubleValue bits) ↔
      ¬ RoundsUp (doubleValue bits) := by
  rw [parseInt_formatDouble, RoundsUp, not_not]
  split
  · rename_i hsign
    rw [truncated_nonneg (doubleValue_nonneg hsign)]
    exact Int.natCast_inj
  · rename_i hsign
    rw [truncated_nonpos (doubleValue_nonpos hsign), neg_inj]
    exact Int.natCast_inj

theorem parseInt_formatDouble_near :
    (parseInt (formatDouble bits) - truncated (doubleValue bits)).natAbs ≤ 1 := by
  have hnear := millionths_div (doubleValue bits)
  rw [parseInt_formatDouble]
  split
  · rename_i hsign
    rw [truncated_nonneg (doubleValue_nonneg hsign)]
    omega
  · rename_i hsign
    rw [truncated_nonpos (doubleValue_nonpos hsign)]
    omega

theorem inInt_bmod (z : ℤ) : InInt (z.bmod (2 ^ 32)) := by
  have hlow : -2 ^ 31 ≤ z.bmod (2 ^ 32) := Int.le_bmod (by decide)
  have hhigh : z.bmod (2 ^ 32) < 2 ^ 31 := Int.bmod_lt (by decide)
  exact ⟨hlow, hhigh⟩

/-- `atoi` of the text of a double is the double without its decimals where these do not round
up, and an `int` holds it. -/
theorem atoi_formatDouble_iff : atoi (formatDouble bits) = truncated (doubleValue bits) ↔
    InInt (truncated (doubleValue bits)) ∧ ¬ RoundsUp (doubleValue bits) := by
  rw [← parseInt_formatDouble_iff]
  constructor
  · intro h
    have hin : InInt (truncated (doubleValue bits)) := h ▸ inInt_bmod _
    have hnear := @parseInt_formatDouble_near bits
    obtain ⟨hlow, hhigh⟩ := hin
    refine ⟨⟨hlow, hhigh⟩, ?_⟩
    rw [atoi, atoll_eq (by omega) (by omega), Int.bmod] at h
    split at h <;> omega
  · rintro ⟨⟨hlow, hhigh⟩, h⟩
    rw [atoi_eq (by omega) (by omega), h]

theorem atoi_decimal_iff (v : ℤ) : atoi (decimal v) = v ↔ InInt v := by
  constructor
  · intro h
    rw [← h]
    exact inInt_bmod _
  · exact fun h => atoi_decimal h.1 h.2

end JsonTexts
