import Mathlib.Algebra.Ring.Int.Defs
import Mathlib.Algebra.Ring.Nat
import Mathlib.Data.Fintype.Basic
import Mathlib.Data.Int.Cast.Basic
import Mathlib.Data.List.Basic
import Mathlib.Tactic.Common
import Mathlib.Tactic.FinCases

/-! # `base64.c`

The masks of the source keep every shifted value in its low byte, so eight bits stand for the
promoted `int`. Lengths are 32-bit `int`s that wrap. The buffers are lists: what is read of
the input, and what was written to the output. -/
namespace Base64

abbrev Byte := BitVec 8

def bad : ℤ := -1
def wrongFormat : ℤ := -2
def outputOverflow : ℤ := -3

def int (x : ℤ) : ℤ := x.bmod (2 ^ 32)

def byte (c : Char) : Byte := BitVec.ofNat 8 c.toNat

def base64digits : Vector Char 64 := #v[
  'A', 'B', 'C', 'D', 'E', 'F', 'G', 'H', 'I', 'J', 'K', 'L', 'M', 'N', 'O', 'P',
  'Q', 'R', 'S', 'T', 'U', 'V', 'W', 'X', 'Y', 'Z', 'a', 'b', 'c', 'd', 'e', 'f',
  'g', 'h', 'i', 'j', 'k', 'l', 'm', 'n', 'o', 'p', 'q', 'r', 's', 't', 'u', 'v',
  'w', 'x', 'y', 'z', '0', '1', '2', '3', '4', '5', '6', '7', '8', '9', '+', '/']

def base64val : Vector ℤ 128 := #v[
  bad, bad, bad, bad, bad, bad, bad, bad, bad, bad, bad, bad, bad, bad, bad, bad,
  bad, bad, bad, bad, bad, bad, bad, bad, bad, bad, bad, bad, bad, bad, bad, bad,
  bad, bad, bad, bad, bad, bad, bad, bad, bad, bad, bad, 62, bad, bad, bad, 63,
  52, 53, 54, 55, 56, 57, 58, 59, 60, 61, bad, bad, bad, bad, bad, bad,
  bad, 0, 1, 2, 3, 4, 5, 6, 7, 8, 9, 10, 11, 12, 13, 14,
  15, 16, 17, 18, 19, 20, 21, 22, 23, 24, 25, bad, bad, bad, bad, bad,
  bad, 26, 27, 28, 29, 30, 31, 32, 33, 34, 35, 36, 37, 38, 39, 40,
  41, 42, 43, 44, 45, 46, 47, 48, 49, 50, 51, bad, bad, bad, bad, bad]

def encode64 (c : Byte) : Byte :=
  if c &&& 0xC0#8 ≠ 0 then BitVec.ofInt 8 bad else byte (base64digits.getD c.toNat (Char.ofNat 0))

def decode64 (c : Byte) : Byte :=
  BitVec.ofInt 8 (if c &&& 0x80#8 ≠ 0 then bad else base64val.getD c.toNat 0)

/-- What a call returns and what it wrote from `out_org` on. -/
structure Coded where
  ret : ℤ
  out : List Byte
  deriving DecidableEq, Repr

def fail (code : ℤ) (out : List Byte) : Coded := ⟨code, 0#8 :: out.tail⟩

def terminate (outlen : ℤ) (out : List Byte) : Coded := ⟨outlen, out ++ [0#8]⟩

def room (maxlen outlen : ℤ) (out : List Byte) (next : Coded) : Coded :=
  if outlen ≥ maxlen ∧ maxlen ≠ 0 then fail outputOverflow out else next

/-- Store a character, and compare what was stored with `bad`. -/
def put (c : Byte) (out : List Byte) (next : List Byte → Coded) : Coded :=
  if c.toInt = bad then fail wrongFormat (out ++ [c]) else next (out ++ [c])

def encodeLoop (maxlen : ℤ) : List Byte → ℤ → List Byte → Coded
  | [], outlen, out => terminate outlen out
  | [a], outlen, out =>
    room maxlen (int (outlen + 4)) out <|
    put (encode64 ((a >>> 2) &&& 0x3F#8)) out fun out =>
    put (encode64 ((a <<< 4) &&& 0x30#8)) out fun out =>
    terminate (int (outlen + 4)) (out ++ [byte '=', byte '='])
  | [a, b], outlen, out =>
    room maxlen (int (outlen + 4)) out <|
    put (encode64 ((a >>> 2) &&& 0x3F#8)) out fun out =>
    put (encode64 (((a <<< 4) &&& 0x30#8) ||| ((b >>> 4) &&& 0x0F#8))) out fun out =>
    put (encode64 ((b <<< 2) &&& 0x3C#8)) out fun out =>
    terminate (int (outlen + 4)) (out ++ [byte '='])
  | a :: b :: c :: rest, outlen, out =>
    room maxlen (int (outlen + 4)) out <|
    put (encode64 ((a >>> 2) &&& 0x3F#8)) out fun out =>
    put (encode64 (((a <<< 4) &&& 0x30#8) ||| ((b >>> 4) &&& 0x0F#8))) out fun out =>
    put (encode64 (((b <<< 2) &&& 0x3C#8) ||| ((c >>> 6) &&& 0x03#8))) out fun out =>
    put (encode64 (c &&& 0x3F#8)) out fun out =>
    encodeLoop maxlen rest (int (outlen + 4)) out

def base64Encode (bytes : List Byte) (maxlen : ℤ) : Coded := encodeLoop maxlen bytes 0 []

/-- Look a character up, and compare the digit with `bad`. -/
def get (c : Byte) (out : List Byte) (next : Byte → Coded) : Coded :=
  if (decode64 c).toInt = bad then fail wrongFormat out else next (decode64 c)

def decodeLoop (maxlen : ℤ) : List Byte → ℤ → List Byte → Coded
  | c₀ :: c₁ :: c₂ :: c₃ :: rest, outlen, out =>
    room maxlen (int (outlen + 1)) out <|
    get c₀ out fun digit₀ =>
    get c₁ out fun digit₁ =>
    let out := out ++ [((digit₀ <<< 2) &&& 0xFC#8) ||| ((digit₁ >>> 4) &&& 0x03#8)]
    if c₂ = byte '=' then terminate (int (outlen + 1)) out
    else
      room maxlen (int (outlen + 2)) out <|
      get c₂ out fun digit₂ =>
      let out := out ++ [((digit₁ <<< 4) &&& 0xF0#8) ||| ((digit₂ >>> 2) &&& 0x0F#8)]
      if c₃ = byte '=' then terminate (int (outlen + 2)) out
      else
        room maxlen (int (outlen + 3)) out <|
        get c₃ out fun digit₃ =>
        let out := out ++ [((digit₂ <<< 6) &&& 0xC0#8) ||| (digit₃ &&& 0x3F#8)]
        decodeLoop maxlen rest (int (outlen + 3)) out
  | [], outlen, out => terminate outlen out
  | _ :: _, _, out => fail wrongFormat out

def base64Decode (text : List Byte) (maxlen : ℤ) : Coded := decodeLoop maxlen text 0 []

def Digit (v : Byte) : Prop := v &&& 0xC0#8 = 0#8

def alphabet : List Byte := base64digits.toList.map byte

variable {maxlen outlen : ℤ} {out bytes : List Byte} {a b c v : Byte}

theorem encode64_ofNat : ∀ v : Fin 64, encode64 (BitVec.ofNat 8 v) = byte base64digits[v] := by
  decide +kernel

theorem decode64_byte : ∀ v : Fin 64, decode64 (byte base64digits[v]) = BitVec.ofNat 8 v := by
  decide +kernel

theorem byte_digit : ∀ v : Fin 64, byte base64digits[v] ≠ byte '=' ∧
    (byte base64digits[v]).toInt ≠ bad ∧ (BitVec.ofNat 8 (v : ℕ)).toInt ≠ bad := by
  decide +kernel

theorem Digit.ofNat (h : Digit v) : ∃ k : Fin 64, v = BitVec.ofNat 8 k := by
  have hlt : ∀ n : Fin 256, BitVec.ofNat 8 n &&& 0xC0#8 = 0#8 → (n : ℕ) < 64 := by
    decide +kernel
  refine ⟨⟨v.toNat, hlt v.toFin ?_⟩, ?_⟩
  · simpa [Digit] using h
  · simp

theorem Digit.decode64 (h : Digit v) : decode64 (encode64 v) = v := by
  obtain ⟨k, rfl⟩ := h.ofNat
  rw [encode64_ofNat, decode64_byte]

theorem Digit.ne_pad (h : Digit v) : encode64 v ≠ byte '=' := by
  obtain ⟨k, rfl⟩ := h.ofNat
  rw [encode64_ofNat]
  exact (byte_digit k).1

theorem Digit.mem_alphabet (h : Digit v) : encode64 v ∈ alphabet := by
  obtain ⟨k, rfl⟩ := h.ofNat
  rw [encode64_ofNat]
  exact List.mem_map_of_mem (by simp)

theorem Digit.put (h : Digit v) {next : List Byte → Coded} :
    put (encode64 v) out next = next (out ++ [encode64 v]) := by
  obtain ⟨k, rfl⟩ := h.ofNat
  rw [encode64_ofNat, Base64.put, if_neg (byte_digit k).2.1]

theorem Digit.get (h : Digit v) {next : Byte → Coded} : get (encode64 v) out next = next v := by
  obtain ⟨k, rfl⟩ := h.ofNat
  rw [encode64_ofNat, Base64.get, decode64_byte, if_neg (byte_digit k).2.2]

theorem digit_and (h : c &&& 0xC0#8 = 0#8) : Digit (v &&& c) := by
  rw [Digit, BitVec.and_assoc, h, BitVec.and_zero]

theorem digit_or (h : Digit v) (h' : Digit c) : Digit (v ||| c) := by
  rw [Digit, BitVec.and_or_distrib_right, h, h', BitVec.or_zero]

def sextet₀ (a : Byte) : Byte := (a >>> 2) &&& 0x3F#8
def sextet₁ (a b : Byte) : Byte := ((a <<< 4) &&& 0x30#8) ||| ((b >>> 4) &&& 0x0F#8)
def sextet₂ (b c : Byte) : Byte := ((b <<< 2) &&& 0x3C#8) ||| ((c >>> 6) &&& 0x03#8)
def sextet₃ (c : Byte) : Byte := c &&& 0x3F#8

theorem digit_sextet₀ : Digit (sextet₀ a) := digit_and (by decide)

theorem digit_sextet₁ : Digit (sextet₁ a b) :=
  digit_or (digit_and (by decide)) (digit_and (by decide))

theorem digit_sextet₂ : Digit (sextet₂ b c) :=
  digit_or (digit_and (by decide)) (digit_and (by decide))

theorem digit_sextet₃ : Digit (sextet₃ c) := digit_and (by decide)

theorem sextet₁_zero : sextet₁ a 0#8 = (a <<< 4) &&& 0x30#8 := by
  simp [sextet₁]

theorem sextet₂_zero : sextet₂ b 0#8 = (b <<< 2) &&& 0x3C#8 := by
  simp [sextet₂]

theorem byte_ext {x y : Byte} (h : ∀ i : Fin 8, x.getLsbD i = y.getLsbD i) : x = y :=
  BitVec.eq_of_getLsbD_eq fun i hi => h ⟨i, hi⟩

theorem first_byte : ((sextet₀ a <<< 2) &&& 0xFC#8) ||| ((sextet₁ a b >>> 4) &&& 0x03#8) = a := by
  apply byte_ext
  intro i
  fin_cases i <;> simp [sextet₀, sextet₁]

theorem second_byte :
    ((sextet₁ a b <<< 4) &&& 0xF0#8) ||| ((sextet₂ b c >>> 2) &&& 0x0F#8) = b := by
  apply byte_ext
  intro i
  fin_cases i <;> simp [sextet₁, sextet₂]

theorem third_byte : ((sextet₂ b c <<< 6) &&& 0xC0#8) ||| (sextet₃ c &&& 0x3F#8) = c := by
  apply byte_ext
  intro i
  fin_cases i <;> simp [sextet₂, sextet₃]

def textOf : List Byte → List Byte
  | [] => []
  | [a] => [encode64 (sextet₀ a), encode64 (sextet₁ a 0#8), byte '=', byte '=']
  | [a, b] =>
    [encode64 (sextet₀ a), encode64 (sextet₁ a b), encode64 (sextet₂ b 0#8), byte '=']
  | a :: b :: c :: rest =>
    encode64 (sextet₀ a) :: encode64 (sextet₁ a b) :: encode64 (sextet₂ b c) ::
      encode64 (sextet₃ c) :: textOf rest

def textLength (n : ℕ) : ℕ := 4 * ((n + 2) / 3)

theorem textLength_add (n : ℕ) : textLength (n + 3) = textLength n + 4 := by
  simp only [textLength]
  omega

theorem length_textOf : (textOf bytes).length = textLength bytes.length := by
  induction bytes using textOf.induct with
  | case1 => rfl
  | case2 a => simp [textOf, textLength]
  | case3 a b => simp [textOf, textLength]
  | case4 a b c rest ih => simp [textOf, ih, textLength_add]

theorem textOf_alphabet : ∃ digits pads, textOf bytes = digits ++ List.replicate pads (byte '=') ∧
    (∀ d ∈ digits, d ∈ alphabet) ∧ pads ≤ 2 := by
  induction bytes using textOf.induct with
  | case1 => exact ⟨[], 0, rfl, by simp, by decide⟩
  | case2 a =>
    refine ⟨[_, _], 2, rfl, ?_, by decide⟩
    simp [digit_sextet₀.mem_alphabet, digit_sextet₁.mem_alphabet]
  | case3 a b =>
    refine ⟨[_, _, _], 1, rfl, ?_, by decide⟩
    simp [digit_sextet₀.mem_alphabet, digit_sextet₁.mem_alphabet, digit_sextet₂.mem_alphabet]
  | case4 a b c rest ih =>
    obtain ⟨digits, pads, htext, hdigits, hpads⟩ := ih
    refine ⟨_ :: _ :: _ :: _ :: digits, pads, by rw [textOf, htext]; rfl, ?_, hpads⟩
    simpa [digit_sextet₀.mem_alphabet, digit_sextet₁.mem_alphabet, digit_sextet₂.mem_alphabet,
      digit_sextet₃.mem_alphabet] using hdigits

theorem room_pos {next : Coded} (h : maxlen = 0 ∨ outlen < maxlen) :
    room maxlen outlen out next = next := by
  rw [room, if_neg]
  omega

theorem int_add (k n : ℤ) : int (int k + n) = int (k + n) := by
  simp [int]

theorem int_zero : int 0 = 0 := by decide

theorem int_eq {k : ℤ} (h₀ : 0 ≤ k) (h : k < 2 ^ 31) : int k = k :=
  Int.bmod_eq_of_le (by omega) (by omega)

theorem encodeLoop_eq {k : ℤ} (hroom : ∀ m : ℤ, 0 ≤ m → m ≤ textLength bytes.length →
    maxlen = 0 ∨ int (k + m) < maxlen) :
    encodeLoop maxlen bytes (int k) out =
      terminate (int (k + textLength bytes.length)) (out ++ textOf bytes) := by
  induction bytes using textOf.induct generalizing k out with
  | case1 => simp [encodeLoop, textOf, textLength]
  | case2 a =>
    rw [encodeLoop, int_add, room_pos (hroom 4 (by decide) (by simp [textLength])),
      Digit.put (digit_and (by decide)), Digit.put (digit_and (by decide))]
    simp [textOf, textLength, sextet₀, sextet₁_zero]
  | case3 a b =>
    rw [encodeLoop, int_add, room_pos (hroom 4 (by decide) (by simp [textLength])),
      Digit.put (digit_and (by decide)), Digit.put (digit_or (digit_and (by decide))
        (digit_and (by decide))), Digit.put (digit_and (by decide))]
    simp [textOf, textLength, sextet₀, sextet₁, sextet₂_zero]
  | case4 a b c rest ih =>
    have hlen : textLength (a :: b :: c :: rest).length = textLength rest.length + 4 :=
      textLength_add rest.length
    rw [encodeLoop, int_add, room_pos (hroom 4 (by decide) (by omega)),
      Digit.put (digit_and (by decide)), Digit.put (digit_or (digit_and (by decide))
        (digit_and (by decide))), Digit.put (digit_or (digit_and (by decide))
        (digit_and (by decide))), Digit.put (digit_and (by decide)), ih]
    · rw [hlen, Int.natCast_add, Int.add_assoc, Int.add_comm 4]
      simp [textOf, sextet₀, sextet₁, sextet₂, sextet₃]
    · intro m h₀ hm
      rw [Int.add_assoc]
      exact hroom (4 + m) (by omega) (by omega)

theorem decodeLoop_eq {k : ℤ} (hroom : ∀ m : ℤ, 0 ≤ m → m ≤ bytes.length →
    maxlen = 0 ∨ int (k + m) < maxlen) :
    decodeLoop maxlen (textOf bytes) (int k) out =
      terminate (int (k + bytes.length)) (out ++ bytes) := by
  induction bytes using textOf.induct generalizing k out with
  | case1 => simp [decodeLoop, textOf]
  | case2 a =>
    rw [textOf, decodeLoop, int_add, room_pos (hroom 1 (by decide) (by simp)), digit_sextet₀.get,
      digit_sextet₁.get]
    simp [first_byte]
  | case3 a b =>
    rw [textOf, decodeLoop, int_add, room_pos (hroom 1 (by decide) (by simp)), digit_sextet₀.get,
      digit_sextet₁.get]
    simp only [if_neg digit_sextet₂.ne_pad]
    rw [int_add, room_pos (hroom 2 (by decide) (by simp)), digit_sextet₂.get]
    simp [first_byte, second_byte]
  | case4 a b c rest ih =>
    have hlen : ((a :: b :: c :: rest).length : ℤ) = rest.length + 3 := by simp [Int.add_assoc]
    rw [textOf, decodeLoop, int_add, room_pos (hroom 1 (by decide) (by omega)),
      digit_sextet₀.get, digit_sextet₁.get]
    simp only [if_neg digit_sextet₂.ne_pad, if_neg digit_sextet₃.ne_pad]
    rw [int_add, room_pos (hroom 2 (by decide) (by omega)), digit_sextet₂.get, int_add,
      room_pos (hroom 3 (by decide) (by omega)), digit_sextet₃.get, ih]
    · rw [hlen, Int.add_assoc, Int.add_comm 3]
      simp [first_byte, second_byte, third_byte]
    · intro m h₀ hm
      rw [Int.add_assoc]
      exact hroom (3 + m) (by omega) (by omega)

/-- Encoding gives padded text of the alphabet, and decoding that text the bytes again. -/
def RoundTrip (bytes : List Byte) : Prop :=
  ∃ text : List Byte,
    (∀ maxlen : ℤ, maxlen = 0 ∨ textLength bytes.length < maxlen →
      base64Encode bytes maxlen = ⟨textLength bytes.length, text ++ [0#8]⟩) ∧
    (∃ digits pads, text = digits ++ List.replicate pads (byte '=') ∧
      (∀ d ∈ digits, d ∈ alphabet) ∧ pads ≤ 2) ∧
    ∀ maxlen : ℤ, maxlen = 0 ∨ bytes.length < maxlen →
      base64Decode text maxlen = ⟨bytes.length, bytes ++ [0#8]⟩

theorem round_trip (bytes : List Byte) (hint : textLength bytes.length < 2 ^ 31) :
    RoundTrip bytes := by
  have hle : bytes.length ≤ textLength bytes.length := by
    simp only [textLength]
    omega
  refine ⟨textOf bytes, ?_, textOf_alphabet, ?_⟩
  · intro maxlen hmax
    have h : encodeLoop maxlen bytes (int 0) [] =
        terminate (int (0 + textLength bytes.length)) ([] ++ textOf bytes) := by
      refine encodeLoop_eq fun m h₀ hm => ?_
      rw [Int.zero_add, int_eq h₀ (by omega)]
      omega
    rw [Int.zero_add, int_zero, int_eq (by omega) (by omega)] at h
    exact h
  · intro maxlen hmax
    have h : decodeLoop maxlen (textOf bytes) (int 0) [] =
        terminate (int (0 + bytes.length)) ([] ++ bytes) := by
      refine decodeLoop_eq fun m h₀ hm => ?_
      rw [Int.zero_add, int_eq h₀ (by omega)]
      omega
    rw [Int.zero_add, int_zero, int_eq (by omega) (by omega)] at h
    exact h

theorem round_trip_two_bytes : RoundTrip [0x4D#8, 0x61#8] := round_trip _ (by decide)

/-- From 1610612734 bytes on the length of the text is no `int`. -/
theorem long_text_no_round_trip : ¬ RoundTrip (List.replicate 1610612734 0#8) := by
  rintro ⟨text, hencode, -⟩
  have h := hencode 0 (.inl rfl)
  have hloop : encodeLoop 0 (List.replicate 1610612734 0#8) (int 0) [] =
      terminate (int (0 + textLength (List.replicate 1610612734 0#8).length))
        ([] ++ textOf (List.replicate 1610612734 0#8)) := encodeLoop_eq fun _ _ _ => .inl rfl
  rw [int_zero] at hloop
  rw [base64Encode, hloop, terminate, Coded.mk.injEq, List.length_replicate] at h
  exact absurd h.1 (by decide)

end Base64
