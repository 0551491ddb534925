import MyGitCode.Base64Grammar
import Mathlib.Data.Vector.Basic

/-! # `base64.c`: the two buffers

The functions over the bytes they may touch: an access outside has no result. The output buffer
has the `maxlen` bytes that the caller names. What they leave there is what the functions over
lists say was written. -/
namespace Base64Bounds

open Base64

structure Done (size : ℕ) where
  ret : ℤ
  out : Vector Byte size
  deriving DecidableEq, Repr

variable {size : ℕ}

def store (buf : Vector Byte size) (p : ℕ) (c : Byte) : Option (Vector Byte size) :=
  if h : p < size then some (buf.set p c h) else none

/-- `memset (out, 0x00, maxlen)`. -/
def memset (out : Vector Byte size) : Vector Byte size := out.map fun _ => 0#8

def refuse (code : ℤ) (buf : Vector Byte size) : Option (Done size) := do
  let buf ← store buf 0 0#8
  return ⟨code, buf⟩

def finish (outlen : ℤ) (buf : Vector Byte size) (p : ℕ) : Option (Done size) := do
  let buf ← store buf p 0#8
  return ⟨outlen, buf⟩

def checked (maxlen outlen : ℤ) (buf : Vector Byte size) (next : Option (Done size)) :
    Option (Done size) :=
  if outlen ≥ maxlen ∧ maxlen ≠ 0 then refuse outputOverflow buf else next

/-- Store a character, and compare what was stored with `bad`. -/
def putChar (c : Byte) (buf : Vector Byte size) (p : ℕ)
    (next : Vector Byte size → ℕ → Option (Done size)) : Option (Done size) := do
  let buf ← store buf p c
  if c.toInt = bad then refuse wrongFormat buf else next buf (p + 1)

def pad (buf : Vector Byte size) (p : ℕ) (next : Vector Byte size → ℕ → Option (Done size)) :
    Option (Done size) := do
  let buf ← store buf p (byte '=')
  next buf (p + 1)

/-- What the second character of the tail is made of: a byte behind the first one is read only
where there is one. -/
def fragment (inp : List Byte) (inlen i : ℕ) (a : Byte) : Option Byte :=
  if inlen > 1 then
    inp[i + 1]?.map fun (b : Byte) => ((a <<< 4) &&& 0x30#8) ||| ((b >>> 4) &&& 0x0F#8)
  else some ((a <<< 4) &&& 0x30#8)

def endTail (outlen : ℤ) (buf : Vector Byte size) (p : ℕ) : Option (Done size) :=
  pad buf p fun buf p => finish outlen buf p

def encodeTail (inp : List Byte) (maxlen : ℤ) (inlen i : ℕ) (outlen : ℤ)
    (buf : Vector Byte size) (p : ℕ) : Option (Done size) :=
  if inlen > 0 then
    checked maxlen (int (outlen + 4)) buf do
    let a ← inp[i]?
    putChar (encode64 ((a >>> 2) &&& 0x3F#8)) buf p fun buf p => do
    let f ← fragment inp inlen i a
    putChar (encode64 f) buf p fun buf p =>
    if inlen < 2 then pad buf p (endTail (int (outlen + 4)))
    else do
      let b ← inp[i + 1]?
      putChar (encode64 ((b <<< 2) &&& 0x3C#8)) buf p (endTail (int (outlen + 4)))
  else finish outlen buf p

def encodeFrom (inp : List Byte) (maxlen : ℤ) :
    ℕ → ℕ → ℤ → Vector Byte size → ℕ → Option (Done size)
  | inlen + 3, i, outlen, buf, p =>
    checked maxlen (int (outlen + 4)) buf do
    let a ← inp[i]?
    putChar (encode64 ((a >>> 2) &&& 0x3F#8)) buf p fun buf p => do
    let b ← inp[i + 1]?
    putChar (encode64 (((a <<< 4) &&& 0x30#8) ||| ((b >>> 4) &&& 0x0F#8))) buf p fun buf p => do
    let c ← inp[i + 2]?
    putChar (encode64 (((b <<< 2) &&& 0x3C#8) ||| ((c >>> 6) &&& 0x03#8))) buf p fun buf p =>
    putChar (encode64 (c &&& 0x3F#8)) buf p fun buf p =>
    encodeFrom inp maxlen inlen (i + 3) (int (outlen + 4)) buf p
  | inlen, i, outlen, buf, p => encodeTail inp maxlen inlen i outlen buf p

def base64Encode (maxlen : ℕ) (out : Vector Byte maxlen) (inp : List Byte) (inlen : ℕ) :
    Option (Done maxlen) :=
  encodeFrom inp maxlen inlen 0 0 (memset out) 0

/-- Look a character up, and compare the digit with `bad`. -/
def getChar (c : Byte) (buf : Vector Byte size) (next : Byte → Option (Done size)) :
    Option (Done size) :=
  if (decode64 c).toInt = bad then refuse wrongFormat buf else next (decode64 c)

def decodeFrom (inp : List Byte) (maxlen : ℤ) :
    ℕ → ℕ → ℤ → Vector Byte size → ℕ → Option (Done size)
  | inlen + 4, i, outlen, buf, p =>
    checked maxlen (int (outlen + 1)) buf do
    let c₀ ← inp[i]?
    getChar c₀ buf fun digit₀ => do
    let c₁ ← inp[i + 1]?
    getChar c₁ buf fun digit₁ => do
    let buf ← store buf p (((digit₀ <<< 2) &&& 0xFC#8) ||| ((digit₁ >>> 4) &&& 0x03#8))
    let c₂ ← inp[i + 2]?
    if c₂ = byte '=' then finish (int (outlen + 1)) buf (p + 1)
    else
      checked maxlen (int (outlen + 2)) buf <|
      getChar c₂ buf fun digit₂ => do
      let buf ← store buf (p + 1) (((digit₁ <<< 4) &&& 0xF0#8) ||| ((digit₂ >>> 2) &&& 0x0F#8))
      let c₃ ← inp[i + 3]?
      if c₃ = byte '=' then finish (int (outlen + 2)) buf (p + 2)
      else
        checked maxlen (int (outlen + 3)) buf <|
        getChar c₃ buf fun digit₃ => do
        let buf ← store buf (p + 2) (((digit₂ <<< 6) &&& 0xC0#8) ||| (digit₃ &&& 0x3F#8))
        decodeFrom inp maxlen inlen (i + 4) (int (outlen + 3)) buf (p + 3)
  | inlen, _, outlen, buf, p =>
    if inlen > 0 then refuse wrongFormat buf else finish outlen buf p

def base64Decode (maxlen : ℕ) (out : Vector Byte maxlen) (inp : List Byte) (inlen : ℕ) :
    Option (Done maxlen) :=
  decodeFrom inp maxlen inlen 0 0 (memset out) 0

def held (size : ℕ) (written : List Byte) : Vector Byte size :=
  Vector.ofFn fun i => written.getD i 0#8

def placed (size : ℕ) (y : Coded) : Option (Done size) :=
  if y.out.length ≤ size then some ⟨y.ret, held size y.out⟩ else none

/-- From `written` on the two functions go together. Nothing that was written is taken back. -/
def Fits (written : List Byte) (x : Option (Done size)) (y : Coded) : Prop :=
  written.length ≤ y.out.length ∧ (written.length ≤ size → x = placed size y)

variable {written out : List Byte} {c : Byte} {code k maxlen : ℤ} {x : Option (Done size)}
  {y : Coded} {next : Vector Byte size → ℕ → Option (Done size)}

theorem getElem_held {i : ℕ} (h : i < size) : (held size written)[i] = written.getD i 0#8 :=
  Vector.getElem_ofFn h

theorem toList_held (h : written.length ≤ size) :
    (held size written).toList = written ++ List.replicate (size - written.length) 0#8 := by
  apply List.ext_getElem
  · simp only [Vector.length_toList, List.length_append, List.length_replicate]
    omega
  · intro i h₁ h₂
    rw [Vector.getElem_toList, getElem_held, List.getD_eq_getElem?_getD]
    by_cases hi : i < written.length
    · simp [hi]
    · rw [List.getElem_append_right (by omega), List.getElem_replicate,
        List.getElem?_eq_none (by omega)]
      rfl

theorem memset_eq (buf : Vector Byte size) : memset buf = held size [] := by
  apply Vector.ext
  intro i hi
  rw [getElem_held, memset, Vector.getElem_map]
  rfl

theorem held_set (h : written.length < size) :
    (held size written).set written.length c h = held size (written ++ [c]) := by
  apply Vector.ext
  intro i hi
  rw [Vector.getElem_set, getElem_held, getElem_held]
  simp only [List.getD_eq_getElem?_getD]
  split
  · rename_i heq
    subst heq
    simp
  · rename_i hne
    rcases Nat.lt_or_gt_of_ne (Ne.symm hne) with hlt | hgt
    · rw [List.getElem?_append_left hlt]
    · have hlen : (written ++ [c]).length ≤ i := by
        rw [List.length_append]
        exact hgt
      rw [List.getElem?_eq_none (Nat.le_of_lt hgt), List.getElem?_eq_none hlen]

theorem held_clear (h : 0 < size) :
    (held size written).set 0 0#8 h = held size (0#8 :: written.tail) := by
  apply Vector.ext
  intro i hi
  rw [Vector.getElem_set, getElem_held, getElem_held]
  cases i with
  | zero => simp
  | succ i => cases written <;> simp

theorem fits_store {p : ℕ} {next : Vector Byte size → Option (Done size)}
    (hp : p = written.length)
    (h : Fits (written ++ [c]) (next (held size (written ++ [c]))) y) :
    Fits written (store (held size written) p c >>= next) y := by
  subst hp
  obtain ⟨hlen, heq⟩ := h
  rw [List.length_append, List.length_singleton] at hlen heq
  refine ⟨by omega, fun _ => ?_⟩
  by_cases hlt : written.length < size
  · rw [store, dif_pos hlt, held_set hlt]
    exact heq hlt
  · rw [store, dif_neg hlt, placed, if_neg (by omega)]
    rfl

theorem fits_finish {p : ℕ} (hp : p = written.length) :
    Fits written (finish k (held size written) p) (terminate k written) := by
  refine fits_store hp ⟨Nat.le_refl _, fun hle => ?_⟩
  rw [placed]
  exact (if_pos hle).symm

theorem fits_fail : Fits written (refuse code (held size written)) (fail code written) := by
  constructor
  · simp only [fail, List.length_cons, List.length_tail]
    omega
  · intro hle
    have hlen : (0#8 :: written.tail).length ≤ size ↔ 0 < size := by
      simp only [List.length_cons, List.length_tail]
      omega
    rw [placed, fail, refuse, store]
    by_cases hpos : 0 < size
    · rw [dif_pos hpos, if_pos (hlen.2 hpos), held_clear hpos]
      rfl
    · rw [dif_neg hpos, if_neg fun h => hpos (hlen.1 h)]
      rfl

theorem fits_room (h : Fits written x y) :
    Fits written (checked maxlen k (held size written) x) (room maxlen k written y) := by
  rw [checked, room]
  split
  · exact fits_fail
  · exact h

theorem fits_put {next' : List Byte → Coded} (h : Fits (written ++ [c])
    (next (held size (written ++ [c])) (written ++ [c]).length) (next' (written ++ [c]))) :
    Fits written (putChar c (held size written) written.length next) (put c written next') := by
  rw [List.length_append] at h
  rw [putChar, put]
  apply fits_store rfl
  split
  · exact fits_fail
  · exact h

theorem fits_pad (h : Fits (written ++ [byte '='])
    (next (held size (written ++ [byte '='])) (written ++ [byte '=']).length) y) :
    Fits written (pad (held size written) written.length next) y := by
  rw [List.length_append] at h
  exact fits_store rfl h

theorem fits_get {next : Byte → Option (Done size)} {next' : Byte → Coded}
    (h : ∀ digit, Fits written (next digit) (next' digit)) :
    Fits written (getChar c (held size written) next) (get c written next') := by
  rw [getChar, Base64.get]
  split
  · exact fits_fail
  · exact h _

section Loops

variable {before rest beyond : List Byte}

theorem read_at {j : ℕ} {a : Byte} (h : rest[j]? = some a) :
    (before ++ rest ++ beyond)[before.length + j]? = some a := by
  have hlt := (List.getElem?_eq_some_iff.1 h).1
  rw [List.append_assoc, List.getElem?_append_right (by omega), Nat.add_sub_cancel_left,
    List.getElem?_append_left hlt, h]

theorem fits_read {a : Byte} {o : Option Byte} {next : Byte → Option (Done size)}
    (ho : o = some a) (h : Fits written (next a) y) : Fits written (o >>= next) y := by
  rw [ho]
  exact h

theorem fits_endTail : Fits written (endTail k (held size written) written.length)
    (terminate k (written ++ [byte '='])) := by
  apply fits_pad
  exact fits_finish rfl

theorem fits_encodeTail (h : rest.length < 3) :
    Fits written (encodeTail (before ++ rest ++ beyond) maxlen rest.length before.length k
      (held size written) written.length) (encodeLoop maxlen rest k written) := by
  match rest, h with
  | [], _ => exact fits_finish rfl
  | [a], _ =>
    rw [encodeTail, encodeLoop, if_pos (by simp)]
    apply fits_room
    apply fits_read (read_at (j := 0) rfl)
    apply fits_put
    apply fits_read rfl
    apply fits_put
    rw [if_pos (by simp), List.append_cons _ (byte '=') [byte '=']]
    apply fits_pad
    exact fits_endTail
  | [a, b], _ =>
    have hb : (before ++ [a, b] ++ beyond)[before.length + 1]? = some b := read_at rfl
    have hf : fragment (before ++ [a, b] ++ beyond) [a, b].length before.length a =
        some (((a <<< 4) &&& 0x30#8) ||| ((b >>> 4) &&& 0x0F#8)) := by
      rw [fragment, if_pos (by simp), hb]
      rfl
    rw [encodeTail, encodeLoop, if_pos (by simp)]
    apply fits_room
    apply fits_read (read_at (j := 0) rfl)
    apply fits_put
    apply fits_read hf
    apply fits_put
    rw [if_neg (by simp)]
    apply fits_read hb
    apply fits_put
    exact fits_endTail

theorem fits_encodeFrom (size : ℕ) : ∀ (before rest beyond : List Byte) {written : List Byte}
    {k : ℤ},
    Fits written (encodeFrom (before ++ rest ++ beyond) maxlen rest.length before.length k
      (held size written) written.length) (encodeLoop maxlen rest k written)
  | _, [], _, _, _ => fits_encodeTail (by simp)
  | _, [_], _, _, _ => fits_encodeTail (by simp)
  | _, [_, _], _, _, _ => fits_encodeTail (by simp)
  | before, a :: b :: c :: rest, beyond, written, k => by
    rw [encodeLoop]
    apply fits_room
    apply fits_read (read_at (j := 0) rfl)
    apply fits_put
    apply fits_read (read_at rfl)
    apply fits_put
    apply fits_read (read_at rfl)
    apply fits_put
    apply fits_put
    have hinp : before ++ a :: b :: c :: rest ++ beyond =
        before ++ [a, b, c] ++ rest ++ beyond := by simp
    have hlen : before.length + 3 = (before ++ [a, b, c]).length := by simp
    rw [hinp, hlen]
    exact fits_encodeFrom size _ rest beyond

theorem fits_decodeFrom (size : ℕ) : ∀ (before rest beyond : List Byte) {written : List Byte}
    {k : ℤ},
    Fits written (decodeFrom (before ++ rest ++ beyond) maxlen rest.length before.length k
      (held size written) written.length) (decodeLoop maxlen rest k written)
  | _, [], _, _, _ => fits_finish rfl
  | _, [_], _, _, _ => fits_fail
  | _, [_, _], _, _, _ => fits_fail
  | _, [_, _, _], _, _, _ => fits_fail
  | before, c₀ :: c₁ :: c₂ :: c₃ :: rest, beyond, written, k => by
    rw [decodeLoop]
    apply fits_room
    apply fits_read (read_at (j := 0) rfl)
    apply fits_get
    intro digit₀
    apply fits_read (read_at rfl)
    apply fits_get
    intro digit₁
    apply fits_store rfl
    apply fits_read (read_at rfl)
    dsimp only
    split
    · exact fits_finish (by simp)
    · apply fits_room
      apply fits_get
      intro digit₂
      apply fits_store (by simp)
      apply fits_read (read_at rfl)
      split
      · exact fits_finish (by simp)
      · apply fits_room
        apply fits_get
        intro digit₃
        apply fits_store (by simp)
        have hinp : before ++ c₀ :: c₁ :: c₂ :: c₃ :: rest ++ beyond =
            before ++ [c₀, c₁, c₂, c₃] ++ rest ++ beyond := by simp
        have hlen : before.length + 4 = (before ++ [c₀, c₁, c₂, c₃]).length := by simp
        rw [hinp, hlen]
        convert fits_decodeFrom size _ rest beyond using 2
        simp

end Loops

theorem base64Encode_eq (out : Vector Byte size) (inp beyond : List Byte) :
    base64Encode size out (inp ++ beyond) inp.length =
      placed size (Base64.base64Encode inp size) := by
  rw [base64Encode, memset_eq]
  exact (fits_encodeFrom size [] inp beyond).2 (Nat.zero_le _)

theorem base64Decode_eq (out : Vector Byte size) (inp beyond : List Byte) :
    base64Decode size out (inp ++ beyond) inp.length =
      placed size (Base64.base64Decode inp size) := by
  rw [base64Decode, memset_eq]
  exact (fits_decodeFrom size [] inp beyond).2 (Nat.zero_le _)

/-- What is written has room, a NUL ends a result, and an error leaves an empty string. -/
structure Bounded (size : ℕ) (y : Coded) : Prop where
  room : y.out.length ≤ size
  ended : 0 ≤ y.ret → y.out[y.ret.toNat]? = some 0#8
  cleared : y.ret < 0 → y.out[0]? = some 0#8

theorem bounded_terminate {n : ℕ} (hout : out.length = n) (h : n < size) :
    Bounded size (terminate n out) := by
  constructor
  · simp only [terminate, List.length_append, List.length_singleton]
    omega
  · intro _
    simp [terminate, ← hout]
  · intro hneg
    exact absurd hneg (by simp [terminate])

theorem bounded_fail (hcode : code < 0) (h : out.length < size) :
    Bounded size (fail code out) := by
  constructor
  · simp only [fail, List.length_cons, List.length_tail]
    omega
  · intro hpos
    exact absurd hpos (Int.not_le.2 hcode)
  · intro _
    rfl

theorem encodeLoop_step {bytes : List Byte} (h : bytes ≠ []) :
    encodeLoop maxlen bytes k out = room maxlen (int (k + 4)) out
      (encodeLoop maxlen (bytes.drop 3) (int (k + 4)) (out ++ textOf (bytes.take 3))) := by
  match bytes, h with
  | [a], _ =>
    rw [encodeLoop, Digit.put (digit_and (by decide)), Digit.put (digit_and (by decide))]
    simp [encodeLoop, textOf, sextet₀, sextet₁_zero]
  | [a, b], _ =>
    rw [encodeLoop, Digit.put (digit_and (by decide)), Digit.put (digit_or (digit_and (by decide))
        (digit_and (by decide))), Digit.put (digit_and (by decide))]
    simp [encodeLoop, textOf, sextet₀, sextet₁, sextet₂_zero]
  | a :: b :: c :: rest, _ =>
    rw [encodeLoop, Digit.put (digit_and (by decide)), Digit.put (digit_or (digit_and (by decide))
        (digit_and (by decide))), Digit.put (digit_or (digit_and (by decide))
        (digit_and (by decide))), Digit.put (digit_and (by decide))]
    simp [textOf, sextet₀, sextet₁, sextet₂, sextet₃]

theorem group_induction {motive : List Byte → Prop} (nil : motive [])
    (group : ∀ bytes, bytes ≠ [] → motive (bytes.drop 3) → motive bytes) :
    ∀ bytes, motive bytes
  | [] => nil
  | [a] => group [a] (List.cons_ne_nil _ _) nil
  | [a, b] => group [a, b] (List.cons_ne_nil _ _) nil
  | a :: b :: c :: rest =>
    group (a :: b :: c :: rest) (List.cons_ne_nil _ _) (group_induction nil group rest)

theorem length_group {bytes : List Byte} {k : ℕ} (h : bytes ≠ []) (hout : out.length = k) :
    (out ++ textOf (bytes.take 3)).length = k + 4 := by
  rw [List.length_append, hout]
  match bytes, h with
  | [a], _ => rfl
  | [a, b], _ => rfl
  | a :: b :: c :: rest, _ => rfl

theorem textLength_drop {bytes : List Byte} (h : bytes ≠ []) :
    textLength bytes.length = textLength (bytes.drop 3).length + 4 := by
  have hpos := List.length_pos_iff.2 h
  simp only [textLength, List.length_drop]
  omega

theorem room_neg {n : ℕ} (hpos : 0 < size) (h : size ≤ n) :
    room size n out y = fail outputOverflow out := by
  rw [room, if_pos]
  omega

theorem bounded_room {n : ℕ} (hout : out.length < size) (h : n < size → Bounded size y) :
    Bounded size (room size n out y) := by
  by_cases hn : n < size
  · rw [room_pos (.inr (by omega))]
    exact h hn
  · rw [room_neg (by omega) (by omega)]
    exact bounded_fail (by decide) hout

theorem overflow_room {n d : ℕ} (hpos : 0 < size) (hd : n ≤ d)
    (h : n < size → (y.ret = outputOverflow ↔ size ≤ d)) :
    (room size n out y).ret = outputOverflow ↔ size ≤ d := by
  by_cases hn : n < size
  · rw [room_pos (.inr (by omega))]
    exact h hn
  · rw [room_neg hpos (by omega)]
    exact iff_of_true rfl (by omega)

theorem overflow_terminate {n : ℕ} (h : n < size) :
    (terminate n out).ret = outputOverflow ↔ size ≤ n := by
  refine iff_of_false ?_ (by omega)
  simp only [terminate, outputOverflow]
  omega

theorem int_natCast {n : ℕ} (h : n < 2 ^ 31) : int n = n := int_eq (by omega) (by omega)

theorem encodeLoop_bounded (bytes : List Byte) : ∀ {k : ℕ} (out : List Byte), out.length = k →
    4 ∣ k → k < size → size < 2 ^ 31 →
    (size ≤ 2147483644 ∨ k + textLength bytes.length < 2 ^ 31) →
    Bounded size (encodeLoop size bytes k out) ∧
      ((encodeLoop size bytes k out).ret = outputOverflow ↔
        size ≤ k + textLength bytes.length) := by
  induction bytes using group_induction with
  | nil =>
    intro k out hout _ hlt _ _
    rw [encodeLoop]
    exact ⟨bounded_terminate hout hlt, overflow_terminate hlt⟩
  | group bytes hne ih =>
    intro k out hout hk hlt hsize hfree
    have hlen := textLength_drop hne
    have hint : int ((k : ℤ) + 4) = ((k + 4 : ℕ) : ℤ) := int_natCast (n := k + 4) (by omega)
    have hrec : k + 4 < size → _ := fun h =>
      ih _ (length_group hne hout) (by omega) h hsize (by omega)
    rw [encodeLoop_step hne, hint]
    constructor
    · apply bounded_room (by omega)
      intro h
      exact (hrec h).1
    · rw [hlen, ← Nat.add_assoc, Nat.add_right_comm]
      apply overflow_room (by omega) (by omega)
      intro h
      exact (hrec h).2

theorem length_encodeLoop (maxlen : ℤ) (bytes : List Byte) (k : ℤ) (out : List Byte) :
    out.length ≤ (encodeLoop maxlen bytes k out).out.length :=
  (fits_encodeFrom 0 [] bytes []).1

theorem encodeLoop_outside (bytes : List Byte) : ∀ {k : ℕ} (out : List Byte), out.length = k →
    4 ∣ k → k < size → 2147483644 < size → size < 2 ^ 31 →
    2 ^ 31 ≤ k + textLength bytes.length → size < (encodeLoop size bytes k out).out.length := by
  induction bytes using group_induction with
  | nil =>
    intro k out _ _ hlt _ hsize hlong
    have hzero : textLength ([] : List Byte).length = 0 := rfl
    omega
  | group bytes hne ih =>
    intro k out hout hk hlt hlarge hsize hlong
    have hlen := textLength_drop hne
    have hout' := length_group hne hout
    rw [encodeLoop_step hne]
    by_cases hwrap : k + 4 < 2 ^ 31
    · have hint : int ((k : ℤ) + 4) = ((k + 4 : ℕ) : ℤ) := int_natCast (n := k + 4) hwrap
      rw [hint, room_pos (.inr (by omega))]
      exact ih _ hout' (by omega) (by omega) hlarge hsize (by omega)
    · -- the sum is the first number that is no `int`, so it is negative and passes the check
      have hsum : (k : ℤ) + 4 = 2 ^ 31 := by omega
      have hint : int ((k : ℤ) + 4) = - 2 ^ 31 := by
        rw [hsum]
        decide
      have hmono := length_encodeLoop size (bytes.drop 3) (- 2 ^ 31) (out ++ textOf (bytes.take 3))
      rw [hint, room_pos (.inr (by omega))]
      omega

theorem bounded_get {next : Byte → Coded} (hout : out.length < size)
    (h : ∀ digit, Bounded size (next digit)) : Bounded size (get c out next) := by
  rw [Base64.get]
  split
  · exact bounded_fail (by decide) hout
  · exact h _

theorem decodeLoop_bounded : ∀ (text out : List Byte) {k : ℕ}, out.length = k →
    k < size → size < 2 ^ 31 → Bounded size (decodeLoop size text k out)
  | [], _, _, hout, hk, _ => bounded_terminate hout hk
  | [_], _, _, hout, hk, _ => bounded_fail (by decide) (by omega)
  | [_, _], _, _, hout, hk, _ => bounded_fail (by decide) (by omega)
  | [_, _, _], _, _, hout, hk, _ => bounded_fail (by decide) (by omega)
  | c₀ :: c₁ :: c₂ :: c₃ :: rest, out, k, hout, hk, hsize => by
    have hint₁ : int ((k : ℤ) + 1) = ((k + 1 : ℕ) : ℤ) := int_natCast (n := k + 1) (by omega)
    rw [decodeLoop, hint₁]
    apply bounded_room (by omega)
    intro h₁
    apply bounded_get (by omega)
    intro digit₀
    apply bounded_get (by omega)
    intro digit₁
    dsimp only
    split
    · exact bounded_terminate (by simp [hout]) h₁
    · have hint₂ : int ((k : ℤ) + 2) = ((k + 2 : ℕ) : ℤ) := int_natCast (n := k + 2) (by omega)
      rw [hint₂]
      apply bounded_room (by simp [hout, h₁])
      intro h₂
      apply bounded_get (by simp [hout, h₁])
      intro digit₂
      split
      · exact bounded_terminate (by simp [hout]) h₂
      · have hint₃ : int ((k : ℤ) + 3) = ((k + 3 : ℕ) : ℤ) :=
          int_natCast (n := k + 3) (by omega)
        rw [hint₃]
        apply bounded_room (by simp [hout, h₂])
        intro h₃
        apply bounded_get (by simp [hout, h₂])
        intro digit₃
        exact decodeLoop_bounded rest _ (by simp [hout]) h₃ hsize

/-- Three bytes for a complete group, and one or two for the padded group that ends the text. -/
def decodedLength : List Byte → ℕ
  | _ :: _ :: c₂ :: c₃ :: rest =>
    if c₂ = byte '=' then 1 else if c₃ = byte '=' then 2 else 3 + decodedLength rest
  | _ => 0

theorem decodedLength_pos {text : List Byte} {c₀ c₁ c₂ c₃ : Byte} :
    1 ≤ decodedLength (c₀ :: c₁ :: c₂ :: c₃ :: text) := by
  rw [decodedLength]
  split
  · exact Nat.le_refl _
  · split <;> omega

theorem two_le_decodedLength {text : List Byte} {c₀ c₁ c₂ c₃ : Byte} (h : c₂ ≠ byte '=') :
    2 ≤ decodedLength (c₀ :: c₁ :: c₂ :: c₃ :: text) := by
  rw [decodedLength, if_neg h]
  split <;> omega

theorem decodeLoop_overflow : ∀ (text out : List Byte) {k : ℕ},
    Base64Grammar.Accepted text → k < size → size < 2 ^ 31 →
    ((decodeLoop size text k out).ret = outputOverflow ↔ size ≤ k + decodedLength text)
  | [], _, _, _, hk, _ => overflow_terminate hk
  | [_], _, _, h, _, _ => absurd h (Base64Grammar.not_accepted_short (by simp) (by simp))
  | [_, _], _, _, h, _, _ => absurd h (Base64Grammar.not_accepted_short (by simp) (by simp))
  | [_, _, _], _, _, h, _, _ => absurd h (Base64Grammar.not_accepted_short (by simp) (by simp))
  | c₀ :: c₁ :: c₂ :: c₃ :: rest, out, k, h, hk, hsize => by
    obtain ⟨hc₀, hc₁, hrest⟩ := Base64Grammar.accepted_group.1 h
    have hint₁ : int ((k : ℤ) + 1) = ((k + 1 : ℕ) : ℤ) := int_natCast (n := k + 1) (by omega)
    rw [decodeLoop, hint₁]
    apply overflow_room (by omega) (Nat.add_le_add_left decodedLength_pos k)
    intro h₁
    rw [Base64Grammar.get_of_mem hc₀, Base64Grammar.get_of_mem hc₁]
    dsimp only
    by_cases hc₂ : c₂ = byte '='
    · rw [if_pos hc₂, decodedLength, if_pos hc₂]
      exact overflow_terminate h₁
    · obtain ⟨hmem₂, hrest⟩ := hrest.resolve_left hc₂
      have hint₂ : int ((k : ℤ) + 2) = ((k + 2 : ℕ) : ℤ) := int_natCast (n := k + 2) (by omega)
      rw [if_neg hc₂, hint₂]
      apply overflow_room (by omega) (Nat.add_le_add_left (two_le_decodedLength hc₂) k)
      intro h₂
      rw [Base64Grammar.get_of_mem hmem₂, decodedLength, if_neg hc₂]
      by_cases hc₃ : c₃ = byte '='
      · rw [if_pos hc₃, if_pos hc₃]
        exact overflow_terminate h₂
      · obtain ⟨hmem₃, hrest⟩ := hrest.resolve_left hc₃
        have hint₃ : int ((k : ℤ) + 3) = ((k + 3 : ℕ) : ℤ) :=
          int_natCast (n := k + 3) (by omega)
        rw [if_neg hc₃, if_neg hc₃, hint₃, ← Nat.add_assoc]
        apply overflow_room (by omega) (Nat.le_add_right _ _)
        intro h₃
        rw [Base64Grammar.get_of_mem hmem₃]
        exact decodeLoop_overflow rest _ hrest h₃ hsize

theorem base64Encode_bounded (bytes : List Byte) (hpos : 0 < size) (hsize : size < 2 ^ 31)
    (hfree : size ≤ 2147483644 ∨ textLength bytes.length < 2 ^ 31) :
    Bounded size (Base64.base64Encode bytes size) ∧
      ((Base64.base64Encode bytes size).ret = outputOverflow ↔ size ≤ textLength bytes.length) := by
  have h := encodeLoop_bounded bytes [] rfl (Nat.dvd_zero 4) hpos hsize
    (hfree.imp_right (Nat.zero_add _).trans_lt)
  rwa [List.length_nil, Nat.zero_add] at h

theorem base64Encode_fits {bytes : List Byte} (h : textLength bytes.length < size)
    (hsize : size < 2 ^ 31) : Base64.base64Encode bytes size =
      terminate (textLength bytes.length) (textOf bytes) := by
  have hloop : encodeLoop size bytes (int 0) [] =
      terminate (int (0 + textLength bytes.length)) ([] ++ textOf bytes) := by
    refine encodeLoop_eq fun m h₀ hm => ?_
    rw [Int.zero_add, int_eq h₀ (by omega)]
    omega
  rw [Int.zero_add, int_zero, int_natCast (by omega)] at hloop
  exact hloop

theorem base64Decode_bounded (text : List Byte) (hpos : 0 < size) (hsize : size < 2 ^ 31) :
    Bounded size (Base64.base64Decode text size) ∧ (Base64Grammar.Grammar text →
      ((Base64.base64Decode text size).ret = outputOverflow ↔ size ≤ decodedLength text)) := by
  refine ⟨decodeLoop_bounded text [] rfl hpos hsize, fun hg => ?_⟩
  have h := decodeLoop_overflow text [] (Base64Grammar.accepted_iff.2 (.inl hg)) hpos hsize
  rwa [Nat.zero_add] at h

/-- `n` bytes of input and a buffer of `maxlen` bytes, both counted by an `int`. -/
structure Call where
  inp : List Byte
  maxlen : ℕ
  out : Vector Byte maxlen
  inp_lt : inp.length < 2 ^ 31
  maxlen_pos : 1 ≤ maxlen
  maxlen_lt : maxlen < 2 ^ 31

def Call.encode (call : Call) : Option (Done call.maxlen) :=
  base64Encode call.maxlen call.out call.inp call.inp.length

def Call.decode (call : Call) : Option (Done call.maxlen) :=
  base64Decode call.maxlen call.out call.inp call.inp.length

def Done.Ended (d : Done size) : Prop :=
  (0 ≤ d.ret → d.out[d.ret.toNat]? = some 0#8) ∧ (d.ret < 0 → d.out[0]? = some 0#8)

/-- No access goes outside, and `OUTPUT_OVERFLOW` is returned exactly for what has no room. -/
def Call.Inside (call : Call) : Prop :=
  (∃ d, call.encode = some d ∧ d.Ended ∧
    (d.ret = outputOverflow ↔ call.maxlen ≤ textLength call.inp.length)) ∧
  (∃ d, call.decode = some d ∧ d.Ended ∧ (Base64Grammar.Grammar call.inp →
    (d.ret = outputOverflow ↔ call.maxlen ≤ decodedLength call.inp)))

theorem held_getElem {i : ℕ} (h : written[i]? = some c) (hle : written.length ≤ size) :
    (held size written)[i]? = some c := by
  have hlt := (List.getElem?_eq_some_iff.1 h).1
  rw [Vector.getElem?_eq_getElem (by omega)]
  simp [held, h]

theorem Bounded.placed (h : Bounded size y) :
    ∃ d, placed size y = some d ∧ d.Ended ∧ d.ret = y.ret := by
  refine ⟨⟨y.ret, held size y.out⟩, if_pos h.room, ⟨?_, ?_⟩, rfl⟩
  · intro hret
    exact held_getElem (h.ended hret) h.room
  · intro hret
    exact held_getElem (h.cleared hret) h.room

variable {call : Call}

theorem encode_eq : call.encode =
    placed call.maxlen (Base64.base64Encode call.inp call.maxlen) := by
  have h := base64Encode_eq call.out call.inp []
  rwa [List.append_nil] at h

theorem decode_eq : call.decode =
    placed call.maxlen (Base64.base64Decode call.inp call.maxlen) := by
  have h := base64Decode_eq call.out call.inp []
  rwa [List.append_nil] at h

theorem decode_inside : ∃ d, call.decode = some d ∧ d.Ended ∧
    (Base64Grammar.Grammar call.inp →
      (d.ret = outputOverflow ↔ call.maxlen ≤ decodedLength call.inp)) := by
  obtain ⟨hbounded, hoverflow⟩ :=
    base64Decode_bounded call.inp call.maxlen_pos call.maxlen_lt
  obtain ⟨d, hd, hended, hret⟩ := hbounded.placed
  refine ⟨d, decode_eq.trans hd, hended, ?_⟩
  rw [hret]
  exact hoverflow

theorem encode_outside (hmax : 2147483644 < call.maxlen) (hlen : 1610612733 < call.inp.length) :
    call.encode = none := by
  have htext : 2 ^ 31 ≤ 0 + textLength call.inp.length := by
    simp only [textLength]
    omega
  have h := encodeLoop_outside call.inp [] rfl (Nat.dvd_zero 4) call.maxlen_pos hmax
    call.maxlen_lt htext
  rw [encode_eq]
  exact if_neg (Nat.not_le.2 h)

/-- Both functions stay inside, but for the encoder where the length it counts up passes the
last `int` before it reaches `maxlen`. -/
theorem stays_inside_iff (call : Call) :
    call.Inside ↔ call.maxlen ≤ 2147483644 ∨ call.inp.length ≤ 1610612733 := by
  constructor
  · rintro ⟨⟨d, hd, -⟩, -⟩
    by_contra hno
    rw [encode_outside (by omega) (by omega)] at hd
    cases hd
  · intro hroom
    refine ⟨?_, decode_inside⟩
    have hfree : call.maxlen ≤ 2147483644 ∨ textLength call.inp.length < 2 ^ 31 := by
      refine hroom.imp_right fun hlen => ?_
      simp only [textLength]
      omega
    obtain ⟨hbounded, hoverflow⟩ :=
      base64Encode_bounded call.inp call.maxlen_pos call.maxlen_lt hfree
    obtain ⟨d, hd, hended, hret⟩ := hbounded.placed
    refine ⟨d, encode_eq.trans hd, hended, ?_⟩
    rw [hret]
    exact hoverflow

/-- 1610612734 bytes are encoded to 2147483648 characters, into a buffer of one byte fewer. -/
theorem four_characters_outside : ∃ call : Call, call.inp.length = 1610612734 ∧
    call.maxlen = 2147483647 ∧ ¬ call.Inside := by
  refine ⟨⟨List.replicate 1610612734 0#8, 2147483647, Vector.replicate _ 0#8, ?_, ?_, ?_⟩,
    List.length_replicate, rfl, ?_⟩
  · rw [List.length_replicate]
    decide
  · decide
  · decide
  · rintro ⟨⟨d, hd, -⟩, -⟩
    rw [encode_outside (by decide) (by rw [List.length_replicate]; decide)] at hd
    cases hd

end Base64Bounds
