import MyGitCode.ByteMemory
import MyGitCode.DelimitedRuns
import MyGitCode.JsonTexts
import MyGitCode.StrKit

/-! # `run.c`: the members of a detection response

`parse_detect_json_result` takes the members of the response one by one with
`get_param_from_json_object`, which writes through an untyped pointer what the JSON type of the
member asks for. The header it is compiled with numbers the types otherwise than the library.
Pointers have 64 bits. -/
namespace DetectFields

open ByteMemory CFormat JsonTexts
open StrKit (nul)

/-- `json_type` of the vendored `json_object.h`. -/
inductive JsonType where
  | null
  | boolean
  | double
  | int
  | string
  | array
  | object
  | int64
  deriving DecidableEq

/-- The name that `run.c` has for a number. -/
def JsonType.ofNumber (n : ℕ) : JsonType :=
  [.null, .boolean, .double, .int, .string, .array, .object, .int64].getD n .null

/-- What `run.c` takes the type of a value for. -/
def getType (value : Json) : JsonType := .ofNumber value.typeNumber

/-- What the program does not say: what is read back of the text of a double, what a text is
parsed to, where the library keeps a text, and where `malloc` finds memory; NULL is 0. -/
structure JsonC where
  reread : BitVec 64 → BitVec 64
  parse : List Char → Json
  textAddress : List Char → BitVec 64
  malloc : ℕ → BitVec 64

def ReadsBack (c : JsonC) (value : Json) : Prop := c.parse value.text = value.map c.reread

/-- Where `detect_res_body` and the local variable `p_value` are. -/
structure Frame where
  detectResBody : ℕ
  pValue : ℕ
  apart : detectResBody + 96 ≤ pValue ∨ pValue + 8 ≤ detectResBody

namespace Frame
variable (b : Frame)

def pointer : Place := ⟨b.pValue, 8⟩
def resultNum : Place := ⟨b.detectResBody, 4⟩
def locLeft : Place := ⟨b.detectResBody + 4, 4⟩
def locTop : Place := ⟨b.detectResBody + 8, 4⟩
def locWidth : Place := ⟨b.detectResBody + 12, 4⟩
def locHeight : Place := ⟨b.detectResBody + 16, 4⟩
def faceProbability : Place := ⟨b.detectResBody + 20, 4⟩
def age : Place := ⟨b.detectResBody + 24, 4⟩
def gender : Place := ⟨b.detectResBody + 40, 16⟩
def race : Place := ⟨b.detectResBody + 56, 16⟩
def beauty : Place := ⟨b.detectResBody + 72, 8⟩
def expression : Place := ⟨b.detectResBody + 80, 4⟩
def glasses : Place := ⟨b.detectResBody + 84, 4⟩

/-- The fields for the members of the location, which are all of type `int`. -/
def locationFields : List (String × Place) :=
  [("left", b.locLeft), ("top", b.locTop), ("width", b.locWidth), ("height", b.locHeight)]

def faceFields : List (String × Place) :=
  [("face_probability", b.faceProbability), ("age", b.age), ("gender", b.gender),
    ("race", b.race), ("beauty", b.beauty), ("expression", b.expression), ("glasses", b.glasses)]

def faceInts : List (String × Place) :=
  [("face_probability", b.faceProbability), ("age", b.age), ("expression", b.expression),
    ("glasses", b.glasses)]

def faceTexts : List (String × Place) := [("gender", b.gender), ("race", b.race)]

end Frame

/-- The variables, the texts at other addresses, and the members stored so far, each with its
variable and the bytes that were written there. -/
structure State where
  memory : Memory Char
  heap : BitVec 64 → Option (List Char)
  stores : List (Place × List Char)

def State.store (s : State) (place : Place) (bytes : List Char) : State :=
  { s with memory := write s.memory place.address bytes, stores := s.stores ++ [(place, bytes)] }

def pointerBytes (p : BitVec 64) : List Char := littleEndian 8 p.toNat

def intBytes (value : ℤ) : List Char := littleEndian 4 (value % 2 ^ 32).toNat

def State.point (s : State) (place : Place) (p : BitVec 64) (text : List Char) : State :=
  { s with heap := fun q => if q = p then some text else s.heap q }.store place (pointerBytes p)

/-- An array is stored as the text of its last element, in new memory. Those before it are
appended to memory that has no room for them, and was not written before. -/
def storeArray (c : JsonC) (elements : Elements) (paramValue : Place) (s : State) : Option State :=
  let copy (text : List Char) : Option State :=
    let p := c.malloc (text.length + 1)
    if p = 0 then none else some (s.point paramValue p text)
  match elements with
  | .nil => copy Json.null.text
  | .cons value .nil => copy value.text
  | .cons _ (.cons _ _) => none

/-- `strncpy` copies no NUL here. No value has the type `int64`. -/
def getParamFromJsonObject (c : JsonC) (reqObject : Json) (paramName : String) (paramValue : Place)
    (s : State) : Option State :=
  let param := reqObject.get paramName.toList
  match getType param with
  | .int => some (s.store paramValue (intBytes param.getInt))
  | .double => some (s.store paramValue (littleEndian 8 param.getDouble.toNat))
  | .string => some (s.point paramValue (c.textAddress param.getString) param.getString)
  | .object => some (s.store paramValue (param.getString.takeWhile (· ≠ nul)))
  | .array =>
    match param with
    | .array elements => storeArray c elements paramValue s
    | _ => some s
  | .null | .boolean | .int64 => some s

def pointerAt (memory : Memory Char) (place : Place) : BitVec 64 :=
  .ofNat 64 (ofLittleEndian (read memory place.address 8))

/-- `json_tokener_parse (p_value)`, which has no result where no text is at that address. -/
def parseValue (c : JsonC) (b : Frame) (s : State) : Option Json :=
  let p := pointerAt s.memory b.pointer
  if p = 0 then none else (s.heap p).map c.parse

def free (b : Frame) (s : State) : Option State :=
  let p := pointerAt s.memory b.pointer
  if p = 0 then some s
  else (s.heap p).map fun _ => { s with heap := fun q => if q = p then none else s.heap q }

def parseDetectJsonResult (c : JsonC) (b : Frame) (myObj : Json) (memory : Memory Char)
    (heap : BitVec 64 → Option (List Char)) : Option State := do
  let s : State := ⟨write memory b.pValue (pointerBytes 0), heap, []⟩
  let s := s.store b.resultNum (intBytes (atoi (myObj.get "result_num".toList).text))
  let s ← getParamFromJsonObject c myObj "result" b.pointer s
  let retObj ← parseValue c b s
  let locationObj ← parseValue c b s
  let s ← getParamFromJsonObject c locationObj "location" b.pointer s
  let locationObj ← parseValue c b s
  let s ← getParamFromJsonObject c locationObj "left" b.locLeft s
  let s ← getParamFromJsonObject c locationObj "top" b.locTop s
  let s ← getParamFromJsonObject c locationObj "width" b.locWidth s
  let s ← getParamFromJsonObject c locationObj "height" b.locHeight s
  let s ← getParamFromJsonObject c retObj "face_probability" b.faceProbability s
  let s ← getParamFromJsonObject c retObj "age" b.age s
  let s ← getParamFromJsonObject c retObj "gender" b.gender s
  let s ← getParamFromJsonObject c retObj "race" b.race s
  let s ← getParamFromJsonObject c retObj "beauty" b.beauty s
  let s ← getParamFromJsonObject c retObj "expression" b.expression s
  let s ← getParamFromJsonObject c retObj "glasses" b.glasses s
  free b s

/-- `detect_res_body` is static, and the program parses one response. -/
def Zeroed (b : Frame) (memory : Memory Char) : Prop :=
  ∀ x, b.detectResBody ≤ x → x < b.detectResBody + 96 → memory x = nul

def intOf (bytes : List Char) : ℤ := (ofLittleEndian bytes : ℤ).bmod (2 ^ 32)

/-- The number that eight bytes are as a `double`. -/
def doubleOf (bytes : List Char) : ℚ := doubleValue (.ofNat 64 (ofLittleEndian bytes))

def HoldsText (bytes text : List Char) : Prop :=
  nul ∈ bytes ∧ bytes.takeWhile (· ≠ nul) = text

def held (memory : Memory Char) (place : Place) : List Char := read memory place.address place.size

structure Expected (b : Frame) (myObj face : Json) (others : Elements) (location : Members) :
    Prop where
  resultNum : (numberValue (myObj.get "result_num".toList)).isSome
  result : myObj.get "result".toList = .array (.cons face others)
  located : face.get "location".toList = .object location
  position : ∀ x ∈ b.locationFields, (numberValue (location.get x.1.toList)).isSome
  numbers : ∀ x ∈ b.faceInts, (numberValue (face.get x.1.toList)).isSome
  beauty : (numberValue (face.get "beauty".toList)).isSome
  texts : ∀ x ∈ b.faceTexts, ∃ text, face.get x.1.toList = .string text

structure FieldsHold (b : Frame) (myObj face : Json) (location : Members) (memory : Memory Char) :
    Prop where
  resultNum : ∀ q, numberValue (myObj.get "result_num".toList) = some q →
    intOf (held memory b.resultNum) = truncated q
  position : ∀ x ∈ b.locationFields, ∀ q, numberValue (location.get x.1.toList) = some q →
    intOf (held memory x.2) = truncated q
  numbers : ∀ x ∈ b.faceInts, ∀ q, numberValue (face.get x.1.toList) = some q →
    intOf (held memory x.2) = truncated q
  beauty : ∀ q, numberValue (face.get "beauty".toList) = some q →
    doubleOf (held memory b.beauty) = q
  texts : ∀ x ∈ b.faceTexts, ∀ text, face.get x.1.toList = .string text →
    HoldsText (held memory x.2) text

/-- The function ends with the members in their fields, and storing one changed nothing else. -/
def Meets (c : JsonC) (b : Frame) (myObj face : Json) (location : Members) (memory : Memory Char)
    (heap : BitVec 64 → Option (List Char)) : Prop :=
  ∃ t, parseDetectJsonResult c b myObj memory heap = some t ∧
    FieldsHold b myObj face location t.memory ∧
    ∀ p ∈ t.stores, Confined p.1.address p.1.size p.2

variable {c : JsonC} {b : Frame} {j myObj face object : Json} {others : Elements}
  {members location : Members} {memory : Memory Char} {heap : BitVec 64 → Option (List Char)}
  {place : Place} {s t : State} {f : BitVec 64 → BitVec 64} {bytes text : List Char}
  {name : String} {q : ℚ} {p : BitVec 64}

theorem length_intBytes {v : ℤ} : (intBytes v).length = 4 := length_littleEndian

theorem ofLittleEndian_intBytes {v : ℤ} : (ofLittleEndian (intBytes v) : ℤ) = v % 2 ^ 32 := by
  have hpos : 0 ≤ v % 2 ^ 32 := Int.emod_nonneg v (by omega)
  have hlt : v % 2 ^ 32 < 2 ^ 32 := Int.emod_lt_of_pos v (by omega)
  have hfit : (v % 2 ^ 32).toNat < 256 ^ 4 := by omega
  rw [intBytes, ofLittleEndian_littleEndian hfit]
  exact Int.toNat_of_nonneg hpos

theorem bmod_emod {v : ℤ} (h : InInt v) : (v % 2 ^ 32).bmod (2 ^ 32) = v := by
  obtain ⟨hlow, hhigh⟩ := h
  rw [Int.bmod]
  split <;> omega

theorem intOf_intBytes {v : ℤ} (h : InInt v) : intOf (intBytes v) = v := by
  unfold intOf
  rw [ofLittleEndian_intBytes]
  exact bmod_emod h

/-- What a variable of `n` zero bytes holds once the bytes are written to it. -/
def padded (n : ℕ) (bytes : List Char) : List Char :=
  bytes ++ List.replicate (n - bytes.length) nul

theorem ofLittleEndian_padded (n : ℕ) : ofLittleEndian (padded n bytes) = ofLittleEndian bytes :=
  ofLittleEndian_append_zeros bytes _

theorem intOf_padded (n : ℕ) : intOf (padded n bytes) = intOf bytes := by
  unfold intOf
  rw [ofLittleEndian_padded]

def stored : Json → List Char
  | .int v => intBytes (Json.int v).getInt
  | .double bits => littleEndian 8 bits.toNat
  | .string text => text.takeWhile (· ≠ nul)
  | _ => []

def Plain (j : Json) : Prop := (numberValue j).isSome ∨ ∃ text, j = .string text

theorem plain_map (h : Plain j) : Plain (j.map f) := by
  rcases h with h | ⟨text, rfl⟩
  · cases j with
    | int v => exact .inl rfl
    | double bits => exact .inl rfl
    | _ => cases h
  · exact .inr ⟨text, by rw [Json.map]⟩

theorem map_map_number {g : BitVec 64 → BitVec 64} (h : (numberValue j).isSome) :
    (j.map f).map g = j.map (g ∘ f) := by
  cases j with
  | int v => simp only [Json.map]
  | double bits => simp only [Json.map, Function.comp]
  | _ => cases h

theorem getParam_plain (h : Plain (object.get name.toList)) :
    getParamFromJsonObject c object name place s =
      some (s.store place (stored (object.get name.toList))) := by
  rw [getParamFromJsonObject]
  rcases h with h | ⟨text, htext⟩
  · cases hj : object.get name.toList with
    | int v => rfl
    | double bits => rfl
    | _ => rw [hj] at h; cases h
  · rw [htext]
    rfl

/-- An `int` field holds a number, and nothing else is written, exactly where it is written as
an integer in the range of `int`. -/
theorem int_field_iff (hsize : place.size = 4) (hq : numberValue j = some q) :
    ((stored (j.map f)).length ≤ place.size ∧
        intOf (padded place.size (stored (j.map f))) = truncated q) ↔
      ∃ v, j = .int v ∧ InInt v := by
  rw [hsize]
  cases j with
  | int v =>
    obtain rfl := Option.some_inj.mp hq
    have hrange : InInt (Json.int v).getInt := by
      simp only [InInt, Json.getInt]
      omega
    rw [Json.map, stored, intOf_padded, intOf_intBytes hrange, truncated_intCast,
      and_iff_right (Nat.le_of_eq length_intBytes)]
    constructor
    · intro h
      rw [h] at hrange
      exact ⟨v, rfl, hrange⟩
    · rintro ⟨w, hw, hlow, hhigh⟩
      obtain rfl := Json.int.inj hw
      simp only [Json.getInt]
      omega
  | double bits =>
    rw [Json.map, stored, length_littleEndian]
    constructor
    · rintro ⟨hlen, -⟩
      omega
    · rintro ⟨v, hv, -⟩
      cases hv
  | _ => cases hq

/-- A decimal that is printed and read back as it is, or an integer 0. -/
def DoubleKept (f : BitVec 64 → BitVec 64) : Json → Prop
  | .int v => v = 0
  | .double bits => doubleValue (f bits) = doubleValue bits
  | _ => False

theorem doubleOf_half {n : ℕ} (h : n < 2 ^ 52) :
    doubleValue (.ofNat 64 n) = n * (2 : ℚ) ^ (-1074 : ℤ) := by
  have hn : (BitVec.ofNat 64 n).toNat = n := by
    rw [BitVec.toNat_ofNat]
    exact Nat.mod_eq_of_lt (by omega)
  have hsign : n / 2 ^ 63 = 0 := Nat.div_eq_of_lt (by omega)
  have hexponent : n / 2 ^ 52 % 2 ^ 11 = 0 := by
    rw [Nat.div_eq_of_lt h]
    rfl
  rw [doubleValue, hn, hsign, hexponent, Nat.mod_eq_of_lt h]
  simp only [if_true, one_mul]

theorem int_in_double_iff (v : ℤ) :
    doubleOf (padded 8 (stored (.int v))) = v ↔ v = 0 := by
  have hbytes := @ofLittleEndian_intBytes (Json.int v).getInt
  rw [doubleOf, ofLittleEndian_padded, stored, doubleOf_half (by omega)]
  generalize ofLittleEndian (intBytes (Json.int v).getInt) = n at hbytes ⊢
  constructor
  · intro h
    have hlt : (n : ℚ) * 2 ^ (-1074 : ℤ) < 1 := by
      have hn : (n : ℚ) < 2 ^ 32 := by
        have : n < 2 ^ 32 := by omega
        exact_mod_cast this
      calc (n : ℚ) * 2 ^ (-1074 : ℤ) < 2 ^ 32 * 2 ^ (-1074 : ℤ) := by gcongr
        _ = 2 ^ (-1042 : ℤ) := by
          rw [← zpow_natCast, ← zpow_add₀ two_ne_zero]
          rfl
        _ ≤ 1 := zpow_le_one_of_nonpos₀ one_le_two (by decide)
    have hpos : (0 : ℚ) ≤ n * 2 ^ (-1074 : ℤ) := by positivity
    rw [h] at hlt hpos
    have hv : 0 ≤ v := by exact_mod_cast hpos
    have hv' : v < 1 := by exact_mod_cast hlt
    omega
  · rintro rfl
    have hn : n = 0 := by
      simp only [Json.getInt] at hbytes
      omega
    rw [hn]
    simp

theorem double_field_iff (hsize : place.size = 8) (hq : numberValue j = some q) :
    ((stored (j.map f)).length ≤ place.size ∧
        doubleOf (padded place.size (stored (j.map f))) = q) ↔ DoubleKept f j := by
  rw [hsize]
  cases j with
  | int v =>
    obtain rfl := Option.some_inj.mp hq
    have hlen : (stored (.int v)).length ≤ 8 := by
      rw [stored, length_intBytes]
      decide
    rw [Json.map, and_iff_right hlen]
    exact int_in_double_iff v
  | double bits =>
    obtain rfl := Option.some_inj.mp hq
    have hlen : (stored (.double (f bits))).length = 8 := length_littleEndian
    rw [Json.map, doubleOf, ofLittleEndian_padded, hlen, and_iff_right le_rfl, stored,
      ofLittleEndian_littleEndian (f bits).isLt, BitVec.ofNat_toNat]
    exact Iff.rfl
  | _ => cases hq

theorem holdsText_padded {n : ℕ} (hbytes : nul ∉ bytes) (hlen : bytes.length ≤ n) :
    HoldsText (padded n bytes) text ↔ bytes.length < n ∧ bytes = text := by
  by_cases hlt : bytes.length < n
  · obtain ⟨k, hk⟩ : ∃ k, n - bytes.length = k + 1 := ⟨n - bytes.length - 1, by omega⟩
    have hpad : padded n bytes = bytes ++ nul :: List.replicate k nul := by
      rw [padded, hk, List.replicate_succ]
    rw [HoldsText, hpad, DelimitedRuns.takeWhile_ne_append_cons hbytes, and_iff_right hlt]
    exact and_iff_right (by simp)
  · have hpad : padded n bytes = bytes := by
      rw [padded, Nat.sub_eq_zero_of_le (by omega)]
      exact List.append_nil _
    rw [HoldsText, hpad]
    exact iff_of_false (fun h => hbytes h.1) fun h => hlt h.1

theorem text_field_iff (hsize : place.size = 16) (hj : j = .string text) :
    ((stored (j.map f)).length ≤ place.size ∧
        HoldsText (padded place.size (stored (j.map f))) text) ↔
      nul ∉ text ∧ text.length ≤ 15 := by
  have hnul : nul ∉ text.takeWhile (· ≠ nul) := fun h => by
    simpa using List.mem_takeWhile_imp h
  rw [hsize, hj, Json.map, stored]
  constructor
  · rintro ⟨hlen, h⟩
    obtain ⟨hlt, heq⟩ := (holdsText_padded hnul hlen).mp h
    rw [heq] at hnul hlt
    exact ⟨hnul, by omega⟩
  · rintro ⟨hplain, hlen⟩
    have heq : text.takeWhile (· ≠ nul) = text := DelimitedRuns.takeWhile_ne_eq_self hplain
    rw [heq]
    exact ⟨by omega, (holdsText_padded hplain (by omega)).mpr ⟨by omega, rfl⟩⟩

def State.storeAll (s : State) (writes : List (Place × List Char)) : State :=
  writes.foldl (fun s w => s.store w.1 w.2) s

theorem storeAll_eq (writes : List (Place × List Char)) : s.storeAll writes =
    { s with memory := writeAll s.memory writes, stores := s.stores ++ writes } := by
  induction writes generalizing s with
  | nil => simp [State.storeAll, writeAll]
  | cons w writes ih =>
    rw [State.storeAll, List.foldl_cons, ← State.storeAll, ih, State.store, writeAll_cons]
    simp

def memberStores (b : Frame) (face locationObj : Json) : List (Place × List Char) :=
  b.locationFields.map (fun x => (x.2, stored (locationObj.get x.1.toList))) ++
    b.faceFields.map fun x => (x.2, stored (face.get x.1.toList))

/-- The number of faces, and the two texts that `p_value` points to in turn. -/
def pointed (c : JsonC) (b : Frame) (myObj face : Json) (locationText : List Char)
    (memory : Memory Char) (heap : BitVec 64 → Option (List Char)) : State :=
  let s : State := ⟨write memory b.pValue (pointerBytes 0), heap, []⟩
  let s := s.store b.resultNum (intBytes (atoi (myObj.get "result_num".toList).text))
  let s := s.point b.pointer (c.malloc (face.text.length + 1)) face.text
  s.point b.pointer (c.textAddress locationText) locationText

theorem pointerAt_point : pointerAt (s.point place p text).memory place = p := by
  have hread := @read_write _ s.memory place.address (pointerBytes p)
  rw [pointerBytes, length_littleEndian, ← pointerBytes] at hread
  have hmemory : (s.point place p text).memory =
      write s.memory place.address (pointerBytes p) := rfl
  rw [pointerAt, hmemory, hread, pointerBytes, ofLittleEndian_littleEndian p.isLt]
  exact BitVec.ofNat_toNat ..

theorem parseValue_point : parseValue c b (s.point b.pointer p text) =
    if p = 0 then none else some (c.parse text) := by
  rw [parseValue, pointerAt_point]
  simp [State.point, State.store]

theorem getParam_one_face (h : myObj.get "result".toList = .array (.cons face .nil)) :
    getParamFromJsonObject c myObj "result" b.pointer s =
      if c.malloc (face.text.length + 1) = 0 then none
      else some (s.point b.pointer (c.malloc (face.text.length + 1)) face.text) := by
  rw [getParamFromJsonObject, h]
  rfl

theorem getParam_more_faces {second : Json} {rest : Elements}
    (h : myObj.get "result".toList = .array (.cons face (.cons second rest))) :
    getParamFromJsonObject c myObj "result" b.pointer s = none := by
  rw [getParamFromJsonObject, h]
  rfl

theorem getParam_location (h : face.get "location".toList = .object members) :
    getParamFromJsonObject c face "location" b.pointer s = some (s.point b.pointer
      (c.textAddress (Json.object members).text) (Json.object members).text) := by
  rw [getParamFromJsonObject, h]
  rfl

/-- Every member of the location and of the face is a number or a string. -/
structure AllPlain (b : Frame) (face locationObj : Json) : Prop where
  location : ∀ x ∈ b.locationFields, Plain (locationObj.get x.1.toList)
  face : ∀ x ∈ b.faceFields, Plain (face.get x.1.toList)

theorem faceFields_iff {x : String × Place} : x ∈ b.faceFields ↔
    x ∈ b.faceInts ∨ x ∈ b.faceTexts ∨ x = ("beauty", b.beauty) := by
  simp only [Frame.faceFields, Frame.faceInts, Frame.faceTexts, List.mem_cons,
    List.not_mem_nil, or_false]
  tauto

theorem Expected.allPlain (h : Expected b myObj face others location) :
    AllPlain b face (.object location) where
  location := fun x hx => .inl (h.position x hx)
  face := by
    intro x hx
    rcases faceFields_iff.mp hx with hx | hx | rfl
    · exact .inl (h.numbers x hx)
    · exact .inr (h.texts x hx)
    · exact .inl h.beauty

theorem AllPlain.map (h : AllPlain b face object) : AllPlain b (face.map f) (object.map f) where
  location := fun x hx => json_get_map ▸ plain_map (h.location x hx)
  face := fun x hx => json_get_map ▸ plain_map (h.face x hx)

theorem members_storeAll (h : AllPlain b face object) : (do
      let s ← getParamFromJsonObject c object "left" b.locLeft s
      let s ← getParamFromJsonObject c object "top" b.locTop s
      let s ← getParamFromJsonObject c object "width" b.locWidth s
      let s ← getParamFromJsonObject c object "height" b.locHeight s
      let s ← getParamFromJsonObject c face "face_probability" b.faceProbability s
      let s ← getParamFromJsonObject c face "age" b.age s
      let s ← getParamFromJsonObject c face "gender" b.gender s
      let s ← getParamFromJsonObject c face "race" b.race s
      let s ← getParamFromJsonObject c face "beauty" b.beauty s
      let s ← getParamFromJsonObject c face "expression" b.expression s
      let s ← getParamFromJsonObject c face "glasses" b.glasses s
      free b s) = free b (s.storeAll (memberStores b face object)) := by
  have hlocation := h.location
  have hface := h.face
  simp only [Frame.locationFields, Frame.faceFields, List.forall_mem_cons] at hlocation hface
  obtain ⟨hleft, htop, hwidth, hheight, -⟩ := hlocation
  obtain ⟨hprobability, hage, hgender, hrace, hbeauty, hexpression, hglasses, -⟩ := hface
  simp only [getParam_plain hleft, getParam_plain htop, getParam_plain hwidth,
    getParam_plain hheight, getParam_plain hprobability, getParam_plain hage,
    getParam_plain hgender, getParam_plain hrace, getParam_plain hbeauty,
    getParam_plain hexpression, getParam_plain hglasses, Option.bind_eq_bind, Option.bind_some]
  rfl

/-- The whole run for one face, with the doubles of the face read back once from their text, and
those of the location twice. -/
theorem parse_one_face (hexpected : Expected b myObj face .nil location)
    (hface : ReadsBack c face) (hlocation : ReadsBack c (.object (location.map c.reread)))
    (hmalloc : c.malloc (face.text.length + 1) ≠ 0)
    (haddress : c.textAddress (Json.object (location.map c.reread)).text ≠ 0) :
    parseDetectJsonResult c b myObj memory heap =
      free b ((pointed c b myObj face (Json.object (location.map c.reread)).text memory
        heap).storeAll (memberStores b (face.map c.reread)
          ((Json.object (location.map c.reread)).map c.reread))) := by
  have hlocated : (face.map c.reread).get "location".toList = .object (location.map c.reread) := by
    rw [json_get_map, hexpected.located, Json.map]
  have hplain : AllPlain b (face.map c.reread)
      ((Json.object (location.map c.reread)).map c.reread) := by
    have honce := (hexpected.allPlain.map (f := c.reread))
    rw [Json.map] at honce
    exact ⟨(honce.map (f := c.reread)).location, honce.face⟩
  rw [ReadsBack] at hface hlocation
  rw [← members_storeAll hplain, parseDetectJsonResult]
  simp only [getParam_one_face hexpected.result, if_neg hmalloc, Option.bind_eq_bind,
    Option.bind_some, parseValue_point, hface, getParam_location hlocated, if_neg haddress,
    hlocation]
  rfl

/-- A field of the response body, other than the number of faces. -/
structure IsField (b : Frame) (place : Place) : Prop where
  low : b.detectResBody + 4 ≤ place.address
  high : place.address + place.size ≤ b.detectResBody + 96

theorem isField_memberStores : ∀ w ∈ memberStores b face object, IsField b w.1 := by
  have hiff {place : Place} : IsField b place ↔ b.detectResBody + 4 ≤ place.address ∧
      place.address + place.size ≤ b.detectResBody + 96 :=
    ⟨fun h => ⟨h.1, h.2⟩, fun h => ⟨h.1, h.2⟩⟩
  simp only [memberStores, Frame.locationFields, Frame.faceFields, List.map_cons, List.map_nil,
    List.cons_append, List.nil_append, List.forall_mem_cons, hiff, Frame.locLeft, Frame.locTop,
    Frame.locWidth, Frame.locHeight, Frame.faceProbability, Frame.age, Frame.gender, Frame.race,
    Frame.beauty, Frame.expression, Frame.glasses]
  simp

theorem pointer_apart (h : IsField b place) : b.pointer.Apart place := by
  have hapart := b.apart
  have hlow := h.low
  have hhigh := h.high
  simp only [Place.Apart, Frame.pointer]
  omega

theorem resultNum_apart (h : IsField b place) : b.resultNum.Apart place := .inl h.low

theorem memberStores_pairwise :
    (memberStores b face object).Pairwise fun v w => v.1.Apart w.1 := by
  simp only [memberStores, Frame.locationFields, Frame.faceFields, List.map_cons, List.map_nil,
    List.cons_append, List.nil_append, List.pairwise_cons, List.forall_mem_cons, Place.Apart,
    Frame.locLeft, Frame.locTop, Frame.locWidth, Frame.locHeight, Frame.faceProbability, Frame.age,
    Frame.gender, Frame.race, Frame.beauty, Frame.expression, Frame.glasses]
  simp

def Fit (writes : List (Place × List Char)) : Prop := ∀ w ∈ writes, w.2.length ≤ w.1.size

theorem leave_pointer (h : Fit (memberStores b face object)) :
    Leave (memberStores b face object) b.pointer :=
  fun w hw => ⟨h w hw, (pointer_apart (isField_memberStores w hw)).symm⟩

theorem leave_resultNum (h : Fit (memberStores b face object)) :
    Leave (memberStores b face object) b.resultNum :=
  fun w hw => ⟨h w hw, (resultNum_apart (isField_memberStores w hw)).symm⟩

theorem pointed_stores : (pointed c b myObj face text memory heap).stores =
    [(b.resultNum, intBytes (atoi (myObj.get "result_num".toList).text)),
      (b.pointer, pointerBytes (c.malloc (face.text.length + 1))),
      (b.pointer, pointerBytes (c.textAddress text))] := rfl

theorem pointed_memory : (pointed c b myObj face text memory heap).memory =
    writeAll (write memory b.pValue (pointerBytes 0))
      (pointed c b myObj face text memory heap).stores := rfl

theorem fit_pointed : Fit (pointed c b myObj face text memory heap).stores := by
  rw [Fit, pointed_stores]
  simp [length_intBytes, pointerBytes, length_littleEndian, Frame.resultNum, Frame.pointer]

theorem pointed_zero (hzero : Zeroed b memory) (hfield : IsField b place) {x : ℕ}
    (hlow : place.address ≤ x) (hhigh : x < place.address + place.size) :
    (pointed c b myObj face text memory heap).memory x = nul := by
  have hleave : Leave (pointed c b myObj face text memory heap).stores place := by
    intro w hw
    refine ⟨fit_pointed w hw, ?_⟩
    rw [pointed_stores] at hw
    simp only [List.mem_cons, List.not_mem_nil, or_false] at hw
    rcases hw with rfl | rfl | rfl
    · exact resultNum_apart hfield
    · exact pointer_apart hfield
    · exact pointer_apart hfield
  have hapart := pointer_apart hfield
  have hfirst := hfield.low
  have hlast := hfield.high
  simp only [Place.Apart, Frame.pointer] at hapart
  rw [pointed_memory, writeAll_leave hleave hlow hhigh, write_outside]
  · exact hzero x (by omega) (by omega)
  · rw [pointerBytes, length_littleEndian]
    omega

theorem held_member (hzero : Zeroed b memory) (hfit : Fit (memberStores b face object))
    (hmem : (place, bytes) ∈ memberStores b face object) {face' : Json} :
    held (writeAll (pointed c b myObj face' text memory heap).memory (memberStores b face object))
      place = padded place.size bytes := by
  have hfield : IsField b place := isField_memberStores _ hmem
  have hpair := @memberStores_pairwise b face object
  obtain ⟨before, behind, hsplit⟩ := List.append_of_mem hmem
  rw [hsplit] at hpair hfit ⊢
  rw [List.pairwise_append, List.pairwise_cons] at hpair
  obtain ⟨-, ⟨hbehind, -⟩, hbefore⟩ := hpair
  have hlen : bytes.length ≤ place.size := hfit (place, bytes) (by simp)
  refine read_writeAll ?_ ?_ hlen fun x => pointed_zero hzero hfield
  · intro w hw
    exact ⟨hfit w (List.mem_append_left _ hw), hbefore w hw _ List.mem_cons_self⟩
  · intro w hw
    exact ⟨hfit w (List.mem_append_right _ (List.mem_cons_of_mem _ hw)), (hbehind w hw).symm⟩

theorem held_resultNum (hfit : Fit (memberStores b face object)) {face' : Json} :
    held (writeAll (pointed c b myObj face' text memory heap).memory (memberStores b face object))
      b.resultNum = intBytes (atoi (myObj.get "result_num".toList).text) := by
  have hapart : b.pointer.Apart b.resultNum := by
    have := b.apart
    simp only [Place.Apart, Frame.pointer, Frame.resultNum]
    omega
  have hleave : Leave [(b.pointer, pointerBytes (c.malloc (face'.text.length + 1))),
      (b.pointer, pointerBytes (c.textAddress text))] b.resultNum := by
    have hlen {p : BitVec 64} : (pointerBytes p).length ≤ b.pointer.size :=
      Nat.le_of_eq length_littleEndian
    simp [Leave, hapart, hlen]
  rw [held, read_leave (leave_resultNum hfit), pointed_memory, pointed_stores, writeAll_cons,
    read_leave hleave]
  have hread := @read_write _ (write memory b.pValue (pointerBytes 0)) b.resultNum.address
    (intBytes (atoi (myObj.get "result_num".toList).text))
  rw [length_intBytes] at hread
  exact hread

theorem free_some (h : free b s = some t) : t.memory = s.memory ∧ t.stores = s.stores := by
  unfold free at h
  simp only at h
  split at h
  · obtain rfl := Option.some_inj.mp h
    exact ⟨rfl, rfl⟩
  · obtain ⟨_, -, rfl⟩ := Option.map_eq_some_iff.mp h
    exact ⟨rfl, rfl⟩

theorem free_storeAll (hfit : Fit (memberStores b face object)) {face' : Json} : ∃ t,
    free b ((pointed c b myObj face' text memory heap).storeAll (memberStores b face object)) =
      some t := by
  have hkept : pointerAt (writeAll (pointed c b myObj face' text memory heap).memory
      (memberStores b face object)) b.pointer = c.textAddress text := by
    have hread := @read_leave _ (pointed c b myObj face' text memory heap).memory b.pointer _
      (leave_pointer hfit)
    exact (congrArg (fun bytes => BitVec.ofNat 64 (ofLittleEndian bytes)) hread).trans
      pointerAt_point
  have hheap : (pointed c b myObj face' text memory heap).heap (c.textAddress text) = some text :=
    if_pos rfl
  rw [storeAll_eq, free]
  simp only [hkept]
  by_cases hp : c.textAddress text = 0
  · exact ⟨_, if_pos hp⟩
  · exact ⟨_, (if_neg hp).trans (congrArg (Option.map _) hheap)⟩

/-- `result_num` is stored as `atoi` of its text, which has six decimals if it has any. -/
def Counted : Json → Prop
  | .int v => InInt v
  | .double bits => InInt (truncated (doubleValue bits)) ∧ ¬ RoundsUp (doubleValue bits)
  | _ => False

theorem counted_iff (hq : numberValue j = some q) : intOf (intBytes (atoi j.text)) = truncated q ↔
    Counted j := by
  have hrange : InInt (atoi j.text) := inInt_bmod _
  rw [intOf_intBytes hrange]
  cases j with
  | int v =>
    obtain rfl := Option.some_inj.mp hq
    rw [Json.text, truncated_intCast]
    exact atoi_decimal_iff v
  | double bits =>
    obtain rfl := Option.some_inj.mp hq
    rw [Json.text]
    exact atoi_formatDouble_iff
  | _ => cases hq

/-- What a response is whose members are all stored as they should be. -/
structure Storable (c : JsonC) (b : Frame) (myObj face : Json) (location : Members) : Prop where
  resultNum : Counted (myObj.get "result_num".toList)
  position : ∀ x ∈ b.locationFields, ∃ v, location.get x.1.toList = .int v ∧ InInt v
  numbers : ∀ x ∈ b.faceInts, ∃ v, face.get x.1.toList = .int v ∧ InInt v
  beauty : DoubleKept c.reread (face.get "beauty".toList)
  texts : ∀ x ∈ b.faceTexts, ∀ text, face.get x.1.toList = .string text →
    nul ∉ text ∧ text.length ≤ 15

def faceStores (c : JsonC) (b : Frame) (face : Json) (location : Members) :
    List (Place × List Char) :=
  memberStores b (face.map c.reread) ((Json.object (location.map c.reread)).map c.reread)

theorem Expected.mem_position (h : Expected b myObj face others location) {x : String × Place}
    (hx : x ∈ b.locationFields) :
    (x.2, stored ((location.get x.1.toList).map (c.reread ∘ c.reread))) ∈
      faceStores c b face location := by
  have hget : ((Json.object (location.map c.reread)).map c.reread).get x.1.toList =
      (location.get x.1.toList).map (c.reread ∘ c.reread) := by
    rw [← map_map_number (h.position x hx), json_get_map, Json.get, get_map]
  rw [← hget]
  exact List.mem_append_left _ (List.mem_map_of_mem hx)

theorem mem_face {x : String × Place} (hx : x ∈ b.faceFields) :
    (x.2, stored ((face.get x.1.toList).map c.reread)) ∈ faceStores c b face location := by
  rw [← json_get_map]
  exact List.mem_append_right _ (List.mem_map_of_mem hx)

theorem Expected.mem_faceStores (h : Expected b myObj face others location)
    {w : Place × List Char} (hw : w ∈ faceStores c b face location) :
    (∃ x ∈ b.locationFields,
        w = (x.2, stored ((location.get x.1.toList).map (c.reread ∘ c.reread)))) ∨
      ∃ x ∈ b.faceFields, w = (x.2, stored ((face.get x.1.toList).map c.reread)) := by
  rcases List.mem_append.mp hw with hw | hw
  · obtain ⟨x, hx, rfl⟩ := List.mem_map.mp hw
    refine .inl ⟨x, hx, ?_⟩
    rw [← map_map_number (h.position x hx), json_get_map, Json.get, get_map]
  · obtain ⟨x, hx, rfl⟩ := List.mem_map.mp hw
    exact .inr ⟨x, hx, by rw [json_get_map]⟩

theorem size_ints : ∀ x ∈ b.locationFields ++ b.faceInts, x.2.size = 4 := by
  simp [Frame.locationFields, Frame.faceInts, Frame.locLeft, Frame.locTop, Frame.locWidth,
    Frame.locHeight, Frame.faceProbability, Frame.age, Frame.expression, Frame.glasses]

theorem size_texts : ∀ x ∈ b.faceTexts, x.2.size = 16 := by
  simp [Frame.faceTexts, Frame.gender, Frame.race]

theorem mem_beauty : ("beauty", b.beauty) ∈ b.faceFields :=
  faceFields_iff.mpr (.inr (.inr rfl))

def finalMemory (c : JsonC) (b : Frame) (myObj face : Json) (location : Members)
    (memory : Memory Char) (heap : BitVec 64 → Option (List Char)) : Memory Char :=
  writeAll (pointed c b myObj face (Json.object (location.map c.reread)).text memory heap).memory
    (faceStores c b face location)

theorem storable_of_fieldsHold (hexpected : Expected b myObj face others location)
    (hzero : Zeroed b memory) (hfit : Fit (faceStores c b face location))
    (hhold : FieldsHold b myObj face location
      (finalMemory c b myObj face location memory heap)) : Storable c b myObj face location where
  resultNum := by
    obtain ⟨q, hq⟩ := Option.isSome_iff_exists.mp hexpected.resultNum
    have hheld := hhold.resultNum q hq
    rw [finalMemory, faceStores, held_resultNum hfit] at hheld
    exact (counted_iff hq).mp hheld
  position := by
    intro x hx
    obtain ⟨q, hq⟩ := Option.isSome_iff_exists.mp (hexpected.position x hx)
    have hmem := hexpected.mem_position (c := c) hx
    have hheld := hhold.position x hx q hq
    rw [finalMemory, faceStores, held_member hzero hfit hmem] at hheld
    exact (int_field_iff (size_ints x (List.mem_append_left _ hx)) hq).mp ⟨hfit _ hmem, hheld⟩
  numbers := by
    intro x hx
    obtain ⟨q, hq⟩ := Option.isSome_iff_exists.mp (hexpected.numbers x hx)
    have hmem : _ ∈ faceStores c b face location := mem_face (faceFields_iff.mpr (.inl hx))
    have hheld := hhold.numbers x hx q hq
    rw [finalMemory, faceStores, held_member hzero hfit hmem] at hheld
    exact (int_field_iff (size_ints x (List.mem_append_right _ hx)) hq).mp ⟨hfit _ hmem, hheld⟩
  beauty := by
    obtain ⟨q, hq⟩ := Option.isSome_iff_exists.mp hexpected.beauty
    have hmem : _ ∈ faceStores c b face location := mem_face mem_beauty
    have hheld := hhold.beauty q hq
    rw [finalMemory, faceStores, held_member hzero hfit hmem] at hheld
    exact (double_field_iff rfl hq).mp ⟨hfit _ hmem, hheld⟩
  texts := by
    intro x hx text htext
    have hmem : _ ∈ faceStores c b face location := mem_face (faceFields_iff.mpr (.inr (.inl hx)))
    have hheld := hhold.texts x hx text htext
    rw [finalMemory, faceStores, held_member hzero hfit hmem] at hheld
    exact (text_field_iff (size_texts x hx) htext).mp ⟨hfit _ hmem, hheld⟩

theorem Storable.fit (hexpected : Expected b myObj face others location)
    (h : Storable c b myObj face location) : Fit (faceStores c b face location) := by
  intro w hw
  rcases hexpected.mem_faceStores hw with ⟨x, hx, rfl⟩ | ⟨x, hx, rfl⟩
  · obtain ⟨q, hq⟩ := Option.isSome_iff_exists.mp (hexpected.position x hx)
    exact ((int_field_iff (size_ints x (List.mem_append_left _ hx)) hq).mpr (h.position x hx)).1
  · rcases faceFields_iff.mp hx with hx | hx | rfl
    · obtain ⟨q, hq⟩ := Option.isSome_iff_exists.mp (hexpected.numbers x hx)
      exact ((int_field_iff (size_ints x (List.mem_append_right _ hx)) hq).mpr (h.numbers x hx)).1
    · obtain ⟨text, htext⟩ := hexpected.texts x hx
      exact ((text_field_iff (size_texts x hx) htext).mpr (h.texts x hx text htext)).1
    · obtain ⟨q, hq⟩ := Option.isSome_iff_exists.mp hexpected.beauty
      exact ((double_field_iff rfl hq).mpr h.beauty).1

theorem Storable.fieldsHold (hexpected : Expected b myObj face others location)
    (hzero : Zeroed b memory) (h : Storable c b myObj face location) :
    FieldsHold b myObj face location (finalMemory c b myObj face location memory heap) := by
  have hfit := h.fit hexpected
  refine ⟨?_, ?_, ?_, ?_, ?_⟩
  · intro q hq
    rw [finalMemory, faceStores, held_resultNum hfit]
    exact (counted_iff hq).mpr h.resultNum
  · intro x hx q hq
    have hmem := hexpected.mem_position (c := c) hx
    rw [finalMemory, faceStores, held_member hzero hfit hmem]
    exact ((int_field_iff (size_ints x (List.mem_append_left _ hx)) hq).mpr (h.position x hx)).2
  · intro x hx q hq
    have hmem : _ ∈ faceStores c b face location := mem_face (faceFields_iff.mpr (.inl hx))
    rw [finalMemory, faceStores, held_member hzero hfit hmem]
    exact ((int_field_iff (size_ints x (List.mem_append_right _ hx)) hq).mpr (h.numbers x hx)).2
  · intro q hq
    have hmem : _ ∈ faceStores c b face location := mem_face mem_beauty
    rw [finalMemory, faceStores, held_member hzero hfit hmem]
    exact ((double_field_iff rfl hq).mpr h.beauty).2
  · intro x hx text htext
    have hmem : _ ∈ faceStores c b face location := mem_face (faceFields_iff.mpr (.inr (.inl hx)))
    rw [finalMemory, faceStores, held_member hzero hfit hmem]
    exact ((text_field_iff (size_texts x hx) htext).mpr (h.texts x hx text htext)).2

theorem confined_iff_fit {writes : List (Place × List Char)} :
    (∀ w ∈ writes, Confined w.1.address w.1.size w.2) ↔ Fit writes := by
  simp only [confined_iff, Fit]

/-- For one face, with memory for the texts, the function meets what is asked of it exactly when
the members are of the kind that can be stored. -/
theorem meets_one_face (hexpected : Expected b myObj face .nil location) (hzero : Zeroed b memory)
    (hface : ReadsBack c face) (hlocation : ReadsBack c (.object (location.map c.reread)))
    (hmalloc : c.malloc (face.text.length + 1) ≠ 0)
    (haddress : c.textAddress (Json.object (location.map c.reread)).text ≠ 0) :
    Meets c b myObj face location memory heap ↔ Storable c b myObj face location := by
  rw [Meets, parse_one_face hexpected hface hlocation hmalloc haddress, ← faceStores]
  constructor
  · rintro ⟨t, ht, hhold, hconfined⟩
    obtain ⟨hmemory, hstores⟩ := free_some ht
    rw [storeAll_eq] at hmemory hstores
    rw [hmemory] at hhold
    rw [hstores, confined_iff_fit] at hconfined
    exact storable_of_fieldsHold hexpected hzero
      (fun w hw => hconfined w (List.mem_append_right _ hw)) hhold
  · intro h
    have hfit := h.fit hexpected
    have hfree : ∃ t, free b ((pointed c b myObj face
        (Json.object (location.map c.reread)).text memory heap).storeAll
          (faceStores c b face location)) = some t := free_storeAll hfit
    obtain ⟨t, ht⟩ := hfree
    refine ⟨t, ht, ?_, ?_⟩
    · rw [(free_some ht).1, storeAll_eq]
      exact h.fieldsHold hexpected hzero
    · rw [confined_iff_fit, (free_some ht).2, storeAll_eq]
      intro w hw
      exact (List.mem_append.mp hw).elim (fit_pointed w) (hfit w)

theorem parse_none (hexpected : Expected b myObj face others location)
    (hface : ReadsBack c face) (h : ¬ (others = .nil ∧ c.malloc (face.text.length + 1) ≠ 0 ∧
      c.textAddress (Json.object (location.map c.reread)).text ≠ 0)) :
    parseDetectJsonResult c b myObj memory heap = none := by
  have hlocated : (face.map c.reread).get "location".toList = .object (location.map c.reread) := by
    rw [json_get_map, hexpected.located, Json.map]
  rw [ReadsBack] at hface
  rw [parseDetectJsonResult]
  cases others with
  | cons second rest =>
    rw [getParam_more_faces hexpected.result]
    rfl
  | nil =>
    by_cases hmalloc : c.malloc (face.text.length + 1) = 0
    · rw [getParam_one_face hexpected.result, if_pos hmalloc]
      rfl
    · have haddress : c.textAddress (Json.object (location.map c.reread)).text = 0 := by
        by_contra hne
        exact h ⟨rfl, hmalloc, hne⟩
      simp only [getParam_one_face hexpected.result, if_neg hmalloc, Option.bind_eq_bind,
        Option.bind_some, parseValue_point, hface, getParam_location hlocated, if_pos haddress,
        Option.bind_none]

/-- The members are stored, beside nothing else, exactly where there is one face, memory for its
texts, and no member but those that can be stored. -/
theorem members_stored_iff (c : JsonC) (b : Frame) (myObj face : Json) (others : Elements)
    (location : Members) (memory : Memory Char) (heap : BitVec 64 → Option (List Char))
    (hexpected : Expected b myObj face others location) (hzero : Zeroed b memory)
    (hface : ReadsBack c face) (hlocation : ReadsBack c (.object (location.map c.reread))) :
    Meets c b myObj face location memory heap ↔
      (others = .nil ∧ c.malloc (face.text.length + 1) ≠ 0 ∧
        c.textAddress (Json.object (location.map c.reread)).text ≠ 0) ∧
      Storable c b myObj face location := by
  by_cases h : others = .nil ∧ c.malloc (face.text.length + 1) ≠ 0 ∧
      c.textAddress (Json.object (location.map c.reread)).text ≠ 0
  · obtain ⟨rfl, hmalloc, haddress⟩ := h
    rw [and_iff_right ⟨rfl, hmalloc, haddress⟩]
    exact meets_one_face hexpected hzero hface hlocation hmalloc haddress
  · rw [Meets, parse_none hexpected hface h]
    exact iff_of_false (fun ⟨_, ht, _⟩ => by cases ht) fun hboth => h hboth.1

def oneLocation : Members :=
  .cons "left".toList (.int 81) <| .cons "top".toList (.int 150) <|
    .cons "width".toList (.int 201) <| .cons "height".toList (.int 179) .nil

def oneFace (probability : Json) : Json :=
  .object <| .cons "location".toList (.object oneLocation) <|
    .cons "face_probability".toList probability <| .cons "age".toList (.int 23) <|
    .cons "beauty".toList (.double 0x4052A00000000000#64) <|
    .cons "expression".toList (.int 0) <| .cons "gender".toList (.string "female".toList) <|
    .cons "glasses".toList (.int 0) <| .cons "race".toList (.string "yellow".toList) .nil

def oneResponse (probability : Json) : Json :=
  .object <| .cons "result_num".toList (.int 1) <|
    .cons "result".toList (.array (.cons (oneFace probability) .nil)) .nil

/-- For the texts of the face and of its location, whose doubles come back. -/
def oneJsonC (probability : Json) : JsonC where
  reread := id
  parse := fun text =>
    if text = (Json.object oneLocation).text then .object oneLocation else oneFace probability
  textAddress := fun _ => 8192
  malloc := fun _ => 4096

def oneFrame : Frame := ⟨65536, 131072, .inl (by decide)⟩

variable {probability : Json}

theorem expected_one (h : (numberValue probability).isSome) :
    Expected oneFrame (oneResponse probability) (oneFace probability) .nil oneLocation where
  resultNum := rfl
  result := rfl
  located := rfl
  position := by decide
  numbers := by
    intro x hx
    simp only [Frame.faceInts, List.mem_cons, List.not_mem_nil, or_false] at hx
    rcases hx with rfl | rfl | rfl | rfl
    · exact h
    all_goals rfl
  beauty := rfl
  texts := by
    intro x hx
    simp only [Frame.faceTexts, List.mem_cons, List.not_mem_nil, or_false] at hx
    rcases hx with rfl | rfl
    · exact ⟨"female".toList, rfl⟩
    · exact ⟨"yellow".toList, rfl⟩

theorem readsBack_one (h : probability.map id = probability) :
    ReadsBack (oneJsonC probability) (oneFace probability) := by
  have hne : (oneFace probability).text ≠ (Json.object oneLocation).text := by
    intro heq
    have hthird : (oneFace probability).text[4]? = some 'o' := rfl
    rw [heq] at hthird
    cases hthird
  have hmap : (oneFace probability).map id = oneFace probability := by
    simp only [oneFace, oneLocation, Json.map, Members.map, h, id]
  have hreread : (oneFace probability).map (oneJsonC probability).reread = oneFace probability :=
    hmap
  rw [ReadsBack, hreread, oneJsonC]
  dsimp only
  rw [if_neg hne]

theorem readsBack_location :
    ReadsBack (oneJsonC probability) (.object (oneLocation.map (oneJsonC probability).reread)) := by
  have hmap : (Json.object oneLocation).map id = .object oneLocation := rfl
  have hreread : oneLocation.map (oneJsonC probability).reread = oneLocation := rfl
  rw [ReadsBack, hreread, oneJsonC]
  dsimp only
  rw [if_pos rfl, hmap]

theorem one_response_stored : Meets (oneJsonC (.int 1)) oneFrame (oneResponse (.int 1))
    (oneFace (.int 1)) oneLocation (fun _ => nul) fun _ => none := by
  refine (members_stored_iff _ oneFrame _ _ .nil oneLocation _ _ (expected_one rfl)
    (fun _ _ _ => rfl) (readsBack_one rfl) readsBack_location).mpr
      ⟨⟨rfl, by decide, by decide⟩, ?_⟩
  refine ⟨⟨by decide, by decide⟩, ?_, ?_, rfl, ?_⟩
  · simp only [Frame.locationFields, List.forall_mem_cons]
    exact ⟨⟨81, rfl, by decide, by decide⟩, ⟨150, rfl, by decide, by decide⟩,
      ⟨201, rfl, by decide, by decide⟩, ⟨179, rfl, by decide, by decide⟩, nofun⟩
  · simp only [Frame.faceInts, List.forall_mem_cons]
    exact ⟨⟨1, rfl, by decide, by decide⟩, ⟨23, rfl, by decide, by decide⟩,
      ⟨0, rfl, by decide, by decide⟩, ⟨0, rfl, by decide, by decide⟩, nofun⟩
  · simp only [Frame.faceTexts, List.forall_mem_cons]
    refine ⟨?_, ?_, nofun⟩
    · rintro _ ⟨⟩
      decide
    · rintro _ ⟨⟩
      decide

def half : Json := .double 0x3FE0000000000000#64

/-- A probability with decimals takes eight bytes where the field has four. -/
theorem decimal_over_next_field :
    Expected oneFrame (oneResponse half) (oneFace half) .nil oneLocation ∧
      ¬ Meets (oneJsonC half) oneFrame (oneResponse half) (oneFace half) oneLocation
        (fun _ => nul) fun _ => none := by
  refine ⟨expected_one rfl, ?_⟩
  rw [meets_one_face (expected_one rfl) (fun _ _ _ => rfl) (readsBack_one rfl) readsBack_location
    (by decide) (by decide)]
  intro h
  obtain ⟨v, hv, -⟩ := h.numbers ("face_probability", oneFrame.faceProbability) List.mem_cons_self
  cases hv

end DetectFields
