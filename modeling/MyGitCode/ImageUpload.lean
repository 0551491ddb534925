import MyGitCode.Base64Bounds
import MyGitCode.DelimitedRuns

/-! # `run.c`: the text of an image

`read_img_encode` fills one buffer with the file and the other, of the same size, with its
encoding. The text that is sent is the C string in the second one. -/
namespace ImageUpload

open Base64 Base64Bounds

def buffSize : ℕ := 2 * 1024 * 2014

/-- An open file. `read` gives the result of a call at an offset for so many bytes. -/
structure File where
  content : List Byte
  read : ℕ → ℕ → ℤ
  read_le : ∀ offset count, read offset count ≤ count
  read_inside : ∀ offset count, offset ≤ content.length →
    offset + read offset count ≤ content.length

variable {size : ℕ}

def fill (buf : Vector Byte size) (ops : ℕ) (bytes : List Byte) : Option (Vector Byte size) :=
  if ops + bytes.length ≤ size then
    some (Vector.ofFn fun i : Fin size =>
      if ops ≤ i then bytes.getD (i - ops) buf[i] else buf[i])
  else none

/-- The loop over `read`, until it gives nothing more or an error. -/
def readLoop (file : File) (buf : Vector Byte size) (ops length : ℕ) :
    Option (ℕ × Vector Byte size) :=
  if _h : file.read ops length > 0 then do
    let count := (file.read ops length).toNat
    let buf ← fill buf ops ((file.content.drop ops).take count)
    readLoop file buf (ops + count) (length - count)
  else some (ops, buf)
termination_by length
decreasing_by
  have := file.read_le ops length
  omega

/-- Nobody looks at what `base64_encode` returns. -/
def encodeImgToBase64 (cnt : ℕ) (imgBuff base64Buff : Vector Byte buffSize) :
    Option (Vector Byte buffSize) := do
  let d ← base64Encode buffSize base64Buff imgBuff.toList cnt
  return d.out

/-- The two buffers come from `malloc`, with whatever is in them. -/
def readImgEncode (file : File) (imgBuff base64Buff : Vector Byte buffSize) :
    Option (Vector Byte buffSize) := do
  let (ops, imgBuff) ← readLoop file (memset imgBuff) 0 (buffSize - 1)
  encodeImgToBase64 ops imgBuff base64Buff

def cString (buf : Vector Byte size) : List Byte := buf.toList.takeWhile (· ≠ 0#8)

def digit (n : ℕ) : Byte := alphabet.getD (n % 64) 0#8

def quad (a b c : Byte) : List Byte :=
  let n := a.toNat * 65536 + b.toNat * 256 + c.toNat
  [digit (n / 262144), digit (n / 4096), digit (n / 64), digit n]

/-- Zeros fill up the last group, and `=` stands for each digit that has no bit of the content. -/
def standard : List Byte → List Byte
  | [] => []
  | [a] => (quad a 0#8 0#8).take 2 ++ [byte '=', byte '=']
  | [a, b] => (quad a b 0#8).take 3 ++ [byte '=']
  | a :: b :: c :: rest => quad a b c ++ standard rest

variable {a b c v : Byte} {content : List Byte} {file : File} {ops length : ℕ}

theorem encode64_eq_digit (h : Digit v) : encode64 v = digit v.toNat := by
  have hdigit : ∀ k : Fin 64, byte base64digits[k] = digit k := by
    decide +kernel
  obtain ⟨k, rfl⟩ := h.ofNat
  rw [encode64_ofNat, hdigit]
  congr 1
  simp only [BitVec.toNat_ofNat]
  omega

theorem forall_byte {p : Byte → Prop} (h : ∀ n : Fin 256, p (BitVec.ofNat 8 n)) (v : Byte) :
    p v := by
  simpa using h v.toFin

theorem toNat_sextet₀ : (sextet₀ a).toNat = a.toNat / 4 :=
  forall_byte (p := fun a => (sextet₀ a).toNat = a.toNat / 4) (by decide +kernel) a

theorem toNat_sextet₃ : (sextet₃ c).toNat = c.toNat % 64 :=
  forall_byte (p := fun c => (sextet₃ c).toNat = c.toNat % 64) (by decide +kernel) c

theorem toNat_sextet₁ : (sextet₁ a b).toNat = a.toNat % 4 * 16 + b.toNat / 16 := by
  have hhigh : ∀ v : Byte, ((v <<< 4) &&& 0x30#8).toNat = 2 ^ 4 * (v.toNat % 4) :=
    forall_byte (by decide +kernel)
  have hlow : ∀ v : Byte, ((v >>> 4) &&& 0x0F#8).toNat = v.toNat / 16 :=
    forall_byte (by decide +kernel)
  rw [sextet₁, BitVec.toNat_or, hhigh, hlow, ← Nat.two_pow_add_eq_or_of_lt (by omega)]
  omega

theorem toNat_sextet₂ : (sextet₂ b c).toNat = b.toNat % 16 * 4 + c.toNat / 64 := by
  have hhigh : ∀ v : Byte, ((v <<< 2) &&& 0x3C#8).toNat = 2 ^ 2 * (v.toNat % 16) :=
    forall_byte (by decide +kernel)
  have hlow : ∀ v : Byte, ((v >>> 6) &&& 0x03#8).toNat = v.toNat / 64 :=
    forall_byte (by decide +kernel)
  rw [sextet₂, BitVec.toNat_or, hhigh, hlow, ← Nat.two_pow_add_eq_or_of_lt (by omega)]
  omega

theorem digit_congr {m n : ℕ} (h : m % 64 = n % 64) : digit m = digit n := by
  rw [digit, digit, h]

theorem quad_eq : quad a b c = [encode64 (sextet₀ a), encode64 (sextet₁ a b),
    encode64 (sextet₂ b c), encode64 (sextet₃ c)] := by
  have ha := a.isLt
  have hb := b.isLt
  have hc := c.isLt
  rw [encode64_eq_digit digit_sextet₀, encode64_eq_digit digit_sextet₁,
    encode64_eq_digit digit_sextet₂, encode64_eq_digit digit_sextet₃, toNat_sextet₀,
    toNat_sextet₁, toNat_sextet₂, toNat_sextet₃]
  simp only [quad, List.cons.injEq, and_true]
  refine ⟨digit_congr ?_, digit_congr ?_, digit_congr ?_, digit_congr ?_⟩
  · omega
  · omega
  · omega
  · omega

theorem textOf_eq : textOf content = standard content := by
  induction content using textOf.induct with
  | case1 => rfl
  | case2 a =>
    rw [textOf, standard, quad_eq]
    rfl
  | case3 a b =>
    rw [textOf, standard, quad_eq]
    rfl
  | case4 a b c rest ih =>
    rw [textOf, standard, quad_eq, ih]
    rfl

example : standard [0x4D#8, 0x61#8] = "TWE=".toList.map byte := by decide +kernel

theorem fill_held {written bytes : List Byte} (hle : ops + bytes.length ≤ size)
    (hops : written.length = ops) :
    fill (held size written) ops bytes = some (held size (written ++ bytes)) := by
  rw [fill, if_pos hle, Option.some.injEq]
  apply Vector.ext
  intro i hi
  rw [Vector.getElem_ofFn, getElem_held]
  simp only [Fin.getElem_fin, getElem_held, List.getD_eq_getElem?_getD]
  split
  · rename_i hge
    have hnone : written[i]? = none := List.getElem?_eq_none (by omega)
    rw [List.getElem?_append_right (by omega), hops, hnone]
    rfl
  · rw [List.getElem?_append_left (by omega)]

/-- The loop leaves the beginning of the content in the buffer, as far as it was read. It ends
where `read` gives nothing more. -/
theorem readLoop_eq (file : File) : ∀ (ops length : ℕ), ops + length ≤ size →
    ops ≤ file.content.length →
    ∃ ops' length', readLoop file (held size (file.content.take ops)) ops length =
      some (ops', held size (file.content.take ops')) ∧ ops' ≤ file.content.length ∧
      ops' + length' = ops + length ∧ file.read ops' length' ≤ 0 := by
  intro ops length
  induction length using Nat.strong_induction_on generalizing ops with
  | _ length ih =>
  intro hsize hops
  rw [readLoop]
  split
  · rename_i hpos
    have hle := file.read_le ops length
    have hin := file.read_inside ops length hops
    generalize hcount : (file.read ops length).toNat = count
    have hpiece : ((file.content.drop ops).take count).length = count := by
      rw [List.length_take, List.length_drop]
      omega
    dsimp only
    rw [fill_held (by omega) (List.length_take_of_le hops), ← List.take_add]
    obtain ⟨ops', length', heq, hops', hsum, hend⟩ :=
      ih (length - count) (by omega) (ops + count) (by omega) (by omega)
    exact ⟨ops', length', heq, hops', by omega, hend⟩
  · exact ⟨ops, length, rfl, hops, rfl, by omega⟩

def ReadsAll (file : File) : Prop :=
  ∀ imgBuff : Vector Byte buffSize, ∃ buf,
    readLoop file (memset imgBuff) 0 (buffSize - 1) = some (file.content.length, buf)

theorem buffSize_eq : buffSize = 4124672 := by decide

theorem reads_all (hread : ∀ offset count, offset < file.content.length → 0 < count →
    0 < file.read offset count) (hle : file.content.length ≤ buffSize - 1) : ReadsAll file := by
  intro imgBuff
  rw [memset_eq]
  have hzero : 0 + (buffSize - 1) ≤ buffSize := by omega
  obtain ⟨ops, length, heq, hops, hsum, hend⟩ :=
    readLoop_eq file 0 (buffSize - 1) hzero (Nat.zero_le _)
  have hall : ops = file.content.length := by
    by_contra hne
    have := hread ops length (by omega) (by omega)
    omega
  rw [← hall]
  exact ⟨_, heq⟩

theorem ReadsAll.readLoop (h : ReadsAll file) (imgBuff : Vector Byte buffSize) :
    file.content.length < buffSize ∧ readLoop file (memset imgBuff) 0 (buffSize - 1) =
      some (file.content.length, held buffSize file.content) := by
  obtain ⟨buf, hbuf⟩ := h imgBuff
  rw [memset_eq] at hbuf ⊢
  have hzero : 0 + (buffSize - 1) ≤ buffSize := by omega
  obtain ⟨ops, length, heq, hops, hsum, hend⟩ :=
    readLoop_eq file 0 (buffSize - 1) hzero (Nat.zero_le _)
  have hall : ops = file.content.length := by
    have h := heq.symm.trans hbuf
    rw [Option.some.injEq, Prod.mk.injEq] at h
    exact h.1
  rw [hall, List.take_length] at heq
  rw [buffSize_eq] at hsum ⊢
  exact ⟨by omega, heq⟩

/-- The text is the standard encoding, decodes to the content, and is not empty for an image. -/
def Uploads (content : List Byte) (buf : Vector Byte buffSize) : Prop :=
  cString buf = standard content ∧
    (∀ maxlen : ℤ, maxlen = 0 ∨ content.length < maxlen →
      Base64.base64Decode (cString buf) maxlen = ⟨content.length, content ++ [0#8]⟩) ∧
    (content ≠ [] → cString buf ≠ [])

theorem readImgEncode_eq (h : ReadsAll file) (imgBuff base64Buff : Vector Byte buffSize) :
    readImgEncode file imgBuff base64Buff =
      (placed buffSize (Base64.base64Encode file.content buffSize)).map Done.out := by
  obtain ⟨hlt, hread⟩ := h.readLoop imgBuff
  rw [readImgEncode, hread]
  change encodeImgToBase64 file.content.length (held buffSize file.content) base64Buff = _
  rw [encodeImgToBase64, toList_held (Nat.le_of_lt hlt), base64Encode_eq, Option.map_eq_bind]
  rfl

theorem zero_not_mem_textOf : 0#8 ∉ textOf content := by
  obtain ⟨digits, pads, htext, hdigits, -⟩ := @textOf_alphabet content
  rw [htext, List.mem_append]
  intro hcase
  rcases hcase with h | h
  · have hzero : 0#8 ∉ alphabet := by
      decide +kernel
    exact hzero (hdigits _ h)
  · exact absurd (List.eq_of_mem_replicate h) (by decide)

theorem cString_held {text : List Byte} (h : text.length < size) (hzero : 0#8 ∉ text) :
    cString (held size (text ++ [0#8])) = text := by
  have hle : (text ++ [0#8]).length ≤ size := by
    rw [List.length_append]
    exact h
  rw [cString, toList_held hle, List.append_assoc, List.singleton_append,
    DelimitedRuns.takeWhile_ne_append_cons hzero]

theorem cString_nil {buf : Vector Byte size} (h : buf[0]? = some 0#8) : cString buf = [] := by
  rw [← Vector.getElem?_toList] at h
  rw [cString]
  cases hlist : buf.toList with
  | nil => rfl
  | cons c rest =>
    rw [hlist, List.getElem?_cons_zero, Option.some.injEq] at h
    simp [h]

theorem textOf_ne_nil (h : content ≠ []) : textOf content ≠ [] := by
  have hpos := List.length_pos_iff.2 h
  rw [← List.length_pos_iff, length_textOf, textLength]
  omega

theorem decode_textOf (h : content.length < 2 ^ 31) {maxlen : ℤ}
    (hmax : maxlen = 0 ∨ content.length < maxlen) :
    Base64.base64Decode (textOf content) maxlen = ⟨content.length, content ++ [0#8]⟩ := by
  have hloop : decodeLoop maxlen (textOf content) (int 0) [] =
      terminate (int (0 + content.length)) ([] ++ content) := by
    refine decodeLoop_eq fun m h₀ hm => ?_
    rw [Int.zero_add, int_eq h₀ (by omega)]
    omega
  rw [Int.zero_add, int_zero, int_natCast h] at hloop
  exact hloop

theorem textLength_lt_iff (n : ℕ) : textLength n < buffSize ↔ n ≤ 3093501 := by
  rw [buffSize_eq, textLength]
  omega

theorem uploads_of_le (h : file.content.length ≤ 3093501) (hread : ReadsAll file)
    (imgBuff base64Buff : Vector Byte buffSize) :
    ∃ buf, readImgEncode file imgBuff base64Buff = some buf ∧ Uploads file.content buf := by
  have hlt := (textLength_lt_iff _).2 h
  have hsize : buffSize < 2 ^ 31 := by decide
  have htext : cString (held buffSize (textOf file.content ++ [0#8])) = textOf file.content :=
    cString_held (by rwa [length_textOf]) zero_not_mem_textOf
  refine ⟨held buffSize (textOf file.content ++ [0#8]), ?_, ?_, ?_, ?_⟩
  · rw [readImgEncode_eq hread, base64Encode_fits hlt hsize, placed, terminate, if_pos]
    · rfl
    · rw [List.length_append, length_textOf]
      exact hlt
  · rw [htext, textOf_eq]
  · intro maxlen hmax
    rw [htext]
    exact decode_textOf (by omega) hmax
  · intro hne
    rw [htext]
    exact textOf_ne_nil hne

theorem empty_of_lt (h : 3093501 < file.content.length) (hread : ReadsAll file)
    (imgBuff base64Buff : Vector Byte buffSize) :
    ∃ buf, readImgEncode file imgBuff base64Buff = some buf ∧ cString buf = [] := by
  have hle : buffSize ≤ textLength file.content.length := by
    by_contra hlt
    have := (textLength_lt_iff _).1 (Nat.lt_of_not_le hlt)
    omega
  obtain ⟨hbounded, hoverflow⟩ := base64Encode_bounded file.content
    (by decide : 0 < buffSize) (by decide) (.inl (by decide))
  obtain ⟨d, hd, hended, hret⟩ := hbounded.placed
  refine ⟨d.out, ?_, cString_nil (hended.2 ?_)⟩
  · rw [readImgEncode_eq hread, hd]
    rfl
  · rw [hret, hoverflow.2 hle]
    decide

theorem not_uploads (h : 3093501 < file.content.length) (hread : ReadsAll file)
    {imgBuff base64Buff buf : Vector Byte buffSize}
    (hbuf : readImgEncode file imgBuff base64Buff = some buf) : ¬ Uploads file.content buf := by
  obtain ⟨buf', hbuf', hempty⟩ := empty_of_lt h hread imgBuff base64Buff
  cases hbuf.symm.trans hbuf'
  rintro ⟨-, -, hne⟩
  refine hne ?_ hempty
  rintro hnil
  rw [hnil] at h
  cases h

/-- The text of an image that was read is right exactly where it fits into a buffer of the size
the image was read into. -/
theorem uploads_iff (file : File) (imgBuff base64Buff : Vector Byte buffSize)
    (hread : ReadsAll file) :
    (∃ buf, readImgEncode file imgBuff base64Buff = some buf ∧ Uploads file.content buf) ↔
      file.content.length ≤ 3093501 := by
  constructor
  · rintro ⟨buf, hbuf, huploads⟩
    by_contra hlen
    exact not_uploads (by omega) hread hbuf huploads
  · intro hlen
    exact uploads_of_le hlen hread imgBuff base64Buff

def File.ofBytes (content : List Byte) : File where
  content := content
  read offset count := min count (content.length - offset)
  read_le offset count := by omega
  read_inside offset count h := by omega

theorem ofBytes_readsAll (h : content.length ≤ buffSize - 1) :
    ReadsAll (File.ofBytes content) := by
  refine reads_all ?_ h
  intro offset count hoffset hcount
  simp only [File.ofBytes] at hoffset ⊢
  omega

theorem two_bytes_uploaded : ∃ buf, readImgEncode (File.ofBytes [0x4D#8, 0x61#8])
    (Vector.replicate _ 0xFF#8) (Vector.replicate _ 0xFF#8) = some buf ∧
      Uploads [0x4D#8, 0x61#8] buf :=
  (uploads_iff _ _ _ (ofBytes_readsAll (by decide))).2 (by decide)

/-- An image of 3093502 bytes is read, and nothing of it is sent. -/
theorem large_image_lost : ∃ file : File, file.content.length = 3093502 ∧ ReadsAll file ∧
    ∀ imgBuff base64Buff : Vector Byte buffSize,
      ∃ buf, readImgEncode file imgBuff base64Buff = some buf ∧ cString buf = [] ∧
        ¬ Uploads file.content buf := by
  have hlen : (List.replicate 3093502 0#8).length = 3093502 := List.length_replicate
  have hread : ReadsAll (File.ofBytes (List.replicate 3093502 0#8)) := by
    refine ofBytes_readsAll ?_
    rw [hlen]
    decide
  have hlt : 3093501 < (File.ofBytes (List.replicate 3093502 0#8)).content.length := by
    change 3093501 < (List.replicate 3093502 0#8).length
    rw [hlen]
    decide
  refine ⟨File.ofBytes (List.replicate 3093502 0#8), hlen, hread, fun imgBuff base64Buff => ?_⟩
  obtain ⟨buf, hbuf, hempty⟩ := empty_of_lt hlt hread imgBuff base64Buff
  exact ⟨buf, hbuf, hempty, not_uploads hlt hread hbuf⟩

end ImageUpload
