import Mathlib.Data.List.Infix
import Mathlib.Algebra.BigOperators.Group.List.Basic

/-! # The escape codec of `db_usage_sqlite3.c`

A push message is stored with each apostrophe written as a mark of five characters, which
is ordinary text itself. A buffer is the characters written to it before its NUL. -/
namespace DbEscape

def escapeMark : List Char := ['#', '3', '9', '$', '&']

/-- The loop of `EncodeEscapeString`. An apostrophe that no longer fits moves `j` past the
end, and nothing more is written. -/
def encodeLoop (outbufLen : ℕ) : List Char → List Char → List Char
  | [], out => out
  | c :: rest, out =>
    if outbufLen - 1 ≤ out.length then out
    else if c = '\'' then
      if out.length + 5 < outbufLen then encodeLoop outbufLen rest (out ++ escapeMark) else out
    else encodeLoop outbufLen rest (out ++ [c])

/-- It has no result for a buffer of no bytes. -/
def encodeEscapeString (inStr : List Char) (outbufLen : ℕ) : Option (List Char) :=
  if outbufLen = 0 then none else some (encodeLoop outbufLen inStr [])

/-- The loop of `DecodeEscapeString`, which compares five characters at each `#`. -/
def decodeLoop (outbufLen : ℕ) : List Char → List Char → List Char
  | [], out => out
  | '#' :: '3' :: '9' :: '$' :: '&' :: rest, out =>
    if outbufLen - 1 ≤ out.length then out else decodeLoop outbufLen rest (out ++ ['\''])
  | c :: rest, out =>
    if outbufLen - 1 ≤ out.length then out else decodeLoop outbufLen rest (out ++ [c])

def decodeEscapeString (inStr : List Char) (outbufLen : ℕ) : Option (List Char) :=
  if outbufLen = 0 then none else some (decodeLoop outbufLen inStr [])

def escape (s : List Char) : List Char := s.flatMap fun c => if c = '\'' then escapeMark else [c]

def unescape : List Char → List Char
  | [] => []
  | '#' :: '3' :: '9' :: '$' :: '&' :: rest => '\'' :: unescape rest
  | c :: rest => c :: unescape rest

variable {s out p rest : List Char} {c : Char} {n : ℕ}

@[simp] theorem escape_nil : escape [] = [] := rfl

@[simp] theorem escape_quote : escape ('\'' :: rest) = escapeMark ++ escape rest := rfl

theorem escape_cons (hc : c ≠ '\'') : escape (c :: rest) = c :: escape rest := by
  simp [escape, hc]

theorem escape_eq_self (h : '\'' ∉ s) : escape s = s := by
  induction s with
  | nil => rfl
  | cons c rest ih =>
    rw [List.mem_cons, not_or] at h
    rw [escape_cons (Ne.symm h.1), ih h.2]

@[simp] theorem unescape_nil : unescape [] = [] := rfl

@[simp] theorem unescape_mark : unescape (escapeMark ++ rest) = '\'' :: unescape rest := rfl

theorem unescape_cons (h : ¬ escapeMark <+: c :: rest) :
    unescape (c :: rest) = c :: unescape rest := by
  rw [unescape]
  rintro rest' rfl rfl
  exact h ⟨rest', rfl⟩

theorem length_escape (s : List Char) : (escape s).length = s.length + 4 * s.count '\'' := by
  induction s with
  | nil => rfl
  | cons c rest ih =>
    by_cases hc : c = '\''
    · subst hc
      rw [escape_quote, List.length_append, ih, List.length_cons, List.count_cons_self]
      simp only [escapeMark, List.length_cons, List.length_nil]
      omega
    · rw [escape_cons hc, List.length_cons, ih, List.length_cons, List.count_cons_of_ne hc]
      omega

theorem encodeLoop_eq (h : out.length + (escape s).length < n) :
    encodeLoop n s out = out ++ escape s := by
  induction s generalizing out with
  | nil => simp [encodeLoop]
  | cons c rest ih =>
    by_cases hc : c = '\''
    · subst hc
      have hlen : (escape ('\'' :: rest)).length = 5 + (escape rest).length := by
        rw [escape_quote, List.length_append]
        rfl
      rw [hlen] at h
      rw [encodeLoop, if_neg (by omega), if_pos rfl, if_pos (by omega), ih, escape_quote,
        List.append_assoc]
      simp only [List.length_append, escapeMark, List.length_cons, List.length_nil]
      omega
    · rw [escape_cons hc, List.length_cons] at h
      rw [encodeLoop, if_neg (by omega), if_neg hc, ih, escape_cons hc, List.append_assoc]
      · rfl
      · simp only [List.length_append, List.length_singleton]
        omega

theorem decodeLoop_eq (h : out.length + s.length < n) :
    decodeLoop n s out = out ++ unescape s := by
  fun_induction unescape s generalizing out with
  | case1 => simp [decodeLoop]
  | case2 rest ih =>
    simp only [List.length_cons] at h
    rw [decodeLoop, if_neg (by omega), ih, List.append_assoc]
    · rfl
    · simp only [List.length_append, List.length_singleton]
      omega
  | case3 c rest hmark ih =>
    simp only [List.length_cons] at h
    rw [decodeLoop, if_neg (by omega), ih, List.append_assoc]
    · rfl
    · simp only [List.length_append, List.length_singleton]
      omega
    · exact hmark

theorem encodeLoop_cut (h : n ≤ out.length + (escape s).length) :
    n ≤ (encodeLoop n s out).length + 5 := by
  induction s generalizing out with
  | nil =>
    rw [escape_nil, List.length_nil] at h
    rw [encodeLoop]
    omega
  | cons c rest ih =>
    rw [encodeLoop]
    split
    · omega
    · split
      · rename_i hc
        subst hc
        split
        · apply ih
          rw [escape_quote, List.length_append] at h
          rw [List.length_append]
          omega
        · omega
      · rename_i hc
        apply ih
        rw [escape_cons hc, List.length_cons] at h
        rw [List.length_append, List.length_singleton]
        omega

theorem quote_not_mem_encodeLoop (h : '\'' ∉ out) : '\'' ∉ encodeLoop n s out := by
  induction s generalizing out with
  | nil => exact h
  | cons c rest ih =>
    rw [encodeLoop]
    split
    · exact h
    · split
      · split
        · exact ih (by simp [h, escapeMark])
        · exact h
      · rename_i hc
        exact ih (by simp [h, Ne.symm hc])

theorem prefix_of_escape (hp : '#' ∉ p) (h : p <+: escape s) : p <+: s := by
  induction p generalizing s with
  | nil => exact List.nil_prefix
  | cons a p ih =>
    rw [List.mem_cons, not_or] at hp
    cases s with
    | nil => simp at h
    | cons c rest =>
      by_cases hc : c = '\''
      · subst hc
        rw [escape_quote] at h
        exact absurd (List.cons_prefix_cons.mp h).1 (Ne.symm hp.1)
      · rw [escape_cons hc] at h
        obtain ⟨rfl, hrest⟩ := List.cons_prefix_cons.mp h
        exact List.cons_prefix_cons.mpr ⟨rfl, ih hp.2 hrest⟩

theorem unescape_escape (s : List Char) : unescape (escape s) = unescape s := by
  fun_induction unescape s with
  | case1 => rfl
  | case2 rest ih =>
    have hmark : escape (escapeMark ++ rest) = escapeMark ++ escape rest := rfl
    rw [← ih]
    exact (congrArg unescape hmark).trans unescape_mark
  | case3 c rest hmark ih =>
    by_cases hc : c = '\''
    · subst hc
      rw [escape_quote, unescape_mark, ih]
    · rw [escape_cons hc, unescape_cons, ih]
      intro hpre
      obtain ⟨rfl, hrest⟩ := List.cons_prefix_cons.mp hpre
      have hplain : '#' ∉ ['3', '9', '$', '&'] := by decide
      obtain ⟨tail, rfl⟩ := prefix_of_escape hplain hrest
      exact hmark tail rfl rfl

theorem unescape_eq_self (s : List Char) : unescape s = s ↔ ¬ escapeMark <:+: s := by
  fun_induction unescape s with
  | case1 => simp [escapeMark]
  | case2 rest ih =>
    refine iff_of_false (fun h => ?_) fun h => h ⟨[], rest, rfl⟩
    cases h
  | case3 c rest hmark ih =>
    rw [List.cons_inj_right, ih, List.infix_cons_iff, not_or]
    refine (and_iff_right ?_).symm
    rintro ⟨tail, htail⟩
    obtain ⟨rfl, rfl⟩ := List.cons.inj htail
    exact hmark tail rfl rfl

def decodeEncode (s : List Char) : Option (List Char) :=
  (encodeEscapeString s 256).bind fun stored => decodeEscapeString stored 256

theorem decodeEncode_eq (hfit : (escape s).length ≤ 255) : decodeEncode s = some (unescape s) := by
  have hencode : encodeEscapeString s 256 = some (escape s) := by
    rw [encodeEscapeString, if_neg (by decide),
      encodeLoop_eq (by simpa using Nat.lt_succ_of_le hfit)]
    rfl
  have hdecode : decodeEscapeString (escape s) 256 = some (unescape s) := by
    rw [decodeEscapeString, if_neg (by decide),
      decodeLoop_eq (by simpa using Nat.lt_succ_of_le hfit), unescape_escape]
    rfl
  rw [decodeEncode, hencode, Option.bind_some, hdecode]

/-- A text comes back exactly when it holds no mark of its own. -/
theorem decode_encode_iff (s : List Char) (hfit : (escape s).length ≤ 255) :
    decodeEncode s = some s ↔ ¬ escapeMark <:+: s := by
  rw [decodeEncode_eq hfit, Option.some_inj, unescape_eq_self]

theorem decode_encode_quote : decodeEncode "it's".toList = some "it's".toList :=
  (decode_encode_iff _ (by decide)).mpr (by decide)

theorem mark_comes_back_as_quote : (escape "a#39$&".toList).length ≤ 255 ∧
    decodeEncode "a#39$&".toList ≠ some "a#39$&".toList := by
  decide

end DbEscape
