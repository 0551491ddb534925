import MyGitCode.CBuffer
import MyGitCode.DbEscape

/-! # The escape codec on the bytes of its buffers

Both functions clear the buffer and write into it by an index, which the encoder also moves over
a mark that it had no room for. The index and the sizes are of type int. -/
namespace DbEscapeBounds

open StrKit CBuffer DbEscape

def intMax : ℕ := 2147483647

/-- The value in an int, which a sum that is too large for it wraps to. -/
def int (x : ℤ) : ℤ := x.bmod (2 ^ 32)

/-- The loop of `EncodeEscapeString` from `inStr[i]` on. -/
def encodeFrom {n : ℕ} : List Char → ℕ → Buffer n → Option (Buffer n)
  | [], _, outbuf => some outbuf
  | c :: rest, j, outbuf =>
    if n - 1 ≤ j then some outbuf
    else if c = '\'' then
      if int (j + 5) < n then (memcpy outbuf j escapeMark).bind (encodeFrom rest (j + 5))
      else encodeFrom rest (j + 5) outbuf
    else (memcpy outbuf j [c]).bind (encodeFrom rest (j + 1))

/-- The characters up to `inStr_len`, which is `strlen` as an int. -/
def counted (inStr : List Char) : List Char := inStr.take (int inStr.length).toNat

/-- `EncodeEscapeString` with its return code. A buffer of no bytes is refused. -/
def encodeEscapeStringInto {n : ℕ} (inStr : List Char) (outbuf : Buffer n) :
    Option (ℤ × Buffer n) :=
  if n = 0 then some (-1, outbuf)
  else (encodeFrom (counted inStr) 0 (zeroed n)).map fun outbuf => (0, outbuf)

/-- The loop of `DecodeEscapeString` from `inStr[i]` on. -/
def decodeFrom {n : ℕ} : List Char → ℕ → Buffer n → Option (Buffer n)
  | [], _, outbuf => some outbuf
  | '#' :: '3' :: '9' :: '$' :: '&' :: rest, j, outbuf =>
    if n - 1 ≤ j then some outbuf
    else (memcpy outbuf j ['\'']).bind (decodeFrom rest (j + 1))
  | c :: rest, j, outbuf =>
    if n - 1 ≤ j then some outbuf else (memcpy outbuf j [c]).bind (decodeFrom rest (j + 1))

def decodeEscapeStringInto {n : ℕ} (inStr : List Char) (outbuf : Buffer n) :
    Option (ℤ × Buffer n) :=
  if n = 0 then some (-1, outbuf)
  else (decodeFrom inStr 0 (zeroed n)).map fun outbuf => (0, outbuf)

variable {n : ℕ} {s out : List Char} {outbuf : Buffer n}

theorem encodeFrom_full {j : ℕ} (h : n - 1 ≤ j) : encodeFrom s j outbuf = some outbuf := by
  cases s with
  | nil => rfl
  | cons c rest => rw [encodeFrom, if_pos h]

theorem int_lt_iff {j : ℕ} (hmax : n ≤ intMax) (hj : j ≤ intMax) :
    int (j + 5) < n ↔ j + 5 < n ∨ intMax < j + 5 := by
  rw [intMax] at *
  rw [int]
  by_cases hfit : j + 5 ≤ 2147483647
  · rw [Int.bmod_eq_of_le (by omega) (by omega)]
    omega
  · have hneg : ((j : ℤ) + 5).bmod (2 ^ 32) < 0 := by
      rw [Int.bmod]
      split <;> omega
    omega

/-- Where a mark fits behind what is written, so that its end is an int. -/
def MarksFit (n : ℕ) (s out : List Char) : Prop :=
  ∀ p, p ++ ['\''] <+: s → (out ++ escape p).length + 1 < n →
    (out ++ escape p).length + 5 ≤ intMax

theorem MarksFit.quote (h : MarksFit n ('\'' :: s) out) (hroom : out.length + 1 < n) :
    out.length + 5 ≤ intMax := by
  have hmark := h [] (by simp)
  rw [escape_nil, List.append_nil] at hmark
  exact hmark hroom

theorem MarksFit.tail {c : Char} (h : MarksFit n (c :: s) out) :
    MarksFit n s (out ++ escape [c]) := by
  intro p hp
  have hcons := h (c :: p) (List.cons_prefix_cons.mpr ⟨rfl, hp⟩)
  have hsplit : escape (c :: p) = escape [c] ++ escape p := @List.flatMap_append _ _ [c] _ _
  rwa [hsplit, ← List.append_assoc] at hcons

theorem encodeFrom_holds (hmax : n ≤ intMax) (h : Holds outbuf out) (hlt : out.length < n)
    (hcov : MarksFit n s out) :
    ∃ b, encodeFrom s out.length outbuf = some b ∧ Holds b (encodeLoop n s out) ∧
      (encodeLoop n s out).length < n := by
  induction s generalizing out outbuf with
  | nil => exact ⟨_, rfl, h, hlt⟩
  | cons c rest ih =>
    rw [encodeFrom, encodeLoop]
    split
    · exact ⟨_, rfl, h, hlt⟩
    · rename_i hroom
      split
      · rename_i hquote
        subst hquote
        have hfit := hcov.quote (by omega)
        have hint : int (out.length + 5) < n ↔ out.length + 5 < n := by
          rw [int_lt_iff hmax (by omega)]
          omega
        rw [if_congr hint rfl rfl]
        split
        · rename_i hmark
          have hlen : (out ++ escapeMark).length = out.length + 5 := List.length_append
          obtain ⟨b, hb, hholds⟩ := h.memcpy escapeMark (Nat.le_of_lt hmark)
          rw [hb, Option.bind_some, ← hlen]
          exact ih hholds (hlen ▸ hmark) hcov.tail
        · rw [encodeFrom_full (by omega)]
          exact ⟨_, rfl, h, hlt⟩
      · rename_i hquote
        have hlen : (out ++ [c]).length = out.length + 1 := List.length_append
        have hsame : escape [c] = [c] := escape_cons hquote
        obtain ⟨b, hb, hholds⟩ := h.memcpy [c] hlt
        rw [hb, Option.bind_some, ← hlen]
        exact ih hholds (by omega) (hsame ▸ hcov.tail)

theorem encodeFrom_overflow {p : List Char} (hmax : n ≤ intMax) (h : Holds outbuf out)
    (hp : p ++ ['\''] <+: s) (hroom : (out ++ escape p).length + 1 < n)
    (hover : intMax < (out ++ escape p).length + 5) :
    encodeFrom s out.length outbuf = none := by
  induction p generalizing s out outbuf with
  | nil =>
    obtain ⟨rest, rfl⟩ := hp
    rw [escape_nil, List.append_nil] at hroom hover
    have hint : int (out.length + 5) < n := (int_lt_iff hmax (by omega)).mpr (.inr hover)
    have hlong : n < out.length + escapeMark.length := by
      have hfive : escapeMark.length = 5 := rfl
      omega
    rw [List.nil_append, List.singleton_append, encodeFrom, if_neg (by omega), if_pos rfl,
      if_pos hint, memcpy_eq_none hlong, Option.bind_none]
  | cons c p ih =>
    obtain ⟨rest, rfl⟩ := hp
    have hsplit : escape (c :: p) = escape [c] ++ escape p := @List.flatMap_append _ _ [c] _ _
    rw [hsplit, ← List.append_assoc] at hroom hover
    have hlen : ((out ++ escape [c]) ++ escape p).length =
        out.length + (escape [c]).length + (escape p).length := by
      rw [List.length_append, List.length_append]
    have hrest : p ++ ['\''] <+: p ++ ['\''] ++ rest := List.prefix_append _ _
    by_cases hc : c = '\''
    · subst hc
      have hmark : escape ['\''] = escapeMark := rfl
      have hfive : escapeMark.length = 5 := rfl
      rw [hmark] at hroom hover hlen
      have hint : int (out.length + 5) < n :=
        (int_lt_iff hmax (by omega)).mpr (.inl (by omega))
      obtain ⟨b, hb, hholds⟩ := h.memcpy escapeMark (by omega)
      have hnext : (out ++ escapeMark).length = out.length + 5 := List.length_append
      rw [List.append_assoc, List.cons_append, encodeFrom, if_neg (by omega), if_pos rfl,
        if_pos hint, hb, Option.bind_some, ← hnext, ← List.append_assoc]
      exact ih hholds hrest hroom hover
    · have hsame : escape [c] = [c] := escape_cons hc
      rw [hsame] at hroom hover hlen
      rw [List.length_singleton] at hlen
      obtain ⟨b, hb, hholds⟩ := h.memcpy [c] (by rw [List.length_singleton]; omega)
      have hnext : (out ++ [c]).length = out.length + 1 := List.length_append
      rw [List.append_assoc, List.cons_append, encodeFrom, if_neg (by omega), if_neg hc, hb,
        Option.bind_some, ← hnext, ← List.append_assoc]
      exact ih hholds hrest hroom hover

theorem decodeFrom_holds (h : Holds outbuf out) (hlt : out.length < n) :
    ∃ b, decodeFrom s out.length outbuf = some b ∧ Holds b (decodeLoop n s out) ∧
      (decodeLoop n s out).length < n := by
  fun_induction unescape s generalizing out outbuf with
  | case1 => exact ⟨_, rfl, h, hlt⟩
  | case2 rest ih =>
    rw [decodeFrom, decodeLoop]
    split
    · exact ⟨_, rfl, h, hlt⟩
    · have hlen : (out ++ ['\'']).length = out.length + 1 := List.length_append
      obtain ⟨b, hb, hholds⟩ := h.memcpy ['\''] hlt
      rw [hb, Option.bind_some, ← hlen]
      exact ih hholds (by omega)
  | case3 c rest hmark ih =>
    rw [decodeFrom, decodeLoop]
    · split
      · exact ⟨_, rfl, h, hlt⟩
      · have hlen : (out ++ [c]).length = out.length + 1 := List.length_append
        obtain ⟨b, hb, hholds⟩ := h.memcpy [c] hlt
        rw [hb, Option.bind_some, ← hlen]
        exact ih hholds (by omega)
    · exact hmark
    · exact hmark

theorem encodeLoop_prefix (n : ℕ) (s out : List Char) :
    ∃ p, p <+: s ∧ encodeLoop n s out = out ++ escape p := by
  induction s generalizing out with
  | nil => exact ⟨[], List.nil_prefix, (List.append_nil out).symm⟩
  | cons c rest ih =>
    have hstop : ∃ p, p <+: c :: rest ∧ out = out ++ escape p :=
      ⟨[], List.nil_prefix, (List.append_nil out).symm⟩
    rw [encodeLoop]
    split
    · exact hstop
    · split
      · rename_i hquote
        split
        · obtain ⟨p, hp, heq⟩ := ih (out ++ escapeMark)
          refine ⟨c :: p, List.cons_prefix_cons.mpr ⟨rfl, hp⟩, ?_⟩
          rw [heq, hquote, escape_quote, List.append_assoc]
        · exact hstop
      · rename_i hquote
        obtain ⟨p, hp, heq⟩ := ih (out ++ [c])
        refine ⟨c :: p, List.cons_prefix_cons.mpr ⟨rfl, hp⟩, ?_⟩
        rw [heq, escape_cons hquote, List.append_assoc]
        rfl

theorem quote_not_mem_escape : '\'' ∉ escape s := by
  intro hquote
  obtain ⟨c, -, hmem⟩ := List.mem_flatMap.mp hquote
  split at hmem
  · exact absurd hmem (by decide)
  · rename_i hc
    exact hc (List.mem_singleton.mp hmem).symm

theorem nul_not_mem_escape (h : nul ∉ s) : nul ∉ escape s := by
  intro hnul
  obtain ⟨c, hc, hmem⟩ := List.mem_flatMap.mp hnul
  split at hmem
  · exact absurd hmem (by decide)
  · exact h (List.mem_singleton.mp hmem ▸ hc)

theorem counted_eq (h : s.length ≤ intMax) : counted s = s := by
  rw [intMax] at h
  rw [counted, int, Int.bmod_eq_of_le (by omega) (by omega)]
  exact List.take_of_length_le (by omega)

theorem length_le_escape (s : List Char) : s.length ≤ (escape s).length := by
  rw [length_escape]
  exact Nat.le_add_right _ _

theorem encodeEscapeStringInto_spec (hn : 1 ≤ n) (hmax : n ≤ intMax) (outbuf : Buffer n)
    (hcov : MarksFit n (counted s) []) :
    ∃ b p, encodeEscapeStringInto s outbuf = some (0, b) ∧ p <+: s ∧ Holds b (escape p) ∧
      (escape p).length < n ∧ ((escape s).length < n → p = s) := by
  obtain ⟨b, hb, hholds, hlt⟩ := encodeFrom_holds hmax holds_zeroed hn hcov
  have hencode : encodeEscapeStringInto s outbuf = some (0, b) := by
    rw [encodeEscapeStringInto, if_neg (by omega)]
    exact congrArg (Option.map _) hb
  by_cases hfit : (escape s).length < n
  · have hall : counted s = s := by
      have hle := length_le_escape s
      exact counted_eq (by omega)
    have hloop : encodeLoop n s [] = escape s := encodeLoop_eq (by simpa using hfit)
    rw [hall, hloop] at hholds
    exact ⟨b, s, hencode, List.prefix_rfl, hholds, hfit, fun _ => rfl⟩
  · obtain ⟨p, hp, hloop⟩ := encodeLoop_prefix n (counted s) []
    rw [List.nil_append] at hloop
    rw [hloop] at hholds hlt
    exact ⟨b, p, hencode, hp.trans (List.take_prefix _ _), hholds, hlt, fun h => absurd h hfit⟩

theorem encodeEscapeStringInto_none (hn : 1 ≤ n) (hmax : n ≤ intMax) (outbuf : Buffer n)
    (hcov : ¬ MarksFit n (counted s) []) : encodeEscapeStringInto s outbuf = none := by
  unfold MarksFit at hcov
  push Not at hcov
  obtain ⟨p, hp, hroom, hover⟩ := hcov
  have hnone : encodeFrom (counted s) 0 (zeroed n) = none := by
    apply encodeFrom_overflow hmax holds_zeroed hp hroom hover
  rw [encodeEscapeStringInto, if_neg (by omega), hnone, Option.map_none]

theorem decodeEscapeStringInto_holds (hn : 1 ≤ n) (outbuf : Buffer n) (s : List Char) :
    ∃ b, decodeEscapeStringInto s outbuf = some (0, b) ∧ Holds b (decodeLoop n s []) ∧
      (decodeLoop n s []).length < n := by
  obtain ⟨b, hb, hholds, hlen⟩ := decodeFrom_holds (s := s) holds_zeroed hn
  refine ⟨b, ?_, hholds, hlen⟩
  rw [decodeEscapeStringInto, if_neg (by omega)]
  exact congrArg (Option.map _) hb

theorem decodeEscapeStringInto_spec (hlt : s.length < n) (outbuf : Buffer n) :
    ∃ b, decodeEscapeStringInto s outbuf = some (0, b) ∧ Holds b (unescape s) ∧
      (unescape s).length < n := by
  have hloop : decodeLoop n s [] = unescape s := decodeLoop_eq (by simpa using hlt)
  rw [← hloop]
  exact decodeEscapeStringInto_holds (Nat.one_le_of_lt hlt) outbuf s

theorem nul_not_mem_decodeLoop (hs : nul ∉ s) (hout : nul ∉ out) : nul ∉ decodeLoop n s out := by
  fun_induction decodeLoop n s out with
  | case1 out => exact hout
  | case2 rest out hfull => exact hout
  | case3 rest out hroom ih =>
    apply ih
    · intro h
      exact hs (List.mem_append_right escapeMark h)
    · rw [List.mem_append, not_or]
      exact ⟨hout, by decide⟩
  | case4 c rest out hmark hfull => exact hout
  | case5 c rest out hmark hroom ih =>
    rw [List.mem_cons, not_or] at hs
    apply ih hs.2
    rw [List.mem_append, List.mem_singleton, not_or]
    exact ⟨hout, hs.1⟩

/-- What is left of a text in a buffer, and what is read back from it. -/
def Escapes (n : ℕ) (s : List Char) : Prop :=
  ∀ outbuf outbuf' : Buffer n,
    ∃ b, encodeEscapeStringInto s outbuf = some (0, b) ∧ Terminated b ∧ '\'' ∉ b.bytes ∧
      (∃ p, p <+: s ∧ text b = escape p) ∧
      (¬ escapeMark <:+: s → ∃ b', decodeEscapeStringInto (text b) outbuf' = some (0, b') ∧
        text b' <+: s ∧ ((escape s).length < n → text b' = s))

/-- A text is kept in a buffer of any size unless an apostrophe fits whose mark would end behind
the largest int. Only the three largest sizes have room for one. -/
theorem escape_sound_iff (n : ℕ) (hn : 1 ≤ n) (hmax : n ≤ intMax) (s : List Char)
    (hs : nul ∉ s) : Escapes n s ↔ MarksFit n (counted s) [] := by
  constructor
  · intro hsound
    by_contra hcov
    obtain ⟨b, hencode, -⟩ := hsound (zeroed n) (zeroed n)
    rw [encodeEscapeStringInto_none hn hmax _ hcov] at hencode
    cases hencode
  · intro hcov outbuf outbuf'
    obtain ⟨b, p, hencode, hp, hholds, hlt, hfull⟩ :=
      encodeEscapeStringInto_spec hn hmax outbuf hcov
    have hnul : nul ∉ p := fun h => hs (hp.subset h)
    have htext : text b = escape p := hholds.text hlt (nul_not_mem_escape hnul)
    refine ⟨b, hencode, hholds.terminated hlt, ?_, ⟨p, hp, htext⟩, ?_⟩
    · rw [hholds, List.mem_append, not_or]
      refine ⟨quote_not_mem_escape, ?_⟩
      intro h
      exact absurd (List.eq_of_mem_replicate h) (by decide)
    · intro hmark
      have hplain : unescape (escape p) = p := by
        rw [unescape_escape, unescape_eq_self]
        exact fun h => hmark (h.trans hp.isInfix)
      obtain ⟨b', hdecode, hholds', hlt'⟩ := decodeEscapeStringInto_spec hlt outbuf'
      rw [hplain] at hholds' hlt'
      have htext' : text b' = p := hholds'.text hlt' hnul
      refine ⟨b', ?_⟩
      rw [htext, htext']
      exact ⟨hdecode, hp, hfull⟩

theorem marksFit_of_le (h : n + 3 ≤ intMax) : MarksFit n s out := by
  intro p _ hroom
  omega

theorem quote_comes_back : ∃ b b' : Buffer 16,
    encodeEscapeStringInto "it's".toList (zeroed 16) = some (0, b) ∧
    decodeEscapeStringInto (text b) (zeroed 16) = some (0, b') ∧ text b' = "it's".toList := by
  have hsound := (escape_sound_iff 16 (by decide) (by decide) "it's".toList (by decide)).mpr
    (marksFit_of_le (by decide))
  obtain ⟨b, hencode, -, -, -, hread⟩ := hsound (zeroed 16) (zeroed 16)
  obtain ⟨b', hdecode, -, htext⟩ := hread (by decide)
  exact ⟨b, b', hencode, hdecode, htext (by decide)⟩

/-- A text whose last character is a quote with no int behind its mark. -/
def longText (k : ℕ) : List Char := List.replicate k 'a' ++ ['\'']

theorem longText_outside {k : ℕ} (hroom : k + 1 < n) (hmax : n ≤ intMax)
    (hover : intMax < k + 5) : ¬ Escapes n (longText k) := by
  intro hsound
  obtain ⟨b, hencode, -⟩ := hsound (zeroed n) (zeroed n)
  have hlen : (longText k).length = k + 1 := by
    rw [longText, List.length_append, List.length_replicate, List.length_singleton]
  have hplain : escape (List.replicate k 'a') = List.replicate k 'a' :=
    escape_eq_self fun h => absurd (List.eq_of_mem_replicate h) (by decide)
  have hcov : ¬ MarksFit n (counted (longText k)) [] := by
    rw [counted_eq (by omega)]
    intro hcov
    have hmark := hcov (List.replicate k 'a') List.prefix_rfl
    rw [List.nil_append, hplain, List.length_replicate] at hmark
    have hfit := hmark hroom
    omega
  rw [encodeEscapeStringInto_none (by omega) hmax _ hcov] at hencode
  cases hencode

theorem mark_outside_buffer : 1 ≤ 2147483645 ∧ 2147483645 ≤ intMax ∧
    nul ∉ longText 2147483643 ∧ ¬ Escapes 2147483645 (longText 2147483643) := by
  refine ⟨by decide, by decide, ?_, longText_outside (by decide) (by decide) (by decide)⟩
  rw [longText, List.mem_append, not_or]
  exact ⟨fun h => absurd (List.eq_of_mem_replicate h) (by decide), by decide⟩

end DbEscapeBounds
