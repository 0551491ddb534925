import Mathlib.Data.List.Basic
import Mathlib.Data.List.TakeDrop
import Mathlib.Data.List.TakeWhile

/-! # Splitting strings with `strtok`

A C string stands in a buffer that ends with a NUL. `strtok` overwrites the delimiter behind
a token with a NUL and keeps the position after it for the next call. -/
namespace StrKit

def nul : Char := Char.ofNat 0

def cString (buf : List Char) (pos : ℕ) : List Char := (buf.drop pos).takeWhile (· ≠ nul)

def isBlank (c : Char) : Bool := " \t\r\n".toList.contains c

def trim (str : List Char) : List Char :=
  ((str.dropWhile isBlank).reverse.dropWhile isBlank).reverse

theorem head_dropWhile {p : Char → Bool} {str : List Char} :
    ∀ c ∈ (str.dropWhile p).head?, p c = false := by
  intro c hc
  have hne : str.dropWhile p ≠ [] := by
    intro hnil
    rw [hnil] at hc
    cases hc
  have hnot := List.head_dropWhile_not p hne
  rw [List.head?_eq_some_head hne] at hc
  obtain rfl := Option.some.inj hc
  exact hnot

theorem trim_getLast {str : List Char} : ∀ c ∈ (trim str).getLast?, isBlank c = false := by
  intro c hc
  rw [trim, List.getLast?_reverse] at hc
  exact head_dropWhile c hc

theorem isPrefix_trim (str : List Char) : trim str <+: str.dropWhile isBlank := by
  rw [trim, ← List.reverse_suffix, List.reverse_reverse]
  exact List.dropWhile_suffix _

theorem dropWhile_eq_self {p : Char → Bool} {str : List Char} (h : ∀ c ∈ str.head?, p c = false) :
    str.dropWhile p = str := by
  cases str with
  | nil => rfl
  | cons c str =>
    have hc := h c rfl
    rw [List.dropWhile_cons_of_neg (by simp [hc])]

theorem trim_eq_self {str : List Char} (hhead : ∀ c ∈ str.head?, isBlank c = false)
    (hlast : ∀ c ∈ str.getLast?, isBlank c = false) : trim str = str := by
  rw [trim, dropWhile_eq_self hhead, dropWhile_eq_self, List.reverse_reverse]
  simpa using hlast

theorem trim_ne_nil {str : List Char} {c : Char} (hc : c ∈ str) (hb : isBlank c = false) :
    trim str ≠ [] := by
  intro h
  rw [trim, List.reverse_eq_nil_iff, List.dropWhile_eq_nil_iff] at h
  have hnil : str.dropWhile isBlank = [] := by
    rw [List.eq_nil_iff_forall_not_mem]
    intro d hd
    obtain ⟨e, he⟩ : ∃ e, (str.dropWhile isBlank).head? = some e :=
      ⟨_, List.head?_eq_some_head (List.ne_nil_of_mem hd)⟩
    have hblank := h e (List.mem_reverse.mpr (List.mem_of_mem_head? he))
    rw [head_dropWhile e he] at hblank
    cases hblank
  rw [List.dropWhile_eq_nil_iff] at hnil
  have := hnil c hc
  rw [hb] at this
  cases this

/-- What a call of `strtok` leaves: the buffer, the position saved, and where the token
begins, if there is one. -/
structure Strtok where
  buf : List Char
  saved : ℕ
  token : Option ℕ
  deriving DecidableEq, Repr

/-- How far the characters from a position on satisfy `p`. -/
def span (p : Char → Bool) (buf : List Char) (pos : ℕ) : ℕ := ((buf.drop pos).takeWhile p).length

def inToken (delim : List Char) (c : Char) : Bool := c ≠ nul && !delim.contains c

/-- `strtok` from a position of a buffer. Without a NUL ahead it would read past the end. -/
def strtok (buf delim : List Char) (pos : ℕ) : Option Strtok :=
  let start := pos + span delim.contains buf pos
  let stop := start + span (inToken delim) buf start
  if buf[start]? = some nul then some ⟨buf, start, none⟩
  else if buf[stop]? = none then none
  else if buf[stop]? = some nul then some ⟨buf, stop, some start⟩
  else some ⟨buf.set stop nul, stop + 1, some start⟩

variable {buf delim : List Char} {pos : ℕ} {r : Strtok}

theorem span_stop {p : Char → Bool} {c : Char} (h : buf[pos + span p buf pos]? = some c) :
    p c = false := by
  have hdrop : ∀ l : List Char, l[(l.takeWhile p).length]? = some c → p c = false := by
    intro l
    induction l with
    | nil => nofun
    | cons a l ih =>
      intro hl
      rw [List.takeWhile_cons] at hl
      split at hl
      · exact ih (by simpa using hl)
      · rename_i hp
        obtain rfl : a = c := by simpa using hl
        exact eq_false_of_ne_true hp
  apply hdrop (buf.drop pos)
  rwa [List.getElem?_drop]

theorem span_pos {p : Char → Bool} {c : Char} (h : buf[pos]? = some c) (hp : p c = true) :
    0 < span p buf pos := by
  obtain ⟨hlt, hc⟩ := List.getElem?_eq_some_iff.mp h
  rw [span, List.drop_eq_getElem_cons hlt, hc, List.takeWhile_cons_of_pos hp]
  simp

theorem strtok_token {tok : ℕ} (h : strtok buf delim pos = some r) (ht : r.token = some tok) :
    r.buf.length = buf.length ∧ pos < r.saved ∧ pos < buf.length := by
  simp only [strtok] at h
  split at h
  · cases h
    cases ht
  · rename_i hnul
    split at h
    · cases h
    · rename_i hin
      have hstop : pos + span delim.contains buf pos +
          span (inToken delim) buf (pos + span delim.contains buf pos) < buf.length := by
        rwa [List.getElem?_eq_none_iff, not_le] at hin
      obtain ⟨c, hc⟩ : ∃ c, buf[pos + span delim.contains buf pos]? = some c :=
        ⟨_, List.getElem?_eq_getElem (by omega)⟩
      have hlong : 0 < span (inToken delim) buf (pos + span delim.contains buf pos) := by
        apply span_pos hc
        have hne : c ≠ nul := by
          rintro rfl
          exact hnul hc
        rw [inToken, span_stop hc]
        simp [hne]
      split at h
      · cases h
        exact ⟨rfl, by simp only; omega, by omega⟩
      · cases h
        exact ⟨List.length_set, by simp only; omega, by omega⟩

theorem span_le_of_stop {p : Char → Bool} {m : ℕ} {c : Char} (h : buf[m]? = some c)
    (hp : p c = false) (hm : pos ≤ m) : pos + span p buf pos ≤ m := by
  have hdrop : ∀ (l : List Char) i, l[i]? = some c → (l.takeWhile p).length ≤ i := by
    intro l
    induction l with
    | nil => nofun
    | cons a l ih =>
      intro i hi
      rw [List.takeWhile_cons]
      cases i with
      | zero =>
        obtain rfl : a = c := by simpa using hi
        simp [hp]
      | succ i =>
        have := ih i (by simpa using hi)
        split
        · simpa using this
        · exact Nat.zero_le _
  have := hdrop (buf.drop pos) (m - pos) (by rwa [List.getElem?_drop, Nat.add_sub_cancel' hm])
  simp only [span]
  omega

def Terminated (buf : List Char) : Prop := buf[buf.length - 1]? = some nul

theorem terminated_append (str : List Char) : Terminated (str ++ [nul]) := by
  simp [Terminated]

theorem strtok_inside (hbuf : Terminated buf) (hpos : pos < buf.length) (hdelim : nul ∉ delim) :
    ∃ r, strtok buf delim pos = some r ∧ r.buf.length = buf.length ∧ Terminated r.buf ∧
      r.saved < r.buf.length := by
  have hstart : pos + span delim.contains buf pos ≤ buf.length - 1 :=
    span_le_of_stop hbuf (by simpa using hdelim) (by omega)
  have hstop : pos + span delim.contains buf pos +
      span (inToken delim) buf (pos + span delim.contains buf pos) ≤ buf.length - 1 :=
    span_le_of_stop hbuf (by simp [inToken]) hstart
  simp only [strtok]
  split
  · exact ⟨_, rfl, rfl, hbuf, by simp only; omega⟩
  · split
    · rename_i hnone
      rw [List.getElem?_eq_none_iff] at hnone
      omega
    · split
      · exact ⟨_, rfl, rfl, hbuf, by simp only; omega⟩
      · rename_i hne
        have hlt : pos + span delim.contains buf pos +
            span (inToken delim) buf (pos + span delim.contains buf pos) ≠ buf.length - 1 := by
          intro heq
          rw [heq] at hne
          exact hne hbuf
        refine ⟨_, rfl, List.length_set, ?_, ?_⟩
        · rw [Terminated, List.length_set, List.getElem?_set_ne hlt]
          exact hbuf
        · simp only [List.length_set]
          omega

/-- The loop of `split` over its own buffer, run alone. `limit` is counted down and may pass
zero; `size` is the length of the string. -/
def splitLoop (delim : List Char) (size : ℕ) (buf : List Char) (pos : ℕ) (limit : ℤ)
    (strv : List (List Char)) : List (List Char) :=
  match _h : strtok buf delim pos with
  | none => strv
  | some r =>
    match _ht : r.token with
    | none => strv
    | some token =>
      let part := cString r.buf token
      let stop := token + part.length
      if limit - 1 = 0 ∧ stop < size then
        strv ++ [trim part] ++ [trim (cString r.buf (stop + 1))]
      else splitLoop delim size r.buf r.saved (limit - 1) (strv ++ [trim part])
termination_by buf.length - pos
decreasing_by
  have := strtok_token _h _ht
  omega

def loopBody (delim : List Char) (size : ℕ) (buf : List Char) (pos : ℕ) (limit : ℤ)
    (strv : List (List Char)) (token : ℕ) : List (List Char) :=
  let part := cString buf token
  let stop := token + part.length
  if limit - 1 = 0 ∧ stop < size then strv ++ [trim part] ++ [trim (cString buf (stop + 1))]
  else splitLoop delim size buf pos (limit - 1) (strv ++ [trim part])

theorem splitLoop_end {size : ℕ} {limit : ℤ} {strv : List (List Char)}
    (h : strtok buf delim pos = some r) (ht : r.token = none) :
    splitLoop delim size buf pos limit strv = strv := by
  rw [splitLoop]
  split
  · rfl
  · rename_i r' hr
    obtain rfl : r' = r := Option.some.inj (hr.symm.trans h)
    split
    · rfl
    · rename_i tok htok
      rw [ht] at htok
      cases htok

theorem splitLoop_token {size token : ℕ} {limit : ℤ} {strv : List (List Char)}
    (h : strtok buf delim pos = some r) (ht : r.token = some token) :
    splitLoop delim size buf pos limit strv =
      loopBody delim size r.buf r.saved limit strv token := by
  rw [splitLoop]
  split
  · rename_i hr
    rw [h] at hr
    cases hr
  · rename_i r' hr
    obtain rfl : r' = r := Option.some.inj (hr.symm.trans h)
    split
    · rename_i htok
      rw [ht] at htok
      cases htok
    · rename_i tok htok
      obtain rfl : tok = token := Option.some.inj (htok.symm.trans ht)
      rfl

/-- For a string without NUL, as `strcpy` copies no further. -/
def split (str delim : List Char) (limit : ℤ) : List (List Char) :=
  splitLoop delim str.length (str ++ [nul]) 0 limit []

example : split "The quick,brown.fox:jumps;over".toList " ,.:;()$".toList 3 =
    ["The", "quick", "brown", "fox:jumps;over"].map String.toList := by decide +kernel

end StrKit
