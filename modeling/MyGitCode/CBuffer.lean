import MyGitCode.CText
import MyGitCode.DelimitedRuns
import MyGitCode.StrKit

/-! # Char arrays with all their bytes

A copy into an array has no result where one of its bytes would go outside. What it leaves may
be without a NUL, other than a `Text`. -/
namespace CBuffer

open StrKit

@[ext] structure Buffer (cap : ℕ) where
  bytes : List Char
  size : bytes.length = cap
  deriving DecidableEq

def Terminated {cap : ℕ} (b : Buffer cap) : Prop := nul ∈ b.bytes

instance {cap : ℕ} (b : Buffer cap) : Decidable (Terminated b) :=
  inferInstanceAs (Decidable (_ ∈ _))

def text {cap : ℕ} (b : Buffer cap) : List Char := cString b.bytes 0

/-- An array that holds a C string, whatever is behind its NUL. -/
structure CString (cap : ℕ) extends Buffer cap where
  terminated : Terminated toBuffer

def CString.ofChars {cap : ℕ} (src : List Char) (h : src.length < cap) : CString cap where
  bytes := src ++ List.replicate (cap - src.length) nul
  size := by
    rw [List.length_append, List.length_replicate]
    omega
  terminated := List.mem_append_right src (List.mem_replicate.mpr ⟨by omega, rfl⟩)

/-- `memset (buf, 0, cap)`. -/
def zeroed (cap : ℕ) : Buffer cap := ⟨List.replicate cap nul, List.length_replicate⟩

/-- `memcpy (&buf[i], src, n)` of the `n` bytes `src`. -/
def memcpy {cap : ℕ} (b : Buffer cap) (i : ℕ) (src : List Char) : Option (Buffer cap) :=
  if h : i + src.length ≤ cap then
    some ⟨b.bytes.take i ++ (src ++ b.bytes.drop (i + src.length)), by
      have := b.size
      simp only [List.length_append, List.length_take, List.length_drop]
      omega⟩
  else none

/-- `strncpy` writes `n` bytes: a string that is shorter is filled up with NULs, and one that is
not gets none. -/
def strncpy {cap : ℕ} (b : Buffer cap) (src : List Char) (n : ℕ) : Option (Buffer cap) :=
  memcpy b 0 (src.take n ++ List.replicate (n - src.length) nul)

/-- What `strncpy (buf, src, sizeof (buf))` leaves, whatever was in the array. -/
def ofStrncpy (cap : ℕ) (src : List Char) : Buffer cap where
  bytes := src.take cap ++ List.replicate (cap - src.length) nul
  size := by
    rw [List.length_append, List.length_take, List.length_replicate]
    omega

def strcpy {cap : ℕ} (b : Buffer cap) (src : List Char) : Option (Buffer cap) :=
  memcpy b 0 (src ++ [nul])

def Kept {cap : ℕ} (r : Option (Buffer cap)) : Prop := ∃ b, r = some b ∧ Terminated b

def Holds {cap : ℕ} (b : Buffer cap) (out : List Char) : Prop :=
  b.bytes = out ++ List.replicate (cap - out.length) nul

def toText {cap : ℕ} (b : Buffer cap) : Option (CText.Text cap) :=
  if h : (text b).length < cap then some ⟨text b, h⟩ else none

variable {cap i n : ℕ} {b b' : Buffer cap} {src out rest : List Char}
  {r : Option (Buffer cap)}

theorem nul_not_mem_cString {buf : List Char} {pos : ℕ} : nul ∉ cString buf pos := by
  intro hnul
  have hne := List.mem_takeWhile_imp hnul
  simp at hne

theorem nul_not_mem_text : nul ∉ text b := nul_not_mem_cString

theorem terminated_iff : Terminated b ↔ (text b).length < cap := by
  have htext : text b = b.bytes.takeWhile (· ≠ nul) := rfl
  have hle : (text b).length ≤ cap := (List.takeWhile_prefix _).length_le.trans_eq b.size
  constructor
  · intro h
    apply lt_of_le_of_ne hle
    intro heq
    have hall : text b = b.bytes :=
      (List.takeWhile_prefix _).eq_of_length (heq.trans b.size.symm)
    rw [Terminated, ← hall] at h
    exact nul_not_mem_text h
  · intro h
    by_contra hnul
    have hall : text b = b.bytes := htext.trans (DelimitedRuns.takeWhile_ne_eq_self hnul)
    rw [hall, b.size] at h
    exact lt_irrefl cap h

theorem text_eq (h : b.bytes = src ++ nul :: rest) (hsrc : nul ∉ src) : text b = src := by
  rw [text, cString, h, List.drop_zero, DelimitedRuns.takeWhile_ne_append_cons hsrc]

theorem Holds.bytes (h : Holds b out) (hlt : out.length < cap) :
    b.bytes = out ++ nul :: List.replicate (cap - out.length - 1) nul := by
  have hlen : cap - out.length = cap - out.length - 1 + 1 := by omega
  rw [h, hlen, List.replicate_succ]
  rfl

theorem Holds.text (h : Holds b out) (hlt : out.length < cap) (hout : nul ∉ out) :
    CBuffer.text b = out :=
  text_eq (h.bytes hlt) hout

theorem Holds.terminated (h : Holds b out) (hlt : out.length < cap) : Terminated b := by
  rw [Terminated, h.bytes hlt]
  simp

theorem holds_zeroed : Holds (zeroed cap) [] := rfl

theorem text_ofChars (h : src.length < cap) (hsrc : nul ∉ src) :
    text (CString.ofChars src h).toBuffer = src :=
  Holds.text rfl h hsrc

theorem toText_eq_some {t : CText.Text cap} : toText b = some t ↔ text b = t.chars := by
  rw [toText]
  split
  · rw [Option.some_inj]
    constructor
    · rintro rfl
      rfl
    · intro h
      cases t
      subst h
      rfl
  · rename_i hlen
    constructor
    · intro h
      cases h
    · intro h
      rw [h] at hlen
      exact absurd t.fits hlen

theorem toText_eq_none : toText b = none ↔ ¬ Terminated b := by
  rw [terminated_iff, toText]
  split
  · rename_i h
    refine iff_of_false ?_ fun hn => hn h
    intro hnone
    cases hnone
  · rename_i h
    exact iff_of_true rfl h

theorem memcpy_eq_some : memcpy b i src = some b' ↔
    i + src.length ≤ cap ∧ b'.bytes = b.bytes.take i ++ (src ++ b.bytes.drop (i + src.length)) := by
  rw [memcpy]
  split
  · rename_i h
    rw [Option.some_inj, Buffer.ext_iff, eq_comm]
    exact (and_iff_right h).symm
  · rename_i h
    exact iff_of_false nofun fun h' => h h'.1

theorem memcpy_eq_none (h : cap < i + src.length) : memcpy b i src = none :=
  dif_neg (Nat.not_le_of_lt h)

theorem not_kept_none : ¬ Kept (none : Option (Buffer cap)) := nofun

theorem Holds.memcpy (h : Holds b out) (src : List Char) (hfit : out.length + src.length ≤ cap) :
    ∃ b', CBuffer.memcpy b out.length src = some b' ∧ Holds b' (out ++ src) := by
  refine ⟨_, dif_pos hfit, ?_⟩
  rw [Holds] at h ⊢
  simp only [h, List.take_left, List.drop_append, List.drop_replicate, List.length_append,
    List.append_assoc]
  have hdrop : out.drop (out.length + src.length) = [] := List.drop_eq_nil_of_le (by omega)
  have hlen : cap - out.length - (out.length + src.length - out.length) =
      cap - (out.length + src.length) := by omega
  rw [hdrop, List.nil_append, hlen]

theorem kept_memcpy_iff : Kept (memcpy b 0 src) ↔
    src.length ≤ cap ∧ (nul ∈ src ∨ nul ∈ b.bytes.drop src.length) := by
  constructor
  · rintro ⟨b', hb', hnul⟩
    obtain ⟨hfit, hbytes⟩ := memcpy_eq_some.mp hb'
    rw [Nat.zero_add] at hfit hbytes
    rw [Terminated, hbytes, List.take_zero, List.nil_append, List.mem_append] at hnul
    exact ⟨hfit, hnul⟩
  · rintro ⟨hfit, hnul⟩
    rw [← Nat.zero_add src.length] at hfit hnul
    refine ⟨_, dif_pos hfit, ?_⟩
    simpa [Terminated] using hnul

theorem kept_strncpy_iff (hsrc : nul ∉ src) :
    Kept (strncpy b src src.length) ↔ nul ∈ b.bytes.drop src.length := by
  rw [strncpy, List.take_length, Nat.sub_self, List.replicate_zero, List.append_nil,
    kept_memcpy_iff, or_iff_right hsrc, and_iff_right_of_imp]
  intro hnul
  have hpos := List.length_pos_of_mem hnul
  rw [List.length_drop, b.size] at hpos
  omega

theorem kept_strncpy_zeroed_iff (hsrc : nul ∉ src) :
    Kept (strncpy (zeroed cap) src src.length) ↔ src.length < cap := by
  rw [kept_strncpy_iff hsrc, zeroed, List.drop_replicate, List.mem_replicate,
    and_iff_left rfl, ← Nat.pos_iff_ne_zero, Nat.sub_pos_iff_lt]

theorem strncpy_zeroed (h : src.length < cap) :
    strncpy (zeroed cap) src src.length = some (CString.ofChars src h).toBuffer := by
  rw [strncpy, List.take_length, Nat.sub_self, List.replicate_zero, List.append_nil,
    memcpy_eq_some]
  refine ⟨by omega, ?_⟩
  simp [CString.ofChars, zeroed]

theorem strncpy_zeroed_toText (hsrc : nul ∉ src) (hn : n ≤ src.length) :
    (strncpy (zeroed cap) src n).bind toText = CText.strncpy cap src n := by
  have hlen : (src.take n).length = n := List.length_take_of_le hn
  have hnul : nul ∉ src.take n := fun h => hsrc (List.mem_of_mem_take h)
  rw [strncpy, Nat.sub_eq_zero_of_le hn, List.replicate_zero, List.append_nil, CText.strncpy]
  split
  · rename_i hfit
    have hcopy : ∃ b, memcpy (zeroed cap) 0 (src.take n) = some b ∧ Holds b (src.take n) :=
      holds_zeroed.memcpy _ (by rw [List.length_nil]; omega)
    obtain ⟨b, hb, hholds⟩ := hcopy
    rw [hb, Option.bind_some, toText_eq_some]
    exact hholds.text hfit hnul
  · rename_i hfit
    rw [Option.bind_eq_none_iff]
    intro b' hb'
    obtain ⟨hle, hbytes⟩ := memcpy_eq_some.mp hb'
    have hrest : (zeroed cap).bytes.drop (0 + (src.take n).length) = [] := by
      apply List.drop_eq_nil_of_le
      rw [(zeroed cap).size]
      omega
    rw [toText_eq_none, Terminated, hbytes, hrest, List.take_zero, List.append_nil]
    exact hnul

theorem strncpy_cap : strncpy b src cap = some (ofStrncpy cap src) := by
  have hlen := (ofStrncpy cap src).size
  rw [ofStrncpy] at hlen
  rw [strncpy, memcpy_eq_some, hlen, Nat.zero_add]
  refine ⟨le_rfl, ?_⟩
  rw [List.drop_eq_nil_of_le b.size.le, List.take_zero, List.nil_append, List.append_nil]
  rfl

theorem ofStrncpy_text_iff (hsrc : nul ∉ src) :
    Terminated (ofStrncpy cap src) ∧ text (ofStrncpy cap src) = src ↔ src.length < cap := by
  constructor
  · rintro ⟨hterminated, htext⟩
    rw [terminated_iff, htext] at hterminated
    exact hterminated
  · intro h
    have hbytes : (ofStrncpy cap src).bytes =
        src.take cap ++ List.replicate (cap - src.length) nul := rfl
    have hholds : Holds (ofStrncpy cap src) src := by
      rw [Holds, hbytes, List.take_of_length_le h.le]
    exact ⟨hholds.terminated h, hholds.text h hsrc⟩

theorem strcpy_eq_none (h : cap ≤ src.length) : strcpy b src = none := by
  apply memcpy_eq_none
  rw [Nat.zero_add, List.length_append]
  exact Nat.lt_succ_of_le h

theorem text_strcpy (h : strcpy b src = some b') (hsrc : nul ∉ src) : text b' = src := by
  obtain ⟨-, hbytes⟩ := memcpy_eq_some.mp h
  rw [List.take_zero, List.nil_append, List.append_assoc] at hbytes
  exact text_eq hbytes hsrc

theorem kept_strcpy_iff : Kept (strcpy b src) ↔ src.length < cap := by
  rw [strcpy, kept_memcpy_iff, and_iff_left (by simp), List.length_append, List.length_singleton]
  exact Iff.rfl

end CBuffer
