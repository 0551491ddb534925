import MyGitCode.CBuffer
import MyGitCode.CFormat
import MyGitCode.DelimitedRuns
import MyGitCode.VoiceDatastore

/-! # The time-zone difference of `voice_core.c`

The modem sends it as a sign with hours and minutes, such as `+0800`. -/
namespace VoiceTimezone

open StrKit CBuffer CFormat VoiceDatastore

structure Outcome where
  tmpTimeDiff : Buffer 10
  timezoneDiff : ℤ
  rc : Rc
  deriving DecidableEq

def secondsDiff (number : ℤ) : ℤ :=
  (number.tdiv 100 * 3600 + number.tmod 100 * 60).bmod (2 ^ 32)

/-- The branches under `Judge + - symbol`: the new `timezone_diff` and the return code. -/
def judgeSymbol (timezoneDiff seconds : ℤ) : Option Char → ℤ × Rc
  | some '+' => (seconds, .noErr)
  | some '-' => ((0 - seconds).bmod (2 ^ 32), .noErr)
  | _ => (timezoneDiff, .fail)

/-- `jan_voice_core_timezone_handle`. Of a copy without a NUL only the copy itself is read. -/
def timezoneHandle (timezoneDiff : ℤ) (timeDiff : CString 64) : Option Outcome :=
  let diff := text timeDiff.toBuffer
  (strncpy (zeroed 10) diff diff.length).map fun tmp =>
    let number := atoi (cString tmp.bytes 1)
    let (diff, rc) := judgeSymbol timezoneDiff (secondsDiff number) tmp.bytes.head?
    ⟨tmp, diff, rc⟩

/-- What is asked of a call: the copy is kept, a sign with `hhmm` sets the seconds, and anything
that does not begin with a sign is refused. -/
structure Handles (before : ℤ) (diff : List Char) (out : Outcome) : Prop where
  terminated : Terminated out.tmpTimeDiff
  plus : ∀ hh mm, diff = '+' :: (hh ++ mm) → hh.length = 2 → mm.length = 2 →
    (∀ c ∈ hh ++ mm, c.isDigit = true) →
    out.timezoneDiff = digits hh * 3600 + digits mm * 60 ∧ out.rc = .noErr
  minus : ∀ hh mm, diff = '-' :: (hh ++ mm) → hh.length = 2 → mm.length = 2 →
    (∀ c ∈ hh ++ mm, c.isDigit = true) →
    out.timezoneDiff = -(digits hh * 3600 + digits mm * 60) ∧ out.rc = .noErr
  unsigned : diff.head? ≠ some '+' → diff.head? ≠ some '-' →
    out.timezoneDiff = before ∧ out.rc = .fail

variable {before : ℤ} {timeDiff : CString 64} {diff hh mm : List Char}

theorem secondsDiff_eq (hhh : hh.length = 2) (hmm : mm.length = 2)
    (hdigit : ∀ c ∈ hh ++ mm, c.isDigit = true) :
    secondsDiff (atoi (hh ++ mm)) = digits hh * 3600 + digits mm * 60 ∧
      (digits hh * 3600 + digits mm * 60 : ℕ) < 2 ^ 31 := by
  have hdigits := hdigit
  rw [List.forall_mem_append] at hdigits
  have hlt : digits hh < 10 ^ 2 := hhh ▸ digits_lt hdigits.1
  have hlt' : digits mm < 10 ^ 2 := hmm ▸ digits_lt hdigits.2
  have hnumber : atoi (hh ++ mm) = 100 * digits hh + digits mm := by
    have hparse : parseInt (hh ++ mm) = 100 * digits hh + digits mm := by
      rw [parseInt_digits hdigit, digits_append hdigits.1,
        List.takeWhile_eq_self_iff.mpr hdigits.2, hmm]
      norm_cast
    rw [atoi_eq] <;> omega
  have hhours : (100 * digits hh + digits mm : ℤ).tdiv 100 = digits hh := by
    rw [Int.tdiv_eq_ediv_of_nonneg (by omega)]
    omega
  have hminutes : (100 * digits hh + digits mm : ℤ).tmod 100 = digits mm := by
    rw [Int.tmod_eq_emod_of_nonneg (by omega)]
    omega
  rw [secondsDiff, hnumber, hhours, hminutes, Int.bmod_eq_of_le (by omega) (by omega)]
  omega

theorem cString_behind {c : Char} {rest : List Char} (hdiff : nul ∉ diff) :
    cString (c :: (diff ++ nul :: rest)) 1 = diff := by
  rw [cString, List.drop_one, List.tail_cons, DelimitedRuns.takeWhile_ne_append_cons hdiff]

theorem handles_of_fits (h : (text timeDiff.toBuffer).length < 10) :
    ∃ out, timezoneHandle before timeDiff = some out ∧
      Handles before (text timeDiff.toBuffer) out := by
  have hnul : nul ∉ text timeDiff.toBuffer := nul_not_mem_text
  rw [timezoneHandle, strncpy_zeroed h]
  generalize text timeDiff.toBuffer = diff at h hnul
  have hbytes := Holds.bytes (b := (CString.ofChars diff h).toBuffer) rfl h
  refine ⟨_, rfl, ?_⟩
  constructor
  · exact (CString.ofChars diff h).terminated
  · rintro hh mm rfl hhh hmm hdigit
    obtain ⟨hseconds, -⟩ := secondsDiff_eq hhh hmm hdigit
    have htail : nul ∉ hh ++ mm := fun hmem => hnul (List.mem_cons_of_mem _ hmem)
    simp only [hbytes, List.cons_append, List.head?_cons, cString_behind htail, hseconds,
      judgeSymbol, and_self]
  · rintro hh mm rfl hhh hmm hdigit
    obtain ⟨hseconds, hlt⟩ := secondsDiff_eq hhh hmm hdigit
    have htail : nul ∉ hh ++ mm := fun hmem => hnul (List.mem_cons_of_mem _ hmem)
    simp only [hbytes, List.cons_append, List.head?_cons, cString_behind htail, hseconds,
      judgeSymbol, and_true]
    rw [Int.zero_sub, Int.bmod_eq_of_le] <;> omega
  · intro hplus hminus
    have hhead : (CString.ofChars diff h).bytes.head? ≠ some '+' ∧
        (CString.ofChars diff h).bytes.head? ≠ some '-' := by
      rw [hbytes]
      cases diff with
      | nil =>
        rw [List.nil_append, List.head?_cons]
        decide
      | cons c rest => exact ⟨hplus, hminus⟩
    simp only [judgeSymbol]
    split
    · rename_i heq
      exact absurd heq hhead.1
    · rename_i heq
      exact absurd heq hhead.2
    · exact ⟨rfl, rfl⟩

theorem length_of_handles {out : Outcome} (hout : timezoneHandle before timeDiff = some out)
    (hhandles : Handles before diff out) : (text timeDiff.toBuffer).length ≤ 9 := by
  obtain ⟨tmp, htmp, rfl⟩ := Option.map_eq_some_iff.mp hout
  have hkept := (kept_strncpy_zeroed_iff nul_not_mem_text).mp ⟨tmp, htmp, hhandles.terminated⟩
  exact Nat.le_of_lt_succ hkept

/-- The copy is kept, and the text read as it is to be, exactly if it is at most nine characters
long. -/
theorem timezoneHandle_iff (before : ℤ) (timeDiff : CString 64) :
    (∃ out, timezoneHandle before timeDiff = some out ∧
      Handles before (text timeDiff.toBuffer) out) ↔ (text timeDiff.toBuffer).length ≤ 9 := by
  constructor
  · rintro ⟨out, hout, hhandles⟩
    exact length_of_handles hout hhandles
  · intro h
    exact handles_of_fits (Nat.lt_succ_of_le h)

def tenCharacters : CString 64 := .ofChars "+000000000".toList (by decide)

/-- A plus sign with nine zeros fills the copy. -/
theorem ten_characters_not_handled : ¬ ∃ out, timezoneHandle 0 tenCharacters = some out ∧
    Handles 0 (text tenCharacters.toBuffer) out := by
  rintro ⟨out, hout, hhandles⟩
  have hlen := length_of_handles hout hhandles
  rw [tenCharacters, text_ofChars _ (by decide)] at hlen
  exact absurd hlen (by decide)

end VoiceTimezone
