import MyGitCode.SmsTimestamps

/-! # The texts of times of short messages

`change_time_to_sms_span` takes a text apart with `strtok` and puts its numbers into a record on
the stack, of which it has cleared no more bytes than a pointer has. -/
namespace SmsTimeTexts

open JulianTime CFormat StrKit SmsTimestamps

/-- `(uint16)JRD_ATOI(p)`. -/
def field (p : List Char) : ℕ := (atoi p % 2 ^ 16).toNat

def setField (outTime : TimeJulian) (p : List Char) : ℕ → TimeJulian
  | 0 => { outTime with year := field p }
  | 1 => { outTime with month := field p }
  | 2 => { outTime with day := field p }
  | 3 => { outTime with hour := field p }
  | 4 => { outTime with minute := field p }
  | 5 => { outTime with second := field p }
  | _ => outTime

def delim : List Char := "-: ".toList

/-- The texts that `strtok` finds one after the other. -/
def tokensFrom (buf : List Char) (pos : ℕ) : List (List Char) :=
  match _h : strtok buf delim pos with
  | none => []
  | some r =>
    match _ht : r.token with
    | none => []
    | some p => cString r.buf p :: tokensFrom r.buf r.saved
termination_by buf.length - pos
decreasing_by
  have := strtok_token _h _ht
  omega

def tokens (timeStr : List Char) : List (List Char) := tokensFrom (timeStr ++ [nul]) 0

variable {buf timeStr : List Char} {pos cursor : ℕ} {outTime stack stack' : TimeJulian}
  {ps : List (List Char)} {abi : Abi}

end SmsTimeTexts
