import MyGitCode.CBuffer
import MyGitCode.VoicePhone

/-! # The copies of a call number, byte by byte

A number goes from the 84 bytes of the modem layer into the 32 bytes of a call record or of the
caller id. What `JRD_MALLOC` leaves in a new record is a parameter. -/
namespace VoiceNumberCopies

open StrKit CBuffer VoiceModem VoiceDatastore VoiceCallRecords

structure CallNumber where
  callState : CallState
  callNumber : CString 84

structure CallNumbers where
  callInfo : CallNumber
  thirdCallInfo : CallNumber

def CallNumber.number (info : CallNumber) : List Char := text info.callNumber.toBuffer

/-- `jan_voice_al_get_call_number`. -/
def getCallNumber (calls : CallNumbers) (number : Buffer 32) : Option (Buffer 32) :=
  strncpy number calls.callInfo.number calls.callInfo.number.length

/-- `jan_voice_al_get_third_call_number`. -/
def getThirdCallNumber (calls : CallNumbers) (number : Buffer 32) : Option (Buffer 32) :=
  strncpy number calls.thirdCallInfo.number calls.thirdCallInfo.number.length

/-- How `jan_voice_core_add_record_to_list` fills `contact_number`. -/
def addRecordNumber (type : CallType) (calls : CallNumbers) (callNum : Buffer 32) (len : ℕ)
    (contactNumber : Buffer 32) : Option (Buffer 32) :=
  match type with
  | .missed =>
    if calls.thirdCallInfo.callState = .waiting ∧ calls.callInfo.callState = .conversation then
      getThirdCallNumber calls contactNumber
    else getCallNumber calls contactNumber
  | .incoming => getCallNumber calls contactNumber
  | .outgoing => strncpy contactNumber (text callNum) len
  | .unknown => some contactNumber

/-- The caller id of `jan_voice_core_status_handle`, with its `char call_number[32] = {0}`. -/
def callerIdNumber (calls : CallNumbers) : Option (Buffer 32) :=
  if calls.callInfo.callState = .disconnecting ∨ calls.callInfo.callState = .ended then
    getThirdCallNumber calls (zeroed 32)
  else getCallNumber calls (zeroed 32)

/-- How the column loop of `jan_voice_core_init_record_form_datastore` fills `contact_number`. -/
def initRecordNumber : Row → Buffer 32 → Option (Buffer 32)
  | [], contactNumber => some contactNumber
  | .contactNumber v :: row, contactNumber =>
    if v.length ≤ 32 then (strcpy contactNumber v).bind (initRecordNumber row)
    else initRecordNumber row contactNumber
  | .other :: _, contactNumber => some contactNumber
  | .id _ :: row, contactNumber | .contacts :: row, contactNumber
  | .date _ :: row, contactNumber | .duration _ :: row, contactNumber
  | .type _ :: row, contactNumber => initRecordNumber row contactNumber

def missedNumber (calls : CallNumbers) : List Char :=
  if calls.thirdCallInfo.callState = .waiting ∧ calls.callInfo.callState = .conversation then
    calls.thirdCallInfo.number
  else calls.callInfo.number

def callerId (calls : CallNumbers) : List Char :=
  if calls.callInfo.callState = .disconnecting ∨ calls.callInfo.callState = .ended then
    calls.thirdCallInfo.number
  else calls.callInfo.number

/-- The numbers that the loop comes to before a column it does not know. -/
def numbersRead : Row → List (List Char)
  | [] => []
  | .contactNumber v :: row => v :: numbersRead row
  | .other :: _ => []
  | .id _ :: row | .contacts :: row | .date _ :: row | .duration _ :: row | .type _ :: row =>
    numbersRead row

def NulBehind (number : List Char) (contactNumber : Buffer 32) : Prop :=
  nul ∈ contactNumber.bytes.drop number.length

variable {calls : CallNumbers} {contactNumber : Buffer 32} {row : Row}

theorem kept_getCallNumber :
    Kept (getCallNumber calls contactNumber) ↔ NulBehind calls.callInfo.number contactNumber :=
  kept_strncpy_iff nul_not_mem_text

theorem kept_getThirdCallNumber : Kept (getThirdCallNumber calls contactNumber) ↔
    NulBehind calls.thirdCallInfo.number contactNumber :=
  kept_strncpy_iff nul_not_mem_text

theorem kept_missed (callNum : Buffer 32) (len : ℕ) :
    Kept (addRecordNumber .missed calls callNum len contactNumber) ↔
      NulBehind (missedNumber calls) contactNumber := by
  rw [addRecordNumber, missedNumber]
  split
  · exact kept_getThirdCallNumber
  · exact kept_getCallNumber

theorem nulBehind_zeroed {number : List Char} :
    NulBehind number (zeroed 32) ↔ number.length < 32 := by
  rw [NulBehind, zeroed, List.drop_replicate, List.mem_replicate, and_iff_left rfl,
    ← Nat.pos_iff_ne_zero, Nat.sub_pos_iff_lt]

theorem kept_callerIdNumber : Kept (callerIdNumber calls) ↔ (callerId calls).length < 32 := by
  rw [callerIdNumber, callerId]
  split
  · exact kept_getThirdCallNumber.trans nulBehind_zeroed
  · exact kept_getCallNumber.trans nulBehind_zeroed

theorem kept_initRecordNumber : Kept (initRecordNumber row contactNumber) ↔
    (∀ v ∈ numbersRead row, v.length ≠ 32) ∧
      (Terminated contactNumber ∨ ∃ v ∈ numbersRead row, v.length < 32) := by
  induction row generalizing contactNumber with
  | nil => simp [initRecordNumber, numbersRead, Kept]
  | cons column row ih =>
    cases column with
    | contactNumber v =>
      rw [initRecordNumber, numbersRead, List.forall_mem_cons, List.exists_mem_cons_iff]
      rcases Nat.lt_trichotomy v.length 32 with hlt | heq | hgt
      · obtain ⟨b, hb, hnul⟩ := kept_strcpy_iff (b := contactNumber).mpr hlt
        rw [if_pos (Nat.le_of_lt hlt), hb, Option.bind_some, ih, and_iff_left (.inl hnul),
          and_iff_left (.inr (.inl hlt)), and_iff_right (Nat.ne_of_lt hlt)]
      · have hnone : strcpy contactNumber v = none := strcpy_eq_none (Nat.le_of_eq heq.symm)
        rw [if_pos (Nat.le_of_eq heq), hnone, Option.bind_none]
        exact iff_of_false not_kept_none fun h => h.1.1 heq
      · rw [if_neg (Nat.not_le_of_lt hgt), ih, and_iff_right (Nat.ne_of_gt hgt),
          or_iff_right (a := v.length < 32) (Nat.lt_asymm hgt)]
    | other => simp [initRecordNumber, numbersRead, Kept]
    | id | contacts | date | duration | type => exact ih

structure Represents (calls : CallNumbers) (view : Calls) : Prop where
  state : calls.callInfo.callState = view.callInfo.callState
  thirdState : calls.thirdCallInfo.callState = view.thirdCallInfo.callState
  number : calls.callInfo.number = view.callInfo.callNumber.chars
  thirdNumber : calls.thirdCallInfo.number = view.thirdCallInfo.callNumber.chars

section Represents

variable {view : Calls} (h : Represents calls view)
include h

theorem getCallNumber_toText : (getCallNumber calls (zeroed 32)).bind toText =
    CText.strncpy 32 view.callInfo.callNumber.chars view.callInfo.callNumber.chars.length := by
  rw [← h.number]
  exact strncpy_zeroed_toText nul_not_mem_text (Nat.le_refl _)

theorem getThirdCallNumber_toText : (getThirdCallNumber calls (zeroed 32)).bind toText =
    CText.strncpy 32 view.thirdCallInfo.callNumber.chars
      view.thirdCallInfo.callNumber.chars.length := by
  rw [← h.thirdNumber]
  exact strncpy_zeroed_toText nul_not_mem_text (Nat.le_refl _)

theorem callerIdNumber_toText :
    (callerIdNumber calls).bind toText = VoicePhone.callerNumber view := by
  simp only [callerIdNumber, VoicePhone.callerNumber, h.state]
  split
  · exact getThirdCallNumber_toText h
  · exact getCallNumber_toText h

end Represents

/-- A new record holds the number that the bytes spell. -/
theorem fillRecord_number {ctx : CallContext} {id : ℕ} (h : Represents calls ctx.calls)
    (callNum : Buffer 32) (len : ℕ) :
    (fillRecord .missed ctx id).map (Option.map Record.contactNumber) =
        ((addRecordNumber .missed calls callNum len (zeroed 32)).bind toText).map some ∧
      (fillRecord .incoming ctx id).map (Option.map Record.contactNumber) =
        ((addRecordNumber .incoming calls callNum len (zeroed 32)).bind toText).map some := by
  constructor
  · simp only [fillRecord, addRecordNumber, h.state, h.thirdState]
    split
    · rw [getThirdCallNumber_toText h, Option.map_map]
      rfl
    · rw [getCallNumber_toText h, Option.map_map]
      rfl
  · rw [fillRecord, addRecordNumber, getCallNumber_toText h, Option.map_map]
    rfl

/-- A record read from the table holds the number that the bytes spell. -/
theorem readColumns_number {r : Record} (hrow : ∀ v ∈ numbersRead row, nul ∉ v)
    (h : text contactNumber = r.contactNumber.chars) :
    (readColumns row r).map (fun read => read.2.contactNumber) =
      (initRecordNumber row contactNumber).bind toText := by
  have hend : some r.contactNumber = toText contactNumber := (toText_eq_some.mpr h).symm
  induction row generalizing contactNumber r with
  | nil => exact hend
  | cons column row ih =>
    cases column with
    | contactNumber v =>
      rw [numbersRead, List.forall_mem_cons] at hrow
      rw [readColumns, initRecordNumber]
      split
      · rename_i hle
        rcases Nat.lt_or_eq_of_le hle with hlt | heq
        · obtain ⟨b, hb, -⟩ := kept_strcpy_iff (b := contactNumber).mpr hlt
          have htext : text b = v := text_strcpy hb hrow.1
          have hcopy : CText.strncpy 32 v v.length = some ⟨v, hlt⟩ := CText.strncpy_text ⟨v, hlt⟩
          rw [hb, hcopy, Option.bind_some, Option.bind_some]
          exact ih hrow.2 htext (toText_eq_some.mpr htext).symm
        · have hcopy : CText.strncpy 32 v v.length = none := by
            rw [CText.strncpy, List.take_length]
            exact dif_neg (Nat.not_lt_of_le (Nat.le_of_eq heq.symm))
          rw [strcpy_eq_none (Nat.le_of_eq heq.symm), hcopy]
          rfl
      · exact ih hrow.2 h hend
    | other => exact hend
    | id | contacts | date | duration | type => exact ih hrow h hend

/-- Each place keeps to its 32 bytes and leaves a NUL in them exactly if the number has fewer
than 32 characters, where the memory behind it is zero; in a record from the table, exactly if
it has not 32. -/
theorem numbers_kept_iff (calls : CallNumbers) (callNum : Buffer 32) (len : ℕ) (row : Row)
    (contactNumber : Buffer 32) :
    (Kept (addRecordNumber .missed calls callNum len contactNumber) ↔
      NulBehind (missedNumber calls) contactNumber) ∧
    (Kept (addRecordNumber .incoming calls callNum len contactNumber) ↔
      NulBehind calls.callInfo.number contactNumber) ∧
    (Kept (callerIdNumber calls) ↔ (callerId calls).length < 32) ∧
    (Kept (initRecordNumber row contactNumber) ↔
      (∀ v ∈ numbersRead row, v.length ≠ 32) ∧
        (Terminated contactNumber ∨ ∃ v ∈ numbersRead row, v.length < 32)) ∧
    ∀ number, NulBehind number (zeroed 32) ↔ number.length < 32 :=
  ⟨kept_missed callNum len, kept_getCallNumber, kept_callerIdNumber, kept_initRecordNumber,
    fun _ => nulBehind_zeroed⟩

def digits32 : CString 84 := .ofChars (List.replicate 32 '1') (by decide)

/-- A number of 32 digits in the modem layer, and one in the table. -/
theorem digits_of_32_not_kept : ∃ calls : CallNumbers,
    calls.callInfo.number = List.replicate 32 '1' ∧
    (∀ contactNumber callNum len,
      ¬ Kept (addRecordNumber .incoming calls callNum len contactNumber)) ∧
    ¬ Kept (callerIdNumber calls) ∧
    ¬ Kept (initRecordNumber [.contactNumber (List.replicate 32 '1')] (zeroed 32)) := by
  have hnumber : text digits32.toBuffer = List.replicate 32 '1' :=
    text_ofChars (by decide) (by decide)
  refine ⟨⟨⟨.incoming, digits32⟩, ⟨.invalid, digits32⟩⟩, hnumber, ?_, ?_, ?_⟩
  · intro contactNumber callNum len hkept
    have hnul := kept_getCallNumber.mp hkept
    rw [NulBehind, CallNumber.number, hnumber, List.drop_eq_nil_of_le
      (by rw [contactNumber.size, List.length_replicate])] at hnul
    exact List.not_mem_nil hnul
  · rw [kept_callerIdNumber, callerId, CallNumber.number, hnumber]
    decide
  · rw [kept_initRecordNumber]
    intro h
    exact h.1 _ (List.mem_singleton.mpr rfl) (by decide)

end VoiceNumberCopies
