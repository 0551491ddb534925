import Mathlib.Algebra.GroupWithZero.Nat
import MyGitCode.DbStatements

/-! # The lengths of the statements

Each statement is written into 256 bytes, whatever the lengths of the texts that go into it. -/
namespace DbStatementLengths

open CText CFormat DbEscape DbStatements

def escapedLength (message : Text 256) : ℕ := message.chars.length + 4 * message.chars.count '\''

def deviceLength (info : DevicePushInfo) : ℕ :=
  info.deviceToken.chars.length + info.macAddress.chars.length + info.osType.chars.length +
    escapedLength info.message + escapedLength info.monthlymessage

variable {info : DevicePushInfo} {message : Text 256} {tbl key value : List Char}

theorem length_escapeMessage_of_le (h : escapedLength message ≤ 255) :
    (escapeMessage message).length = escapedLength message := by
  rw [escapedLength, ← length_escape] at h ⊢
  have hloop : encodeLoop 256 message.chars [] = escape message.chars :=
    encodeLoop_eq (by simpa using Nat.lt_succ_of_le h)
  rw [← hloop]
  rfl

theorem length_escapeMessage_of_lt (h : 255 < escapedLength message) :
    251 ≤ (escapeMessage message).length := by
  rw [escapedLength, ← length_escape] at h
  have hcut : 256 ≤ (escapeMessage message).length + 5 := by
    apply encodeLoop_cut
    rw [List.length_nil]
    omega
  omega

theorem messages_fit_iff {k : ℕ} (hk : 5 ≤ k) (message message' : Text 256) :
    k + (escapeMessage message).length + (escapeMessage message').length ≤ 255 ↔
      k + escapedLength message + escapedLength message' ≤ 255 := by
  by_cases h : escapedLength message ≤ 255
  · rw [length_escapeMessage_of_le h]
    by_cases h' : escapedLength message' ≤ 255
    · rw [length_escapeMessage_of_le h']
    · have hlong := length_escapeMessage_of_lt (Nat.lt_of_not_le h')
      omega
  · have hlong := length_escapeMessage_of_lt (Nat.lt_of_not_le h)
    omega

theorem filled_length {pieces : List (List Char × Directive)} {args : List Arg} {tail : List Char}
    (h : args.length = pieces.length) : (filled pieces args tail).length =
      (pieces.map fun piece => piece.1.length).sum + (args.map fun arg => arg.text.length).sum +
        tail.length := by
  induction pieces generalizing args with
  | nil =>
    obtain rfl := List.length_eq_zero_iff.mp h
    simp [filled]
  | cons piece pieces ih =>
    cases args with
    | nil => cases h
    | cons arg args =>
      simp only [filled, List.length_append, List.map_cons, List.sum_cons,
        ih (Nat.succ.inj h)]
      omega

theorem length_insertDevice : (insertDevicePushInfo info).written.length =
    111 + info.deviceToken.chars.length + info.macAddress.chars.length +
      info.osType.chars.length + (escapeMessage info.message).length +
        (escapeMessage info.monthlymessage).length := by
  obtain ⟨hformat, hpieces, htail⟩ := insertDevice_format
  have hfixed : (insertDevicePieces.map fun piece => piece.1.length).sum = 109 := by
    decide +kernel
  rw [Command.written, insertDevicePushInfo, hformat, sprintf_formatOf rfl hpieces htail,
    filled_length rfl, hfixed]
  simp only [List.map_cons, List.map_nil, List.sum_cons, List.sum_nil, Arg.text, List.length_cons,
    List.length_nil]
  omega

theorem length_updateDevice : (updateDevicePushInfo info).written.length =
    102 + info.deviceToken.chars.length + info.macAddress.chars.length +
      info.osType.chars.length + (escapeMessage info.message).length +
        (escapeMessage info.monthlymessage).length := by
  obtain ⟨hformat, hpieces, htail⟩ := updateDevice_format
  have hfixed : (updateDevicePieces.map fun piece => piece.1.length).sum = 101 := by
    decide +kernel
  rw [Command.written, updateDevicePushInfo, hformat, sprintf_formatOf rfl hpieces htail,
    filled_length rfl, hfixed]
  simp only [List.map_cons, List.map_nil, List.sum_cons, List.sum_nil, Arg.text, List.length_cons,
    List.length_nil]
  omega

theorem length_updateRecord {format : List Char} (arg : Arg)
    (hformat : format = formatOf (updatePieces arg.directive) ['\'', ';']) :
    (sprintf format [.s tbl, arg, .s key]).length =
      38 + tbl.length + arg.text.length + key.length := by
  obtain ⟨hpieces, htail⟩ := updatePieces_plain arg.directive
  have hfixed (dir : Directive) :
      ((updatePieces dir).map fun piece => piece.1.length).sum = 36 := by
    cases dir <;> decide +kernel
  rw [hformat, sprintf_formatOf rfl hpieces htail, filled_length rfl, hfixed]
  simp only [List.map_cons, List.map_nil, List.sum_cons, List.sum_nil, Arg.text, List.length_cons,
    List.length_nil]
  omega

theorem length_updateValue {type : ParamType} {v : type.Value} {c : Command}
    (hc : updateValue tbl key type v = some c) : ∃ text, written type v = some text ∧
      c.written.length = 38 + tbl.length + text.length + key.length := by
  cases type with
  | u8 | bool | int | enum =>
    cases hc
    exact ⟨_, rfl, length_updateRecord (.d _) update_formats.2.1⟩
  | u64 =>
    cases hc
    exact ⟨_, rfl, length_updateRecord (.llu _) update_formats.2.2⟩
  | str =>
    cases hc
    exact ⟨_, rfl, length_updateRecord (.s v) update_formats.1⟩
  | u16 | u32 | i64 | null | f32 | object | objectData | arrayData | max => cases hc

theorem updateValue_isSome (tbl key : List Char) {type : ParamType} {v : type.Value}
    {text : List Char} (htext : written type v = some text) :
    ∃ c, updateValue tbl key type v = some c := by
  cases type with
  | u8 | bool | int | enum | u64 | str => exact ⟨_, rfl⟩
  | u16 | u32 | i64 | null | f32 | object | objectData | arrayData | max => cases htext

theorem insertDevice_fits_iff (info : DevicePushInfo) :
    (insertDevicePushInfo info).written.length ≤ 255 ↔ 111 + deviceLength info ≤ 255 := by
  have hmessages := messages_fit_iff (k := 111 + info.deviceToken.chars.length +
    info.macAddress.chars.length + info.osType.chars.length) (by omega) info.message
    info.monthlymessage
  rw [length_insertDevice, hmessages, deviceLength]
  omega

theorem updateDevice_fits_iff (info : DevicePushInfo) :
    (updateDevicePushInfo info).written.length ≤ 255 ↔ 102 + deviceLength info ≤ 255 := by
  have hmessages := messages_fit_iff (k := 102 + info.deviceToken.chars.length +
    info.macAddress.chars.length + info.osType.chars.length) (by omega) info.message
    info.monthlymessage
  rw [length_updateDevice, hmessages, deviceLength]
  omega

theorem updateValue_fits_iff (tbl key : List Char) (type : ParamType) (v : type.Value) :
    (∀ c, updateValue tbl key type v = some c → c.written.length ≤ 255) ↔
      ∀ text, written type v = some text → 38 + tbl.length + text.length + key.length ≤ 255 := by
  constructor
  · intro h text htext
    obtain ⟨c, hc⟩ := updateValue_isSome tbl key htext
    obtain ⟨text', htext', hlen⟩ := length_updateValue hc
    obtain rfl : text = text' := Option.some.inj (htext.symm.trans htext')
    exact hlen ▸ h c hc
  · intro h c hc
    obtain ⟨text, htext, hlen⟩ := length_updateValue hc
    exact hlen ▸ h text htext

/-- Each statement has at most 255 characters exactly if its own text leaves room for those that
are put into it. -/
theorem statements_fit_iff (info : DevicePushInfo) (tbl key value : List Char) (type : ParamType)
    (v : type.Value) :
    ((insertDevicePushInfo info).written.length ≤ 255 ↔ 111 + deviceLength info ≤ 255) ∧
    ((updateDevicePushInfo info).written.length ≤ 255 ↔ 102 + deviceLength info ≤ 255) ∧
    ((∀ c, updateValue tbl key type v = some c → c.written.length ≤ 255) ↔
      ∀ text, written type v = some text → 38 + tbl.length + text.length + key.length ≤ 255) ∧
    ((updateItemString tbl key value).written.length ≤ 255 ↔
      38 + tbl.length + value.length + key.length ≤ 255) := by
  refine ⟨insertDevice_fits_iff info, updateDevice_fits_iff info,
    updateValue_fits_iff tbl key type v, ?_⟩
  have hlen : (updateItemString tbl key value).written.length = _ :=
    length_updateRecord (.s value) update_formats.1
  rw [hlen, Arg.text]

/-- Two messages of 255 letters, and a value of 511. -/
theorem long_texts_do_not_fit :
    (∃ info : DevicePushInfo, ¬ (insertDevicePushInfo info).written.length ≤ 255 ∧
      ¬ (updateDevicePushInfo info).written.length ≤ 255) ∧
    ∃ tbl key value : List Char, tbl.length ≤ 31 ∧ key.length ≤ 127 ∧ value.length ≤ 511 ∧
      ¬ (updateItemString tbl key value).written.length ≤ 255 ∧
      ¬ ∀ c, updateValue tbl key .str value = some c → c.written.length ≤ 255 := by
  have htext (n : ℕ) : ∃ text : List Char, text.length = n :=
    ⟨List.replicate n 'a', List.length_replicate⟩
  constructor
  · obtain ⟨text, hlen⟩ := htext 255
    let empty : Text 20 := .empty (by decide)
    let message : Text 256 := ⟨text, by omega⟩
    let info : DevicePushInfo :=
      ⟨.empty (by decide), empty, empty, message, message, empty, empty⟩
    have hmessage : 255 ≤ escapedLength info.message := Nat.le_add_right_of_le hlen.symm.le
    have hlong : escapedLength info.message ≤ deviceLength info := by
      rw [deviceLength]
      omega
    refine ⟨info, ?_, ?_⟩
    · rw [insertDevice_fits_iff]
      omega
    · rw [updateDevice_fits_iff]
      omega
  · obtain ⟨value, hlen⟩ := htext 511
    have hwritten : (updateItemString ['t'] ['k'] value).written.length =
        38 + 1 + value.length + 1 := length_updateRecord (.s value) update_formats.1
    refine ⟨['t'], ['k'], value, by decide, by decide, hlen.le, by omega, ?_⟩
    intro h
    have hfit := h _ rfl
    omega

end DbStatementLengths
