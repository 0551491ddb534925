import MyGitCode.DbStatements

/-! # Strings put into statements

Which strings change the meaning of the statement that a call builds from them. -/
namespace DbQuotes

open CText CFormat SqlTokens SqlStatements SqlTables DbStatements

inductive Call where
  | dbUpdateValue (tbl : TableName) (key : List Char) (type : ParamType) (value : type.Value)
  | dbInsertRecord (tbl : TableName) (key : List Char) (type : ParamType) (value : type.Value)
  | dbDeleteRecord (tbl : TableName) (key : List Char) (type : ParamType) (value : type.Value)
  | dbSetDev (info : DevicePushInfo) (found : Bool)
  | dbGetDev (deviceToken : List Char)
  | dbDelDevByMac (macAddress : List Char)
  | dbDelDevByToken (deviceToken : List Char)

def Call.commands : Call → List Command
  | .dbUpdateValue tbl key type value => (updateValue tbl.chars key type value).toList
  | .dbInsertRecord tbl key type value => (insertRecord tbl.chars key type value).toList
  | .dbDeleteRecord tbl key type value => (deleteRecord tbl.chars key type value).toList
  | .dbSetDev info found =>
    [selectDevicePushInfo info.deviceToken.chars,
      if found then updateDevicePushInfo info else insertDevicePushInfo info]
  | .dbGetDev token => [selectDevicePushInfo token]
  | .dbDelDevByMac mac => [delDevByMac mac]
  | .dbDelDevByToken token => [delDevByToken token]

def Call.intended : Call → List Stmt
  | .dbUpdateValue tbl key type value =>
    ((written type value).map (updateValueStmt tbl.chars key)).toList
  | .dbInsertRecord tbl key type value =>
    ((written type value).map (insertRecordStmt tbl.chars key)).toList
  | .dbDeleteRecord tbl _ type value =>
    ((written type value).map (deleteRecordStmt tbl.chars)).toList
  | .dbSetDev info found =>
    [selectDeviceStmt info.deviceToken.chars,
      if found then updateDeviceStmt info else insertDeviceStmt info]
  | .dbGetDev token => [selectDeviceStmt token]
  | .dbDelDevByMac mac => [deleteDeviceStmt macColumn mac]
  | .dbDelDevByToken token => [deleteDeviceStmt tokenColumn token]

/-- The rows that a call is to touch: those with its key or its token. -/
def Call.subject : Call → Name × Literal
  | .dbUpdateValue _ key _ _ | .dbInsertRecord _ key _ _ | .dbDeleteRecord _ key _ _ =>
    (items, .text key)
  | .dbSetDev info _ => (tokenColumn, .text info.deviceToken.chars)
  | .dbGetDev token | .dbDelDevByToken token => (tokenColumn, .text token)
  | .dbDelDevByMac mac => (macColumn, .text mac)

/-- The command's text fits, is the statement intended, and touches no other rows. -/
def Means (subject : Name × Literal) (c : Command) (stmt : Stmt) : Prop :=
  ∃ text, c.text = some text ∧ Spells text stmt ∧
    ∀ (engine : Engine) (db : Database),
      Database.Confined (table stmt) subject db (engine.exec db text).db

def Call.Meant (call : Call) : Prop := List.Forall₂ (Means call.subject) call.commands call.intended

def Call.strings : Call → List (List Char)
  | .dbUpdateValue _ key type value | .dbInsertRecord _ key type value =>
    (written type value).toList.flatMap fun text => [key, text]
  | .dbDeleteRecord _ _ type value => (written type value).toList
  | .dbSetDev info _ => [info.deviceToken.chars, info.macAddress.chars, info.osType.chars]
  | .dbGetDev token | .dbDelDevByToken token => [token]
  | .dbDelDevByMac mac => [mac]

/-- `db_delete_record` deletes the records that the value names. -/
def Call.NamesRecord : Call → Prop
  | .dbDeleteRecord _ key type value => ∀ text ∈ written type value, text = key
  | _ => True

variable {subject : Name × Literal} {c : Command} {stmt : Stmt} {tbl : TableName}
  {key text token : List Char} {info : DevicePushInfo}

theorem means_iff (hwf : stmt.Wf) : Means subject c stmt ↔
    c.written.length < 256 ∧ Spells c.written stmt ∧
      ∀ db, Database.Confined (table stmt) subject db (effect stmt db).db := by
  constructor
  · rintro ⟨text, htext, hspells, hconfined⟩
    obtain ⟨hlen, rfl⟩ := text_eq_some.mp htext
    refine ⟨hlen, hspells, fun db => ?_⟩
    have hdb := hconfined fragment db
    rwa [fragment.exec_spells db _ stmt hwf hspells] at hdb
  · rintro ⟨hlen, hspells, hconfined⟩
    refine ⟨_, text_eq_some.mpr ⟨hlen, rfl⟩, hspells, fun engine db => ?_⟩
    rw [engine.exec_spells db _ stmt hwf hspells]
    exact hconfined db

theorem insertRecord_cases (tbl : TableName) (key : List Char) (type : ParamType)
    (value : type.Value) :
    (written type value = none ∧ insertRecord tbl.chars key type value = none) ∨
    ∃ text c, written type value = some text ∧ insertRecord tbl.chars key type value = some c ∧
      (Spells c.written (insertRecordStmt tbl.chars key text) ↔ '\'' ∉ key ∧ '\'' ∉ text) := by
  have hspaced : run .blank "(items,value ) values(".toList = some (insertTokens, .blank) := by
    decide +kernel
  have hplain : run .blank "(items,value) values(".toList = some (insertTokens, .blank) := by
    decide +kernel
  have hspacedInt : "insert into %s(items,value ) values('%s', '%d');".toList = formatOf
      (insertPieces "(items,value ) values(".toList .d) ('\'' :: ");".toList) := by decide +kernel
  have hint : "insert into %s(items,value) values('%s', '%d');".toList = formatOf
      (insertPieces "(items,value) values(".toList .d) ('\'' :: ");".toList) := by decide +kernel
  have hllu : "insert into %s(items,value) values('%s', '%llu');".toList = formatOf
      (insertPieces "(items,value) values(".toList .llu) ('\'' :: ");".toList) := by decide +kernel
  have hstr : "insert into %s(items,value) values('%s', '%s');".toList = formatOf
      (insertPieces "(items,value) values(".toList .s) ('\'' :: ");".toList) := by decide +kernel
  cases type with
  | u8 =>
    exact .inr ⟨_, _, rfl, rfl,
      spells_insertRecord (.d _) rfl hspacedInt hspaced (by decide) (by decide) []⟩
  | bool | int | enum =>
    exact .inr ⟨_, _, rfl, rfl,
      spells_insertRecord (.d _) rfl hint hplain (by decide) (by decide) []⟩
  | u64 =>
    exact .inr ⟨_, _, rfl, rfl,
      spells_insertRecord (.llu _) rfl hllu hplain (by decide) (by decide) []⟩
  | str =>
    exact .inr ⟨_, _, rfl, rfl,
      spells_insertRecord (.s _) rfl hstr hplain (by decide) (by decide) [_]⟩
  | u16 | u32 | i64 | null | f32 | object | objectData | arrayData | max => exact .inl ⟨rfl, rfl⟩

theorem deleteRecord_cases (tbl : TableName) (key : List Char) (type : ParamType)
    (value : type.Value) :
    (written type value = none ∧ deleteRecord tbl.chars key type value = none) ∨
    ∃ text c, written type value = some text ∧ deleteRecord tbl.chars key type value = some c ∧
      (Spells c.written (deleteRecordStmt tbl.chars text) ↔ '\'' ∉ text) := by
  have hint : "delete from %s where items='%d'".toList = formatOf (deletePieces .d) ['\''] := by
    decide +kernel
  have hllu : "delete from %s where items='%llu'".toList = formatOf (deletePieces .llu) ['\''] := by
    decide +kernel
  have hstr : "delete from %s where items='%s'".toList = formatOf (deletePieces .s) ['\''] := by
    decide +kernel
  cases type with
  | u8 | bool | int | enum => exact .inr ⟨_, _, rfl, rfl, spells_deleteRecord (.d _) rfl hint⟩
  | u64 => exact .inr ⟨_, _, rfl, rfl, spells_deleteRecord (.llu _) rfl hllu⟩
  | str => exact .inr ⟨_, _, rfl, rfl, spells_deleteRecord (.s _) rfl hstr⟩
  | u16 | u32 | i64 | null | f32 | object | objectData | arrayData | max => exact .inl ⟨rfl, rfl⟩

theorem deleteRecord_confined_iff :
    (∀ db, Database.Confined (table (deleteRecordStmt tbl.chars text)) (items, .text key) db
      (effect (deleteRecordStmt tbl.chars text) db).db) ↔ text = key := by
  constructor
  · intro h
    by_contra hne
    let row : Row := fun _ => .text text
    let t : Table := ⟨[items, valueColumn], fun _ => .null, [row]⟩
    have hknows : Table.knows ⟨[items, valueColumn], fun _ => .null, []⟩ [items] = true := by
      decide +kernel
    have hgone : holds (some (items, .text text)) row = true := by simp [holds, row, value]
    have hkept : holds (some (items, .text key)) row = false := by simp [holds, row, value, hne]
    have happly : apply (deleteRecordStmt tbl.chars text) t = some ({ t with rows := [] }, []) := by
      rw [deleteRecordStmt, apply,
        if_pos (show t.knows (condNames (some (items, .text text))) = true from hknows)]
      simp only [t, List.filter_cons, hgone]
      rfl
    have hdb := (h fun _ => some t).2
    rw [effect_eq rfl happly] at hdb
    simp only [Function.update_self] at hdb
    cases hdb with
    | some hconfined =>
      have hrows := hconfined.2.2
      simp [t, hkept] at hrows
  · rintro rfl db
    exact effect_confined fun _ _ _ => confined_delete

theorem means_update : Means (items, .text key) c (updateValueStmt tbl.chars key text) ↔
    Spells c.written (updateValueStmt tbl.chars key text) ∧ c.written.length < 256 := by
  have hset : items ∉ [(valueColumn, Literal.text text)].map Prod.fst := by
    show items ∉ [valueColumn]
    decide +kernel
  rw [means_iff updateValueStmt_wf, ← and_assoc, and_iff_left, and_comm]
  exact fun db => effect_confined fun _ _ _ => confined_update hset

theorem means_insert : Means (items, .text key) c (insertRecordStmt tbl.chars key text) ↔
    Spells c.written (insertRecordStmt tbl.chars key text) ∧ c.written.length < 256 := by
  rw [means_iff insertRecordStmt_wf, ← and_assoc, and_iff_left, and_comm]
  exact fun db => effect_confined fun _ _ _ => confined_insert rfl

theorem means_delete : Means (items, .text key) c (deleteRecordStmt tbl.chars text) ↔
    Spells c.written (deleteRecordStmt tbl.chars text) ∧ c.written.length < 256 ∧ text = key := by
  rw [means_iff deleteRecordStmt_wf, deleteRecord_confined_iff, and_left_comm]

theorem means_selectDevice : Means subject (selectDevicePushInfo token) (selectDeviceStmt token) ↔
    '\'' ∉ token ∧ (selectDevicePushInfo token).written.length < 256 := by
  rw [means_iff selectDeviceStmt_wf, spells_selectDevice, ← and_assoc, and_iff_left, and_comm]
  exact fun db => effect_confined fun _ _ _ => confined_select

theorem means_insertDevice : Means (tokenColumn, .text info.deviceToken.chars)
    (insertDevicePushInfo info) (insertDeviceStmt info) ↔
      ('\'' ∉ info.deviceToken.chars ∧ '\'' ∉ info.macAddress.chars ∧ '\'' ∉ info.osType.chars) ∧
        (insertDevicePushInfo info).written.length < 256 := by
  rw [means_iff insertDeviceStmt_wf, spells_insertDevice, ← and_assoc, and_iff_left, and_comm]
  exact fun db => effect_confined fun _ _ _ => confined_insert rfl

theorem means_updateDevice : Means (tokenColumn, .text info.deviceToken.chars)
    (updateDevicePushInfo info) (updateDeviceStmt info) ↔
      ('\'' ∉ info.macAddress.chars ∧ '\'' ∉ info.osType.chars ∧ '\'' ∉ info.deviceToken.chars) ∧
        (updateDevicePushInfo info).written.length < 256 := by
  have hset : tokenColumn ∉ (deviceColumns.zip info.fields).map Prod.fst := by
    show tokenColumn ∉ deviceColumns
    decide +kernel
  rw [means_iff updateDeviceStmt_wf, spells_updateDevice, ← and_assoc, and_iff_left, and_comm]
  exact fun db => effect_confined fun _ _ _ => confined_update hset

theorem means_deleteDevice {column : Name} (hname : IsName column) :
    Means (column, .text text) c (deleteDeviceStmt column text) ↔
      Spells c.written (deleteDeviceStmt column text) ∧ c.written.length < 256 := by
  rw [means_iff (deleteDeviceStmt_wf hname), ← and_assoc, and_iff_left, and_comm]
  exact fun db => effect_confined fun _ _ _ => confined_delete

/-- A call has its meaning exactly when no string it writes as given has an apostrophe, its
statements fit, and a deleted record is the one of the key. -/
theorem meant_iff (call : Call) : call.Meant ↔
    (∀ s ∈ call.strings, '\'' ∉ s) ∧ (∀ c ∈ call.commands, c.written.length < 256) ∧
      call.NamesRecord := by
  cases call with
  | dbUpdateValue tbl key type value =>
    rcases updateValue_cases tbl key type value with ⟨hw, hc⟩ | ⟨text, c, hw, hc, hspells⟩
    · simp [Call.Meant, Call.commands, Call.intended, Call.strings, Call.NamesRecord, hw, hc]
    · simp [Call.Meant, Call.commands, Call.intended, Call.strings, Call.NamesRecord,
        Call.subject, hw, hc, means_update, hspells]
  | dbInsertRecord tbl key type value =>
    rcases insertRecord_cases tbl key type value with ⟨hw, hc⟩ | ⟨text, c, hw, hc, hspells⟩
    · simp [Call.Meant, Call.commands, Call.intended, Call.strings, Call.NamesRecord, hw, hc]
    · simp [Call.Meant, Call.commands, Call.intended, Call.strings, Call.NamesRecord,
        Call.subject, hw, hc, means_insert, hspells]
  | dbDeleteRecord tbl key type value =>
    rcases deleteRecord_cases tbl key type value with ⟨hw, hc⟩ | ⟨text, c, hw, hc, hspells⟩
    · simp [Call.Meant, Call.commands, Call.intended, Call.strings, Call.NamesRecord, hw, hc]
    · simp [Call.Meant, Call.commands, Call.intended, Call.strings, Call.NamesRecord,
        Call.subject, hw, hc, means_delete, hspells]
  | dbSetDev info found =>
    cases found with
    | true =>
      simp [Call.Meant, Call.commands, Call.intended, Call.strings, Call.NamesRecord,
        Call.subject, means_selectDevice, means_updateDevice]
      tauto
    | false =>
      simp [Call.Meant, Call.commands, Call.intended, Call.strings, Call.NamesRecord,
        Call.subject, means_selectDevice, means_insertDevice]
      tauto
  | dbGetDev token =>
    simp [Call.Meant, Call.commands, Call.intended, Call.strings, Call.NamesRecord,
      means_selectDevice]
  | dbDelDevByMac mac =>
    simp [Call.Meant, Call.commands, Call.intended, Call.strings, Call.NamesRecord,
      Call.subject, means_deleteDevice isName_macColumn, spells_delDevByMac]
  | dbDelDevByToken token =>
    simp [Call.Meant, Call.commands, Call.intended, Call.strings, Call.NamesRecord,
      Call.subject, means_deleteDevice isName_tokenColumn, spells_delDevByToken]

def params : TableName := ⟨"params".toList, by decide +kernel, by decide +kernel⟩

/-- A value that renames the record it is stored in. -/
theorem value_renames_record :
    let call := Call.dbUpdateValue params "a".toList .str "x', items='b".toList
    ¬ call.Meant ∧ ∃ c ∈ call.commands, ∃ text, c.text = some text ∧
      Spells text (.update "params".toList
        [(valueColumn, .text "x".toList), (items, .text "b".toList)]
        (some (items, .text "a".toList))) := by
  constructor
  · intro h
    cases h with
    | cons hmeans =>
      obtain ⟨text, htext, hspells, -⟩ := hmeans
      obtain rfl := (text_eq_some.mp htext).2
      revert hspells
      decide +kernel
  · exact ⟨_, List.mem_singleton.mpr rfl, _, rfl, by decide +kernel⟩

end DbQuotes
