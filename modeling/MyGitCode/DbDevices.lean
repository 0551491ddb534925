import MyGitCode.DbStatements

/-! # The table of devices

The functions on the table `DevicePushInfo`, and the map from device tokens that they are to be. -/
namespace DbDevices

open CText CFormat SqlTokens SqlStatements SqlTables DbEscape DbStatements

def selectDev (engine : Engine) (opened : Bool) (info : DevicePushInfo) (db : Database) :
    Option Result :=
  (selectDevicePushInfo info.deviceToken.chars).text.map (dbExecCmd engine opened db)

/-- `__UpdateDevicePushInfo` or `__InsertDevicePushInfo`. -/
def writeDev (engine : Engine) (opened : Bool) (blFound : Bool) (info : DevicePushInfo)
    (db : Database) : Option Result :=
  (if blFound then updateDevicePushInfo info else insertDevicePushInfo info).text.map
    (dbExecCmd engine opened db)

def dbSetDev (engine : Engine) (openedSelect openedWrite : Bool) (info : DevicePushInfo)
    (db : Database) : Option (Database × ℤ) :=
  (selectDev engine openedSelect info db).bind fun r =>
    match r.rows with
    | none => some (r.db, fail)
    | some rows => (writeDev engine openedWrite (!rows.isEmpty) info r.db).map fun w =>
      (w.db, returnCode w)

inductive Field where
  | deviceToken | macAddress | osType | message | monthlyMessage | pushTime | monthlyPushTime
  deriving DecidableEq, Repr

def Field.column : Field → Name
  | .deviceToken => "DeviceToken".toList
  | .macAddress => "MacAddress".toList
  | .osType => "OSType".toList
  | .message => "Message".toList
  | .monthlyMessage => "MonthlyMessage".toList
  | .pushTime => "PushTime".toList
  | .monthlyPushTime => "MonthlyPushTime".toList

def Field.all : List Field :=
  [.deviceToken, .macAddress, .osType, .message, .monthlyMessage, .pushTime, .monthlyPushTime]

/-- A text is copied if it is not longer than the array. One that fills it leaves no byte for
the NUL, and a NULL pointer has no length. -/
def copyText {cap : ℕ} (value : Option (List Char)) (before : Text cap) : Option (Text cap) :=
  value.bind fun s =>
    if h : s.length < cap then some ⟨s, h⟩
    else if s.length = cap then none
    else some before

def copyMessage (value : Option (List Char)) (before : Text 256) : Option (Text 256) :=
  value.bind fun s =>
    if s.length ≤ 256 then
      (decodeEscapeString s 256).bind fun m => if h : m.length < 256 then some ⟨m, h⟩ else none
    else some before

def setField (info : DevicePushInfo) (value : Option (List Char)) : Field → Option DevicePushInfo
  | .deviceToken => (copyText value info.deviceToken).map fun t => { info with deviceToken := t }
  | .macAddress => (copyText value info.macAddress).map fun t => { info with macAddress := t }
  | .osType => (copyText value info.osType).map fun t => { info with osType := t }
  | .message => (copyMessage value info.message).map fun t => { info with message := t }
  | .monthlyMessage =>
    (copyMessage value info.monthlymessage).map fun t => { info with monthlymessage := t }
  | .pushTime => (copyText value info.pushTime).map fun t => { info with pushTime := t }
  | .monthlyPushTime =>
    (copyText value info.monthlypushTime).map fun t => { info with monthlypushTime := t }

def dbGetDevCb (info : DevicePushInfo) (row : List (Name × Option (List Char))) :
    Option DevicePushInfo :=
  row.foldlM (fun info c =>
    match Field.all.find? fun f => f.column = c.1 with
    | some f => setField info c.2 f
    | none => some info) info

def dbGetDev (engine : Engine) (opened : Bool) (deviceToken : Text 128) (info : DevicePushInfo)
    (db : Database) : Option (Database × DevicePushInfo × ℤ) :=
  ((selectDevicePushInfo deviceToken.chars).text.map (dbExecCmd engine opened db)).bind fun r =>
    ((r.rows.getD []).foldlM
        (fun info row => dbGetDevCb info (row.map fun c => (c.1, engine.print c.2))) info).map
      fun out => (r.db, out, returnCode r)

def dbDelDevByMac (engine : Engine) (opened : Bool) (macAddress : Text 20) (db : Database) :
    Option (Database × ℤ) :=
  ((delDevByMac macAddress.chars).text.map (dbExecCmd engine opened db)).map fun r =>
    (r.db, returnCode r)

def dbDelDevByToken (engine : Engine) (opened : Bool) (deviceToken : Text 128) (db : Database) :
    Option (Database × ℤ) :=
  ((delDevByToken deviceToken.chars).text.map (dbExecCmd engine opened db)).map fun r =>
    (r.db, returnCode r)

inductive Call where
  | dbSetDev (info : DevicePushInfo)
  | dbGetDev (deviceToken : Text 128) (info : DevicePushInfo)
  | dbDelDevByToken (deviceToken : Text 128)
  | dbDelDevByMac (macAddress : Text 20)
  deriving DecidableEq

/-- What a call returns, and where the caller's data is written, that data. -/
structure Answer where
  info : Option DevicePushInfo
  rc : ℤ
  deriving DecidableEq

def Call.exec (engine : Engine) (db : Database) : Call → Option (Database × Answer)
  | .dbSetDev info => (DbDevices.dbSetDev engine true true info db).map fun r => (r.1, ⟨none, r.2⟩)
  | .dbGetDev token info =>
    (DbDevices.dbGetDev engine true token info db).map fun r => (r.1, ⟨some r.2.1, r.2.2⟩)
  | .dbDelDevByToken token =>
    (DbDevices.dbDelDevByToken engine true token db).map fun r => (r.1, ⟨none, r.2⟩)
  | .dbDelDevByMac mac =>
    (DbDevices.dbDelDevByMac engine true mac db).map fun r => (r.1, ⟨none, r.2⟩)

def execCalls (engine : Engine) : Database → List Call → Option (Database × List Answer)
  | db, [] => some (db, [])
  | db, call :: calls =>
    (call.exec engine db).bind fun r =>
      (execCalls engine r.1 calls).map fun rs => (rs.1, r.2 :: rs.2)

structure Entry where
  macAddress : Text 20
  osType : Text 20
  message : Text 256
  monthlymessage : Text 256
  deriving DecidableEq

def entry (info : DevicePushInfo) : Entry :=
  ⟨info.macAddress, info.osType, info.message, info.monthlymessage⟩

abbrev Devices := Text 128 → Option Entry

def Devices.after (m : Devices) : Call → Devices
  | .dbSetDev info => Function.update m info.deviceToken (some (entry info))
  | .dbGetDev _ _ => m
  | .dbDelDevByToken token => Function.update m token none
  | .dbDelDevByMac mac => fun token => (m token).filter fun e => e.macAddress ≠ mac

/-- What is asked of the answer. The code of a deletion by MAC is left open. -/
def Devices.Answers (m : Devices) : Call → Answer → Prop
  | .dbSetDev _, a | .dbDelDevByToken _, a => a.rc = noError
  | .dbDelDevByMac _, _ => True
  | .dbGetDev token info, a =>
    a.rc = noError ∧ ∃ out, a.info = some out ∧
      match m token with
      | none => out = info
      | some e => out.deviceToken = token ∧ entry out = e

/-- Every call of a run gets the answer of the map as it is when it is made. -/
inductive Devices.Served : Devices → List Call → List Answer → Prop where
  | nil (m) : Served m [] []
  | cons {m call calls a answers} : m.Answers call a → Served (m.after call) calls answers →
      Served m (call :: calls) (a :: answers)

/-- No apostrophe is written into a statement, and no message has a mark of its own. -/
def Call.Plain : Call → Prop
  | .dbSetDev info =>
    ('\'' ∉ info.deviceToken.chars ∧ '\'' ∉ info.macAddress.chars ∧ '\'' ∉ info.osType.chars ∧
      '\'' ∉ info.message.chars ∧ '\'' ∉ info.monthlymessage.chars) ∧
    ¬ escapeMark <:+: info.message.chars ∧ ¬ escapeMark <:+: info.monthlymessage.chars
  | .dbGetDev token _ | .dbDelDevByToken token => '\'' ∉ token.chars
  | .dbDelDevByMac mac => '\'' ∉ mac.chars

def Call.commands (m : Devices) : Call → List Command
  | .dbSetDev info =>
    [selectDevicePushInfo info.deviceToken.chars,
      if (m info.deviceToken).isSome then updateDevicePushInfo info else insertDevicePushInfo info]
  | .dbGetDev token _ => [selectDevicePushInfo token.chars]
  | .dbDelDevByToken token => [delDevByToken token.chars]
  | .dbDelDevByMac mac => [delDevByMac mac.chars]

def Call.Short (m : Devices) (call : Call) : Prop :=
  ∀ c ∈ call.commands m, c.written.length < 256

def tokenIs (token : Text 128) : Name × Literal := (tokenColumn, .text token.chars)

def deviceRows (db : Database) (token : Text 128) : List Row :=
  (db deviceTable).elim [] fun t => selected (tokenIs token) t.rows

/-- A push time that the callback can copy, or leaves out as too long. -/
def Copyable (engine : Engine) (value : SqlTables.Value) : Prop :=
  ∃ s, engine.print value = some s ∧ s.length ≠ 20

/-- The push times of a device that is read can be copied, and no device has a MAC that is
deleted. -/
def Careful (engine : Engine) (db : Database) (m : Devices) : Call → Prop
  | .dbGetDev token _ => ∀ row ∈ deviceRows db token,
      Copyable engine (row (lower Field.pushTime.column)) ∧
        Copyable engine (row (lower Field.monthlyPushTime.column))
  | .dbDelDevByMac mac => ∀ token e, m token = some e → e.macAddress ≠ mac
  | .dbSetDev _ | .dbDelDevByToken _ => True

/-- Every call of a run is plain and short and meets the condition where it is made. -/
inductive AllCareful (engine : Engine) : Database → Devices → List Call → Prop where
  | nil (db m) : AllCareful engine db m []
  | cons {db m call calls} : call.Plain → call.Short m → Careful engine db m call →
      (∀ r, call.exec engine db = some r → AllCareful engine r.1 (m.after call) calls) →
      AllCareful engine db m (call :: calls)

def Entry.values (e : Entry) : List SqlTables.Value :=
  [.text e.macAddress.chars, .text e.osType.chars, .text e.message.chars,
    .text e.monthlymessage.chars]

/-- No row for a token without an entry, and one for a token with an entry. -/
inductive Recorded : List Row → Option Entry → Prop where
  | absent : Recorded [] none
  | present {row e} : deviceColumns.map row = e.values → ¬ escapeMark <:+: e.message.chars →
      ¬ escapeMark <:+: e.monthlymessage.chars → Recorded [row] (some e)

def Represents (db : Database) (m : Devices) : Prop :=
  ∃ t, db deviceTable = some t ∧ t.columns = Field.all.map Field.column ∧
    ∀ token, Recorded (selected (tokenIs token) t.rows) (m token)

variable {engine : Engine} {db db' : Database} {m : Devices} {t : Table} {token token' : Text 128}
  {info : DevicePushInfo} {e : Entry} {rows : List Row} {row : Row}

theorem text_inj {cap : ℕ} {a b : Text cap} : a.chars = b.chars ↔ a = b := by
  cases a
  cases b
  simp

theorem knows_columns (hcolumns : t.columns = Field.all.map Field.column) :
    t.knows (tokenColumn :: deviceColumns) = true ∧
      t.knows (deviceColumns ++ [tokenColumn]) = true ∧
      t.knows [tokenColumn] = true ∧ t.knows [macColumn] = false := by
  have hhas : t.has = fun name => ((Field.all.map Field.column).map lower).contains name := by
    funext name
    rw [Table.has, hcolumns]
  simp only [Table.knows, hhas]
  decide +kernel

theorem escapeMessage_eq {message : Text 256} (h : '\'' ∉ message.chars) :
    escapeMessage message = message.chars := by
  have hloop : encodeLoop 256 message.chars [] = message.chars := by
    rw [encodeLoop_eq, escape_eq_self h, List.nil_append]
    rw [escape_eq_self h, List.length_nil, Nat.zero_add]
    exact message.fits
  rw [escapeMessage, encodeEscapeString, if_neg (by decide), hloop]
  rfl

example : escapeMessage ⟨"it's".toList, by decide⟩ = "it#39$&s".toList := by decide +kernel

theorem values_entry (hplain : (Call.dbSetDev info).Plain) :
    info.fields.map value = (entry info).values := by
  obtain ⟨⟨-, -, -, hmessage, hmonthly⟩, -⟩ := hplain
  rw [DevicePushInfo.fields, escapeMessage_eq hmessage, escapeMessage_eq hmonthly]
  rfl

theorem Recorded.found {entry : Option Entry} (h : Recorded rows entry) :
    (!rows.isEmpty) = entry.isSome := by
  cases h <;> rfl

theorem execText (engine : Engine) (db : Database) {c : Command} {stmt : Stmt}
    (hfit : c.written.length < 256) (hwf : stmt.Wf) (hspells : Spells c.written stmt) :
    c.text.map (dbExecCmd engine true db) = some (effect stmt db) := by
  rw [text_eq_some.mpr ⟨hfit, rfl⟩, Option.map_some, dbExecCmd_eq hwf hspells, if_pos rfl]

theorem represents_of {rows : List Row} {entry : Option Entry}
    (hcolumns : t.columns = Field.all.map Field.column)
    (hself : Recorded (selected (tokenIs token) rows) entry)
    (hother : ∀ token', token' ≠ token → Recorded (selected (tokenIs token') rows) (m token')) :
    Represents (Function.update db deviceTable (some { t with rows := rows }))
      (Function.update m token entry) := by
  refine ⟨_, Function.update_self _ _ _, hcolumns, fun token' => ?_⟩
  by_cases htoken : token' = token
  · subst htoken
    rwa [Function.update_self]
  · rw [Function.update_of_ne htoken]
    exact hother token' htoken

theorem value_ne (h : token' ≠ token) : value (tokenIs token').2 ≠ value (tokenIs token).2 := by
  intro heq
  exact h (text_inj.mp (SqlTables.Value.text.inj heq))

theorem Recorded.eq_nil (h : Recorded rows none) : rows = [] := by
  cases h
  rfl

theorem Recorded.eq_singleton (h : Recorded rows (some e)) :
    ∃ row, rows = [row] ∧ deviceColumns.map row = e.values ∧
      ¬ escapeMark <:+: e.message.chars ∧ ¬ escapeMark <:+: e.monthlymessage.chars := by
  cases h with
  | present hvalues hmessage hmonthly => exact ⟨_, rfl, hvalues, hmessage, hmonthly⟩

theorem recorded_entry (hplain : (Call.dbSetDev info).Plain)
    (hvalues : deviceColumns.map row = info.fields.map value) :
    Recorded [row] (some (entry info)) :=
  .present (hvalues.trans (values_entry hplain)) hplain.2.1 hplain.2.2

theorem represents_insert (hplain : (Call.dbSetDev info).Plain) (h : Represents db m)
    (hnone : m info.deviceToken = none) :
    ∃ db', effect (insertDeviceStmt info) db = ⟨db', some []⟩ ∧
      Represents db' (m.after (.dbSetDev info)) := by
  obtain ⟨t, ht, hcolumns, hrows⟩ := h
  let new := newRow t (tokenColumn :: deviceColumns) (.text info.deviceToken.chars :: info.fields)
  have happly : apply (insertDeviceStmt info) t =
      some ({ t with rows := t.rows ++ [new] }, []) := by
    rw [insertDeviceStmt, apply, if_pos]
    rw [(knows_columns hcolumns).1]
    rfl
  have hnew : (tokenColumn :: deviceColumns).map new =
      (Literal.text info.deviceToken.chars :: info.fields).map value :=
    map_newRow (by decide +kernel) rfl
  obtain ⟨htoken, hvalues⟩ := List.cons.inj hnew
  refine ⟨_, effect_eq ht happly, represents_of hcolumns ?_ fun token' hne => ?_⟩
  · have hold := hrows info.deviceToken
    rw [hnone] at hold
    have hnewToken : new (tokenIs info.deviceToken).1 = value (tokenIs info.deviceToken).2 := htoken
    rw [selected_append, hold.eq_nil, if_pos hnewToken]
    exact recorded_entry hplain hvalues
  · have hkept : new (tokenIs token').1 ≠ value (tokenIs token').2 := fun heq =>
      value_ne hne (heq.symm.trans htoken)
    rw [selected_append, if_neg hkept, List.append_nil]
    exact hrows token'

theorem represents_update (hplain : (Call.dbSetDev info).Plain) (h : Represents db m)
    (hsome : m info.deviceToken = some e) :
    ∃ db', effect (updateDeviceStmt info) db = ⟨db', some []⟩ ∧
      Represents db' (m.after (.dbSetDev info)) := by
  obtain ⟨t, ht, hcolumns, hrows⟩ := h
  let put (row : Row) : Row :=
    if holds (some (tokenIs info.deviceToken)) row then
      SqlTables.set row (deviceColumns.zip info.fields)
    else row
  have happly : apply (updateDeviceStmt info) t = some ({ t with rows := t.rows.map put }, []) := by
    rw [updateDeviceStmt, apply, if_pos]
    · rfl
    · exact (knows_columns hcolumns).2.1
  have hother : tokenColumn ∉ (deviceColumns.zip info.fields).map Prod.fst := by
    show tokenColumn ∉ deviceColumns
    decide +kernel
  have hselected (token : Text 128) :
      selected (tokenIs token) (t.rows.map put) = (selected (tokenIs token) t.rows).map put :=
    selected_update hother
  refine ⟨_, effect_eq ht happly, represents_of hcolumns ?_ fun token' hne => ?_⟩
  · have hold := hrows info.deviceToken
    rw [hsome] at hold
    obtain ⟨row, hrow, -⟩ := hold.eq_singleton
    have hholds : holds (some (tokenIs info.deviceToken)) row = true := by
      have hmem : row ∈ selected (tokenIs info.deviceToken) t.rows := by simp [hrow]
      exact (List.mem_filter.mp hmem).2
    have hput : put row = SqlTables.set row (deviceColumns.zip info.fields) := if_pos hholds
    rw [hselected, hrow, List.map_singleton, hput]
    exact recorded_entry hplain (map_set (by decide +kernel) rfl)
  · have hkept : ∀ row ∈ selected (tokenIs token') t.rows, put row = row := by
      intro row hrow
      have htoken' := holds_iff.mp (List.mem_filter.mp hrow).2
      refine if_neg fun htoken => value_ne hne ?_
      exact htoken'.symm.trans (holds_iff.mp htoken)
    rw [hselected, List.map_congr_left hkept, List.map_id']
    exact hrows token'

theorem represents_delete (token : Text 128) (h : Represents db m) :
    ∃ db', effect (deleteDeviceStmt tokenColumn token.chars) db = ⟨db', some []⟩ ∧
      Represents db' (m.after (.dbDelDevByToken token)) := by
  obtain ⟨t, ht, hcolumns, hrows⟩ := h
  have happly : apply (deleteDeviceStmt tokenColumn token.chars) t =
      some ({ t with rows := t.rows.filter fun row => !holds (some (tokenIs token)) row }, []) := by
    rw [deleteDeviceStmt, apply, if_pos]
    · rfl
    · exact (knows_columns hcolumns).2.2.1
  refine ⟨_, effect_eq ht happly, represents_of hcolumns ?_ fun token' hne => ?_⟩
  · rw [selected_delete_self]
    exact .absent
  · have hkept : selected (tokenIs token')
        (t.rows.filter fun row => !holds (some (tokenIs token)) row) = _ :=
      selected_delete rfl (value_ne hne)
    rw [hkept]
    exact hrows token'

theorem effect_deleteByMac {mac : Text 20} (h : Represents db m) :
    effect (deleteDeviceStmt macColumn mac.chars) db = ⟨db, none⟩ := by
  obtain ⟨t, ht, hcolumns, -⟩ := h
  refine effect_fails ?_
  rw [deleteDeviceStmt, SqlTables.table, ht, Option.bind_some, apply, if_neg]
  exact ne_true_of_eq_false (knows_columns hcolumns).2.2.2

theorem after_deleteByMac {mac : Text 20} (h : ∀ token e, m token = some e → e.macAddress ≠ mac) :
    m.after (.dbDelDevByMac mac) = m := by
  funext token
  cases hm : m token with
  | none => simp [Devices.after, hm]
  | some e => simp [Devices.after, hm, h token e hm]

theorem mem_deviceRows (h : row ∈ deviceRows db token) : row tokenColumn = .text token.chars := by
  rw [deviceRows] at h
  cases ht : db deviceTable with
  | none => simp [ht] at h
  | some t =>
    rw [ht] at h
    exact holds_iff.mp (List.mem_filter.mp h).2

theorem effect_selectDevice (token : Text 128) (h : Represents db m) : ∃ t rows,
    effect (selectDeviceStmt token.chars) db = ⟨db, some (columnsOf t .all rows)⟩ ∧
      t.columns = Field.all.map Field.column ∧ rows = deviceRows db token ∧
      Recorded rows (m token) := by
  obtain ⟨t, ht, hcolumns, hrows⟩ := h
  have hdevice : deviceRows db token = selected (tokenIs token) t.rows := by
    rw [deviceRows, ht]
    rfl
  refine ⟨t, _, effect_select ht ?_, hcolumns, hdevice.symm, hrows token⟩
  exact (knows_columns hcolumns).2.2.1

theorem copyText_of_lt {cap : ℕ} {s : List Char} {before : Text cap} (h : s.length < cap) :
    copyText (some s) before = some ⟨s, h⟩ := dif_pos h

theorem copyMessage_eq {message before : Text 256} (h : ¬ escapeMark <:+: message.chars) :
    copyMessage (some message.chars) before = some message := by
  have hdecode : decodeEscapeString message.chars 256 = some message.chars := by
    have hfits : ([] : List Char).length + message.chars.length < 256 := by
      rw [List.length_nil, Nat.zero_add]
      exact message.fits
    rw [decodeEscapeString, if_neg (by decide), decodeLoop_eq hfits, (unescape_eq_self _).mpr h,
      List.nil_append]
  rw [copyMessage, Option.bind_some, if_pos message.fits.le, hdecode, Option.bind_some,
    dif_pos message.fits]

theorem copyText_copyable {v : SqlTables.Value} (before : Text 20) (h : Copyable engine v) :
    ∃ t, copyText (engine.print v) before = some t := by
  obtain ⟨s, hprint, hlen⟩ := h
  rw [hprint, copyText, Option.bind_some]
  split
  · exact ⟨_, rfl⟩
  · exact ⟨before, rfl⟩

theorem find_column (f : Field) : (Field.all.find? fun g => g.column = f.column) = some f := by
  cases f <;> decide +kernel

theorem dbGetDevCb_fields (values : Name → Option (List Char)) :
    dbGetDevCb info ((Field.all.map Field.column).map fun c => (c, values c)) =
      Field.all.foldlM (fun info f => setField info (values f.column) f) info := by
  rw [dbGetDevCb, List.foldlM_map, List.foldlM_map]
  simp only [find_column]

theorem dbGetDevCb_eq (info : DevicePushInfo) (htoken : row tokenColumn = .text token.chars)
    (hvalues : deviceColumns.map row = e.values) (hmessage : ¬ escapeMark <:+: e.message.chars)
    (hmonthly : ¬ escapeMark <:+: e.monthlymessage.chars)
    (hpush : Copyable engine (row (lower Field.pushTime.column)))
    (hmonthlyPush : Copyable engine (row (lower Field.monthlyPushTime.column))) :
    ∃ out, dbGetDevCb info ((Field.all.map Field.column).map fun c =>
        (c, engine.print (row (lower c)))) = some out ∧
      out.deviceToken = token ∧ entry out = e := by
  have hprint {name : Name} {s : List Char} (h : row name = .text s) :
      engine.print (row name) = some s := by
    rw [h]
    rfl
  have hlower : lower Field.deviceToken.column = tokenColumn ∧
      lower Field.macAddress.column = "macaddress".toList ∧
      lower Field.osType.column = "ostype".toList ∧
      lower Field.message.column = "message".toList ∧
      lower Field.monthlyMessage.column = "monthlymessage".toList := by decide +kernel
  simp only [deviceColumns, Entry.values, List.map_cons, List.map_nil, List.cons.injEq,
    and_true] at hvalues
  obtain ⟨hmac, hos, hmsg, hmonth⟩ := hvalues
  obtain ⟨push, hpush⟩ := copyText_copyable info.pushTime hpush
  obtain ⟨monthlyPush, hmonthlyPush⟩ := copyText_copyable info.monthlypushTime hmonthlyPush
  refine ⟨⟨token, e.macAddress, e.osType, e.message, e.monthlymessage, push, monthlyPush⟩, ?_, rfl,
    rfl⟩
  rw [dbGetDevCb_fields]
  simp only [Field.all, List.foldlM_cons, List.foldlM_nil, setField, hlower.1, hlower.2.1,
    hlower.2.2.1, hlower.2.2.2.1, hlower.2.2.2.2, hprint htoken, hprint hmac, hprint hos,
    hprint hmsg, hprint hmonth, copyText_of_lt (Text.fits _), copyMessage_eq hmessage,
    copyMessage_eq hmonthly, Option.map_some, Option.bind_eq_bind, Option.bind_some, hpush,
    hmonthlyPush, Option.pure_def]

theorem dbSetDev_represents (h : Represents db m) (hplain : (Call.dbSetDev info).Plain)
    (hshort : (Call.dbSetDev info).Short m) :
    ∃ db' a, (Call.dbSetDev info).exec engine db = some (db', a) ∧
      Represents db' (m.after (.dbSetDev info)) ∧ m.Answers (.dbSetDev info) a := by
  have hselect := execText engine db (hshort _ List.mem_cons_self)
    selectDeviceStmt_wf (spells_selectDevice.mpr hplain.1.1)
  obtain ⟨t, rows, heffect, -, -, hrows⟩ := effect_selectDevice info.deviceToken h
  have hfound : (!(columnsOf t .all rows).isEmpty) = (m info.deviceToken).isSome := by
    rw [columnsOf, List.isEmpty_map, hrows.found]
  have hwrite := hshort _ (List.mem_cons_of_mem _ List.mem_cons_self)
  simp only [Call.exec, DbDevices.dbSetDev, selectDev, hselect, heffect, Option.bind_some, hfound,
    writeDev]
  cases hm : m info.deviceToken with
  | none =>
    rw [hm] at hwrite
    obtain ⟨db', hinsert, hdb'⟩ := represents_insert hplain h hm
    have hexec := execText engine db hwrite insertDeviceStmt_wf
      (spells_insertDevice.mpr ⟨hplain.1.1, hplain.1.2.1, hplain.1.2.2.1⟩)
    rw [hinsert] at hexec
    exact ⟨db', ⟨none, noError⟩, by rw [hexec]; rfl, hdb', rfl⟩
  | some e =>
    rw [hm] at hwrite
    obtain ⟨db', hupdate, hdb'⟩ := represents_update hplain h hm
    have hexec := execText engine db hwrite updateDeviceStmt_wf
      (spells_updateDevice.mpr ⟨hplain.1.2.1, hplain.1.2.2.1, hplain.1.1⟩)
    rw [hupdate] at hexec
    exact ⟨db', ⟨none, noError⟩, by rw [hexec]; rfl, hdb', rfl⟩

theorem dbGetDev_represents (h : Represents db m) (hplain : (Call.dbGetDev token info).Plain)
    (hshort : (Call.dbGetDev token info).Short m)
    (hcareful : Careful engine db m (.dbGetDev token info)) :
    ∃ db' a, (Call.dbGetDev token info).exec engine db = some (db', a) ∧
      Represents db' (m.after (.dbGetDev token info)) ∧ m.Answers (.dbGetDev token info) a := by
  have hexec := execText engine db (hshort _ List.mem_cons_self)
    selectDeviceStmt_wf (spells_selectDevice.mpr hplain)
  obtain ⟨t, rows, heffect, hcolumns, hrows, hrecorded⟩ := effect_selectDevice token h
  rw [heffect] at hexec
  simp only [Call.exec, DbDevices.dbGetDev, hexec, Option.bind_some, columnsOf, Option.getD_some,
    hcolumns]
  cases hm : m token with
  | none =>
    rw [hm] at hrecorded
    rw [hrecorded.eq_nil]
    refine ⟨db, ⟨some info, noError⟩, rfl, h, rfl, info, rfl, ?_⟩
    rw [hm]
  | some e =>
    rw [hm] at hrecorded
    obtain ⟨row, hrow, hvalues, hmessage, hmonthly⟩ := hrecorded.eq_singleton
    rw [hrow] at hrows
    have hmem : row ∈ deviceRows db token := by simp [← hrows]
    obtain ⟨hpush, hmonthlyPush⟩ := hcareful row hmem
    obtain ⟨out, hout, htoken, hentry⟩ := dbGetDevCb_eq info (mem_deviceRows hmem) hvalues
      hmessage hmonthly hpush hmonthlyPush
    refine ⟨db, ⟨some out, noError⟩, ?_, h, rfl, out, rfl, ?_⟩
    · have hcall : dbGetDevCb info (((Field.all.map Field.column).map fun c =>
          (c, row (lower c))).map fun c => (c.1, engine.print c.2)) = some out := by
        rw [List.map_map]
        exact hout
      rw [hrow, List.map_singleton, List.foldlM_cons, hcall]
      rfl
    · rw [hm]
      exact ⟨htoken, hentry⟩

/-- The step lemma: a careful call on a table that is a map has the effect and the answer of
the map. -/
theorem exec_represents {call : Call} (h : Represents db m) (hplain : call.Plain)
    (hshort : call.Short m) (hcareful : Careful engine db m call) :
    ∃ db' a, call.exec engine db = some (db', a) ∧ Represents db' (m.after call) ∧
      m.Answers call a := by
  cases call with
  | dbSetDev info => exact dbSetDev_represents h hplain hshort
  | dbGetDev token info => exact dbGetDev_represents h hplain hshort hcareful
  | dbDelDevByToken token =>
    have hexec := execText engine db (hshort _ List.mem_cons_self)
      (deleteDeviceStmt_wf isName_tokenColumn) (spells_delDevByToken.mpr hplain)
    obtain ⟨db', heffect, hdb'⟩ := represents_delete token h
    rw [heffect] at hexec
    exact ⟨db', ⟨none, noError⟩, by rw [Call.exec, DbDevices.dbDelDevByToken, hexec]; rfl, hdb',
      rfl⟩
  | dbDelDevByMac mac =>
    have hexec := execText engine db (hshort _ List.mem_cons_self)
      (deleteDeviceStmt_wf isName_macColumn) (spells_delDevByMac.mpr hplain)
    rw [effect_deleteByMac h] at hexec
    refine ⟨db, ⟨none, fail⟩, by rw [Call.exec, DbDevices.dbDelDevByMac, hexec]; rfl, ?_, trivial⟩
    rwa [after_deleteByMac hcareful]

/-- In every run of careful calls the table is the map: it ends as the map does, and every call
gets the map's answer. -/
theorem execCalls_represents (engine : Engine) (calls : List Call) (db : Database) (m : Devices)
    (h : Represents db m) (hcareful : AllCareful engine db m calls) :
    ∃ db' answers, execCalls engine db calls = some (db', answers) ∧ m.Served calls answers ∧
      Represents db' (calls.foldl Devices.after m) := by
  induction calls generalizing db m with
  | nil => exact ⟨db, [], rfl, .nil m, h⟩
  | cons call calls ih =>
    cases hcareful with
    | cons hplain hshort hcareful hrest =>
      obtain ⟨db₁, a, hexec, hdb₁, hanswer⟩ := exec_represents h hplain hshort hcareful
      obtain ⟨db', answers, hcalls, hserved, hdb'⟩ := ih db₁ _ hdb₁ (hrest _ hexec)
      refine ⟨db', a :: answers, ?_, .cons hanswer hserved, hdb'⟩
      rw [execCalls, hexec, Option.bind_some, hcalls]
      rfl

def noDevices : Database := fun name =>
  if name = deviceTable then some ⟨Field.all.map Field.column, fun _ => .null, []⟩ else none

theorem noDevices_represents : Represents noDevices fun _ => none :=
  ⟨_, if_pos rfl, rfl, fun _ => .absent⟩

def phone : DevicePushInfo where
  deviceToken := ⟨"a1".toList, by decide⟩
  macAddress := ⟨"00:11:22".toList, by decide⟩
  osType := ⟨"ios".toList, by decide⟩
  message := ⟨"limit".toList, by decide⟩
  monthlymessage := ⟨"month".toList, by decide⟩
  pushTime := ⟨[], by decide⟩
  monthlypushTime := ⟨[], by decide⟩

theorem phone_plain : (Call.dbSetDev phone).Plain := by
  refine ⟨?_, ?_⟩ <;> decide +kernel

def copyable (engine : Engine) (value : SqlTables.Value) : Bool :=
  (engine.print value).any fun s => s.length ≠ 20

theorem copyable_iff {v : SqlTables.Value} : Copyable engine v ↔ copyable engine v = true := by
  simp only [Copyable, copyable, Option.any_eq_true, decide_eq_true_iff]

instance (v : SqlTables.Value) : Decidable (Copyable engine v) :=
  decidable_of_iff _ copyable_iff.symm

/-- A row with the message in both message columns, and with push times. -/
def pushedRow (message : List Char) : Row := fun column =>
  .text (if column = tokenColumn then "a1".toList
    else if column = "macaddress".toList then "aa".toList
    else if column = "ostype".toList then "ios".toList else message)

def pushedDevice : DevicePushInfo where
  deviceToken := phone.deviceToken
  macAddress := ⟨"aa".toList, by decide⟩
  osType := ⟨"ios".toList, by decide⟩
  message := ⟨"10%".toList, by decide⟩
  monthlymessage := ⟨"10%".toList, by decide⟩
  pushTime := ⟨"10%".toList, by decide⟩
  monthlypushTime := ⟨"10%".toList, by decide⟩

def onePushed : Database := fun name =>
  if name = deviceTable then
    some ⟨Field.all.map Field.column, fun _ => .null, [pushedRow "10%".toList]⟩
  else none

def onlyPushed : Devices :=
  Function.update (fun _ => none) phone.deviceToken (some (entry pushedDevice))

theorem onePushed_represents : Represents onePushed onlyPushed := by
  refine ⟨_, if_pos rfl, rfl, fun token => ?_⟩
  by_cases htoken : token = phone.deviceToken
  · subst htoken
    have hselected : selected (tokenIs phone.deviceToken) [pushedRow "10%".toList] =
        [pushedRow "10%".toList] := by
      rw [selected, List.filter_singleton]
      rfl
    rw [hselected, onlyPushed, Function.update_self]
    exact .present rfl (by decide +kernel) (by decide +kernel)
  · have hselected : selected (tokenIs token) [pushedRow "10%".toList] = [] := by
      have hne := value_ne (Ne.symm htoken)
      rw [selected, List.filter_eq_nil_iff]
      intro row hrow hholds
      obtain rfl := List.mem_singleton.mp hrow
      exact hne (of_decide_eq_true hholds)
    rw [hselected, onlyPushed, Function.update_of_ne htoken]
    exact .absent

/-- The device gets other values, is read with its push times, and goes. No device has the MAC
that is deleted. -/
theorem phone_comes_and_goes :
    let calls := [.dbSetDev phone, .dbGetDev phone.deviceToken pushedDevice,
      .dbDelDevByMac pushedDevice.macAddress, .dbDelDevByToken phone.deviceToken]
    ∃ db' answers, execCalls fragment onePushed calls = some (db', answers) ∧
      Devices.Served onlyPushed calls answers ∧
      Represents db' (calls.foldl Devices.after onlyPushed) := by
  intro calls
  refine execCalls_represents fragment calls onePushed _ onePushed_represents ?_
  have htoken : '\'' ∉ phone.deviceToken.chars := by decide +kernel
  have hmac : '\'' ∉ pushedDevice.macAddress.chars := by decide +kernel
  have hread : ∀ m r, (Call.dbSetDev phone).exec fragment onePushed = some r →
      Careful fragment r.1 m (.dbGetDev phone.deviceToken pushedDevice) := by
    have hcheck : ((Call.dbSetDev phone).exec fragment onePushed).all (fun r =>
        (deviceRows r.1 phone.deviceToken).all fun row =>
          copyable fragment (row (lower Field.pushTime.column)) &&
            copyable fragment (row (lower Field.monthlyPushTime.column))) = true := by
      decide +kernel
    intro m r hr row hrow
    rw [hr, Option.all_some] at hcheck
    have hcopyable := List.all_eq_true.mp hcheck row hrow
    rw [Bool.and_eq_true] at hcopyable
    exact ⟨copyable_iff.mpr hcopyable.1, copyable_iff.mpr hcopyable.2⟩
  have hother : ∀ token e, onlyPushed.after (.dbSetDev phone) token = some e →
      e.macAddress ≠ pushedDevice.macAddress := by
    intro token e he
    rw [Devices.after, onlyPushed, Function.update_idem, Function.update_apply] at he
    split at he
    · obtain rfl := Option.some_inj.mp he
      decide
    · cases he
  refine .cons phone_plain ?_ trivial fun r hr => .cons htoken ?_ (hread _ r hr) fun _ _ =>
    .cons hmac ?_ hother fun _ _ => .cons htoken ?_ trivial fun _ _ => .nil _ _
  all_goals
    unfold Call.Short
    decide +kernel

/-- The deletion by MAC leaves the device, and a device without push times cannot be read. -/
theorem phone_stays_and_is_not_read :
    Represents noDevices (fun _ => none) ∧ (Call.dbSetDev phone).Plain ∧
    (∃ r, execCalls fragment noDevices [.dbSetDev phone, .dbDelDevByMac phone.macAddress] = some r ∧
      (deviceRows r.1 phone.deviceToken).length = 1 ∧
      [Call.dbSetDev phone, .dbDelDevByMac phone.macAddress].foldl Devices.after (fun _ => none)
        phone.deviceToken = none) ∧
    execCalls fragment noDevices [.dbSetDev phone, .dbGetDev phone.deviceToken phone] = none := by
  have hcheck : (execCalls fragment noDevices
      [.dbSetDev phone, .dbDelDevByMac phone.macAddress]).any
        (fun r => (deviceRows r.1 phone.deviceToken).length == 1) = true := by decide +kernel
  obtain ⟨r, hr, hrows⟩ := (Option.any_eq_true _ _).mp hcheck
  have hgone : [Call.dbSetDev phone, .dbDelDevByMac phone.macAddress].foldl Devices.after
      (fun _ => none) phone.deviceToken = none := by decide +kernel
  refine ⟨noDevices_represents, phone_plain, ?_, by decide +kernel⟩
  exact ⟨r, hr, beq_iff_eq.mp hrows, hgone⟩

end DbDevices
