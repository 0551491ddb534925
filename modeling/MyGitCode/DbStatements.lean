import MyGitCode.CText
import MyGitCode.DbEscape
import MyGitCode.SqlTables

/-! # The statements that the interface builds

Each function writes its statement with `sprintf` into an array of 256 bytes. Only the two
messages of a device are escaped. -/
namespace DbStatements

open CText CFormat SqlTokens SqlStatements SqlTables DbEscape

def noError : ℤ := 0

def fail : ℤ := 1

/-- `e_paramtype_type`. -/
inductive ParamType where
  | u8 | bool | u16 | int | u32 | u64 | i64 | str | enum | null | f32 | object | objectData
  | arrayData | max
  deriving DecidableEq, Repr

/-- What a `void *` of each type points to. A `boolean` is an unsigned byte. -/
abbrev ParamType.Value : ParamType → Type
  | .u8 | .bool => BitVec 8
  | .u16 => BitVec 16
  | .int | .enum | .u32 => BitVec 32
  | .u64 | .i64 => BitVec 64
  | .str => List Char
  | .null | .f32 | .object | .objectData | .arrayData | .max => Unit

structure DevicePushInfo where
  deviceToken : Text 128
  macAddress : Text 20
  osType : Text 20
  message : Text 256
  monthlymessage : Text 256
  pushTime : Text 20
  monthlypushTime : Text 20
  deriving DecidableEq

/-- A table name that can stand in a statement without quotes. -/
structure TableName where
  chars : List Char
  word : IsWord chars
  name : IsName (lower chars)

structure Command where
  format : List Char
  args : List Arg
  deriving DecidableEq, Repr

def Command.text (c : Command) : Option (List Char) := sprintfInto 256 c.format c.args

def selectValue (tblName key : List Char) : Command :=
  ⟨"select value from %s where items = '%s'".toList, [.s tblName, .s key]⟩

def updateItemString (tblName key : List Char) (value : List Char) : Command :=
  ⟨"update %s set value='%s' where items = '%s';".toList, [.s tblName, .s value, .s key]⟩

def updateItemInt (tblName key : List Char) (value : ℤ) : Command :=
  ⟨"update %s set value='%d' where items = '%s';".toList, [.s tblName, .d value, .s key]⟩

def updateItemUint64 (tblName key : List Char) (value : ℕ) : Command :=
  ⟨"update %s set value='%llu' where items = '%s';".toList, [.s tblName, .llu value, .s key]⟩

/-- There is no statement for the other types. -/
def updateValue (tblName key : List Char) : (type : ParamType) → type.Value → Option Command
  | .u8, v | .bool, v => some (updateItemInt tblName key v.toNat)
  | .int, v | .enum, v => some (updateItemInt tblName key v.toInt)
  | .u64, v => some (updateItemUint64 tblName key v.toNat)
  | .str, v => some (updateItemString tblName key v)
  | .u16, _ | .u32, _ | .i64, _ | .null, _ | .f32, _ | .object, _ | .objectData, _
  | .arrayData, _ | .max, _ => none

def insertRecord (tblName key : List Char) : (type : ParamType) → type.Value → Option Command
  | .u8, v =>
    some ⟨"insert into %s(items,value ) values('%s', '%d');".toList,
      [.s tblName, .s key, .d v.toNat]⟩
  | .bool, v =>
    some ⟨"insert into %s(items,value) values('%s', '%d');".toList,
      [.s tblName, .s key, .d v.toNat]⟩
  | .int, v | .enum, v =>
    some ⟨"insert into %s(items,value) values('%s', '%d');".toList,
      [.s tblName, .s key, .d v.toInt]⟩
  | .u64, v =>
    some ⟨"insert into %s(items,value) values('%s', '%llu');".toList,
      [.s tblName, .s key, .llu v.toNat]⟩
  | .str, v =>
    some ⟨"insert into %s(items,value) values('%s', '%s');".toList,
      [.s tblName, .s key, .s v, .s v]⟩
  | .u16, _ | .u32, _ | .i64, _ | .null, _ | .f32, _ | .object, _ | .objectData, _
  | .arrayData, _ | .max, _ => none

/-- The record is found by the value. The key is not used. -/
def deleteRecord (tblName _key : List Char) : (type : ParamType) → type.Value → Option Command
  | .u8, v | .bool, v =>
    some ⟨"delete from %s where items='%d'".toList, [.s tblName, .d v.toNat]⟩
  | .int, v | .enum, v =>
    some ⟨"delete from %s where items='%d'".toList, [.s tblName, .d v.toInt]⟩
  | .u64, v => some ⟨"delete from %s where items='%llu'".toList, [.s tblName, .llu v.toNat]⟩
  | .str, v => some ⟨"delete from %s where items='%s'".toList, [.s tblName, .s v]⟩
  | .u16, _ | .u32, _ | .i64, _ | .null, _ | .f32, _ | .object, _ | .objectData, _
  | .arrayData, _ | .max, _ => none

def escapeMessage (message : Text 256) : List Char :=
  (encodeEscapeString message.chars 256).getD []

@[irreducible] def selectDeviceFormat : List Char :=
  "SELECT * FROM DevicePushInfo WHERE DeviceToken='%s'".toList

@[irreducible] def insertDeviceFormat : List Char :=
  "INSERT INTO DevicePushInfo(DeviceToken, ".toList ++ "MacAddress, OSType, Message, ".toList ++
    "MonthlyMessage) VALUES('%s', ".toList ++ "'%s', '%s', '%s', '%s')".toList

@[irreducible] def updateDeviceFormat : List Char :=
  "UPDATE DevicePushInfo SET MacAddress='%s', ".toList ++ "OSType='%s', Message='%s', ".toList ++
    "MonthlyMessage='%s' WHERE DeviceToken='%s'".toList

@[irreducible] def delDevByMacFormat : List Char :=
  "DELETE FROM DevicePushInfo WHERE MacAdress='%s'".toList

@[irreducible] def delDevByTokenFormat : List Char :=
  "DELETE FROM DevicePushInfo WHERE DeviceToken='%s'".toList

def selectDevicePushInfo (deviceToken : List Char) : Command :=
  ⟨selectDeviceFormat, [.s deviceToken]⟩

def insertDevicePushInfo (info : DevicePushInfo) : Command :=
  ⟨insertDeviceFormat, [.s info.deviceToken.chars, .s info.macAddress.chars, .s info.osType.chars,
    .s (escapeMessage info.message), .s (escapeMessage info.monthlymessage)]⟩

def updateDevicePushInfo (info : DevicePushInfo) : Command :=
  ⟨updateDeviceFormat, [.s info.macAddress.chars, .s info.osType.chars,
    .s (escapeMessage info.message), .s (escapeMessage info.monthlymessage),
    .s info.deviceToken.chars]⟩

def delDevByMac (macAddress : List Char) : Command := ⟨delDevByMacFormat, [.s macAddress]⟩

def delDevByToken (deviceToken : List Char) : Command := ⟨delDevByTokenFormat, [.s deviceToken]⟩

def items : Name := "items".toList

def valueColumn : Name := "value".toList

def deviceTable : Name := "devicepushinfo".toList

def tokenColumn : Name := "devicetoken".toList

def deviceColumns : List Name :=
  ["macaddress".toList, "ostype".toList, "message".toList, "monthlymessage".toList]

def DevicePushInfo.fields (info : DevicePushInfo) : List Literal :=
  [.text info.macAddress.chars, .text info.osType.chars, .text (escapeMessage info.message),
    .text (escapeMessage info.monthlymessage)]

def selectValueStmt (tblName key : List Char) : Stmt :=
  .select (.column valueColumn) (lower tblName) (some (items, .text key))

def updateValueStmt (tblName key text : List Char) : Stmt :=
  .update (lower tblName) [(valueColumn, .text text)] (some (items, .text key))

def insertRecordStmt (tblName key text : List Char) : Stmt :=
  .insert (lower tblName) [items, valueColumn] [.text key, .text text]

def deleteRecordStmt (tblName text : List Char) : Stmt :=
  .delete (lower tblName) (some (items, .text text))

def selectDeviceStmt (deviceToken : List Char) : Stmt :=
  .select .all deviceTable (some (tokenColumn, .text deviceToken))

def insertDeviceStmt (info : DevicePushInfo) : Stmt :=
  .insert deviceTable (tokenColumn :: deviceColumns) (.text info.deviceToken.chars :: info.fields)

def updateDeviceStmt (info : DevicePushInfo) : Stmt :=
  .update deviceTable (deviceColumns.zip info.fields)
    (some (tokenColumn, .text info.deviceToken.chars))

def deleteDeviceStmt (column : Name) (text : List Char) : Stmt :=
  .delete deviceTable (some (column, .text text))

def written : (type : ParamType) → type.Value → Option (List Char)
  | .u8, v | .bool, v => some (decimal v.toNat)
  | .int, v | .enum, v => some (decimal v.toInt)
  | .u64, v => some (decimal v.toNat)
  | .str, v => some v
  | .u16, _ | .u32, _ | .i64, _ | .null, _ | .f32, _ | .object, _ | .objectData, _
  | .arrayData, _ | .max, _ => none

variable {tbl : TableName} {key text token mac : List Char} {info : DevicePushInfo}

theorem quote_not_mem_decimal {z : ℤ} : '\'' ∉ decimal z := not_mem_decimal (by decide) (by decide)

theorem quote_not_mem_escapeMessage (message : Text 256) : '\'' ∉ escapeMessage message :=
  quote_not_mem_encodeLoop List.not_mem_nil

theorem run_table (tbl : TableName) {pre post : List Char} {ts ts' : List Token}
    (hpre : run .blank pre = some (ts, .blank)) (hpost : run .blank post = some (ts', .blank))
    (hc : ∃ c rest, post = c :: rest ∧ isWordChar c = false ∧ c ≠ '\'') :
    run .blank (pre ++ (tbl.chars ++ post)) =
      some (ts ++ .word (lower tbl.chars) :: ts', .blank) := by
  obtain ⟨c, rest, rfl, hword, hquote⟩ := hc
  rw [run_append hpre, run_name tbl.word hword hquote, hpost]
  rfl

def closedSlot (lead : List Char) (out : List Token) (value : List Char)
    (h : run .blank lead = some (out, .blank)) (hquote : ∃ c rest, lead = c :: rest ∧ c ≠ '\'') :
    Slot :=
  ⟨lead, out, value, h, hquote⟩

def tableSlot (tbl : TableName) (pre post : List Char) (ts ts' : List Token) (value : List Char)
    (hpre : run .blank pre = some (ts, .blank)) (hpost : run .blank post = some (ts', .blank))
    (hc : ∃ c rest, post = c :: rest ∧ isWordChar c = false ∧ c ≠ '\'')
    (hquote : ∃ c rest, pre = c :: rest ∧ c ≠ '\'') : Slot where
  lead := pre ++ (tbl.chars ++ post)
  out := ts ++ .word (lower tbl.chars) :: ts'
  value := value
  run_lead := run_table tbl hpre hpost hc
  not_quote := by
    obtain ⟨c, rest, rfl, hne⟩ := hquote
    exact ⟨c, _, rfl, hne⟩

def itemSlot (key : List Char) : Slot :=
  closedSlot " where items = ".toList [keyword "where", .word items, .symbol '='] key
    (by decide +kernel) ⟨' ', _, rfl, by decide⟩

def commaSlot (text : List Char) : Slot :=
  closedSlot ", ".toList [.symbol ','] text (by decide +kernel) ⟨',', _, rfl, by decide⟩

def Command.written (c : Command) : List Char := sprintf c.format c.args

theorem text_eq_some {c : Command} {s : List Char} :
    c.text = some s ↔ c.written.length < 256 ∧ c.written = s :=
  sprintfInto_eq_some

example : (selectValue "T".toList "key".toList).text =
    some "select value from T where items = 'key'".toList := by decide +kernel

theorem spells_selectValue :
    Spells (selectValue tbl.chars key).written (selectValueStmt tbl.chars key) ↔ '\'' ∉ key := by
  have hformat : "select value from %s where items = '%s'".toList = formatOf
      [("select value from ".toList, .s), (" where items = ".toList ++ ['\''], .s)] ['\''] := by
    decide +kernel
  let slot := tableSlot tbl "select value from ".toList " where items = ".toList
    [keyword "select", .word valueColumn, keyword "from"]
    [keyword "where", .word items, .symbol '='] key (by decide +kernel) (by decide +kernel)
    ⟨' ', _, rfl, by decide⟩ ⟨'s', _, rfl, by decide⟩
  have hfill : filled [("select value from ".toList, .s), (" where items = ".toList ++ ['\''], .s)]
      [.s tbl.chars, .s key] ['\''] = fill [slot] [] := by
    simp only [filled, fill, slot, tableSlot, Arg.text, List.append_assoc, List.cons_append,
      List.nil_append]
  have hspells : Spells (selectValue tbl.chars key).written (selectValueStmt tbl.chars key) ↔ _ :=
    spells_sprintf_iff hformat (by decide +kernel) rfl hfill (by simp) rfl (.inl rfl)
  rw [hspells, List.forall_mem_singleton]
  rfl

def updatePieces (dir : Directive) : List (List Char × Directive) :=
  [("update ".toList, .s), (" set value=".toList ++ ['\''], dir),
    ('\'' :: (" where items = ".toList ++ ['\'']), .s)]

theorem updatePieces_plain (dir : Directive) :
    (∀ piece ∈ updatePieces dir, '%' ∉ piece.1) ∧ '%' ∉ ['\'', ';'] := by
  cases dir <;> decide +kernel

theorem update_formats :
    "update %s set value='%s' where items = '%s';".toList =
      formatOf (updatePieces .s) ['\'', ';'] ∧
    "update %s set value='%d' where items = '%s';".toList =
      formatOf (updatePieces .d) ['\'', ';'] ∧
    "update %s set value='%llu' where items = '%s';".toList =
      formatOf (updatePieces .llu) ['\'', ';'] := by
  decide +kernel

theorem spells_updateRecord {format : List Char} (arg : Arg) {dir : Directive}
    (hdir : arg.directive = dir) (hformat : format = formatOf (updatePieces dir) ['\'', ';']) :
    Spells (sprintf format [.s tbl.chars, arg, .s key]) (updateValueStmt tbl.chars key arg.text) ↔
      '\'' ∉ key ∧ '\'' ∉ arg.text := by
  let slot := tableSlot tbl "update ".toList " set value=".toList [keyword "update"]
    [keyword "set", .word valueColumn, .symbol '='] arg.text (by decide +kernel)
    (by decide +kernel) ⟨' ', _, rfl, by decide⟩ ⟨'u', _, rfl, by decide⟩
  have hfill : filled (updatePieces dir) [.s tbl.chars, arg, .s key] ['\'', ';'] =
      fill [slot, itemSlot key] [';'] := by
    simp only [filled, updatePieces, fill, slot, tableSlot, itemSlot, closedSlot, Arg.text,
      List.append_assoc, List.cons_append, List.nil_append]
  subst hdir
  have hspells := spells_sprintf_iff hformat (updatePieces_plain _) rfl hfill (by decide)
    (show (updateValueStmt tbl.chars key arg.text).tokens = _ from rfl) (.inr (by decide))
  rw [hspells, List.forall_mem_cons, List.forall_mem_singleton, and_comm]
  rfl

theorem spells_updateItemString : Spells (updateItemString tbl.chars key text).written
    (updateValueStmt tbl.chars key text) ↔ '\'' ∉ key ∧ '\'' ∉ text := by
  exact spells_updateRecord (.s text) rfl update_formats.1

theorem spells_updateItemInt {z : ℤ} : Spells (updateItemInt tbl.chars key z).written
    (updateValueStmt tbl.chars key (decimal z)) ↔ '\'' ∉ key := by
  exact (spells_updateRecord (.d z) rfl update_formats.2.1).trans
    (and_iff_left quote_not_mem_decimal)

theorem spells_updateItemUint64 {n : ℕ} : Spells (updateItemUint64 tbl.chars key n).written
    (updateValueStmt tbl.chars key (decimal n)) ↔ '\'' ∉ key := by
  have hquote : '\'' ∉ decimal n := quote_not_mem_decimal
  exact (spells_updateRecord (.llu n) rfl update_formats.2.2).trans (and_iff_left hquote)

theorem updateValue_cases (tbl : TableName) (key : List Char) (type : ParamType)
    (value : type.Value) :
    (written type value = none ∧ updateValue tbl.chars key type value = none) ∨
    ∃ text c, written type value = some text ∧ updateValue tbl.chars key type value = some c ∧
      (Spells c.written (updateValueStmt tbl.chars key text) ↔ '\'' ∉ key ∧ '\'' ∉ text) := by
  have hnumber {p q : Prop} {z : ℤ} (h : p ↔ q) : p ↔ q ∧ '\'' ∉ decimal z :=
    h.trans (and_iff_left quote_not_mem_decimal).symm
  cases type with
  | u8 | bool | int | enum => exact .inr ⟨_, _, rfl, rfl, hnumber spells_updateItemInt⟩
  | u64 => exact .inr ⟨_, _, rfl, rfl, hnumber spells_updateItemUint64⟩
  | str => exact .inr ⟨_, _, rfl, rfl, spells_updateItemString⟩
  | u16 | u32 | i64 | null | f32 | object | objectData | arrayData | max => exact .inl ⟨rfl, rfl⟩

def insertPieces (columns : List Char) (dir : Directive) : List (List Char × Directive) :=
  [("insert into ".toList, .s), (columns ++ ['\''], .s), ('\'' :: (", ".toList ++ ['\'']), dir)]

def insertTokens : List Token :=
  [.symbol '(', .word items, .symbol ',', .word valueColumn, .symbol ')', keyword "values",
    .symbol '(']

theorem spells_insertRecord {format columns : List Char} (arg : Arg) {dir : Directive}
    (hdir : arg.directive = dir)
    (hformat : format = formatOf (insertPieces columns dir) ('\'' :: ");".toList))
    (hrun : run .blank columns = some (insertTokens, .blank)) (hhead : columns.head? = some '(')
    (hplain : '%' ∉ columns) (extra : List Arg) :
    Spells (sprintf format ([.s tbl.chars, .s key, arg] ++ extra))
      (insertRecordStmt tbl.chars key arg.text) ↔ '\'' ∉ key ∧ '\'' ∉ arg.text := by
  obtain ⟨rest, rfl⟩ := List.head?_eq_some_iff.mp hhead
  let slot := tableSlot tbl "insert into ".toList _ [keyword "insert", keyword "into"]
    insertTokens key (by decide +kernel) hrun ⟨'(', _, rfl, by decide⟩ ⟨'i', _, rfl, by decide⟩
  have hfill : filled (insertPieces ('(' :: rest) dir)
      ([.s tbl.chars, .s key, arg] ++ extra) ('\'' :: ");".toList) =
        fill [slot, commaSlot arg.text] ");".toList := by
    simp only [filled, insertPieces, fill, slot, tableSlot, commaSlot, closedSlot, Arg.text,
      List.append_assoc, List.cons_append, List.nil_append]
  have hpieces : (∀ piece ∈ insertPieces ('(' :: rest) dir, '%' ∉ piece.1) ∧
      '%' ∉ '\'' :: ");".toList := by
    refine ⟨?_, by decide⟩
    simp only [insertPieces, List.forall_mem_cons, List.mem_append, not_or]
    exact ⟨by decide, ⟨hplain, by decide⟩, by decide, by simp⟩
  subst hdir
  have hspells := spells_sprintf_iff hformat hpieces rfl hfill (by decide)
    (show (insertRecordStmt tbl.chars key arg.text).tokens = _ from rfl) (.inr (by decide))
  rw [hspells, List.forall_mem_cons, List.forall_mem_singleton]
  rfl

def deletePieces (dir : Directive) : List (List Char × Directive) :=
  [("delete from ".toList, .s), (" where items=".toList ++ ['\''], dir)]

theorem spells_deleteRecord {format : List Char} (arg : Arg) {dir : Directive}
    (hdir : arg.directive = dir) (hformat : format = formatOf (deletePieces dir) ['\'']) :
    Spells (sprintf format [.s tbl.chars, arg]) (deleteRecordStmt tbl.chars arg.text) ↔
      '\'' ∉ arg.text := by
  let slot := tableSlot tbl "delete from ".toList " where items=".toList
    [keyword "delete", keyword "from"] [keyword "where", .word items, .symbol '='] arg.text
    (by decide +kernel) (by decide +kernel) ⟨' ', _, rfl, by decide⟩ ⟨'d', _, rfl, by decide⟩
  have hfill : filled (deletePieces dir) [.s tbl.chars, arg] ['\''] = fill [slot] [] := by
    simp only [filled, deletePieces, fill, slot, tableSlot, Arg.text, List.append_assoc,
      List.cons_append, List.nil_append]
  have hplain : (∀ piece ∈ deletePieces dir, '%' ∉ piece.1) ∧ '%' ∉ ['\''] := by
    cases dir <;> decide +kernel
  subst hdir
  have hspells := spells_sprintf_iff hformat hplain rfl hfill (by simp)
    (show (deleteRecordStmt tbl.chars arg.text).tokens = _ from rfl) (.inl rfl)
  rw [hspells, List.forall_mem_singleton]
  rfl

example : (deleteRecord "T".toList [] .str "it's".toList).map Command.written =
    some "delete from T where items='it's'".toList := by decide +kernel

def selectDeviceSlots (token : List Char) : List Slot :=
  [closedSlot "SELECT * FROM DevicePushInfo WHERE DeviceToken=".toList
    [keyword "select", .symbol '*', keyword "from", .word deviceTable, keyword "where",
      .word tokenColumn, .symbol '='] token (by decide +kernel) ⟨'S', _, rfl, by decide⟩]

theorem spells_selectDevice :
    Spells (selectDevicePushInfo token).written (selectDeviceStmt token) ↔ '\'' ∉ token := by
  have hformat : selectDeviceFormat = formatOf
      [("SELECT * FROM DevicePushInfo WHERE DeviceToken=".toList ++ ['\''], .s)] ['\''] := by
    decide +kernel
  have hfill : filled [("SELECT * FROM DevicePushInfo WHERE DeviceToken=".toList ++ ['\''], .s)]
      [.s token] ['\''] = fill (selectDeviceSlots token) [] := by
    simp only [filled, selectDeviceSlots, fill, closedSlot, Arg.text, List.append_assoc,
      List.cons_append, List.nil_append]
  have hspells := spells_sprintf_iff hformat (by decide +kernel) rfl hfill (by simp)
    (show (selectDeviceStmt token).tokens = _ from rfl) (.inl rfl)
  refine Iff.trans hspells ?_
  rw [selectDeviceSlots, List.forall_mem_singleton]
  rfl

def insertDeviceLead : List Char :=
  "INSERT INTO DevicePushInfo(DeviceToken, ".toList ++ "MacAddress, OSType, Message, ".toList ++
    "MonthlyMessage) VALUES(".toList

def insertDevicePieces : List (List Char × Directive) :=
  (insertDeviceLead ++ ['\''], .s) :: List.replicate 4 ('\'' :: (", ".toList ++ ['\'']), .s)

def insertDeviceSlots (info : DevicePushInfo) : List Slot :=
  [closedSlot insertDeviceLead
      ([keyword "insert", keyword "into", .word deviceTable, .symbol '('] ++
        commas (fun c => [.word c]) (tokenColumn :: deviceColumns) ++
          [.symbol ')', keyword "values", .symbol '('])
      info.deviceToken.chars (by decide +kernel) ⟨'I', _, rfl, by decide⟩,
    commaSlot info.macAddress.chars, commaSlot info.osType.chars,
    commaSlot (escapeMessage info.message), commaSlot (escapeMessage info.monthlymessage)]

theorem insertDevice_format :
    insertDeviceFormat = formatOf insertDevicePieces ['\'', ')'] ∧
      (∀ piece ∈ insertDevicePieces, '%' ∉ piece.1) ∧ '%' ∉ ['\'', ')'] := by
  decide +kernel

theorem spells_insertDevice : Spells (insertDevicePushInfo info).written (insertDeviceStmt info) ↔
    '\'' ∉ info.deviceToken.chars ∧ '\'' ∉ info.macAddress.chars ∧ '\'' ∉ info.osType.chars := by
  have hfill : filled insertDevicePieces (insertDevicePushInfo info).args ['\'', ')'] =
      fill (insertDeviceSlots info) [')'] := by
    simp only [filled, insertDevicePieces, insertDevicePushInfo, insertDeviceSlots, fill,
      closedSlot, commaSlot, Arg.text, List.replicate, List.append_assoc, List.cons_append,
      List.nil_append]
  have hspells := spells_sprintf_iff insertDevice_format.1 insertDevice_format.2 rfl hfill
    (by decide) (show (insertDeviceStmt info).tokens = _ from rfl) (.inl (by decide))
  refine Iff.trans hspells ?_
  simp [insertDeviceSlots, closedSlot, commaSlot, quote_not_mem_escapeMessage]

def updateDevicePieces : List (List Char × Directive) :=
  [("UPDATE DevicePushInfo SET MacAddress=".toList ++ ['\''], .s),
    ('\'' :: (", OSType=".toList ++ ['\'']), .s), ('\'' :: (", Message=".toList ++ ['\'']), .s),
    ('\'' :: (", MonthlyMessage=".toList ++ ['\'']), .s),
    ('\'' :: (" WHERE DeviceToken=".toList ++ ['\'']), .s)]

def updateDeviceSlots (info : DevicePushInfo) : List Slot :=
  [closedSlot "UPDATE DevicePushInfo SET MacAddress=".toList
      [keyword "update", .word deviceTable, keyword "set", .word "macaddress".toList, .symbol '=']
      info.macAddress.chars (by decide +kernel) ⟨'U', _, rfl, by decide⟩,
    closedSlot ", OSType=".toList [.symbol ',', .word "ostype".toList, .symbol '=']
      info.osType.chars (by decide +kernel) ⟨',', _, rfl, by decide⟩,
    closedSlot ", Message=".toList [.symbol ',', .word "message".toList, .symbol '=']
      (escapeMessage info.message) (by decide +kernel) ⟨',', _, rfl, by decide⟩,
    closedSlot ", MonthlyMessage=".toList [.symbol ',', .word "monthlymessage".toList, .symbol '=']
      (escapeMessage info.monthlymessage) (by decide +kernel) ⟨',', _, rfl, by decide⟩,
    closedSlot " WHERE DeviceToken=".toList [keyword "where", .word tokenColumn, .symbol '=']
      info.deviceToken.chars (by decide +kernel) ⟨' ', _, rfl, by decide⟩]

theorem updateDevice_format :
    updateDeviceFormat = formatOf updateDevicePieces ['\''] ∧
      (∀ piece ∈ updateDevicePieces, '%' ∉ piece.1) ∧ '%' ∉ ['\''] := by
  decide +kernel

theorem spells_updateDevice : Spells (updateDevicePushInfo info).written (updateDeviceStmt info) ↔
    '\'' ∉ info.macAddress.chars ∧ '\'' ∉ info.osType.chars ∧ '\'' ∉ info.deviceToken.chars := by
  have hfill : filled updateDevicePieces (updateDevicePushInfo info).args ['\''] =
      fill (updateDeviceSlots info) [] := by
    simp only [filled, updateDevicePieces, updateDevicePushInfo, updateDeviceSlots, fill,
      closedSlot, Arg.text, List.append_assoc, List.cons_append, List.nil_append]
  have hspells := spells_sprintf_iff updateDevice_format.1 updateDevice_format.2 rfl hfill
    (by simp) (show (updateDeviceStmt info).tokens = _ from rfl) (.inl rfl)
  refine Iff.trans hspells ?_
  simp [updateDeviceSlots, closedSlot, quote_not_mem_escapeMessage]

def macColumn : Name := "macadress".toList

theorem spells_deleteDevice {format lead : List Char} {column : Name}
    (hformat : format = formatOf [(lead ++ ['\''], .s)] ['\'']) (hplain : '%' ∉ lead)
    (hrun : run .blank lead = some ([keyword "delete", keyword "from", .word deviceTable,
      keyword "where", .word column, .symbol '='], .blank))
    (hquote : ∃ c rest, lead = c :: rest ∧ c ≠ '\'') :
    Spells (sprintf format [.s text]) (deleteDeviceStmt column text) ↔ '\'' ∉ text := by
  have hfill : filled [(lead ++ ['\''], .s)] [.s text] ['\''] =
      fill [closedSlot lead _ text hrun hquote] [] := by
    simp only [filled, fill, closedSlot, Arg.text, List.append_assoc, List.cons_append,
      List.nil_append]
  have hspells := spells_sprintf_iff hformat (by simp [hplain]) rfl hfill (by simp)
    (show (deleteDeviceStmt column text).tokens = _ from rfl) (.inl rfl)
  rw [hspells, List.forall_mem_singleton]
  rfl

theorem spells_delDevByMac :
    Spells (delDevByMac mac).written (deleteDeviceStmt macColumn mac) ↔ '\'' ∉ mac := by
  have hformat : delDevByMacFormat =
      formatOf [("DELETE FROM DevicePushInfo WHERE MacAdress=".toList ++ ['\''], .s)] ['\''] := by
    decide +kernel
  exact spells_deleteDevice hformat (by decide +kernel) (by decide +kernel) ⟨'D', _, rfl, by decide⟩

theorem spells_delDevByToken :
    Spells (delDevByToken token).written (deleteDeviceStmt tokenColumn token) ↔ '\'' ∉ token := by
  have hformat : delDevByTokenFormat =
      formatOf [("DELETE FROM DevicePushInfo WHERE DeviceToken=".toList ++ ['\''], .s)] ['\''] := by
    decide +kernel
  exact spells_deleteDevice hformat (by decide +kernel) (by decide +kernel) ⟨'D', _, rfl, by decide⟩

example : (delDevByToken "it's".toList).text =
    some "DELETE FROM DevicePushInfo WHERE DeviceToken='it's'".toList := by decide +kernel

theorem isName_names :
    ∀ name ∈ [items, valueColumn, deviceTable, macColumn, tokenColumn] ++ deviceColumns,
      IsName name := by
  decide +kernel

theorem isName_items : IsName items := isName_names _ (by simp)

theorem isName_valueColumn : IsName valueColumn := isName_names _ (by simp)

theorem isName_deviceTable : IsName deviceTable := isName_names _ (by simp)

theorem isName_macColumn : IsName macColumn := isName_names _ (by simp)

theorem isName_tokenColumn : IsName tokenColumn := isName_names _ (by simp)

theorem isName_deviceColumns (name : Name) (h : name ∈ deviceColumns) : IsName name :=
  isName_names _ (List.mem_append_right _ h)

theorem selectValueStmt_wf : (selectValueStmt tbl.chars key).Wf where
  proper := trivial
  names := by
    simp [selectValueStmt, Stmt.names, Columns.names, condNames, tbl.name, isName_items,
      isName_valueColumn]
  columns := by simp [selectValueStmt]

theorem updateValueStmt_wf : (updateValueStmt tbl.chars key text).Wf where
  proper := List.cons_ne_nil _ _
  names := by
    simp [updateValueStmt, Stmt.names, condNames, tbl.name, isName_items, isName_valueColumn]
  columns := by simp [updateValueStmt]

theorem insertRecordStmt_wf : (insertRecordStmt tbl.chars key text).Wf where
  proper := ⟨List.cons_ne_nil _ _, List.cons_ne_nil _ _⟩
  names := by
    simp [insertRecordStmt, Stmt.names, tbl.name, isName_items, isName_valueColumn]
  columns := by
    rintro _ _ _ ⟨⟩
    decide +kernel

theorem deleteRecordStmt_wf : (deleteRecordStmt tbl.chars text).Wf where
  proper := trivial
  names := by simp [deleteRecordStmt, Stmt.names, condNames, tbl.name, isName_items]
  columns := by simp [deleteRecordStmt]

theorem selectDeviceStmt_wf : (selectDeviceStmt token).Wf where
  proper := trivial
  names := by
    simp [selectDeviceStmt, Stmt.names, Columns.names, condNames, isName_deviceTable,
      isName_tokenColumn]
  columns := by simp [selectDeviceStmt]

theorem insertDeviceStmt_wf : (insertDeviceStmt info).Wf where
  proper := ⟨List.cons_ne_nil _ _, List.cons_ne_nil _ _⟩
  names := by
    show ∀ name ∈ deviceTable :: tokenColumn :: deviceColumns, IsName name
    rw [List.forall_mem_cons, List.forall_mem_cons]
    exact ⟨isName_deviceTable, isName_tokenColumn, isName_deviceColumns⟩
  columns := by
    rintro _ _ _ ⟨⟩
    decide +kernel

theorem updateDeviceStmt_wf : (updateDeviceStmt info).Wf where
  proper := List.cons_ne_nil _ _
  names := by
    show ∀ name ∈ deviceTable :: (deviceColumns ++ [tokenColumn]), IsName name
    rw [List.forall_mem_cons, List.forall_mem_append, List.forall_mem_singleton]
    exact ⟨isName_deviceTable, isName_deviceColumns, isName_tokenColumn⟩
  columns := by simp [updateDeviceStmt]

theorem deleteDeviceStmt_wf {column : Name} (h : IsName column) :
    (deleteDeviceStmt column text).Wf where
  proper := trivial
  names := by simp [deleteDeviceStmt, Stmt.names, condNames, isName_deviceTable, h]
  columns := by simp [deleteDeviceStmt]

/-- `opened` tells whether `open_sqlite_db` gets the database open. -/
def dbExecCmd (engine : Engine) (opened : Bool) (db : Database) (sqlCmd : List Char) : Result :=
  if opened then engine.exec db sqlCmd else ⟨db, none⟩

def returnCode (r : Result) : ℤ := if r.rows.isSome then noError else fail

def searchByTable (engine : Engine) (opened : Bool) (db : Database) (sqlCmd : List Char) :
    Option (List (List (Name × Value))) :=
  if opened then (engine.exec db sqlCmd).rows else none

theorem dbExecCmd_eq {engine : Engine} {opened : Bool} {db : Database} {c : Command} {stmt : Stmt}
    (hwf : stmt.Wf) (hspells : Spells c.written stmt) :
    dbExecCmd engine opened db c.written = if opened then effect stmt db else ⟨db, none⟩ := by
  rw [dbExecCmd, engine.exec_spells _ _ _ hwf hspells]

end DbStatements
