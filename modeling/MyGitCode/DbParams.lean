import Mathlib.Data.BitVec
import MyGitCode.DbStatements

/-! # Parameter tables and the user database

The fields of a struct are written to the records of a table and read again. Which values come
back as they were. -/
namespace DbParams

open CFormat SqlTokens SqlStatements SqlTables DbStatements

@[ext] structure Key where
  chars : List Char
  plain : '\'' ∉ chars
  deriving DecidableEq

instance : (type : ParamType) → DecidableEq type.Value
  | .u8 | .bool | .u16 | .int | .enum | .u32 | .u64 | .i64 | .str | .null | .f32 | .object
  | .objectData | .arrayData | .max => inferInstance

structure Param where
  key : Key
  paramType : ParamType
  paramLen : ℤ
  paramId : ℤ
  param : paramType.Value
  deriving DecidableEq

def Param.assign (p : Param) (v : p.paramType.Value) : Param := { p with param := v }

structure ParamTable where
  tableName : TableName
  paramTable : List Param
  keys : (paramTable.map Param.key).Nodup

/-- A NULL pointer is read as zero. -/
def safeAtoi (nptr : Option (List Char)) : ℤ := nptr.elim 0 atoi

def safeAtoll (nptr : Option (List Char)) : ℤ := nptr.elim 0 atoll

def updateItemToDb (engine : Engine) (opened : Bool) (db : Database) (sqlCmd : List Char) :
    Database × ℤ :=
  if opened then
    let result := engine.exec db sqlCmd
    (result.db, if result.rows.isSome then noError else fail)
  else (db, fail)

/-- The selection by a key and the test of its result, which are the same in three functions. No
rows count as a failure. -/
def azResult (engine : Engine) (opened : Bool) (db : Database) (tblName : TableName) (key : Key) :
    Option (Option (List (Option (List Char)))) :=
  (selectValue tblName.chars key.chars).text.map fun sqlCmd =>
    (searchByTable engine opened db sqlCmd).bind fun rows =>
      if rows.length = 0 then none else some (engine.texts rows)

/-- The cases of `__db_query_db_init_struct`, with the field as it was before. A NULL pointer
cannot be copied, and an array of no bytes cannot be filled. -/
def readParam : (type : ParamType) → ℤ → Option (List Char) → type.Value → Option type.Value
  | .u8, _, text, _ | .bool, _, text, _ => some (BitVec.ofInt 8 (safeAtoi text))
  | .u16, _, text, _ => some (BitVec.ofInt 16 (safeAtoi text))
  | .int, _, text, _ | .enum, _, text, _ => some (BitVec.ofInt 32 (safeAtoi text))
  | .u64, _, text, _ => some (BitVec.ofInt 64 (safeAtoll text))
  | .str, len, text, _ => text.bind fun s => if 0 < len then some (s.take (len - 1).toNat) else none
  | .u32, _, _, before | .i64, _, _, before | .null, _, _, before | .f32, _, _, before
  | .object, _, _, before | .objectData, _, _, before | .arrayData, _, _, before
  | .max, _, _, before => some before

def readValue : (type : ParamType) → ℤ → Option (List Char) → type.Value → Option type.Value
  | .u16, _, _, before => some before
  | .u32, _, text, _ => some (BitVec.ofInt 32 (safeAtoi text))
  | type, len, text, before => readParam type len text before

/-- A turn of the loop of `__db_query_db_init_struct`. -/
def queryParam (engine : Engine) (opened : Bool) (db : Database) (tblName : TableName) (p : Param) :
    Option Param :=
  (azResult engine opened db tblName p.key).bind fun
    | none => some p
    | some texts => texts[1]?.bind fun text =>
      (readParam p.paramType p.paramLen text p.param).map p.assign

/-- The database is opened at each key anew. The selections do not change it. -/
def dbQueryDbInitStruct (engine : Engine) (opened : Key → Bool) (db : Database)
    (tblName : TableName) (params : List Param) : Option (List Param) :=
  params.mapM fun p => queryParam engine (opened p.key) db tblName p

/-- The parameters that the id of `__db_update_db_from_struct` selects. -/
def Updates (id : ℤ) (p : Param) : Prop := id = -1 ∨ id = p.paramId

instance (id : ℤ) (p : Param) : Decidable (Updates id p) := inferInstanceAs (Decidable (_ ∨ _))

/-- The loop of `__db_update_db_from_struct`. A type that has no case leaves `rc` at its value. -/
def updateLoop (engine : Engine) (opened : Key → Bool) (tblName : TableName) (id : ℤ) :
    List Param → Database → Option (Database × ℤ)
  | [], db => some (db, noError)
  | p :: rest, db =>
    if Updates id p then
      match updateValue tblName.chars p.key.chars p.paramType p.param with
      | none => updateLoop engine opened tblName id rest db
      | some c => c.text.bind fun sqlCmd =>
        let r := updateItemToDb engine (opened p.key) db sqlCmd
        if r.2 = noError then updateLoop engine opened tblName id rest r.1 else some r
    else updateLoop engine opened tblName id rest db

def dbUpdateDbFromStruct (engine : Engine) (opened : Key → Bool) (tbl : ParamTable) (id : ℤ)
    (db : Database) : Option (Database × ℤ) :=
  updateLoop engine opened tbl.tableName id tbl.paramTable db

def dbUpdateValue (engine : Engine) (opened : Bool) (db : Database) (tblName : TableName)
    (key : Key) (type : ParamType) (value : type.Value) : Option (Database × ℤ) :=
  match updateValue tblName.chars key.chars type value with
  | none => some (db, -1)
  | some c => c.text.map fun sqlCmd => updateItemToDb engine opened db sqlCmd

def dbGetValue (engine : Engine) (opened : Bool) (db : Database) (tblName : TableName) (key : Key)
    (type : ParamType) (len : ℤ) (before : type.Value) : Option (type.Value × ℤ) :=
  (azResult engine opened db tblName key).bind fun
    | none => some (before, -1)
    | some texts => texts[1]?.bind fun text =>
      (readValue type len text before).map fun v => (v, noError)

def stored (db : Database) (tblName : TableName) (key : Key) : Option SqlTables.Value :=
  (db (lower tblName.chars)).bind fun t =>
    if t.knows [valueColumn, items] then
      (selected (items, .text key.chars) t.rows).head?.map fun row => row valueColumn
    else none

/-- The value can be written and read: strings have no apostrophe and leave room for the NUL, and
the statements fit their arrays. -/
structure Storable (tblName : TableName) (key : Key) (type : ParamType) (len : ℤ)
    (value : type.Value) : Prop where
  plain : ∀ text ∈ written type value, '\'' ∉ text
  short : ∀ text ∈ written type value, type = .str → text.length < len
  select : (selectValue tblName.chars key.chars).written.length < 256
  update : ∀ c ∈ updateValue tblName.chars key.chars type value, c.written.length < 256

instance (tblName : TableName) (key : Key) (type : ParamType) (len : ℤ) (value : type.Value) :
    Decidable (Storable tblName key type len value) :=
  decidable_of_iff ((∀ text ∈ written type value, '\'' ∉ text) ∧
      (∀ text ∈ written type value, type = .str → text.length < len) ∧
      (selectValue tblName.chars key.chars).written.length < 256 ∧
      ∀ c ∈ updateValue tblName.chars key.chars type value, c.written.length < 256)
    ⟨fun h => ⟨h.1, h.2.1, h.2.2.1, h.2.2.2⟩, fun h => ⟨h.plain, h.short, h.select, h.update⟩⟩

def Readable : (type : ParamType) → type.Value → Prop
  | .u64, v => v.toNat < 2 ^ 63
  | _, _ => True

variable {engine : Engine} {opened : Bool} {db db' : Database} {tbl : TableName} {key key' : Key}
  {p : Param} {params : List Param} {id : ℤ} {type : ParamType} {len : ℤ} {value : type.Value}
  {text : List Char}

def found (opened : Bool) (db : Database) (tblName : TableName) (key : Key) :
    Option SqlTables.Value :=
  if opened then stored db tblName key else none

theorem exec_selectValue : engine.exec db (selectValue tbl.chars key.chars).written =
    effect (selectValueStmt tbl.chars key.chars) db :=
  engine.exec_spells _ _ _ selectValueStmt_wf (spells_selectValue.mpr key.plain)

theorem azResult_cases (hfit : (selectValue tbl.chars key.chars).written.length < 256) :
    (found opened db tbl key = none ∧ azResult engine opened db tbl key = some none) ∨
    ∃ v texts, found opened db tbl key = some v ∧
      azResult engine opened db tbl key = some (some texts) ∧
      texts[1]? = some (engine.print v) := by
  have htext := text_eq_some.mpr ⟨hfit, rfl⟩
  cases opened with
  | false => exact .inl ⟨rfl, by simp [azResult, htext, searchByTable]⟩
  | true =>
    have hrows : (effect (selectValueStmt tbl.chars key.chars) db).rows =
        (db (lower tbl.chars)).bind fun t =>
          if t.knows [valueColumn, items] then
            some (columnsOf t (.column valueColumn)
              (t.rows.filter (holds (some (items, .text key.chars)))))
          else none := effect_select_rows
    simp only [azResult, htext, found, searchByTable, exec_selectValue, if_true, Option.map_some,
      stored, hrows]
    cases db (lower tbl.chars) with
    | none => exact .inl ⟨rfl, rfl⟩
    | some t =>
      rw [Option.bind_some, Option.bind_some, selected]
      cases t.knows [valueColumn, items] with
      | false => exact .inl ⟨rfl, rfl⟩
      | true =>
        cases t.rows.filter (holds (some (items, .text key.chars))) with
        | nil => exact .inl ⟨rfl, rfl⟩
        | cons row rows => exact .inr ⟨_, _, rfl, rfl, texts_column⟩

theorem queryParam_eq (hfit : (selectValue tbl.chars p.key.chars).written.length < 256) :
    queryParam engine opened db tbl p =
      match found opened db tbl p.key with
      | none => some p
      | some v => (readParam p.paramType p.paramLen (engine.print v) p.param).map p.assign := by
  rw [queryParam]
  rcases azResult_cases hfit with ⟨hfound, hresult⟩ | ⟨v, texts, hfound, hresult, htexts⟩
  · rw [hfound, hresult]
    rfl
  · rw [hfound, hresult]
    simp only [Option.bind_some, htexts]

theorem dbGetValue_eq {before : type.Value}
    (hfit : (selectValue tbl.chars key.chars).written.length < 256) :
    dbGetValue engine opened db tbl key type len before =
      match found opened db tbl key with
      | none => some (before, -1)
      | some v => (readValue type len (engine.print v) before).map fun v => (v, noError) := by
  rw [dbGetValue]
  rcases azResult_cases hfit with ⟨hfound, hresult⟩ | ⟨v, texts, hfound, hresult, htexts⟩
  · rw [hfound, hresult]
    rfl
  · rw [hfound, hresult]
    simp only [Option.bind_some, htexts]

/-- The loop makes of every parameter what its turn makes of it. -/
theorem dbQueryDbInitStruct_iff {opened : Key → Bool} {after : List Param} :
    dbQueryDbInitStruct engine opened db tbl params = some after ↔
      List.Forall₂ (fun p q => queryParam engine (opened p.key) db tbl p = some q)
        params after := by
  rw [dbQueryDbInitStruct]
  induction params generalizing after with
  | nil => simp [eq_comm]
  | cons p params ih =>
    rw [List.mapM_cons]
    simp only [Option.bind_eq_bind, Option.bind_eq_some_iff, ih, Option.pure_def, Option.some.injEq,
      List.forall₂_cons_left_iff]
    constructor
    · rintro ⟨q, hq, rest, hrest, rfl⟩
      exact ⟨q, rest, hq, hrest, rfl⟩
    · rintro ⟨q, rest, hq, hrest, rfl⟩
      exact ⟨q, hq, rest, hrest, rfl⟩

/-- The text of a value is read as the value, unless the number is too large for the signed
parsing. -/
theorem readParam_written {before : type.Value} (hwritten : written type value = some text)
    (hshort : type = .str → text.length < len) :
    readParam type len (some text) before = some value ↔ Readable type value := by
  cases type with
  | u8 | bool =>
    obtain rfl := Option.some.inj hwritten
    have hlt := value.isLt
    have hread : atoi (decimal value.toNat) = value.toNat := atoi_decimal (by omega) (by omega)
    simp [readParam, safeAtoi, Readable, hread]
  | int | enum =>
    obtain rfl := Option.some.inj hwritten
    have hread : atoi (decimal value.toInt) = value.toInt :=
      atoi_decimal (BitVec.le_toInt value) (BitVec.toInt_lt)
    simp [readParam, safeAtoi, Readable, hread]
  | u64 =>
    obtain rfl := Option.some.inj hwritten
    have hlt := value.isLt
    simp only [readParam, safeAtoll, Option.elim_some, Option.some.injEq, Readable]
    rcases lt_or_ge value.toNat (2 ^ 63) with hsmall | hlarge
    · have hread : atoll (decimal value.toNat) = value.toNat := atoll_decimal (by omega) (by omega)
      simp only [hread, BitVec.ofInt_natCast, BitVec.ofNat_toNat, BitVec.setWidth_eq, hsmall]
    · refine iff_of_false (fun h => ?_) (by omega)
      rw [atoll_of_le (by rw [parseInt_decimal]; omega)] at h
      have hnat := congrArg BitVec.toNat h
      have hmax : (BitVec.ofInt 64 (2 ^ 63 - 1)).toNat = 2 ^ 63 - 1 := by decide
      omega
  | str =>
    obtain rfl := Option.some.inj hwritten
    have hlen := hshort rfl
    rw [readParam, Option.bind_some, if_pos (by omega), List.take_of_length_le (by omega)]
    exact iff_of_true rfl trivial
  | u16 | u32 | i64 | null | f32 | object | objectData | arrayData | max => cases hwritten

theorem stored_updateValue :
    stored (effect (updateValueStmt tbl.chars key.chars text) db).db tbl key' =
    if key' = key then (stored db tbl key').map fun _ => .text text else stored db tbl key' := by
  have hname : valueColumn ≠ items := by decide +kernel
  have hother : items ∉ [(valueColumn, Literal.text text)].map Prod.fst := by
    simpa using hname.symm
  have htable : (effect (updateValueStmt tbl.chars key.chars text) db).db (lower tbl.chars) =
      (db (lower tbl.chars)).map fun t =>
        if t.knows [valueColumn, items] then
          { t with rows := t.rows.map fun row =>
              if holds (some (items, .text key.chars)) row then
                set row [(valueColumn, .text text)]
              else row }
        else t := effect_update
  rw [stored, stored, htable]
  cases db (lower tbl.chars) with
  | none => simp
  | some t =>
    rw [Option.map_some, Option.bind_some, Option.bind_some]
    cases hknows : t.knows [valueColumn, items] with
    | false => simp [hknows]
    | true =>
      have hknows' {rows : List Row} : Table.knows { t with rows := rows } [valueColumn, items] =
        true := hknows
      rw [if_pos rfl, if_pos hknows', if_pos rfl, selected_update hother, List.head?_map]
      cases hfirst : (selected (items, .text key'.chars) t.rows).head? with
      | none => simp
      | some row =>
        have hrow : row items = .text key'.chars :=
          holds_iff.mp (List.mem_filter.mp (List.mem_of_head? hfirst)).2
        by_cases hkey : key' = key
        · subst hkey
          simp [holds, SqlTables.value, hrow, SqlTables.set]
        · have hchars : key'.chars ≠ key.chars := fun h => hkey (Key.ext h)
          simp [holds, SqlTables.value, hrow, hchars, hkey]

theorem updateItemToDb_noError {sqlCmd : List Char}
    (h : (updateItemToDb engine opened db sqlCmd).2 = noError) :
    (engine.exec db sqlCmd).rows.isSome = true ∧
      (updateItemToDb engine opened db sqlCmd).1 = (engine.exec db sqlCmd).db := by
  cases opened with
  | false => cases h
  | true =>
    refine ⟨?_, rfl⟩
    cases hrows : (engine.exec db sqlCmd).rows with
    | none => simp [updateItemToDb, hrows, noError, fail] at h
    | some rows => rfl

theorem storable_cases (h : Storable tbl key type len value) :
    (written type value = none ∧ updateValue tbl.chars key.chars type value = none) ∨
    ∃ text c, written type value = some text ∧
      updateValue tbl.chars key.chars type value = some c ∧ c.text = some c.written ∧
      ∀ opened db key', (updateItemToDb engine opened db c.written).2 = noError →
        stored (updateItemToDb engine opened db c.written).1 tbl key' =
          if key' = key then (stored db tbl key').map fun _ => .text text
          else stored db tbl key' := by
  rcases updateValue_cases tbl key.chars type value with
    hnone | ⟨text, c, hwritten, hcommand, hspells⟩
  · exact .inl hnone
  · refine .inr ⟨text, c, hwritten, hcommand, text_eq_some.mpr ⟨h.update c hcommand, rfl⟩, ?_⟩
    intro opened db key' hrc
    have hexec : engine.exec db c.written = effect (updateValueStmt tbl.chars key.chars text) db :=
      engine.exec_spells _ _ _ updateValueStmt_wf (hspells.mpr ⟨key.plain, h.plain text hwritten⟩)
    rw [(updateItemToDb_noError hrc).2, hexec, stored_updateValue]

def afterUpdate (id : ℤ) (p : Param) (v : Option SqlTables.Value) : Option SqlTables.Value :=
  if Updates id p then
    match written p.paramType p.param with
    | some text => v.map fun _ => .text text
    | none => v
  else v

theorem updateLoop_cons {opened : Key → Bool}
    (hp : Updates id p → Storable tbl p.key p.paramType p.paramLen p.param)
    (h : updateLoop engine opened tbl id (p :: params) db = some (db', noError)) :
    ∃ db₁, updateLoop engine opened tbl id params db₁ = some (db', noError) ∧
      ∀ key, stored db₁ tbl key =
        if key = p.key then afterUpdate id p (stored db tbl key) else stored db tbl key := by
  rw [updateLoop] at h
  split at h
  · rename_i hid
    have hstorable := hp hid
    rcases storable_cases hstorable with
      ⟨hwritten, hcommand⟩ | ⟨text, c, hwritten, hcommand, htext, hupdate⟩
    · rw [hcommand] at h
      exact ⟨db, h, fun key => by simp [afterUpdate, hid, hwritten]⟩
    · rw [hcommand] at h
      simp only [htext, Option.bind_some] at h
      split at h
      · rename_i hrc
        refine ⟨_, h, fun key => ?_⟩
        rw [hupdate _ _ _ hrc, afterUpdate, if_pos hid, hwritten]
      · rename_i hrc
        exact absurd (congrArg Prod.snd (Option.some.inj h)) hrc
  · rename_i hid
    exact ⟨db, h, fun key => by simp [afterUpdate, hid]⟩

theorem stored_updateLoop_of_ne {opened : Key → Bool}
    (hstorable : ∀ q ∈ params, Updates id q → Storable tbl q.key q.paramType q.paramLen q.param)
    (h : updateLoop engine opened tbl id params db = some (db', noError))
    (hkey : ∀ q ∈ params, key ≠ q.key) : stored db' tbl key = stored db tbl key := by
  induction params generalizing db with
  | nil =>
    rw [updateLoop, Option.some.injEq, Prod.mk.injEq] at h
    rw [h.1]
  | cons q params ih =>
    rw [List.forall_mem_cons] at hstorable hkey
    obtain ⟨db₁, hrest, hstored⟩ := updateLoop_cons hstorable.1 h
    rw [ih hstorable.2 hrest hkey.2, hstored, if_neg hkey.1]

theorem stored_updateLoop {opened : Key → Bool} (hnodup : (params.map Param.key).Nodup)
    (hstorable : ∀ q ∈ params, Updates id q → Storable tbl q.key q.paramType q.paramLen q.param)
    (h : updateLoop engine opened tbl id params db = some (db', noError)) (hp : p ∈ params) :
    stored db' tbl p.key = afterUpdate id p (stored db tbl p.key) := by
  induction params generalizing db with
  | nil => cases hp
  | cons q params ih =>
    rw [List.map_cons, List.nodup_cons] at hnodup
    rw [List.forall_mem_cons] at hstorable
    obtain ⟨db₁, hrest, hstored⟩ := updateLoop_cons hstorable.1 h
    rcases List.mem_cons.mp hp with rfl | hp
    · have hother : ∀ q ∈ params, p.key ≠ q.key := fun q hq heq =>
        hnodup.1 (heq ▸ List.mem_map_of_mem hq)
      rw [stored_updateLoop_of_ne hstorable.2 hrest hother, hstored, if_pos rfl]
    · have hne : p.key ≠ q.key := fun heq => hnodup.1 (heq ▸ List.mem_map_of_mem hp)
      rw [ih hnodup.2 hstorable.2 hrest hp, hstored, if_neg hne]

def readTypes : List ParamType := [.u8, .bool, .u16, .int, .enum, .u64, .str]

theorem written_isSome (htype : type ∈ readTypes) (hu16 : type ≠ .u16) :
    ∃ text, written type value = some text := by
  cases type with
  | u8 | bool | int | enum | u64 | str => exact ⟨_, rfl⟩
  | u16 => exact absurd rfl hu16
  | u32 | i64 | null | f32 | object | objectData | arrayData | max => simp [readTypes] at htype

theorem readValue_eq (hwritten : written type value = some text) {s : Option (List Char)}
    {before : type.Value} : readValue type len s before = readParam type len s before := by
  cases type <;> first | rfl | cases hwritten

theorem exists_ne (htype : type ∈ readTypes) (value : type.Value) :
    ∃ before : type.Value, before ≠ value := by
  cases type with
  | u8 | bool | u16 | int | enum | u64 => exact ⟨value + 1, by simp⟩
  | str => exact ⟨'a' :: value, List.cons_ne_self _ _⟩
  | u32 | i64 | null | f32 | object | objectData | arrayData | max => simp [readTypes] at htype

theorem assign_eq_self {v : p.paramType.Value} : p.assign v = p ↔ v = p.param := by
  cases p
  simp [Param.assign]

/-- A field takes its value from the database exactly when its record is found and is read as
the value. -/
theorem queryParam_iff (htype : p.paramType ∈ readTypes)
    (hfit : (selectValue tbl.chars p.key.chars).written.length < 256) :
    (∀ before, queryParam engine opened db tbl (p.assign before) = some p) ↔
      ∃ v, found opened db tbl p.key = some v ∧
        ∀ before, readParam p.paramType p.paramLen (engine.print v) before = some p.param := by
  have hquery (before : p.paramType.Value) : queryParam engine opened db tbl (p.assign before) =
      match found opened db tbl p.key with
      | none => some (p.assign before)
      | some v => (readParam p.paramType p.paramLen (engine.print v) before).map p.assign :=
    queryParam_eq (p := p.assign before) hfit
  simp only [hquery]
  cases found opened db tbl p.key with
  | none =>
    obtain ⟨before, hne⟩ := exists_ne htype p.param
    refine iff_of_false (fun h => hne ?_) (by simp)
    exact assign_eq_self.mp (Option.some.inj (h before))
  | some v => simp [Option.map_eq_some_iff, assign_eq_self]

theorem dbGetValue_iff (hfit : (selectValue tbl.chars key.chars).written.length < 256) :
    (∀ before, dbGetValue engine opened db tbl key type len before = some (value, noError)) ↔
      ∃ v, found opened db tbl key = some v ∧
        ∀ before, readValue type len (engine.print v) before = some value := by
  simp only [dbGetValue_eq hfit]
  cases found opened db tbl key with
  | none =>
    refine iff_of_false (fun h => ?_) (by simp)
    cases congrArg Prod.snd (Option.some.inj (h value))
  | some v => simp [Option.map_eq_some_iff]

theorem found_written (hwritten : written type value = some text)
    (hshort : type = .str → text.length < len)
    (hstored : stored db' tbl key = (stored db tbl key).map fun _ => .text text) :
    (∃ v, found opened db' tbl key = some v ∧
      ∀ before, readParam type len (engine.print v) before = some value) ↔
      opened = true ∧ (stored db tbl key).isSome = true ∧ Readable type value := by
  cases opened with
  | false => simp [found]
  | true =>
    rw [found, if_pos rfl, hstored]
    cases stored db tbl key with
    | none => simp
    | some v =>
      simp only [Option.map_some, Option.some.injEq, exists_eq_left', Engine.print,
        readParam_written hwritten hshort, Option.isSome_some, true_and]
      exact ⟨fun h => h value, fun h _ => h⟩

/-- A parameter that was written comes back exactly when it has a record, a number is below the
limit of the signed parsing, and a 16-bit number, which is never written, was there already. -/
theorem stored_values_come_back (engine : Engine) :
    (∀ (tbl : ParamTable) (id : ℤ) (opened opened' : Key → Bool) (db db' : Database) (p : Param),
      p ∈ tbl.paramTable → Updates id p → p.paramType ∈ readTypes →
      (∀ q ∈ tbl.paramTable, Updates id q →
        Storable tbl.tableName q.key q.paramType q.paramLen q.param) →
      dbUpdateDbFromStruct engine opened tbl id db = some (db', noError) →
      ((∀ before, queryParam engine (opened' p.key) db' tbl.tableName (p.assign before) = some p) ↔
        opened' p.key = true ∧
          if p.paramType = .u16 then
            ∃ v, stored db tbl.tableName p.key = some v ∧
              readParam p.paramType p.paramLen (engine.print v) p.param = some p.param
          else
            (stored db tbl.tableName p.key).isSome = true ∧ Readable p.paramType p.param)) ∧
    ∀ (tbl : TableName) (key : Key) (type : ParamType) (len : ℤ) (value : type.Value)
      (opened opened' : Bool) (db db' : Database),
      Storable tbl key type len value →
      dbUpdateValue engine opened db tbl key type value = some (db', noError) →
      ((∀ before, dbGetValue engine opened' db' tbl key type len before = some (value, noError)) ↔
        opened' = true ∧ (stored db tbl key).isSome = true ∧ Readable type value) := by
  constructor
  · intro tbl id opened opened' db db' p hp hid htype hstorable hupdate
    have hselect := (hstorable p hp hid).select
    have hstored := stored_updateLoop tbl.keys hstorable hupdate hp
    rw [queryParam_iff htype hselect]
    rw [afterUpdate, if_pos hid] at hstored
    by_cases hu16 : p.paramType = .u16
    · obtain ⟨key, type, len, pid, value⟩ := p
      dsimp only at hu16
      subst hu16
      rw [if_pos rfl, found, hstored]
      cases opened' key with
      | false => simp
      | true => simp [written, readParam]
    · obtain ⟨text, hwritten⟩ : ∃ text, written p.paramType p.param = some text :=
        written_isSome htype hu16
      rw [hwritten] at hstored
      rw [if_neg hu16]
      exact found_written hwritten ((hstorable p hp hid).short text hwritten) hstored
  · intro tbl key type len value opened opened' db db' hstorable hupdate
    rw [dbGetValue_iff hstorable.select]
    rw [dbUpdateValue] at hupdate
    rcases storable_cases hstorable with
      ⟨hwritten, hcommand⟩ | ⟨text, c, hwritten, hcommand, htext, hstored⟩
    · rw [hcommand] at hupdate
      cases congrArg Prod.snd (Option.some.inj hupdate)
    · simp only [hcommand, htext, Option.map_some, Option.some.injEq] at hupdate
      have hsame := hstored opened db key (congrArg Prod.snd hupdate)
      rw [if_pos rfl, hupdate] at hsame
      simp only [readValue_eq hwritten]
      exact found_written hwritten (hstorable.short text hwritten) hsame

def settings : TableName := ⟨"settings".toList, by decide +kernel, by decide +kernel⟩

def record (key text : String) : Row := fun name =>
  if name = items then .text key.toList else if name = valueColumn then .text text.toList else .null

def settingsOf (records : List Row) : Database := fun name =>
  if name = lower settings.chars then some ⟨[items, valueColumn], fun _ => .null, records⟩ else none

def volume : Param := ⟨⟨"volume".toList, by decide⟩, .u8, 1, 0, 5⟩

def label : Param := ⟨⟨"label".toList, by decide⟩, .str, 8, 1, "home".toList⟩

theorem volume_comes_back : ∃ db',
    dbUpdateDbFromStruct fragment (fun _ => true) ⟨settings, [volume, label], by decide⟩ (-1)
      (settingsOf [record "label" "", record "volume" "0"]) = some (db', noError) ∧
    ∀ before, queryParam fragment true db' settings (volume.assign before) = some volume := by
  have hok : (dbUpdateDbFromStruct fragment (fun _ => true)
      ⟨settings, [volume, label], by decide⟩ (-1)
      (settingsOf [record "label" "", record "volume" "0"])).map Prod.snd = some noError := by
    decide +kernel
  obtain ⟨⟨db', rc⟩, hupdate, rfl⟩ := Option.map_eq_some_iff.mp hok
  refine ⟨db', hupdate, ?_⟩
  have hrecord : (stored (settingsOf [record "label" "", record "volume" "0"]) settings
      volume.key).isSome = true := by decide +kernel
  exact ((stored_values_come_back fragment).1 _ (-1) _ (fun _ => true) _ db' volume
    List.mem_cons_self (.inl rfl) (by decide) (by decide +kernel) hupdate).mpr
    ⟨rfl, hrecord, trivial⟩

/-- A 16-bit number is not written, and a large number comes back as the limit of `long long`,
though both updates report success. -/
theorem counters_come_back_changed :
    let small : Param := ⟨⟨"small".toList, by decide⟩, .u16, 2, 0, 5⟩
    let large : Param := ⟨⟨"large".toList, by decide⟩, .u64, 8, 1, 2 ^ 63⟩
    let tbl : ParamTable := ⟨settings, [small, large], by decide⟩
    let db := settingsOf [record "small" "0", record "large" "0"]
    (∀ q ∈ tbl.paramTable, Storable settings q.key q.paramType q.paramLen q.param) ∧
    ∃ r, dbUpdateDbFromStruct fragment (fun _ => true) tbl (-1) db = some r ∧ r.2 = noError ∧
      queryParam fragment true r.1 settings small = some (small.assign 0) ∧
      queryParam fragment true r.1 settings large = some (large.assign (2 ^ 63 - 1)) ∧
      small.assign 0 ≠ small ∧ large.assign (2 ^ 63 - 1) ≠ large := by
  refine ⟨by decide +kernel, _, Option.some_get (by decide +kernel) |>.symm, ?_⟩
  decide +kernel

end DbParams
