import MyGitCode.DbStatements

/-! # The usage history

`db_compare_item` on the table `UsageHistory`, which copies the restore database into the user
database statement by statement, and when that is all or nothing. -/
namespace DbHistory

open CFormat SqlTokens SqlStatements SqlTables DbStatements

/-- `usage_history_type`. Of the two times only the bits that `%d` reads and writes are kept. -/
structure Usage where
  startTime : BitVec 32
  endTime : BitVec 32
  roamType : BitVec 32
  txBytes : BitVec 64
  rxBytes : BitVec 64
  deriving DecidableEq, Repr

def Usage.zero : Usage := ⟨0, 0, 0, 0, 0⟩

def usageHistory : List Char := "UsageHistory".toList

def deleteHistory : Command := ⟨"delete from %s".toList, [.s usageHistory]⟩

def countHistory : Command := ⟨"select count(*) from %s;".toList, [.s usageHistory]⟩

def selectHistory : Command := ⟨"select *from %s;".toList, [.s usageHistory]⟩

@[irreducible] def insertUsageFormat : List Char :=
  "INSERT INTO UsageHistory(StartTime, EndTime, ".toList ++ "RoamType, TxBytes, RxBytes) ".toList ++
    "VALUES (%d, %d, %d, %llu, %llu)".toList

def insertUsage (usage : Usage) : Command :=
  ⟨insertUsageFormat, [.d usage.startTime.toInt, .d usage.endTime.toInt, .d usage.roamType.toInt,
    .llu usage.txBytes.toNat, .llu usage.rxBytes.toNat]⟩

/-- Which statements succeed, and whether there is memory for the list. -/
structure Course where
  delete : Bool
  count : Bool
  calloc : Bool
  select : Bool
  insert : ℕ → Bool

/-- The callback with one row. A text without a number leaves the variable, which is zero. -/
def dbGetCountCb (ncolumn : ℤ) (row : List (Option (List Char))) : Option ℤ :=
  row.foldlM (fun _ text => text.map atoi) ncolumn

/-- The cases of the loop, by the place of the column. The fields are zero before. A NULL pointer
cannot be read. -/
def setUsage (usage : Usage) (text : Option (List Char)) : ℕ → Option Usage
  | 0 => text.map fun s => { usage with startTime := .ofInt 32 (atoi s) }
  | 1 => text.map fun s => { usage with endTime := .ofInt 32 (atoi s) }
  | 2 => text.map fun s => { usage with roamType := .ofInt 32 (atoi s) }
  | 3 => text.map fun s => { usage with txBytes := .ofNat 64 (strtoull s) }
  | 4 => text.map fun s => { usage with rxBytes := .ofNat 64 (strtoull s) }
  | _ => some usage

def readUsage (texts : List (Option (List Char))) : Option Usage :=
  texts.zipIdx.foldlM (fun usage t => setUsage usage t.1 t.2) .zero

/-- A failed selection has no rows. Rows that the list has no room for are written behind it. -/
def dbGetUsageItem (engine : Engine) (opened : Bool) (db : Database) (maxCount : ℕ) :
    Option (List Usage) :=
  selectHistory.text.bind fun sqlCmd =>
    let rows := ((searchByTable engine opened db sqlCmd).getD []).map
      (List.map fun c => engine.print c.2)
    if rows.length ≤ maxCount then
      (rows.mapM readUsage).map (· ++ List.replicate (maxCount - rows.length) .zero)
    else none

/-- The records of `usage_lst`, which is empty where the function returns early, and the return
code. -/
def dbGetItemUsagelist (engine : Engine) (course : Course) (db : Database) :
    Option (List Usage × ℤ) :=
  countHistory.text.bind fun sqlCmd =>
    match (dbExecCmd engine course.count db sqlCmd).rows with
    | none => some ([], fail)
    | some rows =>
      (rows.foldlM (fun n row => dbGetCountCb n (row.map fun c => engine.print c.2)) 0).bind
        fun ncolumn =>
          if 0 ≥ ncolumn then some ([], noError)
          else if course.calloc then
            (dbGetUsageItem engine course.select db ncolumn.toNat).map fun usages =>
              (usages, noError)
          else some ([], -1)

/-- The loop of insertions, where `rc` is the return code so far. -/
def insertLoop (engine : Engine) : (ℕ → Bool) → List Usage → ℤ → Database → Option (Database × ℤ)
  | _, [], rc, db => some (db, rc)
  | opened, usage :: rest, _, db =>
    (insertUsage usage).text.bind fun sqlCmd =>
      let r := dbExecCmd engine (opened 0) db sqlCmd
      if returnCode r = noError then
        insertLoop engine (fun i => opened (i + 1)) rest (returnCode r) r.db
      else some (r.db, fail)

/-- The branch for `UsageHistory`. -/
def dbCompareItem (engine : Engine) (course : Course) (user restore : Database) :
    Option (Database × ℤ) :=
  deleteHistory.text.bind fun sqlCmd =>
    let r := dbExecCmd engine course.delete user sqlCmd
    (dbGetItemUsagelist engine course restore).bind fun list =>
      insertLoop engine course.insert list.1 list.2 r.db

def historyTable : Name := "usagehistory".toList

def historyColumns : List Name :=
  ["starttime", "endtime", "roamtype", "txbytes", "rxbytes"].map String.toList

structure HistoryDb where
  db : Database
  table : Table
  lookup : db historyTable = some table
  columns : table.columns.map lower = historyColumns

def contents (db : Database) : List (List Value) :=
  ((db historyTable).elim [] Table.rows).map fun row => historyColumns.map row

/-- Success leaves the rows of the restore database, and failure those of before. -/
def AllOrNothing (user restore : Database) (r : Database × ℤ) : Prop :=
  r.2 = noError ∧ contents r.1 = contents restore ∨ r.2 ≠ noError ∧ contents r.1 = contents user

def Usage.literals (usage : Usage) : List Literal :=
  [.int usage.startTime.toInt, .int usage.endTime.toInt, .int usage.roamType.toInt,
    .int usage.txBytes.toNat, .int usage.rxBytes.toNat]

def Usage.values (usage : Usage) : List Value := usage.literals.map value

def recopy (engine : Engine) (row : List Value) : Option (List Value) :=
  (readUsage (row.map engine.print)).map Usage.values

def IsInt32 (v : Value) : Prop := ∃ z : ℤ, v = .int z ∧ -2 ^ 31 ≤ z ∧ z < 2 ^ 31

def IsBytes (engine : Engine) (v : Value) : Prop :=
  (∃ z : ℤ, v = .int z ∧ 0 ≤ z ∧ z < 2 ^ 63) ∨
    ∃ n : ℕ, v = .real n ∧ 2 ^ 63 ≤ n ∧ strtoull (engine.realText n) = n

def Kept (engine : Engine) (row : List Value) : Prop :=
  ∃ startTime endTime roamType txBytes rxBytes,
    row = [startTime, endTime, roamType, txBytes, rxBytes] ∧ IsInt32 startTime ∧
      IsInt32 endTime ∧ IsInt32 roamType ∧ IsBytes engine txBytes ∧ IsBytes engine rxBytes

/-- The place of the first insertion of `n` that fails. -/
def firstFailure (opened : ℕ → Bool) : ℕ → Option ℕ
  | 0 => none
  | n + 1 => if opened 0 then (firstFailure (fun i => opened (i + 1)) n).map (· + 1) else some 0

/-- The number of rows as the code gets it, an `int`. -/
def rowCount (rows : List (List Value)) : ℤ := atoi (decimal rows.length)

/-- The condition on the histories and on the statements that fail. Where nothing fails it says
that all rows are kept; the other cases are those in which a failure does no harm. -/
def Meets (engine : Engine) (course : Course) (user restore : List (List Value)) : Prop :=
  if course.count = false ∨ 0 < rowCount restore ∧ course.calloc = false then
    course.delete = true → user = []
  else if rowCount restore ≤ 0 then restore = if course.delete then [] else user
  else if course.select then
    restore.length < 2 ^ 31 ∧
      match firstFailure course.insert restore.length with
      | none => (course.delete = true ∨ user = []) ∧ ∀ row ∈ restore, Kept engine row
      | some k => ∃ rows, restore.mapM (recopy engine) = some rows ∧
        if course.delete then user = rows.take k else k = 0
  else
    match firstFailure course.insert (rowCount restore).toNat with
    | none => restore = (if course.delete then [] else user) ++
      List.replicate (rowCount restore).toNat Usage.zero.values
    | some k => if course.delete then user = List.replicate k Usage.zero.values else k = 0

variable {engine : Engine} {course : Course} {h user restore : HistoryDb} {usage : Usage}
  {usages : List Usage} {opened : ℕ → Bool} {rc : ℤ} {row : List Value}

def deleteHistoryStmt : Stmt := .delete historyTable none

def countHistoryStmt : Stmt := .select .count historyTable none

def selectHistoryStmt : Stmt := .select .all historyTable none

def insertUsageStmt (usage : Usage) : Stmt := .insert historyTable historyColumns usage.literals

theorem isName_history :
    IsName historyTable ∧ historyColumns.Nodup ∧ ∀ name ∈ historyColumns, IsName name := by
  decide +kernel

theorem fixed_commands : ∀ c ∈ [(deleteHistory, deleteHistoryStmt),
      (countHistory, countHistoryStmt), (selectHistory, selectHistoryStmt)],
    c.1.written.length < 256 ∧ Spells c.1.written c.2 := by
  decide +kernel

theorem deleteHistory_fits :
    deleteHistory.written.length < 256 ∧ Spells deleteHistory.written deleteHistoryStmt :=
  fixed_commands _ (.head _)

theorem countHistory_fits :
    countHistory.written.length < 256 ∧ Spells countHistory.written countHistoryStmt :=
  fixed_commands _ (.tail _ (.head _))

theorem selectHistory_fits :
    selectHistory.written.length < 256 ∧ Spells selectHistory.written selectHistoryStmt :=
  fixed_commands _ (.tail _ (.tail _ (.head _)))

theorem deleteHistoryStmt_wf : deleteHistoryStmt.Wf where
  proper := trivial
  names := List.forall_mem_singleton.mpr isName_history.1
  columns := by simp [deleteHistoryStmt]

theorem countHistoryStmt_wf : countHistoryStmt.Wf where
  proper := trivial
  names := List.forall_mem_singleton.mpr isName_history.1
  columns := by simp [countHistoryStmt]

theorem selectHistoryStmt_wf : selectHistoryStmt.Wf where
  proper := trivial
  names := List.forall_mem_singleton.mpr isName_history.1
  columns := by simp [selectHistoryStmt]

theorem insertUsageStmt_wf : (insertUsageStmt usage).Wf where
  proper := ⟨List.cons_ne_nil _ _, List.cons_ne_nil _ _⟩
  names := by
    show ∀ name ∈ historyTable :: historyColumns, IsName name
    rw [List.forall_mem_cons]
    exact ⟨isName_history.1, isName_history.2.2⟩
  columns := by
    rintro _ _ _ ⟨⟩
    exact isName_history.2.1

def insertUsageLead : List Char :=
  "INSERT INTO UsageHistory(StartTime, EndTime, ".toList ++ "RoamType, TxBytes, RxBytes) ".toList ++
    "VALUES (".toList

def insertUsagePieces : List (List Char × Directive) :=
  [(insertUsageLead, .d), (", ".toList, .d), (", ".toList, .d), (", ".toList, .llu),
    (", ".toList, .llu)]

theorem insertUsage_closed :
    insertUsageFormat = formatOf insertUsagePieces ")".toList ∧
    (∀ piece ∈ insertUsagePieces, '%' ∉ piece.1) ∧ '%' ∉ ")".toList ∧
    insertUsageLead.length = 81 ∧
    run .blank insertUsageLead = some ([keyword "insert", keyword "into", .word historyTable,
      .symbol '('] ++ commas (fun c => [.word c]) historyColumns ++
        [.symbol ')', keyword "values", .symbol '('], .blank) := by
  decide +kernel

theorem insertUsage_written : (insertUsage usage).written =
    insertUsageLead ++ (decimal usage.startTime.toInt ++ (", ".toList ++
      (decimal usage.endTime.toInt ++ (", ".toList ++ (decimal usage.roamType.toInt ++
        (", ".toList ++ (decimal usage.txBytes.toNat ++ (", ".toList ++
          (decimal usage.rxBytes.toNat ++ ")".toList))))))))) := by
  obtain ⟨hformat, hpieces, htail, -⟩ := insertUsage_closed
  rw [Command.written, insertUsage, hformat, sprintf_formatOf rfl hpieces htail]
  rfl

theorem insertUsage_length : (insertUsage usage).written.length < 256 := by
  have hint (x : BitVec 32) : (decimal x.toInt).length ≤ 11 := by
    have hlow := x.le_toInt
    have hhigh := x.toInt_lt
    exact decimal_length (by decide) (by omega)
  have hbytes (x : BitVec 64) : (decimal x.toNat).length ≤ 21 := by
    have hlt := x.isLt
    exact decimal_length (by decide) (by omega)
  have hlead := insertUsage_closed.2.2.2.1
  rw [insertUsage_written]
  simp only [List.length_append, hlead]
  have h₁ := hint usage.startTime
  have h₂ := hint usage.endTime
  have h₃ := hint usage.roamType
  have h₄ := hbytes usage.txBytes
  have h₅ := hbytes usage.rxBytes
  have hcomma : ", ".toList.length = 2 := rfl
  have hclose : ")".toList.length = 1 := rfl
  omega

theorem lex_comma {z : ℤ} {rest : List Char} : lex .blank (decimal z ++ (", ".toList ++ rest)) =
    (lex .blank rest).map (.value (.int z) :: .symbol ',' :: ·) := by
  have hcomma : run .blank ", ".toList = some ([.symbol ','], .blank) := by decide
  have hlex : lex .blank (", ".toList ++ rest) = _ := lex_append hcomma
  show lex .blank (decimal z ++ ',' :: _) = _
  rw [lex_decimal (by decide) (by decide)]
  show (lex .blank (", ".toList ++ rest)).map _ = _
  rw [hlex, Option.map_map]
  rfl

theorem spells_insertUsage : Spells (insertUsage usage).written (insertUsageStmt usage) := by
  have hlead := insertUsage_closed.2.2.2.2
  have hlast : lex .blank (decimal usage.rxBytes.toNat ++ ")".toList) =
      some [.value (.int usage.rxBytes.toNat), .symbol ')'] :=
    lex_decimal (by decide) (by decide)
  refine .inl ?_
  rw [insertUsage_written, tokens, lex_append hlead, lex_comma, lex_comma, lex_comma, lex_comma,
    hlast]
  rfl

example : (insertUsage ⟨1, 2, 0, 10, 20⟩).text = some ("INSERT INTO UsageHistory(StartTime, " ++
    "EndTime, RoamType, TxBytes, RxBytes) VALUES (1, 2, 0, 10, 20)").toList := by decide +kernel

def HistoryDb.setRows (h : HistoryDb) (rows : List Row) : HistoryDb where
  db := Function.update h.db historyTable (some { h.table with rows := rows })
  table := { h.table with rows := rows }
  lookup := Function.update_self _ _ _
  columns := h.columns

def HistoryDb.append (h : HistoryDb) (usage : Usage) : HistoryDb :=
  h.setRows (h.table.rows ++ [newRow h.table historyColumns usage.literals])

def HistoryDb.afterDelete (h : HistoryDb) (opened : Bool) : HistoryDb :=
  if opened then h.setRows [] else h

theorem contents_eq (h : HistoryDb) :
    contents h.db = h.table.rows.map fun row => historyColumns.map row := by
  rw [contents, h.lookup]
  rfl

theorem contents_append : contents (h.append usage).db = contents h.db ++ [usage.values] := by
  have hrow : historyColumns.map (newRow h.table historyColumns usage.literals) = usage.values :=
    map_newRow isName_history.2.1 rfl
  rw [contents_eq, contents_eq, HistoryDb.append, HistoryDb.setRows, List.map_append,
    List.map_singleton, hrow]

theorem contents_foldl_append :
    contents (usages.foldl HistoryDb.append h).db = contents h.db ++ usages.map Usage.values := by
  induction usages generalizing h with
  | nil => simp
  | cons usage usages ih => rw [List.foldl_cons, ih, contents_append, List.map_cons,
      List.append_assoc, List.singleton_append]

theorem contents_afterDelete {opened : Bool} :
    contents (h.afterDelete opened).db = if opened then [] else contents h.db := by
  cases opened with
  | false => rfl
  | true => exact contents_eq _

theorem exec_deleteHistory {opened : Bool} :
    (dbExecCmd engine opened h.db deleteHistory.written).db = (h.afterDelete opened).db := by
  have heffect : effect deleteHistoryStmt h.db = ⟨(h.setRows []).db, some []⟩ :=
    effect_eq h.lookup (by simp [apply, deleteHistoryStmt, Table.knows, condNames, holds])
  rw [dbExecCmd_eq deleteHistoryStmt_wf deleteHistory_fits.2, heffect]
  cases opened <;> rfl

theorem exec_insertUsage {opened : Bool} :
    dbExecCmd engine opened h.db (insertUsage usage).written =
      if opened then ⟨(h.append usage).db, some []⟩ else ⟨h.db, none⟩ := by
  have hknows : h.table.knows historyColumns = true := by
    have hhas : h.table.has = historyColumns.contains := by
      funext name
      rw [Table.has, h.columns]
    rw [Table.knows, hhas, List.all_eq_true]
    exact fun name hname => List.contains_iff_mem.mpr hname
  have heffect : effect (insertUsageStmt usage) h.db = ⟨(h.append usage).db, some []⟩ := by
    refine effect_eq h.lookup ?_
    rw [insertUsageStmt, apply, hknows]
    rfl
  rw [dbExecCmd_eq insertUsageStmt_wf spells_insertUsage, heffect]

theorem exec_countHistory {opened : Bool} :
    (dbExecCmd engine opened h.db countHistory.written).rows =
      if opened then some [[("count(*)".toList, .int (contents h.db).length)]] else none := by
  have heffect : (effect countHistoryStmt h.db).rows =
      some [[("count(*)".toList, .int (contents h.db).length)]] := by
    rw [countHistoryStmt, effect_select_rows, h.lookup, contents_eq, List.length_map]
    simp [Table.knows, condNames, Columns.names, columnsOf, filter_holds_none]
  rw [dbExecCmd_eq countHistoryStmt_wf countHistory_fits.2, ← heffect]
  cases opened <;> rfl

theorem search_selectHistory {opened : Bool} :
    ((searchByTable engine opened h.db selectHistory.written).getD []).map
        (List.map fun c => engine.print c.2) =
      if opened then (contents h.db).map (List.map engine.print) else [] := by
  have heffect : (effect selectHistoryStmt h.db).rows =
      some (columnsOf h.table .all h.table.rows) := by
    rw [selectHistoryStmt, effect_select_rows, h.lookup]
    simp [Table.knows, condNames, Columns.names, filter_holds_none]
  rw [searchByTable, engine.exec_spells _ _ _ selectHistoryStmt_wf selectHistory_fits.2, heffect]
  cases opened with
  | false => rfl
  | true =>
    have hrow (row : Row) : (h.table.columns.map fun c => (c, row (lower c))).map
        (fun c => engine.print c.2) = (historyColumns.map row).map engine.print := by
      rw [← h.columns]
      simp only [List.map_map]
      rfl
    rw [if_pos rfl, if_pos rfl, Option.getD_some, contents_eq, columnsOf, List.map_map,
      List.map_map]
    exact List.map_congr_left fun row _ => hrow row

theorem text_insertUsage : (insertUsage usage).text = some (insertUsage usage).written :=
  text_eq_some.mpr ⟨insertUsage_length, rfl⟩

theorem insertLoop_all (hall : firstFailure opened usages.length = none) :
    insertLoop engine opened usages noError h.db =
      some ((usages.foldl HistoryDb.append h).db, noError) := by
  induction usages generalizing opened h with
  | nil => rfl
  | cons usage usages ih =>
    rw [insertLoop, text_insertUsage, Option.bind_some, exec_insertUsage]
    rw [List.length_cons, firstFailure] at hall
    cases hopened : opened 0 with
    | false =>
      rw [hopened] at hall
      cases hall
    | true =>
      rw [hopened, if_pos rfl] at hall
      exact ih (Option.map_eq_none_iff.mp hall)

theorem insertLoop_fails {k : ℕ} (hk : firstFailure opened usages.length = some k) :
    insertLoop engine opened usages rc h.db =
      some (((usages.take k).foldl HistoryDb.append h).db, fail) := by
  induction usages generalizing opened rc h k with
  | nil => cases hk
  | cons usage usages ih =>
    rw [insertLoop, text_insertUsage, Option.bind_some, exec_insertUsage]
    rw [List.length_cons, firstFailure] at hk
    cases hopened : opened 0 with
    | false =>
      rw [hopened] at hk
      obtain rfl := Option.some.inj hk
      rfl
    | true =>
      rw [hopened, if_pos rfl] at hk
      obtain ⟨k', hk', rfl⟩ := Option.map_eq_some_iff.mp hk
      exact ih hk'

theorem firstFailure_lt {n k : ℕ} (h : firstFailure opened n = some k) : k < n := by
  induction n generalizing opened k with
  | zero => cases h
  | succ n ih =>
    rw [firstFailure] at h
    cases hopened : opened 0 with
    | false =>
      rw [hopened] at h
      obtain rfl := Option.some.inj h
      exact n.succ_pos
    | true =>
      rw [hopened, if_pos rfl] at h
      obtain ⟨k', hk', rfl⟩ := Option.map_eq_some_iff.mp h
      exact Nat.succ_lt_succ (ih hk')

theorem allOrNothing_succeeds {db : Database} :
    AllOrNothing user.db restore.db (db, noError) ↔ contents db = contents restore.db := by
  simp [AllOrNothing]

theorem allOrNothing_fails {db : Database} {code : ℤ} (h : code ≠ noError) :
    AllOrNothing user.db restore.db (db, code) ↔ contents db = contents user.db := by
  simp [AllOrNothing, h]

/-- A failure before the insertions is harmless where there was nothing to delete or the deletion
failed as well. -/
theorem early_failure_iff {code : ℤ} (h : code ≠ noError) :
    AllOrNothing user.db restore.db ((user.afterDelete course.delete).db, code) ↔
      (course.delete = true → contents user.db = []) := by
  rw [allOrNothing_fails h, contents_afterDelete]
  cases course.delete <;> simp [eq_comm]

theorem inserted_iff :
    (∃ r, insertLoop engine course.insert usages noError (user.afterDelete course.delete).db =
          some r ∧
        AllOrNothing user.db restore.db r) ↔
      match firstFailure course.insert usages.length with
      | none => contents restore.db =
        (if course.delete then [] else contents user.db) ++ usages.map Usage.values
      | some k =>
        if course.delete then contents user.db = (usages.map Usage.values).take k else k = 0 := by
  cases hfirst : firstFailure course.insert usages.length with
  | none =>
    simp only [insertLoop_all hfirst, Option.some.injEq, exists_eq_left', allOrNothing_succeeds,
      contents_foldl_append, contents_afterDelete]
    exact eq_comm
  | some k =>
    have hlt := firstFailure_lt hfirst
    simp only [insertLoop_fails hfirst, Option.some.injEq, exists_eq_left',
      allOrNothing_fails (show fail ≠ noError by decide), contents_foldl_append,
      contents_afterDelete, ← List.map_take]
    cases course.delete with
    | false =>
      have hne : usages ≠ [] := by
        rintro rfl
        cases hlt
      simp [hne]
    | true => simp [eq_comm]

theorem mapM_recopy {rows : List (List Value)} : rows.mapM (recopy engine) =
    (rows.mapM fun row => readUsage (row.map engine.print)).map (List.map Usage.values) := by
  induction rows with
  | nil => rfl
  | cons row rows ih =>
    rw [List.mapM_cons, List.mapM_cons, ih, recopy]
    cases readUsage (row.map engine.print) with
    | none => rfl
    | some usage =>
      cases rows.mapM fun row => readUsage (row.map engine.print) with
      | none => rfl
      | some usages => rfl

theorem dbGetUsageItem_eq {opened : Bool} {maxCount : ℕ} :
    dbGetUsageItem engine opened h.db maxCount =
      if opened then
        if (contents h.db).length ≤ maxCount then
          ((contents h.db).mapM fun row => readUsage (row.map engine.print)).map
            (· ++ List.replicate (maxCount - (contents h.db).length) .zero)
        else none
      else some (List.replicate maxCount .zero) := by
  have htext : selectHistory.text = some selectHistory.written :=
    text_eq_some.mpr ⟨selectHistory_fits.1, rfl⟩
  rw [dbGetUsageItem, htext, Option.bind_some, search_selectHistory]
  cases opened with
  | false => simp
  | true =>
    simp only [if_true, List.length_map, List.mapM_map]
    rfl

theorem rowCount_lt (rows : List (List Value)) : rowCount rows < 2 ^ 31 :=
  Int.bmod_lt (by decide)

theorem rowCount_eq {rows : List (List Value)} (hlen : rows.length < 2 ^ 31) :
    rowCount rows = rows.length :=
  atoi_decimal (by omega) (by omega)

theorem length_le_rowCount {rows : List (List Value)} :
    rows.length ≤ (rowCount rows).toNat ↔ rows.length < 2 ^ 31 := by
  constructor
  · intro hle
    have hlt := rowCount_lt rows
    omega
  · intro hlen
    rw [rowCount_eq hlen]
    exact le_refl _

theorem dbGetItemUsagelist_eq : dbGetItemUsagelist engine course h.db =
    if course.count then
      if rowCount (contents h.db) ≤ 0 then some ([], noError)
      else if course.calloc then
        (dbGetUsageItem engine course.select h.db (rowCount (contents h.db)).toNat).map (·, noError)
      else some ([], -1)
    else some ([], fail) := by
  have htext : countHistory.text = some countHistory.written :=
    text_eq_some.mpr ⟨countHistory_fits.1, rfl⟩
  rw [dbGetItemUsagelist, htext, Option.bind_some, exec_countHistory]
  cases course.count <;> rfl

theorem recopy_eq {startTime endTime roamType txBytes rxBytes : Value} {copy : List Value} :
    recopy engine [startTime, endTime, roamType, txBytes, rxBytes] = some copy ↔
      ∃ a b c x y, engine.print startTime = some a ∧ engine.print endTime = some b ∧
        engine.print roamType = some c ∧ engine.print txBytes = some x ∧
        engine.print rxBytes = some y ∧
        copy = Usage.values ⟨.ofInt 32 (atoi a), .ofInt 32 (atoi b), .ofInt 32 (atoi c),
          .ofNat 64 (strtoull x), .ofNat 64 (strtoull y)⟩ := by
  simp only [recopy, List.map_cons, List.map_nil]
  cases engine.print startTime with
  | none => simp [readUsage, setUsage]
  | some a =>
    cases engine.print endTime with
    | none => simp [readUsage, setUsage]
    | some b =>
      cases engine.print roamType with
      | none => simp [readUsage, setUsage]
      | some c =>
        cases engine.print txBytes with
        | none => simp [readUsage, setUsage]
        | some x =>
          cases engine.print rxBytes with
          | none => simp [readUsage, setUsage]
          | some y => simp [readUsage, setUsage, eq_comm]

theorem isInt32_iff {v : Value} : IsInt32 v ↔
    ∃ s, engine.print v = some s ∧ v = value (.int (BitVec.ofInt 32 (atoi s)).toInt) := by
  have hvalue (x : BitVec 32) : value (.int x.toInt) = .int x.toInt := by
    have hlow := x.le_toInt
    have hhigh := x.toInt_lt
    rw [value, if_pos (by omega)]
  constructor
  · rintro ⟨z, rfl, hlow, hhigh⟩
    refine ⟨decimal z, rfl, ?_⟩
    rw [hvalue, BitVec.toInt_ofInt, atoi_decimal hlow hhigh,
      Int.bmod_eq_of_le (by omega) (by omega)]
  · rintro ⟨s, -, heq⟩
    rw [hvalue] at heq
    exact ⟨_, heq, BitVec.le_toInt _, BitVec.toInt_lt⟩

theorem isBytes_iff {v : Value} : IsBytes engine v ↔
    ∃ s, engine.print v = some s ∧ v = value (.int (BitVec.ofNat 64 (strtoull s)).toNat) := by
  have hkept (s : List Char) : (BitVec.ofNat 64 (strtoull s)).toNat = strtoull s := by
    rw [BitVec.toNat_ofNat, Nat.mod_eq_of_lt strtoull_lt]
  simp only [hkept]
  constructor
  · rintro (⟨z, rfl, hlow, hhigh⟩ | ⟨n, rfl, hlow, hread⟩)
    · obtain ⟨n, rfl⟩ := Int.eq_ofNat_of_zero_le hlow
      have hread : strtoull (decimal n) = n := strtoull_decimal (by omega)
      refine ⟨decimal n, rfl, ?_⟩
      rw [hread, value, if_pos (by omega)]
    · refine ⟨_, rfl, ?_⟩
      rw [hread, value, if_neg (by omega)]
      rfl
  · rintro ⟨s, hprint, heq⟩
    by_cases hlt : strtoull s < 2 ^ 63
    · refine .inl ⟨(strtoull s : ℤ), ?_, Int.natCast_nonneg _, by omega⟩
      rw [heq, value, if_pos (by omega)]
    · have hreal : value (.int (strtoull s)) = .real (strtoull s) := by
        rw [value, if_neg (by omega)]
        rfl
      rw [heq, hreal] at hprint
      refine .inr ⟨strtoull s, heq.trans hreal, by omega, ?_⟩
      exact congrArg strtoull (Option.some.inj hprint)

theorem recopy_eq_self_iff : recopy engine row = some row ↔ Kept engine row := by
  constructor
  · intro h
    obtain ⟨usage, -, hrow⟩ := Option.map_eq_some_iff.mp h
    obtain ⟨a, b, c, x, y, rfl⟩ : ∃ a b c x y, row = [a, b, c, x, y] := ⟨_, _, _, _, _, hrow.symm⟩
    obtain ⟨_, _, _, _, _, ha, hb, hc, hx, hy, hcopy⟩ := recopy_eq.mp h
    simp only [Usage.values, Usage.literals, List.map_cons, List.map_nil, List.cons.injEq,
      and_true] at hcopy
    obtain ⟨ha', hb', hc', hx', hy'⟩ := hcopy
    exact ⟨a, b, c, x, y, rfl, isInt32_iff.mpr ⟨_, ha, ha'⟩, isInt32_iff.mpr ⟨_, hb, hb'⟩,
      isInt32_iff.mpr ⟨_, hc, hc'⟩, isBytes_iff.mpr ⟨_, hx, hx'⟩, isBytes_iff.mpr ⟨_, hy, hy'⟩⟩
  · rintro ⟨a, b, c, x, y, rfl, ha, hb, hc, hx, hy⟩
    obtain ⟨_, ha, ha'⟩ := isInt32_iff.mp ha
    obtain ⟨_, hb, hb'⟩ := isInt32_iff.mp hb
    obtain ⟨_, hc, hc'⟩ := isInt32_iff.mp hc
    obtain ⟨_, hx, hx'⟩ := isBytes_iff.mp hx
    obtain ⟨_, hy, hy'⟩ := isBytes_iff.mp hy
    refine recopy_eq.mpr ⟨_, _, _, _, _, ha, hb, hc, hx, hy, ?_⟩
    simp only [Usage.values, Usage.literals, List.map_cons, List.map_nil, ← ha', ← hb', ← hc',
      ← hx', ← hy']

theorem mapM_recopy_self_iff {rows : List (List Value)} :
    rows.mapM (recopy engine) = some rows ↔ ∀ row ∈ rows, Kept engine row := by
  induction rows with
  | nil => simp
  | cons row rows ih =>
    rw [List.forall_mem_cons, ← ih, ← recopy_eq_self_iff, List.mapM_cons]
    simp [Option.bind_eq_some_iff]

theorem dbCompareItem_eq : dbCompareItem engine course user.db restore.db =
    (dbGetItemUsagelist engine course restore.db).bind fun list =>
      insertLoop engine course.insert list.1 list.2 (user.afterDelete course.delete).db := by
  have htext : deleteHistory.text = some deleteHistory.written :=
    text_eq_some.mpr ⟨deleteHistory_fits.1, rfl⟩
  simp only [dbCompareItem, htext, Option.bind_some, exec_deleteHistory]

theorem length_of_mapM {α β : Type*} {f : α → Option β} {as : List α} {bs : List β}
    (h : as.mapM f = some bs) : bs.length = as.length := by
  induction as generalizing bs with
  | nil =>
    cases h
    rfl
  | cons a as ih =>
    rw [List.mapM_cons] at h
    obtain ⟨b, -, h⟩ := Option.bind_eq_some_iff.mp h
    obtain ⟨bs, hbs, heq⟩ := Option.bind_eq_some_iff.mp h
    cases heq
    rw [List.length_cons, List.length_cons, ih hbs]

theorem eq_append_iff {base rows target : List (List Value)}
    (hlength : rows.length = target.length) :
    target = base ++ rows ↔ base = [] ∧ rows = target := by
  constructor
  · intro heq
    have hbase : base = [] := by
      have := congrArg List.length heq
      rw [List.length_append] at this
      exact List.length_eq_zero_iff.mp (by omega)
    rw [hbase] at heq
    exact ⟨hbase, heq.symm⟩
  · rintro ⟨rfl, rfl⟩
    rfl

theorem inserted_selected_iff (hlen : (contents restore.db).length < 2 ^ 31) :
    (∃ r, (((dbGetUsageItem engine true restore.db (rowCount (contents restore.db)).toNat).map
        (·, noError)).bind fun list =>
          insertLoop engine course.insert list.1 list.2 (user.afterDelete course.delete).db) =
          some r ∧
        AllOrNothing user.db restore.db r) ↔
      match firstFailure course.insert (contents restore.db).length with
      | none => (course.delete = true ∨ contents user.db = []) ∧
        ∀ row ∈ contents restore.db, Kept engine row
      | some k => ∃ rows, (contents restore.db).mapM (recopy engine) = some rows ∧
        if course.delete then contents user.db = rows.take k else k = 0 := by
  have hcount : (rowCount (contents restore.db)).toNat = (contents restore.db).length := by
    rw [rowCount_eq hlen, Int.toNat_natCast]
  rw [← mapM_recopy_self_iff, mapM_recopy, dbGetUsageItem_eq, if_pos rfl, hcount,
    if_pos (le_refl _), Nat.sub_self]
  cases hread : (contents restore.db).mapM fun row => readUsage (row.map engine.print) with
  | none => cases firstFailure course.insert (contents restore.db).length <;> simp
  | some usages =>
    have hlength : usages.length = (contents restore.db).length := length_of_mapM hread
    simp only [List.replicate_zero, List.append_nil, Option.map_some, Option.bind_some,
      inserted_iff, hlength, Option.some.injEq, exists_eq_left']
    cases firstFailure course.insert (contents restore.db).length with
    | none =>
      have hrows : (usages.map Usage.values).length = (contents restore.db).length := by
        rw [List.length_map, hlength]
      show contents restore.db = _ ++ _ ↔ _
      rw [eq_append_iff hrows]
      cases course.delete <;> simp
    | some k => exact Iff.rfl

theorem inserted_zeros_iff {n : ℕ} :
    (∃ r, (((dbGetUsageItem engine false restore.db n).map (·, noError)).bind fun list =>
          insertLoop engine course.insert list.1 list.2 (user.afterDelete course.delete).db) =
          some r ∧
        AllOrNothing user.db restore.db r) ↔
      match firstFailure course.insert n with
      | none => contents restore.db = (if course.delete then [] else contents user.db) ++
        List.replicate n Usage.zero.values
      | some k =>
        if course.delete then contents user.db = List.replicate k Usage.zero.values else k = 0 := by
  rw [dbGetUsageItem_eq]
  simp only [Bool.false_eq_true, if_false, Option.map_some, Option.bind_some, inserted_iff,
    List.length_replicate, List.map_replicate]
  cases hfirst : firstFailure course.insert n with
  | none => exact Iff.rfl
  | some k => simp only [List.take_replicate, Nat.min_eq_left (firstFailure_lt hfirst).le]

theorem restored_iff (engine : Engine) (course : Course) (user restore : HistoryDb) :
    (∃ r, dbCompareItem engine course user.db restore.db = some r ∧
        AllOrNothing user.db restore.db r) ↔
      Meets engine course (contents user.db) (contents restore.db) := by
  have hearly (code : ℤ) (h : code ≠ noError) :
      (∃ r, insertLoop engine course.insert [] code (user.afterDelete course.delete).db = some r ∧
        AllOrNothing user.db restore.db r) ↔ (course.delete = true → contents user.db = []) := by
    simp only [insertLoop, Option.some.injEq, exists_eq_left']
    exact early_failure_iff h
  rw [dbCompareItem_eq, dbGetItemUsagelist_eq, Meets]
  cases hcount : course.count with
  | false => simpa using hearly fail (by decide)
  | true =>
    rw [if_pos rfl]
    by_cases hempty : rowCount (contents restore.db) ≤ 0
    · have hnot :
          ¬ (true = false ∨ 0 < rowCount (contents restore.db) ∧ course.calloc = false) := by
        rintro (h | ⟨h, -⟩)
        · cases h
        · omega
      rw [if_pos hempty, if_neg hnot, if_pos hempty]
      simp only [Option.bind_some, insertLoop, Option.some.injEq, exists_eq_left',
        allOrNothing_succeeds, contents_afterDelete]
      exact eq_comm
    · have hpos : 0 < rowCount (contents restore.db) := by omega
      rw [if_neg hempty]
      cases hcalloc : course.calloc with
      | false =>
        rw [if_neg Bool.false_ne_true, if_pos (.inr ⟨hpos, rfl⟩)]
        exact hearly (-1) (by decide)
      | true =>
        rw [if_pos rfl, if_neg (by simp), if_neg hempty]
        cases course.select with
        | false => exact inserted_zeros_iff
        | true =>
          by_cases hlen : (contents restore.db).length < 2 ^ 31
          · exact (inserted_selected_iff hlen).trans (and_iff_right hlen).symm
          · have hnone : dbGetUsageItem engine true restore.db
                (rowCount (contents restore.db)).toNat = none := by
              rw [dbGetUsageItem_eq, if_pos rfl, if_neg (mt length_le_rowCount.mp hlen)]
            exact iff_of_false (by simp [hnone]) fun h => hlen h.1

def record (values : List ℤ) : Row := fun name =>
  ((historyColumns.zip values).lookup name).elim .null .int

def historyDb (rows : List Row) : HistoryDb where
  db name := if name = historyTable then some ⟨historyColumns, fun _ => .null, rows⟩ else none
  table := ⟨historyColumns, fun _ => .null, rows⟩
  lookup := if_pos rfl
  columns := show historyColumns.map lower = historyColumns by decide +kernel

/-- The second of two insertions fails, after the history of the user has been deleted. -/
theorem failed_insertion_loses_history :
    ¬ ∃ r, dbCompareItem fragment ⟨true, true, true, true, fun i => i = 0⟩
        (historyDb [record [1, 2, 0, 10, 20]]).db
        (historyDb [record [3, 4, 0, 30, 40], record [5, 6, 0, 50, 60]]).db = some r ∧
      AllOrNothing (historyDb [record [1, 2, 0, 10, 20]]).db
        (historyDb [record [3, 4, 0, 30, 40], record [5, 6, 0, 50, 60]]).db r := by
  have hrun : (dbCompareItem fragment ⟨true, true, true, true, fun i => i = 0⟩
      (historyDb [record [1, 2, 0, 10, 20]]).db
      (historyDb [record [3, 4, 0, 30, 40], record [5, 6, 0, 50, 60]]).db).map
        (fun r => (r.2, contents r.1)) =
      some (fail, [[.int 3, .int 4, .int 0, .int 30, .int 40]]) := by
    decide +kernel
  rintro ⟨r, hr, hall⟩
  have hbefore : contents (historyDb [record [1, 2, 0, 10, 20]]).db =
      [[.int 1, .int 2, .int 0, .int 10, .int 20]] := by decide +kernel
  rw [hr, Option.map_some, Option.some.injEq, Prod.mk.injEq] at hrun
  rw [AllOrNothing, hrun.1, hrun.2, or_iff_right (by decide), hbefore] at hall
  cases hall.2

end DbHistory
