import MyGitCode.CBuffer
import MyGitCode.DbHistory

/-! # The items of a table

How `db_compare_item` reads a table other than `UsageHistory`. The list has an entry for each row
of the table, and goes on to the next one with each column that is not called `items`. -/
namespace DbItemList

open StrKit CFormat SqlTokens SqlStatements SqlTables DbStatements
open CText (Text)
open CBuffer

/-- What a call does instead of returning: it writes behind the statement or behind the list, or
reads a text that is NULL. -/
inductive Fault where
  | sqlCmd
  | itemLst
  | null
  deriving DecidableEq

structure Item where
  itemName : Buffer 128
  itemValue : Buffer 512
  type : ParamType

structure ItemList (maxCount : ℕ) where
  itemLst : Fin maxCount → Item
  curCount : ℕ

structure ItemInfo where
  maxCount : ℕ
  list : ItemList maxCount

def ItemList.calloc (n : ℕ) : ItemList n := ⟨fun _ => ⟨zeroed 128, zeroed 512, .u8⟩, 0⟩

def ItemInfo.zero : ItemInfo := ⟨0, .calloc 0⟩

/-- Whether the two queries succeed, and whether there is memory for the list. -/
structure Course where
  count : Bool
  calloc : Bool
  select : Bool

/-- A text of `azResult` with the name of its column. -/
abbrev Cell := Name × Option (List Char)

def cText (engine : Engine) (v : Value) : Option (List Char) :=
  (engine.print v).map fun s => cString s 0

/-- The texts of the rows, one after the other. The names of the columns stand once at the front
of `azResult`. -/
def cells (engine : Engine) (rows : List (List (Name × Value))) : List Cell :=
  rows.flatMap fun row =>
    ((rows.head?.getD []).map Prod.fst).zip (row.map fun c => cText engine c.2)

def writeCell {n : ℕ} (list : ItemList n) (c : Cell) : Except Fault (ItemList n) :=
  match c.2 with
  | none => .error .null
  | some s =>
    if h : list.curCount < n then
      let item := list.itemLst ⟨list.curCount, h⟩
      if c.1 = items then
        match strncpy item.itemName s 128 with
        | none => .error .itemLst
        | some itemName =>
          .ok ⟨Function.update list.itemLst ⟨list.curCount, h⟩
            { item with itemName := itemName }, list.curCount⟩
      else
        match strncpy item.itemValue s 512 with
        | none => .error .itemLst
        | some itemValue =>
          .ok ⟨Function.update list.itemLst ⟨list.curCount, h⟩
            { item with itemValue := itemValue, type := .str }, list.curCount + 1⟩
    else .error .itemLst

def countItems (tblName : List Char) : Command :=
  ⟨"select count(*) from %s;".toList, [.s tblName]⟩

def selectItems (tblName : List Char) : Command := ⟨"select *from %s;".toList, [.s tblName]⟩

/-- `__db_get_item`. A failed selection has no rows. -/
def dbGetItem {n : ℕ} (engine : Engine) (opened : Bool) (db : Database) (tblName : Text 32)
    (list : ItemList n) : Except Fault (ItemList n) :=
  match (selectItems tblName.chars).text with
  | none => .error .sqlCmd
  | some sqlCmd =>
    (cells engine ((searchByTable engine opened db sqlCmd).getD [])).foldlM writeCell list

def dbGetItemList (engine : Engine) (course : Course) (db : Database) (tblName : Text 32) :
    Except Fault (ItemInfo × ℤ) :=
  match (countItems tblName.chars).text with
  | none => .error .sqlCmd
  | some sqlCmd =>
    match (dbExecCmd engine course.count db sqlCmd).rows with
    | none => .ok (.zero, fail)
    | some rows =>
      match rows.foldlM (fun n row =>
          DbHistory.dbGetCountCb n (row.map fun c => engine.print c.2)) 0 with
      | none => .error .null
      | some ncolumn =>
        if 0 ≥ ncolumn then .ok (.zero, -1)
        else if course.calloc then
          (dbGetItem engine course.select db tblName (.calloc ncolumn.toNat)).map fun list =>
            (⟨_, list⟩, noError)
        else .ok (.zero, -1)

def IsValue (c : Cell) : Bool := c.1 ≠ items

/-- Every text that is reached comes behind fewer values than the list has entries. -/
def Room (n : ℕ) (cells : List Cell) : Prop :=
  ∀ pre c post, cells = pre ++ c :: post → (∀ d ∈ pre, d.2 ≠ none) → c.2 ≠ none →
    pre.countP IsValue < n

variable {engine : Engine} {course : Course} {db : Database} {tblName : Text 32} {tbl : TableName}
  {t : Table} {n : ℕ} {list list' : ItemList n} {c : Cell} {cs : List Cell}

theorem writeCell_outside {s : List Char} (hs : c.2 = some s) (h : ¬ list.curCount < n) :
    writeCell list c = .error .itemLst := by
  rw [writeCell, hs]
  exact dif_neg h

theorem writeCell_inside {s : List Char} (hs : c.2 = some s) (h : list.curCount < n) :
    ∃ list', writeCell list c = .ok list' ∧
      list'.curCount = list.curCount + [c].countP IsValue := by
  rw [writeCell, hs]
  dsimp only
  rw [dif_pos h, strncpy_cap, strncpy_cap]
  split
  · rename_i hitems
    exact ⟨_, rfl, by simp [IsValue, hitems]⟩
  · rename_i hvalue
    exact ⟨_, rfl, by simp [IsValue, hvalue]⟩

theorem forall_split_cons {P : List Cell → Cell → Prop} :
    (∀ pre d post, c :: cs = pre ++ d :: post → P pre d) ↔
      P [] c ∧ ∀ pre d post, cs = pre ++ d :: post → P (c :: pre) d := by
  constructor
  · intro h
    refine ⟨h [] c cs rfl, ?_⟩
    rintro pre d post rfl
    exact h (c :: pre) d post rfl
  · rintro ⟨hfirst, hrest⟩ pre d post hsplit
    cases pre with
    | nil =>
      obtain ⟨rfl, -⟩ := List.cons.inj hsplit
      exact hfirst
    | cons e pre =>
      obtain ⟨rfl, hcs⟩ := List.cons.inj hsplit
      exact hrest pre d post hcs

theorem fill_inside_iff : cs.foldlM writeCell list ≠ .error .itemLst ↔
    ∀ pre c post, cs = pre ++ c :: post → (∀ d ∈ pre, d.2 ≠ none) → c.2 ≠ none →
      list.curCount + pre.countP IsValue < n := by
  induction cs generalizing list with
  | nil =>
    refine iff_of_true nofun ?_
    intro pre c post h
    simp at h
  | cons c cs ih =>
    refine Iff.trans ?_ forall_split_cons.symm
    rw [List.foldlM_cons]
    cases hs : c.2 with
    | none =>
      have hwrite : writeCell list c = .error .null := by rw [writeCell, hs]
      rw [hwrite]
      refine iff_of_true nofun ⟨fun _ hc => absurd rfl hc, ?_⟩
      intro pre d post _ hpre
      exact absurd hs (hpre c List.mem_cons_self)
    | some s =>
      by_cases hlt : list.curCount < n
      · obtain ⟨list', hwrite, hcount⟩ := writeCell_inside hs hlt
        have hcons (pre : List Cell) : list.curCount + (c :: pre).countP IsValue =
            list'.curCount + pre.countP IsValue := by
          rw [hcount, Nat.add_assoc, ← List.countP_append, List.singleton_append]
        rw [hwrite]
        show cs.foldlM writeCell list' ≠ _ ↔ _
        simp only [ih, hcons, List.forall_mem_cons, hs, ne_eq, reduceCtorEq, not_false_eq_true,
          true_and]
        exact (and_iff_right fun _ _ => hlt).symm
      · rw [writeCell_outside hs hlt]
        refine iff_of_false (fun h => h rfl) ?_
        rintro ⟨hfirst, -⟩
        exact hlt (hfirst nofun nofun)

theorem writeCell_ok (h : writeCell list c = .ok list') :
    c.2 ≠ none ∧ list.curCount < n ∧ list'.curCount = list.curCount + [c].countP IsValue := by
  cases hs : c.2 with
  | none =>
    rw [writeCell, hs] at h
    cases h
  | some s =>
    by_cases hlt : list.curCount < n
    · obtain ⟨list₁, hwrite, hcount⟩ := writeCell_inside hs hlt
      rw [hwrite] at h
      obtain rfl := Except.ok.inj h
      exact ⟨nofun, hlt, hcount⟩
    · rw [writeCell_outside hs hlt] at h
      cases h

theorem fill_ok (h : cs.foldlM writeCell list = .ok list') (hle : list.curCount ≤ n) :
    (∀ c ∈ cs, c.2 ≠ none) ∧ list'.curCount = list.curCount + cs.countP IsValue ∧
      list'.curCount ≤ n := by
  induction cs generalizing list with
  | nil =>
    obtain rfl := Except.ok.inj h
    exact ⟨nofun, rfl, hle⟩
  | cons c cs ih =>
    rw [List.foldlM_cons] at h
    cases hwrite : writeCell list c with
    | error e =>
      rw [hwrite] at h
      cases h
    | ok list₁ =>
      rw [hwrite] at h
      obtain ⟨hc, hlt, hcount⟩ := writeCell_ok hwrite
      have hstep : [c].countP IsValue ≤ 1 := List.countP_le_length
      obtain ⟨hcs, hcount', hle'⟩ := ih h (by omega)
      refine ⟨List.forall_mem_cons.mpr ⟨hc, hcs⟩, ?_, hle'⟩
      rw [hcount', hcount, Nat.add_assoc, ← List.countP_append, List.singleton_append]

def rowCells (engine : Engine) (t : Table) (row : Row) : List Cell :=
  t.columns.map fun c => (c, cText engine (row (lower c)))

def tableCells (engine : Engine) (t : Table) : List Cell := t.rows.flatMap (rowCells engine t)

def NoNull (engine : Engine) (t : Table) : Prop :=
  ∀ row ∈ t.rows, ∀ c ∈ t.columns, cText engine (row (lower c)) ≠ none

theorem cells_columnsOf : cells engine (columnsOf t .all t.rows) = tableCells engine t := by
  have hzip (row : Row) : t.columns.zip ((t.columns.map fun c => (c, row (lower c))).map
      fun c => cText engine c.2) = rowCells engine t row := by
    have h := List.zip_map' (f := id) (g := fun c => cText engine (row (lower c))) (l := t.columns)
    rw [List.map_id] at h
    rw [List.map_map]
    exact h
  have hhead : ∀ rows : List Row, ∀ row ∈ rows,
      ((columnsOf t .all rows).head?.getD []).map Prod.fst = t.columns := by
    intro rows row hrow
    cases rows with
    | nil => cases hrow
    | cons first rows =>
      rw [columnsOf, List.map_cons, List.head?_cons, Option.getD_some, List.map_map]
      exact List.map_id _
  have hrows : columnsOf t .all t.rows =
      t.rows.map fun row => t.columns.map fun c => (c, row (lower c)) := rfl
  rw [cells, tableCells]
  nth_rewrite 2 [hrows]
  rw [List.flatMap_map]
  apply List.flatMap_congr
  intro row hrow
  rw [hhead t.rows row hrow, hzip]

theorem countP_rowCells {row : Row} :
    (rowCells engine t row).countP IsValue = t.columns.countP (· ≠ items) := by
  rw [rowCells, List.countP_map]
  rfl

theorem countP_tableCells {rows : List Row} :
    (rows.flatMap (rowCells engine t)).countP IsValue =
      rows.length * t.columns.countP (· ≠ items) := by
  induction rows with
  | nil => simp
  | cons row rows ih =>
    rw [List.flatMap_cons, List.countP_append, countP_rowCells, ih, List.length_cons,
      Nat.succ_mul, Nat.add_comm]

theorem rowCells_split (hcolumns : ∀ c ∈ t.columns.dropLast, c = items) {row : Row}
    {pre post : List Cell} (h : rowCells engine t row = pre ++ c :: post) :
    pre.countP IsValue = 0 := by
  obtain ⟨columns, rest, hsplit, rfl, hrest⟩ := List.map_eq_append_iff.mp h
  have hne : rest ≠ [] := by
    rintro rfl
    cases hrest
  rw [hsplit, List.dropLast_append_of_ne_nil hne] at hcolumns
  rw [List.countP_eq_zero, List.forall_mem_map]
  intro name hname
  rw [hcolumns name (List.mem_append_left _ hname)]
  simp [IsValue]

theorem countP_columns_le (hcolumns : ∀ c ∈ t.columns.dropLast, c = items) :
    t.columns.countP (· ≠ items) ≤ 1 := by
  rcases List.eq_nil_or_concat' t.columns with hnil | ⟨init, last, hsplit⟩
  · rw [hnil]
    exact Nat.zero_le 1
  · rw [hsplit, List.dropLast_concat] at hcolumns
    have hinit : init.countP (· ≠ items) = 0 := by
      rw [List.countP_eq_zero]
      intro name hname
      rw [hcolumns name hname]
      decide
    rw [hsplit, List.countP_append, hinit, Nat.zero_add]
    exact List.countP_le_length

theorem tableCells_split (hcolumns : ∀ c ∈ t.columns.dropLast, c = items) {rows : List Row}
    {pre post : List Cell} (h : rows.flatMap (rowCells engine t) = pre ++ c :: post) :
    pre.countP IsValue < rows.length := by
  induction rows generalizing pre with
  | nil => simp at h
  | cons row rows ih =>
    rw [List.flatMap_cons, List.append_eq_append_iff] at h
    rcases h with ⟨pre', rfl, hrest⟩ | ⟨post', hrow, hpost⟩
    · have hle := countP_columns_le hcolumns
      rw [List.countP_append, countP_rowCells, List.length_cons]
      have hlt := ih hrest
      omega
    · cases post' with
      | nil =>
        have hne : 0 < rows.length := by
          apply List.length_pos_of_ne_nil
          rintro rfl
          cases hpost
        have hle := countP_columns_le hcolumns
        rw [List.append_nil] at hrow
        rw [← hrow, countP_rowCells, List.length_cons]
        omega
      | cons d post' =>
        rw [rowCells_split hcolumns hrow]
        exact Nat.succ_pos _

theorem noNull_iff : NoNull engine t ↔ ∀ c ∈ tableCells engine t, c.2 ≠ none := by
  constructor
  · intro hnull c hc
    obtain ⟨row, hrow, hc⟩ := List.mem_flatMap.mp hc
    obtain ⟨name, hname, rfl⟩ := List.mem_map.mp hc
    exact hnull row hrow name hname
  · intro hall row hrow name hname
    exact hall _ (List.mem_flatMap.mpr ⟨row, hrow, List.mem_map.mpr ⟨name, hname, rfl⟩⟩)

/-- With an entry for each row there is room exactly if all columns before the last one are
called `items`. -/
theorem room_iff (hnull : NoNull engine t) (hrows : t.rows ≠ []) :
    Room t.rows.length (tableCells engine t) ↔ ∀ c ∈ t.columns.dropLast, c = items := by
  constructor
  · intro hroom
    rcases List.eq_nil_or_concat' t.columns with hnil | ⟨init, last, hcolumns⟩
    · rw [hnil]
      exact nofun
    · obtain ⟨rows, row, hsplit⟩ := (List.eq_nil_or_concat' t.rows).resolve_left hrows
      have hcells : tableCells engine t = (rows.flatMap (rowCells engine t) ++
          init.map fun c => (c, cText engine (row (lower c)))) ++
            (last, cText engine (row (lower last))) :: [] := by
        have hlast : rowCells engine t row = t.columns.map fun c =>
          (c, cText engine (row (lower c))) := rfl
        rw [tableCells, hsplit, List.flatMap_append, List.flatMap_singleton, hlast, hcolumns,
          List.map_append, List.map_singleton, List.append_assoc]
      have hall := noNull_iff.mp hnull
      rw [hcells, List.forall_mem_append, List.forall_mem_singleton] at hall
      have hlt := hroom _ _ _ hcells hall.1 hall.2
      have hinit : (init.map fun c => (c, cText engine (row (lower c)))).countP IsValue =
          init.countP (· ≠ items) := by
        rw [List.countP_map]
        rfl
      rw [List.countP_append, countP_tableCells, hinit, hsplit, List.length_append,
        List.length_singleton, hcolumns, List.countP_append] at hlt
      have hzero : init.countP (· ≠ items) = 0 := by
        by_contra hne
        have hle := Nat.le_mul_of_pos_right rows.length (Nat.pos_of_ne_zero hne)
        rw [Nat.mul_add] at hlt
        omega
      rw [hcolumns, List.dropLast_concat]
      intro name hname
      simpa using List.countP_eq_zero.mp hzero name hname
  · rintro hcolumns pre c post hsplit - -
    exact tableCells_split hcolumns hsplit

def countLead : List Char := "select count(*) from ".toList

def selectLead : List Char := "select *from ".toList

theorem items_leads :
    (("select count(*) from %s;".toList = formatOf [(countLead, .s)] [';'] ∧ '%' ∉ countLead) ∧
      "select *from %s;".toList = formatOf [(selectLead, .s)] [';'] ∧ '%' ∉ selectLead) ∧
    (countLead.length = 21 ∧ selectLead.length = 13) ∧
    run .blank countLead = some ([keyword "select", keyword "count", .symbol '(', .symbol '*',
      .symbol ')', keyword "from"], .blank) ∧
    run .blank selectLead = some ([keyword "select", .symbol '*', keyword "from"], .blank) := by
  decide +kernel

theorem sprintf_name {format lead : List Char} (tblName : List Char)
    (h : format = formatOf [(lead, .s)] [';'] ∧ '%' ∉ lead) :
    sprintf format [.s tblName] = lead ++ (tblName ++ [';']) := by
  rw [h.1, sprintf_formatOf rfl (List.forall_mem_singleton.mpr h.2) (by decide)]
  rfl

theorem countItems_written (tblName : List Char) :
    (countItems tblName).written = countLead ++ (tblName ++ [';']) :=
  sprintf_name tblName items_leads.1.1

theorem selectItems_written (tblName : List Char) :
    (selectItems tblName).written = selectLead ++ (tblName ++ [';']) :=
  sprintf_name tblName items_leads.1.2

theorem items_text (tblName : Text 32) :
    (countItems tblName.chars).text = some (countItems tblName.chars).written ∧
      (selectItems tblName.chars).text = some (selectItems tblName.chars).written := by
  have hfits := tblName.fits
  obtain ⟨hcount, hselect⟩ := items_leads.2.1
  constructor
  · refine text_eq_some.mpr ⟨?_, rfl⟩
    rw [countItems_written, List.length_append, List.length_append, hcount, List.length_singleton]
    omega
  · refine text_eq_some.mpr ⟨?_, rfl⟩
    rw [selectItems_written, List.length_append, List.length_append, hselect,
      List.length_singleton]
    omega

def countItemsStmt (tbl : TableName) : Stmt := .select .count (lower tbl.chars) none

def selectItemsStmt (tbl : TableName) : Stmt := .select .all (lower tbl.chars) none

theorem spells_name {lead : List Char} {ts : List Token} {stmt : Stmt}
    (hlead : run .blank lead = some (ts, .blank))
    (hstmt : stmt.tokens = ts ++ [.word (lower tbl.chars)]) :
    Spells (lead ++ (tbl.chars ++ [';'])) stmt := by
  have hrun : run .blank (lead ++ (tbl.chars ++ [';'])) =
      some (ts ++ .word (lower tbl.chars) :: [.symbol ';'], .blank) :=
    run_table tbl hlead (by decide) ⟨';', [], rfl, by decide⟩
  refine .inr ?_
  rw [tokens, lex, hrun, hstmt, List.append_assoc]
  simp [finish]

theorem spells_countItems : Spells (countItems tbl.chars).written (countItemsStmt tbl) := by
  rw [countItems_written]
  exact spells_name items_leads.2.2.1 rfl

theorem spells_selectItems : Spells (selectItems tbl.chars).written (selectItemsStmt tbl) := by
  rw [selectItems_written]
  exact spells_name items_leads.2.2.2 rfl

theorem countItemsStmt_wf (tbl : TableName) : (countItemsStmt tbl).Wf where
  proper := trivial
  names := List.forall_mem_singleton.mpr tbl.name
  columns := nofun

theorem selectItemsStmt_wf (tbl : TableName) : (selectItemsStmt tbl).Wf where
  proper := trivial
  names := List.forall_mem_singleton.mpr tbl.name
  columns := nofun

/-- The number of rows as the code gets it, an `int`. -/
def entryCount (t : Table) : ℤ := atoi (decimal t.rows.length)

section Queries

variable (hdb : db (lower tbl.chars) = some t)
include hdb

theorem exec_countItems {opened : Bool} :
    (dbExecCmd engine opened db (countItems tbl.chars).written).rows =
      if opened then some [[("count(*)".toList, .int t.rows.length)]] else none := by
  have heffect : (effect (countItemsStmt tbl) db).rows =
      some [[("count(*)".toList, .int t.rows.length)]] := by
    rw [countItemsStmt, effect_select_rows, hdb]
    simp [Table.knows, condNames, Columns.names, columnsOf, filter_holds_none]
  rw [dbExecCmd_eq (countItemsStmt_wf tbl) spells_countItems, ← heffect]
  cases opened <;> rfl

theorem search_selectItems {opened : Bool} :
    searchByTable engine opened db (selectItems tbl.chars).written =
      if opened then some (columnsOf t .all t.rows) else none := by
  have heffect : (effect (selectItemsStmt tbl) db).rows = some (columnsOf t .all t.rows) := by
    rw [selectItemsStmt, effect_select_rows, hdb]
    simp [Table.knows, condNames, Columns.names, filter_holds_none]
  rw [searchByTable, engine.exec_spells _ _ _ (selectItemsStmt_wf tbl) spells_selectItems,
    heffect]

theorem dbGetItem_eq {opened : Bool} (hlen : tbl.chars.length < 32) :
    dbGetItem engine opened db ⟨tbl.chars, hlen⟩ list =
      (if opened then tableCells engine t else []).foldlM writeCell list := by
  rw [dbGetItem, (items_text ⟨tbl.chars, hlen⟩).2]
  dsimp only
  rw [search_selectItems hdb]
  cases opened with
  | false => rfl
  | true => rw [if_pos rfl, if_pos rfl, Option.getD_some, cells_columnsOf]

theorem dbGetItemList_eq (hlen : tbl.chars.length < 32) :
    dbGetItemList engine course db ⟨tbl.chars, hlen⟩ =
      if course.count then
        if 0 ≥ entryCount t then .ok (.zero, -1)
        else if course.calloc then
          ((if course.select then tableCells engine t else []).foldlM writeCell
            (.calloc (entryCount t).toNat)).map fun list => (⟨_, list⟩, noError)
        else .ok (.zero, -1)
      else .ok (.zero, fail) := by
  have hcount : [[("count(*)".toList, Value.int t.rows.length)]].foldlM
      (fun n row => DbHistory.dbGetCountCb n (row.map fun c => engine.print c.2)) 0 =
        some (entryCount t) := rfl
  rw [dbGetItemList, (items_text ⟨tbl.chars, hlen⟩).1]
  dsimp only
  rw [exec_countItems hdb]
  cases course.count with
  | false => rfl
  | true =>
    rw [if_pos rfl, if_pos rfl]
    dsimp only
    rw [hcount]
    dsimp only
    rw [dbGetItem_eq hdb]

end Queries

structure Inside (r : Except Fault (ItemInfo × ℤ)) : Prop where
  written : r ≠ .error .itemLst
  counted : ∀ info rc, r = .ok (info, rc) → info.list.curCount ≤ info.maxCount

def Spelled {cap : ℕ} (b : Buffer cap) (s : Option (List Char)) : Prop :=
  Terminated b ∧ s = some (text b)

/-- An entry for each row, with the item name and the value of the row. -/
structure Loaded (engine : Engine) (t : Table) (info : ItemInfo) : Prop where
  counted : info.list.curCount = t.rows.length
  allocated : info.maxCount = t.rows.length
  name : ∀ i (h : i < info.maxCount) (h' : i < t.rows.length),
    Spelled (info.list.itemLst ⟨i, h⟩).itemName (cText engine (t.rows[i] items))
  value : ∀ i (h : i < info.maxCount) (h' : i < t.rows.length),
    Spelled (info.list.itemLst ⟨i, h⟩).itemValue (cText engine (t.rows[i] valueColumn))

def Short (cap : ℕ) (s : Option (List Char)) : Prop := ∃ chars, s = some chars ∧ chars.length < cap

theorem fill_room_iff : cs.foldlM writeCell (.calloc n) ≠ .error .itemLst ↔ Room n cs := by
  rw [fill_inside_iff]
  simp only [ItemList.calloc, Nat.zero_add, Room]

theorem fill_inside : Inside ((cs.foldlM writeCell (.calloc n)).map fun list =>
    (⟨n, list⟩, noError)) ↔ Room n cs := by
  rw [← fill_room_iff]
  cases hfill : cs.foldlM writeCell (.calloc n) with
  | error e =>
    constructor
    · rintro ⟨hwritten, -⟩ hfault
      obtain rfl := Except.error.inj hfault
      exact hwritten rfl
    · intro hfault
      refine ⟨?_, nofun⟩
      intro hwritten
      obtain rfl := Except.error.inj hwritten
      exact hfault rfl
  | ok list =>
    refine iff_of_true ⟨nofun, ?_⟩ nofun
    rintro _ _ ⟨⟩
    exact (fill_ok hfill (Nat.zero_le n)).2.2

theorem inside_zero {rc : ℤ} : Inside (.ok (.zero, rc)) := by
  refine ⟨nofun, ?_⟩
  rintro _ _ ⟨⟩
  exact le_rfl

theorem inside_iff (hdb : db (lower tbl.chars) = some t) (hlen : tbl.chars.length < 32) :
    Inside (dbGetItemList engine course db ⟨tbl.chars, hlen⟩) ↔
      (course.count → 0 < entryCount t → course.calloc → course.select →
        Room (entryCount t).toNat (tableCells engine t)) := by
  rw [dbGetItemList_eq hdb]
  cases course.count with
  | false => exact iff_of_true inside_zero nofun
  | true =>
    by_cases hpos : 0 < entryCount t
    · have hcount : ¬ 0 ≥ entryCount t := by omega
      rw [if_pos rfl, if_neg hcount]
      cases course.calloc with
      | false => exact iff_of_true inside_zero nofun
      | true =>
        rw [if_pos rfl, fill_inside]
        cases course.select with
        | false =>
          refine iff_of_true ?_ nofun
          intro pre c post hsplit
          simp at hsplit
        | true => simp [hpos]
    · have hcount : 0 ≥ entryCount t := by omega
      rw [if_pos rfl, if_pos hcount]
      exact iff_of_true inside_zero fun _ h => absurd h hpos

theorem nul_not_mem_cText {v : Value} {s : List Char} (h : cText engine v = some s) : nul ∉ s := by
  obtain ⟨s', -, rfl⟩ := Option.map_eq_some_iff.mp h
  exact nul_not_mem_cString

theorem spelled_iff {cap : ℕ} {v : Value} {s : List Char} (h : cText engine v = some s) :
    Spelled (ofStrncpy cap s) (cText engine v) ↔ Short cap (cText engine v) := by
  rw [Spelled, h, Option.some_inj, eq_comm (a := s), ofStrncpy_text_iff (nul_not_mem_cText h)]
  constructor
  · intro hlt
    exact ⟨s, rfl, hlt⟩
  · rintro ⟨_, ⟨⟩, hlt⟩
    exact hlt

def Entered (engine : Engine) (row : Row) (item : Item) : Prop :=
  ∃ name value, cText engine (row items) = some name ∧
    cText engine (row valueColumn) = some value ∧
    item = ⟨ofStrncpy 128 name, ofStrncpy 512 value, .str⟩

structure Holding (engine : Engine) (rows : List Row) (list : ItemList n) : Prop where
  counted : list.curCount = rows.length
  entered : ∀ i (h : i < n) (h' : i < rows.length), Entered engine rows[i] (list.itemLst ⟨i, h⟩)

theorem writeCell_items {s : List Char} (h : list.curCount < n) :
    writeCell list (items, some s) = .ok ⟨Function.update list.itemLst ⟨list.curCount, h⟩
      { list.itemLst ⟨list.curCount, h⟩ with itemName := ofStrncpy 128 s }, list.curCount⟩ := by
  rw [writeCell]
  dsimp only
  rw [dif_pos h, if_pos rfl, strncpy_cap]

theorem writeCell_value {name : Name} {s : List Char} (hname : name ≠ items)
    (h : list.curCount < n) :
    writeCell list (name, some s) = .ok ⟨Function.update list.itemLst ⟨list.curCount, h⟩
      { list.itemLst ⟨list.curCount, h⟩ with itemValue := ofStrncpy 512 s, type := .str },
        list.curCount + 1⟩ := by
  rw [writeCell]
  dsimp only
  rw [dif_pos h, if_neg hname, strncpy_cap]

theorem fill_row (hcolumns : t.columns = [items, valueColumn]) {row : Row} {name value : List Char}
    (hname : cText engine (row items) = some name)
    (hvalue : cText engine (row valueColumn) = some value) (h : list.curCount < n) :
    (rowCells engine t row).foldlM writeCell list =
      .ok ⟨Function.update list.itemLst ⟨list.curCount, h⟩
        ⟨ofStrncpy 128 name, ofStrncpy 512 value, .str⟩, list.curCount + 1⟩ := by
  have hcells : rowCells engine t row = [(items, some name), (valueColumn, some value)] := by
    rw [rowCells, hcolumns, ← hname, ← hvalue]
    rfl
  rw [hcells, List.foldlM_cons, writeCell_items h]
  show [_].foldlM writeCell _ = _
  rw [List.foldlM_cons]
  simp only [List.foldlM_nil, bind_pure]
  refine (writeCell_value (by decide) ?_).trans ?_
  · exact h
  · dsimp only
    rw [Function.update_self, Function.update_idem]

theorem fill_rows (hcolumns : t.columns = [items, valueColumn]) {rows : List Row}
    (hlen : rows.length ≤ n) (hall : ∀ row ∈ rows, cText engine (row items) ≠ none ∧
      cText engine (row valueColumn) ≠ none) :
    ∃ list, (rows.flatMap (rowCells engine t)).foldlM writeCell (.calloc n) = .ok list ∧
      Holding engine rows list := by
  induction rows using List.reverseRecOn with
  | nil => exact ⟨.calloc n, rfl, rfl, nofun⟩
  | append_singleton rows row ih =>
    rw [List.length_append, List.length_singleton] at hlen
    rw [List.forall_mem_append, List.forall_mem_singleton] at hall
    obtain ⟨list, hfill, hcounted, hentered⟩ := ih (Nat.le_of_succ_le hlen) hall.1
    obtain ⟨name, hname⟩ := Option.ne_none_iff_exists'.mp hall.2.1
    obtain ⟨value, hvalue⟩ := Option.ne_none_iff_exists'.mp hall.2.2
    have hlt : list.curCount < n := hcounted.trans_lt hlen
    rw [List.flatMap_append, List.flatMap_singleton, List.foldlM_append, hfill]
    refine ⟨_, fill_row hcolumns hname hvalue hlt, ?_, ?_⟩
    · rw [List.length_append, List.length_singleton]
      exact congrArg (· + 1) hcounted
    · intro i h h'
      by_cases hi : i = list.curCount
      · subst hi
        have hlast : (rows ++ [row])[list.curCount] = row := by
          simp only [hcounted, List.getElem_concat_length]
        rw [hlast]
        refine ⟨name, value, hname, hvalue, ?_⟩
        exact Function.update_self _ _ _
      · rw [List.length_append, List.length_singleton] at h'
        have hi' : i < rows.length := by omega
        have hne : (⟨i, h⟩ : Fin n) ≠ ⟨list.curCount, hlt⟩ := fun heq => hi (Fin.val_eq_of_eq heq)
        rw [List.getElem_append_left hi']
        dsimp only
        rw [Function.update_of_ne hne]
        exact hentered i h hi'

theorem Holding.loaded {info : ItemInfo} (h : Holding engine t.rows info.list)
    (hmax : info.maxCount = t.rows.length) : Loaded engine t info ↔
      ∀ row ∈ t.rows, Short 128 (cText engine (row items)) ∧
        Short 512 (cText engine (row valueColumn)) := by
  constructor
  · intro hloaded row hrow
    obtain ⟨i, hi, rfl⟩ := List.mem_iff_getElem.mp hrow
    obtain ⟨name, value, hname, hvalue, hitem⟩ := h.entered i (hmax ▸ hi) hi
    have hspelled := hloaded.name i (hmax ▸ hi) hi
    have hspelled' := hloaded.value i (hmax ▸ hi) hi
    rw [hitem] at hspelled hspelled'
    exact ⟨(spelled_iff hname).mp hspelled, (spelled_iff hvalue).mp hspelled'⟩
  · intro hshort
    refine ⟨h.counted, hmax, ?_, ?_⟩
    · intro i hi hi'
      obtain ⟨name, value, hname, hvalue, hitem⟩ := h.entered i hi hi'
      rw [hitem]
      exact (spelled_iff hname).mpr (hshort _ (List.getElem_mem hi')).1
    · intro i hi hi'
      obtain ⟨name, value, hname, hvalue, hitem⟩ := h.entered i hi hi'
      rw [hitem]
      exact (spelled_iff hvalue).mpr (hshort _ (List.getElem_mem hi')).2

/-- When the list of a table with items and values holds them. -/
structure Orderly (engine : Engine) (course : Course) (t : Table) : Prop where
  queries : course.count ∧ course.calloc ∧ course.select
  columns : t.columns = [items, valueColumn]
  length : t.rows.length < 2 ^ 31
  short : ∀ row ∈ t.rows, Short 128 (cText engine (row items)) ∧
    Short 512 (cText engine (row valueColumn))

theorem entryCount_lt : entryCount t < 2 ^ 31 := Int.bmod_lt (by decide)

theorem entryCount_eq (h : t.rows.length < 2 ^ 31) : entryCount t = t.rows.length :=
  atoi_decimal (by omega) (by omega)

/-- The call returns, and its list is right. -/
def Loads (engine : Engine) (t : Table) (r : Except Fault (ItemInfo × ℤ)) : Prop :=
  ∃ info rc, r = .ok (info, rc) ∧ Loaded engine t info

theorem loads_zero_iff {rc : ℤ} : Loads engine t (.ok (.zero, rc)) ↔ t.rows = [] := by
  constructor
  · rintro ⟨_, _, ⟨⟩, hloaded⟩
    exact List.eq_nil_of_length_eq_zero hloaded.counted.symm
  · intro hnil
    refine ⟨_, _, rfl, ?_, ?_, ?_, ?_⟩
    · rw [hnil]
      rfl
    · rw [hnil]
      rfl
    · intro _ h
      exact absurd h (Nat.not_lt_zero _)
    · intro _ h
      exact absurd h (Nat.not_lt_zero _)

theorem entered_table (h : (tableCells engine t).foldlM writeCell (.calloc n) = .ok list) :
    NoNull engine t ∧ Room n (tableCells engine t) := by
  refine ⟨noNull_iff.mpr (fill_ok h (Nat.zero_le _)).1, ?_⟩
  rw [← fill_room_iff, h]
  exact nofun

theorem orderly_of_fill {opened : Bool} {info : ItemInfo} {rc : ℤ} (hnil : t.rows ≠ [])
    (hcolumns : t.columns = [items, valueColumn] ∨ t.columns = [valueColumn, items])
    (h : ((if opened then tableCells engine t else []).foldlM writeCell
      (.calloc (entryCount t).toNat)).map (fun list => ((⟨_, list⟩ : ItemInfo), noError)) =
        .ok (info, rc)) (hloaded : Loaded engine t info) :
    opened ∧ t.columns = [items, valueColumn] ∧ t.rows.length < 2 ^ 31 ∧
      ∀ row ∈ t.rows, Short 128 (cText engine (row items)) ∧
        Short 512 (cText engine (row valueColumn)) := by
  have hpos := List.length_pos_of_ne_nil hnil
  cases opened with
  | false =>
    cases h
    have hcounted : 0 = t.rows.length := hloaded.counted
    omega
  | true =>
    rw [if_pos rfl] at h
    cases hfill : (tableCells engine t).foldlM writeCell (.calloc (entryCount t).toNat) with
    | error e =>
      rw [hfill] at h
      cases h
    | ok list =>
      rw [hfill] at h
      cases h
      have hmax : (entryCount t).toNat = t.rows.length := hloaded.allocated
      have hlt : entryCount t < 2 ^ 31 := entryCount_lt
      obtain ⟨hnull, hroom⟩ := entered_table hfill
      rw [hmax, room_iff hnull hnil] at hroom
      have hitems : t.columns = [items, valueColumn] := by
        apply hcolumns.resolve_right
        intro hswap
        rw [hswap] at hroom
        have hvalue := hroom valueColumn (List.mem_singleton.mpr rfl)
        revert hvalue
        decide
      have hread : ∀ row ∈ t.rows, cText engine (row items) ≠ none ∧
          cText engine (row valueColumn) ≠ none := by
        intro row hrow
        have hrow := hnull row hrow
        rw [hitems] at hrow
        exact ⟨hrow items (by simp), hrow valueColumn (by simp)⟩
      obtain ⟨list', hfill', hholding⟩ := fill_rows hitems hmax.ge hread
      obtain rfl : list = list' := Except.ok.inj (hfill.symm.trans hfill')
      exact ⟨rfl, hitems, by omega, (hholding.loaded hmax).mp hloaded⟩

theorem loads_iff (hdb : db (lower tbl.chars) = some t) (hlen : tbl.chars.length < 32)
    (hcolumns : t.columns = [items, valueColumn] ∨ t.columns = [valueColumn, items]) :
    Loads engine t (dbGetItemList engine course db ⟨tbl.chars, hlen⟩) ↔
      t.rows = [] ∨ Orderly engine course t := by
  rw [dbGetItemList_eq hdb]
  by_cases hnil : t.rows = []
  · have hcount : 0 ≥ entryCount t := by
      rw [entryCount, hnil]
      decide
    rw [if_pos hcount]
    refine iff_of_true ?_ (.inl hnil)
    split <;> exact loads_zero_iff.mpr hnil
  · rw [or_iff_right hnil]
    constructor
    · intro h
      by_cases hcount : course.count
      · by_cases hpos : 0 ≥ entryCount t
        · rw [if_pos hcount, if_pos hpos] at h
          exact absurd (loads_zero_iff.mp h) hnil
        · by_cases hcalloc : course.calloc
          · rw [if_pos hcount, if_neg hpos, if_pos hcalloc] at h
            obtain ⟨info, rc, hreturned, hloaded⟩ := h
            obtain ⟨hselect, hcolumns, hlength, hshort⟩ :=
              orderly_of_fill hnil hcolumns hreturned hloaded
            exact ⟨⟨hcount, hcalloc, hselect⟩, hcolumns, hlength, hshort⟩
          · rw [if_pos hcount, if_neg hpos, if_neg hcalloc] at h
            exact absurd (loads_zero_iff.mp h) hnil
      · rw [if_neg hcount] at h
        exact absurd (loads_zero_iff.mp h) hnil
    · rintro ⟨⟨hcount, hcalloc, hselect⟩, hcolumns, hlength, hshort⟩
      have hpos := List.length_pos_of_ne_nil hnil
      have hentries := entryCount_eq hlength
      have hread : ∀ row ∈ t.rows, cText engine (row items) ≠ none ∧
          cText engine (row valueColumn) ≠ none := by
        intro row hrow
        obtain ⟨⟨name, hname, -⟩, value, hvalue, -⟩ := hshort row hrow
        rw [hname, hvalue]
        exact ⟨nofun, nofun⟩
      have hle : t.rows.length ≤ (entryCount t).toNat := by omega
      obtain ⟨list, hfill, hholding⟩ := fill_rows hcolumns hle hread
      have hpositive : ¬ 0 ≥ entryCount t := by omega
      rw [if_pos hcount, if_neg hpositive, if_pos hcalloc, if_pos hselect, tableCells, hfill]
      have hmax : (entryCount t).toNat = t.rows.length := by omega
      exact ⟨_, _, rfl, (hholding.loaded hmax).mpr hshort⟩

/-- No table fills more than its list exactly if there is room for all texts that are read, which
without NULLs means that all columns before the last one are called `items`. The items and values
of a table are loaded exactly if it has no rows or is in order. -/
theorem items_loaded_iff (hdb : db (lower tbl.chars) = some t) (hlen : tbl.chars.length < 32) :
    (∀ engine opened (db : Database) tblName n,
      dbGetItem engine opened db tblName (.calloc n) ≠ .error .itemLst ↔
        Room n (cells engine
          ((searchByTable engine opened db (selectItems tblName.chars).written).getD []))) ∧
    (∀ engine course, Inside (dbGetItemList engine course db ⟨tbl.chars, hlen⟩) ↔
      (course.count → 0 < entryCount t → course.calloc → course.select →
        Room (entryCount t).toNat (tableCells engine t))) ∧
    (∀ engine, NoNull engine t → t.rows ≠ [] →
      (Room t.rows.length (tableCells engine t) ↔ ∀ c ∈ t.columns.dropLast, c = items)) ∧
    (t.columns = [items, valueColumn] ∨ t.columns = [valueColumn, items] →
      ∀ engine course, Loads engine t (dbGetItemList engine course db ⟨tbl.chars, hlen⟩) ↔
        t.rows = [] ∨ Orderly engine course t) := by
  refine ⟨?_, fun _ _ => inside_iff hdb hlen, fun _ => room_iff, fun hcolumns _ _ =>
    loads_iff hdb hlen hcolumns⟩
  intro engine opened db tblName n
  rw [dbGetItem, (items_text tblName).2]
  exact fill_room_iff

def oneRow (columns : List Name) : Table := ⟨columns, fun _ => .null, [fun name => .text name]⟩

def oneTable (tbl : TableName) (t : Table) : Database := fun name =>
  if name = lower tbl.chars then some t else none

def wifi : TableName := ⟨"wifi".toList, by decide, by decide +kernel⟩

def devicePushInfo : TableName := ⟨"DevicePushInfo".toList, by decide, by decide +kernel⟩

def networks : Table where
  columns := [items, valueColumn]
  default := fun _ => .null
  rows := ["home", "office", "cafe"].map fun text name =>
    .text (if name = items then text.toList else "open".toList)

theorem wifi_loaded : Loads fragment networks
    (dbGetItemList fragment ⟨true, true, true⟩ (oneTable wifi networks)
      ⟨wifi.chars, by decide⟩) := by
  have hdb : oneTable wifi networks (lower wifi.chars) = some networks := if_pos rfl
  have hlen : wifi.chars.length < 32 := by decide
  have hloads := (items_loaded_iff hdb hlen).2.2.2 (.inl rfl) fragment ⟨true, true, true⟩
  refine hloads.mpr (.inr ⟨⟨rfl, rfl, rfl⟩, rfl, ?_, ?_⟩)
  · decide
  · intro row hrow
    obtain ⟨text, htext, rfl⟩ := List.mem_map.mp hrow
    have hshort : ∀ text ∈ ["home", "office", "cafe"], (cString text.toList 0).length < 128 := by
      decide
    refine ⟨⟨_, rfl, ?_⟩, "open".toList, rfl, by decide⟩
    rw [if_pos rfl]
    exact hshort text htext

theorem oneRow_not_inside {columns : List Name} (hlen : tbl.chars.length < 32)
    (hcolumns : ¬ ∀ c ∈ columns.dropLast, c = items) :
    ¬ Inside (dbGetItemList engine ⟨true, true, true⟩ (oneTable tbl (oneRow columns))
      ⟨tbl.chars, hlen⟩) := by
  have hdb : oneTable tbl (oneRow columns) (lower tbl.chars) = some (oneRow columns) := if_pos rfl
  have hnull : NoNull engine (oneRow columns) := by
    intro row hrow c _
    obtain rfl := List.mem_singleton.mp hrow
    exact nofun
  have hlt : (oneRow columns).rows.length < 2 ^ 31 := by
    show 1 < 2 ^ 31
    decide
  have hone : entryCount (oneRow columns) = 1 := entryCount_eq hlt
  rw [inside_iff hdb hlen, hone]
  intro hroom
  exact hcolumns ((room_iff hnull (List.cons_ne_nil _ _)).mp (hroom rfl Int.one_pos rfl rfl))

/-- A push device with several values, and values that stand before the names of their items. -/
theorem devices_and_swapped_columns_run_past :
    ¬ Inside (dbGetItemList fragment ⟨true, true, true⟩
      (oneTable devicePushInfo (oneRow (["DeviceToken", "MacAddress", "OSType", "Message",
        "MonthlyMessage", "PushTime", "MonthlyPushTime"].map String.toList)))
      ⟨devicePushInfo.chars, by decide⟩) ∧
    ¬ Inside (dbGetItemList fragment ⟨true, true, true⟩
      (oneTable wifi (oneRow [valueColumn, items])) ⟨wifi.chars, by decide⟩) :=
  ⟨oneRow_not_inside _ (by decide), oneRow_not_inside _ (by decide)⟩

end DbItemList
