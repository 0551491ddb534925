import Mathlib.Logic.Function.Basic
import MyGitCode.SqlStatements

/-! # Tables and the effect of a statement

A database maps names to tables, and a row maps the names of its columns, in lower case, to
values. A column keeps texts and integers as they are given. -/
namespace SqlTables

open CFormat SqlTokens SqlStatements

/-- The storage classes. An integer that needs more than 64 bits is kept as a floating-point
number, here without the loss of its low digits. -/
inductive Value where
  | null
  | text (s : List Char)
  | int (z : ℤ)
  | real (x : Rat)
  | blob (bytes : List (BitVec 8))
  deriving DecidableEq, Repr

abbrev Row := Name → Value

/-- `columns` are the names as they are declared, and `default` has the values of columns that
an insertion leaves out. -/
structure Table where
  columns : List Name
  default : Row
  rows : List Row

abbrev Database := Name → Option Table

/-- The rows that a statement gives, each a list of named values, or none if it fails. -/
structure Result where
  db : Database
  rows : Option (List (List (Name × Value)))

def lower (name : Name) : Name := name.map Char.toLower

def value : Literal → Value
  | .text s => .text s
  | .int z => if -2 ^ 63 ≤ z ∧ z < 2 ^ 63 then .int z else .real z

def Table.has (t : Table) (name : Name) : Bool := (t.columns.map lower).contains name

def Table.knows (t : Table) (names : List Name) : Bool := names.all t.has

def holds (cond : Option (Name × Literal)) (row : Row) : Bool :=
  match cond with
  | none => true
  | some e => row e.1 = value e.2

def set (row : Row) (sets : List (Name × Literal)) : Row :=
  sets.foldl (fun row e => Function.update row e.1 (value e.2)) row

def newRow (t : Table) (columns : List Name) (values : List Literal) : Row := fun name =>
  match (columns.zip values).lookup name with
  | some l => value l
  | none => t.default name

def columnsOf (t : Table) : Columns → List Row → List (List (Name × Value))
  | .all, rows => rows.map fun row => t.columns.map fun c => (c, row (lower c))
  | .count, rows => [[("count(*)".toList, .int rows.length)]]
  | .column name, rows => rows.map fun row => [(name, row name)]

def apply : Stmt → Table → Option (Table × List (List (Name × Value)))
  | .select columns _ cond, t =>
    if t.knows (columns.names ++ condNames cond) then
      some (t, columnsOf t columns (t.rows.filter (holds cond)))
    else none
  | .insert _ columns values, t =>
    if t.knows columns && columns.length = values.length then
      some ({ t with rows := t.rows ++ [newRow t columns values] }, [])
    else none
  | .update _ sets cond, t =>
    if t.knows (sets.map Prod.fst ++ condNames cond) then
      some ({ t with rows := t.rows.map fun row => if holds cond row then set row sets else row },
        [])
    else none
  | .delete _ cond, t =>
    if t.knows (condNames cond) then
      some ({ t with rows := t.rows.filter fun row => !holds cond row }, [])
    else none

def table : Stmt → Name
  | .select _ table _ | .insert table _ _ | .update table _ _ | .delete table _ => table

def effect (stmt : Stmt) (db : Database) : Result :=
  match (db (table stmt)).bind (apply stmt) with
  | some r => ⟨Function.update db (table stmt) (some r.1), some r.2⟩
  | none => ⟨db, none⟩

/-- A database engine that executes the statements that a text may spell as they are
defined. What it does with other texts, and how it writes a floating-point number, is left
open. -/
structure Engine where
  exec : Database → List Char → Result
  exec_spells : ∀ db s stmt, stmt.Wf → Spells s stmt → exec db s = effect stmt db
  realText : Rat → List Char

def Engine.print (engine : Engine) : Value → Option (List Char)
  | .null => none
  | .text s => some s
  | .int z => some (decimal z)
  | .real x => some (engine.realText x)
  | .blob bytes => some ((bytes.takeWhile (· ≠ 0)).map fun b => Char.ofNat b.toNat)

/-- The texts of `sqlite3_get_table`: the names of the columns and then the rows. -/
def Engine.texts (engine : Engine) (rows : List (List (Name × Value))) :
    List (Option (List Char)) :=
  (rows.head?.getD []).map (fun c => some c.1) ++
    rows.flatMap fun row => row.map fun c => engine.print c.2

def fragment : Engine where
  exec db s :=
    match parse s with
    | some stmt => effect stmt db
    | none => ⟨db, none⟩
  exec_spells db s stmt h hs := by rw [parse_of_spells hs h.proper]
  realText x := decimal x.floor ++ ".0".toList

variable {stmt : Stmt} {db : Database} {t t' : Table} {row : Row} {cond : Option (Name × Literal)}
  {e : Name × Literal} {sets : List (Name × Literal)} {name : Name} {columns : List Name}
  {values : List Literal} {out : List (List (Name × Value))}

theorem effect_of_ne (h : name ≠ table stmt) : (effect stmt db).db name = db name := by
  unfold effect
  split
  · exact Function.update_of_ne h _ _
  · rfl

theorem effect_eq (ht : db (table stmt) = some t) (h : apply stmt t = some (t', out)) :
    effect stmt db = ⟨Function.update db (table stmt) (some t'), some out⟩ := by
  simp [effect, ht, h]

theorem effect_fails (h : (db (table stmt)).bind (apply stmt) = none) :
    effect stmt db = ⟨db, none⟩ := by
  simp [effect, h]

theorem effect_select {columns : Columns} (h : db name = some t)
    (hknows : t.knows (columns.names ++ condNames cond) = true) :
    effect (.select columns name cond) db =
      ⟨db, some (columnsOf t columns (t.rows.filter (holds cond)))⟩ := by
  rw [effect_eq h (by rw [apply, if_pos hknows]), table, ← h, Function.update_eq_self]

theorem effect_select_rows {columns : Columns} :
    (effect (.select columns name cond) db).rows = (db name).bind fun t =>
      if t.knows (columns.names ++ condNames cond) then
        some (columnsOf t columns (t.rows.filter (holds cond)))
      else none := by
  rw [effect, table]
  cases db name with
  | none => rfl
  | some t =>
    simp only [Option.bind_some, apply]
    cases t.knows (columns.names ++ condNames cond) <;> rfl

theorem effect_select_db {columns : Columns} : (effect (.select columns name cond) db).db = db := by
  rw [effect, table]
  cases ht : db name with
  | none => rfl
  | some t =>
    simp only [Option.bind_some, apply]
    cases t.knows (columns.names ++ condNames cond) with
    | false => rfl
    | true =>
      show Function.update db name (some t) = db
      rw [← ht, Function.update_eq_self]

theorem effect_insert : (effect (.insert name columns values) db).db name = (db name).map fun t =>
    if t.knows columns && columns.length = values.length then
      { t with rows := t.rows ++ [newRow t columns values] }
    else t := by
  rw [effect, table]
  cases ht : db name with
  | none => exact ht
  | some t =>
    simp only [Option.bind_some, apply, Option.map_some]
    cases t.knows columns && columns.length = values.length with
    | false => exact ht
    | true => exact Function.update_self _ _ _

theorem effect_update : (effect (.update name sets cond) db).db name = (db name).map fun t =>
    if t.knows (sets.map Prod.fst ++ condNames cond) then
      { t with rows := t.rows.map fun row => if holds cond row then set row sets else row }
    else t := by
  rw [effect, table]
  cases ht : db name with
  | none => exact ht
  | some t =>
    simp only [Option.bind_some, apply, Option.map_some]
    cases t.knows (sets.map Prod.fst ++ condNames cond) with
    | false => exact ht
    | true => exact Function.update_self _ _ _

theorem texts_column {engine : Engine} {rows : List Row} :
    (engine.texts (columnsOf t (.column name) (row :: rows)))[1]? =
      some (engine.print (row name)) :=
  rfl

theorem set_of_not_mem (h : name ∉ sets.map Prod.fst) : set row sets name = row name := by
  unfold set
  induction sets generalizing row with
  | nil => rfl
  | cons e sets ih =>
    rw [List.map_cons, List.mem_cons, not_or] at h
    rw [List.foldl_cons, ih h.2, Function.update_of_ne h.1]

theorem holds_iff : holds (some e) row = true ↔ row e.1 = value e.2 := decide_eq_true_iff

theorem filter_holds_none {rows : List Row} : rows.filter (holds none) = rows :=
  List.filter_eq_self.mpr fun _ _ => rfl

theorem holds_set (h : e.1 ∉ sets.map Prod.fst) :
    holds (some e) (set row sets) = holds (some e) row := by
  rw [holds, holds, set_of_not_mem h]

theorem map_newRow (hnodup : columns.Nodup) (hlen : columns.length = values.length) :
    columns.map (newRow t columns values) = values.map value := by
  induction columns generalizing values with
  | nil =>
    obtain rfl := List.length_eq_zero_iff.mp hlen.symm
    rfl
  | cons c columns ih =>
    cases values with
    | nil => cases hlen
    | cons l values =>
      obtain ⟨hmem, hnodup⟩ := List.nodup_cons.mp hnodup
      have hhead : newRow t (c :: columns) (l :: values) c = value l := by simp [newRow]
      have htail : ∀ name ∈ columns,
          newRow t (c :: columns) (l :: values) name = newRow t columns values name := by
        intro name hname
        have hne : (name == c) = false := beq_eq_false_iff_ne.mpr fun heq => hmem (heq ▸ hname)
        simp only [newRow, List.zip_cons_cons, List.lookup_cons, hne]
      rw [List.map_cons, hhead, List.map_congr_left htail, ih hnodup (Nat.succ.inj hlen),
        List.map_cons]

theorem map_set (hnodup : columns.Nodup) (hlen : columns.length = values.length) :
    columns.map (set row (columns.zip values)) = values.map value := by
  induction columns generalizing row values with
  | nil =>
    obtain rfl := List.length_eq_zero_iff.mp hlen.symm
    rfl
  | cons c columns ih =>
    cases values with
    | nil => cases hlen
    | cons l values =>
      obtain ⟨hmem, hnodup⟩ := List.nodup_cons.mp hnodup
      have hrest : c ∉ (columns.zip values).map Prod.fst := by
        rwa [List.map_fst_zip (Nat.succ.inj hlen).le]
      have hstep : set row ((c :: columns).zip (l :: values)) =
          set (Function.update row c (value l)) (columns.zip values) := rfl
      rw [List.map_cons, hstep, set_of_not_mem hrest, Function.update_self,
        ih hnodup (Nat.succ.inj hlen), List.map_cons]

def selected (e : Name × Literal) (rows : List Row) : List Row := rows.filter (holds (some e))

variable {rows : List Row} {e' : Name × Literal}

theorem selected_append {row : Row} :
    selected e (rows ++ [row]) = selected e rows ++ if row e.1 = value e.2 then [row] else [] := by
  simp only [selected, List.filter_append, List.filter_cons, List.filter_nil, holds_iff]

theorem selected_update (h : e.1 ∉ sets.map Prod.fst) :
    selected e (rows.map fun row => if holds cond row then set row sets else row) =
      (selected e rows).map fun row => if holds cond row then set row sets else row := by
  have hsame : (holds (some e) ∘ fun row => if holds cond row then set row sets else row) =
      holds (some e) := by
    funext row
    simp only [Function.comp_apply]
    split
    · exact holds_set h
    · rfl
  rw [selected, List.filter_map, hsame, selected]

theorem selected_delete_self : selected e (rows.filter fun row => !holds (some e) row) = [] := by
  rw [selected, List.filter_filter]
  simp

theorem selected_delete (hcolumn : e.1 = e'.1) (hvalue : value e.2 ≠ value e'.2) :
    selected e (rows.filter fun row => !holds (some e') row) = selected e rows := by
  rw [selected, List.filter_filter]
  refine List.filter_congr fun row _ => ?_
  cases hrow : holds (some e) row with
  | false => rfl
  | true =>
    have hne : holds (some e') row = false := by
      rw [← Bool.not_eq_true, holds_iff, ← hcolumn, holds_iff.mp hrow]
      exact hvalue
    rw [hne]
    rfl

/-- The rows of the table that do not meet the equation stay as they are, in their order. -/
def Confined (e : Name × Literal) (t t' : Table) : Prop :=
  t'.columns = t.columns ∧ t'.default = t.default ∧
    t'.rows.filter (fun row => !holds (some e) row) = t.rows.filter fun row => !holds (some e) row

theorem Confined.refl (e : Name × Literal) (t : Table) : Confined e t t := ⟨rfl, rfl, rfl⟩

theorem confined_select {columns : Columns}
    (h : apply (.select columns name cond) t = some (t', out)) : Confined e t t' := by
  rw [apply, Option.ite_none_right_eq_some] at h
  obtain ⟨-, heq⟩ := h
  cases heq
  exact .refl e t

theorem confined_insert (hmem : (columns.zip values).lookup e.1 = some e.2)
    (h : apply (.insert name columns values) t = some (t', out)) : Confined e t t' := by
  rw [apply, Option.ite_none_right_eq_some] at h
  obtain ⟨-, heq⟩ := h
  cases heq
  refine ⟨rfl, rfl, ?_⟩
  have hrow : holds (some e) (newRow t columns values) = true := by simp [holds, newRow, hmem]
  simp [hrow]

theorem confined_update (hset : e.1 ∉ sets.map Prod.fst)
    (h : apply (.update name sets (some e)) t = some (t', out)) : Confined e t t' := by
  rw [apply, Option.ite_none_right_eq_some] at h
  obtain ⟨-, heq⟩ := h
  cases heq
  refine ⟨rfl, rfl, ?_⟩
  induction t.rows with
  | nil => rfl
  | cons row rows ih =>
    rw [List.map_cons, List.filter_cons, List.filter_cons, ih]
    cases hrow : holds (some e) row with
    | true => simp [holds_set hset, hrow]
    | false => simp [hrow]

theorem confined_delete (h : apply (.delete name (some e)) t = some (t', out)) :
    Confined e t t' := by
  rw [apply, Option.ite_none_right_eq_some] at h
  obtain ⟨-, heq⟩ := h
  cases heq
  refine ⟨rfl, rfl, ?_⟩
  rw [List.filter_filter]
  simp

def Database.Confined (name : Name) (e : Name × Literal) (db db' : Database) : Prop :=
  (∀ other, other ≠ name → db' other = db other) ∧
    Option.Rel (SqlTables.Confined e) (db name) (db' name)

theorem effect_confined (h : ∀ t t' out, apply stmt t = some (t', out) → Confined e t t') :
    Database.Confined (table stmt) e db (effect stmt db).db := by
  refine ⟨fun other hne => effect_of_ne hne, ?_⟩
  unfold effect
  split
  · rename_i r hr
    obtain ⟨t, ht, happly⟩ := Option.bind_eq_some_iff.mp hr
    simp only [Function.update_self, ht]
    exact .some (h t r.1 r.2 happly)
  · show Option.Rel _ (db (table stmt)) (db (table stmt))
    cases db (table stmt) with
    | none => exact .none
    | some t => exact .some (SqlTables.Confined.refl e t)

end SqlTables
