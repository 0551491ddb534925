import MyGitCode.SqlTokens

/-! # Texts of SQL statements

The statements that texts spell: on one table, with a condition that compares one column with
a literal. -/
namespace SqlStatements

open CFormat SqlTokens

inductive Columns where
  | all
  | count
  | column (name : Name)
  deriving DecidableEq, Repr

inductive Stmt where
  | select (columns : Columns) (table : Name) (cond : Option (Name × Literal))
  | insert (table : Name) (columns : List Name) (values : List Literal)
  | update (table : Name) (sets : List (Name × Literal)) (cond : Option (Name × Literal))
  | delete (table : Name) (cond : Option (Name × Literal))
  deriving DecidableEq, Repr

def keyword (s : String) : Token := .word s.toList

def commas {α : Type*} (item : α → List Token) : List α → List Token
  | [] => []
  | [x] => item x
  | x :: y :: xs => item x ++ .symbol ',' :: commas item (y :: xs)

def equation (e : Name × Literal) : List Token := [.word e.1, .symbol '=', .value e.2]

def condTokens : Option (Name × Literal) → List Token
  | none => []
  | some e => keyword "where" :: equation e

def Columns.tokens : Columns → List Token
  | .all => [.symbol '*']
  | .count => [keyword "count", .symbol '(', .symbol '*', .symbol ')']
  | .column name => [.word name]

def Stmt.tokens : Stmt → List Token
  | .select columns table cond =>
    keyword "select" :: columns.tokens ++ keyword "from" :: .word table :: condTokens cond
  | .insert table columns values =>
    [keyword "insert", keyword "into", .word table, .symbol '('] ++
      commas (fun c => [.word c]) columns ++ [.symbol ')', keyword "values", .symbol '('] ++
      commas (fun l => [.value l]) values ++ [.symbol ')']
  | .update table sets cond =>
    [keyword "update", .word table, keyword "set"] ++ commas equation sets ++ condTokens cond
  | .delete table cond => [keyword "delete", keyword "from", .word table] ++ condTokens cond

def Spells (s : List Char) (stmt : Stmt) : Prop :=
  tokens s = some stmt.tokens ∨ tokens s = some (stmt.tokens ++ [.symbol ';'])

instance (s : List Char) (stmt : Stmt) : Decidable (Spells s stmt) :=
  inferInstanceAs (Decidable (_ ∨ _))

def reserved : List Name :=
  ["add", "all", "alter", "and", "as", "autoincrement", "between", "case", "check", "collate",
    "commit", "constraint", "create", "default", "deferrable", "delete", "distinct", "drop", "else",
    "escape", "except", "exists", "foreign", "from", "group", "having", "if", "in", "index",
    "insert", "intersect", "into", "is", "isnull", "join", "limit", "not", "nothing", "notnull",
    "null", "on", "or", "order", "primary", "raise", "references", "returning", "select", "set",
    "table", "then", "to", "transaction", "union", "unique", "update", "using", "values", "when",
    "where"].map String.toList

def IsName (name : Name) : Prop := IsWord name ∧ name.map Char.toLower = name ∧ name ∉ reserved

instance (name : List Char) : Decidable (IsWord name) :=
  match name with
  | [] => isFalse fun h => by simp [IsWord] at h
  | c :: rest => decidable_of_iff (isWordStart c = true ∧ (c :: rest).all isWordChar = true)
      (by simp [IsWord])

instance (name : Name) : Decidable (IsName name) := inferInstanceAs (Decidable (_ ∧ _ ∧ _))

def condNames (cond : Option (Name × Literal)) : List Name := cond.toList.map Prod.fst

def Columns.names : Columns → List Name
  | .column name => [name]
  | _ => []

def Stmt.names : Stmt → List Name
  | .select columns table cond => table :: columns.names ++ condNames cond
  | .insert table columns _ => table :: columns
  | .update table sets cond => table :: sets.map Prod.fst ++ condNames cond
  | .delete table cond => table :: condNames cond

def Stmt.Proper : Stmt → Prop
  | .insert _ columns values => columns ≠ [] ∧ values ≠ []
  | .update _ sets _ => sets ≠ []
  | _ => True

instance (stmt : Stmt) : Decidable stmt.Proper := by
  cases stmt <;> simp only [Stmt.Proper] <;> infer_instance

structure Stmt.Wf (stmt : Stmt) : Prop where
  proper : stmt.Proper
  names : ∀ name ∈ stmt.names, IsName name
  columns : ∀ table columns values, stmt = .insert table columns values → columns.Nodup

variable {l : Literal} {names columns : List Name} {values : List Literal} {table : Name}
  {sets : List (Name × Literal)} {cond : Option (Name × Literal)} {stmt : Stmt}

def parseNames : List Token → Option (List Name × List Token)
  | .word n :: .symbol ',' :: rest => (parseNames rest).map fun p => (n :: p.1, p.2)
  | .word n :: rest => some ([n], rest)
  | _ => none

def parseValues : List Token → Option (List Literal × List Token)
  | .value l :: .symbol ',' :: rest => (parseValues rest).map fun p => (l :: p.1, p.2)
  | .value l :: rest => some ([l], rest)
  | _ => none

def parseSets : List Token → Option (List (Name × Literal) × List Token)
  | .word n :: .symbol '=' :: .value l :: .symbol ',' :: rest =>
    (parseSets rest).map fun p => ((n, l) :: p.1, p.2)
  | .word n :: .symbol '=' :: .value l :: rest => some ([(n, l)], rest)
  | _ => none

def parseCond : List Token → Option (Option (Name × Literal))
  | [] => some none
  | [w, .word n, .symbol '=', .value l] => if w = keyword "where" then some (some (n, l)) else none
  | _ => none

def parseSelect : List Token → Option Stmt
  | .symbol '*' :: f :: .word table :: rest =>
    if f = keyword "from" then (parseCond rest).map (.select .all table) else none
  | c :: .symbol '(' :: .symbol '*' :: .symbol ')' :: f :: .word table :: rest =>
    if c = keyword "count" && f = keyword "from" then (parseCond rest).map (.select .count table)
    else none
  | .word name :: f :: .word table :: rest =>
    if f = keyword "from" then (parseCond rest).map (.select (.column name) table) else none
  | _ => none

def parseInsert : List Token → Option Stmt
  | i :: .word table :: .symbol '(' :: rest =>
    if i = keyword "into" then
      match parseNames rest with
      | some (columns, .symbol ')' :: v :: .symbol '(' :: rest) =>
        if v = keyword "values" then
          match parseValues rest with
          | some (values, [.symbol ')']) => some (.insert table columns values)
          | _ => none
        else none
      | _ => none
    else none
  | _ => none

def parseUpdate : List Token → Option Stmt
  | .word table :: s :: rest =>
    if s = keyword "set" then
      match parseSets rest with
      | some (sets, rest) => (parseCond rest).map (.update table sets)
      | none => none
    else none
  | _ => none

def parseDelete : List Token → Option Stmt
  | f :: .word table :: rest =>
    if f = keyword "from" then (parseCond rest).map (.delete table) else none
  | _ => none

def parseStmt : List Token → Option Stmt
  | [] => none
  | k :: rest =>
    if k = keyword "select" then parseSelect rest
    else if k = keyword "insert" then parseInsert rest
    else if k = keyword "update" then parseUpdate rest
    else if k = keyword "delete" then parseDelete rest
    else none

def parse (s : List Char) : Option Stmt :=
  (tokens s).bind fun ts =>
    parseStmt (if ts.getLast? = some (.symbol ';') then ts.dropLast else ts)

theorem parseNames_commas (hne : names ≠ []) (hrest : ts.head? ≠ some (.symbol ',')) :
    parseNames (commas (fun c => [.word c]) names ++ ts) = some (names, ts) := by
  induction names with
  | nil => exact absurd rfl hne
  | cons n names ih =>
    cases names with
    | nil =>
      simp only [commas, List.cons_append, List.nil_append]
      rw [parseNames]
      rintro rest rfl
      exact hrest rfl
    | cons m names =>
      simp only [commas, List.cons_append, List.nil_append] at ih ⊢
      rw [parseNames, ih (List.cons_ne_nil _ _)]
      rfl

theorem parseValues_commas (hne : values ≠ []) (hrest : ts.head? ≠ some (.symbol ',')) :
    parseValues (commas (fun l => [.value l]) values ++ ts) = some (values, ts) := by
  induction values with
  | nil => exact absurd rfl hne
  | cons l values ih =>
    cases values with
    | nil =>
      simp only [commas, List.cons_append, List.nil_append]
      rw [parseValues]
      rintro rest rfl
      exact hrest rfl
    | cons m values =>
      simp only [commas, List.cons_append, List.nil_append] at ih ⊢
      rw [parseValues, ih (List.cons_ne_nil _ _)]
      rfl

theorem parseSets_commas (hne : sets ≠ []) (hrest : ts.head? ≠ some (.symbol ',')) :
    parseSets (commas equation sets ++ ts) = some (sets, ts) := by
  induction sets with
  | nil => exact absurd rfl hne
  | cons e sets ih =>
    cases sets with
    | nil =>
      simp only [commas, equation, List.cons_append, List.nil_append]
      rw [parseSets]
      rintro rest rfl
      exact hrest rfl
    | cons m sets =>
      simp only [commas, List.append_assoc, List.cons_append] at ih ⊢
      simp only [equation, List.cons_append, List.nil_append]
      rw [parseSets, ih (List.cons_ne_nil _ _)]
      rfl

@[simp] theorem parseCond_condTokens : parseCond (condTokens cond) = some cond := by
  cases cond with
  | none => rfl
  | some e => simp [condTokens, equation, parseCond]

theorem condTokens_head : (condTokens cond).head? ≠ some (.symbol ',') := by
  cases cond <;> simp [condTokens, keyword]

theorem parseStmt_tokens (h : stmt.Proper) : parseStmt stmt.tokens = some stmt := by
  cases stmt with
  | select columns table cond =>
    have hselect : parseStmt (Stmt.select columns table cond).tokens =
        parseSelect (columns.tokens ++ keyword "from" :: .word table :: condTokens cond) := by
      simp [Stmt.tokens, parseStmt]
    rw [hselect]
    cases columns <;> simp [Columns.tokens, parseSelect, keyword]
  | insert table columns values =>
    have hinsert : parseStmt (Stmt.insert table columns values).tokens =
        parseInsert (keyword "into" :: .word table :: .symbol '(' ::
          (commas (fun c => [.word c]) columns ++ .symbol ')' :: keyword "values" ::
            .symbol '(' :: (commas (fun l => [.value l]) values ++ [.symbol ')']))) := by
      simp [Stmt.tokens, parseStmt, keyword]
    have hvalues : parseValues (commas (fun l => [.value l]) values ++ [.symbol ')']) =
        some (values, [.symbol ')']) :=
      parseValues_commas h.2 (by simp)
    rw [hinsert, parseInsert, if_pos rfl, parseNames_commas h.1 (by simp)]
    simp [hvalues]
  | update table sets cond =>
    have hupdate : parseStmt (Stmt.update table sets cond).tokens = parseUpdate
        (.word table :: keyword "set" :: (commas equation sets ++ condTokens cond)) := by
      simp [Stmt.tokens, parseStmt, keyword]
    rw [hupdate, parseUpdate, if_pos rfl, parseSets_commas h condTokens_head]
    simp
  | delete table cond => simp [Stmt.tokens, parseStmt, parseDelete, keyword]

theorem mem_commas {α : Type*} {item : α → List Token} {xs : List α} {t : Token}
    (h : t ∈ commas item xs) : t = .symbol ',' ∨ ∃ x ∈ xs, t ∈ item x := by
  induction xs with
  | nil => cases h
  | cons x xs ih =>
    cases xs with
    | nil => exact .inr ⟨x, List.mem_cons_self, h⟩
    | cons y xs =>
      rcases List.mem_append.mp h with h | h
      · exact .inr ⟨x, List.mem_cons_self, h⟩
      · rcases List.mem_cons.mp h with h | h
        · exact .inl h
        · obtain h | ⟨z, hz, hmem⟩ := ih h
          · exact .inl h
          · exact .inr ⟨z, List.mem_cons_of_mem _ hz, hmem⟩

theorem semicolon_not_mem : .symbol ';' ∉ stmt.tokens := by
  have hcond {cond : Option (Name × Literal)} : .symbol ';' ∉ condTokens cond := by
    cases cond <;> simp [condTokens, equation, keyword]
  have hcommas {α : Type} {item : α → List Token} (hitem : ∀ x, .symbol ';' ∉ item x)
      {xs : List α} : .symbol ';' ∉ commas item xs := by
    intro h
    obtain h | ⟨x, -, h⟩ := mem_commas h
    · cases h
    · exact hitem x h
  cases stmt with
  | select columns table cond =>
    cases columns <;> simp [Stmt.tokens, Columns.tokens, keyword, hcond]
  | insert table columns values =>
    have hcolumns : .symbol ';' ∉ commas (fun c => [.word c]) columns := hcommas (by simp)
    have hvalues : .symbol ';' ∉ commas (fun l => [.value l]) values := hcommas (by simp)
    simp [Stmt.tokens, keyword, hcolumns, hvalues]
  | update table sets cond =>
    have hsets : .symbol ';' ∉ commas equation sets := hcommas (by simp [equation])
    simp [Stmt.tokens, keyword, hcond, hsets]
  | delete table cond => simp [Stmt.tokens, keyword, hcond]

theorem parse_of_spells (h : Spells s stmt) (hstmt : stmt.Proper) : parse s = some stmt := by
  rcases h with h | h
  · have hlast : stmt.tokens.getLast? ≠ some (.symbol ';') :=
      fun hlast => semicolon_not_mem (List.mem_of_getLast? hlast)
    rw [parse, h, Option.bind_some, if_neg hlast, parseStmt_tokens hstmt]
  · rw [parse, h, Option.bind_some, if_pos (by simp), List.dropLast_concat,
      parseStmt_tokens hstmt]

theorem spells_fill_iff {slots : List Slot} {tail : List Char} (hhead : tail.head? ≠ some '\'')
    (hstmt : stmt.tokens = fillTokens slots ts)
    (htail : tokens tail = some ts ∨ tokens tail = some (ts ++ [.symbol ';'])) :
    Spells (fill slots tail) stmt ↔ ∀ slot ∈ slots, '\'' ∉ slot.value := by
  rw [Spells, hstmt, ← fillTokens_append, tokens_fill_iff hhead, tokens_fill_iff hhead,
    ← and_or_left]
  exact and_iff_left htail

theorem spells_sprintf_iff {slots : List Slot} {pieces : List (List Char × Directive)}
    {tail format close : List Char} {args : List Arg} (hformat : format = formatOf pieces tail)
    (hplain : (∀ piece ∈ pieces, '%' ∉ piece.1) ∧ '%' ∉ tail)
    (hargs : (args.take pieces.length).map Arg.directive = pieces.map Prod.snd)
    (hfill : filled pieces args tail = fill slots close) (hhead : close.head? ≠ some '\'')
    (hstmt : stmt.tokens = fillTokens slots ts)
    (hclose : tokens close = some ts ∨ tokens close = some (ts ++ [.symbol ';'])) :
    Spells (sprintf format args) stmt ↔ ∀ slot ∈ slots, '\'' ∉ slot.value := by
  rw [hformat, sprintf_formatOf hargs hplain.1 hplain.2, hfill]
  exact spells_fill_iff hhead hstmt hclose

end SqlStatements
