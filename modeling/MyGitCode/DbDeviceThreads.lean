import Mathlib.Data.Fintype.Basic
import MyGitCode.DbDevices
import MyGitCode.TransitionRuns

/-! # Threads that register devices

Any number of threads run `db_set_dev`. Between its two statements another thread may write, and
nothing but the first statement keeps the tokens of the table apart. -/
namespace DbDeviceThreads

open CText CFormat SqlTokens SqlStatements SqlTables DbStatements DbDevices TransitionRuns

/-- What a thread has still to register, and between its two statements what the first one
found. -/
structure Thread where
  todo : List DevicePushInfo
  blFound : Option Bool
  deriving DecidableEq

structure State (T : Type*) where
  db : Database
  thread : T → Thread

inductive Event (T : Type*) where
  | select (i : T) (opened : Bool)
  | write (i : T) (opened : Bool)
  deriving DecidableEq

variable {T : Type*}

def afterSelect (todo : List DevicePushInfo) (r : Result) : Thread :=
  match r.rows with
  | none => ⟨todo.tail, none⟩
  | some rows => ⟨todo, some (!rows.isEmpty)⟩

def next [DecidableEq T] (engine : Engine) (s : State T) : Event T → Option (State T)
  | .select i opened =>
    match s.thread i with
    | ⟨info :: todo, none⟩ => (selectDev engine opened info s.db).map fun r =>
      ⟨r.db, Function.update s.thread i (afterSelect (info :: todo) r)⟩
    | _ => none
  | .write i opened =>
    match s.thread i with
    | ⟨info :: todo, some blFound⟩ => (writeDev engine opened blFound info s.db).map fun r =>
      ⟨r.db, Function.update s.thread i ⟨todo, none⟩⟩
    | _ => none

def UniqueRows (db : Database) : Prop := ∀ token, (deviceRows db token).length ≤ 1

/-- The threads are about to begin, on a table with at most one row for each token. -/
structure Start (s : State T) : Prop where
  rows : UniqueRows s.db
  idle : ∀ i, (s.thread i).blFound = none

def Plain (info : DevicePushInfo) : Prop :=
  '\'' ∉ info.deviceToken.chars ∧ '\'' ∉ info.macAddress.chars ∧ '\'' ∉ info.osType.chars

/-- No apostrophe is in a value of a statement that is executed, and no row is inserted for a token
while another thread that did not find the token is about to insert one as well. -/
def Careful (s : State T) : Event T → Prop
  | .select i opened => opened = true → ∀ info ∈ (s.thread i).todo.head?,
      '\'' ∉ info.deviceToken.chars
  | .write i opened => opened = true → ∀ info ∈ (s.thread i).todo.head?, Plain info ∧
      ((s.thread i).blFound = some false → ∀ j, j ≠ i → (s.thread j).blFound = some false →
        ∀ other ∈ (s.thread j).todo.head?, other.deviceToken ≠ info.deviceToken)

instance (info : DevicePushInfo) : Decidable (Plain info) := inferInstanceAs (Decidable (_ ∧ _))

instance [Fintype T] [DecidableEq T] (s : State T) : (e : Event T) → Decidable (Careful s e)
  | .select i opened => inferInstanceAs (Decidable (opened = true →
      ∀ info ∈ (s.thread i).todo.head?, '\'' ∉ info.deviceToken.chars))
  | .write i opened => inferInstanceAs (Decidable (opened = true →
      ∀ info ∈ (s.thread i).todo.head?, Plain info ∧
        ((s.thread i).blFound = some false → ∀ j, j ≠ i → (s.thread j).blFound = some false →
          ∀ other ∈ (s.thread j).todo.head?, other.deviceToken ≠ info.deviceToken)))

/-- The invariant: what a thread did not find is not there. -/
structure Apart (s : State T) : Prop where
  rows : UniqueRows s.db
  absent : ∀ i info todo, s.thread i = ⟨info :: todo, some false⟩ →
    deviceRows s.db info.deviceToken = []

variable {engine : Engine} {db db' : Database} {info : DevicePushInfo} {token : Text 128}
  {opened blFound : Bool} {r : Result}

theorem execResult {c : Command} {stmt : Stmt} (hwf : stmt.Wf)
    (hspells : opened = true → Spells c.written stmt)
    (h : c.text.map (dbExecCmd engine opened db) = some r) :
    r = if opened then effect stmt db else ⟨db, none⟩ := by
  obtain ⟨text, htext, rfl⟩ := Option.map_eq_some_iff.mp h
  obtain ⟨-, rfl⟩ := text_eq_some.mp htext
  cases opened with
  | false => rfl
  | true => exact dbExecCmd_eq hwf (hspells rfl)

theorem selectDev_spec (hplain : opened = true → '\'' ∉ info.deviceToken.chars)
    (h : selectDev engine opened info db = some r) :
    r.db = db ∧ ∀ rows, r.rows = some rows →
      (rows.isEmpty = true → deviceRows db info.deviceToken = []) := by
  obtain rfl := execResult selectDeviceStmt_wf
    (fun hopened => spells_selectDevice.mpr (hplain hopened)) h
  cases opened with
  | false => exact ⟨rfl, nofun⟩
  | true =>
    refine ⟨effect_select_db, fun rows hrows hempty => ?_⟩
    have hselect : (effect (selectDeviceStmt info.deviceToken.chars) db).rows =
        (db deviceTable).bind fun t =>
          if t.knows [tokenColumn] then
            some (columnsOf t .all (selected (tokenIs info.deviceToken) t.rows))
          else none := effect_select_rows
    rw [if_pos rfl, hselect] at hrows
    obtain ⟨t, ht, hrows⟩ := Option.bind_eq_some_iff.mp hrows
    obtain rfl := Option.some.inj (Option.ite_none_right_eq_some.mp hrows).2
    rw [columnsOf, List.isEmpty_map, List.isEmpty_iff] at hempty
    rw [deviceRows, ht]
    exact hempty

theorem deviceRows_update :
    (deviceRows (effect (updateDeviceStmt info) db).db token).length =
      (deviceRows db token).length := by
  have hother : tokenColumn ∉ (deviceColumns.zip info.fields).map Prod.fst := by
    show tokenColumn ∉ deviceColumns
    decide +kernel
  have htable : (effect (updateDeviceStmt info) db).db deviceTable = (db deviceTable).map _ :=
    effect_update
  rw [deviceRows, deviceRows, htable]
  cases db deviceTable with
  | none => rfl
  | some t =>
    rw [Option.map_some, Option.elim_some, Option.elim_some]
    split
    · have hselected : selected (tokenIs token) (t.rows.map fun row =>
          if holds (some (tokenColumn, .text info.deviceToken.chars)) row then
            SqlTables.set row (deviceColumns.zip info.fields)
          else row) = _ :=
        selected_update hother
      rw [hselected, List.length_map]
    · rfl

theorem deviceRows_insert :
    (deviceRows (effect (insertDeviceStmt info) db).db token).length ≤
      (deviceRows db token).length + if token = info.deviceToken then 1 else 0 := by
  have htable : (effect (insertDeviceStmt info) db).db deviceTable = (db deviceTable).map _ :=
    effect_insert
  rw [deviceRows, deviceRows, htable]
  cases db deviceTable with
  | none => exact Nat.zero_le _
  | some t =>
    rw [Option.map_some, Option.elim_some, Option.elim_some]
    split
    · let new := newRow t (tokenColumn :: deviceColumns)
        (.text info.deviceToken.chars :: info.fields)
      have hvalues : (tokenColumn :: deviceColumns).map new =
          (Literal.text info.deviceToken.chars :: info.fields).map value :=
        map_newRow (by decide +kernel) rfl
      have hlength : (selected (tokenIs token) (t.rows ++ [new])).length =
          (selected (tokenIs token) t.rows).length +
            if new tokenColumn = value (tokenIs token).2 then 1 else 0 := by
        rw [selected_append, List.length_append, apply_ite List.length]
        rfl
      rw [hlength, (List.cons.inj hvalues).1]
      refine Nat.add_le_add_left ?_ _
      by_cases htoken : token = info.deviceToken
      · rw [if_pos htoken]
        split <;> decide
      · have hne : value (.text info.deviceToken.chars) ≠ value (tokenIs token).2 :=
          (value_ne htoken).symm
        rw [if_neg hne]
        exact Nat.zero_le _
    · exact Nat.le_add_right _ _

/-- What a write makes of the rows: none of another token, and one more of its own only if the
thread did not find it. -/
theorem writeDev_rows (token : Text 128) (hplain : opened = true → Plain info)
    (h : writeDev engine opened blFound info db = some r) :
    (deviceRows r.db token).length ≤
      (deviceRows db token).length +
        if opened = true ∧ blFound = false ∧ token = info.deviceToken then 1 else 0 := by
  cases blFound with
  | true =>
    obtain rfl := execResult updateDeviceStmt_wf (fun hopened => spells_updateDevice.mpr
      ⟨(hplain hopened).2.1, (hplain hopened).2.2, (hplain hopened).1⟩) h
    cases opened with
    | false => exact Nat.le_add_right _ _
    | true => exact deviceRows_update.le
  | false =>
    obtain rfl := execResult insertDeviceStmt_wf
      (fun hopened => spells_insertDevice.mpr (hplain hopened)) h
    cases opened with
    | false => exact Nat.le_add_right _ _
    | true => simpa using deviceRows_insert

variable [DecidableEq T] {s s' : State T} {e : Event T} {ts : List (Taken (State T) (Event T))}

theorem apart_select {i : T} {opened : Bool} (hs : Apart s) (hc : Careful s (.select i opened))
    (hnext : next engine s (.select i opened) = some s') : Apart s' := by
  simp only [next] at hnext
  split at hnext
  · rename_i info todo hi
    obtain ⟨r, hselect, rfl⟩ := Option.map_eq_some_iff.mp hnext
    obtain ⟨hdb, hfound⟩ :=
      selectDev_spec (fun hopened => hc hopened info (by rw [hi]; rfl)) hselect
    refine ⟨by rw [hdb]; exact hs.rows, fun j info' todo' hj => ?_⟩
    replace hj : Function.update s.thread i (afterSelect (info :: todo) r) j =
        ⟨info' :: todo', some false⟩ := hj
    show deviceRows r.db info'.deviceToken = []
    rw [hdb]
    by_cases hij : j = i
    · subst hij
      rw [Function.update_self, afterSelect] at hj
      split at hj
      · cases congrArg Thread.blFound hj
      · rename_i rows hrows
        injection hj with htodo hblFound
        cases htodo
        exact hfound rows hrows (by simpa using hblFound)
    · rw [Function.update_of_ne hij] at hj
      exact hs.absent j info' todo' hj
  · cases hnext

theorem apart_write {i : T} {opened : Bool} (hs : Apart s) (hc : Careful s (.write i opened))
    (hnext : next engine s (.write i opened) = some s') : Apart s' := by
  simp only [next] at hnext
  split at hnext
  · rename_i info todo blFound hi
    obtain ⟨r, hwrite, rfl⟩ := Option.map_eq_some_iff.mp hnext
    have hcareful := fun hopened => hc hopened info (by rw [hi]; rfl)
    have hrows (token : Text 128) :=
      writeDev_rows token (fun hopened => (hcareful hopened).1) hwrite
    constructor
    · intro token
      have hle := hrows token
      split at hle
      · rename_i hown
        obtain ⟨-, rfl, rfl⟩ := hown
        rwa [hs.absent i info todo hi] at hle
      · exact hle.trans (hs.rows token)
    · intro j info' todo' hj
      replace hj : Function.update s.thread i ⟨todo, none⟩ j = ⟨info' :: todo', some false⟩ := hj
      by_cases hij : j = i
      · subst hij
        rw [Function.update_self] at hj
        cases congrArg Thread.blFound hj
      · rw [Function.update_of_ne hij] at hj
        have hle := hrows info'.deviceToken
        have hother : ¬ (opened = true ∧ blFound = false ∧
            info'.deviceToken = info.deviceToken) := by
          rintro ⟨hopened, rfl, htoken⟩
          exact (hcareful hopened).2 (by rw [hi]) j hij (by rw [hj]) info' (by rw [hj]; rfl) htoken
        rw [if_neg hother, hs.absent j info' todo' hj] at hle
        exact List.length_eq_zero_iff.mp (Nat.le_zero.mp hle)
  · cases hnext

theorem apart_next (hs : Apart s) (hc : Careful s e) (hnext : next engine s e = some s') :
    Apart s' := by
  cases e with
  | select i opened => exact apart_select hs hc hnext
  | write i opened => exact apart_write hs hc hnext

/-- In every run of careful steps no token ever has two rows. -/
theorem careful_unique (engine : Engine) (h : Run Start (Steps (next engine)) ts s)
    (hcareful : ∀ x ∈ ts, Careful x.before x.event) : UniqueRows s.db := by
  have hstart (s : State T) (hs : Start s) : Apart s := by
    refine ⟨hs.rows, fun i info todo hi => ?_⟩
    have hidle := hs.idle i
    rw [hi] at hidle
    cases hidle
  exact (h.guarded hstart (fun _ _ _ hs hc hnext => apart_next hs hc hnext) hcareful).rows

def twoThreads (first second : DevicePushInfo) : State Bool :=
  ⟨noDevices, fun i => ⟨[if i then second else first], none⟩⟩

theorem twoThreads_start (first second : DevicePushInfo) : Start (twoThreads first second) :=
  ⟨fun _ => Nat.zero_le _, fun _ => rfl⟩

def lookThenWrite : List (Event Bool) :=
  [.select false true, .select true true, .write false true, .write true true]

theorem two_phones_unique :
    let second : DevicePushInfo := { phone with deviceToken := ⟨"b2".toList, by decide⟩ }
    ∃ s, runTrace (next fragment) (twoThreads phone second) lookThenWrite = some s ∧
      UniqueRows s.db := by
  intro second
  have hsome :
      (runTrace (next fragment) (twoThreads phone second) lookThenWrite).isSome = true := by
    decide +kernel
  obtain ⟨s, hs⟩ := Option.isSome_iff_exists.mp hsome
  refine ⟨s, hs, ?_⟩
  have hrun := takenSteps_run (.start (twoThreads_start phone second)) hs
  exact careful_unique fragment hrun (by decide +kernel)

theorem same_phone_twice : ∃ ts, ∃ s : State Bool, Run Start (Steps (next fragment)) ts s ∧
    (deviceRows s.db phone.deviceToken).length = 2 := by
  have hcheck : (runTrace (next fragment) (twoThreads phone phone) lookThenWrite).any
      (fun s => (deviceRows s.db phone.deviceToken).length == 2) = true := by decide +kernel
  obtain ⟨s, hs, hrows⟩ := (Option.any_eq_true _ _).mp hcheck
  have hrun := takenSteps_run (.start (twoThreads_start phone phone)) hs
  exact ⟨_, s, hrun, beq_iff_eq.mp hrows⟩

end DbDeviceThreads
