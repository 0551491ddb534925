import Mathlib.Data.Fintype.Basic
import Mathlib.Logic.Function.Basic
import MyGitCode.TransitionRuns

/-! # The database handles of `db_common.c`

Opening one of the three databases closes the handles of the other two. Some functions hold
`db_mutex` around opening and executing, others go straight to `db_exec_cmd`. -/
namespace DbHandles

open TransitionRuns

inductive LoadType where
  | user | factory | restore | max
  deriving DecidableEq, Repr

inductive Db where
  | usr | fac | rest
  deriving DecidableEq, Repr

def LoadType.db : LoadType → Db
  | .user => .usr
  | .factory => .fac
  | .restore | .max => .rest

def Db.others : Db → List Db
  | .usr => [.fac, .rest]
  | .fac => [.usr, .rest]
  | .rest => [.usr, .fac]

/-- An access opens a database and executes a statement on the handle it got. -/
inductive Act where
  | lock
  | access (t : LoadType)
  | closeUser
  | unlock
  deriving DecidableEq, Repr

def locked (body : List Act) : List Act := .lock :: (body ++ [.unlock])

/-- The functions of the interface, with how often they turn where they have a loop. A table
that `db_restore` compares is the usage history or not, and has so many rows to write. -/
inductive Call where
  | dbQueryDbInitStruct (params : ℕ)
  | dbUpdateDbFromStruct (params : ℕ)
  | dbReloadValue
  | dbGetValue
  | dbInsertRecord
  | dbUpdateValue
  | dbDeleteRecord
  | dbCloseSqlite
  | dbGetTablList (t : LoadType)
  | dbGetItemList (t : LoadType)
  | dbGetItemUsagelist (t : LoadType)
  | dbGetTable (t : LoadType)
  | dbExecCmd (t : LoadType)
  | dbSetDev
  | dbGetDevLst
  | dbGetDev
  | dbUpdatePushTime
  | dbClearPushTime
  | dbDelDevByMac
  | dbDelDevByToken
  | dbInsertUsageHistoryDataInternal
  | dbUpdateUsageHistoryDataInternal
  | dbGetUsageTotalNumData
  | dbDelUsageHistoryRecord
  | dbCompareItem (usageHistory : Bool) (rows : ℕ)
  | dbRestore (tables : List (Bool × ℕ))
  deriving DecidableEq, Repr

def compareItem (usageHistory : Bool) (rows : ℕ) : List Act :=
  if usageHistory then
    .access .user :: locked [.access .restore, .access .restore] ++
      List.replicate rows (.access .user)
  else
    locked [.access .user, .access .user] ++ locked [.access .restore, .access .restore] ++
      (List.replicate rows (locked [.access .user])).flatten

def Call.script : Call → List Act
  | .dbQueryDbInitStruct params | .dbUpdateDbFromStruct params =>
    locked (List.replicate params (.access .user))
  | .dbReloadValue => locked [.access .factory, .access .user]
  | .dbGetValue | .dbInsertRecord | .dbUpdateValue | .dbDeleteRecord => locked [.access .user]
  | .dbCloseSqlite => locked [.closeUser]
  | .dbGetTablList t | .dbGetItemList t | .dbGetItemUsagelist t => locked [.access t, .access t]
  | .dbGetTable t | .dbExecCmd t => [.access t]
  | .dbSetDev | .dbGetUsageTotalNumData => [.access .user, .access .user]
  | .dbGetDevLst | .dbGetDev | .dbUpdatePushTime | .dbClearPushTime | .dbDelDevByMac
  | .dbDelDevByToken | .dbInsertUsageHistoryDataInternal | .dbUpdateUsageHistoryDataInternal
  | .dbDelUsageHistoryRecord => [.access .user]
  | .dbCompareItem usageHistory rows => compareItem usageHistory rows
  | .dbRestore tables =>
    locked [.access .user, .access .user] ++ locked [.access .restore, .access .restore] ++
      tables.flatMap fun table => compareItem table.1 table.2

/-- What a thread has still to do. Between opening and executing, it holds a handle. -/
structure Thread where
  todo : List Act
  db : Option ℕ
  deriving DecidableEq, Repr

/-- `fresh` is a handle that no call of `sqlite3_open` has given out yet. -/
structure Handles where
  handle : Db → Option ℕ
  closed : List ℕ
  fresh : ℕ

structure State (T : Type*) where
  handles : Handles
  mutex : Option T
  thread : T → Thread

/-- A database file may be missing, and `sqlite3_open` may fail. -/
inductive Opening where
  | opened | failed | noFile
  deriving DecidableEq, Repr

/-- After a failure, or where the data does not ask for it, a call leaves out an access or all
that it does under the mutex. -/
inductive Event (T : Type*) where
  | lock (i : T)
  | openSqliteDb (i : T) (o : Opening)
  | exec (i : T)
  | skip (i : T)
  | closeSqliteDb (i : T)
  | unlock (i : T)
  deriving DecidableEq

variable {T : Type*}

def Handles.close (s : Handles) (d : Db) : Handles where
  handle := Function.update s.handle d none
  closed := (s.handle d).toList ++ s.closed
  fresh := s.fresh

def Handles.closeOthers (s : Handles) (d : Db) : Handles := d.others.foldl Handles.close s

def Handles.openDb (s : Handles) (d : Db) : Handles × ℕ :=
  match s.handle d with
  | some h => (s, h)
  | none => (⟨Function.update s.handle d (some s.fresh), s.closed, s.fresh + 1⟩, s.fresh)

section Steps

variable [DecidableEq T]

def State.setThread (s : State T) (i : T) (todo : List Act) (db : Option ℕ) : State T :=
  { s with thread := Function.update s.thread i ⟨todo, db⟩ }

def State.setHandles (s : State T) (handles : Handles) : State T := { s with handles := handles }

def next (s : State T) : Event T → Option (State T)
  | .lock i =>
    match s.thread i, s.mutex with
    | ⟨.lock :: todo, none⟩, none => some { s.setThread i todo none with mutex := some i }
    | _, _ => none
  | .openSqliteDb i o =>
    match s.thread i with
    | ⟨.access t :: todo, none⟩ =>
      match o with
      | .noFile => some (s.setThread i todo none)
      | .failed =>
        -- a database that is open already is not opened again
        if s.handles.handle t.db = none then
          some ((s.setHandles (s.handles.closeOthers t.db)).setThread i todo none)
        else none
      | .opened =>
        let opened := (s.handles.closeOthers t.db).openDb t.db
        some ((s.setHandles opened.1).setThread i (.access t :: todo) (some opened.2))
    | _ => none
  | .exec i =>
    match s.thread i with
    | ⟨.access _ :: todo, some _⟩ => some (s.setThread i todo none)
    | _ => none
  | .skip i =>
    match s.thread i with
    | ⟨.access _ :: todo, none⟩ => some (s.setThread i todo none)
    | ⟨.lock :: todo, none⟩ => some (s.setThread i (todo.dropWhile (· ≠ .unlock)).tail none)
    | _ => none
  | .closeSqliteDb i =>
    match s.thread i with
    | ⟨.closeUser :: todo, none⟩ =>
      some ((s.setHandles (s.handles.close .usr)).setThread i todo none)
    | _ => none
  | .unlock i =>
    match s.thread i with
    | ⟨.unlock :: todo, none⟩ => some { s.setThread i todo none with mutex := none }
    | _ => none

end Steps

structure Coherent (s : Handles) : Prop where
  isOpen : ∀ d h, s.handle d = some h → h ∉ s.closed ∧ h < s.fresh
  inj : ∀ d e h, s.handle d = some h → s.handle e = some h → d = e
  closedOld : ∀ h ∈ s.closed, h < s.fresh

structure Start (calls : T → List Call) (s : State T) : Prop where
  coherent : Coherent s.handles
  free : s.mutex = none
  thread : ∀ i, s.thread i = ⟨(calls i).flatMap Call.script, none⟩

def closes (s : State T) : Event T → List Db
  | .openSqliteDb i .opened | .openSqliteDb i .failed =>
    match (s.thread i).todo with
    | .access t :: _ => t.db.others
    | _ => []
  | .closeSqliteDb _ => [.usr]
  | _ => []

/-- No thread stands between opening a database and its statement while another thread opens
one of another kind, or closes the user database under it. -/
def Careful (s : State T) (e : Event T) : Prop :=
  ∀ j t todo h, s.thread j = ⟨.access t :: todo, some h⟩ → t.db ∉ closes s e

def carefulAt (s : State T) (e : Event T) (j : T) : Bool :=
  match s.thread j with
  | ⟨.access t :: _, some _⟩ => t.db ∉ closes s e
  | _ => true

theorem careful_iff {s : State T} {e : Event T} : Careful s e ↔ ∀ j, carefulAt s e j = true := by
  refine forall_congr' fun j => ?_
  rw [carefulAt]
  constructor
  · intro h
    split
    · exact decide_eq_true (h _ _ _ ‹_›)
    · rfl
  · intro h t todo handle hj
    rw [hj] at h
    exact of_decide_eq_true h

instance [Fintype T] (s : State T) (e : Event T) : Decidable (Careful s e) :=
  decidable_of_iff _ careful_iff.symm

/-- The invariant: the handle of a thread between opening and executing is the global one. -/
structure Standing (s : State T) : Prop where
  coherent : Coherent s.handles
  access : ∀ j h, (s.thread j).db = some h → ∃ t todo, (s.thread j).todo = .access t :: todo
  handle : ∀ j t todo h, s.thread j = ⟨.access t :: todo, some h⟩ → s.handles.handle t.db = some h

section Handles

variable {s : Handles} {d e : Db} {h : ℕ}

theorem close_handle (s : Handles) (d e : Db) :
    (s.close d).handle e = if e = d then none else s.handle e :=
  Function.update_apply _ _ _ _

theorem closeOthers_handle (s : Handles) (d e : Db) :
    (s.closeOthers d).handle e = if e = d then s.handle d else none := by
  cases d <;> cases e <;> rfl

theorem openDb_handle (s : Handles) (d : Db) : (s.openDb d).1.handle d = some (s.openDb d).2 := by
  unfold Handles.openDb
  split
  · assumption
  · exact Function.update_self _ _ _

theorem openDb_keeps (hd : s.handle e = some h) : (s.openDb d).1.handle e = some h := by
  unfold Handles.openDb
  split
  · exact hd
  · rename_i hnone
    have hne : e ≠ d := by
      rintro rfl
      rw [hd] at hnone
      cases hnone
    exact (Function.update_of_ne hne _ _).trans hd

theorem Coherent.close (hs : Coherent s) (d : Db) : Coherent (s.close d) := by
  have hkept {e : Db} {h : ℕ} (he : (s.close d).handle e = some h) :
      e ≠ d ∧ s.handle e = some h := by
    rw [close_handle] at he
    split at he
    · cases he
    · exact ⟨‹_›, he⟩
  constructor
  · intro e h he
    obtain ⟨hne, he⟩ := hkept he
    refine ⟨?_, (hs.isOpen e h he).2⟩
    simp only [Handles.close, List.mem_append, Option.mem_toList]
    rintro (hd | hclosed)
    · exact hne (hs.inj e d h he hd)
    · exact (hs.isOpen e h he).1 hclosed
  · intro e f h he hf
    exact hs.inj e f h (hkept he).2 (hkept hf).2
  · intro h hclosed
    simp only [Handles.close, List.mem_append, Option.mem_toList] at hclosed
    rcases hclosed with hd | hclosed
    · exact (hs.isOpen d h hd).2
    · exact hs.closedOld h hclosed

theorem Coherent.closeOthers (hs : Coherent s) (d : Db) : Coherent (s.closeOthers d) := by
  cases d <;> exact Coherent.close (hs.close _) _

theorem Coherent.openDb (hs : Coherent s) (d : Db) : Coherent (s.openDb d).1 := by
  unfold Handles.openDb
  split
  · exact hs
  · have hcases {e : Db} {h : ℕ}
        (he : Function.update s.handle d (some s.fresh) e = some h) :
        e = d ∧ h = s.fresh ∨ s.handle e = some h := by
      by_cases hne : e = d
      · subst hne
        rw [Function.update_self] at he
        exact .inl ⟨rfl, (Option.some.inj he).symm⟩
      · exact .inr (by rwa [Function.update_of_ne hne] at he)
    constructor
    · intro e h he
      rcases hcases he with ⟨-, rfl⟩ | he
      · exact ⟨fun hclosed => absurd (hs.closedOld _ hclosed) (Nat.lt_irrefl _), Nat.lt_succ_self _⟩
      · exact ⟨(hs.isOpen e h he).1, Nat.lt_succ_of_lt (hs.isOpen e h he).2⟩
    · intro e f h he hf
      rcases hcases he with ⟨rfl, hh⟩ | he' <;> rcases hcases hf with ⟨rfl, hh'⟩ | hf'
      · rfl
      · exact absurd (hs.isOpen f h hf').2 (hh ▸ Nat.lt_irrefl _)
      · exact absurd (hs.isOpen e h he').2 (hh' ▸ Nat.lt_irrefl _)
      · exact hs.inj e f h he' hf'
    · intro h hclosed
      exact Nat.lt_succ_of_lt (hs.closedOld h hclosed)

end Handles

/-- What a step of a thread makes of it and of the handles. -/
inductive Effect (s : State T) (e : Event T) (i : T) : List Act → Option ℕ → Handles → Prop where
  | plain {todo} : Effect s e i todo none s.handles
  | failed {t rest} : e = .openSqliteDb i .failed → s.thread i = ⟨.access t :: rest, none⟩ →
      Effect s e i rest none (s.handles.closeOthers t.db)
  | opened {t rest} : e = .openSqliteDb i .opened → s.thread i = ⟨.access t :: rest, none⟩ →
      Effect s e i (.access t :: rest) (some ((s.handles.closeOthers t.db).openDb t.db).2)
        ((s.handles.closeOthers t.db).openDb t.db).1
  | closeUser {todo} : e = .closeSqliteDb i → Effect s e i todo none (s.handles.close .usr)

variable {s : State T} {e : Event T} {i : T} {todo : List Act} {db : Option ℕ} {handles : Handles}

theorem Effect.coherent
    (he : Effect s e i todo db handles) (hs : Coherent s.handles) : Coherent handles := by
  cases he with
  | plain => exact hs
  | failed => exact hs.closeOthers _
  | opened => exact (hs.closeOthers _).openDb _
  | closeUser => exact hs.close _

theorem Effect.keeps {d : Db} {h : ℕ}
    (he : Effect s e i todo db handles) (hd : d ∉ closes s e)
    (hh : s.handles.handle d = some h) : handles.handle d = some h := by
  have hothers {t : LoadType} (hopen : d ∉ t.db.others) :
      (s.handles.closeOthers t.db).handle d = some h := by
    rw [closeOthers_handle, if_pos]
    · cases d <;> cases t <;> first | exact hh | simp [LoadType.db, Db.others] at hopen
    · cases d <;> cases t <;> first | rfl | simp [LoadType.db, Db.others] at hopen
  cases he with
  | plain => exact hh
  | failed hevent hthread => exact hothers (by simpa [hevent, closes, hthread] using hd)
  | opened hevent hthread =>
    exact openDb_keeps (hothers (by simpa [hevent, closes, hthread] using hd))
  | closeUser hevent =>
    rw [close_handle, if_neg]
    · exact hh
    · simpa [hevent, closes] using hd

theorem Standing.exec (hs : Standing s) {h : ℕ} (hdb : (s.thread i).db = some h) :
    h ∉ s.handles.closed := by
  obtain ⟨t, rest, htodo⟩ := hs.access i h hdb
  have hthread : s.thread i = ⟨.access t :: rest, some h⟩ := by rw [← htodo, ← hdb]
  exact (hs.coherent.isOpen _ h (hs.handle i t rest h hthread)).1

theorem Standing.start {calls : T → List Call} (h : Start calls s) : Standing s := by
  refine ⟨h.coherent, fun j h' hdb => ?_, fun j t todo h' hthread => ?_⟩
  · rw [h.thread j] at hdb
    cases hdb
  · rw [h.thread j] at hthread
    cases congrArg Thread.db hthread

def idle : Handles := ⟨fun _ => none, [], 0⟩

def begin (calls : T → List Call) : State T :=
  ⟨idle, none, fun i => ⟨(calls i).flatMap Call.script, none⟩⟩

theorem begin_start (calls : T → List Call) : Start calls (begin calls) :=
  ⟨⟨nofun, nofun, nofun⟩, rfl, fun _ => rfl⟩

section Run

variable [DecidableEq T] {s s' : State T} {e : Event T} {ts : List (Taken (State T) (Event T))}
  {calls : T → List Call}

theorem next_effect (hnext : next s e = some s') :
    ∃ i todo db handles, Effect s e i todo db handles ∧ s'.handles = handles ∧
      s'.thread = Function.update s.thread i ⟨todo, db⟩ := by
  cases e with
  | lock i =>
    simp only [next] at hnext
    split at hnext <;> cases hnext
    exact ⟨i, _, _, _, .plain, rfl, rfl⟩
  | openSqliteDb i o =>
    simp only [next] at hnext
    split at hnext
    · rename_i t rest hthread
      cases o with
      | noFile =>
        cases hnext
        exact ⟨i, _, _, _, .plain, rfl, rfl⟩
      | failed =>
        simp only at hnext
        split at hnext <;> cases hnext
        exact ⟨i, _, _, _, .failed rfl hthread, rfl, rfl⟩
      | opened =>
        cases hnext
        exact ⟨i, _, _, _, .opened rfl hthread, rfl, rfl⟩
    · cases hnext
  | exec i =>
    simp only [next] at hnext
    split at hnext <;> cases hnext
    exact ⟨i, _, _, _, .plain, rfl, rfl⟩
  | skip i =>
    simp only [next] at hnext
    split at hnext <;> cases hnext <;> exact ⟨i, _, _, _, .plain, rfl, rfl⟩
  | closeSqliteDb i =>
    simp only [next] at hnext
    split at hnext <;> cases hnext
    exact ⟨i, _, _, _, .closeUser rfl, rfl, rfl⟩
  | unlock i =>
    simp only [next] at hnext
    split at hnext <;> cases hnext
    exact ⟨i, _, _, _, .plain, rfl, rfl⟩

theorem Standing.step (hs : Standing s) (hC : Careful s e) (hnext : next s e = some s') :
    Standing s' := by
  obtain ⟨i, todo, db, handles, he, hhandles, hthread⟩ := next_effect hnext
  refine ⟨hhandles ▸ he.coherent hs.coherent, fun j h hdb => ?_, fun j t rest h hj => ?_⟩
  · rw [hthread] at hdb ⊢
    by_cases hne : j = i
    · subst hne
      rw [Function.update_self] at hdb ⊢
      cases he with
      | opened => exact ⟨_, _, rfl⟩
      | plain | failed | closeUser => cases hdb
    · rw [Function.update_of_ne hne] at hdb ⊢
      exact hs.access j h hdb
  · rw [hthread] at hj
    rw [hhandles]
    by_cases hne : j = i
    · subst hne
      rw [Function.update_self] at hj
      cases he with
      | opened =>
        cases hj
        exact openDb_handle _ _
      | plain | failed | closeUser => cases hj
    · rw [Function.update_of_ne hne] at hj
      exact he.keeps (hC j t rest h hj) (hs.handle j t rest h hj)

/-- Among careful steps, no statement runs on a handle that was closed. -/
theorem executed_open (h : Run (Start calls) (Steps next) ts s)
    (hC : ∀ x ∈ ts, Careful x.before x.event) :
    ∀ x ∈ ts, ∀ i h, x.event = .exec i → (x.before.thread i).db = some h →
      h ∉ x.before.handles.closed :=
  h.all_steps (Q := fun s e _ => ∀ i h, e = .exec i → (s.thread i).db = some h →
      h ∉ s.handles.closed) (fun _ => Standing.start)
    (fun _ _ _ hs hC hnext => ⟨hs.step hC hnext, fun _ _ _ hdb => hs.exec hdb⟩) hC

/-- One thread registers a device and the other one reloads a value. Each opens its database
between two statements of the other one. -/
def inTurns : List (Event Bool) :=
  [.openSqliteDb false .opened, .lock true, .exec false, .openSqliteDb true .opened, .exec true,
    .openSqliteDb false .opened, .exec false, .openSqliteDb true .opened, .exec true, .unlock true]

theorem executed_open_inTurns :
    ∃ ts s, Run (Start fun i : Bool => if i then [Call.dbReloadValue] else [Call.dbSetDev])
        (Steps next) ts s ∧ ts.map Taken.event = inTurns ∧
      ∀ x ∈ ts, ∀ i h, x.event = .exec i → (x.before.thread i).db = some h →
        h ∉ x.before.handles.closed := by
  have hsome : (runTrace next (begin fun i : Bool =>
      if i then [Call.dbReloadValue] else [Call.dbSetDev]) inTurns).isSome = true := by decide
  obtain ⟨s, hs⟩ := Option.isSome_iff_exists.mp hsome
  have hrun := takenSteps_run (.start (begin_start _)) hs
  exact ⟨_, s, hrun, rfl, executed_open hrun (by decide)⟩

/-- A device is registered while another thread reloads a value: between the device's open and
its statement, the reload closes the user database. -/
theorem reload_closes_under_set :
    ∃ ts s, Run (Start fun i : Bool => if i then [Call.dbReloadValue] else [Call.dbSetDev])
        (Steps next) ts s ∧
      ∃ x ∈ ts, x.event = .exec false ∧
        ∃ h, (x.before.thread false).db = some h ∧ h ∈ x.before.handles.closed := by
  have hrun (es : List (Event Bool)) {s : State Bool} (hs : runTrace next _ es = some s) :=
    takenSteps_run (.start (begin_start fun i : Bool =>
      if i then [.dbReloadValue] else [.dbSetDev])) hs
  refine ⟨_, _, hrun [.openSqliteDb false .opened, .lock true, .openSqliteDb true .opened,
    .exec false] rfl, ?_⟩
  refine ⟨_, List.mem_append_right _ (List.getLast_mem (List.cons_ne_nil _ _)), rfl, 0, rfl, ?_⟩
  decide

end Run

/-- Whether accesses stand only between locking and unlocking the mutex. -/
def guarded : Bool → List Act → Bool
  | held, [] => !held
  | false, .lock :: todo => guarded true todo
  | true, .unlock :: todo => guarded false todo
  | true, .access _ :: todo | true, .closeUser :: todo => guarded true todo
  | _, _ => false

section

variable {held : Bool} {t : LoadType} {todo : List Act}

@[simp] theorem guarded_lock :
    guarded held (.lock :: todo) = true ↔ held = false ∧ guarded true todo = true := by
  cases held <;> simp [guarded]

@[simp] theorem guarded_unlock :
    guarded held (.unlock :: todo) = true ↔ held = true ∧ guarded false todo = true := by
  cases held <;> simp [guarded]

@[simp] theorem guarded_access :
    guarded held (.access t :: todo) = true ↔ held = true ∧ guarded held todo = true := by
  cases held <;> simp [guarded]

@[simp] theorem guarded_closeUser :
    guarded held (.closeUser :: todo) = true ↔ held = true ∧ guarded held todo = true := by
  cases held <;> simp [guarded]

end

theorem guarded_append {held : Bool} {a b : List Act} (ha : guarded held a = true)
    (hb : guarded false b = true) : guarded held (a ++ b) = true := by
  fun_induction guarded held a with
  | case1 held => cases held <;> simp_all
  | case2 todo ih => exact ih ha
  | case3 todo ih => exact ih ha
  | case4 _ todo ih => exact ih ha
  | case5 todo ih => exact ih ha
  | case6 => cases ha

theorem guarded_skip {todo : List Act} (h : guarded true todo = true) :
    guarded false (todo.dropWhile (· ≠ .unlock)).tail = true := by
  induction todo with
  | nil => cases h
  | cons act todo ih =>
    cases act with
    | lock => cases h
    | access | closeUser => simpa using ih h
    | unlock => simpa [guarded] using h

def Guarded [DecidableEq T] (s : State T) : Prop :=
  ∀ i, guarded (s.mutex = some i) (s.thread i).todo = true

variable [DecidableEq T] {s s' : State T} {e : Event T} {ts : List (Taken (State T) (Event T))}
  {calls : T → List Call}

theorem Guarded.start (hcalls : ∀ i, ∀ c ∈ calls i, guarded false c.script = true)
    (h : Start calls s) : Guarded s := by
  intro i
  rw [h.thread i, h.free]
  have hcalls := hcalls i
  generalize calls i = cs at hcalls
  show guarded false (cs.flatMap Call.script) = true
  induction cs with
  | nil => rfl
  | cons c cs ih =>
    rw [List.forall_mem_cons] at hcalls
    exact guarded_append hcalls.1 (ih hcalls.2)

theorem Guarded.move (hs : Guarded s) {i : T} {mutex : Option T} {todo : List Act}
    {db : Option ℕ} {handles : Handles}
    (hmutex : ∀ j ≠ i, (mutex = some j) = (s.mutex = some j))
    (htodo : guarded (mutex = some i) todo = true) :
    Guarded ⟨handles, mutex, Function.update s.thread i ⟨todo, db⟩⟩ := by
  intro j
  by_cases hne : j = i
  · subst hne
    simpa using htodo
  · simp only [Function.update_of_ne hne, hmutex j hne]
    exact hs j

theorem Guarded.thread (hs : Guarded s) {i : T} {todo : List Act} {db : Option ℕ}
    (hthread : s.thread i = ⟨todo, db⟩) : guarded (s.mutex = some i) todo = true := by
  have hi := hs i
  rw [hthread] at hi
  exact hi

theorem Guarded.step (hs : Guarded s) (hnext : next s e = some s') : Guarded s' := by
  cases e with
  | lock i =>
    simp only [next] at hnext
    split at hnext <;> cases hnext
    rename_i todo hthread hfree
    have hi := guarded_lock.mp (hs.thread hthread)
    refine hs.move (fun j hne => ?_) (by simpa using hi.2)
    simp [hfree, Ne.symm hne]
  | openSqliteDb i o =>
    simp only [next] at hnext
    split at hnext
    · rename_i t rest hthread
      have hi := hs.thread hthread
      have hrest := (guarded_access.mp hi).2
      cases o with
      | noFile =>
        cases hnext
        exact hs.move (fun _ _ => rfl) hrest
      | failed =>
        simp only at hnext
        split at hnext <;> cases hnext
        exact hs.move (fun _ _ => rfl) hrest
      | opened =>
        cases hnext
        exact hs.move (fun _ _ => rfl) hi
    · cases hnext
  | exec i =>
    simp only [next] at hnext
    split at hnext <;> cases hnext
    rename_i hthread
    exact hs.move (fun _ _ => rfl) (guarded_access.mp (hs.thread hthread)).2
  | skip i =>
    simp only [next] at hnext
    split at hnext <;> cases hnext <;> rename_i hthread
    · exact hs.move (fun _ _ => rfl) (guarded_access.mp (hs.thread hthread)).2
    · have hi := guarded_lock.mp (hs.thread hthread)
      refine hs.move (fun _ _ => rfl) ?_
      rw [hi.1]
      exact guarded_skip hi.2
  | closeSqliteDb i =>
    simp only [next] at hnext
    split at hnext <;> cases hnext
    rename_i hthread
    exact hs.move (fun _ _ => rfl) (guarded_closeUser.mp (hs.thread hthread)).2
  | unlock i =>
    simp only [next] at hnext
    split at hnext <;> cases hnext
    rename_i todo hthread
    have hi := guarded_unlock.mp (hs.thread hthread)
    refine hs.move (fun j hne => ?_) (by simpa using hi.2)
    simp [of_decide_eq_true hi.1, Ne.symm hne]

theorem Guarded.careful (hs : Guarded s) (hnext : next s e = some s') : Careful s e := by
  have hclash {i j : T} {act : Act} {t : LoadType} {todo rest : List Act} {h : ℕ}
      (hi : s.thread i = ⟨act :: todo, none⟩)
      (hact : guarded (s.mutex = some i) (act :: todo) = true → s.mutex = some i)
      (hj : s.thread j = ⟨.access t :: rest, some h⟩) : False := by
    have hmutex := hact (hs.thread hi)
    have hmutex' : s.mutex = some j := of_decide_eq_true (guarded_access.mp (hs.thread hj)).1
    cases Option.some.inj (hmutex.symm.trans hmutex')
    rw [hi] at hj
    cases congrArg Thread.db hj
  intro j t rest h hj
  cases e with
  | openSqliteDb i o =>
    simp only [next] at hnext
    split at hnext
    · rename_i hthread
      exact (hclash hthread (fun hg => of_decide_eq_true (guarded_access.mp hg).1) hj).elim
    · cases hnext
  | closeSqliteDb i =>
    simp only [next] at hnext
    split at hnext <;> cases hnext
    rename_i hthread
    exact (hclash hthread (fun hg => of_decide_eq_true (guarded_closeUser.mp hg).1) hj).elim
  | lock | exec | skip | unlock => exact List.not_mem_nil

/-- Calls that all hold the mutex make no step that is not careful. -/
theorem guarded_careful (hcalls : ∀ i, ∀ c ∈ calls i, guarded false c.script = true)
    (h : Run (Start calls) (Steps next) ts s) : ∀ x ∈ ts, Careful x.before x.event :=
  h.all_steps (C := fun _ _ => True) (I := Guarded) (Q := fun s e _ => Careful s e)
    (fun _ => Guarded.start hcalls)
    (fun _ _ _ hs _ hnext => ⟨hs.step hnext, hs.careful hnext⟩) fun _ _ => trivial

end DbHandles
