import Mathlib.Data.List.Induction
import MyGitCode.DbHandles

/-! # Opening and closing the databases, call by call

`open_sqlite_db` and `close_sqlite_db` with what `access` and `sqlite3_open` answer. A handle
that `sqlite3_open` gave stands in one of the variables or has been closed once. -/
namespace DbHandleCalls

open DbHandles

/-- With an error, `sqlite3_open` gives a handle all the same, unless it had no memory for it. -/
inductive Answer where
  | ok
  | error (given : Bool)
  deriving DecidableEq, Repr

/-- A call of `open_sqlite_db` finds the user's file and the factory's file or not. -/
inductive Call where
  | openSqliteDb (t : LoadType) (userFile factoryFile : Bool) (answer : Answer)
  | closeSqliteDb
  deriving DecidableEq, Repr

structure Connections where
  handles : Handles
  sound : List ℕ

def Connections.closeOthers (s : Connections) (d : Db) : Connections :=
  { s with handles := s.handles.closeOthers d }

/-- `sqlite3_close` takes a null pointer, too, and does nothing then. -/
def Connections.close (s : Connections) (d : Db) : Connections :=
  { s with handles := s.handles.close d }

def give (s : Handles) (d : Db) : Handles :=
  ⟨Function.update s.handle d (some s.fresh), s.closed, s.fresh + 1⟩

def Connections.sqlite3Open (s : Connections) (d : Db) : Answer → Connections
  | .ok => ⟨give s.handles d, s.handles.fresh :: s.sound⟩
  | .error true => ⟨give s.handles d, s.sound⟩
  | .error false => { s with handles.handle := Function.update s.handles.handle d none }

def openSqliteDb (s : Connections) (t : LoadType) (userFile factoryFile : Bool)
    (answer : Answer) : Connections × Option ℕ :=
  if userFile = false ∧ factoryFile = false then (s, none)
  else
    let s := s.closeOthers t.db
    match s.handles.handle t.db, answer with
    | some h, _ => (s, some h)
    | none, .ok =>
      let s := s.sqlite3Open t.db .ok
      (s, s.handles.handle t.db)
    | none, .error given => ((s.sqlite3Open t.db (.error given)).close t.db, none)

def next (s : Connections) : Call → Connections × Option ℕ
  | .openSqliteDb t userFile factoryFile answer => openSqliteDb s t userFile factoryFile answer
  | .closeSqliteDb => (s.close .usr, none)

def initial : Connections := ⟨idle, []⟩

def after (calls : List Call) : Connections := calls.foldl (fun s c => (next s c).1) initial

/-- A handle that came with `SQLITE_OK` and that no call has closed. -/
def IsOpen (s : Connections) (h : ℕ) : Prop := h ∈ s.sound ∧ h ∉ s.handles.closed

structure Disciplined (s : Connections) (c : Call) : Prop where
  one : ∀ d e, (next s c).1.handles.handle d ≠ none → (next s c).1.handles.handle e ≠ none → d = e
  returned : ∀ t userFile factoryFile answer h,
    c = .openSqliteDb t userFile factoryFile answer → (next s c).2 = some h →
      (next s c).1.handles.handle t.db = some h ∧ IsOpen (next s c).1 h
  /-- A call asks `sqlite3_open` if it finds a file and no handle. -/
  failed : ∀ t userFile factoryFile given,
    c = .openSqliteDb t userFile factoryFile (.error given) →
      (userFile = true ∨ factoryFile = true) → s.handles.handle t.db = none →
      (next s c).1.handles.handle t.db = none ∧ (next s c).2 = none
  closedOnce : ∀ h < (next s c).1.handles.fresh,
    (∀ d, (next s c).1.handles.handle d ≠ some h) → (next s c).1.handles.closed.count h = 1

def held (s : Handles) (h : ℕ) : ℕ := [Db.usr, .fac, .rest].countP fun d => s.handle d = some h

variable {s : Handles} {d : Db} {h : ℕ}

theorem held_eq_zero : held s h = 0 ↔ ∀ d, s.handle d ≠ some h := by
  simp only [held, List.countP_eq_zero, decide_eq_true_eq]
  exact ⟨fun hall d => hall d (by cases d <;> simp), fun hall d _ => hall d⟩

theorem close_balance (s : Handles) (d : Db) (h : ℕ) :
    (s.close d).closed.count h + held (s.close d) h = s.closed.count h + held s h := by
  have hcount : (s.handle d).toList.count h = if s.handle d = some h then 1 else 0 := by
    cases s.handle d <;> simp [List.count_singleton]
  cases d <;>
    simp only [Handles.close, held, List.count_append, hcount, List.countP_cons, List.countP_nil,
      Function.update_self, Function.update_of_ne, ne_eq, reduceCtorEq, not_false_eq_true,
      decide_false, decide_eq_true_eq, Bool.false_eq_true, if_false] <;> omega

theorem give_handle (s : Handles) (d e : Db) :
    (give s d).handle e = if e = d then some s.fresh else s.handle e :=
  Function.update_apply _ _ _ _

theorem give_balance (hd : s.handle d = none) (h : ℕ) :
    (give s d).closed.count h + held (give s d) h =
      s.closed.count h + held s h + if h = s.fresh then 1 else 0 := by
  cases d <;>
    simp only [give, held, hd, List.countP_cons, List.countP_nil, Function.update_self,
      Function.update_of_ne, ne_eq, reduceCtorEq, not_false_eq_true, decide_false,
      decide_eq_true_eq, Bool.false_eq_true, if_false, Option.some.injEq, eq_comm (a := h)] <;>
    omega

/-- Every handle that was given stands in one variable or has been closed once. -/
structure Balanced (s : Connections) : Prop where
  balance : ∀ h, s.handles.closed.count h + held s.handles h = if h < s.handles.fresh then 1 else 0
  one : ∀ d e, s.handles.handle d ≠ none → s.handles.handle e ≠ none → d = e
  sound : ∀ d h, s.handles.handle d = some h → h ∈ s.sound

namespace Balanced

variable {s : Connections} {d : Db} {h : ℕ}

theorem initial : Balanced initial := ⟨fun _ => rfl, nofun, nofun⟩

theorem isOpen (hs : Balanced s) (hd : s.handles.handle d = some h) : IsOpen s h := by
  refine ⟨hs.sound d h hd, fun hclosed => ?_⟩
  have hcount : 0 < s.handles.closed.count h := List.count_pos_iff.mpr hclosed
  have hheld : held s.handles h ≠ 0 := fun hzero => held_eq_zero.mp hzero d hd
  have hbalance := hs.balance h
  split at hbalance <;> omega

theorem closedOnce (hs : Balanced s) (hh : h < s.handles.fresh)
    (hgone : ∀ d, s.handles.handle d ≠ some h) : s.handles.closed.count h = 1 := by
  have hbalance := hs.balance h
  rwa [held_eq_zero.mpr hgone, if_pos hh] at hbalance

theorem close (hs : Balanced s) (d : Db) : Balanced (s.close d) := by
  have hkept {e : Db} (he : (s.close d).handles.handle e ≠ none) :
      (s.close d).handles.handle e = s.handles.handle e := by
    have hclose := close_handle s.handles d e
    split at hclose
    · exact absurd hclose he
    · exact hclose
  constructor
  · intro h
    exact (close_balance s.handles d h).trans (hs.balance h)
  · intro e f he hf
    exact hs.one e f (hkept he ▸ he) (hkept hf ▸ hf)
  · intro e h he
    exact hs.sound e h ((hkept (by simp [he])).symm.trans he)

theorem closeOthers (hs : Balanced s) (d : Db) : Balanced (s.closeOthers d) := by
  cases d <;> exact (hs.close _).close _

theorem fresh_succ (hs : Balanced s) (hd : s.handles.handle d = none) (h : ℕ) :
    (give s.handles d).closed.count h + held (give s.handles d) h =
      if h < s.handles.fresh + 1 then 1 else 0 := by
  rw [give_balance hd h, hs.balance h]
  split <;> split <;> split <;> omega

theorem open_ok (hs : Balanced s) (hnone : ∀ e, s.handles.handle e = none) :
    Balanced (s.sqlite3Open d .ok) := by
  have hopened {e : Db} {g : ℕ} (he : (give s.handles d).handle e = some g) :
      e = d ∧ g = s.handles.fresh := by
    rw [give_handle] at he
    split at he
    · exact ⟨‹_›, (Option.some.inj he).symm⟩
    · rw [hnone e] at he
      cases he
  constructor
  · exact hs.fresh_succ (hnone d)
  · intro e f he hf
    obtain ⟨g, he⟩ := Option.ne_none_iff_exists'.mp he
    obtain ⟨g', hf⟩ := Option.ne_none_iff_exists'.mp hf
    rw [(hopened he).1, (hopened hf).1]
  · intro e h he
    rw [(hopened he).2]
    exact List.mem_cons_self

theorem close_error_handle (hnone : ∀ e, s.handles.handle e = none) (given : Bool) (d e : Db) :
    ((s.sqlite3Open d (.error given)).close d).handles.handle e = none := by
  refine (close_handle _ d e).trans ?_
  split
  · rfl
  · rename_i hne
    cases given <;> exact (Function.update_of_ne hne _ _).trans (hnone e)

theorem open_error (hs : Balanced s) (hnone : ∀ e, s.handles.handle e = none) (given : Bool) :
    Balanced ((s.sqlite3Open d (.error given)).close d) := by
  constructor
  · intro h
    refine (close_balance _ d h).trans ?_
    cases given with
    | false =>
      have hsame : s.sqlite3Open d (.error false) = s := by
        rw [Connections.sqlite3Open, Function.update_eq_self_iff.mpr (hnone d).symm]
      rw [hsame]
      exact hs.balance h
    | true => exact hs.fresh_succ (hnone d) h
  · intro e f he
    exact absurd (close_error_handle hnone given d e) he
  · intro e h he
    rw [close_error_handle hnone given d e] at he
    cases he

end Balanced

variable {s : Connections} {t : LoadType} {userFile factoryFile : Bool} {answer : Answer} {h : ℕ}

theorem closeOthers_slot (s : Connections) (d : Db) :
    (s.closeOthers d).handles.handle d = s.handles.handle d :=
  (closeOthers_handle _ d d).trans (if_pos rfl)

theorem closeOthers_none {d : Db} (hd : s.handles.handle d = none) (e : Db) :
    (s.closeOthers d).handles.handle e = none := by
  refine (closeOthers_handle _ d e).trans ?_
  rw [hd, ite_self]

theorem closeOthers_fresh (s : Connections) (d : Db) :
    (s.closeOthers d).handles.fresh = s.handles.fresh := by
  cases d <;> rfl

theorem not_noFile (hfile : userFile = true ∨ factoryFile = true) :
    ¬ (userFile = false ∧ factoryFile = false) := by
  rcases hfile with rfl | rfl <;> simp

theorem openSqliteDb_there (hfile : userFile = true ∨ factoryFile = true)
    (hd : s.handles.handle t.db = some h) :
    openSqliteDb s t userFile factoryFile answer = (s.closeOthers t.db, some h) := by
  rw [openSqliteDb, if_neg (not_noFile hfile)]
  simp only [closeOthers_slot, hd]

theorem openSqliteDb_ok (hfile : userFile = true ∨ factoryFile = true)
    (hd : s.handles.handle t.db = none) :
    openSqliteDb s t userFile factoryFile .ok =
      ((s.closeOthers t.db).sqlite3Open t.db .ok, some s.handles.fresh) := by
  rw [openSqliteDb, if_neg (not_noFile hfile)]
  simp only [closeOthers_slot, hd, Connections.sqlite3Open, give_handle, if_pos,
    closeOthers_fresh]

theorem openSqliteDb_error (hfile : userFile = true ∨ factoryFile = true)
    (hd : s.handles.handle t.db = none) (given : Bool) :
    openSqliteDb s t userFile factoryFile (.error given) =
      (((s.closeOthers t.db).sqlite3Open t.db (.error given)).close t.db, none) := by
  rw [openSqliteDb, if_neg (not_noFile hfile)]
  simp only [closeOthers_slot, hd]

/-- Where it succeeds, the handles become what the threads see of them. -/
theorem openSqliteDb_openDb (hfile : userFile = true ∨ factoryFile = true) :
    (openSqliteDb s t userFile factoryFile .ok).1.handles =
      ((s.handles.closeOthers t.db).openDb t.db).1 := by
  rw [Handles.openDb, show (s.handles.closeOthers t.db).handle t.db = s.handles.handle t.db from
    closeOthers_slot s t.db]
  cases hd : s.handles.handle t.db with
  | some h => rw [openSqliteDb_there hfile hd]; rfl
  | none => rw [openSqliteDb_ok hfile hd]; rfl

theorem Balanced.openSqliteDb (hs : Balanced s) (t : LoadType) (userFile factoryFile : Bool)
    (answer : Answer) : Balanced (openSqliteDb s t userFile factoryFile answer).1 := by
  by_cases hfile : userFile = true ∨ factoryFile = true
  · cases hd : s.handles.handle t.db with
    | some h =>
      rw [openSqliteDb_there hfile hd]
      exact hs.closeOthers _
    | none =>
      cases answer with
      | ok =>
        rw [openSqliteDb_ok hfile hd]
        exact (hs.closeOthers _).open_ok (closeOthers_none hd)
      | error given =>
        rw [openSqliteDb_error hfile hd]
        exact (hs.closeOthers _).open_error (closeOthers_none hd) given
  · obtain ⟨rfl, rfl⟩ : userFile = false ∧ factoryFile = false := by simpa using hfile
    exact hs

theorem Balanced.next (hs : Balanced s) (c : Call) : Balanced (next s c).1 := by
  cases c with
  | openSqliteDb t userFile factoryFile answer =>
    exact hs.openSqliteDb t userFile factoryFile answer
  | closeSqliteDb => exact hs.close _

theorem balanced_after (calls : List Call) : Balanced (after calls) := by
  induction calls using List.reverseRecOn with
  | nil => exact Balanced.initial
  | append_singleton calls c ih =>
    rw [after, List.foldl_concat]
    exact ih.next c

theorem openSqliteDb_returned (hr : (openSqliteDb s t userFile factoryFile answer).2 = some h) :
    (openSqliteDb s t userFile factoryFile answer).1.handles.handle t.db = some h := by
  by_cases hfile : userFile = true ∨ factoryFile = true
  · cases hd : s.handles.handle t.db with
    | some g =>
      rw [openSqliteDb_there hfile hd] at hr ⊢
      rw [← hr, closeOthers_slot, hd]
    | none =>
      cases answer with
      | ok =>
        rw [openSqliteDb_ok hfile hd] at hr ⊢
        rw [← hr]
        exact (give_handle _ _ _).trans (by rw [if_pos rfl, closeOthers_fresh])
      | error given =>
        rw [openSqliteDb_error hfile hd] at hr
        cases hr
  · obtain ⟨rfl, rfl⟩ : userFile = false ∧ factoryFile = false := by simpa using hfile
    cases hr

/-- In every sequence of calls, whatever fails. -/
theorem calls_disciplined (calls : List Call) (c : Call) : Disciplined (after calls) c := by
  have hs := balanced_after calls
  have hnext := hs.next c
  constructor
  · exact hnext.one
  · rintro t userFile factoryFile answer h rfl hr
    have hd := openSqliteDb_returned hr
    exact ⟨hd, hnext.isOpen hd⟩
  · rintro t userFile factoryFile given rfl hfile hd
    have herror := openSqliteDb_error hfile hd given
    rw [next, herror]
    exact ⟨Balanced.close_error_handle (closeOthers_none hd) given _ _, rfl⟩
  · intro h hh hgone
    exact hnext.closedOnce hh hgone

end DbHandleCalls
