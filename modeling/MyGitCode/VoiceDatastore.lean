import Mathlib.Data.Int.Notation
import MyGitCode.CText

/-! # The CallRecord table of `voice_datastore.c`

SQL statements are values, run against a list of rows. Each statement succeeds or fails as
the parameter `ok` says, since the callers ignore its result and go on. -/
namespace VoiceDatastore

open CText

inductive Rc where
  | noErr | fail
  deriving DecidableEq, Repr

/-- `e_jan_voice_core_call_type_t`. Every value that is none of the three named types
takes the `default` branches, as `unknown` does. -/
inductive CallType where
  | unknown | incoming | outgoing | missed
  deriving DecidableEq, Repr

def CallType.toInt : CallType → ℤ
  | .unknown => 0
  | .incoming => 1
  | .outgoing => 2
  | .missed => 3

def CallType.ofInt : ℤ → CallType
  | 1 => .incoming
  | 2 => .outgoing
  | 3 => .missed
  | _ => .unknown

/-- `jan_voice_call_record_t`, without `contacts`, which no code assigns. -/
structure Record where
  id : ℕ
  contactNumber : Text 32
  callDate : ℤ
  callDuration : ℤ
  callType : CallType
  deriving DecidableEq

/-- One column of a row as the select callback gets it: its name with the value read from it. -/
inductive Column where
  | id (v : ℤ)
  | contacts
  | contactNumber (v : List Char)
  | date (v : ℤ)
  | duration (v : ℤ)
  | type (v : ℤ)
  | other
  deriving DecidableEq

abbrev Row := List Column
abbrev Table := List Row

def rowOf (r : Record) : Row :=
  [.id r.id, .contacts, .contactNumber r.contactNumber.chars, .date r.callDate,
    .duration r.callDuration, .type r.callType.toInt]

def rowId : Row → Option ℤ
  | [] => none
  | .id v :: _ => some v
  | _ :: row => rowId row

inductive Stmt where
  | insert (r : Record)
  | delete (id : ℤ)
  deriving DecidableEq

def run : Stmt → Table → Table
  | .insert r, t => t ++ [rowOf r]
  | .delete id, t => t.filter fun row => rowId row ≠ some id

def execCmd (ok : Stmt → Bool) (s : Stmt) (t : Table) : Rc × Table :=
  if ok s then (.noErr, run s t) else (.fail, t)

def delete (ok : Stmt → Bool) (id : ℤ) (t : Table) : Rc × Table := execCmd ok (.delete id) t

/-- `jan_voice_datastore_limit`: a record id past the limit deletes the ids from 1 on. -/
def limit (ok : Stmt → Bool) (record : Record) (limitNum : ℕ) (t : Table) : Table :=
  if limitNum < record.id then
    (List.range' 1 (record.id - limitNum)).foldl (fun t index => (delete ok index t).2) t
  else t

def insert (ok : Stmt → Bool) (record : Record) (limitNum : ℕ) (t : Table) : Rc × Table :=
  execCmd ok (.insert record) (limit ok record limitNum t)

variable {ok : Stmt → Bool} {r : Record} {n : ℕ} {t : Table} {id : ℤ}

@[simp] theorem rowId_rowOf (r : Record) : rowId (rowOf r) = some (r.id : ℤ) := rfl

theorem insert_of_le (hok : ∀ s, ok s) (h : r.id ≤ n) :
    (insert ok r n t).2 = t ++ [rowOf r] := by
  simp [insert, limit, execCmd, hok, run, Nat.not_lt.mpr h]

theorem delete_rows (hok : ∀ s, ok s) :
    (delete ok id t).2 = t.filter fun row => rowId row ≠ some id := by
  simp [delete, execCmd, hok, run]

end VoiceDatastore
