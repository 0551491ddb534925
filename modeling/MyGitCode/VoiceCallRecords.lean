import Mathlib.Algebra.Ring.Int.Defs
import Mathlib.Logic.Function.Basic
import MyGitCode.WordBitmap
import MyGitCode.VoiceModem
import MyGitCode.VoiceDatastore

/-! # The call-record store of `voice_core.c`

A node of the total list is its address, and `heap` says which record the node at an address
carries. A node of a type list is the address it points to. Nodes the trimming drops stay
allocated. An operation has no result where the C code leaves the memory it owns. -/
namespace VoiceCallRecords

open CText VoiceModem VoiceDatastore WordBitmap

/-- `JRD_VOICE_RECORD_MAX_NUM`. -/
def recordMaxNum : ℕ := 100

structure Store where
  heap : ℕ → Option Record
  total : List ℕ
  missed : List ℕ
  incoming : List ℕ
  outgoing : List ℕ
  idMask : Bitmap 4
  table : Table

def emptyStore : Store := ⟨fun _ => none, [], [], [], [], WordBitmap.empty 4, []⟩

def typeList (s : Store) : CallType → List ℕ
  | .missed => s.missed
  | .incoming => s.incoming
  | .outgoing => s.outgoing
  | .unknown => []

def setTypeList (s : Store) (type : CallType) (l : List ℕ) : Store :=
  match type with
  | .missed => { s with missed := l }
  | .incoming => { s with incoming := l }
  | .outgoing => { s with outgoing := l }
  | .unknown => s

/-- Ascending with `PUSH_LTE`, so a node of equal weight goes behind the back node. -/
def orderedListPush (l : List ℕ) (node : ℕ) : List ℕ := l ++ [node]

def orderedListPopFront (l : List ℕ) : List ℕ := l.tail

/-- The node must be in the list: a trimmed node has lost its `prev_ptr`. -/
def orderedListPopItem (l : List ℕ) (node : ℕ) : Option (List ℕ) :=
  if node ∈ l then some (l.erase node) else none

def orderedListLinearSearch (l : List ℕ) (compare : ℕ → Bool) : Option ℕ := l.find? compare

/-- What the three allocations of one call give. `node` is the address of the total-list node. -/
structure Malloc where
  record : Bool
  node : Option ℕ
  typeNode : Bool
  deriving DecidableEq

/-- What `jan_voice_core_add_record_to_list` reads besides the lists. -/
structure CallContext where
  now : ℤ
  timezoneDiff : ℤ
  calls : Calls
  previousTime : ℤ
  isOnline : Bool
  callNum : List Char
  len : ℕ

/-- The fields of the new record by type; `none` in the inner option is the `default` branch. -/
def fillRecord (type : CallType) (ctx : CallContext) (id : ℕ) : Option (Option Record) :=
  let curtime := ctx.now + ctx.timezoneDiff
  let current := ctx.calls.callInfo
  let third := ctx.calls.thirdCallInfo
  match type with
  | .missed =>
    let number := if third.callState = .waiting ∧ current.callState = .conversation
      then third.callNumber else current.callNumber
    (strncpy 32 number.chars number.chars.length).map fun n => some ⟨id, n, curtime, 0, type⟩
  | .incoming =>
    (strncpy 32 current.callNumber.chars current.callNumber.chars.length).map fun n =>
      some ⟨id, n, ctx.previousTime, curtime - ctx.previousTime, type⟩
  | .outgoing =>
    (strncpy 32 ctx.callNum ctx.len).map fun n =>
      some ⟨id, n, curtime, if ctx.isOnline then curtime - ctx.previousTime else 0, type⟩
  | .unknown => some none

/-- The search loop from `idCount`, with its early break at the limit. -/
def searchId (idMask : Bitmap 4) (limitNum : ℕ) : ℕ → ℕ → ℕ
  | 0, idCount => idCount
  | fuel + 1, idCount =>
    if isSet idMask idCount then
      if limitNum ≤ idCount + 1 then idCount + 1 else searchId idMask limitNum fuel (idCount + 1)
    else idCount

def nextId (idMask : Bitmap 4) : ℕ := searchId idMask recordMaxNum recordMaxNum 1

/-- `jan_voice_core_record_limit`: the front node is popped from the total list alone. -/
def recordLimit (limitNum : ℕ) : List ℕ → List ℕ
  | [] => []
  | node :: l =>
    if limitNum < (node :: l).length then recordLimit limitNum (orderedListPopFront (node :: l))
    else node :: l

/-- `malloc` gives an address that is not in use. -/
def pushNode (s : Store) (node : ℕ) (record : Record) : Option Store :=
  if s.heap node = none then
    some { s with
      heap := Function.update s.heap node (some record)
      total := orderedListPush s.total node }
  else none

def pushRecord (s : Store) (record : Record) (m : Malloc) : Option (Rc × Store) :=
  match m.node with
  | none => some (.fail, s)
  | some node =>
    (pushNode s node record).map fun s =>
      if m.typeNode then
        (.noErr, setTypeList s record.callType
          (orderedListPush (typeList s record.callType) node))
      else (.fail, s)

def addRecordToList (s : Store) (type : CallType) (ctx : CallContext) (m : Malloc)
    (ok : Stmt → Bool) : Option (Rc × Store) :=
  if m.record then
    let idCount := nextId s.idMask
    let s := { s with idMask := WordBitmap.set s.idMask idCount }
    match fillRecord type ctx idCount with
    | none => none
    | some none => some (.noErr, s)
    | some (some record) =>
      match pushRecord s record m with
      | none => none
      | some (.fail, s) => some (.fail, s)
      | some (.noErr, s) =>
        some (.noErr, { s with
          total := recordLimit recordMaxNum s.total
          table := (VoiceDatastore.insert ok record recordMaxNum s.table).2 })
  else some (.fail, s)

inductive ListType where
  | all | incoming | outgoing | missed
  deriving DecidableEq, Repr

/-- `*(int *)record_id == record->id`, an `int` against an `unsigned int`. -/
def compareId (s : Store) (id : ℤ) (node : ℕ) : Bool :=
  match s.heap node with
  | some r => (r.id : ℤ) = id % 2 ^ 32
  | none => false

/-- `jan_voice_core_pop_node` on the total list: the record and the node are freed. -/
def popNode (s : Store) (node : ℕ) : Option Store :=
  (orderedListPopItem s.total node).map fun l =>
    { s with heap := Function.update s.heap node none, total := l }

/-- `JRD_NO_ERR` of the delete: the row goes, then the bit at the signed index. -/
def forgetId (s : Store) (id : ℤ) (ok : Stmt → Bool) : Option Store :=
  if 0 ≤ id ∧ id < 128 then
    some { s with
      table := (VoiceDatastore.delete ok id s.table).2
      idMask := WordBitmap.clear s.idMask id.toNat }
  else none

def deleteFromTotal (s : Store) (id : ℤ) (ok : Stmt → Bool) : Option (Rc × Store) :=
  match orderedListLinearSearch s.total (compareId s id) with
  | none => some (.fail, s)
  | some node =>
    match s.heap node with
    | none => none
    | some r =>
      match r.callType with
      | .unknown => some (.fail, s)
      | type =>
        match orderedListLinearSearch (typeList s type) (· = node) with
        | none => some (.fail, s)
        | some _ =>
          let s := setTypeList s type ((typeList s type).erase node)
          ((popNode s node).bind fun s => forgetId s id ok).map fun s => (.noErr, s)

def deleteFromType (s : Store) (type : CallType) (id : ℤ) (ok : Stmt → Bool) :
    Option (Rc × Store) :=
  match orderedListLinearSearch (typeList s type) (compareId s id) with
  | none => some (.fail, s)
  | some node =>
    ((popNode s node).bind fun s =>
      forgetId (setTypeList s type ((typeList s type).erase node)) id ok).map
        fun s => (.noErr, s)

def deleteRecordFromList (s : Store) (list : ListType) (id : ℤ) (ok : Stmt → Bool) :
    Option (Rc × Store) :=
  match list with
  | .all => deleteFromTotal s id ok
  | .incoming => deleteFromType s .incoming id ok
  | .outgoing => deleteFromType s .outgoing id ok
  | .missed => deleteFromType s .missed id ok

/-- The column loop: an unknown column ends the callback, a number of more than 32 characters
is left out, and one of exactly 32 has its NUL written past the field. -/
def readColumns : Row → Record → Option (Rc × Record)
  | [], r => some (.noErr, r)
  | .id v :: row, r => readColumns row { r with id := (v % 2 ^ 32).toNat }
  | .contacts :: row, r => readColumns row r
  | .contactNumber v :: row, r =>
    if v.length ≤ 32 then
      (strncpy 32 v v.length).bind fun n => readColumns row { r with contactNumber := n }
    else readColumns row r
  | .date v :: row, r => readColumns row { r with callDate := v }
  | .duration v :: row, r => readColumns row { r with callDuration := v }
  | .type v :: row, r => readColumns row { r with callType := .ofInt v }
  | .other :: _, r => some (.fail, r)

def zeroRecord : Record := ⟨0, .empty (by decide), 0, 0, .unknown⟩

/-- `jan_voice_core_init_record_form_datastore` on one row. An id from 128 on is outside
`id_mask`. -/
def initRecordFormDatastore (s : Store) (row : Row) (m : Malloc) : Option (Rc × Store) :=
  if m.record then
    match readColumns row zeroRecord with
    | none => none
    | some (.fail, _) => some (.fail, s)
    | some (.noErr, r) =>
      match r.callType with
      | .unknown => some (.noErr, s)
      | _ =>
        match pushRecord s r m with
        | none => none
        | some (.fail, s) => some (.fail, s)
        | some (.noErr, s) =>
          let idMask :=
            if isSet s.idMask r.id then s.idMask else WordBitmap.set s.idMask r.id
          if r.id < 128 then some (.noErr, { s with idMask := idMask }) else none
  else some (.fail, s)

inductive Op where
  | load (row : Row) (m : Malloc)
  | add (type : CallType) (ctx : CallContext) (m : Malloc) (ok : Stmt → Bool)
  | delete (list : ListType) (id : ℤ) (ok : Stmt → Bool)

def next (s : Store) : Op → Option Store
  | .load row m => (initRecordFormDatastore s row m).map Prod.snd
  | .add type ctx m ok => (addRecordToList s type ctx m ok).map Prod.snd
  | .delete list id ok => (deleteRecordFromList s list id ok).map Prod.snd

end VoiceCallRecords
