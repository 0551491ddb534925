import Mathlib.Algebra.Group.Nat.Defs
import MyGitCode.VoiceRecordSteps

/-! # The pages of the call log

`jan_voice_get_call_record_list` walks a record list from its back, all of it or one page of
ten records. A pointer into the list is the nodes from it on, towards the front. -/
namespace CallLogPages

open CText VoiceDatastore VoiceCallRecords VoiceRecordSteps

structure RecordObject where
  id : ℤ
  telNumber : Text 32
  date : List Char
  duration : ℤ
  callLogType : CallType
  deriving DecidableEq

structure Answer where
  recordList : List RecordObject
  page : ℤ
  totalPageCount : ℕ
  deriving DecidableEq

/-- What the system gives: `localtime` and `strftime` make a text of a time, and the JSON
library has memory for its objects, counted from the array on, or not. -/
structure System where
  date : ℤ → List Char
  json : ℕ → Bool

def orderedListPeekPrev : List ℕ → Option (List ℕ)
  | [] => none
  | _ :: link => some link

def recordObject (sys : System) (r : Record) : RecordObject where
  id := (r.id : ℤ).bmod (2 ^ 32)
  telNumber := r.contactNumber
  date := sys.date (r.callDate % 2 ^ 32)
  duration := r.callDuration
  callLogType := r.callType

/-- The loop for page 0. A node that points to no record is outside the memory in use. -/
def allRecords (s : Store) (sys : System) : ℕ → List ℕ → Option (Rc × List RecordObject)
  | _, [] => some (.noErr, [])
  | count, node :: link =>
    if sys.json (count + 1) then
      (s.heap node).bind fun r =>
        (allRecords s sys (count + 1) link).map fun (rc, objects) =>
          (rc, recordObject sys r :: objects)
    else some (.fail, [])

def pageRecords (s : Store) (sys : System) : ℕ → List ℕ → Option (Rc × List RecordObject)
  | _, [] => some (.noErr, [])
  | count, node :: link =>
    if count < 10 then
      if sys.json (count + 1) then
        (s.heap node).bind fun r =>
          (pageRecords s sys (count + 1) link).map fun (rc, objects) =>
            (rc, recordObject sys r :: objects)
      else some (.fail, [])
    else some (.noErr, [])

def skip : ℕ → List ℕ → Option (List ℕ)
  | 0, link => some link
  | n + 1, link => (orderedListPeekPrev link).bind (skip n)

def answer (page : ℤ) (totalPageNum : ℕ) : Rc × List RecordObject → Rc × Option Answer
  | (.noErr, objects) => (.noErr, some ⟨objects, page, totalPageNum⟩)
  | (.fail, _) => (.fail, none)

/-- `jan_voice_get_call_record_list` on the list type and page of a request. Of an empty list
there is no answer. -/
def getCallRecordList (s : Store) (sys : System) (listType : Option ListType) (page : ℤ) :
    Option (Rc × Option Answer) :=
  match listType with
  | none => some (.fail, none)
  | some listType =>
    let recordList := listNodes s listType
    let totalPageNum := (recordList.length + 9) / 10
    if recordList.length = 0 then some (.noErr, none)
    else if sys.json 0 = false then some (.fail, none)
    else if page = 0 then
      (allRecords s sys 0 recordList.reverse).map (answer page totalPageNum)
    else if (totalPageNum : ℤ) < page then some (.fail, none)
    else
      (skip ((page - 1) * 10).toNat recordList.reverse).bind fun link =>
        (pageRecords s sys 0 link).map (answer page totalPageNum)

variable {s : Store} {sys : System} {listType : ListType} {link : List ℕ} {count n : ℕ}

def Live (s : Store) (listType : ListType) : Prop :=
  ∀ node ∈ listNodes s listType, s.heap node ≠ none

def objects (s : Store) (sys : System) (link : List ℕ) : List RecordObject :=
  (link.filterMap s.heap).map (recordObject sys)

theorem objects_cons {node : ℕ} {r : Record} (h : s.heap node = some r) :
    objects s sys (node :: link) = recordObject sys r :: objects s sys link := by
  rw [objects, List.filterMap_cons_some h, List.map_cons]
  rfl

theorem objects_length (h : ∀ node ∈ link, s.heap node ≠ none) :
    (objects s sys link).length = link.length := by
  induction link with
  | nil => rfl
  | cons node link ih =>
    rw [List.forall_mem_cons] at h
    obtain ⟨r, hr⟩ := Option.ne_none_iff_exists'.mp h.1
    rw [objects_cons hr, List.length_cons, ih h.2, List.length_cons]

theorem objects_flatMap {α : Type*} (l : List α) (f : α → List ℕ) :
    l.flatMap (fun a => objects s sys (f a)) = objects s sys (l.flatMap f) := by
  induction l with
  | nil => rfl
  | cons a l ih =>
    rw [List.flatMap_cons, List.flatMap_cons, ih, objects, objects, objects, List.filterMap_append,
      List.map_append]

theorem allRecords_eq (hjson : ∀ k, sys.json k = true) (h : ∀ node ∈ link, s.heap node ≠ none) :
    allRecords s sys count link = some (.noErr, objects s sys link) := by
  induction link generalizing count with
  | nil => rfl
  | cons node link ih =>
    rw [List.forall_mem_cons] at h
    obtain ⟨r, hr⟩ := Option.ne_none_iff_exists'.mp h.1
    rw [allRecords, if_pos (hjson _), hr, Option.bind_some, ih h.2, objects_cons hr]
    rfl

theorem pageRecords_eq (hjson : ∀ k, sys.json k = true) (h : ∀ node ∈ link, s.heap node ≠ none)
    (hcount : count ≤ 10) :
    pageRecords s sys count link = some (.noErr, objects s sys (link.take (10 - count))) := by
  induction link generalizing count with
  | nil => rw [List.take_nil]; rfl
  | cons node link ih =>
    rw [List.forall_mem_cons] at h
    obtain ⟨r, hr⟩ := Option.ne_none_iff_exists'.mp h.1
    rcases Nat.lt_or_eq_of_le hcount with hlt | rfl
    · rw [pageRecords, if_pos hlt, if_pos (hjson _), hr, Option.bind_some, ih h.2 hlt,
        show 10 - count = (10 - (count + 1)) + 1 by omega, List.take_succ_cons, objects_cons hr]
      rfl
    · rw [pageRecords, if_neg (Nat.lt_irrefl 10)]
      rfl

theorem skip_eq (h : n ≤ link.length) : skip n link = some (link.drop n) := by
  induction n generalizing link with
  | zero => rfl
  | succ n ih =>
    cases link with
    | nil => cases h
    | cons node link => exact ih (Nat.le_of_succ_le_succ h)

def chunk {α : Type*} (l : List α) (p : ℕ) : List α := (l.drop ((p - 1) * 10)).take 10

theorem flatMap_chunk {α : Type*} (l : List α) (k : ℕ) :
    (List.range' 1 k).flatMap (chunk l) = l.take (k * 10) := by
  induction k with
  | zero => rfl
  | succ k ih =>
    rw [List.range'_concat, List.flatMap_append, ih, List.flatMap_singleton, chunk,
      show 1 + 1 * k - 1 = k by omega, Nat.succ_mul, List.take_add]

theorem getCallRecordList_all (hjson : ∀ k, sys.json k = true) (hlive : Live s listType)
    (hn : 1 ≤ (listNodes s listType).length) :
    getCallRecordList s sys (some listType) 0 =
      some (.noErr, some ⟨objects s sys (listNodes s listType).reverse, 0,
        ((listNodes s listType).length + 9) / 10⟩) := by
  have hlink : ∀ node ∈ (listNodes s listType).reverse, s.heap node ≠ none := by
    intro node hnode
    exact hlive node (List.mem_reverse.mp hnode)
  simp only [getCallRecordList]
  rw [if_neg (by omega), if_neg (by simp [hjson]), if_pos trivial, allRecords_eq hjson hlink]
  rfl

theorem getCallRecordList_page (hjson : ∀ k, sys.json k = true) (hlive : Live s listType) {p : ℕ}
    (hp : 1 ≤ p) (hlast : p ≤ ((listNodes s listType).length + 9) / 10) :
    getCallRecordList s sys (some listType) p =
      some (.noErr, some ⟨objects s sys (chunk (listNodes s listType).reverse p), p,
        ((listNodes s listType).length + 9) / 10⟩) := by
  have hlink : ∀ node ∈ (listNodes s listType).reverse.drop ((p - 1) * 10),
      s.heap node ≠ none := by
    intro node hnode
    exact hlive node (List.mem_reverse.mp (List.mem_of_mem_drop hnode))
  have hskip : (((p : ℤ) - 1) * 10).toNat = (p - 1) * 10 := by omega
  simp only [getCallRecordList]
  rw [if_neg (by omega), if_neg (by simp [hjson]), if_neg (by omega), if_neg (by omega), hskip,
    skip_eq (by rw [List.length_reverse]; omega), Option.bind_some,
    pageRecords_eq hjson hlink (Nat.zero_le 10)]
  rfl

theorem getCallRecordList_refused (hn : 1 ≤ (listNodes s listType).length) {page : ℤ}
    (hpage : (((listNodes s listType).length + 9) / 10 : ℕ) < page) :
    getCallRecordList s sys (some listType) page = some (.fail, none) := by
  simp only [getCallRecordList]
  rw [if_neg (by omega), if_neg (by omega : page ≠ 0), if_pos hpage, ite_self]

theorem chunk_length {α : Type*} (l : List α) (p : ℕ) :
    (chunk l p).length = min 10 (l.length - (p - 1) * 10) := by
  rw [chunk, List.length_take, List.length_drop]

theorem mem_of_mem_chunk {α : Type*} {l : List α} {p : ℕ} {a : α} (h : a ∈ chunk l p) : a ∈ l :=
  List.mem_of_mem_drop (List.mem_of_mem_take h)

structure Paged (s : Store) (sys : System) (listType : ListType) (pages : ℕ)
    (page : ℕ → List RecordObject) : Prop where
  answers : ∀ p, 1 ≤ p → p ≤ pages →
    getCallRecordList s sys (some listType) p = some (.noErr, some ⟨page p, p, pages⟩)
  all : getCallRecordList s sys (some listType) 0 =
    some (.noErr, some ⟨(List.range' 1 pages).flatMap page, 0, pages⟩)
  newestFirst : (List.range' 1 pages).flatMap page =
    objects s sys (listNodes s listType).reverse
  full : ∀ p, 1 ≤ p → p < pages → (page p).length = 10
  last : 1 ≤ (page pages).length ∧ (page pages).length ≤ 10
  refused : ∀ p : ℤ, pages < p → getCallRecordList s sys (some listType) p = some (.fail, none)

/-- The pages, one after the other, are the list from its newest record to the oldest. -/
theorem pages_of_list (hjson : ∀ k, sys.json k = true) (hlive : Live s listType)
    (hn : 1 ≤ (listNodes s listType).length) :
    ∃ page, Paged s sys listType (((listNodes s listType).length + 9) / 10) page := by
  have hjoined : (List.range' 1 (((listNodes s listType).length + 9) / 10)).flatMap
      (fun p => objects s sys (chunk (listNodes s listType).reverse p)) =
        objects s sys (listNodes s listType).reverse := by
    rw [objects_flatMap, flatMap_chunk, List.take_of_length_le]
    rw [List.length_reverse]
    omega
  have hlength (p : ℕ) :
      (objects s sys (chunk (listNodes s listType).reverse p)).length =
        min 10 ((listNodes s listType).length - (p - 1) * 10) := by
    have hlink : ∀ node ∈ chunk (listNodes s listType).reverse p, s.heap node ≠ none := by
      intro node hnode
      exact hlive node (List.mem_reverse.mp (mem_of_mem_chunk hnode))
    rw [objects_length hlink, chunk_length, List.length_reverse]
  refine ⟨fun p => objects s sys (chunk (listNodes s listType).reverse p), ?_⟩
  constructor
  · intro p hp hlast
    exact getCallRecordList_page hjson hlive hp hlast
  · rw [hjoined]
    exact getCallRecordList_all hjson hlive hn
  · exact hjoined
  · intro p hp hlt
    rw [hlength]
    omega
  · rw [hlength]
    omega
  · intro p hp
    exact getCallRecordList_refused hn hp

theorem pages_of_eleven : ∃ page,
    Paged { emptyStore with heap := fun _ => some zeroRecord, total := List.range 11 }
      ⟨fun _ => [], fun _ => true⟩ .all 2 page :=
  pages_of_list (fun _ => rfl) (fun _ _ => Option.some_ne_none _) (by decide)

end CallLogPages
