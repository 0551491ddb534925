import MyGitCode.TransitionRuns
import MyGitCode.VoiceRecordDelete

/-! # The delete request

`jan_voice_delete_call_record` deletes the ids of a command one by one. The result of each
delete is dropped on the way, so a request never says that it found no record. -/
namespace VoiceDeleteRequests

open TransitionRuns VoiceDatastore VoiceCallRecords VoiceRecordSteps VoiceRecordDelete

/-- `jan_voice_core_delete_record_id`: the result of the delete is dropped. -/
def deleteRecordId (s : Store) (listType : Option ListType) (id : ℤ) (ok : Stmt → Bool) :
    Option (Rc × Store) :=
  match listType with
  | none => some (.fail, s)
  | some list => (deleteRecordFromList s list id ok).map fun (_, s) => (.noErr, s)

inductive Ending where
  | refused | noId | notFound | done
  deriving DecidableEq, Repr

structure Reply where
  rc : Rc
  errorCode : Option ℤ
  ending : Ending
  deriving DecidableEq

structure Loop where
  countRecordId : ℕ
  isRecordId : Bool
  store : Store

def deleteStep (listType : Option ListType) (ok : Stmt → Bool) (l : Loop) (id : ℤ) :
    Option Loop :=
  (deleteRecordId l.store listType id ok).map fun (rc, s) =>
    ⟨l.countRecordId + 1, if rc = .noErr then true else l.isRecordId, s⟩

/-- `jan_voice_delete_call_record` on the list type and the record ids of a command. A list
type that is missing or none of the four is `none`. -/
def deleteCallRecord (s : Store) (listType : Option ListType) (recordIds : List ℤ)
    (ok : Stmt → Bool) : Option (Reply × Store) :=
  match listType with
  | none => some (⟨.fail, none, .refused⟩, s)
  | some list =>
    if (listNodes s list).length = 0 then some (⟨.fail, none, .refused⟩, s)
    else
      (runTrace (deleteStep listType ok) ⟨0, false, s⟩ recordIds).map fun l =>
        if l.countRecordId = 0 then (⟨.noErr, some 0, .noId⟩, l.store)
        else if l.isRecordId = false then (⟨.noErr, some 0, .notFound⟩, l.store)
        else (⟨.noErr, none, .done⟩, l.store)

def deleteNext (listType : Option ListType) (ok : Stmt → Bool) (s : Store) (id : ℤ) :
    Option Store :=
  (deleteRecordId s listType id ok).map Prod.snd

def Removed (s t : Store) (id : ℤ) : Prop :=
  ∃ node ∈ s.total, ∃ r, s.heap node = some r ∧ (r.id : ℤ) = id ∧
    t.total = s.total.erase node ∧ t.heap node = none

def Present (s : Store) (list : ListType) (id : ℤ) : Prop :=
  ∃ r ∈ listRecords s list, (r.id : ℤ) = id

/-- The first record of the list with the id; of the total list it must be in the list of
its type too. -/
def Deletable (s : Store) (list : ListType) (id : ℤ) : Prop :=
  ∃ node r, orderedListLinearSearch (listNodes s list) (compareId s id) = some node ∧
    s.heap node = some r ∧ (list = .all → node ∈ typeList s r.callType)

variable {s t : Store} {list : ListType} {listType : Option ListType} {type : CallType} {id : ℤ}
  {ok : Stmt → Bool} {node : ℕ} {r : Record} {rc : Rc} {ts : List (Taken Store ℤ)}

theorem not_removed_self : ¬ Removed s s id := by
  rintro ⟨node, -, r, hr, -, -, hfree⟩
  exact Option.some_ne_none r (hr.symm.trans hfree)

theorem present_removed {u : Store} (hnode : node ∈ listNodes s list)
    (hcmp : compareId s id node = true) (hr : s.heap node = some r)
    (hpop : popNode s node = some u)
    (hv : forgetId (setTypeList u type ((typeList s type).erase node)) id ok = some t) :
    Present s list id ∧ Removed s t id := by
  obtain ⟨hmem, hid, -, rfl⟩ := removed_of_steps hcmp hr hpop hv
  exact ⟨⟨r, List.mem_filterMap.mpr ⟨node, hnode, hr⟩, hid⟩,
    node, hmem, r, hr, hid, removed_total, by simp⟩

/-- A delete returns success and removes a record, or fails and changes nothing. -/
def Outcome (s : Store) (list : ListType) (id : ℤ) (rc : Rc) (t : Store) : Prop :=
  (Deletable s list id ∧ rc = .noErr ∧ Present s list id ∧ Removed s t id) ∨
    (¬ Deletable s list id ∧ rc = .fail ∧ t = s)

theorem deleteFromTotal_outcome (h : deleteFromTotal s id ok = some (rc, t)) :
    Outcome s .all id rc t := by
  rcases deleteFromTotal_cases h with
    ⟨hnone, rfl, rfl⟩ | ⟨node, r, hfind, hr, ⟨hout, rfl, rfl⟩ | ⟨hmem, rfl, u, hpop, hv⟩⟩
  · refine .inr ⟨?_, rfl, rfl⟩
    rintro ⟨node, r, hfind, -⟩
    exact Option.some_ne_none node (hfind.symm.trans hnone)
  · refine .inr ⟨?_, rfl, rfl⟩
    rintro ⟨n, x, hn, hx, hlisted⟩
    obtain rfl : node = n := Option.some.inj (hfind.symm.trans hn)
    obtain rfl : r = x := Option.some.inj (hr.symm.trans hx)
    exact hout (hlisted rfl)
  · exact .inl ⟨⟨node, r, hfind, hr, fun _ => hmem⟩, rfl,
      present_removed (List.mem_of_find?_eq_some hfind) (List.find?_some hfind) hr hpop hv⟩

theorem deleteFromType_outcome (type : CallType) (hne : list ≠ .all)
    (hlist : listNodes s list = typeList s type)
    (h : deleteFromType s type id ok = some (rc, t)) : Outcome s list id rc t := by
  rcases deleteFromType_cases h with ⟨hnone, rfl, rfl⟩ | ⟨node, r, hfind, hr, rfl, u, hpop, hv⟩
  · refine .inr ⟨?_, rfl, rfl⟩
    rintro ⟨node, r, hfind, -⟩
    rw [hlist] at hfind
    exact Option.some_ne_none node (hfind.symm.trans hnone)
  · have hcmp := List.find?_some hfind
    rw [← hlist] at hfind
    exact .inl ⟨⟨node, r, hfind, hr, fun hall => absurd hall hne⟩, rfl,
      present_removed (List.mem_of_find?_eq_some hfind) hcmp hr hpop hv⟩

theorem deleteRecordFromList_outcome (h : deleteRecordFromList s list id ok = some (rc, t)) :
    Outcome s list id rc t := by
  cases list with
  | all => exact deleteFromTotal_outcome h
  | incoming => exact deleteFromType_outcome .incoming (by decide) rfl h
  | outgoing => exact deleteFromType_outcome .outgoing (by decide) rfl h
  | missed => exact deleteFromType_outcome .missed (by decide) rfl h

theorem deleteRecordId_truth (h : deleteRecordId s listType id ok = some (rc, t)) :
    (rc = .noErr ↔ Removed s t id) ↔ ∀ list, listType = some list → Deletable s list id := by
  cases listType with
  | none =>
    obtain ⟨rfl, rfl⟩ : rc = .fail ∧ t = s := by simpa [deleteRecordId, eq_comm] using h
    simp [not_removed_self]
  | some list =>
    simp only [deleteRecordId, Option.map_eq_some_iff, Prod.mk.injEq] at h
    obtain ⟨⟨rc', u⟩, hdel, rfl, rfl⟩ := h
    simp only [Option.some.injEq, forall_eq', true_iff]
    rcases deleteRecordFromList_outcome hdel with ⟨hyes, -, -, hgone⟩ | ⟨hno, -, hsame⟩
    · exact iff_of_true hgone hyes
    · exact iff_of_false (hsame ▸ not_removed_self) hno

theorem steps_deleteId (h : Steps (deleteNext listType ok) s id t) :
    ∃ rc, deleteRecordId s listType id ok = some (rc, t) ∧ (listType ≠ none → rc = .noErr) := by
  obtain ⟨⟨rc, u⟩, hdel, rfl⟩ := Option.map_eq_some_iff.mp h
  refine ⟨rc, hdel, ?_⟩
  intro hne
  obtain ⟨list, rfl⟩ := Option.ne_none_iff_exists'.mp hne
  simp only [deleteRecordId, Option.map_eq_some_iff, Prod.mk.injEq] at hdel
  obtain ⟨_, _, rfl, -⟩ := hdel
  rfl

/-- The loop of a command counts its ids and takes every one of them for found. -/
theorem deleteLoop_run (hlist : listType ≠ none)
    (h : Run (· = s) (Steps (deleteNext listType ok)) ts t) :
    runTrace (deleteStep listType ok) ⟨0, false, s⟩ (ts.map Taken.event) =
      some ⟨ts.length, decide (ts ≠ []), t⟩ := by
  induction h with
  | start hs => rw [hs]; rfl
  | snoc _ hstep ih =>
    obtain ⟨rc, hdel, hrc⟩ := steps_deleteId hstep
    rw [List.map_append, runTrace_append ih]
    simp [runTrace, deleteStep, hdel, hrc hlist]

theorem deleteCallRecord_run (hnodes : listNodes s list ≠ []) (hts : ts ≠ [])
    (h : Run (· = s) (Steps (deleteNext (some list) ok)) ts t) :
    deleteCallRecord s (some list) (ts.map Taken.event) ok =
      some (⟨.noErr, none, .done⟩, t) := by
  simp only [deleteCallRecord]
  rw [if_neg (by simpa using hnodes), deleteLoop_run (Option.some_ne_none list) h, Option.map_some]
  simp [hts]

/-- What the results of a command say of its ids: each call succeeds exactly when it removed a
record, and the command does not find a record exactly when no id was there. -/
structure TellsTruth (s t : Store) (listType : Option ListType) (ok : Stmt → Bool)
    (ts : List (Taken Store ℤ)) : Prop where
  calls : ∀ x ∈ ts, deleteRecordId x.before listType x.event ok = some (.noErr, x.after) ↔
    Removed x.before x.after x.event
  command : ∀ list, listType = some list → listNodes s list ≠ [] → ts ≠ [] →
    ∃ reply, deleteCallRecord s listType (ts.map Taken.event) ok = some (reply, t) ∧
      (reply.ending = .notFound ↔ ∀ x ∈ ts, ¬ Present s list x.event)

theorem present_of_step (h : Steps (deleteNext (some list) ok) s id t)
    (hyes : Deletable s list id) : Present s list id := by
  obtain ⟨rc, hdel, -⟩ := steps_deleteId h
  simp only [deleteRecordId, Option.map_eq_some_iff, Prod.mk.injEq] at hdel
  obtain ⟨⟨rc', u⟩, hdel, -, rfl⟩ := hdel
  rcases deleteRecordFromList_outcome hdel with ⟨-, -, hpresent, -⟩ | ⟨hno, -⟩
  · exact hpresent
  · exact absurd hyes hno

theorem run_tellsTruth_iff (h : Run (· = s) (Steps (deleteNext listType ok)) ts t) :
    TellsTruth s t listType ok ts ↔
      ∀ x ∈ ts, ∀ list, listType = some list → Deletable x.before list x.event := by
  have hcalls : (∀ x ∈ ts, deleteRecordId x.before listType x.event ok = some (.noErr, x.after) ↔
      Removed x.before x.after x.event) ↔
        ∀ x ∈ ts, ∀ list, listType = some list → Deletable x.before list x.event := by
    refine forall₂_congr fun x hx => ?_
    obtain ⟨rc, hdel, -⟩ := steps_deleteId (h.steps x hx)
    rw [← deleteRecordId_truth hdel, hdel]
    simp
  constructor
  · intro htruth
    exact hcalls.mp htruth.calls
  intro hall
  refine ⟨hcalls.mpr hall, ?_⟩
  rintro list rfl hnodes hts
  refine ⟨_, deleteCallRecord_run hnodes hts h, ?_⟩
  obtain ⟨x, hx⟩ : ∃ x, x ∈ ts.head? := by
    cases ts with
    | nil => exact absurd rfl hts
    | cons x ts => exact ⟨x, rfl⟩
  have hmem : x ∈ ts := List.mem_of_mem_head? hx
  have hpresent := present_of_step (h.steps x hmem) (hall x hmem list rfl)
  rw [h.first.2 x hx] at hpresent
  constructor
  · nofun
  · intro hnone
    exact absurd hpresent (hnone x hmem)

def deletable (s : Store) (list : ListType) (id : ℤ) : Bool :=
  (orderedListLinearSearch (listNodes s list) (compareId s id)).any fun node =>
    (s.heap node).any fun r => list ≠ .all ∨ node ∈ typeList s r.callType

theorem deletable_iff : Deletable s list id ↔ deletable s list id = true := by
  simp only [Deletable, deletable, Option.any_eq_true, decide_eq_true_iff, imp_iff_not_or, ne_eq,
    ← exists_and_left]

instance : Decidable (Deletable s list id) := decidable_of_iff _ deletable_iff.symm

theorem two_types_tellTruth : ∃ ts t,
    Run (· = missedTwice) (Steps (deleteNext (some .all) fun _ => true)) ts t ∧
      ts.map Taken.event = [2, 3] ∧ TellsTruth missedTwice t (some .all) (fun _ => true) ts := by
  have hsome : (runTrace (deleteNext (some .all) fun _ => true) missedTwice [2, 3]).isSome =
      true := by decide +kernel
  obtain ⟨t, ht⟩ := Option.isSome_iff_exists.mp hsome
  have hstart : Run (· = missedTwice) (Steps (deleteNext (some .all) fun _ => true)) []
    missedTwice := .start rfl
  have hrun := takenSteps_run hstart ht
  have hall : ∀ x ∈ takenSteps (deleteNext (some .all) fun _ => true) missedTwice [2, 3],
      Deletable x.before .all x.event := by decide +kernel
  refine ⟨_, t, hrun, by decide +kernel, (run_tellsTruth_iff hrun).mpr fun x hx list hlist => ?_⟩
  obtain rfl := Option.some.inj hlist
  exact hall x hx

/-- A request for the id 4, which no record has, succeeds and leaves all records there are. -/
theorem absent_id_reported_deleted :
    ¬ ∀ s t listType ok ts, Run (· = s) (Steps (deleteNext listType ok)) ts t →
      TellsTruth s t listType ok ts := by
  intro h
  have hstep : Steps (deleteNext (some .missed) fun _ => true) missedTwice 4 missedTwice := rfl
  have hstart : Run (· = missedTwice) (Steps (deleteNext (some .missed) fun _ => true)) []
    missedTwice := .start rfl
  have htruth := (h _ _ _ _ _ (hstart.snoc hstep)).calls _ (List.mem_singleton_self _)
  exact not_removed_self (htruth.mp rfl)

end VoiceDeleteRequests
