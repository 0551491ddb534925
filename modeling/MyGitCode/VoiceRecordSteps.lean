import Mathlib.Data.List.Nodup
import MyGitCode.TransitionRuns
import MyGitCode.VoiceCallRecords

/-! # What one operation does to the call-record store

Each operation ends in one of a few shapes, with the allocations and searches that lead
there. The invariants are proved on these shapes and never unfold an operation. -/
namespace VoiceRecordSteps

open TransitionRuns CText VoiceModem VoiceDatastore WordBitmap VoiceCallRecords

variable {s t : Store} {type : CallType} {ctx : CallContext} {m : Malloc} {ok : Stmt → Bool}
  {row : Row} {list : ListType} {id : ℤ} {rc : Rc} {node : ℕ} {r : Record} {l : List ℕ}

@[simp] theorem heap_setTypeList : (setTypeList s type l).heap = s.heap := by
  cases type <;> rfl

@[simp] theorem total_setTypeList : (setTypeList s type l).total = s.total := by
  cases type <;> rfl

@[simp] theorem idMask_setTypeList : (setTypeList s type l).idMask = s.idMask := by
  cases type <;> rfl

@[simp] theorem table_setTypeList : (setTypeList s type l).table = s.table := by
  cases type <;> rfl

theorem typeList_setTypeList (h : type ≠ .unknown) (ty : CallType) :
    typeList (setTypeList s type l) ty = if ty = type then l else typeList s ty := by
  cases type <;> cases ty <;> first | rfl | exact absurd rfl h

theorem typeList_congr (hm : t.missed = s.missed) (hi : t.incoming = s.incoming)
    (ho : t.outgoing = s.outgoing) (ty : CallType) : typeList t ty = typeList s ty := by
  cases ty <;> simp [typeList, *]

theorem recordLimit_eq (n : ℕ) (l : List ℕ) : recordLimit n l = l.drop (l.length - n) := by
  induction l with
  | nil => simp [recordLimit]
  | cons a l ih =>
    unfold recordLimit
    split
    · next h =>
      have hn : (a :: l).length - n = l.length - n + 1 := by
        simp only [List.length_cons] at h ⊢
        omega
      rw [hn, List.drop_succ_cons]
      exact ih
    · next h => rw [Nat.sub_eq_zero_of_le (Nat.not_lt.mp h), List.drop_zero]

theorem recordLimit_of_le {n : ℕ} (h : l.length ≤ n) : recordLimit n l = l := by
  rw [recordLimit_eq, Nat.sub_eq_zero_of_le h, List.drop_zero]

def markId (s : Store) : Store := { s with idMask := WordBitmap.set s.idMask (nextId s.idMask) }

def pushTotal (s : Store) (node : ℕ) (r : Record) : Store :=
  { s with heap := Function.update s.heap node (some r), total := s.total ++ [node] }

def pushBoth (s : Store) (node : ℕ) (r : Record) : Store :=
  setTypeList (pushTotal s node r) r.callType (typeList s r.callType ++ [node])

def stored (s : Store) (r : Record) (ok : Stmt → Bool) : Store :=
  { s with
    total := recordLimit recordMaxNum s.total
    table := (VoiceDatastore.insert ok r recordMaxNum s.table).2 }

def removed (s : Store) (type : CallType) (node : ℕ) (r : Record) (ok : Stmt → Bool) : Store :=
  { setTypeList s type ((typeList s type).erase node) with
    heap := Function.update s.heap node none
    total := s.total.erase node
    table := (VoiceDatastore.delete ok r.id s.table).2
    idMask := WordBitmap.clear s.idMask r.id }

@[simp] theorem markId_heap : (markId s).heap = s.heap := rfl
@[simp] theorem markId_total : (markId s).total = s.total := rfl
@[simp] theorem markId_table : (markId s).table = s.table := rfl
@[simp] theorem markId_typeList (ty : CallType) : typeList (markId s) ty = typeList s ty :=
  typeList_congr rfl rfl rfl ty

@[simp] theorem pushTotal_heap :
    (pushTotal s node r).heap = Function.update s.heap node (some r) := rfl
@[simp] theorem pushTotal_total : (pushTotal s node r).total = s.total ++ [node] := rfl
@[simp] theorem pushTotal_idMask : (pushTotal s node r).idMask = s.idMask := rfl
@[simp] theorem pushTotal_table : (pushTotal s node r).table = s.table := rfl
@[simp] theorem pushTotal_typeList (ty : CallType) :
    typeList (pushTotal s node r) ty = typeList s ty := typeList_congr rfl rfl rfl ty

@[simp] theorem pushBoth_heap :
    (pushBoth s node r).heap = Function.update s.heap node (some r) := by simp [pushBoth]
@[simp] theorem pushBoth_total : (pushBoth s node r).total = s.total ++ [node] := by
  simp [pushBoth]
@[simp] theorem pushBoth_idMask : (pushBoth s node r).idMask = s.idMask := by simp [pushBoth]
@[simp] theorem pushBoth_table : (pushBoth s node r).table = s.table := by simp [pushBoth]
theorem pushBoth_typeList (h : r.callType ≠ .unknown) (ty : CallType) :
    typeList (pushBoth s node r) ty =
      if ty = r.callType then typeList s ty ++ [node] else typeList s ty := by
  rw [pushBoth, typeList_setTypeList h]
  split <;> simp_all

@[simp] theorem stored_heap : (stored s r ok).heap = s.heap := rfl
@[simp] theorem stored_total : (stored s r ok).total = recordLimit recordMaxNum s.total := rfl
@[simp] theorem stored_idMask : (stored s r ok).idMask = s.idMask := rfl
@[simp] theorem stored_table :
    (stored s r ok).table = (VoiceDatastore.insert ok r recordMaxNum s.table).2 := rfl
@[simp] theorem stored_typeList (ty : CallType) :
    typeList (stored s r ok) ty = typeList s ty := typeList_congr rfl rfl rfl ty

@[simp] theorem removed_heap :
    (removed s type node r ok).heap = Function.update s.heap node none := rfl
@[simp] theorem removed_total : (removed s type node r ok).total = s.total.erase node := rfl
@[simp] theorem removed_idMask :
    (removed s type node r ok).idMask = WordBitmap.clear s.idMask r.id := rfl
@[simp] theorem removed_table :
    (removed s type node r ok).table = (VoiceDatastore.delete ok r.id s.table).2 := rfl
theorem removed_typeList (h : type ≠ .unknown) (ty : CallType) :
    typeList (removed s type node r ok) ty =
      if ty = type then (typeList s ty).erase node else typeList s ty := by
  have hty : typeList (removed s type node r ok) ty =
      typeList (setTypeList s type ((typeList s type).erase node)) ty :=
    typeList_congr rfl rfl rfl ty
  rw [hty, typeList_setTypeList h]
  split <;> simp_all

inductive Added (s : Store) (type : CallType) (m : Malloc) (ok : Stmt → Bool) :
    Rc → Store → Prop where
  | noRecord : m.record = false → Added s type m ok .fail s
  | unknownType : m.record = true → type = .unknown → Added s type m ok .noErr (markId s)
  | noNode : m.record = true → type ≠ .unknown → m.node = none →
      Added s type m ok .fail (markId s)
  | unlisted {node : ℕ} {r : Record} : m.record = true → type ≠ .unknown → m.node = some node →
      m.typeNode = false → s.heap node = none → r.callType = type → r.id = nextId s.idMask →
      Added s type m ok .fail (pushTotal (markId s) node r)
  | listed {node : ℕ} {r : Record} : m.record = true → type ≠ .unknown → m.node = some node →
      m.typeNode = true → s.heap node = none → r.callType = type → r.id = nextId s.idMask →
      Added s type m ok .noErr (stored (pushBoth (markId s) node r) r ok)

inductive Loaded (s : Store) (row : Row) (m : Malloc) : Store → Prop where
  | ignored : (∀ r, m.record = true → readColumns row zeroRecord = some (.noErr, r) →
      r.callType ≠ .unknown → m.node = none) → Loaded s row m s
  | unlisted {node : ℕ} {r : Record} : m.record = true →
      readColumns row zeroRecord = some (.noErr, r) →
      r.callType ≠ .unknown → m.node = some node → m.typeNode = false → s.heap node = none →
      Loaded s row m (pushTotal s node r)
  | listed {node : ℕ} {r : Record} : m.record = true →
      readColumns row zeroRecord = some (.noErr, r) →
      r.callType ≠ .unknown → m.node = some node → m.typeNode = true → s.heap node = none →
      r.id < 128 →
      Loaded s row m { pushBoth s node r with
        idMask := if isSet s.idMask r.id then s.idMask else WordBitmap.set s.idMask r.id }

/-- The list that `jan_voice_core_get_record_list` gives for a list type. -/
def listNodes (s : Store) : ListType → List ℕ
  | .all => s.total
  | .incoming => s.incoming
  | .outgoing => s.outgoing
  | .missed => s.missed

/-- A delete that changes nothing: no node of the list has the id, or one of the total
list is in no list of its type. -/
inductive Deleted (s : Store) (list : ListType) (id : ℤ) (ok : Stmt → Bool) : Store → Prop where
  | notFound : (∀ node ∈ listNodes s list, compareId s id node = false) →
      Deleted s list id ok s
  | unlisted {node : ℕ} {r : Record} : node ∈ s.total → s.heap node = some r →
      node ∉ typeList s r.callType → Deleted s list id ok s
  | found {type : CallType} {node : ℕ} {r : Record} : type ≠ .unknown →
      node ∈ typeList s type → node ∈ s.total → node ∈ listNodes s list →
      s.heap node = some r → compareId s id node = true → (r.id : ℤ) = id → r.id < 128 →
      Deleted s list id ok (removed s type node r ok)

theorem fillRecord_fields {i : ℕ} (h : fillRecord type ctx i = some (some r)) :
    r.id = i ∧ r.callType = type ∧ type ≠ .unknown := by
  cases type <;> simp only [fillRecord, Option.map_eq_some_iff, Option.some.injEq] at h
  case unknown => exact absurd h (by simp)
  all_goals
    obtain ⟨_, _, rfl⟩ := h
    exact ⟨rfl, rfl, by simp⟩

theorem fillRecord_unknown {i : ℕ} (h : fillRecord type ctx i = some none) : type = .unknown := by
  cases type <;> simp [fillRecord] at h ⊢

private theorem pushBoth_eq : pushBoth s node r = setTypeList (pushTotal s node r) r.callType
    (orderedListPush (typeList (pushTotal s node r) r.callType) node) := by
  rw [pushTotal_typeList]
  rfl

theorem pushRecord_cases (h : pushRecord s r m = some (rc, t)) :
    (m.node = none ∧ rc = .fail ∧ t = s) ∨
    ∃ node, m.node = some node ∧ s.heap node = none ∧
      ((m.typeNode = false ∧ rc = .fail ∧ t = pushTotal s node r) ∨
        (m.typeNode = true ∧ rc = .noErr ∧ t = pushBoth s node r)) := by
  unfold pushRecord at h
  split at h
  · next hn =>
    simp only [Option.some.injEq, Prod.mk.injEq] at h
    exact .inl ⟨hn, h.1.symm, h.2.symm⟩
  · next node hn =>
    simp only [Option.map_eq_some_iff, pushNode] at h
    obtain ⟨u, hu, h⟩ := h
    split at hu
    · next hfree =>
      refine .inr ⟨node, hn, hfree, ?_⟩
      obtain rfl := Option.some.inj hu
      split at h
      · next htype =>
        simp only [Prod.mk.injEq] at h
        exact .inr ⟨htype, h.1.symm, h.2.symm.trans pushBoth_eq.symm⟩
      · next htype =>
        simp only [Prod.mk.injEq] at h
        exact .inl ⟨by simpa using htype, h.1.symm, h.2.symm⟩
    · cases hu

theorem addRecordToList_added (h : addRecordToList s type ctx m ok = some (rc, t)) :
    Added s type m ok rc t := by
  unfold addRecordToList at h
  split at h
  · next hm =>
    simp only at h
    split at h
    · cases h
    · next hf =>
      simp only [Option.some.injEq, Prod.mk.injEq] at h
      obtain ⟨rfl, rfl⟩ := h
      exact .unknownType hm (fillRecord_unknown hf)
    · next r hf =>
      obtain ⟨hid, htype, hknown⟩ := fillRecord_fields hf
      split at h
      · cases h
      · next u hp =>
        simp only [Option.some.injEq, Prod.mk.injEq] at h
        obtain ⟨rfl, rfl⟩ := h
        rcases pushRecord_cases hp with ⟨hn, -, rfl⟩ | ⟨node, hn, hfree, ⟨ht, -, rfl⟩ | ⟨-, hrc, -⟩⟩
        · exact .noNode hm hknown hn
        · exact .unlisted hm hknown hn ht hfree htype hid
        · cases hrc
      · next u hp =>
        simp only [Option.some.injEq, Prod.mk.injEq] at h
        obtain ⟨rfl, rfl⟩ := h
        rcases pushRecord_cases hp with ⟨-, hrc, -⟩ | ⟨node, hn, hfree, ⟨-, hrc, -⟩ | ⟨ht, -, rfl⟩⟩
        · cases hrc
        · cases hrc
        · exact .listed hm hknown hn ht hfree htype hid
  · next hm =>
    simp only [Option.some.injEq, Prod.mk.injEq] at h
    obtain ⟨rfl, rfl⟩ := h
    exact .noRecord (by simpa using hm)

theorem initRecordFormDatastore_loaded
    (h : initRecordFormDatastore s row m = some (rc, t)) : Loaded s row m t := by
  unfold initRecordFormDatastore at h
  split at h
  · next hm =>
    split at h
    · cases h
    · next r hr =>
      simp only [Option.some.injEq, Prod.mk.injEq] at h
      obtain ⟨rfl, rfl⟩ := h
      exact .ignored fun r' _ hr' => by simp [hr] at hr'
    · next r hr =>
      split at h
      · next htype =>
        simp only [Option.some.injEq, Prod.mk.injEq] at h
        obtain ⟨rfl, rfl⟩ := h
        refine .ignored fun r' _ hr' hknown => ?_
        obtain rfl : r = r' := by simpa [hr] using hr'
        exact absurd htype hknown
      · next hknown =>
        split at h
        · cases h
        · next u hp =>
          simp only [Option.some.injEq, Prod.mk.injEq] at h
          obtain ⟨rfl, rfl⟩ := h
          rcases pushRecord_cases hp with
            ⟨hn, -, rfl⟩ | ⟨node, hn, hfree, ⟨ht, -, rfl⟩ | ⟨-, hrc, -⟩⟩
          · exact .ignored fun _ _ _ _ => hn
          · exact .unlisted hm hr hknown hn ht hfree
          · cases hrc
        · next u hp =>
          rcases pushRecord_cases hp with
            ⟨-, hrc, -⟩ | ⟨node, hn, hfree, ⟨-, hrc, -⟩ | ⟨ht, -, rfl⟩⟩
          · cases hrc
          · cases hrc
          · simp only at h
            split at h
            · next hid =>
              simp only [Option.some.injEq, Prod.mk.injEq] at h
              obtain ⟨rfl, rfl⟩ := h
              have := Loaded.listed (s := s) hm hr hknown hn ht hfree hid
              simpa [pushBoth, pushTotal] using this
            · cases h
  · next hm =>
    simp only [Option.some.injEq, Prod.mk.injEq] at h
    obtain ⟨rfl, rfl⟩ := h
    exact .ignored fun r hm' => absurd hm' hm

theorem popNode_setTypeList : popNode (setTypeList s type l) node =
    (popNode s node).map fun u => setTypeList u type l := by
  simp only [popNode, total_setTypeList, Option.map_map]
  cases type <;> rfl

theorem typeList_popNode (h : popNode s node = some t) (ty : CallType) :
    typeList t ty = typeList s ty := by
  simp only [popNode, Option.map_eq_some_iff] at h
  obtain ⟨_, _, rfl⟩ := h
  exact typeList_congr rfl rfl rfl ty

theorem compareId_record (h : compareId s id node = true) : ∃ r, s.heap node = some r := by
  unfold compareId at h
  split at h
  · next r hr => exact ⟨r, hr⟩
  · cases h

private theorem none_matches (h : orderedListLinearSearch l (compareId s id) = none) :
    ∀ n ∈ l, compareId s id n = false := by
  simpa [orderedListLinearSearch] using h

theorem removed_of_steps {u : Store} (hcmp : compareId s id node = true)
    (hr : s.heap node = some r) (hpop : popNode s node = some u)
    (hv : forgetId (setTypeList u type ((typeList s type).erase node)) id ok = some t) :
    node ∈ s.total ∧ (r.id : ℤ) = id ∧ r.id < 128 ∧ t = removed s type node r ok := by
  have hid : (r.id : ℤ) = id % 2 ^ 32 := by simpa [compareId, hr] using hcmp
  simp only [popNode, orderedListPopItem, Option.map_eq_some_iff] at hpop
  obtain ⟨_, hp, rfl⟩ := hpop
  split at hp
  · next hin =>
    obtain rfl := Option.some.inj hp
    unfold forgetId at hv
    split at hv
    · next hrange =>
      have hid' : (r.id : ℤ) = id := by omega
      refine ⟨hin, hid', by omega, ?_⟩
      obtain rfl := Option.some.inj hv
      obtain rfl := hid'
      cases type <;> rfl
    · cases hv
  · cases hp

theorem deleteFromTotal_cases (h : deleteFromTotal s id ok = some (rc, t)) :
    (orderedListLinearSearch s.total (compareId s id) = none ∧ rc = .fail ∧ t = s) ∨
    ∃ node r, orderedListLinearSearch s.total (compareId s id) = some node ∧
      s.heap node = some r ∧
      ((node ∉ typeList s r.callType ∧ rc = .fail ∧ t = s) ∨
        (node ∈ typeList s r.callType ∧ rc = .noErr ∧ ∃ u, popNode s node = some u ∧
          forgetId (setTypeList u r.callType ((typeList s r.callType).erase node)) id ok =
            some t)) := by
  unfold deleteFromTotal at h
  split at h
  · next hnone =>
    obtain ⟨rfl, rfl⟩ : rc = .fail ∧ t = s := by simpa [eq_comm] using h
    exact .inl ⟨hnone, rfl, rfl⟩
  · next node hfind =>
    obtain ⟨r, hr⟩ := compareId_record (List.find?_some hfind)
    refine .inr ⟨node, r, hfind, hr, ?_⟩
    simp only [hr] at h
    split at h
    · next hu =>
      obtain ⟨rfl, rfl⟩ : rc = .fail ∧ t = s := by simpa [eq_comm] using h
      exact .inl ⟨by simp [hu, typeList], rfl, rfl⟩
    · split at h
      · next hnone =>
        obtain ⟨rfl, rfl⟩ : rc = .fail ∧ t = s := by simpa [eq_comm] using h
        exact .inl ⟨fun hmem => by simpa using List.find?_eq_none.mp hnone node hmem, rfl, rfl⟩
      · next tmp htmp =>
        have hmem : node ∈ typeList s r.callType := by
          obtain rfl : tmp = node := by simpa using List.find?_some htmp
          exact List.mem_of_find?_eq_some htmp
        simp only [Option.map_eq_some_iff, Option.bind_eq_some_iff, Prod.mk.injEq] at h
        obtain ⟨v, ⟨u, hpop, hv⟩, rfl, rfl⟩ := h
        rw [popNode_setTypeList, Option.map_eq_some_iff] at hpop
        obtain ⟨w, hpop, rfl⟩ := hpop
        exact .inr ⟨hmem, rfl, w, hpop, hv⟩

theorem deleteFromType_cases (h : deleteFromType s type id ok = some (rc, t)) :
    (orderedListLinearSearch (typeList s type) (compareId s id) = none ∧ rc = .fail ∧ t = s) ∨
    ∃ node r, orderedListLinearSearch (typeList s type) (compareId s id) = some node ∧
      s.heap node = some r ∧ rc = .noErr ∧ ∃ u, popNode s node = some u ∧
        forgetId (setTypeList u type ((typeList s type).erase node)) id ok = some t := by
  unfold deleteFromType at h
  split at h
  · next hnone =>
    obtain ⟨rfl, rfl⟩ : rc = .fail ∧ t = s := by simpa [eq_comm] using h
    exact .inl ⟨hnone, rfl, rfl⟩
  · next node hfind =>
    obtain ⟨r, hr⟩ := compareId_record (List.find?_some hfind)
    simp only [Option.map_eq_some_iff, Option.bind_eq_some_iff, Prod.mk.injEq] at h
    obtain ⟨v, ⟨u, hpop, hv⟩, rfl, rfl⟩ := h
    rw [typeList_popNode hpop] at hv
    exact .inr ⟨node, r, hfind, hr, rfl, u, hpop, hv⟩

theorem deleteFromTotal_deleted (h : deleteFromTotal s id ok = some (rc, t)) :
    Deleted s .all id ok t := by
  rcases deleteFromTotal_cases h with
    ⟨hnone, -, rfl⟩ | ⟨node, r, hfind, hr, ⟨hout, -, rfl⟩ | ⟨hmem, -, u, hpop, hv⟩⟩
  · exact .notFound (none_matches hnone)
  · exact .unlisted (List.mem_of_find?_eq_some hfind) hr hout
  · have hcmp := List.find?_some hfind
    obtain ⟨hin, hid, hlt, rfl⟩ := removed_of_steps hcmp hr hpop hv
    have hknown : r.callType ≠ .unknown := fun hu => by simp [hu, typeList] at hmem
    exact .found hknown hmem hin hin hr hcmp hid hlt

theorem deleteFromType_deleted (hknown : type ≠ .unknown)
    (hlist : listNodes s list = typeList s type)
    (h : deleteFromType s type id ok = some (rc, t)) : Deleted s list id ok t := by
  rcases deleteFromType_cases h with ⟨hnone, -, rfl⟩ | ⟨node, r, hfind, hr, -, u, hpop, hv⟩
  · exact .notFound (hlist ▸ none_matches hnone)
  · have hcmp := List.find?_some hfind
    have hmem := List.mem_of_find?_eq_some hfind
    obtain ⟨hin, hid, hlt, rfl⟩ := removed_of_steps hcmp hr hpop hv
    exact .found hknown hmem hin (hlist ▸ hmem) hr hcmp hid hlt

theorem deleteRecordFromList_deleted
    (h : deleteRecordFromList s list id ok = some (rc, t)) : Deleted s list id ok t := by
  cases list with
  | all => exact deleteFromTotal_deleted h
  | incoming => exact deleteFromType_deleted (by decide) rfl h
  | outgoing => exact deleteFromType_deleted (by decide) rfl h
  | missed => exact deleteFromType_deleted (by decide) rfl h

def records (s : Store) : List Record := s.total.filterMap s.heap

theorem length_records (h : ∀ n ∈ s.total, ∃ r, s.heap n = some r) :
    (records s).length = s.total.length := by
  rw [records, List.length_filterMap_eq_countP, List.countP_eq_length]
  intro n hn
  obtain ⟨r, hr⟩ := h n hn
  simp [hr]

private theorem filterMap_update {o : Option Record} (h : node ∉ l) :
    l.filterMap (Function.update s.heap node o) = l.filterMap s.heap := by
  refine List.filterMap_congr fun n hn => ?_
  rw [Function.update_of_ne]
  rintro rfl
  exact h hn

theorem records_push (h : node ∉ l) (hheap : t.heap = Function.update s.heap node (some r))
    (htotal : t.total = l ++ [node]) : records t = l.filterMap s.heap ++ [r] := by
  rw [records, htotal, hheap, List.filterMap_append, filterMap_update h]
  simp

theorem records_remove (hnodup : s.total.Nodup) (hmem : node ∈ s.total)
    (hr : s.heap node = some r) (hheap : t.heap = Function.update s.heap node none)
    (htotal : t.total = s.total.erase node) :
    ∃ l₁ l₂, records s = l₁ ++ r :: l₂ ∧ records t = l₁ ++ l₂ := by
  obtain ⟨l₁, l₂, hl⟩ := List.append_of_mem hmem
  rw [hl] at hnodup
  have hn₁ : node ∉ l₁ := fun h =>
    (List.nodup_append.mp hnodup).2.2 node h node List.mem_cons_self rfl
  have hn₂ : node ∉ l₂ := (List.nodup_cons.mp (List.nodup_append.mp hnodup).2.1).1
  refine ⟨l₁.filterMap s.heap, l₂.filterMap s.heap, ?_, ?_⟩
  · simp [records, hl, hr]
  · rw [records, hheap, htotal, hl, List.erase_append_right _ hn₁,
      List.erase_cons_head, List.filterMap_append, filterMap_update hn₁, filterMap_update hn₂]

theorem steps_add (h : Steps next s (.add type ctx m ok) t) : ∃ rc, Added s type m ok rc t := by
  obtain ⟨⟨rc, u⟩, hadd, rfl⟩ := Option.map_eq_some_iff.mp h
  exact ⟨rc, addRecordToList_added hadd⟩

theorem steps_load (h : Steps next s (.load row m) t) : Loaded s row m t := by
  obtain ⟨⟨rc, u⟩, hload, rfl⟩ := Option.map_eq_some_iff.mp h
  exact initRecordFormDatastore_loaded hload

theorem steps_delete (h : Steps next s (.delete list id ok) t) : Deleted s list id ok t := by
  obtain ⟨⟨rc, u⟩, hdel, rfl⟩ := Option.map_eq_some_iff.mp h
  exact deleteRecordFromList_deleted hdel

def Serves (s : Store) (op : Op) (t : Store) : Prop :=
  (∀ row m, op ≠ .load row m) ∧ Steps next s op t

def missedCall (node : ℕ) : Op :=
  .add .missed ⟨0, 0, initialCalls, 0, false, [], 0⟩ ⟨true, some node, true⟩ fun _ => true

end VoiceRecordSteps
