import MyGitCode.VoiceRecordIds
import MyGitCode.VoiceRecordLists

/-! # Deleting one record

A record is deleted through the total list or through the list of its type. While the lists
agree and the ids are in step with their bits, the two ways leave the same store. -/
namespace VoiceRecordDelete

open VoiceDatastore WordBitmap VoiceCallRecords VoiceRecordSteps VoiceRecordLists VoiceRecordIds

variable {s t : Store} {list : ListType} {type : CallType} {id : ℤ} {ok : Stmt → Bool}
  {node n : ℕ} {r x : Record}

def listOf : CallType → ListType
  | .missed => .missed
  | .incoming => .incoming
  | .outgoing => .outgoing
  | .unknown => .all

def listRecords (s : Store) (list : ListType) : List Record :=
  (listNodes s list).filterMap s.heap

structure Gone (s t : Store) (node : ℕ) (id : ℤ) : Prop where
  freed : t.heap = Function.update s.heap node none
  nodes : ∀ list, listNodes t list = (listNodes s list).erase node
  records : ∀ list, listRecords t list = (listRecords s list).filter fun r => (r.id : ℤ) ≠ id
  rows : t.table = s.table.filter fun row => rowId row ≠ some id
  bits : ∀ i : ℕ, isSet t.idMask i = true ↔ isSet s.idMask i = true ∧ (i : ℤ) ≠ id

theorem listNodes_listOf (h : type ≠ .unknown) : listNodes s (listOf type) = typeList s type := by
  cases type <;> first | rfl | exact absurd rfl h

theorem listNodes_cases (s : Store) (list : ListType) :
    list = .all ∨ ∃ type, type ≠ .unknown ∧ list = listOf type ∧
      listNodes s list = typeList s type := by
  cases list
  · exact .inl rfl
  · exact .inr ⟨.incoming, by decide, rfl, rfl⟩
  · exact .inr ⟨.outgoing, by decide, rfl, rfl⟩
  · exact .inr ⟨.missed, by decide, rfl, rfl⟩

theorem listNodes_subset (h : ListsAgree s) (list : ListType) :
    listNodes s list ⊆ s.total := by
  intro node hmem
  rcases listNodes_cases s list with rfl | ⟨type, -, -, hnodes⟩
  · exact hmem
  · exact (h.refers type node (hnodes ▸ hmem)).1

theorem listNodes_nodup (h : ListsAgree s) (list : ListType) :
    (listNodes s list).Nodup := by
  rcases listNodes_cases s list with rfl | ⟨type, -, -, hnodes⟩
  · exact h.nodup
  · exact hnodes ▸ h.typeList_nodup type

theorem compareId_eq (hr : s.heap node = some r) :
    compareId s id node = decide ((r.id : ℤ) = id % 2 ^ 32) := by
  rw [compareId, hr]

theorem compareId_self (h : r.id < 128) (hr : s.heap node = some r) :
    compareId s r.id node = true := by
  rw [compareId_eq hr, decide_eq_true_iff]
  omega

theorem search_node (h : IdsInStep s) {l : List ℕ} (hl : l ⊆ s.total) (hmem : node ∈ l)
    (hr : s.heap node = some r) : orderedListLinearSearch l (compareId s r.id) = some node := by
  have hlt := h.lt (hl hmem) hr
  cases hfind : orderedListLinearSearch l (compareId s r.id) with
  | none => exact absurd (compareId_self hlt hr) (List.find?_eq_none.mp hfind node hmem)
  | some n =>
    have hn := hl (List.mem_of_find?_eq_some hfind)
    obtain ⟨x, hx⟩ := compareId_record (List.find?_some hfind)
    have hid := List.find?_some hfind
    rw [compareId_eq hx, decide_eq_true_iff] at hid
    rw [h.node_eq hn (hl hmem) hx hr (by omega)]

theorem popNode_eq (hmem : node ∈ s.total) : popNode s node =
    some { s with heap := Function.update s.heap node none, total := s.total.erase node } := by
  rw [popNode, orderedListPopItem, if_pos hmem, Option.map_some]

theorem forgetId_eq (h : r.id < 128) : forgetId s r.id ok =
    some { s with
      table := (VoiceDatastore.delete ok r.id s.table).2
      idMask := WordBitmap.clear s.idMask r.id } :=
  if_pos ⟨Int.natCast_nonneg r.id, by omega⟩

theorem search_self {l : List ℕ} (hmem : node ∈ l) :
    orderedListLinearSearch l (· = node) = some node := by
  cases hfind : orderedListLinearSearch l (· = node) with
  | none => exact absurd (decide_eq_true rfl) (List.find?_eq_none.mp hfind node hmem)
  | some n =>
    have := List.find?_some hfind
    rw [of_decide_eq_true this]

theorem deleteFromTotal_removed (hagree : ListsAgree s) (hids : IdsInStep s)
    (hmem : node ∈ s.total) (hr : s.heap node = some r) :
    deleteFromTotal s r.id ok = some (.noErr, removed s r.callType node r ok) := by
  obtain ⟨hknown, hlisted⟩ := hagree.known hmem hr
  have htmp := search_self hlisted
  rw [deleteFromTotal, search_node hids (List.Subset.refl _) hmem hr]
  simp only [hr]
  cases htype : r.callType <;> rw [htype] at htmp
  case unknown => exact absurd htype hknown
  all_goals
    simp only [htmp, popNode_setTypeList, popNode_eq hmem, Option.map_some, Option.bind_some,
      forgetId_eq (hids.lt hmem hr)]
    rfl

theorem deleteFromType_removed (hagree : ListsAgree s) (hids : IdsInStep s)
    (hmem : node ∈ s.total) (hr : s.heap node = some r) :
    deleteFromType s r.callType r.id ok = some (.noErr, removed s r.callType node r ok) := by
  obtain ⟨hknown, hlisted⟩ := hagree.known hmem hr
  have hsub : typeList s r.callType ⊆ s.total := fun n hn => (hagree.refers r.callType n hn).1
  rw [deleteFromType, search_node hids hsub hlisted hr]
  simp only [popNode_eq hmem, Option.bind_some, forgetId_eq (hids.lt hmem hr), Option.map_some]
  cases htype : r.callType
  case unknown => exact absurd htype hknown
  all_goals rfl

theorem deleteRecordFromList_listOf (h : type ≠ .unknown) :
    deleteRecordFromList s (listOf type) id ok = deleteFromType s type id ok := by
  cases type <;> first | rfl | exact absurd rfl h

theorem listNodes_removed (hagree : ListsAgree s) (hmem : node ∈ s.total)
    (hr : s.heap node = some r) (list : ListType) :
    listNodes (removed s r.callType node r ok) list = (listNodes s list).erase node := by
  obtain ⟨hknown, -⟩ := hagree.known hmem hr
  rcases listNodes_cases s list with rfl | ⟨type, htype, rfl, hnodes⟩
  · rfl
  · rw [hnodes, listNodes_listOf htype, removed_typeList hknown]
    split
    · rfl
    · next hne =>
      have hnot : node ∉ typeList s type := by
        intro hin
        exact hne (hagree.type_of_mem hin hr).symm
      exact (List.erase_of_not_mem hnot).symm

theorem filterMap_erase (hids : IdsInStep s) {l : List ℕ} (hl : l.Nodup) (hsub : l ⊆ s.total)
    (hmem : node ∈ s.total) (hr : s.heap node = some r) :
    (l.erase node).filterMap (Function.update s.heap node none) =
      (l.filterMap s.heap).filter fun x => (x.id : ℤ) ≠ r.id := by
  rw [hl.erase_eq_filter, List.filterMap_filter, List.filter_filterMap]
  refine List.filterMap_congr fun n hn => ?_
  by_cases hne : n = node
  · simp [hne, hr, Option.filter]
  · cases hx : s.heap n with
    | none => simp [hne, hx]
    | some x =>
      have hid : x.id ≠ r.id := by
        intro heq
        exact hne (hids.node_eq (hsub hn) hmem hx hr heq)
      simp [hne, hx, hid, Option.filter]

theorem gone_removed (hagree : ListsAgree s) (hids : IdsInStep s) (hmem : node ∈ s.total)
    (hr : s.heap node = some r) (hok : ok (.delete r.id) = true) :
    Gone s (removed s r.callType node r ok) node r.id where
  freed := rfl
  nodes := listNodes_removed hagree hmem hr
  records list := by
    rw [listRecords, listNodes_removed hagree hmem hr, removed_heap]
    exact filterMap_erase hids (listNodes_nodup hagree list) (listNodes_subset hagree list) hmem hr
  rows := by rw [removed_table, VoiceDatastore.delete, execCmd, if_pos hok, run]
  bits i := by
    have hword : r.id / 32 < 4 := by
      have := hids.lt hmem hr
      omega
    rw [removed_idMask, isSet_clear hword, Bool.and_eq_true, decide_eq_true_iff, and_comm, ne_eq,
      ne_eq, Int.natCast_inj]

theorem compareId_false (hids : IdsInStep s) (hint : -2 ^ 31 ≤ id ∧ id < 2 ^ 31)
    (hmem : node ∈ s.total) (hne : ∀ r, s.heap node = some r → (r.id : ℤ) ≠ id) :
    compareId s id node = false := by
  cases hr : s.heap node with
  | none => rw [compareId, hr]
  | some r =>
    have hlt := hids.lt hmem hr
    have := hne r hr
    rw [compareId_eq hr, decide_eq_false_iff_not]
    omega

theorem search_none (hagree : ListsAgree s) (hids : IdsInStep s)
    (hint : -2 ^ 31 ≤ id ∧ id < 2 ^ 31) (hnone : ∀ r ∈ listRecords s list, (r.id : ℤ) ≠ id) :
    orderedListLinearSearch (listNodes s list) (compareId s id) = none := by
  rw [orderedListLinearSearch, List.find?_eq_none]
  intro node hnode
  rw [compareId_false hids hint (listNodes_subset hagree list hnode)]
  · exact Bool.false_ne_true
  · intro r hr
    exact hnone r (List.mem_filterMap.mpr ⟨node, hnode, hr⟩)

theorem deleteRecordFromList_none
    (h : orderedListLinearSearch (listNodes s list) (compareId s id) = none) :
    deleteRecordFromList s list id ok = some (.fail, s) := by
  cases list
  case all =>
    rw [deleteRecordFromList, deleteFromTotal]
    change orderedListLinearSearch s.total (compareId s id) = none at h
    rw [h]
  all_goals
    rw [deleteRecordFromList, deleteFromType]
    simp only [listNodes, typeList] at h ⊢
    rw [h]

/-- Both ways to a record end in one store, without that record and with all the others. An
id that the given list does not have changes nothing. -/
theorem delete_exactly_one (hagree : ListsAgree s) (hids : IdsInStep s)
    (hint : -2 ^ 31 ≤ id ∧ id < 2 ^ 31) (hok : ok (.delete id) = true) :
    (∀ node ∈ s.total, ∀ r, s.heap node = some r → (r.id : ℤ) = id →
      ∃ t, deleteRecordFromList s .all id ok = some (.noErr, t) ∧
        deleteRecordFromList s (listOf r.callType) id ok = some (.noErr, t) ∧
        Gone s t node id) ∧
    ∀ list, (∀ r ∈ listRecords s list, (r.id : ℤ) ≠ id) →
      deleteRecordFromList s list id ok = some (.fail, s) := by
  constructor
  · rintro node hmem r hr rfl
    refine ⟨removed s r.callType node r ok, deleteFromTotal_removed hagree hids hmem hr, ?_,
      gone_removed hagree hids hmem hr hok⟩
    rw [deleteRecordFromList_listOf (hagree.known hmem hr).1]
    exact deleteFromType_removed hagree hids hmem hr
  · intro list hnone
    exact deleteRecordFromList_none (search_none hagree hids hint hnone)

def newRecord (s : Store) (type : CallType) : Record :=
  { zeroRecord with id := nextId s.idMask, callType := type }

def withRecord (s : Store) (node : ℕ) (type : CallType) : Store :=
  { pushBoth (markId s) node (newRecord s type) with
    table := s.table ++ [rowOf (newRecord s type)] }

theorem withRecord_kept (hlists : Filtered s) (hids : Numbered s)
    (hroom : s.total.length < recordMaxNum) (hfree : s.heap node = none) (htype : type ≠ .unknown) :
    Filtered (withRecord s node type) ∧ Numbered (withRecord s node type) := by
  have hmark : Filtered (markId s) := hlists.congr rfl rfl fun ty => typeList_congr rfl rfl rfl ty
  have hid : (newRecord s type).id = nextId s.idMask := rfl
  exact ⟨(hmark.after_push hfree htype).congr rfl rfl fun ty => typeList_congr rfl rfl rfl ty,
    hids.after_push hroom hfree hid (by simp [withRecord]) (by simp [withRecord])
      (by simp [withRecord])⟩

def missedTwice : Store :=
  withRecord (withRecord (withRecord emptyStore 0 .missed) 1 .incoming) 2 .missed

theorem missedTwice_kept : ListsAgree missedTwice ∧ IdsInStep missedTwice := by
  have hfirst : Filtered _ ∧ Numbered (withRecord emptyStore 0 .missed) :=
    withRecord_kept filtered_empty numbered_empty (by decide) rfl (by decide)
  have hsecond : Filtered _ ∧ Numbered (withRecord _ 1 .incoming) :=
    withRecord_kept hfirst.1 hfirst.2 (by decide) rfl (by decide)
  have hthird : Filtered missedTwice ∧ Numbered missedTwice :=
    withRecord_kept hsecond.1 hsecond.2 (by decide) rfl (by decide)
  exact ⟨hthird.1.listsAgree, hthird.2.inStep⟩

theorem delete_incoming : ∃ t,
    deleteRecordFromList missedTwice .all 2 (fun _ => true) = some (.noErr, t) ∧
      deleteRecordFromList missedTwice .incoming 2 (fun _ => true) = some (.noErr, t) ∧
      Gone missedTwice t 1 2 ∧ (listRecords t .all).map Record.id = [1, 3] := by
  obtain ⟨hagree, hids⟩ := missedTwice_kept
  obtain ⟨t, htotal, htype, hgone⟩ := (@delete_exactly_one missedTwice 2 (fun _ => true) hagree hids
    (by decide) rfl).1 1 (by decide) (newRecord (withRecord emptyStore 0 .missed) .incoming) rfl rfl
  refine ⟨t, htotal, htype, hgone, ?_⟩
  rw [hgone.records]
  rfl

end VoiceRecordDelete
