import Mathlib.Data.List.Perm.Subperm
import MyGitCode.VoiceRecordSteps

/-! # Agreement of the four record lists

While every push reaches both lists and nothing is trimmed, each type list is the total
list filtered by that type. Trimming pops the total list alone and ends the agreement. -/
namespace VoiceRecordLists

open TransitionRuns CText VoiceModem VoiceDatastore WordBitmap VoiceCallRecords VoiceRecordSteps

variable {s t : Store} {type ty : CallType} {node n : ℕ} {r : Record} {ok : Stmt → Bool}

structure ListsAgree (s : Store) : Prop where
  refers : ∀ type, ∀ node ∈ typeList s type,
    node ∈ s.total ∧ ∃ r, s.heap node = some r ∧ r.callType = type
  counted : ∀ node ∈ s.total,
    ∃ r, s.heap node = some r ∧ (typeList s r.callType).count node = 1
  sizes : s.incoming.length + s.outgoing.length + s.missed.length = s.total.length

/-- A push gets all its nodes, and an add finds fewer than 100 records. -/
def LinksFit (s : Store) : Op → Prop
  | .load row m => ∀ r, m.record = true → readColumns row zeroRecord = some (.noErr, r) →
      r.callType ≠ .unknown → m.node ≠ none → m.typeNode = true
  | .add type _ m _ => m.record = true → type ≠ .unknown → m.node ≠ none →
      m.typeNode = true ∧ s.total.length < recordMaxNum
  | .delete .. => True

def hasType (s : Store) (type : CallType) (node : ℕ) : Bool :=
  (s.heap node).any fun r => r.callType = type

structure Filtered (s : Store) : Prop where
  nodup : s.total.Nodup
  known : ∀ node ∈ s.total, ∃ r, s.heap node = some r ∧ r.callType ≠ .unknown
  lists : ∀ type, typeList s type = s.total.filter (hasType s type)

theorem ListsAgree.known (h : ListsAgree s) (hmem : node ∈ s.total) (hr : s.heap node = some r) :
    r.callType ≠ .unknown ∧ node ∈ typeList s r.callType := by
  obtain ⟨r', hr', hcount⟩ := h.counted node hmem
  obtain rfl : r' = r := Option.some.inj (hr'.symm.trans hr)
  refine ⟨fun hu => ?_, List.count_pos_iff.mp (by omega)⟩
  rw [hu] at hcount
  cases hcount

theorem ListsAgree.type_of_mem (h : ListsAgree s) (hmem : node ∈ typeList s type)
    (hr : s.heap node = some r) : r.callType = type := by
  obtain ⟨-, r', hr', htype⟩ := h.refers type node hmem
  obtain rfl : r' = r := Option.some.inj (hr'.symm.trans hr)
  exact htype

theorem ListsAgree.typeList_nodup (h : ListsAgree s) (type : CallType) :
    (typeList s type).Nodup := by
  rw [List.nodup_iff_count_le_one]
  intro node
  by_cases hmem : node ∈ typeList s type
  · obtain ⟨hin, -⟩ := h.refers type node hmem
    obtain ⟨r, hr, hcount⟩ := h.counted node hin
    rw [h.type_of_mem hmem hr] at hcount
    exact Nat.le_of_eq hcount
  · rw [List.count_eq_zero_of_not_mem hmem]
    exact Nat.zero_le 1

theorem ListsAgree.disjoint (h : ListsAgree s) {a b : CallType} (hne : a ≠ b) :
    (typeList s a).Disjoint (typeList s b) := by
  intro node ha hb
  obtain ⟨-, r, hr, htype⟩ := h.refers a node ha
  exact hne (htype.symm.trans (h.type_of_mem hb hr))

/-- The type lists hold the nodes of the total list and are no longer, so no node of the
total list is in it twice. -/
theorem ListsAgree.nodup (h : ListsAgree s) : s.total.Nodup := by
  have hnodup : (s.incoming ++ s.outgoing ++ s.missed).Nodup := by
    have hio : s.incoming.Disjoint s.outgoing := h.disjoint (a := .incoming) (b := .outgoing) nofun
    have him : s.incoming.Disjoint s.missed := h.disjoint (a := .incoming) (b := .missed) nofun
    have hom : s.outgoing.Disjoint s.missed := h.disjoint (a := .outgoing) (b := .missed) nofun
    refine ((h.typeList_nodup .incoming).append (h.typeList_nodup .outgoing) hio).append
      (h.typeList_nodup .missed) ?_
    rw [List.disjoint_append_left]
    exact ⟨him, hom⟩
  have hsub : s.incoming ++ s.outgoing ++ s.missed ⊆ s.total := by
    intro node hmem
    rw [List.mem_append, List.mem_append] at hmem
    rcases hmem with (hmem | hmem) | hmem
    · exact (h.refers .incoming node hmem).1
    · exact (h.refers .outgoing node hmem).1
    · exact (h.refers .missed node hmem).1
  have hperm := (List.subperm_of_subset hnodup hsub).perm_of_length_le (by
    rw [List.length_append, List.length_append, h.sizes])
  exact hperm.nodup_iff.mp hnodup

theorem hasType_of_heap (h : s.heap node = some r) :
    hasType s type node = decide (r.callType = type) := by
  simp [hasType, h]

theorem hasType_iff :
    hasType s type node = true ↔ ∃ r, s.heap node = some r ∧ r.callType = type := by
  simp [hasType, Option.any_eq_true]

theorem Filtered.mem_typeList (h : Filtered s) :
    node ∈ typeList s type ↔ node ∈ s.total ∧ hasType s type node := by
  rw [h.lists, List.mem_filter]

theorem Filtered.free (h : Filtered s) (hn : s.heap node = none) : node ∉ s.total := by
  intro hmem
  obtain ⟨r, hr, -⟩ := h.known node hmem
  simp [hn] at hr

private theorem filter_sizes {l : List ℕ}
    (h : ∀ node ∈ l, ∃ r, s.heap node = some r ∧ r.callType ≠ .unknown) :
    (l.filter (hasType s .incoming)).length + (l.filter (hasType s .outgoing)).length +
      (l.filter (hasType s .missed)).length = l.length := by
  induction l with
  | nil => rfl
  | cons node l ih =>
    obtain ⟨r, hr, hknown⟩ := h node List.mem_cons_self
    have ih := ih fun a ha => h a (List.mem_cons_of_mem _ ha)
    cases hc : r.callType <;>
      simp only [List.filter_cons, hasType_of_heap hr, hc, decide_true, decide_false,
        reduceCtorEq, if_true, if_false, List.length_cons, Bool.false_eq_true] <;>
      first | omega | exact absurd hc hknown

theorem Filtered.listsAgree (h : Filtered s) : ListsAgree s where
  refers type node hmem := by
    obtain ⟨hin, htype⟩ := h.mem_typeList.mp hmem
    exact ⟨hin, hasType_iff.mp htype⟩
  counted node hmem := by
    obtain ⟨r, hr, -⟩ := h.known node hmem
    refine ⟨r, hr, ?_⟩
    rw [h.lists]
    exact List.count_eq_one_of_mem (h.nodup.filter _)
      (List.mem_filter.mpr ⟨hmem, by simp [hasType_of_heap hr]⟩)
  sizes := by
    have hi := h.lists .incoming
    have ho := h.lists .outgoing
    have hm := h.lists .missed
    simp only [typeList] at hi ho hm
    rw [hi, ho, hm]
    exact filter_sizes h.known

theorem filtered_empty : Filtered emptyStore where
  nodup := List.nodup_nil
  known := by simp [emptyStore]
  lists type := by cases type <;> rfl

theorem Filtered.congr (h : Filtered s) (hheap : t.heap = s.heap) (htotal : t.total = s.total)
    (hlists : ∀ type, typeList t type = typeList s type) : Filtered t where
  nodup := htotal ▸ h.nodup
  known := by simpa [hheap, htotal] using h.known
  lists type := by
    rw [hlists, h.lists, htotal]
    refine List.filter_congr fun n _ => ?_
    simp [hasType, hheap]

private theorem known_push (h : Filtered s) (hknown : r.callType ≠ .unknown) :
    ∀ n ∈ s.total ++ [node], ∃ r', Function.update s.heap node (some r) n = some r' ∧
      r'.callType ≠ .unknown := by
  intro n hn
  by_cases hne : n = node
  · subst hne
    exact ⟨r, by simp, hknown⟩
  · simpa [hne] using h.known n (by simpa [hne] using hn)

private theorem filter_push (h : Filtered s) (hfree : s.heap node = none)
    (hheap : t.heap = Function.update s.heap node (some r)) :
    (s.total ++ [node]).filter (hasType t ty) =
      typeList s ty ++ if r.callType = ty then [node] else [] := by
  have hold : s.total.filter (hasType t ty) = s.total.filter (hasType s ty) := by
    refine List.filter_congr fun n hn => ?_
    have hne : n ≠ node := by rintro rfl; exact h.free hfree hn
    simp [hasType, hheap, hne]
  have hnew : hasType t ty node = decide (r.callType = ty) := hasType_of_heap (by simp [hheap])
  rw [List.filter_append, hold, ← h.lists]
  split <;> simp_all

theorem Filtered.after_push (h : Filtered s) (hfree : s.heap node = none)
    (hknown : r.callType ≠ .unknown) : Filtered (pushBoth s node r) where
  nodup := by
    rw [pushBoth_total]
    exact h.nodup.append (List.nodup_singleton node) (by simpa using h.free hfree)
  known := by simpa using known_push h hknown
  lists type := by
    rw [pushBoth_total, filter_push h hfree pushBoth_heap, pushBoth_typeList hknown]
    by_cases ht : type = r.callType
    · simp [ht]
    · simp [ht, Ne.symm ht]

theorem Filtered.pushTotal_disagrees (h : Filtered s) (hfree : s.heap node = none) :
    ¬ ListsAgree (pushTotal s node r) := by
  intro ha
  obtain ⟨r', hr', hcount⟩ := ha.counted node (by simp)
  have hmem : node ∈ typeList (pushTotal s node r) r'.callType :=
    List.count_pos_iff.mp (by omega)
  rw [pushTotal_typeList] at hmem
  exact h.free hfree (h.mem_typeList.mp hmem).1

theorem Filtered.trimmed_disagrees (h : Filtered s) (hfree : s.heap node = none)
    (hknown : r.callType ≠ .unknown) (hfull : recordMaxNum ≤ s.total.length) :
    ¬ ListsAgree (stored (pushBoth s node r) r ok) := by
  intro ha
  obtain ⟨front, l, hl⟩ : ∃ front l, s.total = front :: l := by
    cases hs : s.total with
    | nil => simp [hs, recordMaxNum] at hfull
    | cons front l => exact ⟨front, l, rfl⟩
  have hin : front ∈ s.total := by simp [hl]
  obtain ⟨r', hr', -⟩ := h.known front hin
  have hlisted : front ∈ typeList s r'.callType :=
    h.mem_typeList.mpr ⟨hin, by simp [hasType_of_heap hr']⟩
  have hstill : front ∈ typeList (stored (pushBoth s node r) r ok) r'.callType := by
    rw [stored_typeList, pushBoth_typeList hknown]
    split
    · exact List.mem_append_left _ hlisted
    · exact hlisted
  have hgone : front ∉ recordLimit recordMaxNum (s.total ++ [node]) := by
    have hp := h.after_push hfree hknown
    have hnd : (front :: (l ++ [node])).Nodup := by simpa [hl] using hp.nodup
    rw [recordLimit_eq, hl, List.cons_append]
    have hdrop : (front :: (l ++ [node])).length - recordMaxNum =
        (l ++ [node]).length - recordMaxNum + 1 := by
      simp [hl, recordMaxNum] at hfull ⊢
      omega
    rw [hdrop, List.drop_succ_cons]
    exact fun hmem => (List.nodup_cons.mp hnd).1 (List.mem_of_mem_drop hmem)
  exact hgone (by simpa using (ha.refers _ _ hstill).1)

theorem Filtered.after_remove (h : Filtered s) (hknown : type ≠ .unknown)
    (hmem : node ∈ typeList s type) : Filtered (removed s type node r ok) where
  nodup := h.nodup.erase node
  known := by
    intro n hn
    have hn' := (h.nodup.mem_erase_iff).mp hn
    simpa [hn'.1] using h.known n hn'.2
  lists ty := by
    have htype := (h.mem_typeList.mp hmem).2
    have hfilter : (s.total.erase node).filter (hasType (removed s type node r ok) ty) =
        (typeList s ty).erase node := by
      rw [h.lists, List.Nodup.erase_eq_filter h.nodup,
        List.Nodup.erase_eq_filter (h.nodup.filter _),
        List.filter_filter, List.filter_filter]
      refine List.filter_congr fun n _ => ?_
      by_cases hne : n = node
      · simp [hne]
      · simp [hasType, hne, Bool.and_comm]
    rw [removed_total, hfilter, removed_typeList hknown]
    split
    · rfl
    · next hne =>
      refine (List.erase_of_not_mem fun hn => hne ?_).symm
      obtain ⟨r₁, hr₁, rfl⟩ := hasType_iff.mp htype
      obtain ⟨r₂, hr₂, rfl⟩ := hasType_iff.mp (h.mem_typeList.mp hn).2
      exact congrArg Record.callType (Option.some.inj (hr₂.symm.trans hr₁))

theorem Filtered.step {op : Op} (h : Filtered s) (hc : LinksFit s op) (hs : Steps next s op t) :
    Filtered t := by
  cases op with
  | load row m =>
    cases steps_load hs with
    | ignored => exact h
    | unlisted hm hr hknown hn ht _ => simp [hc _ hm hr hknown (by simp [hn])] at ht
    | listed _ _ hknown _ _ hfree _ =>
      exact (h.after_push hfree hknown).congr rfl rfl fun ty => typeList_congr rfl rfl rfl ty
  | add type ctx m ok =>
    have hmark : Filtered (markId s) := h.congr rfl rfl fun ty => typeList_congr rfl rfl rfl ty
    obtain ⟨rc, hadd⟩ := steps_add hs
    cases hadd with
    | noRecord => exact h
    | unknownType => exact hmark
    | noNode => exact hmark
    | unlisted hm hknown hn ht _ _ _ => simp [(hc hm hknown (by simp [hn])).1] at ht
    | @listed node r hm hknown hn _ hfree htype _ =>
      have hroom := (hc hm hknown (by simp [hn])).2
      have hp := hmark.after_push (r := r) hfree (htype ▸ hknown)
      refine hp.congr rfl ?_ fun ty => stored_typeList ty
      rw [stored_total, recordLimit_of_le]
      simp
      omega
  | delete list id ok =>
    cases steps_delete hs with
    | notFound => exact h
    | unlisted => exact h
    | found hknown hmem _ _ _ _ _ _ => exact h.after_remove hknown hmem

theorem Filtered.disagrees {op : Op} (h : Filtered s) (hc : ¬ LinksFit s op)
    (hs : Steps next s op t) : ¬ ListsAgree t := by
  cases op with
  | load row m =>
    cases steps_load hs with
    | ignored hnone => exact absurd (fun r hm hr hknown hn => absurd (hnone r hm hr hknown) hn) hc
    | unlisted _ _ _ _ _ hfree => exact h.pushTotal_disagrees hfree
    | listed _ _ _ _ ht _ _ => exact absurd (fun _ _ _ _ _ => ht) hc
  | add type ctx m ok =>
    have hmark : Filtered (markId s) := h.congr rfl rfl fun ty => typeList_congr rfl rfl rfl ty
    obtain ⟨rc, hadd⟩ := steps_add hs
    cases hadd with
    | noRecord hm => exact absurd (fun hm' => by simp [hm] at hm') hc
    | unknownType _ hu => exact absurd (fun _ hknown => absurd hu hknown) hc
    | noNode _ _ hn => exact absurd (fun _ _ hn' => absurd hn hn') hc
    | unlisted _ _ _ _ hfree _ _ => exact hmark.pushTotal_disagrees hfree
    | @listed node r _ hknown _ ht hfree htype _ =>
      refine hmark.trimmed_disagrees hfree (htype ▸ hknown) ?_
      by_contra hroom
      exact hc fun _ _ _ => ⟨ht, Nat.lt_of_not_le hroom⟩
  | delete list id ok => exact absurd trivial hc

theorem run_listsAgree_iff {ts : List (Taken Store Op)}
    (h : Run (· = emptyStore) (Steps next) ts s) :
    (ListsAgree emptyStore ∧ ∀ x ∈ ts, ListsAgree x.after) ↔
      ∀ x ∈ ts, LinksFit x.before x.event := by
  rw [and_iff_right filtered_empty.listsAgree]
  refine h.all_iff (I := Filtered) (Q := fun _ _ t => ListsAgree t)
    (fun s (hs : s = emptyStore) => hs ▸ filtered_empty) ?_ ?_
  · intro s op t hs hc ht
    have := hs.step hc ht
    exact ⟨this, this.listsAgree⟩
  · intro s op t hs hc ht
    exact hs.disagrees hc ht

theorem missedCall_listsAgree : ∃ t, next emptyStore (missedCall 0) = some t ∧ ListsAgree t := by
  obtain ⟨t, ht⟩ : ∃ t, next emptyStore (missedCall 0) = some t := Option.isSome_iff_exists.mp rfl
  have hstart : Run (· = emptyStore) (Steps next) [] emptyStore := .start rfl
  have hrun := hstart.snoc (show Steps next emptyStore (missedCall 0) t from ht)
  have hfit : LinksFit emptyStore (missedCall 0) := fun _ _ _ => ⟨rfl, by decide⟩
  have hagree := ((run_listsAgree_iff hrun).mpr (by simpa using hfit)).2
  exact ⟨t, ht, by simpa using hagree⟩

/-- The 101st call trims the node of the first, which the missed list still refers to. -/
theorem lists_disagree_after_101_calls :
    ¬ ∀ ts s, Run (· = emptyStore) (Steps next) ts s → ListsAgree s := by
  intro h
  have hcheck : (runTrace next emptyStore ((List.range 101).map missedCall)).any
      (fun t => t.missed.contains 0 && !t.total.contains 0) = true := by decide +kernel
  obtain ⟨t, ht, hbad⟩ := (Option.any_eq_true _ _).mp hcheck
  obtain ⟨ts, hrun, -⟩ : ∃ ts, Run (· = emptyStore) (Steps next) ([] ++ ts) t ∧ _ :=
    runTrace_run (fun _ _ _ _ hs => hs) (.start rfl) ht
  simp only [Bool.and_eq_true, List.contains_iff_mem, Bool.not_eq_true'] at hbad
  have hin := ((h _ t hrun).refers .missed 0 hbad.1).1
  simp [hin] at hbad

end VoiceRecordLists
