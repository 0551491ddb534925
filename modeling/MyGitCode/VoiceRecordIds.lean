import Mathlib.Data.List.Pairwise
import Mathlib.Data.List.Perm.Subperm
import MyGitCode.VoiceRecordSteps

/-! # Record ids and the bits of `id_mask`

An id is given out by the first clear bit, and 100 when there is none. A bit goes back only
when its record is deleted, so a bit taken without a record or a record trimmed with its bit
still set separates the two. -/
namespace VoiceRecordIds

open TransitionRuns CText VoiceModem VoiceDatastore WordBitmap VoiceCallRecords VoiceRecordSteps

variable {s t : Store} {type : CallType} {node n i : ℕ} {r x : Record} {l : List ℕ}

def ids (s : Store) : List ℕ := (records s).map Record.id

structure IdsInStep (s : Store) : Prop where
  distinct : (ids s).Nodup
  bits : ∀ i, isSet s.idMask i = true ↔ i ∈ ids s

def frontId (s : Store) : Option ℕ := (s.total.head?.bind s.heap).map Record.id

/-- The bit an add takes gets its record. On a full list there is no clear bit, and a new
record must take the id of the one it pushes out. -/
def IdsFit (s : Store) : Op → Prop
  | .add type _ m _ => m.record = true →
      if s.total.length < recordMaxNum then type ≠ .unknown ∧ m.node ≠ none
      else type = .unknown ∨ m.node = none ∨
        (m.typeNode = true ∧ frontId s = some recordMaxNum)
  | _ => True

structure Numbered (s : Store) : Prop where
  nodup : s.total.Nodup
  held : ∀ node ∈ s.total, ∃ r, s.heap node = some r
  range : ∀ i ∈ ids s, 1 ≤ i ∧ i ≤ recordMaxNum
  inStep : IdsInStep s

theorem numbered_empty : Numbered emptyStore where
  nodup := List.nodup_nil
  held := by simp [emptyStore]
  range := by simp [ids, records, emptyStore]
  inStep := ⟨by simp [ids, records, emptyStore], by simp [ids, records, emptyStore]⟩

theorem mem_ids (hmem : node ∈ s.total) (hr : s.heap node = some r) : r.id ∈ ids s :=
  List.mem_map_of_mem (List.mem_filterMap.mpr ⟨node, hmem, hr⟩)

theorem IdsInStep.lt (h : IdsInStep s) (hmem : node ∈ s.total) (hr : s.heap node = some r) :
    r.id < 128 := by
  have hbit := (h.bits r.id).mpr (mem_ids hmem hr)
  by_contra hge
  rw [isSet_of_le (by omega)] at hbit
  cases hbit

theorem IdsInStep.node_eq (h : IdsInStep s) (hn : n ∈ s.total) (hmem : node ∈ s.total)
    (hx : s.heap n = some x) (hr : s.heap node = some r) (hid : x.id = r.id) : n = node := by
  have hpairs : s.total.Pairwise fun a b => ∀ x ∈ s.heap a, ∀ y ∈ s.heap b, x.id ≠ y.id := by
    have := h.distinct
    rwa [ids, records, List.Nodup, List.pairwise_map, List.pairwise_filterMap] at this
  by_contra hne
  have hsymm : Std.Symm fun a b : ℕ => ∀ x ∈ s.heap a, ∀ y ∈ s.heap b, x.id ≠ y.id :=
    ⟨fun a b hab x hx y hy heq => hab y hy x hx heq.symm⟩
  exact hpairs.forall hn hmem hne x hx r hr hid

theorem searchId_spec {m : Bitmap 4} {n fuel c : ℕ} (hc : c < n) (hf : n ≤ c + fuel) :
    c ≤ searchId m n fuel c ∧ searchId m n fuel c ≤ n ∧
      (∀ i, c ≤ i → i < searchId m n fuel c → isSet m i = true) ∧
      (searchId m n fuel c < n → isSet m (searchId m n fuel c) = false) := by
  induction fuel generalizing c with
  | zero => omega
  | succ fuel ih =>
    unfold searchId
    split
    · next hset =>
      split
      · refine ⟨by omega, by omega, fun i hi hlt => ?_, by omega⟩
        obtain rfl : i = c := by omega
        exact hset
      · obtain ⟨hle, hn, hbelow, hlast⟩ := ih (c := c + 1) (by omega) (by omega)
        refine ⟨by omega, hn, fun i hi hlt => ?_, hlast⟩
        by_cases hic : i = c
        · exact hic ▸ hset
        · exact hbelow i (by omega) hlt
    · next hset => exact ⟨(Nat.le_refl _), by omega, by omega, fun _ => by simpa using hset⟩

theorem nextId_spec (m : Bitmap 4) : 1 ≤ nextId m ∧ nextId m ≤ recordMaxNum ∧
    (∀ i, 1 ≤ i → i < nextId m → isSet m i = true) ∧
    (nextId m < recordMaxNum → isSet m (nextId m) = false) :=
  searchId_spec (by decide) (by decide)

theorem nextId_word (m : Bitmap 4) : nextId m / 32 < 4 := by
  have := (nextId_spec m).2.1
  simp only [recordMaxNum] at this
  omega

private theorem mem_range_iff : i ∈ List.range' 1 recordMaxNum ↔ 1 ≤ i ∧ i ≤ recordMaxNum := by
  simp [List.mem_range'_1, recordMaxNum]
  omega

theorem Numbered.length_ids (h : Numbered s) : (ids s).length = s.total.length := by
  rw [ids, List.length_map, length_records h.held]

theorem Numbered.subperm (h : Numbered s) : (ids s).Subperm (List.range' 1 recordMaxNum) :=
  List.subperm_of_subset h.inStep.distinct fun i hi => mem_range_iff.mpr (h.range i hi)

theorem Numbered.nextId_free (h : Numbered s) (hroom : s.total.length < recordMaxNum) :
    nextId s.idMask ∉ ids s := by
  obtain ⟨-, hle, hbelow, hlast⟩ := nextId_spec s.idMask
  intro hmem
  by_cases hlt : nextId s.idMask < recordMaxNum
  · have := (h.inStep.bits _).mpr hmem
    simp [hlast hlt] at this
  · have hall : List.range' 1 recordMaxNum ⊆ ids s := by
      intro i hi
      obtain ⟨hi₁, hi₂⟩ := mem_range_iff.mp hi
      by_cases hi : i < nextId s.idMask
      · exact (h.inStep.bits i).mp (hbelow i hi₁ hi)
      · exact (show nextId s.idMask = i by omega) ▸ hmem
    have hlen := (List.subperm_of_subset List.nodup_range' hall).length_le
    rw [List.length_range', h.length_ids] at hlen
    omega

theorem Numbered.nextId_full (h : Numbered s) (hfull : recordMaxNum ≤ s.total.length) :
    nextId s.idMask = recordMaxNum ∧ recordMaxNum ∈ ids s ∧ s.total.length = recordMaxNum := by
  have hlen := h.subperm.length_le
  rw [List.length_range', h.length_ids] at hlen
  have hperm := h.subperm.perm_of_length_le (by rw [List.length_range', h.length_ids]; exact hfull)
  have hall : ∀ i, 1 ≤ i → i ≤ recordMaxNum → i ∈ ids s := fun i h₁ h₂ =>
    hperm.mem_iff.mpr (mem_range_iff.mpr ⟨h₁, h₂⟩)
  obtain ⟨hge, hle, -, hlast⟩ := nextId_spec s.idMask
  refine ⟨?_, hall _ (by decide) (Nat.le_refl _), by omega⟩
  by_contra hne
  have hset := (h.inStep.bits _).mpr (hall _ hge hle)
  simp [hlast (by omega)] at hset

theorem Numbered.unused (h : Numbered s) (hn : s.heap node = none) : node ∉ s.total := by
  intro hmem
  obtain ⟨r, hr⟩ := h.held node hmem
  simp [hn] at hr

private theorem isSet_markId :
    isSet (markId s).idMask i = true ↔ i = nextId s.idMask ∨ isSet s.idMask i = true := by
  simp [markId, isSet_set (nextId_word s.idMask)]

private theorem held_push {l : List ℕ} (h : Numbered s) (hl : ∀ n ∈ l, n ∈ s.total) :
    ∀ n ∈ l ++ [node], ∃ r', Function.update s.heap node (some r) n = some r' := by
  intro n hn
  by_cases hne : n = node
  · exact ⟨r, by simp [hne]⟩
  · simpa [hne] using h.held n (hl n (by simpa [hne] using hn))

private theorem Numbered.of_push (h : Numbered s) (hfree : s.heap node = none)
    (hl : l.Sublist s.total) (hid : r.id = nextId s.idMask)
    (hheap : t.heap = Function.update s.heap node (some r)) (htotal : t.total = l ++ [node])
    (hmask : t.idMask = (markId s).idMask)
    (hold : ∀ i, i ∈ ids s ∨ i = nextId s.idMask ↔
      i ∈ (l.filterMap s.heap).map Record.id ∨ i = nextId s.idMask)
    (hnew : nextId s.idMask ∉ (l.filterMap s.heap).map Record.id) : Numbered t := by
  have hnode : node ∉ l := fun hmem => h.unused hfree (hl.subset hmem)
  have hids : ids t = (l.filterMap s.heap).map Record.id ++ [nextId s.idMask] := by
    rw [ids, records_push hnode hheap htotal, List.map_append, List.map_singleton, hid]
  have hsub : ((l.filterMap s.heap).map Record.id).Sublist (ids s) :=
    (hl.filterMap s.heap).map Record.id
  obtain ⟨hge, hle, -⟩ := nextId_spec s.idMask
  refine ⟨?_, ?_, ?_, ?_, ?_⟩
  · rw [htotal]
    exact List.Nodup.append (h.nodup.sublist hl) (List.nodup_singleton node) (by simpa using hnode)
  · rw [htotal, hheap]
    exact held_push h fun n hn => hl.subset hn
  · intro i hi
    rw [hids, List.mem_append, List.mem_singleton] at hi
    rcases hi with hi | rfl
    · exact h.range i (hsub.subset hi)
    · exact ⟨hge, hle⟩
  · rw [hids]
    exact List.Nodup.append (h.inStep.distinct.sublist hsub) (List.nodup_singleton _)
      (by simpa using hnew)
  · intro i
    rw [hmask, isSet_markId, h.inStep.bits, or_comm, hold, hids, List.mem_append,
      List.mem_singleton]

theorem Numbered.after_push (h : Numbered s) (hroom : s.total.length < recordMaxNum)
    (hfree : s.heap node = none) (hid : r.id = nextId s.idMask)
    (hheap : t.heap = Function.update s.heap node (some r)) (htotal : t.total = s.total ++ [node])
    (hmask : t.idMask = (markId s).idMask) : Numbered t :=
  h.of_push hfree (List.Sublist.refl _) hid hheap htotal hmask (fun _ => Iff.rfl)
    (h.nextId_free hroom)

private theorem Numbered.front (h : Numbered s) (hfull : recordMaxNum ≤ s.total.length) :
    ∃ node l r, s.total = node :: l ∧ s.heap node = some r ∧ frontId s = some r.id ∧
      ids s = r.id :: (l.filterMap s.heap).map Record.id ∧
      ∀ n, recordLimit recordMaxNum (s.total ++ [n]) = l ++ [n] := by
  have hlen := (h.nextId_full hfull).2.2
  cases hs : s.total with
  | nil => simp [hs, recordMaxNum] at hfull
  | cons node l =>
    obtain ⟨r, hr⟩ := h.held node (by simp [hs])
    refine ⟨node, l, r, rfl, hr, by simp [frontId, hs, hr], by simp [ids, records, hs, hr], ?_⟩
    intro n
    rw [hs] at hlen
    have hone : (node :: l ++ [n]).length - recordMaxNum = 1 := by
      rw [List.length_append, hlen]
      rfl
    rw [recordLimit_eq, hone]
    rfl

theorem Numbered.after_replace (h : Numbered s) (hfull : recordMaxNum ≤ s.total.length)
    (hfront : frontId s = some recordMaxNum)
    (hfree : s.heap node = none) (hid : r.id = nextId s.idMask)
    (hheap : t.heap = Function.update s.heap node (some r))
    (htotal : t.total = recordLimit recordMaxNum (s.total ++ [node]))
    (hmask : t.idMask = (markId s).idMask) : Numbered t := by
  obtain ⟨front, l, r₀, hl, -, hf, hids, hlimit⟩ := h.front hfull
  obtain ⟨hnext, -, -⟩ := h.nextId_full hfull
  have hr₀ : r₀.id = recordMaxNum := by simpa [hfront] using hf.symm
  rw [hr₀] at hids
  have hd := h.inStep.distinct
  rw [hids, List.nodup_cons] at hd
  refine h.of_push hfree (by simp [hl]) hid hheap (htotal.trans (hlimit node)) hmask ?_ ?_
  · intro i
    rw [hids, hnext, List.mem_cons]
    tauto
  · rw [hnext]
    exact hd.1

theorem Numbered.after_mark (h : Numbered s) (hfull : recordMaxNum ≤ s.total.length) :
    Numbered (markId s) := by
  obtain ⟨hnext, hmem, -⟩ := h.nextId_full hfull
  refine ⟨h.nodup, h.held, h.range, h.inStep.distinct, fun i => ?_⟩
  rw [isSet_markId, h.inStep.bits, hnext]
  exact ⟨fun hi => hi.elim (fun hi => hi ▸ hmem) id, .inr⟩

theorem Numbered.mark_leaks (h : Numbered s) (hroom : s.total.length < recordMaxNum) :
    ¬ IdsInStep (markId s) := fun hb =>
  h.nextId_free hroom ((hb.bits _).mp (isSet_markId.mpr (.inl rfl)))

theorem Numbered.push_repeats (h : Numbered s) (hfull : recordMaxNum ≤ s.total.length)
    (hfree : s.heap node = none) (hid : r.id = nextId s.idMask) :
    ¬ IdsInStep (pushTotal (markId s) node r) := by
  obtain ⟨hnext, hmem, -⟩ := h.nextId_full hfull
  have hids : ids (pushTotal (markId s) node r) = ids s ++ [recordMaxNum] := by
    rw [ids, records_push (h.unused hfree) rfl rfl, List.map_append, List.map_singleton, hid, hnext]
    rfl
  intro hb
  have hd := hb.distinct
  rw [hids, List.nodup_append] at hd
  exact hd.2.2 _ hmem _ (by simp) rfl

theorem Numbered.replace_repeats {ok : Stmt → Bool} (h : Numbered s)
    (hfull : recordMaxNum ≤ s.total.length) (hfront : frontId s ≠ some recordMaxNum)
    (hfree : s.heap node = none) (hid : r.id = nextId s.idMask) :
    ¬ IdsInStep (stored (pushBoth (markId s) node r) r ok) := by
  obtain ⟨front, l, r₀, hl, -, hf, hids, hlimit⟩ := h.front hfull
  obtain ⟨hnext, hmem, -⟩ := h.nextId_full hfull
  have hnode : node ∉ l := fun hin => h.unused hfree (by simp [hl, hin])
  have hids' : ids (stored (pushBoth (markId s) node r) r ok) =
      (l.filterMap s.heap).map Record.id ++ [recordMaxNum] := by
    rw [ids, records_push (s := s) (r := r) hnode (by simp) (by simp [hlimit]), List.map_append,
      List.map_singleton, hid, hnext]
  have hin : recordMaxNum ∈ (l.filterMap s.heap).map Record.id := by
    rw [hids, List.mem_cons] at hmem
    exact hmem.resolve_left fun he => hfront (he ▸ hf)
  intro hb
  have hd := hb.distinct
  rw [hids', List.nodup_append] at hd
  exact hd.2.2 _ hin _ (by simp) rfl

theorem Numbered.after_remove {ok : Stmt → Bool} (h : Numbered s) (hmem : node ∈ s.total)
    (hr : s.heap node = some r) : Numbered (removed s type node r ok) := by
  obtain ⟨l₁, l₂, hl, hl'⟩ : ∃ l₁ l₂, records s = l₁ ++ r :: l₂ ∧
      records (removed s type node r ok) = l₁ ++ l₂ :=
    records_remove h.nodup hmem hr removed_heap removed_total
  have hids : ids s = l₁.map Record.id ++ r.id :: l₂.map Record.id := by simp [ids, hl]
  have hids' : ids (removed s type node r ok) = l₁.map Record.id ++ l₂.map Record.id := by
    simp [ids, hl']
  have hsub : (ids (removed s type node r ok)).Sublist (ids s) := by
    rw [hids, hids']
    exact (List.Sublist.refl _).append (List.sublist_cons_self _ _)
  have hd := h.inStep.distinct
  have hword : r.id / 32 < 4 := by
    have := (h.range r.id (by simp [hids])).2
    simp only [recordMaxNum] at this
    omega
  refine ⟨h.nodup.erase node, ?_, fun i hi => h.range i (hsub.subset hi), hd.sublist hsub, ?_⟩
  · intro n hn
    obtain ⟨hne, hin⟩ := h.nodup.mem_erase_iff.mp hn
    simpa [hne] using h.held n hin
  · intro i
    rw [hids, List.nodup_middle, List.nodup_cons, ← List.map_append] at hd
    rw [removed_idMask, isSet_clear hword, Bool.and_eq_true, h.inStep.bits, hids, hids',
      decide_eq_true_iff, ← List.map_append]
    by_cases hi : i = r.id
    · simpa [hi] using hd.1
    · simp [hi]

theorem Numbered.step {op : Op} (h : Numbered s) (hc : IdsFit s op) (hs : Serves s op t) :
    Numbered t := by
  cases op with
  | load row m => exact absurd rfl (hs.1 row m)
  | add type ctx m ok =>
    obtain ⟨rc, hadd⟩ := steps_add hs.2
    by_cases hroom : s.total.length < recordMaxNum
    · simp only [IdsFit, if_pos hroom] at hc
      cases hadd with
      | noRecord => exact h
      | unknownType hm hu => exact absurd hu (hc hm).1
      | noNode hm _ hn => exact absurd hn (hc hm).2
      | unlisted _ _ _ _ hfree _ hid => exact h.after_push hroom hfree hid rfl rfl rfl
      | @listed node r _ _ _ _ hfree _ hid =>
        refine h.after_push hroom hfree hid (by simp) ?_ (by simp)
        rw [stored_total, recordLimit_of_le] <;> simp
        omega
    · simp only [IdsFit, if_neg hroom] at hc
      have hfull := Nat.le_of_not_lt hroom
      cases hadd with
      | noRecord => exact h
      | unknownType => exact h.after_mark hfull
      | noNode => exact h.after_mark hfull
      | unlisted hm hknown hn ht _ _ _ =>
        simp [hknown, hn, ht] at hc
        exact absurd hm (by simp [hc])
      | listed hm hknown hn _ hfree _ hid =>
        have hfront := (((hc hm).resolve_left hknown).resolve_left (by simp [hn])).2
        exact h.after_replace hfull hfront hfree hid (by simp) (by simp) (by simp)
  | delete list id ok =>
    cases steps_delete hs.2 with
    | notFound => exact h
    | unlisted => exact h
    | found _ _ hmem _ hr _ _ _ => exact h.after_remove hmem hr

theorem Numbered.breaks {op : Op} (h : Numbered s) (hc : ¬ IdsFit s op) (hs : Serves s op t) :
    ¬ IdsInStep t := by
  cases op with
  | load row m => exact absurd trivial hc
  | add type ctx m ok =>
    obtain ⟨rc, hadd⟩ := steps_add hs.2
    by_cases hroom : s.total.length < recordMaxNum
    · simp only [IdsFit, if_pos hroom] at hc
      cases hadd with
      | noRecord hm => exact absurd (fun hm' => by simp [hm] at hm') hc
      | unknownType => exact h.mark_leaks hroom
      | noNode => exact h.mark_leaks hroom
      | unlisted _ hknown hn => exact absurd (fun _ => ⟨hknown, by simp [hn]⟩) hc
      | listed _ hknown hn => exact absurd (fun _ => ⟨hknown, by simp [hn]⟩) hc
    · simp only [IdsFit, if_neg hroom] at hc
      have hfull := Nat.le_of_not_lt hroom
      cases hadd with
      | noRecord hm => exact absurd (fun hm' => by simp [hm] at hm') hc
      | unknownType _ hu => exact absurd (fun _ => .inl hu) hc
      | noNode _ _ hn => exact absurd (fun _ => .inr (.inl hn)) hc
      | unlisted _ _ _ _ hfree _ hid => exact h.push_repeats hfull hfree hid
      | listed _ _ _ ht hfree _ hid =>
        exact h.replace_repeats hfull (fun hf => hc fun _ => .inr (.inr ⟨ht, hf⟩)) hfree hid
  | delete list id ok => exact absurd trivial hc

theorem run_idsInStep_iff {ts : List (Taken Store Op)} (h : Run (· = emptyStore) Serves ts s) :
    (IdsInStep emptyStore ∧ ∀ x ∈ ts, IdsInStep x.after) ↔ ∀ x ∈ ts, IdsFit x.before x.event := by
  rw [and_iff_right numbered_empty.inStep]
  refine h.all_iff (I := Numbered) (Q := fun _ _ t => IdsInStep t)
    (fun s (hs : s = emptyStore) => hs ▸ numbered_empty) ?_ ?_
  · intro s op t hs hc ht
    have := hs.step hc ht
    exact ⟨this, this.inStep⟩
  · intro s op t hs hc ht
    exact hs.breaks hc ht

theorem missedCall_idsInStep : ∃ t, next emptyStore (missedCall 0) = some t ∧ IdsInStep t := by
  obtain ⟨t, ht⟩ : ∃ t, next emptyStore (missedCall 0) = some t := Option.isSome_iff_exists.mp rfl
  have hstart : Run (· = emptyStore) Serves [] emptyStore := .start rfl
  have hrun := hstart.snoc (show Serves emptyStore (missedCall 0) t from ⟨by simp [missedCall], ht⟩)
  have hfit : IdsFit emptyStore (missedCall 0) := fun _ => by
    rw [if_pos (by decide)]
    exact ⟨by decide, by decide⟩
  have hbits := ((run_idsInStep_iff hrun).mpr (by simpa using hfit)).2
  exact ⟨t, ht, by simpa using hbits⟩

/-- One add of an unknown type takes bit 1 and adds no record. -/
theorem bit_leaks_for_unknown_type :
    ¬ ∀ ts s, Run (· = emptyStore) Serves ts s → IdsInStep s := by
  intro h
  let op : Op :=
    .add .unknown ⟨0, 0, initialCalls, 0, false, [], 0⟩ ⟨true, some 0, true⟩ fun _ => true
  have hstart : Run (· = emptyStore) Serves [] emptyStore := .start rfl
  have hstep : Serves emptyStore op (markId emptyStore) := ⟨by simp [op], rfl⟩
  have hbit : isSet (markId emptyStore).idMask 1 = true := by decide
  have hmem := ((h _ _ (hstart.snoc hstep)).bits 1).mp hbit
  simp [ids, records, emptyStore] at hmem

end VoiceRecordIds
