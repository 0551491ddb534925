import MyGitCode.VoiceRecordIds
import MyGitCode.VoiceRecordLists

/-! # The CallRecord table beside the total list

Memory drops its oldest record at 101, while SQL drops rows only for an id past 100, which
no record gets. Memory deletes one record, while SQL deletes every row with its id. -/
namespace VoiceRecordTable

open TransitionRuns CText VoiceModem VoiceDatastore WordBitmap VoiceCallRecords VoiceRecordSteps
open VoiceRecordLists VoiceRecordIds

variable {s t : Store} {type : CallType} {node : ℕ} {r : Record} {ok : Stmt → Bool}

def StatementsSucceed : Op → Prop
  | .add _ _ _ ok => ∀ stmt, ok stmt = true
  | .delete _ _ ok => ∀ stmt, ok stmt = true
  | .load .. => True

def ServesSql (s : Store) (op : Op) (t : Store) : Prop := Serves s op t ∧ StatementsSucceed op

/-- The select at the next start: one callback a row, each with the nodes it needs. -/
def reload (table : Table) (nodes : List ℕ) : Option Store :=
  runTrace next { emptyStore with table := table }
    (List.zipWith (fun row node => .load row ⟨true, some node, true⟩) table nodes)

structure TableInStep (s : Store) : Prop where
  rows : s.table.Perm ((records s).map rowOf)
  limit : s.table.length ≤ recordMaxNum
  reloads : ∀ nodes : List ℕ, nodes.Nodup → nodes.length = s.table.length →
    ∃ t, reload s.table nodes = some t ∧ (records t).Perm (records s)

/-- An add reaches both lists and trims nothing, and a delete finds no id held twice. -/
def TableFit (s : Store) : Op → Prop
  | .delete list id _ => ∀ node ∈ listNodes s list, compareId s id node = true →
      (ids s).count id.toNat ≤ 1
  | op => LinksFit s op

structure Mirrored (s : Store) : Prop where
  filtered : Filtered s
  range : ∀ r ∈ records s, r.id ≤ recordMaxNum
  rows : s.table = (records s).map rowOf
  limit : s.total.length ≤ recordMaxNum

theorem Mirrored.length_table (h : Mirrored s) : s.table.length = s.total.length := by
  rw [h.rows, List.length_map, length_records]
  intro n hn
  obtain ⟨r, hr, -⟩ := h.filtered.known n hn
  exact ⟨r, hr⟩

theorem Mirrored.removed_rows (h : Mirrored s) (type : CallType) (hok : ∀ stmt, ok stmt = true)
    (hmem : node ∈ s.total) (hr : s.heap node = some r) :
    ∃ l₁ l₂, records s = l₁ ++ r :: l₂ ∧ records (removed s type node r ok) = l₁ ++ l₂ ∧
      (removed s type node r ok).table =
        ((l₁ ++ l₂).filter fun x => x.id ≠ r.id).map rowOf := by
  obtain ⟨l₁, l₂, hl, hl'⟩ : ∃ l₁ l₂, records s = l₁ ++ r :: l₂ ∧
      records (removed s type node r ok) = l₁ ++ l₂ :=
    records_remove h.filtered.nodup hmem hr removed_heap removed_total
  refine ⟨l₁, l₂, hl, hl', ?_⟩
  rw [removed_table, delete_rows hok, h.rows, hl, List.filter_map]
  congr 1
  simp [List.filter_append, Function.comp_def]

private theorem count_le_one_iff {l₁ l₂ : List Record} (h : records s = l₁ ++ r :: l₂) :
    (ids s).count r.id ≤ 1 ↔ ∀ x ∈ l₁ ++ l₂, x.id ≠ r.id := by
  have hcount : (ids s).count r.id = ((l₁ ++ l₂).map Record.id).count r.id + 1 := by
    simp [ids, h, List.count_append, ← Nat.add_assoc]
  have hone : ∀ n : ℕ, n + 1 ≤ 1 ↔ n = 0 := by omega
  rw [hcount, hone, List.count_eq_zero]
  simp only [List.mem_map, not_exists, not_and, ne_eq]

theorem Mirrored.after_remove (h : Mirrored s) (hok : ∀ stmt, ok stmt = true)
    (hknown : type ≠ .unknown) (hlisted : node ∈ typeList s type) (hmem : node ∈ s.total)
    (hr : s.heap node = some r) (hone : (ids s).count r.id ≤ 1) :
    Mirrored (removed s type node r ok) := by
  obtain ⟨l₁, l₂, hl, hl', htable⟩ := h.removed_rows type hok hmem hr
  refine ⟨h.filtered.after_remove hknown hlisted, fun x hx => h.range x ?_, ?_, ?_⟩
  · rw [hl'] at hx
    rw [hl]
    exact ((List.Sublist.refl l₁).append (List.sublist_cons_self r l₂)).subset hx
  · rw [htable, hl', List.filter_eq_self.mpr]
    simpa using (count_le_one_iff hl).mp hone
  · exact Nat.le_trans List.length_erase_le h.limit

theorem Mirrored.remove_loses_rows (h : Mirrored s) (hok : ∀ stmt, ok stmt = true)
    (hmem : node ∈ s.total) (hr : s.heap node = some r) (htwice : ¬ (ids s).count r.id ≤ 1) :
    ¬ TableInStep (removed s type node r ok) := by
  obtain ⟨l₁, l₂, hl, hl', htable⟩ := h.removed_rows type hok hmem hr
  intro hin
  have hlen := hin.rows.length_eq
  rw [htable, hl', List.length_map, List.length_map, List.length_filter_eq_length_iff] at hlen
  exact htwice ((count_le_one_iff hl).mpr fun x hx => by simpa using hlen x hx)

private theorem stored_rows (hok : ∀ stmt, ok stmt = true) (hid : r.id = nextId s.idMask) :
    (stored (pushBoth (markId s) node r) r ok).table = s.table ++ [rowOf r] := by
  have hle : r.id ≤ recordMaxNum := hid ▸ (nextId_spec s.idMask).2.1
  rw [stored_table, insert_of_le hok hle]
  simp

theorem TableFit.linksFit {op : Op} (h : TableFit s op) : LinksFit s op := by
  cases op with
  | delete list id ok => trivial
  | load row m => exact h
  | add type ctx m ok => exact h

theorem Mirrored.step {op : Op} (h : Mirrored s) (hc : TableFit s op) (hs : ServesSql s op t) :
    Mirrored t := by
  have hfiltered : Filtered t := h.filtered.step hc.linksFit hs.1.2
  cases op with
  | load row m => exact absurd rfl (hs.1.1 row m)
  | add type ctx m ok =>
    obtain ⟨rc, hadd⟩ := steps_add hs.1.2
    cases hadd with
    | noRecord => exact h
    | unknownType => exact ⟨hfiltered, h.range, h.rows, h.limit⟩
    | noNode => exact ⟨hfiltered, h.range, h.rows, h.limit⟩
    | unlisted hm hknown hn ht => simp [(hc hm hknown (by simp [hn])).1] at ht
    | @listed node r hm hknown hn _ hfree _ hid =>
      have hroom := (hc hm hknown (by simp [hn])).2
      have htotal : (stored (pushBoth (markId s) node r) r ok).total = s.total ++ [node] := by
        rw [stored_total, recordLimit_of_le] <;> simp
        omega
      have hrec : records (stored (pushBoth (markId s) node r) r ok) = records s ++ [r] :=
        records_push (h.filtered.free hfree) (by simp) htotal
      refine ⟨hfiltered, ?_, ?_, ?_⟩
      · intro x hx
        rw [hrec, List.mem_append, List.mem_singleton] at hx
        rcases hx with hx | rfl
        · exact h.range x hx
        · exact hid ▸ (nextId_spec s.idMask).2.1
      · rw [stored_rows hs.2 hid, hrec, h.rows]
        simp
      · rw [htotal, List.length_append]
        exact hroom
  | delete list id ok =>
    cases steps_delete hs.1.2 with
    | notFound => exact h
    | unlisted => exact h
    | found hknown hlisted hmem hlist hr hcmp hid _ =>
      subst hid
      exact h.after_remove hs.2 hknown hlisted hmem hr (hc _ hlist hcmp)

theorem Mirrored.breaks {op : Op} (h : Mirrored s) (hc : ¬ TableFit s op)
    (hs : ServesSql s op t) : ¬ TableInStep t := by
  cases op with
  | load row m => exact absurd rfl (hs.1.1 row m)
  | add type ctx m ok =>
    obtain ⟨rc, hadd⟩ := steps_add hs.1.2
    cases hadd with
    | noRecord hm => exact absurd (fun hm' => by simp [hm] at hm') hc
    | unknownType _ hu => exact absurd (fun _ hknown => absurd hu hknown) hc
    | noNode _ _ hn => exact absurd (fun _ _ hn' => absurd hn hn') hc
    | @unlisted node r _ _ _ _ hfree _ _ =>
      intro hin
      have hlen := hin.rows.length_eq
      rw [List.length_map, records_push (h.filtered.free hfree) rfl rfl] at hlen
      simp [h.rows, records] at hlen
    | listed _ _ _ ht hfree _ hid =>
      intro hin
      have hlimit := hin.limit
      rw [stored_rows hs.2 hid, List.length_append, h.length_table, List.length_singleton] at hlimit
      exact hc fun _ _ _ => ⟨ht, hlimit⟩
  | delete list id ok =>
    simp only [TableFit, not_forall] at hc
    obtain ⟨node, hlist, hcmp, htwice⟩ := hc
    cases steps_delete hs.1.2 with
    | notFound hnone => simp [hnone node hlist] at hcmp
    | unlisted hin hr hnot =>
      exact absurd (h.filtered.mem_typeList.mpr ⟨hin, by simp [hasType_of_heap hr]⟩) hnot
    | found _ _ hmem _ hr _ hid _ =>
      subst hid
      exact h.remove_loses_rows hs.2 hmem hr htwice

end VoiceRecordTable
