import MyGitCode.DbHistory
import MyGitCode.TransitionRuns

/-! # The list of the usage history

One query counts the rows of a list and another one fills it, and nothing keeps the table as it
is between them. -/
namespace DbUsageList

open CFormat SqlTokens DbStatements DbHistory TransitionRuns

/-- A row as a callback gets it: the names of the columns, and the texts, which may be NULL. -/
abbrev Row := List (Name × Option (List Char))

/-- `TUsageHistoryRecordListInter`. The memory at `pRecordDetail`, which may be NULL, goes on
behind the `nRecordLen` entries of the array. -/
structure RecordList where
  pRecordDetail : Option (ℕ → Usage)
  nRecordLenRet : ℕ
  nRecordLen : ℕ

def hasNumber (text : List Char) : Bool :=
  match text.dropWhile isSpace with
  | '-' :: rest => rest.head?.any Char.isDigit
  | '+' :: rest => rest.head?.any Char.isDigit
  | rest => rest.head?.any Char.isDigit

def field (name : Name) : Option (List Char → Usage → Usage) :=
  if name = "TxBytes".toList then
    some fun text usage => { usage with txBytes := .ofNat 64 (strtoull text) }
  else if name = "RxBytes".toList then
    some fun text usage => { usage with rxBytes := .ofNat 64 (strtoull text) }
  else if name = "RoamType".toList then
    some fun text usage => { usage with roamType := .ofInt 32 (atoi text) }
  else if name = "StartTime".toList then
    some fun text usage => { usage with startTime := .ofInt 32 (atoi text) }
  else if name = "EndTime".toList then
    some fun text usage => { usage with endTime := .ofInt 32 (atoi text) }
  else none

/-- The loop over the columns, which stores to entry `i`, and whether it comes to its end: the
text of a column that is read must not be NULL. -/
def readColumns (i : ℕ) : (ℕ → Usage) → Row → (ℕ → Usage) × Bool
  | memory, [] => (memory, true)
  | memory, (name, value) :: row =>
    match field name, value with
    | none, _ => readColumns i memory row
    | some _, none => (memory, false)
    | some set, some text =>
      if hasNumber text then
        readColumns i (Function.update memory i (set text (memory i))) row
      else readColumns i memory row

/-- `db_get_usage_history_list_cb`: the list that a call leaves, and whether it returns. -/
def dbGetUsageHistoryListCb (list : RecordList) (row : Row) : RecordList × Bool :=
  match list.pRecordDetail with
  | none => (list, true)
  | some memory =>
    if list.nRecordLen < list.nRecordLenRet then (list, true)
    else
      let r := readColumns list.nRecordLenRet memory row
      -- The counter is an `int`, which must not overflow.
      if r.2 ∧ list.nRecordLenRet + 1 < 2 ^ 31 then
        (⟨some r.1, list.nRecordLenRet + 1, list.nRecordLen⟩, true)
      else ({ list with pRecordDetail := some r.1 }, false)

def returned (list : RecordList) (row : Row) : Option RecordList :=
  if (dbGetUsageHistoryListCb list row).2 then some (dbGetUsageHistoryListCb list row).1 else none

def dbGetRecoderCountCb (count : ℤ) (row : Row) : Option ℤ :=
  row.foldlM (fun count c =>
    if c.1 = "column_count".toList then
      c.2.map fun text => if hasNumber text then atoi text else count
    else some count) count

/-- The rows that a query gives, and whether it succeeds after them. -/
structure Reply where
  rows : List Row
  ok : Bool

/-- `db_get_usage_total_num_data`, from the replies to its two queries and from the memory that
`calloc` gives it. -/
def dbGetUsageTotalNumData (count select : Reply) (calloc : Option (ℕ → Usage))
    (list : RecordList) : Option (RecordList × ℤ) :=
  (count.rows.foldlM dbGetRecoderCountCb 0).bind fun columnCount =>
    if count.ok then
      if 0 ≥ columnCount then some (list, noError)
      else if calloc.isNone then some (⟨none, list.nRecordLenRet, columnCount.toNat⟩, fail)
      else
        (runTrace returned ⟨calloc, list.nRecordLenRet, columnCount.toNat⟩ select.rows).map
          fun list => (list, if select.ok then noError else fail)
    else some (list, fail)

def Empty (n : ℕ) (list : RecordList) : Prop := list.nRecordLenRet = 0 ∧ list.nRecordLen = n

/-- What is asked of a call: the memory behind the array stays as it is, and no more entries are
counted than there are. -/
structure Inside (before after : RecordList) : Prop where
  behind : ∀ memory memory', before.pRecordDetail = some memory →
    after.pRecordDetail = some memory' → ∀ i, before.nRecordLen ≤ i → memory' i = memory i
  counted : after.nRecordLenRet ≤ after.nRecordLen

variable {i j n : ℕ} {memory : ℕ → Usage} {row : Row} {list list' : RecordList}
  {ts : List (Taken RecordList Row)}

theorem readColumns_frame (h : j ≠ i) : (readColumns i memory row).1 j = memory j := by
  fun_induction readColumns i memory row with
  | case1 => rfl
  | case2 _ _ _ _ _ ih => exact ih
  | case3 => rfl
  | case4 _ _ _ _ _ _ _ ih => rw [ih, Function.update_of_ne h]
  | case5 _ _ _ _ _ _ _ ih => exact ih

theorem inside_of_lt (h : list.nRecordLenRet < list.nRecordLen) (row : Row) :
    Inside list (dbGetUsageHistoryListCb list row).1 := by
  rw [dbGetUsageHistoryListCb]
  split
  · rename_i hnull
    refine ⟨?_, h.le⟩
    intro memory memory' hmemory
    rw [hnull] at hmemory
    cases hmemory
  · rename_i memory hmemory
    have hbehind : ∀ before after, list.pRecordDetail = some before →
        some (readColumns list.nRecordLenRet memory row).1 = some after →
        ∀ i, list.nRecordLen ≤ i → after i = before i := by
      rintro before _ hbefore ⟨⟩ i hi
      obtain rfl := Option.some.inj (hmemory.symm.trans hbefore)
      exact readColumns_frame (by omega)
    rw [if_neg h.le.not_gt]
    dsimp only
    split
    · exact ⟨hbehind, h⟩
    · exact ⟨hbehind, h.le⟩

theorem returned_eq (h : returned list row = some list') :
    list' = (dbGetUsageHistoryListCb list row).1 := by
  rw [returned, Option.ite_none_right_eq_some, Option.some_inj] at h
  exact h.2.symm

theorem returned_cases (h : returned list row = some list') :
    (list.pRecordDetail = none ∨ list.nRecordLen < list.nRecordLenRet) ∧ list' = list ∨
    list.nRecordLenRet ≤ list.nRecordLen ∧ list.pRecordDetail.isSome ∧
      list'.pRecordDetail.isSome ∧ list'.nRecordLenRet = list.nRecordLenRet + 1 ∧
      list'.nRecordLen = list.nRecordLen := by
  rw [returned, Option.ite_none_right_eq_some, Option.some_inj] at h
  obtain ⟨hreturned, rfl⟩ := h
  rw [dbGetUsageHistoryListCb] at hreturned ⊢
  split at hreturned
  · rename_i hnull
    exact .inl ⟨.inl hnull, rfl⟩
  · rename_i memory hmemory
    split at hreturned
    · rename_i hfull
      rw [if_pos hfull]
      exact .inl ⟨.inr hfull, rfl⟩
    · rename_i hroom
      rw [if_neg hroom]
      dsimp only at hreturned ⊢
      split at hreturned
      · rename_i hend
        rw [if_pos hend]
        refine .inr ⟨Nat.le_of_not_lt hroom, ?_, rfl, rfl, rfl⟩
        rw [hmemory]
        rfl
      · cases hreturned

theorem run_counts (h : Run (Empty n) (Steps returned) ts list) : list.nRecordLen = n ∧
    (list.pRecordDetail = none → list.nRecordLenRet = 0) ∧
      (list.pRecordDetail.isSome → list.nRecordLenRet = min ts.length (n + 1)) := by
  induction h with
  | start hempty => exact ⟨hempty.2, fun _ => hempty.1, fun _ => hempty.1⟩
  | snoc hrun hstep ih =>
    obtain ⟨hlen, hnull, hcount⟩ := ih
    rw [List.length_append, List.length_singleton]
    rcases returned_cases hstep with ⟨hnone | hfull, rfl⟩ | ⟨hroom, hsome, hsome', hret', hlen'⟩
    · refine ⟨hlen, hnull, ?_⟩
      rw [hnone]
      exact nofun
    · refine ⟨hlen, hnull, ?_⟩
      intro hsome
      rw [hcount hsome] at hfull ⊢
      omega
    · refine ⟨hlen'.trans hlen, ?_, ?_⟩
      · intro hnone
        rw [hnone] at hsome'
        cases hsome'
      · intro _
        rw [hcount hsome] at hroom hret'
        omega

theorem run_ret_le (h : Run (Empty n) (Steps returned) ts list) :
    list.nRecordLenRet ≤ ts.length := by
  obtain ⟨-, hnull, hcount⟩ := run_counts h
  cases hmemory : list.pRecordDetail with
  | none =>
    rw [hnull hmemory]
    exact Nat.zero_le _
  | some memory =>
    rw [hcount (hmemory ▸ rfl)]
    exact Nat.min_le_left _ _

/-- Calls stay inside of the array exactly if there are no more of them than entries, or if there
is no array at all. -/
theorem run_inside_iff (h : Run (Empty n) (Steps returned) ts list) :
    (∀ x ∈ ts, Inside x.before x.after) ↔ list.pRecordDetail = none ∨ ts.length ≤ n := by
  induction h with
  | start => exact iff_of_true nofun (.inr (Nat.zero_le n))
  | @snoc ts before row after hrun hstep ih =>
    obtain ⟨hlen, hnull, hcount⟩ := run_counts hrun
    have hle := run_ret_le hrun
    simp only [List.mem_append, List.mem_singleton, or_imp, forall_and, forall_eq, ih]
    rw [List.length_append, List.length_singleton]
    rcases returned_cases hstep with ⟨hnone | hfull, rfl⟩ | ⟨hroom, hsome, hsome', hret', hlen'⟩
    · refine iff_of_true ⟨.inl hnone, ?_, (hnull hnone).le.trans (Nat.zero_le _)⟩ (.inl hnone)
      intro memory memory' hmemory
      rw [hnone] at hmemory
      cases hmemory
    · refine iff_of_false (fun h => h.2.counted.not_gt hfull) ?_
      rintro (hnone | hfew)
      · rw [hnull hnone] at hfull
        cases hfull
      · omega
    · rw [hcount hsome] at hroom hret'
      by_cases hlt : ts.length < n
      · have hroom' : before.nRecordLenRet < before.nRecordLen := by
          rw [hcount hsome]
          omega
        have hinside := inside_of_lt hroom' row
        rw [← returned_eq hstep] at hinside
        exact iff_of_true ⟨.inr hlt.le, hinside⟩ (.inr hlt)
      · refine iff_of_false ?_ ?_
        · rintro ⟨-, -, hcounted⟩
          omega
        · rintro (hnone | hle)
          · rw [hnone] at hsome'
            cases hsome'
          · exact hlt hle

/-- The list is filled by a run from as many empty entries as were counted, one call for each row
that is selected. -/
theorem total_num_data_run {count select : Reply} {columnCount rc : ℤ}
    (hcount : count.rows.foldlM dbGetRecoderCountCb 0 = some columnCount) (hok : count.ok)
    (hpos : 0 < columnCount) (hret : list.nRecordLenRet = 0)
    (h : dbGetUsageTotalNumData count select (some memory) list = some (list', rc)) :
    ∃ ts, Run (Empty columnCount.toNat) (Steps returned) ts list' ∧
      ts.map Taken.event = select.rows := by
  have hempty : Empty columnCount.toNat ⟨some memory, list.nRecordLenRet, columnCount.toNat⟩ :=
    ⟨hret, rfl⟩
  have hcounted : ¬ 0 ≥ columnCount := by omega
  rw [dbGetUsageTotalNumData, hcount, Option.bind_some, if_pos hok, if_neg hcounted,
    if_neg (by simp), Option.map_eq_some_iff] at h
  obtain ⟨list', htrace, hlist⟩ := h
  obtain rfl := congrArg Prod.fst hlist
  exact runTrace_run (fun _ _ _ _ hstep => hstep) (.start hempty) htrace

def firstDay : Row :=
  [("StartTime".toList, some "0".toList), ("EndTime".toList, some "86400".toList),
    ("RoamType".toList, some "1".toList), ("TxBytes".toList, some "10".toList),
    ("RxBytes".toList, some "20".toList)]

def firstDayUsage : Usage := ⟨0, 86400, 1, 10, 20⟩

/-- Every call stays inside of the array, and counts no more entries than there are, exactly if
the query gives no more rows than the array has entries. -/
theorem usage_list_capped_iff (h : Run (Empty n) (Steps returned) ts list) :
    ((∀ x ∈ ts, Inside x.before x.after) ↔ list.pRecordDetail = none ∨ ts.length ≤ n) ∧
      (ts.length < n → ∀ row, Inside list (dbGetUsageHistoryListCb list row).1) := by
  refine ⟨run_inside_iff h, ?_⟩
  intro hlt
  apply inside_of_lt
  rw [(run_counts h).1]
  exact (run_ret_le h).trans_lt hlt

def secondDay : Row :=
  [("EndTime".toList, some "172800".toList), ("StartTime".toList, some "86400".toList),
    ("RxBytes".toList, some "40".toList), ("RoamType".toList, some "0".toList)]

def nullDay : Row := [("TxBytes".toList, some "50".toList), ("EndTime".toList, none)]

theorem two_rows_fit : ∃ ts list, Run (Empty 3) (Steps returned) ts list ∧
    ts.map Taken.event = [firstDay, secondDay] ∧ list.nRecordLenRet = 2 ∧
    (∀ x ∈ ts, Inside x.before x.after) ∧
    (dbGetUsageHistoryListCb list nullDay).2 = false ∧
    Inside list (dbGetUsageHistoryListCb list nullDay).1 := by
  have htrace : ∃ list, runTrace returned ⟨some fun _ => .zero, 0, 3⟩ [firstDay, secondDay] =
      some list ∧ list.nRecordLenRet = 2 ∧ (dbGetUsageHistoryListCb list nullDay).2 = false :=
    ⟨_, rfl, rfl, rfl⟩
  obtain ⟨list, htrace, hret, hnull⟩ := htrace
  obtain ⟨ts, hrun, hevents⟩ : ∃ ts, Run (Empty 3) (Steps returned) ts list ∧
      ts.map Taken.event = [firstDay, secondDay] :=
    runTrace_run (fun _ _ _ _ hstep => hstep) (.start ⟨rfl, rfl⟩) htrace
  have hlength : ts.length = 2 := by
    rw [← List.length_map, hevents]
    rfl
  obtain ⟨hcapped, hnext⟩ := usage_list_capped_iff hrun
  exact ⟨ts, list, hrun, hevents, hret, hcapped.mpr (.inr (by omega)), hnull,
    hnext (by omega) nullDay⟩

/-- A second row is selected after one was counted. -/
theorem one_row_too_many : ∃ ts list, Run (Empty 1) (Steps returned) ts list ∧
    ts.map Taken.event = [firstDay, firstDay] ∧ list.nRecordLenRet = 2 ∧
    (list.pRecordDetail.map fun memory => memory 1) = some firstDayUsage ∧
    ¬ ∀ x ∈ ts, Inside x.before x.after := by
  have hcall : ∃ list, dbGetUsageTotalNumData ⟨[[("column_count".toList, some "1".toList)]], true⟩
      ⟨[firstDay, firstDay], true⟩ (some fun _ => .zero) ⟨none, 0, 0⟩ = some (list, noError) ∧
      list.nRecordLenRet = 2 ∧
      (list.pRecordDetail.map fun memory => memory 1) = some firstDayUsage := ⟨_, rfl, rfl, rfl⟩
  obtain ⟨list, hcall, hret, hentry⟩ := hcall
  have hcount : [[("column_count".toList, some "1".toList)]].foldlM dbGetRecoderCountCb 0 =
      some 1 := rfl
  obtain ⟨ts, hrun, hevents⟩ := total_num_data_run hcount rfl Int.one_pos rfl hcall
  refine ⟨ts, list, hrun, hevents, hret, hentry, ?_⟩
  have hlen : ts.length = 2 := by
    rw [← List.length_map (f := Taken.event), hevents]
    rfl
  rw [run_inside_iff hrun]
  rintro (hnone | hle)
  · rw [hnone] at hentry
    cases hentry
  · rw [hlen] at hle
    cases hle with
    | step h => cases h

end DbUsageList
