import Mathlib.Data.List.TakeWhile

/-! # Runs between delimiters

The maximal runs of a list without an element that satisfies `p`, and what is left of the list
behind them. -/
namespace DelimitedRuns

variable {α : Type*} (p : α → Bool)

def runs (s : List α) : List (List α) := (s.splitOnP p).filter fun r => !r.isEmpty

def run (s : List α) : List α := (s.dropWhile p).takeWhile fun a => !p a

def after (s : List α) : List α := (s.dropWhile p).dropWhile fun a => !p a

/-- What is left behind the first `k` runs, from the delimiter of the last of them on. -/
def afterRuns : ℕ → List α → List α
  | 0, s => s
  | k + 1, s => afterRuns k (after p s)

variable {p} {s t : List α}

theorem takeWhile_append_stop {c : α} (t : List α) (h : p c = false) :
    (s ++ c :: t).takeWhile p = s.takeWhile p := by
  induction s with
  | nil => simp [h]
  | cons a s ih =>
    rw [List.cons_append, List.takeWhile_cons, List.takeWhile_cons, ih]

theorem dropWhile_append_stop {c : α} (t : List α) (h : p c = false) :
    (s ++ c :: t).dropWhile p = s.dropWhile p ++ c :: t := by
  induction s with
  | nil => simp [h]
  | cons a s ih =>
    rw [List.cons_append, List.dropWhile_cons, List.dropWhile_cons, ih]
    split <;> rfl

theorem takeWhile_ne_append [DecidableEq α] {c : α} (h : c ∉ s) (t : List α) :
    (s ++ t).takeWhile (· ≠ c) = s ++ t.takeWhile (· ≠ c) := by
  refine List.takeWhile_append_of_pos fun a ha => ?_
  have hne : a ≠ c := by
    rintro rfl
    exact h ha
  simpa using hne

theorem takeWhile_ne_eq_self [DecidableEq α] {c : α} (h : c ∉ s) : s.takeWhile (· ≠ c) = s := by
  simpa using takeWhile_ne_append h []

theorem takeWhile_ne_append_cons [DecidableEq α] {c : α} (h : c ∉ s) (t : List α) :
    (s ++ c :: t).takeWhile (· ≠ c) = s := by
  rw [takeWhile_append_stop t (by simp), takeWhile_ne_eq_self h]

theorem runs_cons_of_pos {a : α} (h : p a = true) : runs p (a :: s) = runs p s := by
  simp [runs, List.splitOnP_cons_eq_if_modifyHead, h]

theorem runs_dropWhile : runs p (s.dropWhile p) = runs p s := by
  induction s with
  | nil => rfl
  | cons a s ih =>
    by_cases h : p a = true
    · rw [List.dropWhile_cons_of_pos h, ih, runs_cons_of_pos h]
    · rw [List.dropWhile_cons_of_neg h]

theorem runs_eq_singleton (hne : s ≠ []) (h : ∀ a ∈ s, p a = false) : runs p s = [s] := by
  rw [runs, List.splitOnP_eq_singleton h, List.filter_cons_of_pos]
  · rfl
  · simp [hne]

theorem runs_append_cons {d : α} {t : List α} (hne : s ≠ []) (h : ∀ a ∈ s, p a = false)
    (hd : p d = true) : runs p (s ++ d :: t) = s :: runs p t := by
  rw [runs, List.splitOnP_append_cons_of_forall_mem h d hd, List.filter_cons_of_pos, runs]
  simp [hne]

theorem after_append_cons {d : α} {t : List α} (hne : s ≠ []) (h : ∀ a ∈ s, p a = false)
    (hd : p d = true) : after p (s ++ d :: t) = d :: t := by
  obtain ⟨a, s', rfl⟩ := List.exists_cons_of_ne_nil hne
  have ha := h a List.mem_cons_self
  rw [after, List.cons_append, List.dropWhile_cons_of_neg (by simp [ha]), ← List.cons_append,
    List.dropWhile_append_of_pos (by simpa using h), List.dropWhile_cons_of_neg (by simp [hd])]

theorem after_cons_of_pos {d : α} (hd : p d = true) : after p (d :: s) = after p s := by
  rw [after, after, List.dropWhile_cons_of_pos hd]

theorem run_ne_nil (h : s.dropWhile p ≠ []) : run p s ≠ [] := by
  have hhead := List.head_dropWhile_not p h
  obtain ⟨a, t, hs⟩ := List.exists_cons_of_ne_nil h
  simp only [hs, List.head_cons] at hhead
  rw [run, hs, List.takeWhile_cons_of_pos (by simp [hhead])]
  exact List.cons_ne_nil _ _

theorem mem_run {a : α} (h : a ∈ run p s) : p a = false := by
  have := List.mem_takeWhile_imp h
  simpa using this

theorem run_append_after : run p s ++ after p s = s.dropWhile p :=
  List.takeWhile_append_dropWhile

/-- The list as what stands before its first run, that run, and the rest. -/
theorem takeWhile_append_run_append_after :
    s.takeWhile p ++ run p s ++ after p s = s := by
  rw [List.append_assoc, run_append_after, List.takeWhile_append_dropWhile]

theorem after_head {d : α} {t : List α} (h : after p s = d :: t) : p d = true := by
  have hne : (s.dropWhile p).dropWhile (fun a => !p a) ≠ [] := by
    rw [after] at h
    rw [h]
    exact List.cons_ne_nil _ _
  have hhead := List.head_dropWhile_not (fun a => !p a) hne
  rw [after] at h
  simpa [h] using hhead

theorem runs_of_dropWhile_eq_nil (h : s.dropWhile p = []) : runs p s = [] := by
  rw [← runs_dropWhile, h]
  rfl

theorem runs_eq_cons (h : s.dropWhile p ≠ []) : runs p s = run p s :: runs p (after p s) := by
  rw [← runs_dropWhile (s := s), ← run_append_after]
  cases hafter : after p s with
  | nil =>
    rw [List.append_nil]
    exact runs_eq_singleton (run_ne_nil h) fun a => mem_run
  | cons d t =>
    have hd := after_head hafter
    rw [runs_append_cons (run_ne_nil h) (fun a => mem_run) hd, runs_cons_of_pos hd]

theorem runs_append_head (hne : s ≠ []) (h : ∀ a ∈ s, p a = false)
    (ht : ∀ a ∈ t.head?, p a = true) : runs p (s ++ t) = s :: runs p t := by
  cases t with
  | nil =>
    rw [List.append_nil, runs_eq_singleton hne h]
    rfl
  | cons d t => rw [runs_append_cons hne h (ht d rfl), runs_cons_of_pos (ht d rfl)]

theorem runs_append_of_pos {q : List α} (h : ∀ a ∈ q, p a = true) :
    runs p (q ++ s) = runs p s := by
  rw [← runs_dropWhile, List.dropWhile_append_of_pos h, runs_dropWhile]

theorem forall_of_runs_eq_nil (h : runs p s = []) : ∀ a ∈ s, p a = true := by
  by_cases hs : s.dropWhile p = []
  · exact List.dropWhile_eq_nil_iff.mp hs
  · rw [runs_eq_cons hs] at h
    cases h

theorem exists_of_runs_eq_cons {r : List α} {rs : List (List α)} (h : runs p s = r :: rs) :
    ∃ q t, s = q ++ (r ++ t) ∧ (∀ a ∈ q, p a = true) ∧ r ≠ [] ∧ (∀ a ∈ r, p a = false) ∧
      (∀ a ∈ t.head?, p a = true) ∧ runs p t = rs := by
  have hs : s.dropWhile p ≠ [] := by
    intro hs
    rw [runs_of_dropWhile_eq_nil hs] at h
    cases h
  rw [runs_eq_cons hs, List.cons.injEq] at h
  obtain ⟨rfl, hrs⟩ := h
  refine ⟨s.takeWhile p, after p s, ?_, fun a => List.mem_takeWhile_imp, run_ne_nil hs,
    fun a => mem_run, ?_, hrs⟩
  · rw [← List.append_assoc, takeWhile_append_run_append_after]
  · intro a ha
    obtain ⟨t, ht⟩ := List.head?_eq_some_iff.mp ha
    exact after_head ht

theorem runs_after_tail : runs p (after p s).tail = runs p (after p s) := by
  cases hafter : after p s with
  | nil => rfl
  | cons d t => exact (runs_cons_of_pos (after_head hafter)).symm

theorem length_after_lt (h : s.dropWhile p ≠ []) : (after p s).length < s.length := by
  have hlen := congrArg List.length (takeWhile_append_run_append_after (p := p) (s := s))
  have hrun := List.length_pos_iff.mpr (run_ne_nil h)
  simp only [List.length_append] at hlen
  omega

theorem ne_nil_of_mem_runs {r : List α} (h : r ∈ runs p s) : r ≠ [] := by
  rintro rfl
  simp [runs] at h

theorem isInfix_of_mem_runs {r : List α} (h : r ∈ runs p s) : r <:+: s := by
  induction hn : s.length using Nat.strong_induction_on generalizing s with
  | _ n ih =>
    subst hn
    by_cases hs : s.dropWhile p = []
    · rw [runs_of_dropWhile_eq_nil hs] at h
      cases h
    · rw [runs_eq_cons hs] at h
      rcases List.mem_cons.mp h with rfl | h
      · exact ⟨_, _, takeWhile_append_run_append_after⟩
      · have hinside : r <:+: after p s := ih _ (length_after_lt hs) h rfl
        have hsuffix : after p s <:+ s :=
          (List.dropWhile_suffix _).trans (List.dropWhile_suffix _)
        exact hinside.trans hsuffix.isInfix

theorem length_after_le : (after p s).length ≤ s.length :=
  (List.length_dropWhile_le _ _).trans (List.length_dropWhile_le _ _)

theorem length_afterRuns_le (k : ℕ) : (afterRuns p k s).length ≤ s.length := by
  induction k generalizing s with
  | zero => exact le_rfl
  | succ k ih => exact ih.trans length_after_le

theorem after_after_tail : after p (after p s).tail = after p (after p s) := by
  cases hafter : after p s with
  | nil => rfl
  | cons d t =>
    rw [List.tail_cons, after, after, List.dropWhile_cons_of_pos (after_head hafter)]

theorem afterRuns_tail (k : ℕ) :
    afterRuns p (k + 1) (after p s).tail = afterRuns p (k + 1) (after p s) := by
  rw [afterRuns, afterRuns, after_after_tail]

/-- Where nothing is left behind `k` runs there are no more than these. -/
theorem length_runs_le {k : ℕ} (h : afterRuns p k s = []) : (runs p s).length ≤ k := by
  induction k generalizing s with
  | zero =>
    rw [afterRuns] at h
    rw [h]
    rfl
  | succ k ih =>
    by_cases hs : s.dropWhile p = []
    · rw [runs_of_dropWhile_eq_nil hs]
      exact Nat.zero_le _
    · rw [runs_eq_cons hs, List.length_cons]
      exact Nat.succ_le_succ (ih h)

theorem length_runs_le_length (s : List α) : (runs p s).length ≤ s.length := by
  induction hn : s.length using Nat.strong_induction_on generalizing s with
  | _ n ih =>
    subst hn
    by_cases hs : s.dropWhile p = []
    · rw [runs_of_dropWhile_eq_nil hs]
      exact Nat.zero_le _
    · have hlt := length_after_lt hs
      have hrest := ih _ hlt (after p s) rfl
      rw [runs_eq_cons hs, List.length_cons]
      omega

end DelimitedRuns
