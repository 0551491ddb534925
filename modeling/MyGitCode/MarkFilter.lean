import Mathlib.Data.Finset.Card
import Mathlib.Data.Finset.Lattice.Basic

/-! # Filters that mark positions

Every key has some positions. A query answers whether all of them are marked, and marks them. -/
namespace MarkFilter

variable {α ι : Type*} [DecidableEq ι] (positions : α → List ι)

def query (marks : Finset ι) (x : α) : Bool × Finset ι :=
  (∀ i ∈ positions x, i ∈ marks, marks ∪ (positions x).toFinset)

def marksAfter (marks : Finset ι) : List α → Finset ι
  | [] => marks
  | x :: xs => marksAfter (query positions marks x).2 xs

def answers (marks : Finset ι) : List α → List Bool
  | [] => []
  | x :: xs => (query positions marks x).1 :: answers (query positions marks x).2 xs

variable {positions} {marks : Finset ι} {x : α} {xs : List α} {i : ι}

theorem mem_marksAfter :
    i ∈ marksAfter positions marks xs ↔ i ∈ marks ∨ ∃ x ∈ xs, i ∈ positions x := by
  induction xs generalizing marks with
  | nil => simp [marksAfter]
  | cons x xs ih =>
    rw [marksAfter, ih]
    simp [query, or_assoc]

theorem query_eq_true : (query positions marks x).1 = true ↔ ∀ i ∈ positions x, i ∈ marks := by
  simp [query]

theorem query_of_mem (h : x ∈ xs) :
    (query positions (marksAfter positions marks xs) x).1 = true := by
  rw [query_eq_true]
  intro i hi
  exact mem_marksAfter.mpr (.inr ⟨x, h, hi⟩)

theorem card_lt_of_miss (h : (query positions marks x).1 = false) :
    marks.card < (query positions marks x).2.card := by
  have hnew : ∃ i ∈ positions x, i ∉ marks := by
    by_contra hn
    push Not at hn
    rw [query_eq_true.mpr hn] at h
    cases h
  obtain ⟨i, hi, hout⟩ := hnew
  apply Finset.card_lt_card
  refine Finset.ssubset_iff_of_subset Finset.subset_union_left |>.mpr ⟨i, ?_, hout⟩
  simp [hi]

theorem card_le_query : marks.card ≤ (query positions marks x).2.card :=
  Finset.card_le_card Finset.subset_union_left

theorem misses_add_card : (answers positions marks xs).count false + marks.card ≤
    (marksAfter positions marks xs).card := by
  induction xs generalizing marks with
  | nil => simp [answers, marksAfter]
  | cons x xs ih =>
    have hrest := @ih (query positions marks x).2
    rw [answers, marksAfter]
    cases hanswer : (query positions marks x).1 with
    | false =>
      have := card_lt_of_miss hanswer
      rw [List.count_cons_self]
      omega
    | true =>
      have : marks.card ≤ (query positions marks x).2.card := card_le_query
      rw [List.count_cons_of_ne (by decide)]
      omega

end MarkFilter
