import Mathlib.Data.List.TakeWhile
import Mathlib.Tactic.TypeStar

/-! # Merges of two lists

A test `le` says which elements of the first list come before one of the second. Equal elements
may go either way, so that the test may be strict. -/
namespace OrderedMerges

variable {α : Type*} {le : α → α → Bool} {r : α → α → Prop} {a b : α} {xs ys cs ds : List α}

theorem merge_before (h : ∀ x ∈ xs, le x b) :
    List.merge (xs ++ ys) (b :: ds) le = xs ++ List.merge ys (b :: ds) le := by
  induction xs with
  | nil => rfl
  | cons x xs ih =>
    rw [List.forall_mem_cons] at h
    rw [List.cons_append, List.cons_merge_cons_pos _ _ _ h.1, ih h.2, List.cons_append]

theorem merge_behind (h : ∀ c ∈ cs, ¬ le a c) :
    List.merge (a :: ys) (cs ++ ds) le = cs ++ List.merge (a :: ys) ds le := by
  induction cs with
  | nil => rfl
  | cons c cs ih =>
    rw [List.forall_mem_cons] at h
    rw [List.cons_append, List.cons_merge_cons_neg _ _ _ h.1, ih h.2, List.cons_append]

theorem split_of_dropWhile {p : α → Bool} (h : xs.dropWhile p = a :: ys) :
    xs = xs.takeWhile p ++ a :: ys ∧ (∀ x ∈ xs.takeWhile p, p x) ∧ ¬ p a := by
  refine ⟨?_, fun x hx => List.mem_takeWhile_imp hx, ?_⟩
  · rw [← h, List.takeWhile_append_dropWhile]
  · have hhead := List.head_dropWhile_not p (l := xs) (by simp [h])
    simpa [h] using hhead

theorem merge_eq_append_iff (hb : b ∉ xs) :
    List.merge xs (b :: ds) le = xs ++ b :: ds ↔ ∀ x ∈ xs, le x b := by
  refine ⟨fun h => ?_, fun h => ?_⟩
  · induction xs with
    | nil => nofun
    | cons x xs ih =>
      rw [List.mem_cons, not_or] at hb
      by_cases hxb : le x b
      · rw [List.cons_merge_cons_pos _ _ _ hxb, List.cons_append, List.cons_inj_right] at h
        exact List.forall_mem_cons.mpr ⟨hxb, ih hb.2 h⟩
      · rw [List.cons_merge_cons_neg _ _ _ hxb, List.cons_append] at h
        exact absurd (List.cons_eq_cons.mp h).1 hb.1
  · have hbefore := @merge_before _ le b xs [] ds h
    rwa [List.append_nil, List.nil_merge] at hbefore

theorem merge_concat_right (h : ∀ x ∈ xs, le x b) :
    List.merge xs (ys ++ [b]) le = List.merge xs ys le ++ [b] := by
  induction xs generalizing ys with
  | nil => rw [List.nil_merge, List.nil_merge]
  | cons x xs ih =>
    rw [List.forall_mem_cons] at h
    induction ys with
    | nil =>
      rw [List.nil_append, List.merge_right, ← List.append_nil (x :: xs),
        merge_before (List.forall_mem_cons.mpr h), List.nil_merge]
      rw [List.append_nil]
    | cons y ys ihy =>
      by_cases hxy : le x y
      · rw [List.cons_append, List.cons_merge_cons_pos _ _ _ hxy,
          List.cons_merge_cons_pos _ _ _ hxy, ← List.cons_append, ih h.2, List.cons_append]
      · rw [List.cons_append, List.cons_merge_cons_neg _ _ _ hxy,
          List.cons_merge_cons_neg _ _ _ hxy, ihy, List.cons_append]

theorem merge_concat_left (h : ∀ y ∈ ys, ¬ le a y) :
    List.merge (xs ++ [a]) ys le = List.merge xs ys le ++ [a] := by
  induction xs generalizing ys with
  | nil =>
    have hbehind := @merge_behind _ le a [] ys [] h
    rw [List.append_nil, List.merge_right] at hbehind
    rw [List.nil_merge]
    exact hbehind
  | cons x xs ih =>
    induction ys with
    | nil => rw [List.merge_right, List.merge_right]
    | cons y ys ihy =>
      rw [List.forall_mem_cons] at h
      by_cases hxy : le x y
      · rw [List.cons_append, List.cons_merge_cons_pos _ _ _ hxy,
          List.cons_merge_cons_pos _ _ _ hxy, ih (List.forall_mem_cons.mpr h), List.cons_append]
      · rw [List.cons_append, List.cons_merge_cons_neg _ _ _ hxy,
          List.cons_merge_cons_neg _ _ _ hxy, ← List.cons_append, ihy h.2, List.cons_append]

theorem pairwise_merge_of (htrans : ∀ a b c, r a b → r b c → r a c) (hle : ∀ a b, le a b → r a b)
    (hnot : ∀ a b, ¬ le a b → r b a) (hxs : xs.Pairwise r) (hys : ys.Pairwise r) :
    (List.merge xs ys le).Pairwise r := by
  induction xs generalizing ys with
  | nil => rwa [List.nil_merge]
  | cons x xs ih =>
    rw [List.pairwise_cons] at hxs
    induction ys with
    | nil =>
      rw [List.merge_right]
      exact List.pairwise_cons.mpr hxs
    | cons y ys ihy =>
      rw [List.pairwise_cons] at hys
      by_cases hxy : le x y
      · rw [List.cons_merge_cons_pos _ _ _ hxy, List.pairwise_cons]
        refine ⟨fun c hc => ?_, ih hxs.2 (List.pairwise_cons.mpr hys)⟩
        rcases List.mem_merge.mp hc with hc | hc
        · exact hxs.1 c hc
        · rcases List.mem_cons.mp hc with rfl | hc
          · exact hle x c hxy
          · exact htrans x y c (hle x y hxy) (hys.1 c hc)
      · rw [List.cons_merge_cons_neg _ _ _ hxy, List.pairwise_cons]
        refine ⟨fun c hc => ?_, ihy hys.2⟩
        rcases List.mem_merge.mp hc with hc | hc
        · rcases List.mem_cons.mp hc with rfl | hc
          · exact hnot c y hxy
          · exact htrans y x c (hnot x y hxy) (hxs.1 c hc)
        · exact hys.1 c hc

end OrderedMerges
