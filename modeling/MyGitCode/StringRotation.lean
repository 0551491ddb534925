import MyGitCode.LoopRuns
import MyGitCode.StrKit
import Mathlib.Data.List.Rotate

/-! # The right rotation of a string, mark_program/loop_right_string.c

The copy is built in memory that malloc gives as it is, and every byte of it knows whether the
function has written it. -/
namespace StringRotation

open LoopRuns StrKit

structure Cell where
  byte : Char
  written : Bool
  deriving DecidableEq, Repr

inductive Point where
  | copyLast
  | copyFirst
  | copyBack
  | outside
  | returned
  deriving DecidableEq, Repr

/-- The bytes of the string with its NUL, the copy, and the pointers as indices. In `stale` are
the bytes of the copy that were read before they were written. -/
structure Machine where
  point : Point
  src : List Char
  copy : List Cell
  n : ℤ
  offset : ℤ
  p : ℕ
  q : ℤ
  d : ℕ
  back : ℕ
  stale : List ℕ
  deriving DecidableEq, Repr

/-- `circular_arr` before its loops; `fill` is what malloc leaves in the copy. -/
def start (text fill : List Char) (n : ℤ) : Machine where
  point := .copyLast
  src := text ++ [nul]
  copy := fill.map fun c => ⟨c, false⟩
  n := n
  offset := text.length - n
  p := 0
  q := text.length - n
  d := 0
  back := 0
  stale := []

def readSrc (s : Machine) (i : ℤ) : Option Char := if 0 ≤ i then s.src[i.toNat]? else none

/-- `*p++ = c`. -/
def push (s : Machine) (c : Char) : Machine :=
  if s.p < s.copy.length then { s with copy := s.copy.set s.p ⟨c, true⟩, p := s.p + 1 }
  else { s with point := .outside }

def step (s : Machine) : Option Machine :=
  match s.point with
  | .copyLast =>
    if s.n = 0 then some { s with point := .copyFirst, n := s.n - 1 }
    else match readSrc s s.q with
      | some c => some (push { s with n := s.n - 1, q := s.q + 1 } c)
      | none => some { s with point := .outside }
  | .copyFirst =>
    if s.offset = 0 then some { s with point := .copyBack, offset := s.offset - 1 }
    else match readSrc s s.d with
      | some c => some (push { s with offset := s.offset - 1, d := s.d + 1 } c)
      | none => some { s with point := .outside }
  | .copyBack =>
    match s.copy[s.back]? with
    | some cell =>
      let stale := if cell.written then s.stale else s.stale ++ [s.back]
      if s.back < s.src.length then
        some { s with
          point := if cell.byte = nul then .returned else .copyBack
          src := s.src.set s.back cell.byte
          back := s.back + 1
          stale := stale }
      else some { s with point := .outside, stale := stale }
    | none => some { s with point := .outside }
  | .outside => none
  | .returned => none

/-- The last `n` characters, followed by the others. -/
def rotated (text : List Char) (n : ℕ) : List Char :=
  text.drop (text.length - n) ++ text.take (text.length - n)

def filled (w fill : List Char) : List Cell :=
  w.map (fun c => ⟨c, true⟩) ++ (fill.drop w.length).map (fun c => ⟨c, false⟩)

variable {text fill w : List Char} {n m k : ℕ} {s t u : Machine} {c : Char}

theorem rotated_eq : rotated text n = text.rotate (text.length - n) :=
  (List.rotate_eq_drop_append_take (Nat.sub_le text.length n)).symm

theorem length_rotated : (rotated text n).length = text.length := by
  rw [rotated_eq, List.length_rotate]

theorem rotated_rotated (h : n + m ≤ text.length) :
    rotated (rotated text n) m = rotated text (n + m) := by
  have hsum : text.length - n + (text.length - m) = text.length + (text.length - (n + m)) := by
    omega
  rw [rotated_eq, length_rotated, rotated_eq, List.rotate_rotate, hsum, ← List.rotate_rotate,
    List.rotate_length, rotated_eq]

theorem nul_not_mem_rotated (h : nul ∉ text) : nul ∉ rotated text n := by
  intro hmem
  rcases List.mem_append.mp hmem with hmem | hmem
  · exact h (List.mem_of_mem_drop hmem)
  · exact h (List.mem_of_mem_take hmem)

theorem length_filled (h : w.length ≤ fill.length) : (filled w fill).length = fill.length := by
  simp only [filled, List.length_append, List.length_map, List.length_drop]
  omega

theorem set_filled (h : w.length < fill.length) :
    (filled w fill).set w.length ⟨c, true⟩ = filled (w ++ [c]) fill := by
  have hdrop : fill.drop w.length = fill[w.length] :: fill.drop (w.length + 1) :=
    List.drop_eq_getElem_cons h
  simp only [filled, hdrop, List.map_cons, List.map_append, List.map_nil, List.length_append,
    List.length_singleton, List.append_assoc, List.singleton_append]
  rw [List.set_append_right _ _ (Nat.le_of_eq (List.length_map _)), List.length_map, Nat.sub_self,
    List.set_cons_zero]

theorem getElem?_filled_lt (h : k < w.length) :
    (filled w fill)[k]? = some ⟨w[k], true⟩ := by
  rw [filled, List.getElem?_append_left (by simpa using h), List.getElem?_map,
    List.getElem?_eq_getElem h]
  rfl

theorem getElem?_filled_length :
    (filled w fill)[w.length]? = (fill[w.length]?).map fun c => ⟨c, false⟩ := by
  rw [filled, List.getElem?_append_right (Nat.le_of_eq (List.length_map _)), List.length_map,
    Nat.sub_self, List.getElem?_map, List.getElem?_drop, Nat.add_zero]

/-- The machine while it builds the copy, `w` being written. -/
def copying (point : Point) (text fill w : List Char) (n offset q : ℤ) (d : ℕ) : Machine where
  point := point
  src := text ++ [nul]
  copy := filled w fill
  n := n
  offset := offset
  p := w.length
  q := q
  d := d
  back := 0
  stale := []

theorem readSrc_natCast : readSrc s k = s.src[k]? := by
  rw [readSrc, if_pos (Int.natCast_nonneg k), Int.toNat_natCast]

theorem readSrc_copying {point : Point} {n offset q : ℤ} {d : ℕ} (h : m < text.length) :
    readSrc (copying point text fill w n offset q d) m = some text[m] := by
  rw [readSrc_natCast, copying, List.getElem?_append_left h, List.getElem?_eq_getElem h]

theorem push_copying {point : Point} {n offset q : ℤ} {d : ℕ} (h : w.length < fill.length) :
    push (copying point text fill w n offset q d) c =
      copying point text fill (w ++ [c]) n offset q d := by
  have hlen : w.length < (filled w fill).length := by
    rw [length_filled (Nat.le_of_lt h)]
    exact h
  rw [push, copying, if_pos hlen, set_filled h, copying, List.length_append,
    List.length_singleton]

theorem take_drop_succ (h : m < text.length) :
    w ++ (text.drop m).take (k + 1) = w ++ [text[m]] ++ (text.drop (m + 1)).take k := by
  rw [List.drop_eq_getElem_cons h, List.take_succ_cons, List.append_assoc, List.singleton_append]

theorem step_copyLast (hpoint : s.point = .copyLast) (hn : s.n ≠ 0)
    (hread : readSrc s s.q = some c) :
    step s = some (push { s with n := s.n - 1, q := s.q + 1 } c) := by
  simp only [step, hpoint, if_neg hn, hread]

theorem step_copyFirst (hpoint : s.point = .copyFirst) (hoffset : s.offset ≠ 0)
    (hread : readSrc s s.d = some c) :
    step s = some (push { s with offset := s.offset - 1, d := s.d + 1 } c) := by
  simp only [step, hpoint, if_neg hoffset, hread]

theorem copyLast_next {offset : ℤ} {d : ℕ} (hfit : w.length < fill.length)
    (hm : m < text.length) :
    step (copying .copyLast text fill w (k + 1 : ℕ) offset m d) =
      some (copying .copyLast text fill (w ++ [text[m]]) k offset (m + 1 : ℕ) d) := by
  have hne : ((k + 1 : ℕ) : ℤ) ≠ 0 := by omega
  have hk : ((k + 1 : ℕ) : ℤ) - 1 = k := by omega
  have hpush : push (copying .copyLast text fill w k offset (m + 1 : ℕ) d) text[m] =
      copying .copyLast text fill (w ++ [text[m]]) k offset (m + 1 : ℕ) d := push_copying hfit
  rw [step_copyLast (s := copying .copyLast text fill w (k + 1 : ℕ) offset m d) rfl hne
    (readSrc_copying hm), ← hpush, ← hk]
  rfl

theorem copyFirst_next {n q : ℤ} (hfit : w.length < fill.length) (hm : m < text.length) :
    step (copying .copyFirst text fill w n (k + 1 : ℕ) q m) =
      some (copying .copyFirst text fill (w ++ [text[m]]) n k q (m + 1)) := by
  have hne : ((k + 1 : ℕ) : ℤ) ≠ 0 := by omega
  have hk : ((k + 1 : ℕ) : ℤ) - 1 = k := by omega
  have hpush : push (copying .copyFirst text fill w n k q (m + 1)) text[m] =
      copying .copyFirst text fill (w ++ [text[m]]) n k q (m + 1) := push_copying hfit
  rw [step_copyFirst (s := copying .copyFirst text fill w n (k + 1 : ℕ) q m) rfl hne
    (readSrc_copying hm), ← hpush, ← hk]
  rfl

theorem copyLast_ends {offset : ℤ} {d : ℕ} (hfit : w.length + k ≤ fill.length)
    (htext : m + k ≤ text.length)
    (hrest : Ends step (copying .copyFirst text fill (w ++ (text.drop m).take k) (-1) offset
      (m + k : ℕ) d) u) :
    Ends step (copying .copyLast text fill w k offset m d) u := by
  induction k generalizing w m with
  | zero =>
    rw [List.take_zero, List.append_nil] at hrest
    exact .next rfl hrest
  | succ k ih =>
    have hm : m < text.length := by omega
    refine .next (copyLast_next (by omega) hm) (ih ?_ ?_ ?_)
    · rw [List.length_append, List.length_singleton]
      omega
    · omega
    · rw [take_drop_succ hm, ← Nat.add_assoc, Nat.add_right_comm] at hrest
      exact hrest

theorem copyFirst_ends {n q : ℤ} (hfit : w.length + k ≤ fill.length) (htext : m + k ≤ text.length)
    (hrest : Ends step (copying .copyBack text fill (w ++ (text.drop m).take k) n (-1) q (m + k))
      u) :
    Ends step (copying .copyFirst text fill w n k q m) u := by
  induction k generalizing w m with
  | zero =>
    rw [List.take_zero, List.append_nil] at hrest
    exact .next rfl hrest
  | succ k ih =>
    have hm : m < text.length := by omega
    refine .next (copyFirst_next (by omega) hm) (ih ?_ ?_ ?_)
    · rw [List.length_append, List.length_singleton]
      omega
    · omega
    · rw [take_drop_succ hm, ← Nat.add_assoc, Nat.add_right_comm] at hrest
      exact hrest

/-- The machine while strcpy runs, the first bytes of the string being replaced. -/
def copyingBack (s : Machine) (w : List Char) (back : ℕ) : Machine :=
  { s with src := w.take back ++ s.src.drop back, back := back }

theorem set_take_drop {l : List Char} (hw : k < w.length) (hl : k < l.length) :
    (w.take k ++ l.drop k).set k w[k] = w.take (k + 1) ++ l.drop (k + 1) := by
  have htake : (w.take k).length = k := List.length_take_of_le (Nat.le_of_lt hw)
  rw [List.set_append_right _ _ (Nat.le_of_eq htake), htake, Nat.sub_self,
    List.drop_eq_getElem_cons hl, List.set_cons_zero, List.take_succ_eq_append_getElem hw,
    List.append_assoc, List.singleton_append]

theorem copyBack_next (hpoint : s.point = .copyBack) (hcopy : s.copy = filled w fill)
    (hw : nul ∉ w) (hk : k < w.length) (hsrc : w.length ≤ s.src.length) :
    step (copyingBack s w k) = some (copyingBack s w (k + 1)) := by
  have hcell : (copyingBack s w k).copy[k]? = some ⟨w[k], true⟩ := by
    show s.copy[k]? = _
    rw [hcopy, getElem?_filled_lt hk]
  have hne : w[k] ≠ nul := fun h => hw (h ▸ List.getElem_mem hk)
  have hlen : k < (w.take k ++ s.src.drop k).length := by
    simp only [List.length_append, List.length_take, List.length_drop]
    omega
  have hset := set_take_drop (l := s.src) hk (Nat.lt_of_lt_of_le hk hsrc)
  simp only [step, copyingBack, hpoint] at hcell ⊢
  simp only [hcell, if_pos hlen, if_neg hne, if_true, hset]

theorem copyBack_ends (hpoint : s.point = .copyBack) (hcopy : s.copy = filled w fill)
    (hw : nul ∉ w) (hsrc : w.length ≤ s.src.length) (hk : k ≤ w.length)
    (hrest : Ends step (copyingBack s w w.length) u) :
    Ends step (copyingBack s w (w.length - k)) u := by
  induction k with
  | zero => exact hrest
  | succ k ih =>
    have hnext : w.length - (k + 1) + 1 = w.length - k := by omega
    have hstep := copyBack_next (k := w.length - (k + 1)) hpoint hcopy hw (by omega) hsrc
    rw [hnext] at hstep
    exact .next hstep (ih (Nat.le_of_succ_le hk))

/-- Behind the last byte that was written, strcpy reads the one that malloc left, and goes on
unless that is a NUL. -/
theorem copyBack_last (hpoint : s.point = .copyBack) (hcopy : s.copy = filled w fill)
    (hfill : fill.length = w.length + 1) (hsrc : s.src.length = w.length + 1)
    (hc : fill[w.length]? = some c) (hstale : s.stale = []) :
    ∃ t, Ends step (copyingBack s w w.length) t ∧ t.stale = [w.length] ∧ t.src = w ++ [c] ∧
      t.point = if c = nul then .returned else .outside := by
  have hcell : s.copy[w.length]? = some ⟨c, false⟩ := by
    rw [hcopy, getElem?_filled_length, hc]
    rfl
  have hend : s.copy[w.length + 1]? = none := by
    rw [List.getElem?_eq_none_iff, hcopy, length_filled (by omega), hfill]
  have hone : (s.src.drop w.length).length = 1 := by
    rw [List.length_drop, hsrc, Nat.add_sub_cancel_left]
  obtain ⟨b, hb⟩ := List.length_eq_one_iff.mp hone
  have hlen : w.length < (w ++ [b]).length := by simp
  have hset : (w ++ [b]).set w.length c = w ++ [c] := by simp
  by_cases hnul : c = nul
  · refine ⟨{ s with
        point := .returned
        src := w ++ [c]
        back := w.length + 1
        stale := [w.length] }, ?_, rfl, rfl, (if_pos hnul).symm⟩
    refine .next ?_ (.stop rfl)
    simp only [step, copyingBack, hpoint, hcell, List.take_length, hb, if_pos hlen, if_pos hnul,
      hset, hstale]
    rfl
  · refine ⟨{ s with
        point := .outside
        src := w ++ [c]
        back := w.length + 1
        stale := [w.length] }, ?_, rfl, rfl, (if_neg hnul).symm⟩
    have hstep : step (copyingBack s w w.length) = some { s with
        src := w ++ [c]
        back := w.length + 1
        stale := [w.length] } := by
      simp only [step, copyingBack, hpoint, hcell, List.take_length, hb, if_pos hlen, if_neg hnul,
        hset, hstale]
      rfl
    refine .next hstep (.next ?_ (.stop rfl))
    simp only [step, hpoint, hend]

theorem start_eq (h : n ≤ text.length) : start text fill n =
    copying .copyLast text fill [] n (text.length - n : ℕ) (text.length - n : ℕ) 0 := by
  have hsub : (text.length : ℤ) - n = (text.length - n : ℕ) := by omega
  rw [start, hsub]
  simp only [copying, filled, List.map_nil, List.length_nil, List.drop_zero, List.nil_append]

theorem circular_arr_ends (hnul : nul ∉ text) (h : n ≤ text.length)
    (hfill : fill.length = text.length + 1) (hc : fill[text.length]? = some c) :
    ∃ t, Ends step (start text fill n) t ∧ t.stale = [text.length] ∧
      t.src = rotated text n ++ [c] ∧ t.point = if c = nul then .returned else .outside := by
  have hlast : (text.drop (text.length - n)).take n = text.drop (text.length - n) := by
    apply List.take_of_length_le
    rw [List.length_drop]
    omega
  let built := copying .copyBack text fill (rotated text n) (-1) (-1)
    (text.length - n + n : ℕ) (0 + (text.length - n))
  have hlen : (rotated text n).length = text.length := length_rotated
  have hsrc : built.src.length = (rotated text n).length + 1 := by
    rw [hlen]
    exact List.length_append
  rw [← hlen] at hfill hc
  obtain ⟨t, ht, hstale, hout⟩ := copyBack_last (s := built) rfl rfl hfill hsrc hc rfl
  rw [hlen] at hstale
  refine ⟨t, ?_, hstale, hout⟩
  rw [start_eq h]
  apply copyLast_ends
  · simp only [List.length_nil]
    omega
  · omega
  · rw [List.nil_append, hlast]
    apply copyFirst_ends
    · rw [hlen] at hfill
      simp only [List.length_drop]
      omega
    · omega
    · have hback := copyBack_ends (k := (rotated text n).length) (s := built) rfl rfl
        (nul_not_mem_rotated hnul) (by omega) (Nat.le_refl _) ht
      rw [Nat.sub_self] at hback
      exact hback

/-- What the comment of `circular_arr` promises of its argument. -/
def Rotates (text fill : List Char) (n : ℕ) : Prop :=
  ∃ t, Ends step (start text fill n) t ∧ t.point = .returned ∧ t.src = rotated text n ++ [nul]

def RotatesClean (text fill : List Char) (n : ℕ) : Prop :=
  ∃ t, Ends step (start text fill n) t ∧ t.point = .returned ∧ t.src = rotated text n ++ [nul] ∧
    t.stale = []

theorem rotates_iff (hnul : nul ∉ text) (h : n ≤ text.length)
    (hfill : fill.length = text.length + 1) :
    Rotates text fill n ↔ fill[text.length]? = some nul := by
  obtain ⟨c, hc⟩ : ∃ c, fill[text.length]? = some c :=
    ⟨_, List.getElem?_eq_getElem (by omega)⟩
  obtain ⟨t, ht, -, hsrc, hpoint⟩ := circular_arr_ends hnul h hfill hc
  constructor
  · intro hrot
    obtain ⟨u, hu, hret, -⟩ := hrot
    obtain rfl := ht.unique hu
    by_cases hn : c = nul
    · rw [hc, hn]
    · rw [hpoint, if_neg hn] at hret
      cases hret
  · intro hn
    obtain rfl := Option.some_inj.mp (hc.symm.trans hn)
    exact ⟨t, ht, hpoint, hsrc⟩

theorem not_rotatesClean (hnul : nul ∉ text) (h : n ≤ text.length)
    (hfill : fill.length = text.length + 1) : ¬ RotatesClean text fill n := by
  obtain ⟨t, ht, hstale, -⟩ :=
    circular_arr_ends hnul h hfill (List.getElem?_eq_getElem (by omega))
  intro hclean
  obtain ⟨u, hu, -, -, hempty⟩ := hclean
  obtain rfl := ht.unique hu
  rw [hstale] at hempty
  cases hempty

/-- No call keeps to bytes it has written; the string is rotated exactly where malloc left a NUL
behind the copy, and then a second rotation adds to the first. -/
theorem no_clean_rotation (text fill : List Char) (n : ℕ) (hnul : nul ∉ text)
    (hn : n ≤ text.length) (hfill : fill.length = text.length + 1) :
    ¬ RotatesClean text fill n ∧
    (Rotates text fill n ↔ fill[text.length]? = some nul) ∧
    ∀ m, n + m ≤ text.length → rotated (rotated text n) m = rotated text (n + m) :=
  ⟨not_rotatesClean hnul hn hfill, rotates_iff hnul hn hfill, fun _ => rotated_rotated⟩

theorem rotation_over_zeros :
    Rotates "abcdefghi".toList (List.replicate 10 nul) 2 ∧
      rotated "abcdefghi".toList 2 = "hiabcdefg".toList :=
  ⟨(no_clean_rotation "abcdefghi".toList (List.replicate 10 nul) 2 (by decide) (by decide)
    (by decide)).2.1.mpr (by decide), by decide⟩

/-- The call of `main`, with memory that malloc returns as it was: byte 9 of the copy is read
although it was never written, and where it is not a NUL strcpy leaves the copy. -/
theorem rotation_reads_unwritten :
    ¬ RotatesClean "abcdefghi".toList (List.replicate 10 nul) 2 ∧
    ¬ Rotates "abcdefghi".toList (List.replicate 10 'x') 2 := by
  constructor
  · exact not_rotatesClean (by decide) (by decide) (by decide)
  · rw [rotates_iff (by decide) (by decide) (by decide)]
    decide

end StringRotation
