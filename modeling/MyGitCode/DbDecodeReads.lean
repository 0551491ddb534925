import MyGitCode.DbEscapeBounds
import MyGitCode.LoopRuns
import MyGitCode.MarkedEntries

/-! # What `DecodeEscapeString` reads

At each `#` the loop copies five bytes of the input, wherever its NUL is. -/
namespace DbDecodeReads

open CBuffer DbEscape DbEscapeBounds LoopRuns MarkedEntries StrKit

structure InStr where
  text : List Char
  nul_not_mem : nul ∉ text
  behind : ℕ → Char

def InStr.byte (s : InStr) (k : ℕ) : Char := (s.text ++ [nul])[k]?.getD (s.behind k)

def InStr.inStrLen (s : InStr) : ℤ := (s.text.length : ℤ).bmod (2 ^ 32)

/-- At `outside` a byte was written outside the output, at `overflow` the index into the input
has passed the largest int. -/
inductive Point where
  | looping
  | outside
  | overflow
  | returned (code : ℤ)
  deriving DecidableEq, Repr

/-- The indices, the output, and which bytes of the input were read. -/
structure Machine (n : ℕ) where
  point : Point
  i : ℕ
  j : ℕ
  outbuf : Buffer n
  reads : List ℕ
  deriving DecidableEq

/-- `DecodeEscapeString` before its loop: strlen has read the string with its NUL. -/
def start {n : ℕ} (s : InStr) (outbuf : Buffer n) : Machine n :=
  if n = 0 then ⟨.returned (-1), 0, 0, outbuf, []⟩
  else ⟨.looping, 0, 0, zeroed n, List.range (s.text.length + 1)⟩

/-- `outbuf[j++] = c; i += k`. -/
def put {n : ℕ} (m : Machine n) (c : Char) (k : ℕ) : Machine n :=
  match memcpy m.outbuf m.j [c] with
  | none => { m with point := .outside }
  | some outbuf =>
    if intMax < m.i + k then { m with point := .overflow, j := m.j + 1, outbuf := outbuf }
    else { m with i := m.i + k, j := m.j + 1, outbuf := outbuf }

/-- The array `esc` with the five bytes that memcpy takes from the input. -/
def esc (s : InStr) (i : ℕ) : List Char := (List.range' i 5).map s.byte ++ [nul]

def step {n : ℕ} (s : InStr) (m : Machine n) : Option (Machine n) :=
  match m.point with
  | .looping =>
    if (m.i : ℤ) < s.inStrLen ∧ m.j < n - 1 then
      if s.byte m.i = '#' then
        let m := { m with reads := m.reads ++ List.range' m.i 5 }
        if cString (esc s m.i) 0 = escapeMark then some (put m '\'' 5)
        else some (put m (s.byte m.i) 1)
      else some (put { m with reads := m.reads ++ [m.i] } (s.byte m.i) 1)
    else some { m with point := .returned 0 }
  | .outside => none
  | .overflow => none
  | .returned _ => none

/-- The call ends, has read no more than the string with its NUL, has written inside the output,
and leaves a C string there. -/
def Safe {n : ℕ} (s : InStr) (outbuf : Buffer n) : Prop :=
  ∃ m, Ends (step s) (start s outbuf) m ∧ m.point = .returned 0 ∧
    (∀ k ∈ m.reads, k ≤ s.text.length) ∧ Terminated m.outbuf

/-- A `#` among the characters the loop counts, with room in the output behind what is before it,
a mark being one character there. -/
def Met (n : ℕ) (s : InStr) (k : ℕ) : Prop :=
  (k : ℤ) < s.inStrLen ∧ s.text[k]? = some '#' ∧
    k + 1 < n + 4 * Nat.count (At escapeMark s.text) k

/-- Each `#` that is met has three more characters behind it, and a mark ends at an int. -/
def Covered (n : ℕ) (s : InStr) : Prop :=
  ∀ k, Met n s k →
    k + 4 ≤ s.text.length ∧ (At escapeMark s.text k → k + 5 ≤ intMax)

variable {n i k : ℕ} {s : InStr} {m t : Machine n} {out : List Char}

theorem byte_of_lt (h : k < s.text.length) : s.byte k = s.text[k] := by
  have hlt : k < (s.text ++ [nul]).length := by
    rw [List.length_append]
    omega
  rw [InStr.byte, List.getElem?_eq_getElem hlt, Option.getD_some, List.getElem_append_left h]

theorem byte_length (s : InStr) : s.byte s.text.length = nul := by
  simp [InStr.byte]

theorem natCast_bmod_le (x m : ℕ) : (x : ℤ).bmod m ≤ x := by
  have hmod : (x : ℤ) % m ≤ x := by exact_mod_cast Nat.mod_le x m
  rw [Int.bmod]
  split
  · exact hmod
  · omega

theorem inStrLen_le (s : InStr) : s.inStrLen ≤ s.text.length := natCast_bmod_le _ _

theorem lt_length_of_lt (hi : (i : ℤ) < s.inStrLen) : i < s.text.length := by
  exact_mod_cast hi.trans_le (inStrLen_le s)

theorem inStrLen_le_intMax (s : InStr) : s.inStrLen ≤ intMax := by
  have h : s.inStrLen < 2 ^ 31 := Int.bmod_lt (by decide)
  rw [intMax]
  omega

theorem inStrLen_eq (h : s.text.length ≤ intMax) : s.inStrLen = s.text.length := by
  rw [intMax] at h
  exact Int.bmod_eq_of_le (by omega) (by omega)

theorem marked_escapeMark : Marked '#' escapeMark := ⟨_, rfl, by decide⟩

theorem window_eq_iff (hi : i < s.text.length) :
    (List.range' i 5).map s.byte = escapeMark ↔ At escapeMark s.text i := by
  have hlen : escapeMark.length = 5 := rfl
  rw [At, List.prefix_iff_eq_take, hlen]
  by_cases hin : i + 5 ≤ s.text.length
  · have hwindow : (List.range' i 5).map s.byte = (s.text.drop i).take 5 := by
      apply List.ext_getElem
      · simp only [List.length_map, List.length_range', List.length_take, List.length_drop]
        omega
      · intro d hd hd'
        rw [List.length_map, List.length_range'] at hd
        simp [byte_of_lt (show i + d < s.text.length by omega)]
    rw [hwindow, eq_comm]
  · refine iff_of_false ?_ ?_
    · intro hwindow
      have hmem : nul ∈ (List.range' i 5).map s.byte := by
        rw [List.mem_map]
        refine ⟨s.text.length, ?_, byte_length s⟩
        rw [List.mem_range'_1]
        omega
      rw [hwindow] at hmem
      exact absurd hmem (by decide)
    · intro htake
      have hshort := congrArg List.length htake
      rw [List.length_take, List.length_drop, hlen] at hshort
      omega

/-- strcmp finds the mark where the string has it: a NUL among the five bytes makes them differ,
whatever is behind it. -/
theorem esc_eq_iff (hi : i < s.text.length) :
    cString (esc s i) 0 = escapeMark ↔ At escapeMark s.text i := by
  rw [← window_eq_iff hi, esc]
  constructor
  · intro h
    obtain ⟨rest, hrest⟩ : escapeMark <+: (List.range' i 5).map s.byte ++ [nul] := by
      rw [← h]
      exact List.takeWhile_prefix _
    exact (List.append_inj hrest (by simp [escapeMark])).1.symm
  · intro h
    rw [h]
    decide

def width (s : InStr) (i : ℕ) : ℕ := if At escapeMark s.text i then 5 else 1

def decoded (s : InStr) (i : ℕ) : Char := if At escapeMark s.text i then '\'' else s.byte i

def looked (s : InStr) (i : ℕ) : List ℕ := if s.byte i = '#' then List.range' i 5 else [i]

theorem width_pos (s : InStr) (i : ℕ) : 0 < width s i := by
  rw [width]
  split <;> decide

theorem length_of_at (h : At escapeMark s.text i) : i + 5 ≤ s.text.length := by
  have hlen := List.IsPrefix.length_le h
  rw [List.length_drop, escapeMark, List.length_cons] at hlen
  simp only [List.length_cons, List.length_nil] at hlen
  omega

theorem width_within (hi : i < s.text.length) : i + width s i ≤ s.text.length := by
  rw [width]
  split
  · rename_i hat
    exact length_of_at hat
  · exact hi

theorem not_hash_between (hik : i < k) (hk : k < i + width s i) : s.text[k]? ≠ some '#' := by
  intro hhash
  rw [width] at hk
  split at hk
  · rename_i hat
    have hnext := marked_escapeMark.at_next hat hhash hik
    have hlen : escapeMark.length = 5 := rfl
    omega
  · omega

theorem count_width (s : InStr) (i : ℕ) :
    4 * Nat.count (At escapeMark s.text) (i + width s i) + 1 =
      4 * Nat.count (At escapeMark s.text) i + width s i := by
  rw [width]
  split
  · rename_i hat
    have hcount := marked_escapeMark.count_at hat
    rw [show escapeMark.length = 5 from rfl] at hcount
    omega
  · rename_i hat
    have hcount : Nat.count (At escapeMark s.text) (i + 1) = _ := Nat.count_succ _ i
    rw [if_neg hat] at hcount
    omega

theorem decodeLoop_width (hi : i < s.text.length) (hroom : out.length < n - 1) :
    decodeLoop n (s.text.drop i) out =
      decodeLoop n (s.text.drop (i + width s i)) (out ++ [decoded s i]) := by
  have hfull : ¬ n - 1 ≤ out.length := Nat.not_le_of_lt hroom
  rw [width, decoded]
  split
  · rename_i hat
    obtain ⟨rest, hrest⟩ := hat
    have hdrop : s.text.drop (i + 5) = rest := by
      rw [← List.drop_drop, ← hrest]
      rfl
    rw [hdrop, ← hrest]
    exact if_neg hfull
  · rename_i hat
    rw [byte_of_lt hi]
    rw [At, List.drop_eq_getElem_cons hi] at hat
    rw [List.drop_eq_getElem_cons hi, decodeLoop, if_neg hfull]
    rintro rest hc hrest
    apply hat
    rw [hc, hrest]
    exact ⟨rest, rfl⟩

theorem looked_inside_iff (hi : i < s.text.length) :
    (∀ k ∈ looked s i, k ≤ s.text.length) ↔
      (s.text[i]? = some '#' → i + 4 ≤ s.text.length) := by
  rw [List.getElem?_eq_getElem hi, Option.some_inj, ← byte_of_lt hi, looked]
  split
  · rename_i hhash
    constructor
    · intro h _
      apply h
      rw [List.mem_range'_1]
      omega
    · intro h k hk
      have hlast := h hhash
      rw [List.mem_range'_1] at hk
      omega
  · rename_i hhash
    refine iff_of_true ?_ fun h => absurd h hhash
    intro k hk
    rw [List.mem_singleton.mp hk]
    exact Nat.le_of_lt hi

theorem step_looping (hpoint : m.point = .looping) (hi : (m.i : ℤ) < s.inStrLen)
    (hj : m.j < n - 1) :
    step s m = some (put { m with reads := m.reads ++ looked s m.i } (decoded s m.i)
      (width s m.i)) := by
  have hlt := lt_length_of_lt hi
  have hesc := esc_eq_iff hlt
  simp only [step, hpoint, if_pos (And.intro hi hj), looked, decoded, width]
  by_cases hhash : s.byte m.i = '#'
  · simp only [if_pos hhash]
    by_cases hat : At escapeMark s.text m.i
    · simp only [if_pos hat, if_pos (hesc.mpr hat)]
    · simp only [if_neg hat, if_neg (fun h => hat (hesc.mp h))]
  · have hat : ¬ At escapeMark s.text m.i := by
      intro hat
      have hget := marked_escapeMark.at_head hat
      rw [List.getElem?_eq_getElem hlt, ← byte_of_lt hlt] at hget
      exact hhash (Option.some.inj hget)
    simp only [if_neg hhash, if_neg hat]

/-- Where the loop stands: the characters in the output, and what was read and passed for them. -/
structure Progress (s : InStr) (m : Machine n) (out : List Char) : Prop where
  within : m.i ≤ s.text.length
  index : m.j + 4 * Nat.count (At escapeMark s.text) m.i = m.i
  length : out.length = m.j
  room : m.j < n
  holds : Holds m.outbuf out
  same : decodeLoop n (s.text.drop m.i) out = decodeLoop n s.text []
  reads : (∀ k ∈ m.reads, k ≤ s.text.length) ↔
    ∀ k < m.i, Met n s k → k + 4 ≤ s.text.length
  marks : ∀ k < m.i, Met n s k → At escapeMark s.text k → k + 5 ≤ intMax

/-- The loop goes on, has ended with nothing more to be met, or met a mark too far. -/
inductive Sound (s : InStr) (m : Machine n) : Prop where
  | looping {out : List Char} : m.point = .looping → Progress s m out → Sound s m
  | returned {out : List Char} : m.point = .returned 0 → Progress s m out →
      (s.inStrLen ≤ m.i ∨ n ≤ m.j + 1) → Sound s m
  | overflow {k : ℕ} : m.point = .overflow → Met n s k → At escapeMark s.text k →
      intMax < k + 5 → Sound s m

def variant (s : InStr) (m : Machine n) : ℕ :=
  if m.point = .looping then s.text.length - m.i + 1 else 0

theorem progress_start (hn : 1 ≤ n) (outbuf : Buffer n) :
    (start s outbuf).point = .looping ∧ Progress s (start s outbuf) [] := by
  rw [start, if_neg (Nat.ne_of_gt hn)]
  refine ⟨rfl, ⟨Nat.zero_le _, rfl, rfl, hn, holds_zeroed, rfl, ?_, nofun⟩⟩
  refine iff_of_true ?_ nofun
  intro k hk
  exact Nat.le_of_lt_succ (List.mem_range.mp hk)

theorem Progress.met (h : Progress s m out) (hi : (m.i : ℤ) < s.inStrLen) (hj : m.j < n - 1) :
    Met n s m.i ↔ s.text[m.i]? = some '#' := by
  have hindex := h.index
  rw [Met, and_iff_right hi, and_iff_left]
  omega

theorem forall_met_width {P : ℕ → Prop} : (∀ k < i + width s i, Met n s k → P k) ↔
    (∀ k < i, Met n s k → P k) ∧ (Met n s i → P i) := by
  have hpos := width_pos s i
  constructor
  · intro h
    exact ⟨fun k hk => h k (by omega), h i (by omega)⟩
  · rintro ⟨hbefore, hhere⟩ k hk hmet
    rcases Nat.lt_trichotomy k i with hlt | rfl | hgt
    · exact hbefore k hlt hmet
    · exact hhere hmet
    · exact absurd hmet.2.1 (not_hash_between hgt hk)

theorem Progress.next {b : Buffer n} (h : Progress s m out) (hi : (m.i : ℤ) < s.inStrLen)
    (hj : m.j < n - 1) (hb : Holds b (out ++ [decoded s m.i])) (hmax : m.i + width s m.i ≤ intMax) :
    Progress s ⟨.looping, m.i + width s m.i, m.j + 1, b, m.reads ++ looked s m.i⟩
      (out ++ [decoded s m.i]) := by
  have hlt := lt_length_of_lt hi
  have hcount := count_width s m.i
  have hindex := h.index
  have hlength := h.length
  refine ⟨width_within hlt, ?_, ?_, ?_, hb, ?_, ?_, ?_⟩
  · show m.j + 1 + 4 * Nat.count _ (m.i + width s m.i) = m.i + width s m.i
    omega
  · rw [List.length_append, List.length_singleton, hlength]
  · show m.j + 1 < n
    omega
  · rw [← h.same]
    exact (decodeLoop_width hlt (hlength ▸ hj)).symm
  · rw [List.forall_mem_append, h.reads, looked_inside_iff hlt, ← h.met hi hj]
    exact forall_met_width.symm
  · refine forall_met_width.mpr ⟨h.marks, fun _ hat => ?_⟩
    rw [width, if_pos hat] at hmax
    exact hmax

theorem Progress.sound_put (h : Progress s m out) (hpoint : m.point = .looping)
    (hi : (m.i : ℤ) < s.inStrLen) (hj : m.j < n - 1) (hst : t =
      put { m with reads := m.reads ++ looked s m.i } (decoded s m.i) (width s m.i)) :
    Sound s t ∧ variant s t < variant s m := by
  have hlt := lt_length_of_lt hi
  have hvariant : variant s m = s.text.length - m.i + 1 := if_pos hpoint
  obtain ⟨b, hb, hholds⟩ := h.holds.memcpy [decoded s m.i] (by rw [h.length]; exact h.room)
  rw [h.length] at hb
  simp only [put, hb] at hst
  by_cases hmax : intMax < m.i + width s m.i
  · rw [if_pos hmax] at hst
    have hle := inStrLen_le_intMax s
    have hat : At escapeMark s.text m.i := by
      by_contra hat
      rw [width, if_neg hat] at hmax
      omega
    have hmet := (h.met hi hj).mpr (marked_escapeMark.at_head hat)
    rw [width, if_pos hat] at hmax
    subst hst
    exact ⟨.overflow rfl hmet hat hmax, hvariant ▸ Nat.succ_pos _⟩
  · rw [if_neg hmax] at hst
    have hnext := h.next hi hj hholds (Nat.le_of_not_lt hmax)
    rw [← hpoint] at hnext
    subst hst
    refine ⟨.looping hpoint hnext, ?_⟩
    have hpos := width_pos s m.i
    simp only [variant, if_pos hpoint]
    omega

theorem sound_step (hs : Sound s m) (hst : step s m = some t) :
    Sound s t ∧ variant s t < variant s m := by
  cases hs with
  | looping hpoint hprog =>
    by_cases hgo : (m.i : ℤ) < s.inStrLen ∧ m.j < n - 1
    · rw [step_looping hpoint hgo.1 hgo.2, Option.some_inj] at hst
      exact hprog.sound_put hpoint hgo.1 hgo.2 hst.symm
    · simp only [step, hpoint, if_neg hgo, Option.some_inj] at hst
      subst hst
      have hroom := hprog.room
      have hend : s.inStrLen ≤ m.i ∨ n ≤ m.j + 1 := by omega
      refine ⟨.returned rfl { hprog with } hend, ?_⟩
      simp only [variant, if_pos hpoint]
      exact Nat.succ_pos _
  | returned hpoint => simp [step, hpoint] at hst
  | overflow hpoint => simp [step, hpoint] at hst

theorem not_looping_of_stopped (h : step s m = none) : m.point ≠ .looping := by
  intro hpoint
  simp only [step, hpoint] at h
  repeat' split at h
  all_goals cases h

theorem ends_sound (hn : 1 ≤ n) (s : InStr) (outbuf : Buffer n) :
    ∃ t, Ends (step s) (start s outbuf) t ∧ Sound s t ∧ t.point ≠ .looping := by
  have hstart : Sound s (start s outbuf) :=
    .looping (progress_start hn outbuf).1 (progress_start hn outbuf).2
  obtain ⟨t, ht⟩ := exists_ends (variant s) (fun _ _ => sound_step) hstart
  have hsound := ht.invariant (fun _ _ hs hst => (sound_step hs hst).1) hstart
  exact ⟨t, ht, hsound, not_looping_of_stopped ht.stopped⟩

theorem Progress.lt_of_met (h : Progress s m out) (hend : s.inStrLen ≤ m.i ∨ n ≤ m.j + 1)
    (hmet : Met n s k) : k < m.i := by
  by_contra hle
  obtain ⟨hk, hhash, hroom⟩ := hmet
  have hcount : 4 * Nat.count _ k + m.i ≤ 4 * Nat.count _ m.i + k :=
    marked_escapeMark.count_le rfl hhash (Nat.le_of_not_lt hle)
  have hindex := h.index
  rcases hend with hend | hend <;> omega

theorem Progress.reads_inside_iff (h : Progress s m out)
    (hend : s.inStrLen ≤ m.i ∨ n ≤ m.j + 1) :
    (∀ k ∈ m.reads, k ≤ s.text.length) ↔ Covered n s := by
  rw [h.reads]
  constructor
  · intro hreads k hmet
    have hlt := h.lt_of_met hend hmet
    exact ⟨hreads k hlt hmet, h.marks k hlt hmet⟩
  · intro hcovered k _ hmet
    exact (hcovered k hmet).1

theorem Covered.safe (hn : 1 ≤ n) (h : Covered n s) (outbuf : Buffer n) : Safe s outbuf := by
  obtain ⟨t, ht, hsound, hstop⟩ := ends_sound hn s outbuf
  cases hsound with
  | looping hpoint => exact absurd hpoint hstop
  | returned hpoint hprog hend =>
    refine ⟨t, ht, hpoint, (hprog.reads_inside_iff hend).mpr h, hprog.holds.terminated ?_⟩
    rw [hprog.length]
    exact hprog.room
  | overflow _ hmet hat hmax => exact absurd ((h _ hmet).2 hat) (Nat.not_le_of_lt hmax)

theorem Safe.covered {outbuf : Buffer n} (hn : 1 ≤ n) (h : Safe s outbuf) : Covered n s := by
  obtain ⟨t, ht, hsound, -⟩ := ends_sound hn s outbuf
  obtain ⟨u, hu, hreturned, hreads, -⟩ := h
  obtain rfl := ht.unique hu
  cases hsound with
  | looping hpoint => exact absurd (hpoint.symm.trans hreturned) nofun
  | returned _ hprog hend => exact (hprog.reads_inside_iff hend).mp hreads
  | overflow hpoint => exact absurd (hpoint.symm.trans hreturned) nofun

theorem covered_iff (hfit : s.text.length ≤ intMax) : Covered n s ↔
    ∀ k, s.text[k]? = some '#' → k + 1 < n + 4 * Nat.count (At escapeMark s.text) k →
      k + 4 ≤ s.text.length := by
  constructor
  · intro h k hhash hroom
    obtain ⟨hlt, -⟩ := List.getElem?_eq_some_iff.mp hhash
    refine (h k ⟨?_, hhash, hroom⟩).1
    rw [inStrLen_eq hfit]
    exact_mod_cast hlt
  · rintro h k ⟨-, hhash, hroom⟩
    exact ⟨h k hhash hroom, fun hat => (length_of_at hat).trans hfit⟩

theorem decodeLoop_full (h : n - 1 ≤ out.length) (text : List Char) :
    decodeLoop n text out = out := by
  fun_cases decodeLoop n text out with
  | case1 => rfl
  | case2 => rfl
  | case3 => contradiction
  | case4 => rfl
  | case5 => contradiction

/-- Whatever is behind the NUL, the output is that of the string alone. -/
theorem decode_output (hn : 1 ≤ n) (s : InStr) (hfit : s.text.length ≤ intMax)
    (outbuf : Buffer n) : ∃ t, Ends (step s) (start s outbuf) t ∧ t.point = .returned 0 ∧
      decodeEscapeStringInto s.text outbuf = some (0, t.outbuf) := by
  obtain ⟨t, ht, hsound, hstop⟩ := ends_sound hn s outbuf
  cases hsound with
  | looping hpoint => exact absurd hpoint hstop
  | @returned out hpoint hprog hend =>
    refine ⟨t, ht, hpoint, ?_⟩
    obtain ⟨b, hb, hholds, -⟩ := decodeEscapeStringInto_holds hn outbuf s.text
    have hdone : decodeLoop n (s.text.drop t.i) out = out := by
      have hlength := hprog.length
      rcases hend with hend | hend
      · rw [inStrLen_eq hfit] at hend
        rw [List.drop_eq_nil_of_le (by omega), decodeLoop]
      · exact decodeLoop_full (by omega) _
    have hout := hprog.holds
    rw [← hdone, hprog.same] at hout
    have hsame : b = t.outbuf := Buffer.ext (hholds.trans hout.symm)
    rw [hb, hsame]
  | overflow _ _ hat hmax =>
    have hlen := length_of_at hat
    omega

/-- A call keeps to its input exactly when each `#` that is met is followed by three characters. -/
theorem safe_iff_covered (n : ℕ) (hn : 1 ≤ n) (s : InStr) (outbuf : Buffer n) :
    Safe s outbuf ↔ Covered n s :=
  ⟨fun h => h.covered hn, fun h => h.safe hn outbuf⟩

def markedText : InStr := ⟨"it#39$&s".toList, by decide, fun _ => nul⟩

theorem marked_text_safe : Safe markedText (zeroed 256) := by
  refine (safe_iff_covered 256 (by decide) _ _).mpr ((covered_iff (by decide)).mpr ?_)
  intro k hhash _
  have hall : ∀ k < 8, "it#39$&s".toList[k]? = some '#' → k + 4 ≤ 8 := by decide
  obtain ⟨hlt, -⟩ := List.getElem?_eq_some_iff.mp hhash
  exact hall k hlt hhash

def hashText : InStr := ⟨"#".toList, by decide, fun _ => nul⟩

/-- Three bytes behind the NUL of the string are read. -/
theorem hash_reads_behind : ¬ Safe hashText (zeroed 256) := by
  intro h
  have hcovered := (covered_iff (by decide)).mp (h.covered (by decide))
  exact absurd (hcovered 0 rfl (by decide)) (by decide)

end DbDecodeReads
