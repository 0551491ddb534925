import Mathlib.Algebra.Group.Nat.Defs
import Mathlib.Algebra.Ring.Int.Defs
import MyGitCode.DelimitedRuns
import MyGitCode.StrKit

/-! # What `StrKit::split` returns

`split` as it runs alone, with every access checked against its buffer, the stack it copies the
string to, and the `int` that the size of the string is compared as. -/
namespace StrSplit

open DelimitedRuns StrKit

def int (x : ℤ) : ℤ := x.bmod (2 ^ 32)

/-- The C string at a position, which has none where it would run out of the buffer. -/
def stringAt (buf : List Char) (pos : ℕ) : Option (List Char) :=
  if nul ∈ buf.drop pos then some (cString buf pos) else none

def loop (delim : List Char) (size : ℕ) (buf : List Char) (pos : ℕ) (limit : ℤ)
    (strv : List (List Char)) : Option (List (List Char)) :=
  match _h : strtok buf delim pos with
  | none => none
  | some r =>
    match _ht : r.token with
    | none => some strv
    | some token =>
      match stringAt r.buf token with
      | none => none
      | some part =>
        let stop := token + part.length
        if int (limit - 1) = 0 ∧ (stop : ℤ) < int size then
          (stringAt r.buf (stop + 1)).map fun rest => strv ++ [trim part] ++ [trim rest]
        else loop delim size r.buf r.saved (int (limit - 1)) (strv ++ [trim part])
termination_by buf.length - pos
decreasing_by
  have := strtok_token _h _ht
  omega

/-- There is no result where the copy is larger than what is left of the stack, or where an
access would lie outside it. -/
def split (stack : ℕ) (str delim : List Char) (limit : ℤ) : Option (List (List Char)) :=
  if str.length + 1 ≤ stack then loop delim str.length (str ++ [nul]) 0 limit [] else none

section
variable {delim buf s : List Char} {pos : ℕ}

structure Rest (delim buf : List Char) (pos : ℕ) (s : List Char) : Prop where
  text : buf.drop pos = s ++ [nul]
  nonul : nul ∉ s
  delims : nul ∉ delim

def start (delim : List Char) (pos : ℕ) (s : List Char) : ℕ :=
  pos + (s.takeWhile delim.contains).length

def stop (delim : List Char) (pos : ℕ) (s : List Char) : ℕ :=
  start delim pos s + (run delim.contains s).length

theorem stop_add_length_after (delim : List Char) (pos : ℕ) (s : List Char) :
    stop delim pos s + (after delim.contains s).length = pos + s.length := by
  have hs : s.takeWhile delim.contains ++ run delim.contains s ++ after delim.contains s = s :=
    takeWhile_append_run_append_after
  have h := congrArg List.length hs
  simp only [List.length_append] at h
  simp only [stop, start]
  omega

theorem Rest.span_delims (h : Rest delim buf pos s) :
    pos + span delim.contains buf pos = start delim pos s := by
  rw [span, h.text, takeWhile_append_stop [] (by simpa using h.delims), start]

theorem Rest.drop_start (h : Rest delim buf pos s) :
    buf.drop (start delim pos s) = s.dropWhile delim.contains ++ [nul] := by
  have htext : buf.drop pos =
      s.takeWhile delim.contains ++ (s.dropWhile delim.contains ++ [nul]) := by
    rw [h.text, ← List.append_assoc, List.takeWhile_append_dropWhile]
  rw [start, ← List.drop_drop, htext, List.drop_left]

theorem takeWhile_inToken (h : nul ∉ s) :
    s.takeWhile (inToken delim) = s.takeWhile fun c => !delim.contains c := by
  induction s with
  | nil => rfl
  | cons c s ih =>
    have hc : c ≠ nul := by
      rintro rfl
      exact h List.mem_cons_self
    rw [List.takeWhile_cons, List.takeWhile_cons, ih fun hs => h (List.mem_cons_of_mem _ hs)]
    simp [inToken, hc]

theorem Rest.nul_not_mem_dropWhile (h : Rest delim buf pos s) :
    nul ∉ s.dropWhile delim.contains :=
  fun hs => h.nonul ((List.dropWhile_suffix _).subset hs)

theorem Rest.nul_not_mem_run (h : Rest delim buf pos s) : nul ∉ run delim.contains s :=
  fun hs => h.nul_not_mem_dropWhile ((List.takeWhile_prefix _).subset hs)

theorem Rest.nul_not_mem_after (h : Rest delim buf pos s) : nul ∉ after delim.contains s :=
  fun hs => h.nul_not_mem_dropWhile ((List.dropWhile_suffix _).subset hs)

theorem Rest.span_token (h : Rest delim buf pos s) :
    start delim pos s + span (inToken delim) buf (start delim pos s) = stop delim pos s := by
  rw [span, h.drop_start, takeWhile_append_stop [] (by simp [inToken]),
    takeWhile_inToken h.nul_not_mem_dropWhile]
  rfl

theorem Rest.drop_run (h : Rest delim buf pos s) : buf.drop (start delim pos s) =
    run delim.contains s ++ (after delim.contains s ++ [nul]) := by
  rw [h.drop_start, ← run_append_after, List.append_assoc]

theorem Rest.drop_stop (h : Rest delim buf pos s) :
    buf.drop (stop delim pos s) = after delim.contains s ++ [nul] := by
  rw [stop, ← List.drop_drop, h.drop_run, List.drop_left]

theorem getElem?_of_drop {l t : List Char} {i : ℕ} {c : Char} (h : l.drop i = c :: t) :
    l[i]? = some c := by
  have := congrArg (·[0]?) h
  simpa using this

theorem Rest.strtok_none (h : Rest delim buf pos s) (hs : s.dropWhile delim.contains = []) :
    ∃ r, strtok buf delim pos = some r ∧ r.token = none := by
  have hnul : buf[start delim pos s]? = some nul := by
    apply getElem?_of_drop
    rw [h.drop_start, hs]
    rfl
  refine ⟨⟨buf, start delim pos s, none⟩, ?_, rfl⟩
  rw [strtok, h.span_delims, if_pos hnul]

theorem stringAt_eq {buf text junk : List Char} {i : ℕ} (h : buf.drop i = text ++ nul :: junk)
    (htext : nul ∉ text) : stringAt buf i = some text := by
  have hmem : nul ∈ buf.drop i := by
    rw [h]
    simp
  rw [stringAt, if_pos hmem, cString, h, takeWhile_ne_append_cons htext]

/-- What a call of `strtok` leaves that found the first run of the string. -/
structure Found (delim : List Char) (pos : ℕ) (s : List Char) (r : Strtok) : Prop where
  token : r.token = some (start delim pos s)
  part : stringAt r.buf (start delim pos s) = some (run delim.contains s)
  behind : after delim.contains s ≠ [] →
    stringAt r.buf (stop delim pos s + 1) = some (after delim.contains s).tail
  rest : Rest delim r.buf r.saved (after delim.contains s).tail
  saved : r.saved + (after delim.contains s).tail.length = pos + s.length

theorem Rest.start_ne_nul (h : Rest delim buf pos s) (hs : s.dropWhile delim.contains ≠ []) :
    buf[start delim pos s]? ≠ some nul := by
  obtain ⟨c, t, hct⟩ := List.exists_cons_of_ne_nil hs
  have hdrop := h.drop_start
  rw [hct, List.cons_append] at hdrop
  rw [getElem?_of_drop hdrop]
  rintro hc
  cases hc
  apply h.nul_not_mem_dropWhile
  rw [hct]
  exact List.mem_cons_self

theorem Rest.strtok_last (h : Rest delim buf pos s) (hs : s.dropWhile delim.contains ≠ [])
    (hrest : after delim.contains s = []) :
    ∃ r, strtok buf delim pos = some r ∧ Found delim pos s r := by
  have hdrop := h.drop_run
  have hlen := stop_add_length_after delim pos s
  have hstop := h.drop_stop
  rw [hrest] at hdrop hlen hstop
  have hget : buf[stop delim pos s]? = some nul := getElem?_of_drop hstop
  rw [strtok, h.span_delims, h.span_token, if_neg (h.start_ne_nul hs),
    if_neg (by rw [hget]; simp), if_pos hget]
  refine ⟨_, rfl, rfl, stringAt_eq hdrop h.nul_not_mem_run, fun hne => absurd hrest hne, ?_, ?_⟩
  · rw [hrest]
    exact ⟨hstop, List.not_mem_nil, h.delims⟩
  · rw [hrest]
    exact hlen

theorem Rest.strtok_more (h : Rest delim buf pos s) (hs : s.dropWhile delim.contains ≠ [])
    {d : Char} {t : List Char} (hrest : after delim.contains s = d :: t) :
    ∃ r, strtok buf delim pos = some r ∧ Found delim pos s r := by
  have hdrop := h.drop_run
  have hlen := stop_add_length_after delim pos s
  have hstop := h.drop_stop
  have hnul := h.nul_not_mem_after
  rw [hrest] at hdrop hlen hstop hnul
  rw [List.mem_cons, not_or] at hnul
  have hget := getElem?_of_drop hstop
  have hback : (buf.set (stop delim pos s) nul).drop (stop delim pos s + 1) = t ++ [nul] := by
    rw [List.drop_set_of_lt (Nat.lt_add_one _), ← List.drop_drop, hstop]
    rfl
  have hfront : (buf.set (stop delim pos s) nul).drop (start delim pos s) =
      run delim.contains s ++ nul :: (t ++ [nul]) := by
    rw [List.drop_set, if_neg (by simp only [stop]; omega), hdrop, stop,
      Nat.add_sub_cancel_left, List.set_append_right _ _ le_rfl, Nat.sub_self]
    rfl
  rw [strtok, h.span_delims, h.span_token, if_neg (h.start_ne_nul hs),
    if_neg (by rw [hget]; simp), if_neg (by rw [hget]; simpa using Ne.symm hnul.1)]
  refine ⟨_, rfl, rfl, stringAt_eq hfront h.nul_not_mem_run, ?_, ?_, ?_⟩
  · intro _
    rw [hrest]
    exact stringAt_eq hback hnul.2
  · rw [hrest]
    exact ⟨hback, hnul.2, h.delims⟩
  · rw [hrest]
    rw [List.length_cons] at hlen
    simp only [List.tail_cons]
    omega

theorem Rest.strtok_some (h : Rest delim buf pos s) (hs : s.dropWhile delim.contains ≠ []) :
    ∃ r, strtok buf delim pos = some r ∧ Found delim pos s r := by
  cases hrest : after delim.contains s with
  | nil => exact h.strtok_last hs hrest
  | cons d t => exact h.strtok_more hs hrest

end

section
variable {delim buf s : List Char} {pos bound : ℕ} {limit : ℤ} {strv : List (List Char)}

/-- Whether the loop comes to the limit before a place below `bound`, in a string that ends at
`stop`. -/
def LimitMet (delim : List Char) (bound stop : ℕ) (limit : ℤ) (s : List Char) : Prop :=
  0 < limit ∧ limit.toNat ≤ (runs delim.contains s).length ∧
    stop - (afterRuns delim.contains limit.toNat s).length < bound

instance : Decidable (LimitMet delim bound pos limit s) := inferInstanceAs (Decidable (_ ∧ _ ∧ _))

def partsFrom (delim : List Char) (bound stop : ℕ) (limit : ℤ) (s : List Char) :
    List (List Char) :=
  if LimitMet delim bound stop limit s then
    ((runs delim.contains s).take limit.toNat).map trim ++
      [trim (afterRuns delim.contains limit.toNat s).tail]
  else (runs delim.contains s).map trim

theorem partsFrom_nil (hs : s.dropWhile delim.contains = []) :
    partsFrom delim bound pos limit s = [] := by
  have hruns := runs_of_dropWhile_eq_nil hs
  have hmet : ¬ LimitMet delim bound pos limit s := by
    rintro ⟨hpos, hle, -⟩
    rw [hruns, List.length_nil] at hle
    omega
  rw [partsFrom, if_neg hmet, hruns]
  rfl

theorem partsFrom_cons {stop : ℕ} (hs : s.dropWhile delim.contains ≠ [])
    (hlast : ¬ (limit - 1 = 0 ∧ stop - (after delim.contains s).length < bound)) :
    partsFrom delim bound stop limit s = trim (run delim.contains s) ::
      partsFrom delim bound stop (limit - 1) (after delim.contains s).tail := by
  have hruns : runs delim.contains s = run delim.contains s ::
      runs delim.contains (after delim.contains s).tail := by
    rw [runs_eq_cons hs, runs_after_tail]
  by_cases hlimit : limit ≤ 1
  · have hmet : ¬ LimitMet delim bound stop limit s := by
      rintro ⟨hpos, -, hlt⟩
      obtain rfl : limit = 1 := by omega
      exact hlast ⟨rfl, hlt⟩
    have hmet' : ¬ LimitMet delim bound stop (limit - 1) (after delim.contains s).tail := by
      rintro ⟨hpos, -⟩
      omega
    rw [partsFrom, partsFrom, if_neg hmet, if_neg hmet', hruns, List.map_cons]
  · obtain ⟨n, rfl⟩ : ∃ n : ℕ, limit = n + 2 := ⟨(limit - 2).toNat, by omega⟩
    have hn : ((n : ℤ) + 2).toNat = n + 2 := by omega
    have hn' : ((n : ℤ) + 2 - 1).toNat = n + 1 := by omega
    have hrest : afterRuns delim.contains (n + 2) s =
        afterRuns delim.contains (n + 1) (after delim.contains s).tail := (afterRuns_tail n).symm
    have hmet : LimitMet delim bound stop (n + 2) s ↔
        LimitMet delim bound stop (n + 2 - 1) (after delim.contains s).tail := by
      simp only [LimitMet, hn, hn', hrest, hruns, List.length_cons]
      omega
    simp only [partsFrom, hmet, hn, hn', hrest, hruns, List.take_succ_cons, List.map_cons,
      List.cons_append]
    split <;> rfl

theorem cString_of_stringAt {i : ℕ} {text : List Char} (h : stringAt buf i = some text) :
    cString buf i = text := by
  rw [stringAt] at h
  split at h
  · exact Option.some.inj h
  · cases h

theorem Found.tail_lt {r : Strtok} (h : Found delim pos s r) (hr : strtok buf delim pos = some r) :
    (after delim.contains s).tail.length < s.length := by
  have := (strtok_token hr h.token).2.1
  have := h.saved
  omega

theorem splitLoop_eq (h : Rest delim buf pos s) (hbound : bound ≤ pos + s.length) :
    splitLoop delim bound buf pos limit strv =
      strv ++ partsFrom delim bound (pos + s.length) limit s := by
  induction hn : s.length using Nat.strong_induction_on generalizing s buf pos limit strv with
  | _ n ih =>
    subst hn
    by_cases hs : s.dropWhile delim.contains = []
    · obtain ⟨r, hr, htok⟩ := h.strtok_none hs
      rw [splitLoop_end hr htok, partsFrom_nil hs, List.append_nil]
    · obtain ⟨r, hr, hfound⟩ := h.strtok_some hs
      have hstop := stop_add_length_after delim pos s
      rw [splitLoop_token hr hfound.token]
      simp only [loopBody, cString_of_stringAt hfound.part]
      rw [← stop]
      split
      · rename_i hlast
        -- the limit is reached, and the string goes on behind the run
        have hne : after delim.contains s ≠ [] := by
          intro hnil
          rw [hnil, List.length_nil] at hstop
          omega
        obtain rfl : limit = 1 := by omega
        have hone : afterRuns delim.contains (1 : ℤ).toNat s = after delim.contains s := rfl
        have hmet : LimitMet delim bound (pos + s.length) 1 s := by
          refine ⟨by decide, ?_, ?_⟩
          · rw [runs_eq_cons hs, List.length_cons]
            exact Nat.le_add_left 1 _
          · rw [hone]
            omega
        rw [cString_of_stringAt (hfound.behind hne), partsFrom, if_pos hmet, hone,
          runs_eq_cons hs, List.append_assoc]
        rfl
      · rename_i hlast
        rw [ih _ (hfound.tail_lt hr) hfound.rest (by rw [hfound.saved]; exact hbound) rfl,
          hfound.saved, partsFrom_cons hs, List.append_assoc]
        · rfl
        · rw [← hstop, Nat.add_sub_cancel]
          exact hlast

theorem loop_end {size : ℕ} {r : Strtok} (hr : strtok buf delim pos = some r)
    (htok : r.token = none) : loop delim size buf pos limit strv = some strv := by
  rw [loop]
  split
  · rename_i hnone
    rw [hr] at hnone
    cases hnone
  · rename_i r' hr'
    obtain rfl : r' = r := Option.some.inj (hr'.symm.trans hr)
    split
    · rfl
    · rename_i token htoken
      rw [htok] at htoken
      cases htoken

theorem loop_token {size token : ℕ} {part : List Char} {r : Strtok}
    (hr : strtok buf delim pos = some r) (htok : r.token = some token)
    (hpart : stringAt r.buf token = some part) :
    loop delim size buf pos limit strv =
      if int (limit - 1) = 0 ∧ ((token + part.length : ℕ) : ℤ) < int size then
        (stringAt r.buf (token + part.length + 1)).map fun rest =>
          strv ++ [trim part] ++ [trim rest]
      else loop delim size r.buf r.saved (int (limit - 1)) (strv ++ [trim part]) := by
  rw [loop]
  split
  · rename_i hnone
    rw [hr] at hnone
    cases hnone
  · rename_i r' hr'
    obtain rfl : r' = r := Option.some.inj (hr'.symm.trans hr)
    split
    · rename_i htoken
      rw [htok] at htoken
      cases htoken
    · rename_i token' htoken
      obtain rfl : token' = token := Option.some.inj (htoken.symm.trans htok)
      split
      · rename_i hnone
        rw [hpart] at hnone
        cases hnone
      · rename_i part' hpart'
        obtain rfl : part' = part := Option.some.inj (hpart'.symm.trans hpart)
        rfl

theorem int_le {n : ℕ} : int n ≤ n := by
  rw [int, Int.bmod_def]
  split <;> omega

theorem int_eq {x : ℤ} (hlow : -2 ^ 31 ≤ x) (hhigh : x < 2 ^ 31) : int x = x :=
  Int.bmod_eq_of_le (by omega) (by omega)

theorem loop_eq {size : ℕ} (h : Rest delim buf pos s) (hsize : size = pos + s.length)
    (hlow : -2 ^ 31 ≤ limit - (runs delim.contains s).length) (hhigh : limit < 2 ^ 31) :
    loop delim size buf pos limit strv =
      some (splitLoop delim (int size).toNat buf pos limit strv) := by
  induction hn : s.length using Nat.strong_induction_on generalizing s buf pos limit strv with
  | _ n ih =>
    subst hn
    by_cases hs : s.dropWhile delim.contains = []
    · obtain ⟨r, hr, htok⟩ := h.strtok_none hs
      rw [loop_end hr htok, splitLoop_end hr htok]
    · obtain ⟨r, hr, hfound⟩ := h.strtok_some hs
      rw [runs_eq_cons hs, List.length_cons, ← runs_after_tail] at hlow
      have hint : int (limit - 1) = limit - 1 := int_eq (by omega) (by omega)
      have hstop := stop_add_length_after delim pos s
      rw [loop_token hr hfound.token hfound.part, splitLoop_token hr hfound.token, hint]
      simp only [loopBody, cString_of_stringAt hfound.part]
      rw [← stop]
      by_cases hlast : limit - 1 = 0 ∧ (stop delim pos s : ℤ) < int size
      · have hne : after delim.contains s ≠ [] := by
          intro hnil
          rw [hnil, List.length_nil] at hstop
          have := @int_le size
          omega
        rw [if_pos hlast, if_pos ⟨hlast.1, by omega⟩, hfound.behind hne,
          cString_of_stringAt (hfound.behind hne)]
        rfl
      · rw [if_neg hlast, if_neg (by omega)]
        exact ih _ (hfound.tail_lt hr) hfound.rest (by rw [hfound.saved]; exact hsize) (by omega)
          (by omega) rfl

end

section
variable {str delim : List Char} {k stack : ℕ}

/-- The runs of the string, trimmed; with a limit only so many, and then what follows the
delimiter behind the last of them. -/
def parts (delim : List Char) (k : ℕ) (str : List Char) : List (List Char) :=
  let rs := runs delim.contains str
  if k = 0 ∨ rs.length < k then rs.map trim
  else (rs.take k).map trim ++
    match afterRuns delim.contains k str with
    | [] => []
    | _ :: text => [trim text]

def RestDue (delim : List Char) (k : ℕ) (str : List Char) : Prop :=
  0 < k ∧ k ≤ (runs delim.contains str).length ∧ afterRuns delim.contains k str ≠ []

def runEnd (delim : List Char) (k : ℕ) (str : List Char) : ℕ :=
  str.length - (afterRuns delim.contains k str).length

theorem parts_due (h : RestDue delim k str) :
    parts delim k str = ((runs delim.contains str).take k).map trim ++
      [trim (afterRuns delim.contains k str).tail] := by
  obtain ⟨hk, hle, hne⟩ := h
  obtain ⟨d, text, hrest⟩ := List.exists_cons_of_ne_nil hne
  rw [parts, if_neg (by omega)]
  simp only [hrest, List.tail_cons]

theorem parts_not_due (h : ¬ RestDue delim k str) :
    parts delim k str = (runs delim.contains str).map trim := by
  by_cases hk : k = 0 ∨ (runs delim.contains str).length < k
  · rw [parts, if_pos hk]
  · have hnil : afterRuns delim.contains k str = [] := by
      by_contra hne
      exact h ⟨by omega, by omega, hne⟩
    have hlen := length_runs_le hnil
    rw [parts, if_neg hk, List.take_of_length_le hlen]
    simp only [hnil, List.append_nil]

theorem rest_whole (hstr : nul ∉ str) (hdelim : nul ∉ delim) :
    Rest delim (str ++ [nul]) 0 str := ⟨rfl, hstr, hdelim⟩

theorem strKit_split_eq (hstr : nul ∉ str) (hdelim : nul ∉ delim) :
    StrKit.split str delim k = parts delim k str := by
  rw [StrKit.split, splitLoop_eq (rest_whole hstr hdelim) (Nat.le_add_left _ _), List.nil_append,
    Nat.zero_add]
  by_cases hdue : RestDue delim k str
  · have hmet : LimitMet delim str.length str.length k str := by
      have hlen := List.length_pos_iff.mpr hdue.2.2
      have hle : (afterRuns delim.contains k str).length ≤ str.length := length_afterRuns_le k
      refine ⟨Int.natCast_pos.mpr hdue.1, by simpa using hdue.2.1, ?_⟩
      rw [Int.toNat_natCast]
      omega
    rw [partsFrom, if_pos hmet, parts_due hdue, Int.toNat_natCast]
  · have hmet : ¬ LimitMet delim str.length str.length k str := by
      rintro ⟨hpos, hle, hlt⟩
      rw [Int.toNat_natCast] at hle hlt
      refine hdue ⟨by omega, hle, ?_⟩
      intro hnil
      rw [hnil] at hlt
      simp at hlt
    rw [partsFrom, if_neg hmet, parts_not_due hdue]

theorem split_eq (hstack : str.length + 1 ≤ stack) (hstr : nul ∉ str) (hdelim : nul ∉ delim)
    (hruns : (runs delim.contains str).length < 2 ^ 31) (hk : k < 2 ^ 31) :
    split stack str delim k =
      some (partsFrom delim (int str.length).toNat str.length k str) := by
  have hrest := rest_whole hstr hdelim
  have hbound : (int str.length).toNat ≤ 0 + str.length := by
    have := @int_le str.length
    omega
  rw [split, if_pos hstack, loop_eq hrest (Nat.zero_add _).symm (by omega) (by omega),
    splitLoop_eq hrest hbound, List.nil_append, Nat.zero_add]

theorem limitMet_iff (bound : ℕ) (hbound : bound ≤ str.length) :
    LimitMet delim bound str.length k str ↔
      RestDue delim k str ∧ runEnd delim k str < bound := by
  rw [LimitMet, Int.toNat_natCast, Int.natCast_pos, RestDue, runEnd]
  constructor
  · rintro ⟨hk, hle, hlt⟩
    refine ⟨⟨hk, hle, ?_⟩, hlt⟩
    intro hnil
    rw [hnil, List.length_nil] at hlt
    omega
  · rintro ⟨⟨hk, hle, -⟩, hlt⟩
    exact ⟨hk, hle, hlt⟩

/-- A string whose size is an `int` is split as the unchecked loop splits it. -/
theorem split_eq_strKit (hstack : str.length + 1 ≤ stack) (hstr : nul ∉ str)
    (hdelim : nul ∉ delim) (hsize : str.length < 2 ^ 31) (hk : k < 2 ^ 31) :
    split stack str delim k = some (StrKit.split str delim k) := by
  have hruns := length_runs_le_length (p := delim.contains) str
  have hbound : (int str.length).toNat = str.length := by
    rw [int_eq (by omega) (by omega), Int.toNat_natCast]
  rw [split_eq hstack hstr hdelim (by omega) hk, hbound, StrKit.split,
    splitLoop_eq (rest_whole hstr hdelim) (Nat.le_add_left _ _), List.nil_append, Nat.zero_add]

/-- What the runs behind the `k`-th give is the one part that was due. -/
def OneRunLeft (delim : List Char) (k : ℕ) (str : List Char) : Prop :=
  ((runs delim.contains str).drop k).map trim = [trim (afterRuns delim.contains k str).tail]

theorem split_due_iff (hstack : str.length + 1 ≤ stack) (hstr : nul ∉ str) (hdelim : nul ∉ delim)
    (hruns : (runs delim.contains str).length < 2 ^ 31) (hk : k < 2 ^ 31)
    (hdue : RestDue delim k str) :
    split stack str delim k = some (parts delim k str) ↔
      (runEnd delim k str : ℤ) < int str.length ∨ OneRunLeft delim k str := by
  have hbound : (int str.length).toNat ≤ str.length := by
    have := @int_le str.length
    omega
  have hmet := @limitMet_iff str delim k _ hbound
  rw [split_eq hstack hstr hdelim hruns hk, Option.some.injEq, partsFrom, parts_due hdue,
    Int.toNat_natCast]
  by_cases hend : (runEnd delim k str : ℤ) < int str.length
  · rw [if_pos (hmet.mpr ⟨hdue, by omega⟩)]
    exact iff_of_true rfl (.inl hend)
  · have hnot : ¬ LimitMet delim (int str.length).toNat str.length k str := by
      intro h
      have := (hmet.mp h).2
      omega
    have hall : (runs delim.contains str).map trim =
        ((runs delim.contains str).take k).map trim ++
          ((runs delim.contains str).drop k).map trim := by
      rw [← List.map_append, List.take_append_drop]
    rw [if_neg hnot, hall, List.append_cancel_left_eq]
    constructor
    · exact .inr
    · exact fun h => h.resolve_left hend

/-- The parts are the ones promised exactly when the stack has room for the string, and the
`k`-th run, where text follows it, ends before the size of the string as an `int`, or that text
leads to the same part all the same. -/
theorem split_eq_parts_iff (stack : ℕ) (hstr : nul ∉ str) (hdelim : nul ∉ delim)
    (hruns : (runs delim.contains str).length < 2 ^ 31) (hk : k < 2 ^ 31) :
    split stack str delim k = some (parts delim k str) ↔
      str.length + 1 ≤ stack ∧ (RestDue delim k str →
        (runEnd delim k str : ℤ) < int str.length ∨ OneRunLeft delim k str) := by
  by_cases hstack : str.length + 1 ≤ stack
  · rw [and_iff_right hstack]
    by_cases hdue : RestDue delim k str
    · rw [split_due_iff hstack hstr hdelim hruns hk hdue]
      exact (imp_iff_right hdue).symm
    · have hbound : (int str.length).toNat ≤ str.length := by
        have := @int_le str.length
        omega
      have hnot : ¬ LimitMet delim (int str.length).toNat str.length k str := fun h =>
        hdue ((limitMet_iff _ hbound).mp h).1
      rw [split_eq hstack hstr hdelim hruns hk, partsFrom, if_neg hnot, parts_not_due hdue]
      exact iff_of_true rfl fun h => absurd h hdue
  · rw [split, if_neg hstack]
    exact iff_of_false nofun fun h => hstack h.1

theorem split_host_port :
    split 1048576 "www.a.cn:80:81".toList ":".toList 1 =
      some (parts ":".toList 1 "www.a.cn:80:81".toList) :=
  (split_eq_parts_iff 1048576 (by decide) (by decide) (by decide +kernel) (by decide)).mpr
    ⟨by decide, fun _ => .inl (by decide +kernel)⟩

example : parts ":".toList 1 "www.a.cn: 80:81 ".toList =
    ["www.a.cn", "80:81"].map String.toList := by
  decide +kernel

def letters (n : ℕ) : List Char := List.replicate n 'a'

theorem nul_not_mem_letters (n : ℕ) : nul ∉ letters n := fun h =>
  absurd (List.eq_of_mem_replicate h) (by decide)

theorem letters_space {n : ℕ} : ∀ c ∈ letters n, " ".toList.contains c = false := by
  intro c hc
  rw [List.eq_of_mem_replicate hc]
  rfl

theorem runs_letters {n : ℕ} (hn : n ≠ 0) : runs " ".toList.contains (letters n) = [letters n] := by
  apply runs_eq_singleton
  · rwa [letters, Ne, List.replicate_eq_nil_iff]
  · exact letters_space

/-- A main thread has a stack of 8 MiB. -/
theorem long_text_overflows_stack :
    nul ∉ letters 16000000 ∧ (runs " ".toList.contains (letters 16000000)).length < 2 ^ 31 ∧
      split 8388608 (letters 16000000) " ".toList 0 ≠
        some (parts " ".toList 0 (letters 16000000)) := by
  have hlen : (letters 16000000).length = 16000000 := List.length_replicate
  refine ⟨nul_not_mem_letters _, ?_, ?_⟩
  · rw [runs_letters (by decide)]
    decide
  · rw [split, hlen, if_neg (by decide)]
    nofun

/-- A word of as many letters as an `int` can count, and a delimiter. -/
def longText : List Char := letters (2 ^ 31 - 1) ++ " ".toList

/-- On a stack with room for it the delimiter is not seen. -/
theorem long_text_loses_a_part (hstack : 2 ^ 31 < stack) :
    split stack longText " ".toList 1 ≠ some (parts " ".toList 1 longText) := by
  have hne : letters (2 ^ 31 - 1) ≠ [] := by
    rw [letters, Ne, List.replicate_eq_nil_iff]
    decide
  have hnul : nul ∉ longText := by
    rw [longText, List.mem_append, not_or]
    exact ⟨nul_not_mem_letters _, by decide⟩
  have hruns : runs " ".toList.contains longText = [letters (2 ^ 31 - 1)] :=
    runs_append_cons hne letters_space rfl
  have hlen : longText.length = 2 ^ 31 := by
    rw [longText, List.length_append, letters, List.length_replicate]
    rfl
  have hafter : afterRuns " ".toList.contains 1 longText = [' '] :=
    after_append_cons hne letters_space rfl
  have hone : (runs " ".toList.contains longText).length = 1 := by
    rw [hruns]
    rfl
  have hdue : RestDue " ".toList 1 longText :=
    ⟨Nat.one_pos, hone.ge, by rw [hafter]; exact List.cons_ne_nil _ _⟩
  have hsize : int longText.length = -2 ^ 31 := by
    rw [hlen]
    decide
  have hroom : longText.length + 1 ≤ stack := by
    rw [hlen]
    exact hstack
  intro heq
  have hlong := split_due_iff hroom hnul (by decide) (by rw [hone]; decide) (by decide) hdue
  rcases hlong.mp heq with hend | hleft
  · rw [hsize] at hend
    omega
  · rw [OneRunLeft, hruns, hafter] at hleft
    cases hleft

end

end StrSplit
