import MyGitCode.CFormat

/-! # The tokens of SQL texts

What a text with strings between apostrophes is read as, and when a string put into a text
stands for itself. -/
namespace SqlTokens

open CFormat

abbrev Name := List Char

inductive Literal where
  | text (s : List Char)
  | int (z : ℤ)
  deriving DecidableEq, Repr

/-- A word is kept in lower case. -/
inductive Token where
  | word (name : Name)
  | value (l : Literal)
  | symbol (c : Char)
  deriving DecidableEq, Repr

/-- What is read of the token under way. In a string, an apostrophe ends it, unless another
one follows. -/
inductive Mode where
  | blank
  | word (rev : List Char)
  | minus
  | number (negative : Bool) (n : ℕ)
  | string (rev : List Char)
  | apostrophe (rev : List Char)
  deriving DecidableEq, Repr

def isWordStart (c : Char) : Bool := c.isAlpha || c = '_'

def isWordChar (c : Char) : Bool := isWordStart c || c.isDigit

def blanks : List Char := [' ', '\t', '\r', '\n']

def symbols : List Char := ['(', ')', ',', '=', '*', ';']

def signed (negative : Bool) (n : ℕ) : ℤ := if negative then -n else n

def start (c : Char) : Option (List Token × Mode) :=
  if c = '\'' then some ([], .string [])
  else if isWordStart c then some ([], .word [c.toLower])
  else if c.isDigit then some ([], .number false (c.toNat - '0'.toNat))
  else if c = '-' then some ([], .minus)
  else if symbols.contains c then some ([.symbol c], .blank)
  else if blanks.contains c then some ([], .blank)
  else none

def finish : Mode → Option (List Token)
  | .blank => some []
  | .word rev => some [.word rev.reverse]
  | .minus => none
  | .number negative n => some [.value (.int (signed negative n))]
  | .string _ => none
  | .apostrophe rev => some [.value (.text rev.reverse)]

/-- A string does not begin directly behind a word or a number. -/
def step (mode : Mode) (c : Char) : Option (List Token × Mode) :=
  match mode with
  | .blank => start c
  | .word rev =>
    if isWordChar c then some ([], .word (c.toLower :: rev))
    else if c = '\'' then none
    else (start c).map fun next => (.word rev.reverse :: next.1, next.2)
  | .minus => if c.isDigit then some ([], .number true (c.toNat - '0'.toNat)) else none
  | .number negative n =>
    if c.isDigit then some ([], .number negative (10 * n + (c.toNat - '0'.toNat)))
    else if isWordStart c || c = '\'' then none
    else (start c).map fun next => (.value (.int (signed negative n)) :: next.1, next.2)
  | .string rev => if c = '\'' then some ([], .apostrophe rev) else some ([], .string (c :: rev))
  | .apostrophe rev =>
    if c = '\'' then some ([], .string ('\'' :: rev))
    else (start c).map fun next => (.value (.text rev.reverse) :: next.1, next.2)

def run (mode : Mode) : List Char → Option (List Token × Mode)
  | [] => some ([], mode)
  | c :: s => (step mode c).bind fun next =>
    (run next.2 s).map fun last => (next.1 ++ last.1, last.2)

def lex (mode : Mode) (s : List Char) : Option (List Token) :=
  (run mode s).bind fun last => (finish last.2).map (last.1 ++ ·)

def tokens (s : List Char) : Option (List Token) := lex .blank s

example : tokens "select count(*) from T where a = 'it''s' -12;".toList =
    some [.word "select".toList, .word "count".toList, .symbol '(', .symbol '*', .symbol ')',
      .word "from".toList, .word "t".toList, .word "where".toList, .word "a".toList, .symbol '=',
      .value (.text "it's".toList), .value (.int (-12)), .symbol ';'] := by
  decide

variable {mode mode' : Mode} {a b s rev v rest out : List Char} {c : Char} {name : Name}
  {ts ts' : List Token}

theorem run_append (h : run mode a = some (ts, mode')) :
    run mode (a ++ b) = (run mode' b).map fun last => (ts ++ last.1, last.2) := by
  induction a generalizing mode ts with
  | nil =>
    cases h
    simp
  | cons c a ih =>
    obtain ⟨next, hstep, hrun⟩ := Option.bind_eq_some_iff.mp h
    obtain ⟨last, hlast, heq⟩ := Option.map_eq_some_iff.mp hrun
    cases heq
    simp [run, hstep, ih hlast, Option.map_map, Function.comp_def]

theorem lex_append (h : run mode a = some (ts, mode')) :
    lex mode (a ++ b) = (lex mode' b).map (ts ++ ·) := by
  rw [lex, lex, run_append h]
  cases run mode' b with
  | none => rfl
  | some last => simp [Option.map_map, Function.comp_def]

theorem lex_cons (h : step mode c = some (ts, mode')) :
    lex mode (c :: s) = (lex mode' s).map (ts ++ ·) :=
  lex_append (a := [c]) (by simp [run, h])

theorem lex_quiet (h : step mode c = some ([], mode')) : lex mode (c :: s) = lex mode' s := by
  rw [lex_cons h]
  simp

theorem not_isWordStart_of_isDigit (h : c.isDigit = true) : isWordStart c = false := by
  have hrange := Char.isDigit_iff_toNat.mp h
  have hne : c ≠ '_' := by
    rintro rfl
    simp at h
  change (decide (c.val ≥ 65 ∧ c.val ≤ 90) || decide (c.val ≥ 97) && decide (c.val ≤ 122) ||
    decide (c = '_')) = false
  simp only [hne, decide_false, Bool.or_false, Bool.or_eq_false_iff, Bool.and_eq_false_iff,
    decide_eq_false_iff_not, UInt32.le_iff_toNat_le, ge_iff_le]
  change ¬ (65 ≤ c.toNat ∧ c.toNat ≤ 90) ∧ (¬ 97 ≤ c.toNat ∨ ¬ c.toNat ≤ 122)
  simp at hrange
  omega

theorem run_word (h : ∀ c ∈ name, isWordChar c = true) :
    run (.word rev) name = some ([], .word ((name.map Char.toLower).reverse ++ rev)) := by
  induction name generalizing rev with
  | nil => rfl
  | cons c name ih =>
    rw [List.forall_mem_cons] at h
    simp [run, step, h.1, ih h.2]

/-- A name as it may be written: a letter or an underscore, and then digits as well. -/
def IsWord (name : List Char) : Prop :=
  (∃ c, name.head? = some c ∧ isWordStart c = true) ∧ ∀ c ∈ name, isWordChar c = true

theorem run_name (hname : IsWord name) (hc : isWordChar c = false) (hquote : c ≠ '\'') :
    run .blank (name ++ c :: rest) =
      (run .blank (c :: rest)).map fun last =>
        (.word (name.map Char.toLower) :: last.1, last.2) := by
  obtain ⟨⟨d, hd, hstart⟩, hall⟩ := hname
  cases name with
  | nil => cases hd
  | cons d' name =>
    obtain rfl := Option.some.inj hd
    rw [List.forall_mem_cons] at hall
    have hne : d' ≠ '\'' := by
      rintro rfl
      cases hstart
    have hword : run .blank (d' :: name) =
        some ([], .word ((name.map Char.toLower).reverse ++ [d'.toLower])) := by
      simp [run, step, start, hne, hstart, run_word hall.2]
    rw [run_append hword]
    cases hnext : start c with
    | none => simp [run, step, hc, hquote, hnext]
    | some next => simp [run, step, hc, hquote, hnext, Function.comp_def]

theorem run_digits {negative : Bool} {n : ℕ} (h : ∀ c ∈ s, c.isDigit = true) :
    run (.number negative n) s = some ([], .number negative (Nat.ofDigitChars 10 s n)) := by
  induction s generalizing n with
  | nil => rfl
  | cons c s ih =>
    rw [List.forall_mem_cons] at h
    simp [run, step, h.1, ih h.2, Nat.ofDigitChars_cons]

theorem run_toDigits {n : ℕ} : run .blank (Nat.toDigits 10 n) = some ([], .number false n) ∧
    run .minus (Nat.toDigits 10 n) = some ([], .number true n) := by
  obtain ⟨c, rest, hcons⟩ := List.exists_cons_of_ne_nil (Nat.toDigits_ne_nil (n := n) (b := 10))
  have hall : ∀ d ∈ c :: rest, d.isDigit = true := fun d hd => isDigit_of_mem (by rwa [hcons])
  rw [List.forall_mem_cons] at hall
  have hvalue : Nat.ofDigitChars 10 rest (c.toNat - '0'.toNat) = n := by
    rw [← Nat.ofDigitChars_ten_toDigits (n := n), hcons, Nat.ofDigitChars_cons, Nat.mul_zero,
      Nat.zero_add]
  have hne : c ≠ '\'' := by
    rintro rfl
    cases hall.1
  rw [hcons]
  constructor
  · simp [run, step, start, hne, not_isWordStart_of_isDigit hall.1, hall.1, run_digits hall.2,
      ← hvalue]
  · simp [run, step, hall.1, run_digits hall.2, ← hvalue]

theorem run_decimal {z : ℤ} (hword : isWordChar c = false) (hquote : c ≠ '\'') :
    run .blank (decimal z ++ c :: rest) =
      (run .blank (c :: rest)).map fun last => (.value (.int z) :: last.1, last.2) := by
  have hnumber : ∃ negative n, run .blank (decimal z) = some ([], .number negative n) ∧
      signed negative n = z := by
    cases z with
    | ofNat n => exact ⟨false, n, run_toDigits.1, rfl⟩
    | negSucc n => exact ⟨true, n + 1, by simp [decimal, run, step, start, run_toDigits.2,
        isWordStart], by simp [signed, Int.negSucc_eq]⟩
  obtain ⟨negative, n, hrun, rfl⟩ := hnumber
  rw [run_append hrun]
  rw [isWordChar, Bool.or_eq_false_iff] at hword
  cases hnext : start c with
  | none => simp [run, step, hword, hquote, hnext]
  | some next => simp [run, step, hword, hquote, hnext, Function.comp_def]

theorem lex_decimal {z : ℤ} (hword : isWordChar c = false) (hquote : c ≠ '\'') :
    lex .blank (decimal z ++ c :: rest) = (lex .blank (c :: rest)).map (.value (.int z) :: ·) := by
  rw [lex, lex, run_decimal hword hquote]
  cases run .blank (c :: rest) with
  | none => rfl
  | some last => simp [Option.map_map, Function.comp_def]

/-- What a string that begins here stands for, and the text behind it. -/
def readString : List Char → Option (List Char × List Char)
  | [] => none
  | '\'' :: '\'' :: s => (readString s).map fun r => ('\'' :: r.1, r.2)
  | '\'' :: s => some ([], s)
  | c :: s => (readString s).map fun r => (c :: r.1, r.2)

def doubled (s : List Char) : List Char :=
  s.flatMap fun c => if c = '\'' then ['\'', '\''] else [c]

theorem doubled_cons (hc : c ≠ '\'') : doubled (c :: s) = c :: doubled s := by
  simp [doubled, hc]

theorem lex_string : lex (.string rev) s = (readString s).bind fun r =>
    (lex .blank r.2).map (.value (.text (rev.reverse ++ r.1)) :: ·) := by
  fun_induction readString s generalizing rev with
  | case1 => rfl
  | case2 s ih =>
    rw [lex_quiet (show step (.string rev) '\'' = some ([], .apostrophe rev) from rfl),
      lex_quiet (show step (.apostrophe rev) '\'' = some ([], .string ('\'' :: rev)) from rfl), ih]
    simp only [List.reverse_cons, List.append_assoc, List.singleton_append, Option.bind_map]
    rfl
  | case3 s hs =>
    rw [lex_quiet (show step (.string rev) '\'' = some ([], .apostrophe rev) from rfl)]
    cases s with
    | nil => simp [lex, run, finish]
    | cons d s =>
      have hd : d ≠ '\'' := by
        rintro rfl
        exact hs s rfl
      cases hnext : start d with
      | none => simp [lex, run, step, hd, hnext]
      | some next =>
        have hstep : step (.apostrophe rev) d =
            some (.value (.text rev.reverse) :: next.1, next.2) := by
          simp [step, hd, hnext]
        rw [lex_cons hstep, Option.bind_some,
          lex_cons (show step .blank d = some next by simp [step, hnext])]
        simp [Function.comp_def]
  | case4 c s h₁ h₂ ih =>
    have hc : c ≠ '\'' := by
      rintro rfl
      exact h₂ rfl
    have hstep : step (.string rev) c = some ([], .string (c :: rev)) := by simp [step, hc]
    rw [lex_quiet hstep, ih]
    simp only [List.reverse_cons, List.append_assoc, List.singleton_append, Option.bind_map]
    rfl

theorem readString_doubled (h : readString s = some (v, rest)) :
    s = doubled v ++ '\'' :: rest ∧ rest.head? ≠ some '\'' := by
  fun_induction readString s generalizing v with
  | case1 => cases h
  | case2 s ih =>
    obtain ⟨r, hr, heq⟩ := Option.map_eq_some_iff.mp h
    cases heq
    obtain ⟨rfl, hhead⟩ := ih hr
    exact ⟨rfl, hhead⟩
  | case3 s hs =>
    cases h
    refine ⟨rfl, fun hhead => ?_⟩
    obtain ⟨s', rfl⟩ := List.head?_eq_some_iff.mp hhead
    exact hs s' rfl
  | case4 c s h₁ h₂ ih =>
    obtain ⟨r, hr, heq⟩ := Option.map_eq_some_iff.mp h
    cases heq
    have hc : c ≠ '\'' := by
      rintro rfl
      exact h₂ rfl
    obtain ⟨rfl, hhead⟩ := ih hr
    exact ⟨by rw [doubled_cons hc]; rfl, hhead⟩

theorem quoteFree_of_doubled {k : ℕ} {rest' : List Char} (hrest : rest.head? ≠ some '\'')
    (h : List.replicate k '\'' ++ (doubled v ++ '\'' :: rest') = v ++ '\'' :: rest) :
    k = 0 ∧ '\'' ∉ v := by
  induction v generalizing k with
  | nil =>
    cases k with
    | zero => exact ⟨rfl, List.not_mem_nil⟩
    | succ k =>
      have htail : List.replicate k '\'' ++ '\'' :: rest' = rest := (List.cons.inj h).2
      rw [← htail] at hrest
      cases k <;> exact absurd rfl hrest
  | cons c v ih =>
    by_cases hc : c = '\''
    · subst hc
      have hcomm (l : List Char) : List.replicate k '\'' ++ '\'' :: l =
          '\'' :: (List.replicate k '\'' ++ l) := by
        rw [← List.cons_append, ← List.replicate_succ, List.replicate_succ', List.append_assoc]
        rfl
      have hquote : doubled ('\'' :: v) = '\'' :: '\'' :: doubled v := rfl
      rw [hquote, List.cons_append, List.cons_append, hcomm] at h
      have hshift : List.replicate (k + 1) '\'' ++ (doubled v ++ '\'' :: rest') =
          v ++ '\'' :: rest := by
        rw [List.replicate_succ, List.cons_append, ← hcomm]
        exact (List.cons.inj h).2
      cases (ih hshift).1
    · rw [doubled_cons hc] at h
      cases k with
      | zero =>
        have htail := ih (k := 0) (List.cons.inj h).2
        exact ⟨rfl, by rw [List.mem_cons, not_or]; exact ⟨Ne.symm hc, htail.2⟩⟩
      | succ k => exact absurd (List.cons.inj h).1.symm hc

theorem readString_quoteFree (hv : '\'' ∉ v) (hrest : rest.head? ≠ some '\'') :
    readString (v ++ '\'' :: rest) = some (v, rest) := by
  induction v with
  | nil =>
    cases rest with
    | nil => rfl
    | cons d rest =>
      have hd : d ≠ '\'' := fun h => hrest (by rw [h]; rfl)
      rw [List.nil_append, readString]
      intro s h
      cases h
      exact hd rfl
  | cons c v ih =>
    rw [List.mem_cons, not_or] at hv
    rw [List.cons_append, readString, ih hv.2]
    · rfl
    · intro s hc
      exact absurd hc.symm hv.1
    · intro hc
      exact hv.1 hc.symm

theorem lex_quoted_iff (hrest : rest.head? ≠ some '\'') :
    lex (.string []) (v ++ '\'' :: rest) = some (.value (.text v) :: ts) ↔
      '\'' ∉ v ∧ lex .blank rest = some ts := by
  rw [lex_string]
  constructor
  · intro h
    obtain ⟨⟨w, rest'⟩, hread, hmap⟩ := Option.bind_eq_some_iff.mp h
    obtain ⟨ts', hts, heq⟩ := Option.map_eq_some_iff.mp hmap
    obtain rfl : w = v := by simpa using (List.cons.inj heq).1
    obtain rfl : ts' = ts := (List.cons.inj heq).2
    have hfree := (quoteFree_of_doubled (k := 0) hrest (readString_doubled hread).1.symm).2
    rw [readString_quoteFree hfree hrest] at hread
    cases hread
    exact ⟨hfree, hts⟩
  · rintro ⟨hfree, hts⟩
    rw [readString_quoteFree hfree hrest]
    simp [hts]

/-- A string in a text, with the text before it and the tokens of that. -/
structure Slot where
  lead : List Char
  out : List Token
  value : List Char
  run_lead : run .blank lead = some (out, .blank)
  not_quote : ∃ c rest, lead = c :: rest ∧ c ≠ '\''

def fill : List Slot → List Char → List Char
  | [], tail => tail
  | slot :: slots, tail => slot.lead ++ '\'' :: (slot.value ++ '\'' :: fill slots tail)

def fillTokens : List Slot → List Token → List Token
  | [], tail => tail
  | slot :: slots, tail => slot.out ++ .value (.text slot.value) :: fillTokens slots tail

theorem fillTokens_append (slots : List Slot) :
    fillTokens slots (ts ++ ts') = fillTokens slots ts ++ ts' := by
  induction slots with
  | nil => rfl
  | cons slot slots ih => simp [fillTokens, ih]

theorem tokens_fill_iff {slots : List Slot} {tail : List Char} (htail : tail.head? ≠ some '\'') :
    tokens (fill slots tail) = some (fillTokens slots ts) ↔
      (∀ slot ∈ slots, '\'' ∉ slot.value) ∧ tokens tail = some ts := by
  induction slots with
  | nil => simp [fill, fillTokens]
  | cons slot slots ih =>
    have hrest : (fill slots tail).head? ≠ some '\'' := by
      cases slots with
      | nil => exact htail
      | cons next slots =>
        obtain ⟨c, rest, hlead, hc⟩ := next.not_quote
        rw [fill, hlead]
        exact fun h => hc (Option.some.inj h)
    have hlead : tokens (fill (slot :: slots) tail) =
        (lex (.string []) (slot.value ++ '\'' :: fill slots tail)).map (slot.out ++ ·) := by
      rw [tokens, fill, lex_append slot.run_lead,
        lex_quiet (show step .blank '\'' = some ([], .string []) from rfl)]
    rw [hlead, fillTokens, List.forall_mem_cons, and_assoc, ← ih, tokens, ← lex_quoted_iff hrest]
    simp [Option.map_eq_some_iff]

end SqlTokens
