import MyGitCode.HttpHeader
import MyGitCode.StrSplit

/-! # Header blocks and what is read of them

A header is a status line and lines of a name and a value, with CRLF between them and none
behind the last. The parser runs in a thread, on whose stack `split` copies each line. -/
namespace HeaderBlocks

open CFormat (atoi digits parseInt)
open DelimitedRuns HttpHeader StrKit StrSplit

/-- The size of the stack that `Thread::start` asks for. -/
def stackSize : ℕ := 1024 * 1024

/-- `parseFields` where `stack` bytes are left for the copy of a line. -/
def parseFieldsOn (stack : ℕ) (header : Header) (str : List Char) : Option Header :=
  match _h : findCrLf str with
  | some pos =>
    match StrSplit.split stack (str.take pos) ":".toList 1 with
    | none => none
    | some strv =>
      match contentType strv with
      | some value => some { header with contentType := value }
      | none => parseFieldsOn stack header (str.drop (pos + 2))
  | none => some header
termination_by str.length
decreasing_by
  have := findCrLf_lt _h
  rw [List.length_drop]
  omega

def parseHeaderOn (stack : ℕ) (str : List Char) : Option Header :=
  match findCrLf str with
  | some pos =>
    match StrSplit.split stack (str.take pos) " ".toList 2 with
    | none => none
    | some strv => parseFieldsOn stack (statusHeader strv) (str.drop (pos + 2))
  | none => parseFieldsOn stack ⟨0, []⟩ str

structure Line (text : List Char) : Prop where
  one : findCrLf text = none
  nonul : nul ∉ text

structure StatusLine where
  version : List Char
  code : List Char
  reason : List Char
  version_nonempty : version ≠ []
  version_word : ' ' ∉ version
  code_nonempty : code ≠ []
  code_digits : ∀ c ∈ code, c.isDigit = true
  line : Line (version ++ ' ' :: (code ++ ' ' :: reason))

/-- `name: value`, the value with the blank in front of it. The name goes up to the first colon. -/
structure Field where
  name : List Char
  value : List Char
  name_word : ':' ∉ name
  line : Line (name ++ ':' :: value)

structure Block where
  status : StatusLine
  fields : List Field

def StatusLine.text (s : StatusLine) : List Char := s.version ++ ' ' :: (s.code ++ ' ' :: s.reason)

def Field.text (f : Field) : List Char := f.name ++ ':' :: f.value

def lines : List (List Char) → List Char
  | [] => []
  | [line] => line
  | line :: line' :: rest => line ++ '\r' :: '\n' :: lines (line' :: rest)

def Block.text (b : Block) : List Char := lines (b.status.text :: b.fields.map Field.text)

def Field.IsContentType (f : Field) : Bool := strcasecmp f.name "content-type".toList

def stated (fields : List Field) : List Char :=
  ((fields.find? Field.IsContentType).map fun f => trim f.value).getD []

def Block.header (b : Block) : Header := ⟨digits b.status.code, stated b.fields⟩

/-- The content type that the parser takes from a line when it looks at it: it ends the name at
the first colon behind some other character, and cuts off the blanks around it. -/
def Field.taken (f : Field) : Option (List Char) :=
  let name := trim (run ":".toList.contains f.text)
  let rest := after ":".toList.contains f.text
  if strcasecmp name "content-type".toList ∧ rest ≠ [] then some (trim rest.tail) else none

def Reaches (fields front : List Field) (f : Field) (back : List Field) : Prop :=
  fields = front ++ f :: back ∧ ∀ g ∈ front, g.taken = none

variable {b : Block} {f g : Field} {fields front back : List Field} {s : StatusLine}
  {header : Header} {line value : List Char} {stack : ℕ}

theorem findCrLf_append (h : findCrLf line = none) (rest : List Char) :
    findCrLf (line ++ '\r' :: '\n' :: rest) = some line.length := by
  induction line with
  | nil => rfl
  | cons c line ih =>
    rw [findCrLf] at h
    split at h
    · cases h
    · rename_i hfirst
      have hrest := ih (Option.map_eq_none_iff.mp h)
      have hstart : ¬ "\r\n".toList.isPrefixOf (c :: (line ++ '\r' :: '\n' :: rest)) = true := by
        cases line with
        | nil => simp
        | cons d line => simpa using hfirst
      rw [List.cons_append, findCrLf, if_neg hstart, hrest]
      rfl

theorem lines_take {rest : List Char} :
    (line ++ '\r' :: '\n' :: rest).take line.length = line ∧
      (line ++ '\r' :: '\n' :: rest).drop (line.length + 2) = rest := by
  refine ⟨List.take_left, ?_⟩
  rw [← List.drop_drop, List.drop_left]
  rfl

theorem colon_delims : nul ∉ ":".toList := by decide

theorem space_delims : nul ∉ " ".toList := by decide

theorem colon_not_mem_name (f : Field) : ∀ c ∈ f.name, ":".toList.contains c = false := by
  intro c hc
  have hne : c ≠ ':' := by
    rintro rfl
    exact f.name_word hc
  simpa using hne

theorem Field.nul_not_mem_text (f : Field) : nul ∉ f.text := f.line.nonul

theorem Field.contentType_split (f : Field) :
    contentType (StrKit.split f.text ":".toList 1) = f.taken := by
  have hsplit := strKit_split_eq (k := 1) f.nul_not_mem_text colon_delims
  rw [Nat.cast_one] at hsplit
  rw [hsplit]
  by_cases hempty : f.text.dropWhile ":".toList.contains = []
  · have hruns := runs_of_dropWhile_eq_nil hempty
    have hdue : ¬ RestDue ":".toList 1 f.text := by
      rintro ⟨-, hle, -⟩
      rw [hruns] at hle
      cases hle
    have hrun : run ":".toList.contains f.text = [] := by
      rw [run, hempty]
      rfl
    rw [parts_not_due hdue, hruns, Field.taken, hrun]
    rfl
  · have hruns := runs_eq_cons hempty
    by_cases hafter : after ":".toList.contains f.text = []
    · have hdue : ¬ RestDue ":".toList 1 f.text := fun h => h.2.2 hafter
      rw [parts_not_due hdue, hruns, hafter, Field.taken, hafter, if_neg (fun h => h.2 rfl)]
      rfl
    · have hdue : RestDue ":".toList 1 f.text := by
        refine ⟨Nat.one_pos, ?_, hafter⟩
        rw [hruns, List.length_cons]
        exact Nat.le_add_left 1 _
      rw [parts_due hdue, hruns, Field.taken]
      simp only [contentType, hafter, ne_eq, not_false_eq_true, and_true, afterRuns,
        List.take_succ_cons, List.take_zero, List.map_cons, List.map_nil, List.cons_append,
        List.nil_append]

theorem Field.taken_named (hname : f.name ≠ []) : f.taken =
    if strcasecmp (trim f.name) "content-type".toList then some (trim f.value) else none := by
  have hrun : run ":".toList.contains f.text = f.name := by
    have hsplit : f.name ++ ':' :: f.value =
        (f.name ++ ':' :: f.value).dropWhile ":".toList.contains := by
      obtain ⟨c, name, heq⟩ := List.exists_cons_of_ne_nil hname
      have hc := colon_not_mem_name f c (by simp [heq])
      have hstop : ¬ ":".toList.contains c = true := Bool.eq_false_iff.mp hc
      rw [heq, List.cons_append, List.dropWhile_cons_of_neg hstop]
    rw [run, Field.text, ← hsplit, takeWhile_append_stop _ rfl, List.takeWhile_eq_self_iff]
    intro c hc
    rw [colon_not_mem_name f c hc]
    rfl
  have hafter : after ":".toList.contains f.text = ':' :: f.value :=
    after_append_cons hname (colon_not_mem_name f) rfl
  rw [Field.taken, hrun, hafter]
  simp only [ne_eq, List.cons_ne_nil, not_false_eq_true, and_true, List.tail_cons]

theorem isBlank_toLower (c : Char) (h : isBlank c = true) : c.toLower = c := by
  have hblank : c = ' ' ∨ c = '\t' ∨ c = '\r' ∨ c = '\n' := by
    rw [isBlank, List.contains_iff_mem] at h
    simpa using h
  rcases hblank with rfl | rfl | rfl | rfl <;> rfl

theorem Field.trim_name (h : f.IsContentType = true) : trim f.name = f.name := by
  have hlower : f.name.map Char.toLower = "content-type".toList.map Char.toLower :=
    of_decide_eq_true h
  have hplain : ∀ c ∈ f.name, isBlank c = false := by
    intro c hc
    by_contra hblank
    have hmem : c.toLower ∈ f.name.map Char.toLower := List.mem_map_of_mem hc
    rw [isBlank_toLower c (by simpa using hblank), hlower] at hmem
    have hnone : ("content-type".toList.map Char.toLower).any isBlank = false := by decide
    exact hblank (Bool.eq_false_iff.mpr (List.any_eq_false.mp hnone c hmem))
  exact trim_eq_self (fun c hc => hplain c (List.mem_of_mem_head? hc))
    fun c hc => hplain c (List.mem_of_getLast? hc)

theorem Field.taken_contentType (h : f.IsContentType = true) : f.taken = some (trim f.value) := by
  have hname : f.name ≠ [] := by
    intro hnil
    rw [Field.IsContentType, hnil] at h
    cases h
  rw [Field.taken_named hname, Field.trim_name h]
  exact if_pos h

theorem isBlank_of_isDigit {c : Char} (h : c.isDigit = true) : isBlank c = false := by
  rw [isBlank, ← Bool.not_eq_true, List.contains_iff_mem]
  intro hmem
  have hblank : c = ' ' ∨ c = '\t' ∨ c = '\r' ∨ c = '\n' := by simpa using hmem
  rcases hblank with rfl | rfl | rfl | rfl <;> cases h

theorem trim_code (s : StatusLine) : trim s.code = s.code := by
  apply trim_eq_self
  · intro c hc
    exact isBlank_of_isDigit (s.code_digits c (List.mem_of_mem_head? hc))
  · intro c hc
    exact isBlank_of_isDigit (s.code_digits c (List.mem_of_getLast? hc))

theorem atoi_code_iff (s : StatusLine) : atoi s.code = digits s.code ↔ digits s.code < 2 ^ 31 := by
  have hparse : parseInt s.code = digits s.code := CFormat.parseInt_digits s.code_digits
  constructor
  · intro h
    have hlt : atoi s.code < 2 ^ 31 := Int.bmod_lt (by decide)
    omega
  · intro h
    rw [CFormat.atoi_eq (by omega) (by omega), hparse]

theorem StatusLine.statusHeader (s : StatusLine) :
    statusHeader (StrKit.split s.text " ".toList 2) = ⟨atoi s.code, []⟩ := by
  have hversion : ∀ c ∈ s.version, " ".toList.contains c = false := by
    intro c hc
    have hne : c ≠ ' ' := by
      rintro rfl
      exact s.version_word hc
    simpa using hne
  have hcode : ∀ c ∈ s.code, " ".toList.contains c = false := by
    intro c hc
    have hne : c ≠ ' ' := by
      rintro rfl
      cases s.code_digits _ hc
    simpa using hne
  have hafter : afterRuns " ".toList.contains 2 s.text = ' ' :: s.reason := by
    rw [afterRuns, StatusLine.text, after_append_cons s.version_nonempty hversion rfl, afterRuns,
      after_cons_of_pos rfl]
    exact after_append_cons s.code_nonempty hcode rfl
  have hruns : runs " ".toList.contains s.text =
      s.version :: s.code :: runs " ".toList.contains s.reason := by
    rw [StatusLine.text, runs_append_cons s.version_nonempty hversion rfl,
      runs_append_cons s.code_nonempty hcode rfl]
  have hdue : RestDue " ".toList 2 s.text := by
    refine ⟨Nat.two_pos, ?_, ?_⟩
    · rw [hruns, List.length_cons, List.length_cons]
      exact Nat.le_add_left 2 _
    · rw [hafter]
      exact List.cons_ne_nil _ _
  have hsplit := strKit_split_eq (k := 2) s.line.nonul space_delims
  rw [← StatusLine.text, parts_due hdue, hruns, hafter] at hsplit
  have hparts : StrKit.split s.text " ".toList 2 = [trim s.version, s.code, trim s.reason] := by
    refine hsplit.trans ?_
    simp [trim_code]
  rw [hparts, HttpHeader.statusHeader]

theorem split_on (hstack : stack ≤ stackSize) {delim : List Char} {k : ℕ} (hline : nul ∉ line)
    (hdelim : nul ∉ delim) (hk : k < 2 ^ 31) : StrSplit.split stack line delim k =
      if line.length + 1 ≤ stack then some (StrKit.split line delim k) else none := by
  rw [stackSize] at hstack
  split
  · rename_i hroom
    exact split_eq_strKit hroom hline hdelim (by omega) hk
  · rename_i hroom
    rw [StrSplit.split, if_neg hroom]

theorem split_some (hstack : stack ≤ stackSize) {delim : List Char} {strv : List (List Char)}
    {k : ℕ} (hline : nul ∉ line) (hdelim : nul ∉ delim) (hk : k < 2 ^ 31)
    (h : StrSplit.split stack line delim k = some strv) : strv = StrKit.split line delim k := by
  rw [split_on hstack hline hdelim hk, Option.ite_none_right_eq_some, Option.some_inj] at h
  exact h.2.symm

theorem parseFieldsOn_some (hstack : stack ≤ stackSize) {str : List Char} (hstr : nul ∉ str)
    {result : Header} (h : parseFieldsOn stack header str = some result) :
    result = parseFields header str := by
  fun_induction parseFieldsOn stack header str with
  | case1 => cases h
  | case2 str pos hpos strv hsplit value hvalue =>
    have hline : nul ∉ str.take pos := fun hmem => hstr (List.mem_of_mem_take hmem)
    obtain rfl := split_some hstack (k := 1) hline colon_delims (by decide) hsplit
    obtain rfl := Option.some.inj h
    rw [Nat.cast_one] at hvalue
    rw [parseFields_some hpos, hvalue]
  | case3 str pos hpos strv hsplit hvalue ih =>
    have hline : nul ∉ str.take pos := fun hmem => hstr (List.mem_of_mem_take hmem)
    obtain rfl := split_some hstack (k := 1) hline colon_delims (by decide) hsplit
    rw [Nat.cast_one] at hvalue
    rw [parseFields_some hpos, hvalue]
    exact ih (fun hmem => hstr (List.mem_of_mem_drop hmem)) h
  | case4 str hpos =>
    obtain rfl := Option.some.inj h
    rw [parseFields_none hpos]

/-- What comes back with a limited stack is what comes back without the limit. -/
theorem parseHeaderOn_some (hstack : stack ≤ stackSize) {str : List Char} (hstr : nul ∉ str)
    {result : Header} (h : parseHeaderOn stack str = some result) : result = parseHeader str := by
  rw [parseHeaderOn] at h
  rw [parseHeader]
  cases hpos : findCrLf str with
  | none =>
    rw [hpos] at h
    exact parseFieldsOn_some hstack hstr h
  | some pos =>
    simp only [hpos] at h
    have hline : nul ∉ str.take pos := fun hmem => hstr (List.mem_of_mem_take hmem)
    cases hsplit : StrSplit.split stack (str.take pos) " ".toList 2 with
    | none =>
      rw [hsplit] at h
      cases h
    | some strv =>
      rw [hsplit] at h
      obtain rfl := split_some hstack (k := 2) hline space_delims (by decide) hsplit
      exact parseFieldsOn_some hstack (fun hmem => hstr (List.mem_of_mem_drop hmem)) h

theorem parseFieldsOn_last (f : Field) : parseFieldsOn stack header f.text = some header := by
  rw [parseFieldsOn]
  split
  · rename_i pos hpos
    rw [Field.text, f.line.one] at hpos
    cases hpos
  · rfl

theorem parseFieldsOn_cons (hstack : stack ≤ stackSize) (f g : Field) (fields : List Field) :
    parseFieldsOn stack header (lines ((f :: g :: fields).map Field.text)) =
      if f.text.length + 1 ≤ stack then
        match f.taken with
        | some value => some { header with contentType := value }
        | none => parseFieldsOn stack header (lines ((g :: fields).map Field.text))
      else none := by
  have htext : lines ((f :: g :: fields).map Field.text) =
      f.text ++ '\r' :: '\n' :: lines ((g :: fields).map Field.text) := rfl
  have hpos := findCrLf_append f.line.one (lines ((g :: fields).map Field.text))
  obtain ⟨htake, hdrop⟩ := @lines_take f.text (lines ((g :: fields).map Field.text))
  have hsplit := split_on hstack (k := 1) f.line.nonul colon_delims (by decide)
  rw [← Field.text] at hpos hsplit
  rw [htext, parseFieldsOn]
  split
  · rename_i pos hpos'
    obtain rfl : pos = f.text.length := Option.some.inj (hpos'.symm.trans hpos)
    rw [htake, hdrop]
    by_cases hroom : f.text.length + 1 ≤ stack
    · rw [if_pos hroom] at hsplit ⊢
      have hsplit' : StrSplit.split stack f.text ":".toList 1 = _ := hsplit
      rw [hsplit', ← Field.contentType_split]
      rfl
    · rw [if_neg hroom] at hsplit ⊢
      have hsplit' : StrSplit.split stack f.text ":".toList 1 = none := hsplit
      rw [hsplit']
  · rename_i hnone
    rw [hpos] at hnone
    cases hnone

/-- What the lines behind the status line show of the content type that is stated. -/
structure LinesShown (stack : ℕ) (fields : List Field) : Prop where
  fits : ∀ front f back, Reaches fields front f back → back ≠ [] → f.text.length + 1 ≤ stack
  mistaken : ∀ front f back, Reaches fields front f back → back ≠ [] → f.IsContentType = false →
    ∀ value, f.taken = some value → value = stated fields
  last : ∀ front f, Reaches fields front f [] → f.IsContentType = true → trim f.value = []

theorem stated_cons_of_neg (h : f.IsContentType = false) :
    stated (f :: fields) = stated fields := by
  rw [stated, stated, List.find?_cons, h]

theorem stated_cons_of_pos (h : f.IsContentType = true) : stated (f :: fields) = trim f.value := by
  rw [stated, List.find?_cons, h]
  rfl

theorem reaches_head : Reaches (f :: fields) [] f fields := ⟨rfl, nofun⟩

theorem Reaches.of_taken (h : Reaches (f :: fields) front g back) (hf : f.taken = some value) :
    front = [] ∧ g = f ∧ back = fields := by
  obtain ⟨heq, hnone⟩ := h
  cases front with
  | nil =>
    obtain ⟨rfl, rfl⟩ := List.cons.inj heq
    exact ⟨rfl, rfl, rfl⟩
  | cons a front =>
    obtain ⟨rfl, -⟩ := List.cons.inj heq
    rw [hnone f List.mem_cons_self] at hf
    cases hf

theorem Reaches.cons (h : Reaches fields front g back) (hf : f.taken = none) :
    Reaches (f :: fields) (f :: front) g back :=
  ⟨by rw [h.1, List.cons_append], List.forall_mem_cons.mpr ⟨hf, h.2⟩⟩

theorem Reaches.of_cons (h : Reaches (f :: fields) front g back) :
    (front = [] ∧ g = f ∧ back = fields) ∨
      ∃ front', front = f :: front' ∧ Reaches fields front' g back := by
  obtain ⟨heq, hnone⟩ := h
  cases front with
  | nil =>
    obtain ⟨rfl, rfl⟩ := List.cons.inj heq
    exact .inl ⟨rfl, rfl, rfl⟩
  | cons a front =>
    obtain ⟨rfl, rfl⟩ := List.cons.inj heq
    exact .inr ⟨front, rfl, rfl, (List.forall_mem_cons.mp hnone).2⟩

theorem linesShown_last : LinesShown stack [f] ↔ (f.IsContentType = true → trim f.value = []) := by
  constructor
  · exact fun h => h.last [] f reaches_head
  · intro h
    refine ⟨fun front g back hr hback => ?_, fun front g back hr hback => ?_, ?_⟩
    · rcases hr.of_cons with ⟨-, -, rfl⟩ | ⟨front', -, hr⟩
      · exact absurd rfl hback
      · simp [Reaches] at hr
    · rcases hr.of_cons with ⟨-, -, rfl⟩ | ⟨front', -, hr⟩
      · exact absurd rfl hback
      · simp [Reaches] at hr
    · intro front g hr
      rcases hr.of_cons with ⟨-, rfl, -⟩ | ⟨front', -, hr⟩
      · exact h
      · simp [Reaches] at hr

theorem linesShown_taken (hf : f.taken = some value) : LinesShown stack (f :: g :: fields) ↔
    f.text.length + 1 ≤ stack ∧ value = stated (f :: g :: fields) := by
  constructor
  · intro h
    refine ⟨h.fits [] f _ reaches_head (List.cons_ne_nil _ _), ?_⟩
    by_cases hname : f.IsContentType = true
    · rw [stated_cons_of_pos hname]
      exact Option.some.inj (hf.symm.trans (Field.taken_contentType hname))
    · exact h.mistaken [] f _ reaches_head (List.cons_ne_nil _ _) (Bool.eq_false_iff.mpr hname)
        value hf
  · rintro ⟨hroom, hvalue⟩
    refine ⟨fun front h back hr _ => ?_, fun front h back hr _ _ v hv => ?_, fun front h hr => ?_⟩
    · obtain ⟨-, rfl, -⟩ := hr.of_taken hf
      exact hroom
    · obtain ⟨-, rfl, -⟩ := hr.of_taken hf
      rw [← hvalue]
      exact Option.some.inj (hv.symm.trans hf)
    · obtain ⟨-, -, hnil⟩ := hr.of_taken hf
      cases hnil

theorem linesShown_passed (hf : f.taken = none) : LinesShown stack (f :: g :: fields) ↔
    f.text.length + 1 ≤ stack ∧ LinesShown stack (g :: fields) := by
  have hname : f.IsContentType = false := by
    rw [← Bool.not_eq_true]
    intro h
    rw [Field.taken_contentType h] at hf
    cases hf
  constructor
  · intro h
    refine ⟨h.fits [] f _ reaches_head (List.cons_ne_nil _ _), ?_, ?_, ?_⟩
    · exact fun front k back hr => h.fits _ k back (hr.cons hf)
    · intro front k back hr hback hk v hv
      rw [← stated_cons_of_neg hname]
      exact h.mistaken _ k back (hr.cons hf) hback hk v hv
    · exact fun front k hr => h.last _ k (hr.cons hf)
  · rintro ⟨hroom, h⟩
    refine ⟨fun front k back hr hback => ?_, fun front k back hr hback hk v hv => ?_,
      fun front k hr => ?_⟩
    · rcases hr.of_cons with ⟨-, rfl, -⟩ | ⟨front', -, hr⟩
      · exact hroom
      · exact h.fits _ k back hr hback
    · rcases hr.of_cons with ⟨-, rfl, -⟩ | ⟨front', -, hr⟩
      · rw [hf] at hv
        cases hv
      · rw [stated_cons_of_neg hname]
        exact h.mistaken _ k back hr hback hk v hv
    · rcases hr.of_cons with ⟨-, -, hnil⟩ | ⟨front', -, hr⟩
      · cases hnil
      · exact h.last _ k hr

theorem parseFieldsOn_code {str : List Char} {result : Header}
    (h : parseFieldsOn stack header str = some result) : result.statusCode = header.statusCode := by
  fun_induction parseFieldsOn stack header str with
  | case1 => cases h
  | case2 => cases h; rfl
  | case3 _ _ _ _ _ _ ih => exact ih h
  | case4 => cases h; rfl

theorem parseFieldsOn_iff (hstack : stack ≤ stackSize) (code : ℤ) (hne : fields ≠ []) :
    parseFieldsOn stack ⟨code, []⟩ (lines (fields.map Field.text)) = some ⟨code, stated fields⟩ ↔
      LinesShown stack fields := by
  induction fields with
  | nil => exact absurd rfl hne
  | cons f fields ih =>
    cases fields with
    | nil =>
      have hlast : lines ([f].map Field.text) = f.text := rfl
      rw [hlast, parseFieldsOn_last, linesShown_last, Option.some_inj, Header.mk.injEq,
        and_iff_right rfl]
      by_cases hname : f.IsContentType = true
      · rw [stated_cons_of_pos hname, imp_iff_right hname, eq_comm]
      · rw [stated_cons_of_neg (Bool.eq_false_iff.mpr hname)]
        exact iff_of_true rfl fun h => absurd h hname
    | cons g fields =>
      rw [parseFieldsOn_cons hstack]
      cases htaken : f.taken with
      | some value =>
        rw [linesShown_taken htaken]
        by_cases hroom : f.text.length + 1 ≤ stack
        · rw [if_pos hroom, and_iff_right hroom, Option.some_inj, Header.mk.injEq,
            and_iff_right rfl]
        · rw [if_neg hroom]
          exact iff_of_false nofun fun h => hroom h.1
      | none =>
        have hname : f.IsContentType = false := by
          rw [← Bool.not_eq_true]
          intro h
          rw [Field.taken_contentType h] at htaken
          cases htaken
        rw [linesShown_passed htaken, stated_cons_of_neg hname]
        by_cases hroom : f.text.length + 1 ≤ stack
        · rw [if_pos hroom, and_iff_right hroom]
          exact ih (List.cons_ne_nil _ _)
        · rw [if_neg hroom]
          exact iff_of_false nofun fun h => hroom h.1

/-- What a header block shows: the code in an `int`, which a lone status line does not, and a
stack that holds the lines. -/
structure Block.Shown (stack : ℕ) (b : Block) : Prop where
  code : digits b.status.code < 2 ^ 31
  lone : b.fields = [] → digits b.status.code = 0
  status : b.fields ≠ [] → b.status.text.length + 1 ≤ stack
  fields : b.fields ≠ [] → LinesShown stack b.fields

theorem StatusLine.findCrLf_text (s : StatusLine) : findCrLf s.text = none := s.line.one

theorem StatusLine.nul_not_mem_text (s : StatusLine) : nul ∉ s.text := s.line.nonul

theorem parseHeaderOn_lone (s : StatusLine) : parseHeaderOn stack s.text = some ⟨0, []⟩ := by
  rw [parseHeaderOn, s.findCrLf_text]
  show parseFieldsOn stack ⟨0, []⟩ s.text = some ⟨0, []⟩
  rw [parseFieldsOn]
  split
  · rename_i pos hpos
    rw [s.findCrLf_text] at hpos
    cases hpos
  · rfl

theorem parseHeaderOn_cons (hstack : stack ≤ stackSize) (s : StatusLine) (f : Field)
    (fields : List Field) :
    parseHeaderOn stack (lines (s.text :: (f :: fields).map Field.text)) =
      if s.text.length + 1 ≤ stack then
        parseFieldsOn stack ⟨atoi s.code, []⟩ (lines ((f :: fields).map Field.text))
      else none := by
  have htext : lines (s.text :: (f :: fields).map Field.text) =
      s.text ++ '\r' :: '\n' :: lines ((f :: fields).map Field.text) := rfl
  have hpos := findCrLf_append s.findCrLf_text (lines ((f :: fields).map Field.text))
  obtain ⟨htake, hdrop⟩ := @lines_take s.text (lines ((f :: fields).map Field.text))
  have hsplit := split_on hstack (k := 2) s.nul_not_mem_text space_delims (by decide)
  rw [Nat.cast_ofNat] at hsplit
  rw [htext, parseHeaderOn, hpos]
  simp only [htake, hdrop, hsplit]
  by_cases hroom : s.text.length + 1 ≤ stack
  · rw [if_pos hroom, if_pos hroom]
    simp only [s.statusHeader]
  · rw [if_neg hroom, if_neg hroom]

/-- A header is returned as it is stated exactly when the block shows it. -/
theorem parseHeader_iff (hstack : stack ≤ stackSize) (b : Block) :
    parseHeaderOn stack b.text = some b.header ↔ b.Shown stack := by
  cases hfields : b.fields with
  | nil =>
    have htext : b.text = b.status.text := by
      rw [Block.text, hfields]
      rfl
    have hheader : b.header = ⟨digits b.status.code, []⟩ := by
      rw [Block.header, hfields]
      rfl
    rw [htext, parseHeaderOn_lone, hheader, Option.some_inj, Header.mk.injEq, and_iff_left rfl]
    constructor
    · intro hcode
      have hzero : digits b.status.code = 0 := by exact_mod_cast hcode.symm
      refine ⟨by omega, fun _ => hzero, ?_, ?_⟩
      all_goals exact fun h => absurd hfields h
    · intro h
      rw [h.lone hfields]
      rfl
  | cons f fields =>
    have hne : b.fields ≠ [] := by
      rw [hfields]
      exact List.cons_ne_nil _ _
    rw [Block.text, hfields, parseHeaderOn_cons hstack, Block.header]
    by_cases hroom : b.status.text.length + 1 ≤ stack
    · rw [if_pos hroom]
      constructor
      · intro h
        have hcode : atoi b.status.code = digits b.status.code := (parseFieldsOn_code h).symm
        rw [hcode, ← hfields, parseFieldsOn_iff hstack _ hne] at h
        exact ⟨(atoi_code_iff _).mp hcode, fun h => absurd h hne, fun _ => hroom, fun _ => h⟩
      · intro h
        rw [(atoi_code_iff _).mpr h.code, ← hfields, parseFieldsOn_iff hstack _ hne]
        exact h.fields hne
    · rw [if_neg hroom]
      exact iff_of_false nofun fun h => hroom (h.status hne)

def okLine : StatusLine where
  version := "HTTP/1.1".toList
  code := "200".toList
  reason := "OK".toList
  version_nonempty := by decide
  version_word := by decide
  code_nonempty := by decide
  code_digits := List.all_eq_true.mp (by decide)
  line := ⟨by decide, by decide⟩

def serverField : Field := ⟨"Server".toList, " nginx".toList, by decide, by decide, by decide⟩

def typeField : Field :=
  ⟨"Content-Type".toList, " text/html".toList, by decide, by decide, by decide⟩

def closeField : Field := ⟨"Connection".toList, " close".toList, by decide, by decide, by decide⟩

theorem middle_line_seen :
    (⟨okLine, [serverField, typeField, closeField]⟩ : Block).Shown stackSize ∧
      parseHeaderOn stackSize (⟨okLine, [serverField, typeField, closeField]⟩ : Block).text =
        some ⟨200, "text/html".toList⟩ := by
  have hserver : serverField.taken = none := by decide
  have htype : typeField.taken = some "text/html".toList := by decide
  have hshown : (⟨okLine, [serverField, typeField, closeField]⟩ : Block).Shown stackSize := by
    refine ⟨by decide, nofun, fun _ => by decide, fun _ => ?_⟩
    rw [linesShown_passed hserver, linesShown_taken htype]
    decide
  refine ⟨hshown, ?_⟩
  rw [(parseHeader_iff le_rfl _).mpr hshown]
  decide

/-- The last line is not looked at, as no CRLF stands behind it. -/
theorem last_line_not_seen :
    ¬ ∀ b : Block, parseHeaderOn stackSize b.text = some b.header := by
  intro h
  have hlast := h ⟨okLine, [typeField]⟩
  have hroom : okLine.text.length + 1 ≤ stackSize := by decide
  rw [Block.text, parseHeaderOn_cons le_rfl, if_pos hroom] at hlast
  have hnone : some (⟨200, []⟩ : Header) = some ⟨200, "text/html".toList⟩ :=
    (parseFieldsOn_last typeField).symm.trans hlast
  cases hnone

end HeaderBlocks
