import MyGitCode.CText
import MyGitCode.DelimitedRuns
import MyGitCode.StrKit
import MyGitCode.VoiceDatastore

/-! # Emergency numbers

`jan_voice_core_check_ecc_number` copies the configured list into 32 bytes, splits it into 10
rows of 6 bytes and compares the dialled number with the rows. Memory is a list of bytes, and
a pointer into it is what follows it. -/
namespace EmergencyNumbers

open CText StrKit VoiceDatastore

def isspace (c : Char) : Bool := c = ' ' || ('\t'.toNat ≤ c.toNat && c.toNat ≤ '\r'.toNat)

def isEnd (c : Char) : Bool := c = nul || isspace c

def atSeparator : List Char → Bool
  | [] => true
  | c :: _ => c = ',' || isEnd c

/-- `jan_voice_core_split_emergency_number` from a pass of its loop on. The results are the
bytes of each `JRD_MEMCPY` with the row they are written to. -/
def splitEmergencyNumber (index : ℕ) (ph : List Char) : List Char → Rc × List (List Char × ℕ)
  | [] => (.noErr, [])
  | c :: p =>
    if isEnd c then (.noErr, [])
    else if 10 < index then (.fail, [])
    else if atSeparator p then
      let r := splitEmergencyNumber (index + 1) p.tail p
      (r.1, (ph.take (ph.length - p.length), index) :: r.2)
    else splitEmergencyNumber index ph p

/-- The table's 60 bytes after a row is written. What falls behind them is lost. -/
def memcpy (table : List Char) (write : List Char × ℕ) : List Char :=
  (table.take (6 * write.2) ++ write.1 ++ table.drop (6 * write.2 + write.1.length)).take 60

def row (table : List Char) (i : ℕ) : List Char := (table.drop (6 * i)).take 6

def compareRows (table number : List Char) : List ℕ → List ℕ × ℤ
  | [] => ([], -1)
  | i :: rows =>
    if cString table (6 * i) = [] then ([], -1)
    else if number = cString table (6 * i) then ([i], 0)
    else
      let r := compareRows table number rows
      (i :: r.1, r.2)

structure EccCheck where
  /-- How many bytes are written to `database_emergency_number`. -/
  copied : ℕ
  writes : List (List Char × ℕ)
  table : List Char
  compared : List ℕ
  result : ℤ

/-- The stack from `database_emergency_number` on, after `jan_voice_get_emergency_number`. -/
def database (config beyond : List Char) : List Char :=
  config ++ (List.replicate 32 nul ++ beyond).drop config.length

/-- `jan_voice_core_check_ecc_number` on a configuration, with what stands behind its copy. -/
def checkEccNumber (config beyond number : List Char) : EccCheck :=
  let split := splitEmergencyNumber 0 (database config beyond) (database config beyond)
  let table := split.2.foldl memcpy (List.replicate 60 nul)
  let found := if split.1 = .noErr then compareRows table number (List.range' 0 10) else ([], -1)
  ⟨config.length, split.2, table, found.1, found.2⟩

def upTo (text : List Char) : List Char := text.takeWhile fun c => !isEnd c

def fieldsOf : List Char → List (List Char)
  | [] => []
  | c :: rest => (rest.splitOn ',').modifyHead (c :: ·)

def beforeEmpty (fields : List (List Char)) : List (List Char) := fields.takeWhile (· ≠ [])

variable {index : ℕ} {c : Char} {field p ph text : List Char}

theorem split_pass (hc : isEnd c = false) (hindex : index ≤ 10) :
    splitEmergencyNumber index (field ++ p) (c :: p) =
      if atSeparator p then
        ((splitEmergencyNumber (index + 1) p.tail p).1,
          (field, index) :: (splitEmergencyNumber (index + 1) p.tail p).2)
      else splitEmergencyNumber index (field ++ p) p := by
  have htake : (field ++ p).take ((field ++ p).length - p.length) = field := by
    rw [List.length_append, Nat.add_sub_cancel, List.take_left]
  rw [splitEmergencyNumber, if_neg (by simp [hc]), if_neg (Nat.not_lt.mpr hindex), htake]

theorem split_end (hc : isEnd c = true) :
    splitEmergencyNumber index ph (c :: p) = (.noErr, []) := by
  rw [splitEmergencyNumber, if_pos hc]

theorem upTo_cons (hc : isEnd c = false) : upTo (c :: p) = c :: upTo p :=
  List.takeWhile_cons_of_pos (by simp [hc])

/-- What the loop makes of the fields that are still to come. It writes up to the eleventh. -/
def fieldWrites (index : ℕ) (fields : List (List Char)) : Rc × List (List Char × ℕ) :=
  (if index + fields.length ≤ 11 then .noErr else .fail,
    (fields.take (11 - index)).zipIdx index)

theorem fieldWrites_cons {fields : List (List Char)} (hindex : index ≤ 10) :
    fieldWrites index (field :: fields) =
      ((fieldWrites (index + 1) fields).1,
        (field, index) :: (fieldWrites (index + 1) fields).2) := by
  have hone : 11 - index = 11 - (index + 1) + 1 := by omega
  simp only [fieldWrites, List.length_cons, hone, List.take_succ_cons, List.zipIdx_cons,
    Nat.add_assoc, Nat.add_comm 1]

theorem fieldWrites_last (hindex : index ≤ 10) :
    fieldWrites index [field] = (.noErr, [(field, index)]) := by
  rw [fieldWrites_cons hindex, fieldWrites, List.length_nil, if_pos (by omega), List.take_nil]
  rfl

theorem modifyHead_nil_append (fields : List (List Char)) :
    fields.modifyHead ([] ++ ·) = fields := by
  cases fields <;> rfl

theorem split_field (field : List Char) (hc : isEnd c = false) (hindex : index ≤ 10) :
    splitEmergencyNumber index (field ++ p) (c :: p) =
      fieldWrites index (((upTo p).splitOn ',').modifyHead (field ++ ·)) := by
  induction p generalizing c index field with
  | nil =>
    rw [split_pass hc hindex, if_pos (by rfl)]
    simp [splitEmergencyNumber, fieldWrites_last hindex, upTo]
  | cons d p ih =>
    rw [split_pass hc hindex, List.tail_cons]
    cases hd : isEnd d with
    | true =>
      have hnone : upTo (d :: p) = [] := List.takeWhile_cons_of_neg (by simp [hd])
      rw [if_pos (by simp [atSeparator, hd]), split_end hd, hnone]
      simp [fieldWrites_last hindex]
    | false =>
      rw [upTo_cons hd, List.splitOn_cons_eq_if_modifyHead]
      by_cases hcomma : d = ','
      · subst hcomma
        rw [if_pos (by rfl), if_pos (beq_self_eq_true _), List.modifyHead_cons, List.append_nil,
          fieldWrites_cons hindex]
        have hrest : splitEmergencyNumber (index + 1) p (',' :: p) =
            fieldWrites (index + 1) ((upTo p).splitOn ',') := by
          by_cases hlast : index = 10
          · have hpos := List.length_pos_iff.mpr (List.splitOn_ne_nil ',' (upTo p))
            rw [splitEmergencyNumber, if_neg (by simp [hd]), if_pos (by omega), fieldWrites,
              if_neg (by omega), hlast]
            rfl
          · have hnext := ih [] hd (show index + 1 ≤ 10 by omega)
            rwa [modifyHead_nil_append] at hnext
        rw [hrest]
      · have hsep : (d == ',') = false := beq_false_of_ne hcomma
        rw [if_neg (by simp [atSeparator, hd, hcomma]), if_neg (by simp [hsep]),
          List.modifyHead_modifyHead, List.append_cons, ih (field ++ [d]) hd hindex]
        congr 2
        funext rest
        simp

theorem split_fieldsOf (text : List Char) :
    splitEmergencyNumber 0 text text = fieldWrites 0 (fieldsOf (upTo text)) := by
  cases text with
  | nil => rfl
  | cons c p =>
    cases hc : isEnd c with
    | true =>
      have hnone : upTo (c :: p) = [] := List.takeWhile_cons_of_neg (by simp [hc])
      rw [split_end hc, hnone]
      rfl
    | false =>
      rw [upTo_cons hc]
      exact split_field [c] hc (Nat.zero_le _)

section Table

variable {table t : List Char} {k n : ℕ} {f number : List Char} {fields : List (List Char)}

structure Blank (table : List Char) (k : ℕ) : Prop where
  length : table.length = 60
  rest : table.drop (6 * k) = List.replicate (60 - 6 * k) nul

theorem blank_initial : Blank (List.replicate 60 nul) 0 := ⟨rfl, rfl⟩

theorem memcpy_length (ht : table.length = 60) (hk : k ≤ 10) :
    (memcpy table (f, k)).length = 60 := by
  simp only [memcpy, List.length_take, List.length_append, List.length_drop, ht]
  omega

theorem take_memcpy (ht : table.length = 60) (hk : k ≤ 10) (hn : n ≤ 6 * k) :
    (memcpy table (f, k)).take n = table.take n := by
  have hlen : n ≤ (table.take (6 * k)).length := by
    rw [List.length_take, ht]
    omega
  rw [memcpy, List.take_take, List.append_assoc, Nat.min_eq_left (by omega),
    List.take_append_of_le_length hlen, List.take_take, Nat.min_eq_left hn]

theorem drop_memcpy (ht : table.length = 60) (hk : k ≤ 10) :
    (memcpy table (f, k)).drop (6 * k) =
      (f ++ table.drop (6 * k + f.length)).take (60 - 6 * k) := by
  have hlen : (table.take (6 * k)).length = 6 * k := by
    rw [List.length_take, ht]
    omega
  rw [memcpy, List.drop_take, List.append_assoc, List.drop_append_of_le_length hlen.ge,
    List.drop_eq_nil_of_le hlen.le, List.nil_append]

theorem Blank.drop_add (ht : Blank table k) (m : ℕ) :
    table.drop (6 * k + m) = List.replicate (60 - 6 * k - m) nul := by
  rw [← List.drop_drop, ht.rest, List.drop_replicate]

theorem Blank.next (ht : Blank table k) (hk : k ≤ 10) (hf : f.length ≤ 6) :
    Blank (memcpy table (f, k)) (k + 1) := by
  refine ⟨memcpy_length ht.length hk, ?_⟩
  rw [Nat.mul_add, ← List.drop_drop, drop_memcpy ht.length hk, ht.drop_add, List.drop_take,
    List.drop_append, List.drop_eq_nil_of_le hf, List.nil_append, List.drop_replicate,
    List.take_replicate]
  congr 1
  omega

theorem Blank.row_memcpy (ht : Blank table k) (hk : k < 10) :
    row (memcpy table (f, k)) k = (f ++ List.replicate 6 nul).take 6 := by
  rw [row, drop_memcpy ht.length hk.le, ht.drop_add, List.take_take,
    List.take_append, List.take_append, List.take_replicate, List.take_replicate,
    Nat.min_eq_left (show 6 ≤ 60 - 6 * k by omega)]
  congr 2
  omega

theorem take_foldl_memcpy (ht : table.length = 60) (hk : k + fields.length ≤ 11)
    (hn : n ≤ 6 * k) : ((fields.zipIdx k).foldl memcpy table).take n = table.take n := by
  induction fields generalizing table k with
  | nil => rfl
  | cons f fields ih =>
    rw [List.length_cons] at hk
    rw [List.zipIdx_cons, List.foldl_cons, ih (memcpy_length ht (by omega)) (by omega) (by omega),
      take_memcpy ht (by omega) hn]

theorem Blank.row_foldl (ht : Blank table k) (hk : k < 10) (hfields : k + fields.length ≤ 10) :
    row (((f :: fields).zipIdx k).foldl memcpy table) k = (f ++ List.replicate 6 nul).take 6 := by
  have hlen := memcpy_length (f := f) ht.length hk.le
  have hsame : ((fields.zipIdx (k + 1)).foldl memcpy (memcpy table (f, k))).take (6 * k + 6) =
      (memcpy table (f, k)).take (6 * k + 6) := take_foldl_memcpy hlen (by omega) (by omega)
  have hrow (t : List Char) : row t k = (t.take (6 * k + 6)).drop (6 * k) := by
    rw [List.drop_take, Nat.add_sub_cancel_left, row]
  rw [List.zipIdx_cons, List.foldl_cons, hrow, hsame, ← hrow, ht.row_memcpy hk]

theorem cString_eq (table : List Char) (i : ℕ) :
    cString table (6 * i) = (row table i ++ table.drop (6 * i + 6)).takeWhile (· ≠ nul) := by
  rw [row, ← List.drop_drop, List.take_append_drop, cString]

theorem Blank.cString (ht : Blank table k) : cString table (6 * k) = [] := by
  rw [StrKit.cString, ht.rest, List.takeWhile_replicate, if_neg (by simp)]

theorem takeWhile_row (hnul : nul ∉ f) (hf : f.length < 6) (rest : List Char) :
    ((f ++ List.replicate 6 nul).take 6 ++ rest).takeWhile (· ≠ nul) = f := by
  have hpad : (f ++ List.replicate 6 nul).take 6 =
      f ++ nul :: List.replicate (5 - f.length) nul := by
    rw [List.take_append, List.take_of_length_le hf.le, List.take_replicate, ← List.replicate_succ]
    congr 2
    omega
  rw [hpad, List.append_assoc, List.cons_append, DelimitedRuns.takeWhile_ne_append_cons hnul]

theorem take_row (hf : 6 ≤ f.length) : (f ++ List.replicate 6 nul).take 6 = f.take 6 :=
  List.take_append_of_le_length hf

theorem nul_mem_row (hf : f.length < 6) : nul ∈ (f ++ List.replicate 6 nul).take 6 := by
  rw [List.take_append, List.take_of_length_le hf.le, List.take_replicate]
  exact List.mem_append_right _ (List.mem_replicate.mpr ⟨by omega, rfl⟩)

theorem beforeEmpty_cons (hf : f ≠ []) : beforeEmpty (f :: fields) = f :: beforeEmpty fields :=
  List.takeWhile_cons_of_pos (by simpa using hf)

theorem Blank.cString_foldl (ht : Blank table k) (hk : k < 10) (hfields : k + fields.length ≤ 10)
    (hnul : nul ∉ f) (hf : f.length < 6) :
    StrKit.cString (((f :: fields).zipIdx k).foldl memcpy table) (6 * k) = f := by
  rw [cString_eq, ht.row_foldl hk hfields]
  exact takeWhile_row hnul hf _

/-- Short fields stand in their rows with a NUL, and the rows compared are those before the
first empty field. -/
theorem compare_fields (ht : Blank table k) (hk : k + n = 10) (hfields : k + fields.length ≤ 11)
    (hnul : ∀ f ∈ fields, nul ∉ f)
    (hshort : ∀ f ∈ beforeEmpty (fields.take n), f.length ≤ 5) (number : List Char) :
    (∀ i ∈ (compareRows ((fields.zipIdx k).foldl memcpy table) number (List.range' k n)).1,
      nul ∈ row ((fields.zipIdx k).foldl memcpy table) i) ∧
    ((compareRows ((fields.zipIdx k).foldl memcpy table) number (List.range' k n)).2 = 0 ↔
      number ∈ beforeEmpty (fields.take n)) := by
  induction n generalizing fields table k with
  | zero => simp [compareRows, beforeEmpty]
  | succ n ih =>
    cases fields with
    | nil => simp [compareRows, List.range'_succ, ht.cString, beforeEmpty]
    | cons f fields =>
      rw [List.length_cons] at hfields
      rw [List.forall_mem_cons] at hnul
      by_cases hf : f = []
      · subst hf
        have hempty := ht.cString_foldl (f := []) (by omega)
          (show k + fields.length ≤ 10 by omega) List.not_mem_nil (by decide)
        rw [List.range'_succ, compareRows, hempty, if_pos rfl]
        simp [beforeEmpty]
      · rw [List.take_succ_cons, beforeEmpty_cons hf, List.forall_mem_cons] at hshort
        have hlen : f.length < 6 := Nat.lt_succ_of_le hshort.1
        have hstring := ht.cString_foldl (by omega) (show k + fields.length ≤ 10 by omega)
          hnul.1 hlen
        have hnext := ih (ht.next (f := f) (by omega) (by omega)) (show k + 1 + n = 10 by omega)
          (by omega) hnul.2 hshort.2
        have hrow : nul ∈ row (((f :: fields).zipIdx k).foldl memcpy table) k := by
          rw [ht.row_foldl (by omega) (by omega)]
          exact nul_mem_row hlen
        rw [← List.foldl_cons, ← List.zipIdx_cons] at hnext
        rw [List.range'_succ, compareRows, hstring, if_neg hf, List.take_succ_cons,
          beforeEmpty_cons hf]
        by_cases heq : number = f
        · rw [if_pos heq, List.forall_mem_singleton, heq]
          exact ⟨hrow, by simp⟩
        · rw [if_neg heq, List.forall_mem_cons, List.mem_cons, or_iff_right heq]
          exact ⟨⟨hrow, hnext.1⟩, hnext.2⟩

theorem compare_long (ht : Blank table k) (hk : k + n = 10) (hfields : k + fields.length ≤ 11)
    (hnul : ∀ f ∈ fields, nul ∉ f)
    (hrows : ∀ i ∈ (compareRows ((fields.zipIdx k).foldl memcpy table) [] (List.range' k n)).1,
      nul ∈ row ((fields.zipIdx k).foldl memcpy table) i) :
    ∀ f ∈ beforeEmpty (fields.take n), f.length ≤ 5 := by
  induction n generalizing fields table k with
  | zero => simp [beforeEmpty]
  | succ n ih =>
    cases fields with
    | nil => simp [beforeEmpty]
    | cons f fields =>
      rw [List.length_cons] at hfields
      rw [List.forall_mem_cons] at hnul
      by_cases hf : f = []
      · subst hf
        simp [beforeEmpty]
      · have hrow := ht.row_foldl (f := f) (by omega) (show k + fields.length ≤ 10 by omega)
        have hstring := cString_eq (((f :: fields).zipIdx k).foldl memcpy table) k
        have hfirst :
            StrKit.cString (((f :: fields).zipIdx k).foldl memcpy table) (6 * k) ≠ [] := by
          obtain ⟨c, rest, rfl⟩ := List.exists_cons_of_ne_nil hf
          have hc : c ≠ nul := fun h => hnul.1 (h ▸ List.mem_cons_self)
          rw [hstring, hrow]
          simp [hc]
        rw [List.range'_succ, compareRows, if_neg hfirst, if_neg (Ne.symm hfirst),
          List.forall_mem_cons, hrow] at hrows
        have hlen : f.length < 6 := by
          by_contra hlong
          rw [take_row (Nat.not_lt.mp hlong)] at hrows
          exact hnul.1 (List.mem_of_mem_take hrows.1)
        rw [List.take_succ_cons, beforeEmpty_cons hf, List.forall_mem_cons]
        exact ⟨Nat.le_of_lt_succ hlen,
          ih (ht.next (f := f) (by omega) (by omega)) (by omega) (by omega) hnul.2 hrows.2⟩

end Table

section Memory

variable {config a b beyond number : List Char}

theorem upTo_append_of_end (h : ∃ c ∈ a, isEnd c = true) : upTo (a ++ b) = upTo a := by
  induction a with
  | nil => simp at h
  | cons c a ih =>
    cases hc : isEnd c with
    | true => rw [List.cons_append, upTo, upTo, List.takeWhile_cons_of_neg (by simp [hc]),
        List.takeWhile_cons_of_neg (by simp [hc])]
    | false =>
      rw [List.cons_append, upTo_cons hc, upTo_cons hc, ih]
      simpa [hc] using h

theorem upTo_append_of_none (h : ∀ c ∈ a, isEnd c = false) : upTo (a ++ b) = a ++ upTo b := by
  exact List.takeWhile_append_of_pos fun c hc => by simp [h c hc]

theorem upTo_of_none (h : ∀ c ∈ a, isEnd c = false) : upTo a = a := by
  simpa [upTo] using upTo_append_of_none (b := []) h

theorem splitOn_append (a : List Char) :
    ∃ fs g, a.splitOn ',' = fs ++ [g] ∧
      ∀ b : List Char, (a ++ b).splitOn ',' = fs ++ (b.splitOn ',').modifyHead (g ++ ·) := by
  induction a with
  | nil => exact ⟨[], [], rfl, fun b => (modifyHead_nil_append _).symm⟩
  | cons c a ih =>
    obtain ⟨fs, g, ha, happend⟩ := ih
    by_cases hc : (c == ',') = true
    · refine ⟨[] :: fs, g, ?_, fun b => ?_⟩
      · rw [List.splitOn_cons_eq_if_modifyHead, if_pos hc, ha, List.cons_append]
      · rw [List.cons_append, List.splitOn_cons_eq_if_modifyHead, if_pos hc, happend,
          List.cons_append]
    · cases fs with
      | nil =>
        refine ⟨[], c :: g, ?_, fun b => ?_⟩
        · rw [List.splitOn_cons_eq_if_modifyHead, if_neg hc, ha]
          rfl
        · rw [List.cons_append, List.splitOn_cons_eq_if_modifyHead, if_neg hc, happend,
            List.nil_append, List.nil_append, List.modifyHead_modifyHead]
          rfl
      | cons f fs =>
        refine ⟨(c :: f) :: fs, g, ?_, fun b => ?_⟩
        · rw [List.splitOn_cons_eq_if_modifyHead, if_neg hc, ha]
          rfl
        · rw [List.cons_append, List.splitOn_cons_eq_if_modifyHead, if_neg hc, happend]
          rfl

theorem fieldsOf_append (ha : a ≠ []) :
    ∃ fs g, fieldsOf a = fs ++ [g] ∧
      ∀ b : List Char, fieldsOf (a ++ b) = fs ++ (b.splitOn ',').modifyHead (g ++ ·) := by
  obtain ⟨c, a, rfl⟩ := List.exists_cons_of_ne_nil ha
  obtain ⟨fs, g, hsplit, happend⟩ := splitOn_append a
  cases fs with
  | nil =>
    refine ⟨[], c :: g, by rw [fieldsOf, hsplit]; rfl, fun b => ?_⟩
    rw [List.cons_append, fieldsOf, happend, List.nil_append, List.modifyHead_modifyHead]
    rfl
  | cons f fs =>
    refine ⟨(c :: f) :: fs, g, by rw [fieldsOf, hsplit]; rfl, fun b => ?_⟩
    rw [List.cons_append, fieldsOf, happend]
    rfl

theorem nul_not_mem_splitOn (h : nul ∉ a) : ∀ f ∈ a.splitOn ',', nul ∉ f := by
  induction a with
  | nil => simp
  | cons c a ih =>
    rw [List.mem_cons, not_or] at h
    have ih := ih h.2
    rw [List.splitOn_cons_eq_if_modifyHead]
    split
    · simpa using ih
    · obtain ⟨f, fs, hsplit⟩ := List.exists_cons_of_ne_nil (List.splitOn_ne_nil ',' a)
      rw [hsplit, List.forall_mem_cons] at ih
      simpa [hsplit, h.1] using ih

theorem nul_not_mem_fieldsOf (text : List Char) : ∀ f ∈ fieldsOf (upTo text), nul ∉ f := by
  have hnul : nul ∉ upTo text := by
    intro h
    have hend := List.all_eq_true.mp List.all_takeWhile nul h
    simp [isEnd] at hend
  cases htext : upTo text with
  | nil => simp [fieldsOf]
  | cons c rest =>
    rw [htext, List.mem_cons, not_or] at hnul
    have hrest := nul_not_mem_splitOn hnul.2
    obtain ⟨f, fs, hsplit⟩ := List.exists_cons_of_ne_nil (List.splitOn_ne_nil ',' rest)
    rw [hsplit, List.forall_mem_cons] at hrest
    simpa [fieldsOf, hsplit, hnul.1] using hrest

theorem database_short (h : config.length < 32) (beyond : List Char) :
    ∃ rest, database config beyond = config ++ nul :: rest := by
  refine ⟨List.replicate (31 - config.length) nul ++ beyond, ?_⟩
  rw [database, List.drop_append_of_le_length (by rw [List.length_replicate]; exact h.le),
    List.drop_replicate, show 32 - config.length = (31 - config.length) + 1 by omega,
    List.replicate_succ, List.cons_append]

theorem database_full (h : config.length = 32) : database config beyond = config ++ beyond := by
  rw [database, h, List.drop_left' (List.length_replicate ..)]

theorem checkEccNumber_fields (config beyond number : List Char) :
    let fields := fieldsOf (upTo (database config beyond))
    let table := ((fields.take 11).zipIdx 0).foldl memcpy (List.replicate 60 nul)
    let found :=
      if fields.length ≤ 11 then compareRows table number (List.range' 0 10) else ([], -1)
    checkEccNumber config beyond number =
      ⟨config.length, (fields.take 11).zipIdx 0, table, found.1, found.2⟩ := by
  simp only [checkEccNumber, split_fieldsOf, fieldWrites, Nat.zero_add, Nat.sub_zero]
  congr 2 <;> split <;> simp_all

def EndsInCopy (config : List Char) : Prop :=
  config.length = 32 → (∃ c ∈ config, isspace c = true) ∨ 11 < (fieldsOf (upTo config)).length

theorem fields_database (hnul : nul ∉ config) (hcopy : config.length ≤ 32)
    (hends : EndsInCopy config) (beyond : List Char) :
    (fieldsOf (upTo (database config beyond))).take 11 = (fieldsOf (upTo config)).take 11 ∧
      ((fieldsOf (upTo (database config beyond))).length ≤ 11 ↔
        (fieldsOf (upTo config)).length ≤ 11) := by
  have hsame (h : upTo (database config beyond) = upTo config) :
      (fieldsOf (upTo (database config beyond))).take 11 = (fieldsOf (upTo config)).take 11 ∧
      ((fieldsOf (upTo (database config beyond))).length ≤ 11 ↔
        (fieldsOf (upTo config)).length ≤ 11) := by
    rw [h]
    exact ⟨rfl, Iff.rfl⟩
  by_cases hend : ∃ c ∈ config, isEnd c = true
  · exact hsame (upTo_append_of_end hend)
  · have hnone : ∀ c ∈ config, isEnd c = false := by simpa using hend
    rcases Nat.lt_or_eq_of_le hcopy with hlt | hfull
    · obtain ⟨rest, hrest⟩ := database_short hlt beyond
      apply hsame
      rw [hrest, upTo_append_of_none hnone, upTo_of_none hnone, upTo,
        List.takeWhile_cons_of_neg (by simp [isEnd]), List.append_nil]
    · rcases hends hfull with ⟨c, hc, hspace⟩ | hmany
      · exact absurd ⟨c, hc, by simp [isEnd, hspace]⟩ hend
      · have hne : config ≠ [] := by
          rintro rfl
          cases hfull
        obtain ⟨fs, g, hfields, happend⟩ := fieldsOf_append hne
        rw [database_full hfull, upTo_append_of_none hnone, upTo_of_none hnone, happend, hfields]
        rw [upTo_of_none hnone, hfields, List.length_append, List.length_singleton] at hmany
        rw [List.take_append_of_le_length (by omega), List.take_append_of_le_length (by omega)]
        have hpos := List.length_pos_iff.mpr (List.splitOn_ne_nil ',' (upTo beyond))
        simp only [List.length_append, List.length_singleton, List.length_modifyHead]
        exact ⟨trivial, by omega⟩

end Memory

section Safety

variable {config : List Char}

/-- The check writes inside its copy and its table, and the rows it compares end in a NUL. -/
structure Safe (r : EccCheck) : Prop where
  copy : r.copied ≤ 32
  table : ∀ w ∈ r.writes, w.1 = [] ∨ 6 * w.2 + w.1.length ≤ 60
  rows : ∀ i ∈ r.compared, nul ∈ row r.table i

/-- The list fits into the copy, its first eleven fields fit into the table, and if there are
no more, those before the first empty one have at most five characters. -/
structure Contained (config : List Char) : Prop where
  copy : config.length ≤ 32
  ends : EndsInCopy config
  table : ∀ w ∈ ((fieldsOf (upTo config)).take 11).zipIdx 0,
    w.1 = [] ∨ 6 * w.2 + w.1.length ≤ 60
  short : (fieldsOf (upTo config)).length ≤ 11 →
    ∀ f ∈ beforeEmpty ((fieldsOf (upTo config)).take 10), f.length ≤ 5

theorem length_take_eleven (fields : List (List Char)) : 0 + (fields.take 11).length ≤ 11 := by
  rw [Nat.zero_add, List.length_take]
  exact Nat.min_le_left _ _

theorem Contained.safe (h : Contained config) (hnul : nul ∉ config) (beyond number : List Char) :
    Safe (checkEccNumber config beyond number) := by
  obtain ⟨htake, hmany⟩ := fields_database hnul h.copy h.ends beyond
  rw [checkEccNumber_fields]
  refine ⟨h.copy, by simpa only [htake] using h.table, ?_⟩
  simp only
  split
  · next hfew =>
    have hrows := compare_fields blank_initial (Nat.zero_add 10)
      (length_take_eleven (fieldsOf (upTo (database config beyond))))
      (fun f hf => nul_not_mem_fieldsOf _ f (List.mem_of_mem_take hf)) ?_ number
    · exact hrows.1
    · rw [htake, List.take_take]
      exact h.short (hmany.mp hfew)
  · exact nofun

theorem ends_of_safe (hnul : nul ∉ config)
    (h : ∀ beyond number, Safe (checkEccNumber config beyond number)) : EndsInCopy config := by
  intro hfull
  by_contra hends
  rw [not_or, not_exists] at hends
  have hnone : ∀ c ∈ config, isEnd c = false := by
    intro c hc
    have hspace := hends.1 c
    have hne : c ≠ nul := fun h => hnul (h ▸ hc)
    simpa [isEnd, hne, hc] using hspace
  have hne : config ≠ [] := by
    rintro rfl
    cases hfull
  obtain ⟨fs, g, hfields, happend⟩ := fieldsOf_append hne
  rw [upTo_of_none hnone, hfields, List.length_append, List.length_singleton] at hends
  have htable := (h (List.replicate 61 'x') []).table
  have hsplit : (List.replicate 61 'x').splitOn ',' = [List.replicate 61 'x'] := by decide
  have hx : upTo (List.replicate 61 'x') = List.replicate 61 'x' := by decide
  rw [checkEccNumber_fields, database_full hfull, upTo_append_of_none hnone, hx, happend,
    hsplit] at htable
  have hmem : ((fs ++ [g ++ List.replicate 61 'x']).take 11)[fs.length]? =
      some (g ++ List.replicate 61 'x') := by
    rw [List.getElem?_take_of_lt (by omega), List.getElem?_concat_length]
  have hlong := htable _ (List.mk_mem_zipIdx_iff_getElem?.mpr hmem)
  simp at hlong
  omega

theorem safe_iff (config : Text 64) (hnul : nul ∉ config.chars) :
    (∀ beyond number, Safe (checkEccNumber config.chars beyond number)) ↔
      Contained config.chars := by
  constructor
  · intro h
    have hcopy := (h [] []).copy
    have hends := ends_of_safe hnul h
    obtain ⟨htake, hmany⟩ := fields_database hnul hcopy hends []
    have hsafe := h [] []
    rw [checkEccNumber_fields] at hsafe
    refine ⟨hcopy, hends, by simpa only [htake] using hsafe.table, fun hfew => ?_⟩
    have hrows := hsafe.rows
    rw [if_pos (hmany.mpr hfew)] at hrows
    have hshort := compare_long blank_initial (Nat.zero_add 10)
      (length_take_eleven (fieldsOf (upTo (database config.chars []))))
      (fun f hf => nul_not_mem_fieldsOf _ f (List.mem_of_mem_take hf)) hrows
    rwa [htake, List.take_take] at hshort
  · intro h
    exact h.safe hnul

theorem default_safe : Safe (checkEccNumber "110,112,911".toList [] "112".toList) :=
  (safe_iff ⟨"110,112,911".toList, by decide⟩ (by decide)).mpr
    ⟨by decide, fun h => absurd h (by decide), by decide, fun _ => by decide⟩ [] "112".toList

/-- The eleventh field is written behind the table. -/
theorem eleven_fields_unsafe :
    ¬ ∀ config : Text 64, nul ∉ config.chars →
      ∀ beyond number, Safe (checkEccNumber config.chars beyond number) := by
  intro h
  have hsafe := h ⟨"1,2,3,4,5,6,7,8,9,0,1".toList, by decide⟩ (by decide) [] []
  exact absurd (hsafe.table (['1'], 10) (by decide)) (by decide)

end Safety

section Found

variable {fields fs : List (List Char)} {f number : List Char}

/-- At most ten fields of at most five characters, none of them a comma or white space, in a
text of at most 31 characters. -/
structure Configured (fields : List (List Char)) : Prop where
  count : fields.length ≤ 10
  size : ∀ f ∈ fields, f.length ≤ 5
  chars : ∀ f ∈ fields, ∀ c ∈ f, c ≠ ',' ∧ isEnd c = false
  total : ([','].intercalate fields).length ≤ 31

/-- How a list that begins with an empty field begins for the splitter: with a comma, and
with five characters more, the row runs into the next one. -/
def firstEntry (f : List Char) (fs : List (List Char)) : List Char :=
  ',' :: f ++ if f.length = 5 then fs.headD [] else []

/-- The number is no field behind an empty one, but for an empty first field, which takes the
second one with it. -/
def Recognised (fields : List (List Char)) (number : List Char) : Prop :=
  match fields with
  | [] :: f :: fs => number ≠ firstEntry f fs ∧ (number ∈ f :: fs → number ∈ beforeEmpty fs)
  | fields => number ∈ fields → number ∈ beforeEmpty fields

theorem intercalate_cons_cons (f g : List Char) (fs : List (List Char)) :
    [','].intercalate (f :: g :: fs) = f ++ ',' :: [','].intercalate (g :: fs) := by
  simp [List.intercalate]

theorem isEnd_intercalate (h : ∀ f ∈ fields, ∀ c ∈ f, c ≠ ',' ∧ isEnd c = false) :
    ∀ c ∈ [','].intercalate fields, isEnd c = false := by
  induction fields with
  | nil => nofun
  | cons f fields ih =>
    rw [List.forall_mem_cons] at h
    have hfirst : ∀ c ∈ f, isEnd c = false := fun c hc => (h.1 c hc).2
    cases fields with
    | nil => simpa [List.intercalate] using hfirst
    | cons g fields =>
      rw [intercalate_cons_cons, List.forall_mem_append, List.forall_mem_cons]
      exact ⟨hfirst, rfl, ih h.2⟩

theorem fieldsOf_nonempty (h : Configured (f :: fs)) (hf : f ≠ []) :
    fieldsOf ([','].intercalate (f :: fs)) = f :: fs := by
  obtain ⟨c, f, rfl⟩ := List.exists_cons_of_ne_nil hf
  have hcons : [','].intercalate ((c :: f) :: fs) = c :: [','].intercalate (f :: fs) := by
    cases fs with
    | nil => simp [List.intercalate]
    | cons g fs => simp only [intercalate_cons_cons, List.cons_append]
  have hcomma : ∀ l ∈ f :: fs, ',' ∉ l := by
    rw [List.forall_mem_cons]
    refine ⟨fun hc => ?_, fun l hl hc => (h.chars l (List.mem_cons_of_mem _ hl) ',' hc).1 rfl⟩
    exact (h.chars _ List.mem_cons_self ',' (List.mem_cons_of_mem _ hc)).1 rfl
  rw [hcons, fieldsOf, List.splitOn_intercalate ',' hcomma (List.cons_ne_nil _ _),
    List.modifyHead_cons]

theorem fieldsOf_leading (h : Configured ([] :: f :: fs)) :
    fieldsOf ([','].intercalate ([] :: f :: fs)) = (',' :: f) :: fs := by
  have hcomma : ∀ l ∈ f :: fs, ',' ∉ l :=
    fun l hl hc => (h.chars l (List.mem_cons_of_mem _ hl) ',' hc).1 rfl
  rw [intercalate_cons_cons, List.nil_append, fieldsOf,
    List.splitOn_intercalate ',' hcomma (List.cons_ne_nil _ _), List.modifyHead_cons]

theorem result_of_fields (h : Configured fields) {F : List (List Char)}
    (hF : fieldsOf ([','].intercalate fields) = F) (hlen : F.length ≤ 10)
    (beyond number : List Char) :
    (checkEccNumber ([','].intercalate fields) beyond number).result =
      (compareRows ((F.zipIdx 0).foldl memcpy (List.replicate 60 nul)) number
        (List.range' 0 10)).2 := by
  have hnone := isEnd_intercalate h.chars
  have hnul : nul ∉ [','].intercalate fields := fun hmem => by
    simpa [isEnd] using hnone nul hmem
  have hends : EndsInCopy ([','].intercalate fields) := fun hfull => by
    have := h.total
    omega
  obtain ⟨htake, hmany⟩ := fields_database hnul (Nat.le_succ_of_le h.total) hends beyond
  rw [upTo_of_none hnone, hF] at htake hmany
  rw [checkEccNumber_fields, if_pos (hmany.mpr (by omega)), htake,
    List.take_of_length_le (by omega)]

theorem nul_not_mem_configured (h : Configured fields) : ∀ f ∈ fields, nul ∉ f := by
  intro f hf hc
  simpa [isEnd] using (h.chars f hf nul hc).2

theorem result_of_short (h : Configured fields) {F : List (List Char)}
    (hF : fieldsOf ([','].intercalate fields) = F) (hlen : F.length ≤ 10)
    (hnul : ∀ f ∈ F, nul ∉ f) (hshort : ∀ f ∈ F, f.length ≤ 5) (beyond number : List Char) :
    (checkEccNumber ([','].intercalate fields) beyond number).result = 0 ↔
      number ∈ beforeEmpty F := by
  have htake : F.take 10 = F := List.take_of_length_le hlen
  have hrows := compare_fields blank_initial (Nat.zero_add 10)
    (show 0 + F.length ≤ 11 by omega) hnul
    (fun f hf => hshort f (List.mem_of_mem_take (List.takeWhile_subset _ hf))) number
  rw [result_of_fields h hF hlen, hrows.2, htake]

theorem result_nonempty (h : Configured (f :: fs)) (hf : f ≠ []) (beyond number : List Char) :
    (checkEccNumber ([','].intercalate (f :: fs)) beyond number).result = 0 ↔
      number ∈ beforeEmpty (f :: fs) :=
  result_of_short h (fieldsOf_nonempty h hf) h.count (nul_not_mem_configured h) h.size beyond number

theorem compare_six (hf : f.length = 5) (hcount : fs.length ≤ 9) (hnul : ∀ g ∈ f :: fs, nul ∉ g)
    (hsize : ∀ g ∈ fs, g.length ≤ 5) (number : List Char) :
    (compareRows ((((',' :: f) :: fs).zipIdx 0).foldl memcpy (List.replicate 60 nul)) number
      (List.range' 0 10)).2 = 0 ↔ number = firstEntry f fs ∨ number ∈ beforeEmpty fs := by
  rw [List.forall_mem_cons] at hnul
  have hlen : (',' :: f).length = 6 := by rw [List.length_cons, hf]
  have hblank := blank_initial.next (f := ',' :: f) (Nat.zero_le _) hlen.le
  have hrow := blank_initial.row_foldl (f := ',' :: f) (by omega)
    (show 0 + fs.length ≤ 10 by omega)
  have hrows := compare_fields hblank (show 0 + 1 + 9 = 10 by omega) (by omega) hnul.2
    (fun g hg => hsize g (List.mem_of_mem_take (List.takeWhile_subset _ hg))) number
  have hsecond : cString ((fs.zipIdx (0 + 1)).foldl memcpy (memcpy (List.replicate 60 nul)
      (',' :: f, 0))) (6 * (0 + 1)) = fs.headD [] := by
    cases fs with
    | nil => exact hblank.cString
    | cons g fs =>
      rw [List.forall_mem_cons] at hnul hsize
      rw [List.length_cons] at hcount
      exact hblank.cString_foldl (by omega) (by omega) hnul.2.1 (by omega)
  rw [← List.foldl_cons, ← List.zipIdx_cons] at hrows hsecond
  have hfirst : cString ((((',' :: f) :: fs).zipIdx 0).foldl memcpy (List.replicate 60 nul))
      (6 * 0) = firstEntry f fs := by
    have hpos : ∀ c ∈ ',' :: f, decide (c ≠ nul) = true := by
      rw [List.forall_mem_cons]
      exact ⟨by decide, fun c hc => decide_eq_true fun h => hnul.1 (h ▸ hc)⟩
    rw [cString_eq, hrow, take_row hlen.ge, List.take_of_length_le hlen.le,
      List.takeWhile_append_of_pos hpos, firstEntry, if_pos hf, ← hsecond]
    rfl
  rw [List.range'_succ, compareRows, hfirst,
    if_neg (show firstEntry f fs ≠ [] from List.cons_ne_nil _ _)]
  by_cases heq : number = firstEntry f fs
  · simp [heq]
  · rw [if_neg heq, or_iff_right heq, hrows.2, List.take_of_length_le hcount]

theorem result_leading (h : Configured ([] :: f :: fs)) (beyond number : List Char) :
    (checkEccNumber ([','].intercalate ([] :: f :: fs)) beyond number).result = 0 ↔
      number = firstEntry f fs ∨ number ∈ beforeEmpty fs := by
  have hF := fieldsOf_leading h
  have hcount : ((',' :: f) :: fs).length ≤ 10 := by
    have := h.count
    simp only [List.length_cons] at this ⊢
    omega
  have hnul : ∀ g ∈ (',' :: f) :: fs, nul ∉ g := by
    have hfields := nul_not_mem_configured h
    simp only [List.forall_mem_cons] at hfields ⊢
    refine ⟨?_, hfields.2.2⟩
    rw [List.mem_cons, not_or]
    exact ⟨by decide, hfields.2.1⟩
  have hsize := h.size
  simp only [List.forall_mem_cons] at hsize
  by_cases hfive : f.length = 5
  · rw [result_of_fields h hF hcount]
    refine compare_six hfive (Nat.le_of_succ_le_succ hcount) ?_ hsize.2.2 number
    exact fun g hg => nul_not_mem_configured h g (List.mem_cons_of_mem _ hg)
  · have hshort : ∀ g ∈ (',' :: f) :: fs, g.length ≤ 5 := by
      rw [List.forall_mem_cons, List.length_cons]
      exact ⟨by omega, hsize.2.2⟩
    rw [result_of_short h hF hcount hnul hshort, beforeEmpty_cons (List.cons_ne_nil _ _),
      List.mem_cons, firstEntry, if_neg hfive, List.append_nil]

/-- The check finds the number exactly if it is a field, exactly where the number is not behind
an empty field, and for a list that begins with one, not what the splitter takes for a field. -/
theorem checkEccNumber_iff (h : Configured fields) (hnumber : number ≠ [])
    (beyond : List Char) :
    ((checkEccNumber ([','].intercalate fields) beyond number).result = 0 ↔ number ∈ fields) ↔
      Recognised fields number := by
  have hsubset : number ∈ beforeEmpty fields → number ∈ fields :=
    fun hmem => List.takeWhile_subset _ hmem
  match fields, h with
  | [], h =>
    rw [result_of_short h (F := []) rfl (Nat.zero_le _) nofun nofun]
    simp [Recognised, beforeEmpty]
  | [[]], h =>
    rw [result_of_short h (F := []) rfl (Nat.zero_le _) nofun nofun]
    simp [Recognised, beforeEmpty, hnumber]
  | (c :: f) :: fs, h =>
    rw [result_nonempty h (List.cons_ne_nil _ _)]
    exact ⟨fun hiff => hiff.mpr, fun hfound => ⟨hsubset, hfound⟩⟩
  | [] :: f :: fs, h =>
    have hcomma : number = firstEntry f fs → number ∉ f :: fs := by
      rintro rfl hmem
      exact (h.chars _ (List.mem_cons_of_mem _ hmem) ',' List.mem_cons_self).1 rfl
    have hbehind : number ∈ beforeEmpty fs → number ∈ f :: fs :=
      fun hmem => List.mem_cons_of_mem _ (List.takeWhile_subset _ hmem)
    rw [result_leading h, List.mem_cons, or_iff_right hnumber, Recognised]
    tauto

theorem recognised_before_empty :
    ((checkEccNumber "110,112,,911".toList [] "112".toList).result = 0 ↔
      "112".toList ∈ ["110".toList, "112".toList, [], "911".toList]) := by
  have h : Configured ["110".toList, "112".toList, [], "911".toList] :=
    ⟨by decide, by decide, by simp [isEnd, isspace, nul], by decide⟩
  exact (checkEccNumber_iff h (by decide) []).mpr fun _ => by decide

/-- With a comma before it, a number is not found. -/
theorem leading_comma_hides_number :
    ¬ ∀ fields : List (List Char), Configured fields → ∀ number, number ≠ [] → ∀ beyond,
      ((checkEccNumber ([','].intercalate fields) beyond number).result = 0 ↔
        number ∈ fields) := by
  intro h
  have hlist : Configured [[], "112".toList] :=
    ⟨by decide, by decide, by simp [isEnd, isspace, nul], by decide⟩
  have hfound := h [[], "112".toList] hlist "112".toList (by decide) []
  exact absurd (hfound.mpr (by decide)) (by decide)

end Found

end EmergencyNumbers
