import Mathlib.Logic.Function.Basic
import MyGitCode.DbDevices
import MyGitCode.DbEscapeBounds

/-! # Rows of the device table, byte by byte

What the two callbacks write into the arrays of a device. A call has no result where it writes
outside of an array, or reads a text that is NULL. -/
namespace DbDeviceRows

open StrKit CBuffer SqlTokens DbEscape DbEscapeBounds DbStatements DbDevices

def cap : Field → ℕ
  | .deviceToken => 128
  | .macAddress | .osType | .pushTime | .monthlyPushTime => 20
  | .message | .monthlyMessage => 256

def Escaped : Field → Prop
  | .message | .monthlyMessage => True
  | .deviceToken | .macAddress | .osType | .pushTime | .monthlyPushTime => False

instance (f : Field) : Decidable (Escaped f) := by
  cases f <;> simp only [Escaped] <;> infer_instance

abbrev DeviceInfo := (f : Field) → Buffer (cap f)

/-- A column of a row: its name, and its text, which is NULL for an SQL NULL. -/
abbrev Column := Name × Option (List Char)

/-- The branch for one column. The length is compared with the size of the array, and a message
goes through a local buffer, in which `stack` was before. -/
def copyColumn (stack : Buffer 256) (f : Field) (value : Option (List Char))
    (array : Buffer (cap f)) : Option (Buffer (cap f)) :=
  value.bind fun s =>
    if s.length ≤ cap f then
      if Escaped f then
        (decodeEscapeStringInto s stack).bind fun decoded => strcpy array (text decoded.2)
      else strcpy array s
    else some array

def readColumn (stack : Buffer 256) (info : DeviceInfo) (c : Column) : Option DeviceInfo :=
  match Field.all.find? fun f => f.column = c.1 with
  | some f => (copyColumn stack f c.2 (info f)).map fun array => Function.update info f array
  | none => some info

/-- `db_get_dev_cb`. -/
def getDevCb (stack : Buffer 256) (info : DeviceInfo) (row : List Column) : Option DeviceInfo :=
  row.foldlM (readColumn stack) info

/-- `SDevicePushInfoListReq`, whose `pInfo` is NULL or the array of `length` entries that the
caller gave. -/
structure ListReq (length : ℕ) where
  pInfo : Option (Fin length → DeviceInfo)
  realLen : ℕ

/-- `db_get_dev_lst_cb`. Rows without an entry for them are only counted. -/
def getDevLstCb {length : ℕ} (stack : Buffer 256) (req : ListReq length) (row : List Column) :
    Option (ListReq length) :=
  match req.pInfo with
  | none => some { req with realLen := req.realLen + 1 }
  | some pInfo =>
    if h : length > req.realLen then
      (getDevCb stack (pInfo ⟨req.realLen, h⟩) row).map fun info =>
        ⟨some (Function.update pInfo ⟨req.realLen, h⟩ info), req.realLen + 1⟩
    else some { req with realLen := req.realLen + 1 }

/-- A text that can be copied: it is there, and does not fill an array to the last byte. -/
def Fits (f : Field) (value : Option (List Char)) : Prop :=
  ∃ s, value = some s ∧ (s.length = cap f → Escaped f)

def Writes (f : Field) (c : Column) : Prop :=
  c.1 = f.column ∧ ∃ s, c.2 = some s ∧ s.length ≤ cap f

def Readable (row : List Column) : Prop := ∀ c ∈ row, ∀ f : Field, c.1 = f.column → Fits f c.2

variable {stack : Buffer 256} {f : Field} {value : Option (List Char)} {info : DeviceInfo}
  {c : Column} {row : List Column}

theorem escaped_cap (h : Escaped f) : cap f = 256 := by
  cases f <;> first | rfl | cases h

theorem kept_copyColumn {s : List Char} (stack : Buffer 256) (array : Buffer (cap f))
    (hle : s.length ≤ cap f) :
    if s.length = cap f ∧ ¬ Escaped f then copyColumn stack f (some s) array = none
    else Kept (copyColumn stack f (some s) array) := by
  rw [copyColumn, Option.bind_some, if_pos hle]
  by_cases hescaped : Escaped f
  · obtain ⟨b, hdecode, hholds, hlt⟩ := decodeEscapeStringInto_holds (by decide) stack s
    rw [if_neg (fun h => h.2 hescaped), if_pos hescaped, hdecode, Option.bind_some,
      kept_strcpy_iff, escaped_cap hescaped]
    exact terminated_iff.mp (hholds.terminated hlt)
  · rw [if_neg hescaped]
    split
    · rename_i h
      exact strcpy_eq_none h.1.ge
    · rename_i h
      have hne : s.length ≠ cap f := fun heq => h ⟨heq, hescaped⟩
      exact kept_strcpy_iff.mpr (lt_of_le_of_ne hle hne)

theorem column_inj {f g : Field} (h : f.column = g.column) : f = g := by
  have hfind := find_column f
  rw [h, find_column g] at hfind
  exact (Option.some.inj hfind).symm

theorem readColumn_field (h : c.1 = f.column) : readColumn stack info c =
    (copyColumn stack f c.2 (info f)).map fun array => Function.update info f array := by
  rw [readColumn, h, find_column]

theorem readColumn_other (h : ∀ f : Field, c.1 ≠ f.column) :
    readColumn stack info c = some info := by
  have hfind : (Field.all.find? fun f => f.column = c.1) = none := by
    rw [List.find?_eq_none]
    intro f _ heq
    exact h f (of_decide_eq_true heq).symm
  rw [readColumn, hfind]

structure ColumnRead (info info' : DeviceInfo) (c : Column) : Prop where
  written : ∀ f, Writes f c → Terminated (info' f)
  frame : ∀ f, ¬ Writes f c → info' f = info f

theorem readColumn_of_fits (stack : Buffer 256) (info : DeviceInfo)
    (h : ∀ f : Field, c.1 = f.column → Fits f c.2) :
    ∃ info', readColumn stack info c = some info' ∧ ColumnRead info info' c := by
  by_cases hname : ∃ f : Field, c.1 = f.column
  · obtain ⟨f, hf⟩ := hname
    obtain ⟨s, hs, hfull⟩ := h f hf
    rw [readColumn_field hf, hs]
    by_cases hle : s.length ≤ cap f
    · have hkept := kept_copyColumn stack (info f) hle
      rw [if_neg (fun hn => hn.2 (hfull hn.1))] at hkept
      obtain ⟨array, harray, hterminated⟩ := hkept
      refine ⟨Function.update info f array, congrArg (Option.map _) harray, ?_, ?_⟩
      · intro g hg
        obtain rfl : f = g := column_inj (hf.symm.trans hg.1)
        rwa [Function.update_self]
      · intro g hg
        apply Function.update_of_ne
        rintro rfl
        exact hg ⟨hf, s, hs, hle⟩
    · refine ⟨info, ?_, ?_, fun _ _ => rfl⟩
      · rw [copyColumn, Option.bind_some, if_neg hle, Option.map_some, Function.update_eq_self]
      · rintro g ⟨hg, s', hs', hle'⟩
        obtain rfl : f = g := column_inj (hf.symm.trans hg)
        obtain rfl : s = s' := Option.some.inj (hs.symm.trans hs')
        exact absurd hle' hle
  · have hother : ∀ f : Field, c.1 ≠ f.column := fun f hf => hname ⟨f, hf⟩
    exact ⟨info, readColumn_other hother, fun f hf => absurd hf.1 (hother f), fun _ _ => rfl⟩

theorem readColumn_eq_none (hname : c.1 = f.column) (h : ¬ Fits f c.2) :
    readColumn stack info c = none := by
  rw [readColumn_field hname]
  cases hvalue : c.2 with
  | none => rfl
  | some s =>
    have hfull : s.length = cap f ∧ ¬ Escaped f := by
      by_contra hn
      refine h ⟨s, hvalue, ?_⟩
      intro hlen
      by_contra hescaped
      exact hn ⟨hlen, hescaped⟩
    have hnone := kept_copyColumn stack (info f) hfull.1.le
    rw [if_pos hfull] at hnone
    rw [hnone, Option.map_none]

/-- A row whose columns can all be read. What was a C string still is, and so are the arrays that
were written. -/
theorem getDevCb_of_readable (stack : Buffer 256) (info : DeviceInfo) (h : Readable row) :
    ∃ info', getDevCb stack info row = some info' ∧
      ∀ f, Terminated (info f) ∨ (∃ c ∈ row, Writes f c) → Terminated (info' f) := by
  induction row generalizing info with
  | nil =>
    refine ⟨info, rfl, ?_⟩
    rintro f (hf | ⟨c, hc, -⟩)
    · exact hf
    · cases hc
  | cons c row ih =>
    obtain ⟨info₁, hread, hcolumn⟩ := readColumn_of_fits stack info (h c List.mem_cons_self)
    obtain ⟨info', hrow, hkept⟩ := ih info₁ fun c hc => h c (List.mem_cons_of_mem _ hc)
    refine ⟨info', ?_, ?_⟩
    · rw [getDevCb, List.foldlM_cons, hread]
      exact hrow
    · intro f hf
      apply hkept
      by_cases hc : Writes f c
      · exact .inl (hcolumn.written f hc)
      · rw [hcolumn.frame f hc]
        rcases hf with hf | ⟨c', hc', hf⟩
        · exact .inl hf
        · rcases List.mem_cons.mp hc' with rfl | hc'
          · exact absurd hf hc
          · exact .inr ⟨c', hc', hf⟩

theorem getDevCb_eq_none (h : ¬ Readable row) : getDevCb stack info row = none := by
  induction row generalizing info with
  | nil => exact absurd (fun _ hc => nomatch hc) h
  | cons c row ih =>
    rw [getDevCb, List.foldlM_cons]
    by_cases hc : ∃ f : Field, c.1 = f.column ∧ ¬ Fits f c.2
    · obtain ⟨f, hname, hfits⟩ := hc
      rw [readColumn_eq_none hname hfits]
      rfl
    · have hall : ∀ f : Field, c.1 = f.column → Fits f c.2 := by
        intro f hname
        by_contra hfits
        exact hc ⟨f, hname, hfits⟩
      have hrow : ¬ Readable row := fun hrow => h (List.forall_mem_cons.mpr ⟨hall, hrow⟩)
      obtain ⟨info₁, hread, -⟩ := readColumn_of_fits stack info hall
      rw [hread]
      exact ih hrow

/-- What is asked of `db_get_dev_cb`. -/
def Reads (stack : Buffer 256) (info : DeviceInfo) (row : List Column) : Prop :=
  ∃ info', getDevCb stack info row = some info' ∧
    ∀ f, (∃ c ∈ row, Writes f c) → Terminated (info' f)

/-- What is asked of `db_get_dev_lst_cb`: the entry for the row is read like a device. -/
def ListReads {length : ℕ} (stack : Buffer 256) (req : ListReq length) (row : List Column) : Prop :=
  ∃ req', getDevLstCb stack req row = some req' ∧
    ∀ pInfo, req.pInfo = some pInfo → ∀ h : req.realLen < length,
      ∃ pInfo', req'.pInfo = some pInfo' ∧
        ∀ f, (∃ c ∈ row, Writes f c) → Terminated (pInfo' ⟨req.realLen, h⟩ f)

theorem reads_iff : Reads stack info row ↔ Readable row := by
  constructor
  · rintro ⟨info', hread, -⟩
    by_contra h
    rw [getDevCb_eq_none h] at hread
    cases hread
  · intro h
    obtain ⟨info', hread, hkept⟩ := getDevCb_of_readable stack info h
    exact ⟨info', hread, fun f hf => hkept f (.inr hf)⟩

theorem listReads_iff {length : ℕ} {req : ListReq length} : ListReads stack req row ↔
    (req.pInfo.isSome → req.realLen < length → Readable row) := by
  obtain ⟨pInfo, realLen⟩ := req
  cases pInfo with
  | none =>
    refine iff_of_true ⟨_, rfl, nofun⟩ nofun
  | some pInfo =>
    by_cases hlt : realLen < length
    · have hcb : getDevLstCb stack ⟨some pInfo, realLen⟩ row = _ := dif_pos hlt
      constructor
      · rintro ⟨req', hread, -⟩ _ _
        rw [hcb] at hread
        obtain ⟨info', hinfo, -⟩ := Option.map_eq_some_iff.mp hread
        by_contra h
        rw [getDevCb_eq_none h] at hinfo
        cases hinfo
      · intro h
        obtain ⟨info', hread, hkept⟩ := getDevCb_of_readable stack (pInfo ⟨realLen, hlt⟩)
          (h rfl hlt)
        refine ⟨_, hcb.trans (congrArg (Option.map _) hread), ?_⟩
        rintro _ ⟨⟩ _
        refine ⟨_, rfl, ?_⟩
        intro f hf
        rw [Function.update_self]
        exact hkept f (.inr hf)
    · have hcb : getDevLstCb stack ⟨some pInfo, realLen⟩ row = _ := dif_neg hlt
      refine iff_of_true ⟨_, hcb, ?_⟩ fun _ h => absurd h hlt
      intro _ _ h
      exact absurd h hlt

def texts (info : DeviceInfo) : Field → List Char := fun f => text (info f)

def chars (info : DevicePushInfo) : Field → List Char
  | .deviceToken => info.deviceToken.chars
  | .macAddress => info.macAddress.chars
  | .osType => info.osType.chars
  | .message => info.message.chars
  | .monthlyMessage => info.monthlymessage.chars
  | .pushTime => info.pushTime.chars
  | .monthlyPushTime => info.monthlypushTime.chars

def copyChars (f : Field) (value : Option (List Char)) (before : List Char) : Option (List Char) :=
  value.bind fun s =>
    if s.length ≤ cap f then
      if Escaped f then some (decodeLoop 256 s [])
      else if s.length < cap f then some s else none
    else some before

theorem copyColumn_text (stack : Buffer 256) (array : Buffer (cap f))
    (h : ∀ s, value = some s → nul ∉ s) :
    (copyColumn stack f value array).map text = copyChars f value (text array) := by
  cases value with
  | none => rfl
  | some s =>
    rw [copyColumn, copyChars, Option.bind_some, Option.bind_some]
    by_cases hle : s.length ≤ cap f
    · rw [if_pos hle, if_pos hle]
      by_cases hescaped : Escaped f
      · obtain ⟨b, hdecode, hholds, hlt⟩ := decodeEscapeStringInto_holds (by decide) stack s
        have htext : text b = decodeLoop 256 s [] :=
          hholds.text hlt (nul_not_mem_decodeLoop (h s rfl) List.not_mem_nil)
        have hfit : (text b).length < cap f := by rwa [htext, escaped_cap hescaped]
        obtain ⟨b', hb', -⟩ := kept_strcpy_iff (b := array).mpr hfit
        rw [if_pos hescaped, if_pos hescaped, hdecode, Option.bind_some, hb', Option.map_some,
          text_strcpy hb' nul_not_mem_text, htext]
      · rw [if_neg hescaped, if_neg hescaped]
        split
        · rename_i hlt
          obtain ⟨b, hb, -⟩ := kept_strcpy_iff (b := array).mpr hlt
          rw [hb, Option.map_some, text_strcpy hb (h s rfl)]
        · rename_i hlt
          rw [strcpy_eq_none (Nat.le_of_not_lt hlt), Option.map_none]
    · rw [if_neg hle, if_neg hle, Option.map_some]

section SetField

variable {n : ℕ} {before : CText.Text n} {view : DevicePushInfo} (hn : n = cap f)
include hn

theorem copyText_chars (h : ¬ Escaped f) :
    (copyText value before).map CText.Text.chars = copyChars f value before.chars := by
  subst hn
  cases value with
  | none => rfl
  | some s =>
    rw [copyText, copyChars, Option.bind_some, Option.bind_some, if_neg h]
    rcases Nat.lt_trichotomy s.length (cap f) with hlt | heq | hgt
    · rw [dif_pos hlt, if_pos hlt.le, if_pos hlt, Option.map_some]
    · rw [dif_neg heq.not_lt, if_pos heq, if_pos heq.le, if_neg heq.not_lt, Option.map_none]
    · rw [dif_neg hgt.not_gt, if_neg hgt.ne', if_neg hgt.not_ge, Option.map_some]

theorem copyText_update (h : ¬ Escaped f) (hbefore : chars view f = before.chars)
    {set : CText.Text n → DevicePushInfo}
    (hset : ∀ t, chars (set t) = Function.update (chars view) f t.chars) :
    ((copyText value before).map set).map chars =
      (copyChars f value (chars view f)).map (Function.update (chars view) f) := by
  rw [hbefore, ← copyText_chars hn h, Option.map_map, Option.map_map]
  exact congrArg (Option.map · _) (funext hset)

end SetField

theorem copyMessage_update {before : CText.Text 256} {view : DevicePushInfo} (h : Escaped f)
    (hbefore : chars view f = before.chars) {set : CText.Text 256 → DevicePushInfo}
    (hset : ∀ t, chars (set t) = Function.update (chars view) f t.chars) :
    ((copyMessage value before).map set).map chars =
      (copyChars f value (chars view f)).map (Function.update (chars view) f) := by
  have hchars : (copyMessage value before).map CText.Text.chars =
      copyChars f value before.chars := by
    cases value with
    | none => rfl
    | some s =>
      obtain ⟨-, -, -, hlt⟩ := decodeEscapeStringInto_holds (n := 256) (by decide) (zeroed 256) s
      rw [copyMessage, copyChars, Option.bind_some, Option.bind_some, if_pos h, escaped_cap h]
      split
      · rw [decodeEscapeString, if_neg (by decide), Option.bind_some, dif_pos hlt,
          Option.map_some]
      · rfl
  rw [hbefore, ← hchars, Option.map_map, Option.map_map]
  exact congrArg (Option.map · _) (funext hset)

theorem setField_chars (view : DevicePushInfo) : (setField view value f).map chars =
    (copyChars f value (chars view f)).map (Function.update (chars view) f) := by
  cases f with
  | deviceToken | macAddress | osType | pushTime | monthlyPushTime =>
    apply copyText_update
    · rfl
    · exact id
    · rfl
    · intro t
      funext g
      cases g <;> rfl
  | message | monthlyMessage =>
    apply copyMessage_update
    · trivial
    · rfl
    · intro t
      funext g
      cases g <;> rfl

def viewColumn (view : DevicePushInfo) (c : Column) : Option DevicePushInfo :=
  match Field.all.find? fun f : Field => f.column = c.1 with
  | some f => setField view c.2 f
  | none => some view

theorem readColumn_texts (stack : Buffer 256) {view : DevicePushInfo} (h : texts info = chars view)
    (hc : ∀ s, c.2 = some s → nul ∉ s) :
    (readColumn stack info c).map texts = (viewColumn view c).map chars := by
  rw [readColumn, viewColumn]
  split
  · rename_i f _
    have htext : text (info f) = chars view f := congrFun h f
    rw [setField_chars, ← htext, ← copyColumn_text stack (info f) hc, Option.map_map,
      Option.map_map, ← h]
    apply congrArg (Option.map · _)
    funext array g
    by_cases hg : g = f
    · subst hg
      simp only [Function.comp_apply, texts, Function.update_self]
    · simp only [Function.comp_apply, texts, Function.update_of_ne hg]
  · rw [Option.map_some, Option.map_some, h]

/-- The texts that the bytes spell are those of `dbGetDevCb`. -/
theorem getDevCb_texts {view : DevicePushInfo} (h : texts info = chars view)
    (hrow : ∀ c ∈ row, ∀ s, c.2 = some s → nul ∉ s) :
    (getDevCb stack info row).map texts = (dbGetDevCb view row).map chars := by
  have hview : dbGetDevCb view row = row.foldlM viewColumn view := rfl
  rw [hview, getDevCb]
  clear hview
  induction row generalizing info view with
  | nil => exact congrArg some h
  | cons c row ih =>
    rw [List.forall_mem_cons] at hrow
    have hstep := readColumn_texts stack h hrow.1
    rw [List.foldlM_cons, List.foldlM_cons]
    cases hread : readColumn stack info c with
    | none =>
      rw [hread, Option.map_none, eq_comm, Option.map_eq_none_iff] at hstep
      rw [hstep]
      rfl
    | some info' =>
      rw [hread, Option.map_some, eq_comm, Option.map_eq_some_iff] at hstep
      obtain ⟨view', hview, hchars⟩ := hstep
      rw [hview]
      exact ih hchars.symm hrow.2

/-- Rows are read inside of the arrays exactly if no text that is used is missing or fills its
array to the last byte; the rows of a list, where there is an entry for them. -/
theorem rows_read_iff {length : ℕ} (stack : Buffer 256) (info : DeviceInfo) (req : ListReq length)
    (row : List Column) : (Reads stack info row ↔ Readable row) ∧
      (ListReads stack req row ↔ (req.pInfo.isSome → req.realLen < length → Readable row)) :=
  ⟨reads_iff, listReads_iff⟩

/-- A token of 128 characters, and a device that was stored without push times. -/
theorem full_token_and_null_not_read : ∃ (stack : Buffer 256) (info : DeviceInfo),
    ¬ Reads stack info [("DeviceToken".toList, some (List.replicate 128 'a'))] ∧
    ¬ Reads stack info [("PushTime".toList, none)] ∧
    ¬ ListReads stack ⟨some fun _ : Fin 1 => info, 0⟩ [("PushTime".toList, none)] := by
  have hnull : ¬ Readable [("PushTime".toList, none)] := by
    intro h
    obtain ⟨s, hs, -⟩ := h _ (List.mem_singleton.mpr rfl) .pushTime rfl
    cases hs
  refine ⟨zeroed 256, fun _ => zeroed _, ?_⟩
  rw [reads_iff, reads_iff, listReads_iff]
  refine ⟨?_, hnull, fun h => hnull (h rfl Nat.one_pos)⟩
  intro h
  obtain ⟨s, hs, hfull⟩ := h _ (List.mem_singleton.mpr rfl) .deviceToken rfl
  obtain rfl : List.replicate 128 'a' = s := Option.some.inj hs
  exact hfull List.length_replicate

end DbDeviceRows
