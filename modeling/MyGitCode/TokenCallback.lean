import MyGitCode.CBuffer
import MyGitCode.HttpReceive
import MyGitCode.StrSplit

/-! # `run.c`: the access token in a response

`get_access_token_cb` cuts the response at quotes, from the text `access_token` to the next
comma, and takes the second piece behind that text for the token. -/
namespace TokenCallback

open CBuffer DelimitedRuns StrKit StrSplit
open HttpReceive (strstr strstr_append_eq strstr_bound strstr_eq_none strstr_eq_some)

def tokenName : List Char := "access_token".toList

def quoteDelim : List Char := "\"".toList

def commaDelim : List Char := ",".toList

/-- The loop that copies the pieces, piece `i` to `sub_string[i]`. The two rows of 128 bytes
are one array, and a copy that leaves it has no result. -/
def copyLoop (buf : List Char) (pos i : ℕ) (subString : Buffer 256) : Option (Buffer 256) :=
  match _h : strtok buf quoteDelim pos with
  | none => none
  | some r =>
    match _ht : r.token with
    | none => some subString
    | some token =>
      match stringAt r.buf token with
      | none => none
      | some p =>
        match memcpy subString (128 * i) p with
        | none => none
        | some subString => copyLoop r.buf r.saved (i + 1) subString
termination_by buf.length - pos
decreasing_by
  have := strtok_token _h _ht
  omega

/-- The part under `Parse access token`, which fills `sub_string`. -/
def parseAccessToken (responseBody : Buffer 1024) : Option (Buffer 256) :=
  match strstr tokenName (text responseBody) with
  | none => some (zeroed 256)
  | some p => do
    let r ← strtok responseBody.bytes commaDelim p
    -- given NULL, `strtok` would go on behind the first token
    let r ← strtok r.buf quoteDelim (r.token.getD r.saved)
    copyLoop r.buf r.saved 0 (zeroed 256)

/-- `strncpy (access_token_result, sub_string[1], strlen(sub_string[1]))`. -/
def giveToken (subString : Buffer 256) (accessTokenResult : Buffer 128) : Option (Buffer 128) := do
  let token ← stringAt subString.bytes 128
  strncpy accessTokenResult token token.length

/-- The callback for `body`, the bytes at `ptr`, with the array at `stream`. -/
def getAccessTokenCb (body : List Char) (accessTokenResult : Buffer 128) :
    Option (Buffer 128 × ℕ) := do
  let responseBody ← strncpy (zeroed 1024) (cString body 0) body.length
  let subString ← parseAccessToken responseBody
  let accessTokenResult ← giveToken subString accessTokenResult
  return (accessTokenResult, body.length)

/-- With the array of `get_access_token`, which is zero, the callback stores the value, and all
it writes is inside its arrays. -/
def Delivers (body value : List Char) : Prop :=
  ∃ r, getAccessTokenCb body (zeroed 128) = some (r, body.length) ∧ text r = value

section
variable {buf delim s t junk : List Char} {pos i : ℕ} {r : Strtok}

/-- The string from a position on, whatever is behind its NUL. -/
structure Ahead (delim buf : List Char) (pos : ℕ) (s : List Char) : Prop where
  text : ∃ junk, buf.drop pos = s ++ nul :: junk
  nonul : nul ∉ s
  delims : nul ∉ delim

theorem drop_of_stringAt (h : stringAt buf i = some t) : ∃ junk, buf.drop i = t ++ nul :: junk := by
  rw [stringAt, Option.ite_none_right_eq_some, Option.some_inj] at h
  obtain ⟨hnul, rfl⟩ := h
  have hne : (buf.drop i).dropWhile (· ≠ nul) ≠ [] := by
    intro hnil
    rw [List.dropWhile_eq_nil_iff] at hnil
    simpa using hnil nul hnul
  have hhead := List.head_dropWhile_not (· ≠ nul) hne
  obtain ⟨c, junk, hc⟩ := List.exists_cons_of_ne_nil hne
  simp only [hc, List.head_cons] at hhead
  obtain rfl : c = nul := by simpa using hhead
  refine ⟨junk, ?_⟩
  rw [← hc, cString, List.takeWhile_append_dropWhile]

theorem span_append {p : Char → Bool} {c : Char} (h : buf[pos + span p buf pos]? = some c) :
    span p (buf ++ junk) pos = span p buf pos := by
  obtain ⟨hlt, -⟩ := List.getElem?_eq_some_iff.mp h
  have hdrop : (buf ++ junk).drop pos = buf.drop pos ++ junk :=
    List.drop_append_of_le_length (by omega)
  have hshort : ((buf.drop pos).takeWhile p).length ≠ (buf.drop pos).length := by
    rw [List.length_drop]
    simp only [span] at hlt
    omega
  rw [span, span, hdrop, List.takeWhile_append, if_neg hshort]

theorem strtok_append (h : strtok buf delim pos = some r) :
    strtok (buf ++ junk) delim pos = some ⟨r.buf ++ junk, r.saved, r.token⟩ := by
  have hget : ∀ {j : ℕ} {c : Char}, buf[j]? = some c → (buf ++ junk)[j]? = some c := by
    intro j c hj
    rw [List.getElem?_append_left (List.getElem?_eq_some_iff.mp hj).1, hj]
  simp only [strtok] at h
  by_cases hnul : buf[pos + span delim.contains buf pos]? = some nul
  · rw [if_pos hnul] at h
    obtain rfl := Option.some_inj.mp h
    rw [strtok, span_append hnul, if_pos (hget hnul)]
  · rw [if_neg hnul] at h
    cases hstop : buf[pos + span delim.contains buf pos +
        span (inToken delim) buf (pos + span delim.contains buf pos)]? with
    | none =>
      rw [hstop, if_pos rfl] at h
      cases h
    | some c =>
      obtain ⟨hlt, -⟩ := List.getElem?_eq_some_iff.mp hstop
      have hstart : pos + span delim.contains buf pos < buf.length := by omega
      have hfirst := List.getElem?_eq_getElem hstart
      have hfirst' : (buf ++ junk)[pos + span delim.contains buf pos]? ≠ some nul := by
        rw [hget hfirst, ← hfirst]
        exact hnul
      rw [strtok, span_append hfirst, span_append hstop, if_neg hfirst', hget hstop,
        if_neg (Option.some_ne_none c)]
      rw [hstop, if_neg (Option.some_ne_none c)] at h
      by_cases hc : some c = some nul
      · rw [if_pos hc] at h
        obtain rfl := Option.some_inj.mp h
        exact if_pos hc
      · rw [if_neg hc] at h
        obtain rfl := Option.some_inj.mp h
        rw [if_neg hc, List.set_append_left _ _ hlt]

theorem Ahead.front (h : Ahead delim buf pos s) :
    ∃ front junk, buf = front ++ junk ∧ Rest delim front pos s := by
  obtain ⟨junk, hdrop⟩ := h.text
  have hle : pos ≤ buf.length := by
    by_contra hgt
    rw [List.drop_eq_nil_of_le (by omega)] at hdrop
    cases s <;> cases hdrop
  refine ⟨buf.take pos ++ (s ++ [nul]), junk, ?_, ?_, h.nonul, h.delims⟩
  · conv_lhs => rw [← List.take_append_drop pos buf, hdrop]
    simp
  · rw [List.drop_left' (List.length_take_of_le hle)]

theorem Ahead.strtok_none (h : Ahead delim buf pos s) (hs : s.dropWhile delim.contains = []) :
    ∃ r, strtok buf delim pos = some r ∧ r.token = none := by
  obtain ⟨front, junk, rfl, hrest⟩ := h.front
  obtain ⟨r, hr, hnone⟩ := hrest.strtok_none hs
  exact ⟨_, strtok_append hr, hnone⟩

theorem Ahead.strtok_some (h : Ahead delim buf pos s) (hs : s.dropWhile delim.contains ≠ []) :
    ∃ r token, strtok buf delim pos = some r ∧ r.token = some token ∧
      token = pos + (s.takeWhile delim.contains).length ∧
      stringAt r.buf token = some (run delim.contains s) ∧
      Ahead delim r.buf r.saved (after delim.contains s).tail := by
  obtain ⟨front, junk, rfl, hrest⟩ := h.front
  obtain ⟨r, hr, hfound⟩ := hrest.strtok_some hs
  have happend : ∀ {i : ℕ} {u v : List Char}, r.buf.drop i = u ++ nul :: v →
      (r.buf ++ junk).drop i = u ++ nul :: (v ++ junk) := by
    intro i u v hdrop
    have hle : i ≤ r.buf.length := by
      by_contra hgt
      rw [List.drop_eq_nil_of_le (by omega)] at hdrop
      cases u <;> cases hdrop
    rw [List.drop_append_of_le_length hle, hdrop, List.append_assoc, List.cons_append]
  refine ⟨_, _, strtok_append hr, hfound.token, rfl, ?_, ?_, hfound.rest.nonul, h.delims⟩
  · obtain ⟨v, hv⟩ := drop_of_stringAt hfound.part
    exact stringAt_eq (happend hv) hrest.nul_not_mem_run
  · exact ⟨[] ++ junk, happend hfound.rest.text⟩

theorem Ahead.of_stringAt (h : stringAt buf pos = some s) (hdelim : nul ∉ delim) :
    Ahead delim buf pos s := by
  refine ⟨drop_of_stringAt h, ?_, hdelim⟩
  rw [stringAt, Option.ite_none_right_eq_some, Option.some_inj] at h
  rw [← h.2]
  exact nul_not_mem_cString

end

section
variable {buf s body value : List Char} {pos i : ℕ} {r : Strtok} {subString : Buffer 256}
  {pieces : List (List Char)}

def copyPieces : ℕ → Buffer 256 → List (List Char) → Option (Buffer 256)
  | _, subString, [] => some subString
  | i, subString, p :: pieces =>
    (memcpy subString (128 * i) p).bind fun subString => copyPieces (i + 1) subString pieces

theorem copyLoop_end (h : strtok buf quoteDelim pos = some r) (ht : r.token = none) :
    copyLoop buf pos i subString = some subString := by
  rw [copyLoop]
  split
  · rename_i hr
    cases hr.symm.trans h
  · rename_i r' hr
    obtain rfl : r' = r := Option.some.inj (hr.symm.trans h)
    split
    · rfl
    · rename_i htok
      cases htok.symm.trans ht

theorem copyLoop_token {token : ℕ} {p : List Char} (h : strtok buf quoteDelim pos = some r)
    (ht : r.token = some token) (hp : stringAt r.buf token = some p) :
    copyLoop buf pos i subString = (memcpy subString (128 * i) p).bind fun subString =>
      copyLoop r.buf r.saved (i + 1) subString := by
  rw [copyLoop]
  split
  · rename_i hr
    cases hr.symm.trans h
  · rename_i r' hr
    obtain rfl : r' = r := Option.some.inj (hr.symm.trans h)
    split
    · rename_i htok
      cases htok.symm.trans ht
    · rename_i tok htok
      obtain rfl : tok = token := Option.some.inj (htok.symm.trans ht)
      simp only [hp]
      cases memcpy subString (128 * i) p <;> rfl

theorem copyLoop_eq (h : Ahead quoteDelim buf pos s) :
    copyLoop buf pos i subString = copyPieces i subString (runs quoteDelim.contains s) := by
  induction hn : s.length using Nat.strong_induction_on generalizing s buf pos i subString with
  | _ n ih =>
    subst hn
    by_cases hs : s.dropWhile quoteDelim.contains = []
    · obtain ⟨r, hr, htok⟩ := h.strtok_none hs
      rw [copyLoop_end hr htok, runs_of_dropWhile_eq_nil hs]
      rfl
    · obtain ⟨r, token, hr, htok, -, hpart, hahead⟩ := h.strtok_some hs
      have hshort : (after quoteDelim.contains s).tail.length < s.length := by
        have hlt := length_after_lt hs
        rw [List.length_tail]
        omega
      rw [copyLoop_token hr htok hpart, runs_eq_cons hs, copyPieces, ← runs_after_tail]
      exact congrArg _ (funext fun subString => ih _ hshort hahead rfl)

def untilComma (s : List Char) : List Char := s.takeWhile (· ≠ ',')

/-- The pieces between quotes behind the first `access_token`, up to the next comma. -/
def piecesOf (body : List Char) : List (List Char) :=
  match strstr tokenName body with
  | none => []
  | some p => (runs quoteDelim.contains (untilComma (body.drop p))).tail

theorem untilComma_append {t : List Char} (h : ',' ∉ s) :
    untilComma (s ++ t) = s ++ untilComma t :=
  takeWhile_ne_append h t

theorem strtok_tokenName {rest : List Char} (h : Ahead commaDelim buf pos (tokenName ++ rest)) :
    ∃ comma first, strtok buf commaDelim pos = some comma ∧
      strtok comma.buf quoteDelim (comma.token.getD comma.saved) = some first ∧
      ∀ i subString, copyLoop first.buf first.saved i subString =
        copyPieces i subString
          (runs quoteDelim.contains (untilComma (tokenName ++ rest))).tail := by
  have hname : ∃ name, tokenName = 'a' :: name := ⟨_, rfl⟩
  obtain ⟨name, hname⟩ := hname
  have hcomma : (tokenName ++ rest).dropWhile commaDelim.contains = tokenName ++ rest := by
    rw [hname]
    rfl
  have hrun : run commaDelim.contains (tokenName ++ rest) = untilComma (tokenName ++ rest) := by
    rw [run, hcomma, untilComma]
    congr 1
    funext c
    simp [commaDelim]
  obtain ⟨comma, token, hstrtok, htok, -, hpart, -⟩ :=
    h.strtok_some (by rw [hcomma, hname]; exact List.cons_ne_nil _ _)
  rw [hrun] at hpart
  have hquote : (untilComma (tokenName ++ rest)).dropWhile quoteDelim.contains ≠ [] := by
    rw [untilComma_append (by decide), hname]
    exact List.cons_ne_nil _ _
  have hahead : Ahead quoteDelim comma.buf token (untilComma (tokenName ++ rest)) :=
    Ahead.of_stringAt hpart (by decide)
  obtain ⟨first, _, hfirst, -, -, -, hloop⟩ := hahead.strtok_some hquote
  refine ⟨comma, first, hstrtok, ?_, ?_⟩
  · rw [htok]
    exact hfirst
  · intro i subString
    rw [copyLoop_eq hloop, runs_after_tail, runs_eq_cons hquote, List.tail_cons]

theorem parseAccessToken_eq {responseBody : CString 1024} {junk : List Char}
    (hbytes : responseBody.bytes = body ++ nul :: junk) (hbody : nul ∉ body) :
    parseAccessToken responseBody.toBuffer = copyPieces 0 (zeroed 256) (piecesOf body) := by
  rw [parseAccessToken, text_eq hbytes hbody, piecesOf]
  cases hp : strstr tokenName body with
  | none => rfl
  | some p =>
    obtain ⟨⟨rest, hrest⟩, -⟩ := strstr_eq_some.mp hp
    have hle : p ≤ body.length := by
      by_contra hgt
      rw [List.drop_eq_nil_of_le (by omega)] at hrest
      cases hrest
    have hahead : Ahead commaDelim responseBody.bytes p (tokenName ++ rest) := by
      refine ⟨⟨junk, ?_⟩, ?_, by decide⟩
      · rw [hbytes, List.drop_append_of_le_length hle, hrest]
      · rw [hrest]
        exact fun hnul => hbody (List.mem_of_mem_drop hnul)
    obtain ⟨comma, first, hcomma, hfirst, hloop⟩ := strtok_tokenName hahead
    simp only [hcomma, hfirst, Option.bind_eq_bind, Option.bind_some]
    rw [← hrest]
    exact hrest ▸ hloop 0 (zeroed 256)

theorem getAccessTokenCb_eq {out : Buffer 128} (hbody : nul ∉ body) (hfit : body.length ≤ 1023) :
    getAccessTokenCb body out = (copyPieces 0 (zeroed 256) (piecesOf body)).bind fun subString =>
      (giveToken subString out).map fun out => (out, body.length) := by
  have hlt : body.length < 1024 := Nat.lt_succ_of_le hfit
  have hstring : cString body 0 = body := by
    rw [cString, List.drop_zero]
    exact takeWhile_ne_eq_self hbody
  have hholds : Holds (CString.ofChars body hlt : CString 1024).toBuffer body := rfl
  rw [getAccessTokenCb, hstring, strncpy_zeroed hlt, Option.bind_eq_bind, Option.bind_some,
    parseAccessToken_eq (hholds.bytes hlt) hbody]
  refine congrArg _ (funext fun subString => ?_)
  cases giveToken subString out <;> rfl

/-- What the pieces leave in the second row: the second piece, and behind it what a first piece
longer than its row had put there. -/
def Reads : List (List Char) → List Char → Prop
  | [], value => value = []
  | [separator], value => value = separator.drop 128
  | [separator, p], value => value = p ++ separator.drop (128 + p.length)
  | _ :: _ :: _ :: _, _ => False

/-- A text whose quotes cut it into at most two pieces. The second of them, with what of a
longer first one is behind it, is the value. -/
inductive CutsTo : List Char → List Char → Prop
  | none (n : ℕ) : CutsTo (List.replicate n '"') []
  | one {s : List Char} (n k : ℕ) (hs : s ≠ []) (hs' : '"' ∉ s) :
    CutsTo (List.replicate n '"' ++ (s ++ List.replicate k '"')) (s.drop 128)
  | two {s p : List Char} (n k j : ℕ) (hs : s ≠ []) (hs' : '"' ∉ s) (hp : p ≠ [])
    (hp' : '"' ∉ p) :
    CutsTo (List.replicate n '"' ++
      (s ++ (List.replicate (k + 1) '"' ++ (p ++ List.replicate j '"'))))
      (p ++ s.drop (128 + p.length))

/-- What the text between the first `access_token` and the next comma comes to: `t`, from the
first quote behind that name on, is cut to the value. -/
def Happens (body value : List Char) : Prop :=
  (¬ tokenName <:+: body ∧ value = []) ∨
  ∃ ahead name t behind, body = ahead ++ (tokenName ++ (name ++ (t ++ behind))) ∧
    ¬ tokenName <:+: ahead ++ tokenName.dropLast ∧ '"' ∉ name ∧ (∀ c ∈ t.head?, c = '"') ∧
    ',' ∉ name ++ t ∧ (∀ c ∈ behind.head?, c = ',') ∧ CutsTo t value

theorem giveToken_iff {t : List Char}
    (hrow : subString.bytes.drop 128 = t ++ List.replicate (128 - t.length) nul) (ht : nul ∉ t)
    (hvalue : value.length ≤ 127) :
    (∃ out, giveToken subString (zeroed 128) = some out ∧ text out = value) ↔ value = t := by
  by_cases hlt : t.length < 128
  · have hzero : 128 - t.length = 128 - t.length - 1 + 1 := by omega
    have hpart : stringAt subString.bytes 128 = some t := by
      rw [hzero, List.replicate_succ] at hrow
      exact stringAt_eq hrow ht
    rw [giveToken, hpart, Option.bind_eq_bind, Option.bind_some, strncpy_zeroed hlt]
    constructor
    · rintro ⟨out, hout, rfl⟩
      obtain rfl := Option.some_inj.mp hout
      exact text_ofChars hlt ht
    · rintro rfl
      exact ⟨_, rfl, text_ofChars hlt ht⟩
  · have hzero : 128 - t.length = 0 := by omega
    rw [hzero, List.replicate_zero, List.append_nil] at hrow
    have hnone : stringAt subString.bytes 128 = none := by
      rw [stringAt, hrow, if_neg ht]
    rw [giveToken, hnone]
    constructor
    · rintro ⟨out, hout, -⟩
      cases hout
    · rintro rfl
      omega

theorem drop_holds {out : List Char} {n : ℕ} (h : Holds subString out) (hfit : out.length ≤ 256) :
    subString.bytes.drop n =
      out.drop n ++ List.replicate (256 - n - (out.drop n).length) nul := by
  have hlen : 256 - out.length - (n - out.length) = 256 - n - (out.length - n) := by omega
  rw [h, List.drop_append, List.drop_replicate, List.length_drop, hlen]

theorem memcpy_first {p : List Char} (hfit : p.length ≤ 256) :
    ∃ b, memcpy (zeroed 256) 0 p = some b ∧ Holds b p :=
  holds_zeroed.memcpy p (by rwa [List.length_nil, Nat.zero_add])

theorem copyPieces_eq_none {a b c : List Char} (hc : c ≠ []) :
    copyPieces 0 (zeroed 256) (a :: b :: c :: pieces) = none := by
  have hlen := List.length_pos_iff.mpr hc
  simp only [copyPieces, Option.bind_eq_none_iff]
  intro _ _ _ _ _ hthird
  rw [memcpy_eq_none (by omega)] at hthird
  cases hthird

theorem nul_not_mem_drop {t : List Char} {n : ℕ} (ht : nul ∉ t) : nul ∉ t.drop n :=
  fun hnul => ht (List.mem_of_mem_drop hnul)

/-- The pieces are copied, and what is then in the second row is given as this value. -/
def Gives (pieces : List (List Char)) (value : List Char) : Prop :=
  ∃ subString, copyPieces 0 (zeroed 256) pieces = some subString ∧
    ∃ out, giveToken subString (zeroed 128) = some out ∧ text out = value

theorem gives_of_eq {t : List Char} (h : copyPieces 0 (zeroed 256) pieces = some subString)
    (hrow : subString.bytes.drop 128 = t ++ List.replicate (128 - t.length) nul) (ht : nul ∉ t)
    (hvalue : value.length ≤ 127) : Gives pieces value ↔ value = t := by
  rw [← giveToken_iff hrow ht hvalue]
  constructor
  · rintro ⟨subString', h', hgive⟩
    obtain rfl := Option.some_inj.mp (h.symm.trans h')
    exact hgive
  · intro hgive
    exact ⟨subString, h, hgive⟩

theorem not_gives (h : copyPieces 0 (zeroed 256) pieces = none) : ¬ Gives pieces value := by
  rintro ⟨subString, h', -⟩
  cases h.symm.trans h'

theorem gives_one {separator : List Char} (hnul : nul ∉ separator) (hvalue : value.length ≤ 127) :
    Gives [separator] value ↔ value = separator.drop 128 := by
  by_cases hfit : separator.length ≤ 256
  · obtain ⟨b, hb, hholds⟩ := memcpy_first hfit
    have hcopy : copyPieces 0 (zeroed 256) [separator] = some b := by
      rw [copyPieces, hb]
      rfl
    exact gives_of_eq hcopy (drop_holds hholds hfit) (nul_not_mem_drop hnul) hvalue
  · have hnone : copyPieces 0 (zeroed 256) [separator] = none := by
      rw [copyPieces, memcpy_eq_none (by omega)]
      rfl
    refine iff_of_false (not_gives hnone) ?_
    rintro rfl
    rw [List.length_drop] at hvalue
    omega

theorem second_row {b b' : Buffer 256} {separator p : List Char} (hb : Holds b separator)
    (hfit : separator.length ≤ 256) (hb' : memcpy b 128 p = some b') :
    b'.bytes.drop 128 = p ++ separator.drop (128 + p.length) ++
      List.replicate (128 - (p ++ separator.drop (128 + p.length)).length) nul := by
  obtain ⟨-, hbytes⟩ := memcpy_eq_some.mp hb'
  have htake : (b.bytes.take 128).length = 128 := by
    rw [List.length_take, b.size]
    rfl
  have hlen : 256 - (128 + p.length) - (separator.drop (128 + p.length)).length =
      128 - (p ++ separator.drop (128 + p.length)).length := by
    rw [List.length_append]
    omega
  rw [hbytes, List.drop_left' htake, drop_holds hb hfit, hlen, List.append_assoc]

theorem gives_two {separator p : List Char} (hnul : nul ∉ separator) (hnul' : nul ∉ p)
    (hvalue : value.length ≤ 127) :
    Gives [separator, p] value ↔ value = p ++ separator.drop (128 + p.length) := by
  by_cases hfit : separator.length ≤ 256 ∧ p.length ≤ 128
  · obtain ⟨b, hb, hholds⟩ := memcpy_first hfit.1
    have hsecond : 128 + p.length ≤ 256 := by omega
    obtain ⟨b', hb'⟩ : ∃ b', memcpy b 128 p = some b' := ⟨_, dif_pos hsecond⟩
    have hcopy : copyPieces 0 (zeroed 256) [separator, p] = some b' := by
      rw [copyPieces, hb, Option.bind_some, copyPieces, hb']
      rfl
    have hnul'' : nul ∉ p ++ separator.drop (128 + p.length) := by
      rw [List.mem_append, not_or]
      exact ⟨hnul', nul_not_mem_drop hnul⟩
    exact gives_of_eq hcopy (second_row hholds hfit.1 hb') hnul'' hvalue
  · have hnone : copyPieces 0 (zeroed 256) [separator, p] = none := by
      simp only [copyPieces, Option.bind_eq_none_iff]
      intro b hb b' hb'
      have := (memcpy_eq_some.mp hb).1
      have := (memcpy_eq_some.mp hb').1
      omega
    refine iff_of_false (not_gives hnone) ?_
    rintro rfl
    rw [List.length_append, List.length_drop] at hvalue
    omega

theorem gives_iff (hpieces : ∀ p ∈ pieces, p ≠ [] ∧ nul ∉ p) (hvalue : value.length ≤ 127) :
    Gives pieces value ↔ Reads pieces value := by
  match pieces with
  | [] =>
    have hrow : (zeroed 256).bytes.drop 128 = [] ++ List.replicate (128 - 0) nul := by
      rw [zeroed, List.drop_replicate]
      rfl
    exact gives_of_eq rfl hrow (by simp) hvalue
  | [separator] => exact gives_one (hpieces separator (by simp)).2 hvalue
  | [separator, p] =>
    exact gives_two (hpieces separator (by simp)).2 (hpieces p (by simp)).2 hvalue
  | _ :: _ :: c :: _ =>
    exact iff_of_false (not_gives (copyPieces_eq_none (hpieces c (by simp)).1)) id

theorem delivers_iff (hbody : nul ∉ body) (hfit : body.length ≤ 1023)
    (hvalue : value.length ≤ 127) : Delivers body value ↔ Reads (piecesOf body) value := by
  have hpieces : ∀ p ∈ piecesOf body, p ≠ [] ∧ nul ∉ p := by
    intro p hp
    rw [piecesOf] at hp
    split at hp
    · cases hp
    · have hrun := List.mem_of_mem_tail hp
      refine ⟨ne_nil_of_mem_runs hrun, fun hnul => hbody ?_⟩
      have hin := (isInfix_of_mem_runs hrun).subset hnul
      exact List.mem_of_mem_drop ((List.takeWhile_prefix _).subset hin)
  rw [← gives_iff hpieces hvalue, Delivers, getAccessTokenCb_eq hbody hfit, Gives]
  simp only [Option.bind_eq_some_iff, Option.map_eq_some_iff, Prod.mk.injEq, and_true]
  constructor
  · rintro ⟨r, ⟨subString, hsub, out, hout, rfl⟩, htext⟩
    exact ⟨subString, hsub, out, hout, htext⟩
  · rintro ⟨subString, hsub, out, hout, htext⟩
    exact ⟨out, ⟨subString, hsub, out, hout, rfl⟩, htext⟩

end

section
variable {s t value body ahead name behind : List Char}

theorem tokenName_ne_nil : tokenName ≠ [] := by decide

theorem quote_iff : (∀ c ∈ s, quoteDelim.contains c = true) ↔
    s = List.replicate s.length '"' := by
  rw [List.eq_replicate_iff]
  simp [quoteDelim]

theorem not_quote_iff : (∀ c ∈ s, quoteDelim.contains c = false) ↔ '"' ∉ s := by
  constructor
  · intro h hquote
    cases h _ hquote
  · intro h c hc
    refine Bool.eq_false_iff.mpr fun hin => h ?_
    have hc' : c = '"' := by simpa [quoteDelim] using hin
    rwa [← hc']

theorem runs_quotes (n : ℕ) : runs quoteDelim.contains (List.replicate n '"' ++ s) =
    runs quoteDelim.contains s :=
  runs_append_of_pos fun c hc => by
    rw [List.eq_of_mem_replicate hc]
    rfl

theorem runs_quotes_nil (n : ℕ) : runs quoteDelim.contains (List.replicate n '"') = [] := by
  have h := runs_quotes (s := []) n
  rwa [List.append_nil] at h

theorem runs_piece (n : ℕ) (hs : s ≠ []) (hs' : '"' ∉ s) (ht : ∀ c ∈ t.head?, c = '"') :
    runs quoteDelim.contains (List.replicate n '"' ++ (s ++ t)) =
      s :: runs quoteDelim.contains t := by
  rw [runs_quotes, runs_append_head hs (not_quote_iff.mpr hs')]
  intro c hc
  rw [ht c hc]
  rfl

theorem exists_piece {rs : List (List Char)} (h : runs quoteDelim.contains t = s :: rs) :
    ∃ n u, t = List.replicate n '"' ++ (s ++ u) ∧ s ≠ [] ∧ '"' ∉ s ∧ (∀ c ∈ u.head?, c = '"') ∧
      runs quoteDelim.contains u = rs := by
  obtain ⟨q, u, rfl, hq, hs, hs', hu, hrs⟩ := exists_of_runs_eq_cons h
  refine ⟨q.length, u, by rw [← quote_iff.mp hq], hs, not_quote_iff.mp hs', fun c hc => ?_, hrs⟩
  simpa [quoteDelim] using hu c hc

theorem head_quotes (n : ℕ) : ∀ c ∈ (List.replicate n '"').head?, c = '"' := by
  cases n with
  | zero => nofun
  | succ n => simp [List.replicate_succ]

theorem reads_runs_iff : Reads (runs quoteDelim.contains t) value ↔ CutsTo t value := by
  constructor
  · intro h
    cases hr : runs quoteDelim.contains t with
    | nil =>
      obtain rfl : value = [] := by rwa [hr] at h
      rw [quote_iff.mp (forall_of_runs_eq_nil hr)]
      exact .none _
    | cons s rs =>
      obtain ⟨n, u, rfl, hs, hs', hu, hrs⟩ := exists_piece hr
      rw [hr] at h
      cases hr' : rs with
      | nil =>
        obtain rfl : value = s.drop 128 := by rwa [hr'] at h
        rw [quote_iff.mp (forall_of_runs_eq_nil (hrs.trans hr'))]
        exact .one n _ hs hs'
      | cons p ps =>
        obtain ⟨k, v, rfl, hp, hp', -, hps⟩ := exists_piece (hrs.trans hr')
        cases hr'' : ps with
        | nil =>
          obtain rfl : value = p ++ s.drop (128 + p.length) := by rwa [hr', hr''] at h
          have hk : k ≠ 0 := by
            rintro rfl
            obtain ⟨c, p', rfl⟩ := List.exists_cons_of_ne_nil hp
            exact hp' (hu c rfl ▸ List.mem_cons_self)
          obtain ⟨k, rfl⟩ := Nat.exists_eq_succ_of_ne_zero hk
          rw [quote_iff.mp (forall_of_runs_eq_nil (hps.trans hr''))]
          exact .two n k _ hs hs' hp hp'
        | cons q qs =>
          rw [hr', hr''] at h
          exact h.elim
  · rintro (n | @⟨s, n, k, hs, hs'⟩ | @⟨s, p, n, k, j, hs, hs', hp, hp'⟩)
    · rw [runs_quotes_nil]
      rfl
    · rw [runs_piece n hs hs' (head_quotes k), runs_quotes_nil]
      rfl
    · have hhead : ∀ c ∈ (List.replicate (k + 1) '"' ++ (p ++ List.replicate j '"')).head?,
          c = '"' := by
        simp [List.replicate_succ]
      rw [runs_piece n hs hs' hhead, runs_piece _ hp hp' (head_quotes j), runs_quotes_nil]
      rfl

theorem piecesOf_eq (hahead : ¬ tokenName <:+: ahead ++ tokenName.dropLast) (hname : '"' ∉ name)
    (ht : ∀ c ∈ t.head?, c = '"') (hcomma : ',' ∉ name ++ t)
    (hbehind : ∀ c ∈ behind.head?, c = ',') :
    piecesOf (ahead ++ (tokenName ++ (name ++ (t ++ behind)))) = runs quoteDelim.contains t := by
  have huntil : untilComma (tokenName ++ (name ++ (t ++ behind))) = (tokenName ++ name) ++ t := by
    have hnone : ',' ∉ tokenName ++ (name ++ t) := by
      rw [List.mem_append, not_or]
      exact ⟨by decide, hcomma⟩
    have hstop : untilComma behind = [] := by
      cases behind with
      | nil => rfl
      | cons c behind => simp [untilComma, hbehind c rfl]
    have happend := untilComma_append (t := behind) hnone
    simpa [hstop] using happend
  have hquote : '"' ∉ tokenName ++ name := by
    rw [List.mem_append, not_or]
    exact ⟨by decide, hname⟩
  have hfound : strstr tokenName (ahead ++ (tokenName ++ (name ++ (t ++ behind)))) =
      some ahead.length := (strstr_append_eq tokenName_ne_nil).mpr hahead
  rw [piecesOf, hfound]
  simp only [List.drop_left]
  rw [huntil, runs_append_head (by simp [tokenName_ne_nil]) (not_quote_iff.mpr hquote),
    List.tail_cons]
  intro c hc
  rw [ht c hc]
  rfl

theorem exists_cut (rest : List Char) :
    ∃ name t behind, rest = name ++ (t ++ behind) ∧ '"' ∉ name ∧ (∀ c ∈ t.head?, c = '"') ∧
      ',' ∉ name ++ t ∧ (∀ c ∈ behind.head?, c = ',') := by
  have hhead : ∀ {d : Char} (s : List Char), ∀ c ∈ (s.dropWhile (· ≠ d)).head?, c = d := by
    intro d s c hc
    have hnot := List.head?_dropWhile_not (· ≠ d) s
    rw [Option.mem_def.mp hc] at hnot
    simpa using hnot
  refine ⟨(untilComma rest).takeWhile (· ≠ '"'), (untilComma rest).dropWhile (· ≠ '"'),
    rest.dropWhile (· ≠ ','), ?_, ?_, hhead _, ?_, hhead _⟩
  · rw [← List.append_assoc, List.takeWhile_append_dropWhile, untilComma,
      List.takeWhile_append_dropWhile]
  · intro hc
    simpa using List.mem_takeWhile_imp hc
  · rw [List.takeWhile_append_dropWhile]
    intro hc
    simpa using List.mem_takeWhile_imp hc

theorem reads_piecesOf_iff : Reads (piecesOf body) value ↔ Happens body value := by
  constructor
  · intro h
    cases hfound : strstr tokenName body with
    | none =>
      have hnone : piecesOf body = [] := by rw [piecesOf, hfound]
      rw [hnone] at h
      exact .inl ⟨strstr_eq_none.mp hfound, h⟩
    | some p =>
      obtain ⟨⟨rest, hrest⟩, -⟩ := strstr_eq_some.mp hfound
      have hbound := strstr_bound hfound
      have hbody : body = body.take p ++ (tokenName ++ rest) := by
        rw [hrest, List.take_append_drop]
      have hlen : (body.take p).length = p := List.length_take_of_le (by omega)
      obtain ⟨name, t, behind, rfl, hname, ht, hcomma, hbehind⟩ := exists_cut rest
      have hahead : ¬ tokenName <:+: body.take p ++ tokenName.dropLast := by
        rw [hbody, ← hlen] at hfound
        exact (strstr_append_eq tokenName_ne_nil).mp (by simpa [hlen] using hfound)
      rw [hbody, piecesOf_eq hahead hname ht hcomma hbehind, reads_runs_iff] at h
      exact .inr ⟨_, name, t, behind, hbody, hahead, hname, ht, hcomma, hbehind, h⟩
  · rintro (⟨hnone, rfl⟩ | ⟨ahead, name, t, behind, rfl, hahead, hname, ht, hcomma, hbehind, h⟩)
    · rw [piecesOf, strstr_eq_none.mpr hnone]
      rfl
    · rw [piecesOf_eq hahead hname ht hcomma hbehind, reads_runs_iff]
      exact h

end

structure Blank where
  chars : List Char
  blank : ∀ c ∈ chars, isBlank c = true

def isHexDigit (c : Char) : Bool :=
  ('0' ≤ c && c ≤ '9') || ('a' ≤ c && c ≤ 'f') || ('A' ≤ c && c ≤ 'F')

def isStringText : List Char → Bool
  | [] => true
  | '\\' :: 'u' :: a :: b :: c :: d :: s =>
    isHexDigit a && isHexDigit b && isHexDigit c && isHexDigit d && isStringText s
  | '\\' :: c :: s => "\"\\/bfnrt".toList.contains c && isStringText s
  | c :: s => c ≠ '"' && c ≠ '\\' && ' ' ≤ c && isStringText s

structure StringText where
  chars : List Char
  valid : isStringText chars = true

structure NumberText where
  chars : List Char
  valid : chars ≠ [] ∧ ∀ c ∈ chars, c ∈ "+-.0123456789eE".toList

inductive Value where
  | string (text : StringText)
  | number (text : NumberText)

def Value.chars : Value → List Char
  | .string text => '"' :: text.chars ++ ['"']
  | .number text => text.chars

structure Member where
  ahead : Blank
  name : StringText
  beforeColon : Blank
  afterColon : Blank
  value : Value
  behind : Blank

def Member.separator (m : Member) : List Char := m.beforeColon.chars ++ ':' :: m.afterColon.chars

def Member.chars (m : Member) : List Char :=
  m.ahead.chars ++ '"' :: m.name.chars ++ '"' :: m.separator ++ m.value.chars ++ m.behind.chars

def membersText : List Member → List Char
  | [] => []
  | [m] => m.chars
  | m :: n :: rest => m.chars ++ ',' :: membersText (n :: rest)

structure FlatObject where
  lead : Blank
  members : List Member
  trail : Blank

def FlatObject.chars (o : FlatObject) : List Char :=
  o.lead.chars ++ '{' :: membersText o.members ++ '}' :: o.trail.chars

def textAhead (lead : Blank) (before : List Member) (m : Member) : List Char :=
  lead.chars ++ '{' :: (before.flatMap fun n => n.chars ++ [',']) ++ m.ahead.chars ++ ['"']

def textBehind (after : List Member) (trail : Blank) : List Char :=
  (after.flatMap fun n => ',' :: n.chars) ++ '}' :: trail.chars

/-- The first `access_token` of the object is the name of the member. -/
def FirstNamed (lead : Blank) (before : List Member) (m : Member) : Prop :=
  m.name.chars = tokenName ∧ ¬ tokenName <:+: textAhead lead before m

section
variable {lead trail : Blank} {before after : List Member} {m : Member} {text : StringText}
  {s u value separator : List Char}

theorem isHexDigit_ge {c : Char} (h : isHexDigit c = true) : ' ' ≤ c := by
  simp only [isHexDigit, Bool.or_eq_true, Bool.and_eq_true, decide_eq_true_eq] at h
  rcases h with (⟨h, -⟩ | ⟨h, -⟩) | ⟨h, -⟩
  · exact Char.le_trans (show ' ' ≤ '0' by decide) h
  · exact Char.le_trans (show ' ' ≤ 'a' by decide) h
  · exact Char.le_trans (show ' ' ≤ 'A' by decide) h

theorem isStringText_chars (h : isStringText s = true) :
    (∀ c ∈ s, ' ' ≤ c) ∧ ('\\' ∉ s → '"' ∉ s) := by
  fun_induction isStringText s with
  | case1 => simp
  | case2 a b c d s ih =>
    simp only [Bool.and_eq_true] at h
    obtain ⟨⟨⟨⟨ha, hb⟩, hc⟩, hd⟩, hs⟩ := h
    constructor
    · have hu : ' ' ≤ '\\' ∧ ' ' ≤ 'u' := by decide
      simpa [hu, isHexDigit_ge ha, isHexDigit_ge hb, isHexDigit_ge hc, isHexDigit_ge hd] using
        (ih hs).1
    · simp
  | case3 c s _ ih =>
    simp only [Bool.and_eq_true, List.contains_iff_mem] at h
    obtain ⟨hc, hs⟩ := h
    constructor
    · have hu : ' ' ≤ '\\' := by decide
      have hall : "\"\\/bfnrt".toList.all (' ' ≤ ·) = true := by decide
      have hc' : ' ' ≤ c := by simpa using List.all_eq_true.mp hall c hc
      simpa [hu, hc'] using (ih hs).1
    · simp
  | case4 c s _ _ ih =>
    simp only [Bool.and_eq_true, decide_eq_true_eq] at h
    obtain ⟨⟨⟨hquote, hslash⟩, hc⟩, hs⟩ := h
    obtain ⟨hge, hnone⟩ := ih hs
    constructor
    · simpa [hc] using hge
    · intro hslashes
      simp only [List.mem_cons, not_or] at hslashes ⊢
      exact ⟨Ne.symm hquote, hnone hslashes.2⟩

theorem nul_not_mem_of_ge (h : ∀ c ∈ s, ' ' ≤ c) : nul ∉ s := by
  intro hnul
  exact absurd (h nul hnul) (by decide)

theorem Blank.nul_not_mem (b : Blank) : nul ∉ b.chars := by
  intro hnul
  exact absurd (b.blank nul hnul) (by decide)

theorem StringText.nul_not_mem (t : StringText) : nul ∉ t.chars :=
  nul_not_mem_of_ge (isStringText_chars t.valid).1

theorem Value.nul_not_mem (v : Value) : nul ∉ v.chars := by
  cases v with
  | string text => simpa [Value.chars] using ⟨by decide, text.nul_not_mem, by decide⟩
  | number text =>
    intro hnul
    exact absurd (text.valid.2 nul hnul) (by decide)

theorem Member.nul_not_mem (m : Member) : nul ∉ m.chars := by
  have hquote : nul ≠ '"' := by decide
  have hcolon : nul ≠ ':' := by decide
  simp [Member.chars, Member.separator, hquote, hcolon, m.ahead.nul_not_mem, m.name.nul_not_mem,
    m.beforeColon.nul_not_mem, m.afterColon.nul_not_mem, m.value.nul_not_mem,
    m.behind.nul_not_mem]

theorem membersText_cons : membersText (m :: after) =
    m.chars ++ after.flatMap fun n => ',' :: n.chars := by
  induction after generalizing m with
  | nil => simp [membersText]
  | cons n after ih => rw [membersText, ih, List.flatMap_cons, List.cons_append]

theorem membersText_append : membersText (before ++ m :: after) =
    (before.flatMap fun n => n.chars ++ [',']) ++ membersText (m :: after) := by
  induction before with
  | nil => rfl
  | cons n before ih =>
    obtain ⟨first, rest, hrest⟩ : ∃ first rest, before ++ m :: after = first :: rest :=
      List.exists_cons_of_ne_nil (by simp)
    rw [List.cons_append, hrest, membersText, ← hrest, ih, List.flatMap_cons]
    simp

theorem chars_eq (hm : m.value = .string text) :
    FlatObject.chars ⟨lead, before ++ m :: after, trail⟩ =
      textAhead lead before m ++ (m.name.chars ++ '"' :: (m.separator ++ '"' ::
        (text.chars ++ '"' :: (m.behind.chars ++ textBehind after trail)))) := by
  rw [FlatObject.chars, membersText_append, membersText_cons]
  simp [textAhead, textBehind, Member.chars, hm, Value.chars]

theorem nul_not_mem_chars (o : FlatObject) : nul ∉ o.chars := by
  have hmembers : nul ∉ membersText o.members := by
    cases o.members with
    | nil => exact List.not_mem_nil
    | cons m after =>
      have hcomma : nul ≠ ',' := by decide
      rw [membersText_cons]
      simpa [m.nul_not_mem, hcomma] using fun n _ => Member.nul_not_mem n
  have hopen : nul ≠ '{' := by decide
  have hclose : nul ≠ '}' := by decide
  simp [FlatObject.chars, o.lead.nul_not_mem, o.trail.nul_not_mem, hmembers, hopen, hclose]

theorem Blank.not_mem (b : Blank) {c : Char} (hc : isBlank c = false) : c ∉ b.chars := by
  intro hmem
  rw [b.blank c hmem] at hc
  cases hc

theorem separator_not_mem {c : Char} (hc : isBlank c = false) (hcolon : c ≠ ':') :
    c ∉ m.separator := by
  simp [Member.separator, m.beforeColon.not_mem hc, m.afterColon.not_mem hc, hcolon]

theorem strstr_behind {ahead rest : List Char} (h : ¬ tokenName <:+: ahead ++ ['"']) :
    strstr tokenName (ahead ++ ['"'] ++ (tokenName ++ rest)) = some (ahead ++ ['"']).length := by
  rw [strstr_eq_some]
  constructor
  · rw [List.drop_left]
    exact List.prefix_append _ _
  · intro q hq hfound
    have hle : q ≤ ahead.length := by
      rw [List.length_append, List.length_singleton] at hq
      omega
    have hdrop : (ahead ++ ['"']).drop q = ahead.drop q ++ ['"'] :=
      List.drop_append_of_le_length hle
    rw [List.drop_append_of_le_length hq.le] at hfound
    rcases le_total tokenName.length ((ahead ++ ['"']).drop q).length with hlen | hlen
    · have hpre : tokenName <+: (ahead ++ ['"']).drop q :=
        List.prefix_of_prefix_length_le hfound (List.prefix_append _ _) hlen
      exact h (hpre.isInfix.trans (List.drop_suffix _ _).isInfix)
    · -- the quote would stand in the text that is looked for
      have hpre : (ahead ++ ['"']).drop q <+: tokenName :=
        List.prefix_of_prefix_length_le (List.prefix_append _ _) hfound hlen
      have hquote : '"' ∈ tokenName := by
        apply hpre.subset
        rw [hdrop]
        exact List.mem_append_right _ List.mem_cons_self
      exact absurd hquote (by decide)

theorem quoteDelim_contains {c : Char} (hc : c ≠ '"') : quoteDelim.contains c = false := by
  simpa [quoteDelim] using hc

theorem reads_iff (hquote : '"' ∉ value) (hu : ∀ c ∈ u.head?, c ≠ '"') :
    Reads (separator :: runs quoteDelim.contains (value ++ '"' :: u)) value ↔
      u = [] ∧ separator.length ≤ 128 + value.length := by
  have hruns : u = [] ∨ ∃ w ws, w ≠ [] ∧ runs quoteDelim.contains u = w :: ws := by
    cases u with
    | nil => exact .inl rfl
    | cons c t =>
      have hne : (c :: t).dropWhile quoteDelim.contains ≠ [] := by
        rw [List.dropWhile_cons_of_neg (Bool.eq_false_iff.mp (quoteDelim_contains (hu c rfl)))]
        exact List.cons_ne_nil _ _
      exact .inr ⟨_, _, run_ne_nil hne, runs_eq_cons hne⟩
  have hfirst : runs quoteDelim.contains (value ++ '"' :: u) =
      if value = [] then runs quoteDelim.contains u
      else value :: runs quoteDelim.contains u := by
    by_cases hnil : value = []
    · rw [if_pos hnil, hnil, List.nil_append, runs_cons_of_pos (by decide)]
    · rw [if_neg hnil]
      exact runs_append_cons hnil (not_quote_iff.mpr hquote) (by decide)
  rw [hfirst]
  rcases hruns with rfl | ⟨w, ws, hw, hws⟩
  · have hnone : runs quoteDelim.contains [] = [] := by decide
    by_cases hnil : value = []
    · simp [hnil, hnone, Reads]
    · simp [hnil, hnone, Reads]
  · have hu : u ≠ [] := by
      rintro rfl
      cases hws
    by_cases hnil : value = []
    · rw [if_pos hnil, hws, hnil]
      cases ws with
      | nil => simp [Reads, hw, hu]
      | cons x xs => simp [Reads, hu]
    · simp [hnil, hws, Reads, hu]

theorem behind_head : ∃ c t, m.behind.chars ++ textBehind after trail = c :: t ∧ c ≠ '"' ∧
    (c = ',' ↔ m.behind.chars = [] ∧ after ≠ []) := by
  cases hblank : m.behind.chars with
  | nil =>
    cases after with
    | nil => exact ⟨'}', _, rfl, by decide, by simp⟩
    | cons n after => exact ⟨',', _, rfl, by decide, by simp⟩
  | cons c t =>
    have hc : isBlank c = true := m.behind.blank c (by simp [hblank])
    refine ⟨c, _, rfl, ?_, ?_⟩
    · rintro rfl
      cases hc
    · constructor
      · rintro rfl
        cases hc
      · simp

theorem untilComma_behind : untilComma (m.behind.chars ++ textBehind after trail) = [] ↔
    m.behind.chars = [] ∧ after ≠ [] := by
  obtain ⟨c, t, htext, -, hcomma⟩ := @behind_head trail after m
  rw [htext, ← hcomma, untilComma]
  by_cases hc : c = ','
  · simp [hc]
  · simp [hc]

theorem head_untilComma : ∀ c ∈ (untilComma (m.behind.chars ++ textBehind after trail)).head?,
    c ≠ '"' := by
  obtain ⟨d, t, htext, hquote, -⟩ := @behind_head trail after m
  intro c hc
  rw [htext, untilComma, List.takeWhile_cons] at hc
  split at hc
  · obtain rfl := Option.some_inj.mp hc
    exact hquote
  · cases hc

theorem piecesOf_named (hm : m.value = .string text) (hfirst : FirstNamed lead before m)
    (hcomma : ',' ∉ text.chars) :
    piecesOf (FlatObject.chars ⟨lead, before ++ m :: after, trail⟩) =
      m.separator :: runs quoteDelim.contains (text.chars ++ '"' ::
        untilComma (m.behind.chars ++ textBehind after trail)) := by
  obtain ⟨hname, hahead⟩ := hfirst
  have hsep : m.separator ≠ [] := by simp [Member.separator]
  have hquote : ∀ c ∈ m.separator, quoteDelim.contains c = false :=
    not_quote_iff.mpr (separator_not_mem (by decide) (by decide))
  have hquote' : ∀ c ∈ tokenName, quoteDelim.contains c = false :=
    not_quote_iff.mpr (by decide)
  have hnone : ',' ∉ tokenName ++ '"' :: (m.separator ++ '"' :: (text.chars ++ ['"'])) := by
    have htoken : ',' ∉ tokenName := by decide
    have hsep' : ',' ∉ m.separator := separator_not_mem (by decide) (by decide)
    simp [htoken, hsep', hcomma]
  have huntil : untilComma (tokenName ++ '"' :: (m.separator ++ '"' :: (text.chars ++ '"' ::
      (m.behind.chars ++ textBehind after trail)))) =
        tokenName ++ '"' :: (m.separator ++ '"' :: (text.chars ++ '"' ::
          untilComma (m.behind.chars ++ textBehind after trail))) := by
    have h := @untilComma_append _ (m.behind.chars ++ textBehind after trail) hnone
    simpa using h
  rw [chars_eq hm, hname, piecesOf, textAhead, strstr_behind hahead]
  simp only [List.drop_left, huntil]
  rw [runs_append_cons (by decide) hquote' (by decide), List.tail_cons,
    runs_append_cons hsep hquote (by decide)]

/-- Where the first `access_token` is the name of the member, the callback stores its value
exactly when a comma follows it directly, so that it is not the last member, and the blanks at
the colon do not push the text between the quotes through the second row. Else it takes what
follows the first `access_token`, wherever that stands. -/
theorem token_delivered_iff (lead trail : Blank) (before after : List Member) (m : Member)
    (text : StringText) (hm : m.value = .string text) (hlen : text.chars.length ≤ 127)
    (hslash : '\\' ∉ text.chars) (hcomma : ',' ∉ text.chars)
    (hfit : (FlatObject.chars ⟨lead, before ++ m :: after, trail⟩).length ≤ 1023) :
    Delivers (FlatObject.chars ⟨lead, before ++ m :: after, trail⟩) text.chars ↔
      (FirstNamed lead before m ∧ m.behind.chars = [] ∧ after ≠ [] ∧
        m.separator.length ≤ 128 + text.chars.length) ∨
      (¬ FirstNamed lead before m ∧
        Happens (FlatObject.chars ⟨lead, before ++ m :: after, trail⟩) text.chars) := by
  have hquote : '"' ∉ text.chars := (isStringText_chars text.valid).2 hslash
  rw [delivers_iff (nul_not_mem_chars _) hfit hlen]
  by_cases hfirst : FirstNamed lead before m
  · rw [piecesOf_named hm hfirst hcomma, reads_iff hquote head_untilComma, untilComma_behind]
    simp [hfirst, and_assoc]
  · simp [hfirst, reads_piecesOf_iff]

end

def Blank.none : Blank := ⟨[], nofun⟩

def Member.tight (name : StringText) (value : Value) : Member :=
  ⟨Blank.none, name, Blank.none, Blank.none, value, Blank.none⟩

theorem token_in_front :
    Delivers "\x7b\"access_token\":\"ab\",\"expires_in\":1\x7d".toList "ab".toList :=
  (token_delivered_iff Blank.none Blank.none [] [.tight ⟨"expires_in".toList, rfl⟩
    (.number ⟨"1".toList, by simp⟩)] (.tight ⟨tokenName, rfl⟩ (.string ⟨"ab".toList, rfl⟩))
    ⟨"ab".toList, rfl⟩ rfl (by decide) (by decide) (by decide) (by decide)).mpr
    (.inl ⟨⟨rfl, by decide⟩, rfl, by simp, by decide⟩)

/-- The closing brace behind the last member is a third piece. -/
theorem token_at_end :
    FlatObject.chars ⟨Blank.none,
      [.tight ⟨tokenName, rfl⟩ (.string ⟨"ab".toList, rfl⟩)], Blank.none⟩ =
        "\x7b\"access_token\":\"ab\"\x7d".toList ∧
    getAccessTokenCb "\x7b\"access_token\":\"ab\"\x7d".toList (zeroed 128) = none ∧
    ¬ Delivers "\x7b\"access_token\":\"ab\"\x7d".toList "ab".toList := by
  have hpieces : piecesOf "\x7b\"access_token\":\"ab\"\x7d".toList =
      [":".toList, "ab".toList, "\x7d".toList] := by decide +kernel
  have hnone : getAccessTokenCb "\x7b\"access_token\":\"ab\"\x7d".toList (zeroed 128) = none := by
    rw [getAccessTokenCb_eq (by decide) (by decide), hpieces, copyPieces_eq_none (by decide)]
    rfl
  refine ⟨rfl, hnone, ?_⟩
  rintro ⟨r, hr, -⟩
  rw [hnone] at hr
  cases hr

end TokenCallback
