import MyGitCode.CrawlUrls
import MyGitCode.DelimitedRuns
import MyGitCode.HttpHeader

/-! # Receiving a response in pieces

`Socket::recvResponse` collects what each `recv` gives in one memory block, which a NUL ends,
until the header is complete and is cut off. All allocations succeed. -/
namespace HttpReceive

open StrKit HttpHeader

/-- What a call of `recv` gives. `again` is an `EAGAIN`, `EWOULDBLOCK` or `EINTR`. -/
inductive Recv where
  | data (bytes : List Char)
  | again
  | error
  | closed
  deriving DecidableEq, Repr

/-- `HttpResponse`. The body is the whole memory block, which is empty for NULL. -/
structure Response where
  header : Header
  body : List Char
  len : ℕ
  deriving DecidableEq, Repr

/-- `headerText` is the text given to `parseHeader`, once the header is parsed. -/
structure State where
  res : Response
  headerText : Option (List Char)
  deriving DecidableEq, Repr

/-- The status code of a new response is not set. -/
def initialState (statusCode : ℤ) : State := ⟨⟨⟨statusCode, []⟩, [], 0⟩, none⟩

/-- `fresh` is what stands in new memory. -/
def realloc (fresh : Char) (block : List Char) (size : ℕ) : List Char :=
  block.take size ++ List.replicate (size - block.length) fresh

def memcpy (block : List Char) (at_ : ℕ) (src : List Char) : List Char :=
  block.take at_ ++ src ++ block.drop (at_ + src.length)

def strstr (sub : List Char) : List Char → Option ℕ
  | [] => if sub.isEmpty then some 0 else none
  | c :: str => if sub.isPrefixOf (c :: str) then some 0 else (strstr sub str).map (· + 1)

def headerEnd : List Char := "\r\n\r\n".toList

/-- The bytes received, and the NUL that stands behind them in `buf`, join the body. -/
def append (fresh : Char) (res : Response) (bytes : List Char) : Response :=
  let body := realloc fresh res.body (res.len + bytes.length + 1)
  { res with body := memcpy body res.len (bytes ++ [nul]), len := res.len + bytes.length }

def cutHeader (res : Response) (p : ℕ) : Response :=
  let len := res.len - (p + 4)
  let tmp := (res.body.drop (p + 4)).take (len + 1)
  { res with body := memcpy res.body 0 tmp, len := len }

/-- Look for the end of the header. There is no state where a header plugin refuses it. -/
def search (plugins : Header → Bool) (s : State) : Option State :=
  if s.headerText.isSome then some s
  else
    match strstr headerEnd (cString s.res.body 0) with
    | none => some s
    | some p =>
      let text := s.res.body.take p
      let header := parseHeader text
      if plugins header then some ⟨{ cutHeader s.res p with header := header }, some text⟩ else none

/-- `page` is the text given to `extractUrl`, for a response in HTML. -/
inductive Outcome where
  | done (s : State) (page : Option (List Char))
  | failed
  | waiting
  deriving DecidableEq, Repr

/-- The loop of `recvResponse` over what the calls of `recv` give. -/
def recvLoop (plugins : Header → Bool) (fresh : Char) : State → List Recv → Outcome
  | _, [] => .waiting
  | s, .again :: rest => recvLoop plugins fresh s rest
  | _, .error :: _ => .failed
  | s, .closed :: _ =>
    .done s (if CrawlUrls.occursIn "text/html".toList s.res.header.contentType then some s.res.body
      else none)
  | s, .data bytes :: rest =>
    match search plugins { s with res := append fresh s.res bytes } with
    | some s => recvLoop plugins fresh s rest
    | none => .failed

def recvResponse (plugins : Header → Bool) (fresh : Char) (statusCode : ℤ) (recvs : List Recv) :
    Outcome :=
  recvLoop plugins fresh (initialState statusCode) recvs

/-- Calls of `recv` that deliver a stream in pieces of 1 to 1023 bytes. -/
inductive Delivers : List Recv → List Char → Prop where
  | nil : Delivers [] []
  | again {recvs stream} (h : Delivers recvs stream) : Delivers (.again :: recvs) stream
  | data {recvs stream bytes} (hpos : 0 < bytes.length) (hle : bytes.length ≤ 1023)
      (h : Delivers recvs stream) : Delivers (.data bytes :: recvs) (bytes ++ stream)

def searched (stream : List Char) : List Char :=
  match strstr headerEnd stream with
  | some p => stream.take (p + 4)
  | none => stream

def Clean (stream : List Char) : Prop := nul ∉ searched stream

instance (stream : List Char) : Decidable (Clean stream) :=
  inferInstanceAs (Decidable (nul ∉ searched stream))

def held (got : List Char) : List Char :=
  match strstr headerEnd got with
  | some p => got.drop (p + 4)
  | none => got

structure Holds (got : List Char) (s : State) : Prop where
  headerText : s.headerText = (strstr headerEnd got).map fun p => got.take p
  header : ∀ text, s.headerText = some text → s.res.header = parseHeader text
  len : s.res.len = (held got).length
  body : s.res.body.take s.res.len = held got
  terminated : got ≠ [] → s.res.body[s.res.len]? = some nul

variable {sub str a b got bytes stream : List Char} {p : ℕ} {s : State} {recvs : List Recv}
  {plugins : Header → Bool} {fresh : Char}

theorem strstr_eq_some : strstr sub str = some p ↔
    sub <+: str.drop p ∧ ∀ q < p, ¬ sub <+: str.drop q := by
  induction str generalizing p with
  | nil =>
    simp only [strstr, List.drop_nil, List.prefix_nil, List.isEmpty_iff]
    split
    · rename_i hsub
      simp only [hsub, Option.some.injEq, true_and, not_true_eq_false, imp_false, not_lt]
      exact ⟨fun h q => h ▸ Nat.zero_le q, fun h => (Nat.le_zero.mp (h 0)).symm⟩
    · rename_i hsub
      simp [hsub]
  | cons c str ih =>
    rw [strstr]
    split <;> rename_i hpre <;> rw [List.isPrefixOf_iff_prefix] at hpre
    · constructor
      · intro h
        cases h
        exact ⟨hpre, nofun⟩
      · rintro ⟨-, hfirst⟩
        rcases Nat.eq_zero_or_pos p with rfl | hp
        · rfl
        · exact absurd hpre (hfirst 0 hp)
    · rw [Option.map_eq_some_iff]
      constructor
      · rintro ⟨q, hq, rfl⟩
        obtain ⟨hin, hfirst⟩ := ih.mp hq
        refine ⟨hin, fun r hr => ?_⟩
        cases r with
        | zero => exact hpre
        | succ r => exact hfirst r (by omega)
      · rintro ⟨hin, hfirst⟩
        cases p with
        | zero => exact absurd hin hpre
        | succ q => exact ⟨q, ih.mpr ⟨hin, fun r hr => hfirst (r + 1) (by omega)⟩, rfl⟩

theorem exists_strstr (ahead rest : List Char) :
    ∃ p, strstr sub (ahead ++ sub ++ rest) = some p := by
  induction ahead with
  | nil =>
    cases hs : [] ++ sub ++ rest with
    | nil =>
      obtain rfl : sub = [] := by simp_all
      exact ⟨0, rfl⟩
    | cons c t =>
      have hpre : sub.isPrefixOf (c :: t) = true := by
        rw [List.isPrefixOf_iff_prefix, ← hs]
        exact List.prefix_append _ _
      exact ⟨0, by rw [strstr, if_pos hpre]⟩
  | cons c ahead ih =>
    obtain ⟨p, hp⟩ := ih
    rw [List.cons_append, List.cons_append, strstr, hp]
    split
    · exact ⟨0, rfl⟩
    · exact ⟨p + 1, rfl⟩

theorem strstr_eq_none : strstr sub str = none ↔ ¬ sub <:+: str := by
  constructor
  · rintro h ⟨ahead, rest, rfl⟩
    obtain ⟨p, hp⟩ := exists_strstr ahead rest
    cases h.symm.trans hp
  · intro h
    cases hs : strstr sub str with
    | none => rfl
    | some p =>
      have hin := (strstr_eq_some.mp hs).1.isInfix
      exact absurd (hin.trans (List.drop_suffix _ _).isInfix) h

theorem strstr_append_eq {ahead rest : List Char} (hsub : sub ≠ []) :
    strstr sub (ahead ++ (sub ++ rest)) = some ahead.length ↔
      ¬ sub <:+: ahead ++ sub.dropLast := by
  have hlen : sub.dropLast.length + 1 = sub.length := by
    rw [List.length_dropLast]
    have := List.length_pos_of_ne_nil hsub
    omega
  have hcut : ahead ++ (sub ++ rest) =
      (ahead ++ sub.dropLast) ++ (sub.getLast hsub :: rest) := by
    conv_lhs => rw [← List.dropLast_append_getLast hsub]
    simp
  rw [strstr_eq_some, List.drop_left]
  constructor
  · rintro ⟨-, hfirst⟩ ⟨u, v, huv⟩
    have hulen := congrArg List.length huv
    simp only [List.length_append] at hulen
    refine hfirst u.length (by omega) ?_
    rw [hcut, ← huv, List.append_assoc, List.append_assoc, List.drop_left]
    exact List.prefix_append _ _
  · intro hnone
    refine ⟨List.prefix_append _ _, fun q hq hpre => hnone ?_⟩
    rw [hcut, List.drop_append_of_le_length (by rw [List.length_append]; omega)] at hpre
    have hin : sub <+: (ahead ++ sub.dropLast).drop q := by
      refine List.prefix_of_prefix_length_le hpre (List.prefix_append _ _) ?_
      rw [List.length_drop, List.length_append]
      omega
    exact hin.isInfix.trans (List.drop_suffix _ _).isInfix

theorem strstr_bound (h : strstr sub str = some p) : p + sub.length ≤ str.length := by
  obtain ⟨hin, hfirst⟩ := strstr_eq_some.mp h
  have hlen := hin.length_le
  rw [List.length_drop] at hlen
  by_cases hsub : sub = []
  · rcases Nat.eq_zero_or_pos p with rfl | hp
    · omega
    · exact absurd (hsub ▸ List.nil_prefix) (hfirst 0 hp)
  · have := List.length_pos_of_ne_nil hsub
    omega

theorem strstr_append (h : strstr sub a = some p) : strstr sub (a ++ b) = some p := by
  have hbound := strstr_bound h
  obtain ⟨hin, hfirst⟩ := strstr_eq_some.mp h
  refine strstr_eq_some.mpr ⟨?_, fun q hq hpre => hfirst q hq ?_⟩
  · rw [List.drop_append_of_le_length (by omega)]
    exact hin.trans (List.prefix_append _ _)
  · rw [List.drop_append_of_le_length (by omega)] at hpre
    refine List.prefix_of_prefix_length_le hpre (List.prefix_append _ _) ?_
    rw [List.length_drop]
    omega

theorem strstr_take (h : strstr sub str = some p) :
    strstr sub (str.take (p + sub.length)) = some p := by
  obtain ⟨hin, hfirst⟩ := strstr_eq_some.mp h
  refine strstr_eq_some.mpr ⟨?_, fun q hq hpre => hfirst q hq ?_⟩
  · rw [List.drop_take, Nat.add_sub_cancel_left]
    exact List.prefix_take_iff.mpr ⟨hin, Nat.le_refl _⟩
  · rw [List.drop_take] at hpre
    exact hpre.trans (List.take_prefix _ _)

theorem clean_of_append (h : Clean (a ++ b)) : Clean a := by
  cases ha : strstr headerEnd a with
  | some p =>
    have hbound : p + 4 ≤ a.length := strstr_bound ha
    simpa only [Clean, searched, ha, strstr_append ha, List.take_append_of_le_length hbound] using h
  | none =>
    simp only [Clean, searched, ha]
    intro hin
    cases hab : strstr headerEnd (a ++ b) with
    | none =>
      simp only [Clean, searched, hab] at h
      exact h (List.mem_append_left _ hin)
    | some p =>
      simp only [Clean, searched, hab] at h
      -- otherwise the end would lie within the bytes before
      have hlong : a.length ≤ p + 4 := by
        by_contra hshort
        have htake : strstr headerEnd ((a ++ b).take (p + 4)) = some p := strstr_take hab
        rw [List.take_append_of_le_length (Nat.le_of_not_le hshort)] at htake
        have hfound := strstr_append (b := a.drop (p + 4)) htake
        rw [List.take_append_drop, ha] at hfound
        cases hfound
      apply h
      rw [List.take_append, List.take_of_length_le hlong]
      exact List.mem_append_left _ hin

theorem strstr_cString (h : Clean got) :
    strstr headerEnd (cString (got ++ [nul]) 0) = strstr headerEnd got := by
  rw [cString, List.drop_zero]
  cases hgot : strstr headerEnd got with
  | some p =>
    simp only [Clean, searched, hgot] at h
    have hsplit : got ++ [nul] = got.take (p + 4) ++ (got.drop (p + 4) ++ [nul]) := by
      rw [← List.append_assoc, List.take_append_drop]
    rw [hsplit, DelimitedRuns.takeWhile_ne_append h]
    exact strstr_append (strstr_take hgot)
  | none =>
    simp only [Clean, searched, hgot] at h
    rw [DelimitedRuns.takeWhile_ne_append_cons h]
    exact hgot

theorem held_append (h : strstr headerEnd got = some p) :
    held (got ++ bytes) = held got ++ bytes := by
  have hbound : p + 4 ≤ got.length := strstr_bound h
  simp only [held, h, strstr_append h]
  exact List.drop_append_of_le_length hbound

theorem append_body {res : Response} (hlen : res.len ≤ res.body.length) :
    (append fresh res bytes).body = res.body.take res.len ++ bytes ++ [nul] := by
  have hkept : (realloc fresh res.body (res.len + bytes.length + 1)).take res.len =
      res.body.take res.len := by
    rw [realloc, List.take_append_of_le_length, List.take_take, Nat.min_eq_left (by omega)]
    rw [List.length_take]
    omega
  have hrest : (realloc fresh res.body (res.len + bytes.length + 1)).drop
      (res.len + (bytes ++ [nul]).length) = [] := by
    apply List.drop_of_length_le
    simp only [realloc, List.length_append, List.length_take, List.length_replicate,
      List.length_singleton]
    omega
  simp only [append, memcpy, hkept, hrest, List.append_nil, List.append_assoc]

theorem cutHeader_body {res : Response} {text : List Char} (hbody : res.body = text ++ [nul])
    (hlen : res.len = text.length) (hp : p + 4 ≤ text.length) :
    (cutHeader res p).len = (text.drop (p + 4)).length ∧
      (cutHeader res p).body.take (text.drop (p + 4)).length = text.drop (p + 4) ∧
      (cutHeader res p).body[(text.drop (p + 4)).length]? = some nul := by
  have htmp : (res.body.drop (p + 4)).take (res.len - (p + 4) + 1) =
      text.drop (p + 4) ++ [nul] := by
    rw [hbody, List.drop_append_of_le_length hp]
    apply List.take_of_length_le
    simp only [List.length_append, List.length_drop, List.length_singleton]
    omega
  have hcut : (cutHeader res p).body =
      text.drop (p + 4) ++ [nul] ++ res.body.drop (text.drop (p + 4) ++ [nul]).length := by
    simp only [cutHeader, htmp, memcpy, List.take_zero, List.nil_append, Nat.zero_add]
  refine ⟨by simp [cutHeader, hlen], ?_, ?_⟩
  · rw [hcut, List.append_assoc]
    exact List.take_left
  · rw [hcut, List.append_assoc, List.getElem?_append_right (Nat.le_refl _), Nat.sub_self]
    rfl

theorem holds_initial (statusCode : ℤ) : Holds [] (initialState statusCode) where
  headerText := rfl
  header text h := by cases h
  len := rfl
  body := rfl
  terminated h := absurd rfl h

theorem Holds.appended_body (h : Holds got s) (fresh : Char) (bytes : List Char) :
    (append fresh s.res bytes).body = held got ++ bytes ++ [nul] := by
  have hfit : s.res.len ≤ s.res.body.length := by
    have hlen := congrArg List.length h.body
    rw [List.length_take, ← h.len] at hlen
    omega
  rw [append_body hfit, h.body]

theorem Holds.appended_len (h : Holds got s) (fresh : Char) (bytes : List Char) :
    (append fresh s.res bytes).len = (held got ++ bytes).length := by
  rw [List.length_append, ← h.len]
  rfl

theorem Holds.piece_behind (fresh : Char) (h : Holds got s)
    (hgot : strstr headerEnd got = some p) :
    ∃ t, search plugins { s with res := append fresh s.res bytes } = some t ∧
      Holds (got ++ bytes) t := by
  have hbody := h.appended_body fresh bytes
  have hlen := h.appended_len fresh bytes
  have hparsed : s.headerText = some (got.take p) := by rw [h.headerText, hgot]; rfl
  have hbound : p + 4 ≤ got.length := strstr_bound hgot
  refine ⟨{ s with res := append fresh s.res bytes }, by simp [search, hparsed], ?_⟩
  rw [← held_append hgot] at hbody hlen
  refine ⟨?_, h.header, hlen, ?_, ?_⟩
  · rw [strstr_append hgot]
    simp only [hparsed, Option.map_some]
    rw [List.take_append_of_le_length (by omega)]
  · simp only [hbody, hlen]
    exact List.take_left
  · intro _
    simp [hbody, hlen]

theorem Holds.piece_before (fresh : Char) (h : Holds got s) (hclean : Clean (got ++ bytes))
    (hgot : strstr headerEnd got = none) (hnow : strstr headerEnd (got ++ bytes) = none) :
    ∃ t, search plugins { s with res := append fresh s.res bytes } = some t ∧
      Holds (got ++ bytes) t := by
  have hbody := h.appended_body fresh bytes
  have hlen := h.appended_len fresh bytes
  have hraw : held got = got := by simp only [held, hgot]
  have hheld : held (got ++ bytes) = got ++ bytes := by simp only [held, hnow]
  have hopen : s.headerText = none := by rw [h.headerText, hgot]; rfl
  rw [hraw] at hbody hlen
  refine ⟨{ s with res := append fresh s.res bytes }, ?_, ?_⟩
  · simp only [search, hopen, hbody, strstr_cString hclean, hnow]
    rfl
  · refine ⟨by simp only [hopen, hnow, Option.map_none], h.header, by rw [hheld, hlen], ?_, ?_⟩
    · simp only [hbody, hlen, hheld]
      exact List.take_left
    · intro _
      simp [hbody, hlen]

theorem Holds.piece_ends (fresh : Char) (h : Holds got s) (hclean : Clean (got ++ bytes))
    (haccept : ∀ header, plugins header = true) (hgot : strstr headerEnd got = none)
    (hnow : strstr headerEnd (got ++ bytes) = some p) :
    ∃ t, search plugins { s with res := append fresh s.res bytes } = some t ∧
      Holds (got ++ bytes) t := by
  have hbody := h.appended_body fresh bytes
  have hlen := h.appended_len fresh bytes
  have hraw : held got = got := by simp only [held, hgot]
  have hheld : held (got ++ bytes) = (got ++ bytes).drop (p + 4) := by simp only [held, hnow]
  have hopen : s.headerText = none := by rw [h.headerText, hgot]; rfl
  have hbound : p + 4 ≤ (got ++ bytes).length := strstr_bound hnow
  rw [hraw] at hbody hlen
  have htext : (append fresh s.res bytes).body.take p = (got ++ bytes).take p := by
    rw [hbody, List.take_append_of_le_length (by omega)]
  have hfind : strstr headerEnd (cString (append fresh s.res bytes).body 0) = some p := by
    rw [hbody, strstr_cString hclean, hnow]
  obtain ⟨hcutlen, hcutbody, hnul⟩ := cutHeader_body hbody hlen hbound
  refine ⟨⟨{ cutHeader (append fresh s.res bytes) p with
    header := parseHeader ((got ++ bytes).take p) }, some ((got ++ bytes).take p)⟩, ?_, ?_⟩
  · simp only [search, hopen, hfind, htext, haccept, if_true]
    rfl
  · refine ⟨by rw [hnow]; rfl, ?_, by rw [hheld]; exact hcutlen, ?_, fun _ => ?_⟩
    · rintro text ⟨⟩
      rfl
    · simp only [hcutlen, hheld]
      exact hcutbody
    · simp only [hcutlen]
      exact hnul

theorem Holds.piece (fresh : Char) (h : Holds got s) (hclean : Clean (got ++ bytes))
    (haccept : ∀ header, plugins header = true) :
    ∃ t, search plugins { s with res := append fresh s.res bytes } = some t ∧
      Holds (got ++ bytes) t := by
  cases hgot : strstr headerEnd got with
  | some p => exact h.piece_behind fresh hgot
  | none =>
    cases hnow : strstr headerEnd (got ++ bytes) with
    | none => exact h.piece_before fresh hclean hgot hnow
    | some p => exact h.piece_ends fresh hclean haccept hgot hnow

theorem recvLoop_holds (fresh : Char) (haccept : ∀ header, plugins header = true)
    (hrecvs : Delivers recvs stream) (h : Holds got s) (hclean : Clean (got ++ stream)) : ∃ t,
      recvLoop plugins fresh s (recvs ++ [.closed]) = recvLoop plugins fresh t [.closed] ∧
        Holds (got ++ stream) t := by
  induction hrecvs generalizing got s with
  | nil => exact ⟨s, rfl, by rwa [List.append_nil]⟩
  | again _ ih =>
    obtain ⟨t, ht, hholds⟩ := ih h hclean
    exact ⟨t, ht, hholds⟩
  | @data recvs stream bytes _ _ _ ih =>
    rw [← List.append_assoc] at hclean
    obtain ⟨u, hu, hmid⟩ := h.piece fresh (clean_of_append hclean) haccept
    obtain ⟨t, ht, hholds⟩ := ih hmid hclean
    refine ⟨t, ?_, by rwa [← List.append_assoc]⟩
    rw [← ht]
    simp only [List.cons_append, recvLoop, hu]

/-- However a clean stream is split, the header is what stands before the first empty line,
and the body what stands behind it, or the whole stream where there is none. -/
theorem recvResponse_split (fresh : Char) (statusCode : ℤ)
    (haccept : ∀ header, plugins header = true) (hrecvs : Delivers recvs stream)
    (hclean : Clean stream) : ∃ s page,
      recvResponse plugins fresh statusCode (recvs ++ [.closed]) = .done s page ∧
      s.headerText = (strstr headerEnd stream).map (fun p => stream.take p) ∧
      (∀ text, s.headerText = some text → s.res.header = parseHeader text) ∧
      s.res.len = (held stream).length ∧ s.res.body.take s.res.len = held stream ∧
      (stream ≠ [] → s.res.body[s.res.len]? = some nul) := by
  obtain ⟨t, ht, hholds⟩ := recvLoop_holds fresh haccept hrecvs
    (holds_initial statusCode) (by simpa using hclean)
  exact ⟨t, _, ht, hholds.headerText, hholds.header, hholds.len, hholds.body, hholds.terminated⟩

/-- The end of the header is cut in the middle, with a retry in between. -/
theorem recvResponse_cut_in_end : ∃ s page,
    recvResponse (fun _ => true) 'x' 0
      [.data "HTTP/1.0 200 OK\r\n\r".toList, .again, .data "\nhello".toList, .closed] =
        .done s page ∧
    s.headerText = some "HTTP/1.0 200 OK".toList ∧ s.res.body.take s.res.len = "hello".toList := by
  have hrecvs : Delivers [.data "HTTP/1.0 200 OK\r\n\r".toList, .again, .data "\nhello".toList]
      ("HTTP/1.0 200 OK\r\n\r".toList ++ ("\nhello".toList ++ [])) :=
    .data (by decide) (by decide) (.again (.data (by decide) (by decide) .nil))
  obtain ⟨s, page, hs, htext, -, -, hbody, -⟩ := recvResponse_split 'x' 0
    (fun header : Header => rfl) hrecvs (by decide)
  refine ⟨s, page, hs, htext.trans ?_, hbody.trans ?_⟩
  · decide
  · decide

end HttpReceive
