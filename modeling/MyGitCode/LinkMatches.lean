import Mathlib.Logic.Relation
import MyGitCode.CFormat
import MyGitCode.DelimitedRuns
import MyGitCode.LeftmostMatches
import MyGitCode.StrKit

/-! # The loop over the links of a page

`extractUrl` and the image handler look for one match after the other with `regexec`, and move
the cursor `html` over each. `regexec` is a parameter. -/
namespace LinkMatches

open LeftmostMatches StrKit

/-- What `regexec` finds in a C string, or `REG_NOMATCH`. -/
abbrev Regexec := List Char → Option Match

/-- The offset of `html` in the page, and the link texts handled so far. -/
structure Cursor where
  html : ℕ
  handled : List (List Char)
  deriving DecidableEq, Repr

/-- A turn of the loop. What is done with `strUrl` does not move the cursor. -/
def turn (regexec : Regexec) (page : List Char) (s : Cursor) : Option Cursor :=
  (regexec (cString page s.html)).map fun m =>
    let html := s.html + m.gso
    let len := m.geo - m.gso
    let strUrl := (page.drop html).take len
    ⟨html + (len + m.eo - m.geo), s.handled ++ [strUrl]⟩

/-- At most `fuel` turns, and where the loop ends, if it does within them. -/
def loop (regexec : Regexec) (page : List Char) : ℕ → Cursor → Option Cursor
  | 0, _ => none
  | fuel + 1, s =>
    match turn regexec page s with
    | none => some s
    | some t => loop regexec page fuel t

def Turn (regexec : Regexec) (page : List Char) (s t : Cursor) : Prop :=
  turn regexec page s = some t

/-- `[^ >"]` -/
def linkChar (c : Char) : Bool := c ≠ ' ' && c ≠ '>' && c ≠ '"'

/-- `href="\s*\([^ >"]*\)\s*"` -/
def hrefPattern : Pattern Char := fun pre group post =>
  ∃ before behind : List Char, pre = "href=\"".toList ++ before ∧ post = behind ++ ['"'] ∧
    (∀ c ∈ before, CFormat.isSpace c = true) ∧ (∀ c ∈ group, linkChar c = true) ∧
    ∀ c ∈ behind, CFormat.isSpace c = true

/-- `<img [^>]*src="\s*\([^ >"]*\)\s*"` -/
def imgPattern : Pattern Char := fun pre group post =>
  ∃ attributes before behind : List Char,
    pre = "<img ".toList ++ attributes ++ "src=\"".toList ++ before ∧ post = behind ++ ['"'] ∧
    (∀ c ∈ attributes, c ≠ '>') ∧ (∀ c ∈ before, CFormat.isSpace c = true) ∧
    (∀ c ∈ group, linkChar c = true) ∧ ∀ c ∈ behind, CFormat.isSpace c = true

def groupTexts (text : List Char) (ms : List Match) : List (List Char) :=
  ms.map fun m => part text m.gso m.geo

def pageOf (text behind : List Char) : List Char := text ++ nul :: behind

/-- The loop over a page ends, never goes past its NUL, and handles the group texts of the
leftmost matches that do not overlap. -/
structure Extracts (regexec : Regexec) (P : Pattern Char) (text behind : List Char) : Prop where
  ends : ∃ fuel t ms, loop regexec (pageOf text behind) fuel ⟨0, []⟩ = some t ∧
    Scan P text 0 ms ∧ (∀ ms', Scan P text 0 ms' → ms' = ms) ∧ t.handled = groupTexts text ms
  inside : ∀ t, Relation.ReflTransGen (Turn regexec (pageOf text behind)) ⟨0, []⟩ t →
    t.html ≤ text.length

variable {regexec : Regexec} {P : Pattern Char} {text behind : List Char} {s t : Cursor}
  {m : Match} {k : ℕ}

theorem cString_pageOf (htext : nul ∉ text) (hk : k ≤ text.length) :
    cString (pageOf text behind) k = text.drop k := by
  have hrest : nul ∉ text.drop k := fun h => htext (List.mem_of_mem_drop h)
  rw [cString, pageOf, List.drop_append_of_le_length hk,
    DelimitedRuns.takeWhile_ne_append_cons hrest]

theorem turn_found (htext : nul ∉ text) (hfinds : Finds regexec P) (hs : s.html ≤ text.length)
    (ht : turn regexec (pageOf text behind) s = some t) :
    ∃ m, Best P text s.html m ∧ t.html = m.eo ∧
      t.handled = s.handled ++ [part text m.gso m.geo] := by
  rw [turn, cString_pageOf htext hs] at ht
  obtain ⟨m, hm, rfl⟩ := Option.map_eq_some_iff.mp ht
  have hbest := best_drop hs (hfinds.found _ m hm)
  have hinside := hbest.isMatch.inside
  have hgroup := m.group_le
  have heo := m.eo_ge
  simp only [Match.shift] at hinside
  refine ⟨_, hbest, ?_, ?_⟩
  · simp only [Match.shift]
    omega
  · have hlen : (text.drop (s.html + m.gso)).length = text.length - (s.html + m.gso) :=
      List.length_drop
    simp only [Match.shift]
    rw [pageOf, List.drop_append_of_le_length (by omega), List.take_append_of_le_length (by omega),
      part, Nat.add_sub_add_left]

theorem turn_missed (htext : nul ∉ text) (hfinds : Finds regexec P) (hs : s.html ≤ text.length)
    (ht : turn regexec (pageOf text behind) s = none) :
    ∀ m, Matches P text m → ¬ s.html ≤ m.so := by
  rw [turn, cString_pageOf htext hs, Option.map_eq_none_iff] at ht
  intro m hm hstart
  obtain ⟨m', rfl⟩ := exists_shift hstart
  exact hfinds.missed _ ht m' ((matches_drop hs).mpr hm)

theorem loop_scans (htext : nul ∉ text) (hfinds : Finds regexec P) (hP : Progress P) (fuel : ℕ)
    (hs : s.html ≤ text.length) (hfuel : text.length - s.html < fuel) :
    ∃ t ms, loop regexec (pageOf text behind) fuel s = some t ∧ Scan P text s.html ms ∧
      t.handled = s.handled ++ groupTexts text ms := by
  induction fuel generalizing s with
  | zero => omega
  | succ fuel ih =>
    rw [loop]
    cases hturn : turn regexec (pageOf text behind) s with
    | none =>
      exact ⟨s, [], rfl, .done (turn_missed htext hfinds hs hturn), (List.append_nil _).symm⟩
    | some u =>
      obtain ⟨m, hbest, hhtml, hhandled⟩ := turn_found htext hfinds hs hturn
      have hinside := hbest.isMatch.inside
      have hlt := hbest.lt hP
      rw [← hhtml] at hinside hlt
      obtain ⟨t, ms, hloop, hscan, htexts⟩ := ih hinside (by omega)
      rw [hhtml] at hscan
      refine ⟨t, m :: ms, hloop, .next hbest hscan, ?_⟩
      rw [htexts, hhandled, List.append_assoc]
      rfl

theorem turn_inside (htext : nul ∉ text) (hfinds : Finds regexec P)
    (h : Relation.ReflTransGen (Turn regexec (pageOf text behind)) s t)
    (hs : s.html ≤ text.length) : t.html ≤ text.length := by
  induction h with
  | refl => exact hs
  | tail _ hturn ih =>
    obtain ⟨m, hbest, hhtml, -⟩ := turn_found htext hfinds ih hturn
    rw [hhtml]
    exact hbest.isMatch.inside

theorem extracts_of_progress (hP : Progress P) (htext : nul ∉ text) (hfinds : Finds regexec P) :
    Extracts regexec P text behind where
  ends := by
    obtain ⟨t, ms, hloop, hscan, htexts⟩ :=
      @loop_scans _ _ text behind ⟨0, []⟩ htext hfinds hP (text.length + 1) (Nat.zero_le _)
        (by simp)
    exact ⟨_, t, ms, hloop, hscan, fun ms' h => h.unique hscan, htexts⟩
  inside t h := turn_inside htext hfinds h (Nat.zero_le _)

theorem hrefPattern_progress : Progress hrefPattern := by
  rintro pre group post ⟨before, behind, rfl, rfl, -⟩ h
  simp at h

theorem imgPattern_progress : Progress imgPattern := by
  rintro pre group post ⟨attributes, before, behind, rfl, rfl, -⟩ h
  simp at h

/-- The images of a page, as the image handler finds them. -/
theorem images_extracted (htext : nul ∉ text) (hfinds : Finds regexec imgPattern) :
    Extracts regexec imgPattern text behind :=
  extracts_of_progress imgPattern_progress htext hfinds

/-- Whatever function finds the best match of the pattern, `extractUrl` handles the links of a
page, each once and in their order. -/
theorem links_extracted (text behind : List Char) (htext : nul ∉ text)
    (hfinds : Finds regexec hrefPattern) : Extracts regexec hrefPattern text behind :=
  extracts_of_progress hrefPattern_progress htext hfinds

def hrefTag : List Char := "href=\"".toList

def quoted (text : List Char) : List Char := (text.drop hrefTag.length).takeWhile (· ≠ '"')

def leading (content : List Char) : List Char := content.takeWhile CFormat.isSpace

def link (content : List Char) : List Char :=
  (content.dropWhile CFormat.isSpace).takeWhile linkChar

def trailing (content : List Char) : List Char :=
  (content.dropWhile CFormat.isSpace).dropWhile linkChar

def hrefHere (text : List Char) : Option Match :=
  let content := quoted text
  if hrefTag.isPrefixOf text ∧ text[hrefTag.length + content.length]? = some '"' ∧
      (trailing content).all CFormat.isSpace then
    some (Match.ofParts (hrefTag ++ leading content) (link content) (trailing content ++ ['"']))
  else none

theorem content_parts (content : List Char) :
    leading content ++ (link content ++ trailing content) = content := by
  rw [leading, link, trailing, List.takeWhile_append_dropWhile, List.takeWhile_append_dropWhile]

theorem content_parts_append (content rest : List Char) :
    leading content ++ (link content ++ (trailing content ++ rest)) = content ++ rest := by
  conv => rhs; rw [← content_parts content]
  simp only [List.append_assoc]

theorem href_parts {before group behind rest : List Char}
    (hbefore : ∀ c ∈ before, CFormat.isSpace c = true)
    (hgroup : ∀ c ∈ group, linkChar c = true) (hbehind : ∀ c ∈ behind, CFormat.isSpace c = true)
    (htext : text = hrefTag ++ before ++ (group ++ (behind ++ ['"'] ++ rest))) :
    quoted text = before ++ (group ++ behind) ∧ hrefTag <+: text ∧
      text[hrefTag.length + (quoted text).length]? = some '"' := by
  have hquote : '"' ∉ before ++ (group ++ behind) := by
    intro hc
    rcases List.mem_append.mp hc with h | h
    · cases hbefore _ h
    · rcases List.mem_append.mp h with h | h
      · cases hgroup _ h
      · cases hbehind _ h
  have hflat : text = hrefTag ++ (before ++ (group ++ behind) ++ '"' :: rest) := by
    rw [htext]
    simp only [List.append_assoc, List.singleton_append]
  have hcontent : quoted text = before ++ (group ++ behind) := by
    rw [quoted, hflat, List.drop_left, DelimitedRuns.takeWhile_ne_append_cons hquote]
  refine ⟨hcontent, ⟨_, hflat.symm⟩, ?_⟩
  rw [hcontent, hflat, List.getElem?_append_right (Nat.le_add_right _ _), Nat.add_sub_cancel_left,
    List.getElem?_append_right le_rfl, Nat.sub_self]
  rfl

theorem trailing_isSpace {before group behind : List Char}
    (hbefore : ∀ c ∈ before, CFormat.isSpace c = true)
    (hgroup : ∀ c ∈ group, linkChar c = true)
    (hbehind : ∀ c ∈ behind, CFormat.isSpace c = true) :
    ∀ c ∈ trailing (before ++ (group ++ behind)), CFormat.isSpace c = true := by
  rw [trailing, List.dropWhile_append_of_pos hbefore, List.dropWhile_append]
  split
  · intro c hc
    exact hbehind c ((List.dropWhile_suffix _).subset ((List.dropWhile_suffix _).subset hc))
  · have hrest : ∀ c ∈ group.dropWhile CFormat.isSpace, linkChar c = true := fun c hc =>
      hgroup c ((List.dropWhile_suffix _).subset hc)
    rw [List.dropWhile_append_of_pos hrest]
    intro c hc
    exact hbehind c ((List.dropWhile_suffix _).subset hc)

theorem leading_longest {before group behind : List Char}
    (hbefore : ∀ c ∈ before, CFormat.isSpace c = true)
    (hgroup : ∀ c ∈ group, linkChar c = true) :
    before.length < (leading (before ++ (group ++ behind))).length ∨
      before.length = (leading (before ++ (group ++ behind))).length ∧
        group.length ≤ (link (before ++ (group ++ behind))).length := by
  rw [leading, link, List.takeWhile_append_of_pos hbefore, List.dropWhile_append_of_pos hbefore,
    List.length_append]
  cases hmore : ((group ++ behind).takeWhile CFormat.isSpace) with
  | cons c rest =>
    left
    rw [List.length_cons]
    omega
  | nil =>
    right
    have hall : (group ++ behind).dropWhile CFormat.isSpace = group ++ behind := by
      have h := List.takeWhile_append_dropWhile (p := CFormat.isSpace) (l := group ++ behind)
      rwa [hmore, List.nil_append] at h
    rw [hall, List.takeWhile_append_of_pos hgroup, List.length_append]
    exact ⟨rfl, Nat.le_add_right _ _⟩

theorem text_of_quoted (hbegin : hrefTag <+: text)
    (hquote : text[hrefTag.length + (quoted text).length]? = some '"') :
    ∃ rest, text = hrefTag ++ leading (quoted text) ++
      (link (quoted text) ++ (trailing (quoted text) ++ ['"'] ++ rest)) := by
  obtain ⟨t, rfl⟩ := hbegin
  have hcontent : quoted (hrefTag ++ t) = t.takeWhile (· ≠ '"') := by
    rw [quoted, List.drop_left]
  rw [hcontent, List.getElem?_append_right (Nat.le_add_right _ _), Nat.add_sub_cancel_left]
    at hquote
  obtain ⟨hlt, hget⟩ := List.getElem?_eq_some_iff.mp hquote
  have ht : t = t.takeWhile (· ≠ '"') ++ '"' :: t.drop ((t.takeWhile (· ≠ '"')).length + 1) := by
    have hfront : t.take (t.takeWhile (· ≠ '"')).length = t.takeWhile (· ≠ '"') :=
      List.prefix_iff_eq_take.mp (List.takeWhile_prefix _) |>.symm
    conv => lhs; rw [← List.take_append_drop (t.takeWhile (· ≠ '"')).length t, hfront,
      List.drop_eq_getElem_cons hlt, hget]
  refine ⟨t.drop ((t.takeWhile (· ≠ '"')).length + 1), ?_⟩
  rw [hcontent]
  simp only [List.append_assoc, List.singleton_append]
  rw [content_parts_append, ← ht]

theorem hrefHere_tries : Tries hrefHere hrefPattern where
  found text m hm := by
    rw [hrefHere, Option.ite_none_right_eq_some] at hm
    obtain ⟨⟨hbegin, hquote, htrailing⟩, hm⟩ := hm
    obtain rfl := Option.some.inj hm
    refine ⟨?_, rfl, ?_⟩
    · obtain ⟨rest, hrest⟩ := text_of_quoted (List.isPrefixOf_iff_prefix.mp hbegin) hquote
      have hpattern : hrefPattern (hrefTag ++ leading (quoted text)) (link (quoted text))
          (trailing (quoted text) ++ ['"']) :=
        ⟨_, _, rfl, rfl, fun c hc => List.mem_takeWhile_imp hc,
          fun c hc => List.mem_takeWhile_imp hc, List.all_eq_true.mp htrailing⟩
      have hmatches := @matches_ofParts _ _ _ _ _ rest hpattern
      rwa [← hrest] at hmatches
    · intro m' hm' hso
      obtain ⟨pre, group, post, rest, htext, ⟨before, behind, rfl, rfl, hb, hg, hp⟩, rfl⟩ :=
        exists_parts hm' hso
      have hcontent := (href_parts hb hg hp htext).1
      have hlen := congrArg List.length (content_parts (quoted text))
      have hlongest := @leading_longest before group behind hb hg
      rw [← hcontent] at hlongest
      rw [hcontent, List.length_append, List.length_append, List.length_append, List.length_append,
        ← hcontent] at hlen
      refine .inr ⟨rfl, .inr ⟨?_, ?_⟩⟩
      · simp only [Match.ofParts, List.length_append]
        change hrefTag.length + _ + _ + _ = hrefTag.length + _ + _ + _
        omega
      · simp only [Match.ofParts, List.length_append]
        change hrefTag.length + _ < hrefTag.length + _ ∨ hrefTag.length + _ = hrefTag.length + _ ∧
          hrefTag.length + _ + _ ≤ hrefTag.length + _ + _
        omega
  missed text hnone m hm hso := by
    obtain ⟨pre, group, post, rest, htext, ⟨before, behind, rfl, rfl, hb, hg, hp⟩, rfl⟩ :=
      exists_parts hm hso
    obtain ⟨hcontent, hbegin, hquote⟩ := href_parts hb hg hp htext
    have htrailing := trailing_isSpace hb hg hp
    rw [← hcontent] at htrailing
    rw [hrefHere, if_pos ⟨List.isPrefixOf_iff_prefix.mpr hbegin, hquote,
      List.all_eq_true.mpr htrailing⟩] at hnone
    cases hnone

theorem hrefSearch_finds : Finds (search hrefHere) hrefPattern := hrefHere_tries.finds

theorem two_links_extracted :
    Extracts (search hrefHere) hrefPattern "<a href=\" /x \"><a href=\"/y\">".toList [] :=
  links_extracted _ _ (by decide) hrefSearch_finds

example : loop (search hrefHere) (pageOf "<a href=\" /x \"><a href=\"/y\">".toList []) 3 ⟨0, []⟩ =
    some ⟨27, ["/x".toList, "/y".toList]⟩ := by
  decide +kernel

end LinkMatches
