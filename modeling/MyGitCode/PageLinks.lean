import MyGitCode.DelimitedRuns
import MyGitCode.UrlNormal

/-! # From a link of a page to the URL that is queued

What `extractUrl` makes of one link text: the binary test, `attachDomain` and `normalized`. -/
namespace PageLinks

open CrawlUrls StrKit UrlNormal

/-- What is made of a link: a read before an empty string, no URL, or one that is pushed. -/
inductive Resolution where
  | outside
  | dropped
  | pushed (strUrl : List Char)
  deriving DecidableEq, Repr

def resolve (page : DnsUrl) (href : List Char) : Resolution :=
  if isBinary href then .dropped
  else
    match attachDomain page href with
    | none => .dropped
    | some str =>
      match normalize str with
      | .outside => .outside
      | .returned false _ => .dropped
      | .returned true out => .pushed out

/-- The text that a link stands for: without its scheme, or behind the domain if it starts with
a single slash. -/
def targetOf (page : DnsUrl) (href : List Char) : Option (List Char) :=
  if Schemed href then some (withoutScheme href)
  else if href.head? = some '/' ∧ href[1]? ≠ some '/' then some (page.domain ++ href)
  else none

/-- A URL is pushed exactly when the link stands for a text of 1 to 128 characters, not counting
a slash at its end, and it is that text without the slash. -/
def Resolves (page : DnsUrl) (href : List Char) : Prop :=
  match resolve page href with
  | .outside => False
  | .dropped => ∀ target ∈ targetOf page href,
      withoutSlash target = [] ∨ 128 < (withoutSlash target).length
  | .pushed out => ∃ target ∈ targetOf page href,
      out = withoutSlash target ∧ out ≠ [] ∧ out.length ≤ 128 ∧ out.getLast? ≠ some '/'

variable {page : DnsUrl} {href str rest : List Char}

/-- The link with what `attachDomain` puts in front of it. -/
def address (page : DnsUrl) (href : List Char) : List Char :=
  if "http".toList <+: href then href else page.domain ++ href

def remainder (page : DnsUrl) (href : List Char) : List Char :=
  withoutScheme (trim (address page href))

/-- Neither the domain nor a prefix `http` attaches the link. -/
def Unattached (href : List Char) : Prop := ¬ "http".toList <+: href ∧ href.head? ≠ some '/'

def TooLong (rest : List Char) : Prop := 128 < (withoutSlash rest).length

instance : Decidable (TooLong rest) := inferInstanceAs (Decidable (_ < _))

def OneSlash (rest : List Char) : Prop :=
  rest ≠ [] ∧ ∀ str, rest = str ++ ['/'] → ∃ c, str.getLast? = some c ∧ c ≠ '/'

def Resolvable (page : DnsUrl) (href : List Char) : Prop :=
  Unattached href ∨ TooLong (remainder page href) ∨
    (targetOf page href).isSome ∧ trim (address page href) = address page href ∧
      OneSlash (remainder page href)

theorem oneSlash_iff (hne : rest ≠ []) :
    OneSlash rest ↔ withoutSlash rest ≠ [] ∧ (withoutSlash rest).getLast? ≠ some '/' := by
  rw [OneSlash, and_iff_right hne]
  by_cases hslash : rest.getLast? = some '/'
  · obtain ⟨v, rfl⟩ : ∃ v, rest = v ++ ['/'] := List.getLast?_eq_some_iff.mp hslash
    rw [withoutSlash_append]
    constructor
    · intro h
      obtain ⟨c, hc, hcs⟩ := h v rfl
      refine ⟨?_, by rw [hc]; simpa using hcs⟩
      rintro rfl
      cases hc
    · rintro ⟨hv, hvs⟩ u hu
      obtain rfl := List.append_cancel_right hu
      refine ⟨_, List.getLast?_eq_some_getLast hv, ?_⟩
      intro heq
      rw [List.getLast?_eq_some_getLast hv, heq] at hvs
      exact hvs rfl
  · rw [withoutSlash_eq_self hslash]
    refine iff_of_true ?_ ⟨hne, hslash⟩
    rintro v rfl
    exact absurd (List.getLast?_concat ..) hslash

theorem attachDomain_eq (page : DnsUrl) (href : List Char) :
    (Unattached href → attachDomain page href = none) ∧
      (¬ Unattached href → attachDomain page href = some (address page href)) := by
  have hbegin : ("http".toList.isPrefixOf href = true) ↔ "http".toList <+: href := by simp
  by_cases hhttp : "http".toList <+: href
  · refine ⟨fun h => absurd hhttp h.1, fun _ => ?_⟩
    rw [attachDomain, if_pos (hbegin.mpr hhttp), address, if_pos hhttp]
  · rw [attachDomain, if_neg (fun h => hhttp (hbegin.mp h)), address, if_neg hhttp]
    by_cases hslash : href.head? = some '/'
    · exact ⟨fun h => absurd hslash h.2, fun _ => if_pos hslash⟩
    · exact ⟨fun _ => if_neg hslash, fun h => absurd ⟨hhttp, hslash⟩ h⟩

theorem trim_address_ne_nil (h : ¬ Unattached href) : trim (address page href) ≠ [] := by
  by_cases hhttp : "http".toList <+: href
  · have hmem : 'h' ∈ address page href := by
      rw [address, if_pos hhttp]
      exact hhttp.subset (by decide)
    exact trim_ne_nil hmem (by decide)
  · have hslash : href.head? = some '/' := by
      by_contra hslash
      exact h ⟨hhttp, hslash⟩
    have hmem : '/' ∈ address page href := by
      rw [address, if_neg hhttp]
      exact List.mem_append_right _ (List.mem_of_mem_head? hslash)
    exact trim_ne_nil hmem (by decide)

theorem resolve_attached (hbin : isBinary href = false) (h : ¬ Unattached href) :
    resolve page href =
      if remainder page href = [] then .outside
      else if TooLong (remainder page href) then .dropped
      else .pushed (withoutSlash (remainder page href)) := by
  have htrim : (trim (address page href)).isEmpty ≠ true := by
    simpa using trim_address_ne_nil h
  rw [resolve, hbin, if_neg Bool.false_ne_true, (attachDomain_eq page href).2 h]
  simp only [normalize_eq, if_neg htrim]
  rw [← remainder]
  by_cases hempty : remainder page href = []
  · simp [hempty]
  · rw [if_neg hempty, if_neg (by simpa using hempty)]
    by_cases hlong : TooLong (remainder page href)
    · have hlen : (withoutSlash (remainder page href)).length > 128 := hlong
      simp only [if_pos hlong, if_pos hlen]
    · have hlen : ¬ (withoutSlash (remainder page href)).length > 128 := hlong
      simp only [if_neg hlong, if_neg hlen]

/-- Where a text is the target, the remainder is that text without blanks around it. -/
structure Trims (target rest : List Char) (trimmed : Prop) : Prop where
  same : trimmed → rest = target
  shorter : ¬ trimmed → rest.length < target.length
  slash : target.getLast? = some '/' → rest ≠ [] → rest.getLast? = some '/'

theorem trim_concat {c : Char} (hc : isBlank c = false) (str : List Char) :
    trim (str ++ [c]) = str.dropWhile isBlank ++ [c] := by
  rw [trim, DelimitedRuns.dropWhile_append_stop [] hc, List.reverse_append, List.reverse_singleton,
    List.singleton_append, List.dropWhile_cons_of_neg (by simp [hc]), List.reverse_cons,
    List.reverse_reverse]

theorem trim_getLast_slash (h : str.getLast? = some '/') : (trim str).getLast? = some '/' := by
  obtain ⟨v, rfl⟩ := List.getLast?_eq_some_iff.mp h
  rw [trim_concat (by decide)]
  exact List.getLast?_concat ..

theorem isInfix_trim (str : List Char) : trim str <:+: str :=
  (isPrefix_trim str).isInfix.trans (List.dropWhile_suffix _).isInfix

theorem trims_trim (str : List Char) : Trims str (trim str) (trim str = str) where
  same := id
  shorter h := by
    refine lt_of_le_of_ne (isInfix_trim str).length_le fun heq => h ?_
    exact (isInfix_trim str).sublist.eq_of_length heq
  slash h _ := trim_getLast_slash h

def trimRight (str : List Char) : List Char := (str.reverse.dropWhile isBlank).reverse

theorem trim_tag {tag : List Char} (body : List Char) (htag : tag = body ++ ['/'])
    (hhead : tag.head? = some 'h') (str : List Char) :
    trim (tag ++ str) = tag ++ trimRight str := by
  have hstart : (tag ++ str).dropWhile isBlank = tag ++ str := by
    apply dropWhile_eq_self
    intro c hc
    rw [List.head?_append, hhead] at hc
    obtain rfl := Option.some.inj hc
    decide
  have hback : (tag ++ str).reverse = str.reverse ++ '/' :: body.reverse := by
    rw [List.reverse_append, htag, List.reverse_concat]
  rw [trim, hstart, hback, DelimitedRuns.dropWhile_append_stop _ (by decide), List.reverse_append,
    List.reverse_cons, List.reverse_reverse, htag]
  rfl

theorem trims_behind (tag str : List Char) :
    Trims str (trimRight str) (tag ++ trimRight str = tag ++ str) where
  same := List.append_cancel_left
  shorter h := by
    have hbegin : trimRight str <+: str := by
      rw [trimRight, ← List.reverse_suffix, List.reverse_reverse]
      exact List.dropWhile_suffix _
    refine lt_of_le_of_ne hbegin.length_le fun heq => h ?_
    rw [hbegin.eq_of_length heq]
  slash h _ := by
    obtain ⟨v, rfl⟩ := List.getLast?_eq_some_iff.mp h
    rw [trimRight, List.reverse_concat, List.dropWhile_cons_of_neg (by decide), List.reverse_cons,
      List.reverse_reverse]
    exact h

theorem not_schemed_slash {front : List Char} (hfront : '/' ∉ front) (hnext : str.head? ≠ some '/')
    {s : List Char} (hs : s <+: front ++ '/' :: str) : ¬ Schemed s := by
  have htag : ∀ body : List Char, '/' ∉ body →
      ¬ (body ++ '/' :: ['/']) <+: front ++ '/' :: str := by
    rintro body hbody ⟨t, ht⟩
    have hbodies := congrArg (List.takeWhile fun c => c ≠ '/') ht
    rw [List.append_assoc, List.cons_append, DelimitedRuns.takeWhile_ne_append_cons hbody,
      DelimitedRuns.takeWhile_ne_append_cons hfront] at hbodies
    rw [hbodies, List.append_assoc] at ht
    have hstr := List.append_cancel_left ht
    rw [List.cons_append, List.cons.injEq] at hstr
    rw [← hstr.2] at hnext
    exact hnext rfl
  intro hcase
  rcases hcase with h | h
  · exact htag "http:".toList (by decide) (h.trans hs)
  · exact htag "https:".toList (by decide) (h.trans hs)

theorem withoutScheme_tag (str : List Char) :
    withoutScheme ("http://".toList ++ str) = str ∧
      withoutScheme ("https://".toList ++ str) = str :=
  ⟨rfl, rfl⟩

theorem ofRaw_domain (url : RawUrl) : '/' ∉ (DnsUrl.ofRaw url).domain := by
  intro h
  have := List.mem_takeWhile_imp h
  simp at this

theorem target_schemed (h : Schemed href) :
    address page href = href ∧
      Trims (withoutScheme href) (withoutScheme (trim href)) (trim href = href) := by
  rcases h with ⟨str, rfl⟩ | ⟨str, rfl⟩
  · refine ⟨if_pos ⟨"://".toList ++ str, rfl⟩, ?_⟩
    have htrim : trim ("http://".toList ++ str) = "http://".toList ++ trimRight str :=
      trim_tag "http:/".toList rfl rfl str
    rw [htrim, (withoutScheme_tag _).1, (withoutScheme_tag _).1]
    exact trims_behind _ str
  · refine ⟨if_pos ⟨"s://".toList ++ str, rfl⟩, ?_⟩
    have htrim : trim ("https://".toList ++ str) = "https://".toList ++ trimRight str :=
      trim_tag "https:/".toList rfl rfl str
    rw [htrim, (withoutScheme_tag _).2, (withoutScheme_tag _).2]
    exact trims_behind _ str

theorem target_trims {target : List Char} (hdomain : '/' ∉ page.domain)
    (h : targetOf page href = some target) :
    Trims target (remainder page href) (trim (address page href) = address page href) := by
  rw [targetOf] at h
  split at h
  · rename_i hscheme
    obtain rfl := Option.some.inj h
    obtain ⟨haddress, htrims⟩ := @target_schemed page href hscheme
    rw [remainder, haddress]
    exact htrims
  · split at h
    · rename_i hslash
      obtain rfl := Option.some.inj h
      obtain ⟨str, rfl⟩ : ∃ str, href = '/' :: str := List.head?_eq_some_iff.mp hslash.1
      have haddress : address page ('/' :: str) = page.domain ++ '/' :: str :=
        if_neg fun hpre => absurd (List.cons_prefix_cons.mp hpre).1 (by decide)
      have hnext : str.head? ≠ some '/' := by
        rw [List.head?_eq_getElem?]
        exact hslash.2
      have hfront : '/' ∉ page.domain.dropWhile isBlank := fun hmem =>
        hdomain ((List.dropWhile_suffix _).subset hmem)
      have htrim : trim (page.domain ++ '/' :: str) <+:
          page.domain.dropWhile isBlank ++ '/' :: str := by
        rw [← DelimitedRuns.dropWhile_append_stop str (by decide)]
        exact isPrefix_trim _
      rw [remainder, haddress, withoutScheme_eq_self (not_schemed_slash hfront hnext htrim)]
      exact trims_trim _
    · cases h

theorem target_attached {target : List Char} (h : targetOf page href = some target) :
    ¬ Unattached href := by
  rintro ⟨hhttp, hslash⟩
  rw [targetOf] at h
  split at h
  · rename_i hscheme
    rcases hscheme with ⟨str, rfl⟩ | ⟨str, rfl⟩
    · exact hhttp ⟨"://".toList ++ str, rfl⟩
    · exact hhttp ⟨"s://".toList ++ str, rfl⟩
  · split at h
    · rename_i hfirst
      exact hslash hfirst.1
    · cases h

theorem length_withoutSlash (str : List Char) :
    (withoutSlash str).length =
      if str.getLast? = some '/' then str.length - 1 else str.length := by
  rw [withoutSlash]
  split
  · exact List.length_dropLast
  · rfl

theorem Trims.length_le {target : List Char} {trimmed : Prop} (h : Trims target rest trimmed) :
    (withoutSlash rest).length ≤ (withoutSlash target).length := by
  by_cases htrim : trimmed
  · rw [h.same htrim]
  · have hlt := h.shorter htrim
    rw [length_withoutSlash, length_withoutSlash]
    split <;> split <;> omega

theorem Trims.of_withoutSlash_eq {target : List Char} {trimmed : Prop}
    (h : Trims target rest trimmed) (hne : rest ≠ [])
    (heq : withoutSlash rest = withoutSlash target) : trimmed := by
  by_contra htrim
  have hlt := h.shorter htrim
  have hlen := congrArg List.length heq
  have hpos := List.length_pos_iff.mpr hne
  rw [length_withoutSlash, length_withoutSlash] at hlen
  by_cases hslash : target.getLast? = some '/'
  · rw [if_pos hslash, if_pos (h.slash hslash hne)] at hlen
    omega
  · rw [if_neg hslash] at hlen
    split at hlen <;> omega

/-- A link that is not binary is resolved as it should be exactly when it is resolvable. -/
theorem resolves_iff (url : RawUrl) (href : List Char) (hbin : isBinary href = false) :
    Resolves (DnsUrl.ofRaw url) href ↔ Resolvable (DnsUrl.ofRaw url) href := by
  have htrims := fun target => @target_trims (DnsUrl.ofRaw url) href target (ofRaw_domain url)
  generalize DnsUrl.ofRaw url = page at htrims ⊢
  by_cases hatt : Unattached href
  · have hdropped : resolve page href = .dropped := by
      rw [resolve, hbin, if_neg Bool.false_ne_true, (attachDomain_eq page href).1 hatt]
    rw [Resolves, hdropped]
    refine iff_of_true ?_ (.inl hatt)
    intro target htarget
    exact absurd hatt (target_attached htarget)
  rw [Resolves, resolve_attached hbin hatt, Resolvable, or_iff_right hatt]
  by_cases hempty : remainder page href = []
  · rw [if_pos hempty]
    refine iff_of_false id ?_
    intro hcase
    rcases hcase with hlong | ⟨-, -, hone⟩
    · rw [hempty] at hlong
      exact absurd hlong (by decide)
    · exact hone.1 hempty
  rw [if_neg hempty]
  by_cases hlong : TooLong (remainder page href)
  · rw [if_pos hlong]
    refine iff_of_true ?_ (.inl hlong)
    intro target htarget
    exact .inr (lt_of_lt_of_le hlong (htrims target htarget).length_le)
  rw [if_neg hlong, or_iff_right hlong]
  constructor
  · rintro ⟨target, htarget, hout, hne, -, hslash⟩
    refine ⟨by rw [Option.mem_def.mp htarget]; rfl, ?_, ?_⟩
    · exact (htrims target htarget).of_withoutSlash_eq hempty hout
    · exact (oneSlash_iff hempty).mpr ⟨hne, hslash⟩
  · rintro ⟨hsome, htrim, hone⟩
    obtain ⟨target, htarget⟩ := Option.isSome_iff_exists.mp hsome
    obtain ⟨hne, hslash⟩ := (oneSlash_iff hempty).mp hone
    refine ⟨target, htarget, ?_, hne, not_lt.mp hlong, hslash⟩
    rw [(htrims target htarget).same htrim]

def sitePage : RawUrl := ⟨"a.cn/b".toList, .html, 0⟩

theorem link_of_site : Resolves (.ofRaw sitePage) "/c/".toList :=
  (resolves_iff _ _ (by decide)).mpr (.inr (.inr ⟨by decide, by decide, by decide, by
    intro str hstr
    have h : "a.cn/c".toList ++ ['/'] = str ++ ['/'] := hstr
    obtain rfl := List.append_cancel_right h
    exact ⟨'c', rfl, by decide⟩⟩))

/-- A name that only begins like a scheme, a link to another host, and a bare scheme. -/
theorem links_resolved_wrongly :
    resolve (.ofRaw sitePage) "httpd".toList = .pushed "httpd".toList ∧
    ¬ Resolves (.ofRaw sitePage) "httpd".toList ∧
    resolve (.ofRaw sitePage) "//b.cn/c".toList =
      .pushed "a.cn//b.cn/c".toList ∧
    ¬ Resolves (.ofRaw sitePage) "//b.cn/c".toList ∧
    resolve (.ofRaw sitePage) "http://".toList = .outside ∧
    ¬ Resolves (.ofRaw sitePage) "http://".toList := by
  have hname : resolve (.ofRaw sitePage) "httpd".toList = .pushed "httpd".toList := by decide
  have hhost : resolve (.ofRaw sitePage) "//b.cn/c".toList =
      .pushed "a.cn//b.cn/c".toList := by decide
  have hbare : resolve (.ofRaw sitePage) "http://".toList = .outside := by decide
  refine ⟨hname, ?_, hhost, ?_, hbare, ?_⟩
  · rw [Resolves, hname]
    rintro ⟨target, htarget, -⟩
    exact absurd htarget (by rw [targetOf, if_neg (by decide), if_neg (by decide)]; nofun)
  · rw [Resolves, hhost]
    rintro ⟨target, htarget, -⟩
    exact absurd htarget (by rw [targetOf, if_neg (by decide), if_neg (by decide)]; nofun)
  · rw [Resolves, hbare]
    exact id

end PageLinks
