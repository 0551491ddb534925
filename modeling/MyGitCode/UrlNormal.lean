import MyGitCode.CrawlUrls

/-! # The one form of a URL

`RawUrl::normalized` with the value it returns, the string it leaves and the character it reads
before the end of what stands behind the scheme. -/
namespace UrlNormal

open CrawlUrls StrKit

/-- How a call ends: at `*(strTmp.end () - 1)` of an empty string, or with what it returns and
leaves in its argument. -/
inductive Ending where
  | outside
  | returned (ok : Bool) (strUrl : List Char)
  deriving DecidableEq, Repr

def withoutScheme (str : List Char) : List Char :=
  ((stripPrefix "http://".toList str).orElse fun _ => stripPrefix "https://".toList str).getD str

def withoutSlash (str : List Char) : List Char :=
  if str.getLast? = some '/' then str.dropLast else str

def normalize (strUrl : List Char) : Ending :=
  let tmp := trim strUrl
  if tmp.isEmpty then .returned false strUrl
  else
    let tmp := withoutScheme tmp
    if tmp.isEmpty then .outside
    else
      let tmp := withoutSlash tmp
      if tmp.length > 128 then .returned false strUrl else .returned true tmp

variable {str rest : List Char}

theorem normalize_eq (str : List Char) : normalize str =
    if (trim str).isEmpty then .returned false str
    else if (withoutScheme (trim str)).isEmpty then .outside
    else if (withoutSlash (withoutScheme (trim str))).length > 128 then .returned false str
    else .returned true (withoutSlash (withoutScheme (trim str))) := rfl

/-- Where the call returns, the crawl's `normalized` is its result. -/
theorem normalized_eq {ok : Bool} {out : List Char} (h : normalize str = .returned ok out) :
    normalized str = if ok then some out else none := by
  have hdef : normalized str = if (trim str).isEmpty then none
      else if (withoutSlash (withoutScheme (trim str))).length > 128 then none
      else some (withoutSlash (withoutScheme (trim str))) := rfl
  rw [normalize_eq] at h
  rw [hdef]
  split at h
  · cases h
    rename_i htrim
    rw [if_pos htrim, if_neg Bool.false_ne_true]
  · rename_i htrim
    rw [if_neg htrim]
    split at h
    · cases h
    · split at h
      · cases h
        rename_i hlong
        rw [if_pos hlong, if_neg Bool.false_ne_true]
      · cases h
        rename_i hlong
        rw [if_neg hlong, if_pos rfl]

def Schemed (str : List Char) : Prop := "http://".toList <+: str ∨ "https://".toList <+: str

instance : Decidable (Schemed str) := inferInstanceAs (Decidable (_ ∨ _))

structure Normal (str : List Char) : Prop where
  nonempty : str ≠ []
  short : str.length ≤ 128
  schemeless : ¬ Schemed str
  slash : str.getLast? ≠ some '/'
  first : ∀ c ∈ str.head?, isBlank c = false
  last : ∀ c ∈ str.getLast?, isBlank c = false

/-- A refusal leaves the string as it was, and a success one that has its form and keeps it. -/
def Normalizes (str : List Char) : Prop :=
  match normalize str with
  | .outside => False
  | .returned false out => out = str
  | .returned true out => Normal out ∧ normalize out = .returned true out

/-- What stands behind the scheme can be brought into its form by taking one slash away. -/
structure Clean (rest : List Char) : Prop where
  schemeless : ¬ Schemed rest
  first : ∀ c ∈ rest.head?, isBlank c = false
  beforeSlash : ∀ str, rest = str ++ ['/'] →
    ∃ c, str.getLast? = some c ∧ c ≠ '/' ∧ isBlank c = false

theorem stripPrefix_eq_none {tag : List Char} (h : ¬ tag <+: str) : stripPrefix tag str = none := by
  rw [stripPrefix, if_neg]
  simpa using h

theorem withoutScheme_eq_self (h : ¬ Schemed str) : withoutScheme str = str := by
  rw [Schemed, not_or] at h
  rw [withoutScheme, stripPrefix_eq_none h.1, stripPrefix_eq_none h.2]
  rfl

theorem withoutSlash_append (str : List Char) : withoutSlash (str ++ ['/']) = str := by
  rw [withoutSlash, if_pos (List.getLast?_concat ..), List.dropLast_concat]

theorem withoutSlash_eq_self (h : str.getLast? ≠ some '/') : withoutSlash str = str := by
  rw [withoutSlash, if_neg h]

theorem withoutScheme_suffix (str : List Char) : withoutScheme str <:+ str := by
  have hstrip : ∀ tag out : List Char, stripPrefix tag str = some out → out <:+ str := by
    intro tag out h
    rw [stripPrefix] at h
    split at h
    · cases h
      exact List.drop_suffix _ _
    · cases h
  rw [withoutScheme]
  cases h₁ : stripPrefix "http://".toList str with
  | some out => exact hstrip _ _ h₁
  | none =>
    cases h₂ : stripPrefix "https://".toList str with
    | some out => exact hstrip _ _ h₂
    | none => exact List.suffix_rfl

theorem rest_getLast (h : rest = withoutScheme (trim str)) :
    ∀ c ∈ rest.getLast?, isBlank c = false := by
  intro c hc
  obtain ⟨front, hfront⟩ : rest <:+ trim str := h ▸ withoutScheme_suffix _
  apply trim_getLast c
  rw [← hfront, List.getLast?_append, Option.mem_def.mp hc]
  rfl

theorem Normal.normalize (h : Normal str) : normalize str = .returned true str := by
  have htrim : trim str = str := trim_eq_self h.first h.last
  have hempty : str.isEmpty ≠ true := by simpa using h.nonempty
  rw [UrlNormal.normalize, htrim, if_neg hempty, withoutScheme_eq_self h.schemeless, if_neg hempty,
    withoutSlash_eq_self h.slash, if_neg (not_lt.mpr h.short)]

/-- A scheme in front of a string and its slash is one in front of the string, or the string is
a scheme without its last slash. -/
theorem schemed_append (h : Schemed (str ++ ['/'])) : Schemed str ∨ str.getLast? = some '/' := by
  rcases h with h | h <;> rcases List.prefix_concat_iff.mp h with heq | hpre
  · right
    have : str ++ ['/'] = "http:/".toList ++ ['/'] := heq.symm
    rw [List.append_cancel_right this]
    rfl
  · exact .inl (.inl hpre)
  · right
    have : str ++ ['/'] = "https:/".toList ++ ['/'] := heq.symm
    rw [List.append_cancel_right this]
    rfl
  · exact .inl (.inr hpre)

theorem Schemed.append (h : Schemed str) (t : List Char) : Schemed (str ++ t) := by
  rcases h with h | h
  · exact .inl (h.trans (List.prefix_append _ _))
  · exact .inr (h.trans (List.prefix_append _ _))

theorem normal_iff_clean_slash {v : List Char} (hshort : v.length ≤ 128) :
    Normal v ↔ Clean (v ++ ['/']) := by
  constructor
  · intro h
    have hc := List.getLast?_eq_some_getLast h.nonempty
    refine ⟨?_, ?_, ?_⟩
    · intro hscheme
      rcases schemed_append hscheme with hv | hv
      · exact h.schemeless hv
      · exact h.slash hv
    · intro d hd
      rw [List.head?_append_of_ne_nil _ h.nonempty] at hd
      exact h.first d hd
    · intro u hu
      obtain rfl := List.append_cancel_right hu
      refine ⟨_, hc, ?_, h.last _ hc⟩
      intro heq
      rw [heq] at hc
      exact h.slash hc
  · intro h
    obtain ⟨c, hc, hcs, hcb⟩ := h.beforeSlash v rfl
    have hv : v ≠ [] := by
      rintro rfl
      cases hc
    refine ⟨hv, hshort, fun hs => h.schemeless (hs.append _), ?_, ?_, ?_⟩
    · rw [hc]
      simpa using hcs
    · intro d hd
      apply h.first d
      rwa [List.head?_append_of_ne_nil _ hv]
    · intro d hd
      rw [hc] at hd
      cases hd
      exact hcb

theorem normal_withoutSlash_iff (hne : rest ≠ []) (hshort : (withoutSlash rest).length ≤ 128)
    (hlast : ∀ c ∈ rest.getLast?, isBlank c = false) : Normal (withoutSlash rest) ↔ Clean rest := by
  by_cases hslash : rest.getLast? = some '/'
  · obtain ⟨v, rfl⟩ : ∃ v, rest = v ++ ['/'] := List.getLast?_eq_some_iff.mp hslash
    rw [withoutSlash_append] at hshort ⊢
    exact normal_iff_clean_slash hshort
  · rw [withoutSlash_eq_self hslash] at hshort ⊢
    constructor
    · intro h
      refine ⟨h.schemeless, h.first, ?_⟩
      rintro u rfl
      exact absurd (List.getLast?_concat ..) hslash
    · intro h
      exact ⟨hne, hshort, h.schemeless, hslash, h.first, hlast⟩

/-- A URL is brought into its form, or refused, exactly when it is blank or has text behind its
scheme that is either too long or needs no more than one slash taken away. -/
theorem normalizes_iff (str : List Char) :
    Normalizes str ↔ trim str = [] ∨ withoutScheme (trim str) ≠ [] ∧
      (128 < (withoutSlash (withoutScheme (trim str))).length ∨
        Clean (withoutScheme (trim str))) := by
  by_cases hblank : trim str = []
  · have hret : normalize str = .returned false str := by simp [normalize, hblank]
    rw [Normalizes, hret]
    exact iff_of_true rfl (.inl hblank)
  have htrim : (trim str).isEmpty ≠ true := by simpa using hblank
  by_cases hrest : withoutScheme (trim str) = []
  · have hret : normalize str = .outside := by
      rw [normalize, if_neg htrim, hrest]
      rfl
    rw [Normalizes, hret]
    exact iff_of_false id fun h => h.elim hblank fun h => h.1 hrest
  have hempty : (withoutScheme (trim str)).isEmpty ≠ true := by simpa using hrest
  have hor : ∀ p : Prop, (trim str = [] ∨ withoutScheme (trim str) ≠ [] ∧ p) ↔ p := by
    intro p
    simp [hblank, hrest]
  rw [hor]
  by_cases hlong : 128 < (withoutSlash (withoutScheme (trim str))).length
  · have hret : normalize str = .returned false str := by
      rw [normalize, if_neg htrim, if_neg hempty, if_pos hlong]
    rw [Normalizes, hret]
    exact iff_of_true rfl (.inl hlong)
  · have hret : normalize str = .returned true (withoutSlash (withoutScheme (trim str))) := by
      rw [normalize, if_neg htrim, if_neg hempty, if_neg hlong]
    rw [Normalizes, hret, or_iff_right hlong,
      ← normal_withoutSlash_iff hrest (not_lt.mp hlong) (rest_getLast rfl)]
    exact and_iff_left_of_imp Normal.normalize

theorem Normalizes.normal {out : List Char} (h : Normalizes str)
    (hret : normalize str = .returned true out) : Normal out := by
  rw [Normalizes, hret] at h
  exact h.1

/-- Nothing behind the scheme, two slashes, a blank behind the scheme, and two schemes. -/
theorem forms_not_reached :
    normalize "http://".toList = .outside ∧ ¬ Normalizes "http://".toList ∧
    normalize "a//".toList = .returned true "a/".toList ∧ ¬ Normalizes "a//".toList ∧
    normalize "http:// a".toList = .returned true " a".toList ∧ ¬ Normalizes "http:// a".toList ∧
    normalize "http://http://a".toList = .returned true "http://a".toList ∧
    ¬ Normalizes "http://http://a".toList := by
  have hempty : normalize "http://".toList = .outside := by decide
  have hslash : normalize "a//".toList = .returned true "a/".toList := by decide
  have hblank : normalize "http:// a".toList = .returned true " a".toList := by decide
  have hscheme : normalize "http://http://a".toList = .returned true "http://a".toList := by decide
  refine ⟨hempty, ?_, hslash, ?_, hblank, ?_, hscheme, ?_⟩
  · rw [Normalizes, hempty]
    exact id
  · intro h
    exact (h.normal hslash).slash rfl
  · intro h
    exact absurd ((h.normal hblank).first ' ' rfl) (by decide)
  · intro h
    exact (h.normal hscheme).schemeless (by decide)

example : normalize " https://www.tmooc.cn/ ".toList = .returned true "www.tmooc.cn".toList := by
  decide

end UrlNormal
