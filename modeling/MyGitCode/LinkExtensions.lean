import MyGitCode.MarkedEntries
import MyGitCode.PageLinks

/-! # The binary test of a link

`isBinary` looks for the ending of a link in the extensions put together. A part of an extension
is found there too. -/
namespace LinkExtensions

open CrawlUrls MarkedEntries PageLinks

def extensions : List (List Char) :=
  [".jpg", ".jpeg", ".gif", ".png", ".ico", ".bmp", ".swf"].map String.toList

def HasExtension (strUrl : List Char) : Prop :=
  ∃ stem suffix, strUrl = stem ++ '.' :: suffix ∧ '.' ∉ suffix ∧ '.' :: suffix ∈ extensions

/-- The answer that the comment of `isBinary` promises. -/
def Classified (strUrl : List Char) : Prop := isBinary strUrl = true ↔ HasExtension strUrl

/-- The text ends with the first characters of an extension, but not with all of them. -/
def CutShort (strUrl : List Char) : Prop :=
  ∃ e ∈ extensions, ∃ cut, cut <+: e ∧ cut ≠ [] ∧ cut ≠ e ∧ cut <:+ strUrl

variable {strUrl s e : List Char}

theorem occursIn_iff {sub str : List Char} : occursIn sub str = true ↔ sub <:+: str := by
  rw [List.infix_iff_prefix_suffix]
  simp [occursIn, and_comm]

theorem marked_extension (he : e ∈ extensions) : Marked '.' e := by
  have hall : ∀ e ∈ extensions, e.head? = some '.' ∧ '.' ∉ e.tail := by decide
  obtain ⟨hhead, htail⟩ := hall e he
  obtain ⟨body, rfl⟩ := List.head?_eq_some_iff.mp hhead
  exact ⟨body, rfl, htail⟩

theorem flatten_extensions : extensions.flatten = ".jpg.jpeg.gif.png.ico.bmp.swf".toList := by
  decide

theorem extension_eq (hs : s ∈ extensions) (he : e ∈ extensions) (h : s <+: e) : s = e := by
  have hall : ∀ s ∈ extensions, ∀ e ∈ extensions, s <+: e → s = e := by decide
  exact hall s hs e he h

theorem isBinary_iff : isBinary strUrl = true ↔
    ∃ e ∈ extensions, ∃ s, s <+: e ∧ s ≠ [] ∧ s <:+ strUrl := by
  rw [isBinary, Bool.and_eq_true, List.contains_iff_mem, occursIn_iff, ← flatten_extensions]
  constructor
  · rintro ⟨hdot, hfound⟩
    obtain ⟨hlast, hsuffix⟩ := (marked_suffix_iff hdot).mpr rfl
    obtain ⟨e, he, hpre⟩ := (hlast.infix_flatten_iff fun _ => marked_extension).mp hfound
    exact ⟨e, he, _, hpre, hlast.ne_nil, hsuffix⟩
  · rintro ⟨e, he, s, hpre, hne, hsuffix⟩
    have hs : Marked '.' s := (marked_extension he).beginning hpre hne
    have hdot : '.' ∈ strUrl := by
      obtain ⟨body, rfl, -⟩ := hs
      exact hsuffix.subset List.mem_cons_self
    obtain rfl := (marked_suffix_iff hdot).mp ⟨hs, hsuffix⟩
    exact ⟨hdot, (hs.infix_flatten_iff fun _ => marked_extension).mpr ⟨e, he, hpre⟩⟩

theorem hasExtension_iff : HasExtension strUrl ↔ ∃ e ∈ extensions, e <:+ strUrl := by
  constructor
  · rintro ⟨stem, suffix, rfl, -, he⟩
    exact ⟨_, he, List.suffix_append stem _⟩
  · rintro ⟨e, he, stem, rfl⟩
    obtain ⟨suffix, rfl, hdot⟩ := marked_extension he
    exact ⟨stem, suffix, rfl, hdot, he⟩

theorem CutShort.not_hasExtension (h : CutShort strUrl) : ¬ HasExtension strUrl := by
  obtain ⟨e, he, cut, hpre, hne, hcut, hsuffix⟩ := h
  intro hext
  obtain ⟨e', he', hsuffix'⟩ := hasExtension_iff.mp hext
  have hmarked : Marked '.' cut := (marked_extension he).beginning hpre hne
  obtain rfl := hmarked.suffix_unique (marked_extension he') hsuffix hsuffix'
  exact hcut (extension_eq he' he hpre)

theorem CutShort.binary (h : CutShort strUrl) : isBinary strUrl = true := by
  obtain ⟨e, he, cut, hpre, hne, -, hsuffix⟩ := h
  exact isBinary_iff.mpr ⟨e, he, cut, hpre, hne, hsuffix⟩

theorem CutShort.dropped {href : List Char} (h : CutShort href) (page : DnsUrl) :
    resolve page href = .dropped := by
  rw [resolve, if_pos h.binary]

/-- A link is classified rightly exactly when it does not end with the first characters of an
extension alone. -/
theorem classified_iff (strUrl : List Char) : Classified strUrl ↔ ¬ CutShort strUrl := by
  rw [Classified, isBinary_iff, hasExtension_iff]
  constructor
  · intro h hcut
    exact hcut.not_hasExtension (hasExtension_iff.mpr (h.mp (isBinary_iff.mp hcut.binary)))
  · intro h
    constructor
    · rintro ⟨e, he, s, hpre, hne, hsuffix⟩
      by_cases hs : s = e
      · exact ⟨e, he, hs ▸ hsuffix⟩
      · exact absurd ⟨e, he, s, hpre, hne, hs, hsuffix⟩ h
    · rintro ⟨e, he, hsuffix⟩
      exact ⟨e, he, e, List.prefix_rfl, (marked_extension he).ne_nil, hsuffix⟩

/-- A page whose host ends with the first letters of an extension. -/
theorem host_taken_for_image : ¬ Classified "http://a.co.jp".toList ∧
    resolve (.ofRaw sitePage) "http://a.co.jp".toList = .dropped := by
  have hbinary : isBinary "http://a.co.jp".toList = true := by decide
  refine ⟨?_, by decide⟩
  rintro h
  obtain ⟨e, he, hsuffix⟩ := hasExtension_iff.mp (h.mp hbinary)
  have hall : ∀ e ∈ extensions, ¬ e <:+ "http://a.co.jp".toList := by decide
  exact hall e he hsuffix

end LinkExtensions
