import Mathlib.Algebra.Ring.Int.Defs
import MyGitCode.StrKit

/-! # URLs, their plugins and the filter in front of the raw queue

`Url.cpp`, the two URL plugins `MaxDepth` and `DomainLimit`, and the tests `pushRawUrl` makes
before it queues a URL. A page is seen through the strings its links and images name. -/
namespace CrawlUrls

open StrKit

inductive UrlType where
  | html | image
  deriving DecidableEq, Repr

structure RawUrl where
  strUrl : List Char
  type : UrlType
  depth : ℤ
  deriving DecidableEq, Repr

structure DnsUrl extends RawUrl where
  domain : List Char
  path : List Char
  deriving DecidableEq, Repr

def DnsUrl.ofRaw (rawUrl : RawUrl) : DnsUrl where
  toRawUrl := rawUrl
  domain := rawUrl.strUrl.takeWhile (· ≠ '/')
  path := (rawUrl.strUrl.dropWhile (· ≠ '/')).drop 1

def stripPrefix (tag str : List Char) : Option (List Char) :=
  if tag.isPrefixOf str then some (str.drop tag.length) else none

/-- What is left behind a protocol tag may be empty, and then the character before its end
lies outside the string. It is taken not to be a slash. -/
def normalized (strUrl : List Char) : Option (List Char) :=
  let tmp := trim strUrl
  if tmp.isEmpty then none
  else
    let tmp := ((stripPrefix "http://".toList tmp).orElse fun _ =>
      stripPrefix "https://".toList tmp).getD tmp
    let tmp := if tmp.getLast? = some '/' then tmp.dropLast else tmp
    if tmp.length > 128 then none else some tmp

def attachDomain (page : DnsUrl) (strUrl : List Char) : Option (List Char) :=
  if "http".toList.isPrefixOf strUrl then some strUrl
  else if strUrl.head? = some '/' then some (page.domain ++ strUrl)
  else none

/-- Whether `string::find` finds one string in another. -/
def occursIn (sub str : List Char) : Bool := str.tails.any fun tail => sub.isPrefixOf tail

/-- A link text is binary when what follows its last dot, with the dot, occurs in the list
of extensions. -/
def isBinary (strUrl : List Char) : Bool :=
  strUrl.contains '.' &&
    occursIn ('.' :: (strUrl.reverse.takeWhile (· ≠ '.')).reverse)
      ".jpg.jpeg.gif.png.ico.bmp.swf".toList

/-- What `extractUrl` makes of one link of a page. -/
def linkUrl (page : DnsUrl) (href : List Char) : Option RawUrl :=
  if isBinary href then none
  else ((attachDomain page href).bind normalized).map fun str => ⟨str, .html, page.depth + 1⟩

/-- What `SaveImageToFile` makes of one image of a page. -/
def imageUrl (page : DnsUrl) (src : List Char) : Option RawUrl :=
  ((attachDomain page src).bind normalized).map fun str => ⟨str, .image, page.depth⟩

/-- The URL plugins, with the limits they read from the configuration. -/
inductive UrlPlugin where
  | maxDepth (limit : ℤ)
  | domainLimit (includePrefixes excludePrefixes : List (List Char))
  deriving DecidableEq, Repr

def maxDepthHandler (limit : ℤ) (url : RawUrl) : Bool := !(0 ≤ limit && limit < url.depth)

/-- Where the search for a prefix of a URL stops: the end of the list if there is none. -/
def searchPrefix (prefixes : List (List Char)) (url : RawUrl) : List (List Char) :=
  prefixes.dropWhile fun p => !p.isPrefixOf url.strUrl

def domainLimitHandler (includePrefixes excludePrefixes : List (List Char)) (url : RawUrl) : Bool :=
  if url.depth = 0 || url.type ≠ .html then true
  else if !includePrefixes.isEmpty && (searchPrefix includePrefixes url).isEmpty then false
  else if !(searchPrefix excludePrefixes url).isEmpty then false
  else true

def UrlPlugin.handler : UrlPlugin → RawUrl → Bool
  | .maxDepth limit => maxDepthHandler limit
  | .domainLimit includes excludes => domainLimitHandler includes excludes

def invokeUrlPlugins (plugins : List UrlPlugin) (url : RawUrl) : Bool :=
  plugins.all fun plugin => plugin.handler url

/-- `UrlFilter`: whether a URL is known already, and the filter that knows it. -/
structure UrlFilter (F : Type*) where
  exist : F → List Char → Bool × F

def exactFilter : UrlFilter (List (List Char)) := ⟨fun seen str => (seen.contains str, str :: seen)⟩

/-- The tests of `pushRawUrl`: the filter first, and the plugins for a new URL only. -/
def admits {F : Type*} (filter : UrlFilter F) (plugins : List UrlPlugin) (seen : F) (url : RawUrl) :
    Bool × F :=
  let (known, seen) := filter.exist seen url.strUrl
  (!known && invokeUrlPlugins plugins url, seen)

/-- The URLs that a sequence of calls of `pushRawUrl` lets through. -/
def accepted {F : Type*} (filter : UrlFilter F) (plugins : List UrlPlugin) :
    F → List RawUrl → List RawUrl
  | _, [] => []
  | seen, url :: urls =>
    let rest := accepted filter plugins (admits filter plugins seen url).2 urls
    if (admits filter plugins seen url).1 then url :: rest else rest

structure Remembers {F : Type*} (filter : UrlFilter F) (Known : F → List Char → Prop) : Prop where
  keeps : ∀ seen str str', Known seen str → Known (filter.exist seen str').2 str
  learns : ∀ seen str, Known (filter.exist seen str).2 str
  answers : ∀ seen str, Known seen str → (filter.exist seen str).1 = true

variable {F : Type*} {filter : UrlFilter F} {plugins : List UrlPlugin} {seen : F}
  {urls : List RawUrl} {Known : F → List Char → Prop}

theorem admits_cases (filter : UrlFilter F) (plugins : List UrlPlugin) (seen : F) (url : RawUrl) :
     (admits filter plugins seen url).2 =
      (filter.exist seen url.strUrl).2 ∧
    ((admits filter plugins seen url).1 = true ↔ (filter.exist seen url.strUrl).1 = false ∧
      invokeUrlPlugins plugins url = true) := by
  simp [admits]

theorem Remembers.not_accepted (h : Remembers filter Known) {str : List Char}
    (hknown : Known seen str) : str ∉ (accepted filter plugins seen urls).map (·.strUrl) := by
  induction urls generalizing seen with
  | nil => simp [accepted]
  | cons url urls ih =>
    obtain ⟨hseen, hok⟩ := admits_cases filter plugins seen url
    have hrest := @ih (admits filter plugins seen url).2
      (by rw [hseen]; exact h.keeps _ _ _ hknown)
    simp only [accepted]
    split
    · rename_i hpass
      rw [List.map_cons, List.mem_cons, not_or]
      refine ⟨?_, hrest⟩
      rintro rfl
      have := (hok.mp hpass).1
      rw [h.answers _ _ hknown] at this
      cases this
    · exact hrest

theorem Remembers.accepted_nodup (h : Remembers filter Known) :
    ((accepted filter plugins seen urls).map (·.strUrl)).Nodup := by
  induction urls generalizing seen with
  | nil => simp [accepted]
  | cons url urls ih =>
    have hseen := (admits_cases filter plugins seen url).1
    simp only [accepted]
    split
    · rw [List.map_cons, List.nodup_cons]
      refine ⟨h.not_accepted ?_, ih⟩
      rw [hseen]
      exact h.learns _ _
    · exact ih

end CrawlUrls
