import Mathlib.Logic.Function.Basic
import MyGitCode.HttpReceive

/-! # Pages and images saved to files

`DnsUrl::toFilename` and the two plugins that save what a response brought under that name.
The directory maps names to contents. -/
namespace PageFiles

open CrawlUrls

def hasHtmlExtension (filename : List Char) : Bool :=
  let extension := '.' :: (filename.reverse.takeWhile (· ≠ '.')).reverse
  filename.contains '.' && (extension = ".htm".toList || extension = ".html".toList)

def toFilename (url : DnsUrl) : List Char :=
  let filename := if url.path.isEmpty then url.domain else url.domain ++ '/' :: url.path
  let filename := filename.map fun c => if c = '/' then '_' else c
  if url.type = .html && !hasHtmlExtension filename then filename ++ ".html".toList else filename

abbrev Files := List Char → Option (List Char)

/-- A response with the URL it answers, and whether the file opens and the write succeeds. -/
structure Fetch where
  url : RawUrl
  res : HttpReceive.Response
  opens : Bool
  writes : Bool

def Fetch.filename (fetch : Fetch) : List Char := toFilename (DnsUrl.ofRaw fetch.url)

/-- Opening the file empties it, and a file that cannot be written is deleted. -/
def save (files : Files) (fetch : Fetch) : Files :=
  if fetch.opens then
    Function.update files fetch.filename
      (if fetch.writes then some (fetch.res.body.take fetch.res.len) else none)
  else files

/-- `SaveHTMLToFile::handler`. -/
def saveHTMLToFile (files : Files) (fetch : Fetch) : Files :=
  if occursIn "text/html".toList fetch.res.header.contentType then save files fetch else files

/-- `SaveImageToFile::handler`, as far as it touches files. -/
def saveImageToFile (files : Files) (fetch : Fetch) : Files :=
  if occursIn "text/html".toList fetch.res.header.contentType then files
  else if occursIn "image".toList fetch.res.header.contentType then save files fetch
  else files

/-- Both plugins are called for each response. -/
def savePage (files : Files) (fetch : Fetch) : Files :=
  saveImageToFile (saveHTMLToFile files fetch) fetch

def saveAll (files : Files) (fetches : List Fetch) : Files := fetches.foldl savePage files

/-- The URL without a slash that ends its domain and has nothing behind it. -/
def bare (strUrl : List Char) : List Char :=
  if strUrl.dropWhile (· ≠ '/') = ['/'] then strUrl.takeWhile (· ≠ '/') else strUrl

def flat (strUrl : List Char) : List Char := (bare strUrl).map fun c => if c = '/' then '_' else c

/-- The URLs differ in no more than slashes and underscores, or in an extension `.html` that
only one of them names. -/
def Collide (u v : RawUrl) : Prop :=
  (flat u.strUrl = flat v.strUrl ∧ (u.type = v.type ∨ hasHtmlExtension (flat u.strUrl) = true)) ∨
  (u.type = .html ∧ hasHtmlExtension (flat u.strUrl) = false ∧
    flat v.strUrl = flat u.strUrl ++ ".html".toList) ∨
  (v.type = .html ∧ hasHtmlExtension (flat v.strUrl) = false ∧
    flat u.strUrl = flat v.strUrl ++ ".html".toList)

instance (u v : RawUrl) : Decidable (Collide u v) := inferInstanceAs (Decidable (_ ∨ _ ∨ _))

variable {u v : RawUrl} {name : List Char} {files files' : Files} {fetch : Fetch}
  {fetches : List Fetch}

theorem hasHtmlExtension_append : hasHtmlExtension (name ++ ".html".toList) = true := by
  simp [hasHtmlExtension]

theorem bare_eq (u : RawUrl) : (if (DnsUrl.ofRaw u).path.isEmpty then (DnsUrl.ofRaw u).domain
    else (DnsUrl.ofRaw u).domain ++ '/' :: (DnsUrl.ofRaw u).path) = bare u.strUrl := by
  have hdomain : (DnsUrl.ofRaw u).domain = u.strUrl.takeWhile (· ≠ '/') := rfl
  have hpath : (DnsUrl.ofRaw u).path = (u.strUrl.dropWhile (· ≠ '/')).drop 1 := rfl
  have hsplit : u.strUrl.takeWhile (· ≠ '/') ++ u.strUrl.dropWhile (· ≠ '/') = u.strUrl :=
    List.takeWhile_append_dropWhile
  rw [hdomain, hpath, bare]
  generalize u.strUrl.takeWhile (· ≠ '/') = domain at hsplit ⊢
  have hhead := List.head?_dropWhile_not (· ≠ '/') u.strUrl
  generalize u.strUrl.dropWhile (· ≠ '/') = rest at hhead hsplit ⊢
  match rest with
  | [] => simpa using hsplit
  | c :: path =>
    obtain rfl : c = '/' := by simpa using hhead
    cases path with
    | nil => rfl
    | cons d path => simpa using hsplit

theorem toFilename_eq (u : RawUrl) : toFilename (DnsUrl.ofRaw u) =
    if u.type = .html ∧ hasHtmlExtension (flat u.strUrl) = false then
      flat u.strUrl ++ ".html".toList
    else flat u.strUrl := by
  have hflat := congrArg (List.map fun c => if c = '/' then '_' else c) (bare_eq u)
  simp only [toFilename, hflat, flat, Bool.and_eq_true, Bool.not_eq_true', decide_eq_true_eq]
  rfl

theorem Collide.symm (h : Collide u v) : Collide v u := by
  rcases h with ⟨heq, htype | hext⟩ | h | h
  · exact .inl ⟨heq.symm, .inl htype.symm⟩
  · exact .inl ⟨heq.symm, .inr (heq ▸ hext)⟩
  · exact .inr (.inr h)
  · exact .inr (.inl h)

theorem collide_of_extended (hu : u.type = .html ∧ hasHtmlExtension (flat u.strUrl) = false)
    (hv : ¬ (v.type = .html ∧ hasHtmlExtension (flat v.strUrl) = false)) :
    flat u.strUrl ++ ".html".toList = flat v.strUrl ↔ Collide u v := by
  constructor
  · intro heq
    exact .inr (.inl ⟨hu.1, hu.2, heq.symm⟩)
  · rintro (⟨heq, htype | hext⟩ | ⟨-, -, heq⟩ | ⟨hv₁, hv₂, -⟩)
    · exact absurd ⟨htype ▸ hu.1, heq ▸ hu.2⟩ hv
    · rw [hext] at hu
      cases hu.2
    · exact heq.symm
    · exact absurd ⟨hv₁, hv₂⟩ hv

theorem toFilename_eq_iff (u v : RawUrl) :
    toFilename (DnsUrl.ofRaw u) = toFilename (DnsUrl.ofRaw v) ↔ Collide u v := by
  rw [toFilename_eq, toFilename_eq]
  have hhtml {a b : List Char} (h : b = a ++ ".html".toList) : hasHtmlExtension b = true :=
    h ▸ hasHtmlExtension_append
  by_cases hu : u.type = .html ∧ hasHtmlExtension (flat u.strUrl) = false
  · by_cases hv : v.type = .html ∧ hasHtmlExtension (flat v.strUrl) = false
    · rw [if_pos hu, if_pos hv, List.append_cancel_right_eq]
      constructor
      · intro heq
        exact .inl ⟨heq, .inl (hu.1.trans hv.1.symm)⟩
      · rintro (⟨heq, -⟩ | ⟨-, -, heq⟩ | ⟨-, -, heq⟩)
        · exact heq
        · rw [hhtml heq] at hv
          cases hv.2
        · rw [hhtml heq] at hu
          cases hu.2
    · rw [if_pos hu, if_neg hv]
      exact collide_of_extended hu hv
  · by_cases hv : v.type = .html ∧ hasHtmlExtension (flat v.strUrl) = false
    · rw [if_neg hu, if_pos hv, eq_comm, collide_of_extended hv hu]
      exact ⟨Collide.symm, Collide.symm⟩
    · rw [if_neg hu, if_neg hv]
      constructor
      · intro heq
        refine .inl ⟨heq, ?_⟩
        by_cases hext : hasHtmlExtension (flat u.strUrl) = true
        · exact .inr hext
        · rw [Bool.not_eq_true] at hext
          have hu' : u.type ≠ .html := fun h => hu ⟨h, hext⟩
          have hv' : v.type ≠ .html := fun h => hv ⟨h, heq ▸ hext⟩
          refine .inl ?_
          cases hut : u.type <;> cases hvt : v.type <;> simp_all
      · rintro (⟨heq, -⟩ | ⟨hu₁, hu₂, -⟩ | ⟨hv₁, hv₂, -⟩)
        · exact heq
        · exact absurd ⟨hu₁, hu₂⟩ hu
        · exact absurd ⟨hv₁, hv₂⟩ hv

theorem savePage_of_ne {name : List Char} (h : fetch.filename ≠ name) :
    savePage files fetch name = files name := by
  have hsave (files : Files) : save files fetch name = files name := by
    unfold save
    split
    · exact Function.update_of_ne (Ne.symm h) _ _
    · rfl
  unfold savePage saveImageToFile saveHTMLToFile
  split
  · exact hsave _
  · split
    · exact hsave _
    · rfl

theorem savePage_congr (h : files fetch.filename = files' fetch.filename) :
    savePage files fetch fetch.filename =
      savePage files' fetch fetch.filename := by
  have hsave : save files fetch fetch.filename =
      save files' fetch fetch.filename := by
    unfold save
    split
    · rw [Function.update_self, Function.update_self]
    · exact h
  unfold savePage saveImageToFile saveHTMLToFile
  split
  · exact hsave
  · split
    · exact hsave
    · exact h

theorem saveAll_filter {keep : Fetch → Bool}
    (hkeep : ∀ fetch ∈ fetches, keep fetch = false → fetch.filename ≠ name)
    (hname : ∀ fetch ∈ fetches, keep fetch = true → fetch.filename = name)
    (h : files name = files' name) :
    saveAll files fetches name = saveAll files' (fetches.filter keep) name := by
  induction fetches generalizing files files' with
  | nil => exact h
  | cons fetch fetches ih =>
    rw [List.forall_mem_cons] at hkeep hname
    cases hcase : keep fetch with
    | false =>
      rw [List.filter_cons_of_neg (by rw [hcase]; exact Bool.false_ne_true)]
      exact ih hkeep.2 hname.2 ((savePage_of_ne (hkeep.1 hcase)).trans h)
    | true =>
      rw [List.filter_cons_of_pos hcase]
      have hself := hname.1 hcase
      subst hself
      exact ih hkeep.2 hname.2 (savePage_congr h)

/-- Two URLs get one name only if they collide, and the file of a URL that collides with no
other one holds what its own fetches left there. -/
theorem saved_apart :
    (∀ u v : RawUrl, toFilename (DnsUrl.ofRaw u) = toFilename (DnsUrl.ofRaw v) ↔ Collide u v) ∧
    ∀ (files : Files) (fetches : List Fetch) (u : RawUrl),
      (∀ fetch ∈ fetches, fetch.url ≠ u → ¬ Collide fetch.url u) →
      saveAll files fetches (toFilename (DnsUrl.ofRaw u)) =
        saveAll files (fetches.filter (·.url = u)) (toFilename (DnsUrl.ofRaw u)) := by
  refine ⟨toFilename_eq_iff, fun files fetches u hapart => saveAll_filter ?_ ?_ rfl⟩
  · intro fetch hmem hne heq
    exact hapart fetch hmem (of_decide_eq_false hne) ((toFilename_eq_iff _ _).mp heq)
  · intro fetch _ heq
    rw [Fetch.filename, of_decide_eq_true heq]

def fetchOf (strUrl body : String) : Fetch :=
  ⟨⟨strUrl.toList, .html, 0⟩,
    ⟨⟨200, "text/html".toList⟩, body.toList, body.length⟩, true, true⟩

theorem saved_apart_two :
    saveAll (fun _ => none) [fetchOf "s/a" "one", fetchOf "s/b" "two"] "s_a.html".toList =
      some "one".toList := by
  have hrun := saved_apart.2 (fun _ => none) [fetchOf "s/a" "one", fetchOf "s/b" "two"]
    ⟨"s/a".toList, .html, 0⟩ (by decide)
  exact hrun.trans (by decide)

/-- The page kept under `s/a_b` replaces the one kept under `s/a/b`. -/
theorem underscore_replaces_page :
    normalized "http://s/a/b".toList = some "s/a/b".toList ∧
    normalized "http://s/a_b".toList = some "s/a_b".toList ∧
    toFilename (DnsUrl.ofRaw (fetchOf "s/a/b" "one").url) =
      toFilename (DnsUrl.ofRaw (fetchOf "s/a_b" "two").url) ∧
    saveAll (fun _ => none) [fetchOf "s/a/b" "one"] "s_a_b.html".toList = some "one".toList ∧
    saveAll (fun _ => none) [fetchOf "s/a/b" "one", fetchOf "s/a_b" "two"] "s_a_b.html".toList =
      some "two".toList := by
  decide

end PageFiles
