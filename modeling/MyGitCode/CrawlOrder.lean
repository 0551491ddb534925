import Mathlib.Data.Finset.Card
import MyGitCode.CrawlLimits

/-! # Crawls of one link graph in different orders

Pages are fetched in any order. The links of a page are pushed in their order on the page, in
between those of other pages, and the filter makes no mistake. -/
namespace CrawlOrder

open TransitionRuns CrawlUrls
open CrawlLimits (seenAfter maxDepthHandler_eq_true domainLimitHandler_html)

def linksOf (hrefs : List Char → List (List Char)) (str : List Char) : List (List Char) :=
  (hrefs str).filterMap fun href =>
    (linkUrl (DnsUrl.ofRaw ⟨str, .html, 0⟩) href).map (·.strUrl)

structure LinkGraph where
  hrefs : List Char → List (List Char)
  urls : Finset (List Char)
  closed : ∀ str ∈ urls, ∀ link ∈ linksOf hrefs str, link ∈ urls

structure Crawl where
  graph : LinkGraph
  seeds : List (List Char)
  known : ∀ str ∈ seeds, str ∈ graph.urls
  maxDepth : ℤ
  includePrefixes : List (List Char)
  excludePrefixes : List (List Char)

def Crawl.links (c : Crawl) : List Char → List (List Char) := linksOf c.graph.hrefs

def Crawl.plugins (c : Crawl) : List UrlPlugin :=
  [.maxDepth c.maxDepth, .domainLimit c.includePrefixes c.excludePrefixes]

/-- `entered` lists what has entered the raw queue, `waiting` what of it is not fetched yet, and
`pages` the links that the receivers have still to push. -/
structure State where
  seen : List (List Char)
  entered : List RawUrl
  waiting : List RawUrl
  pages : List (List RawUrl)

def seedUrls (c : Crawl) : List RawUrl := c.seeds.map fun str => ⟨str, .html, 0⟩

def initialState (c : Crawl) : State where
  seen := seenAfter exactFilter c.plugins [] (seedUrls c)
  entered := accepted exactFilter c.plugins [] (seedUrls c)
  waiting := accepted exactFilter c.plugins [] (seedUrls c)
  pages := []

def extractUrl (c : Crawl) (url : RawUrl) : List RawUrl :=
  (c.graph.hrefs url.strUrl).filterMap (linkUrl (DnsUrl.ofRaw url))

def fetch (c : Crawl) (s : State) (i : ℕ) : Option State :=
  s.waiting[i]?.map fun url =>
    { s with waiting := s.waiting.eraseIdx i, pages := s.pages ++ [extractUrl c url] }

def push (c : Crawl) (s : State) (j : ℕ) : Option State :=
  match s.pages[j]? with
  | some (url :: rest) =>
    let (pass, seen) := admits exactFilter c.plugins s.seen url
    some {
      seen := seen
      entered := if pass then s.entered ++ [url] else s.entered
      waiting := if pass then s.waiting ++ [url] else s.waiting
      pages := s.pages.set j rest }
  | _ => none

inductive Event where
  | fetch (i : ℕ)
  | push (j : ℕ)
  deriving DecidableEq, Repr

def next (c : Crawl) (s : State) : Event → Option State
  | .fetch i => fetch c s i
  | .push j => push c s j

def Complete (s : State) : Prop := s.waiting = [] ∧ ∀ page ∈ s.pages, page = []

instance : DecidablePred Complete := fun _ => inferInstanceAs (Decidable (_ ∧ _))

def Crawl.Allowed (c : Crawl) (str : List Char) : Prop :=
  (c.includePrefixes ≠ [] → ∃ p ∈ c.includePrefixes, p <+: str) ∧
    ∀ p ∈ c.excludePrefixes, ¬ p <+: str

/-- Chains of links from a seed through URLs that keep the prefix rules. -/
inductive Chain (c : Crawl) : ℕ → List Char → Prop where
  | seed {str} (h : str ∈ c.seeds) : Chain c 0 str
  | link {k str link} (h : Chain c k str) (hlink : link ∈ c.links str) (hallowed : c.Allowed link) :
      Chain c (k + 1) link

def Crawl.InReach (c : Crawl) (k : ℕ) : Prop := 0 ≤ c.maxDepth → (k : ℤ) ≤ c.maxDepth

def Wanted (c : Crawl) (str : List Char) : Prop := ∃ k, Chain c k str ∧ c.InReach k

/-- The crawl of one run is over and has found what it should. -/
def Finds (c : Crawl) (s : State) : Prop :=
  Complete s → ∀ str, str ∈ s.entered.map (·.strUrl) ↔ Wanted c str

/-- A straight descent from a seed along a chain, each page read as far as the link to the next
one, with the URLs seen by then. Each next URL is new when it is met. -/
inductive Descent (c : Crawl) : List (List Char) → ℕ → List Char → Prop where
  | seed {str} (h : str ∈ c.seeds) : Descent c c.seeds 0 str
  | link {seen k str before link after} (h : Descent c seen k str)
      (hlinks : c.links str = before ++ link :: after) (hallowed : c.Allowed link)
      (hnew : link ∉ seen ++ before) : Descent c (seen ++ before ++ [link]) (k + 1) link

/-- A URL that should be found and that a descent meets one link beyond the limit. -/
def Hidden (c : Crawl) (str : List Char) : Prop :=
  Wanted c str ∧ ∃ seen k, Descent c seen (k + 1) str ∧ c.InReach k ∧ ¬ c.InReach (k + 1)

variable {c : Crawl} {s t : State} {e : Event} {ts : List (Taken State Event)} {url : RawUrl}
  {str : List Char} {k : ℕ} {seen : List (List Char)}

theorem extractUrl_eq (str : List Char) (type : UrlType) (depth : ℤ) :
    extractUrl c ⟨str, type, depth⟩ =
      (c.links str).map fun link => ⟨link, .html, depth + 1⟩ := by
  simp only [extractUrl, Crawl.links, linksOf, List.map_filterMap]
  congr 1
  funext href
  simp only [linkUrl, DnsUrl.ofRaw, attachDomain]
  split <;> simp [Option.map_map, Function.comp_def]

theorem invoke_link : invokeUrlPlugins c.plugins ⟨str, .html, (k : ℤ) + 1⟩ = true ↔
    c.InReach (k + 1) ∧ c.Allowed str := by
  simp only [invokeUrlPlugins, Crawl.plugins, List.all_cons, List.all_nil, Bool.and_true,
    Bool.and_eq_true, UrlPlugin.handler, maxDepthHandler_eq_true]
  rw [domainLimitHandler_html rfl (by simp)]
  simp [Crawl.InReach, Crawl.Allowed]

theorem invoke_seed : invokeUrlPlugins c.plugins ⟨str, .html, 0⟩ = true := by
  simp [invokeUrlPlugins, Crawl.plugins, UrlPlugin.handler, maxDepthHandler_eq_true,
    domainLimitHandler]

theorem admits_exact {plugins : List UrlPlugin} : admits exactFilter plugins seen url =
    (!seen.contains url.strUrl && invokeUrlPlugins plugins url, url.strUrl :: seen) := rfl

/-- A push that queues its URL, or one that only shows it to the filter. -/
inductive Pushed (c : Crawl) (url : RawUrl) (s t : State) : Prop where
  | entered (hnew : url.strUrl ∉ s.seen) (hpass : invokeUrlPlugins c.plugins url = true)
      (hentered : t.entered = s.entered ++ [url]) (hwaiting : t.waiting = s.waiting ++ [url])
  | dropped (hfail : url.strUrl ∈ s.seen ∨ invokeUrlPlugins c.plugins url = false)
      (hentered : t.entered = s.entered) (hwaiting : t.waiting = s.waiting)

theorem push_eq {j : ℕ} {rest : List RawUrl} (hj : s.pages[j]? = some (url :: rest)) :
    ∃ t, push c s j = some t ∧ t.seen = url.strUrl :: s.seen ∧ t.pages = s.pages.set j rest ∧
      Pushed c url s t := by
  by_cases hpass : url.strUrl ∉ s.seen ∧ invokeUrlPlugins c.plugins url = true
  · refine ⟨⟨url.strUrl :: s.seen, s.entered ++ [url], s.waiting ++ [url], s.pages.set j rest⟩, ?_,
      rfl, rfl, .entered hpass.1 hpass.2 rfl rfl⟩
    simp [push, hj, admits_exact, hpass.1, hpass.2]
  · have hfail : url.strUrl ∈ s.seen ∨ invokeUrlPlugins c.plugins url = false := by
      by_cases hnew : url.strUrl ∈ s.seen
      · exact .inl hnew
      · exact .inr (Bool.eq_false_of_not_eq_true fun hok => hpass ⟨hnew, hok⟩)
    refine ⟨⟨url.strUrl :: s.seen, s.entered, s.waiting, s.pages.set j rest⟩, ?_, rfl, rfl,
      .dropped hfail rfl rfl⟩
    rcases hfail with hfail | hfail <;> simp [push, hj, admits_exact, hfail]

theorem Pushed.entered_subset (h : Pushed c url s t) : s.entered ⊆ t.entered := by
  cases h with
  | entered _ _ hentered _ =>
    rw [hentered]
    exact List.subset_append_left _ _
  | dropped _ hentered _ =>
    rw [hentered]
    exact List.Subset.refl _

theorem Pushed.waiting_subset (h : Pushed c url s t) : s.waiting ⊆ t.waiting := by
  cases h with
  | entered _ _ _ hwaiting =>
    rw [hwaiting]
    exact List.subset_append_left _ _
  | dropped _ _ hwaiting =>
    rw [hwaiting]
    exact List.Subset.refl _

theorem Pushed.mem_entered {x : RawUrl} (h : Pushed c url s t) (hx : x ∈ t.entered) :
    x ∈ s.entered ∨ x = url ∧ x ∈ t.waiting := by
  cases h with
  | entered _ _ hentered hwaiting =>
    rw [hentered] at hx
    rw [hwaiting]
    rcases List.mem_append.mp hx with hx | hx
    · exact .inl hx
    · exact .inr ⟨List.mem_singleton.mp hx, List.mem_append_right _ hx⟩
  | dropped _ hentered _ =>
    rw [hentered] at hx
    exact .inl hx

theorem step_cases (h : Steps (next c) s e t) :
    (∃ i url, e = .fetch i ∧ s.waiting[i]? = some url ∧
      t = { s with waiting := s.waiting.eraseIdx i, pages := s.pages ++ [extractUrl c url] }) ∨
    ∃ j url rest, e = .push j ∧ s.pages[j]? = some (url :: rest) ∧
      t.seen = url.strUrl :: s.seen ∧ t.pages = s.pages.set j rest ∧ Pushed c url s t := by
  cases e with
  | fetch i =>
    obtain ⟨url, hurl, rfl⟩ := Option.map_eq_some_iff.mp h
    exact .inl ⟨i, url, rfl, hurl, rfl⟩
  | push j =>
    have hpush : push c s j = some t := h
    rcases hj : s.pages[j]? with _ | _ | ⟨url, rest⟩
    · simp [push, hj] at hpush
    · simp [push, hj] at hpush
    · obtain ⟨u, hu, hrest⟩ := push_eq (c := c) hj
      obtain rfl : u = t := Option.some.inj (hu.symm.trans hpush)
      exact .inr ⟨j, url, rest, rfl, hj, hrest⟩

theorem mem_seenAfter {plugins : List UrlPlugin} {urls : List RawUrl} :
    str ∈ seenAfter exactFilter plugins seen urls ↔ str ∈ seen ∨ str ∈ urls.map (·.strUrl) := by
  induction urls generalizing seen with
  | nil => simp [seenAfter]
  | cons url urls ih =>
    have hcons : seenAfter exactFilter plugins seen (url :: urls) =
        seenAfter exactFilter plugins (url.strUrl :: seen) urls := rfl
    rw [hcons, ih]
    simp only [List.mem_cons, List.map_cons]
    tauto

theorem mem_of_accepted {plugins : List UrlPlugin} {urls : List RawUrl}
    (h : url ∈ accepted exactFilter plugins seen urls) : url ∈ urls := by
  induction urls generalizing seen with
  | nil => simp [accepted] at h
  | cons first urls ih =>
    simp only [accepted] at h
    split at h
    · rcases List.mem_cons.mp h with rfl | h
      · exact List.mem_cons_self
      · exact List.mem_cons_of_mem _ (ih h)
    · exact List.mem_cons_of_mem _ (ih h)

theorem mem_accepted {plugins : List UrlPlugin} {urls : List RawUrl}
    (hpass : ∀ url ∈ urls, invokeUrlPlugins plugins url = true) (hstr : str ∈ urls.map (·.strUrl)) :
    str ∈ seen ∨ str ∈ (accepted exactFilter plugins seen urls).map (·.strUrl) := by
  induction urls generalizing seen with
  | nil => simp at hstr
  | cons url urls ih =>
    obtain ⟨hfirst, hrest⟩ := List.forall_mem_cons.mp hpass
    have hlater (h : str ∈ urls.map (·.strUrl)) : (str = url.strUrl ∨ str ∈ seen) ∨
        str ∈ (accepted exactFilter plugins (url.strUrl :: seen) urls).map (·.strUrl) := by
      simpa using @ih (url.strUrl :: seen) hrest h
    simp only [List.map_cons, List.mem_cons] at hstr
    by_cases hnew : url.strUrl ∈ seen
    · simp only [accepted, admits_exact, hfirst, List.contains_iff_mem.mpr hnew, Bool.not_true,
        Bool.false_and, Bool.false_eq_true, if_false]
      rcases hstr with rfl | hstr
      · exact .inl hnew
      · rcases hlater hstr with (rfl | hin) | hin
        · exact .inl hnew
        · exact .inl hin
        · exact .inr hin
    · have hcontains : seen.contains url.strUrl = false := by simpa using hnew
      simp only [accepted, admits_exact, hfirst, hcontains, Bool.not_false, Bool.true_and, if_true,
        List.map_cons, List.mem_cons]
      rcases hstr with rfl | hstr
      · exact .inr (.inl rfl)
      · rcases hlater hstr with (rfl | hin) | hin
        · exact .inr (.inl rfl)
        · exact .inl hin
        · exact .inr (.inr hin)

theorem seen_initial : str ∈ (initialState c).seen ↔ str ∈ c.seeds := by
  simp [initialState, mem_seenAfter, seedUrls, Function.comp_def]

theorem entered_initial :
    url ∈ (initialState c).entered ↔ ∃ str ∈ c.seeds, url = ⟨str, .html, 0⟩ := by
  constructor
  · intro h
    obtain ⟨str, hstr, rfl⟩ := List.mem_map.mp (mem_of_accepted h)
    exact ⟨str, hstr, rfl⟩
  · rintro ⟨str, hstr, rfl⟩
    have hpass : ∀ url ∈ seedUrls c, invokeUrlPlugins c.plugins url = true := by
      intro url h
      obtain ⟨str, -, rfl⟩ := List.mem_map.mp h
      exact invoke_seed
    have hmem : str ∈ (seedUrls c).map (·.strUrl) := by
      simpa [seedUrls, Function.comp_def] using hstr
    have h : str ∈ [] ∨ str ∈ (initialState c).entered.map (·.strUrl) := mem_accepted hpass hmem
    rcases h with hnil | h
    · cases hnil
    · obtain ⟨url, hurl, rfl⟩ := List.mem_map.mp h
      obtain ⟨str, -, rfl⟩ := List.mem_map.mp (mem_of_accepted hurl)
      exact hurl

/-- Every URL that entered has a descent through URLs seen by then. Every URL seen has entered,
breaks the prefix rules or has a descent one link too long. -/
structure Sound (c : Crawl) (s : State) : Prop where
  entered : ∀ url ∈ s.entered, ∃ seen k, Descent c seen k url.strUrl ∧ c.InReach k ∧
    url = ⟨url.strUrl, .html, k⟩ ∧ seen ⊆ s.seen
  seen : ∀ str ∈ s.seen, str ∈ s.entered.map (·.strUrl) ∨ ¬ c.Allowed str ∨
    ∃ seen k, Descent c seen (k + 1) str ∧ c.InReach k ∧ ¬ c.InReach (k + 1)
  waiting : ∀ url ∈ s.waiting, url ∈ s.entered
  pages : ∀ page ∈ s.pages, ∃ url ∈ s.entered, ∃ before, extractUrl c url = before ++ page ∧
    ∀ x ∈ before, x.strUrl ∈ s.seen
  fetched : ∀ url ∈ s.entered, url ∈ s.waiting ∨ ∃ before page,
    extractUrl c url = before ++ page ∧ (∀ x ∈ before, x.strUrl ∈ s.seen) ∧
      (page = [] ∨ page ∈ s.pages)
  seeds : ∀ str ∈ c.seeds, str ∈ s.entered.map (·.strUrl)

theorem Descent.mem_seen (h : Descent c seen k str) : str ∈ seen := by
  cases h with
  | seed h => exact h
  | link => simp

theorem Descent.chain (h : Descent c seen k str) : Chain c k str := by
  induction h with
  | seed h => exact .seed h
  | link _ hlinks hallowed _ ih => exact ih.link (by simp [hlinks]) hallowed

theorem sound_initial : Sound c (initialState c) where
  entered url h := by
    obtain ⟨str, hstr, rfl⟩ := entered_initial.mp h
    exact ⟨c.seeds, 0, .seed hstr, id, rfl, fun str hstr => seen_initial.mpr hstr⟩
  seen str h := by
    have hmem := entered_initial.mpr ⟨str, seen_initial.mp h, rfl⟩
    exact .inl (List.mem_map.mpr ⟨_, hmem, rfl⟩)
  waiting url h := h
  pages page h := by cases h
  fetched url h := .inl h
  seeds str h := by
    have hmem := entered_initial.mpr ⟨str, h, rfl⟩
    exact List.mem_map.mpr ⟨_, hmem, rfl⟩

theorem Sound.entered_seen (h : Sound c s) (hurl : url ∈ s.entered) : url.strUrl ∈ s.seen := by
  obtain ⟨seen, k, hd, -, -, hsub⟩ := h.entered url hurl
  exact hsub hd.mem_seen

theorem Sound.next_link (h : Sound c s) {rest : List RawUrl} (hpage : url :: rest ∈ s.pages)
    (hnew : url.strUrl ∉ s.seen) : ∃ seen, ∃ k : ℕ, url = ⟨url.strUrl, .html, k + 1⟩ ∧
      c.InReach k ∧ seen ⊆ url.strUrl :: s.seen ∧
      (c.Allowed url.strUrl → Descent c seen (k + 1) url.strUrl) := by
  obtain ⟨page, hentered, before, hsplit, hbefore⟩ := h.pages _ hpage
  obtain ⟨seen, k, hd, hreach, heq, hsub⟩ := h.entered page hentered
  rw [heq, extractUrl_eq, List.map_eq_append_iff] at hsplit
  obtain ⟨links, later, hlinks, rfl, hlater⟩ := hsplit
  obtain ⟨link, after, rfl, rfl, -⟩ := List.map_eq_cons_iff.mp hlater
  have hlinkseen : links ⊆ s.seen := fun str hstr => hbefore _ (List.mem_map_of_mem hstr)
  refine ⟨seen ++ links ++ [link], k, rfl, hreach, ?_, fun hallowed => hd.link hlinks hallowed ?_⟩
  · intro str hstr
    simp only [List.mem_append, List.mem_singleton] at hstr
    rcases hstr with (hstr | hstr) | hstr
    · exact List.mem_cons_of_mem _ (hsub hstr)
    · exact List.mem_cons_of_mem _ (hlinkseen hstr)
    · simp [hstr]
  · intro hin
    rcases List.mem_append.mp hin with hin | hin
    · exact hnew (hsub hin)
    · exact hnew (hlinkseen hin)

theorem Sound.fetch (h : Sound c s) {i : ℕ} (hi : s.waiting[i]? = some url) :
    Sound c { s with
      waiting := s.waiting.eraseIdx i, pages := s.pages ++ [extractUrl c url] } where
  entered := h.entered
  seen := h.seen
  waiting x hx := h.waiting x (List.mem_of_mem_eraseIdx hx)
  pages page hpage := by
    rcases List.mem_append.mp hpage with hpage | hpage
    · exact h.pages page hpage
    · rw [List.mem_singleton.mp hpage]
      exact ⟨url, h.waiting url (List.mem_of_getElem? hi), [], rfl, by simp⟩
  fetched x hx := by
    rcases h.fetched x hx with hwait | ⟨before, page, hsplit, hbefore, hpage⟩
    · by_cases hxurl : x = url
      · rw [hxurl]
        exact .inr ⟨[], _, rfl, by simp, .inr (List.mem_append_right _ (.head _))⟩
      · obtain ⟨j, hj⟩ := List.mem_iff_getElem?.mp hwait
        refine .inl (List.mem_eraseIdx_iff_getElem?.mpr ⟨j, ?_, hj⟩)
        rintro rfl
        exact hxurl (Option.some.inj (hj.symm.trans hi))
    · exact .inr ⟨before, page, hsplit, hbefore, hpage.imp id (List.mem_append_left _)⟩
  seeds := h.seeds

theorem mem_set_of_ne {α : Type*} {l : List α} {j : ℕ} {x y z : α} (hx : x ∈ l)
    (hj : l[j]? = some y) (hne : x ≠ y) : x ∈ l.set j z := by
  obtain ⟨i, hi⟩ := List.mem_iff_getElem?.mp hx
  refine List.mem_iff_getElem?.mpr ⟨i, ?_⟩
  rw [List.getElem?_set_ne, hi]
  rintro rfl
  exact hne (Option.some.inj (hi.symm.trans hj))

theorem pushed_before {before page : List RawUrl} (hbefore : ∀ x ∈ before, x.strUrl ∈ seen)
    (hpage : ∀ x ∈ page, x = url) :
    ∀ x ∈ before ++ page, x.strUrl ∈ url.strUrl :: seen := by
  intro x hx
  rcases List.mem_append.mp hx with hx | hx
  · exact List.mem_cons_of_mem _ (hbefore x hx)
  · rw [hpage x hx]
    exact List.mem_cons_self

theorem Sound.push_entered (h : Sound c s) {rest : List RawUrl} {x : RawUrl}
    (hpage : url :: rest ∈ s.pages) (hseen : t.seen = url.strUrl :: s.seen)
    (hpush : Pushed c url s t) (hx : x ∈ t.entered) :
    ∃ seen k, Descent c seen k x.strUrl ∧ c.InReach k ∧ x = ⟨x.strUrl, .html, k⟩ ∧
      seen ⊆ t.seen := by
  have hold (hx : x ∈ s.entered) : ∃ seen k, Descent c seen k x.strUrl ∧ c.InReach k ∧
      x = ⟨x.strUrl, .html, k⟩ ∧ seen ⊆ t.seen := by
    obtain ⟨seen, k, hd, hreach, heq, hsub⟩ := h.entered x hx
    exact ⟨seen, k, hd, hreach, heq, hseen ▸ List.subset_cons_of_subset _ hsub⟩
  cases hpush with
  | entered hnew hpass hentered _ =>
    rw [hentered] at hx
    rcases List.mem_append.mp hx with hx | hx
    · exact hold hx
    · obtain rfl := List.mem_singleton.mp hx
      obtain ⟨seen, k, hx, -, hsub, hdescent⟩ := h.next_link hpage hnew
      rw [hx] at hpass
      obtain ⟨hreach, hallowed⟩ := invoke_link.mp hpass
      exact ⟨seen, k + 1, hdescent hallowed, hreach, by simpa using hx, hseen ▸ hsub⟩
  | dropped _ hentered _ =>
    rw [hentered] at hx
    exact hold hx

theorem Sound.push_seen (h : Sound c s) {rest : List RawUrl} (hpage : url :: rest ∈ s.pages)
    (hpush : Pushed c url s t) (hstr : str ∈ url.strUrl :: s.seen) :
    str ∈ t.entered.map (·.strUrl) ∨ ¬ c.Allowed str ∨
      ∃ seen k, Descent c seen (k + 1) str ∧ c.InReach k ∧ ¬ c.InReach (k + 1) := by
  by_cases hold : str ∈ s.seen
  · exact (h.seen str hold).imp (fun hin => List.map_subset _ hpush.entered_subset hin) id
  · obtain rfl : str = url.strUrl := by simpa [hold] using hstr
    cases hpush with
    | entered _ _ hentered _ => exact .inl (by simp [hentered])
    | dropped hfail _ _ =>
      obtain ⟨seen, k, hx, hreach, -, hdescent⟩ := h.next_link hpage hold
      by_cases hallowed : c.Allowed url.strUrl
      · refine .inr (.inr ⟨seen, k, hdescent hallowed, hreach, fun hin => ?_⟩)
        rcases hfail with hfail | hfail
        · exact hold hfail
        · rw [hx, invoke_link.mpr ⟨hin, hallowed⟩] at hfail
          cases hfail
      · exact .inr (.inl hallowed)

theorem Sound.push_waiting (h : Sound c s) {x : RawUrl} (hpush : Pushed c url s t)
    (hx : x ∈ t.waiting) : x ∈ t.entered := by
  cases hpush with
  | entered _ _ hentered hwaiting =>
    rw [hwaiting] at hx
    rw [hentered]
    rcases List.mem_append.mp hx with hx | hx
    · exact List.mem_append_left _ (h.waiting x hx)
    · exact List.mem_append_right _ hx
  | dropped _ hentered hwaiting =>
    rw [hwaiting] at hx
    rw [hentered]
    exact h.waiting x hx

theorem Sound.push_pages (h : Sound c s) {j : ℕ} {rest page : List RawUrl}
    (hj : s.pages[j]? = some (url :: rest)) (hpush : Pushed c url s t)
    (hpage : page ∈ s.pages.set j rest) : ∃ x ∈ t.entered, ∃ before,
      extractUrl c x = before ++ page ∧ ∀ y ∈ before, y.strUrl ∈ url.strUrl :: s.seen := by
  rcases List.mem_or_eq_of_mem_set hpage with hpage | rfl
  · obtain ⟨x, hx, before, hsplit, hbefore⟩ := h.pages page hpage
    exact ⟨x, hpush.entered_subset hx, before, hsplit,
      fun y hy => List.mem_cons_of_mem _ (hbefore y hy)⟩
  · obtain ⟨x, hx, before, hsplit, hbefore⟩ := h.pages _ (List.mem_of_getElem? hj)
    refine ⟨x, hpush.entered_subset hx, before ++ [url], by simpa using hsplit, ?_⟩
    exact pushed_before hbefore (by simp)

theorem Sound.push_fetched (h : Sound c s) {j : ℕ} {rest : List RawUrl} {x : RawUrl}
    (hj : s.pages[j]? = some (url :: rest)) (hpush : Pushed c url s t) (hx : x ∈ t.entered) :
    x ∈ t.waiting ∨ ∃ before page, extractUrl c x = before ++ page ∧
      (∀ y ∈ before, y.strUrl ∈ url.strUrl :: s.seen) ∧
      (page = [] ∨ page ∈ s.pages.set j rest) := by
  rcases hpush.mem_entered hx with hx | ⟨-, hx⟩
  · rcases h.fetched x hx with hwait | ⟨before, page, hsplit, hbefore, hpage⟩
    · exact .inl (hpush.waiting_subset hwait)
    · by_cases hsame : page = url :: rest
      · refine .inr ⟨before ++ [url], rest, by simpa [hsame] using hsplit,
          pushed_before hbefore (by simp), .inr ?_⟩
        have hlt : j < s.pages.length := (List.getElem?_eq_some_iff.mp hj).1
        exact List.mem_set hlt _
      · refine .inr ⟨before, page, hsplit,
          fun y hy => List.mem_cons_of_mem _ (hbefore y hy), hpage.imp id fun hin => ?_⟩
        exact mem_set_of_ne hin hj hsame
  · exact .inl hx

theorem Sound.push (h : Sound c s) {j : ℕ} {rest : List RawUrl}
    (hj : s.pages[j]? = some (url :: rest)) (hseen : t.seen = url.strUrl :: s.seen)
    (hpages : t.pages = s.pages.set j rest) (hpush : Pushed c url s t) : Sound c t where
  entered x hx := h.push_entered (List.mem_of_getElem? hj) hseen hpush hx
  seen str hstr := h.push_seen (List.mem_of_getElem? hj) hpush (hseen ▸ hstr)
  waiting x hx := h.push_waiting hpush hx
  pages page hpage := by
    rw [hseen]
    exact h.push_pages hj hpush (hpages ▸ hpage)
  fetched x hx := by
    rw [hseen, hpages]
    exact h.push_fetched hj hpush hx
  seeds str hstr := List.map_subset _ hpush.entered_subset (h.seeds str hstr)

theorem Sound.step (h : Sound c s) (ht : Steps (next c) s e t) : Sound c t := by
  rcases step_cases ht with ⟨i, url, -, hi, rfl⟩ | ⟨j, url, rest, -, hj, hseen, hpages, hpush⟩
  · exact h.fetch hi
  · exact h.push hj hseen hpages hpush

theorem run_sound (h : Run (· = initialState c) (Steps (next c)) ts s) : Sound c s := by
  refine h.invariant ?_ fun _ _ _ hi ht => hi.step ht
  rintro _ rfl
  exact sound_initial

theorem Sound.finds_chain (h : Sound c s) (hdone : Complete s) (hfree : ∀ str, ¬ Hidden c str)
    (hchain : Chain c k str) (hreach : c.InReach k) : str ∈ s.entered.map (·.strUrl) := by
  induction hchain with
  | seed hseed => exact h.seeds _ hseed
  | @link k str link hchain hlink hallowed ih =>
    have hparent : c.InReach k := fun hmax => by
      have := hreach hmax
      omega
    obtain ⟨url, hurl, rfl⟩ := List.mem_map.mp (ih hparent)
    obtain ⟨_, depth, -, -, heq, -⟩ := h.entered url hurl
    have hseen : link ∈ s.seen := by
      rcases h.fetched url hurl with hw | ⟨before, page, hsplit, hbefore, hpage⟩
      · rw [hdone.1] at hw
        cases hw
      · obtain rfl : page = [] := hpage.elim id (hdone.2 page)
        rw [heq, extractUrl_eq, List.append_nil] at hsplit
        have hmem : (⟨link, .html, depth + 1⟩ : RawUrl) ∈ before := by
          rw [← hsplit]
          exact List.mem_map_of_mem hlink
        exact hbefore _ hmem
    rcases h.seen link hseen with hin | hnot | ⟨seen, k', hd, hin, hout⟩
    · exact hin
    · exact absurd hallowed hnot
    · exact absurd ⟨⟨k + 1, hchain.link hlink hallowed, hreach⟩, seen, k', hd, hin, hout⟩
        (hfree link)

theorem Sound.finds (h : Sound c s) (hfree : ∀ str, ¬ Hidden c str) : Finds c s := by
  intro hdone str
  constructor
  · intro hin
    obtain ⟨url, hurl, rfl⟩ := List.mem_map.mp hin
    obtain ⟨seen, k, hd, hreach, -, -⟩ := h.entered url hurl
    exact ⟨k, hd.chain, hreach⟩
  · rintro ⟨k, hchain, hreach⟩
    exact h.finds_chain hdone hfree hchain hreach

theorem Descent.known (h : Descent c seen k str) : str ∈ c.graph.urls := by
  induction h with
  | seed h => exact c.known _ h
  | link _ hlinks _ _ ih => exact c.graph.closed _ ih _ (by rw [← Crawl.links, hlinks]; simp)

theorem Sound.page_known (h : Sound c s) {rest : List RawUrl} (hpage : url :: rest ∈ s.pages) :
    url.strUrl ∈ c.graph.urls := by
  obtain ⟨page, hentered, before, hsplit, -⟩ := h.pages _ hpage
  obtain ⟨seen, k, hd, -, heq, -⟩ := h.entered page hentered
  have hmem : url ∈ extractUrl c page := by simp [hsplit]
  rw [heq, extractUrl_eq] at hmem
  obtain ⟨link, hlink, rfl⟩ := List.mem_map.mp hmem
  exact c.graph.closed _ hd.known link hlink

def unseen (c : Crawl) (s : State) : Finset (List Char) := {str ∈ c.graph.urls | str ∉ s.seen}

theorem unseen_lt (hknown : str ∈ c.graph.urls) (hnew : str ∉ s.seen)
    (ht : t.seen = str :: s.seen) :
    (unseen c t).card < (unseen c s).card := by
  refine Finset.card_lt_card (Finset.ssubset_iff_of_subset ?_ |>.mpr ⟨str, ?_, ?_⟩)
  · intro x hx
    simp only [unseen, ht, Finset.mem_filter, List.mem_cons, not_or] at hx ⊢
    exact ⟨hx.1, hx.2.2⟩
  · simp [unseen, hknown, hnew]
  · simp [unseen, ht]

theorem unseen_eq (hold : str ∈ s.seen) (ht : t.seen = str :: s.seen) :
    unseen c t = unseen c s := by
  refine Finset.filter_congr fun x _ => ?_
  rw [ht, List.mem_cons, not_or]
  refine ⟨And.right, fun hx => ⟨?_, hx⟩⟩
  rintro rfl
  exact hx hold

def pending (s : State) : ℕ := (s.pages.map List.length).sum

theorem sum_set_lt {α : Type*} {pages : List (List α)} {j : ℕ} {x : α} {rest : List α}
    (hj : pages[j]? = some (x :: rest)) :
    ((pages.set j rest).map List.length).sum < (pages.map List.length).sum := by
  induction pages generalizing j with
  | nil => simp at hj
  | cons page pages ih =>
    cases j with
    | zero =>
      obtain rfl : page = x :: rest := by simpa using hj
      simp
    | succ j =>
      have := ih (by simpa using hj)
      simpa using this

/-- Every run can be brought to an end, whatever property its steps keep. -/
theorem run_completes {P : State → Prop} {s : State} {ts : List (Taken State Event)}
    (hstep : ∀ s e t, P s → Steps (next c) s e t → P t)
    (h : Run (· = initialState c) (Steps (next c)) ts s) (hP : P s) :
    ∃ us t, Run (· = initialState c) (Steps (next c)) us t ∧ Complete t ∧ P t := by
  by_cases hpages : ∀ page ∈ s.pages, page = []
  · by_cases hwaiting : s.waiting = []
    · exact ⟨ts, s, h, ⟨hwaiting, hpages⟩, hP⟩
    · obtain ⟨url, rest, hw⟩ := List.exists_cons_of_ne_nil hwaiting
      have hfetch : next c s (.fetch 0) = some { s with
          waiting := rest, pages := s.pages ++ [extractUrl c url] } := by
        simp [next, fetch, hw]
      have hlt : rest.length < s.waiting.length := by simp [hw]
      exact run_completes hstep (h.snoc hfetch) (hstep _ _ _ hP hfetch)
  · push Not at hpages
    obtain ⟨page, hpage, hne⟩ := hpages
    obtain ⟨url, rest, rfl⟩ := List.exists_cons_of_ne_nil hne
    obtain ⟨j, hj⟩ := List.mem_iff_getElem?.mp hpage
    obtain ⟨t, hpush, hseen, hset, hpushed⟩ := push_eq (c := c) hj
    have ht : Steps (next c) s (.push j) t := hpush
    by_cases hold : url.strUrl ∈ s.seen
    · have heq : (unseen c t).card = (unseen c s).card := by rw [unseen_eq hold hseen]
      have hwaiting : t.waiting = s.waiting := by
        cases hpushed with
        | entered hnew _ _ _ => exact absurd hold hnew
        | dropped _ _ hwaiting => exact hwaiting
      have hlt : pending t < pending s := by
        rw [pending, hset]
        exact sum_set_lt hj
      exact run_completes hstep (h.snoc ht) (hstep _ _ _ hP ht)
    · have hlt : (unseen c t).card < (unseen c s).card := by
        refine unseen_lt ?_ hold hseen
        exact (run_sound h).page_known hpage
      exact run_completes hstep (h.snoc ht) (hstep _ _ _ hP ht)
termination_by ((unseen c s).card, s.waiting.length, pending s)
decreasing_by
  · exact .right _ (.left _ _ hlt)
  · rw [heq, hwaiting]
    exact .right _ (.right _ hlt)
  · exact .left _ _ hlt

theorem push_links {j : ℕ} {before rest : List RawUrl}
    (h : Run (· = initialState c) (Steps (next c)) ts s)
    (hj : s.pages[j]? = some (before ++ rest)) :
    ∃ us t, Run (· = initialState c) (Steps (next c)) us t ∧ t.pages[j]? = some rest ∧
      ∀ str, str ∈ t.seen ↔ str ∈ s.seen ∨ str ∈ before.map (·.strUrl) := by
  induction before generalizing s ts with
  | nil => exact ⟨ts, s, h, hj, by simp⟩
  | cons url before ih =>
    obtain ⟨t, hpush, hseen, hset, -⟩ := push_eq (c := c) hj
    have ht : Steps (next c) s (.push j) t := hpush
    have hnext : t.pages[j]? = some (before ++ rest) := by
      rw [hset, List.getElem?_set_self (List.getElem?_eq_some_iff.mp hj).1]
      rfl
    obtain ⟨us, u, hrun, hpage, hmem⟩ := ih (h.snoc ht) hnext
    refine ⟨us, u, hrun, hpage, fun str => ?_⟩
    rw [hmem, hseen, List.mem_cons, List.map_cons, List.mem_cons]
    tauto

theorem read_page {before after : List (List Char)} {link : List Char}
    (h : Run (· = initialState c) (Steps (next c)) ts s)
    (hurl : (⟨str, .html, k⟩ : RawUrl) ∈ s.waiting)
    (hlinks : c.links str = before ++ link :: after) :
    ∃ (us : _) (t : State) (j : ℕ) (rest : _), Run (· = initialState c) (Steps (next c)) us t ∧
      t.pages[j]? = some ((⟨link, .html, k + 1⟩ : RawUrl) :: rest) ∧
      ∀ x, x ∈ t.seen ↔ x ∈ s.seen ∨ x ∈ before := by
  obtain ⟨i, hi⟩ := List.mem_iff_getElem?.mp hurl
  have hfetch : Steps (next c) s (.fetch i) { s with
      waiting := s.waiting.eraseIdx i
      pages := s.pages ++ [extractUrl c ⟨str, .html, k⟩] } := by
    simp [Steps, next, fetch, hi]
  have hpage : (s.pages ++ [extractUrl c ⟨str, .html, k⟩])[s.pages.length]? =
      some (before.map (fun link => (⟨link, .html, k + 1⟩ : RawUrl)) ++ ⟨link, .html, k + 1⟩ ::
        after.map fun link => (⟨link, .html, k + 1⟩ : RawUrl)) := by
    simp [extractUrl_eq, hlinks]
  obtain ⟨us, t, hrun, hj, hmem⟩ := push_links (h.snoc hfetch) hpage
  exact ⟨us, t, _, _, hrun, hj, by simpa [Function.comp_def] using hmem⟩

theorem Descent.run (h : Descent c seen k str) (hreach : c.InReach k) :
    ∃ ts s, Run (· = initialState c) (Steps (next c)) ts s ∧ (∀ x, x ∈ s.seen ↔ x ∈ seen) ∧
      (⟨str, .html, k⟩ : RawUrl) ∈ s.waiting := by
  induction h with
  | seed h =>
    exact ⟨[], _, .start rfl, fun x => seen_initial, entered_initial.mpr ⟨_, h, rfl⟩⟩
  | @link seen k str before link after h hlinks hallowed hnew ih =>
    obtain ⟨ts, s, hrun, hseen, hwaiting⟩ := ih fun hmax => by
      have := hreach hmax
      omega
    obtain ⟨us, t, j, rest, hrun, hj, hmem⟩ := read_page hrun hwaiting hlinks
    obtain ⟨u, hpush, huseen, -, hpushed⟩ := push_eq (c := c) hj
    have hu : Steps (next c) t (.push j) u := hpush
    refine ⟨_, u, hrun.snoc hu, fun x => ?_, ?_⟩
    · simp only [huseen, List.mem_cons, hmem, hseen, List.mem_append, List.not_mem_nil, or_false]
      tauto
    · have hfresh : link ∉ t.seen := by
        rw [hmem, hseen]
        simpa using hnew
      cases hpushed with
      | entered _ _ _ hwaiting => simp [hwaiting]
      | dropped hfail _ _ =>
        rcases hfail with hfail | hfail
        · exact absurd hfail hfresh
        · rw [invoke_link.mpr ⟨hreach, hallowed⟩] at hfail
          cases hfail

/-- Seen, but never queued. -/
def Lost (str : List Char) (s : State) : Prop :=
  str ∈ s.seen ∧ str ∉ s.entered.map (·.strUrl)

theorem Lost.step (h : Lost str s) (ht : Steps (next c) s e t) : Lost str t := by
  rcases step_cases ht with ⟨i, url, -, -, rfl⟩ | ⟨j, url, rest, -, -, hseen, -, hpushed⟩
  · exact h
  · refine ⟨by rw [hseen]; exact List.mem_cons_of_mem _ h.1, ?_⟩
    cases hpushed with
    | entered hnew _ hentered _ =>
      rw [hentered, List.map_append, List.mem_append, not_or]
      refine ⟨h.2, ?_⟩
      rw [List.map_singleton, List.mem_singleton]
      rintro rfl
      exact hnew h.1
    | dropped _ hentered _ =>
      rw [hentered]
      exact h.2

theorem Descent.loses (h : Descent c seen (k + 1) str) (hreach : c.InReach k)
    (hdeep : ¬ c.InReach (k + 1)) : ∃ ts s, Run (· = initialState c) (Steps (next c)) ts s ∧
      Complete s ∧ Lost str s := by
  cases h with
  | @link seen k page before link after h hlinks hallowed hnew =>
    obtain ⟨ts, s, hrun, hseen, hwaiting⟩ := h.run hreach
    obtain ⟨us, t, j, rest, hrun, hj, hmem⟩ := read_page hrun hwaiting hlinks
    have hfresh : str ∉ t.seen := by
      rw [hmem, hseen]
      simpa using hnew
    obtain ⟨u, hpush, huseen, -, hpushed⟩ := push_eq (c := c) hj
    have hu : Steps (next c) t (.push j) u := hpush
    have hlost : Lost str u := by
      refine ⟨by simp [huseen], ?_⟩
      cases hpushed with
      | entered _ hpass _ _ => exact absurd (invoke_link.mp hpass).1 hdeep
      | dropped _ hentered _ =>
        rw [hentered]
        intro hin
        obtain ⟨url, hurl, hstr⟩ := List.mem_map.mp hin
        apply hfresh
        rw [← hstr]
        exact (run_sound hrun).entered_seen hurl
    exact run_completes (fun _ _ _ hl ht => hl.step ht) (hrun.snoc hu) hlost

/-- Every complete crawl finds the same URLs, those it should, exactly when no descent hides
one of them. -/
theorem finds_iff_nothing_hidden : (∀ ts s,
      Run (· = initialState c) (Steps (next c)) ts s → Finds c s) ↔ ∀ str, ¬ Hidden c str := by
  constructor
  · rintro hfinds str ⟨hwanted, seen, k, hd, hreach, hdeep⟩
    obtain ⟨ts, s, hrun, hdone, hlost⟩ := hd.loses hreach hdeep
    exact hlost.2 ((hfinds ts s hrun hdone str).mpr hwanted)
  · intro hfree ts s hrun
    exact (run_sound hrun).finds hfree

def detourHrefs (str : List Char) : List (List Char) :=
  if str = "s".toList then ["/a".toList, "/w".toList]
  else if str = "s/a".toList then ["/w".toList]
  else []

def detour : Crawl where
  graph :=
    { hrefs := detourHrefs
      urls := {"s".toList, "s/a".toList, "s/w".toList}
      closed := by decide }
  seeds := ["s".toList]
  known := by decide
  maxDepth := 1
  includePrefixes := []
  excludePrefixes := []

/-- The page behind the first link is read before the second link is pushed. -/
def detourFirst : List Event :=
  [.fetch 0, .push 0, .fetch 0, .push 1, .push 0]

theorem detour_hides : ∃ ts s, Run (· = initialState detour) (Steps (next detour)) ts s ∧
    ¬ Finds detour s := by
  have hlast : (runTrace (next detour) (initialState detour) detourFirst).map
      (fun s => (decide (Complete s), s.entered.map (·.strUrl))) =
      some (true, ["s".toList, "s/a".toList]) := by decide
  obtain ⟨s, hs, hentered⟩ := Option.map_eq_some_iff.mp hlast
  simp only [Prod.mk.injEq, decide_eq_true_eq] at hentered
  refine ⟨_, s, takenSteps_run (.start rfl) hs, fun hfinds => ?_⟩
  have hwanted : Wanted detour "s/w".toList := by
    have hseed : Chain detour 0 "s".toList := .seed (by decide)
    exact ⟨1, hseed.link (by decide) ⟨by decide, by decide⟩, fun _ => by decide⟩
  have hin := (hfinds hentered.1 _).mpr hwanted
  rw [hentered.2] at hin
  exact absurd hin (by decide)

end CrawlOrder
