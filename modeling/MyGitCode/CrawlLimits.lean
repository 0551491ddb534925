import MyGitCode.CrawlSystem
import MyGitCode.CrawlUrls

/-! # The crawl limits over whole runs

Every URL enters the raw queue through the filter and the URL plugins: the seeds, and the links
and images of the pages being received. A URL that has passed them may have to wait for room. A
URL of the DNS queue or of a socket is the conversion of one from the raw queue, and is kept as
that one. -/
namespace CrawlLimits

open TransitionRuns CrawlUrls
open CrawlSystem (Moves)

structure Config extends CrawlSystem.Config where
  plugins : List UrlPlugin

/-- `pushing` is the URL with which the receiver of a socket waits in `pushRawUrl`. -/
structure State (F : Type*) where
  crawl : CrawlSystem.State RawUrl
  seen : F
  pushing : ℕ → Option RawUrl

variable {F : Type*}

def seedUrls (seeds : List Char) : List RawUrl :=
  ((StrKit.split seeds ",".toList 0).filterMap normalized).map fun str => ⟨str, .html, 0⟩

def seenAfter (filter : UrlFilter F) (plugins : List UrlPlugin) (seen : F)
    (urls : List RawUrl) : F :=
  urls.foldl (fun seen url => (admits filter plugins seen url).2) seen

def Started (c : Config) (filter : UrlFilter F) (seen : F) (s : State F) : Prop :=
  ∃ seeds, CrawlSystem.Started c.toConfig s.crawl ∧ s = {
    crawl := CrawlSystem.initialState (accepted filter c.plugins seen (seedUrls seeds))
    seen := seenAfter filter c.plugins seen (seedUrls seeds)
    pushing := fun _ => none }

inductive Event where
  | crawl (e : CrawlSystem.Event RawUrl)
  | link (i : ℕ) (href : List Char)
  | image (i : ℕ) (src : List Char)
  | push (i : ℕ)

/-- The receiver of socket `i` finds a URL in its page and offers it to the raw queue. -/
def offer (c : Config) (filter : UrlFilter F) (s : State F) (i : ℕ)
    (find : DnsUrl → Option RawUrl) : Option (State F) :=
  match s.crawl.sockets[i]?, s.pushing i with
  | some ⟨page, .receiving⟩, none =>
    (find (DnsUrl.ofRaw page)).map fun url =>
      let (pass, seen) := admits filter c.plugins s.seen url
      { s with
        seen := seen
        pushing := Function.update s.pushing i (if pass then some url else none) }
  | _, _ => none

def push (c : Config) (s : State F) (i : ℕ) : Option (State F) :=
  (s.pushing i).bind fun url =>
    (CrawlSystem.pushRawUrl c.toConfig s.crawl i url).map fun crawl =>
      { s with crawl := crawl, pushing := Function.update s.pushing i none }

def crawl (c : Config) (s : State F) (e : CrawlSystem.Event RawUrl) : Option (State F) :=
  match e with
  | .pushRawUrl _ _ => none
  | .recvResponse i success =>
    if s.pushing i = none then
      (CrawlSystem.recvResponse s.crawl i success).map fun crawl => { s with crawl := crawl }
    else none
  | e => (CrawlSystem.next c.toConfig s.crawl e).map fun crawl => { s with crawl := crawl }

def next (c : Config) (filter : UrlFilter F) (s : State F) : Event → Option (State F)
  | .crawl e => crawl c s e
  | .link i href => offer c filter s i fun page => linkUrl page href
  | .image i src => offer c filter s i fun page => imageUrl page src
  | .push i => push c s i

/-- Every URL in the system, wherever it is, has the property. -/
structure AllUrls {U : Type*} (P : U → Prop) (s : CrawlSystem.State U) : Prop where
  raw : ∀ url ∈ s.raw, P url
  dnsThread : ∀ url, s.dnsThread = .lookup url ∨ s.dnsThread = .pushDns url → P url
  dns : ∀ url ∈ s.dns, P url
  sender : ∀ url, s.sender = .sendRequest url ∨ s.sender = .count url → P url
  sockets : ∀ x ∈ s.sockets, P x.url

section Places

variable {U : Type*} {P : U → Prop} {c : CrawlSystem.Config} {s t : CrawlSystem.State U}
  {e : CrawlSystem.Event U}

theorem allUrls_initial {seeds : List U} (h : ∀ url ∈ seeds, P url) :
    AllUrls P (CrawlSystem.initialState seeds) where
  raw := h
  dnsThread url hp := by simp [CrawlSystem.initialState] at hp
  dns := by simp [CrawlSystem.initialState]
  sender url hp := by simp [CrawlSystem.initialState] at hp
  sockets := by simp [CrawlSystem.initialState]

theorem AllUrls.set (h : AllUrls P s) {i : ℕ} {url : U} {stage stage' : CrawlSystem.Stage}
    (hi : s.sockets[i]? = some ⟨url, stage⟩) : ∀ x ∈ s.sockets.set i ⟨url, stage'⟩, P x.url := by
  intro x hx
  rcases List.mem_or_eq_of_mem_set hx with hx | rfl
  · exact h.sockets x hx
  · have hurl := h.sockets _ (List.mem_of_getElem? hi)
    exact hurl

/-- URLs move on and get lost, and only a push brings new ones. -/
theorem AllUrls.step (h : AllUrls P s) (hm : Moves c s e t)
    (hnew : ∀ i url, e = .pushRawUrl i url → P url) : AllUrls P t := by
  cases hm with
  | popRaw hpc hraw =>
    have hmem := h.raw
    simp only [hraw, List.forall_mem_cons] at hmem
    exact ⟨hmem.2, by simpa using hmem.1, h.dns, h.sender, h.sockets⟩
  | found hpc => exact ⟨h.raw, by simpa using h.dnsThread _ (.inl hpc), h.dns, h.sender, h.sockets⟩
  | lost hpc => exact ⟨h.raw, by simp, h.dns, h.sender, h.sockets⟩
  | pushDns hpc hroom =>
    refine ⟨h.raw, by simp, ?_, h.sender, h.sockets⟩
    simp only [List.forall_mem_append, List.forall_mem_singleton]
    exact ⟨h.dns, h.dnsThread _ (.inr hpc)⟩
  | lock | sleeps | goesOn | givesUp | counts | unlock | spurious =>
    exact ⟨h.raw, h.dnsThread, h.dns, by simp, h.sockets⟩
  | popDns hpc hdns =>
    have hmem := h.dns
    simp only [hdns, List.forall_mem_cons] at hmem
    exact ⟨h.raw, h.dnsThread, hmem.2, by simpa using hmem.1, h.sockets⟩
  | sends hpc =>
    have hurl := h.sender _ (.inl hpc)
    refine ⟨h.raw, h.dnsThread, h.dns, by simpa using hurl, ?_⟩
    simp only [List.forall_mem_append, List.forall_mem_singleton]
    exact ⟨h.sockets, hurl⟩
  | pushRawUrl hi hroom =>
    refine ⟨?_, h.dnsThread, h.dns, h.sender, h.sockets⟩
    simp only [List.forall_mem_append, List.forall_mem_singleton]
    exact ⟨h.raw, hnew _ _ rfl⟩
  | recvResponse hi | enters hi | leaves hi | handles hpc hi =>
    exact ⟨h.raw, h.dnsThread, h.dns, h.sender, h.set hi⟩
  | discounts hi hsender =>
    refine ⟨h.raw, h.dnsThread, h.dns, fun url hp => h.sender url ?_, h.set hi⟩
    rcases hsender with rfl | ⟨-, rfl⟩
    · exact hp
    · simp at hp
  | turns | passes | fails => exact ⟨h.raw, h.dnsThread, h.dns, h.sender, h.sockets⟩
  | clears => exact ⟨by simp, h.dnsThread, h.dns, h.sender, h.sockets⟩

end Places

structure Within (maxDepth : ℤ) (includePrefixes excludePrefixes : List (List Char))
    (url : RawUrl) : Prop where
  depth : 0 ≤ maxDepth → url.depth ≤ maxDepth
  included : url.type = .html → 1 ≤ url.depth → includePrefixes ≠ [] →
    ∃ p ∈ includePrefixes, p <+: url.strUrl
  notExcluded : url.type = .html → 1 ≤ url.depth → ∀ p ∈ excludePrefixes, ¬ p <+: url.strUrl

variable {c : Config} {filter : UrlFilter F} {seen : F} {s t : State F} {e : Event}
  {maxDepth : ℤ} {includes excludes : List (List Char)} {url : RawUrl}

theorem searchPrefix_eq_nil {prefixes : List (List Char)} :
    searchPrefix prefixes url = [] ↔ ∀ p ∈ prefixes, ¬ p <+: url.strUrl := by
  simp [searchPrefix, List.dropWhile_eq_nil_iff, ← List.isPrefixOf_iff_prefix]

theorem maxDepthHandler_eq_true :
    maxDepthHandler maxDepth url = true ↔ (0 ≤ maxDepth → url.depth ≤ maxDepth) := by
  simp only [maxDepthHandler, Bool.not_eq_true', Bool.and_eq_false_iff, decide_eq_false_iff_not]
  omega

theorem domainLimitHandler_html (htype : url.type = .html) (hdepth : 1 ≤ url.depth) :
    domainLimitHandler includes excludes url = true ↔
      (includes ≠ [] → ∃ p ∈ includes, p <+: url.strUrl) ∧
        ∀ p ∈ excludes, ¬ p <+: url.strUrl := by
  have hdeep : url.depth ≠ 0 := by omega
  have hfound : (∃ p ∈ includes, p <+: url.strUrl) ↔ searchPrefix includes url ≠ [] := by
    rw [Ne, searchPrefix_eq_nil]
    push Not
    rfl
  rw [hfound, ← searchPrefix_eq_nil]
  by_cases hempty : includes = [] <;> by_cases hnone : searchPrefix includes url = [] <;>
    simp [domainLimitHandler, htype, hdeep, hempty, hnone]

theorem within_of_invoke (hdepth : .maxDepth maxDepth ∈ c.plugins)
    (hdomain : .domainLimit includes excludes ∈ c.plugins)
    (h : invokeUrlPlugins c.plugins url = true) : Within maxDepth includes excludes url := by
  have hall := List.all_eq_true.mp h
  have hd : maxDepthHandler maxDepth url = true := hall _ hdepth
  have hl : domainLimitHandler includes excludes url = true := hall _ hdomain
  refine ⟨maxDepthHandler_eq_true.mp hd, fun htype hle => ?_, fun htype hle => ?_⟩
  · exact ((domainLimitHandler_html htype hle).mp hl).1
  · exact ((domainLimitHandler_html htype hle).mp hl).2

/-- Everything behind the filter is within the limits, also where it still waits. -/
structure Limited (P : RawUrl → Prop) (s : State F) : Prop where
  crawl : AllUrls P s.crawl
  pushing : ∀ i url, s.pushing i = some url → P url

theorem accepted_invoked {urls : List RawUrl} (h : url ∈ accepted filter c.plugins seen urls) :
    invokeUrlPlugins c.plugins url = true := by
  induction urls generalizing seen with
  | nil => simp [accepted] at h
  | cons first urls ih =>
    simp only [accepted] at h
    split at h
    · rename_i hpass
      rcases List.mem_cons.mp h with rfl | hrest
      · exact ((admits_cases _ _ _ url).2.mp hpass).2
      · exact ih hrest
    · exact ih h

variable {P : RawUrl → Prop}

theorem limited_started (hP : ∀ url, invokeUrlPlugins c.plugins url = true → P url)
    (h : Started c filter seen s) : Limited P s := by
  obtain ⟨seeds, -, rfl⟩ := h
  exact ⟨allUrls_initial fun url hurl => hP url (accepted_invoked hurl), nofun⟩

theorem Limited.crawl_step (h : Limited P s) {e : CrawlSystem.Event RawUrl}
    {crawl : CrawlSystem.State RawUrl} (he : CrawlSystem.next c.toConfig s.crawl e = some crawl)
    (hpush : ∀ i url, e ≠ .pushRawUrl i url) : Limited P { s with crawl := crawl } :=
  ⟨h.crawl.step (CrawlSystem.next_moves he) fun i url heq => absurd heq (hpush i url), h.pushing⟩

theorem Limited.offer (hP : ∀ url, invokeUrlPlugins c.plugins url = true → P url)
    (h : Limited P s) {i : ℕ} {find : DnsUrl → Option RawUrl}
    (ht : offer c filter s i find = some t) : Limited P t := by
  unfold CrawlLimits.offer at ht
  split at ht
  · obtain ⟨url, -, rfl⟩ := Option.map_eq_some_iff.mp ht
    refine ⟨h.crawl, fun j url' hj => ?_⟩
    simp only [Function.update_apply] at hj
    split at hj
    · obtain ⟨hpass, heq⟩ := Option.ite_none_right_eq_some.mp hj
      cases heq
      exact hP url ((admits_cases _ _ _ url).2.mp hpass).2
    · exact h.pushing j url' hj
  · cases ht

theorem Limited.push (h : Limited P s) {i : ℕ} (ht : push c s i = some t) : Limited P t := by
  obtain ⟨url, hurl, ht⟩ := Option.bind_eq_some_iff.mp ht
  obtain ⟨crawl, hcrawl, rfl⟩ := Option.map_eq_some_iff.mp ht
  have hm : Moves c.toConfig s.crawl (.pushRawUrl i url) crawl := CrawlSystem.next_moves hcrawl
  refine ⟨h.crawl.step hm ?_, fun j url' hj => ?_⟩
  · rintro j url' ⟨⟩
    exact h.pushing i url hurl
  · simp only [Function.update_apply] at hj
    split at hj
    · cases hj
    · exact h.pushing j url' hj

theorem Limited.step (hP : ∀ url, invokeUrlPlugins c.plugins url = true → P url)
    (h : Limited P s) (ht : Steps (next c filter) s e t) : Limited P t := by
  cases e with
  | crawl e =>
    change CrawlLimits.crawl c s e = some t at ht
    unfold CrawlLimits.crawl at ht
    split at ht
    · cases ht
    · obtain ⟨-, ht⟩ := Option.ite_none_right_eq_some.mp ht
      obtain ⟨crawl, hcrawl, rfl⟩ := Option.map_eq_some_iff.mp ht
      exact h.crawl_step (c := c) (e := .recvResponse _ _) hcrawl nofun
    · rename_i hpush _
      obtain ⟨crawl, hcrawl, rfl⟩ := Option.map_eq_some_iff.mp ht
      exact h.crawl_step hcrawl hpush
  | link i href =>
    have hoffer : CrawlLimits.offer c filter s i (fun page => linkUrl page href) = some t := ht
    exact h.offer hP hoffer
  | image i src =>
    have hoffer : CrawlLimits.offer c filter s i (fun page => imageUrl page src) = some t := ht
    exact h.offer hP hoffer
  | push i => exact h.push ht

theorem crawl_within_limits (hdepth : .maxDepth maxDepth ∈ c.plugins)
    (hdomain : .domainLimit includes excludes ∈ c.plugins)
    (h : Reachable (Started c filter seen) (Steps (next c filter)) s) :
    AllUrls (Within maxDepth includes excludes) s.crawl := by
  have hP (url : RawUrl) (h : invokeUrlPlugins c.plugins url = true) :
      Within maxDepth includes excludes url := within_of_invoke hdepth hdomain h
  have hinv : Limited (Within maxDepth includes excludes) s :=
    h.invariant (fun s hs => limited_started hP hs) fun s e t hi ht => hi.step hP ht
  exact hinv.crawl

def shippedPlugins : Config :=
  ⟨CrawlSystem.shippedConfig,
    [.maxDepth 10, .domainLimit ["tmooc.cn".toList] ["tmooc.cn/b".toList]]⟩

def shippedStart : State (List (List Char)) where
  crawl := CrawlSystem.initialState [⟨"tmooc.cn".toList, .html, 0⟩]
  seen := ["tmooc.cn".toList]
  pushing := fun _ => none

theorem shipped_started : Started shippedPlugins exactFilter [] shippedStart := by
  have hseeds : seedUrls "http://tmooc.cn".toList = [⟨"tmooc.cn".toList, .html, 0⟩] := by
    decide +kernel
  refine ⟨"http://tmooc.cn".toList, ⟨_, fun _ => by decide, rfl⟩, ?_⟩
  rw [hseeds]
  rfl

def twoLinks : List Event :=
  [.crawl (.dnsThread false), .crawl (.dnsThread true), .crawl (.dnsThread true)] ++
    List.replicate 6 (.crawl (.startJob true)) ++
    [.crawl (.exec [(0, true)]), .crawl (.exec []), .link 0 "/b.html".toList,
      .link 0 "/a.html".toList, .push 0]

theorem two_links_within_limits : ∃ s, Reachable (Started shippedPlugins exactFilter [])
      (Steps (next shippedPlugins exactFilter)) s ∧
    s.crawl.raw = [⟨"tmooc.cn/a.html".toList, .html, 1⟩] ∧
    AllUrls (Within 10 ["tmooc.cn".toList] ["tmooc.cn/b".toList]) s.crawl := by
  have hlast : (runTrace (next shippedPlugins exactFilter) shippedStart twoLinks).map
      (fun s => s.crawl.raw) = some [⟨"tmooc.cn/a.html".toList, .html, 1⟩] := by decide +kernel
  obtain ⟨s, hs, hraw⟩ := Option.map_eq_some_iff.mp hlast
  have hreach : Reachable (Started shippedPlugins exactFilter [])
      (Steps (next shippedPlugins exactFilter)) s :=
    ⟨_, takenSteps_run (.start shipped_started) hs⟩
  exact ⟨s, hreach, hraw, crawl_within_limits (.head _) (.tail _ (.head _)) hreach⟩

end CrawlLimits
