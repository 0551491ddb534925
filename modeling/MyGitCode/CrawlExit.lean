import MyGitCode.CrawlJobs

/-! # When the event loop ends

The event loop reads `m_curJobs` and the two queues one after the other. A URL in the hands
of the DNS thread or of the sender stands in none of them. -/
namespace CrawlExit

open TransitionRuns CrawlSystem CrawlJobs

variable {U : Type*}

def held (s : State U) : Bool :=
  match s.dnsThread, s.sender with
  | .popRaw, .sendRequest _ | .popRaw, .count _ => true
  | .popRaw, _ => false
  | _, _ => true

structure NothingLeft (s : State U) : Prop where
  raw : s.raw = []
  dns : s.dns = []
  hands : held s = false

def Exits (s t : State U) : Prop := s.main ≠ .exited ∧ t.main = .exited

/-- Whether a URL was in a hand when the event loop read `m_curJobs` for the second time, or was
taken from a queue since then. -/
structure Watched (U : Type*) where
  crawler : State U
  seen : Bool

def ReadsJobs (s : State U) : Event U → Bool
  | .exec _ => s.main = .test .empty .second .jobs
  | _ => false

/-- The DNS thread or the sender pops a URL. -/
def TakesUrl (s : State U) : Event U → Bool
  | .dnsThread _ =>
    match s.dnsThread with
    | .popRaw => true
    | _ => false
  | .startJob _ =>
    match s.sender with
    | .popDns => true
    | _ => false
  | _ => false

def watchedNext (c : Config) (w : Watched U) (e : Event U) : Option (Watched U) :=
  (next c w.crawler e).map fun t =>
    ⟨t, if ReadsJobs w.crawler e then held w.crawler else w.seen || TakesUrl w.crawler e⟩

def WatchStarted (c : Config) (w : Watched U) : Prop := Started c w.crawler ∧ w.seen = false

def ExitTest (s : State U) (e : Event U) : Prop :=
  (∃ ready, e = .exec ready) ∧ s.main = .test .empty .second .dns ∧ s.dns = []

def Unseen (w : Watched U) (e : Event U) : Prop := ExitTest w.crawler e → w.seen = false

variable {c : Config} {s t : State U} {e : Event U} {w w' : Watched U}

/-- No hand holds a URL, and no receiver is left to bring new ones. -/
structure Still (s : State U) : Prop where
  hands : held s = false
  sockets : ∀ k ∈ s.sockets, isCounted k = false

structure Calm (c : Config) (w : Watched U) : Prop where
  accounts : Accounts c w.crawler
  afterJobs : w.seen = false → w.crawler.main = .test .empty .second .raw → Still w.crawler
  afterRaw : w.seen = false → w.crawler.main = .test .empty .second .dns →
    Still w.crawler ∧ w.crawler.raw = []

theorem calm_started (h : WatchStarted c w) : Calm c w := by
  refine ⟨accounts_started h.1, ?_, ?_⟩ <;>
  · obtain ⟨⟨seeds, _, hs⟩, _⟩ := h
    rw [hs]
    nofun

theorem held_of_dns (h : held s = false) : s.dnsThread = .popRaw := by
  cases hd : s.dnsThread <;> simp [held, hd] at h ⊢

theorem held_of_sender (h : held s = false) :
    due s.sender = 0 ∧ ∀ url, s.sender ≠ .sendRequest url := by
  have hd := held_of_dns h
  cases hs : s.sender <;> simp [held, hd, hs, due] at h ⊢

theorem Accounts.still (h : Accounts c s) (hjobs : s.curJobs = 0) (hheld : held s = false) :
    Still s := by
  refine ⟨hheld, ?_⟩
  have hcount := h.count
  rw [(held_of_sender hheld).1, hjobs] at hcount
  have hzero : s.sockets.countP isCounted = 0 := by omega
  intro k hk
  exact Bool.eq_false_of_not_eq_true (List.countP_eq_zero.mp hzero k hk)

theorem Still.of_set (h : Still s) {i : ℕ} {k : Socket U} (hk : s.sockets[i]? = some k)
    (hc : isCounted k = true) : False := by
  have := h.sockets k (List.mem_of_getElem? hk)
  rw [hc] at this
  cases this

/-- The other threads leave a still crawler still, unless one of them takes up a URL. -/
theorem Still.step (h : Still s) (hm : Moves c s e t) (htakes : TakesUrl s e = false)
    (he : ∀ ready, e ≠ .exec ready) :
    Still t ∧ (s.raw = [] → t.raw = []) ∧ t.main = s.main := by
  have hdns := held_of_dns h.hands
  cases hm with
  | popRaw => simp [TakesUrl, hdns] at htakes
  | found hpc | lost hpc | pushDns hpc => exact absurd (hdns.symm.trans hpc) nofun
  | popDns hpc => simp [TakesUrl, hpc] at htakes
  | sends hpc => exact absurd hpc ((held_of_sender h.hands).2 _)
  | lock | sleeps | goesOn | givesUp | counts | unlock | spurious =>
    exact ⟨⟨by simp [held, hdns], h.sockets⟩, id, rfl⟩
  | pushRawUrl hk _ | recvResponse hk | enters hk _ | discounts hk _ => exact (h.of_set hk rfl).elim
  | leaves hk =>
    refine ⟨⟨h.hands, ?_⟩, id, rfl⟩
    intro k hk'
    rcases List.mem_or_eq_of_mem_set hk' with hold | rfl
    · exact h.sockets k hold
    · rfl
  | turns | handles | passes | fails | clears => exact absurd rfl (he _)

theorem main_kept (hm : Moves c s e t) (he : ∀ ready, e ≠ .exec ready) : t.main = s.main := by
  cases hm with
  | turns | handles | passes | fails | clears => exact absurd rfl (he _)
  | _ => rfl

theorem Calm.other (h : Calm c w) (hm : Moves c w.crawler e t) (he : ∀ ready, e ≠ .exec ready)
    (ht : Accounts c t) : Calm c ⟨t, w.seen || TakesUrl w.crawler e⟩ := by
  have hmain := main_kept hm he
  refine ⟨ht, ?_, ?_⟩
  · intro hseen hraw
    obtain ⟨hold, htakes⟩ := Bool.or_eq_false_iff.mp hseen
    exact ((h.afterJobs hold (hmain ▸ hraw)).step hm htakes he).1
  · intro hseen hdns
    obtain ⟨hold, htakes⟩ := Bool.or_eq_false_iff.mp hseen
    obtain ⟨hstill, hempty⟩ := h.afterRaw hold (hmain ▸ hdns)
    obtain ⟨hstill', hkeep, _⟩ := hstill.step hm htakes he
    exact ⟨hstill', hkeep hempty⟩

theorem passed_raw {check : Check} {round : Round} {p : Probe}
    (h : passed check round p = .test .empty .second .raw) :
    check = .empty ∧ round = .second ∧ p = .jobs := by
  cases check <;> cases round <;> cases p <;> simp [passed] at h ⊢

theorem passed_dns {check : Check} {round : Round} {p : Probe}
    (h : passed check round p = .test .empty .second .dns) :
    check = .empty ∧ round = .second ∧ p = .raw := by
  cases check <;> cases round <;> cases p <;> simp [passed] at h ⊢

theorem failed_ne {check : Check} {round : Round} {p : Probe} :
    failed check round ≠ .test .empty .second p := by
  cases check <;> cases round <;> simp [failed]

/-- The event loop itself: reading `m_curJobs` starts the watch, and what it reads of the
raw queue is still true when it reads the DNS queue. -/
theorem Calm.passes (h : Calm c w) {check : Check} {round : Round} {p : Probe}
    (hpc : w.crawler.main = .test check round p) (hp : probe c w.crawler check p = true)
    {ready : List (ℕ × Bool)} (ht : Accounts c { w.crawler with main := passed check round p }) :
    Calm c ⟨{ w.crawler with main := passed check round p },
      if ReadsJobs w.crawler (.exec ready) then held w.crawler
      else w.seen || TakesUrl w.crawler (.exec ready)⟩ := by
  refine ⟨ht, ?_, ?_⟩
  · intro hseen hmain
    obtain ⟨rfl, rfl, rfl⟩ := passed_raw hmain
    simp only [ReadsJobs, hpc, decide_true, if_true] at hseen
    exact Accounts.still ht (of_decide_eq_true hp) hseen
  · intro hseen hmain
    obtain ⟨rfl, rfl, rfl⟩ := passed_dns hmain
    simp only [ReadsJobs, hpc, Main.test.injEq, reduceCtorEq, and_false, decide_false,
      Bool.false_eq_true, if_false] at hseen
    obtain ⟨hold, -⟩ := Bool.or_eq_false_iff.mp hseen
    have hstill := h.afterJobs hold hpc
    exact ⟨⟨hstill.hands, hstill.sockets⟩, List.isEmpty_iff.mp hp⟩

theorem Calm.step (h : Calm c w) (hs : Steps (watchedNext c) w e w') : Calm c w' := by
  obtain ⟨t, ht, rfl⟩ := Option.map_eq_some_iff.mp hs
  have hm := next_moves ht
  have hacc : Accounts c t := h.accounts.step ht
  by_cases he : ∃ ready, e = .exec ready
  · obtain ⟨ready, rfl⟩ := he
    cases hm with
    | turns _ hjobs _ =>
      refine ⟨hacc, ?_, ?_⟩
      · intro _ hmain
        cases hjobs _ _ hmain
      · intro _ hmain
        cases hjobs _ _ hmain
    | handles | clears => exact ⟨hacc, nofun, nofun⟩
    | passes hpc hp => exact h.passes hpc hp hacc
    | fails =>
      refine ⟨hacc, ?_, ?_⟩
      · exact fun _ hmain => absurd hmain failed_ne
      · exact fun _ hmain => absurd hmain failed_ne
  · simp only [not_exists] at he
    have hreads : ReadsJobs w.crawler e = false := by
      cases e <;> first | rfl | exact absurd rfl (he _)
    simp only [hreads, Bool.false_eq_true, if_false]
    exact h.other hm he hacc

theorem exits_cases (hm : Moves c s e t) (hexit : Exits s t) :
    ExitTest s e ∧ t = { s with main := .exited } := by
  obtain ⟨hs, ht⟩ := hexit
  by_cases he : ∃ ready, e = .exec ready
  · obtain ⟨ready, rfl⟩ := he
    cases hm with
    | turns _ _ hne => exact absurd ht hne
    | handles | clears => cases ht
    | @passes _ check round p hpc hp =>
      cases check <;> cases round <;> cases p <;> cases ht
      exact ⟨⟨⟨ready, rfl⟩, hpc, List.isEmpty_iff.mp hp⟩, rfl⟩
    | @fails _ check round =>
      cases check <;> cases round <;> cases ht
  · simp only [not_exists] at he
    rw [main_kept hm he] at ht
    exact absurd ht hs

theorem Calm.nothing_left (h : Calm c w) (hu : Unseen w e) (hs : Steps (watchedNext c) w e w')
    (hexit : Exits w.crawler w'.crawler) : NothingLeft w'.crawler := by
  obtain ⟨t, ht, rfl⟩ := Option.map_eq_some_iff.mp hs
  obtain ⟨htest, rfl⟩ := exits_cases (next_moves ht) hexit
  obtain ⟨hstill, hraw⟩ := h.afterRaw (hu htest) htest.2.1
  exact ⟨hraw, htest.2.2, hstill.hands⟩

/-- In a run in which no hand held a URL at the second reading of `m_curJobs`, and none took one up
from then to the end of the event loop, nothing is left when it ends. -/
theorem run_nothing_left {ts : List (Taken (Watched U) (Event U))}
    (h : Run (WatchStarted c) (Steps (watchedNext c)) ts w)
    (hu : ∀ x ∈ ts, Unseen x.before x.event) :
    ∀ x ∈ ts, Exits x.before.crawler x.after.crawler → NothingLeft x.after.crawler := by
  refine h.all_steps (C := Unseen) (I := Calm c)
    (Q := fun w _ w' => Exits w.crawler w'.crawler → NothingLeft w'.crawler)
    (fun _ => calm_started) ?_ hu
  intro w e w' hw hc hs
  exact ⟨hw.step hs, hw.nothing_left hc hs⟩

/-- Every run of the crawler is a run that is watched. -/
theorem watched_of_run {ts : List (Taken (State U) (Event U))}
    (h : Run (Started c) (Steps (next c)) ts s) :
    ∃ ws seen, Run (WatchStarted c) (Steps (watchedNext c)) ws ⟨s, seen⟩ ∧
      ws.map (fun x => (⟨x.before.crawler, x.event, x.after.crawler⟩ : Taken _ _)) = ts := by
  induction h with
  | start hs => exact ⟨[], false, .start ⟨hs, rfl⟩, rfl⟩
  | @snoc ts s e t _ hs ih =>
    obtain ⟨ws, seen, hrun, rfl⟩ := ih
    have hstep : Steps (watchedNext c) ⟨s, seen⟩ e
        ⟨t, if ReadsJobs s e then held s else seen || TakesUrl s e⟩ := by
      rw [Steps, watchedNext, show next c s e = some t from hs]
      rfl
    exact ⟨_, _, hrun.snoc hstep, by simp⟩

/-- The one seed has a name that the DNS does not know, and the event loop ends. -/
def unknownHost : List (Event String) :=
  [.dnsThread true, .dnsThread false] ++ List.replicate 8 (.exec [])

theorem unknown_host_nothing_left :
    ∃ ts w, Run (WatchStarted shippedConfig) (Steps (watchedNext shippedConfig)) ts w ∧
      ts.map Taken.event = unknownHost ∧ (∃ x ∈ ts, Exits x.before.crawler x.after.crawler) ∧
      ∀ x ∈ ts, Exits x.before.crawler x.after.crawler → NothingLeft x.after.crawler := by
  have htrace : ∃ w, runTrace (watchedNext shippedConfig) ⟨initialState ["tmooc.cn"], false⟩
      unknownHost = some w := ⟨_, rfl⟩
  obtain ⟨w, htrace⟩ := htrace
  have hstart : Run (WatchStarted shippedConfig) (Steps (watchedNext shippedConfig)) []
      ⟨initialState ["tmooc.cn"], false⟩ := .start ⟨started_shipped, rfl⟩
  have hrun := takenSteps_run hstart htrace
  have hseen : ∀ x ∈ takenSteps (watchedNext shippedConfig) ⟨initialState ["tmooc.cn"], false⟩
      unknownHost, x.before.crawler.main = .test .empty .second .dns → x.before.seen = false := by
    decide
  exact ⟨_, w, hrun, rfl, ⟨_, List.mem_append_right _ (List.getLast_mem (List.cons_ne_nil _ _)),
    nofun, rfl⟩, run_nothing_left hrun fun x hx htest => hseen x hx htest.2.1⟩

/-- The DNS thread looks up the seed while the event loop makes its last test. -/
def slowLookup : State String :=
  { initialState [] with dnsThread := .lookup "tmooc.cn", main := .test .empty .second .dns }

/-- A lookup that takes longer than the event loop waits: the URL is in the hands of the
DNS thread when the crawler ends. -/
theorem slow_lookup_loses_url :
    ¬ ∀ (ts : List (Taken (State String) (Event String))) s,
      Run (Started shippedConfig) (Steps (next shippedConfig)) ts s →
        ∀ x ∈ ts, Exits x.before x.after → NothingLeft x.after := by
  intro h
  have htrace : runTrace (next shippedConfig) (initialState ["tmooc.cn"])
      (.dnsThread true :: List.replicate 7 (.exec [])) = some slowLookup := rfl
  obtain ⟨us, hrun, -⟩ := runTrace_run (fun _ _ _ _ hs => hs) (.start started_shipped) htrace
  have hstep : Steps (next shippedConfig) slowLookup (.exec [])
      { slowLookup with main := .exited } := rfl
  have hexit := hrun.snoc hstep
  have hleft := h _ _ hexit _ (List.mem_append_right _ (List.mem_singleton_self _)) ⟨nofun, rfl⟩
  cases hleft.hands

end CrawlExit
