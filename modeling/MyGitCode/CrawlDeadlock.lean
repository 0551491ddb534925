import MyGitCode.CrawlJobs

/-! # The sender that waits for a URL with `m_mutex` in its hands

`startJob` calls `popDnsUrl` under `m_mutex`. At the end of a crawl no URL comes any more,
and a receiver that has its response cannot take its job off the counter. -/
namespace CrawlDeadlock

open TransitionRuns CrawlSystem CrawlJobs

variable {U : Type*}

structure Deadlocked (s : State U) : Prop where
  raw : s.raw = []
  dns : s.dns = []
  dnsThread : s.dnsThread = .popRaw
  sockets : ∀ k ∈ s.sockets, k.stage ≠ .watched
  receiver : ∃ k ∈ s.sockets, ∃ success, k.stage = .stopping success
  sender : s.sender = .popDns
  mutex : s.owner = some .sender

variable {c : Config} {s t : State U} {e : Event U}

/-- A deadlock in which no receiver is at work any more: each waits for `m_mutex` or is gone. -/
structure Stuck (s : State U) : Prop extends Deadlocked s where
  receivers : ∀ k ∈ s.sockets, k.stage = .finished ∨ k.stage = .dropped ∨
    ∃ success, k.stage = .stopping success

theorem Stuck.no_socket (h : Stuck s) {i : ℕ} {k : Socket U} (hk : s.sockets[i]? = some k)
    (hstage : k.stage ≠ .finished ∧ k.stage ≠ .dropped ∧ ∀ success, k.stage ≠ .stopping success) :
    False := by
  rcases h.receivers k (List.mem_of_getElem? hk) with hf | hd | ⟨success, hs⟩
  · exact hstage.1 hf
  · exact hstage.2.1 hd
  · exact hstage.2.2 success hs

/-- Only the event loop still moves, and it changes nothing of the deadlock. -/
theorem Stuck.step (h : Stuck s) (hs : Steps (next c) s e t) :
    Stuck t ∧ t.curJobs = s.curJobs := by
  obtain ⟨⟨hraw, hdns, hthread, hsockets, hreceiver, hsender, hmutex⟩, hreceivers⟩ := h
  have h : Stuck s := ⟨⟨hraw, hdns, hthread, hsockets, hreceiver, hsender, hmutex⟩, hreceivers⟩
  cases next_moves hs with
  | popRaw _ hurl =>
    rw [hraw] at hurl
    cases hurl
  | found hpc | lost hpc | pushDns hpc _ =>
    rw [hthread] at hpc
    cases hpc
  | lock hpc _ => simp [hsender] at hpc
  | sleeps hpc _ | goesOn hpc _ | sends hpc | givesUp hpc | counts hpc | unlock hpc
  | spurious hpc =>
    rw [hsender] at hpc
    cases hpc
  | popDns _ hurl =>
    rw [hdns] at hurl
    cases hurl
  | pushRawUrl hk _ | recvResponse hk | discounts hk _ | leaves hk | handles _ hk =>
    exact (h.no_socket hk ⟨nofun, nofun, nofun⟩).elim
  | enters _ hfree =>
    rw [hmutex] at hfree
    cases hfree
  | turns | passes | fails =>
    exact ⟨⟨⟨hraw, hdns, hthread, hsockets, hreceiver, hsender, hmutex⟩, hreceivers⟩, rfl⟩
  | clears => exact ⟨⟨⟨rfl, hdns, hthread, hsockets, hreceiver, hsender, hmutex⟩, hreceivers⟩, rfl⟩

/-- From a stuck state on, `m_curJobs` stays what it is. -/
theorem Stuck.for_ever (h : Stuck s) (ht : Reachable (· = s) (Steps (next c)) t) :
    Stuck t ∧ t.curJobs = s.curJobs := by
  refine ht.invariant (I := fun t => Stuck t ∧ t.curJobs = s.curJobs) ?_ ?_
  · rintro _ rfl
    exact ⟨h, rfl⟩
  · intro u e t hu hs
    obtain ⟨hstuck, hjobs⟩ := hu.1.step hs
    exact ⟨hstuck, hjobs.trans hu.2⟩

theorem Accounts.no_deadlock (h : Accounts c s) (hjobs : c.maxJobs = 0 ∨ c.maxJobs = 1) :
    ¬ Deadlocked s := by
  intro hd
  have hbelow := h.below (by omega) (by rw [hd.sender]; rfl)
  have hnone := h.nonneg
  have hcount := h.count
  rw [hd.sender] at hcount
  obtain ⟨k, hk, success, hstage⟩ := hd.receiver
  have hpos : 0 < s.sockets.countP isCounted :=
    List.countP_pos_iff.mpr ⟨k, hk, by simp [isCounted, hstage]⟩
  simp only [due, add_zero] at hcount
  omega

/-- What holds while a queue of capacity 0 keeps every URL from the sender. -/
structure Dry (c : Config) (s : State U) : Prop where
  dns : s.dns = []
  sockets : s.sockets = []
  sender : ∀ url, s.sender ≠ .sendRequest url
  source : c.maxRawUrls = 0 → s.raw = [] ∧ s.dnsThread = .popRaw

theorem dry_started (h : Started c s) : Dry c s := by
  obtain ⟨seeds, hfit, rfl⟩ := h
  refine ⟨rfl, rfl, nofun, fun hraw => ⟨?_, rfl⟩⟩
  have := hfit (by omega)
  rw [hraw] at this
  exact List.length_eq_zero_iff.mp (show seeds.length = 0 by omega)

theorem Dry.step (hcap : c.maxRawUrls = 0 ∨ c.maxDnsUrls = 0) (h : Dry c s)
    (hs : Steps (next c) s e t) : Dry c t := by
  have hnone : ∀ (i : ℕ) (k : Socket U), s.sockets[i]? ≠ some k := by
    intro i k hk
    rw [h.sockets] at hk
    cases hk
  cases next_moves hs with
  | popRaw _ hraw =>
    refine ⟨h.dns, h.sockets, h.sender, fun hz => ?_⟩
    rw [(h.source hz).1] at hraw
    cases hraw
  | found hpc =>
    refine ⟨h.dns, h.sockets, h.sender, fun hz => ?_⟩
    rw [(h.source hz).2] at hpc
    cases hpc
  | lost => exact ⟨h.dns, h.sockets, h.sender, fun hz => ⟨(h.source hz).1, rfl⟩⟩
  | pushDns hpc hroom =>
    rcases hcap with hz | hz
    · rw [(h.source hz).2] at hpc
      cases hpc
    · simp [full, hz] at hroom
  | popDns _ hdns =>
    rw [h.dns] at hdns
    cases hdns
  | sends hpc => exact absurd hpc (h.sender _)
  | lock | sleeps | goesOn | givesUp | counts | unlock | spurious =>
    exact ⟨h.dns, h.sockets, nofun, h.source⟩
  | pushRawUrl hk | recvResponse hk | enters hk | discounts hk | leaves hk =>
    exact absurd hk (hnone _ _)
  | handles _ hk => exact absurd hk (hnone _ _)
  | turns | passes | fails => exact ⟨h.dns, h.sockets, h.sender, h.source⟩
  | clears => exact ⟨h.dns, h.sockets, h.sender, fun hz => ⟨rfl, (h.source hz).2⟩⟩

theorem Dry.no_deadlock (h : Dry c s) : ¬ Deadlocked s := by
  intro hd
  obtain ⟨k, hk, _⟩ := hd.receiver
  rw [h.sockets] at hk
  cases hk

def lookedUp (U : Type*) : List (Event U) := List.replicate 3 (.dnsThread true)

/-- The sender sends the request, counts the job and leaves `startJob`. -/
def requested (U : Type*) : List (Event U) := List.replicate 6 (.startJob true)

/-- The sender is back in `startJob` before the receiver has the response. -/
def answered (U : Type*) : List (Event U) :=
  [.exec [(0, true)], .exec [], .startJob true, .startJob true, .recvResponse 0 true]

def lastState (url : U) : State U where
  raw := []
  dns := []
  owner := some .sender
  curJobs := 1
  success := 0
  failure := 0
  dnsThread := .popRaw
  sender := .popDns
  sockets := [⟨url, .stopping true⟩]
  main := .handle []

theorem lastState_stuck (url : U) : Stuck (lastState url) where
  raw := rfl
  dns := rfl
  dnsThread := rfl
  sockets k hk := by
    obtain rfl := List.mem_singleton.mp hk
    nofun
  receiver := ⟨_, List.mem_singleton_self _, true, rfl⟩
  sender := rfl
  mutex := rfl
  receivers k hk := by
    obtain rfl := List.mem_singleton.mp hk
    exact .inr (.inr ⟨true, rfl⟩)

theorem lookedUp_runs (url : U) (hdns : c.maxDnsUrls ≠ 0) :
    runTrace (next c) (initialState [url]) (lookedUp U) =
      some { initialState [] with dns := [url] } := by
  have hroom : full c.maxDnsUrls ([] : List U) = false := by
    simp only [full, List.length_nil, decide_eq_false_iff_not]
    omega
  simp [runTrace, lookedUp, next, dnsThread, initialState, hroom]

theorem requested_runs (url : U) (hzero : c.maxJobs ≠ 0) :
    runTrace (next c) { initialState [] with dns := [url] } (requested U) =
      some { initialState [] with curJobs := 1, sockets := [⟨url, .watched⟩] } := by
  simp [runTrace, requested, next, startJob, initialState, hzero.symm]

theorem answered_runs (url : U) (hone : c.maxJobs ≠ 1) :
    runTrace (next c) { initialState [] with curJobs := 1, sockets := [⟨url, .watched⟩] }
      (answered U) = some (lastState url) := by
  simp [runTrace, answered, next, startJob, exec, recvResponse, initialState, lastState, Watches,
    hone.symm]

theorem started_seed (url : U) (hraw : c.maxRawUrls ≠ 0) : Started c (initialState [url]) := by
  refine ⟨[url], fun hpos => ?_, rfl⟩
  rw [List.length_singleton]
  omega

theorem reaches_stuck (url : U) (hzero : c.maxJobs ≠ 0) (hone : c.maxJobs ≠ 1)
    (hraw : c.maxRawUrls ≠ 0) (hdns : c.maxDnsUrls ≠ 0) :
    ∃ s : State U, Reachable (Started c) (Steps (next c)) s ∧ Stuck s ∧ s.curJobs = 1 := by
  have htrace : runTrace (next c) (initialState [url])
      (lookedUp U ++ (requested U ++ answered U)) = some (lastState url) := by
    rw [runTrace_append (lookedUp_runs url hdns), runTrace_append (requested_runs url hzero)]
    exact answered_runs url hone
  obtain ⟨us, hrun, -⟩ :=
    runTrace_run (fun _ _ _ _ hs => hs) (.start (started_seed url hraw)) htrace
  exact ⟨lastState url, hrun.reachable, lastState_stuck url, rfl⟩

/-- The crawler cannot deadlock exactly where at most one job may run at a time, or a queue
of capacity 0 lets no URL through. -/
theorem no_deadlock_iff [Nonempty U] :
    (∀ s : State U, Reachable (Started c) (Steps (next c)) s → ¬ Deadlocked s) ↔
      c.maxJobs = 0 ∨ c.maxJobs = 1 ∨ c.maxRawUrls = 0 ∨ c.maxDnsUrls = 0 := by
  constructor
  · intro h
    by_contra hn
    simp only [not_or] at hn
    obtain ⟨hzero, hone, hraw, hdns⟩ := hn
    obtain ⟨url⟩ := ‹Nonempty U›
    obtain ⟨s, hs, hstuck, -⟩ := reaches_stuck url hzero hone hraw hdns
    exact h s hs hstuck.toDeadlocked
  · rintro hc s ⟨ts, hrun⟩
    have hcase : (c.maxJobs = 0 ∨ c.maxJobs = 1) ∨ c.maxRawUrls = 0 ∨ c.maxDnsUrls = 0 := by
      tauto
    rcases hcase with hjobs | hcap
    · exact Accounts.no_deadlock (accounts_run hrun) hjobs
    · have hdry : Dry c s :=
        hrun.invariant (fun _ => dry_started) fun _ _ _ hi hs => hi.step hcap hs
      exact hdry.no_deadlock

theorem one_job_no_deadlock : ¬ ∃ s : State String,
    Reachable (Started ⟨1, 8192, 8192⟩) (Steps (next ⟨1, 8192, 8192⟩)) s ∧ Deadlocked s := by
  rintro ⟨s, hs, hdead⟩
  exact no_deadlock_iff.mpr (.inr (.inl rfl)) s hs hdead

theorem last_page_deadlocks : ¬ ∀ s : State String,
    Reachable (Started shippedConfig) (Steps (next shippedConfig)) s → ¬ Deadlocked s := by
  intro h
  obtain ⟨s, hs, hstuck, -⟩ := reaches_stuck (c := shippedConfig) "tmooc.cn" (by decide)
    (by decide) (by decide) (by decide)
  exact h s hs hstuck.toDeadlocked

end CrawlDeadlock
