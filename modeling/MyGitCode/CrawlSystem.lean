import Mathlib.Data.List.Basic
import Mathlib.Algebra.Order.Ring.Int
import MyGitCode.TransitionRuns

/-! # The threads of the crawler

The event loop `exec`, the DNS thread, the sender thread, which calls `startJob` for ever,
and one receiver thread for each readable socket. A call of a URL queue is one step here,
taken when it does not block. `m_mutex` and `m_cond` are kept lock by lock. -/
namespace CrawlSystem

open TransitionRuns

structure Config where
  maxJobs : ℤ
  maxRawUrls : ℤ
  maxDnsUrls : ℤ
  deriving DecidableEq, Repr

inductive DnsThread (U : Type*) where
  | popRaw
  | lookup (url : U)
  | pushDns (url : U)

/-- Where the sender stands in `startJob`. From `test` to `unlock` it holds `m_mutex`. -/
inductive Sender (U : Type*) where
  | lock | test | wait | woken | popDns
  | sendRequest (url : U)
  | count (url : U)
  | unlock

inductive Stage where
  | watched
  | receiving
  | stopping (success : Bool)
  | counting (success : Bool)
  | leaving
  | finished
  | dropped
  deriving DecidableEq, Repr

structure Socket (U : Type*) where
  url : U
  stage : Stage

inductive Owner where
  | sender
  | receiver (i : ℕ)
  deriving DecidableEq, Repr

/-- The two tests of the event loop after a timeout: nothing left to do, and nothing to
be done because all is full. -/
inductive Check where
  | empty | full
  deriving DecidableEq, Repr

inductive Round where
  | first | second
  deriving DecidableEq, Repr

inductive Probe where
  | jobs | raw | dns
  deriving DecidableEq, Repr

inductive Main where
  | wait
  | handle (ready : List (ℕ × Bool))
  | test (check : Check) (round : Round) (probe : Probe)
  | sleep (check : Check)
  | clear
  | exited
  deriving DecidableEq, Repr

structure State (U : Type*) where
  raw : List U
  dns : List U
  owner : Option Owner
  curJobs : ℤ
  success : ℕ
  failure : ℕ
  dnsThread : DnsThread U
  sender : Sender U
  sockets : List (Socket U)
  main : Main

variable {U : Type*}

def full (max : ℤ) (q : List U) : Bool := 0 ≤ max ∧ max ≤ q.length

/-- The crawler after `init`, with the seeds in the raw queue. -/
def initialState (seeds : List U) : State U where
  raw := seeds
  dns := []
  owner := none
  curJobs := 0
  success := 0
  failure := 0
  dnsThread := .popRaw
  sender := .lock
  sockets := []
  main := .wait

/-- `init` goes on to start the threads only where the queue takes all seeds. -/
def Started (c : Config) (s : State U) : Prop :=
  ∃ seeds : List U, (0 ≤ c.maxRawUrls → seeds.length ≤ c.maxRawUrls) ∧ s = initialState seeds

def dnsThread (c : Config) (s : State U) (found : Bool) : Option (State U) :=
  match s.dnsThread with
  | .popRaw =>
    match s.raw with
    | [] => none
    | url :: raw => some { s with raw := raw, dnsThread := .lookup url }
  | .lookup url => some { s with dnsThread := if found then .pushDns url else .popRaw }
  | .pushDns url =>
    if full c.maxDnsUrls s.dns then none
    else some { s with dns := s.dns ++ [url], dnsThread := .popRaw }

def startJob (c : Config) (s : State U) (sent : Bool) : Option (State U) :=
  match s.sender with
  | .lock | .woken =>
    if s.owner = none then some { s with owner := some .sender, sender := .test } else none
  | .test =>
    if s.curJobs = c.maxJobs then some { s with owner := none, sender := .wait }
    else some { s with sender := .popDns }
  | .wait => none
  | .popDns =>
    match s.dns with
    | [] => none
    | url :: dns => some { s with dns := dns, sender := .sendRequest url }
  | .sendRequest url =>
    if sent then
      some { s with sockets := s.sockets ++ [⟨url, .watched⟩], sender := .count url }
    else some { s with sender := .unlock }
  | .count _ => some { s with curJobs := s.curJobs + 1, sender := .unlock }
  | .unlock => some { s with owner := none, sender := .lock }

def spurious (s : State U) : Option (State U) :=
  match s.sender with
  | .wait => some { s with sender := .woken }
  | _ => none

def Sender.signalled : Sender U → Sender U
  | .wait => .woken
  | pc => pc

def stopJob (c : Config) (s : State U) (i : ℕ) : Option (State U) :=
  match s.sockets[i]? with
  | some ⟨url, .stopping success⟩ =>
    if s.owner = none then
      some { s with
        owner := some (.receiver i), sockets := s.sockets.set i ⟨url, .counting success⟩ }
    else none
  | some ⟨url, .counting success⟩ =>
    some { s with
      curJobs := s.curJobs - 1
      sender := if s.curJobs - 1 = c.maxJobs - 1 then s.sender.signalled else s.sender
      success := if success then s.success + 1 else s.success
      failure := if success then s.failure else s.failure + 1
      sockets := s.sockets.set i ⟨url, .leaving⟩ }
  | some ⟨url, .leaving⟩ =>
    some { s with owner := none, sockets := s.sockets.set i ⟨url, .finished⟩ }
  | _ => none

def pushRawUrl (c : Config) (s : State U) (i : ℕ) (url : U) : Option (State U) :=
  match s.sockets[i]? with
  | some ⟨_, .receiving⟩ =>
    if full c.maxRawUrls s.raw then none else some { s with raw := s.raw ++ [url] }
  | _ => none

def recvResponse (s : State U) (i : ℕ) (success : Bool) : Option (State U) :=
  match s.sockets[i]? with
  | some ⟨url, .receiving⟩ =>
    some { s with sockets := s.sockets.set i ⟨url, .stopping success⟩ }
  | _ => none

def probe (c : Config) (s : State U) : Check → Probe → Bool
  | .empty, .jobs => s.curJobs = 0
  | .empty, .raw => s.raw.isEmpty
  | .empty, .dns => s.dns.isEmpty
  | .full, .jobs => s.curJobs = c.maxJobs
  | .full, .raw => full c.maxRawUrls s.raw
  | .full, .dns => full c.maxDnsUrls s.dns

def passed : Check → Round → Probe → Main
  | check, round, .jobs => .test check round .raw
  | check, round, .raw => .test check round .dns
  | check, .first, .dns => .sleep check
  | .empty, .second, .dns => .exited
  | .full, .second, .dns => .clear

def failed : Check → Round → Main
  | .empty, .first => .test .full .first .jobs
  | _, _ => .wait

def Watches (s : State U) (i : ℕ) : Prop := ∃ url, s.sockets[i]? = some ⟨url, .watched⟩

instance (s : State U) (i : ℕ) : Decidable (Watches s i) :=
  match h : s.sockets[i]? with
  | some ⟨url, .watched⟩ => isTrue ⟨url, h⟩
  | some ⟨_, .receiving⟩ | some ⟨_, .stopping _⟩ | some ⟨_, .counting _⟩ | some ⟨_, .leaving⟩
  | some ⟨_, .finished⟩ | some ⟨_, .dropped⟩ | none => isFalse (by rintro ⟨_, h'⟩; simp [h] at h')

/-- `ready` is what `epoll_wait` answers: at most ten watched sockets, each readable or in
error, or none after a timeout. -/
def exec (c : Config) (s : State U) (ready : List (ℕ × Bool)) : Option (State U) :=
  match s.main with
  | .wait =>
    if ready = [] then some { s with main := .test .empty .first .jobs }
    else if ready.length ≤ 10 ∧ (ready.map Prod.fst).Nodup ∧ ∀ x ∈ ready, Watches s x.1 then
      some { s with main := .handle ready }
    else none
  | .handle [] => some { s with main := .wait }
  | .handle ((i, readable) :: rest) =>
    match s.sockets[i]? with
    | some ⟨url, .watched⟩ => some { s with
        sockets := s.sockets.set i ⟨url, if readable then .receiving else .dropped⟩
        main := .handle rest }
    | _ => none
  | .test check round p =>
    some { s with main := if probe c s check p then passed check round p else failed check round }
  | .sleep check => some { s with main := .test check .second .jobs }
  | .clear => some { s with raw := [], main := .wait }
  | .exited => none

inductive Event (U : Type*) where
  | dnsThread (found : Bool)
  | startJob (sent : Bool)
  | spurious
  | pushRawUrl (i : ℕ) (url : U)
  | recvResponse (i : ℕ) (success : Bool)
  | stopJob (i : ℕ)
  | exec (ready : List (ℕ × Bool))

def next (c : Config) (s : State U) : Event U → Option (State U)
  | .dnsThread found => dnsThread c s found
  | .startJob sent => startJob c s sent
  | .spurious => spurious s
  | .pushRawUrl i url => pushRawUrl c s i url
  | .recvResponse i success => recvResponse s i success
  | .stopJob i => stopJob c s i
  | .exec ready => exec c s ready

/-- The limits of the configuration file, whose one seed is `tmooc.cn`. -/
def shippedConfig : Config := ⟨100, 8192, 8192⟩

theorem started_shipped : Started shippedConfig (initialState ["tmooc.cn"]) :=
  ⟨_, fun _ => by decide, rfl⟩

inductive Moves (c : Config) (s : State U) : Event U → State U → Prop where
  | popRaw {found url raw} : s.dnsThread = .popRaw → s.raw = url :: raw →
      Moves c s (.dnsThread found) { s with raw := raw, dnsThread := .lookup url }
  | found {url} : s.dnsThread = .lookup url →
      Moves c s (.dnsThread true) { s with dnsThread := .pushDns url }
  | lost {url} : s.dnsThread = .lookup url →
      Moves c s (.dnsThread false) { s with dnsThread := .popRaw }
  | pushDns {found url} : s.dnsThread = .pushDns url → full c.maxDnsUrls s.dns = false →
      Moves c s (.dnsThread found) { s with dns := s.dns ++ [url], dnsThread := .popRaw }
  | lock {sent} : s.sender = .lock ∨ s.sender = .woken → s.owner = none →
      Moves c s (.startJob sent) { s with owner := some .sender, sender := .test }
  | sleeps {sent} : s.sender = .test → s.curJobs = c.maxJobs →
      Moves c s (.startJob sent) { s with owner := none, sender := .wait }
  | goesOn {sent} : s.sender = .test → s.curJobs ≠ c.maxJobs →
      Moves c s (.startJob sent) { s with sender := .popDns }
  | popDns {sent url dns} : s.sender = .popDns → s.dns = url :: dns →
      Moves c s (.startJob sent) { s with dns := dns, sender := .sendRequest url }
  | sends {url} : s.sender = .sendRequest url →
      Moves c s (.startJob true)
        { s with sockets := s.sockets ++ [⟨url, .watched⟩], sender := .count url }
  | givesUp {url} : s.sender = .sendRequest url →
      Moves c s (.startJob false) { s with sender := .unlock }
  | counts {sent url} : s.sender = .count url →
      Moves c s (.startJob sent) { s with curJobs := s.curJobs + 1, sender := .unlock }
  | unlock {sent} : s.sender = .unlock →
      Moves c s (.startJob sent) { s with owner := none, sender := .lock }
  | spurious : s.sender = .wait → Moves c s .spurious { s with sender := .woken }
  | pushRawUrl {i url page} : s.sockets[i]? = some ⟨page, .receiving⟩ →
      full c.maxRawUrls s.raw = false →
      Moves c s (.pushRawUrl i url) { s with raw := s.raw ++ [url] }
  | recvResponse {i success url} : s.sockets[i]? = some ⟨url, .receiving⟩ →
      Moves c s (.recvResponse i success)
        { s with sockets := s.sockets.set i ⟨url, .stopping success⟩ }
  | enters {i url success} : s.sockets[i]? = some ⟨url, .stopping success⟩ → s.owner = none →
      Moves c s (.stopJob i) { s with
        owner := some (.receiver i), sockets := s.sockets.set i ⟨url, .counting success⟩ }
  | discounts {i url success sender done lost} :
      s.sockets[i]? = some ⟨url, .counting success⟩ →
      (sender = s.sender ∨ s.sender = .wait ∧ sender = .woken) →
      Moves c s (.stopJob i) { s with
        curJobs := s.curJobs - 1, sender := sender, success := done, failure := lost
        sockets := s.sockets.set i ⟨url, .leaving⟩ }
  | leaves {i url} : s.sockets[i]? = some ⟨url, .leaving⟩ →
      Moves c s (.stopJob i) { s with owner := none, sockets := s.sockets.set i ⟨url, .finished⟩ }
  | turns {ready main} : s.main = .wait ∨ s.main = .handle [] ∨ (∃ check, s.main = .sleep check) →
      (∀ round probe, main = .test .empty round probe → probe = .jobs) → main ≠ .exited →
      Moves c s (.exec ready) { s with main := main }
  | handles {ready i readable rest url} : s.main = .handle ((i, readable) :: rest) →
      s.sockets[i]? = some ⟨url, .watched⟩ →
      Moves c s (.exec ready) { s with
        sockets := s.sockets.set i ⟨url, if readable then .receiving else .dropped⟩
        main := .handle rest }
  | passes {ready check round p} : s.main = .test check round p → probe c s check p = true →
      Moves c s (.exec ready) { s with main := passed check round p }
  | fails {ready check round p} : s.main = .test check round p → probe c s check p = false →
      Moves c s (.exec ready) { s with main := failed check round }
  | clears {ready} : s.main = .clear → Moves c s (.exec ready) { s with raw := [], main := .wait }

variable {c : Config} {s t : State U} {e : Event U}

theorem dnsThread_moves {found : Bool} (h : dnsThread c s found = some t) :
    Moves c s (.dnsThread found) t := by
  unfold dnsThread at h
  split at h
  · rename_i hpc
    split at h
    · cases h
    · rename_i hraw
      cases h
      exact .popRaw hpc hraw
  · rename_i hpc
    cases h
    cases found
    · exact .lost hpc
    · exact .found hpc
  · rename_i hpc
    split at h
    · cases h
    · rename_i hroom
      cases h
      exact .pushDns hpc (Bool.eq_false_of_not_eq_true hroom)

theorem startJob_moves {sent : Bool} (h : startJob c s sent = some t) :
    Moves c s (.startJob sent) t := by
  unfold startJob at h
  split at h
  case h_1 | h_2 =>
    rename_i hpc
    split at h
    · rename_i hfree
      cases h
      exact .lock (by simp [hpc]) hfree
    · cases h
  case h_3 hpc =>
    split at h
    · rename_i hmax
      cases h
      exact .sleeps hpc hmax
    · rename_i hmax
      cases h
      exact .goesOn hpc hmax
  case h_4 => cases h
  case h_5 hpc =>
    split at h
    · cases h
    · rename_i hdns
      cases h
      exact .popDns hpc hdns
  case h_6 url hpc =>
    cases sent
    · cases h
      exact .givesUp hpc
    · cases h
      exact .sends hpc
  case h_7 url hpc =>
    cases h
    exact .counts hpc
  case h_8 hpc =>
    cases h
    exact .unlock hpc

theorem Sender.signalled_cases (pc : Sender U) :
    pc.signalled = pc ∨ pc = .wait ∧ pc.signalled = .woken := by
  cases pc <;> simp [Sender.signalled]

theorem stopJob_moves {i : ℕ} (h : stopJob c s i = some t) : Moves c s (.stopJob i) t := by
  unfold stopJob at h
  split at h
  · rename_i hk
    split at h
    · rename_i hfree
      cases h
      exact .enters hk hfree
    · cases h
  · rename_i hk
    cases h
    refine .discounts hk ?_
    split
    · exact s.sender.signalled_cases
    · exact .inl rfl
  · rename_i hk
    cases h
    exact .leaves hk
  · cases h

theorem exec_moves {ready : List (ℕ × Bool)} (h : exec c s ready = some t) :
    Moves c s (.exec ready) t := by
  unfold exec at h
  split at h
  · rename_i hpc
    split at h
    · cases h
      refine .turns (.inl hpc) ?_ nofun
      rintro round probe ⟨⟩
      rfl
    · split at h
      · cases h
        exact .turns (.inl hpc) nofun nofun
      · cases h
  · rename_i hpc
    cases h
    exact .turns (.inr (.inl hpc)) nofun nofun
  · rename_i hpc
    split at h
    · rename_i hk
      cases h
      exact .handles hpc hk
    · cases h
  · rename_i hpc
    cases h
    split
    · exact .passes hpc ‹_›
    · exact .fails hpc (Bool.eq_false_of_not_eq_true ‹_›)
  · rename_i check hpc
    cases h
    refine .turns (.inr (.inr ⟨check, hpc⟩)) ?_ nofun
    rintro round probe ⟨⟩
    rfl
  · rename_i hpc
    cases h
    exact .clears hpc
  · cases h

theorem next_moves (h : next c s e = some t) : Moves c s e t := by
  cases e with
  | dnsThread found => exact dnsThread_moves h
  | startJob sent => exact startJob_moves h
  | spurious =>
    simp only [next, CrawlSystem.spurious] at h
    split at h
    · rename_i hpc
      cases h
      exact .spurious hpc
    · cases h
  | pushRawUrl i url =>
    simp only [next, CrawlSystem.pushRawUrl] at h
    split at h
    · rename_i hk
      split at h
      · cases h
      · rename_i hroom
        cases h
        exact .pushRawUrl hk (Bool.eq_false_of_not_eq_true hroom)
    · cases h
  | recvResponse i success =>
    simp only [next, CrawlSystem.recvResponse] at h
    split at h
    · rename_i hk
      cases h
      exact .recvResponse hk
    · cases h
  | stopJob i => exact stopJob_moves h
  | exec ready => exact exec_moves h

end CrawlSystem
