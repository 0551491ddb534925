import MyGitCode.CrawlQueueLocks
import MyGitCode.RelockableLocks

/-! # The statistics handler beside the queue calls

`sigalrm` runs in the thread that `SIGALRM` interrupts, which stands still until it returns. It
reads the sizes of both queues, in either order, and then prints, with functions of the C library
that take locks of their own. The signal stays blocked meanwhile. -/
namespace CrawlTicker

open TransitionRuns MonitorLock
open CrawlUrlQueues (Stage)
open CrawlQueueCalls (Call Pc Locked)
open CrawlQueueLocks (Limits)

/-- A mutex belongs to the thread of either. -/
inductive Activity (T : Type*) where
  | program (t : T)
  | handler (t : T)
  deriving DecidableEq

def Activity.thread {T : Type*} : Activity T → T
  | .program t | .handler t => t

inductive Queue where
  | raw | dns
  deriving DecidableEq, Repr

/-- The functions that `Log::printf` calls; `time`, `getpid` and `pthread_self` take no lock. -/
inductive LibCall where
  | localtime
  | strftime
  | fprintf
  | vfprintf
  deriving DecidableEq, Repr

/-- `m_logLevel`, and the locks of the C library: which of them a function may take, and which
can be taken again by the thread that holds them. -/
structure Setting (K : Type*) where
  limits : Limits
  logLevel : ℤ
  uses : LibCall → K → Prop
  again : K → Bool

/-- `LEVEL_INF` is 1. -/
def Setting.printf {K : Type*} (g : Setting K) : List LibCall :=
  if g.logLevel ≤ 1 then [.localtime, .strftime, .fprintf, .vfprintf, .fprintf] else []

inductive Task where
  | size (q : Queue)
  | lib (c : LibCall)
  deriving DecidableEq, Repr

/-- `pending` lists what the handler of a thread has still to do, `none` outside the handler. -/
structure State (T R D K : Type*) where
  queues : CrawlQueueLocks.State (Activity T) R D
  lib : RelockableLocks.State (Activity T) K
  pending : T → Option (List Task)

variable {T R D K : Type*}

def initialState : State T R D K :=
  ⟨CrawlQueueLocks.initialState, RelockableLocks.initialState, fun _ => none⟩

inductive Event (T R D K : Type*) where
  | queue (e : CrawlQueueLocks.Event (Activity T) R D)
  | lib (e : RelockableLocks.Event (Activity T) K)
  | alarm (t : T) (order : List Queue)
  | leave (t : T)
  | sigreturn (t : T)

def sizeCall (t : T) : Queue → CrawlQueueLocks.Event (Activity T) R D
  | .raw => .raw (.call (.handler t) .size)
  | .dns => .dns (.call (.handler t) .size)

def begins : CrawlQueueLocks.Event (Activity T) R D → Bool
  | .raw (.call _ _) | .dns (.call _ _) => true
  | _ => false

def Outside (s : State T R D K) (t : T) : Prop :=
  s.queues.raw.pc (.handler t) = .outside ∧ s.queues.dns.pc (.handler t) = .outside

/-- The program may call any function of the library while it runs, the handler those that print. -/
def MayAct (g : Setting K) (s : State T R D K) : RelockableLocks.Event (Activity T) K → Prop
  | .ask (.program t) _ | .take (.program t) _ | .release (.program t) _ => s.pending t = none
  | .ask (.handler t) k => Outside s t ∧ ∃ c rest, s.pending t = some (.lib c :: rest) ∧ g.uses c k
  | .take (.handler _) _ | .release (.handler _) _ => True

variable [DecidableEq T] [DecidableEq K]

inductive Step (g : Setting K) (s : State T R D K) : Event T R D K → State T R D K → Prop where
  | program {e queues t} (h : CrawlQueueLocks.Step g.limits s.queues e queues)
      (ht : e.thread = .program t) (hrun : s.pending t = none)
      (hwait : s.lib.wants (.program t) = none) :
      Step g s (.queue e) { s with queues := queues }
  | size {queues t q rest} (hq : s.pending t = some (.size q :: rest))
      (h : CrawlQueueLocks.Step g.limits s.queues (sizeCall t q) queues) :
      Step g s (.queue (sizeCall t q))
        { s with queues := queues, pending := Function.update s.pending t (some rest) }
  | handler {e queues t} (h : CrawlQueueLocks.Step g.limits s.queues e queues)
      (ht : e.thread = .handler t) (hin : begins e = false) :
      Step g s (.queue e) { s with queues := queues }
  | lib {e lib} (h : RelockableLocks.Step g.again Activity.thread s.lib e lib)
      (hact : MayAct g s e) : Step g s (.lib e) { s with lib := lib }
  | alarm {t order} (hrun : s.pending t = none)
      (horder : order = [.raw, .dns] ∨ order = [.dns, .raw]) :
      Step g s (.alarm t order) { s with
        pending := Function.update s.pending t (some (order.map .size ++ g.printf.map .lib)) }
  | leave {t c rest} (hc : s.pending t = some (.lib c :: rest)) (hout : Outside s t)
      (hwait : s.lib.wants (.handler t) = none)
      (hfree : ∀ k, .handler t ∉ s.lib.holders k) :
      Step g s (.leave t) { s with pending := Function.update s.pending t (some rest) }
  | sigreturn {t} (hdone : s.pending t = some []) (hout : Outside s t)
      (hwait : s.lib.wants (.handler t) = none) :
      Step g s (.sigreturn t) { s with pending := Function.update s.pending t none }

/-- The handler asks for a mutex that the thread it interrupted holds, one of the queues or a
lock of the library that cannot be taken again. -/
def SelfWait (g : Setting K) (s : State T R D K) (t : T) : Prop :=
  (s.queues.raw.pc (.handler t) = .inCall .lock .size ∧
      s.queues.raw.owner = some (.program t) ∨
    s.queues.dns.pc (.handler t) = .inCall .lock .size ∧
      s.queues.dns.owner = some (.program t)) ∨
  ∃ k, s.lib.wants (.handler t) = some k ∧ g.again k = false ∧ .program t ∈ s.lib.holders k

def Setting.Needs (g : Setting K) (k : K) : Prop :=
  g.again k = false ∧ ∃ c ∈ g.printf, g.uses c k

/-- The program part of a thread holds no queue mutex, and no lock that printing may wait for. -/
def Clear (g : Setting K) (s : State T R D K) (t : T) : Prop :=
  (s.queues.raw.pc (.program t)).holds = false ∧ (s.queues.dns.pc (.program t)).holds = false ∧
    ∀ k, g.Needs k → .program t ∉ s.lib.holders k

/-- The signal comes to such a thread. -/
def Careful (g : Setting K) (s : State T R D K) : Event T R D K → Prop
  | .alarm t _ => Clear g s t
  | _ => True

variable {g : Setting K} {s s' : State T R D K} {e : Event T R D K} {t : T}
  {ts : List (Taken (State T R D K) (Event T R D K))}

/-- A handler is inside a queue call, or waits for a lock of the library, only between the signal
and its return, and it waits there for locks that printing uses. -/
structure Locks (g : Setting K) (s : State T R D K) : Prop where
  raw : Locked g.limits.raw s.queues.raw
  dns : Locked g.limits.dns s.queues.dns
  handling : ∀ t, s.pending t = none → Outside s t ∧ s.lib.wants (.handler t) = none
  tasks : ∀ t tasks, s.pending t = some tasks → ∀ c, .lib c ∈ tasks → c ∈ g.printf
  uses : ∀ t k, s.lib.wants (.handler t) = some k → ∃ c ∈ g.printf, g.uses c k

omit [DecidableEq T] [DecidableEq K] in
theorem locks_initial : Locks g (initialState : State T R D K) where
  raw := CrawlQueueCalls.locked_initial
  dns := CrawlQueueCalls.locked_initial
  handling _ _ := ⟨⟨rfl, rfl⟩, rfl⟩
  tasks := nofun
  uses := nofun

omit [DecidableEq K] in
theorem Locks.outside_of_ne (h : Locks g s) {e : CrawlQueueLocks.Event (Activity T) R D} {queues}
    (hs : CrawlQueueLocks.Step g.limits s.queues e queues) (hne : .handler t ≠ e.thread)
    (hrun : s.pending t = none) :
    queues.raw.pc (.handler t) = .outside ∧ queues.dns.pc (.handler t) = .outside := by
  obtain ⟨-, hraw, hdns⟩ := hs.others hne
  obtain ⟨hout, -⟩ := h.handling t hrun
  exact ⟨hraw hout.1, hdns hout.2⟩

omit [DecidableEq K] in
theorem Locks.pending_of_step (h : Locks g s) {e : CrawlQueueLocks.Event (Activity T) R D}
    {queues} (hs : CrawlQueueLocks.Step g.limits s.queues e queues) (ht : e.thread = .handler t)
    (hin : begins e = false) : s.pending t ≠ none := by
  intro hrun
  obtain ⟨⟨hraw, hdns⟩, -⟩ := h.handling t hrun
  rw [← ht] at hraw hdns
  cases hs with
  | raw he =>
    refine he.1.inside ?_ hraw
    rintro call heq
    rw [heq] at hin
    cases hin
  | dns he =>
    refine he.1.inside ?_ hdns
    rintro call heq
    rw [heq] at hin
    cases hin

omit [DecidableEq T] in
theorem sizeCall_thread (q : Queue) :
    (sizeCall t q : CrawlQueueLocks.Event (Activity T) R D).thread = .handler t := by
  cases q <;> rfl

omit [DecidableEq K] in
theorem Locks.tasks_update (h : Locks g s) {t₀ : T} {new : Option (List Task)}
    (hnew : ∀ tasks, new = some tasks → ∀ c, .lib c ∈ tasks → c ∈ g.printf) :
    ∀ t tasks, Function.update s.pending t₀ new t = some tasks →
      ∀ c, .lib c ∈ tasks → c ∈ g.printf := by
  intro t tasks htasks
  by_cases hne : t = t₀
  · subst hne
    rw [Function.update_self] at htasks
    exact hnew tasks htasks
  · rw [Function.update_of_ne hne] at htasks
    exact h.tasks t tasks htasks

theorem Locks.lib_step (h : Locks g s) {e : RelockableLocks.Event (Activity T) K} {lib}
    (he : RelockableLocks.Step g.again Activity.thread s.lib e lib) (hact : MayAct g s e) :
    Locks g { s with lib := lib } := by
  refine ⟨h.raw, h.dns, fun t hpending => ?_, h.tasks, fun t k hwants => ?_⟩
  · obtain ⟨hout, hnone⟩ := h.handling t hpending
    refine ⟨hout, ?_⟩
    by_cases hne : .handler t = e.actor
    · cases he with
      | ask hask =>
        rw [RelockableLocks.Event.actor] at hne
        subst hne
        obtain ⟨-, c, rest, htasks, -⟩ := hact
        rw [hpending] at htasks
        cases htasks
      | take hask =>
        rw [RelockableLocks.Event.actor] at hne
        rw [← hne, hnone] at hask
        cases hask
      | release => exact hnone
    · exact (he.others hne).1.trans hnone
  · by_cases hne : .handler t = e.actor
    · cases he with
      | @ask a k' hask =>
        rw [RelockableLocks.Event.actor] at hne
        subst hne
        obtain ⟨-, c, rest, htasks, huses⟩ := hact
        have hk : Function.update s.lib.wants (.handler t) (some k') (.handler t) = some k := hwants
        rw [Function.update_self] at hk
        obtain rfl := Option.some.inj hk
        exact ⟨c, h.tasks t _ htasks c List.mem_cons_self, huses⟩
      | @take a k' hask =>
        rw [RelockableLocks.Event.actor] at hne
        subst hne
        have hk : Function.update s.lib.wants (.handler t) none (.handler t) = some k := hwants
        rw [Function.update_self] at hk
        cases hk
      | release => exact h.uses t k hwants
    · exact h.uses t k ((he.others hne).1.symm.trans hwants)

theorem Locks.step (h : Locks g s) (hs : Step g s e s') : Locks g s' := by
  cases hs with
  | @program e queues t₀ he ht hrun hwait =>
    obtain ⟨hraw, hdns⟩ := he.locked h.raw h.dns
    refine ⟨hraw, hdns, fun t hpending => ⟨h.outside_of_ne he ?_ hpending, ?_⟩, h.tasks, h.uses⟩
    · rw [ht]
      nofun
    · exact (h.handling t hpending).2
  | @size queues t₀ q rest hq he =>
    obtain ⟨hraw, hdns⟩ := he.locked h.raw h.dns
    refine ⟨hraw, hdns, fun t hpending => ?_, h.tasks_update ?_, h.uses⟩
    · have hne : t ≠ t₀ := by
        rintro rfl
        simp at hpending
      have hbefore : s.pending t = none := by simpa [Function.update_of_ne hne] using hpending
      refine ⟨h.outside_of_ne he ?_ hbefore, (h.handling t hbefore).2⟩
      simpa [sizeCall_thread] using hne
    · rintro _ ⟨⟩ c hc
      exact h.tasks t₀ _ hq c (List.mem_cons_of_mem _ hc)
  | @handler e queues t₀ he ht hin =>
    obtain ⟨hraw, hdns⟩ := he.locked h.raw h.dns
    refine ⟨hraw, hdns, fun t hpending => ⟨h.outside_of_ne he ?_ hpending, ?_⟩, h.tasks, h.uses⟩
    · rw [ht]
      rintro ⟨⟩
      exact h.pending_of_step he ht hin hpending
    · exact (h.handling t hpending).2
  | lib he hact => exact h.lib_step he hact
  | @alarm t₀ order hrun horder =>
    refine ⟨h.raw, h.dns, fun t hpending => h.handling t ?_, h.tasks_update ?_, h.uses⟩
    · by_cases hne : t = t₀
      · rw [hne]
        exact hrun
      · simpa [Function.update_of_ne hne] using hpending
    · rintro _ ⟨⟩ c hc
      simpa using hc
  | @leave t₀ c rest hc hout hwait =>
    refine ⟨h.raw, h.dns, fun t hpending => ?_, h.tasks_update ?_, h.uses⟩
    · have hne : t ≠ t₀ := by
        rintro rfl
        simp at hpending
      exact h.handling t (by simpa [Function.update_of_ne hne] using hpending)
    · rintro _ ⟨⟩ c' hc'
      exact h.tasks t₀ _ hc c' (List.mem_cons_of_mem _ hc')
  | @sigreturn t₀ hdone hout hwait =>
    refine ⟨h.raw, h.dns, fun t hpending => ?_, h.tasks_update nofun, h.uses⟩
    by_cases hne : t = t₀
    · rw [hne]
      exact ⟨hout, hwait⟩
    · exact h.handling t (by simpa [Function.update_of_ne hne] using hpending)

omit [DecidableEq K] in
theorem SelfWait.queues_step (h : Locks g s) (hw : SelfWait g s t)
    {e : CrawlQueueLocks.Event (Activity T) R D} {queues}
    (he : CrawlQueueLocks.Step g.limits s.queues e queues) (hne : .program t ≠ e.thread)
    (pending : T → Option (List Task)) : SelfWait g ⟨queues, s.lib, pending⟩ t := by
  rcases hw with (⟨hlock, howner⟩ | ⟨hlock, howner⟩) | hlib
  · left; left
    cases he with
    | raw he => exact he.stuck h.raw hlock howner hne
    | dns => exact ⟨hlock, howner⟩
  · left; right
    cases he with
    | raw => exact ⟨hlock, howner⟩
    | dns he => exact he.stuck h.dns hlock howner hne
  · exact .inr hlib

omit [DecidableEq T] [DecidableEq K] in
theorem SelfWait.pending (h : Locks g s) (hw : SelfWait g s t) : s.pending t ≠ none := by
  intro hrun
  obtain ⟨⟨hraw, hdns⟩, hnone⟩ := h.handling t hrun
  rcases hw with (⟨hlock, -⟩ | ⟨hlock, -⟩) | ⟨k, hwants, -⟩
  · rw [hlock] at hraw
    cases hraw
  · rw [hlock] at hdns
    cases hdns
  · rw [hnone] at hwants
    cases hwants

omit [DecidableEq T] [DecidableEq K] in
theorem program_stands {e : RelockableLocks.Event (Activity T) K} (hact : MayAct g s e)
    (hpending : s.pending t ≠ none) : .program t ≠ e.actor := by
  intro heq
  cases e with
  | ask a k | take a k | release a k =>
    rw [RelockableLocks.Event.actor] at heq
    subst heq
    exact hpending hact

/-- Once a handler waits for its own thread, it waits for ever. -/
theorem SelfWait.step (h : Locks g s) (hw : SelfWait g s t) (hs : Step g s e s') :
    SelfWait g s' t := by
  cases hs with
  | @program e queues t₀ he ht hrun =>
    refine hw.queues_step h he ?_ s.pending
    rw [ht]
    rintro ⟨⟩
    exact hw.pending h hrun
  | size hq he => exact hw.queues_step h he (by simp [sizeCall_thread]) _
  | handler he ht hin => exact hw.queues_step h he (by simp [ht]) _
  | lib he hact =>
    have hne := program_stands hact (hw.pending h)
    rcases hw with hqueue | ⟨k, hwants, hagain, hholds⟩
    · exact .inl hqueue
    · obtain ⟨hwants', hholds'⟩ := he.stuck hwants hagain hholds hne
      exact .inr ⟨k, hwants', hagain, hholds'⟩
  | alarm | leave | sigreturn => exact hw

theorem run_locks (h : Run (· = initialState) (Step g) ts s) : Locks g s := by
  refine h.invariant ?_ fun _ _ _ hi hs => hi.step hs
  rintro _ rfl
  exact locks_initial

/-- A run that goes on from a state where a handler waits for its own thread. -/
theorem SelfWait.forever {us : List (Taken (State T R D K) (Event T R D K))}
    (h : Run (· = initialState) (Step g) ts s) (hw : SelfWait g s t)
    (hrun : Run (· = s) (Step g) us s') : SelfWait g s' t := by
  have hinv : Locks g s' ∧ SelfWait g s' t := by
    refine hrun.invariant (I := fun s => Locks g s ∧ SelfWait g s t) ?_ ?_
    · rintro _ rfl
      exact ⟨run_locks h, hw⟩
    · intro s e s' hi hs
      exact ⟨hi.1.step hs, hi.2.step hi.1 hs⟩
  exact hinv.2

/-- A thread that stands still for its handler holds nothing the handler may wait for. -/
def Apart (g : Setting K) (s : State T R D K) : Prop :=
  ∀ t, s.pending t ≠ none → Clear g s t

theorem Apart.step (h : Apart g s) (hcare : Careful g s e) (hs : Step g s e s') : Apart g s' := by
  have hkeep {e : CrawlQueueLocks.Event (Activity T) R D} {queues}
      (he : CrawlQueueLocks.Step g.limits s.queues e queues) {t : T} (hne : .program t ≠ e.thread)
      (hpending : s.pending t ≠ none) (pending : T → Option (List Task)) :
      Clear g ⟨queues, s.lib, pending⟩ t := by
    obtain ⟨⟨hraw, hdns⟩, -⟩ := he.others hne
    obtain ⟨hraw', hdns', hlib⟩ := h t hpending
    exact ⟨hraw.trans hraw', hdns.trans hdns', hlib⟩
  cases hs with
  | @program e queues t₀ he ht hrun =>
    refine fun t hpending => hkeep he ?_ hpending _
    rw [ht]
    rintro ⟨⟩
    exact hpending hrun
  | @size queues t₀ q rest hq he =>
    refine fun t hpending => hkeep he (by simp [sizeCall_thread]) ?_ _
    by_cases hne : t = t₀
    · simp [hne, hq]
    · simpa [Function.update_of_ne hne] using hpending
  | @handler e queues t₀ he ht hin => exact fun t hpending => hkeep he (by simp [ht]) hpending _
  | @lib e lib he hact =>
    intro t hpending
    obtain ⟨hraw, hdns, hlib⟩ := h t hpending
    have hsame := (he.others (program_stands hact hpending)).2
    exact ⟨hraw, hdns, fun k hk => fun hmem => hlib k hk ((hsame k).mp hmem)⟩
  | @alarm t₀ order hrun =>
    intro t hpending
    by_cases hne : t = t₀
    · rw [hne]
      exact hcare
    · exact h t (by simpa [Function.update_of_ne hne] using hpending)
  | @leave t₀ c rest hc =>
    intro t hpending
    refine h t ?_
    by_cases hne : t = t₀
    · simp [hne, hc]
    · simpa [Function.update_of_ne hne] using hpending
  | @sigreturn t₀ hdone =>
    intro t hpending
    by_cases hne : t = t₀
    · simp [hne] at hpending
    · exact h t (by simpa [Function.update_of_ne hne] using hpending)

omit [DecidableEq T] [DecidableEq K] in
theorem Locks.no_self_wait (h : Locks g s) (ha : Apart g s) (t : T) : ¬ SelfWait g s t := by
  intro hw
  obtain ⟨hraw, hdns, hlib⟩ := ha t (hw.pending h)
  rcases hw with (⟨-, howner⟩ | ⟨-, howner⟩) | ⟨k, hwants, hagain, hholds⟩
  · have hholds := (h.raw.exclusive _).mp howner
    rw [hraw] at hholds
    cases hholds
  · have hholds := (h.dns.exclusive _).mp howner
    rw [hdns] at hholds
    cases hholds
  · exact hlib k ⟨hagain, h.uses t k hwants⟩ hholds

theorem careful_alarms_never_self_wait (h : Run (· = initialState) (Step g) ts s)
    (hcare : ∀ x ∈ ts, Careful g x.before x.event) (t : T) : ¬ SelfWait g s t := by
  have hinv : Locks g s ∧ Apart g s := by
    refine h.guarded (C := Careful g) (I := fun s => Locks g s ∧ Apart g s) ?_ ?_ hcare
    · rintro _ rfl
      exact ⟨locks_initial, fun t hpending => absurd rfl hpending⟩
    · intro s e s' hi hc hs
      exact ⟨hi.1.step hs, hi.2.step hc hs⟩
  exact hinv.1.no_self_wait hinv.2 t

inductive LibLock where
  | timezone | stream
  deriving DecidableEq

/-- A library whose `localtime` has a lock for the time zone, and whose output functions have the
lock of the stream, which can be taken again. -/
def twoLocks : Setting LibLock where
  limits := CrawlQueueLocks.oneEach
  logLevel := 1
  uses := fun c k => k = if c = .localtime then .timezone else .stream
  again := fun k => k = .stream

theorem handler_in_localtime (u : ℕ) : ∃ (ts : _) (s : State ℕ ℕ ℕ LibLock),
    Run (· = initialState) (Step twoLocks) ts s ∧
      (u ≠ 0 → ∀ x ∈ ts, Careful twoLocks x.before x.event) ∧
      s.lib.wants (.handler 0) = some .timezone ∧ s.lib.holders .timezone = [.program u] := by
  have hrun : Run (· = initialState) (Step twoLocks) [] (initialState : State ℕ ℕ ℕ LibLock) :=
    .start rfl
  have hask := hrun.snoc (.lib (e := .ask (.program u) .timezone) (.ask rfl nofun) rfl)
  have htake := hask.snoc (.lib (e := .take (.program u) .timezone)
    (.take (Function.update_self ..) nofun) rfl)
  have halarm := htake.snoc (.alarm (t := 0) rfl (.inl rfl))
  have hraw := halarm.snoc (.size (t := 0) (q := .raw) rfl
    (.raw ⟨rfl, rfl⟩ (by rintro _ _ ⟨⟩; rfl)))
  have hlock := hraw.snoc (.handler (t := 0) (e := .raw (.lock (.handler 0) .size))
    (.raw ⟨⟨rfl, rfl⟩, rfl⟩ nofun) rfl rfl)
  have hact := hlock.snoc (.handler (t := 0) (e := .raw (.act (.handler 0) .size))
    (.raw ⟨rfl, rfl⟩ nofun) rfl rfl)
  have hunlock := hact.snoc (.handler (t := 0) (e := .raw (.unlock (.handler 0) .size))
    (.raw ⟨rfl, rfl⟩ nofun) rfl rfl)
  have hdns := hunlock.snoc (.size (t := 0) (q := .dns) rfl
    (.dns ⟨rfl, rfl⟩ (by rintro _ _ ⟨⟩; exact ⟨rfl, nofun⟩)))
  have hlock' := hdns.snoc (.handler (t := 0) (e := .dns (.lock (.handler 0) .size))
    (.dns ⟨⟨rfl, rfl⟩, rfl⟩ nofun) rfl rfl)
  have hact' := hlock'.snoc (.handler (t := 0) (e := .dns (.act (.handler 0) .size))
    (.dns ⟨rfl, rfl⟩ nofun) rfl rfl)
  have hunlock' := hact'.snoc (.handler (t := 0) (e := .dns (.unlock (.handler 0) .size))
    (.dns ⟨rfl, rfl⟩ nofun) rfl rfl)
  have huses : twoLocks.uses .localtime .timezone := rfl
  have hask' := hunlock'.snoc (.lib (e := .ask (.handler 0) .timezone)
    (.ask rfl fun _ h => nomatch List.mem_singleton.mp h) ⟨⟨rfl, rfl⟩, _, _, rfl, huses⟩)
  refine ⟨_, _, hask', ?_, rfl, rfl⟩
  intro hu
  simp only [List.nil_append, List.cons_append, List.forall_mem_cons, List.not_mem_nil,
    false_imp_iff, implies_true, and_true]
  refine ⟨trivial, trivial, ⟨rfl, rfl, ?_⟩, trivial, trivial, trivial, trivial, trivial, trivial,
    trivial, trivial, trivial⟩
  rintro (_ | _) - hmem
  · obtain ⟨⟩ := List.mem_singleton.mp hmem
    exact hu rfl
  · cases hmem

theorem idle_alarm_no_self_wait : ∃ (ts : _) (s : State ℕ ℕ ℕ LibLock),
    Run (· = initialState) (Step twoLocks) ts s ∧ s.lib.wants (.handler 0) = some .timezone ∧
      s.lib.holders .timezone = [.program 1] ∧ ¬ SelfWait twoLocks s 0 := by
  obtain ⟨ts, s, hrun, hcare, hwants, hholders⟩ := handler_in_localtime 1
  exact ⟨ts, s, hrun, hwants, hholders,
    careful_alarms_never_self_wait hrun (hcare one_ne_zero) 0⟩

/-- A signal that comes while its thread is in `localtime`, with both queue mutexes free. -/
theorem localtime_interrupted : ∃ (ts : _) (s : State ℕ ℕ ℕ LibLock),
    Run (· = initialState) (Step twoLocks) ts s ∧ SelfWait twoLocks s 0 := by
  obtain ⟨ts, s, hrun, -, hwants, hholders⟩ := handler_in_localtime 0
  refine ⟨ts, s, hrun, .inr ⟨.timezone, hwants, rfl, ?_⟩⟩
  rw [hholders]
  exact List.mem_singleton_self _

/-- A signal that comes while its thread pushes a URL. -/
theorem push_interrupted : ∃ (ts : _) (s : State ℕ ℕ ℕ LibLock),
    Run (· = initialState) (Step twoLocks) ts s ∧ SelfWait twoLocks s 0 := by
  have hrun : Run (· = initialState) (Step twoLocks) [] (initialState : State ℕ ℕ ℕ LibLock) :=
    .start rfl
  have hcall := hrun.snoc (.program (t := 0) (e := .raw (.call (.program 0) (.push 7)))
    (.raw ⟨rfl, rfl⟩ (by rintro _ _ ⟨⟩; rfl)) rfl rfl rfl)
  have hlock := hcall.snoc (.program (t := 0) (e := .raw (.lock (.program 0) (.push 7)))
    (.raw ⟨⟨rfl, rfl⟩, rfl⟩ nofun) rfl rfl rfl)
  have halarm := hlock.snoc (.alarm (t := 0) rfl (.inl rfl))
  have hsize := halarm.snoc (.size (t := 0) (q := .raw) rfl
    (.raw ⟨rfl, rfl⟩ (by rintro _ _ ⟨⟩; rfl)))
  exact ⟨_, _, hsize, .inl (.inl ⟨rfl, rfl⟩)⟩

end CrawlTicker
