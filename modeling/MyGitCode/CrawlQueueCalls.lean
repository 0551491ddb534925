import MyGitCode.CrawlUrlQueues
import MyGitCode.MonitorLock

/-! # One URL queue under all its calls

Any thread may make any call. `clearRawUrl` and the three calls that only look at a queue take
its mutex as `pushRawUrl` and `popRawUrl` do. -/
namespace CrawlQueueCalls

open TransitionRuns MonitorLock
open CrawlUrlQueues (Config Side Stage blocked signals)

inductive Call (α : Type*) where
  | push (url : α)
  | pop
  | clear
  | size
  | empty
  | full

inductive Pc (α : Type*) where
  | outside
  | inCall (stage : Stage) (call : Call α)

variable {T α : Type*}

abbrev State (T α : Type*) := MonitorLock.State T (Pc α) (List α)

def initialState : State T α := ⟨[], none, fun _ => .outside⟩

/-- The two `while` loops. The other calls do not wait. -/
def Call.blocked (c : Config) (q : List α) : Call α → Bool
  | .push _ => CrawlUrlQueues.blocked c q .push
  | .pop => CrawlUrlQueues.blocked c q .pop
  | _ => false

def Call.apply (q : List α) : Call α → List α
  | .push url => q ++ [url]
  | .pop => q.tail
  | .clear => []
  | _ => q

inductive Answer (α : Type*) where
  | none
  | url (front : Option α)
  | count (n : ℕ)
  | flag (b : Bool)

def Call.answer (c : Config) (q : List α) : Call α → Answer α
  | .push _ | .clear => .none
  | .pop => .url q.head?
  | .size => .count q.length
  | .empty => .flag q.isEmpty
  | .full => .flag (CrawlUrlQueues.blocked c q .push)

/-- Whether the call goes on to `pthread_cond_signal`, on the changed queue. -/
def Call.signals (c : Config) (q : List α) : Call α → Bool
  | .push _ => CrawlUrlQueues.signals c q .push
  | .pop => CrawlUrlQueues.signals c q .pop
  | .clear => true
  | _ => false

def Call.side : Call α → Side
  | .push _ => .push
  | _ => .pop

/-- A push signals that the queue is not empty, the others that it is not full. -/
def Call.wakes : Call α → Side
  | .push _ => .pop
  | _ => .push

def Pc.holds : Pc α → Bool
  | .outside => false
  | .inCall stage _ => stage.holds

inductive Event (T α : Type*) where
  | call (t : T) (call : Call α)
  | lock (t : T) (call : Call α)
  | relock (t : T) (call : Call α)
  | guard (t : T) (url : α) (pass : Bool)
  | test (t : T) (call : Call α)
  | act (t : T) (call : Call α)
  | signal (t : T) (call : Call α) (woken : Option (T × Call α))
  | unlock (t : T) (call : Call α)
  | spurious (t : T) (call : Call α)

def Event.thread : Event T α → T
  | .call t _ | .lock t _ | .relock t _ | .guard t _ _ | .test t _ | .act t _ | .signal t _ _
  | .unlock t _ | .spurious t _ => t

def Event.woken : Event T α → Option (T × Call α)
  | .signal _ _ woken => woken
  | _ => none

/-- A signal for side `d` wakes a thread that waits there, if there is one. -/
def Hears (s : State T α) (d : Side) : Option (T × Call α) → Prop
  | some (w, call) => s.pc w = .inCall .wait call ∧ call.side = d
  | none => ∀ w call, s.pc w = .inCall .wait call → call.side ≠ d

def Enabled (c : Config) (s : State T α) : Event T α → Prop
  | .call t _ => s.pc t = .outside
  | .lock t call => s.pc t = .inCall .lock call ∧ s.owner = none
  | .relock t call => s.pc t = .inCall .woken call ∧ s.owner = none
  | .guard t url pass => s.pc t = .inCall .guard (.push url) ∧ (pass = true ∨ c.guarded = true)
  | .test t call => s.pc t = .inCall .test call
  | .act t call => s.pc t = .inCall .act call
  | .signal t call woken => s.pc t = .inCall .signal call ∧ Hears s call.wakes woken
  | .unlock t call => s.pc t = .inCall .unlock call
  | .spurious t call => s.pc t = .inCall .wait call

def Call.locked : Call α → Stage
  | .push _ => .guard
  | .pop => .test
  | _ => .act

section Steps

variable [DecidableEq T]

def setPc (s : State T α) (t : T) (pc : Pc α) : State T α :=
  { s with pc := Function.update s.pc t pc }

def wake (s : State T α) : Option (T × Call α) → State T α
  | some (w, call) => setPc s w (.inCall .woken call)
  | none => s

def next (c : Config) (s : State T α) : Event T α → State T α
  | .call t call => setPc s t (.inCall .lock call)
  | .lock t call => { setPc s t (.inCall call.locked call) with owner := some t }
  | .relock t call => { setPc s t (.inCall .test call) with owner := some t }
  | .guard t url pass => setPc s t (.inCall (if pass then .test else .unlock) (.push url))
  | .test t call =>
    if call.blocked c s.object then { setPc s t (.inCall .wait call) with owner := none }
    else setPc s t (.inCall .act call)
  | .act t call =>
    let q := call.apply s.object
    { setPc s t (.inCall (if call.signals c q then .signal else .unlock) call) with object := q }
  | .signal t call woken => setPc (wake s woken) t (.inCall .unlock call)
  | .unlock t _ => { setPc s t .outside with owner := none }
  | .spurious t call => setPc s t (.inCall .woken call)

def Step (c : Config) (s : State T α) (e : Event T α) (s' : State T α) : Prop :=
  Enabled c s e ∧ s' = next c s e

end Steps

def pushed (ts : List (Taken (State T α) (Event T α))) : List α :=
  ts.filterMap fun x =>
    match x.event with
    | .act _ (.push url) => some url
    | _ => none

def popped (c : Config) (ts : List (Taken (State T α) (Event T α))) : List α :=
  ts.filterMap fun x =>
    match x.event with
    | .act _ call =>
      match call.answer c x.before.object with
      | .url front => front
      | _ => none
    | _ => none

/-- The URLs that left the queue, in the order in which they left it, with whether a pop
returned them. The others were cleared. -/
def gone (ts : List (Taken (State T α) (Event T α))) : List (α × Bool) :=
  ts.flatMap fun x =>
    match x.event with
    | .act _ .pop => x.before.object.head?.toList.map (·, true)
    | .act _ .clear => x.before.object.map (·, false)
    | _ => []

variable {c : Config} {s s' : State T α} {e : Event T α} {q : List α} {call : Call α}
  {ts : List (Taken (State T α) (Event T α))}

theorem length_apply (h : call.blocked c q = false)
    (hlen : 0 ≤ c.max → (q.length : ℤ) ≤ c.max) (hmax : 0 ≤ c.max) :
    ((call.apply q).length : ℤ) ≤ c.max := by
  have hq := hlen hmax
  cases call with
  | push url =>
    have hroom : ¬ (0 ≤ c.max ∧ c.max ≤ q.length) := of_decide_eq_false h
    simp only [Call.apply, List.length_append, List.length_singleton]
    omega
  | pop =>
    rw [Call.apply, List.length_tail]
    omega
  | clear => simpa [Call.apply] using hmax
  | size | empty | full => exact hq

theorem pushed_step (hpop : ∀ t, e = .act t .pop → s.object ≠ []) [DecidableEq T] :
    s.object ++ pushed [⟨s, e, next c s e⟩] =
      (gone [⟨s, e, next c s e⟩]).map Prod.fst ++ (next c s e).object := by
  cases e with
  | act t call =>
    cases call with
    | pop =>
      obtain ⟨url, q, hq⟩ := List.exists_cons_of_ne_nil (hpop t rfl)
      simp [pushed, gone, next, Call.apply, hq]
    | push | clear | size | empty | full =>
      simp [pushed, gone, next, Call.apply, Function.comp_def]
  | test t call =>
    simp only [next]
    split <;> simp [pushed, gone, setPc]
  | signal t call woken =>
    rcases woken with _ | ⟨w, call'⟩ <;> simp [pushed, gone, next, setPc, wake]
  | _ => simp [pushed, gone, next, setPc]

theorem popped_eq_gone :
    popped c ts = ((gone ts).filter Prod.snd).map Prod.fst := by
  induction ts with
  | nil => rfl
  | cons x ts ih =>
    obtain ⟨b, e, a⟩ := x
    have hcons : popped c (⟨b, e, a⟩ :: ts) = popped c [⟨b, e, a⟩] ++ popped c ts := by
      rw [popped, popped, popped, ← List.filterMap_append, List.singleton_append]
    have hgone : gone (⟨b, e, a⟩ :: ts) = gone [⟨b, e, a⟩] ++ gone ts := by
      rw [gone, gone, gone, ← List.flatMap_append, List.singleton_append]
    rw [hcons, hgone, List.filter_append, List.map_append, ih]
    congr 1
    cases e with
    | act t call =>
      cases call with
      | pop => cases hq : b.object <;> simp [popped, gone, Call.answer, hq]
      | push | clear | size | empty | full => simp [popped, gone, Call.answer]
    | _ => simp [popped, gone]

def Room (c : Config) : Pc α → List α → Prop
  | .inCall .act call, q => call.blocked c q = false
  | _, _ => True

structure Locked (c : Config) (s : State T α) : Prop where
  exclusive : Exclusive Pc.holds s
  room : Settled (Room c) s
  bound : 0 ≤ c.max → (s.object.length : ℤ) ≤ c.max

theorem locked_initial : Locked c (initialState : State T α) where
  exclusive _ := iff_of_false nofun nofun
  room _ := trivial
  bound hmax := hmax

theorem room_of_not_holds (pc : Pc α) (q : List α) (h : pc.holds = false) : Room c pc q := by
  cases pc with
  | outside => trivial
  | inCall stage call => cases stage <;> trivial

section LockSteps

variable [DecidableEq T] {d : Side} {woken : Option (T × Call α)}

@[simp] theorem wake_object : (wake s woken).object = s.object := by
  rcases woken with _ | ⟨w, call⟩ <;> rfl

@[simp] theorem wake_owner : (wake s woken).owner = s.owner := by
  rcases woken with _ | ⟨w, call⟩ <;> rfl

theorem Locked.wake (h : Locked c s) (hwoken : Hears s d woken) : Locked c (wake s woken) := by
  rcases woken with _ | ⟨w, call⟩
  · exact h
  · have hm : Move Pc.holds w s (setPc s w (.inCall .woken call)) := by
      refine .stay ?_
      rw [hwoken.1]
      rfl
    refine ⟨hm.exclusive h.exclusive, ?_, h.bound⟩
    refine hm.settled h.exclusive h.room room_of_not_holds ?_
    simp [setPc, Room]

omit [DecidableEq T] in
theorem Enabled.hears (h : Enabled c s e) : e.woken = none ∨ ∃ d, Hears s d e.woken := by
  cases e with
  | signal t call woken => exact .inr ⟨_, h.2⟩
  | _ => exact .inl rfl

theorem Locked.heard (h : Locked c s) (he : Enabled c s e) :
    Locked c (CrawlQueueCalls.wake s e.woken) := by
  rcases he.hears with hnone | ⟨d, hd⟩
  · rw [hnone]
    exact h
  · exact h.wake hd

theorem pc_heard (he : Enabled c s e) : (wake s e.woken).pc e.thread = s.pc e.thread := by
  cases e with
  | signal t call woken =>
    rcases woken with _ | ⟨w, call'⟩
    · rfl
    · have hne : t ≠ w := by
        rintro rfl
        have hw := he.2.1.symm.trans he.1
        cases hw
      exact Function.update_of_ne hne _ _
  | _ => rfl

/-- A step is a move of its thread, behind the waking of another one where it signals. -/
theorem step_move (h : Step c s e s') : Move Pc.holds e.thread (wake s e.woken) s' := by
  obtain ⟨he, rfl⟩ := h
  have hpc := pc_heard he
  have hholds {pc : Pc α} (hp : s.pc e.thread = pc) :
      ((wake s e.woken).pc e.thread).holds = pc.holds := by rw [hpc, hp]
  cases e with
  | call t call => exact .stay (hholds he).symm
  | lock t call => exact .take he.2 (by cases call <;> rfl)
  | relock t call => exact .take he.2 rfl
  | guard t url pass => exact .stay (by rw [hholds he.1]; cases pass <;> rfl)
  | test t call =>
    simp only [next]
    split
    · exact .leave (hholds he) rfl
    · exact .stay (hholds he).symm
  | act t call => exact .change (hholds he) (by simp only [Pc.holds]; split <;> rfl)
  | signal t call woken => exact .stay (hholds he.1).symm
  | unlock t call => exact .leave (hholds he) rfl
  | spurious t call => exact .stay (hholds he).symm

theorem Locked.step (h : Locked c s) (hs : Step c s e s') : Locked c s' := by
  have hwake := h.heard hs.1
  have hm := step_move hs
  obtain ⟨he, rfl⟩ := hs
  refine ⟨hm.exclusive hwake.exclusive,
    hm.settled hwake.exclusive hwake.room room_of_not_holds ?_, ?_⟩
  · cases e with
    | lock t call =>
      cases call <;> simp [next, setPc, Event.thread, Call.locked, Room, Call.blocked]
    | test t call =>
      simp only [next]
      split <;> simp_all [setPc, Event.thread, Room]
    | guard t url pass => cases pass <;> simp [next, setPc, Event.thread, Room]
    | act t call =>
      simp only [next, setPc, Event.thread, Function.update_self]
      split <;> simp [Room]
    | _ => simp [next, setPc, Event.thread, Room]
  · cases e with
    | act t call =>
      have hroom := h.room t
      rw [show s.pc t = _ from he] at hroom
      exact length_apply hroom h.bound
    | test t call =>
      simp only [next]
      split <;> exact h.bound
    | signal t call woken => simpa [next, setPc] using h.bound
    | _ => exact h.bound

theorem same_call_heard (he : Enabled c s e) {u : T} {stage : Stage}
    (hu : (wake s e.woken).pc u = .inCall stage call) :
    ∃ stage', s.pc u = .inCall stage' call := by
  rcases he.hears with hnone | ⟨d, hd⟩
  · rw [hnone] at hu
    exact ⟨stage, hu⟩
  · rcases hw : e.woken with _ | ⟨w, call'⟩
    · rw [hw] at hu
      exact ⟨stage, hu⟩
    · rw [hw] at hu hd
      simp only [wake, setPc, Function.update_apply] at hu
      split at hu
      · rename_i huw
        cases hu
        exact ⟨.wait, by rw [huw]; exact hd.1⟩
      · exact ⟨stage, hu⟩

theorem Step.same_call (hs : Step c s e s') {u : T} {stage : Stage}
    (hu : s'.pc u = .inCall stage call) :
    (∃ stage', s.pc u = .inCall stage' call) ∨ e = .call u call := by
  by_cases hne : u = e.thread
  · obtain ⟨he, rfl⟩ := hs
    subst hne
    cases e with
    | call t call' =>
      simp only [next, setPc, Event.thread, Function.update_self, Pc.inCall.injEq] at hu
      exact .inr (by rw [hu.2]; rfl)
    | unlock t call' => simp [next, setPc, Event.thread] at hu
    | lock t call' | relock t call' | guard t url pass | signal t call' woken =>
      simp only [next, setPc, Event.thread, Function.update_self, Pc.inCall.injEq] at hu
      exact .inl ⟨_, by rw [← hu.2]; exact he.1⟩
    | test t call' =>
      have hcall : call' = call := by
        simp only [next] at hu
        split at hu <;> simp_all [setPc, Event.thread]
      exact .inl ⟨_, by rw [← hcall]; exact he⟩
    | act t call' | spurious t call' =>
      simp only [next, setPc, Event.thread, Function.update_self, Pc.inCall.injEq] at hu
      exact .inl ⟨_, by rw [← hu.2]; exact he⟩
  · rw [(step_move hs).pc_of_ne hne] at hu
    exact .inl (same_call_heard hs.1 hu)

theorem holds_heard (he : Enabled c s e) (u : T) :
    ((wake s e.woken).pc u).holds = (s.pc u).holds := by
  rcases he.hears with hnone | ⟨d, hd⟩
  · rw [hnone]
    rfl
  · rcases hw : e.woken with _ | ⟨w, call⟩
    · rfl
    · rw [hw] at hd
      simp only [wake, setPc, Function.update_apply]
      split
      · rename_i huw
        rw [huw, hd.1]
        rfl
      · rfl

theorem Step.holds_of_ne (hs : Step c s e s') {u : T} (hne : u ≠ e.thread) :
    (s'.pc u).holds = (s.pc u).holds := by
  rw [(step_move hs).pc_of_ne hne]
  exact holds_heard hs.1 u

omit [DecidableEq T] in
theorem Enabled.inside (he : Enabled c s e) (hcall : ∀ call, e ≠ .call e.thread call) :
    s.pc e.thread ≠ .outside := by
  intro hout
  have hstage {stage : Stage} {call : Call α} (hp : s.pc e.thread = .inCall stage call) :
      False := by
    rw [hp] at hout
    cases hout
  cases e with
  | call t call => exact hcall call rfl
  | lock | relock | guard | signal => exact hstage he.1
  | test | act | unlock | spurious => exact hstage he

theorem Step.owner_of_ne (h : Locked c s) (hs : Step c s e s') {u : T} (howner : s.owner = some u)
    (hne : u ≠ e.thread) : s'.owner = some u := by
  refine (step_move hs).owner_of_ne (h.heard hs.1).exclusive ?_ hne
  rw [wake_owner]
  exact howner

theorem Step.pc_of_ne (hs : Step c s e s') {u : T} (hne : u ≠ e.thread)
    (hwait : ∀ call, s.pc u ≠ .inCall .wait call) : s'.pc u = s.pc u := by
  rw [(step_move hs).pc_of_ne hne]
  rcases hs.1.hears with hnone | ⟨d, hd⟩
  · rw [hnone]
    rfl
  · rcases hw : e.woken with _ | ⟨w, call⟩
    · rfl
    · rw [hw] at hd
      refine Function.update_of_ne ?_ _ _
      rintro rfl
      exact hwait call hd.1

theorem Step.stuck (h : Locked c s) (hs : Step c s e s') {u v : T}
    (hu : s.pc u = .inCall .lock call) (howner : s.owner = some v) (hne : v ≠ e.thread) :
    s'.pc u = .inCall .lock call ∧ s'.owner = some v := by
  have hut : u ≠ e.thread := by
    rintro rfl
    obtain ⟨he, -⟩ := hs
    cases e with
    | lock => exact absurd (howner.symm.trans he.2) nofun
    | call => exact absurd (hu.symm.trans he) nofun
    | relock | guard | signal => exact absurd (hu.symm.trans he.1) nofun
    | test | act | unlock | spurious => exact absurd (hu.symm.trans he) nofun
  refine ⟨?_, hs.owner_of_ne h howner hne⟩
  rw [hs.pc_of_ne hut (by simp [hu]), hu]

end LockSteps

section Runs

variable [DecidableEq T]

theorem run_locked (h : Run (· = initialState) (Step c) ts s) : Locked c s := by
  refine h.invariant ?_ fun _ _ _ hi hs => hi.step hs
  rintro _ rfl
  exact locked_initial

omit [DecidableEq T] in
theorem Locked.pop_nonempty (h : Locked c s) {t : T} (he : Enabled c s (.act t .pop)) :
    s.object ≠ [] := by
  have hroom := h.room t
  rw [show s.pc t = _ from he] at hroom
  rintro hnil
  simp [Room, Call.blocked, CrawlUrlQueues.blocked, hnil] at hroom

theorem run_pops (h : Run (· = initialState) (Step c) ts s) :
    ∀ x ∈ ts, ∀ t, x.event = .act t .pop → x.before.object ≠ [] := by
  refine h.all_steps (C := fun _ _ => True) (I := Locked c)
    (Q := fun s e _ => ∀ t, e = .act t .pop → s.object ≠ []) ?_ ?_ fun _ _ => trivial
  · rintro _ rfl
    exact locked_initial
  · intro s e s' hl _ hs
    refine ⟨hl.step hs, ?_⟩
    rintro t rfl
    exact hl.pop_nonempty hs.1

/-- The URLs that left a queue and those still in it are the pushed ones, in this order. -/
theorem run_content (h : Run (· = initialState) (Step c) ts s) :
    (gone ts).map Prod.fst ++ s.object = pushed ts := by
  induction h with
  | start hs =>
    subst hs
    rfl
  | @snoc ts s e s' hr hs ih =>
    obtain ⟨he, rfl⟩ := hs
    have hstep := pushed_step (c := c) (s := s) (e := e) fun t ht => by
      subst ht
      exact (run_locked hr).pop_nonempty he
    have hpushed : pushed (ts ++ [⟨s, e, next c s e⟩]) =
        pushed ts ++ pushed [⟨s, e, next c s e⟩] := List.filterMap_append
    have hgone : gone (ts ++ [⟨s, e, next c s e⟩]) = gone ts ++ gone [⟨s, e, next c s e⟩] :=
      List.flatMap_append
    rw [hpushed, hgone, ← ih, List.map_append, List.append_assoc, ← hstep, List.append_assoc]

end Runs

end CrawlQueueCalls
