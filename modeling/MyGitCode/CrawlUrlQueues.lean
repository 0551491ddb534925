import Mathlib.Algebra.Ring.Int.Defs
import Mathlib.Logic.Function.Basic
import Mathlib.Data.Set.Finite.Basic
import MyGitCode.TransitionRuns

/-! # The URL queues of `UrlQueues.cpp`, lock by lock

`pushRawUrl`, `popRawUrl`, `pushDnsUrl` and `popDnsUrl` differ in the side of the queue they
work on and in the filter test of `pushRawUrl`. Each thread works on one side. A signal wakes
one waiting thread, if there is one, and a waiting thread may wake by itself. -/
namespace CrawlUrlQueues

open TransitionRuns

inductive Side where
  | push | pop
  deriving DecidableEq, Repr

def Side.other : Side → Side
  | .push => .pop
  | .pop => .push

inductive Op (α : Type*) where
  | push (url : α)
  | pop

inductive Stage where
  | lock | guard | test | wait | woken | act | signal | unlock
  deriving DecidableEq, Repr

inductive Pc (α : Type*) where
  | outside
  | finished
  | inCall (stage : Stage) (op : Op α)

/-- `m_maxRawUrls` or `m_maxDnsUrls`, an `int`, and whether a push first asks the filter. -/
structure Config where
  max : ℤ
  range : max < 2 ^ 31
  guarded : Bool

def rawConfig (maxRawUrls : ℤ) (h : maxRawUrls < 2 ^ 31) : Config := ⟨maxRawUrls, h, true⟩

def dnsConfig (maxDnsUrls : ℤ) (h : maxDnsUrls < 2 ^ 31) : Config := ⟨maxDnsUrls, h, false⟩

structure State (T α : Type*) where
  queue : List α
  owner : Option T
  pc : T → Pc α

variable {T α : Type*}

def Op.side : Op α → Side
  | .push _ => .push
  | .pop => .pop

/-- The condition of the two `while` loops around `pthread_cond_wait`. -/
def blocked (c : Config) (q : List α) : Side → Bool
  | .push => 0 ≤ c.max ∧ c.max ≤ q.length
  | .pop => q.isEmpty

def Op.apply (q : List α) : Op α → List α
  | .push url => q ++ [url]
  | .pop => q.tail

/-- The test before `pthread_cond_signal`, on the changed queue. The capacity less one is
a `size_t`. -/
def signals (c : Config) (q : List α) : Side → Bool
  | .push => q.length = 1
  | .pop => (q.length : ℤ) = (c.max - 1) % 2 ^ 64

def initialState : State T α := ⟨[], none, fun _ => .outside⟩

def Waits (s : State T α) (d : Side) (t : T) : Prop :=
  ∃ op, s.pc t = .inCall .wait op ∧ op.side = d

inductive Event (T α : Type*) where
  | call (t : T) (op : Op α)
  | finish (t : T)
  | lock (t : T) (op : Op α)
  | relock (t : T) (op : Op α)
  | guard (t : T) (url : α) (pass : Bool)
  | test (t : T) (op : Op α)
  | act (t : T) (op : Op α)
  | signal (t : T) (op : Op α) (woken : Option (T × Op α))
  | unlock (t : T) (op : Op α)
  | spurious (t : T) (op : Op α)

def Enabled (c : Config) (side : T → Side) (s : State T α) : Event T α → Prop
  | .call t op => s.pc t = .outside ∧ op.side = side t
  | .finish t => s.pc t = .outside
  | .lock t op => s.pc t = .inCall .lock op ∧ s.owner = none
  | .relock t op => s.pc t = .inCall .woken op ∧ s.owner = none
  | .guard t url pass => s.pc t = .inCall .guard (.push url) ∧ (pass = true ∨ c.guarded = true)
  | .test t op => s.pc t = .inCall .test op
  | .act t op => s.pc t = .inCall .act op
  | .signal t op (some (w, op')) => s.pc t = .inCall .signal op ∧
      s.pc w = .inCall .wait op' ∧ op'.side = op.side.other
  | .signal t op none => s.pc t = .inCall .signal op ∧ ∀ w, ¬ Waits s op.side.other w
  | .unlock t op => s.pc t = .inCall .unlock op
  | .spurious t op => s.pc t = .inCall .wait op

def State.setPc [DecidableEq T] (s : State T α) (t : T) (pc : Pc α) : State T α :=
  { s with pc := Function.update s.pc t pc }

section Steps

variable [DecidableEq T]

def locked : Op α → Pc α
  | .push url => .inCall .guard (.push url)
  | .pop => .inCall .test .pop

def next (c : Config) (s : State T α) : Event T α → State T α
  | .call t op => s.setPc t (.inCall .lock op)
  | .finish t => s.setPc t .finished
  | .lock t op => { s.setPc t (locked op) with owner := some t }
  | .relock t op => { s.setPc t (.inCall .test op) with owner := some t }
  | .guard t url pass =>
    s.setPc t (if pass then .inCall .test (.push url) else .inCall .unlock (.push url))
  | .test t op =>
    if blocked c s.queue op.side then { s.setPc t (.inCall .wait op) with owner := none }
    else s.setPc t (.inCall .act op)
  | .act t op =>
    let q := op.apply s.queue
    let stage := if signals c q op.side then .signal else .unlock
    { s.setPc t (.inCall stage op) with queue := q }
  | .signal t op (some (w, op')) =>
    (s.setPc w (.inCall .woken op')).setPc t (.inCall .unlock op)
  | .signal t op none => s.setPc t (.inCall .unlock op)
  | .unlock t _ => { s.setPc t .outside with owner := none }
  | .spurious t op => s.setPc t (.inCall .woken op)

def Step (c : Config) (side : T → Side) (s : State T α) (e : Event T α) (s' : State T α) : Prop :=
  Enabled c side s e ∧ s' = next c s e

def ReachableQueue (c : Config) (side : T → Side) (s : State T α) : Prop :=
  Reachable (· = initialState) (Step c side) s

end Steps

/-- A thread waits on side `d` although the queue lets it go on, and every other thread
waits or has finished, so that no signal is on its way. -/
def LostWakeup (c : Config) (s : State T α) (d : Side) : Prop :=
  ∃ t, Waits s d t ∧ blocked c s.queue d = false ∧
    ∀ u, u ≠ t → s.pc u = .finished ∨ ∃ d', Waits s d' u

/-- At most one thread works on side `d`, or none on the other. -/
def Alone (side : T → Side) (d : Side) : Prop :=
  (∀ t u, side t = d → side u = d → t = u) ∨ ∀ t, side t ≠ d.other

variable {c : Config} {side : T → Side} {s s' : State T α} {e : Event T α} {d : Side} {t u : T}
  {op : Op α} {q : List α} {stage : Stage}

theorem blocked_push (hmax : 1 ≤ c.max) :
    blocked c q .push = true ↔ c.max ≤ q.length := by
  simp only [blocked, decide_eq_true_eq]
  omega

theorem signals_pop (hmax : 1 ≤ c.max) :
    signals c q .pop = true ↔ (q.length : ℤ) = c.max - 1 := by
  have := c.range
  simp only [signals, decide_eq_true_eq]
  omega

theorem signals_of_unblocked (hmax : 1 ≤ c.max) (h : blocked c q op.side.other = true)
    (h' : blocked c (op.apply q) op.side.other = false) :
    signals c (op.apply q) op.side = true := by
  cases op with
  | push url =>
    have hq : q = [] := by simpa [blocked, Op.side, Side.other] using h
    simp [signals, Op.side, Op.apply, hq]
  | pop =>
    have hfull := (blocked_push hmax).mp h
    have hroom : ¬ c.max ≤ (q.tail.length : ℤ) := by
      rw [← blocked_push hmax]
      simpa [Op.side, Side.other, Op.apply] using h'
    rw [Op.side, signals_pop hmax, Op.apply]
    rw [List.length_tail] at hroom ⊢
    omega

theorem blocked_one (hone : c.max = 1) (h : blocked c q d = false) :
    blocked c q d.other = true := by
  have hmax : 1 ≤ c.max := by omega
  cases d with
  | push =>
    have hroom : ¬ c.max ≤ (q.length : ℤ) := by
      rw [← blocked_push hmax]
      simpa using h
    have hnil : q.length = 0 := by omega
    simpa [blocked, Side.other] using hnil
  | pop =>
    have hne : q.length ≠ 0 := by simpa [blocked] using h
    refine (blocked_push hmax).mpr ?_
    omega

theorem blocked_apply_one (hone : c.max = 1) (hlen : (q.length : ℤ) ≤ c.max)
    (h : blocked c q op.side = false) : blocked c (op.apply q) op.side = true := by
  cases op with
  | push url =>
    refine (blocked_push (by omega)).mpr ?_
    simp only [Op.apply, List.length_append, List.length_singleton]
    omega
  | pop =>
    have hnil : q.tail = [] := by
      apply List.eq_nil_of_length_eq_zero
      rw [List.length_tail]
      omega
    simp [blocked, Op.side, Op.apply, hnil]

theorem length_apply (h : blocked c q op.side = false)
    (hlen : 0 ≤ c.max → (q.length : ℤ) ≤ c.max) (hmax : 0 ≤ c.max) :
    ((op.apply q).length : ℤ) ≤ c.max := by
  have := hlen hmax
  cases op with
  | push url =>
    have hroom : ¬ (0 ≤ c.max ∧ c.max ≤ q.length) := of_decide_eq_false h
    simp only [Op.apply, List.length_append, List.length_singleton]
    omega
  | pop =>
    rw [Op.apply, List.length_tail]
    omega

def Stage.holds : Stage → Bool
  | .guard | .test | .act | .signal | .unlock => true
  | .lock | .wait | .woken => false

structure Locked (c : Config) (side : T → Side) (s : State T α) : Prop where
  bound : 0 ≤ c.max → (s.queue.length : ℤ) ≤ c.max
  owner : ∀ t stage op, s.pc t = .inCall stage op → stage.holds = true → s.owner = some t
  role : ∀ t stage op, s.pc t = .inCall stage op → op.side = side t
  room : ∀ t op, s.pc t = .inCall .act op → blocked c s.queue op.side = false

theorem locked_initial : Locked c side (initialState : State T α) where
  bound hmax := hmax
  owner _ _ _ h := by cases h
  role _ _ _ h := by cases h
  room _ _ h := by cases h

theorem Locked.same (h : Locked c side s) {stage' : Stage} {op' : Op α}
    (ht : s.pc t = .inCall stage op) (hs : stage.holds = true)
    (hu : s.pc u = .inCall stage' op') (hs' : stage'.holds = true) : t = u :=
  Option.some.inj ((h.owner t _ _ ht hs).symm.trans (h.owner u _ _ hu hs'))

theorem Locked.alone (h : Locked c side s) (ht : s.pc t = .inCall stage op)
    (hs : stage.holds = true) : ∀ u, u ≠ t → ∀ stage op, s.pc u = .inCall stage op →
      stage.holds = false := by
  intro u hne stage' op' hu
  by_contra hn
  exact hne (h.same ht hs hu (by simpa using hn)).symm

theorem Locked.free (h : Locked c side s) (ho : s.owner = none) :
    ∀ u, u ≠ t → ∀ stage op, s.pc u = .inCall stage op → stage.holds = false := by
  intro u _ stage op hu
  by_contra hn
  have := h.owner u stage op hu (by simpa using hn)
  rw [ho] at this
  cases this

section LockSteps

variable [DecidableEq T]

theorem Locked.move (h : Locked c side s) {pc : Pc α} (hpc : s'.pc = Function.update s.pc t pc)
    (hbound : 0 ≤ c.max → (s'.queue.length : ℤ) ≤ c.max)
    (hnew : ∀ stage op, pc = .inCall stage op → op.side = side t ∧
      (stage.holds = true → s'.owner = some t) ∧
      (stage = .act → blocked c s'.queue op.side = false))
    (hothers : (s'.owner = s.owner ∧ s'.queue = s.queue) ∨
      ∀ u, u ≠ t → ∀ stage op, s.pc u = .inCall stage op → stage.holds = false) :
    Locked c side s' := by
  have hcase : ∀ u stage op, s'.pc u = .inCall stage op →
      (u = t ∧ pc = .inCall stage op) ∨ (u ≠ t ∧ s.pc u = .inCall stage op) := by
    intro u stage op hu
    rw [hpc, Function.update_apply] at hu
    split at hu
    · exact .inl ⟨‹_›, hu⟩
    · exact .inr ⟨‹_›, hu⟩
  refine ⟨hbound, ?_, ?_, ?_⟩
  · intro u stage op hu hs
    rcases hcase u stage op hu with ⟨rfl, hp⟩ | ⟨hne, hp⟩
    · exact (hnew stage op hp).2.1 hs
    · rcases hothers with ⟨ho, _⟩ | hout
      · rw [ho]
        exact h.owner u stage op hp hs
      · rw [hout u hne stage op hp] at hs
        cases hs
  · intro u stage op hu
    rcases hcase u stage op hu with ⟨rfl, hp⟩ | ⟨_, hp⟩
    · exact (hnew stage op hp).1
    · exact h.role u stage op hp
  · intro u op hu
    rcases hcase u .act op hu with ⟨rfl, hp⟩ | ⟨hne, hp⟩
    · exact (hnew .act op hp).2.2 rfl
    · rcases hothers with ⟨_, hq⟩ | hout
      · rw [hq]
        exact h.room u op hp
      · cases hout u hne .act op hp

theorem Locked.advance (h : Locked c side s) {stage : Stage} {op : Op α}
    (hpc : s'.pc = Function.update s.pc t (.inCall stage op)) (howner : s'.owner = s.owner)
    (hqueue : s'.queue = s.queue) (hrole : op.side = side t)
    (hholds : stage.holds = true → s.owner = some t) (hact : stage ≠ .act) :
    Locked c side s' := by
  refine h.move hpc (by rw [hqueue]; exact h.bound) ?_ (.inl ⟨howner, hqueue⟩)
  rintro stage' op' ⟨⟩
  exact ⟨hrole, fun hs => howner.trans (hholds hs), fun hs => absurd hs hact⟩

theorem Locked.step (h : Locked c side s) (hs : Step c side s e s') :
    Locked c side s' := by
  obtain ⟨he, rfl⟩ := hs
  cases e with
  | call t op => exact h.advance rfl rfl rfl he.2 nofun nofun
  | finish t => exact h.move rfl h.bound nofun (.inl ⟨rfl, rfl⟩)
  | lock t op =>
    refine h.move rfl h.bound ?_ (.inr (h.free he.2))
    intro stage op' hp
    have hrole := h.role t .lock op he.1
    cases op with
    | push url =>
      cases hp
      exact ⟨hrole, fun _ => rfl, nofun⟩
    | pop =>
      cases hp
      exact ⟨hrole, fun _ => rfl, nofun⟩
  | relock t op =>
    refine h.move rfl h.bound ?_ (.inr (h.free he.2))
    rintro stage op' ⟨⟩
    exact ⟨h.role t .woken op he.1, fun _ => rfl, nofun⟩
  | guard t url pass =>
    have hrole := h.role t .guard (.push url) he.1
    have hown := h.owner t .guard (.push url) he.1 rfl
    cases pass with
    | true => exact h.advance rfl rfl rfl hrole (fun _ => hown) nofun
    | false => exact h.advance rfl rfl rfl hrole (fun _ => hown) nofun
  | test t op =>
    have hrole := h.role t .test op he
    simp only [next]
    split
    · refine h.move rfl h.bound ?_ (.inr (h.alone he rfl))
      rintro stage op' ⟨⟩
      exact ⟨hrole, nofun, nofun⟩
    · rename_i hroom
      refine h.move rfl h.bound ?_ (.inl ⟨rfl, rfl⟩)
      rintro stage op' ⟨⟩
      exact ⟨hrole, fun _ => h.owner t .test op he rfl, fun _ => Bool.eq_false_of_not_eq_true hroom⟩
  | act t op =>
    refine h.move rfl (length_apply (h.room t op he) h.bound) ?_ (.inr (h.alone he rfl))
    have hrole := h.role t .act op he
    have hown := h.owner t .act op he rfl
    intro stage op' hp
    cases hp
    refine ⟨hrole, fun _ => hown, ?_⟩
    split <;> nofun
  | signal t op woken =>
    cases woken with
    | none =>
      have hown := h.owner t .signal op he.1 rfl
      exact h.advance rfl rfl rfl (h.role t .signal op he.1) (fun _ => hown) nofun
    | some x =>
      obtain ⟨w, op'⟩ := x
      obtain ⟨ht, hw, -⟩ := he
      have hwoken : Locked c side (s.setPc w (.inCall .woken op')) :=
        h.advance rfl rfl rfl (h.role w .wait op' hw) nofun nofun
      have hown := h.owner t .signal op ht rfl
      exact hwoken.advance rfl rfl rfl (h.role t .signal op ht) (fun _ => hown) nofun
  | unlock t op => exact h.move rfl h.bound nofun (.inr (h.alone he rfl))
  | spurious t op => exact h.advance rfl rfl rfl (h.role t .wait op he) nofun nofun

end LockSteps

def done : List (Taken (State T α) (Event T α)) → List (Op α)
  | [] => []
  | ⟨_, .act _ op, _⟩ :: ts => op :: done ts
  | _ :: ts => done ts

/-- Operations on a queue one after the other, each where it does not block. -/
inductive Served (c : Config) : List (Op α) → List α → Prop where
  | nil : Served c [] []
  | snoc {ops q op} : Served c ops q → blocked c q op.side = false →
      Served c (ops ++ [op]) (op.apply q)

theorem done_snoc (ts : List (Taken (State T α) (Event T α))) (x : Taken (State T α) (Event T α)) :
    done (ts ++ [x]) = done ts ++ done [x] := by
  induction ts with
  | nil => rfl
  | cons y ts ih =>
    obtain ⟨b, e, a⟩ := y
    cases e <;> simp [done, ih]

section Serving

variable [DecidableEq T]

theorem next_queue (he : ∀ t op, e ≠ .act t op) : (next c s e).queue = s.queue := by
  cases e with
  | act t op => exact absurd rfl (he t op)
  | test t op =>
    simp only [next]
    split <;> rfl
  | signal t op woken => cases woken <;> rfl
  | _ => rfl

/-- Whatever the threads do in between, a queue is what its operations make of it, one
after the other. -/
theorem run_served {ts : List (Taken (State T α) (Event T α))}
    (h : Run (· = initialState) (Step c side) ts s) : Served c (done ts) s.queue := by
  induction h with
  | start hs =>
    subst hs
    exact .nil
  | @snoc ts s e s' hr hs ih =>
    have hl : Locked c side s := hr.invariant (by rintro _ rfl; exact locked_initial)
      fun _ _ _ hi hs => hi.step hs
    obtain ⟨he, rfl⟩ := hs
    rw [done_snoc]
    by_cases hact : ∃ t op, e = .act t op
    · obtain ⟨t, op, rfl⟩ := hact
      exact ih.snoc (hl.room t op he)
    · simp only [not_exists] at hact
      rw [next_queue hact]
      cases e with
      | act t op => exact absurd rfl (hact t op)
      | _ => simpa [done] using ih

end Serving

/-- A signal for side `d` that is due, or a thread of a queue of capacity 1 that has been
let on and will block its own side. -/
def Comes (c : Config) (d : Side) : Pc α → Prop
  | .inCall .signal op => op.side = d.other
  | .inCall .woken op | .inCall .test op | .inCall .act op => c.max = 1 ∧ op.side = d
  | _ => False

def Heard (c : Config) (d : Side) (s : State T α) : Prop :=
  ∀ t, Waits s d t → blocked c s.queue d = false → ∃ u, Comes c d (s.pc u)

/-- While a thread is inside with room on its side, nobody comes for the other side of a
queue of capacity 1, and no other thread has a signal to send. -/
theorem Locked.nobody_comes (h : Locked c side s) (ht : s.pc t = .inCall .act op)
    (hroom : blocked c s.queue op.side.other = false) (hu : Comes c op.side.other (s.pc u)) :
    False := by
  have hbusy := h.room t op ht
  cases hp : s.pc u with
  | outside | finished =>
    rw [hp] at hu
    exact hu
  | inCall stage op' =>
    rw [hp] at hu
    have hone : c.max = 1 → False := by
      intro hone
      rw [blocked_one hone hbusy] at hroom
      cases hroom
    cases stage with
    | signal =>
      obtain rfl := h.same ht rfl hp rfl
      rw [ht] at hp
      cases hp
    | woken | test | act => exact hone hu.1
    | lock | guard | wait | unlock => exact hu

@[simp] theorem other_other : d.other.other = d := by
  cases d <;> rfl

theorem other_ne : d.other ≠ d := by
  cases d <;> nofun

theorem side_other_of_ne (h : op.side ≠ d) : op.side = d.other := by
  cases d <;> cases op <;> first | rfl | exact absurd rfl h

section HeardSteps

variable [DecidableEq T]

theorem Heard.move (h : Heard c d s) {pc : Pc α} (hpc : s'.pc = Function.update s.pc t pc)
    (hq : s'.queue = s.queue)
    (hwait : ∀ op, pc = .inCall .wait op → op.side = d → blocked c s.queue d = true)
    (hcomes : blocked c s.queue d = false → Comes c d (s.pc t) → Comes c d pc) :
    Heard c d s' := by
  intro p ⟨op, hp, hop⟩ hroom
  rw [hq] at hroom
  have hold : Waits s d p := by
    rw [hpc, Function.update_apply] at hp
    split at hp
    · rw [hwait op hp hop] at hroom
      cases hroom
    · exact ⟨op, hp, hop⟩
  obtain ⟨u, hu⟩ := h p hold hroom
  refine ⟨u, ?_⟩
  rw [hpc, Function.update_apply]
  split
  · rename_i hut
    rw [hut] at hu
    exact hcomes hroom hu
  · exact hu

theorem Heard.act (hmax : 1 ≤ c.max) (hl : Locked c side s) (h : Heard c d s)
    (he : s.pc t = .inCall .act op) : Heard c d (next c s (.act t op)) := by
  intro p ⟨op', hp, hop⟩ hroom
  have hold : Waits s d p := by
    simp only [next, State.setPc, Function.update_apply] at hp
    split at hp
    · split at hp <;> cases hp
    · exact ⟨op', hp, hop⟩
  change blocked c (op.apply s.queue) d = false at hroom
  by_cases hd : op.side = d
  · -- the acting thread made no room on its own side, so another thread comes already
    subst hd
    have hbefore : blocked c s.queue op.side = false := hl.room t op he
    obtain ⟨u, hu⟩ := h p hold hbefore
    refine ⟨u, ?_⟩
    simp only [next, State.setPc, Function.update_apply]
    split
    · rename_i hut
      rw [hut, he] at hu
      rw [blocked_apply_one hu.1 (hl.bound (by omega)) hbefore] at hroom
      cases hroom
    · exact hu
  · obtain rfl : d = op.side.other := by rw [side_other_of_ne hd, other_other]
    cases hbefore : blocked c s.queue op.side.other with
    | true =>
      refine ⟨t, ?_⟩
      simp only [next, State.setPc, Function.update_self,
        signals_of_unblocked hmax hbefore hroom, if_true, Comes, other_other]
    | false =>
      obtain ⟨u, hu⟩ := h p hold hbefore
      exact absurd hu (hl.nobody_comes he hbefore)

theorem Heard.signal_some (hd : c.max = 1 ∨ Alone side d) (hl : Locked c side s)
    (h : Heard c d s) {w : T} {op' : Op α}
    (he : Enabled c side s (.signal t op (some (w, op')))) :
    Heard c d (next c s (.signal t op (some (w, op')))) := by
  obtain ⟨ht, hw, hother⟩ := he
  have hne : t ≠ w := by
    rintro rfl
    rw [ht] at hw
    cases hw
  by_cases hop : op.side = d
  · have hwoken : Heard c d (s.setPc w (.inCall .woken op')) := by
      refine h.move rfl rfl nofun ?_
      rw [hw]
      exact fun _ => nofun
    refine hwoken.move rfl rfl nofun ?_
    simp only [State.setPc, Function.update_of_ne hne, ht]
    intro _ hsig
    exact absurd (hsig.symm.trans hop) other_ne
  · have hod := side_other_of_ne hop
    have hwd : op'.side = d := by
      rw [hother, hod, other_other]
    intro p ⟨op₂, hp, hop₂⟩ _
    rcases hd with hone | hfew | hnone
    · refine ⟨w, ?_⟩
      simpa [next, State.setPc, Function.update_of_ne hne.symm] using ⟨hone, hwd⟩
    · exfalso
      simp only [next, State.setPc, Function.update_apply] at hp
      split at hp
      · cases hp
      · split at hp
        · cases hp
        · rename_i hpw
          apply hpw
          apply hfew
          · exact (hl.role p .wait op₂ hp).symm.trans hop₂
          · exact (hl.role w .wait op' hw).symm.trans hwd
    · exact absurd ((hl.role t .signal op ht).symm.trans hod) (hnone t)

theorem Heard.signal_none (h : Heard c d s) (he : Enabled c side s (.signal t op none)) :
    Heard c d (next c s (.signal t op none)) := by
  obtain ⟨ht, hquiet⟩ := he
  by_cases hop : op.side = d
  · refine h.move rfl rfl nofun ?_
    rw [ht]
    intro _ hsig
    exact absurd (hsig.symm.trans hop) other_ne
  · have hod := side_other_of_ne hop
    intro p ⟨op₂, hp, hop₂⟩ _
    exfalso
    simp only [next, State.setPc, Function.update_apply] at hp
    split at hp
    · cases hp
    · apply hquiet p
      refine ⟨op₂, hp, ?_⟩
      rw [hop₂, hod, other_other]

theorem Heard.step (hmax : 1 ≤ c.max) (hd : c.max = 1 ∨ Alone side d) (hl : Locked c side s)
    (h : Heard c d s) (hs : Step c side s e s') : Heard c d s' := by
  obtain ⟨he, rfl⟩ := hs
  cases e with
  | call t op =>
    refine h.move rfl rfl nofun ?_
    rw [he.1]
    exact fun _ => nofun
  | finish t =>
    refine h.move rfl rfl nofun ?_
    rw [show s.pc t = .outside from he]
    exact fun _ => nofun
  | lock t op =>
    refine h.move rfl rfl ?_ ?_
    · cases op <;> nofun
    · rw [he.1]
      exact fun _ => nofun
  | relock t op =>
    refine h.move rfl rfl nofun ?_
    rw [he.1]
    exact fun _ hcomes => hcomes
  | guard t url pass =>
    refine h.move rfl rfl ?_ ?_
    · cases pass <;> nofun
    · rw [he.1]
      exact fun _ => nofun
  | test t op =>
    simp only [next]
    split
    · rename_i hfull
      refine h.move rfl rfl ?_ ?_
      · rintro op' ⟨⟩ rfl
        exact hfull
      · rw [show s.pc t = .inCall .test op from he]
        rintro hroom ⟨_, rfl⟩
        rw [hfull] at hroom
        cases hroom
    · refine h.move rfl rfl nofun ?_
      rw [show s.pc t = .inCall .test op from he]
      exact fun _ hcomes => hcomes
  | act t op => exact h.act hmax hl he
  | signal t op woken =>
    cases woken with
    | none => exact h.signal_none he
    | some x => exact h.signal_some hd hl he
  | unlock t op =>
    refine h.move rfl rfl nofun ?_
    rw [show s.pc t = .inCall .unlock op from he]
    exact fun _ => nofun
  | spurious t op =>
    refine h.move rfl rfl nofun ?_
    rw [show s.pc t = .inCall .wait op from he]
    exact fun _ => nofun

theorem no_lost_wakeup (hmax : 1 ≤ c.max) (hd : c.max = 1 ∨ Alone side d)
    (hs : ReachableQueue c side s) : ¬ LostWakeup c s d := by
  have hinv : Locked c side s ∧ Heard c d s := by
    refine Reachable.invariant (I := fun s => Locked c side s ∧ Heard c d s) ?_ ?_ hs
    · rintro s rfl
      refine ⟨locked_initial, ?_⟩
      rintro t ⟨op, hp, _⟩
      cases hp
    · intro s e s' hi he
      exact ⟨hi.1.step he, hi.2.step hmax hd hi.1 he⟩
  rintro ⟨t, hwait, hroom, hrest⟩
  obtain ⟨u, hu⟩ := hinv.2 t hwait hroom
  by_cases hut : u = t
  · obtain ⟨op, hp, _⟩ := hwait
    rw [hut, hp] at hu
    exact hu
  · rcases hrest u hut with hfin | ⟨d', op, hp, _⟩
    · rw [hfin] at hu
      exact hu
    · rw [hp] at hu
      exact hu

end HeardSteps

section Losing

variable [DecidableEq T]

theorem ReachableQueue.event (h : ReachableQueue c side s) (e : Event T α)
    (he : Enabled c side s e) : ReachableQueue c side (next c s e) :=
  Reachable.next h ⟨he, rfl⟩

@[simp] theorem setPc_self (pc : Pc α) : (s.setPc t pc).pc t = pc := by
  simp [State.setPc]

theorem setPc_of_ne (pc : Pc α) (h : u ≠ t) : (s.setPc t pc).pc u = s.pc u := by
  simp [State.setPc, h]

theorem ReachableQueue.tests (h : ReachableQueue c side s) (ht : s.pc t = .outside)
    (ho : s.owner = none) (hside : op.side = side t) :
    ReachableQueue c side { s.setPc t (.inCall .test op) with owner := some t } := by
  have hcall : ReachableQueue c side (s.setPc t (.inCall .lock op)) :=
    h.event (.call t op) ⟨ht, hside⟩
  have hlock : ReachableQueue c side { s.setPc t (locked op) with owner := some t } := by
    simpa [next, State.setPc] using hcall.event (.lock t op) ⟨setPc_self _, ho⟩
  cases op with
  | push url =>
    have hpass := hlock.event (.guard t url true) ⟨setPc_self _, .inl rfl⟩
    simpa [next, State.setPc] using hpass
  | pop => exact hlock

theorem ReachableQueue.waits (h : ReachableQueue c side s) (ht : s.pc t = .outside)
    (ho : s.owner = none) (hside : op.side = side t) (hfull : blocked c s.queue op.side = true) :
    ReachableQueue c side (s.setPc t (.inCall .wait op)) := by
  have htest := (h.tests ht ho hside).event (.test t op) (setPc_self _)
  simp only [next, State.setPc, hfull, if_true, Function.update_idem] at htest
  simpa [State.setPc, ho] using htest

theorem ReachableQueue.goes_on (h : ReachableQueue c side s) (ht : s.pc t = .inCall .test op)
    (hroom : blocked c s.queue op.side = false) :
    ReachableQueue c side (s.setPc t (.inCall .act op)) := by
  have htest := h.event (.test t op) ht
  simpa only [next, hroom, Bool.false_eq_true, if_false] using htest

theorem ReachableQueue.leaves (h : ReachableQueue c side s) (ht : s.pc t = .inCall .act op)
    (hquiet : signals c (op.apply s.queue) op.side = true → ∀ w, ¬ Waits s op.side.other w) :
    ReachableQueue c side
      { s.setPc t .outside with queue := op.apply s.queue, owner := none } := by
  have hact := h.event (.act t op) ht
  simp only [next] at hact
  split at hact
  · rename_i hs
    have hsig := hact.event (.signal t op none) ⟨setPc_self _, ?_⟩
    · have hout := hsig.event (.unlock t op) (setPc_self _)
      simpa [next, State.setPc] using hout
    · rintro w ⟨op', hw, hop'⟩
      have hne : w ≠ t := by
        rintro rfl
        rw [setPc_self] at hw
        cases hw
      exact hquiet hs w ⟨op', (setPc_of_ne _ hne).symm.trans hw, hop'⟩
  · have hout := hact.event (.unlock t op) (setPc_self _)
    simpa [next, State.setPc] using hout

theorem ReachableQueue.leaves_waking (h : ReachableQueue c side s)
    (ht : s.pc t = .inCall .act op) (hs : signals c (op.apply s.queue) op.side = true)
    {w : T} {op' : Op α} (hne : w ≠ t) (hw : s.pc w = .inCall .wait op')
    (hother : op'.side = op.side.other) :
    ReachableQueue c side { (s.setPc t .outside).setPc w (.inCall .woken op') with
      queue := op.apply s.queue, owner := none } := by
  have hact := h.event (.act t op) ht
  simp only [next, hs, if_true] at hact
  have hsig := hact.event (.signal t op (some (w, op')))
    ⟨setPc_self _, (setPc_of_ne _ hne).trans hw, hother⟩
  have hout := hsig.event (.unlock t op) (setPc_self _)
  simpa [next, State.setPc, Function.update_comm hne] using hout

theorem ReachableQueue.calls (h : ReachableQueue c side s) (ht : s.pc t = .outside)
    (ho : s.owner = none) (hside : op.side = side t) (hroom : blocked c s.queue op.side = false)
    (hquiet : signals c (op.apply s.queue) op.side = true → ∀ w, ¬ Waits s op.side.other w) :
    ReachableQueue c side { s with queue := op.apply s.queue } := by
  have hgoes := (h.tests ht ho hside).goes_on (setPc_self _) hroom
  have hleaves := hgoes.leaves (setPc_self _) fun hs w hw => hquiet hs w ?_
  · simpa [State.setPc, ← ht, ← ho] using hleaves
  · obtain ⟨op', hw, hop'⟩ := hw
    have hne : w ≠ t := by
      rintro rfl
      rw [setPc_self] at hw
      cases hw
    refine ⟨op', ?_, hop'⟩
    rw [← hw, setPc_of_ne _ hne]
    exact (setPc_of_ne _ hne).symm

theorem ReachableQueue.calls_waking (h : ReachableQueue c side s) (ht : s.pc t = .outside)
    (ho : s.owner = none) (hside : op.side = side t) (hroom : blocked c s.queue op.side = false)
    (hs : signals c (op.apply s.queue) op.side = true) {w : T} {op' : Op α} (hne : w ≠ t)
    (hw : s.pc w = .inCall .wait op') (hother : op'.side = op.side.other) :
    ReachableQueue c side
      { s.setPc w (.inCall .woken op') with queue := op.apply s.queue } := by
  have hgoes := (h.tests ht ho hside).goes_on (setPc_self _) hroom
  have hleaves := hgoes.leaves_waking (setPc_self _) hs hne
    (by simpa [State.setPc, hne] using hw) hother
  simpa [State.setPc, ← ht, ← ho] using hleaves

theorem ReachableQueue.resumes (h : ReachableQueue c side s) (ht : s.pc t = .inCall .woken op)
    (ho : s.owner = none) (hroom : blocked c s.queue op.side = false)
    (hquiet : ∀ w, ¬ Waits s op.side.other w) :
    ReachableQueue c side { s.setPc t .outside with queue := op.apply s.queue } := by
  have htest := h.event (.relock t op) ⟨ht, ho⟩
  have hleaves := (htest.goes_on (setPc_self _) hroom).leaves (setPc_self _) ?_
  · simpa [next, State.setPc, ← ho] using hleaves
  · rintro - w ⟨op', hw, hop'⟩
    by_cases hne : w = t
    · rw [hne, setPc_self] at hw
      cases hw
    · rw [setPc_of_ne _ hne] at hw
      exact hquiet w ⟨op', (setPc_of_ne _ hne).symm.trans hw, hop'⟩

theorem ReachableQueue.all_finish (h : ReachableQueue c side s) (ts : Finset T)
    (hts : ∀ t ∈ ts, s.pc t = .outside) :
    ReachableQueue c side { s with pc := fun t => if t ∈ ts then .finished else s.pc t } := by
  induction ts using Finset.induction_on with
  | empty => simpa using h
  | insert t ts hnew ih =>
    have hrest := ih fun u hu => hts u (Finset.mem_insert_of_mem hu)
    have ht := hts t (Finset.mem_insert_self t ts)
    have hdone := hrest.event (.finish t) (by simpa [Enabled, hnew] using ht)
    convert hdone using 1
    simp only [next, State.setPc, State.mk.injEq, true_and]
    funext u
    by_cases hu : u = t <;> simp [hu]

theorem loses_of_left_over [Finite T] (h : ReachableQueue c side s) (hu : Waits s d u)
    (hroom : blocked c s.queue d = false) (hrest : ∀ t, t ≠ u → s.pc t = .outside) :
    ∃ s' : State T α, ReachableQueue c side s' ∧ LostWakeup c s' d := by
  have := Fintype.ofFinite T
  have hdone := h.all_finish (Finset.univ.erase u) fun t ht => hrest t (Finset.ne_of_mem_erase ht)
  refine ⟨_, hdone, u, ?_, hroom, ?_⟩
  · obtain ⟨op, hp, hop⟩ := hu
    exact ⟨op, by simpa using hp, hop⟩
  · intro t ht
    exact .inl (by simp [ht])

/-- Two threads wait on side `d`, one thread of the other side makes room twice and signals
once, and the thread it woke leaves room behind. -/
theorem loses_of_two_waiters [Finite T] (op op' : Op α)
    (h : ReachableQueue c side (⟨q, none, fun _ => .outside⟩ : State T α))
    {v : T} (htu : t ≠ u) (ht : op.side = side t) (hu : op.side = side u)
    (hv : op'.side = side v) (hother : op'.side = op.side.other)
    (hfull : blocked c q op.side = true) (hfree : blocked c q op'.side = false)
    (hfree' : blocked c (op'.apply q) op'.side = false)
    (hs : signals c (op'.apply q) op'.side = true)
    (hs' : signals c (op'.apply (op'.apply q)) op'.side = false)
    (hroom : blocked c (op'.apply (op'.apply q)) op.side = false)
    (hleft : blocked c (op.apply (op'.apply (op'.apply q))) op.side = false) :
    ∃ s' : State T α, ReachableQueue c side s' ∧ LostWakeup c s' op.side := by
  have hvs : ∀ x, op.side = side x → x ≠ v := by
    rintro x hx rfl
    rw [← hx, hother] at hv
    exact other_ne hv
  have hvt := hvs t ht
  have hvu := hvs u hu
  have hback : op.side = op'.side.other := by
    rw [hother, other_other]
  have hwait := (h.waits rfl rfl ht hfull).waits (by simp [State.setPc, htu.symm]) rfl hu hfull
  have hfirst := hwait.calls_waking (by simp [State.setPc, hvt.symm, hvu.symm]) rfl hv hfree hs
    hvt (by simp [State.setPc, htu]) hback
  have hsecond := hfirst.calls (by simp [State.setPc, hvt.symm, hvu.symm]) rfl hv hfree'
    fun hn => by cases hs'.symm.trans hn
  have hthird := hsecond.resumes (setPc_self _) rfl hroom ?_
  · refine loses_of_left_over (u := u) hthird ⟨op, ?_, rfl⟩ hleft ?_
    · simp [State.setPc, htu.symm]
    · intro x hx
      by_cases hxt : x = t <;> simp [State.setPc, hx, hxt]
  · rintro w ⟨op₂, hw, hop₂⟩
    by_cases hwt : w = t
    · simp [State.setPc, hwt] at hw
    · by_cases hwu : w = u
      · simp only [State.setPc, Function.update_of_ne hwt] at hw
        subst hwu
        simp only [Function.update_self, Pc.inCall.injEq, true_and] at hw
        rw [← hw] at hop₂
        exact other_ne hop₂.symm
      · simp [State.setPc, hwt, hwu] at hw

theorem fills (hmax : 1 ≤ c.max) (url : α) (ht : side t = .push) (n : ℕ) (hn : n ≤ c.max) :
    ReachableQueue c side (⟨List.replicate n url, none, fun _ => .outside⟩ : State T α) := by
  induction n with
  | zero => exact .start rfl
  | succ n ih =>
    have hbefore := ih (by omega)
    have hroom : blocked c (List.replicate n url) .push = false := by
      rw [← Bool.not_eq_true, blocked_push hmax, List.length_replicate]
      omega
    have hcall := hbefore.calls rfl rfl (show Op.side (.push url) = side t from ht.symm) hroom ?_
    · simpa [Op.apply, ← List.replicate_succ'] using hcall
    · rintro - w ⟨_, hw, _⟩
      cases hw

theorem loses_of_shared [Finite T] [Nonempty α] (hmax : 2 ≤ c.max) (hd : ¬ Alone side d) :
    ∃ s : State T α, ReachableQueue c side s ∧ LostWakeup c s d := by
  obtain ⟨url⟩ := ‹Nonempty α›
  simp only [Alone, not_or, not_forall, not_not] at hd
  obtain ⟨⟨t, u, ht, hu, htu⟩, v, hv⟩ := hd
  have hone : 1 ≤ c.max := by omega
  cases d with
  | push =>
    obtain ⟨n, hn⟩ := Int.eq_ofNat_of_zero_le (show 0 ≤ c.max - 2 by omega)
    have hcap : c.max = n + 2 := by omega
    have hpush : ∀ q : List α, blocked c q .push = false ↔ q.length < n + 2 := by
      intro q
      rw [← Bool.not_eq_true, blocked_push hone]
      omega
    have hsig : ∀ q : List α, signals c q .pop = true ↔ q.length = n + 1 := by
      intro q
      rw [signals_pop hone]
      omega
    refine loses_of_two_waiters (.push url) .pop (q := List.replicate (n + 2) url)
      (fills hone url ht (n + 2) (by omega)) htu ht.symm hu.symm
      (show Op.side .pop = side v from hv.symm) rfl ?_ ?_ ?_ ?_ ?_ ?_ ?_
    · exact (blocked_push hone).mpr (by simp [hcap])
    · simp [blocked, Op.side]
    · simp [blocked, Op.side, Op.apply]
    · exact (hsig _).mpr (by simp [Op.apply])
    · exact Bool.eq_false_of_not_eq_true (mt (hsig _).mp (by simp [Op.apply]))
    · exact (hpush _).mpr (by simp [Op.apply])
    · exact (hpush _).mpr (by simp [Op.apply])
  | pop =>
    have hpush : ∀ q : List α, q.length ≤ 1 → blocked c q .push = false := by
      intro q hq
      rw [← Bool.not_eq_true, blocked_push hone]
      omega
    refine loses_of_two_waiters .pop (.push url) (q := []) (.start rfl) htu ht.symm hu.symm
      (show Op.side (.push url) = side v from hv.symm) rfl rfl ?_ ?_ rfl rfl rfl rfl
    · exact hpush _ (by simp)
    · exact hpush _ (by simp [Op.apply])

/-- No wake-up is ever lost exactly on a queue of capacity 1, and where on neither side
two threads share what a thread of the other side signals. -/
theorem no_lost_wakeup_iff [Finite T] [Nonempty α] (hmax : 1 ≤ c.max) :
    (∀ s : State T α, ReachableQueue c side s → ∀ d, ¬ LostWakeup c s d) ↔
      c.max = 1 ∨ ∀ d, Alone side d := by
  constructor
  · intro h
    by_contra hn
    obtain ⟨hone, hd⟩ := not_or.mp hn
    obtain ⟨d, hd⟩ := not_forall.mp hd
    obtain ⟨s, hs, hlost⟩ : ∃ s : State T α, _ :=
      loses_of_shared (show 2 ≤ c.max by omega) hd
    exact h s hs d hlost
  · intro h s hs d
    apply no_lost_wakeup hmax _ hs
    exact h.imp id fun h => h d

def oneEach : Fin 2 → Side
  | 0 => .push
  | 1 => .pop

/-- The DNS queue, with the DNS thread on one side and the sender on the other. -/
theorem one_each_loses_none : ¬ ∃ (s : State (Fin 2) String) (d : Side),
    ReachableQueue (dnsConfig 8192 (by decide)) oneEach s ∧
      LostWakeup (dnsConfig 8192 (by decide)) s d := by
  have halone : ∀ d, Alone oneEach d := by
    refine fun d => .inl ?_
    cases d <;> decide
  rintro ⟨s, d, hs, hlost⟩
  exact (no_lost_wakeup_iff (by decide)).mpr (.inr halone) s hs d hlost

def twoReceivers : Fin 3 → Side
  | 0 | 1 => .push
  | 2 => .pop

/-- Two receivers and the DNS thread on a raw queue of capacity 2. -/
theorem second_receiver_sleeps_on :
    ¬ ∀ s : State (Fin 3) String, ReachableQueue (rawConfig 2 (by decide)) twoReceivers s →
      ∀ d, ¬ LostWakeup (rawConfig 2 (by decide)) s d := by
  intro h
  have hshared : ¬ Alone twoReceivers .push := by
    rintro (hone | hnone)
    · exact absurd (hone 0 1 rfl rfl) (by decide)
    · exact hnone 2 rfl
  obtain ⟨s, hs, hlost⟩ : ∃ s : State (Fin 3) String, _ :=
    loses_of_shared (c := rawConfig 2 (by decide)) (by decide) hshared
  exact h s hs .push hlost

end Losing

end CrawlUrlQueues
