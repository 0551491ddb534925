import MyGitCode.CrawlQueueCalls

/-! # The two URL queues and their threads

A thread makes one call at a time, on the raw queue or on the DNS queue. Nothing calls
`clearDnsUrl`. -/
namespace CrawlQueueLocks

open TransitionRuns MonitorLock
open CrawlUrlQueues (Config rawConfig dnsConfig)
open CrawlQueueCalls (Call Pc pushed popped gone Locked run_locked run_pops run_content)

structure Limits where
  maxRawUrls : ℤ
  maxDnsUrls : ℤ
  rawRange : maxRawUrls < 2 ^ 31
  dnsRange : maxDnsUrls < 2 ^ 31

def Limits.raw (l : Limits) : Config := rawConfig l.maxRawUrls l.rawRange

def Limits.dns (l : Limits) : Config := dnsConfig l.maxDnsUrls l.dnsRange

structure State (T R D : Type*) where
  raw : CrawlQueueCalls.State T R
  dns : CrawlQueueCalls.State T D

variable {T R D : Type*}

def initialState : State T R D := ⟨CrawlQueueCalls.initialState, CrawlQueueCalls.initialState⟩

inductive Event (T R D : Type*) where
  | raw (e : CrawlQueueCalls.Event T R)
  | dns (e : CrawlQueueCalls.Event T D)

def Event.thread : Event T R D → T
  | .raw e => e.thread
  | .dns e => e.thread

variable [DecidableEq T]

inductive Step (l : Limits) (s : State T R D) : Event T R D → State T R D → Prop where
  | raw {e raw} (h : CrawlQueueCalls.Step l.raw s.raw e raw)
      (hone : ∀ t call, e = .call t call → s.dns.pc t = .outside) :
      Step l s (.raw e) { s with raw := raw }
  | dns {e dns} (h : CrawlQueueCalls.Step l.dns s.dns e dns)
      (hone : ∀ t call, e = .call t call → s.raw.pc t = .outside ∧ call ≠ .clear) :
      Step l s (.dns e) { s with dns := dns }

def rawSteps : List (Taken (State T R D) (Event T R D)) →
    List (Taken (CrawlQueueCalls.State T R) (CrawlQueueCalls.Event T R))
  | [] => []
  | ⟨s, .raw e, t⟩ :: ts => ⟨s.raw, e, t.raw⟩ :: rawSteps ts
  | ⟨_, .dns _, _⟩ :: ts => rawSteps ts

def dnsSteps : List (Taken (State T R D) (Event T R D)) →
    List (Taken (CrawlQueueCalls.State T D) (CrawlQueueCalls.Event T D))
  | [] => []
  | ⟨s, .dns e, t⟩ :: ts => ⟨s.dns, e, t.dns⟩ :: dnsSteps ts
  | ⟨_, .raw _, _⟩ :: ts => dnsSteps ts

variable {l : Limits} {s s' : State T R D} {e : Event T R D}
  {ts : List (Taken (State T R D) (Event T R D))}

omit [DecidableEq T] in
theorem rawSteps_append (us : List (Taken (State T R D) (Event T R D))) :
    rawSteps (ts ++ us) = rawSteps ts ++ rawSteps us := by
  induction ts with
  | nil => rfl
  | cons x ts ih =>
    obtain ⟨s, e, t⟩ := x
    cases e <;> simp [rawSteps, ih]

omit [DecidableEq T] in
theorem dnsSteps_append (us : List (Taken (State T R D) (Event T R D))) :
    dnsSteps (ts ++ us) = dnsSteps ts ++ dnsSteps us := by
  induction ts with
  | nil => rfl
  | cons x ts ih =>
    obtain ⟨s, e, t⟩ := x
    cases e <;> simp [dnsSteps, ih]

/-- Each queue sees a run of its own. -/
theorem run_raw (h : Run (· = initialState) (Step l) ts s) :
    Run (· = CrawlQueueCalls.initialState) (CrawlQueueCalls.Step l.raw) (rawSteps ts) s.raw := by
  induction h with
  | start hs =>
    subst hs
    exact .start rfl
  | snoc _ hs ih =>
    rw [rawSteps_append]
    cases hs with
    | raw he => exact ih.snoc he
    | dns => simpa [rawSteps] using ih

theorem run_dns (h : Run (· = initialState) (Step l) ts s) :
    Run (· = CrawlQueueCalls.initialState) (CrawlQueueCalls.Step l.dns) (dnsSteps ts) s.dns := by
  induction h with
  | start hs =>
    subst hs
    exact .start rfl
  | snoc _ hs ih =>
    rw [dnsSteps_append]
    cases hs with
    | raw => simpa [dnsSteps] using ih
    | dns he => exact ih.snoc he

theorem Step.locked (hraw : Locked l.raw s.raw) (hdns : Locked l.dns s.dns) (hs : Step l s e s') :
    Locked l.raw s'.raw ∧ Locked l.dns s'.dns := by
  cases hs with
  | raw he => exact ⟨hraw.step he, hdns⟩
  | dns he => exact ⟨hraw, hdns.step he⟩

theorem Step.others (hs : Step l s e s') {u : T} (hne : u ≠ e.thread) :
    ((s'.raw.pc u).holds = (s.raw.pc u).holds ∧ (s'.dns.pc u).holds = (s.dns.pc u).holds) ∧
    ((s.raw.pc u = .outside → s'.raw.pc u = .outside) ∧
      (s.dns.pc u = .outside → s'.dns.pc u = .outside)) := by
  cases hs with
  | raw he =>
    refine ⟨⟨he.holds_of_ne hne, rfl⟩, fun hout => ?_, id⟩
    rw [he.pc_of_ne hne (by simp [hout]), hout]
  | dns he =>
    refine ⟨⟨rfl, he.holds_of_ne hne⟩, id, fun hout => ?_⟩
    rw [he.pc_of_ne hne (by simp [hout]), hout]

def Uncleared (s : State T R D) : Prop :=
  ∀ t stage call, s.dns.pc t = .inCall stage call → call ≠ .clear

theorem Uncleared.step (h : Uncleared s) (hs : Step l s e s') : Uncleared s' := by
  cases hs with
  | raw => exact h
  | dns he hone =>
    intro t stage call hp
    rcases he.same_call hp with ⟨stage', hold⟩ | rfl
    · exact h t stage' call hold
    · exact (hone t call rfl).2

theorem run_uncleared (h : Run (· = initialState) (Step l) ts s) : Uncleared s := by
  refine h.invariant ?_ fun _ _ _ hi hs => hi.step hs
  rintro _ rfl t stage call hp
  cases hp

theorem gone_dns (h : Run (· = initialState) (Step l) ts s) :
    (gone (dnsSteps ts)).filter Prod.snd = gone (dnsSteps ts) := by
  induction h with
  | start => rfl
  | @snoc ts s e s' hr hs ih =>
    have hgone : gone (dnsSteps ts ++ dnsSteps [⟨s, e, s'⟩]) =
        gone (dnsSteps ts) ++ gone (dnsSteps [⟨s, e, s'⟩]) := List.flatMap_append
    rw [dnsSteps_append, hgone, List.filter_append, ih]
    congr 1
    cases hs with
    | raw => rfl
    | @dns e dns he hone =>
      cases e with
      | act t call =>
        cases call with
        | clear => exact absurd rfl (run_uncleared hr t .act .clear he.1)
        | pop => cases hq : s.dns.object <;> simp [dnsSteps, gone, hq]
        | push | size | empty | full => rfl
      | _ => rfl

/-- Neither queue grows over its limit, no pop finds one empty, and what was pushed leaves
them in order: the DNS queue by pops, the raw queue by pops and by clearing. -/
theorem queue_safety (h : Run (· = initialState) (Step l) ts s) :
    ((0 ≤ l.maxRawUrls → (s.raw.object.length : ℤ) ≤ l.maxRawUrls) ∧
      (0 ≤ l.maxDnsUrls → (s.dns.object.length : ℤ) ≤ l.maxDnsUrls)) ∧
    ((∀ x ∈ rawSteps ts, ∀ t, x.event = .act t .pop → x.before.object ≠ []) ∧
      ∀ x ∈ dnsSteps ts, ∀ t, x.event = .act t .pop → x.before.object ≠ []) ∧
    popped l.dns (dnsSteps ts) ++ s.dns.object = pushed (dnsSteps ts) ∧
    (gone (rawSteps ts)).map Prod.fst ++ s.raw.object = pushed (rawSteps ts) ∧
    popped l.raw (rawSteps ts) = ((gone (rawSteps ts)).filter Prod.snd).map Prod.fst := by
  have hraw := run_raw h
  have hdns := run_dns h
  refine ⟨⟨(run_locked hraw).bound, (run_locked hdns).bound⟩, ⟨run_pops hraw, run_pops hdns⟩, ?_,
    run_content hraw, CrawlQueueCalls.popped_eq_gone⟩
  rw [CrawlQueueCalls.popped_eq_gone, gone_dns h]
  exact run_content hdns

theorem run_dns_step (h : Run (· = initialState) (Step l) ts s)
    {e : CrawlQueueCalls.Event T D} (he : CrawlQueueCalls.Enabled l.dns s.dns e)
    (hone : ∀ t call, e = .call t call → s.raw.pc t = .outside ∧ call ≠ .clear) :
    Run (· = initialState) (Step l)
      (ts ++ [⟨s, .dns e, { s with dns := CrawlQueueCalls.next l.dns s.dns e }⟩])
      { s with dns := CrawlQueueCalls.next l.dns s.dns e } :=
  h.snoc (.dns ⟨he, rfl⟩ hone)

def oneEach : Limits := ⟨1, 1, by decide, by decide⟩

theorem queue_safety_woken_pop : ∃ (ts : _) (s : State ℕ ℕ ℕ),
    Run (· = initialState) (Step oneEach) ts s ∧ popped oneEach.dns (dnsSteps ts) = [7] ∧
    popped oneEach.dns (dnsSteps ts) ++ s.dns.object = pushed (dnsSteps ts) := by
  have hrun : Run (· = initialState) (Step oneEach) [] (initialState : State ℕ ℕ ℕ) := .start rfl
  have hwait := run_dns_step (run_dns_step (run_dns_step hrun
    (e := .call 1 .pop) rfl (by rintro _ _ ⟨⟩; exact ⟨rfl, nofun⟩))
    (e := .lock 1 .pop) ⟨rfl, rfl⟩ nofun) (e := .test 1 .pop) rfl nofun
  have hpush := run_dns_step (run_dns_step (run_dns_step (run_dns_step hwait
    (e := .call 0 (.push 7)) rfl (by rintro _ _ ⟨⟩; exact ⟨rfl, nofun⟩))
    (e := .lock 0 (.push 7)) ⟨rfl, rfl⟩ nofun) (e := .guard 0 7 true) ⟨rfl, .inl rfl⟩ nofun)
    (e := .test 0 (.push 7)) rfl nofun
  have hwake := run_dns_step (run_dns_step (run_dns_step hpush
    (e := .act 0 (.push 7)) rfl nofun)
    (e := .signal 0 (.push 7) (some (1, .pop))) ⟨rfl, rfl, rfl⟩ nofun)
    (e := .unlock 0 (.push 7)) rfl nofun
  have hpop := run_dns_step (run_dns_step (run_dns_step hwake
    (e := .relock 1 .pop) ⟨rfl, rfl⟩ nofun) (e := .test 1 .pop) rfl nofun)
    (e := .act 1 .pop) rfl nofun
  exact ⟨_, _, hpop, rfl, (queue_safety hpop).2.2.1⟩

end CrawlQueueLocks
