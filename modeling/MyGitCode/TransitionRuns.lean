import Mathlib.Data.List.Basic
import Mathlib.Tactic.TypeStar

/-! # Runs of a labelled transition relation

A run keeps every step it took, with the states on both sides of it, so that a
statement about all states of a run and one about all its events can be compared. -/
namespace TransitionRuns

variable {σ ε : Type*}

structure Taken (σ ε : Type*) where
  before : σ
  event : ε
  after : σ

inductive Run (init : σ → Prop) (step : σ → ε → σ → Prop) : List (Taken σ ε) → σ → Prop where
  | start {s} : init s → Run init step [] s
  | snoc {ts s e t} : Run init step ts s → step s e t → Run init step (ts ++ [⟨s, e, t⟩]) t

def Reachable (init : σ → Prop) (step : σ → ε → σ → Prop) (s : σ) : Prop :=
  ∃ ts, Run init step ts s

variable {init : σ → Prop} {step : σ → ε → σ → Prop} {s t : σ} {e : ε} {ts : List (Taken σ ε)}

theorem Reachable.start (h : init s) : Reachable init step s := ⟨[], .start h⟩

theorem Reachable.next (h : Reachable init step s) (he : step s e t) :
    Reachable init step t := by
  obtain ⟨ts, hr⟩ := h
  exact ⟨_, hr.snoc he⟩

theorem Run.reachable (h : Run init step ts s) : Reachable init step s := ⟨ts, h⟩

theorem Run.first (h : Run init step ts s) :
    (ts = [] → init s) ∧ ∀ x ∈ ts.head?, init x.before := by
  induction h with
  | start hs => exact ⟨fun _ => hs, nofun⟩
  | @snoc ts _ _ _ _ _ ih =>
    refine ⟨by simp, ?_⟩
    cases ts with
    | nil => simpa using ih.1
    | cons y ts => exact ih.2

theorem Run.steps (h : Run init step ts s) : ∀ x ∈ ts, step x.before x.event x.after := by
  induction h with
  | start => nofun
  | snoc _ he ih =>
    intro x hx
    rcases List.mem_append.mp hx with hx | hx
    · exact ih x hx
    · obtain rfl := List.mem_singleton.mp hx
      exact he

theorem Run.invariant {I : σ → Prop} (h₀ : ∀ s, init s → I s)
    (hstep : ∀ s e t, I s → step s e t → I t) (h : Run init step ts s) : I s := by
  induction h with
  | start hi => exact h₀ _ hi
  | snoc _ he ih => exact hstep _ _ _ ih he

theorem Reachable.invariant {I : σ → Prop} (h₀ : ∀ s, init s → I s)
    (hstep : ∀ s e t, I s → step s e t → I t) (h : Reachable init step s) : I s := by
  obtain ⟨ts, hr⟩ := h
  exact hr.invariant h₀ hstep

/-- An invariant that survives the steps meeting `C` holds at the end of every run
all of whose steps meet it. -/
theorem Run.guarded {C : σ → ε → Prop} {I : σ → Prop} (h₀ : ∀ s, init s → I s)
    (hstep : ∀ s e t, I s → C s e → step s e t → I t) (h : Run init step ts s)
    (hC : ∀ x ∈ ts, C x.before x.event) : I s := by
  induction h with
  | start hi => exact h₀ _ hi
  | snoc _ he ih =>
    refine hstep _ _ _ (ih fun x hx => hC x (List.mem_append_left _ hx)) ?_ he
    exact hC _ (List.mem_append_right _ (List.mem_singleton.mpr rfl))

/-- Where every step from a sound state that meets `C` has the property, all steps of a
run whose steps meet it have it. -/
theorem Run.all_steps {C : σ → ε → Prop} {I : σ → Prop} {Q : σ → ε → σ → Prop}
    (h₀ : ∀ s, init s → I s) (good : ∀ s e t, I s → C s e → step s e t → I t ∧ Q s e t)
    (h : Run init step ts s) (hC : ∀ x ∈ ts, C x.before x.event) :
    ∀ x ∈ ts, Q x.before x.event x.after := by
  induction h with
  | start => simp
  | snoc hr he ih =>
    simp only [List.mem_append, List.mem_singleton, or_imp, forall_and, forall_eq] at hC ⊢
    refine ⟨ih hC.1, (good _ _ _ ?_ hC.2 he).2⟩
    exact hr.guarded h₀ (fun s e t hs hc he => (good s e t hs hc he).1) hC.1

/-- Where a step from a sound state has the property exactly when it meets `C`, all
steps of a run have the property exactly when all of them meet `C`. -/
theorem Run.all_iff {C : σ → ε → Prop} {I : σ → Prop} {Q : σ → ε → σ → Prop}
    (h₀ : ∀ s, init s → I s)
    (good : ∀ s e t, I s → C s e → step s e t → I t ∧ Q s e t)
    (bad : ∀ s e t, I s → ¬ C s e → step s e t → ¬ Q s e t) (h : Run init step ts s) :
    (∀ x ∈ ts, Q x.before x.event x.after) ↔ ∀ x ∈ ts, C x.before x.event := by
  constructor
  · intro hQ
    induction h with
    | start => simp
    | snoc hr he ih =>
      simp only [List.mem_append, List.mem_singleton, or_imp, forall_and, forall_eq] at hQ ⊢
      have hc := ih hQ.1
      refine ⟨hc, ?_⟩
      by_contra hn
      refine bad _ _ _ ?_ hn he hQ.2
      exact hr.guarded h₀ (fun s e t hs hc he => (good s e t hs hc he).1) hc
  · exact h.all_steps h₀ good

variable {next : σ → ε → Option σ}

/-- The relation of a step function that gives no state where the step cannot be taken. -/
def Steps (next : σ → ε → Option σ) (s : σ) (e : ε) (t : σ) : Prop := next s e = some t

def runTrace (next : σ → ε → Option σ) (s : σ) : List ε → Option σ
  | [] => some s
  | e :: es => (next s e).bind fun t => runTrace next t es

theorem runTrace_append {es fs : List ε} (h : runTrace next s es = some t) :
    runTrace next s (es ++ fs) = runTrace next t fs := by
  induction es generalizing s with
  | nil =>
    obtain rfl : s = t := by simpa [runTrace] using h
    rfl
  | cons e es ih =>
    obtain ⟨u, hu, hrest⟩ := Option.bind_eq_some_iff.mp h
    simp only [List.cons_append, runTrace, hu, Option.bind_some]
    exact ih hrest

/-- A trace of a step function goes on from a run of every relation that contains its steps. -/
theorem runTrace_run {es : List ε} {ts : List (Taken σ ε)}
    (hstep : ∀ s, ∀ e ∈ es, ∀ t, next s e = some t → step s e t) (h : Run init step ts s)
    (ht : runTrace next s es = some t) :
    ∃ us, Run init step (ts ++ us) t ∧ us.map Taken.event = es := by
  induction es generalizing s ts with
  | nil =>
    obtain rfl : s = t := by simpa [runTrace] using ht
    exact ⟨[], by simpa using h, rfl⟩
  | cons e es ih =>
    obtain ⟨u, hu, ht⟩ := Option.bind_eq_some_iff.mp ht
    obtain ⟨us, hrun, hevents⟩ := ih (fun s e he => hstep s e (List.mem_cons_of_mem _ he))
      (h.snoc (hstep s e List.mem_cons_self u hu)) ht
    rw [List.append_assoc] at hrun
    exact ⟨_, hrun, by simp [hevents]⟩

/-- The steps of a trace, up to the first that cannot be taken. -/
def takenSteps (next : σ → ε → Option σ) (s : σ) : List ε → List (Taken σ ε)
  | [] => []
  | e :: es =>
    match next s e with
    | some t => ⟨s, e, t⟩ :: takenSteps next t es
    | none => []

theorem takenSteps_run {es : List ε} {ts : List (Taken σ ε)} (h : Run init (Steps next) ts s)
    (ht : runTrace next s es = some t) :
    Run init (Steps next) (ts ++ takenSteps next s es) t := by
  induction es generalizing s ts with
  | nil =>
    obtain rfl : s = t := by simpa [runTrace] using ht
    simpa [takenSteps] using h
  | cons e es ih =>
    obtain ⟨u, hu, ht⟩ := Option.bind_eq_some_iff.mp ht
    have hrun := ih (h.snoc (e := e) hu) ht
    simpa [takenSteps, hu] using hrun

end TransitionRuns
