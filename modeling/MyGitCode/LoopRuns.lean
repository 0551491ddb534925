import Mathlib.Data.Nat.Init
import Mathlib.Data.Nat.Notation
import Mathlib.Tactic.TypeStar

/-! # Loops as partial step functions

A loop takes a state to the next one, or to none where it has ended. -/
namespace LoopRuns

variable {σ : Type*}

inductive Ends (step : σ → Option σ) : σ → σ → Prop where
  | stop {s} : step s = none → Ends step s s
  | next {s t u} : step s = some t → Ends step t u → Ends step s u

inductive Reaches (step : σ → Option σ) : σ → σ → Prop where
  | refl {s} : Reaches step s s
  | snoc {s t u} : Reaches step s t → step t = some u → Reaches step s u

variable {step : σ → Option σ} {s t u : σ}

theorem Reaches.invariant {I : σ → Prop} (hstep : ∀ s t, I s → step s = some t → I t)
    (h : Reaches step s t) (hs : I s) : I t := by
  induction h with
  | refl => exact hs
  | snoc _ hn ih => exact hstep _ _ ih hn

theorem Reaches.cons (hn : step s = some t) (h : Reaches step t u) : Reaches step s u := by
  induction h with
  | refl => exact .snoc .refl hn
  | snoc _ hm ih => exact .snoc ih hm

theorem Ends.stopped (h : Ends step s t) : step t = none := by
  induction h with
  | stop hs => exact hs
  | next _ _ ih => exact ih

theorem Ends.unique (h : Ends step s t) (h' : Ends step s u) : t = u := by
  induction h with
  | stop hs =>
    cases h' with
    | stop => rfl
    | next hn _ => exact absurd (hs.symm.trans hn) nofun
  | next hs _ ih =>
    cases h' with
    | stop hn => exact absurd (hn.symm.trans hs) nofun
    | next hn hrest =>
      obtain rfl := Option.some_inj.mp (hs.symm.trans hn)
      exact ih hrest

theorem Ends.reaches (h : Ends step s t) : Reaches step s t := by
  induction h with
  | stop => exact .refl
  | next hn _ ih => exact .cons hn ih

theorem Ends.invariant {I : σ → Prop} (hstep : ∀ s t, I s → step s = some t → I t)
    (h : Ends step s t) (hs : I s) : I t :=
  h.reaches.invariant hstep hs

theorem exists_ends {I : σ → Prop} (variant : σ → ℕ)
    (hstep : ∀ s t, I s → step s = some t → I t ∧ variant t < variant s) (hs : I s) :
    ∃ t, Ends step s t := by
  induction hv : variant s using Nat.strongRecOn generalizing s with
  | ind v ih =>
    cases hn : step s with
    | none => exact ⟨s, .stop hn⟩
    | some t =>
      obtain ⟨ht, hlt⟩ := hstep s t hs hn
      obtain ⟨u, hu⟩ := ih (variant t) (hv ▸ hlt) ht rfl
      exact ⟨u, .next hn hu⟩

end LoopRuns
