import Mathlib.Logic.Function.Basic

/-! # An object behind one mutex

Threads stand at program points, some of which hold the mutex. The object changes only where
its thread holds it. -/
namespace MonitorLock

structure State (T P σ : Type*) where
  object : σ
  owner : Option T
  pc : T → P

variable {T P σ : Type*}

def Exclusive (holds : P → Bool) (s : State T P σ) : Prop :=
  ∀ t, s.owner = some t ↔ holds (s.pc t) = true

def Settled (I : P → σ → Prop) (s : State T P σ) : Prop := ∀ t, I (s.pc t) s.object

variable [DecidableEq T]

inductive Move (holds : P → Bool) (t : T) (s : State T P σ) : State T P σ → Prop where
  | stay {p} (hp : holds p = holds (s.pc t)) :
      Move holds t s ⟨s.object, s.owner, Function.update s.pc t p⟩
  | change {p o} (ht : holds (s.pc t) = true) (hp : holds p = true) :
      Move holds t s ⟨o, s.owner, Function.update s.pc t p⟩
  | take {p} (hfree : s.owner = none) (hp : holds p = true) :
      Move holds t s ⟨s.object, some t, Function.update s.pc t p⟩
  | leave {p} (ht : holds (s.pc t) = true) (hp : holds p = false) :
      Move holds t s ⟨s.object, none, Function.update s.pc t p⟩

variable {holds : P → Bool} {I : P → σ → Prop} {s s' : State T P σ} {t u : T}

omit [DecidableEq T] in
theorem Exclusive.others (h : Exclusive holds s) (ht : holds (s.pc t) = true) (hne : u ≠ t) :
    holds (s.pc u) = false := by
  by_contra hu
  have howner := (h u).mpr (by simpa using hu)
  rw [(h t).mpr ht] at howner
  exact hne (Option.some.inj howner).symm

theorem Move.pc_of_ne (hm : Move holds t s s') (hne : u ≠ t) : s'.pc u = s.pc u := by
  cases hm <;> exact Function.update_of_ne hne _ _

theorem Move.exclusive (hm : Move holds t s s') (h : Exclusive holds s) : Exclusive holds s' := by
  intro u
  by_cases hne : u = t
  · subst hne
    cases hm with
    | stay hp => simpa only [Function.update_self, hp] using h u
    | change ht hp =>
      simp only [Function.update_self]
      exact iff_of_true ((h u).mpr ht) hp
    | take hfree hp =>
      simp only [Function.update_self]
      exact iff_of_true trivial hp
    | leave ht hp =>
      simp only [Function.update_self]
      exact iff_of_false nofun (by simp [hp])
  · rw [hm.pc_of_ne hne]
    cases hm with
    | stay | change => exact h u
    | take hfree hp =>
      have hu := h u
      rw [hfree] at hu
      rw [← hu]
      exact iff_of_false (fun heq => hne (Option.some.inj heq).symm) nofun
    | leave ht hp => exact iff_of_false nofun (by simp [h.others ht hne])

theorem Move.owner_of_ne (hm : Move holds t s s') (h : Exclusive holds s)
    (howner : s.owner = some u) (hne : u ≠ t) : s'.owner = some u := by
  cases hm with
  | stay | change => exact howner
  | take hfree =>
    rw [hfree] at howner
    cases howner
  | leave ht =>
    rw [(h t).mpr ht] at howner
    exact absurd (Option.some.inj howner).symm hne

theorem Move.settled (hm : Move holds t s s') (h : Exclusive holds s) (hI : Settled I s)
    (hout : ∀ p o, holds p = false → I p o) (hnew : I (s'.pc t) s'.object) : Settled I s' := by
  intro u
  by_cases hne : u = t
  · rw [hne]
    exact hnew
  · rw [hm.pc_of_ne hne]
    cases hm with
    | stay | take | leave => exact hI u
    | change ht => exact hout _ _ (h.others ht hne)

end MonitorLock
