import Mathlib.Logic.Function.Basic

/-! # Locks that a thread may take again, and locks that it may not

Several activities may run in one thread, one above the other, as a signal handler does. A lock
that is held is free only for the thread of its holders, and only if it can be taken again. -/
namespace RelockableLocks

/-- The lock an activity waits for, and who holds each lock, the last one first. -/
structure State (A K : Type*) where
  wants : A → Option K
  holders : K → List A

inductive Event (A K : Type*) where
  | ask (a : A) (k : K)
  | take (a : A) (k : K)
  | release (a : A) (k : K)

variable {A K T : Type*}

def Event.actor : Event A K → A
  | .ask a _ | .take a _ | .release a _ => a

def initialState : State A K := ⟨fun _ => none, fun _ => []⟩

variable [DecidableEq A] [DecidableEq K]

/-- The locks that can be taken again, and the thread of each activity. -/
inductive Step (again : K → Bool) (thread : A → T) (s : State A K) :
    Event A K → State A K → Prop where
  | ask {a k} (hnone : s.wants a = none) (hother : again k = false → a ∉ s.holders k) :
      Step again thread s (.ask a k) { s with wants := Function.update s.wants a (some k) }
  | take {a k} (hwants : s.wants a = some k)
      (hfree : ∀ b ∈ s.holders k, again k = true ∧ thread b = thread a) :
      Step again thread s (.take a k)
        ⟨Function.update s.wants a none, Function.update s.holders k (a :: s.holders k)⟩
  | release {a k rest} (hnone : s.wants a = none) (hholds : s.holders k = a :: rest) :
      Step again thread s (.release a k)
        { s with holders := Function.update s.holders k rest }

variable {again : K → Bool} {thread : A → T} {s s' : State A K} {e : Event A K} {a b : A} {k : K}

theorem Step.others (hs : Step again thread s e s') (hne : a ≠ e.actor) :
    s'.wants a = s.wants a ∧ ∀ k, a ∈ s'.holders k ↔ a ∈ s.holders k := by
  cases hs with
  | ask => exact ⟨Function.update_of_ne hne _ _, fun _ => Iff.rfl⟩
  | @take b k =>
    refine ⟨Function.update_of_ne hne _ _, fun k' => ?_⟩
    dsimp only
    by_cases hk : k' = k
    · subst hk
      rw [Function.update_self, List.mem_cons]
      exact or_iff_right hne
    · rw [Function.update_of_ne hk]
  | @release b k rest hnone hholds =>
    refine ⟨rfl, fun k' => ?_⟩
    dsimp only
    by_cases hk : k' = k
    · subst hk
      rw [Function.update_self, hholds, List.mem_cons]
      exact (or_iff_right hne).symm
    · rw [Function.update_of_ne hk]

/-- One who waits for a lock that cannot be taken again waits on, as long as a holder does not
act. -/
theorem Step.stuck (hs : Step again thread s e s') (hwants : s.wants a = some k)
    (hagain : again k = false) (hb : b ∈ s.holders k) (hne : b ≠ e.actor) :
    s'.wants a = some k ∧ b ∈ s'.holders k := by
  refine ⟨?_, ((hs.others hne).2 k).mpr hb⟩
  cases hs with
  | @ask c k' hnone =>
    have hac : a ≠ c := by
      rintro rfl
      rw [hwants] at hnone
      cases hnone
    exact (Function.update_of_ne hac _ _).trans hwants
  | @take c k' hwants' hfree =>
    have hac : a ≠ c := by
      rintro rfl
      obtain rfl : k = k' := Option.some.inj (hwants.symm.trans hwants')
      rw [(hfree b hb).1] at hagain
      cases hagain
    exact (Function.update_of_ne hac _ _).trans hwants
  | release => exact hwants

/-- A call that takes a lock which its own thread holds, in a sequential program: it has a result
only if the lock can be taken again. -/
def relocked {R : Type*} (again : Bool) (call : Option R) : Option R :=
  if again then call else none

@[simp] theorem relocked_true {R : Type*} (call : Option R) : relocked true call = call := rfl

@[simp] theorem relocked_false {R : Type*} (call : Option R) : relocked false call = none := rfl

end RelockableLocks
