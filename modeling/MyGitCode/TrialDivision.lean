import MyGitCode.LoopRuns
import Mathlib.Data.Nat.Factors
import Mathlib.NumberTheory.LucasLehmer

/-! # Prime factors by trial division, c100/14.c

The counter of the outer loop goes one past the last factor. -/
namespace TrialDivision

open LoopRuns

def intMax : ℤ := 2147483647

/-- Where `main` stands in its loops. At `overflow` the counter has been increased past the
largest int, and C says nothing of what follows. -/
inductive Point where
  | forTest
  | whileTest
  | increment
  | overflow
  | ended
  deriving DecidableEq, Repr

structure Machine where
  point : Point
  num : ℤ
  i : ℤ
  printed : List ℤ
  deriving DecidableEq, Repr

def start (num : ℤ) : Machine := ⟨.forTest, num, 2, []⟩

def step (s : Machine) : Option Machine :=
  match s.point with
  | .forTest =>
    if s.i ≤ s.num then some { s with point := .whileTest }
    else some { s with point := .ended, printed := s.printed ++ [s.num] }
  | .whileTest =>
    if s.num ≠ s.i then
      if s.num.tmod s.i = 0 then
        some { s with num := s.num.tdiv s.i, printed := s.printed ++ [s.i] }
      else some { s with point := .increment }
    else some { s with point := .increment }
  | .increment =>
    if s.i = intMax then some { s with point := .overflow }
    else some { s with point := .forTest, i := s.i + 1 }
  | .overflow => none
  | .ended => none

structure Split (n : ℕ) (ps : List ℕ) (m : ℕ) : Prop where
  prime : ∀ p ∈ ps, p.Prime
  sorted : ps.Pairwise (· ≤ ·)
  le_minFac : ∀ p ∈ ps, p ≤ m.minFac
  prod : ps.prod * m = n
  two_le : 2 ≤ m

/-- No factor of what is left is below the counter, but for the last increment. -/
inductive Sound (n : ℕ) : Machine → Prop where
  | forTest {ps m k} : Split n ps m → 2 ≤ k → k ≤ m.minFac →
      Sound n ⟨.forTest, m, k, ps.map Nat.cast⟩
  | last {ps m} : Split n ps m → m.Prime → (m : ℤ) ≠ intMax →
      Sound n ⟨.forTest, m, (m : ℤ) + 1, ps.map Nat.cast⟩
  | whileTest {ps m k} : Split n ps m → 2 ≤ k → k ≤ m.minFac →
      Sound n ⟨.whileTest, m, k, ps.map Nat.cast⟩
  | found {ps m} : Split n ps m → m.Prime → Sound n ⟨.increment, m, m, ps.map Nat.cast⟩
  | passed {ps m k} : Split n ps m → 2 ≤ k → k < m.minFac →
      Sound n ⟨.increment, m, k, ps.map Nat.cast⟩
  | overflow {ps m k} : Split n ps m → m.Prime → (m : ℤ) = intMax →
      Sound n ⟨.overflow, m, k, ps.map Nat.cast⟩
  | ended {ps m k} : Split n ps m → m.Prime → (m : ℤ) ≠ intMax →
      Sound n ⟨.ended, m, k, (ps ++ [m]).map Nat.cast⟩

variable {n m k : ℕ} {ps : List ℕ} {s t : Machine}

theorem Split.pos (h : Split n ps m) : 0 < m := Nat.lt_of_lt_of_le (by decide) h.two_le

theorem Split.dvd (h : Split n ps m) : m ∣ n := ⟨ps.prod, by rw [Nat.mul_comm, h.prod]⟩

theorem Split.minFac_prime (h : Split n ps m) : m.minFac.Prime :=
  Nat.minFac_prime (Nat.ne_of_gt h.two_le)

theorem Split.divide (h : Split n ps m) (hk : 2 ≤ k) (hle : k ≤ m.minFac) (hdvd : k ∣ m)
    (hne : m ≠ k) : Split n (ps ++ [k]) (m / k) ∧ k ≤ (m / k).minFac := by
  have hk' : k = m.minFac := Nat.le_antisymm hle (Nat.minFac_le_of_dvd hk hdvd)
  have hmul : k * (m / k) = m := Nat.mul_div_cancel' hdvd
  have htwo : 2 ≤ m / k := by
    have hpos : m / k ≠ 0 := by
      intro h0
      rw [h0, Nat.mul_zero] at hmul
      exact absurd h.two_le (hmul ▸ by decide)
    have hone : m / k ≠ 1 := by
      intro h1
      rw [h1, Nat.mul_one] at hmul
      exact hne hmul.symm
    exact (Nat.two_le_iff _).mpr ⟨hpos, hone⟩
  have hmono : m.minFac ≤ (m / k).minFac := by
    apply Nat.minFac_le_of_dvd
    · exact (Nat.minFac_prime (Nat.ne_of_gt htwo)).two_le
    · exact Nat.dvd_trans (Nat.minFac_dvd _) (Nat.div_dvd_of_dvd hdvd)
  constructor
  · constructor
    · intro p hp
      rcases List.mem_append.mp hp with hp | hp
      · exact h.prime p hp
      · rw [List.mem_singleton.mp hp, hk']
        exact h.minFac_prime
    · rw [List.pairwise_append]
      refine ⟨h.sorted, List.pairwise_singleton _ _, ?_⟩
      intro p hp q hq
      rw [List.mem_singleton.mp hq, hk']
      exact h.le_minFac p hp
    · intro p hp
      rcases List.mem_append.mp hp with hp | hp
      · exact Nat.le_trans (h.le_minFac p hp) hmono
      · rw [List.mem_singleton.mp hp]
        exact Nat.le_trans hle hmono
    · rw [List.prod_append, List.prod_singleton, Nat.mul_assoc, hmul]
      exact h.prod
    · exact htwo
  · exact Nat.le_trans hle hmono

theorem Split.prime_of_le (h : Split n ps m) (hle : m ≤ m.minFac) : m.Prime := by
  rw [Nat.prime_def_minFac]
  exact ⟨h.two_le, Nat.le_antisymm (Nat.minFac_le h.pos) hle⟩

theorem lt_minFac (hle : k ≤ m.minFac) (hdvd : ¬ k ∣ m) : k < m.minFac := by
  apply Nat.lt_of_le_of_ne hle
  rintro rfl
  exact hdvd (Nat.minFac_dvd m)

theorem tmod_eq_zero_iff : (m : ℤ).tmod k = 0 ↔ k ∣ m := by
  rw [← Int.ofNat_tmod]
  constructor
  · intro h0
    exact Nat.dvd_of_mod_eq_zero (Int.ofNat_inj.mp h0)
  · intro hdvd
    rw [Nat.mod_eq_zero_of_dvd hdvd]
    rfl

theorem sound_start (hn : 2 ≤ n) : Sound n (start n) := by
  have hsplit : Split n [] n := ⟨nofun, .nil, nofun, Nat.one_mul n, hn⟩
  exact Sound.forTest (k := 2) hsplit (Nat.le_refl 2) hsplit.minFac_prime.two_le

def Point.rank : Point → ℤ
  | .forTest => 3
  | .whileTest => 2
  | .increment => 1
  | .overflow | .ended => 0

def variant (s : Machine) : ℕ := (3 * (2 * s.num - s.i) + s.point.rank).toNat

theorem sound_whileTest (hsplit : Split n ps m) (hk : 2 ≤ k) (hle : k ≤ m.minFac)
    (hst : step ⟨.whileTest, m, k, ps.map Nat.cast⟩ = some t) :
    Sound n t ∧ variant t < variant ⟨.whileTest, m, k, ps.map Nat.cast⟩ := by
  have htwo := hsplit.two_le
  have hkm : k ≤ m := Nat.le_trans hle (Nat.minFac_le hsplit.pos)
  by_cases hne : m = k
  · subst hne
    simp only [step, ne_eq, not_true_eq_false, if_false, Option.some_inj] at hst
    subst hst
    refine ⟨.found hsplit (hsplit.prime_of_le hle), ?_⟩
    simp only [variant, Point.rank]
    omega
  · have hne' : (m : ℤ) ≠ k := by exact_mod_cast hne
    by_cases hdvd : k ∣ m
    · obtain ⟨hdivide, hrough⟩ := hsplit.divide hk hle hdvd hne
      have hprinted : (ps.map Nat.cast ++ [(k : ℤ)]) = (ps ++ [k]).map Nat.cast := by simp
      have hlt : m / k < m := Nat.div_lt_self (by omega) hk
      simp only [step, if_pos hne', if_pos (tmod_eq_zero_iff.mpr hdvd), Option.some_inj, hprinted,
        ← Int.ofNat_tdiv] at hst
      subst hst
      refine ⟨.whileTest hdivide hk hrough, ?_⟩
      simp only [variant, Point.rank]
      omega
    · simp only [step, if_pos hne', if_neg (mt tmod_eq_zero_iff.mp hdvd), Option.some_inj] at hst
      subst hst
      refine ⟨.passed hsplit hk (lt_minFac hle hdvd), ?_⟩
      simp only [variant, Point.rank]
      omega

theorem sound_step (hpos : 0 < n) (hmax : (n : ℤ) ≤ intMax) (h : Sound n s)
    (hst : step s = some t) : Sound n t ∧ variant t < variant s := by
  cases h with
  | @forTest ps m k hsplit hk hle =>
    have hkm : (k : ℤ) ≤ m := by
      exact_mod_cast Nat.le_trans hle (Nat.minFac_le hsplit.pos)
    simp only [step, if_pos hkm, Option.some_inj] at hst
    subst hst
    refine ⟨.whileTest hsplit hk hle, ?_⟩
    simp only [variant, Point.rank]
    omega
  | @last ps m hsplit hprime hne =>
    have htwo := hsplit.two_le
    have hlt : ¬ (m : ℤ) + 1 ≤ m := by omega
    have hprinted : (ps.map Nat.cast ++ [(m : ℤ)]) = (ps ++ [m]).map Nat.cast := by simp
    simp only [step, if_neg hlt, Option.some_inj, hprinted] at hst
    subst hst
    refine ⟨Sound.ended (k := m + 1) hsplit hprime hne, ?_⟩
    simp only [variant, Point.rank]
    omega
  | whileTest hsplit hk hle => exact sound_whileTest hsplit hk hle hst
  | @found ps m hsplit hprime =>
    have htwo := hsplit.two_le
    by_cases hm : (m : ℤ) = intMax
    · simp only [step, if_pos hm, Option.some_inj] at hst
      subst hst
      refine ⟨.overflow hsplit hprime hm, ?_⟩
      simp only [variant, Point.rank]
      omega
    · simp only [step, if_neg hm, Option.some_inj] at hst
      subst hst
      refine ⟨.last hsplit hprime hm, ?_⟩
      simp only [variant, Point.rank]
      omega
  | @passed ps m k hsplit hk hlt =>
    have hkm : k < m := Nat.lt_of_lt_of_le hlt (Nat.minFac_le hsplit.pos)
    have hmn : m ≤ n := Nat.le_of_dvd hpos hsplit.dvd
    have hne : (k : ℤ) ≠ intMax := by omega
    simp only [step, if_neg hne, Option.some_inj] at hst
    subst hst
    refine ⟨Sound.forTest (k := k + 1) hsplit (by omega) hlt, ?_⟩
    simp only [variant, Point.rank]
    omega
  | overflow => exact absurd hst nofun
  | ended => exact absurd hst nofun

/-- The loops end, with all factors printed or with the counter past the largest int. -/
theorem ends_sound (hn : 2 ≤ n) (hmax : (n : ℤ) ≤ intMax) :
    ∃ t, Ends step (start n) t ∧ Sound n t := by
  have hpos : 0 < n := Nat.lt_of_lt_of_le (by decide) hn
  obtain ⟨t, ht⟩ := exists_ends variant (fun _ _ => sound_step hpos hmax) (sound_start hn)
  have hsound : ∀ s t, Sound n s → step s = some t → Sound n t :=
    fun _ _ hs hst => (sound_step hpos hmax hs hst).1
  exact ⟨t, ht, ht.invariant hsound (sound_start hn)⟩

theorem intMax_prime : Nat.Prime 2147483647 := by
  have h : (mersenne 31).Prime := lucas_lehmer_sufficiency _ (by norm_num) (by norm_num)
  exact h

/-- The loops end without an overflow, having printed the primes of `n` in order. -/
def Factorises (n : ℕ) : Prop :=
  ∃ t, Ends step (start n) t ∧ t.point = .ended ∧ ∃ ps : List ℕ, t.printed = ps.map Nat.cast ∧
    (∀ p ∈ ps, p.Prime) ∧ ps.Pairwise (· ≤ ·) ∧ ps.prod = n

theorem Split.append_last (h : Split n ps m) (hprime : m.Prime) :
    (∀ p ∈ ps ++ [m], p.Prime) ∧ (ps ++ [m]).Pairwise (· ≤ ·) ∧ (ps ++ [m]).prod = n := by
  refine ⟨?_, ?_, ?_⟩
  · intro p hp
    rcases List.mem_append.mp hp with hp | hp
    · exact h.prime p hp
    · rw [List.mem_singleton.mp hp]
      exact hprime
  · rw [List.pairwise_append]
    refine ⟨h.sorted, List.pairwise_singleton _ _, ?_⟩
    intro p hp q hq
    rw [List.mem_singleton.mp hq]
    exact Nat.le_trans (h.le_minFac p hp) (Nat.minFac_le h.pos)
  · rw [List.prod_append, List.prod_singleton]
    exact h.prod

theorem eq_intMax_of_dvd (hpos : 0 < n) (hmax : (n : ℤ) ≤ intMax) (hm : (m : ℤ) = intMax)
    (hdvd : m ∣ n) : (n : ℤ) = intMax := by
  have hle : (m : ℤ) ≤ n := by exact_mod_cast Nat.le_of_dvd hpos hdvd
  omega

theorem Split.eq_of_prime (h : Split n ps m) (hn : n.Prime) : m = n := by
  rcases (Nat.dvd_prime hn).mp h.dvd with h1 | h1
  · exact absurd h.two_le (h1 ▸ by decide)
  · exact h1

theorem point_of_stopped (h : step s = none) : s.point = .overflow ∨ s.point = .ended := by
  obtain ⟨point, num, i, printed⟩ := s
  cases point with
  | forTest =>
    simp only [step] at h
    split at h <;> cases h
  | whileTest =>
    simp only [step] at h
    repeat' split at h
    all_goals cases h
  | increment =>
    simp only [step] at h
    split at h <;> cases h
  | overflow => exact .inl rfl
  | ended => exact .inr rfl

theorem ends_overflow_iff (hn : 2 ≤ n) (hmax : (n : ℤ) ≤ intMax) (hsound : Sound n t)
    (hstop : step t = none) : t.point = .overflow ↔ (n : ℤ) = intMax := by
  constructor
  · intro hover
    cases hsound with
    | overflow hsplit _ hm =>
      exact eq_intMax_of_dvd (Nat.lt_of_lt_of_le (by decide) hn) hmax hm hsplit.dvd
    | _ => exact absurd hover nofun
  · intro heq
    have hprime : n.Prime := by
      rw [show n = 2147483647 from Int.ofNat_inj.mp heq]
      exact intMax_prime
    rcases point_of_stopped hstop with hover | hended
    · exact hover
    · cases hsound with
      | ended hsplit _ hne =>
        rw [hsplit.eq_of_prime hprime] at hne
        exact absurd heq hne
      | _ => exact absurd hended nofun

/-- For every int from 2 on the loops print the prime factors in order, the largest int apart:
there the counter overflows. -/
theorem factorises_iff (n : ℕ) (hn : 2 ≤ n) (hmax : (n : ℤ) ≤ intMax) :
    Factorises n ↔ (n : ℤ) ≠ intMax := by
  obtain ⟨t, ht, hsound⟩ := ends_sound hn hmax
  have hover := ends_overflow_iff hn hmax hsound ht.stopped
  constructor
  · intro hfact heq
    obtain ⟨u, hu, hended, -⟩ := hfact
    obtain rfl := ht.unique hu
    rw [hover.mpr heq] at hended
    cases hended
  · intro hne
    rcases point_of_stopped ht.stopped with hpoint | hended
    · exact absurd (hover.mp hpoint) hne
    · cases hsound with
      | ended hsplit hprime _ => exact ⟨_, ht, rfl, _, rfl, hsplit.append_last hprime⟩
      | _ => exact absurd hended nofun

theorem factorises_sixty : Factorises 60 :=
  (factorises_iff 60 (by decide) (by decide)).mpr (by decide)

/-- 2147483647 is a prime: the loops end with the counter increased past it. -/
theorem largest_int_overflows :
    (2147483647 : ℤ) ≤ intMax ∧
    (∃ t, Ends step (start 2147483647) t ∧ t.point = .overflow) ∧ ¬ Factorises 2147483647 := by
  obtain ⟨t, ht, hsound⟩ := ends_sound (n := 2147483647) (by decide) (by decide)
  have hover : t.point = .overflow :=
    (ends_overflow_iff (by decide) (by decide) hsound ht.stopped).mpr rfl
  refine ⟨by decide, ⟨t, ht, hover⟩, ?_⟩
  intro hfact
  obtain ⟨u, hu, hended, -⟩ := hfact
  obtain rfl := ht.unique hu
  rw [hover] at hended
  cases hended

end TrialDivision
