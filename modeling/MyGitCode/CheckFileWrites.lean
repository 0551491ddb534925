import MyGitCode.ImageUpload
import MyGitCode.LoopRuns

/-! # `run.c`: the texts kept in files for a check

`merge_base64_buff` and `encode_img_to_base64` write a text with the same loop over `write`. -/
namespace CheckFileWrites

open Base64 Base64Bounds ImageUpload LoopRuns

def writeSize : ℤ := 4096

def intMin : ℤ := -2147483648

def intMax : ℤ := 2147483647

def InInt (x : ℤ) : Prop := intMin ≤ x ∧ x ≤ intMax

instance (x : ℤ) : Decidable (InInt x) := inferInstanceAs (Decidable (_ ∧ _))

structure CheckText where
  bytes : List Byte
  fits : (bytes.length : ℤ) < intMax

def mergeBase64Buff (buff1 buff2 : Vector Byte buffSize) : CheckText where
  bytes := cString buff1 ++ [byte ','] ++ cString buff2
  fits := by
    have h : ∀ buff : Vector Byte buffSize, (cString buff).length ≤ buffSize := fun buff =>
      Nat.le_trans (List.takeWhile_prefix _).length_le (Nat.le_of_eq buff.length_toList)
    have h₁ := h buff1
    have h₂ := h buff2
    simp only [buffSize, intMax, List.length_append, List.length_singleton] at *
    omega

def encodedText (base64Buff : Vector Byte buffSize) : CheckText where
  bytes := cString base64Buff
  fits := by
    have h : (cString base64Buff).length ≤ buffSize :=
      Nat.le_trans (List.takeWhile_prefix _).length_le (Nat.le_of_eq base64Buff.length_toList)
    simp only [buffSize, intMax] at *
    omega

structure Call where
  offset : ℤ
  count : ℤ
  deriving DecidableEq, Repr

/-- The variables of the loop, the calls made and the bytes given to the file, which are none
where they are not of the text. C says nothing of what follows an overflow. -/
structure Loop where
  ops : ℤ
  length : ℤ
  len : ℤ
  calls : List Call
  written : List (Option Byte)
  overflow : Bool
  deriving DecidableEq

def start (text : CheckText) : Loop :=
  ⟨0, text.bytes.length, writeSize, [], [], false⟩

def bytesAt (text : List Byte) (offset count : ℤ) : List (Option Byte) :=
  (List.range count.toNat).map fun (i : ℕ) =>
    if 0 ≤ offset + i then text[(offset + i).toNat]? else none

/-- How many bytes the loop asks `write` to take, if it calls it again. -/
def asks (s : Loop) : Option ℤ :=
  if s.overflow ∨ s.length = 0 then none
  else some (if s.length < s.len then s.length else s.len)

def step (text : CheckText) (results : ℕ → ℤ) (s : Loop) : Option Loop :=
  match asks s with
  | none => none
  | some len =>
    let size := results s.calls.length
    let s : Loop := { s with
      len := len
      calls := s.calls ++ [⟨s.ops, len⟩]
      written := s.written ++ bytesAt text.bytes s.ops size }
    if InInt (s.ops + size) ∧ InInt (s.length - size) then
      some { s with ops := s.ops + size, length := s.length - size }
    else some { s with overflow := true }

variable {text : CheckText} {results : ℕ → ℤ} {s t : Loop} {k : ℕ}

/-- The results are those of `write`: -1, or from 1 up to the number asked for. -/
def Allowed (text : CheckText) (results : ℕ → ℤ) : Prop :=
  ∀ s count, Reaches (step text results) (start text) s → asks s = some count →
    results s.calls.length = -1 ∨ 1 ≤ results s.calls.length ∧ results s.calls.length ≤ count

/-- What the loop should do with the results. -/
structure Sound (text : CheckText) (results : ℕ → ℤ) : Prop where
  ends : (∃ n, ∀ k, n ≤ k → results k = -1) →
    ∃ t, Ends (step text results) (start text) t ∧ t.overflow = false
  inside : ∀ s : Loop, Reaches (step text results) (start text) s →
    ∀ c ∈ s.calls, 0 ≤ c.offset ∧ c.offset + c.count ≤ text.bytes.length
  once : (∀ s count, Reaches (step text results) (start text) s → asks s = some count →
      results s.calls.length ≠ -1) →
    ∃ t, Ends (step text results) (start text) t ∧ t.written = text.bytes.map some

/-- The sum of the first results: the bytes taken less the calls that failed. -/
def taken (results : ℕ → ℤ) : ℕ → ℤ
  | 0 => 0
  | k + 1 => taken results k + results k

/-- As long as the text is not complete, no more calls have failed than bytes were taken. -/
def Covered (text : CheckText) (results : ℕ → ℤ) : Prop :=
  ∀ k, (∀ j, j ≤ k → taken results j ≠ text.bytes.length) → 0 ≤ taken results k

/-- The variables before a call or at the end, after calls of which none was the last. -/
structure Position (text : CheckText) (results : ℕ → ℤ) (s : Loop) : Prop where
  ops : s.ops = taken results s.calls.length
  length : s.length = text.bytes.length - s.ops
  le : s.ops ≤ text.bytes.length
  len_pos : 0 < s.len
  pending : ∀ j, j < s.calls.length → taken results j ≠ text.bytes.length
  overflow : s.overflow = false

theorem position_start : Position text results (start text) where
  ops := rfl
  length := (Int.sub_zero _).symm
  le := Int.natCast_nonneg _
  len_pos := show (0 : ℤ) < 4096 by decide
  pending := nofun
  overflow := rfl

theorem asks_eq_some (h : Position text results s) (hne : s.ops ≠ text.bytes.length) :
    ∃ count, asks s = some count ∧ 0 < count ∧ s.ops + count ≤ text.bytes.length := by
  have hlength := h.length
  have hle := h.le
  have hpos := h.len_pos
  have hrun : ¬ (s.overflow ∨ s.length = 0) := by
    rw [h.overflow]
    simp only [Bool.false_eq_true, false_or]
    omega
  refine ⟨_, if_neg hrun, ?_⟩
  split
  · omega
  · omega

theorem asks_eq_none (h : Position text results s) :
    asks s = none ↔ s.ops = text.bytes.length := by
  constructor
  · intro hnone
    by_contra hne
    obtain ⟨count, hcount, -⟩ := asks_eq_some h hne
    cases hnone.symm.trans hcount
  · intro heq
    have hlength := h.length
    exact if_pos (.inr (by omega))

theorem step_calls {count : ℤ} (h : asks s = some count) :
    ∃ t, step text results s = some t ∧ t.calls = s.calls ++ [⟨s.ops, count⟩] := by
  rw [step, h]
  dsimp only
  split
  · exact ⟨_, rfl, rfl⟩
  · exact ⟨_, rfl, rfl⟩

theorem step_eq_none (h : Position text results s) :
    step text results s = none ↔ s.ops = text.bytes.length := by
  rw [← asks_eq_none h]
  constructor
  · intro hnone
    cases hasks : asks s with
    | none => rfl
    | some count =>
      obtain ⟨t, ht, -⟩ := @step_calls text results s count hasks
      cases ht.symm.trans hnone
  · intro hasks
    rw [step, hasks]

structure Next (text : CheckText) (results : ℕ → ℤ) (s t : Loop) : Prop where
  position : Position text results t
  ops : t.ops = s.ops + results s.calls.length
  asked : ∃ count, asks s = some count ∧ s.ops + count ≤ text.bytes.length ∧
    t.calls = s.calls ++ [⟨s.ops, count⟩]
  result : results s.calls.length = -1 ∨ 1 ≤ results s.calls.length
  written : t.written = s.written ++ bytesAt text.bytes s.ops (results s.calls.length)

theorem Position.next (hallow : Allowed text results)
    (hreach : Reaches (step text results) (start text) s) (h : Position text results s)
    (hpos : 0 ≤ s.ops) (hst : step text results s = some t) : Next text results s t := by
  have hne : s.ops ≠ text.bytes.length := by
    intro heq
    cases ((step_eq_none h).mpr heq).symm.trans hst
  obtain ⟨count, hasks, hcount, hle⟩ := asks_eq_some h hne
  have hresult := hallow s count hreach hasks
  have hfits := text.fits
  have hlength := h.length
  have hin : InInt (s.ops + results s.calls.length) ∧
      InInt (s.length - results s.calls.length) := by
    simp only [InInt, intMin, intMax] at *
    omega
  have hcalls : (s.calls ++ [Call.mk s.ops count]).length = s.calls.length + 1 :=
    List.length_append
  rw [step, hasks] at hst
  dsimp only at hst
  rw [if_pos hin, Option.some_inj] at hst
  subst hst
  refine ⟨⟨?_, ?_, ?_, hcount, ?_, h.overflow⟩, rfl, ⟨count, hasks, hle, rfl⟩, ?_, rfl⟩
  · dsimp only
    rw [hcalls, taken, ← h.ops]
  · dsimp only
    omega
  · dsimp only
    omega
  · intro j hj
    dsimp only at hj
    rw [hcalls] at hj
    rcases Nat.lt_succ_iff_lt_or_eq.mp hj with hlt | rfl
    · exact h.pending j hlt
    · rw [← h.ops]
      exact hne
  · rcases hresult with hfail | ⟨hone, -⟩
    · exact .inl hfail
    · exact .inr hone

theorem Covered.ops_nonneg (hcov : Covered text results) (h : Position text results s) :
    0 ≤ s.ops := by
  by_cases hend : s.ops = text.bytes.length
  · rw [hend]
    exact Int.natCast_nonneg _
  · rw [h.ops]
    apply hcov
    intro j hj
    rcases Nat.lt_or_eq_of_le hj with hlt | rfl
    · exact h.pending j hlt
    · rw [← h.ops]
      exact hend

theorem Covered.position (hcov : Covered text results) (hallow : Allowed text results)
    (h : Reaches (step text results) (start text) s) : Position text results s := by
  induction h with
  | refl => exact position_start
  | snoc hreach hst ih => exact (ih.next hallow hreach (hcov.ops_nonneg ih) hst).position

theorem Covered.next (hcov : Covered text results) (hallow : Allowed text results)
    (h : Reaches (step text results) (start text) s) (hst : step text results s = some t) :
    Next text results s t :=
  have hs := hcov.position hallow h
  hs.next hallow h (hcov.ops_nonneg hs) hst

theorem Covered.inside (hcov : Covered text results) (hallow : Allowed text results)
    (h : Reaches (step text results) (start text) s) :
    ∀ c ∈ s.calls, 0 ≤ c.offset ∧ c.offset + c.count ≤ text.bytes.length := by
  induction h with
  | refl => nofun
  | snoc hreach hst ih =>
    obtain ⟨count, -, hle, hcalls⟩ := (hcov.next hallow hreach hst).asked
    intro c hc
    rw [hcalls] at hc
    rcases List.mem_append.mp hc with hc | hc
    · exact ih c hc
    · rw [List.mem_singleton.mp hc]
      exact ⟨hcov.ops_nonneg (hcov.position hallow hreach), hle⟩

theorem Covered.ends (hcov : Covered text results) (hallow : Allowed text results) {n : ℕ}
    (hfail : ∀ k, n ≤ k → results k = -1) :
    ∃ t, Ends (step text results) (start text) t ∧ t.overflow = false := by
  let variant (s : Loop) : ℕ :=
    (n - s.calls.length) * (text.bytes.length + 1) + s.ops.toNat
  obtain ⟨t, ht⟩ := exists_ends (I := Reaches (step text results) (start text)) variant
    (fun s t hreach hst => by
      have hnext := hcov.next hallow hreach hst
      obtain ⟨count, -, -, hcalls⟩ := hnext.asked
      have hs := hcov.ops_nonneg (hcov.position hallow hreach)
      have ht := hcov.ops_nonneg hnext.position
      have hle := hnext.position.le
      have hops := hnext.ops
      have hlen : t.calls.length = s.calls.length + 1 := by
        rw [hcalls, List.length_append, List.length_singleton]
      refine ⟨.snoc hreach hst, ?_⟩
      by_cases hk : n ≤ s.calls.length
      · have hminus := hfail _ hk
        simp only [variant, hlen, Nat.sub_eq_zero_of_le hk,
          Nat.sub_eq_zero_of_le (Nat.le_succ_of_le hk), Nat.zero_mul]
        omega
      · have hsub : n - s.calls.length = n - (s.calls.length + 1) + 1 := by omega
        simp only [variant, hlen, hsub, Nat.succ_mul]
        omega) .refl
  exact ⟨t, ht, (hcov.position hallow ht.reaches).overflow⟩

def NoFailure (text : CheckText) (results : ℕ → ℤ) : Prop :=
  ∀ s count, Reaches (step text results) (start text) s → asks s = some count →
    results s.calls.length ≠ -1

theorem bytesAt_eq {l : List Byte} {m n : ℕ} (h : m + n ≤ l.length) :
    bytesAt l m n = ((l.drop m).take n).map some := by
  apply List.ext_getElem
  · simp only [bytesAt, List.length_map, List.length_range, List.length_take, List.length_drop]
    omega
  · intro i hi _
    simp only [bytesAt, Int.toNat_natCast, List.length_map, List.length_range] at hi
    have hnat : (m : ℤ) + (i : ℤ) = (m + i : ℕ) := rfl
    have hlt : m + i < l.length := by omega
    simp only [bytesAt, List.getElem_map, List.getElem_range, List.getElem_take,
      List.getElem_drop, hnat, Int.toNat_natCast, if_pos (Int.natCast_nonneg _),
      List.getElem?_eq_getElem hlt]

theorem Covered.written (hcov : Covered text results) (hallow : Allowed text results)
    (hno : NoFailure text results) (h : Reaches (step text results) (start text) s) :
    s.written = (text.bytes.take s.ops.toNat).map some := by
  induction h with
  | refl => rfl
  | @snoc s t hreach hst ih =>
    have hnext := hcov.next hallow hreach hst
    obtain ⟨count, hasks, -, -⟩ := hnext.asked
    have hs := hcov.ops_nonneg (hcov.position hallow hreach)
    have hle := hnext.position.le
    have hone := hnext.result.resolve_left (hno s count hreach hasks)
    obtain ⟨m, hm⟩ := Int.eq_ofNat_of_zero_le hs
    obtain ⟨n, hn⟩ := Int.eq_ofNat_of_zero_le (Int.le_trans (by decide) hone)
    have hops : t.ops = (m + n : ℕ) := by rw [hnext.ops, hm, hn]; rfl
    have hfit : m + n ≤ text.bytes.length := by
      rw [hops] at hle
      exact_mod_cast hle
    rw [hnext.written, ih, hm, hn, bytesAt_eq hfit, hops, Int.toNat_natCast, Int.toNat_natCast,
      List.take_add, List.map_append]

theorem Covered.once (hcov : Covered text results) (hallow : Allowed text results)
    (hno : NoFailure text results) :
    ∃ t, Ends (step text results) (start text) t ∧ t.written = text.bytes.map some := by
  let variant (s : Loop) : ℕ := (text.bytes.length - s.ops).toNat
  obtain ⟨t, ht⟩ := exists_ends (I := Reaches (step text results) (start text)) variant
    (fun s t hreach hst => by
      have hnext := hcov.next hallow hreach hst
      obtain ⟨count, hasks, -, -⟩ := hnext.asked
      have hone := hnext.result.resolve_left (hno s count hreach hasks)
      have hops := hnext.ops
      have hle := hnext.position.le
      refine ⟨.snoc hreach hst, ?_⟩
      simp only [variant]
      omega) .refl
  have hend := (step_eq_none (hcov.position hallow ht.reaches)).mp ht.stopped
  refine ⟨t, ht, ?_⟩
  rw [hcov.written hallow hno ht.reaches, hend, Int.toNat_natCast, List.take_length]

theorem sound_of_covered (hallow : Allowed text results) (hcov : Covered text results) :
    Sound text results where
  ends := fun ⟨_, hfail⟩ => hcov.ends hallow hfail
  inside := fun _ h => hcov.inside hallow h
  once := hcov.once hallow

theorem Sound.ops_nonneg (h : Sound text results)
    (hreach : Reaches (step text results) (start text) s) (hs : Position text results s)
    (hne : s.ops ≠ text.bytes.length) : 0 ≤ s.ops := by
  obtain ⟨count, hasks, -, -⟩ := asks_eq_some hs hne
  obtain ⟨t, hst, hcalls⟩ := @step_calls text results s count hasks
  have hmem : Call.mk s.ops count ∈ t.calls := by
    rw [hcalls]
    exact List.mem_append_right _ (List.mem_singleton.mpr rfl)
  exact (h.inside t (.snoc hreach hst) _ hmem).1

theorem Sound.reached (h : Sound text results) (hallow : Allowed text results)
    (hk : ∀ j, j < k → taken results j ≠ text.bytes.length) :
    ∃ s, Reaches (step text results) (start text) s ∧ Position text results s ∧
      s.calls.length = k := by
  induction k with
  | zero => exact ⟨start text, .refl, position_start, rfl⟩
  | succ k ih =>
    obtain ⟨s, hreach, hs, hlen⟩ := ih fun j hj => hk j (Nat.lt_succ_of_lt hj)
    have hne : s.ops ≠ text.bytes.length := by
      rw [hs.ops, hlen]
      exact hk k (Nat.lt_succ_self k)
    obtain ⟨count, hasks, -, -⟩ := asks_eq_some hs hne
    obtain ⟨t, hst, hcalls⟩ := step_calls hasks
    have hpos := h.ops_nonneg hreach hs hne
    have hnext := hs.next hallow hreach hpos hst
    refine ⟨t, .snoc hreach hst, hnext.position, ?_⟩
    rw [hcalls, List.length_append, List.length_singleton, hlen]

theorem covered_of_sound (hallow : Allowed text results) (h : Sound text results) :
    Covered text results := by
  intro k hk
  obtain ⟨s, hreach, hs, hlen⟩ := h.reached hallow fun j hj => hk j (Nat.le_of_lt hj)
  have hne : s.ops ≠ text.bytes.length := by
    rw [hs.ops, hlen]
    exact hk k (Nat.le_refl k)
  rw [← hlen, ← hs.ops]
  exact h.ops_nonneg hreach hs hne

/-- The write loops end, stay inside the text and write it once exactly where, up to the end of
the text, the calls that failed never outnumber the bytes taken. -/
theorem sound_iff_covered (text : CheckText) (results : ℕ → ℤ)
    (hallow : Allowed text results) : Sound text results ↔ Covered text results :=
  ⟨covered_of_sound hallow, sound_of_covered hallow⟩

def fiveBytes : CheckText := ⟨"ABCDE".toList.map byte, by decide⟩

/-- Two bytes are taken, a call fails, and the two calls after it take the rest and a byte that
was taken before. -/
def shortResults (k : ℕ) : ℤ := [2, -1, 3].getD k 1

def states (text : CheckText) (results : ℕ → ℤ) : ℕ → Loop → List Loop
  | 0, s => [s]
  | n + 1, s => s :: ((step text results s).map (states text results n)).getD []

theorem allowed_short : Allowed fiveBytes shortResults := by
  have hclosed : ∀ s ∈ states fiveBytes shortResults 4 (start fiveBytes),
      ∀ t ∈ step fiveBytes shortResults s,
        t ∈ states fiveBytes shortResults 4 (start fiveBytes) := by decide +kernel
  have hallowed : ∀ s ∈ states fiveBytes shortResults 4 (start fiveBytes), ∀ count ∈ asks s,
      shortResults s.calls.length = -1 ∨
        1 ≤ shortResults s.calls.length ∧ shortResults s.calls.length ≤ count := by decide +kernel
  intro s count hreach hasks
  have hmem : s ∈ states fiveBytes shortResults 4 (start fiveBytes) :=
    hreach.invariant (fun s t hs hst => hclosed s hs t hst) List.mem_cons_self
  exact hallowed s hmem count hasks

theorem sound_short : Sound fiveBytes shortResults := by
  refine (sound_iff_covered fiveBytes shortResults allowed_short).mpr ?_
  intro k hpending
  have hk : k < 4 := by
    by_contra hge
    exact hpending 4 (Nat.not_lt.mp hge) (by decide)
  have hcovered : ∀ k, k < 4 → 0 ≤ taken shortResults k := by decide
  exact hcovered k hk

def oneByte : CheckText := ⟨[byte 'A'], by decide⟩

/-- `write` fails each time: the second call is for the byte before the text, and the loop does
not end. -/
theorem failing_write :
    (Allowed oneByte fun _ => -1) ∧
    (∃ s, Reaches (step oneByte fun _ => -1) (start oneByte) s ∧ ⟨-1, 1⟩ ∈ s.calls) ∧
    ¬ Sound oneByte fun _ => -1 := by
  have hreach : ∃ s, Reaches (step oneByte fun _ => -1) (start oneByte) s ∧
      ⟨-1, 1⟩ ∈ s.calls :=
    ⟨_, .snoc (.snoc .refl rfl) rfl, by decide⟩
  refine ⟨fun _ _ _ _ => .inl rfl, hreach, ?_⟩
  intro hsound
  obtain ⟨s, hs, hmem⟩ := hreach
  exact absurd (hsound.inside s hs _ hmem).1 (by decide)

end CheckFileWrites
