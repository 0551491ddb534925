import MyGitCode.TransitionRuns
import Mathlib.Data.Int.Notation
import Mathlib.Logic.Function.Basic
import Mathlib.Tactic.Common

/-! # The handle table of `h.c`

An array of pointers that grows by 16 entries. A handle is the index of an entry, and an entry
that is not in use is NULL. An `int` is of the size of a pointer, as the code has it. -/
namespace HandleTable

open TransitionRuns

variable {α : Type*}

def H_INCR : ℕ := 16

/-- The length of the list, the number of used handles, and the entries behind them. -/
structure Table (α : Type*) where
  len : ℕ
  used : ℤ
  slots : List (Option α)
  deriving DecidableEq

def firstNull (mp : Table α) : ℕ := mp.slots.findIdx Option.isNone

def grow (mp : Table α) : Table α :=
  ⟨mp.len + H_INCR, mp.used + 1, mp.slots ++ List.replicate H_INCR none⟩

/-- The first call makes the table. `ok` is whether memory for it is found. -/
def ensureTable (ok : Bool) : Option (Table α) → Option (Table α)
  | none => if ok then some ⟨H_INCR, 0, List.replicate H_INCR none⟩ else none
  | some mp => some mp

/-- `ok` is whether memory for a new table or a longer one is found. -/
def hAlloc (ok : Bool) (map : Option (Table α)) : Option (Table α) × ℤ :=
  match ensureTable ok map with
  | none => (map, -1)
  | some mp =>
    if mp.used < mp.len ∧ firstNull mp < mp.len then
      (some { mp with used := mp.used + 1 }, firstNull mp)
    else if ok then (some (grow mp), mp.len)
    else (map, -1)

/-- The greatest index below `n` of an entry in use, or -1. -/
def lastUsed (slots : List (Option α)) : ℕ → ℤ
  | 0 => -1
  | n + 1 => if slots[n]?.join.isSome then n else lastUsed slots n

/-- No result where there is no such entry. -/
def hFree (map : Option (Table α)) (handle : ℕ) : Option (Option (Table α) × ℤ) :=
  match map with
  | none => none
  | some mp =>
    if handle < mp.slots.length then
      let mp := { mp with slots := mp.slots.set handle none, used := mp.used - 1 }
      if mp.used = 0 then some (none, 0)
      else if mp.used < mp.len then some (some mp, lastUsed mp.slots mp.len + 1)
      else some (some mp, mp.len + 1)
    else none

def setEntry (map : Option (Table α)) (handle : ℕ) (cp : α) : Option (Table α) :=
  map.map fun mp => { mp with slots := mp.slots.set handle (some cp) }

/-- `cp` is the memory for the entry, if there is any. -/
def hAllocEntry (ok : Bool) (cp : Option α) (list : Option (Table α)) (max size : ℤ) :
    Option (Option (Table α) × ℤ × ℤ) :=
  let (list, id) := hAlloc ok list
  if id < 0 then some (list, max, -1)
  else if size > 0 then
    match cp with
    | none => (hFree list id.toNat).map fun (list, _) => (list, max, -1)
    | some cp => some (setEntry list id.toNat cp, if id ≥ max then id + 1 else max, id)
  else some (list, if id ≥ max then id + 1 else max, id)

/-- A table, and the number that its users keep as one more than the greatest handle. -/
structure State (α : Type*) where
  map : Option (Table α)
  max : ℤ

inductive Event (α : Type*) where
  | entry (cp : Option α) (id : ℤ)
  | free (handle : ℕ)

def lookup (map : Option (Table α)) (handle : ℕ) : Option α :=
  map.bind fun mp => mp.slots[handle]?.join

/-- An entry is asked for with memory, as `symOpen` does, and a handle that is freed is in use. -/
inductive Step : State α → Event α → State α → Prop where
  | entry {s ok cp map max id} {size : ℤ} : 0 < size →
      hAllocEntry ok cp s.map s.max size = some (map, max, id) → Step s (.entry cp id) ⟨map, max⟩
  | free {s handle map max} : lookup s.map handle ≠ none →
      hFree s.map handle = some (map, max) → Step s (.free handle) ⟨map, max⟩

def Init (s : State α) : Prop := s = ⟨none, 0⟩

/-- What the handles stand for after an event. -/
def record (m : ℕ → Option α) : Event α → ℕ → Option α
  | .entry cp id => if 0 ≤ id then Function.update m id.toNat cp else m
  | .free handle => Function.update m handle none

def live (es : List (Event α)) : ℕ → Option α := es.foldl record fun _ => none

/-- The table holds what the handles stand for. There is none where no handle is in use. -/
structure Tabled (map : Option (Table α)) (m : ℕ → Option α) : Prop where
  entries : ∀ i, lookup map i = m i
  gone : map = none ↔ ∀ i, m i = none
  table : ∀ mp ∈ map, mp.len = mp.slots.length ∧ mp.used = mp.slots.countP Option.isSome

def IsMax (m : ℕ → Option α) (max : ℤ) : Prop :=
  (∀ i, m i ≠ none → (i : ℤ) < max) ∧ (max = 0 ∨ ∃ i, m i ≠ none ∧ max = i + 1)

def Represents (s : State α) (m : ℕ → Option α) : Prop := Tabled s.map m ∧ IsMax m s.max

variable {s t : State α} {m : ℕ → Option α} {mp : Table α} {slots : List (Option α)}
  {map : Option (Table α)} {e : Event α} {i j n : ℕ} {ok : Bool} {cp : Option α}

theorem lookup_set (hi : i < slots.length) :
    ((slots.set i cp)[j]?.join) = if j = i then cp else slots[j]?.join := by
  by_cases hij : j = i
  · subst hij
    rw [List.getElem?_set_self hi, Option.join_some, if_pos rfl]
  · rw [List.getElem?_set_ne (Ne.symm hij), if_neg hij]

theorem lookup_grow : (slots ++ List.replicate n none)[j]?.join = slots[j]?.join := by
  by_cases hj : j < slots.length
  · rw [List.getElem?_append_left hj]
  · rw [List.getElem?_append_right (Nat.not_lt.mp hj), List.getElem?_replicate,
      List.getElem?_eq_none (Nat.not_lt.mp hj)]
    split <;> rfl

theorem firstNull_least (h : firstNull mp < mp.slots.length) :
    mp.slots[firstNull mp]?.join = none ∧ ∀ j, j < firstNull mp → mp.slots[j]?.join ≠ none := by
  constructor
  · have hnull := List.findIdx_getElem (w := h)
    rw [List.getElem?_eq_getElem h, Option.join_some]
    exact Option.isNone_iff_eq_none.mp hnull
  · intro j hj hnone
    have hused := List.not_of_lt_findIdx hj
    rw [List.getElem?_eq_getElem (Nat.lt_trans hj h), Option.join_some] at hnone
    rw [hnone] at hused
    exact absurd hused nofun

theorem countP_full (h : ¬ firstNull mp < mp.slots.length) :
    mp.slots.countP Option.isSome = mp.slots.length := by
  rw [firstNull, List.findIdx_lt_length, not_exists] at h
  rw [List.countP_eq_length]
  intro x hx
  exact Option.isSome_iff_ne_none.mpr fun hnone => h x ⟨hx, Option.isNone_iff_eq_none.mpr hnone⟩

theorem lastUsed_spec (slots : List (Option α)) (n : ℕ) :
    (∀ i, i < n → slots[i]?.join ≠ none → (i : ℤ) ≤ lastUsed slots n) ∧
      (lastUsed slots n = -1 ∨ ∃ i, i < n ∧ slots[i]?.join ≠ none ∧ lastUsed slots n = i) := by
  induction n with
  | zero => exact ⟨nofun, .inl rfl⟩
  | succ n ih =>
    rw [lastUsed]
    split
    · rename_i hused
      refine ⟨fun i hi _ => by omega, .inr ⟨n, Nat.lt_succ_self n, ?_, rfl⟩⟩
      exact Option.isSome_iff_ne_none.mp hused
    · rename_i hnull
      refine ⟨fun i hi hne => ?_, ih.2.imp_right fun ⟨i, hi, hrest⟩ => ⟨i, by omega, hrest⟩⟩
      by_cases hin : i = n
      · subst hin
        exact absurd (Option.isSome_iff_ne_none.mpr hne) hnull
      · exact ih.1 i (by omega) hne

/-- A table whose entries stand for `m`, where `used` counts more than the entries in use. -/
structure Holds (mp : Table α) (m : ℕ → Option α) (more : ℤ) : Prop where
  len : mp.len = mp.slots.length
  used : mp.used = mp.slots.countP Option.isSome + more
  entries : ∀ i, mp.slots[i]?.join = m i

theorem Tabled.ensureTable (h : Tabled map m) (ok : Bool) :
    (ensureTable ok map = none ∧ map = none) ∨
      ∃ mp, ensureTable ok map = some mp ∧ Holds mp m 0 := by
  cases map with
  | some mp =>
    obtain ⟨hlen, hused⟩ := h.table mp rfl
    exact .inr ⟨mp, rfl, hlen, hused.trans (Int.add_zero _).symm, h.entries⟩
  | none =>
    rw [HandleTable.ensureTable]
    split
    · refine .inr ⟨_, rfl, List.length_replicate.symm, ?_, fun i => ?_⟩
      · simp [List.countP_replicate]
      · rw [h.gone.mp rfl i]
        simpa using @lookup_grow α [] i H_INCR
    · exact .inl ⟨rfl, rfl⟩

theorem Tabled.hAlloc (h : Tabled map m) (ok : Bool) :
    hAlloc ok map = (map, -1) ∨
      ∃ (mp : Table α) (n : ℕ), hAlloc ok map = (some mp, (n : ℤ)) ∧ Holds mp m 1 ∧
        n < mp.slots.length ∧ m n = none ∧ ∀ j, j < n → m j ≠ none := by
  rw [HandleTable.hAlloc]
  rcases h.ensureTable ok with ⟨hnone, -⟩ | ⟨mp, hsome, hholds⟩
  · rw [hnone]
    exact .inl rfl
  rw [hsome]
  have hlen := hholds.len
  have hused := hholds.used
  by_cases hfree : firstNull mp < mp.len
  · have hbound : firstNull mp < mp.slots.length := hlen ▸ hfree
    obtain ⟨hnull, hleast⟩ := firstNull_least hbound
    have hlt : mp.used < mp.len := by
      rw [hused, Int.add_zero, hlen, Int.ofNat_lt]
      refine Nat.lt_of_le_of_ne List.countP_le_length fun hfull => ?_
      rw [List.countP_eq_length] at hfull
      have hused' := hfull _ (List.getElem_mem hbound)
      rw [List.getElem?_eq_getElem hbound, Option.join_some] at hnull
      rw [hnull] at hused'
      exact absurd hused' nofun
    simp only [hlt, hfree, and_self, if_true]
    refine .inr ⟨_, firstNull mp, rfl, ⟨hlen, ?_, hholds.entries⟩, hbound,
      (hholds.entries _).symm.trans hnull, fun j hj => hholds.entries j ▸ hleast j hj⟩
    rw [hused, Int.add_zero]
  · simp only [hfree, and_false, if_false]
    split
    · have hfull := countP_full (hlen ▸ hfree)
      refine .inr ⟨grow mp, mp.len, rfl, ⟨?_, ?_, fun i => ?_⟩, ?_, ?_, fun j hj => ?_⟩
      · simp [grow, hlen]
      · simp [grow, hused, List.countP_append, List.countP_replicate]
      · exact lookup_grow.trans (hholds.entries i)
      · simp [grow, hlen, H_INCR]
      · rw [← hholds.entries, hlen, List.getElem?_eq_none (Nat.le_refl _)]
        rfl
      · rw [← hholds.entries, List.getElem?_eq_getElem (hlen ▸ hj), Option.join_some]
        rw [List.countP_eq_length] at hfull
        exact Option.isSome_iff_ne_none.mp (hfull _ (List.getElem_mem _))
    · exact .inl rfl

theorem Holds.set (h : Holds mp m 1) (hn : n < mp.slots.length) (hnone : m n = none) (v : α) :
    Tabled (setEntry (some mp) n v) (Function.update m n (some v)) where
  entries := fun i => by
    rw [setEntry, Option.map_some, lookup, Option.bind_some, lookup_set hn, h.entries,
      Function.update_apply]
  gone := ⟨nofun, fun hall => absurd (Function.update_self n (some v) m ▸ hall n) nofun⟩
  table := fun mp' hmp' => by
    obtain rfl := Option.some_inj.mp hmp'
    have hnull := h.entries n
    rw [hnone, List.getElem?_eq_getElem hn, Option.join_some] at hnull
    refine ⟨h.len.trans List.length_set.symm, h.used.trans ?_⟩
    rw [List.countP_set hn, hnull]
    rfl

theorem Holds.free (h : Holds mp m 0) (hnone : m n = none) (hn : n < mp.slots.length) :
    ∃ map r, (if mp.used = 0 then some (none, 0)
      else if mp.used < mp.len then some (some mp, lastUsed mp.slots mp.len + 1)
      else some (some mp, (mp.len : ℤ) + 1)) = some (map, r) ∧ Tabled map m ∧ IsMax m r := by
  have hslot := h.entries n
  rw [hnone, List.getElem?_eq_getElem hn, Option.join_some] at hslot
  have hused := h.used
  rw [Int.add_zero] at hused
  by_cases hzero : mp.used = 0
  · have hall : ∀ i, m i = none := by
      intro i
      rw [hzero, eq_comm, Int.natCast_eq_zero, List.countP_eq_zero] at hused
      rw [← h.entries]
      by_cases hi : i < mp.slots.length
      · rw [List.getElem?_eq_getElem hi, Option.join_some]
        simpa using hused _ (List.getElem_mem hi)
      · rw [List.getElem?_eq_none (Nat.not_lt.mp hi)]
        rfl
    refine ⟨none, 0, if_pos hzero, ⟨fun i => (hall i).symm, ⟨fun _ => hall, fun _ => rfl⟩, nofun⟩,
      fun i hi => absurd (hall i) hi, .inl rfl⟩
  · have hlt : mp.used < mp.len := by
      rw [hused, h.len, Int.ofNat_lt]
      refine Nat.lt_of_le_of_ne List.countP_le_length fun hfull => ?_
      rw [List.countP_eq_length] at hfull
      have hsome := hfull _ (List.getElem_mem hn)
      rw [hslot] at hsome
      exact absurd hsome nofun
    obtain ⟨hbelow, hexact⟩ := lastUsed_spec mp.slots mp.len
    have hsome : ∃ i, m i ≠ none := by
      by_contra hnone
      rw [not_exists] at hnone
      refine hzero (hused.trans (Int.natCast_eq_zero.mpr (List.countP_eq_zero.mpr fun x hx => ?_)))
      obtain ⟨i, hi, rfl⟩ := List.getElem_of_mem hx
      have hi' := not_not.mp (hnone i)
      rw [← h.entries, List.getElem?_eq_getElem hi, Option.join_some] at hi'
      simp [hi']
    refine ⟨some mp, _, by rw [if_neg hzero, if_pos hlt], ⟨fun i => h.entries i,
      ⟨nofun, fun hall => absurd (hall hsome.choose) hsome.choose_spec⟩, fun mp' hmp' => ?_⟩,
      fun i hi => ?_, ?_⟩
    · obtain rfl := Option.some_inj.mp hmp'
      exact ⟨h.len, hused⟩
    · have hlen : i < mp.len := by
        by_contra hle
        rw [h.len] at hle
        rw [← h.entries, List.getElem?_eq_none (Nat.not_lt.mp hle)] at hi
        exact hi rfl
      have := hbelow i hlen (h.entries i ▸ hi)
      omega
    · rcases hexact with hnegone | ⟨i, -, hi, hlast⟩
      · rw [hnegone]
        exact .inl rfl
      · rw [hlast]
        exact .inr ⟨i, h.entries i ▸ hi, rfl⟩

theorem Holds.hFree (h : Holds mp m (if (m n).isSome then 0 else 1)) (hn : n < mp.slots.length) :
    ∃ map r, hFree (some mp) n = some (map, r) ∧ Tabled map (Function.update m n none) ∧
      IsMax (Function.update m n none) r := by
  have hslot := h.entries n
  rw [List.getElem?_eq_getElem hn, Option.join_some] at hslot
  have hholds : Holds { mp with slots := mp.slots.set n none, used := mp.used - 1 }
      (Function.update m n none) 0 := by
    refine ⟨h.len.trans List.length_set.symm, ?_, fun i => ?_⟩
    · have hused := h.used
      have hpos : (m n).isSome → 0 < mp.slots.countP Option.isSome := fun hsome =>
        List.countP_pos_iff.mpr ⟨_, List.getElem_mem hn, hslot ▸ hsome⟩
      simp only [List.countP_set hn, hslot, Option.isSome_none, Bool.false_eq_true, if_false]
      by_cases hsome : (m n).isSome = true
      · have := hpos hsome
        rw [if_pos hsome] at hused ⊢
        omega
      · rw [if_neg hsome] at hused ⊢
        omega
    · rw [lookup_set hn, h.entries, Function.update_apply]
  rw [HandleTable.hFree]
  simp only [if_pos hn]
  exact hholds.free (Function.update_self ..) (by simpa using hn)

theorem Tabled.hFree (h : Tabled map m) (hlive : m n ≠ none) :
    ∃ map' r, hFree map n = some (map', r) ∧ Tabled map' (Function.update m n none) ∧
      IsMax (Function.update m n none) r := by
  cases map with
  | none => exact absurd (h.gone.mp rfl n) hlive
  | some mp =>
    obtain ⟨hlen, hused⟩ := h.table mp rfl
    have hn : n < mp.slots.length := by
      by_contra hle
      rw [← h.entries, lookup, Option.bind_some, List.getElem?_eq_none (Nat.not_lt.mp hle)] at hlive
      exact hlive rfl
    refine Holds.hFree ⟨hlen, ?_, h.entries⟩ hn
    rw [if_pos (Option.isSome_iff_ne_none.mpr hlive), Int.add_zero]
    exact hused

theorem record_failed : record m (.entry cp (-1)) = m := by
  simp [record]

theorem record_entry : record m (.entry cp n) = Function.update m n cp := by
  simp [record]

theorem IsMax.entry {max : ℤ} (h : IsMax m max) (hcp : cp ≠ none) :
    IsMax (Function.update m n cp) (if (n : ℤ) ≥ max then n + 1 else max) := by
  obtain ⟨hbelow, hexact⟩ := h
  constructor
  · intro i hi
    by_cases hin : i = n
    · subst hin
      split <;> omega
    · rw [Function.update_of_ne hin] at hi
      have := hbelow i hi
      split <;> omega
  · split
    · exact .inr ⟨n, by rwa [Function.update_self], rfl⟩
    · rename_i hlt
      obtain ⟨i, hi, hmax⟩ := hexact.resolve_left (by omega)
      refine .inr ⟨i, ?_, hmax⟩
      rw [Function.update_apply]
      split
      · exact hcp
      · exact hi

/-- A new entry leaves the others as they are, with the least handle that is not in use, or
nothing changes for the users. -/
theorem Represents.hAllocEntry (h : Represents s m) (ok : Bool) (cp : Option α) {size : ℤ}
    (hsize : 0 < size) :
    ∃ map max id, hAllocEntry ok cp s.map s.max size = some (map, max, id) ∧
      Represents ⟨map, max⟩ (record m (.entry cp id)) ∧
      (0 ≤ id → cp ≠ none ∧ m id.toNat = none ∧ ∀ j, j < id.toNat → m j ≠ none) := by
  obtain ⟨htable, hmax⟩ := h
  rcases htable.hAlloc ok with hfail | ⟨mp, n, halloc, hholds, hn, hnone, hleast⟩
  · refine ⟨s.map, s.max, -1, by rw [HandleTable.hAllocEntry, hfail]; rfl, ?_, fun hneg =>
      absurd hneg (by decide)⟩
    rw [record_failed]
    exact ⟨htable, hmax⟩
  have hpos : ¬ (n : ℤ) < 0 := Int.not_lt.mpr (Int.natCast_nonneg n)
  simp only [HandleTable.hAllocEntry, halloc, if_neg hpos, if_pos hsize, Int.toNat_natCast]
  cases cp with
  | none =>
    have hfailed : Holds mp m (if (m n).isSome then 0 else 1) := by
      rw [hnone]
      exact hholds
    obtain ⟨map, r, hfree, htable', -⟩ := hfailed.hFree hn
    refine ⟨map, s.max, -1, by rw [hfree]; rfl, ?_, fun hneg => absurd hneg (by decide)⟩
    rw [record_failed]
    rw [← hnone, Function.update_eq_self] at htable'
    exact ⟨htable', hmax⟩
  | some v =>
    refine ⟨_, _, _, rfl, ?_, fun _ => ⟨nofun, hnone, hleast⟩⟩
    rw [record_entry]
    exact ⟨hholds.set hn hnone v, hmax.entry nofun⟩

theorem init_represents (h : Init s) : Represents s fun _ => none := by
  subst h
  exact ⟨⟨fun _ => rfl, ⟨fun _ _ => rfl, fun _ => rfl⟩, nofun⟩, nofun, .inl rfl⟩

theorem step_represents (h : Represents s m) (he : Step s e t) :
    Represents t (record m e) ∧ ∀ cp id, e = .entry cp id → 0 ≤ id →
      cp ≠ none ∧ m id.toNat = none ∧ ∀ j, j < id.toNat → m j ≠ none := by
  cases he with
  | @entry ok cp map max id size hsize halloc =>
    obtain ⟨map', max', id', halloc', hrep, hid⟩ := h.hAllocEntry ok cp hsize
    obtain ⟨rfl, rfl, rfl⟩ : map' = map ∧ max' = max ∧ id' = id := by
      have heq := Option.some_inj.mp (halloc'.symm.trans halloc)
      exact ⟨congrArg Prod.fst heq, congrArg (·.2.1) heq, congrArg (·.2.2) heq⟩
    refine ⟨hrep, fun cp' id hentry hnonneg => ?_⟩
    obtain ⟨rfl, rfl⟩ := Event.entry.inj hentry
    exact hid hnonneg
  | @free handle map max hlive hfree =>
    rw [h.1.entries] at hlive
    obtain ⟨map', r, hfree', htable, hmax⟩ := h.1.hFree hlive
    obtain ⟨rfl, rfl⟩ := Prod.mk.inj (Option.some_inj.mp (hfree'.symm.trans hfree))
    exact ⟨⟨htable, hmax⟩, nofun⟩

theorem live_concat (es : List (Event α)) (e : Event α) :
    live (es ++ [e]) = record (live es) e := by
  rw [live, live, List.foldl_append, List.foldl_cons, List.foldl_nil]

/-- After every run the table holds exactly the entries that were stored and not freed, the
number its users keep is one more than the greatest handle in use, and every handle that was
given out was the least one that was not in use. -/
theorem run_handles {ts : List (Taken (State α) (Event α))} (h : Run Init Step ts s) :
    Represents s (live (ts.map Taken.event)) ∧
      ∀ x ∈ ts, ∀ cp id, x.event = .entry cp id → 0 ≤ id →
        lookup x.before.map id.toNat = none ∧
          (∀ j, j < id.toNat → lookup x.before.map j ≠ none) ∧
          cp ≠ none ∧ lookup x.after.map id.toNat = cp := by
  induction h with
  | start hinit => exact ⟨init_represents hinit, fun _ hx => absurd hx List.not_mem_nil⟩
  | @snoc ts s e t _ he ih =>
    obtain ⟨hrep, hid⟩ := step_represents ih.1 he
    rw [List.map_append, List.map_singleton, live_concat]
    refine ⟨hrep, fun x hx cp id hevent hnonneg => ?_⟩
    rcases List.mem_append.mp hx with hx | hx
    · exact ih.2 x hx cp id hevent hnonneg
    · obtain rfl := List.mem_singleton.mp hx
      obtain ⟨hcp, hnone, hleast⟩ := hid cp id hevent hnonneg
      refine ⟨(ih.1.1.entries _).trans hnone, fun j hj => ih.1.1.entries j ▸ hleast j hj, hcp, ?_⟩
      obtain rfl : e = .entry cp id := hevent
      rw [hrep.1.entries, record, if_pos hnonneg, Function.update_self]

theorem run_handles_reuse : ∃ (ts : List (Taken (State ℕ) (Event ℕ))) (s : State ℕ),
    ts.map Taken.event = [.entry (some 7) 0, .entry (some 8) 1, .free 0, .entry (some 9) 0] ∧
      Represents s (live (ts.map Taken.event)) := by
  have hstart : Run Init Step [] (⟨none, 0⟩ : State ℕ) := .start rfl
  have hfirst := hstart.snoc (@Step.entry ℕ _ true (some 7) _ _ _ 4 (by decide) rfl)
  have hsecond := hfirst.snoc (@Step.entry ℕ _ true (some 8) _ _ _ 4 (by decide) rfl)
  have hfree := hsecond.snoc (@Step.free ℕ _ 0 _ _ nofun rfl)
  have hagain := hfree.snoc (@Step.entry ℕ _ true (some 9) _ _ _ 4 (by decide) rfl)
  exact ⟨_, _, rfl, (run_handles hagain).1⟩

end HandleTable
