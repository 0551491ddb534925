import Mathlib.Data.List.TakeWhile

/-! # Leftmost longest matches

A pattern with one group is a relation of what stands before the group, in it and behind it. A
finder gives the leftmost of the matches of a text, among these the longest, and among these the
one whose parts are the longest from left to right. -/
namespace LeftmostMatches

variable {α : Type*}

@[ext] structure Match where
  so : ℕ
  gso : ℕ
  geo : ℕ
  eo : ℕ
  so_le : so ≤ gso
  group_le : gso ≤ geo
  eo_ge : geo ≤ eo
  deriving DecidableEq

def Match.shift (m : Match) (k : ℕ) : Match where
  so := k + m.so
  gso := k + m.gso
  geo := k + m.geo
  eo := k + m.eo
  so_le := Nat.add_le_add_left m.so_le k
  group_le := Nat.add_le_add_left m.group_le k
  eo_ge := Nat.add_le_add_left m.eo_ge k

def part (text : List α) (i j : ℕ) : List α := (text.drop i).take (j - i)

abbrev Pattern (α : Type*) := List α → List α → List α → Prop

structure Matches (P : Pattern α) (text : List α) (m : Match) : Prop where
  inside : m.eo ≤ text.length
  parts : P (part text m.so m.gso) (part text m.gso m.geo) (part text m.geo m.eo)

def Match.Preferred (m m' : Match) : Prop :=
  m.so < m'.so ∨ m.so = m'.so ∧ (m'.eo < m.eo ∨ m.eo = m'.eo ∧
    (m'.gso < m.gso ∨ m.gso = m'.gso ∧ m'.geo ≤ m.geo))

structure Best (P : Pattern α) (text : List α) (k : ℕ) (m : Match) : Prop where
  isMatch : Matches P text m
  start : k ≤ m.so
  least : ∀ m', Matches P text m' → k ≤ m'.so → m.Preferred m'

/-- The matches that do not overlap, from an offset on, each chosen behind the one before. -/
inductive Scan (P : Pattern α) (text : List α) : ℕ → List Match → Prop where
  | done {k} (h : ∀ m, Matches P text m → ¬ k ≤ m.so) : Scan P text k []
  | next {k m ms} (h : Best P text k m) (hms : Scan P text m.eo ms) : Scan P text k (m :: ms)

/-- A function that finds the best match of a text, if there is one. -/
structure Finds (find : List α → Option Match) (P : Pattern α) : Prop where
  found : ∀ text m, find text = some m → Best P text 0 m
  missed : ∀ text, find text = none → ∀ m, ¬ Matches P text m

def Progress (P : Pattern α) : Prop :=
  ∀ pre group post, P pre group post → pre ++ group ++ post ≠ []

variable {P : Pattern α} {text : List α} {k i j : ℕ} {m m' : Match} {ms ms' : List Match}

theorem preferred_antisymm (h : m.Preferred m') (h' : m'.Preferred m) : m = m' := by
  simp only [Match.Preferred] at h h'
  ext <;> omega

theorem Best.unique (h : Best P text k m) (h' : Best P text k m') : m = m' :=
  preferred_antisymm (h.least m' h'.isMatch h'.start) (h'.least m h.isMatch h.start)

theorem Scan.unique (h : Scan P text k ms) (h' : Scan P text k ms') : ms = ms' := by
  induction h generalizing ms' with
  | done hnone =>
    cases h' with
    | done => rfl
    | next hbest => exact absurd hbest.start (hnone _ hbest.isMatch)
  | next hbest hms ih =>
    cases h' with
    | done hnone => exact absurd hbest.start (hnone _ hbest.isMatch)
    | next hbest' hms' =>
      obtain rfl := hbest.unique hbest'
      rw [ih hms']

theorem Best.lt (hP : Progress P) (h : Best P text k m) : k < m.eo := by
  have hne := hP _ _ _ h.isMatch.parts
  have hstart := h.start
  by_contra hle
  have heq : m.so = m.gso ∧ m.gso = m.geo ∧ m.geo = m.eo := by
    have := m.so_le
    have := m.group_le
    have := m.eo_ge
    omega
  apply hne
  simp only [part, heq.1, heq.2.1, heq.2.2, Nat.sub_self, List.take_zero, List.append_nil]

theorem part_drop : part (text.drop k) i j = part text (k + i) (k + j) := by
  rw [part, part, List.drop_drop, Nat.add_sub_add_left]

theorem matches_drop (hk : k ≤ text.length) :
    Matches P (text.drop k) m ↔ Matches P text (m.shift k) := by
  constructor
  · rintro ⟨hinside, hparts⟩
    rw [List.length_drop] at hinside
    rw [part_drop, part_drop, part_drop] at hparts
    exact ⟨by simp only [Match.shift]; omega, hparts⟩
  · rintro ⟨hinside, hparts⟩
    refine ⟨?_, ?_⟩
    · rw [List.length_drop]
      simp only [Match.shift] at hinside
      omega
    · rw [part_drop, part_drop, part_drop]
      exact hparts

theorem exists_shift (h : k ≤ m.so) : ∃ m' : Match, m = m'.shift k := by
  have hso := m.so_le
  have hgroup := m.group_le
  have heo := m.eo_ge
  refine ⟨⟨m.so - k, m.gso - k, m.geo - k, m.eo - k, ?_, ?_, ?_⟩, ?_⟩
  · omega
  · omega
  · omega
  · ext <;> simp only [Match.shift] <;> omega

theorem preferred_shift : (m.shift k).Preferred (m'.shift k) ↔ m.Preferred m' := by
  simp only [Match.Preferred, Match.shift]
  omega

theorem best_drop (hk : k ≤ text.length) (h : Best P (text.drop k) 0 m) :
    Best P text k (m.shift k) where
  isMatch := (matches_drop hk).mp h.isMatch
  start := Nat.le_add_right k m.so
  least m' hm' hstart := by
    obtain ⟨m'', rfl⟩ := exists_shift hstart
    exact preferred_shift.mpr (h.least m'' ((matches_drop hk).mpr hm') (Nat.zero_le _))

def Match.ofParts (pre group post : List α) : Match where
  so := 0
  gso := pre.length
  geo := pre.length + group.length
  eo := pre.length + group.length + post.length
  so_le := Nat.zero_le _
  group_le := Nat.le_add_right _ _
  eo_ge := Nat.le_add_right _ _

theorem matches_ofParts {pre group post rest : List α} (h : P pre group post) :
    Matches P (pre ++ (group ++ (post ++ rest))) (Match.ofParts pre group post) := by
  have hpre : part (pre ++ (group ++ (post ++ rest))) 0 pre.length = pre := by simp [part]
  have hgroup : part (pre ++ (group ++ (post ++ rest))) pre.length (pre.length + group.length) =
      group := by simp [part]
  have hpost : part (pre ++ (group ++ (post ++ rest))) (pre.length + group.length)
      (pre.length + group.length + post.length) = post := by
    rw [part, ← List.drop_drop, List.drop_left, List.drop_left, Nat.add_sub_cancel_left,
      List.take_left]
  refine ⟨?_, ?_⟩
  · simp only [Match.ofParts, List.length_append]
    omega
  · simp only [Match.ofParts, hpre, hgroup, hpost]
    exact h

theorem exists_parts (h : Matches P text m) (hso : m.so = 0) :
    ∃ pre group post rest, text = pre ++ (group ++ (post ++ rest)) ∧ P pre group post ∧
      m = Match.ofParts pre group post := by
  have hinside := h.inside
  have hgroup := m.group_le
  have heo := m.eo_ge
  have hlen : ∀ i j, j ≤ text.length → (part text i j).length = j - i := by
    intro i j hj
    rw [part, List.length_take, List.length_drop]
    omega
  have hsplit : ∀ i j, i ≤ j → text.drop i = part text i j ++ text.drop j := by
    intro i j hij
    obtain ⟨n, rfl⟩ := Nat.exists_eq_add_of_le hij
    rw [part, Nat.add_sub_cancel_left, ← List.drop_drop, List.take_append_drop]
  refine ⟨_, _, _, text.drop m.eo, ?_, h.parts, ?_⟩
  · rw [← hsplit _ _ heo, ← hsplit _ _ hgroup, ← hsplit _ _ m.so_le, hso]
    rfl
  · ext
    · exact hso
    · simp only [Match.ofParts, hlen _ _ (hgroup.trans (heo.trans hinside))]
      omega
    · simp only [Match.ofParts, hlen _ _ (hgroup.trans (heo.trans hinside)),
        hlen _ _ (heo.trans hinside)]
      omega
    · simp only [Match.ofParts, hlen _ _ (hgroup.trans (heo.trans hinside)),
        hlen _ _ (heo.trans hinside), hlen _ _ hinside]
      omega

structure Tries (here : List α → Option Match) (P : Pattern α) : Prop where
  found : ∀ text m, here text = some m → Matches P text m ∧ m.so = 0 ∧
    ∀ m', Matches P text m' → m'.so = 0 → m.Preferred m'
  missed : ∀ text, here text = none → ∀ m, Matches P text m → m.so ≠ 0

def search (here : List α → Option Match) : List α → Option Match
  | [] => here []
  | a :: text =>
    match here (a :: text) with
    | some m => some m
    | none => (search here text).map (·.shift 1)

variable {here : List α → Option Match}

theorem Tries.best (h : Tries here P) (hm : here text = some m) : Best P text 0 m := by
  obtain ⟨hmatch, hso, hleast⟩ := h.found text m hm
  refine ⟨hmatch, Nat.zero_le _, ?_⟩
  intro m' hm' _
  by_cases hso' : m'.so = 0
  · exact hleast m' hm' hso'
  · exact .inl (by omega)

theorem Tries.finds (h : Tries here P) : Finds (search here) P where
  found text := by
    induction text with
    | nil => exact fun m hm => h.best hm
    | cons a text ih =>
      intro m hm
      rw [search] at hm
      cases hhere : here (a :: text) with
      | some m' =>
        rw [hhere] at hm
        obtain rfl := Option.some.inj hm
        exact h.best hhere
      | none =>
        rw [hhere] at hm
        obtain ⟨m', hm', rfl⟩ := Option.map_eq_some_iff.mp hm
        have hlen : 1 ≤ (a :: text).length := Nat.le_add_left 1 _
        have hbest : Best P (a :: text) 1 (m'.shift 1) := best_drop hlen (ih m' hm')
        refine ⟨hbest.isMatch, Nat.zero_le _, ?_⟩
        intro m'' hm'' _
        have := h.missed _ hhere m'' hm''
        exact hbest.least m'' hm'' (by omega)
  missed text := by
    induction text with
    | nil =>
      intro hm m hmatch
      have hinside := hmatch.inside
      have := m.so_le
      have := m.group_le
      have := m.eo_ge
      rw [List.length_nil] at hinside
      exact h.missed [] hm m hmatch (by omega)
    | cons a text ih =>
      intro hm m hmatch
      rw [search] at hm
      cases hhere : here (a :: text) with
      | some m' =>
        rw [hhere] at hm
        cases hm
      | none =>
        rw [hhere] at hm
        have hso := h.missed _ hhere m hmatch
        obtain ⟨m', rfl⟩ : ∃ m' : Match, m = m'.shift 1 := exists_shift (by omega)
        have hlen : 1 ≤ (a :: text).length := Nat.le_add_left 1 _
        exact ih (Option.map_eq_none_iff.mp hm) m' ((matches_drop hlen).mpr hmatch)

end LeftmostMatches
