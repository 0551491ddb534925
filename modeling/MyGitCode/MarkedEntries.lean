import Mathlib.Data.List.Infix
import Mathlib.Data.Nat.Count
import MyGitCode.DelimitedRuns

/-! # Entries behind marks

A marked list begins with a mark and has no other. So it does not overlap with itself in a text,
and where marked lists are put together it is found only at the beginning of one of them. -/
namespace MarkedEntries

variable {α : Type*}

def Marked (mark : α) (s : List α) : Prop := ∃ body, s = mark :: body ∧ mark ∉ body

def fromLast [DecidableEq α] (mark : α) (u : List α) : List α :=
  mark :: (u.reverse.takeWhile (· ≠ mark)).reverse

def At (s u : List α) (i : ℕ) : Prop := s <+: u.drop i

instance [DecidableEq α] (s u : List α) : DecidablePred (At s u) :=
  fun i => inferInstanceAs (Decidable (s <+: u.drop i))

variable {mark : α} {s t e u body rest : List α} {es : List (List α)} {i k : ℕ}

theorem Marked.ne_nil (h : Marked mark s) : s ≠ [] := by
  obtain ⟨body, rfl, -⟩ := h
  exact List.cons_ne_nil _ _

theorem Marked.beginning (h : Marked mark e) (hs : s <+: e) (hne : s ≠ []) : Marked mark s := by
  obtain ⟨body, rfl, hbody⟩ := h
  rcases List.prefix_cons_iff.mp hs with rfl | ⟨p, rfl, hp⟩
  · exact absurd rfl hne
  · exact ⟨p, rfl, fun hmem => hbody (hp.subset hmem)⟩

theorem Marked.infix_append_iff (h : Marked mark s) (hbody : mark ∉ body) :
    s <:+: body ++ rest ↔ s <:+: rest := by
  obtain ⟨p, rfl, -⟩ := h
  induction body with
  | nil => rfl
  | cons c body ih =>
    rw [List.mem_cons, not_or] at hbody
    rw [List.cons_append, List.infix_cons_iff, ih hbody.2]
    refine or_iff_right fun hpre => ?_
    exact hbody.1 (List.cons_prefix_cons.mp hpre).1

theorem Marked.prefix_append_iff (h : Marked mark s) (he : Marked mark e)
    (hrest : ∀ c ∈ rest.head?, c = mark) : s <+: e ++ rest ↔ s <+: e := by
  refine ⟨fun hpre => ?_, fun hpre => hpre.trans (List.prefix_append e rest)⟩
  obtain ⟨p, rfl, hp⟩ := h
  rcases List.prefix_or_prefix_of_prefix hpre (List.prefix_append e rest) with hin | ⟨more, hmore⟩
  · exact hin
  · cases more with
    | nil =>
      rw [List.append_nil] at hmore
      rw [hmore]
    | cons c more =>
      obtain ⟨body, rfl, -⟩ := he
      rw [← hmore, List.prefix_append_right_inj] at hpre
      obtain ⟨rest', rfl⟩ := hpre
      obtain rfl := hrest c rfl
      obtain ⟨-, rfl⟩ := List.cons.inj hmore
      exact absurd (List.mem_append_right body List.mem_cons_self) hp

theorem head_flatten (h : ∀ e ∈ es, Marked mark e) : ∀ c ∈ es.flatten.head?, c = mark := by
  intro c hc
  cases es with
  | nil => cases hc
  | cons e es =>
    obtain ⟨body, rfl, -⟩ := h e List.mem_cons_self
    exact (Option.some.inj hc).symm

theorem Marked.infix_flatten_iff (h : Marked mark s) (hes : ∀ e ∈ es, Marked mark e) :
    s <:+: es.flatten ↔ ∃ e ∈ es, s <+: e := by
  induction es with
  | nil => simpa using h.ne_nil
  | cons e es ih =>
    have he := hes e List.mem_cons_self
    have hrest : ∀ e' ∈ es, Marked mark e' := fun e' he' => hes e' (List.mem_cons_of_mem e he')
    have hpre := h.prefix_append_iff he (head_flatten hrest)
    obtain ⟨body, rfl, hbody⟩ := he
    have hskip : s <:+: body ++ es.flatten ↔ s <:+: es.flatten := h.infix_append_iff hbody
    simp only [List.mem_cons, exists_eq_or_imp]
    rw [← hpre, ← ih hrest, ← hskip, List.flatten_cons]
    exact List.infix_cons_iff

theorem Marked.suffix_unique (hs : Marked mark s) (ht : Marked mark t) (hsu : s <:+ u)
    (htu : t <:+ u) : s = t := by
  have hinside : ∀ {a b : List α}, Marked mark a → Marked mark b → a <:+ b → a = b := by
    intro a b ha hb hab
    obtain ⟨p, rfl, -⟩ := ha
    obtain ⟨q, rfl, hq⟩ := hb
    rcases List.suffix_cons_iff.mp hab with heq | hsuf
    · exact heq
    · exact absurd (hsuf.subset List.mem_cons_self) hq
  rcases List.suffix_or_suffix_of_suffix hsu htu with hst | hts
  · exact hinside hs ht hst
  · exact (hinside ht hs hts).symm

theorem fromLast_append [DecidableEq α] (hbody : mark ∉ body) (stem : List α) :
    fromLast mark (stem ++ mark :: body) = mark :: body := by
  have hback : mark ∉ body.reverse := fun h => hbody (List.mem_reverse.mp h)
  rw [fromLast, List.reverse_append, List.reverse_cons, List.append_assoc, List.singleton_append,
    DelimitedRuns.takeWhile_ne_append_cons hback, List.reverse_reverse]

theorem marked_suffix_iff [DecidableEq α] (h : mark ∈ u) :
    Marked mark s ∧ s <:+ u ↔ s = fromLast mark u := by
  have hlast : Marked mark (fromLast mark u) ∧ fromLast mark u <:+ u := by
    obtain ⟨back, front, hsplit, hback⟩ := List.eq_append_cons_of_mem (List.mem_reverse.mpr h)
    have hu : u = front.reverse ++ mark :: back.reverse := by
      rw [← List.reverse_reverse u, hsplit, List.reverse_append, List.reverse_cons,
        List.append_assoc]
      rfl
    have hbody : mark ∉ back.reverse := fun hmem => hback (List.mem_reverse.mp hmem)
    rw [hu, fromLast_append hbody]
    exact ⟨⟨_, rfl, hbody⟩, List.suffix_append _ _⟩
  constructor
  · rintro ⟨hs, hsu⟩
    exact hs.suffix_unique hlast.1 hsu hlast.2
  · rintro rfl
    exact hlast

theorem Marked.at_head (h : Marked mark s) (hi : At s u i) : u[i]? = some mark := by
  obtain ⟨body, rfl, -⟩ := h
  obtain ⟨rest, hrest⟩ := hi
  rw [← Nat.add_zero i, ← List.getElem?_drop, ← hrest]
  rfl

theorem Marked.at_next (h : Marked mark s) (hi : At s u i) (hk : u[k]? = some mark) (hik : i < k) :
    i + s.length ≤ k := by
  obtain ⟨body, rfl, hbody⟩ := h
  obtain ⟨rest, hrest⟩ := hi
  by_contra hlt
  obtain ⟨d, rfl⟩ : ∃ d, k = i + (d + 1) := ⟨k - i - 1, by omega⟩
  rw [List.length_cons] at hlt
  have hd : d < body.length := by omega
  rw [← List.getElem?_drop, ← hrest, List.cons_append, List.getElem?_cons_succ,
    List.getElem?_append_left hd] at hk
  exact hbody (List.mem_of_getElem? hk)

theorem Marked.count_at [DecidableEq α] (h : Marked mark s) (hi : At s u i) :
    Nat.count (At s u) (i + s.length) = Nat.count (At s u) i + 1 := by
  obtain ⟨m, hm⟩ : ∃ m, s.length = m + 1 :=
    Nat.exists_eq_succ_of_ne_zero (List.length_pos_iff.mpr h.ne_nil).ne'
  have hnone : Nat.count (fun d => At s u (i + 1 + d)) m = 0 := by
    rw [Nat.count_iff_forall_not]
    intro d hd hat
    have hnext := h.at_next hi (h.at_head hat) (by omega)
    omega
  rw [hm, Nat.add_comm m, ← Nat.add_assoc, Nat.count_add, hnone, Nat.count_succ, if_pos hi]

theorem Marked.count_le [DecidableEq α] {m : ℕ} (h : Marked mark s) (hm : s.length = m + 1)
    (hk : u[k]? = some mark) (hik : i ≤ k) :
    m * Nat.count (At s u) k + i ≤ m * Nat.count (At s u) i + k := by
  induction hd : k - i using Nat.strong_induction_on generalizing i with
  | _ d ih =>
    subst hd
    rcases Nat.eq_or_lt_of_le hik with rfl | hlt
    · exact le_rfl
    · by_cases hi : At s u i
      · have hnext := h.at_next hi hk hlt
        have hrest := ih _ (by omega) hnext rfl
        rw [h.count_at hi, Nat.mul_succ] at hrest
        omega
      · have hrest := ih _ (by omega) hlt rfl
        rw [Nat.count_succ, if_neg hi, Nat.add_zero] at hrest
        omega

end MarkedEntries
