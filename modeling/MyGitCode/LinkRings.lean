import Mathlib.Data.List.Chain
import Mathlib.Data.List.Nodup
import Mathlib.Tactic.Common

/-! # Rings of links

A node that leads through a list of other nodes back to itself. A ring is changed at one place
at a time, between a node and the one after it. -/
namespace LinkRings

variable {α : Type*}

/-- From `q` through the nodes and back, along `R`. -/
def Ring (R : α → α → Prop) (q : α) (ns : List α) : Prop := List.IsChain R (q :: ns ++ [q])

variable {R R' : α → α → Prop} {q x : α} {l ns xs ys : List α}

theorem chain_congr (h : List.IsChain R l)
    (hsame : ∀ c ∈ l.dropLast, ∀ d ∈ l.tail, R c d → R' c d) : List.IsChain R' l := by
  induction l with
  | nil => exact .nil
  | cons a l ih =>
    cases l with
    | nil => exact .singleton a
    | cons b l =>
      rw [List.isChain_cons_cons] at h ⊢
      refine ⟨hsame a List.mem_cons_self b List.mem_cons_self h.1, ih h.2 fun c hc d hd => ?_⟩
      exact hsame c (List.mem_cons_of_mem _ hc) d (List.mem_cons_of_mem _ hd)

theorem Ring.congr (h : Ring R q ns)
    (hsame : ∀ c ∈ q :: ns, ∀ d ∈ q :: ns, R c d → R' c d) : Ring R' q ns := by
  refine chain_congr h fun c hc d hd => hsame c ?_ d ?_
  · rwa [List.dropLast_concat] at hc
  · rw [List.cons_append, List.tail_cons, List.mem_append, List.mem_singleton] at hd
    rw [List.mem_cons]
    exact hd.symm

theorem ring_append : Ring R q (xs ++ ys) ↔ List.IsChain R (q :: xs) ∧
    List.IsChain R (ys ++ [q]) ∧ R (xs.getLastD q) (ys.headD q) := by
  have hsplit : q :: (xs ++ ys) ++ [q] = (q :: xs) ++ (ys ++ [q]) := by simp
  have hlast : (q :: xs).getLast? = some (xs.getLastD q) := by
    rw [List.getLast?_cons, List.getLastD_eq_getLast?]
  have hhead : (ys ++ [q]).head? = some (ys.headD q) := by cases ys <;> rfl
  rw [Ring, hsplit, List.isChain_append, hlast, hhead]
  simp only [Option.mem_some_iff, forall_eq']

theorem Ring.first (h : Ring R q ns) : R q (ns.headD q) ∧ List.IsChain R (ns ++ [q]) := by
  have h' : Ring R q ([] ++ ns) := h
  obtain ⟨-, hchain, hhead⟩ := ring_append.mp h'
  exact ⟨hhead, hchain⟩

theorem chain_unique {z : α} (hR : ∀ a b c, R a b → R a c → b = c) (hxs : z ∉ xs) (hys : z ∉ ys)
    (h : List.IsChain R (x :: (xs ++ [z]))) (h' : List.IsChain R (x :: (ys ++ [z]))) :
    xs = ys := by
  induction xs generalizing x ys with
  | nil =>
    cases ys with
    | nil => rfl
    | cons c ys =>
      have heq := hR x z c (List.isChain_cons_cons.mp h).1 (List.isChain_cons_cons.mp h').1
      exact absurd (heq ▸ List.mem_cons_self) hys
  | cons b xs ih =>
    cases ys with
    | nil =>
      have heq := hR x z b (List.isChain_cons_cons.mp h').1 (List.isChain_cons_cons.mp h).1
      exact absurd (heq ▸ List.mem_cons_self) hxs
    | cons c ys =>
      rw [List.cons_append, List.isChain_cons_cons] at h h'
      rw [List.mem_cons, not_or] at hxs hys
      obtain rfl := hR x b c h.1 h'.1
      rw [ih hxs.2 hys.2 h.2 h'.2]

theorem Ring.unique (h : Ring R q xs) (h' : Ring R q ys) (hR : ∀ a b c, R a b → R a c → b = c)
    (hxs : q ∉ xs) (hys : q ∉ ys) : xs = ys :=
  chain_unique hR hxs hys h h'

theorem Ring.around (h : Ring R q (xs ++ x :: ys)) :
    R (xs.getLastD q) x ∧ R x (ys.headD q) := by
  obtain ⟨-, hright, hleft⟩ := ring_append.mp h
  refine ⟨hleft, ?_⟩
  cases ys with
  | nil => exact (List.isChain_cons_cons.mp hright).1
  | cons y ys => exact (List.isChain_cons_cons.mp hright).1

theorem getLastD_mem : xs.getLastD q ∈ q :: xs := by
  rcases List.eq_nil_or_concat xs with rfl | ⟨xs, a, rfl⟩
  · exact List.mem_cons_self
  · simp

theorem headD_mem : ys.headD q ∈ q :: ys := by
  cases ys <;> simp

theorem last_mem : xs.getLastD q ∈ q :: (xs ++ ys) := List.mem_append_left ys getLastD_mem

theorem first_mem : ys.headD q ∈ q :: (xs ++ ys) := by
  rcases List.mem_cons.mp (@headD_mem _ q ys) with heq | hmem
  · rw [heq]
    exact List.mem_cons_self
  · exact List.mem_cons_of_mem _ (List.mem_append_right xs hmem)

theorem ne_last (hnodup : (q :: xs).Nodup) (hx : x ∈ (q :: xs).dropLast) : x ≠ xs.getLastD q := by
  rcases List.eq_nil_or_concat xs with rfl | ⟨xs, a, rfl⟩
  · exact absurd hx List.not_mem_nil
  · rw [List.concat_eq_append, ← List.cons_append] at *
    rw [List.dropLast_concat] at hx
    rw [List.getLastD_concat]
    rintro rfl
    exact (List.nodup_append'.mp hnodup).2.2 hx List.mem_cons_self

theorem sides_congr (hleft : List.IsChain R (q :: xs)) (hright : List.IsChain R (ys ++ [q]))
    (hnodup : (q :: (xs ++ ys)).Nodup)
    (hkeep : ∀ c ∈ q :: (xs ++ ys), ∀ d ∈ q :: (xs ++ ys), c ≠ xs.getLastD q →
      d ≠ ys.headD q → R c d → R' c d) :
    List.IsChain R' (q :: xs) ∧ List.IsChain R' (ys ++ [q]) := by
  rw [List.nodup_cons, List.mem_append, not_or, List.nodup_append'] at hnodup
  obtain ⟨⟨hqx, hqy⟩, hxs, hys, hdisjoint⟩ := hnodup
  constructor
  · refine chain_congr hleft fun c hc d hd => hkeep c ?_ d ?_ ?_ ?_
    · exact List.mem_append_left ys (List.dropLast_subset _ hc)
    · exact List.mem_cons_of_mem _ (List.mem_append_left ys hd)
    · exact ne_last (List.nodup_cons.mpr ⟨hqx, hxs⟩) hc
    · rintro rfl
      rcases List.mem_cons.mp (@headD_mem _ q ys) with heq | hmem
      · exact hqx (heq ▸ hd)
      · exact hdisjoint hd hmem
  · refine chain_congr hright fun c hc d hd => hkeep c ?_ d ?_ ?_ ?_
    · rw [List.dropLast_concat] at hc
      exact List.mem_cons_of_mem _ (List.mem_append_right xs hc)
    · rcases List.mem_append.mp (List.mem_of_mem_tail hd) with hmem | hmem
      · exact List.mem_cons_of_mem _ (List.mem_append_right xs hmem)
      · rw [List.mem_singleton.mp hmem]
        exact List.mem_cons_self
    · rw [List.dropLast_concat] at hc
      rintro rfl
      rcases List.mem_cons.mp (@getLastD_mem _ q xs) with heq | hmem
      · exact hqy (heq ▸ hc)
      · exact hdisjoint hmem hc
    · cases ys with
      | nil => exact absurd hd List.not_mem_nil
      | cons y ys =>
        rintro rfl
        rcases List.mem_append.mp hd with hmem | hmem
        · exact (List.nodup_cons.mp hys).1 hmem
        · exact hqy (List.mem_singleton.mp hmem ▸ List.mem_cons_self)

theorem Ring.splice {S : α → α → Prop} {cs : List α} (h : Ring R q (xs ++ ys))
    (hnodup : (q :: (xs ++ ys)).Nodup) (hcs : List.IsChain S cs) (hne : cs ≠ [])
    (hkeep : ∀ c ∈ q :: (xs ++ ys), ∀ d ∈ q :: (xs ++ ys), c ≠ xs.getLastD q →
      d ≠ ys.headD q → R c d → R' c d)
    (hinner : ∀ c ∈ cs.dropLast, ∀ d ∈ cs.tail, S c d → R' c d)
    (hbefore : R' (xs.getLastD q) (cs.headD q)) (hafter : R' (cs.getLastD q) (ys.headD q)) :
    Ring R' q (xs ++ (cs ++ ys)) := by
  obtain ⟨hleft, hright, -⟩ := ring_append.mp h
  obtain ⟨hleft', hright'⟩ := sides_congr hleft hright hnodup hkeep
  have hlast : cs.getLast? = some (cs.getLastD q) := by
    rw [List.getLastD_eq_getLast?, List.getLast?_eq_some_getLast hne, Option.getD_some]
  have hhead : (ys ++ [q]).head? = some (ys.headD q) := by cases ys <;> rfl
  have hfirst : (cs ++ ys).headD q = cs.headD q := by
    obtain ⟨c, cs, rfl⟩ := List.exists_cons_of_ne_nil hne
    rfl
  refine ring_append.mpr ⟨hleft', ?_, hfirst ▸ hbefore⟩
  rw [List.append_assoc]
  refine List.isChain_append.mpr ⟨chain_congr hcs hinner, hright', ?_⟩
  rw [hlast, hhead]
  simp only [Option.mem_some_iff, forall_eq']
  exact hafter

theorem Ring.insert (h : Ring R q (xs ++ ys)) (hnodup : (q :: (xs ++ ys)).Nodup)
    (hkeep : ∀ c ∈ q :: (xs ++ ys), ∀ d ∈ q :: (xs ++ ys), c ≠ xs.getLastD q →
      d ≠ ys.headD q → R c d → R' c d)
    (hbefore : R' (xs.getLastD q) x) (hafter : R' x (ys.headD q)) :
    Ring R' q (xs ++ x :: ys) :=
  h.splice hnodup (@List.isChain_singleton _ R x) (List.cons_ne_nil x []) hkeep nofun hbefore
    hafter

theorem Ring.cut {cs : List α} (h : Ring R q (xs ++ (cs ++ ys)))
    (hnodup : (q :: (xs ++ (cs ++ ys))).Nodup)
    (hkeep : ∀ c ∈ q :: (xs ++ ys), ∀ d ∈ q :: (xs ++ ys), c ≠ xs.getLastD q →
      d ≠ ys.headD q → R c d → R' c d)
    (hlink : R' (xs.getLastD q) (ys.headD q)) : Ring R' q (xs ++ ys) := by
  obtain ⟨hleft, hright, -⟩ := ring_append.mp h
  rw [List.append_assoc] at hright
  have hnodup' : (q :: (xs ++ ys)).Nodup :=
    hnodup.sublist ((List.sublist_append_right cs ys).append_left xs |>.cons_cons q)
  obtain ⟨hleft', hright'⟩ := sides_congr hleft hright.right_of_append hnodup' hkeep
  exact ring_append.mpr ⟨hleft', hright', hlink⟩

theorem Ring.remove (h : Ring R q (xs ++ x :: ys)) (hnodup : (q :: (xs ++ x :: ys)).Nodup)
    (hkeep : ∀ c ∈ q :: (xs ++ ys), ∀ d ∈ q :: (xs ++ ys), c ≠ xs.getLastD q →
      d ≠ ys.headD q → R c d → R' c d)
    (hlink : R' (xs.getLastD q) (ys.headD q)) : Ring R' q (xs ++ ys) := by
  have h' : Ring R q (xs ++ ([x] ++ ys)) := h
  exact h'.cut hnodup hkeep hlink

theorem Ring.join {r : α} {ms : List α} (h : Ring R q ns) (h' : Ring R r ms) (hms : ms ≠ [])
    (hnodup : (q :: ns).Nodup) (hnodup' : ms.Nodup)
    (hkeep : ∀ c ∈ q :: ns, ∀ d, c ≠ ns.getLastD q → R c d → R' c d)
    (hkeep' : ∀ c ∈ ms, ∀ d, c ≠ ms.getLastD r → R c d → R' c d)
    (hlink : R' (ns.getLastD q) (ms.headD q)) (hend : R' (ms.getLastD r) q) :
    Ring R' q (ns ++ ms) := by
  obtain ⟨m, ms, rfl⟩ := List.exists_cons_of_ne_nil hms
  rw [List.getLastD_cons] at hkeep' hend
  rw [← List.append_nil ns] at h hnodup
  have hsplice := h.splice hnodup (List.IsChain.left_of_append h'.first.2) hms
    (fun c hc d _ hcn _ => hkeep c (List.append_nil ns ▸ hc) d hcn)
    (fun c hc d _ => hkeep' c (List.dropLast_subset _ hc) d (ne_last hnodup' hc)) hlink
    (by rwa [List.getLastD_cons])
  rwa [List.append_nil] at hsplice

end LinkRings
