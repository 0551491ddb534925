import Mathlib.Data.List.Nodup
import Mathlib.Logic.Function.Basic

/-! # Chains of links

Nodes in memory that each hold the address of the next one. A segment leads from one pointer
through a list of addresses to another pointer, and a chain leads to the null pointer. -/
namespace LinkChains

variable {α : Type*}

/-- `link a` is the pointer that the node at `a` holds, if there is a node. -/
def Segment (link : α → Option (Option α)) : Option α → List α → Option α → Prop
  | p, [], q => p = q
  | p, a :: ns, q => p = some a ∧ ∃ r, link a = some r ∧ Segment link r ns q

def Chain (link : α → Option (Option α)) (p : Option α) (ns : List α) : Prop :=
  Segment link p ns none

variable {link link' : α → Option (Option α)} {p q r : Option α} {a b : α} {ns xs ys : List α}

theorem segment_append :
    Segment link p (xs ++ ys) q ↔ ∃ r, Segment link p xs r ∧ Segment link r ys q := by
  induction xs generalizing p with
  | nil =>
    constructor
    · exact fun h => ⟨p, rfl, h⟩
    · rintro ⟨r, rfl, h⟩
      exact h
  | cons a xs ih =>
    constructor
    · rintro ⟨hp, r, hr, hrest⟩
      obtain ⟨t, hxs, hys⟩ := ih.mp hrest
      exact ⟨t, ⟨hp, r, hr, hxs⟩, hys⟩
    · rintro ⟨t, ⟨hp, r, hr, hxs⟩, hys⟩
      exact ⟨hp, r, hr, ih.mpr ⟨t, hxs, hys⟩⟩

theorem Segment.congr (h : Segment link p ns q) (hsame : ∀ a ∈ ns, link' a = link a) :
    Segment link' p ns q := by
  induction ns generalizing p with
  | nil => exact h
  | cons a ns ih =>
    rw [List.forall_mem_cons] at hsame
    obtain ⟨hp, r, hr, hrest⟩ := h
    exact ⟨hp, r, hsame.1.trans hr, ih hrest hsame.2⟩

theorem Segment.allocated (h : Segment link p ns q) : ∀ a ∈ ns, link a ≠ none := by
  induction ns generalizing p with
  | nil => nofun
  | cons a ns ih =>
    obtain ⟨-, r, hr, hrest⟩ := h
    rw [List.forall_mem_cons]
    exact ⟨by simp [hr], ih hrest⟩

theorem Segment.head (h : Segment link p ns q) (hns : ns ≠ []) : p = ns.head? := by
  cases ns with
  | nil => exact absurd rfl hns
  | cons a ns => exact h.1

section Update

variable [DecidableEq α]

theorem Segment.update (h : Segment link p ns q) (ha : a ∉ ns) (v : Option (Option α)) :
    Segment (Function.update link a v) p ns q := by
  refine h.congr fun b hb => Function.update_of_ne ?_ _ _
  rintro rfl
  exact ha hb

theorem Chain.unlink (h : Chain link p (xs ++ a :: b :: ys)) (hnodup : (xs ++ a :: b :: ys).Nodup)
    (hb : link b = some r) : Chain (Function.update link a (some r)) p (xs ++ a :: ys) := by
  obtain ⟨t, hxs, rfl, u, -, rfl, w, hw, hys⟩ := segment_append.mp h
  obtain rfl : w = r := Option.some.inj (hw.symm.trans hb)
  rw [List.nodup_append'] at hnodup
  obtain ⟨-, hnodup, hdisjoint⟩ := hnodup
  rw [List.nodup_cons, List.mem_cons, not_or] at hnodup
  refine segment_append.mpr ⟨_, hxs.update (fun hmem => ?_) _, rfl, _, Function.update_self .., ?_⟩
  · exact hdisjoint hmem List.mem_cons_self
  · exact Segment.update hys hnodup.1.2 _

theorem Chain.push (h : Chain link p (xs ++ [a])) (hnodup : (xs ++ [a]).Nodup)
    (hb : b ∉ xs ++ [a]) :
    Chain (Function.update (Function.update link b (some none)) a (some (some b))) p
      (xs ++ [a] ++ [b]) := by
  obtain ⟨t, hxs, rfl, u, -, -⟩ := segment_append.mp h
  rw [List.mem_append, List.mem_singleton, not_or] at hb
  rw [List.nodup_append'] at hnodup
  have ha : a ∉ xs := fun hmem => hnodup.2.2 hmem (List.mem_singleton.mpr rfl)
  rw [List.append_assoc]
  refine segment_append.mpr ⟨_, (hxs.update hb.1 _).update ha _, rfl, _, Function.update_self ..,
    rfl, none, ?_, rfl⟩
  rw [Function.update_of_ne hb.2, Function.update_self]

end Update

/-- The nodes are in a chain from the front, and in reverse order in one from the back. -/
structure Doubly (next prev : α → Option (Option α)) (front back : Option α) (ns : List α) :
    Prop where
  forward : Chain next front ns
  backward : Chain prev back ns.reverse
  nodup : ns.Nodup

variable {next prev next' prev' : α → Option (Option α)} {front back : Option α}

theorem Chain.start (h : Chain link p ns) : p = ns.head? := by
  cases ns with
  | nil => exact h
  | cons a ns => exact h.1

theorem Chain.unique (h : Chain link p xs) (h' : Chain link p ys) : xs = ys := by
  induction xs generalizing p ys with
  | nil =>
    obtain rfl : p = none := h
    cases ys with
    | nil => rfl
    | cons b ys => exact absurd h'.1 nofun
  | cons a xs ih =>
    obtain ⟨rfl, r, hr, hrest⟩ := h
    cases ys with
    | nil => exact absurd (show some a = none from h') nofun
    | cons b ys =>
      obtain ⟨hb, r', hr', hrest'⟩ := h'
      obtain rfl := Option.some_inj.mp hb
      obtain rfl := Option.some_inj.mp (hr.symm.trans hr')
      rw [ih hrest hrest']

theorem Chain.pointer (h : Chain link p (xs ++ a :: ys)) : link a = some ys.head? := by
  obtain ⟨t, -, -, r, hr, hrest⟩ := segment_append.mp h
  rw [hr, ← Chain.start hrest]

theorem Doubly.symm (h : Doubly next prev front back ns) :
    Doubly prev next back front ns.reverse :=
  ⟨h.backward, by rw [List.reverse_reverse]; exact h.forward, List.nodup_reverse.mpr h.nodup⟩

theorem Doubly.front_eq (h : Doubly next prev front back ns) : front = ns.head? :=
  h.forward.start

theorem Doubly.back_eq (h : Doubly next prev front back ns) : back = ns.getLast? := by
  rw [h.backward.start, List.head?_reverse]

theorem Doubly.congr (h : Doubly next prev front back ns)
    (hnext : ∀ a ∈ ns, next' a = next a) (hprev : ∀ a ∈ ns, prev' a = prev a) :
    Doubly next' prev' front back ns :=
  ⟨Segment.congr h.forward hnext,
    Segment.congr h.backward fun a ha => hprev a (List.mem_reverse.mp ha), h.nodup⟩

theorem Doubly.next_eq (h : Doubly next prev front back (xs ++ a :: ys)) :
    next a = some ys.head? :=
  h.forward.pointer

theorem Doubly.prev_eq (h : Doubly next prev front back (xs ++ a :: ys)) :
    prev a = some xs.getLast? := by
  have hsymm := h.symm
  rw [List.reverse_append, List.reverse_cons, List.append_assoc, List.singleton_append] at hsymm
  rw [hsymm.next_eq, List.head?_reverse]

theorem Doubly.inverse (h : Doubly next prev front back ns) (ha : a ∈ ns) (hb : b ∈ ns) :
    next a = some (some b) ↔ prev b = some (some a) := by
  constructor
  · intro hab
    obtain ⟨xs, ys, rfl⟩ := List.append_of_mem ha
    rw [h.next_eq, Option.some_inj] at hab
    obtain ⟨ys, rfl⟩ := List.head?_eq_some_iff.mp hab
    rw [← List.singleton_append, ← List.append_assoc] at h
    rw [h.prev_eq, List.getLast?_concat]
  · intro hba
    obtain ⟨xs, ys, rfl⟩ := List.append_of_mem hb
    rw [h.prev_eq, Option.some_inj] at hba
    obtain ⟨xs, rfl⟩ := List.getLast?_eq_some_iff.mp hba
    rw [List.append_assoc] at h
    exact h.next_eq

section Update

variable [DecidableEq α]

/-- The links after the node before takes over a link, if there is one. -/
def relink (link : α → Option (Option α)) (before : Option α) (r : Option α) :
    α → Option (Option α) :=
  before.elim link fun c => Function.update link c (some r)

theorem relink_of_ne (h : p ≠ some a) : relink link p q a = link a := by
  cases p with
  | none => rfl
  | some c => exact Function.update_of_ne (fun hc => h (congrArg some hc.symm)) _ _

theorem Chain.remove (h : Chain link p (xs ++ a :: ys)) (hnodup : (xs ++ a :: ys).Nodup) :
    Chain (relink link xs.getLast? ys.head?) (if xs = [] then ys.head? else p) (xs ++ ys) := by
  rcases List.eq_nil_or_concat xs with rfl | ⟨xs, c, rfl⟩
  · obtain ⟨-, r, hr, hrest⟩ := h
    rw [← Chain.start hrest]
    exact hrest
  · rw [List.concat_eq_append] at *
    have hne : xs ++ [c] ≠ [] := by simp
    have ha : link a = some ys.head? := h.pointer
    rw [List.append_assoc, List.singleton_append] at h hnodup
    rw [if_neg hne, List.getLast?_concat, List.append_assoc, List.singleton_append]
    exact h.unlink hnodup ha

theorem Doubly.remove (h : Doubly next prev front back (xs ++ a :: ys)) :
    Doubly (relink next xs.getLast? ys.head?) (relink prev ys.head? xs.getLast?)
      (if xs = [] then ys.head? else front) (if ys = [] then xs.getLast? else back)
      (xs ++ ys) := by
  have hsymm := h.symm
  rw [List.reverse_append, List.reverse_cons, List.append_assoc, List.singleton_append] at hsymm
  have hback := hsymm.forward.remove hsymm.nodup
  rw [List.getLast?_reverse, List.head?_reverse] at hback
  refine ⟨h.forward.remove h.nodup, ?_, ?_⟩
  · rw [List.reverse_append]
    simpa only [List.reverse_eq_nil_iff] using hback
  · have hnodup := h.nodup
    rw [List.nodup_middle] at hnodup
    exact hnodup.of_cons

theorem Doubly.push (h : Doubly next prev front back (xs ++ [a])) (hb : b ∉ xs ++ [a]) :
    Doubly (Function.update (Function.update next b (some none)) a (some (some b)))
      (Function.update prev b (some (some a))) front (some b) (xs ++ [a] ++ [b]) := by
  refine ⟨h.forward.push h.nodup hb, ?_, ?_⟩
  · rw [List.reverse_append]
    refine ⟨rfl, some a, Function.update_self .., ?_⟩
    have hback : back = some a := by rw [h.back_eq, List.getLast?_concat]
    rw [← hback]
    exact Segment.update h.backward (fun hmem => hb (List.mem_reverse.mp hmem)) _
  · rw [List.nodup_append']
    exact ⟨h.nodup, List.nodup_singleton b, by simpa using hb⟩

theorem doubly_singleton : Doubly (Function.update next b (some none))
    (Function.update prev b (some none)) (some b) (some b) [b] :=
  ⟨⟨rfl, none, Function.update_self .., rfl⟩, ⟨rfl, none, Function.update_self .., rfl⟩,
    List.nodup_singleton b⟩

end Update

end LinkChains
