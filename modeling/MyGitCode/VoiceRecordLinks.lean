import MyGitCode.OrderedLists
import MyGitCode.TransitionRuns
import MyGitCode.VoiceCallRecords

/-! # The links of the record lists of `voice_core.c`

The four lists share one memory. Their operations are those of `VoiceCallRecords` on the
addresses of their nodes, in the order the nodes were pushed. -/
namespace VoiceRecordLinks

open LinkChains OrderedLists TransitionRuns
open VoiceCallRecords (ListType)

structure Voice where
  heap : Heap
  lists : ListType → OrderedList

/-- What `jan_voice_core_init` leaves, whatever else is in memory. -/
def Init (s : Voice) : Prop := ∀ l, s.lists l = orderedListInit .ascending .lte

/-- `member` may be NULL, and `malloc` gives the address of a new node with any contents, or
none. -/
def pushNode (heap : Heap) (list : OrderedList) (member : Option ℕ)
    (malloc : Option (ℕ × Link)) : Option (Heap × OrderedList × Option ℕ) :=
  match member, malloc with
  | some _, some (a, fill) =>
    (orderedListPush (Function.update heap a (some fill)) list a 0).map fun r =>
      (r.1, r.2, some a)
  | _, _ => some (heap, list, none)

def free (heap : Heap) (a : ℕ) : Heap := Function.update heap a none

def popNode (heap : Heap) (list : OrderedList) : Option ℕ → Option (Heap × OrderedList)
  | none => some (heap, list)
  | some a => (orderedListPopItem heap list a).map fun r => (free r.1 a, r.2)

def InList (s : Voice) (l : ListType) (a : ℕ) : Prop :=
  ∃ ns, Chain (nextOf s.heap) (s.lists l).front ns ∧ a ∈ ns

/-- A step names the list and the node that entered or left it. -/
inductive Event where
  | push (l : ListType) (node : Option ℕ)
  | remove (l : ListType) (node : ℕ)
  | popFront (l : ListType) (node : Option ℕ)
  | free (node : ℕ)
  deriving DecidableEq, Repr

def Voice.put (s : Voice) (l : ListType) (heap : Heap) (list : OrderedList) : Voice :=
  ⟨heap, Function.update s.lists l list⟩

inductive Step : Voice → Event → Voice → Prop where
  | push {s l member malloc heap list node} :
      (∀ a fill, malloc = some (a, fill) → s.heap a = none) →
      pushNode s.heap (s.lists l) member malloc = some (heap, list, node) →
      Step s (.push l node) (s.put l heap list)
  | popItem {s l a heap list} : InList s l a →
      orderedListPopItem s.heap (s.lists l) a = some (heap, list) →
      Step s (.remove l a) (s.put l heap list)
  | popNode {s l a heap list} : InList s l a →
      popNode s.heap (s.lists l) (some a) = some (heap, list) →
      Step s (.remove l a) (s.put l heap list)
  | popFront {s l heap list node} :
      orderedListPopFront s.heap (s.lists l) = some (heap, list, node) →
      Step s (.popFront l node) (s.put l heap list)
  | free {s a} : (∀ l, ¬ InList s l a) → Step s (.free a) { s with heap := free s.heap a }

def removes (l : ListType) (a : ℕ) : Event → Bool
  | .remove l' b => l' = l ∧ b = a
  | .popFront l' node => l' = l ∧ node = some a
  | _ => false

/-- The nodes that were pushed to a list and not removed from it later. -/
def survivors (l : ListType) : List Event → List ℕ
  | [] => []
  | .push l' (some a) :: es =>
    if l' = l ∧ ¬ es.any (removes l a) then a :: survivors l es else survivors l es
  | _ :: es => survivors l es

/-- From the front the links lead through the nodes to the back, and the links back are their
inverse. -/
structure WellFormed (heap : Heap) (list : OrderedList) (ns : List ℕ) : Prop where
  forward : Chain (nextOf heap) list.front ns
  once : ns.Nodup
  back : list.back = ns.getLast?
  inverse : ∀ a ∈ ns, ∀ b ∈ ns, nextOf heap a = some (some b) ↔ prevOf heap b = some (some a)
  first : ∀ a, ns.head? = some a → prevOf heap a = some none
  size : list.size = ns.length

variable {s t : Voice} {l l' : ListType} {e : Event} {es : List Event} {a : ℕ}
  {heap heap' : Heap} {list list' : OrderedList} {ns ns' : List ℕ}

theorem survivors_push :
    survivors l (.push l' (some a) :: es) =
      if l' = l ∧ ¬ es.any (removes l a) then a :: survivors l es else survivors l es := rfl

theorem survivors_concat (l : ListType) (es : List Event) (e : Event) :
    survivors l (es ++ [e]) =
      (survivors l es).filter (fun a => ! removes l a e) ++ survivors l [e] := by
  induction es with
  | nil => rfl
  | cons e' es ih =>
    match e' with
    | .push l' (some a) =>
      rw [List.cons_append, survivors_push, survivors_push, ih, List.any_append]
      by_cases hl : l' = l
      · by_cases hes : es.any (removes l a) = true
        · simp [hes]
        · by_cases he : removes l a e = true
          · simp [hl, hes, he]
          · simp [hl, hes, he]
      · simp [hl]
    | .push _ none => exact ih
    | .remove _ _ => exact ih
    | .popFront _ _ => exact ih
    | .free _ => exact ih

structure Sound (s : Voice) (ns : ListType → List ℕ) : Prop where
  represents : ∀ l, Represents s.heap (s.lists l) (ns l)
  disjoint : ∀ l l', l ≠ l' → ∀ a ∈ ns l, a ∉ ns l'

theorem Sound.inList_iff {ns : ListType → List ℕ} (h : Sound s ns) : InList s l a ↔ a ∈ ns l := by
  constructor
  · intro hin
    obtain ⟨ns', hchain, ha⟩ := hin
    rwa [(h.represents l).links.forward.unique hchain]
  · intro ha
    exact ⟨ns l, (h.represents l).links.forward, ha⟩

theorem Sound.put {ns : ListType → List ℕ} (h : Sound s ns) (touched : List ℕ)
    (hrep : Represents heap' list' ns') (hkept : Kept s.heap heap' touched)
    (htouched : ∀ l', l' ≠ l → ∀ a ∈ ns l', a ∉ touched) (hsub : ∀ a ∈ ns', a ∈ touched) :
    Sound (s.put l heap' list') (Function.update ns l ns') := by
  constructor
  · intro l'
    show Represents heap' (Function.update s.lists l list' l') (Function.update ns l ns' l')
    by_cases hl : l' = l
    · subst hl
      rw [Function.update_self, Function.update_self]
      exact hrep
    · rw [Function.update_of_ne hl, Function.update_of_ne hl]
      exact (h.represents l').congr fun a ha => hkept a (htouched l' hl a ha)
  · intro l₁ l₂ hne a ha
    by_cases h₁ : l₁ = l
    · subst h₁
      rw [Function.update_self] at ha
      rw [Function.update_of_ne (Ne.symm hne)]
      exact fun ha' => htouched l₂ (Ne.symm hne) a ha' (hsub a ha)
    · rw [Function.update_of_ne h₁] at ha
      by_cases h₂ : l₂ = l
      · subst h₂
        rw [Function.update_self]
        exact fun ha' => htouched l₁ hne a ha (hsub a ha')
      · rw [Function.update_of_ne h₂]
        exact h.disjoint l₁ l₂ hne a ha

variable {nodes : ListType → List ℕ} {fill : Link}

theorem Sound.push (h : Sound s nodes) (hfresh : s.heap a = none) (l : ListType) (fill : Link) :
    ∃ heap' list', orderedListPush (Function.update s.heap a (some fill)) (s.lists l) a 0 =
        some (heap', list') ∧
      Sound (s.put l heap' list')
        (Function.update nodes l (VoiceCallRecords.orderedListPush (nodes l) a)) := by
  have hnew : ∀ l', a ∉ nodes l' := fun l' ha => (h.represents l').allocated ha hfresh
  have hrep : Represents (Function.update s.heap a (some fill)) (s.lists l) (nodes l) := by
    apply (h.represents l).congr
    intro b hb
    apply Function.update_of_ne
    rintro rfl
    exact hnew l hb
  obtain ⟨heap', list', hpush, hrep', hkept⟩ :=
    hrep.push (Function.update_self a (some fill) s.heap) (hnew l)
  refine ⟨heap', list', hpush, h.put (nodes l ++ [a]) hrep' ?_ ?_ fun b hb => hb⟩
  · intro b hb
    rw [hkept b hb]
    apply Function.update_of_ne
    rintro rfl
    exact hb (List.mem_append_right _ List.mem_cons_self)
  · intro l' hl b hb hmem
    rcases List.mem_append.mp hmem with hmem | hmem
    · exact h.disjoint l' l hl b hb hmem
    · exact hnew l' (List.mem_singleton.mp hmem ▸ hb)

theorem Sound.popItem (h : Sound s nodes) (ha : a ∈ nodes l) :
    ∃ heap' list' ns', orderedListPopItem s.heap (s.lists l) a = some (heap', list') ∧
      VoiceCallRecords.orderedListPopItem (nodes l) a = some ns' ∧
      Sound (s.put l heap' list') (Function.update nodes l ns') := by
  have hrep := h.represents l
  obtain ⟨xs, ys, heq⟩ := List.append_of_mem ha
  have hnodup := hrep.links.nodup
  rw [heq] at hrep hnodup
  obtain ⟨heap', list', hpop, hrep', hkept⟩ := hrep.popItem
  have ha' : a ∉ xs := by
    rw [List.nodup_middle, List.nodup_cons, List.mem_append, not_or] at hnodup
    exact hnodup.1.1
  have herase : (nodes l).erase a = xs ++ ys := by
    rw [heq, List.erase_append_right _ ha', List.erase_cons_head]
  refine ⟨heap', list', xs ++ ys, hpop, ?_, h.put _ hrep' hkept ?_ ?_⟩
  · rw [VoiceCallRecords.orderedListPopItem, if_pos ha, herase]
  · intro l' hl b hb hmem
    rw [← heq] at hmem
    exact h.disjoint l' l hl b hb hmem
  · intro b hb
    rcases List.mem_append.mp hb with hb | hb
    · exact List.mem_append_left _ hb
    · exact List.mem_append_right _ (List.mem_cons_of_mem _ hb)

theorem Sound.free (h : Sound s nodes) (ha : ∀ l, a ∉ nodes l) :
    Sound { s with heap := free s.heap a } nodes where
  represents := by
    intro l
    apply (h.represents l).congr
    intro b hb
    apply Function.update_of_ne
    rintro rfl
    exact ha l hb
  disjoint := h.disjoint

theorem Sound.popFront (h : Sound s nodes) (l : ListType) :
    ∃ heap' list', orderedListPopFront s.heap (s.lists l) =
        some (heap', list', (nodes l).head?) ∧
      Sound (s.put l heap' list')
        (Function.update nodes l (VoiceCallRecords.orderedListPopFront (nodes l))) := by
  have hrep := h.represents l
  cases hns : nodes l with
  | nil =>
    rw [hns] at hrep
    refine ⟨s.heap, s.lists l, popFront_empty hrep, ?_⟩
    apply h.put [] hrep (fun _ _ => rfl) (fun _ _ _ _ => nofun)
    exact fun _ hb => hb
  | cons a ys =>
    rw [hns] at hrep
    obtain ⟨heap', list', hpop, hrep', hkept⟩ := hrep.popFront
    refine ⟨heap', list', hpop, h.put _ hrep' hkept ?_ fun b hb => List.mem_cons_of_mem _ hb⟩
    intro l' hl b hb hmem
    rw [← hns] at hmem
    exact h.disjoint l' l hl b hb hmem

def advance (nodes : ListType → List ℕ) (e : Event) (l : ListType) : List ℕ :=
  (nodes l).filter (fun a => ! removes l a e) ++ survivors l [e]

theorem advance_push : advance nodes (.push l (some a)) =
    Function.update nodes l (VoiceCallRecords.orderedListPush (nodes l) a) := by
  funext l'
  by_cases hl : l' = l
  · subst hl
    rw [Function.update_self]
    simp [advance, removes, survivors, VoiceCallRecords.orderedListPush]
  · rw [Function.update_of_ne hl]
    simp [advance, removes, survivors, Ne.symm hl]

theorem advance_refused : advance nodes (.push l none) = nodes := by
  funext l'
  simp [advance, removes, survivors]

theorem advance_remove (h : Sound s nodes)
    (hpop : VoiceCallRecords.orderedListPopItem (nodes l) a = some ns') :
    advance nodes (.remove l a) = Function.update nodes l ns' := by
  rw [VoiceCallRecords.orderedListPopItem, Option.ite_none_right_eq_some, Option.some_inj] at hpop
  funext l'
  by_cases hl : l' = l
  · subst hl
    have hnone : survivors l' [.remove l' a] = [] := rfl
    rw [Function.update_self, ← hpop.2, (h.represents l').links.nodup.erase_eq_filter, advance,
      hnone, List.append_nil]
    apply List.filter_congr
    intro b _
    simp [removes, bne, Bool.beq_eq_decide_eq, eq_comm]
  · rw [Function.update_of_ne hl]
    simp [advance, removes, survivors, Ne.symm hl]

theorem advance_popFront (h : Sound s nodes) : advance nodes (.popFront l (nodes l).head?) =
    Function.update nodes l (VoiceCallRecords.orderedListPopFront (nodes l)) := by
  funext l'
  by_cases hl : l' = l
  · subst hl
    have hnodup := (h.represents l').links.nodup
    rw [Function.update_self]
    cases hns : nodes l' with
    | nil => simp [advance, hns, survivors, VoiceCallRecords.orderedListPopFront]
    | cons a ys =>
      rw [hns, List.nodup_cons] at hnodup
      have hkeep : ys.filter (fun b => ! removes l' b (.popFront l' (some a))) = ys := by
        rw [List.filter_eq_self]
        intro b hb
        have hne : a ≠ b := fun hab => hnodup.1 (hab ▸ hb)
        simp [removes, hne]
      have hnone : survivors l' [.popFront l' (some a)] = [] := rfl
      rw [advance, hns, List.head?_cons, List.filter_cons_of_neg (by simp [removes]), hkeep,
        hnone, List.append_nil]
      rfl
  · rw [Function.update_of_ne hl]
    simp [advance, removes, survivors, Ne.symm hl]

theorem advance_free : advance nodes (.free a) = nodes := by
  funext l'
  simp [advance, removes, survivors]

theorem Voice.put_self : s.put l s.heap (s.lists l) = s := by
  rw [Voice.put, Function.update_eq_self]

theorem Sound.not_mem_remove (h : Sound s nodes)
    (hpop : VoiceCallRecords.orderedListPopItem (nodes l) a = some ns') (l' : ListType) :
    a ∉ Function.update nodes l ns' l' := by
  rw [← advance_remove h hpop, advance]
  intro hmem
  rcases List.mem_append.mp hmem with hmem | hmem
  · obtain ⟨hl', hkeep⟩ := List.mem_filter.mp hmem
    have hne : l' ≠ l := by
      rintro rfl
      simp [removes] at hkeep
    rw [VoiceCallRecords.orderedListPopItem, Option.ite_none_right_eq_some] at hpop
    exact h.disjoint l' l hne a hl' hpop.1
  · cases hmem

theorem Sound.step (h : Sound s nodes) (hst : Step s e t) : Sound t (advance nodes e) := by
  cases hst with
  | @push l member malloc heap list node hfresh hpush =>
    match member, malloc with
    | some m, some (a, fill) =>
      obtain ⟨heap', list', hpush', hsound⟩ := h.push (hfresh a fill rfl) l fill
      rw [pushNode, hpush', Option.map_some, Option.some_inj] at hpush
      obtain ⟨rfl, rfl, rfl⟩ := hpush
      rw [advance_push]
      exact hsound
    | none, _ =>
      obtain ⟨rfl, rfl, rfl⟩ := hpush
      rw [advance_refused, Voice.put_self]
      exact h
    | some _, none =>
      obtain ⟨rfl, rfl, rfl⟩ := hpush
      rw [advance_refused, Voice.put_self]
      exact h
  | @popItem l a heap list hin hpop =>
    obtain ⟨heap', list', ns', hpop', habs, hsound⟩ := h.popItem (h.inList_iff.mp hin)
    obtain ⟨rfl, rfl⟩ := Prod.mk.inj (Option.some_inj.mp (hpop'.symm.trans hpop))
    rw [advance_remove h habs]
    exact hsound
  | @popNode l a heap list hin hpop =>
    obtain ⟨heap', list', ns', hpop', habs, hsound⟩ := h.popItem (h.inList_iff.mp hin)
    rw [popNode, hpop', Option.map_some, Option.some_inj] at hpop
    obtain ⟨rfl, rfl⟩ := hpop
    rw [advance_remove h habs]
    exact hsound.free (h.not_mem_remove habs)
  | @popFront l heap list node hpop =>
    obtain ⟨heap', list', hpop', hsound⟩ := h.popFront l
    rw [hpop', Option.some_inj] at hpop
    obtain ⟨rfl, rfl, rfl⟩ := hpop
    rw [advance_popFront h]
    exact hsound
  | free hout =>
    rw [advance_free]
    exact h.free fun l hl => hout l (h.inList_iff.mpr hl)

theorem sound_init (h : Init s) : Sound s fun _ => [] where
  represents := by
    intro l
    rw [h l]
    exact represents_init
  disjoint := nofun

theorem Run.sound {ts : List (Taken Voice Event)} (h : Run Init Step ts s) :
    Sound s fun l => survivors l (ts.map Taken.event) := by
  induction h with
  | start hinit => exact sound_init hinit
  | snoc _ hst ih =>
    have hnext := ih.step hst
    simp only [List.map_append, List.map_cons, List.map_nil, survivors_concat]
    exact hnext

theorem wellFormed_of_represents (h : Represents heap list ns) : WellFormed heap list ns where
  forward := h.links.forward
  once := h.links.nodup
  back := h.links.back_eq
  inverse := fun _ ha _ hb => h.links.inverse ha hb
  first := by
    intro a ha
    obtain ⟨ys, rfl⟩ := List.head?_eq_some_iff.mp ha
    have hlinks : Doubly (nextOf heap) (prevOf heap) list.front list.back ([] ++ a :: ys) := h.links
    exact hlinks.prev_eq
  size := h.size

/-- In every run each list is well formed and consists of the nodes that were pushed to it and
not removed, in the order of the pushes, and each operation that the module may perform next
finds all pointers it needs. -/
theorem record_lists_well_formed {ts : List (Taken Voice Event)} (h : Run Init Step ts s)
    (l : ListType) :
    WellFormed s.heap (s.lists l) (survivors l (ts.map Taken.event)) ∧
    (∀ member malloc, (∀ a fill, malloc = some (a, fill) → s.heap a = none) →
      (pushNode s.heap (s.lists l) member malloc).isSome) ∧
    (∀ a, InList s l a → (orderedListPopItem s.heap (s.lists l) a).isSome ∧
      (popNode s.heap (s.lists l) (some a)).isSome) ∧
    (orderedListPopFront s.heap (s.lists l)).isSome := by
  have hsound := Run.sound h
  refine ⟨wellFormed_of_represents (hsound.represents l), ?_, ?_, ?_⟩
  · intro member malloc hfresh
    match member, malloc with
    | some _, some (a, fill) =>
      obtain ⟨heap', list', hpush, -⟩ := hsound.push (hfresh a fill rfl) l fill
      rw [pushNode, hpush]
      rfl
    | none, _ => rfl
    | some _, none => rfl
  · intro a hin
    obtain ⟨heap', list', ns', hpop, -⟩ := hsound.popItem (hsound.inList_iff.mp hin)
    rw [popNode, hpop]
    exact ⟨rfl, rfl⟩
  · obtain ⟨heap', list', hpop, -⟩ := hsound.popFront l
    rw [hpop]
    rfl

def emptyVoice : Voice := ⟨fun _ => none, fun _ => orderedListInit .ascending .lte⟩

theorem two_records_one_left : ∃ ts s, Run Init Step ts s ∧
    ts.map Taken.event = [.push .all (some 4), .push .all (some 8), .popFront .all (some 4)] ∧
    WellFormed s.heap (s.lists .all) [8] := by
  have h₀ : Run Init Step [] emptyVoice := .start fun _ => rfl
  have h₁ := h₀.snoc (@Step.push _ .all (some 0) (some (4, ⟨none, none, 0⟩)) _ _ _
    (fun _ _ _ => rfl) rfl)
  have h₂ := h₁.snoc (@Step.push _ .all (some 0) (some (8, ⟨none, none, 0⟩)) _ _ _
    (fun _ _ hm => by cases hm; rfl) rfl)
  have h₃ := h₂.snoc (@Step.popFront _ .all _ _ _ rfl)
  exact ⟨_, _, h₃, rfl, (record_lists_well_formed h₃ .all).1⟩

end VoiceRecordLinks
