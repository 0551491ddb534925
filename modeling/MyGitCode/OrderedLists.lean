import MyGitCode.LinkChains

/-! # The ordered lists of `list.c`

A node begins with its link. There is no result where the code would go through a null pointer
or to memory that holds no node. -/
namespace OrderedLists

open LinkChains

/-- `ordered_list_link_type`. -/
structure Link where
  next : Option ℕ
  prev : Option ℕ
  weight : ℕ
  deriving DecidableEq, Repr

abbrev Heap := ℕ → Option Link

inductive SortOrder where
  | ascending | descending
  deriving DecidableEq, Repr

inductive PushType where
  | slt | lte
  deriving DecidableEq, Repr

structure OrderedList where
  front : Option ℕ
  back : Option ℕ
  size : ℕ
  sortOrder : SortOrder
  pushType : PushType
  initialized : Bool
  deriving DecidableEq, Repr

def orderedListInit (sortOrder : SortOrder) (pushType : PushType) : OrderedList :=
  ⟨none, none, 0, sortOrder, pushType, true⟩

def ensureInit (list : OrderedList) : OrderedList :=
  if list.initialized then list else orderedListInit .ascending .slt

def deref (heap : Heap) (p : Option ℕ) : Option Link := p.bind heap

def modify (heap : Heap) (p : Option ℕ) (f : Link → Link) : Option Heap :=
  p.bind fun a => (heap a).map fun link => Function.update heap a (some (f link))

def setNext (heap : Heap) (p q : Option ℕ) : Option Heap :=
  modify heap p fun link => { link with next := q }

def setPrev (heap : Heap) (p q : Option ℕ) : Option Heap :=
  modify heap p fun link => { link with prev := q }

def orderedListPushAfter (heap : Heap) (list : OrderedList) (item after : Option ℕ) :
    Option (Heap × OrderedList) := do
  let link ← deref heap after
  let heap ← setNext heap item link.next
  let heap ← setPrev heap item after
  let heap ← setNext heap after item
  if list.back = after then
    return (heap, { list with back := item, size := list.size + 1 })
  else
    let link ← deref heap item
    let heap ← setPrev heap link.next item
    return (heap, { list with size := list.size + 1 })

def orderedListPushBefore (heap : Heap) (list : OrderedList) (item before : Option ℕ) :
    Option (Heap × OrderedList) := do
  let heap ← setNext heap item before
  let link ← deref heap before
  let heap ← setPrev heap item link.prev
  let heap ← setPrev heap before item
  if list.front = before then
    return (heap, { list with front := item, size := list.size + 1 })
  else
    let link ← deref heap item
    let heap ← setNext heap link.prev item
    return (heap, { list with size := list.size + 1 })

/-- Which nodes stay before a new one, in the four cases of the switch. -/
def staysBefore (sortOrder : SortOrder) (pushType : PushType) (weight new : ℕ) : Bool :=
  match sortOrder, pushType with
  | .ascending, .slt => weight < new
  | .ascending, .lte => weight ≤ new
  | .descending, .slt => weight > new
  | .descending, .lte => weight ≥ new

/-- The loop from the front to the first node that does not stay before the new one. -/
def findPlace (heap : Heap) (stays : ℕ → Bool) : ℕ → Option ℕ → Option (Option ℕ)
  | 0, _ => none
  | fuel + 1, temp => do
    let link ← deref heap temp
    if stays link.weight then findPlace heap stays fuel link.next else return temp

def orderedListPush (heap : Heap) (list : OrderedList) (item : ℕ) (weight : ℕ) :
    Option (Heap × OrderedList) := do
  let list := ensureInit list
  let heap ← modify heap (some item) fun link => { link with weight := weight }
  if list.size = 0 then
    let heap ← setPrev heap (some item) none
    let heap ← setNext heap (some item) none
    return (heap, { list with front := some item, back := some item, size := list.size + 1 })
  else
    let stays := fun old => staysBefore list.sortOrder list.pushType old weight
    let back ← deref heap list.back
    if stays back.weight then orderedListPushAfter heap list (some item) list.back
    else
      let temp ← findPlace heap stays list.size list.front
      orderedListPushBefore heap list (some item) temp

def orderedListPopFront (heap : Heap) (list : OrderedList) :
    Option (Heap × OrderedList × Option ℕ) := do
  let list := ensureInit list
  if list.size > 0 then
    let link ← deref heap list.front
    if link.next = none then
      return (heap, { list with front := none, back := none, size := list.size - 1 }, list.front)
    else
      let heap ← setPrev heap link.next none
      return (heap, { list with front := link.next, size := list.size - 1 }, list.front)
  else return (heap, list, none)

def orderedListPopItem (heap : Heap) (list : OrderedList) (item : ℕ) :
    Option (Heap × OrderedList) := do
  let list := ensureInit list
  let link ← heap item
  let (heap, list) ← (if some item = list.front then some (heap, { list with front := link.next })
    else (setNext heap link.prev link.next).map (·, list))
  let link ← heap item
  let (heap, list) ← (if some item = list.back then some (heap, { list with back := link.prev })
    else (setPrev heap link.next link.prev).map (·, list))
  return (heap, { list with size := list.size - 1 })

def field {β : Type} (get : Link → β) (heap : Heap) (a : ℕ) : Option β := (heap a).map get

abbrev nextOf (heap : Heap) : ℕ → Option (Option ℕ) := field Link.next heap

abbrev prevOf (heap : Heap) : ℕ → Option (Option ℕ) := field Link.prev heap

/-- The list consists of these nodes, all of weight 0, and new ones of that weight go behind
them. -/
structure Represents (heap : Heap) (list : OrderedList) (ns : List ℕ) : Prop where
  links : Doubly (nextOf heap) (prevOf heap) list.front list.back ns
  size : list.size = ns.length
  weights : ∀ a ∈ ns, ∀ link ∈ heap a, link.weight = 0
  order : list.sortOrder = .ascending ∧ list.pushType = .lte
  initialized : list.initialized = true

variable {heap heap' : Heap} {list : OrderedList} {ns xs ys : List ℕ} {a b item : ℕ}
  {p q : Option ℕ} {link : Link}

theorem represents_init :
    Represents heap (orderedListInit .ascending .lte) [] :=
  ⟨⟨rfl, rfl, .nil⟩, rfl, nofun, ⟨rfl, rfl⟩, rfl⟩

theorem Represents.congr (h : Represents heap list ns) (hsame : ∀ a ∈ ns, heap' a = heap a) :
    Represents heap' list ns where
  links := h.links.congr (fun a ha => by simp only [field, hsame a ha])
    (fun a ha => by simp only [field, hsame a ha])
  size := h.size
  weights := fun a ha link hlink => h.weights a ha link (hsame a ha ▸ hlink)
  order := h.order
  initialized := h.initialized

theorem Represents.ensureInit_eq (h : Represents heap list ns) : ensureInit list = list :=
  if_pos h.initialized

theorem modify_eq (h : heap a = some link) (f : Link → Link) :
    modify heap (some a) f = some (Function.update heap a (some (f link))) := by
  rw [modify, Option.bind_some, h, Option.map_some]

theorem modify_update (f : Link → Link) :
    modify (Function.update heap a (some link)) (some a) f =
      some (Function.update heap a (some (f link))) := by
  rw [modify_eq (Function.update_self a (some link) heap), Function.update_idem]

theorem field_update {β : Type} (get : Link → β) :
    field get (Function.update heap a (some link)) =
      Function.update (field get heap) a (some (get link)) := by
  funext b
  by_cases hb : b = a
  · rw [hb, field, Function.update_self, Function.update_self, Option.map_some]
  · rw [field, Function.update_of_ne hb, Function.update_of_ne hb, field]

theorem field_update_same {β : Type} {get : Link → β} {old : Link} (h : heap a = some old)
    (hsame : get link = get old) :
    field get (Function.update heap a (some link)) = field get heap := by
  rw [field_update, Function.update_eq_self_iff, field, h, Option.map_some, hsame]

theorem weight_update (hlink : link.weight = 0) (h : b ≠ a → ∀ l ∈ heap b, l.weight = 0) :
    ∀ l ∈ Function.update heap a (some link) b, l.weight = 0 := by
  intro l hl
  by_cases hb : b = a
  · rw [hb, Function.update_self] at hl
    rw [← Option.mem_some_iff.mp hl]
    exact hlink
  · rw [Function.update_of_ne hb] at hl
    exact h hb l hl

theorem Represents.link_eq (h : Represents heap list (xs ++ a :: ys)) :
    ∃ link, heap a = some link ∧ link.next = ys.head? ∧ link.prev = xs.getLast? ∧
      link.weight = 0 := by
  obtain ⟨link, hlink, hnext⟩ := Option.map_eq_some_iff.mp h.links.next_eq
  obtain ⟨link', hlink', hprev⟩ := Option.map_eq_some_iff.mp h.links.prev_eq
  obtain rfl := Option.some_inj.mp (hlink.symm.trans hlink')
  have hmem : a ∈ xs ++ a :: ys := List.mem_append_right _ List.mem_cons_self
  exact ⟨link, hlink, hnext, hprev, h.weights a hmem link hlink⟩

def Kept (heap heap' : Heap) (ns : List ℕ) : Prop := ∀ b, b ∉ ns → heap' b = heap b

theorem Represents.push_empty (h : Represents heap list []) (hitem : heap item = some link) :
    ∃ heap' list', orderedListPush heap list item 0 = some (heap', list') ∧
      Represents heap' list' [item] ∧ Kept heap heap' [item] := by
  have hsize : list.size = 0 := h.size
  refine ⟨Function.update heap item (some ⟨none, none, 0⟩),
    { list with front := some item, back := some item, size := list.size + 1 }, ?_,
    ⟨?_, ?_, ?_, h.order, h.initialized⟩, ?_⟩
  · simp only [orderedListPush, h.ensureInit_eq, Option.bind_eq_bind, modify_eq hitem,
      Option.bind_some, if_pos hsize, setPrev, setNext, modify_update]
    rfl
  · rw [nextOf, prevOf, field_update, field_update]
    exact doubly_singleton
  · exact congrArg (· + 1) hsize
  · intro a ha
    exact weight_update rfl fun hne => absurd (List.mem_singleton.mp ha) hne
  · intro b hb
    exact Function.update_of_ne (mt List.mem_singleton.mpr hb) _ _

theorem Represents.push_last (h : Represents heap list (xs ++ [a])) (hitem : heap item = some link)
    (hnew : item ∉ xs ++ [a]) :
    ∃ heap' list', orderedListPush heap list item 0 = some (heap', list') ∧
      Represents heap' list' (xs ++ [a] ++ [item]) ∧ Kept heap heap' (xs ++ [a] ++ [item]) := by
  obtain ⟨last, hlast, hnext, hprev, hweight⟩ := h.link_eq
  have hback : list.back = some a := by rw [h.links.back_eq, List.getLast?_concat]
  have hsize : list.size ≠ 0 := by
    rw [h.size, List.length_append, List.length_singleton]
    exact Nat.succ_ne_zero _
  have hne : a ≠ item := by
    rintro rfl
    exact hnew (List.mem_append_right _ List.mem_cons_self)
  have hstays : staysBefore list.sortOrder list.pushType last.weight 0 = true := by
    rw [h.order.1, h.order.2, hweight]
    rfl
  have hkeep : ∀ l, Function.update heap item (some l) a = some last := fun l => by
    rw [Function.update_of_ne hne, hlast]
  refine ⟨Function.update (Function.update heap item (some ⟨none, some a, 0⟩)) a
    (some { last with next := some item }),
    { list with back := some item, size := list.size + 1 }, ?_,
    ⟨?_, ?_, ?_, h.order, h.initialized⟩, ?_⟩
  · simp only [orderedListPush, h.ensureInit_eq, Option.bind_eq_bind, modify_eq hitem,
      Option.bind_some, if_neg hsize, deref, hback, hkeep, hstays, if_true, orderedListPushAfter,
      setNext, setPrev, modify_update, modify_eq (hkeep _), hnext, List.head?_nil]
    rfl
  · have hnexts : nextOf (Function.update (Function.update heap item (some ⟨none, some a, 0⟩)) a
        (some { last with next := some item })) = Function.update
          (Function.update (nextOf heap) item (some none)) a (some (some item)) := by
      rw [nextOf, field_update, field_update]
    have hprevs : prevOf (Function.update (Function.update heap item (some ⟨none, some a, 0⟩)) a
        (some { last with next := some item })) =
          Function.update (prevOf heap) item (some (some a)) := by
      have hsame : Link.prev { last with next := some item } = last.prev := rfl
      rw [prevOf, field_update_same (hkeep _) hsame, field_update]
    rw [hnexts, hprevs]
    exact h.links.push hnew
  · have hlen : (xs ++ [a] ++ [item]).length = (xs ++ [a]).length + 1 := List.length_append
    rw [hlen, ← h.size]
  · intro b hb
    refine weight_update hweight fun _ => weight_update rfl fun hbi => ?_
    rcases List.mem_append.mp hb with hb | hb
    · exact h.weights b hb
    · exact absurd (List.mem_singleton.mp hb) hbi
  · intro b hb
    simp only [List.mem_append, List.mem_singleton, not_or] at hb
    rw [Function.update_of_ne hb.1.2, Function.update_of_ne hb.2]

theorem Represents.push (h : Represents heap list ns) (hitem : heap item = some link)
    (hnew : item ∉ ns) :
    ∃ heap' list', orderedListPush heap list item 0 = some (heap', list') ∧
      Represents heap' list' (ns ++ [item]) ∧ Kept heap heap' (ns ++ [item]) := by
  rcases List.eq_nil_or_concat ns with rfl | ⟨xs, a, rfl⟩
  · exact h.push_empty hitem
  · rw [List.concat_eq_append] at *
    exact h.push_last hitem hnew

theorem exists_relink {get : Link → Option ℕ} {set : Link → Link} {q : Option ℕ}
    (hget : ∀ l, get (set l) = q) (hp : ∀ c, p = some c → heap c ≠ none) :
    ∃ heap', (if p = none then some heap else modify heap p set) = some heap' ∧
      field get heap' = relink (field get heap) p q ∧
      ∀ {β : Type} (other : Link → β), (∀ l, other (set l) = other l) →
        field other heap' = field other heap := by
  cases p with
  | none => exact ⟨heap, if_pos rfl, rfl, fun _ _ => rfl⟩
  | some c =>
    obtain ⟨l, hl⟩ := Option.ne_none_iff_exists'.mp (hp c rfl)
    refine ⟨Function.update heap c (some (set l)), ?_, ?_, ?_⟩
    · rw [if_neg nofun, modify_eq hl]
    · rw [field_update, hget]
      rfl
    · intro β other hother
      exact field_update_same hl (hother l)

theorem field_eq_some {β : Type} {get : Link → β} {v : β} (h : field get heap a = some v) :
    ∃ l, heap a = some l ∧ get l = v :=
  Option.map_eq_some_iff.mp h

theorem Represents.allocated (h : Represents heap list ns) (ha : a ∈ ns) : heap a ≠ none := by
  obtain ⟨xs, ys, rfl⟩ := List.append_of_mem ha
  obtain ⟨link, hlink, -⟩ := h.link_eq
  rw [hlink]
  nofun

theorem Represents.front_iff (h : Represents heap list (xs ++ item :: ys)) :
    some item = list.front ↔ xs.getLast? = none := by
  rw [h.links.front_eq, List.getLast?_eq_none_iff]
  cases xs with
  | nil => exact ⟨fun _ => rfl, fun _ => rfl⟩
  | cons x xs =>
    have hnodup := h.links.nodup
    rw [List.cons_append, List.nodup_cons] at hnodup
    constructor
    · intro heq
      obtain rfl := Option.some_inj.mp heq
      exact absurd (List.mem_append_right _ List.mem_cons_self) hnodup.1
    · nofun

theorem Represents.back_iff (h : Represents heap list (xs ++ item :: ys)) :
    some item = list.back ↔ ys.head? = none := by
  rw [h.links.back_eq, List.head?_eq_none_iff]
  rcases List.eq_nil_or_concat ys with rfl | ⟨zs, y, rfl⟩
  · rw [List.getLast?_concat]
    exact ⟨fun _ => rfl, fun _ => rfl⟩
  · have hnodup := h.links.nodup
    rw [List.nodup_middle, List.nodup_cons] at hnodup
    rw [List.concat_eq_append, ← List.cons_append, ← List.append_assoc, List.getLast?_concat]
    constructor
    · intro heq
      obtain rfl := Option.some_inj.mp heq
      exact absurd (by simp) hnodup.1
    · intro hnil
      exact absurd hnil (by simp)

theorem link_of_fields (hnext : nextOf heap a = some q) (hprev : prevOf heap a = some p) :
    ∃ l, heap a = some l ∧ l.next = q ∧ l.prev = p := by
  obtain ⟨l, hl, hq⟩ := field_eq_some hnext
  obtain ⟨l', hl', hp⟩ := field_eq_some hprev
  obtain rfl := Option.some_inj.mp (hl.symm.trans hl')
  exact ⟨l, hl, hq, hp⟩

/-- The first test of `ordered_list_pop_item`: the front moves on, or the node before is linked
to the one behind. -/
theorem Represents.unlinkFirst (h : Represents heap list (xs ++ item :: ys))
    (hnext : link.next = ys.head?) (hprev : link.prev = xs.getLast?) :
    ∃ heap₁, (if some item = list.front then some (heap, { list with front := link.next })
        else (setNext heap link.prev link.next).map (·, list)) = some (heap₁, { list with
          front := if xs.getLast? = none then ys.head? else list.front }) ∧
      nextOf heap₁ = relink (nextOf heap) xs.getLast? ys.head? ∧
      prevOf heap₁ = prevOf heap ∧ field Link.weight heap₁ = field Link.weight heap := by
  have hbefore : ∀ c, xs.getLast? = some c → heap c ≠ none := fun c hc =>
    h.allocated (List.mem_append_left _ (List.mem_of_getLast? hc))
  obtain ⟨heap₁, hset, hrelink, hother⟩ := @exists_relink heap xs.getLast? Link.next
    (fun l => { l with next := ys.head? }) ys.head? (fun _ => rfl) hbefore
  refine ⟨heap₁, ?_, hrelink, hother Link.prev fun _ => rfl, hother Link.weight fun _ => rfl⟩
  by_cases hfront : xs.getLast? = none
  · rw [if_pos hfront] at hset
    rw [if_pos (h.front_iff.mpr hfront), if_pos hfront, hnext, ← Option.some_inj.mp hset]
  · rw [if_neg hfront] at hset
    rw [if_neg (mt h.front_iff.mp hfront), if_neg hfront, hprev, hnext, setNext, hset]
    rfl

theorem Represents.unlinkLast {heap₁ : Heap} {l : OrderedList}
    (h : Represents heap list (xs ++ item :: ys))
    (hweight : field Link.weight heap₁ = field Link.weight heap) (hl : l.back = list.back)
    (hnext : link.next = ys.head?) (hprev : link.prev = xs.getLast?) :
    ∃ heap₂, (if some item = l.back then some (heap₁, { l with back := link.prev })
        else (setPrev heap₁ link.next link.prev).map (·, l)) = some (heap₂, { l with
          back := if ys.head? = none then xs.getLast? else list.back }) ∧
      nextOf heap₂ = nextOf heap₁ ∧
      prevOf heap₂ = relink (prevOf heap₁) ys.head? xs.getLast? ∧
      field Link.weight heap₂ = field Link.weight heap₁ := by
  have hafter : ∀ c, ys.head? = some c → heap₁ c ≠ none := by
    intro c hc hnone
    have hold : field Link.weight heap c = none := by
      rw [← hweight, field, hnone, Option.map_none]
    have hmem : c ∈ xs ++ item :: ys :=
      List.mem_append_right _ (List.mem_cons_of_mem _ (List.mem_of_head? hc))
    exact h.allocated hmem (Option.map_eq_none_iff.mp hold)
  obtain ⟨heap₂, hset, hrelink, hother⟩ := @exists_relink heap₁ ys.head? Link.prev
    (fun l => { l with prev := xs.getLast? }) xs.getLast? (fun _ => rfl) hafter
  refine ⟨heap₂, ?_, hother Link.next fun _ => rfl, hrelink, hother Link.weight fun _ => rfl⟩
  by_cases hback : ys.head? = none
  · rw [if_pos hback] at hset
    rw [hl, if_pos (h.back_iff.mpr hback), if_pos hback, hprev, ← Option.some_inj.mp hset]
  · rw [if_neg hback] at hset
    rw [hl, if_neg (mt h.back_iff.mp hback), if_neg hback, hprev, hnext, setPrev, hset, ← hl]
    rfl

theorem popItem_eq (h : Represents heap list (xs ++ item :: ys)) :
    ∃ heap', orderedListPopItem heap list item = some (heap', { list with
        front := if xs.getLast? = none then ys.head? else list.front
        back := if ys.head? = none then xs.getLast? else list.back
        size := list.size - 1 }) ∧
      nextOf heap' = relink (nextOf heap) xs.getLast? ys.head? ∧
      prevOf heap' = relink (prevOf heap) ys.head? xs.getLast? ∧
      field Link.weight heap' = field Link.weight heap := by
  obtain ⟨link, hlink, hnext, hprev, -⟩ := h.link_eq
  obtain ⟨heap₁, hfirst, hnext₁, hprev₁, hweight₁⟩ := h.unlinkFirst hnext hprev
  -- the node itself is not the one before it, so its link is read again unchanged
  have hself : xs.getLast? ≠ some item := by
    intro hc
    have hnodup := h.links.nodup
    rw [List.nodup_middle, List.nodup_cons, List.mem_append, not_or] at hnodup
    exact hnodup.1.1 (List.mem_of_getLast? hc)
  have hnextItem : nextOf heap₁ item = some ys.head? := by
    rw [hnext₁, relink_of_ne hself]
    exact h.links.next_eq
  have hprevItem : prevOf heap₁ item = some xs.getLast? := by
    rw [hprev₁]
    exact h.links.prev_eq
  obtain ⟨link₁, hlink₁, hn₁, hp₁⟩ := link_of_fields hnextItem hprevItem
  obtain ⟨heap₂, hsecond, hnext₂, hprev₂, hweight₂⟩ := @Represents.unlinkLast heap list xs ys item
    link₁ heap₁ { list with front := if xs.getLast? = none then ys.head? else list.front }
    h hweight₁ rfl hn₁ hp₁
  refine ⟨heap₂, ?_, ?_, ?_, ?_⟩
  · simp only [orderedListPopItem, h.ensureInit_eq, hlink, Option.bind_eq_bind,
      Option.bind_some, hfirst, hlink₁, hsecond]
    rfl
  · rw [hnext₂, hnext₁]
  · rw [hprev₂, hprev₁]
  · rw [hweight₂, hweight₁]

theorem field_eq_none {β : Type} (get : Link → β) : field get heap a = none ↔ heap a = none :=
  Option.map_eq_none_iff

theorem node_eq (hnext : nextOf heap' a = nextOf heap a) (hprev : prevOf heap' a = prevOf heap a)
    (hweight : field Link.weight heap' a = field Link.weight heap a) : heap' a = heap a := by
  cases hnew : heap' a with
  | none =>
    have hnone : field Link.weight heap a = none := by
      rw [← hweight]
      exact (field_eq_none _).mpr hnew
    exact ((field_eq_none _).mp hnone).symm
  | some l =>
    rw [nextOf, nextOf, field, hnew] at hnext
    rw [prevOf, prevOf, field, hnew] at hprev
    rw [field, hnew] at hweight
    obtain ⟨l₁, hl₁, h₁⟩ := field_eq_some hnext.symm
    obtain ⟨l₂, hl₂, h₂⟩ := field_eq_some hprev.symm
    obtain ⟨l₃, hl₃, h₃⟩ := field_eq_some hweight.symm
    obtain rfl := Option.some_inj.mp (hl₁.symm.trans hl₂)
    obtain rfl := Option.some_inj.mp (hl₁.symm.trans hl₃)
    obtain ⟨next, prev, weight⟩ := l
    obtain ⟨next₁, prev₁, weight₁⟩ := l₁
    dsimp only at h₁ h₂ h₃
    rw [hl₁, h₁, h₂, h₃]

theorem Represents.removed (h : Represents heap list (xs ++ item :: ys))
    (hnext : nextOf heap' = relink (nextOf heap) xs.getLast? ys.head?)
    (hprev : prevOf heap' = relink (prevOf heap) ys.head? xs.getLast?)
    (hweight : field Link.weight heap' = field Link.weight heap) :
    Represents heap' { list with
      front := if xs.getLast? = none then ys.head? else list.front
      back := if ys.head? = none then xs.getLast? else list.back
      size := list.size - 1 } (xs ++ ys) ∧ Kept heap heap' (xs ++ item :: ys) := by
  have hremove := h.links.remove
  simp only [← @List.getLast?_eq_none_iff _ xs, ← @List.head?_eq_none_iff _ ys] at hremove
  refine ⟨⟨?_, ?_, ?_, h.order, h.initialized⟩, ?_⟩
  · rw [hnext, hprev]
    exact hremove
  · dsimp only
    rw [h.size, List.length_append, List.length_append, List.length_cons]
    omega
  · intro a ha l hl
    have hmem : a ∈ xs ++ item :: ys := by
      rcases List.mem_append.mp ha with ha | ha
      · exact List.mem_append_left _ ha
      · exact List.mem_append_right _ (List.mem_cons_of_mem _ ha)
    have hfield : field Link.weight heap a = some l.weight := by
      rw [← hweight, field, hl, Option.map_some]
    obtain ⟨l', hl', heq⟩ := field_eq_some hfield
    rw [← heq]
    exact h.weights a hmem l' hl'
  · intro b hb
    rw [List.mem_append, List.mem_cons, not_or, not_or] at hb
    apply node_eq
    · rw [hnext]
      exact relink_of_ne fun hc => hb.1 (List.mem_of_getLast? hc)
    · rw [hprev]
      exact relink_of_ne fun hc => hb.2.2 (List.mem_of_head? hc)
    · rw [hweight]

theorem Represents.popItem (h : Represents heap list (xs ++ item :: ys)) :
    ∃ heap' list', orderedListPopItem heap list item = some (heap', list') ∧
      Represents heap' list' (xs ++ ys) ∧ Kept heap heap' (xs ++ item :: ys) := by
  obtain ⟨heap', hpop, hnext, hprev, hweight⟩ := popItem_eq h
  exact ⟨heap', _, hpop, h.removed hnext hprev hweight⟩

theorem popFront_empty (h : Represents heap list []) :
    orderedListPopFront heap list = some (heap, list, none) := by
  have hsize : ¬ list.size > 0 := Nat.not_lt.mpr (Nat.le_of_eq h.size)
  simp only [orderedListPopFront, h.ensureInit_eq, if_neg hsize]
  rfl

theorem Represents.popFront (h : Represents heap list (a :: ys)) :
    ∃ heap' list', orderedListPopFront heap list = some (heap', list', some a) ∧
      Represents heap' list' ys ∧ Kept heap heap' (a :: ys) := by
  have hlist : Represents heap list ([] ++ a :: ys) := h
  obtain ⟨link, hlink, hnext, -, -⟩ := hlist.link_eq
  have hsize : list.size > 0 := h.size ▸ Nat.succ_pos _
  have hfront : list.front = some a := h.links.front_eq
  have hafter : ∀ c, ys.head? = some c → heap c ≠ none := fun c hc =>
    h.allocated (List.mem_cons_of_mem _ (List.mem_of_head? hc))
  obtain ⟨heap', hset, hprev', hother⟩ := @exists_relink heap ys.head? Link.prev
    (fun l => { l with prev := none }) none (fun _ => rfl) hafter
  have hrep := hlist.removed (hother Link.next fun _ => rfl) hprev'
    (hother Link.weight fun _ => rfl)
  refine ⟨heap', _, ?_, hrep⟩
  simp only [orderedListPopFront, h.ensureInit_eq, if_pos hsize, hfront, deref, Option.bind_some,
    hlink, Option.bind_eq_bind, hnext]
  by_cases hlast : ys.head? = none
  · rw [if_pos hlast] at hset
    rw [if_pos hlast, if_pos hlast, hlast, ← Option.some_inj.mp hset]
    rfl
  · rw [if_neg hlast] at hset
    rw [if_neg hlast, if_neg hlast, setPrev, hset]
    rfl

end OrderedLists
