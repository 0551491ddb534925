import Mathlib.Data.List.TakeWhile
import MyGitCode.LinkRings
import MyGitCode.OrderedLists

/-! # Ordered lists of any weights

The null pointer stands for the header of a list, so that the links are a ring through it: its
next node is the front, the one before it the back. -/
namespace OrderedLists

open LinkRings

def orderedListPopBack (heap : Heap) (list : OrderedList) :
    Option (Heap × OrderedList × Option ℕ) := do
  let list := ensureInit list
  if list.size > 0 then
    let link ← deref heap list.back
    if link.prev = none then
      return (heap, { list with front := none, back := none, size := list.size - 1 }, list.back)
    else
      let heap ← setNext heap link.prev none
      return (heap, { list with back := link.prev, size := list.size - 1 }, list.back)
  else return (heap, list, none)

/-- The loop of `ordered_list_linear_search` from a node on. -/
def searchFrom (heap : Heap) (compare : ℕ → Bool) : ℕ → Option ℕ → Option (Option ℕ)
  | 0, _ => none
  | _ + 1, none => some none
  | fuel + 1, some item =>
    if compare item then some (some item)
    else do searchFrom heap compare fuel (← heap item).next

def orderedListLinearSearch (fuel : ℕ) (heap : Heap) (list : OrderedList)
    (compare : ℕ → Bool) : Option (Option ℕ) :=
  searchFrom heap compare fuel (ensureInit list).front

def mayPrecede (sortOrder : SortOrder) (weight new : ℕ) : Bool :=
  match sortOrder with
  | .ascending => weight ≤ new
  | .descending => weight ≥ new

variable {sortOrder : SortOrder} {pushType : PushType} {v w k : ℕ}

theorem mayPrecede_total : mayPrecede sortOrder v w ∨ mayPrecede sortOrder w v := by
  cases sortOrder <;> simp only [mayPrecede, decide_eq_true_eq, ge_iff_le] <;> omega

theorem mayPrecede_trans (h : mayPrecede sortOrder v w) (h' : mayPrecede sortOrder w k) :
    mayPrecede sortOrder v k := by
  cases sortOrder <;> simp only [mayPrecede, decide_eq_true_eq, ge_iff_le] at * <;> omega

theorem staysBefore_iff : staysBefore sortOrder pushType v w ↔
    mayPrecede sortOrder v w ∧ (pushType = .slt → ¬ mayPrecede sortOrder w v) := by
  cases sortOrder <;> cases pushType <;>
    simp only [staysBefore, mayPrecede, decide_eq_true_eq, ge_iff_le, gt_iff_lt] <;> simp <;>
    omega

theorem not_staysBefore (h : ¬ staysBefore sortOrder pushType v w) :
    mayPrecede sortOrder w v := by
  rw [staysBefore_iff, not_and] at h
  by_contra hnot
  rcases mayPrecede_total with hvw | hwv
  · exact h hvw fun _ => hnot
  · exact hnot hwv

variable {heap heap' : Heap} {list list' : OrderedList} {ns xs ys : List ℕ} {a b item : ℕ}
  {p q x y : Option ℕ}

abbrev weights (heap : Heap) : ℕ → Option ℕ := field Link.weight heap

def weightOf (heap : Heap) (a : ℕ) : ℕ := (weights heap a).getD 0

def withHeader (p : Option ℕ) (link : ℕ → Option (Option ℕ)) : Option ℕ → Option (Option ℕ)
  | none => some p
  | some a => link a

def nextAt (heap : Heap) (list : OrderedList) : Option ℕ → Option (Option ℕ) :=
  withHeader list.front (nextOf heap)

def prevAt (heap : Heap) (list : OrderedList) : Option ℕ → Option (Option ℕ) :=
  withHeader list.back (prevOf heap)

def Linked (heap : Heap) (list : OrderedList) (x y : Option ℕ) : Prop :=
  nextAt heap list x = some y ∧ prevAt heap list y = some x

theorem withHeader_header {link : ℕ → Option (Option ℕ)} :
    withHeader q link = Function.update (withHeader p link) none (some q) := by
  funext x
  cases x with
  | none => rfl
  | some a => exact (Function.update_of_ne (Option.some_ne_none a) ..).symm

theorem withHeader_update {link : ℕ → Option (Option ℕ)} {v : Option (Option ℕ)} :
    withHeader p (Function.update link a v) =
      Function.update (withHeader p link) (some a) v := by
  funext x
  cases x with
  | none => exact (Function.update_of_ne (Option.some_ne_none a).symm ..).symm
  | some b =>
    by_cases hb : b = a
    · rw [hb, Function.update_self]
      exact Function.update_self ..
    · rw [Function.update_of_ne (mt Option.some_inj.mp hb)]
      exact Function.update_of_ne hb ..

theorem nextAt_front (list : OrderedList) (h : list'.front = q) :
    nextAt heap list' = Function.update (nextAt heap list) none (some q) := by
  rw [nextAt, h]
  exact withHeader_header

theorem prevAt_back (list : OrderedList) (h : list'.back = q) :
    prevAt heap list' = Function.update (prevAt heap list) none (some q) := by
  rw [prevAt, h]
  exact withHeader_header

theorem nextAt_same (list : OrderedList) (h : list'.front = list.front) :
    nextAt heap list' = nextAt heap list := by
  rw [nextAt, h, nextAt]

theorem prevAt_same (list : OrderedList) (h : list'.back = list.back) :
    prevAt heap list' = prevAt heap list := by
  rw [prevAt, h, prevAt]

theorem allocated_of_weights (h : weights heap' = weights heap) (ha : heap a ≠ none) :
    heap' a ≠ none := by
  rw [ne_eq, ← field_eq_none Link.weight] at ha ⊢
  rwa [show field Link.weight heap' = field Link.weight heap from h]

theorem setNext_some (ha : heap a ≠ none) (q : Option ℕ) :
    ∃ heap', setNext heap (some a) q = some heap' ∧ weights heap' = weights heap ∧
      ∀ list, nextAt heap' list = Function.update (nextAt heap list) (some a) (some q) ∧
        prevAt heap' list = prevAt heap list := by
  obtain ⟨heap', hset, hnext, hother⟩ := @exists_relink heap (some a) Link.next
    (fun link => { link with next := q }) q (fun _ => rfl) fun c hc => Option.some_inj.mp hc ▸ ha
  refine ⟨heap', hset, hother Link.weight fun _ => rfl, fun list => ⟨?_, ?_⟩⟩
  · rw [nextAt, nextOf, hnext]
    exact withHeader_update
  · exact congrArg (withHeader list.back) (hother Link.prev fun _ => rfl)

theorem setPrev_some (ha : heap a ≠ none) (q : Option ℕ) :
    ∃ heap', setPrev heap (some a) q = some heap' ∧ weights heap' = weights heap ∧
      ∀ list, nextAt heap' list = nextAt heap list ∧
        prevAt heap' list = Function.update (prevAt heap list) (some a) (some q) := by
  obtain ⟨heap', hset, hprev, hother⟩ := @exists_relink heap (some a) Link.prev
    (fun link => { link with prev := q }) q (fun _ => rfl) fun c hc => Option.some_inj.mp hc ▸ ha
  refine ⟨heap', hset, hother Link.weight fun _ => rfl, fun list => ⟨?_, ?_⟩⟩
  · exact congrArg (withHeader list.front) (hother Link.next fun _ => rfl)
  · rw [prevAt, prevOf, hprev]
    exact withHeader_update

/-- The header and the nodes are linked in both directions. -/
structure Strung (heap : Heap) (list : OrderedList) (ns : List ℕ) : Prop where
  ring : Ring (Linked heap list) none (ns.map some)
  nodup : ns.Nodup

theorem getLastD_some : (xs.map some).getLastD none = xs.getLast? := by
  rw [List.getLastD_eq_getLast?, List.getLast?_map]
  cases xs.getLast? <;> rfl

theorem headD_some : (ys.map some).headD none = ys.head? := by
  cases ys <;> rfl

theorem nodup_some (h : ns.Nodup) : (none :: ns.map some).Nodup :=
  List.nodup_cons.mpr ⟨by simp, h.map fun _ _ => Option.some_inj.mp⟩

theorem Strung.kept (h : Strung heap list ns)
    (hnext : ∀ x ∈ none :: ns.map some, nextAt heap' list' x = nextAt heap list x)
    (hprev : ∀ x ∈ none :: ns.map some, prevAt heap' list' x = prevAt heap list x) :
    Strung heap' list' ns :=
  ⟨h.ring.congr fun x hx y hy hlink =>
    ⟨(hnext x hx).trans hlink.1, (hprev y hy).trans hlink.2⟩, h.nodup⟩

theorem Strung.congr (h : Strung heap list ns) (hheap : ∀ a ∈ ns, heap' a = heap a) :
    Strung heap' list ns := by
  refine h.kept ?_ ?_
  · rintro (_ | a) hx
    · rfl
    · exact congrArg (Option.map Link.next) (hheap a (by simpa using hx))
  · rintro (_ | a) hx
    · rfl
    · exact congrArg (Option.map Link.prev) (hheap a (by simpa using hx))

theorem Strung.around (h : Strung heap list (xs ++ a :: ys)) :
    nextOf heap a = some ys.head? ∧ prevOf heap a = some xs.getLast? := by
  have hring := h.ring
  rw [List.map_append, List.map_cons] at hring
  obtain ⟨hleft, hright⟩ := hring.around
  rw [getLastD_some] at hleft
  rw [headD_some] at hright
  exact ⟨hright.1, hleft.2⟩

theorem Strung.front_eq (h : Strung heap list ns) : list.front = ns.head? := by
  have hfirst := h.ring.first.1.1
  rw [headD_some] at hfirst
  exact Option.some_inj.mp hfirst

theorem Strung.back_eq (h : Strung heap list ns) : list.back = ns.getLast? := by
  have hring := h.ring
  rw [← List.append_nil (ns.map some), ring_append, getLastD_some] at hring
  exact Option.some_inj.mp hring.2.2.2

theorem Strung.allocated (h : Strung heap list ns) (ha : a ∈ ns) : heap a ≠ none := by
  obtain ⟨xs, ys, rfl⟩ := List.append_of_mem ha
  rw [ne_eq, ← field_eq_none Link.next, show field Link.next heap a = _ from h.around.1]
  nofun

theorem Strung.link_eq (h : Strung heap list (xs ++ a :: ys)) :
    ∃ link, heap a = some link ∧ link.next = ys.head? ∧ link.prev = xs.getLast? :=
  link_of_fields h.around.1 h.around.2

/-- Nodes that are linked to one another are put between `x` and `y`. -/
structure Inserted (heap heap' : Heap) (list list' : OrderedList) (cs : List ℕ)
    (x y : Option ℕ) : Prop where
  next : nextAt heap' list' = Function.update
    (Function.update (nextAt heap list) cs.getLast? (some y)) x (some cs.head?)
  prev : prevAt heap' list' = Function.update
    (Function.update (prevAt heap list) cs.head? (some x)) y (some cs.getLast?)

structure Removed (heap heap' : Heap) (list list' : OrderedList) (x y : Option ℕ) : Prop where
  next : nextAt heap' list' = Function.update (nextAt heap list) x (some y)
  prev : prevAt heap' list' = Function.update (prevAt heap list) y (some x)

theorem Strung.insert {cs : List ℕ} (h : Strung heap list (xs ++ ys))
    (hcs : List.IsChain (Linked heap list) (cs.map some)) (hne : cs ≠ [])
    (hnodup : (xs ++ (cs ++ ys)).Nodup)
    (hins : Inserted heap heap' list list' cs xs.getLast? ys.head?) :
    Strung heap' list' (xs ++ (cs ++ ys)) := by
  refine ⟨?_, hnodup⟩
  have hring := h.ring
  have hall := nodup_some h.nodup
  rw [List.map_append] at hring hall
  obtain ⟨c, hc⟩ := Option.ne_none_iff_exists'.mp (mt List.head?_eq_none_iff.mp hne)
  obtain ⟨e, he⟩ := Option.ne_none_iff_exists'.mp (mt List.getLast?_eq_none_iff.mp hne)
  have hnew : ∀ a ∈ cs, ∀ z ∈ none :: (xs.map some ++ ys.map some), z ≠ some a := by
    rintro a ha z hz rfl
    rw [← List.map_append] at hz
    have hmem : a ∈ xs ++ ys := by simpa using hz
    have hnodup' := List.perm_append_comm_assoc xs cs ys |>.nodup_iff.mp hnodup
    exact (List.nodup_append'.mp hnodup').2.2 ha hmem
  have hc' := hnew c (List.mem_of_head? hc)
  have he' := hnew e (List.mem_of_getLast? he)
  have hcsSome : (none :: cs.map some).Nodup := nodup_some
    ((List.nodup_append'.mp (List.nodup_append'.mp hnodup).2.1).1)
  have hnext := hins.next
  have hprev := hins.prev
  rw [hc, he] at hnext hprev
  rw [List.map_append, List.map_append]
  refine hring.splice hall hcs (by simpa using hne) (fun z hz d hd hzx hdy hlink => ?_)
    (fun z hz d hd hlink => ?_) ⟨?_, ?_⟩ ⟨?_, ?_⟩
  · rw [getLastD_some] at hzx
    rw [headD_some] at hdy
    rw [Linked, hnext, hprev, Function.update_of_ne hzx, Function.update_of_ne hdy,
      Function.update_of_ne (he' z hz), Function.update_of_ne (hc' d hd)]
    exact hlink
  · -- a link between the new nodes is not at their ends
    have hmapNe : cs.map some ≠ [] := by simpa using hne
    have hze : z ≠ some e := by
      have hmem : z ∈ (none :: cs.map some).dropLast := by
        rw [List.dropLast_cons_of_ne_nil hmapNe]
        exact List.mem_cons_of_mem _ hz
      rw [← he, ← getLastD_some]
      exact ne_last hcsSome hmem
    have hdc : d ≠ some c := by
      obtain ⟨cs, rfl⟩ := List.head?_eq_some_iff.mp hc
      rintro rfl
      exact (List.nodup_cons.mp (List.nodup_cons.mp hcsSome).2).1 hd
    obtain ⟨a, ha, rfl⟩ := List.mem_map.mp (List.dropLast_subset _ hz)
    obtain ⟨b, hb, rfl⟩ := List.mem_map.mp (List.mem_of_mem_tail hd)
    have hzx : some a ≠ xs.getLast? := by
      rw [← getLastD_some]
      exact (hnew a ha _ last_mem).symm
    have hdy : some b ≠ ys.head? := by
      rw [← headD_some]
      exact (hnew b hb _ first_mem).symm
    rw [Linked, hnext, hprev, Function.update_of_ne hzx, Function.update_of_ne hze,
      Function.update_of_ne hdy, Function.update_of_ne hdc]
    exact hlink
  · rw [hnext, getLastD_some, headD_some, Function.update_self, hc]
  · rw [hprev, getLastD_some, headD_some, hc, Function.update_of_ne, Function.update_self]
    rw [← headD_some]
    exact (hc' _ first_mem).symm
  · rw [hnext, getLastD_some, headD_some, he, Function.update_of_ne, Function.update_self]
    rw [← getLastD_some]
    exact (he' _ last_mem).symm
  · rw [hprev, getLastD_some, headD_some, he, Function.update_self]

theorem Strung.remove {cs : List ℕ} (h : Strung heap list (xs ++ (cs ++ ys)))
    (hrem : Removed heap heap' list list' xs.getLast? ys.head?) :
    Strung heap' list' (xs ++ ys) := by
  have hring := h.ring
  have hnodup := nodup_some h.nodup
  rw [List.map_append, List.map_append] at hring hnodup
  refine ⟨?_, h.nodup.sublist ((List.sublist_append_right cs ys).append_left xs)⟩
  rw [List.map_append]
  refine hring.cut hnodup (fun c _ d _ hcx hdy hlink => ?_) ⟨?_, ?_⟩
  · rw [getLastD_some] at hcx
    rw [headD_some] at hdy
    rw [Linked, hrem.next, hrem.prev, Function.update_of_ne hcx, Function.update_of_ne hdy]
    exact hlink
  · rw [hrem.next, getLastD_some, headD_some, Function.update_self]
  · rw [hrem.prev, getLastD_some, headD_some, Function.update_self]

def SameKind (list list' : OrderedList) : Prop :=
  list'.sortOrder = list.sortOrder ∧ list'.pushType = list.pushType ∧
    list'.initialized = list.initialized

theorem Strung.pushAfter (h : Strung heap list (xs ++ [a])) (hitem : heap item ≠ none) :
    ∃ heap', orderedListPushAfter heap list (some item) list.back =
        some (heap', { list with back := some item, size := list.size + 1 }) ∧
      weights heap' = weights heap ∧ Inserted heap heap' list
        { list with back := some item, size := list.size + 1 } [item] (some a) none := by
  obtain ⟨link, hlink, hnext, -⟩ := h.link_eq
  have hback : list.back = some a := by rw [h.back_eq, List.getLast?_concat]
  obtain ⟨heap₁, hset₁, hw₁, hat₁⟩ := setNext_some hitem none
  obtain ⟨heap₂, hset₂, hw₂, hat₂⟩ := setPrev_some (allocated_of_weights hw₁ hitem) (some a)
  have ha : heap a ≠ none := h.allocated (List.mem_append_right xs List.mem_cons_self)
  obtain ⟨heap₃, hset₃, hw₃, hat₃⟩ := setNext_some
    (allocated_of_weights hw₂ (allocated_of_weights hw₁ ha)) (some item)
  refine ⟨heap₃, ?_, hw₃.trans (hw₂.trans hw₁), ?_, ?_⟩
  · simp only [orderedListPushAfter, hback, deref, Option.bind_some, hlink, hnext,
      List.head?_nil, hset₁, hset₂, hset₃, Option.bind_eq_bind, if_true]
    rfl
  · refine (nextAt_same list rfl).trans ?_
    rw [(hat₃ list).1, (hat₂ list).1, (hat₁ list).1]
    rfl
  · refine (prevAt_back list rfl).trans ?_
    rw [(hat₃ list).2, (hat₂ list).2, (hat₁ list).2]
    rfl

theorem Strung.pushBefore (h : Strung heap list (xs ++ b :: ys)) (hitem : heap item ≠ none)
    (hnew : item ∉ xs ++ b :: ys) :
    ∃ heap' list', orderedListPushBefore heap list (some item) (some b) = some (heap', list') ∧
      weights heap' = weights heap ∧ list'.size = list.size + 1 ∧ SameKind list list' ∧
      Inserted heap heap' list list' [item] xs.getLast? (some b) := by
  have hb : b ∈ xs ++ b :: ys := List.mem_append_right xs List.mem_cons_self
  have hib : item ≠ b := fun heq => hnew (heq ▸ hb)
  obtain ⟨heap₁, hset₁, hw₁, hat₁⟩ := setNext_some hitem (some b)
  have hprev₁ : prevOf heap₁ b = some xs.getLast? :=
    (congrFun (hat₁ list).2 (some b)).trans h.around.2
  obtain ⟨link₁, hlink₁, hp₁⟩ := field_eq_some hprev₁
  obtain ⟨heap₂, hset₂, hw₂, hat₂⟩ :=
    setPrev_some (allocated_of_weights hw₁ hitem) xs.getLast?
  obtain ⟨heap₃, hset₃, hw₃, hat₃⟩ := setPrev_some
    (allocated_of_weights hw₂ (allocated_of_weights hw₁ (h.allocated hb))) (some item)
  have hprev₃ : prevOf heap₃ item = some xs.getLast? := by
    refine (congrFun (hat₃ list).2 (some item)).trans ?_
    rw [Function.update_of_ne (mt Option.some_inj.mp hib), (hat₂ list).2, Function.update_self]
  obtain ⟨link₃, hlink₃, hp₃⟩ := field_eq_some hprev₃
  have hw : weights heap₃ = weights heap := hw₃.trans (hw₂.trans hw₁)
  have hprevs : prevAt heap₃ list = Function.update
      (Function.update (prevAt heap list) (some item) (some xs.getLast?)) (some b)
      (some (some item)) := by
    rw [(hat₃ list).2, (hat₂ list).2, (hat₁ list).2]
  have hnexts : nextAt heap₃ list =
      Function.update (nextAt heap list) (some item) (some (some b)) := by
    rw [(hat₃ list).1, (hat₂ list).1, (hat₁ list).1]
  rcases List.eq_nil_or_concat xs with rfl | ⟨zs, c, rfl⟩
  · have hfront : list.front = some b := h.front_eq
    refine ⟨heap₃, { list with front := some item, size := list.size + 1 }, ?_, hw, rfl,
      ⟨rfl, rfl, rfl⟩, ?_, hprevs⟩
    · simp only [orderedListPushBefore, hset₁, deref, Option.bind_some, hlink₁, hp₁, hset₂,
        hset₃, hfront, if_true, Option.bind_eq_bind]
      rfl
    · refine (nextAt_front list rfl).trans ?_
      rw [hnexts]
      rfl
  · rw [List.concat_eq_append] at *
    have hfront : list.front ≠ some b := by
      rw [h.front_eq]
      have hnodup := h.nodup
      rw [List.nodup_append'] at hnodup
      intro heq
      rw [List.head?_append_of_ne_nil _ (by simp)] at heq
      exact hnodup.2.2 (List.mem_of_head? heq) List.mem_cons_self
    have hc : heap c ≠ none := h.allocated (by simp)
    obtain ⟨heap₄, hset₄, hw₄, hat₄⟩ := setNext_some (allocated_of_weights hw hc) (some item)
    rw [List.getLast?_concat] at *
    refine ⟨heap₄, { list with size := list.size + 1 }, ?_, hw₄.trans hw, rfl,
      ⟨rfl, rfl, rfl⟩, ?_, ?_⟩
    · simp only [orderedListPushBefore, hset₁, deref, Option.bind_some, hlink₁, hp₁, hset₂,
        hset₃, if_neg hfront, hlink₃, hp₃, hset₄, Option.bind_eq_bind]
      rfl
    · refine (nextAt_same list rfl).trans ?_
      rw [(hat₄ list).1, hnexts]
      rfl
    · refine (prevAt_same list rfl).trans ?_
      rw [(hat₄ list).2, hprevs]
      rfl

theorem weightOf_eq {link : Link} (h : heap a = some link) : weightOf heap a = link.weight := by
  rw [weightOf, weights, field, h]
  rfl

theorem findPlace_eq (stays keep : ℕ → Bool) {fuel : ℕ} (h : Strung heap list (xs ++ ys))
    (hkeep : ∀ a ∈ ys, stays (weightOf heap a) = keep a) (hstop : ∃ a ∈ ys, ¬ keep a)
    (hfuel : ys.length ≤ fuel) :
    findPlace heap stays fuel ys.head? = some (ys.dropWhile keep).head? := by
  induction ys generalizing xs fuel with
  | nil => exact absurd hstop (by simp)
  | cons a ys ih =>
    obtain ⟨link, hlink, hnext, -⟩ := h.link_eq
    rw [List.forall_mem_cons, weightOf_eq hlink] at hkeep
    cases fuel with
    | zero => exact absurd hfuel (Nat.not_succ_le_zero _)
    | succ fuel =>
      rw [findPlace, List.head?_cons, deref, Option.bind_some, hlink, Option.bind_eq_bind,
        Option.bind_some, List.dropWhile_cons, hkeep.1]
      by_cases hstays : keep a
      · rw [if_pos hstays, if_pos hstays, hnext]
        rw [← List.singleton_append, ← List.append_assoc] at h
        refine ih h hkeep.2 ?_ (Nat.le_of_succ_le_succ hfuel)
        obtain ⟨b, hb, hnot⟩ := hstop
        rcases List.mem_cons.mp hb with rfl | hb
        · exact absurd hstays hnot
        · exact ⟨b, hb, hnot⟩
      · rw [if_neg hstays, if_neg hstays]
        rfl

def InOrder (heap : Heap) (sortOrder : SortOrder) (ns : List ℕ) : Prop :=
  ns.Pairwise fun a b => mayPrecede sortOrder (weightOf heap a) (weightOf heap b)

structure Sorted (heap : Heap) (list : OrderedList) (ns : List ℕ) : Prop where
  strung : Strung heap list ns
  size : list.size = ns.length
  initialized : list.initialized = true
  sorted : InOrder heap list.sortOrder ns

theorem Sorted.ensureInit_eq (h : Sorted heap list ns) : ensureInit list = list :=
  if_pos h.initialized

/-- Which nodes of the list stay before a new one of weight `w`. -/
def stays (heap : Heap) (list : OrderedList) (w a : ℕ) : Bool :=
  staysBefore list.sortOrder list.pushType (weightOf heap a) w

theorem setWeight_some (hitem : heap item ≠ none) (w : ℕ) :
    ∃ heap', modify heap (some item) (fun link => { link with weight := w }) = some heap' ∧
      weights heap' = Function.update (weights heap) item (some w) ∧
      (∀ b, b ≠ item → heap' b = heap b) ∧ heap' item ≠ none ∧
      ∀ list, nextAt heap' list = nextAt heap list ∧ prevAt heap' list = prevAt heap list := by
  obtain ⟨link, hlink⟩ := Option.ne_none_iff_exists'.mp hitem
  refine ⟨_, modify_eq hlink _, field_update _, fun b hb => Function.update_of_ne hb .., ?_,
    fun list => ⟨?_, ?_⟩⟩
  · rw [Function.update_self]
    nofun
  · exact congrArg (withHeader list.front) (field_update_same hlink rfl)
  · exact congrArg (withHeader list.back) (field_update_same hlink rfl)

theorem weightOf_congr (h : weights heap' = weights heap) : weightOf heap' = weightOf heap := by
  funext a
  rw [weightOf, h, weightOf]

theorem stays_before (hab : mayPrecede list.sortOrder (weightOf heap a) (weightOf heap b))
    (hb : stays heap list w b) : stays heap list w a := by
  rw [stays, staysBefore_iff] at hb ⊢
  exact ⟨mayPrecede_trans hab hb.1, fun hslt hwa => hb.2 hslt (mayPrecede_trans hwa hab)⟩

theorem Sorted.last_stays (h : Sorted heap list (xs ++ [a])) (hlast : stays heap list w a) :
    ∀ b ∈ xs ++ [a], stays heap list w b := by
  intro b hb
  rcases List.mem_append.mp hb with hb | hb
  · exact stays_before
      ((List.pairwise_append.mp h.sorted).2.2 b hb a (List.mem_singleton.mpr rfl)) hlast
  · rwa [List.mem_singleton.mp hb]

theorem Sorted.not_stays (h : Sorted heap list ns) (ha : a ∈ ns.dropWhile (stays heap list w)) :
    ¬ stays heap list w a := by
  have horder : InOrder heap list.sortOrder (ns.dropWhile (stays heap list w)) :=
    h.sorted.sublist (List.dropWhile_sublist _)
  cases hdrop : ns.dropWhile (stays heap list w) with
  | nil => exact absurd (hdrop ▸ ha) List.not_mem_nil
  | cons b ys =>
    have hb : ¬ stays heap list w b := by
      have hhead := List.head_dropWhile_not (stays heap list w) (l := ns) (by simp [hdrop])
      simpa [hdrop] using hhead
    rw [hdrop] at ha horder
    rcases List.mem_cons.mp ha with rfl | hmem
    · exact hb
    · exact fun hstays => hb (stays_before (List.rel_of_pairwise_cons horder hmem) hstays)

/-- What a push leaves, with the new node between `x` and `y`. -/
structure Pushed (heap heap' : Heap) (list list' : OrderedList) (item w : ℕ)
    (x y : Option ℕ) : Prop where
  weights : weights heap' = Function.update (weights heap) item (some w)
  size : list'.size = list.size + 1
  kind : SameKind list list'
  inserted : Inserted heap heap' list list' [item] x y

theorem Inserted.pushed {heap₀ : Heap} {list' : OrderedList} {w : ℕ}
    (hins : Inserted heap₀ heap' list list' [item] x y)
    (hat : ∀ list, nextAt heap₀ list = nextAt heap list ∧ prevAt heap₀ list = prevAt heap list)
    (hw₀ : weights heap₀ = Function.update (weights heap) item (some w))
    (hw : weights heap' = weights heap₀) (hsize : list'.size = list.size + 1)
    (hkind : SameKind list list') : Pushed heap heap' list list' item w x y :=
  ⟨hw.trans hw₀, hsize, hkind, by rw [hins.next, (hat list).1], by rw [hins.prev, (hat list).2]⟩

theorem Sorted.push_empty (h : Sorted heap list []) (hitem : heap item ≠ none) (w : ℕ) :
    ∃ heap' list', orderedListPush heap list item w = some (heap', list') ∧
      Pushed heap heap' list list' item w none none := by
  obtain ⟨heap₀, hset₀, hw₀, -, hitem₀, hat₀⟩ := setWeight_some hitem w
  have hsize : list.size = 0 := h.size
  obtain ⟨heap₁, hset₁, hw₁, hat₁⟩ := setPrev_some hitem₀ none
  obtain ⟨heap₂, hset₂, hw₂, hat₂⟩ := setNext_some (allocated_of_weights hw₁ hitem₀) none
  have hins : Inserted heap₀ heap₂ list
      { list with front := some item, back := some item, size := list.size + 1 } [item] none
      none := by
    refine ⟨(nextAt_front list rfl).trans ?_, (prevAt_back list rfl).trans ?_⟩
    · rw [(hat₂ list).1, (hat₁ list).1]
      rfl
    · rw [(hat₂ list).2, (hat₁ list).2]
      rfl
  refine ⟨heap₂, _, ?_, hins.pushed hat₀ hw₀ (hw₂.trans hw₁) rfl ⟨rfl, rfl, rfl⟩⟩
  simp only [orderedListPush, h.ensureInit_eq, hset₀, if_pos hsize, hset₁, hset₂,
    Option.bind_eq_bind, Option.bind_some]
  rfl

theorem Sorted.weighed {heap₀ : Heap} {w : ℕ} (h : Sorted heap list (xs ++ [a]))
    (hnew : item ∉ xs ++ [a]) (hw₀ : weights heap₀ = Function.update (weights heap) item (some w))
    (hat₀ : ∀ list, nextAt heap₀ list = nextAt heap list ∧ prevAt heap₀ list = prevAt heap list) :
    Strung heap₀ list (xs ++ [a]) ∧ (∀ b ∈ xs ++ [a], weightOf heap₀ b = weightOf heap b) ∧
      list.size ≠ 0 ∧ list.back = some a ∧
      ∃ last, heap₀ a = some last ∧ last.weight = weightOf heap a := by
  have hstrung : Strung heap₀ list (xs ++ [a]) :=
    h.strung.kept (fun x _ => congrFun (hat₀ list).1 x) fun x _ => congrFun (hat₀ list).2 x
  have hweight : ∀ b ∈ xs ++ [a], weightOf heap₀ b = weightOf heap b := by
    intro b hb
    have hne : b ≠ item := fun heq => hnew (heq ▸ hb)
    rw [weightOf, hw₀, Function.update_of_ne hne, weightOf]
  obtain ⟨last, hlast, -⟩ := hstrung.link_eq
  refine ⟨hstrung, hweight, ?_, by rw [hstrung.back_eq, List.getLast?_concat], last, hlast, ?_⟩
  · rw [h.size, List.length_append]
    exact Nat.succ_ne_zero _
  · rw [← hweight a (List.mem_append_right xs List.mem_cons_self), weightOf_eq hlast]

theorem Sorted.push_last (h : Sorted heap list (xs ++ [a])) (hitem : heap item ≠ none)
    (hnew : item ∉ xs ++ [a]) {w : ℕ} (hstays : stays heap list w a) :
    ∃ heap' list', orderedListPush heap list item w = some (heap', list') ∧
      Pushed heap heap' list list' item w (some a) none := by
  obtain ⟨heap₀, hset₀, hw₀, -, hitem₀, hat₀⟩ := setWeight_some hitem w
  obtain ⟨hstrung, -, hsize, hback, last, hlast, hlastWeight⟩ := h.weighed hnew hw₀ hat₀
  obtain ⟨heap', hafter, hw, hins⟩ := hstrung.pushAfter hitem₀
  refine ⟨heap', _, ?_, hins.pushed hat₀ hw₀ hw rfl ⟨rfl, rfl, rfl⟩⟩
  have hlasts : staysBefore list.sortOrder list.pushType last.weight w = true := by
    rw [hlastWeight]
    exact hstays
  simp only [orderedListPush, h.ensureInit_eq, hset₀, if_neg hsize, deref, hback,
    Option.bind_some, hlast, hlasts, if_true, Option.bind_eq_bind]
  rw [← hback]
  exact hafter

theorem Sorted.push_before (h : Sorted heap list (xs ++ [a])) (hitem : heap item ≠ none)
    (hnew : item ∉ xs ++ [a]) {w : ℕ} (hstays : ¬ stays heap list w a) :
    ∃ heap' list', orderedListPush heap list item w = some (heap', list') ∧
      Pushed heap heap' list list' item w ((xs ++ [a]).takeWhile (stays heap list w)).getLast?
        ((xs ++ [a]).dropWhile (stays heap list w)).head? := by
  obtain ⟨heap₀, hset₀, hw₀, -, hitem₀, hat₀⟩ := setWeight_some hitem w
  obtain ⟨hstrung, hweight, hsize, hback, last, hlast, hlastWeight⟩ := h.weighed hnew hw₀ hat₀
  have hmem : a ∈ xs ++ [a] := List.mem_append_right xs List.mem_cons_self
  have hplace : findPlace heap₀ (fun old => staysBefore list.sortOrder list.pushType old w)
      list.size list.front = some ((xs ++ [a]).dropWhile (stays heap list w)).head? := by
    have hstrung' : Strung heap₀ list ([] ++ (xs ++ [a])) := hstrung
    rw [hstrung.front_eq]
    exact findPlace_eq _ _ hstrung' (fun b hb => by rw [hweight b hb, stays])
      ⟨a, hmem, hstays⟩ h.size.ge
  cases hdrop : (xs ++ [a]).dropWhile (stays heap list w) with
  | nil => exact absurd (List.dropWhile_eq_nil_iff.mp hdrop a hmem) hstays
  | cons b ys =>
    have hsplit : xs ++ [a] = (xs ++ [a]).takeWhile (stays heap list w) ++ b :: ys := by
      rw [← hdrop, List.takeWhile_append_dropWhile]
    rw [hdrop, List.head?_cons] at hplace
    rw [hsplit] at hstrung hnew
    obtain ⟨heap', list', hbefore, hw, hsize', hkind, hins⟩ := hstrung.pushBefore hitem₀ hnew
    refine ⟨heap', list', ?_, hins.pushed hat₀ hw₀ hw hsize' hkind⟩
    have hlasts : ¬ staysBefore list.sortOrder list.pushType last.weight w = true := by
      rw [hlastWeight]
      exact hstays
    simp only [orderedListPush, h.ensureInit_eq, hset₀, if_neg hsize, deref, hback,
      Option.bind_some, hlast, if_neg hlasts, hplace, Option.bind_eq_bind]
    exact hbefore

theorem Sorted.push (h : Sorted heap list ns) (hitem : heap item ≠ none) (hnew : item ∉ ns)
    (w : ℕ) :
    ∃ heap' list', orderedListPush heap list item w = some (heap', list') ∧
      Pushed heap heap' list list' item w (ns.takeWhile (stays heap list w)).getLast?
        (ns.dropWhile (stays heap list w)).head? := by
  rcases List.eq_nil_or_concat ns with rfl | ⟨xs, a, rfl⟩
  · exact h.push_empty hitem w
  rw [List.concat_eq_append] at *
  by_cases hstays : stays heap list w a
  · have hall := h.last_stays hstays
    rw [List.takeWhile_eq_self_iff.mpr hall, List.dropWhile_eq_nil_iff.mpr hall,
      List.getLast?_concat]
    exact h.push_last hitem hnew hstays
  · exact h.push_before hitem hnew hstays

/-- What a call that takes out a node did to the list and the links around it. -/
structure TakenOut (heap heap' : Heap) (list list' : OrderedList) (x y : Option ℕ) : Prop where
  weights : weights heap' = weights heap
  size : list'.size = list.size - 1
  kind : SameKind list list'
  removed : Removed heap heap' list list' x y

theorem Sorted.size_pos (h : Sorted heap list ns) (hns : ns ≠ []) : list.size > 0 := by
  rw [h.size]
  exact List.length_pos_iff.mpr hns

theorem Sorted.popFront (h : Sorted heap list (a :: ys)) :
    ∃ heap' list', orderedListPopFront heap list = some (heap', list', some a) ∧
      TakenOut heap heap' list list' none ys.head? := by
  have hstrung : Strung heap list ([] ++ a :: ys) := h.strung
  obtain ⟨link, hlink, hnext, -⟩ := hstrung.link_eq
  have hsize : list.size > 0 := h.size_pos (List.cons_ne_nil a ys)
  have hfront : list.front = some a := h.strung.front_eq
  simp only [orderedListPopFront, h.ensureInit_eq, if_pos hsize, hfront, deref, Option.bind_some,
    hlink, Option.bind_eq_bind, hnext]
  cases ys with
  | nil =>
    exact ⟨heap, { list with front := none, back := none, size := list.size - 1 }, rfl, rfl, rfl,
      ⟨rfl, rfl, rfl⟩, nextAt_front list rfl, prevAt_back list rfl⟩
  | cons b ys =>
    have hb : heap b ≠ none := h.strung.allocated (by simp)
    obtain ⟨heap', hset, hw, hat⟩ := setPrev_some hb none
    rw [List.head?_cons, if_neg (Option.some_ne_none b), hset]
    refine ⟨heap', { list with front := some b, size := list.size - 1 }, rfl, hw, rfl,
      ⟨rfl, rfl, rfl⟩, ?_, ?_⟩
    · refine (nextAt_front list rfl).trans ?_
      rw [(hat list).1]
    · exact (prevAt_same list rfl).trans (hat list).2

theorem Sorted.popBack (h : Sorted heap list (xs ++ [a])) :
    ∃ heap' list', orderedListPopBack heap list = some (heap', list', some a) ∧
      TakenOut heap heap' list list' xs.getLast? none := by
  obtain ⟨link, hlink, -, hprev⟩ := h.strung.link_eq
  have hsize : list.size > 0 := h.size_pos (by simp)
  have hback : list.back = some a := by rw [h.strung.back_eq, List.getLast?_concat]
  simp only [orderedListPopBack, h.ensureInit_eq, if_pos hsize, hback, deref, Option.bind_some,
    hlink, Option.bind_eq_bind, hprev]
  rcases List.eq_nil_or_concat xs with rfl | ⟨xs, b, rfl⟩
  · exact ⟨heap, { list with front := none, back := none, size := list.size - 1 }, rfl, rfl, rfl,
      ⟨rfl, rfl, rfl⟩, nextAt_front list rfl, prevAt_back list rfl⟩
  · rw [List.concat_eq_append] at *
    have hb : heap b ≠ none := h.strung.allocated (by simp)
    obtain ⟨heap', hset, hw, hat⟩ := setNext_some hb none
    rw [List.getLast?_concat, if_neg (Option.some_ne_none b), hset]
    refine ⟨heap', { list with back := some b, size := list.size - 1 }, rfl, hw, rfl,
      ⟨rfl, rfl, rfl⟩, ?_, ?_⟩
    · exact (nextAt_same list rfl).trans (hat list).1
    · refine (prevAt_back list rfl).trans ?_
      rw [(hat list).2]

theorem Strung.front_iff (h : Strung heap list (xs ++ item :: ys)) :
    some item = list.front ↔ xs = [] := by
  rw [h.front_eq]
  cases xs with
  | nil => exact ⟨fun _ => rfl, fun _ => rfl⟩
  | cons x xs =>
    have hnodup := h.nodup
    rw [List.cons_append, List.nodup_cons] at hnodup
    refine ⟨fun heq => ?_, nofun⟩
    rw [Option.some_inj.mp heq] at hnodup
    exact absurd (List.mem_append_right xs List.mem_cons_self) hnodup.1

theorem Strung.back_iff (h : Strung heap list (xs ++ item :: ys)) :
    some item = list.back ↔ ys = [] := by
  rw [h.back_eq]
  rcases List.eq_nil_or_concat ys with rfl | ⟨ys, y, rfl⟩
  · rw [List.getLast?_concat]
    exact ⟨fun _ => rfl, fun _ => rfl⟩
  · have hlast : (xs ++ item :: ys.concat y).getLast? = some y := by
      rw [List.concat_eq_append, ← List.cons_append, ← List.append_assoc, List.getLast?_concat]
    rw [hlast]
    have hnodup := h.nodup
    rw [List.nodup_middle, List.nodup_cons] at hnodup
    refine ⟨fun heq => absurd ?_ hnodup.1, fun heq => absurd heq (by simp)⟩
    rw [Option.some_inj.mp heq]
    simp

theorem Strung.passNext {link : Link} (h : Strung heap list (xs ++ item :: ys))
    (hnext : link.next = ys.head?) (hprev : link.prev = xs.getLast?) :
    ∃ heap' list', (if some item = list.front then some (heap, { list with front := link.next })
        else (setNext heap link.prev link.next).map (·, list)) = some (heap', list') ∧
      weights heap' = weights heap ∧ list'.size = list.size ∧ list'.back = list.back ∧
      SameKind list list' ∧
      nextAt heap' list' = Function.update (nextAt heap list) xs.getLast? (some ys.head?) ∧
      prevAt heap' list' = prevAt heap list := by
  rcases List.eq_nil_or_concat xs with rfl | ⟨xs, b, rfl⟩
  · rw [if_pos (h.front_iff.mpr rfl), hnext]
    exact ⟨heap, _, rfl, rfl, rfl, rfl, ⟨rfl, rfl, rfl⟩, nextAt_front list rfl,
      prevAt_same list rfl⟩
  · rw [List.concat_eq_append] at *
    have hb : heap b ≠ none := h.allocated (by simp)
    obtain ⟨heap', hset, hw, hat⟩ := setNext_some hb ys.head?
    rw [List.getLast?_concat] at hprev ⊢
    rw [if_neg (mt h.front_iff.mp (by simp)), hnext, hprev, hset]
    exact ⟨heap', list, rfl, hw, rfl, rfl, ⟨rfl, rfl, rfl⟩, (hat list).1, (hat list).2⟩

theorem Strung.passPrev {link : Link} (h : Strung heap list (xs ++ item :: ys))
    (hw : weights heap' = weights heap) (hback : list'.back = list.back)
    (hnext : link.next = ys.head?) (hprev : link.prev = xs.getLast?) :
    ∃ heap₂ list₂, (if some item = list'.back then some (heap', { list' with back := link.prev })
        else (setPrev heap' link.next link.prev).map (·, list')) = some (heap₂, list₂) ∧
      weights heap₂ = weights heap' ∧ list₂.size = list'.size ∧ SameKind list' list₂ ∧
      nextAt heap₂ list₂ = nextAt heap' list' ∧
      prevAt heap₂ list₂ = Function.update (prevAt heap' list') ys.head? (some xs.getLast?) := by
  rw [hback, hprev, hnext]
  cases ys with
  | nil =>
    rw [if_pos (h.back_iff.mpr rfl)]
    exact ⟨heap', _, rfl, rfl, rfl, ⟨rfl, rfl, rfl⟩, nextAt_same list' rfl,
      prevAt_back list' rfl⟩
  | cons b ys =>
    have hb : heap b ≠ none := h.allocated (by simp)
    obtain ⟨heap₂, hset, hw₂, hat⟩ := setPrev_some (allocated_of_weights hw hb) xs.getLast?
    rw [List.head?_cons, if_neg (mt h.back_iff.mp (by simp)), hset]
    exact ⟨heap₂, list', rfl, hw₂, rfl, ⟨rfl, rfl, rfl⟩, (hat list').1, (hat list').2⟩

theorem Sorted.popItem (h : Sorted heap list (xs ++ item :: ys)) :
    ∃ heap' list', orderedListPopItem heap list item = some (heap', list') ∧
      TakenOut heap heap' list list' xs.getLast? ys.head? := by
  obtain ⟨link, hlink, hnext, hprev⟩ := h.strung.link_eq
  have hself : some item ≠ xs.getLast? := by
    intro heq
    have hnodup := h.strung.nodup
    rw [List.nodup_middle, List.nodup_cons] at hnodup
    exact hnodup.1 (List.mem_append_left ys (List.mem_of_getLast? heq.symm))
  obtain ⟨heap₁, list₁, hfirst, hw₁, hsize₁, hback₁, hkind₁, hn₁, hp₁⟩ :=
    h.strung.passNext hnext hprev
  obtain ⟨link₁, hlink₁, hnext₁, hprev₁⟩ : ∃ link₁, heap₁ item = some link₁ ∧
      link₁.next = ys.head? ∧ link₁.prev = xs.getLast? := by
    refine link_of_fields ((congrFun hn₁ (some item)).trans ?_)
      ((congrFun hp₁ (some item)).trans h.strung.around.2)
    rw [Function.update_of_ne hself]
    exact h.strung.around.1
  obtain ⟨heap₂, list₂, hsecond, hw₂, hsize₂, hkind₂, hn₂, hp₂⟩ :=
    h.strung.passPrev hw₁ hback₁ hnext₁ hprev₁
  refine ⟨heap₂, { list₂ with size := list₂.size - 1 }, ?_, hw₂.trans hw₁, ?_, ?_, ?_, ?_⟩
  · simp only [orderedListPopItem, h.ensureInit_eq, hlink, Option.bind_eq_bind,
      Option.bind_some, hfirst, hlink₁, hsecond]
    rfl
  · dsimp only
    rw [hsize₂, hsize₁]
  · exact ⟨hkind₂.1.trans hkind₁.1, hkind₂.2.1.trans hkind₁.2.1, hkind₂.2.2.trans hkind₁.2.2⟩
  · refine (nextAt_same list₂ rfl).trans ?_
    rw [hn₂, hn₁]
  · refine (prevAt_same list₂ rfl).trans ?_
    rw [hp₂, hp₁]

theorem Sorted.linearSearch {compare : ℕ → Bool} {fuel : ℕ} (h : Sorted heap list ns)
    (hfuel : ns.length < fuel) :
    orderedListLinearSearch fuel heap list compare = some (ns.find? compare) := by
  have hloop : ∀ {ys fuel xs}, Strung heap list (xs ++ ys) → ys.length < fuel →
      searchFrom heap compare fuel ys.head? = some (ys.find? compare) := by
    intro ys
    induction ys with
    | nil =>
      intro fuel xs _ hlt
      obtain ⟨fuel, rfl⟩ := Nat.exists_eq_add_one_of_ne_zero (Nat.ne_of_gt hlt)
      rfl
    | cons a ys ih =>
      intro fuel xs hstrung hlt
      obtain ⟨fuel, rfl⟩ := Nat.exists_eq_add_one_of_ne_zero (Nat.ne_of_gt (Nat.zero_lt_of_lt hlt))
      obtain ⟨link, hlink, hnext, -⟩ := hstrung.link_eq
      rw [List.head?_cons, searchFrom, List.find?_cons]
      cases compare a with
      | true => rfl
      | false =>
        rw [← List.singleton_append, ← List.append_assoc] at hstrung
        simp only [hlink, hnext, Option.bind_eq_bind, Option.bind_some]
        exact ih hstrung (Nat.lt_of_succ_lt_succ hlt)
  rw [orderedListLinearSearch, h.ensureInit_eq, h.strung.front_eq]
  exact @hloop ns fuel [] h.strung hfuel

end OrderedLists
