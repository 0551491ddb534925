import Mathlib.Algebra.Group.Nat.Even
import Mathlib.Data.List.Induction
import MyGitCode.LinkChains
import MyGitCode.VoiceDatastore

/-! # The listeners of the voice events

`voice_al.c` keeps the registered callbacks in a list of `list.c`. A node's first field is a
pointer to a link where the list has the link itself, so that the address of the next node
stands in it. -/
namespace EventListeners

open LinkChains VoiceDatastore

/-- `jan_voice_event_list_node_t`. -/
structure Node where
  link : Option ℕ
  callback : ℕ
  cbParam : ℕ
  deriving DecidableEq, Repr

/-- `jan_voice_event_list` and the memory its nodes stand in. -/
structure Events where
  heap : ℕ → Option Node
  front : Option ℕ
  back : Option ℕ
  size : ℕ

inductive Fault where
  | nullLink | dangling | endless
  deriving DecidableEq, Repr

def nextPtr (heap : ℕ → Option Node) : Option ℕ → Except Fault (Option ℕ)
  | none => .error .nullLink
  | some a =>
    match heap a with
    | none => .error .dangling
    | some node => .ok node.link

/-- `node->link = next`. -/
def setLink (heap : ℕ → Option Node) (a : ℕ) (next : Option ℕ) : ℕ → Option Node :=
  Function.update heap a ((heap a).map fun node => { node with link := next })

def listPushBack (s : Events) (item : ℕ) : Except Fault Events :=
  let heap := setLink s.heap item none
  if s.size = 0 then .ok ⟨heap, some item, some item, s.size + 1⟩
  else
    match s.back with
    | none => .error .nullLink
    | some last => .ok ⟨setLink heap last (some item), s.front, some item, s.size + 1⟩

/-- The loop of `list_pop_item`, with `temp_ptr` where it ends. -/
def findBefore (heap : ℕ → Option Node) (item : ℕ) : ℕ → Option ℕ → Except Fault ℕ
  | 0, _ => .error .endless
  | _ + 1, none => .error .nullLink
  | fuel + 1, some temp =>
    match nextPtr heap (some temp) with
    | .error e => .error e
    | .ok next => if next = some item then .ok temp else findBefore heap item fuel next

def listPopItem (s : Events) (item : ℕ) : Except Fault Events :=
  match nextPtr s.heap (some item) with
  | .error e => .error e
  | .ok next =>
    if s.front = some item then
      .ok ⟨s.heap, next, if s.back = some item then none else s.back, s.size - 1⟩
    else
      match findBefore s.heap item s.size s.front with
      | .error e => .error e
      | .ok temp =>
        .ok ⟨setLink s.heap temp next, s.front, if s.back = some item then some temp else s.back,
          s.size - 1⟩

/-- `malloc` gives the address of a new node. -/
def eventRegister (s : Events) (callback : Option ℕ) (cbParam : ℕ) (malloc : Option ℕ) :
    Except Fault (Rc × Events) :=
  match callback, malloc with
  | none, _ | _, none => .ok (.fail, s)
  | some callback, some a =>
    let heap := Function.update s.heap a (some ⟨none, callback, cbParam⟩)
    (listPushBack { s with heap := heap } a).map (Rc.noErr, ·)

def free (s : Events) (a : ℕ) : Events := { s with heap := Function.update s.heap a none }

/-- The loop of `jan_voice_al_event_unregister`. It ends after a node is removed. -/
def unregisterFrom (callback : ℕ) (s : Events) : ℕ → Option ℕ → Except Fault Events
  | _, none => .ok s
  | 0, some _ => .error .endless
  | fuel + 1, some a =>
    match s.heap a with
    | none => .error .dangling
    | some node =>
      if node.callback = callback then (listPopItem s a).map (free · a)
      else
        -- what follows the node that the link points to
        match nextPtr s.heap node.link with
        | .error e => .error e
        | .ok next => unregisterFrom callback s fuel next

def eventUnregister (s : Events) : Option ℕ → Except Fault (Rc × Events)
  | none => .ok (.fail, s)
  | some callback => (unregisterFrom callback s s.size s.front).map (Rc.noErr, ·)

def links (heap : ℕ → Option Node) (a : ℕ) : Option (Option ℕ) := (heap a).map Node.link

structure Represents (s : Events) (ns : List ℕ) : Prop where
  chain : Chain (links s.heap) s.front ns
  nodup : ns.Nodup
  back : s.back = ns.getLast?
  size : s.size = ns.length

def element (node : Node) : ℕ × ℕ := (node.callback, node.cbParam)

variable {s s' : Events} {heap : ℕ → Option Node} {ns xs ys rest : List ℕ} {a b fuel : ℕ}
  {next p : Option ℕ}

theorem nextPtr_of_links (h : links heap a = some next) : nextPtr heap (some a) = .ok next := by
  obtain ⟨node, hnode, rfl⟩ := Option.map_eq_some_iff.mp h
  simp only [nextPtr, hnode]

theorem links_setLink (h : links heap a ≠ none) (next : Option ℕ) :
    links (setLink heap a next) = Function.update (links heap) a (some next) := by
  obtain ⟨r, hr⟩ := Option.ne_none_iff_exists'.mp h
  obtain ⟨node, hnode, -⟩ := Option.map_eq_some_iff.mp hr
  funext b
  by_cases hb : b = a
  · subst hb
    simp [links, setLink, hnode]
  · simp [links, setLink, hb]

theorem element_setLink (heap : ℕ → Option Node) (a : ℕ) (next : Option ℕ) (b : ℕ) :
    (setLink heap a next b).map element = (heap b).map element := by
  by_cases hb : b = a
  · rw [hb, setLink, Function.update_self, Option.map_map]
    rfl
  · simp [setLink, hb]

theorem findBefore_segment (h : Segment (links heap) p (xs ++ [b]) (some a)) (ha : a ∉ xs ++ [b])
    (hfuel : xs.length < fuel) : findBefore heap a fuel p = .ok b := by
  induction xs generalizing p fuel with
  | nil =>
    obtain ⟨rfl, r, hr, rfl⟩ := h
    obtain ⟨fuel, rfl⟩ := Nat.exists_eq_add_one_of_ne_zero (Nat.ne_of_gt hfuel)
    rw [findBefore, nextPtr_of_links hr]
    simp
  | cons c xs ih =>
    obtain ⟨rfl, r, hr, hrest⟩ := h
    obtain ⟨fuel, rfl⟩ := Nat.exists_eq_add_one_of_ne_zero (Nat.ne_of_gt (Nat.zero_lt_of_lt hfuel))
    rw [List.cons_append, List.mem_cons, not_or] at ha
    have hne : r ≠ some a := by
      rw [hrest.head (by simp)]
      intro hhead
      exact ha.2 (List.mem_of_mem_head? hhead)
    rw [findBefore, nextPtr_of_links hr]
    simp only [hne, if_false]
    exact ih hrest ha.2 (Nat.lt_of_succ_lt_succ hfuel)

theorem back_popped (hnodup : (xs ++ a :: ys).Nodup) :
    (if (xs ++ a :: ys).getLast? = some a then xs.getLast? else (xs ++ a :: ys).getLast?) =
      (xs ++ ys).getLast? := by
  cases ys using List.reverseRecOn with
  | nil => simp
  | append_singleton ys c =>
    have hne : c ≠ a := by
      rintro rfl
      rw [List.nodup_append', List.nodup_cons] at hnodup
      exact hnodup.2.1.1 (List.mem_append_right _ (List.mem_singleton.mpr rfl))
    rw [← List.cons_append, ← List.append_assoc, ← List.append_assoc, List.getLast?_concat,
      List.getLast?_concat, if_neg (by simpa using hne)]

theorem listPopItem_front (hnext : nextPtr s.heap (some a) = .ok next)
    (hfront : s.front = some a) : listPopItem s a =
      .ok ⟨s.heap, next, if s.back = some a then none else s.back, s.size - 1⟩ := by
  simp only [listPopItem, hnext, if_pos hfront]

theorem listPopItem_behind (hnext : nextPtr s.heap (some a) = .ok next)
    (hfront : s.front ≠ some a) (hfound : findBefore s.heap a s.size s.front = .ok b) :
    listPopItem s a = .ok ⟨setLink s.heap b next, s.front,
      if s.back = some a then some b else s.back, s.size - 1⟩ := by
  simp only [listPopItem, hnext, if_neg hfront, hfound]

theorem listPopItem_represents (h : Represents s (xs ++ a :: ys)) :
    ∃ s', listPopItem s a = .ok s' ∧ Represents s' (xs ++ ys) ∧
      ∀ b, (s'.heap b).map element = (s.heap b).map element := by
  have hnodup := h.nodup
  have hback := back_popped hnodup
  rw [← h.back] at hback
  have hsize : s.size - 1 = (xs ++ ys).length := by
    rw [h.size, List.length_append, List.length_append, List.length_cons]
    rfl
  obtain ⟨t, hxs, rfl, r, hr, hys⟩ := segment_append.mp h.chain
  have hnext := nextPtr_of_links hr
  cases xs using List.reverseRecOn with
  | nil =>
    have hfront : s.front = some a := hxs
    refine ⟨_, listPopItem_front hnext hfront, ⟨hys, ?_, hback, hsize⟩, fun _ => rfl⟩
    exact (List.nodup_cons.mp hnodup).2
  | append_singleton xs b =>
    have ha : a ∉ xs ++ [b] := by
      intro hmem
      exact (List.nodup_append'.mp hnodup).2.2 hmem List.mem_cons_self
    have hfront : s.front ≠ some a := by
      rw [hxs.head (by simp)]
      intro hhead
      exact ha (List.mem_of_mem_head? hhead)
    have hfound := findBefore_segment hxs ha (show xs.length < s.size by rw [h.size]; simp)
    have hb : links s.heap b ≠ none := hxs.allocated b (by simp)
    rw [List.getLast?_concat] at hback
    refine ⟨_, listPopItem_behind hnext hfront hfound, ⟨?_, ?_, hback, hsize⟩,
      element_setLink _ _ _⟩
    · have hchain := h.chain
      rw [List.append_assoc] at hchain hnodup ⊢
      rw [links_setLink hb]
      exact hchain.unlink hnodup hr
    · exact hnodup.sublist (List.Sublist.append_left (List.sublist_cons_self a ys) _)

def initial : Events := ⟨fun _ => none, none, none, 0⟩

theorem initial_represents : Represents initial [] := ⟨rfl, List.nodup_nil, rfl, rfl⟩

theorem listPushBack_represents (h : Represents s ns) (hfresh : a ∉ ns)
    (ha : links s.heap a = some next) :
    ∃ s', listPushBack s a = .ok s' ∧ Represents s' (ns ++ [a]) ∧
      ∀ b, (s'.heap b).map element = (s.heap b).map element := by
  have hlinks : links (setLink s.heap a none) = Function.update (links s.heap) a (some none) :=
    links_setLink (by simp [ha]) none
  have hnodup : (ns ++ [a]).Nodup := by
    rw [List.nodup_append']
    refine ⟨h.nodup, List.nodup_singleton a, ?_⟩
    intro b hb hmem
    rw [List.mem_singleton] at hmem
    exact hfresh (hmem ▸ hb)
  have hsize : s.size + 1 = (ns ++ [a]).length := by
    rw [h.size, List.length_append, List.length_singleton]
  have hlast : some a = (ns ++ [a]).getLast? := List.getLast?_concat.symm
  cases ns using List.reverseRecOn with
  | nil =>
    refine ⟨_, if_pos h.size, ⟨⟨rfl, none, ?_, rfl⟩, hnodup, hlast, hsize⟩,
      element_setLink _ _ _⟩
    rw [hlinks, Function.update_self]
  | append_singleton xs b =>
    have hback : s.back = some b := h.back.trans List.getLast?_concat
    have hb : links (setLink s.heap a none) b ≠ none := by
      have hne : b ≠ a := by
        rintro rfl
        exact hfresh (by simp)
      rw [hlinks, Function.update_of_ne hne]
      exact h.chain.allocated b (by simp)
    have hpush : listPushBack s a =
        .ok ⟨setLink (setLink s.heap a none) b (some a), s.front, some a, s.size + 1⟩ := by
      rw [listPushBack, if_neg (by rw [h.size]; simp), hback]
    refine ⟨_, hpush, ⟨?_, hnodup, hlast, hsize⟩, fun c => ?_⟩
    · rw [links_setLink hb, hlinks]
      exact Chain.push h.chain h.nodup hfresh
    · rw [element_setLink, element_setLink]

/-- A new listener stands behind the others. -/
theorem eventRegister_represents (h : Represents s ns) (ha : s.heap a = none)
    (callback cbParam : ℕ) :
    ∃ s', eventRegister s (some callback) cbParam (some a) = .ok (.noErr, s') ∧
      Represents s' (ns ++ [a]) ∧ ∀ b, (s'.heap b).map element =
        if b = a then some (callback, cbParam) else (s.heap b).map element := by
  have hfresh : a ∉ ns := by
    intro hmem
    have hnone : links s.heap a = none := by rw [links, ha, Option.map_none]
    exact h.chain.allocated a hmem hnone
  let node : Node := ⟨none, callback, cbParam⟩
  have hheld : Represents { s with heap := Function.update s.heap a (some node) } ns := by
    refine ⟨h.chain.congr fun b hb => ?_, h.nodup, h.back, h.size⟩
    have hne : b ≠ a := by
      rintro rfl
      exact hfresh hb
    simp only [links, Function.update_of_ne hne]
  have hlink : links (Function.update s.heap a (some node)) a = some none := by
    simp [links, node]
  obtain ⟨s', hpush, hs', hmemory⟩ := listPushBack_represents hheld hfresh hlink
  refine ⟨s', by rw [eventRegister, hpush]; rfl, hs', fun b => ?_⟩
  rw [hmemory]
  by_cases hb : b = a
  · rw [hb, if_pos rfl]
    simp [node, element]
  · simp [hb]

def registered (s : Events) (callback : ℕ) (a : ℕ) : Bool :=
  (s.heap a).any fun node => node.callback = callback

inductive Walk where
  | found (a : ℕ)
  | nullLink
  | missed

/-- How the loop ends. It looks at every second node. -/
def walk (hit : ℕ → Bool) : List ℕ → Walk
  | [] => .missed
  | [a] => if hit a then .found a else .nullLink
  | a :: _ :: rest => if hit a then .found a else walk hit rest

variable {callback : ℕ}

theorem unregisterFrom_found (ha : registered s callback a = true) :
    unregisterFrom callback s (fuel + 1) (some a) = (listPopItem s a).map (free · a) := by
  unfold registered at ha
  cases hnode : s.heap a with
  | none =>
    rw [hnode] at ha
    cases ha
  | some node =>
    have heq : node.callback = callback := by simpa [hnode] using ha
    simp only [unregisterFrom, hnode, if_pos heq]

theorem unregisterFrom_next (ha : registered s callback a = false) (hr : links s.heap a = some p) :
    unregisterFrom callback s (fuel + 1) (some a) =
      match nextPtr s.heap p with
      | .error e => .error e
      | .ok next => unregisterFrom callback s fuel next := by
  obtain ⟨node, hnode, rfl⟩ := Option.map_eq_some_iff.mp hr
  have hne : node.callback ≠ callback := by simpa [registered, hnode] using ha
  simp only [unregisterFrom, hnode, if_neg hne]

theorem unregisterFrom_walk (h : Chain (links s.heap) p rest) (hfuel : rest.length ≤ fuel) :
    unregisterFrom callback s fuel p =
      match walk (registered s callback) rest with
      | .found a => (listPopItem s a).map (free · a)
      | .nullLink => .error .nullLink
      | .missed => .ok s := by
  induction rest using List.twoStepInduction generalizing p fuel with
  | nil =>
    obtain rfl : p = none := h
    rw [unregisterFrom]
    rfl
  | singleton a =>
    obtain ⟨rfl, r, hr, rfl⟩ := h
    obtain ⟨fuel, rfl⟩ := Nat.exists_eq_add_one_of_ne_zero (Nat.ne_of_gt hfuel)
    cases ha : registered s callback a with
    | true => rw [unregisterFrom_found ha, walk, if_pos ha]
    | false =>
      rw [unregisterFrom_next ha hr, walk, if_neg (by simp [ha])]
      rfl
  | cons_cons a b rest ih _ =>
    obtain ⟨rfl, r, hr, rfl, q, hq, hrest⟩ := h
    obtain ⟨fuel, rfl⟩ := Nat.exists_eq_add_one_of_ne_zero (Nat.ne_of_gt (Nat.zero_lt_of_lt hfuel))
    cases ha : registered s callback a with
    | true => rw [unregisterFrom_found ha, walk, if_pos ha]
    | false =>
      rw [unregisterFrom_next ha hr, walk, if_neg (by simp [ha]), nextPtr_of_links hq]
      refine ih hrest ?_
      simp only [List.length_cons] at hfuel
      omega

/-- The loop ends at the first node of a callback, or without one, exactly if an even number of
nodes stand before it, or in the list. -/
theorem walk_even {hit : ℕ → Bool} (h : Even (ns.findIdx hit)) :
    walk hit ns = match ns.find? hit with
      | some a => .found a
      | none => .missed := by
  induction ns using List.twoStepInduction with
  | nil => rfl
  | singleton a =>
    cases ha : hit a with
    | true => simp [walk, ha]
    | false => simp [List.findIdx_cons, ha] at h
  | cons_cons a b rest ih _ =>
    cases ha : hit a with
    | true => simp [walk, ha]
    | false =>
      cases hb : hit b with
      | true => simp [List.findIdx_cons, ha, hb] at h
      | false =>
        have hrest : Even (rest.findIdx hit) := by
          simpa [List.findIdx_cons, ha, hb, Nat.even_add_one] using h
        simp [walk, ha, hb, ih hrest]

theorem walk_found {hit : ℕ → Bool} (h : walk hit ns = .found a) : a ∈ ns ∧ hit a = true := by
  induction ns using List.twoStepInduction with
  | nil => cases h
  | singleton b =>
    rw [walk] at h
    split at h <;> cases h
    exact ⟨List.mem_singleton.mpr rfl, ‹_›⟩
  | cons_cons b c rest ih _ =>
    rw [walk] at h
    split at h
    · cases h
      exact ⟨List.mem_cons_self, ‹_›⟩
    · have hrest := ih h
      exact ⟨List.mem_cons_of_mem _ (List.mem_cons_of_mem _ hrest.1), hrest.2⟩

theorem walk_odd {hit : ℕ → Bool} (hnodup : ns.Nodup) (h : ¬ Even (ns.findIdx hit)) :
    walk hit ns ≠ match ns.find? hit with
      | some a => .found a
      | none => .missed := by
  induction ns using List.twoStepInduction with
  | nil => exact absurd Even.zero h
  | singleton a =>
    cases ha : hit a with
    | true => simp [List.findIdx_cons, ha] at h
    | false => simp [walk, ha]
  | cons_cons a b rest ih _ =>
    simp only [List.nodup_cons, List.mem_cons, not_or] at hnodup
    cases ha : hit a with
    | true => simp [List.findIdx_cons, ha] at h
    | false =>
      cases hb : hit b with
      | true =>
        -- the node that is looked for is skipped
        simp only [walk, ha, hb, List.find?_cons, Bool.false_eq_true, if_false]
        intro hfound
        exact hnodup.2.1 (walk_found hfound).1
      | false =>
        have hrest : ¬ Even (rest.findIdx hit) := by
          simpa [List.findIdx_cons, ha, hb, Nat.even_add_one] using h
        simpa [walk, ha, hb] using ih hnodup.2.2 hrest

/-- The first node of the callback is removed and freed, if there is one. The others keep
their order and what they hold. -/
structure Unregistered (s : Events) (ns : List ℕ) (callback : ℕ) (s' : Events) : Prop where
  rest : Represents s' (ns.eraseP (registered s callback))
  memory : ∀ a, (s'.heap a).map element =
    if ns.find? (registered s callback) = some a then none else (s.heap a).map element

theorem heap_of_registered (ha : registered s callback a = true) :
    (s.heap a).map element ≠ none := by
  intro hnone
  rw [registered, Option.map_eq_none_iff.mp hnone] at ha
  cases ha

theorem unregistered_missed (h : Represents s ns)
    (hfind : ns.find? (registered s callback) = none) : Unregistered s ns callback s := by
  constructor
  · rwa [List.eraseP_of_forall_not (List.find?_eq_none.mp hfind)]
  · intro a
    rw [hfind, if_neg (Option.some_ne_none a).symm]

theorem free_heap (s : Events) (a b : ℕ) :
    (free s a).heap b = if b = a then none else s.heap b :=
  Function.update_apply _ _ _ _

theorem free_represents (h : Represents s ns) (ha : a ∉ ns) : Represents (free s a) ns := by
  refine ⟨?_, h.nodup, h.back, h.size⟩
  refine h.chain.congr fun b hb => ?_
  have hne : b ≠ a := by
    rintro rfl
    exact ha hb
  rw [links, free_heap, if_neg hne]
  rfl

theorem unregistered_found (h : Represents s ns)
    (hfind : ns.find? (registered s callback) = some a) :
    ∃ s', (listPopItem s a).map (free · a) = .ok s' ∧ Unregistered s ns callback s' := by
  obtain ⟨ha, xs, ys, rfl, hbefore⟩ := List.find?_eq_some_iff_append.mp hfind
  obtain ⟨s', hpop, hs', hmemory⟩ := listPopItem_represents h
  refine ⟨free s' a, by rw [hpop]; rfl, ?_⟩
  constructor
  · rw [List.eraseP_append_right _ fun b hb => by simpa using hbefore b hb,
      List.eraseP_cons_of_pos ha]
    apply free_represents hs'
    intro hmem
    have hnodup := List.nodup_middle.mp h.nodup
    exact (List.nodup_cons.mp hnodup).1 hmem
  · intro b
    rw [hfind, free_heap]
    by_cases hb : b = a
    · rw [if_pos hb, if_pos (congrArg some hb.symm), Option.map_none]
    · rw [if_neg hb, if_neg (fun heq => hb (Option.some.inj heq).symm), hmemory]

theorem not_unregistered_of_odd (h : Represents s ns)
    (hodd : ¬ Even (ns.findIdx (registered s callback)))
    (hwalk : unregisterFrom callback s s.size s.front = .ok s') :
    ¬ Unregistered s ns callback s' := by
  intro hs'
  rw [unregisterFrom_walk h.chain (Nat.le_of_eq h.size.symm)] at hwalk
  have hother := walk_odd h.nodup hodd
  cases hw : walk (registered s callback) ns with
  | nullLink =>
    rw [hw] at hwalk
    cases hwalk
  | missed =>
    rw [hw] at hwalk hother
    obtain rfl := Except.ok.inj hwalk
    cases hfind : ns.find? (registered s callback) with
    | none => exact hother (by rw [hfind])
    | some b =>
      have hgone := hs'.memory b
      rw [hfind, if_pos rfl] at hgone
      exact heap_of_registered (List.find?_some hfind) hgone
  | found a =>
    rw [hw] at hwalk hother
    obtain ⟨hmem, ha⟩ := walk_found hw
    have hfreed : s'.heap a = none := by
      cases hpop : listPopItem s a with
      | error e =>
        simp [hpop, Except.map] at hwalk
      | ok t =>
        simp only [hpop, Except.map, Except.ok.injEq] at hwalk
        rw [← hwalk, free_heap, if_pos rfl]
    have hkept := hs'.memory a
    rw [hfreed, if_neg (fun hfind => hother (by rw [hfind]))] at hkept
    exact heap_of_registered ha hkept.symm

/-- Unregistering works exactly if the first node of the callback, or the end of a list without
one, has an even number of nodes before it. -/
theorem eventUnregister_iff (h : Represents s ns) (callback : ℕ) :
    (∃ s', eventUnregister s (some callback) = .ok (.noErr, s') ∧
        Unregistered s ns callback s') ↔
      Even (ns.findIdx (registered s callback)) := by
  constructor
  · rintro ⟨s', hok, hs'⟩
    by_contra hodd
    refine not_unregistered_of_odd h hodd ?_ hs'
    cases hfrom : unregisterFrom callback s s.size s.front with
    | error e => simp [eventUnregister, hfrom, Except.map] at hok
    | ok t => simpa [eventUnregister, hfrom, Except.map] using hok
  · intro heven
    have hwalk : unregisterFrom callback s s.size s.front =
        match walk (registered s callback) ns with
        | .found a => (listPopItem s a).map (free · a)
        | .nullLink => .error .nullLink
        | .missed => .ok s := unregisterFrom_walk h.chain (Nat.le_of_eq h.size.symm)
    rw [walk_even heven] at hwalk
    cases hfind : ns.find? (registered s callback) with
    | none =>
      rw [hfind] at hwalk
      exact ⟨s, by rw [eventUnregister, hwalk]; rfl, unregistered_missed h hfind⟩
    | some a =>
      obtain ⟨s', hpop, hs'⟩ := unregistered_found h hfind
      rw [hfind] at hwalk
      have hok : unregisterFrom callback s s.size s.front = .ok s' := hwalk.trans hpop
      exact ⟨s', by rw [eventUnregister, hok]; rfl, hs'⟩

def two : Events where
  heap a := [(⟨some 1, 7, 0⟩ : Node), ⟨none, 8, 0⟩][a]?
  front := some 0
  back := some 1
  size := 2

theorem two_represents : Represents two [0, 1] :=
  ⟨⟨rfl, _, rfl, rfl, _, rfl, rfl⟩, by decide, rfl, rfl⟩

theorem first_unregistered :
    ∃ s', eventUnregister two (some 7) = .ok (.noErr, s') ∧ Unregistered two [0, 1] 7 s' :=
  (eventUnregister_iff two_represents 7).mpr (by decide)

/-- The second of two listeners stays. -/
theorem second_stays :
    ¬ ∀ s ns callback, Represents s ns →
      ∃ s', eventUnregister s (some callback) = .ok (.noErr, s') ∧
        Unregistered s ns callback s' := by
  intro h
  obtain ⟨s', hok, hs'⟩ := h two [0, 1] 8 two_represents
  obtain rfl : two = s' := congrArg Prod.snd (Except.ok.inj hok)
  cases hs'.memory 1

end EventListeners
