import MyGitCode.LinkRings
import MyGitCode.RelockableLocks

/-! # The queues of `queue.c`

A queue begins with its own link, so that its address stands for both. The links are in rings
in both directions, and a link that is in no queue has no next one. There is no result where
the code would go through a null pointer or to memory that holds no link, and none where it
would wait for the lock of the queue that it holds itself. -/
namespace QueueServices

open LinkRings
open RelockableLocks (relocked)

/-- `q_link_type`. -/
structure Link where
  next_ptr : Option ℕ
  prev_ptr : Option ℕ
  deriving DecidableEq, Repr

structure State where
  links : ℕ → Option Link
  cnt : ℕ → ℤ

def nextPtr (s : State) (p : Option ℕ) : Option (Option ℕ) := (p.bind s.links).map Link.next_ptr

def prevPtr (s : State) (p : Option ℕ) : Option (Option ℕ) := (p.bind s.links).map Link.prev_ptr

def modify (s : State) (p : Option ℕ) (f : Link → Link) : Option State :=
  p.bind fun a => (s.links a).map fun link =>
    { s with links := Function.update s.links a (some (f link)) }

def setNext (s : State) (p r : Option ℕ) : Option State :=
  modify s p fun link => { link with next_ptr := r }

def setPrev (s : State) (p r : Option ℕ) : Option State :=
  modify s p fun link => { link with prev_ptr := r }

def addCnt (s : State) (q : ℕ) (n : ℤ) : State :=
  { s with cnt := Function.update s.cnt q (s.cnt q + n) }

def qInit (s : State) (q : ℕ) : State where
  links := Function.update s.links q (some ⟨some q, some q⟩)
  cnt := Function.update s.cnt q 0

def qDestroy (s : State) (q : ℕ) : State where
  links := Function.update s.links q (some ⟨none, none⟩)
  cnt := Function.update s.cnt q 0

def qLink (s : State) (a : ℕ) : State :=
  { s with links := Function.update s.links a (some ⟨none, none⟩) }

def qPut (s : State) (q x : ℕ) : Option State := do
  let s ← setNext s (some x) (some q)
  let s ← setPrev s (some x) (← prevPtr s (some q))
  let s ← setNext s (← prevPtr s (some q)) (some x)
  let s ← setPrev s (some q) (some x)
  return addCnt s q 1

def qGet (s : State) (q : ℕ) : Option (State × Option ℕ) := do
  let link_ptr ← nextPtr s (some q)
  if s.cnt q > 0 then
    let s ← setNext s (some q) (← nextPtr s link_ptr)
    let s ← setPrev s (← nextPtr s link_ptr) (some q)
    let s ← setNext (addCnt s q (-1)) link_ptr none
    return (s, link_ptr)
  else return (s, none)

def qLastGet (s : State) (q : ℕ) : Option (State × Option ℕ) := do
  let link_ptr ← prevPtr s (some q)
  if s.cnt q > 0 then
    let s ← setPrev s (some q) (← prevPtr s link_ptr)
    let s ← setNext s (← prevPtr s link_ptr) (some q)
    let s ← setNext (addCnt s q (-1)) link_ptr none
    return (s, link_ptr)
  else return (s, none)

def qInsert (s : State) (q x item : ℕ) : Option State := do
  let s ← setNext s (some x) (some item)
  let s ← setPrev s (some x) (← prevPtr s (some item))
  let s ← setNext s (← prevPtr s (some item)) (some x)
  let s ← setPrev s (some item) (some x)
  return addCnt s q 1

def qDelete (s : State) (q d : ℕ) : Option State := do
  let s ← setNext s (← prevPtr s (some d)) (← nextPtr s (some d))
  let s ← setPrev s (← nextPtr s (some d)) (← prevPtr s (some d))
  setNext (addCnt s q (-1)) (some d) none

/-- With links in both directions the item is not searched for. -/
def qDeleteExt (s : State) (q d : ℕ) : Option (State × Bool) := do
  let s ← qDelete s q d
  return (s, true)

def qMPut (s : State) (target source : ℕ) : Option State := do
  if s.cnt source = 0 then return s
  let last_link_ptr ← prevPtr s (some source)
  let source_tail_item := if s.cnt source > 0 then last_link_ptr else none
  let s ← (if source_tail_item.isSome then setNext s source_tail_item (some target) else some s)
  let link_ptr ← nextPtr s (some source)
  let source_head_item := if s.cnt source > 0 then link_ptr else none
  let s ← setNext s (← prevPtr s (some target)) source_head_item
  let s ← setPrev s (some target) source_tail_item
  return qInit (addCnt s target (s.cnt source)) source

def qCheck (s : State) (q : ℕ) : Option (Option ℕ) := do
  let link_ptr ← nextPtr s (some q)
  return if s.cnt q > 0 then link_ptr else none

def qLastCheck (s : State) (q : ℕ) : Option (Option ℕ) := do
  let link_ptr ← prevPtr s (some q)
  return if s.cnt q > 0 then link_ptr else none

def qCnt (s : State) (q : ℕ) : ℤ := s.cnt q

def qNext (s : State) (q x : ℕ) : Option (Option ℕ) := do
  let next_ptr ← nextPtr s (some x)
  return if next_ptr ≠ some q then next_ptr else none

/-- The loop of `q_linear_search` from an item on. -/
def searchLoop (s : State) (q : ℕ) (compare : ℕ → Bool) :
    ℕ → Option ℕ → Option (Option ℕ)
  | 0, _ => none
  | _ + 1, none => some none
  | fuel + 1, some item =>
    if compare item then some (some item)
    else do searchLoop s q compare fuel (← qNext s q item)

def qLinearSearch (fuel : ℕ) (s : State) (q : ℕ) (compare : ℕ → Bool) : Option (Option ℕ) := do
  searchLoop s q compare fuel (← qCheck s q)

/-- The loop of `q_linear_delete_new` from an item on. The lock of the queue is held, and the
functions it calls take it again. -/
def deleteNewLoop (again : Bool) (s : State) (q : ℕ) (compare : ℕ → Bool) :
    ℕ → Option ℕ → Option ℕ → Option (State × Option ℕ)
  | 0, _, _ => none
  | _ + 1, _, none => some (s, none)
  | fuel + 1, prev_ptr, some item =>
    if compare item then
      if prev_ptr.isSome then do
        let s ← setNext s prev_ptr (← nextPtr s (some item))
        let s ← setNext s (some item) none
        return (addCnt s q (-1), some item)
      else relocked again (qGet s q)
    else do
      deleteNewLoop again s q compare fuel (some item) (← relocked again (qNext s q item))

def qLinearDeleteNew (again : Bool) (fuel : ℕ) (s : State) (q : ℕ) (compare : ℕ → Bool) :
    Option (State × Option ℕ) := do
  deleteNewLoop again s q compare fuel none (← relocked again (qCheck s q))

def fixTail (s : State) (q : ℕ) : Option State := do
  if s.cnt q = 1 then setPrev s (some q) (← nextPtr s (some q)) else some s

/-- The loop of `q_linear_delete` from an item on. -/
def deleteLoop (again : Bool) (s : State) (q : ℕ) (compare : ℕ → Bool) :
    ℕ → Option ℕ → Option ℕ → Option State
  | 0, _, _ => none
  | _ + 1, _, none => some s
  | fuel + 1, prev_ptr, some item =>
    if compare item then
      if prev_ptr.isSome then do
        let s ← setNext s prev_ptr (← nextPtr s (some item))
        let s ← setNext s (some item) none
        fixTail (addCnt s q (-1)) q
      else (relocked again (qGet s q)).map Prod.fst
    else do deleteLoop again s q compare fuel (some item) (← relocked again (qNext s q item))

def qLinearDelete (again : Bool) (fuel : ℕ) (s : State) (q : ℕ) (compare : ℕ → Bool) :
    Option State := do
  deleteLoop again s q compare fuel none (← relocked again (qCheck s q))

abbrev nextOf (s : State) (a : ℕ) : Option (Option ℕ) := nextPtr s (some a)

abbrev prevOf (s : State) (a : ℕ) : Option (Option ℕ) := prevPtr s (some a)

variable {s t u : State} {a b d q x : ℕ} {p r : Option ℕ} {n : ℤ} {xs ys ns : List ℕ}

theorem setNext_some (h : nextOf s a ≠ none) (r : Option ℕ) :
    ∃ t, setNext s (some a) r = some t ∧ nextOf t = Function.update (nextOf s) a (some r) ∧
      prevOf t = prevOf s ∧ t.cnt = s.cnt := by
  cases hlink : s.links a with
  | none => exact absurd (by simp [nextOf, nextPtr, hlink]) h
  | some link =>
    refine ⟨{ s with links := Function.update s.links a (some { link with next_ptr := r }) },
      by simp [setNext, modify, hlink], ?_, ?_, rfl⟩
    · funext c
      by_cases hc : c = a <;> simp [nextOf, nextPtr, hc]
    · funext c
      by_cases hc : c = a
      · simp [prevOf, prevPtr, hc, hlink]
      · simp [prevOf, prevPtr, hc]

theorem setPrev_some (h : nextOf s a ≠ none) (r : Option ℕ) :
    ∃ t, setPrev s (some a) r = some t ∧ nextOf t = nextOf s ∧
      prevOf t = Function.update (prevOf s) a (some r) ∧ t.cnt = s.cnt := by
  cases hlink : s.links a with
  | none => exact absurd (by simp [nextOf, nextPtr, hlink]) h
  | some link =>
    refine ⟨{ s with links := Function.update s.links a (some { link with prev_ptr := r }) },
      by simp [setPrev, modify, hlink], ?_, ?_, rfl⟩
    · funext c
      by_cases hc : c = a
      · simp [nextOf, nextPtr, hc, hlink]
      · simp [nextOf, nextPtr, hc]
    · funext c
      by_cases hc : c = a <;> simp [prevOf, prevPtr, hc]

@[simp] theorem nextOf_addCnt : nextOf (addCnt s q n) = nextOf s := rfl

@[simp] theorem prevOf_addCnt : prevOf (addCnt s q n) = prevOf s := rfl

def Next (s : State) (a b : ℕ) : Prop := nextOf s a = some (some b)

def Prev (s : State) (a b : ℕ) : Prop := prevOf s b = some (some a)

/-- The queue at `q` has the items `ns`, with links back between them where `both` says so. -/
structure Queued (s : State) (both : Bool) (q : ℕ) (ns : List ℕ) : Prop where
  nodup : (q :: ns).Nodup
  forward : Ring (Next s) q ns
  backward : both = true → Ring (Prev s) q ns
  back : prevOf s q = some (some (ns.getLastD q))
  cnt : s.cnt q = ns.length

variable {both : Bool}

theorem Queued.congr (h : Queued s both q ns) (hnext : ∀ c ∈ q :: ns, nextOf t c = nextOf s c)
    (hprev : ∀ c ∈ q :: ns, prevOf t c = prevOf s c) (hcnt : t.cnt q = s.cnt q) :
    Queued t both q ns where
  nodup := h.nodup
  forward := h.forward.congr fun c hc _ _ hlink => (hnext c hc).trans hlink
  backward := fun hboth => (h.backward hboth).congr fun _ _ d hd hlink => (hprev d hd).trans hlink
  back := (hprev q List.mem_cons_self).trans h.back
  cnt := hcnt.trans h.cnt

theorem Queued.next_eq (h : Queued s both q (xs ++ d :: ys)) :
    nextOf s d = some (some (ys.headD q)) :=
  h.forward.around.2

theorem Queued.prev_eq (h : Queued s true q (xs ++ d :: ys)) :
    prevOf s d = some (some (xs.getLastD q)) :=
  (h.backward rfl).around.1

theorem Queued.head_eq (h : Queued s both q ns) : nextOf s q = some (some (ns.headD q)) :=
  h.forward.first.1

theorem Queued.next_head (h : Queued s both q (d :: ys)) :
    nextOf s d = some (some (ys.headD q)) := by
  have h' : Queued s both q ([] ++ d :: ys) := h
  exact h'.next_eq

theorem Queued.prev_head (h : Queued s true q (d :: ys)) : prevOf s d = some (some q) := by
  have h' : Queued s true q ([] ++ d :: ys) := h
  exact h'.prev_eq

theorem Queued.allocated (h : Queued s both q ns) : ∀ a ∈ q :: ns, nextOf s a ≠ none := by
  intro a ha
  rcases List.mem_cons.mp ha with rfl | ha
  · rw [h.head_eq]
    nofun
  · obtain ⟨xs, ys, rfl⟩ := List.append_of_mem ha
    rw [h.next_eq]
    nofun

structure Inserted (s t : State) (q x a b : ℕ) : Prop where
  next : nextOf t = Function.update (Function.update (nextOf s) x (some (some b))) a
    (some (some x))
  prev : prevOf t = Function.update (Function.update (prevOf s) x (some (some a))) b
    (some (some x))
  cnt : t.cnt = Function.update s.cnt q (s.cnt q + 1)

structure Removed (s t : State) (q d a b : ℕ) : Prop where
  next : nextOf t = Function.update (Function.update (nextOf s) a (some (some b))) d (some none)
  prev : prevOf t = Function.update (prevOf s) b (some (some a))
  cnt : t.cnt = Function.update s.cnt q (s.cnt q - 1)

theorem getLastD_append_cons : (xs ++ x :: ys).getLastD q = ys.getLastD x := by
  rw [List.getLastD_eq_getLast?, List.getLast?_append, List.getLast?_cons,
    List.getLastD_eq_getLast?]
  rfl

theorem Queued.insert (h : Queued s both q (xs ++ ys)) (hx : x ∉ q :: (xs ++ ys))
    (hins : Inserted s t q x (xs.getLastD q) (ys.headD q)) :
    Queued t both q (xs ++ x :: ys) := by
  have hne : ∀ c ∈ q :: (xs ++ ys), c ≠ x := fun c hc heq => hx (heq ▸ hc)
  refine ⟨?_, ?_, fun hboth => ?_, ?_, ?_⟩
  · rw [← List.cons_append, List.nodup_middle, List.cons_append]
    exact List.nodup_cons.mpr ⟨hx, h.nodup⟩
  · refine h.forward.insert h.nodup (fun c hc d hd hca hdb hlink => ?_) ?_ ?_
    · rw [Next, hins.next, Function.update_of_ne hca, Function.update_of_ne (hne c hc)]
      exact hlink
    · rw [Next, hins.next, Function.update_self]
    · rw [Next, hins.next, Function.update_of_ne (hne _ last_mem).symm, Function.update_self]
  · refine (h.backward hboth).insert h.nodup (fun c hc d hd hca hdb hlink => ?_) ?_ ?_
    · rw [Prev, hins.prev, Function.update_of_ne hdb, Function.update_of_ne (hne d hd)]
      exact hlink
    · rw [Prev, hins.prev, Function.update_of_ne (hne _ first_mem).symm, Function.update_self]
    · rw [Prev, hins.prev, Function.update_self]
  · rw [hins.prev, getLastD_append_cons]
    cases ys with
    | nil => exact Function.update_self ..
    | cons y ys =>
      have hqy : q ≠ y := fun heq => (List.nodup_cons.mp h.nodup).1
        (heq ▸ List.mem_append_right xs List.mem_cons_self)
      rw [List.headD_cons, Function.update_of_ne hqy,
        Function.update_of_ne (hne q List.mem_cons_self), h.back, getLastD_append_cons,
        List.getLastD_cons]
  · rw [hins.cnt, Function.update_self, h.cnt]
    simp only [List.length_append, List.length_cons]
    push_cast
    omega

theorem Queued.remove (h : Queued s both q (xs ++ d :: ys))
    (hrem : Removed s t q d (xs.getLastD q) (ys.headD q)) : Queued t both q (xs ++ ys) := by
  have hnodup := h.nodup
  rw [← List.cons_append, List.nodup_middle, List.cons_append, List.nodup_cons] at hnodup
  obtain ⟨hd, hnodup⟩ := hnodup
  have hne : ∀ c ∈ q :: (xs ++ ys), c ≠ d := fun c hc heq => hd (heq ▸ hc)
  refine ⟨hnodup, ?_, fun hboth => ?_, ?_, ?_⟩
  · refine h.forward.remove h.nodup (fun c hc _ _ hca _ hlink => ?_) ?_
    · rw [Next, hrem.next, Function.update_of_ne (hne c hc), Function.update_of_ne hca]
      exact hlink
    · rw [Next, hrem.next, Function.update_of_ne (hne _ last_mem), Function.update_self]
  · refine (h.backward hboth).remove h.nodup (fun _ _ c _ _ hcb hlink => ?_) ?_
    · rw [Prev, hrem.prev, Function.update_of_ne hcb]
      exact hlink
    · rw [Prev, hrem.prev, Function.update_self]
  · rw [hrem.prev]
    cases ys with
    | nil =>
      rw [List.append_nil]
      exact Function.update_self ..
    | cons y ys =>
      have hqy : q ≠ y := fun heq => (List.nodup_cons.mp hnodup).1
        (heq ▸ List.mem_append_right xs List.mem_cons_self)
      rw [List.headD_cons, Function.update_of_ne hqy, h.back, getLastD_append_cons,
        getLastD_append_cons, List.getLastD_cons]
  · rw [hrem.cnt, Function.update_self, h.cnt]
    simp only [List.length_append, List.length_cons]
    push_cast
    omega

theorem update_ne_none {f : ℕ → Option (Option ℕ)} {c : ℕ} (h : f c ≠ none) :
    Function.update f a (some r) c ≠ none := by
  by_cases hc : c = a
  · rw [hc, Function.update_self]
    nofun
  · rw [Function.update_of_ne hc]
    exact h

theorem qInsert_inserted (hx : nextOf s x ≠ none) (ha : nextOf s a ≠ none)
    (hb : nextOf s b ≠ none) (hprev : prevOf s b = some (some a)) (hxb : x ≠ b) :
    ∃ t, qInsert s q x b = some t ∧ Inserted s t q x a b := by
  obtain ⟨s₁, h₁, hn₁, hp₁, hc₁⟩ := setNext_some hx (some b)
  have hx₁ : nextOf s₁ x ≠ none := hn₁ ▸ update_ne_none hx
  obtain ⟨s₂, h₂, hn₂, hp₂, hc₂⟩ := setPrev_some hx₁ (some a)
  have ha₂ : nextOf s₂ a ≠ none := by
    rw [hn₂, hn₁]
    exact update_ne_none ha
  obtain ⟨s₃, h₃, hn₃, hp₃, hc₃⟩ := setNext_some ha₂ (some x)
  have hb₃ : nextOf s₃ b ≠ none := by
    rw [hn₃, hn₂, hn₁]
    exact update_ne_none (update_ne_none hb)
  obtain ⟨s₄, h₄, hn₄, hp₄, hc₄⟩ := setPrev_some hb₃ (some x)
  have hprev₁ : prevPtr s₁ (some b) = some (some a) := (congrFun hp₁ b).trans hprev
  have hprev₂ : prevPtr s₂ (some b) = some (some a) := by
    refine (congrFun hp₂ b).trans ?_
    rw [Function.update_of_ne (Ne.symm hxb)]
    exact hprev₁
  refine ⟨addCnt s₄ q 1, ?_, ?_, ?_, ?_⟩
  · simp only [qInsert, h₁, hprev₁, h₂, hprev₂, h₃, h₄, Option.bind_eq_bind, Option.bind_some]
    rfl
  · rw [nextOf_addCnt, hn₄, hn₃, hn₂, hn₁]
  · rw [prevOf_addCnt, hp₄, hp₃, hp₂, hp₁]
  · rw [addCnt, hc₄, hc₃, hc₂, hc₁]

theorem Queued.qPut (h : Queued s both q ns) (hx : x ∉ q :: ns) (halloc : nextOf s x ≠ none) :
    ∃ t, qPut s q x = some t ∧ Inserted s t q x (ns.getLastD q) q :=
  qInsert_inserted halloc (h.allocated _ getLastD_mem) (h.allocated _ List.mem_cons_self) h.back
    fun heq => hx (heq ▸ List.mem_cons_self)

theorem Queued.qInsert (h : Queued s true q (xs ++ b :: ys)) (hx : x ∉ q :: (xs ++ b :: ys))
    (halloc : nextOf s x ≠ none) :
    ∃ t, qInsert s q x b = some t ∧ Inserted s t q x (xs.getLastD q) b := by
  have hb : b ∈ q :: (xs ++ b :: ys) := by simp
  exact qInsert_inserted halloc (h.allocated _ last_mem) (h.allocated _ hb) h.prev_eq
    fun heq => hx (heq ▸ hb)

theorem Queued.cnt_pos (h : Queued s both q ns) (hns : ns ≠ []) : s.cnt q > 0 := by
  rw [h.cnt]
  exact Int.natCast_pos.mpr (List.length_pos_iff.mpr hns)

theorem takes_removed (hd : nextOf s d ≠ none)
    (hn : nextOf t = Function.update (nextOf s) a (some (some b)))
    (hp : prevOf t = Function.update (prevOf s) b (some (some a))) (hc : t.cnt = s.cnt) :
    ∃ u, setNext (addCnt t q (-1)) (some d) none = some u ∧ Removed s u q d a b := by
  have hd' : nextOf (addCnt t q (-1)) d ≠ none := by
    rw [nextOf_addCnt, hn]
    exact update_ne_none hd
  obtain ⟨u, hu, hnu, hpu, hcu⟩ := setNext_some hd' none
  refine ⟨u, hu, ?_, ?_, ?_⟩
  · rw [hnu, nextOf_addCnt, hn]
  · rw [hpu, prevOf_addCnt, hp]
  · rw [hcu, addCnt, hc, Int.sub_eq_add_neg]

theorem Queued.qGet (h : Queued s both q (d :: ys)) :
    ∃ t, qGet s q = some (t, some d) ∧ Removed s t q d q (ys.headD q) := by
  have hmem := h.allocated
  have hd : nextOf s d ≠ none := hmem d (by simp)
  have hq : nextOf s q ≠ none := hmem q (by simp)
  have hfirst : ys.headD q ∈ q :: ([d] ++ ys) := first_mem
  have hb : nextOf s (ys.headD q) ≠ none := hmem _ hfirst
  have hqd : d ≠ q := fun heq => (List.nodup_cons.mp h.nodup).1 (heq ▸ List.mem_cons_self)
  have hnext : nextPtr s (some d) = some (some (ys.headD q)) := h.next_head
  have hhead : nextPtr s (some q) = some (some d) := h.head_eq
  obtain ⟨s₁, h₁, hn₁, hp₁, hc₁⟩ := setNext_some hq (some (ys.headD q))
  have hnext₁ : nextPtr s₁ (some d) = some (some (ys.headD q)) := by
    refine (congrFun hn₁ d).trans ?_
    rw [Function.update_of_ne hqd]
    exact hnext
  have hb₁ : nextOf s₁ (ys.headD q) ≠ none := hn₁ ▸ update_ne_none hb
  obtain ⟨s₂, h₂, hn₂, hp₂, hc₂⟩ := setPrev_some hb₁ (some q)
  obtain ⟨u, hu, hrem⟩ := takes_removed (q := q) hd (hn₂.trans hn₁) (hp₁ ▸ hp₂)
    (hc₂.trans hc₁)
  refine ⟨u, ?_, hrem⟩
  simp only [QueueServices.qGet, hhead, if_pos (h.cnt_pos nofun), hnext, h₁, hnext₁, h₂, hu,
    Option.bind_eq_bind, Option.bind_some]
  rfl

theorem Queued.qLastGet (h : Queued s true q (xs ++ [d])) :
    ∃ t, qLastGet s q = some (t, some d) ∧ Removed s t q d (xs.getLastD q) q := by
  have hmem := h.allocated
  have hd : nextOf s d ≠ none := hmem d (by simp)
  have hq : nextOf s q ≠ none := hmem q (by simp)
  have ha : nextOf s (xs.getLastD q) ≠ none := hmem _ last_mem
  have hqd : d ≠ q := fun heq =>
    (List.nodup_cons.mp h.nodup).1 (heq ▸ List.mem_append_right xs List.mem_cons_self)
  have hprev : prevPtr s (some d) = some (some (xs.getLastD q)) := h.prev_eq
  have hback : prevPtr s (some q) = some (some d) := by
    have hback := h.back
    rw [List.getLastD_concat] at hback
    exact hback
  obtain ⟨s₁, h₁, hn₁, hp₁, hc₁⟩ := setPrev_some hq (some (xs.getLastD q))
  have hprev₁ : prevPtr s₁ (some d) = some (some (xs.getLastD q)) := by
    refine (congrFun hp₁ d).trans ?_
    rw [Function.update_of_ne hqd]
    exact hprev
  have ha₁ : nextOf s₁ (xs.getLastD q) ≠ none := hn₁ ▸ ha
  obtain ⟨s₂, h₂, hn₂, hp₂, hc₂⟩ := setNext_some ha₁ (some q)
  obtain ⟨u, hu, hrem⟩ := takes_removed (q := q) hd (hn₁ ▸ hn₂) (hp₂.trans hp₁)
    (hc₂.trans hc₁)
  refine ⟨u, ?_, hrem⟩
  simp only [QueueServices.qLastGet, hback, if_pos (h.cnt_pos (by simp)), hprev, h₁, hprev₁, h₂,
    hu, Option.bind_eq_bind, Option.bind_some]
  rfl

theorem Queued.qDelete (h : Queued s true q (xs ++ d :: ys)) :
    ∃ t, qDelete s q d = some t ∧ Removed s t q d (xs.getLastD q) (ys.headD q) := by
  have hnodup := h.nodup
  rw [← List.cons_append, List.nodup_middle, List.cons_append, List.nodup_cons] at hnodup
  have hmem : ∀ c ∈ q :: (xs ++ ys), nextOf s c ≠ none := fun c hc => h.allocated c (by
    rw [← List.cons_append, List.mem_append] at hc ⊢
    exact hc.imp_right (List.mem_cons_of_mem d))
  have hd : nextOf s d ≠ none := h.allocated d (by simp)
  have hda : d ≠ xs.getLastD q := fun heq => hnodup.1 (heq ▸ last_mem)
  have hnext : nextPtr s (some d) = some (some (ys.headD q)) := h.next_eq
  have hprev : prevPtr s (some d) = some (some (xs.getLastD q)) := h.prev_eq
  obtain ⟨s₁, h₁, hn₁, hp₁, hc₁⟩ := setNext_some (hmem _ last_mem) (some (ys.headD q))
  have hnext₁ : nextPtr s₁ (some d) = some (some (ys.headD q)) := by
    refine (congrFun hn₁ d).trans ?_
    rw [Function.update_of_ne hda]
    exact hnext
  have hprev₁ : prevPtr s₁ (some d) = some (some (xs.getLastD q)) := (congrFun hp₁ d).trans hprev
  have hb₁ : nextOf s₁ (ys.headD q) ≠ none := hn₁ ▸ update_ne_none (hmem _ first_mem)
  obtain ⟨s₂, h₂, hn₂, hp₂, hc₂⟩ := setPrev_some hb₁ (some (xs.getLastD q))
  obtain ⟨u, hu, hrem⟩ := takes_removed (q := q) hd (hn₂.trans hn₁) (hp₁ ▸ hp₂) (hc₂.trans hc₁)
  refine ⟨u, ?_, hrem⟩
  simp only [QueueServices.qDelete, hprev, hnext, h₁, hnext₁, hprev₁, h₂, hu, Option.bind_eq_bind,
    Option.bind_some]

/-- The links that are written as the items of `r` go behind those of `q`. -/
structure Joined (s t : State) (q r : ℕ) (ns ms : List ℕ) : Prop where
  next : nextOf t = Function.update (Function.update (Function.update (nextOf s) (ms.getLastD r)
    (some (some q))) (ns.getLastD q) (some (some (ms.headD r)))) r (some (some r))
  prev : prevOf t = Function.update (Function.update (prevOf s) q (some (some (ms.getLastD r)))) r
    (some (some r))
  cnt : t.cnt = Function.update (Function.update s.cnt q (s.cnt q + s.cnt r)) r 0

theorem nextOf_qInit : nextOf (qInit s q) = Function.update (nextOf s) q (some (some q)) := by
  funext c
  by_cases hc : c = q <;> simp [nextOf, nextPtr, qInit, hc]

theorem prevOf_qInit : prevOf (qInit s q) = Function.update (prevOf s) q (some (some q)) := by
  funext c
  by_cases hc : c = q <;> simp [prevOf, prevPtr, qInit, hc]

theorem qInit_queued : Queued (qInit s q) both q [] := by
  refine ⟨List.nodup_singleton q, ?_, fun _ => ?_, ?_, ?_⟩
  · refine List.isChain_pair.mpr ?_
    rw [Next, nextOf_qInit, Function.update_self]
  · refine List.isChain_pair.mpr ?_
    rw [Prev, prevOf_qInit, Function.update_self]
  · rw [prevOf_qInit, Function.update_self]
    rfl
  · exact Function.update_self ..

variable {both' : Bool} {ms : List ℕ} {r : ℕ}

theorem Queued.cnt_eq_zero (h : Queued s both q ns) : s.cnt q = 0 ↔ ns = [] := by
  rw [h.cnt, Int.natCast_eq_zero, List.length_eq_zero_iff]

theorem Queued.qMPut (h : Queued s both q ns) (h' : Queued s both' r ms) (hms : ms ≠ [])
    (hqr : ∀ a ∈ q :: ns, a ∉ r :: ms) : ∃ t, qMPut s q r = some t ∧ Joined s t q r ns ms := by
  have hcnt : ¬ s.cnt r = 0 := h'.cnt_eq_zero.not.mpr hms
  have hpos : s.cnt r > 0 := h'.cnt_pos hms
  have hback : prevPtr s (some q) = some (some (ns.getLastD q)) := h.back
  have hback' : prevPtr s (some r) = some (some (ms.getLastD r)) := h'.back
  obtain ⟨s₁, h₁, hn₁, hp₁, hc₁⟩ := setNext_some (h'.allocated _ getLastD_mem) (some q)
  have hlast : ms.getLastD r ∈ ms := by
    obtain ⟨m, ms, rfl⟩ := List.exists_cons_of_ne_nil hms
    rw [List.getLastD_cons]
    exact getLastD_mem
  have hne : r ≠ ms.getLastD r := fun heq => (List.nodup_cons.mp h'.nodup).1 (heq ▸ hlast)
  have hhead₁ : nextPtr s₁ (some r) = some (some (ms.headD r)) := by
    refine (congrFun hn₁ r).trans ?_
    rw [Function.update_of_ne hne]
    exact h'.head_eq
  have hback₁ : prevPtr s₁ (some q) = some (some (ns.getLastD q)) := (congrFun hp₁ q).trans hback
  have hmem₁ : nextOf s₁ (ns.getLastD q) ≠ none :=
    hn₁ ▸ update_ne_none (h.allocated _ getLastD_mem)
  obtain ⟨s₂, h₂, hn₂, hp₂, hc₂⟩ := setNext_some hmem₁ (some (ms.headD r))
  have hq₂ : nextOf s₂ q ≠ none := by
    rw [hn₂, hn₁]
    exact update_ne_none (update_ne_none (h.allocated _ List.mem_cons_self))
  obtain ⟨s₃, h₃, hn₃, hp₃, hc₃⟩ := setPrev_some hq₂ (some (ms.getLastD r))
  have hcnt₃ : s₃.cnt = s.cnt := hc₃.trans (hc₂.trans hc₁)
  have hcnt₁ : s₁.cnt r > 0 := hc₁ ▸ hpos
  refine ⟨qInit (addCnt s₃ q (s₃.cnt r)) r, ?_, ?_, ?_, ?_⟩
  · simp only [QueueServices.qMPut, if_neg hcnt, hback', if_pos hpos, Option.isSome_some,
      if_true, h₁, hhead₁, if_pos hcnt₁, hback₁, h₂, h₃, Option.bind_eq_bind, Option.bind_some,
      Option.pure_def]
  · rw [nextOf_qInit, nextOf_addCnt, hn₃, hn₂, hn₁]
  · rw [prevOf_qInit, prevOf_addCnt, hp₃, hp₂, hp₁]
  · rw [qInit, addCnt, hcnt₃]

theorem Joined.queued (hjoin : Joined s t q r ns ms) (h : Queued s both q ns)
    (h' : Queued s both' r ms) (hms : ms ≠ []) (hqr : ∀ a ∈ q :: ns, a ∉ r :: ms) :
    Queued t false q (ns ++ ms) ∧ Queued t true r [] := by
  have hr : ∀ a ∈ q :: ns, a ≠ r := fun a ha heq => hqr a ha (heq ▸ List.mem_cons_self)
  have hr' : ∀ a ∈ ms, a ≠ r := fun a ha heq => (List.nodup_cons.mp h'.nodup).1 (heq ▸ ha)
  have hlast : ms.getLastD r ∈ ms := by
    obtain ⟨m, ms, rfl⟩ := List.exists_cons_of_ne_nil hms
    rw [List.getLastD_cons]
    exact getLastD_mem
  have hhead : ms.headD r = ms.headD q := by
    obtain ⟨m, ms, rfl⟩ := List.exists_cons_of_ne_nil hms
    rfl
  have hq := hr q List.mem_cons_self
  have hother : ∀ a ∈ q :: ns, a ≠ ms.getLastD r := fun a ha heq =>
    hqr a ha (heq ▸ List.mem_cons_of_mem _ hlast)
  have hother' : ∀ a ∈ ms, a ≠ ns.getLastD q := fun a ha heq =>
    hqr (ns.getLastD q) getLastD_mem (heq ▸ List.mem_cons_of_mem _ ha)
  refine ⟨⟨?_, ?_, nofun, ?_, ?_⟩, List.nodup_singleton r, ?_, fun _ => ?_, ?_, ?_⟩
  · rw [← List.cons_append, List.nodup_append']
    exact ⟨h.nodup, (List.nodup_cons.mp h'.nodup).2, fun a ha ha' =>
      hqr a ha (List.mem_cons_of_mem _ ha')⟩
  · refine h.forward.join h'.forward hms h.nodup (List.nodup_cons.mp h'.nodup).2
      (fun c hc d hne hlink => ?_) (fun c hc d hne hlink => ?_) ?_ ?_
    · rw [Next, hjoin.next, Function.update_of_ne (hr c hc), Function.update_of_ne hne,
        Function.update_of_ne (hother c hc)]
      exact hlink
    · rw [Next, hjoin.next, Function.update_of_ne (hr' c hc), Function.update_of_ne (hother' c hc),
        Function.update_of_ne hne]
      exact hlink
    · rw [Next, hjoin.next, Function.update_of_ne (hr _ getLastD_mem), Function.update_self, hhead]
    · rw [Next, hjoin.next, Function.update_of_ne (hr' _ hlast),
        Function.update_of_ne (hother' _ hlast), Function.update_self]
  · obtain ⟨m, ms, rfl⟩ := List.exists_cons_of_ne_nil hms
    rw [hjoin.prev, Function.update_of_ne hq, Function.update_self, getLastD_append_cons,
      List.getLastD_cons]
  · rw [hjoin.cnt, Function.update_of_ne hq, Function.update_self, h.cnt, h'.cnt,
      List.length_append]
    push_cast
    rfl
  · refine List.isChain_pair.mpr ?_
    rw [Next, hjoin.next, Function.update_self]
  · refine List.isChain_pair.mpr ?_
    rw [Prev, hjoin.prev, Function.update_self]
  · rw [hjoin.prev, Function.update_self]
    rfl
  · rw [hjoin.cnt, Function.update_self]
    rfl

/-- The first item that is put behind the others keeps its link to the source, so that only
the links of the queues themselves lead back as they should, unless nothing was moved. -/
theorem qMPut_backward (h : Queued s true q ns) (h' : Queued s true r ms)
    (hqr : ∀ a ∈ q :: ns, a ∉ r :: ms) :
    ∃ t, qMPut s q r = some t ∧ Queued t false q (ns ++ ms) ∧ Queued t true r [] ∧
      (Queued t true q (ns ++ ms) ↔ ms = []) := by
  by_cases hms : ms = []
  · subst hms
    have hcnt : s.cnt r = 0 := h'.cnt_eq_zero.mpr rfl
    refine ⟨s, by simp only [QueueServices.qMPut, if_pos hcnt]; rfl, ?_, h', ?_⟩
    · rw [List.append_nil]
      exact ⟨h.nodup, h.forward, nofun, h.back, h.cnt⟩
    · rw [List.append_nil]
      exact iff_of_true h rfl
  · obtain ⟨t, hput, hjoin⟩ := h.qMPut h' hms hqr
    obtain ⟨hq, hr⟩ := hjoin.queued h h' hms hqr
    refine ⟨t, hput, hq, hr, iff_of_false (fun htrue => ?_) hms⟩
    obtain ⟨m, ms, rfl⟩ := List.exists_cons_of_ne_nil hms
    have hmr : m ≠ r := fun heq => (List.nodup_cons.mp h'.nodup).1 (heq ▸ List.mem_cons_self)
    have hmq : m ≠ q := fun heq => hqr q List.mem_cons_self (heq ▸ by simp)
    have hprev := htrue.prev_eq
    rw [hjoin.prev, Function.update_of_ne hmr, Function.update_of_ne hmq,
      h'.prev_head, Option.some_inj, Option.some_inj] at hprev
    exact hqr _ getLastD_mem (hprev ▸ List.mem_cons_self)

def twoQueues : State where
  links
    | 1 => some ⟨some 10, some 12⟩
    | 10 => some ⟨some 11, some 1⟩
    | 11 => some ⟨some 12, some 10⟩
    | 12 => some ⟨some 1, some 11⟩
    | 2 => some ⟨some 20, some 20⟩
    | 20 => some ⟨some 2, some 2⟩
    | _ => none
  cnt
    | 1 => 3
    | 2 => 1
    | _ => 0

theorem twoQueues_first : Queued twoQueues true 1 [10, 11, 12] where
  nodup := by decide
  forward := .cons_cons rfl (.cons_cons rfl (.cons_cons rfl (.cons_cons rfl (.singleton 1))))
  backward := fun _ =>
    .cons_cons rfl (.cons_cons rfl (.cons_cons rfl (.cons_cons rfl (.singleton 1))))
  back := rfl
  cnt := rfl

theorem twoQueues_second : Queued twoQueues true 2 [20] where
  nodup := by decide
  forward := .cons_cons rfl (.cons_cons rfl (.singleton 2))
  backward := fun _ => .cons_cons rfl (.cons_cons rfl (.singleton 2))
  back := rfl
  cnt := rfl

theorem qMPut_backward_twoQueues : ∃ t, qMPut twoQueues 1 2 = some t ∧
    Queued t false 1 [10, 11, 12, 20] ∧ ¬ Queued t true 1 [10, 11, 12, 20] := by
  obtain ⟨t, hput, hforward, -, hboth⟩ :=
    qMPut_backward twoQueues_first twoQueues_second (by decide)
  exact ⟨t, hput, hforward, hboth.not.mpr nofun⟩

end QueueServices
