import MyGitCode.WeightedLists
import MyGitCode.TransitionRuns

/-! # Runs of an ordered list

What a list stands for are the nodes that were pushed and not taken out, each with its weight
and the time of its push. The calls of a run are mixed with any changes of other memory. -/
namespace WeightedListRuns

open OrderedLists TransitionRuns

structure Entry where
  weight : ℕ
  time : ℕ
  deriving DecidableEq

/-- Of equal weights the one pushed first comes first where new nodes go behind old ones, and
last where they go before them. -/
def timely : PushType → ℕ → ℕ → Prop
  | .lte, time, time' => time < time'
  | .slt, time, time' => time' < time

def Precedes (sortOrder : SortOrder) (pushType : PushType) (e e' : Entry) : Prop :=
  if e.weight = e'.weight then timely pushType e.time e'.time
  else mayPrecede sortOrder e.weight e'.weight

structure System where
  heap : Heap
  list : OrderedList
  held : ℕ → Option Entry
  clock : ℕ

inductive Event where
  | push (item weight : ℕ)
  | popFront (r : Option ℕ)
  | popBack (r : Option ℕ)
  | popItem (item : ℕ)
  | memory
  deriving DecidableEq

def released (held : ℕ → Option Entry) (r : Option ℕ) : ℕ → Option Entry :=
  r.elim held fun a => Function.update held a none

inductive Step : System → Event → System → Prop where
  | push {S item weight heap list} : S.heap item ≠ none → S.held item = none →
      orderedListPush S.heap S.list item weight = some (heap, list) →
      Step S (.push item weight)
        ⟨heap, list, Function.update S.held item (some ⟨weight, S.clock⟩), S.clock + 1⟩
  | popFront {S heap list r} : orderedListPopFront S.heap S.list = some (heap, list, r) →
      Step S (.popFront r) ⟨heap, list, released S.held r, S.clock⟩
  | popBack {S heap list r} : orderedListPopBack S.heap S.list = some (heap, list, r) →
      Step S (.popBack r) ⟨heap, list, released S.held r, S.clock⟩
  | popItem {S item heap list} : S.held item ≠ none →
      orderedListPopItem S.heap S.list item = some (heap, list) →
      Step S (.popItem item) ⟨heap, list, released S.held (some item), S.clock⟩
  | memory {S heap} : (∀ a, S.held a ≠ none → heap a = S.heap a) →
      Step S .memory { S with heap := heap }

def Init (S : System) : Prop :=
  (∃ sortOrder pushType, S.list = orderedListInit sortOrder pushType) ∧ S.held = fun _ => none

variable {sortOrder : SortOrder} {pushType : PushType} {S T : System} {e e' e'' : Entry}
  {v w a item : ℕ} {ns xs ys : List ℕ} {r : Option ℕ}

theorem Precedes.mayPrecede (h : Precedes sortOrder pushType e e') :
    mayPrecede sortOrder e.weight e'.weight := by
  rw [Precedes] at h
  split at h
  next heq =>
    rw [heq]
    rcases @mayPrecede_total sortOrder e'.weight e'.weight with h | h <;> exact h
  next => exact h

theorem precedes_of_stays (h : staysBefore sortOrder pushType e.weight e'.weight)
    (htime : e.time < e'.time) : Precedes sortOrder pushType e e' := by
  rw [staysBefore_iff] at h
  rw [Precedes]
  split
  next heq =>
    cases pushType with
    | lte => exact htime
    | slt =>
      rw [heq] at h
      exact absurd h.1 (h.2 rfl)
  next => exact h.1

theorem precedes_of_not_stays (h : ¬ staysBefore sortOrder pushType e.weight e'.weight)
    (htime : e.time < e'.time) : Precedes sortOrder pushType e' e := by
  have hmay := not_staysBefore h
  rw [Precedes]
  split
  next heq =>
    cases pushType with
    | slt => exact htime
    | lte =>
      have hstays : staysBefore sortOrder .lte e.weight e'.weight :=
        staysBefore_iff.mpr ⟨by rwa [heq] at hmay ⊢, nofun⟩
      exact absurd hstays h
  next => exact hmay

structure Holds (heap : Heap) (list : OrderedList) (held : ℕ → Option Entry) (clock : ℕ)
    (ns : List ℕ) : Prop where
  strung : Strung heap list ns
  size : list.size = ns.length
  initialized : list.initialized = true
  nodes : ∀ a, a ∈ ns ↔ held a ≠ none
  ordered : ns.Pairwise fun a b => ∀ e ∈ held a, ∀ e' ∈ held b,
    Precedes list.sortOrder list.pushType e e'
  entries : ∀ a, ∀ e ∈ held a, weightOf heap a = e.weight ∧ e.time < clock

variable {heap heap' : Heap} {list list' : OrderedList} {held : ℕ → Option Entry} {clock : ℕ}

theorem Holds.entry (h : Holds heap list held clock ns) (ha : a ∈ ns) : ∃ e, held a = some e :=
  Option.ne_none_iff_exists'.mp ((h.nodes a).mp ha)

theorem Holds.sorted (h : Holds heap list held clock ns) : Sorted heap list ns := by
  refine ⟨h.strung, h.size, h.initialized, h.ordered.imp_of_mem fun {a b} ha hb hprec => ?_⟩
  obtain ⟨e, he⟩ := h.entry ha
  obtain ⟨e', he'⟩ := h.entry hb
  rw [(h.entries a e he).1, (h.entries b e' he').1]
  exact (hprec e he e' he').mayPrecede

theorem weightOf_update (hw : weights heap' = Function.update (weights heap) item (some w)) :
    weightOf heap' item = w ∧ ∀ a, a ≠ item → weightOf heap' a = weightOf heap a := by
  refine ⟨?_, fun a ha => ?_⟩
  · rw [weightOf, hw, Function.update_self, Option.getD_some]
  · rw [weightOf, hw, Function.update_of_ne ha, weightOf]

/-- A new entry goes where its order to the others asks for. -/
theorem ordered_push {order : Entry → Entry → Prop}
    (h : (xs ++ ys).Pairwise fun a b => ∀ e ∈ held a, ∀ e' ∈ held b, order e e')
    (hnot : item ∉ xs ++ ys) (hbefore : ∀ a ∈ xs, ∀ e ∈ held a, order e e'')
    (hbehind : ∀ b ∈ ys, ∀ e ∈ held b, order e'' e) :
    (xs ++ item :: ys).Pairwise fun a b => ∀ e ∈ Function.update held item (some e'') a,
      ∀ e' ∈ Function.update held item (some e'') b, order e e' := by
  have hold : ∀ a ∈ xs ++ ys, Function.update held item (some e'') a = held a := by
    intro a ha
    refine Function.update_of_ne ?_ ..
    rintro rfl
    exact hnot ha
  have hpairs := h.imp_of_mem (S := fun a b => ∀ e ∈ Function.update held item (some e'') a,
    ∀ e' ∈ Function.update held item (some e'') b, order e e') fun {a b} ha hb hprec => by
      rwa [hold a ha, hold b hb]
  obtain ⟨hleft, hright, hacross⟩ := List.pairwise_append.mp hpairs
  refine List.pairwise_append.mpr ⟨hleft, List.pairwise_cons.mpr ⟨?_, hright⟩, ?_⟩
  · intro b hb e he e' he'
    rw [Function.update_self] at he
    rw [hold b (List.mem_append_right xs hb)] at he'
    obtain rfl := Option.mem_some_iff.mp he
    exact hbehind b hb e' he'
  · intro a ha b hb
    rcases List.mem_cons.mp hb with rfl | hb
    · intro e he e' he'
      rw [hold a (List.mem_append_left ys ha)] at he
      rw [Function.update_self] at he'
      obtain rfl := Option.mem_some_iff.mp he'
      exact hbefore a ha e he
    · exact hacross a ha b hb

theorem Holds.push (h : Holds heap list held clock ns) (hitem : heap item ≠ none)
    (hnew : held item = none) (w : ℕ) :
    ∃ heap' list' ms, orderedListPush heap list item w = some (heap', list') ∧
      Holds heap' list' (Function.update held item (some ⟨w, clock⟩)) (clock + 1) ms := by
  have hnot : item ∉ ns := fun hmem => (h.nodes item).mp hmem hnew
  obtain ⟨heap', list', hpush, hw, hsize, hkind, hins⟩ := h.sorted.push hitem hnot w
  have hstays : ∀ a ∈ ns.takeWhile (stays heap list w), stays heap list w a :=
    fun a ha => List.mem_takeWhile_imp ha
  have hnotStays : ∀ a ∈ ns.dropWhile (stays heap list w), ¬ stays heap list w a :=
    fun a ha => h.sorted.not_stays ha
  obtain ⟨xs, hxs⟩ : ∃ xs, xs = ns.takeWhile (stays heap list w) := ⟨_, rfl⟩
  obtain ⟨ys, hys⟩ : ∃ ys, ys = ns.dropWhile (stays heap list w) := ⟨_, rfl⟩
  have hsplit : ns = xs ++ ys := by rw [hxs, hys, List.takeWhile_append_dropWhile]
  rw [← hxs] at hstays hins
  rw [← hys] at hnotStays hins
  subst hsplit
  obtain ⟨hnewWeight, hweight⟩ := weightOf_update hw
  refine ⟨heap', list', xs ++ ([item] ++ ys), hpush, ?_, ?_, ?_, fun a => ?_, ?_,
    fun a e he => ?_⟩
  · refine h.strung.insert (List.isChain_singleton _) (List.cons_ne_nil item []) ?_ hins
    rw [List.singleton_append, List.nodup_middle]
    exact List.nodup_cons.mpr ⟨hnot, h.strung.nodup⟩
  · rw [hsize, h.size]
    simp only [List.length_append, List.length_cons, List.length_nil]
    omega
  · exact hkind.2.2.trans h.initialized
  · rw [List.singleton_append, List.mem_append, List.mem_cons]
    by_cases ha : a = item
    · rw [ha, Function.update_self]
      exact iff_of_true (.inr (.inl rfl)) nofun
    · rw [Function.update_of_ne ha, ← h.nodes a, List.mem_append]
      tauto
  · rw [hkind.1, hkind.2.1]
    refine ordered_push h.ordered hnot (fun a ha e he => ?_) fun b hb e he => ?_
    · obtain ⟨hweightA, htime⟩ := h.entries a e he
      refine precedes_of_stays ?_ htime
      rw [← hweightA]
      exact hstays a ha
    · obtain ⟨hweightB, htime⟩ := h.entries b e he
      refine precedes_of_not_stays (fun hstay => hnotStays b hb ?_) htime
      rwa [stays, hweightB]
  · by_cases ha : a = item
    · rw [ha, Function.update_self] at he
      obtain rfl := Option.mem_some_iff.mp he
      exact ⟨ha ▸ hnewWeight, Nat.lt_succ_self _⟩
    · rw [Function.update_of_ne ha] at he
      obtain ⟨hweightOld, htime⟩ := h.entries a e he
      exact ⟨(hweight a ha).trans hweightOld, Nat.lt_succ_of_lt htime⟩

theorem Holds.takenOut (h : Holds heap list held clock (xs ++ a :: ys))
    (ht : TakenOut heap heap' list list' xs.getLast? ys.head?) :
    Holds heap' list' (released held (some a)) clock (xs ++ ys) := by
  have hnodup := h.strung.nodup
  rw [List.nodup_middle, List.nodup_cons] at hnodup
  have hother : ∀ b ∈ xs ++ ys, released held (some a) b = held b := by
    intro b hb
    refine Function.update_of_ne ?_ ..
    rintro rfl
    exact hnodup.1 hb
  refine ⟨?_, ?_, ht.kind.2.2.trans h.initialized, fun b => ?_, ?_, fun b e he => ?_⟩
  · have hstrung : Strung heap list (xs ++ ([a] ++ ys)) := h.strung
    exact hstrung.remove ht.removed
  · rw [ht.size, h.size]
    simp only [List.length_append, List.length_cons]
    omega
  · by_cases hb : b = a
    · rw [hb]
      exact iff_of_false hnodup.1 fun hne => hne (Function.update_self ..)
    · rw [released, Option.elim_some, Function.update_of_ne hb, ← h.nodes b, List.mem_append,
        List.mem_append, List.mem_cons]
      tauto
  · rw [ht.kind.1, ht.kind.2.1]
    refine (h.ordered.sublist ((List.sublist_cons_self a ys).append_left xs)).imp_of_mem ?_
    intro b c hb hc hprec
    rwa [hother b hb, hother c hc]
  · have hb : b ≠ a := by
      rintro rfl
      exact absurd ((Function.update_self ..).symm.trans he) nofun
    rw [released, Option.elim_some, Function.update_of_ne hb] at he
    rw [weightOf_congr ht.weights]
    exact h.entries b e he

theorem Holds.popFront (h : Holds heap list held clock ns) :
    ∃ heap' list', orderedListPopFront heap list = some (heap', list', ns.head?) ∧
      Holds heap' list' (released held ns.head?) clock ns.tail := by
  cases ns with
  | nil =>
    have hsize : ¬ list.size > 0 := Nat.not_lt.mpr (Nat.le_of_eq h.size)
    refine ⟨heap, list, ?_, h⟩
    rw [orderedListPopFront, h.sorted.ensureInit_eq, if_neg hsize]
    rfl
  | cons a ys =>
    obtain ⟨heap', list', hpop, ht⟩ := h.sorted.popFront
    have h' : Holds heap list held clock ([] ++ a :: ys) := h
    exact ⟨heap', list', hpop, h'.takenOut ht⟩

theorem Holds.popBack (h : Holds heap list held clock ns) :
    ∃ heap' list', orderedListPopBack heap list = some (heap', list', ns.getLast?) ∧
      Holds heap' list' (released held ns.getLast?) clock ns.dropLast := by
  rcases List.eq_nil_or_concat ns with rfl | ⟨xs, a, rfl⟩
  · have hsize : ¬ list.size > 0 := Nat.not_lt.mpr (Nat.le_of_eq h.size)
    refine ⟨heap, list, ?_, h⟩
    rw [orderedListPopBack, h.sorted.ensureInit_eq, if_neg hsize]
    rfl
  · rw [List.concat_eq_append] at *
    obtain ⟨heap', list', hpop, ht⟩ := h.sorted.popBack
    rw [List.getLast?_concat, List.dropLast_concat]
    have hheld := h.takenOut ht
    rw [List.append_nil] at hheld
    exact ⟨heap', list', hpop, hheld⟩

theorem Holds.popItem (h : Holds heap list held clock ns) (hitem : held item ≠ none) :
    ∃ heap' list' ms, orderedListPopItem heap list item = some (heap', list') ∧
      Holds heap' list' (released held (some item)) clock ms := by
  obtain ⟨xs, ys, rfl⟩ := List.append_of_mem ((h.nodes item).mpr hitem)
  obtain ⟨heap', list', hpop, ht⟩ := h.sorted.popItem
  exact ⟨heap', list', xs ++ ys, hpop, h.takenOut ht⟩

theorem Holds.memory (h : Holds heap list held clock ns)
    (hsame : ∀ a, held a ≠ none → heap' a = heap a) : Holds heap' list held clock ns := by
  refine ⟨h.strung.congr fun a ha => hsame a ((h.nodes a).mp ha), h.size, h.initialized, h.nodes,
    h.ordered, fun a e he => ?_⟩
  have ha : heap' a = heap a := hsame a fun hnone => absurd (hnone.symm.trans he) nofun
  rw [weightOf, weights, field, ha]
  exact h.entries a e he

def First (order : Entry → Entry → Prop) (held : ℕ → Option Entry) (r : Option ℕ) : Prop :=
  (r = none ↔ held = fun _ => none) ∧
    ∀ a ∈ r, ∃ e, held a = some e ∧ ∀ b, b ≠ a → ∀ e' ∈ held b, order e e'

def matching (held : ℕ → Option Entry) (compare : ℕ → Bool) (a : ℕ) : Option Entry :=
  if compare a then held a else none

def Answers (S : System) : Event → Prop
  | .popFront r => First (Precedes S.list.sortOrder S.list.pushType) S.held r
  | .popBack r => First (fun e e' => Precedes S.list.sortOrder S.list.pushType e' e) S.held r
  | _ => True

theorem Holds.empty_iff (h : Holds heap list held clock ns) :
    ns = [] ↔ held = fun _ => none := by
  rw [List.eq_nil_iff_forall_not_mem]
  constructor
  · intro hnone
    funext a
    exact not_not.mp (mt (h.nodes a).mpr (hnone a))
  · rintro rfl a ha
    exact (h.nodes a).mp ha rfl

theorem Holds.first (h : Holds heap list held clock ns) :
    First (Precedes list.sortOrder list.pushType) held ns.head? := by
  refine ⟨List.head?_eq_none_iff.trans h.empty_iff, fun a ha => ?_⟩
  obtain ⟨ys, rfl⟩ := List.head?_eq_some_iff.mp ha
  obtain ⟨e, he⟩ := h.entry List.mem_cons_self
  refine ⟨e, he, fun b hb e' he' => ?_⟩
  have hmem : b ∈ a :: ys := (h.nodes b).mpr fun hnone => absurd (hnone.symm.trans he') nofun
  rcases List.mem_cons.mp hmem with heq | hmem
  · exact absurd heq hb
  · exact List.rel_of_pairwise_cons h.ordered hmem e he e' he'

theorem Holds.last (h : Holds heap list held clock ns) :
    First (fun e e' => Precedes list.sortOrder list.pushType e' e) held ns.getLast? := by
  refine ⟨List.getLast?_eq_none_iff.trans h.empty_iff, fun a ha => ?_⟩
  obtain ⟨xs, rfl⟩ := List.getLast?_eq_some_iff.mp ha
  obtain ⟨e, he⟩ := h.entry (List.mem_append_right xs List.mem_cons_self)
  refine ⟨e, he, fun b hb e' he' => ?_⟩
  have hmem : b ∈ xs ++ [a] := (h.nodes b).mpr fun hnone => absurd (hnone.symm.trans he') nofun
  rcases List.mem_append.mp hmem with hmem | hmem
  · exact (List.pairwise_append.mp h.ordered).2.2 b hmem a List.mem_cons_self e' he' e he
  · exact absurd (List.mem_singleton.mp hmem) hb

theorem Holds.search (h : Holds heap list held clock ns) (compare : ℕ → Bool) :
    First (Precedes list.sortOrder list.pushType) (matching held compare)
      (ns.find? compare) := by
  refine ⟨?_, fun a ha => ?_⟩
  · rw [List.find?_eq_none]
    constructor
    · intro hnone
      funext a
      rw [matching]
      split
      next hcompare => exact not_not.mp (mt (h.nodes a).mpr fun hmem => hnone a hmem hcompare)
      next => rfl
    · intro hnone a ha hcompare
      have hheld := congrFun hnone a
      rw [matching, if_pos hcompare] at hheld
      exact (h.nodes a).mp ha hheld
  · obtain ⟨hcompare, xs, ys, rfl, hbefore⟩ := List.find?_eq_some_iff_append.mp ha
    obtain ⟨e, he⟩ := h.entry (List.mem_append_right xs List.mem_cons_self)
    refine ⟨e, by rw [matching, if_pos hcompare, he], fun b hb e' he' => ?_⟩
    have hmatch : compare b := by
      by_contra hnot
      rw [matching, if_neg hnot] at he'
      exact absurd he' nofun
    rw [matching, if_pos hmatch] at he'
    have hmem : b ∈ xs ++ a :: ys :=
      (h.nodes b).mpr fun hnone => absurd (hnone.symm.trans he') nofun
    rcases List.mem_append.mp hmem with hmem | hmem
    · exact absurd hmatch (by simpa using hbefore b hmem)
    · rcases List.mem_cons.mp hmem with heq | hmem
      · exact absurd heq hb
      · exact List.rel_of_pairwise_cons (List.pairwise_append.mp h.ordered).2.1 hmem e he e' he'

def Kept (S : System) : Prop := ∃ ns, Holds S.heap S.list S.held S.clock ns

theorem init_kept (h : Init S) : Kept S := by
  obtain ⟨⟨sortOrder, pushType, hlist⟩, hheld⟩ := h
  refine ⟨[], ⟨List.isChain_pair.mpr ?_, List.nodup_nil⟩, ?_, ?_, fun a => ?_, .nil,
    fun a e he => ?_⟩
  · rw [hlist]
    exact ⟨rfl, rfl⟩
  · rw [hlist]
    rfl
  · rw [hlist]
    rfl
  · rw [hheld]
    exact iff_of_false List.not_mem_nil fun hne => hne rfl
  · rw [hheld] at he
    exact absurd he nofun

theorem step_kept {e : Event} (h : Kept S) (he : Step S e T) : Kept T ∧ Answers S e := by
  obtain ⟨ns, h⟩ := h
  cases he with
  | @push item weight heap list hitem hnew hpush =>
    obtain ⟨heap', list', ms, hpush', hheld⟩ := h.push hitem hnew weight
    obtain ⟨rfl, rfl⟩ := Prod.mk.inj (Option.some_inj.mp (hpush'.symm.trans hpush))
    exact ⟨⟨ms, hheld⟩, trivial⟩
  | @popFront heap list r hpop =>
    obtain ⟨heap', list', hpop', hheld⟩ := h.popFront
    obtain ⟨rfl, hrest⟩ := Prod.mk.inj (Option.some_inj.mp (hpop'.symm.trans hpop))
    obtain ⟨rfl, rfl⟩ := Prod.mk.inj hrest
    exact ⟨⟨_, hheld⟩, h.first⟩
  | @popBack heap list r hpop =>
    obtain ⟨heap', list', hpop', hheld⟩ := h.popBack
    obtain ⟨rfl, hrest⟩ := Prod.mk.inj (Option.some_inj.mp (hpop'.symm.trans hpop))
    obtain ⟨rfl, rfl⟩ := Prod.mk.inj hrest
    exact ⟨⟨_, hheld⟩, h.last⟩
  | @popItem item heap list hitem hpop =>
    obtain ⟨heap', list', ms, hpop', hheld⟩ := h.popItem hitem
    obtain ⟨rfl, rfl⟩ := Prod.mk.inj (Option.some_inj.mp (hpop'.symm.trans hpop))
    exact ⟨⟨ms, hheld⟩, trivial⟩
  | @memory heap hsame => exact ⟨⟨ns, h.memory hsame⟩, trivial⟩

/-- Every call has a result, and those that choose a node choose it by weights and times. -/
structure Serves (S : System) : Prop where
  push : ∀ item weight, S.heap item ≠ none → S.held item = none →
    ∃ t, orderedListPush S.heap S.list item weight = some t
  popItem : ∀ item, S.held item ≠ none → ∃ t, orderedListPopItem S.heap S.list item = some t
  popFront : ∃ heap list r, orderedListPopFront S.heap S.list = some (heap, list, r) ∧
    Answers S (.popFront r)
  popBack : ∃ heap list r, orderedListPopBack S.heap S.list = some (heap, list, r) ∧
    Answers S (.popBack r)
  search : ∀ compare fuel, S.list.size < fuel → ∃ r,
    orderedListLinearSearch fuel S.heap S.list compare = some r ∧
      First (Precedes S.list.sortOrder S.list.pushType) (matching S.held compare) r

theorem Kept.serves (h : Kept S) : Serves S := by
  obtain ⟨ns, h⟩ := h
  refine ⟨fun item weight hitem hnew => ?_, fun item hitem => ?_, ?_, ?_,
    fun compare fuel hfuel => ?_⟩
  · obtain ⟨heap', list', -, hpush, -⟩ := h.push hitem hnew weight
    exact ⟨_, hpush⟩
  · obtain ⟨heap', list', -, hpop, -⟩ := h.popItem hitem
    exact ⟨_, hpop⟩
  · obtain ⟨heap', list', hpop, -⟩ := h.popFront
    exact ⟨heap', list', _, hpop, h.first⟩
  · obtain ⟨heap', list', hpop, -⟩ := h.popBack
    exact ⟨heap', list', _, hpop, h.last⟩
  · exact ⟨_, h.sorted.linearSearch (h.size ▸ hfuel), h.search compare⟩

/-- In every run the list is a priority queue: each pop returned the first or the last entry of
those there, by weight and then by the time of the push, and so will every later call. -/
theorem run_entries {ts : List (Taken System Event)} (h : Run Init Step ts S) :
    (∀ x ∈ ts, Answers x.before x.event) ∧ Serves S := by
  have hkept : ∀ {ts S}, Run Init Step ts S → Kept S := fun h =>
    h.invariant (fun _ => init_kept) fun _ _ _ hs he => (step_kept hs he).1
  refine ⟨?_, (hkept h).serves⟩
  induction h with
  | start =>
    intro x hx
    exact absurd hx List.not_mem_nil
  | snoc hrun he ih =>
    intro x hx
    rcases List.mem_append.mp hx with hx | hx
    · exact ih x hx
    · obtain rfl := List.mem_singleton.mp hx
      exact (step_kept (hkept hrun) he).2

/-- Two nodes of weight 5 and then one of weight 3 in an ascending list that keeps old ones in
front. -/
def threePushes : List Event := [.push 1 5, .push 2 5, .push 3 3, .popFront (some 3)]

theorem run_entries_threePushes : ∃ (ts : List (Taken System Event)) (S : System),
    ts.map Taken.event = threePushes ∧ (∀ x ∈ ts, Answers x.before x.event) ∧
      Serves S ∧ ∃ heap list, orderedListPopFront S.heap S.list = some (heap, list, some 1) := by
  have hstart : Run Init Step [] ⟨fun _ => some ⟨none, none, 0⟩,
      orderedListInit .ascending .lte, fun _ => none, 0⟩ := .start ⟨⟨_, _, rfl⟩, rfl⟩
  have hone := hstart.snoc (@Step.push _ 1 5 _ _ nofun rfl rfl)
  have htwo := hone.snoc (@Step.push _ 2 5 _ _ nofun rfl rfl)
  have hthree := htwo.snoc (@Step.push _ 3 3 _ _ nofun rfl rfl)
  have hpop := hthree.snoc (@Step.popFront _ _ _ (some 3) rfl)
  obtain ⟨hanswers, hserves⟩ := run_entries hpop
  exact ⟨_, _, rfl, hanswers, hserves, _, _, rfl⟩

end WeightedListRuns
