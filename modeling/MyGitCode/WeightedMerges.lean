import MyGitCode.OrderedMerges
import MyGitCode.RelockableLocks
import MyGitCode.WeightedLists

/-! # Merging ordered lists

`ordered_list_merge` takes whole runs of nodes from the second list and puts them between nodes
of the first one. It holds the locks of both lists, which `ordered_list_append` takes again. -/
namespace OrderedLists

open LinkRings OrderedMerges
open RelockableLocks (relocked)

/-- Which nodes of the first list come before one of the second, in the cases of the switch. -/
def mergesBefore (sortOrder : SortOrder) (pushType : PushType) (weight new : ℕ) : Bool :=
  match sortOrder, pushType with
  | .ascending, .slt => weight ≤ new
  | .ascending, .lte => weight < new
  | .descending, .slt => weight ≥ new
  | .descending, .lte => weight > new

def orderedListAppend (heap : Heap) (list1 list2 : OrderedList) :
    Option (Heap × OrderedList × OrderedList) := do
  let list1 := ensureInit list1
  let list2 := ensureInit list2
  let (heap, list1) ← (if list1.size > 0 then
      (setNext heap list1.back list2.front).map (·, list1)
    else some (heap, { list1 with front := list2.front }))
  let heap ← (if list2.size > 0 then setPrev heap list2.front list1.back else some heap)
  return (heap, { list1 with back := list2.back, size := list1.size + list2.size },
    { list2 with front := none, back := none, size := 0 })

/-- The loop over `temp3_ptr`, to the last node that goes before `temp1_ptr`. -/
def findEnd (heap : Heap) (before : ℕ → Bool) : ℕ → Option ℕ → Option (Option ℕ)
  | 0, _ => none
  | fuel + 1, temp3 => do
    let link ← deref heap temp3
    let next ← deref heap link.next
    if before next.weight then return temp3 else findEnd heap before fuel link.next

/-- The nodes from `temp2_ptr` to `temp3_ptr` are linked in before `temp1_ptr`. -/
def linkBefore (heap : Heap) (list1 : OrderedList) (temp1 temp2 temp3 : Option ℕ) :
    Option (Heap × OrderedList) := do
  let link1 ← deref heap temp1
  let heap ← setPrev heap temp2 link1.prev
  let link1 ← deref heap temp1
  let (heap, list1) ← (if link1.prev = none then some (heap, { list1 with front := temp2 })
    else (setNext heap link1.prev temp2).map (·, list1))
  let heap ← setNext heap temp3 temp1
  let heap ← setPrev heap temp1 temp3
  return (heap, list1)

/-- The nodes from `temp2_ptr` to `temp3_ptr` leave the second list. -/
def moveNodes (heap : Heap) (list1 list2 : OrderedList) (temp1 temp2 temp3 : Option ℕ) :
    Option (Heap × OrderedList × OrderedList) := do
  let link3 ← deref heap temp3
  let list2 := { list2 with front := link3.next }
  let heap ← (if list2.front = none then some heap else setPrev heap list2.front none)
  let (heap, list1) ← linkBefore heap list1 temp1 temp2 temp3
  return (heap, list1, list2)

/-- The body of the merge loop, with the `temp1_ptr` of the next turn. -/
def mergeTurn (heap : Heap) (list1 list2 : OrderedList) (temp1 : Option ℕ) :
    Option (Heap × OrderedList × OrderedList × Option ℕ) := do
  let before := mergesBefore list2.sortOrder list2.pushType
  let temp2 := list2.front
  let back1 ← deref heap list1.back
  let link2 ← deref heap temp2
  if before back1.weight link2.weight then
    let heap ← setNext heap list1.back list2.front
    let heap ← setPrev heap list2.front list1.back
    return (heap, { list1 with back := list2.back }, { list2 with front := none }, temp1)
  else
    let temp1 ← findPlace heap (fun weight => before weight link2.weight) list1.size temp1
    let link1 ← deref heap temp1
    let back2 ← deref heap list2.back
    let temp3 ← (if before link1.weight back2.weight then
        findEnd heap (before link1.weight) list2.size temp2
      else some list2.back)
    let (heap, list1, list2) ← moveNodes heap list1 list2 temp1 temp2 temp3
    return (heap, list1, list2, temp1)

def mergeLoop : ℕ → Heap → OrderedList → OrderedList → Option ℕ →
    Option (Heap × OrderedList × OrderedList)
  | 0, _, _, _, _ => none
  | fuel + 1, heap, list1, list2, temp1 => do
    if list2.front = none then return (heap, list1, list2)
    let (heap, list1, list2, temp1) ← mergeTurn heap list1 list2 temp1
    mergeLoop fuel heap list1 list2 temp1

def orderedListMerge (again : Bool) (heap : Heap) (list1 list2 : OrderedList) :
    Option (Heap × OrderedList × OrderedList) := do
  let list1 := ensureInit list1
  let list2 := ensureInit list2
  if list1.size = 0 then
    return (heap, { list1 with size := list2.size, front := list2.front, back := list2.back },
      { list2 with size := 0, front := none, back := none })
  if list2.size = 0 then return (heap, list1, list2)
  if list1.sortOrder ≠ list2.sortOrder ∨ list1.pushType ≠ list2.pushType then
    return (heap, list1, list2)
  let before := mergesBefore list2.sortOrder list2.pushType
  let back1 ← deref heap list1.back
  let front2 ← deref heap list2.front
  if before back1.weight front2.weight then relocked again (orderedListAppend heap list1 list2)
  else
    let back2 ← deref heap list2.back
    let front1 ← deref heap list1.front
    -- the two headers are swapped before the append
    if ¬ before front1.weight back2.weight then
      relocked again (orderedListAppend heap list2 list1)
    else
      let (heap, list1, list2) ← mergeLoop (list2.size + 1) heap list1 list2 list1.front
      return (heap, { list1 with size := list1.size + list2.size, back := list2.back },
        { list2 with size := 0, back := none })

variable {sortOrder : SortOrder} {pushType : PushType} {v w k : ℕ}

theorem mergesBefore_iff : mergesBefore sortOrder pushType v w ↔
    mayPrecede sortOrder v w ∧ (pushType = .lte → ¬ mayPrecede sortOrder w v) := by
  cases sortOrder <;> cases pushType <;>
    simp only [mergesBefore, mayPrecede, decide_eq_true_eq, ge_iff_le, gt_iff_lt] <;> simp <;>
    omega

theorem not_mergesBefore (h : ¬ mergesBefore sortOrder pushType v w) :
    mayPrecede sortOrder w v := by
  rw [mergesBefore_iff, not_and] at h
  by_contra hnot
  rcases mayPrecede_total with hvw | hwv
  · exact h hvw fun _ => hnot
  · exact hnot hwv

theorem mergesBefore_mono {v' w' : ℕ} (h : mergesBefore sortOrder pushType v w)
    (hv : mayPrecede sortOrder v' v) (hw : mayPrecede sortOrder w w') :
    mergesBefore sortOrder pushType v' w' := by
  rw [mergesBefore_iff] at h ⊢
  refine ⟨mayPrecede_trans hv (mayPrecede_trans h.1 hw), fun hlte hback => h.2 hlte ?_⟩
  exact mayPrecede_trans hw (mayPrecede_trans hback hv)

variable {heap heap' : Heap} {list list1 list2 : OrderedList} {ns ms xs ys cs ds : List ℕ}
  {a b : ℕ}

theorem findEnd_eq {before : ℕ → Bool} {fuel : ℕ} (h : Strung heap list (xs ++ b :: ys))
    (hstop : ∃ c ∈ ys, before (weightOf heap c)) (hfuel : ys.length ≤ fuel) :
    findEnd heap before fuel (some b) =
      some (b :: ys.takeWhile fun c => !before (weightOf heap c)).getLast? := by
  induction ys generalizing xs b fuel with
  | nil => exact absurd hstop (by simp)
  | cons c ys ih =>
    obtain ⟨link, hlink, hnext, -⟩ := h.link_eq
    rw [← List.singleton_append, ← List.append_assoc] at h
    obtain ⟨next, hc, -⟩ := h.link_eq
    cases fuel with
    | zero => exact absurd hfuel (Nat.not_succ_le_zero _)
    | succ fuel =>
      simp only [findEnd, deref, Option.bind_some, hlink, hnext, List.head?_cons, hc,
        Option.bind_eq_bind]
      rw [List.takeWhile_cons, weightOf_eq hc]
      cases hbefore : before next.weight with
      | true => rfl
      | false =>
        refine ih h ?_ (Nat.le_of_succ_le_succ hfuel)
        obtain ⟨d, hd, hstop⟩ := hstop
        rcases List.mem_cons.mp hd with rfl | hd
        · rw [weightOf_eq hc, hbefore] at hstop
          exact absurd hstop Bool.false_ne_true
        · exact ⟨d, hd, hstop⟩

theorem Strung.segment (h : Strung heap list2 (cs ++ ds))
    (hnext : ∀ a ∈ cs, nextOf heap' a = nextOf heap a)
    (hprev : ∀ a ∈ cs, prevOf heap' a = prevOf heap a) :
    List.IsChain (Linked heap' list1) (cs.map some) := by
  have hring := h.ring.first.2
  rw [List.map_append, List.append_assoc] at hring
  refine chain_congr hring.left_of_append fun x hx y hy hlink => ?_
  obtain ⟨a, ha, rfl⟩ := List.mem_map.mp (List.dropLast_subset _ hx)
  obtain ⟨b, hb, rfl⟩ := List.mem_map.mp (List.mem_of_mem_tail hy)
  exact ⟨(hnext a ha).trans hlink.1, (hprev b hb).trans hlink.2⟩

theorem Strung.append (h1 : Strung heap list1 ns) (h2 : Strung heap list2 ms) (hns : ns ≠ [])
    (hms : ms ≠ []) (hdisjoint : ∀ a ∈ ns, a ∉ ms) :
    ∃ heap₁ heap', setNext heap list1.back list2.front = some heap₁ ∧
      setPrev heap₁ list2.front list1.back = some heap' ∧ weights heap' = weights heap ∧
      ∀ list', list'.front = list1.front → list'.back = list2.back →
        Strung heap' list' (ns ++ ms) := by
  obtain ⟨e, he⟩ := Option.ne_none_iff_exists'.mp (mt List.getLast?_eq_none_iff.mp hns)
  obtain ⟨c, hc⟩ := Option.ne_none_iff_exists'.mp (mt List.head?_eq_none_iff.mp hms)
  obtain ⟨d, hd⟩ := Option.ne_none_iff_exists'.mp (mt List.getLast?_eq_none_iff.mp hms)
  have hback : list1.back = some e := h1.back_eq.trans he
  have hfront : list2.front = some c := h2.front_eq.trans hc
  obtain ⟨heap₁, hset₁, hw₁, hat₁⟩ :=
    setNext_some (h1.allocated (List.mem_of_getLast? he)) (some c)
  obtain ⟨heap₂, hset₂, hw₂, hat₂⟩ :=
    setPrev_some (allocated_of_weights hw₁ (h2.allocated (List.mem_of_head? hc))) (some e)
  rw [hback, hfront]
  refine ⟨heap₁, heap₂, hset₁, hset₂, hw₂.trans hw₁, fun list' hfront' hback' => ?_⟩
  have hlast : nextAt heap list1 (some d) = some none := by
    obtain ⟨ms, rfl⟩ := List.getLast?_eq_some_iff.mp hd
    exact h2.around.1
  have hins : Inserted heap heap₂ list1 list' ms ns.getLast? [].head? := by
    refine ⟨?_, ?_⟩
    · have hsame : Function.update (nextAt heap list1) (some d) (some none) =
          nextAt heap list1 := by
        rw [← hlast]
        exact Function.update_eq_self ..
      refine (nextAt_same list1 hfront').trans ?_
      rw [(hat₂ list1).1, (hat₁ list1).1, hd, List.head?_nil, hsame, he, hc]
    · refine (prevAt_back list1 (hback'.trans (h2.back_eq.trans hd))).trans ?_
      rw [(hat₂ list1).2, (hat₁ list1).2, hd, List.head?_nil, he, hc]
  have h2' : Strung heap list2 (ms ++ []) := by rwa [List.append_nil]
  have h1' : Strung heap list1 (ns ++ []) := by rwa [List.append_nil]
  have hdisjoint' : (ns ++ (ms ++ [])).Nodup := by
    rw [List.append_nil]
    exact List.nodup_append'.mpr ⟨h1.nodup, h2.nodup, hdisjoint⟩
  have happended := h1'.insert (h2'.segment (fun _ _ => rfl) fun _ _ => rfl) hms hdisjoint' hins
  rwa [List.append_nil] at happended

theorem Strung.dropFront (h : Strung heap list2 (cs ++ ds)) :
    ∃ heap', (if ds.head? = none then some heap else setPrev heap ds.head? none) = some heap' ∧
      weights heap' = weights heap ∧ (∀ list, nextAt heap' list = nextAt heap list) ∧
      (∀ list x, x ∉ ds.map some → prevAt heap' list x = prevAt heap list x) ∧
      (ds ≠ [] → Strung heap' { list2 with front := ds.head? } ds) := by
  cases ds with
  | nil => exact ⟨heap, rfl, rfl, fun _ => rfl, fun _ _ _ => rfl, fun hnil => absurd rfl hnil⟩
  | cons d ds =>
    have hd : heap d ≠ none := h.allocated (by simp)
    obtain ⟨heap', hset, hw, hat⟩ := setPrev_some hd none
    refine ⟨heap', hset, hw, fun list => (hat list).1, fun list x hx => ?_, fun _ => ?_⟩
    · rw [(hat list).2, Function.update_of_ne]
      rintro rfl
      exact hx List.mem_cons_self
    · have hall : Strung heap list2 ([] ++ (cs ++ d :: ds)) := h
      refine hall.remove ⟨?_, (prevAt_same list2 rfl).trans (hat list2).2⟩
      refine (nextAt_front list2 rfl).trans ?_
      rw [(hat list2).1]
      rfl

theorem linkNext_some (list1 : OrderedList) (hxs : ∀ b ∈ xs, heap b ≠ none) (c : ℕ) :
    ∃ heap' list', (if xs.getLast? = none then some (heap, { list1 with front := some c })
        else (setNext heap xs.getLast? (some c)).map (·, list1)) = some (heap', list') ∧
      weights heap' = weights heap ∧ list'.size = list1.size ∧ list'.back = list1.back ∧
      SameKind list1 list' ∧
      nextAt heap' list' = Function.update (nextAt heap list1) xs.getLast? (some (some c)) ∧
      prevAt heap' list' = prevAt heap list1 ∧
      ∀ list, prevAt heap' list = prevAt heap list ∧
        ∀ x, x ∉ xs.map some → nextAt heap' list x = nextAt heap list x := by
  rcases List.eq_nil_or_concat xs with rfl | ⟨xs, d, rfl⟩
  · exact ⟨heap, { list1 with front := some c }, rfl, rfl, rfl, rfl, ⟨rfl, rfl, rfl⟩,
      nextAt_front list1 rfl, prevAt_same list1 rfl, fun _ => ⟨rfl, fun _ _ => rfl⟩⟩
  · rw [List.concat_eq_append] at *
    have hd : heap d ≠ none := hxs d List.mem_concat_self
    obtain ⟨heap', hset, hw, hat⟩ := setNext_some hd (some c)
    rw [List.getLast?_concat, if_neg (Option.some_ne_none d), hset]
    refine ⟨heap', list1, rfl, hw, rfl, rfl, ⟨rfl, rfl, rfl⟩, (hat list1).1,
      (hat list1).2, fun list => ⟨(hat list).2, fun x hx => ?_⟩⟩
    rw [(hat list).1, Function.update_of_ne]
    rintro rfl
    exact hx (by simp)

theorem Strung.linkBefore {c e : ℕ} (h1 : Strung heap list1 (xs ++ a :: ys)) (hc : heap c ≠ none)
    (he : heap e ≠ none) (hac : a ≠ c) :
    ∃ heap' list1', linkBefore heap list1 (some a) (some c) (some e) = some (heap', list1') ∧
      weights heap' = weights heap ∧ list1'.size = list1.size ∧ list1'.back = list1.back ∧
      SameKind list1 list1' ∧
      nextAt heap' list1' = Function.update (Function.update (nextAt heap list1) xs.getLast?
        (some (some c))) (some e) (some (some a)) ∧
      prevAt heap' list1' = Function.update (Function.update (prevAt heap list1) (some c)
        (some xs.getLast?)) (some a) (some (some e)) ∧
      ∀ list x, (x ∉ xs.map some → x ≠ some e → nextAt heap' list x = nextAt heap list x) ∧
        (x ≠ some c → x ≠ some a → prevAt heap' list x = prevAt heap list x) := by
  have ha : heap a ≠ none := h1.allocated (List.mem_append_right xs List.mem_cons_self)
  obtain ⟨link₁, hlink₁, -, hprev₁⟩ := h1.link_eq
  obtain ⟨heap₂, hset₂, hw₂, hat₂⟩ := setPrev_some hc xs.getLast?
  obtain ⟨link₂, hlink₂, hprev₂⟩ := field_eq_some (show prevOf heap₂ a = some xs.getLast? by
    refine (congrFun (hat₂ list1).2 (some a)).trans ?_
    rw [Function.update_of_ne (mt Option.some_inj.mp hac)]
    exact h1.around.2)
  have hxs : ∀ b ∈ xs, heap₂ b ≠ none := fun b hb =>
    allocated_of_weights hw₂ (h1.allocated (List.mem_append_left _ hb))
  obtain ⟨heap₃, list₃, hset₃, hw₃, hsize, hback, hkind, hn₃, hp₃, hother₃⟩ :=
    linkNext_some list1 hxs c
  have hw : weights heap₃ = weights heap := hw₃.trans hw₂
  obtain ⟨heap₄, hset₄, hw₄, hat₄⟩ := setNext_some (allocated_of_weights hw he) (some a)
  obtain ⟨heap₅, hset₅, hw₅, hat₅⟩ :=
    setPrev_some (allocated_of_weights (hw₄.trans hw) ha) (some e)
  refine ⟨heap₅, list₃, ?_, hw₅.trans (hw₄.trans hw), hsize, hback, hkind, ?_, ?_,
    fun list x => ⟨fun hxs hxe => ?_, fun hxc hxa => ?_⟩⟩
  · simp only [OrderedLists.linkBefore, deref, Option.bind_some, hlink₁, hprev₁, hset₂, hlink₂,
      hprev₂, hset₃, hset₄, hset₅, Option.bind_eq_bind]
    rfl
  · rw [(hat₅ list₃).1, (hat₄ list₃).1, hn₃, (hat₂ list1).1]
  · rw [(hat₅ list₃).2, (hat₄ list₃).2, hp₃, (hat₂ list1).2]
  · rw [(hat₅ _).1, (hat₄ _).1, Function.update_of_ne hxe, (hother₃ _).2 x hxs, (hat₂ _).1]
  · rw [(hat₅ _).2, Function.update_of_ne hxa, (hat₄ _).2, (hother₃ _).1, (hat₂ _).2,
      Function.update_of_ne hxc]

theorem Strung.next_of_getLast {e : ℕ} (h : Strung heap list2 (cs ++ ds))
    (he : cs.getLast? = some e) : ∃ link, heap e = some link ∧ link.next = ds.head? := by
  obtain ⟨cs, rfl⟩ := List.getLast?_eq_some_iff.mp he
  rw [List.append_assoc, List.singleton_append] at h
  obtain ⟨link, hlink, hnext, -⟩ := h.link_eq
  exact ⟨link, hlink, hnext⟩

theorem moveNodes_moved (h1 : Strung heap list1 (xs ++ a :: ys))
    (h2 : Strung heap list2 (cs ++ ds)) (hcs : cs ≠ [])
    (hdisjoint : ∀ b ∈ xs ++ a :: ys, b ∉ cs ++ ds) :
    ∃ heap' list1', moveNodes heap list1 list2 (some a) cs.head? cs.getLast? =
        some (heap', list1', { list2 with front := ds.head? }) ∧
      weights heap' = weights heap ∧ list1'.size = list1.size ∧ list1'.back = list1.back ∧
      SameKind list1 list1' ∧ Strung heap' list1' (xs ++ (cs ++ a :: ys)) ∧
      (ds ≠ [] → Strung heap' { list2 with front := ds.head? } ds) := by
  obtain ⟨c, hc⟩ := Option.ne_none_iff_exists'.mp (mt List.head?_eq_none_iff.mp hcs)
  obtain ⟨e, he⟩ := Option.ne_none_iff_exists'.mp (mt List.getLast?_eq_none_iff.mp hcs)
  have hcMem : c ∈ cs := List.mem_of_head? hc
  have heMem : e ∈ cs := List.mem_of_getLast? he
  have haMem : a ∈ xs ++ a :: ys := List.mem_append_right xs List.mem_cons_self
  have hapart : ∀ b ∈ xs ++ a :: ys, b ∉ cs ∧ b ∉ ds := fun b hb =>
    not_or.mp fun h => hdisjoint b hb (List.mem_append.mpr h)
  have hcd : ∀ b ∈ cs, b ∉ ds := (List.nodup_append'.mp h2.nodup).2.2
  have hends : ∀ b ∈ cs, heap b ≠ none := fun b hb => h2.allocated (List.mem_append_left ds hb)
  obtain ⟨link₃, hlink₃, hnext₃⟩ := h2.next_of_getLast he
  obtain ⟨heap₁, hset₁, hw₁, hn₁, hp₁, hrest⟩ := h2.dropFront
  have h1₁ : Strung heap₁ list1 (xs ++ a :: ys) := by
    refine h1.kept (fun x _ => congrFun (hn₁ list1) x) fun x hx => hp₁ list1 x fun hmem => ?_
    obtain ⟨b, hb, rfl⟩ := List.mem_map.mp hmem
    exact (hapart b (by simpa using hx)).2 hb
  have hsegment : List.IsChain (Linked heap₁ list1) (cs.map some) :=
    h2.segment (fun b _ => congrFun (hn₁ list1) (some b)) fun b hb =>
      hp₁ list1 (some b) (by simpa using hcd b hb)
  obtain ⟨heap₂, list₂, hlink, hw₂, hsize, hback, hkind, hn₂, hp₂, hother⟩ :=
    h1₁.linkBefore (allocated_of_weights hw₁ (hends c hcMem))
      (allocated_of_weights hw₁ (hends e heMem)) fun heq => (hapart a haMem).1 (heq ▸ hcMem)
  refine ⟨heap₂, list₂, ?_, hw₂.trans hw₁, hsize, hback, hkind, ?_, fun hds => ?_⟩
  · simp only [moveNodes, deref, hc, he, Option.bind_some, hlink₃, hnext₃, hset₁, hlink,
      Option.bind_eq_bind]
    rfl
  · have hex : xs.getLast? ≠ some e := fun heq =>
      (hapart e (List.mem_append_left _ (List.mem_of_getLast? heq))).1 heMem
    refine h1₁.insert hsegment hcs ?_ ⟨?_, by rw [hp₂, hc, he]; rfl⟩
    · refine (List.perm_append_comm_assoc xs cs (a :: ys)).nodup_iff.mpr ?_
      exact List.nodup_append'.mpr ⟨(List.nodup_append'.mp h2.nodup).1, h1.nodup,
        fun b hb hb' => (hapart b hb').1 hb⟩
    · rw [hn₂, Function.update_comm hex, hc, he]
      rfl
  · -- the links of `ds` are none of those that were written
    have hnode : ∀ b ∈ cs ++ (xs ++ [a]), ∀ x ∈ none :: ds.map some, x ≠ some b := by
      rintro b hb x hx rfl
      have hmem : b ∈ ds := by simpa using hx
      simp only [List.mem_append, List.mem_singleton] at hb
      rcases hb with hb | hb | rfl
      · exact hcd b hb hmem
      · exact (hapart b (List.mem_append_left _ hb)).2 hmem
      · exact (hapart b haMem).2 hmem
    refine (hrest hds).kept (fun x hx => (hother _ x).1 (fun hmem => ?_)
      (hnode e (by simp [heMem]) x hx)) fun x hx => (hother _ x).2
      (hnode c (by simp [hcMem]) x hx) (hnode a (by simp) x hx)
    obtain ⟨b, hb, rfl⟩ := List.mem_map.mp hmem
    exact hnode b (by simp [hb]) _ hx rfl

def goesFirst (heap : Heap) (list : OrderedList) (a b : ℕ) : Bool :=
  mergesBefore list.sortOrder list.pushType (weightOf heap a) (weightOf heap b)

theorem goesFirst_congr (h : weights heap' = weights heap)
    (hkind : list2.sortOrder = list1.sortOrder ∧ list2.pushType = list1.pushType) :
    goesFirst heap' list2 = goesFirst heap list1 := by
  funext a b
  rw [goesFirst, goesFirst, weightOf_congr h, hkind.1, hkind.2]

theorem InOrder.before_last (h : InOrder heap sortOrder ns) {e : ℕ} (he : ns.getLast? = some e)
    (hb : b ∈ ns) (hne : b ≠ e) : mayPrecede sortOrder (weightOf heap b) (weightOf heap e) := by
  obtain ⟨ns, rfl⟩ := List.getLast?_eq_some_iff.mp he
  rcases List.mem_append.mp hb with hb | hb
  · exact (List.pairwise_append.mp h).2.2 b hb e (List.mem_singleton.mpr rfl)
  · exact absurd (List.mem_singleton.mp hb) hne

theorem mayPrecede_refl : mayPrecede sortOrder v v := by
  rcases @mayPrecede_total sortOrder v v with h | h <;> exact h

theorem InOrder.goesFirst_last {e : ℕ} (h : InOrder heap list.sortOrder ns)
    (he : ns.getLast? = some e) (hb : b ∈ ns) (hab : goesFirst heap list a b) :
    goesFirst heap list a e := by
  by_cases hbe : b = e
  · rwa [← hbe]
  · exact mergesBefore_mono hab mayPrecede_refl (h.before_last he hb hbe)

theorem InOrder.goesFirst_all {e : ℕ} (h : InOrder heap list.sortOrder ns)
    (he : ns.getLast? = some e) (hb : b ∈ ns) (heb : goesFirst heap list e a) :
    goesFirst heap list b a := by
  by_cases hbe : b = e
  · rwa [hbe]
  · exact mergesBefore_mono heb (h.before_last he hb hbe) mayPrecede_refl

theorem Strung.lastBefore {c d : ℕ} {link1 : Link} (h2 : Strung heap list2 (c :: ms))
    (hsorted : InOrder heap list2.sortOrder (c :: ms)) (hd : (c :: ms).getLast? = some d)
    (ha : ¬ goesFirst heap list2 a c) (hlinkA : heap a = some link1)
    (hsize2 : ms.length ≤ list2.size) :
    (if goesFirst heap list2 a d then
        findEnd heap (mergesBefore list2.sortOrder list2.pushType link1.weight) list2.size
          list2.front
      else some list2.back) =
      some ((c :: ms).takeWhile fun b => !goesFirst heap list2 a b).getLast? := by
  have hfront : list2.front = some c := h2.front_eq
  split
  next had =>
    have h2' : Strung heap list2 ([] ++ c :: ms) := h2
    have hdms : d ∈ ms := by
      rcases List.mem_cons.mp (List.mem_of_getLast? hd) with rfl | hmem
      · exact absurd had ha
      · exact hmem
    rw [hfront, findEnd_eq h2' ⟨d, hdms, ?_⟩ hsize2, List.takeWhile_cons,
      Bool.eq_false_iff.mpr ha]
    · rw [← weightOf_eq hlinkA]
      rfl
    · rw [← weightOf_eq hlinkA]
      exact had
  next had =>
    rw [List.takeWhile_eq_self_iff.mpr fun b hb => ?_, h2.back_eq]
    rw [Bool.not_eq_true', Bool.eq_false_iff]
    exact fun hab => had (hsorted.goesFirst_last hd hb hab)

theorem mergeTurn_found {c e : ℕ} {r2 : List ℕ} (h1 : Strung heap list1 (xs ++ ys))
    (h2 : Strung heap list2 (c :: ms)) (he : ys.getLast? = some e)
    (hsorted : InOrder heap list2.sortOrder (c :: ms)) (hnot : ¬ goesFirst heap list2 e c)
    (hsize1 : ys.length ≤ list1.size) (hsize2 : ms.length ≤ list2.size)
    (hplace : ys.dropWhile (goesFirst heap list2 · c) = a :: r2) (haMem : a ∈ ys)
    (ha : ¬ goesFirst heap list2 a c) :
    mergeTurn heap list1 list2 ys.head? =
      (moveNodes heap list1 list2 (some a) (some c)
        ((c :: ms).takeWhile fun b => !goesFirst heap list2 a b).getLast?).bind
        fun r => some (r.1, r.2.1, r.2.2, some a) := by
  have heMem : e ∈ ys := List.mem_of_getLast? he
  have hback : list1.back = some e := by
    rw [h1.back_eq, List.getLast?_append, he]
    rfl
  have hfront : list2.front = some c := h2.front_eq
  obtain ⟨d, hd⟩ := Option.ne_none_iff_exists'.mp
    (mt List.getLast?_eq_none_iff.mp (List.cons_ne_nil c ms))
  have hback2 : list2.back = some d := h2.back_eq.trans hd
  obtain ⟨back, hlinkE⟩ := Option.ne_none_iff_exists'.mp
    (h1.allocated (List.mem_append_right xs heMem))
  obtain ⟨link2, hlinkC⟩ := Option.ne_none_iff_exists'.mp (h2.allocated List.mem_cons_self)
  obtain ⟨link1, hlinkA⟩ := Option.ne_none_iff_exists'.mp
    (h1.allocated (List.mem_append_right xs haMem))
  obtain ⟨back2, hlinkD⟩ :=
    Option.ne_none_iff_exists'.mp (h2.allocated (List.mem_of_getLast? hd))
  have hfind := findPlace_eq
    (fun weight => mergesBefore list2.sortOrder list2.pushType weight link2.weight)
    (goesFirst heap list2 · c) h1 (fun b _ => by rw [goesFirst, weightOf_eq hlinkC])
    ⟨e, heMem, hnot⟩ hsize1
  rw [hplace, List.head?_cons] at hfind
  have hend := h2.lastBefore hsorted hd ha hlinkA hsize2
  rw [goesFirst, weightOf_eq hlinkE, weightOf_eq hlinkC] at hnot
  rw [goesFirst, weightOf_eq hlinkA, weightOf_eq hlinkD, hfront] at hend
  simp only [mergeTurn, hback, hfront, deref, Option.bind_some, hlinkE, hlinkC, if_neg hnot,
    hfind, hlinkA, hback2, hlinkD, Option.bind_eq_bind]
  rw [← hback2, hend, Option.bind_some]
  rfl

theorem mergeTurn_moved {c e : ℕ} (h1 : Strung heap list1 (xs ++ ys))
    (h2 : Strung heap list2 (c :: ms)) (he : ys.getLast? = some e)
    (hsorted : InOrder heap list2.sortOrder (c :: ms)) (hnot : ¬ goesFirst heap list2 e c)
    (hsize1 : ys.length ≤ list1.size) (hsize2 : ms.length ≤ list2.size)
    (hdisjoint : ∀ b ∈ xs ++ ys, b ∉ c :: ms) :
    ∃ r1 a r2 cs ds heap' list1', ys = r1 ++ a :: r2 ∧ c :: ms = cs ++ ds ∧ cs ≠ [] ∧
      (∀ b ∈ r1, goesFirst heap list2 b c) ∧ (∀ b ∈ cs, ¬ goesFirst heap list2 a b) ∧
      mergeTurn heap list1 list2 ys.head? =
        some (heap', list1', { list2 with front := ds.head? }, some a) ∧
      weights heap' = weights heap ∧ list1'.size = list1.size ∧ list1'.back = list1.back ∧
      SameKind list1 list1' ∧ Strung heap' list1' (xs ++ r1 ++ (cs ++ a :: r2)) ∧
      (ds ≠ [] → Strung heap' { list2 with front := ds.head? } ds) := by
  cases hplace : ys.dropWhile (goesFirst heap list2 · c) with
  | nil => exact absurd (List.dropWhile_eq_nil_iff.mp hplace e (List.mem_of_getLast? he)) hnot
  | cons a r2 =>
    obtain ⟨hsplit, hr1, ha⟩ := split_of_dropWhile hplace
    have haMem : a ∈ ys := hsplit ▸ List.mem_append_right _ List.mem_cons_self
    have hturn := mergeTurn_found h1 h2 he hsorted hnot hsize1 hsize2 hplace haMem ha
    have hcsplit : c :: ms = ((c :: ms).takeWhile fun b => !goesFirst heap list2 a b) ++
        (c :: ms).dropWhile fun b => !goesFirst heap list2 a b :=
      List.takeWhile_append_dropWhile.symm
    generalize hcs : ((c :: ms).takeWhile fun b => !goesFirst heap list2 a b) = cs at *
    generalize ((c :: ms).dropWhile fun b => !goesFirst heap list2 a b) = ds at *
    generalize ys.takeWhile (goesFirst heap list2 · c) = r1 at *
    have hcsHead : cs.head? = some c := by
      rw [← hcs, List.takeWhile_cons, Bool.eq_false_iff.mpr ha]
      rfl
    have hcsNe : cs ≠ [] := List.ne_nil_of_mem (List.mem_of_head? hcsHead)
    rw [hsplit, ← List.append_assoc] at h1 hdisjoint
    rw [hcsplit] at h2 hdisjoint
    obtain ⟨heap', list1', hmove, hw, hsize, hback', hkind, hstrung, hrest⟩ :=
      moveNodes_moved h1 h2 hcsNe hdisjoint
    rw [hcsHead] at hmove
    refine ⟨r1, a, r2, cs, ds, heap', list1', hsplit, hcsplit, hcsNe, hr1, fun b hb => ?_, ?_,
      hw, hsize, hback', hkind, hstrung, hrest⟩
    · rw [← hcs] at hb
      simpa using List.mem_takeWhile_imp hb
    · rw [hturn, hmove]
      rfl

theorem mergeTurn_appended {c e : ℕ} (h1 : Strung heap list1 (xs ++ ys))
    (h2 : Strung heap list2 (c :: ms)) (he : ys.getLast? = some e)
    (hlast : goesFirst heap list2 e c) (hdisjoint : ∀ b ∈ xs ++ ys, b ∉ c :: ms) :
    ∃ heap', mergeTurn heap list1 list2 ys.head? = some (heap',
        { list1 with back := list2.back }, { list2 with front := none }, ys.head?) ∧
      weights heap' = weights heap ∧
      Strung heap' { list1 with back := list2.back } (xs ++ ys ++ c :: ms) := by
  have heMem : e ∈ xs ++ ys := List.mem_append_right xs (List.mem_of_getLast? he)
  obtain ⟨heap₁, heap₂, hset₁, hset₂, hw, happend⟩ :=
    h1.append h2 (List.ne_nil_of_mem heMem) (List.cons_ne_nil c ms) hdisjoint
  obtain ⟨back1, hlinkE⟩ := Option.ne_none_iff_exists'.mp (h1.allocated heMem)
  obtain ⟨link2, hlinkC⟩ := Option.ne_none_iff_exists'.mp (h2.allocated List.mem_cons_self)
  have hderef1 : deref heap list1.back = some back1 := by
    rw [h1.back_eq, List.getLast?_append, he]
    exact hlinkE
  have hderef2 : deref heap list2.front = some link2 := by
    rw [h2.front_eq]
    exact hlinkC
  refine ⟨heap₂, ?_, hw, happend _ rfl rfl⟩
  rw [goesFirst, weightOf_eq hlinkE, weightOf_eq hlinkC] at hlast
  simp only [mergeTurn, hderef1, hderef2, if_pos hlast, hset₁, hset₂, Option.bind_eq_bind,
    Option.bind_some]
  rfl

theorem InOrder.tail (h : InOrder heap sortOrder (xs ++ ys)) : InOrder heap sortOrder ys :=
  h.sublist (List.sublist_append_right xs ys)

theorem InOrder.congr (h : InOrder heap sortOrder ns) (hw : weights heap' = weights heap) :
    InOrder heap' sortOrder ns := by
  rw [InOrder, weightOf_congr hw]
  exact h

theorem InOrder.goesFirst_both {c e : ℕ} (h : InOrder heap list.sortOrder ys)
    (hms : InOrder heap list.sortOrder (c :: ms)) (he : ys.getLast? = some e)
    (hlast : goesFirst heap list e c) (a b : ℕ) (ha : a ∈ ys) (hb : b ∈ c :: ms) :
    goesFirst heap list a b := by
  have hac := h.goesFirst_all he ha hlast
  rcases List.mem_cons.mp hb with rfl | hb
  · exact hac
  · exact mergesBefore_mono hac mayPrecede_refl (List.rel_of_pairwise_cons hms hb)

theorem mergeLoop_end {fuel : ℕ} {temp1 : Option ℕ} (hfuel : 0 < fuel)
    (hfront : list2.front = none) :
    mergeLoop fuel heap list1 list2 temp1 = some (heap, list1, list2) := by
  obtain ⟨n, rfl⟩ := Nat.exists_eq_add_one_of_ne_zero hfuel.ne'
  rw [mergeLoop, if_pos hfront]
  rfl

theorem Strung.apart_moved {r1 : List ℕ} (h2 : Strung heap list2 (cs ++ ds))
    (hdisjoint : ∀ b ∈ xs ++ (r1 ++ ys), b ∉ cs ++ ds) : ∀ b ∈ xs ++ r1 ++ cs ++ ys, b ∉ ds := by
  intro b hb hmem
  have hold : b ∉ xs ++ (r1 ++ ys) := fun hb => hdisjoint b hb (List.mem_append_right cs hmem)
  have hmoved : b ∉ cs := fun hb => (List.nodup_append'.mp h2.nodup).2.2 hb hmem
  simp only [List.mem_append, not_or] at hb hold
  tauto

theorem mergeLoop_merged {fuel : ℕ} (h1 : Strung heap list1 (xs ++ ys)) (hys : ys ≠ [])
    (h2 : Strung heap list2 ms) (hms : ms ≠ []) (hdisjoint : ∀ b ∈ xs ++ ys, b ∉ ms)
    (hsorted1 : InOrder heap list2.sortOrder ys) (hsorted2 : InOrder heap list2.sortOrder ms)
    (hsize1 : ys.length ≤ list1.size) (hsize2 : ms.length ≤ list2.size)
    (hfuel : ms.length < fuel) :
    ∃ heap' list1', mergeLoop fuel heap list1 list2 ys.head? =
        some (heap', list1', { list2 with front := none }) ∧
      weights heap' = weights heap ∧ list1'.size = list1.size ∧ SameKind list1 list1' ∧
      Strung heap' list1' (xs ++ List.merge ys ms (goesFirst heap list2)) := by
  induction fuel generalizing heap list1 list2 xs ys ms with
  | zero => exact absurd hfuel (Nat.not_lt_zero _)
  | succ fuel ih =>
    obtain ⟨c, ms, rfl⟩ := List.exists_cons_of_ne_nil hms
    obtain ⟨e, he⟩ := Option.ne_none_iff_exists'.mp (mt List.getLast?_eq_none_iff.mp hys)
    have hfront : list2.front ≠ none := by
      rw [h2.front_eq]
      exact Option.some_ne_none c
    have hpos : 0 < fuel := Nat.lt_of_lt_of_le (Nat.succ_pos _) (Nat.le_of_lt_succ hfuel)
    by_cases hlast : goesFirst heap list2 e c
    · obtain ⟨heap', hturn, hw, hstrung⟩ := mergeTurn_appended h1 h2 he hlast hdisjoint
      refine ⟨heap', { list1 with back := list2.back }, ?_, hw, rfl, ⟨rfl, rfl, rfl⟩, ?_⟩
      · rw [mergeLoop, if_neg hfront, hturn]
        -- one more turn finds the end of the second list
        exact mergeLoop_end hpos rfl
      · rw [List.merge_of_le (hsorted1.goesFirst_both hsorted2 he hlast), ← List.append_assoc]
        exact hstrung
    · obtain ⟨r1, a, r2, cs, ds, heap', list1', rfl, hcsplit, hcs, hr1, hcsNot, hturn, hw, hsize,
        -, hkind, hstrung, hrest⟩ := mergeTurn_moved h1 h2 he hsorted2 hlast hsize1
          (Nat.le_of_succ_le hsize2) hdisjoint
      have hmerge : List.merge (r1 ++ a :: r2) (c :: ms) (goesFirst heap list2) =
          r1 ++ (cs ++ List.merge (a :: r2) ds (goesFirst heap list2)) := by
        rw [merge_before hr1, hcsplit, merge_behind hcsNot]
      rw [mergeLoop, if_neg hfront, hturn]
      cases ds with
      | nil =>
        refine ⟨heap', list1', mergeLoop_end hpos rfl, hw, hsize, hkind, ?_⟩
        rw [hmerge, List.merge_right, ← List.append_assoc]
        exact hstrung
      | cons d ds =>
        have hds : d :: ds ≠ [] := List.cons_ne_nil d ds
        rw [hcsplit] at h2 hdisjoint hsorted2 hsize2 hfuel
        rw [← List.append_assoc] at hstrung
        have hshorter : (d :: ds).length < (cs ++ d :: ds).length := by
          rw [List.length_append]
          exact Nat.lt_add_of_pos_left (List.length_pos_iff.mpr hcs)
        obtain ⟨heap₂, list₂, hloop, hw₂, hsize₂, hkind₂, hstrung₂⟩ := ih hstrung
          (List.cons_ne_nil a r2) (hrest hds) hds (h2.apart_moved hdisjoint)
          (hsorted1.tail.congr hw)
          (hsorted2.tail.congr hw)
          (by rw [hsize]; exact (List.sublist_append_right r1 _).length_le.trans hsize1)
          (hshorter.le.trans hsize2) (Nat.lt_of_lt_of_le hshorter (Nat.le_of_lt_succ hfuel))
        rw [goesFirst_congr hw ⟨rfl, rfl⟩] at hstrung₂
        refine ⟨heap₂, list₂, hloop, hw₂.trans hw, hsize₂.trans hsize,
          ⟨hkind₂.1.trans hkind.1, hkind₂.2.1.trans hkind.2.1, hkind₂.2.2.trans hkind.2.2⟩, ?_⟩
        rw [hmerge, ← List.append_assoc, ← List.append_assoc]
        exact hstrung₂

/-- The nodes of both lists. Where weights are equal, those of the first list come first if new
nodes are pushed before old ones, and last if they are pushed behind them. -/
def mergedNodes (heap : Heap) (list : OrderedList) (ns ms : List ℕ) : List ℕ :=
  List.merge ns ms (goesFirst heap list)

/-- The second list ends behind the first one, or all of it comes before the first one. -/
def EndsRight (heap : Heap) (list : OrderedList) (ns ms : List ℕ) : Prop :=
  ∀ e ∈ ns.getLast?, ∀ d ∈ ms.getLast?,
    goesFirst heap list e d ∨ ∀ a ∈ ns.head?, ¬ goesFirst heap list a d

theorem mergedNodes_inOrder (h1 : InOrder heap list.sortOrder ns)
    (h2 : InOrder heap list.sortOrder ms) :
    InOrder heap list.sortOrder (mergedNodes heap list ns ms) :=
  pairwise_merge_of (fun _ _ _ hab hbc => mayPrecede_trans hab hbc)
    (fun _ _ hab => (mergesBefore_iff.mp hab).1) (fun _ _ hab => not_mergesBefore hab) h1 h2

theorem length_mergedNodes :
    (mergedNodes heap list ns ms).length = ns.length + ms.length :=
  List.length_merge ..

theorem strung_empty (hfront : list.front = none) (hback : list.back = none) :
    Strung heap list [] :=
  ⟨List.isChain_pair.mpr ⟨congrArg some hfront, congrArg some hback⟩, List.nodup_nil⟩

/-- What a merge leaves: all nodes are in the links of the first list and in its size, and its
pointer to the last one is right as far as `ends` says. -/
structure Merged (heap heap' : Heap) (list1 list1' list2' : OrderedList) (ns : List ℕ)
    (ends : Prop) : Prop where
  weights : weights heap' = weights heap
  kind : SameKind list1 list1'
  empty : Sorted heap' list2' []
  linked : Sorted heap' { list1' with back := ns.getLast? } ns
  sorted_iff : Sorted heap' list1' ns ↔ ends

theorem Merged.mk' {list1' list2' list₀ : OrderedList} {ends : Prop}
    (h1 : Sorted heap list1 ns) (hw : OrderedLists.weights heap' = OrderedLists.weights heap)
    (hkind : SameKind list1 list1') (horder : InOrder heap list1.sortOrder ms)
    (hempty : Sorted heap' list2' []) (hstrung : Strung heap' list₀ ms)
    (hfront : list1'.front = list₀.front) (hsize : list1'.size = ms.length)
    (hback : list1'.back = ms.getLast? ↔ ends) :
    Merged heap heap' list1 list1' list2' ms ends := by
  have hlinked : Sorted heap' { list1' with back := ms.getLast? } ms := by
    refine ⟨hstrung.kept (fun x _ => congrFun (nextAt_same list₀ hfront) x)
      fun x _ => congrFun (prevAt_same list₀ hstrung.back_eq.symm) x, hsize,
      hkind.2.2.trans h1.initialized, ?_⟩
    rw [hkind.1]
    exact horder.congr hw
  refine ⟨hw, hkind, hempty, hlinked, ?_⟩
  rw [← hback]
  refine ⟨fun hs => hs.strung.back_eq, fun heq => ?_⟩
  rwa [← heq] at hlinked

theorem getLast?_mergedNodes {d e : ℕ} (h1 : InOrder heap list.sortOrder ns)
    (h2 : InOrder heap list.sortOrder ms) (he : ns.getLast? = some e)
    (hd : ms.getLast? = some d) :
    (mergedNodes heap list ns ms).getLast? =
      if goesFirst heap list e d then some d else some e := by
  split
  next hed =>
    have hall : ∀ b ∈ ns, goesFirst heap list b d := fun b hb => h1.goesFirst_all he hb hed
    obtain ⟨ms, rfl⟩ := List.getLast?_eq_some_iff.mp hd
    rw [mergedNodes, merge_concat_right hall, List.getLast?_concat]
  next hed =>
    have hall : ∀ b ∈ ms, ¬ goesFirst heap list e b := fun b hb hab =>
      hed (h2.goesFirst_last hd hb hab)
    obtain ⟨ns, rfl⟩ := List.getLast?_eq_some_iff.mp he
    rw [mergedNodes, merge_concat_left hall, List.getLast?_concat]

theorem orderedListAppend_appended (h1 : Sorted heap list1 ns) (h2 : Sorted heap list2 ms)
    (hns : ns ≠ []) (hms : ms ≠ []) (hdisjoint : ∀ a ∈ ns, a ∉ ms) :
    ∃ heap' list1', orderedListAppend heap list1 list2 =
        some (heap', list1', { list2 with front := none, back := none, size := 0 }) ∧
      weights heap' = weights heap ∧ list1'.size = ns.length + ms.length ∧
      SameKind list1 list1' ∧ Strung heap' list1' (ns ++ ms) := by
  obtain ⟨heap₁, heap₂, hset₁, hset₂, hw, happend⟩ :=
    h1.strung.append h2.strung hns hms hdisjoint
  refine ⟨heap₂, { list1 with back := list2.back, size := list1.size + list2.size }, ?_, hw, ?_,
    ⟨rfl, rfl, rfl⟩, happend _ rfl rfl⟩
  · simp only [orderedListAppend, h1.ensureInit_eq, h2.ensureInit_eq, if_pos (h1.size_pos hns),
      if_pos (h2.size_pos hms), hset₁, hset₂, Option.map_some, Option.bind_eq_bind,
      Option.bind_some]
    rfl
  · rw [h1.size, h2.size]

theorem Strung.deref_front (h : Strung heap list ns) (ha : ns.head? = some a) :
    ∃ link, deref heap list.front = some link ∧ heap a = some link := by
  obtain ⟨link, hlink⟩ := Option.ne_none_iff_exists'.mp (h.allocated (List.mem_of_head? ha))
  exact ⟨link, by rw [h.front_eq, ha]; exact hlink, hlink⟩

theorem Strung.deref_back (h : Strung heap list ns) (ha : ns.getLast? = some a) :
    ∃ link, deref heap list.back = some link ∧ heap a = some link := by
  obtain ⟨link, hlink⟩ := Option.ne_none_iff_exists'.mp (h.allocated (List.mem_of_getLast? ha))
  exact ⟨link, by rw [h.back_eq, ha]; exact hlink, hlink⟩

/-- Both lists have nodes, and one of them comes before the other one as a whole. -/
def Appends (heap : Heap) (list : OrderedList) (ns ms : List ℕ) : Prop :=
  ns ≠ [] ∧ ms ≠ [] ∧ ((∀ a ∈ ns, ∀ b ∈ ms, goesFirst heap list a b) ∨
    ∀ a ∈ ns, ∀ b ∈ ms, ¬ goesFirst heap list a b)

theorem InOrder.all_first_iff {c e : ℕ} (h1 : InOrder heap list.sortOrder ns)
    (h2 : InOrder heap list.sortOrder ms) (he : ns.getLast? = some e) (hc : ms.head? = some c) :
    (∀ a ∈ ns, ∀ b ∈ ms, goesFirst heap list a b) ↔ goesFirst heap list e c := by
  refine ⟨fun hall => hall e (List.mem_of_getLast? he) c (List.mem_of_head? hc), ?_⟩
  intro hec a ha b hb
  have hac := h1.goesFirst_all he ha hec
  obtain ⟨ms, rfl⟩ := List.head?_eq_some_iff.mp hc
  rcases List.mem_cons.mp hb with rfl | hb
  · exact hac
  · exact mergesBefore_mono hac mayPrecede_refl (List.rel_of_pairwise_cons h2 hb)

theorem InOrder.none_first_iff {d : ℕ} (h1 : InOrder heap list.sortOrder ns)
    (h2 : InOrder heap list.sortOrder ms) (ha : ns.head? = some a) (hd : ms.getLast? = some d) :
    (∀ b ∈ ns, ∀ c ∈ ms, ¬ goesFirst heap list b c) ↔ ¬ goesFirst heap list a d := by
  refine ⟨fun hall => hall a (List.mem_of_head? ha) d (List.mem_of_getLast? hd), ?_⟩
  intro had b hb c hc hbc
  refine had ?_
  have hbd := h2.goesFirst_last hd hc hbc
  obtain ⟨ns, rfl⟩ := List.head?_eq_some_iff.mp ha
  rcases List.mem_cons.mp hb with rfl | hb
  · exact hbd
  · exact mergesBefore_mono hbd (List.rel_of_pairwise_cons h1 hb) mayPrecede_refl

theorem orderedListMerge_eq {a c d e : ℕ} (again : Bool) (h1 : Sorted heap list1 ns)
    (h2 : Sorted heap list2 ms)
    (hkind : list2.sortOrder = list1.sortOrder ∧ list2.pushType = list1.pushType)
    (ha : ns.head? = some a) (he : ns.getLast? = some e) (hc : ms.head? = some c)
    (hd : ms.getLast? = some d) :
    orderedListMerge again heap list1 list2 =
      if goesFirst heap list1 e c then relocked again (orderedListAppend heap list1 list2)
      else if ¬ goesFirst heap list1 a d then relocked again (orderedListAppend heap list2 list1)
      else (mergeLoop (list2.size + 1) heap list1 list2 list1.front).map fun (heap, list1, list2) =>
        (heap, { list1 with size := list1.size + list2.size, back := list2.back },
          { list2 with size := 0, back := none }) := by
  have hns : ns ≠ [] := List.ne_nil_of_mem (List.mem_of_head? ha)
  have hms : ms ≠ [] := List.ne_nil_of_mem (List.mem_of_head? hc)
  have hsize1 : list1.size ≠ 0 := Nat.ne_of_gt (h1.size_pos hns)
  have hsize2 : list2.size ≠ 0 := Nat.ne_of_gt (h2.size_pos hms)
  have hsame : ¬ (list1.sortOrder ≠ list2.sortOrder ∨ list1.pushType ≠ list2.pushType) := by
    rw [hkind.1, hkind.2]
    simp
  obtain ⟨link1, hback1, hlinkE⟩ := h1.strung.deref_back he
  obtain ⟨link2, hfront2, hlinkC⟩ := h2.strung.deref_front hc
  obtain ⟨link3, hback2, hlinkD⟩ := h2.strung.deref_back hd
  obtain ⟨link4, hfront1, hlinkA⟩ := h1.strung.deref_front ha
  have hbefore : ∀ x y linkX linkY, heap x = some linkX → heap y = some linkY →
      mergesBefore list2.sortOrder list2.pushType linkX.weight linkY.weight =
        goesFirst heap list1 x y := by
    intro x y linkX linkY hx hy
    rw [goesFirst, weightOf_eq hx, weightOf_eq hy, hkind.1, hkind.2]
  simp only [orderedListMerge, h1.ensureInit_eq, h2.ensureInit_eq, if_neg hsize1, if_neg hsize2,
    if_neg hsame, hback1, hfront2, hback2, hfront1, hbefore e c _ _ hlinkE hlinkC,
    hbefore a d _ _ hlinkA hlinkD, Option.bind_eq_bind, Option.bind_some, Option.map_eq_bind]
  rfl

theorem orderedListMerge_empty (h1 : Sorted heap list1 ns) (h2 : Sorted heap list2 ms)
    (horder : InOrder heap list1.sortOrder ms) (hempty : ns = [] ∨ ms = []) :
    ∃ heap' list1' list2', (∀ again, orderedListMerge again heap list1 list2 =
        some (heap', list1', list2')) ∧
      Merged heap heap' list1 list1' list2' (mergedNodes heap list1 ns ms)
        (EndsRight heap list1 ns ms) := by
  rcases List.eq_nil_or_concat ns with rfl | ⟨xs, e, rfl⟩
  · have hsize : list1.size = 0 := h1.size
    rw [mergedNodes, List.nil_merge]
    refine ⟨heap, { list1 with size := list2.size, front := list2.front, back := list2.back },
      { list2 with size := 0, front := none, back := none }, fun _ => ?_,
      .mk' h1 rfl ⟨rfl, rfl, rfl⟩ horder ⟨strung_empty rfl rfl, rfl, h2.initialized, .nil⟩
        h2.strung rfl h2.size (iff_of_true h2.strung.back_eq nofun)⟩
    simp only [orderedListMerge, h1.ensureInit_eq, h2.ensureInit_eq, if_pos hsize]
    rfl
  · have hns : xs.concat e ≠ [] := by simp
    obtain rfl := hempty.resolve_left hns
    have hsize1 : list1.size ≠ 0 := Nat.ne_of_gt (h1.size_pos hns)
    have hsize2 : list2.size = 0 := h2.size
    rw [mergedNodes, List.merge_right]
    refine ⟨heap, list1, list2, fun _ => ?_, .mk' h1 rfl ⟨rfl, rfl, rfl⟩ h1.sorted h2 h1.strung rfl
      h1.size (iff_of_true h1.strung.back_eq fun _ _ => nofun)⟩
    simp only [orderedListMerge, h1.ensureInit_eq, h2.ensureInit_eq, if_neg hsize1,
      if_pos hsize2]
    rfl

theorem orderedListAppend_behind (h1 : Sorted heap list1 ns) (h2 : Sorted heap list2 ms)
    (horder : InOrder heap list1.sortOrder ms) (hns : ns ≠ []) (hms : ms ≠ [])
    (hdisjoint : ∀ a ∈ ns, a ∉ ms) (hall : ∀ a ∈ ns, ∀ b ∈ ms, goesFirst heap list1 a b) :
    ∃ heap' list1' list2', orderedListAppend heap list1 list2 = some (heap', list1', list2') ∧
      Merged heap heap' list1 list1' list2' (mergedNodes heap list1 ns ms)
        (EndsRight heap list1 ns ms) := by
  have hmerged : mergedNodes heap list1 ns ms = ns ++ ms :=
    List.merge_of_le fun a b ha hb => hall a ha b hb
  have hsorted := mergedNodes_inOrder h1.sorted horder
  obtain ⟨heap', list1', happend, hw, hsize, hkind, hstrung⟩ :=
    orderedListAppend_appended h1 h2 hns hms hdisjoint
  rw [hmerged] at hsorted ⊢
  refine ⟨heap', list1', _, happend, .mk' h1 hw hkind hsorted
    ⟨strung_empty rfl rfl, rfl, h2.initialized, .nil⟩ hstrung rfl ?_ ?_⟩
  · rw [hsize, List.length_append]
  · exact iff_of_true hstrung.back_eq fun e he d hd =>
      .inl (hall e (List.mem_of_getLast? he) d (List.mem_of_getLast? hd))

theorem orderedListAppend_before (h1 : Sorted heap list1 ns) (h2 : Sorted heap list2 ms)
    (hkind : list2.sortOrder = list1.sortOrder ∧ list2.pushType = list1.pushType)
    (hns : ns ≠ []) (hms : ms ≠ []) (hdisjoint : ∀ a ∈ ns, a ∉ ms)
    (hall : ∀ a ∈ ns, ∀ b ∈ ms, ¬ goesFirst heap list1 a b) :
    ∃ heap' list1' list2', orderedListAppend heap list2 list1 = some (heap', list1', list2') ∧
      Merged heap heap' list1 list1' list2' (mergedNodes heap list1 ns ms)
        (EndsRight heap list1 ns ms) := by
  obtain ⟨a, xs, rfl⟩ := List.exists_cons_of_ne_nil hns
  have hmerged : mergedNodes heap list1 (a :: xs) ms = ms ++ a :: xs := by
    have hbehind := @merge_behind _ (goesFirst heap list1) a xs ms [] (hall a List.mem_cons_self)
    rwa [List.append_nil, List.merge_right] at hbehind
  have hsorted := mergedNodes_inOrder h1.sorted (hkind.1 ▸ h2.sorted)
  obtain ⟨heap', list1', happend, hw, hsize, hkind', hstrung⟩ :=
    orderedListAppend_appended h2 h1 hms hns fun b hb hb' => hdisjoint b hb' hb
  rw [hmerged] at hsorted ⊢
  have hkind₁ : SameKind list1 list1' := ⟨hkind'.1.trans hkind.1, hkind'.2.1.trans hkind.2,
    hkind'.2.2.trans (h2.initialized.trans h1.initialized.symm)⟩
  refine ⟨heap', list1', _, happend, .mk' h1 hw hkind₁ hsorted
    ⟨strung_empty rfl rfl, rfl, h1.initialized, .nil⟩ hstrung rfl ?_ ?_⟩
  · rw [hsize, List.length_append]
  · refine iff_of_true hstrung.back_eq fun _ _ d hd => .inr fun b hb => ?_
    obtain rfl : a = b := Option.some_inj.mp hb
    exact hall a List.mem_cons_self d (List.mem_of_getLast? hd)

theorem mergeLoop_between {a d e : ℕ} (h1 : Sorted heap list1 ns) (h2 : Sorted heap list2 ms)
    (hkind : list2.sortOrder = list1.sortOrder ∧ list2.pushType = list1.pushType)
    (hdisjoint : ∀ a ∈ ns, a ∉ ms) (ha : ns.head? = some a) (he : ns.getLast? = some e)
    (hd : ms.getLast? = some d) (hfirst : goesFirst heap list1 a d) :
    ∃ heap' list₀ list₀', mergeLoop (list2.size + 1) heap list1 list2 list1.front =
        some (heap', list₀, list₀') ∧
      Merged heap heap' list1 { list₀ with size := list₀.size + list₀'.size, back := list₀'.back }
        { list₀' with size := 0, back := none } (mergedNodes heap list1 ns ms)
        (EndsRight heap list1 ns ms) := by
  have hns : ns ≠ [] := List.ne_nil_of_mem (List.mem_of_head? ha)
  have hms : ms ≠ [] := List.ne_nil_of_mem (List.mem_of_getLast? hd)
  have horder2 : InOrder heap list1.sortOrder ms := hkind.1 ▸ h2.sorted
  obtain ⟨heap', list₀, hloop, hw, hsize, hkind', hstrung⟩ := @mergeLoop_merged heap list1 list2
    ms [] ns (list2.size + 1) h1.strung hns h2.strung hms hdisjoint (hkind.1 ▸ h1.sorted)
    h2.sorted h1.size.ge h2.size.ge (by rw [h2.size]; exact Nat.lt_succ_self _)
  rw [goesFirst_congr rfl hkind] at hstrung
  rw [h1.strung.front_eq]
  refine ⟨heap', list₀, _, hloop, .mk' h1 hw hkind' (mergedNodes_inOrder h1.sorted horder2)
    ⟨strung_empty rfl rfl, rfl, h2.initialized, .nil⟩ hstrung rfl ?_ ?_⟩
  · rw [length_mergedNodes, ← h1.size, ← h2.size]
    exact congrArg (· + list2.size) hsize
  · have hends : EndsRight heap list1 ns ms ↔ goesFirst heap list1 e d := by
      simp only [EndsRight, ha, he, hd, Option.mem_some_iff, forall_eq', hfirst, not_true_eq_false,
        or_false]
    rw [hends, getLast?_mergedNodes h1.sorted horder2 he hd, h2.strung.back_eq, hd]
    split
    next hed => exact iff_of_true rfl hed
    next hed =>
      refine iff_of_false (fun heq => ?_) hed
      obtain rfl := Option.some_inj.mp heq
      exact hdisjoint d (List.mem_of_getLast? he) (List.mem_of_getLast? hd)

/-- `ordered_list_merge` puts all nodes into the first list in their order, with every link
between them and the size right; the pointer to the last node is right exactly if the second
list ends behind the first one or comes before it as a whole. Where it would append a list, it
waits for itself unless the locks can be taken again. -/
theorem orderedListMerge_merged (h1 : Sorted heap list1 ns) (h2 : Sorted heap list2 ms)
    (hkind : list2.sortOrder = list1.sortOrder ∧ list2.pushType = list1.pushType)
    (hdisjoint : ∀ a ∈ ns, a ∉ ms) :
    (Appends heap list1 ns ms → orderedListMerge false heap list1 list2 = none) ∧
      ∃ heap' list1' list2', (∀ again, again = true ∨ ¬ Appends heap list1 ns ms →
          orderedListMerge again heap list1 list2 = some (heap', list1', list2')) ∧
        Merged heap heap' list1 list1' list2' (mergedNodes heap list1 ns ms)
          (EndsRight heap list1 ns ms) := by
  have horder : InOrder heap list1.sortOrder ms := hkind.1 ▸ h2.sorted
  by_cases hempty : ns = [] ∨ ms = []
  · refine ⟨fun happends => absurd hempty (not_or.mpr ⟨happends.1, happends.2.1⟩), ?_⟩
    obtain ⟨heap', list1', list2', hmerge, hmerged⟩ :=
      orderedListMerge_empty h1 h2 horder hempty
    exact ⟨heap', list1', list2', fun again _ => hmerge again, hmerged⟩
  obtain ⟨hns, hms⟩ := not_or.mp hempty
  obtain ⟨a, ha⟩ := Option.ne_none_iff_exists'.mp (mt List.head?_eq_none_iff.mp hns)
  obtain ⟨e, he⟩ := Option.ne_none_iff_exists'.mp (mt List.getLast?_eq_none_iff.mp hns)
  obtain ⟨c, hc⟩ := Option.ne_none_iff_exists'.mp (mt List.head?_eq_none_iff.mp hms)
  obtain ⟨d, hd⟩ := Option.ne_none_iff_exists'.mp (mt List.getLast?_eq_none_iff.mp hms)
  have heq := fun again => orderedListMerge_eq again h1 h2 hkind ha he hc hd
  have hbehindIff := h1.sorted.all_first_iff horder he hc
  have hbeforeIff := h1.sorted.none_first_iff horder ha hd
  by_cases hbehind : goesFirst heap list1 e c
  · have hall := hbehindIff.mpr hbehind
    obtain ⟨heap', list1', list2', happend, hmerged⟩ :=
      orderedListAppend_behind h1 h2 horder hns hms hdisjoint hall
    refine ⟨fun _ => by rw [heq, if_pos hbehind]; rfl, heap', list1', list2', ?_, hmerged⟩
    intro again hagain
    obtain rfl := hagain.resolve_right (not_not_intro ⟨hns, hms, .inl hall⟩)
    rw [heq, if_pos hbehind]
    exact happend
  by_cases hfirst : goesFirst heap list1 a d
  · have hnot : ¬ Appends heap list1 ns ms := by
      rintro ⟨-, -, hall | hall⟩
      · exact hbehind (hbehindIff.mp hall)
      · exact hbeforeIff.mp hall hfirst
    refine ⟨fun happends => absurd happends hnot, ?_⟩
    obtain ⟨heap', list₀, list₀', hloop, hmerged⟩ :=
      mergeLoop_between h1 h2 hkind hdisjoint ha he hd hfirst
    refine ⟨heap', _, _, fun again _ => ?_, hmerged⟩
    rw [heq, if_neg hbehind, if_neg (not_not_intro hfirst), hloop]
    rfl
  · have hall := hbeforeIff.mpr hfirst
    obtain ⟨heap', list1', list2', happend, hmerged⟩ :=
      orderedListAppend_before h1 h2 hkind hns hms hdisjoint hall
    refine ⟨fun _ => by rw [heq, if_neg hbehind, if_pos hfirst]; rfl, heap', list1', list2', ?_,
      hmerged⟩
    intro again hagain
    obtain rfl := hagain.resolve_right (not_not_intro ⟨hns, hms, .inr hall⟩)
    rw [heq, if_neg hbehind, if_pos hfirst]
    exact happend

def threeLists : Heap
  | 1 => some ⟨some 2, none, 1⟩
  | 2 => some ⟨none, some 1, 5⟩
  | 3 => some ⟨none, none, 3⟩
  | 4 => some ⟨none, none, 7⟩
  | _ => none

def longList : OrderedList := ⟨some 1, some 2, 2, .ascending, .slt, true⟩

def middleList : OrderedList := ⟨some 3, some 3, 1, .ascending, .slt, true⟩

def lateList : OrderedList := ⟨some 4, some 4, 1, .ascending, .slt, true⟩

/-- The node of weight 3 goes between the others and is taken for the last one. For that of
weight 7 the locks are taken twice. -/
theorem orderedListMerge_merged_middle : (∃ heap' list1' list2',
    orderedListMerge false threeLists longList middleList = some (heap', list1', list2') ∧
      Sorted heap' { list1' with back := some 2 } [1, 3, 2] ∧ ¬ Sorted heap' list1' [1, 3, 2]) ∧
    orderedListMerge false threeLists longList lateList = none := by
  have hlong : Sorted threeLists longList [1, 2] :=
    ⟨⟨List.isChain_cons_cons.mpr ⟨⟨rfl, rfl⟩, List.isChain_cons_cons.mpr ⟨⟨rfl, rfl⟩,
      List.isChain_pair.mpr ⟨rfl, rfl⟩⟩⟩, by decide⟩, rfl, rfl, List.pairwise_pair.mpr rfl⟩
  have hmiddle : Sorted threeLists middleList [3] :=
    ⟨⟨List.isChain_cons_cons.mpr ⟨⟨rfl, rfl⟩, List.isChain_pair.mpr ⟨rfl, rfl⟩⟩, by decide⟩,
      rfl, rfl, List.pairwise_singleton _ 3⟩
  have hlate : Sorted threeLists lateList [4] :=
    ⟨⟨List.isChain_cons_cons.mpr ⟨⟨rfl, rfl⟩, List.isChain_pair.mpr ⟨rfl, rfl⟩⟩, by decide⟩,
      rfl, rfl, List.pairwise_singleton _ 4⟩
  have hmerged : mergedNodes threeLists longList [1, 2] [3] = [1, 3, 2] := by
    rw [mergedNodes, List.cons_merge_cons_pos _ _ _ rfl, List.cons_merge_cons_neg _ _ _ (by decide),
      List.merge_right]
  have hnot : ¬ Appends threeLists longList [1, 2] [3] := by
    rintro ⟨-, -, hall | hall⟩
    · exact absurd (hall 2 (by simp) 3 (by simp)) (by decide)
    · exact hall 1 (by simp) 3 (by simp) rfl
  refine ⟨?_, (orderedListMerge_merged hlong hlate ⟨rfl, rfl⟩ (by decide)).1
    ⟨nofun, nofun, .inl (by decide)⟩⟩
  obtain ⟨-, heap', list1', list2', hmerge, hmergedList⟩ :=
    orderedListMerge_merged hlong hmiddle ⟨rfl, rfl⟩ (by decide)
  rw [hmerged] at hmergedList
  refine ⟨heap', list1', list2', hmerge false (.inr hnot), hmergedList.linked, fun hsorted => ?_⟩
  rcases hmergedList.sorted_iff.mp hsorted 2 rfl 3 rfl with h | h
  · exact absurd h (by decide)
  · exact h 1 rfl rfl

end OrderedLists
