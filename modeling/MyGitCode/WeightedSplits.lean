import MyGitCode.WeightedMerges

/-! # Splitting ordered lists

`ordered_list_split` and what `ordered_list_merge` makes of the two parts. -/
namespace OrderedLists

open LinkRings OrderedMerges

/-- The loop of `ordered_list_split` to the node before the item, which counts the nodes. -/
def findBeforeItem (heap : Heap) (item : ℕ) :
    ℕ → Option ℕ → ℕ → Option (Option ℕ × ℕ)
  | 0, _, _ => none
  | fuel + 1, temp, count => do
    let link ← deref heap temp
    if link.next = some item then return (temp, count)
    else findBeforeItem heap item fuel link.next (count + 1)

def orderedListSplit (heap : Heap) (list1 : OrderedList) (item : ℕ) (list2 : OrderedList) :
    Option (Heap × OrderedList × OrderedList) := do
  let totalSize := list1.size
  let list1 := ensureInit list1
  let list2 := ensureInit list2
  let (heap, list1, temp, count) ← (if list1.front ≠ some item then do
      let (temp, count) ← findBeforeItem heap item totalSize list1.front 1
      let heap ← setNext heap temp none
      return (heap, list1, temp, count)
    else some (heap, { list1 with front := none }, none, 0))
  let heap ← setPrev heap (some item) none
  return (heap, { list1 with back := temp, size := count },
    { list2 with front := some item, back := list1.back, size := totalSize - count })

variable {heap heap' : Heap} {list list' list1 list2 : OrderedList} {ns ms xs ys zs : List ℕ}
  {a b item : ℕ}

theorem findBeforeItem_eq {fuel count : ℕ}
    (h : Strung heap list (zs ++ b :: (xs ++ item :: ys))) (hfuel : xs.length < fuel) :
    findBeforeItem heap item fuel (some b) count =
      some ((b :: xs).getLast?, count + xs.length) := by
  induction xs generalizing zs b fuel count with
  | nil =>
    obtain ⟨fuel, rfl⟩ := Nat.exists_eq_add_one_of_ne_zero (Nat.ne_of_gt hfuel)
    obtain ⟨link, hlink, hnext, -⟩ := h.link_eq
    have hitem : link.next = some item := hnext
    simp only [findBeforeItem, deref, Option.bind_some, hlink, hitem, Option.bind_eq_bind,
      if_true]
    rfl
  | cons c xs ih =>
    obtain ⟨fuel, rfl⟩ :=
      Nat.exists_eq_add_one_of_ne_zero (Nat.ne_of_gt (Nat.zero_lt_of_lt hfuel))
    obtain ⟨link, hlink, hnext, -⟩ := h.link_eq
    have hc : link.next = some c := hnext
    have hne : some c ≠ some item := by
      rintro heq
      obtain rfl := Option.some_inj.mp heq
      have hnodup := (List.nodup_cons.mp (List.nodup_append'.mp h.nodup).2.1).2
      exact (List.nodup_append'.mp hnodup).2.2 List.mem_cons_self List.mem_cons_self
    rw [← List.singleton_append, ← List.append_assoc] at h
    simp only [findBeforeItem, deref, Option.bind_some, hlink, hc, Option.bind_eq_bind,
      if_neg hne]
    rw [ih h (Nat.lt_of_succ_lt_succ hfuel), List.getLast?_cons_cons, List.length_cons,
      Nat.add_assoc, Nat.add_comm 1]

theorem Strung.part (h : Strung heap list (xs ++ (zs ++ ys))) (hzs : zs ≠ [])
    (hnext : ∀ a ∈ zs, some a ≠ zs.getLast? → nextOf heap' a = nextOf heap a)
    (hprev : ∀ a ∈ zs, some a ≠ zs.head? → prevOf heap' a = prevOf heap a)
    (hfirst : Linked heap' list' none zs.head?) (hlast : Linked heap' list' zs.getLast? none) :
    Strung heap' list' zs := by
  have hnodup : zs.Nodup := (List.nodup_append'.mp (List.nodup_append'.mp h.nodup).2.1).1
  refine ⟨?_, hnodup⟩
  have hring := h.ring
  rw [List.map_append, List.map_append] at hring
  have hchain : List.IsChain (Linked heap list) (zs.map some) := by
    have hright := (ring_append.mp hring).2.1
    rw [List.append_assoc] at hright
    exact hright.left_of_append
  have hring' : Ring (Linked heap' list') none ([] ++ zs.map some) := by
    refine ring_append.mpr ⟨.singleton none, List.isChain_append.mpr ⟨?_, .singleton none, ?_⟩, ?_⟩
    · refine chain_congr hchain fun x hx y hy hlink => ?_
      have hmapNodup := nodup_some hnodup
      have hxe : x ≠ zs.getLast? := by
        rw [← getLastD_some]
        refine ne_last hmapNodup ?_
        rw [List.dropLast_cons_of_ne_nil (by simpa using hzs)]
        exact List.mem_cons_of_mem _ hx
      have hyc : y ≠ zs.head? := by
        rintro rfl
        obtain ⟨c, zs, rfl⟩ := List.exists_cons_of_ne_nil hzs
        exact (List.nodup_cons.mp (List.nodup_cons.mp hmapNodup).2).1 hy
      obtain ⟨a, ha, rfl⟩ := List.mem_map.mp (List.dropLast_subset _ hx)
      obtain ⟨b, hb, rfl⟩ := List.mem_map.mp (List.mem_of_mem_tail hy)
      exact ⟨(hnext a ha hxe).trans hlink.1, (hprev b hb hyc).trans hlink.2⟩
    · obtain ⟨e, he⟩ := Option.ne_none_iff_exists'.mp (mt List.getLast?_eq_none_iff.mp hzs)
      rw [he] at hlast
      rw [List.getLast?_map, he]
      simpa using hlast
    · rw [headD_some]
      exact hfirst
  exact hring'

theorem Strung.given (h : Strung heap list1 (xs ++ item :: ys))
    (hnext : ∀ a ∈ item :: ys, nextOf heap' a = nextOf heap a)
    (hprev : prevAt heap' list1 =
      Function.update (prevAt heap list1) (some item) (some none))
    (hfront : list'.front = some item) (hback : list'.back = list1.back) :
    Strung heap' list' (item :: ys) := by
  have hne : item :: ys ≠ [] := List.cons_ne_nil item ys
  obtain ⟨zs, e, hzs⟩ := (List.eq_nil_or_concat (item :: ys)).resolve_left hne
  rw [List.concat_eq_append] at hzs
  have hlast : (item :: ys).getLast? = some e := by
    rw [hzs, List.getLast?_concat]
  have hpart : Strung heap list1 (xs ++ ((item :: ys) ++ [])) := by
    rwa [List.append_nil]
  refine hpart.part hne (fun a ha _ => hnext a ha) (fun a _ hfirst => ?_)
    ⟨congrArg some hfront, ?_⟩ ⟨?_, ?_⟩
  · exact (congrFun hprev (some a)).trans (Function.update_of_ne hfirst ..)
  · exact (congrFun hprev (some item)).trans (Function.update_self ..)
  · have hfar : Strung heap list1 ((xs ++ zs) ++ e :: []) := by
      rwa [List.append_assoc, ← hzs]
    rw [hlast]
    exact (hnext e (List.mem_of_getLast? hlast)).trans hfar.around.1
  · change some list'.back = _
    rw [hback, h.back_eq, List.getLast?_append, hlast]
    rfl

theorem Strung.retained (h : Strung heap list1 (xs ++ b :: ys))
    (hnext : nextAt heap' list1 = Function.update (nextAt heap list1) (some b) (some none))
    (hprev : ∀ a ∈ xs ++ [b], prevOf heap' a = prevOf heap a)
    (hfront : list'.front = list1.front) (hback : list'.back = some b) :
    Strung heap' list' (xs ++ [b]) := by
  have hne : xs ++ [b] ≠ [] := List.concat_ne_nil b xs
  obtain ⟨f, zs, hzs⟩ := List.exists_cons_of_ne_nil hne
  rw [List.append_cons] at h
  have hnear : Strung heap list1 ([] ++ f :: (zs ++ ys)) := by
    rwa [hzs] at h
  have hpart : Strung heap list1 ([] ++ ((xs ++ [b]) ++ ys)) := h
  refine hpart.part hne (fun a _ hlast => ?_) (fun a ha _ => hprev a ha) ⟨?_, ?_⟩ ⟨?_, ?_⟩
  · rw [List.getLast?_concat] at hlast
    exact (congrFun hnext (some a)).trans (Function.update_of_ne hlast ..)
  · change some list'.front = _
    rw [hfront, hnear.front_eq, hzs]
    rfl
  · have hf : f ∈ xs ++ [b] := hzs ▸ List.mem_cons_self
    rw [hzs]
    exact (hprev f hf).trans hnear.around.2
  · rw [List.getLast?_concat]
    exact (congrFun hnext (some b)).trans (Function.update_self ..)
  · rw [List.getLast?_concat]
    exact congrArg some hback

theorem Sorted.split_front (h : Sorted heap list1 (item :: ys))
    (hinit : list2.initialized = true) :
    ∃ heap' list1' list2', orderedListSplit heap list1 item list2 =
        some (heap', list1', list2') ∧
      weights heap' = weights heap ∧ SameKind list1 list1' ∧ SameKind list2 list2' ∧
      Strung heap' list1' [] ∧ list1'.size = 0 ∧
      Strung heap' list2' (item :: ys) ∧ list2'.size = ys.length + 1 := by
  have hinit2 : ensureInit list2 = list2 := if_pos hinit
  have hitem : heap item ≠ none := h.strung.allocated List.mem_cons_self
  have hfront : list1.front = some item := h.strung.front_eq
  obtain ⟨heap₁, hset₁, hw₁, hat₁⟩ := setPrev_some hitem none
  refine ⟨heap₁, { list1 with front := none, back := none, size := 0 },
    { list2 with front := some item, back := list1.back, size := list1.size - 0 }, ?_, hw₁,
    ⟨rfl, rfl, rfl⟩, ⟨rfl, rfl, rfl⟩, strung_empty rfl rfl, rfl, ?_, ?_⟩
  · simp only [orderedListSplit, h.ensureInit_eq, hinit2, hfront, ne_eq, not_true_eq_false,
      if_false, Option.bind_eq_bind, Option.bind_some, hset₁]
    rfl
  · have hstrung : Strung heap list1 ([] ++ item :: ys) := h.strung
    exact hstrung.given (fun a _ => congrFun (hat₁ list1).1 (some a)) (hat₁ list1).2 rfl rfl
  · exact h.size

theorem Sorted.split_behind (h : Sorted heap list1 (xs ++ [b] ++ item :: ys))
    (hinit : list2.initialized = true) :
    ∃ heap' list1' list2', orderedListSplit heap list1 item list2 =
        some (heap', list1', list2') ∧
      weights heap' = weights heap ∧ SameKind list1 list1' ∧ SameKind list2 list2' ∧
      Strung heap' list1' (xs ++ [b]) ∧ list1'.size = (xs ++ [b]).length ∧
      Strung heap' list2' (item :: ys) ∧ list2'.size = ys.length + 1 := by
  have hinit2 : ensureInit list2 = list2 := if_pos hinit
  have hitem : heap item ≠ none := h.strung.allocated (by simp)
  have htotal := h.size
  rw [List.length_append, List.length_cons] at htotal
  have hb : heap b ≠ none := h.strung.allocated (by simp)
  obtain ⟨heap₁, hset₁, hw₁, hat₁⟩ := setNext_some hb none
  obtain ⟨heap₂, hset₂, hw₂, hat₂⟩ := setPrev_some (allocated_of_weights hw₁ hitem) none
  have hnext : nextAt heap₂ list1 =
      Function.update (nextAt heap list1) (some b) (some none) :=
    (hat₂ list1).1.trans (hat₁ list1).1
  have hprev : prevAt heap₂ list1 =
      Function.update (prevAt heap list1) (some item) (some none) := by
    rw [(hat₂ list1).2, (hat₁ list1).2]
  have hdisjoint := (List.nodup_append'.mp h.strung.nodup).2.2
  obtain ⟨f, zs, hzs⟩ := List.exists_cons_of_ne_nil (List.concat_ne_nil b xs)
  have hfront : list1.front = some f := by
    rw [h.strung.front_eq, hzs]
    rfl
  have hfrontNe : list1.front ≠ some item := by
    rw [hfront]
    rintro heq
    have hf : f ∈ xs ++ [b] := hzs ▸ List.mem_cons_self
    exact hdisjoint hf (Option.some_inj.mp heq ▸ List.mem_cons_self)
  have hfind : findBeforeItem heap item list1.size list1.front 1 =
      some (some b, (xs ++ [b]).length) := by
    have hstrung : Strung heap list1 ([] ++ f :: (zs ++ item :: ys)) := by
      have hall := h.strung
      rwa [hzs] at hall
    have hlength : (xs ++ [b]).length = zs.length + 1 := congrArg List.length hzs
    have hfuel : zs.length < list1.size := by omega
    rw [hfront, findBeforeItem_eq hstrung hfuel, ← hzs, List.getLast?_concat, hlength,
      Nat.add_comm]
  refine ⟨heap₂, { list1 with back := some b, size := (xs ++ [b]).length },
    { list2 with
      front := some item, back := list1.back, size := list1.size - (xs ++ [b]).length },
    ?_, hw₂.trans hw₁, ⟨rfl, rfl, rfl⟩, ⟨rfl, rfl, rfl⟩, ?_, rfl, ?_, ?_⟩
  · simp only [orderedListSplit, h.ensureInit_eq, hinit2, hfrontNe, ne_eq, not_false_eq_true,
      if_true, Option.bind_eq_bind, Option.bind_some, hfind, hset₁, Option.pure_def, hset₂]
  · have hstrung := h.strung
    rw [← List.append_cons] at hstrung
    refine hstrung.retained hnext (fun a ha => ?_) rfl rfl
    refine (congrFun hprev (some a)).trans (Function.update_of_ne ?_ ..)
    rintro heq
    exact hdisjoint ha (Option.some_inj.mp heq ▸ List.mem_cons_self)
  · refine h.strung.given (fun a ha => ?_) hprev rfl rfl
    refine (congrFun hnext (some a)).trans (Function.update_of_ne ?_ ..)
    rintro heq
    exact hdisjoint (List.mem_concat_self) (Option.some_inj.mp heq ▸ ha)
  · change list1.size - (xs ++ [b]).length = ys.length + 1
    omega

theorem Sorted.split (h : Sorted heap list1 (xs ++ item :: ys))
    (hinit : list2.initialized = true) :
    ∃ heap' list1' list2', orderedListSplit heap list1 item list2 =
        some (heap', list1', list2') ∧
      weights heap' = weights heap ∧ SameKind list1 list1' ∧ SameKind list2 list2' ∧
      Strung heap' list1' xs ∧ list1'.size = xs.length ∧
      Strung heap' list2' (item :: ys) ∧ list2'.size = ys.length + 1 := by
  rcases List.eq_nil_or_concat xs with rfl | ⟨xs, b, rfl⟩
  · exact h.split_front hinit
  · rw [List.concat_eq_append] at h ⊢
    exact h.split_behind hinit

theorem Strung.unique (h : Strung heap list ns) (h' : Strung heap list' ms)
    (hfront : list'.front = list.front) : ns = ms := by
  have hring : Ring (fun x y => nextAt heap list x = some y) none (ns.map some) :=
    h.ring.congr fun _ _ _ _ hlink => hlink.1
  have hring' : Ring (fun x y => nextAt heap list x = some y) none (ms.map some) := by
    refine h'.ring.congr fun _ _ _ _ hlink => ?_
    rw [← nextAt_same list hfront]
    exact hlink.1
  have heq := hring.unique hring' (fun _ _ _ hb hc => Option.some_inj.mp (hb.symm.trans hc))
    (by simp) (by simp)
  exact List.map_injective_iff.mpr (fun _ _ => Option.some_inj.mp) heq

theorem mayPrecede_both {sortOrder : SortOrder} {v w : ℕ} (h : mayPrecede sortOrder v w) :
    mayPrecede sortOrder w v ↔ v = w := by
  cases sortOrder <;> simp only [mayPrecede, decide_eq_true_eq, ge_iff_le] at * <;> omega

theorem goesFirst_iff (h : mayPrecede list.sortOrder (weightOf heap a) (weightOf heap b)) :
    goesFirst heap list a b ↔ (list.pushType = .lte → weightOf heap a ≠ weightOf heap b) := by
  rw [goesFirst, mergesBefore_iff, and_iff_right h, mayPrecede_both h]

theorem Sorted.goesFirst_iff (h : Sorted heap list1 (xs ++ ys)) (ha : a ∈ xs) (hb : b ∈ ys) :
    goesFirst heap list1 a b ↔ (list1.pushType = .lte → weightOf heap a ≠ weightOf heap b) :=
  OrderedLists.goesFirst_iff ((List.pairwise_append.mp h.sorted).2.2 a ha b hb)

theorem Sorted.all_first_iff (h : Sorted heap list1 (xs ++ item :: ys)) :
    (∀ a ∈ xs, ∀ b ∈ item :: ys, goesFirst heap list1 a b) ↔
      (list1.pushType = .lte → ∀ a ∈ xs, weightOf heap a ≠ weightOf heap item) := by
  obtain ⟨-, horder, -⟩ := List.pairwise_append.mp h.sorted
  refine ⟨fun hall hlte a ha => ?_, fun hne a ha b hb => ?_⟩
  · exact (h.goesFirst_iff ha List.mem_cons_self).mp (hall a ha item List.mem_cons_self) hlte
  · have hitem : goesFirst heap list1 a item :=
      (h.goesFirst_iff ha List.mem_cons_self).mpr fun hlte => hne hlte a ha
    rcases List.mem_cons.mp hb with rfl | hb
    · exact hitem
    · exact mergesBefore_mono hitem mayPrecede_refl (List.rel_of_pairwise_cons horder hb)

theorem Sorted.not_appends_iff (h : Sorted heap list1 (xs ++ item :: ys)) :
    ¬ Appends heap list1 xs (item :: ys) ↔ xs = [] ∨ (list1.pushType = .lte ∧
      (∃ a ∈ xs, weightOf heap a = weightOf heap item) ∧
      ∃ a ∈ xs, ∃ b ∈ item :: ys, weightOf heap a ≠ weightOf heap b) := by
  have hfirst : ∀ a ∈ xs, ∀ b ∈ item :: ys, goesFirst heap list1 a b ↔
      (list1.pushType = .lte → weightOf heap a ≠ weightOf heap b) :=
    fun a ha b hb => h.goesFirst_iff ha hb
  rw [Appends, h.all_first_iff]
  constructor
  · intro hnot
    by_cases hxs : xs = []
    · exact .inl hxs
    rw [not_and, not_and, not_or] at hnot
    obtain ⟨hall, hsome⟩ := hnot hxs (List.cons_ne_nil item ys)
    push Not at hall hsome
    obtain ⟨hlte, hequal⟩ := hall
    obtain ⟨a, ha, b, hb, hab⟩ := hsome
    exact .inr ⟨hlte, hequal, a, ha, b, hb, (hfirst a ha b hb).mp hab hlte⟩
  · rintro (rfl | ⟨hlte, ⟨a, ha, hequal⟩, c, hc, b, hb, hcb⟩) ⟨hxs, -, hwhole⟩
    · exact hxs rfl
    rcases hwhole with hall | hsome
    · exact hall hlte a ha hequal
    · exact hsome c hc b hb ((hfirst c hc b hb).mpr fun _ => hcb)

/-- A merge of the parts of a list gives the list back, but not where equal weights were split
at and new nodes go behind them: there the second part comes first. It has a result only if the
locks can be taken again or neither part comes before the other one as a whole. -/
theorem split_merge (h : Sorted heap list1 (xs ++ item :: ys))
    (hinit : list2.initialized = true)
    (hkind : list2.sortOrder = list1.sortOrder ∧ list2.pushType = list1.pushType) :
    ∃ heap₁ part1 part2 heap₂ merged1 merged2,
      orderedListSplit heap list1 item list2 = some (heap₁, part1, part2) ∧
      Sorted heap₁ part1 xs ∧ Sorted heap₁ part2 (item :: ys) ∧
      (∀ again, orderedListMerge again heap₁ part1 part2 = some (heap₂, merged1, merged2) ↔
        again = true ∨ xs = [] ∨ (list1.pushType = .lte ∧
          (∃ a ∈ xs, weightOf heap a = weightOf heap item) ∧
          ∃ a ∈ xs, ∃ b ∈ item :: ys, weightOf heap a ≠ weightOf heap b)) ∧
      Sorted heap₂ merged2 [] ∧
      (Sorted heap₂ merged1 (xs ++ item :: ys) ↔
        (list1.pushType = .lte → ∀ a ∈ xs, weightOf heap a ≠ weightOf heap item)) := by
  obtain ⟨heap₁, part1, part2, hsplit, hw, hkind1, hkind2, hstrung1, hsize1, hstrung2, hsize2⟩ :=
    h.split hinit
  obtain ⟨horder1, horder2, -⟩ := List.pairwise_append.mp h.sorted
  have hnodup := List.nodup_append'.mp h.strung.nodup
  have hpart1 : Sorted heap₁ part1 xs := by
    refine ⟨hstrung1, hsize1, hkind1.2.2.trans h.initialized, ?_⟩
    rw [hkind1.1]
    exact InOrder.congr horder1 hw
  have hpart2 : Sorted heap₁ part2 (item :: ys) := by
    refine ⟨hstrung2, hsize2, hkind2.2.2.trans hinit, ?_⟩
    rw [hkind2.1, hkind.1]
    exact InOrder.congr horder2 hw
  have hsame : part2.sortOrder = part1.sortOrder ∧ part2.pushType = part1.pushType := by
    rw [hkind1.1, hkind1.2.1, hkind2.1, hkind2.2.1]
    exact hkind
  obtain ⟨hlocked, heap₂, merged1, merged2, hmerge, hmerged⟩ :=
    orderedListMerge_merged hpart1 hpart2 hsame fun a ha ha' => hnodup.2.2 ha ha'
  have hgoes : goesFirst heap₁ part1 = goesFirst heap list1 :=
    goesFirst_congr hw ⟨hkind1.1, hkind1.2.1⟩
  have happends : Appends heap₁ part1 xs (item :: ys) ↔ Appends heap list1 xs (item :: ys) := by
    rw [Appends, Appends, hgoes]
  have hitem : item ∉ xs := fun hmem => hnodup.2.2 hmem List.mem_cons_self
  have hall := h.all_first_iff
  refine ⟨heap₁, part1, part2, heap₂, merged1, merged2, hsplit, hpart1, hpart2, fun again => ?_,
    hmerged.empty, ?_⟩
  · rw [← h.not_appends_iff, ← happends]
    refine ⟨fun hsome => ?_, hmerge again⟩
    cases again with
    | true => exact .inl rfl
    | false => exact .inr fun hboth => absurd (hsome.symm.trans (hlocked hboth)) nofun
  rw [← hall]
  have hlinked := hmerged.linked
  constructor
  · intro hsorted
    have heq : mergedNodes heap₁ part1 xs (item :: ys) = xs ++ item :: ys :=
      hlinked.strung.unique hsorted.strung rfl
    rw [mergedNodes, hgoes, merge_eq_append_iff hitem] at heq
    exact hall.mpr fun hlte a ha =>
      (h.goesFirst_iff ha List.mem_cons_self).mp (heq a ha) hlte
  · intro hfirst
    have heq : mergedNodes heap₁ part1 xs (item :: ys) = xs ++ item :: ys := by
      rw [mergedNodes, hgoes]
      exact List.merge_of_le fun a b ha hb => hfirst a ha b hb
    have hsorted := hmerged.sorted_iff.mpr
    rw [heq] at hsorted
    refine hsorted fun e he d hd => .inl ?_
    rw [hgoes]
    exact hfirst e (List.mem_of_getLast? he) d (List.mem_of_getLast? hd)

def equalPair : Heap
  | 1 => some ⟨some 2, none, 4⟩
  | 2 => some ⟨some 3, some 1, 4⟩
  | 3 => some ⟨none, some 2, 6⟩
  | _ => none

def equalList : OrderedList := ⟨some 1, some 3, 3, .ascending, .lte, true⟩

theorem split_merge_equal : ∃ heap₁ part1 part2 heap₂ merged1 merged2,
    orderedListSplit equalPair equalList 2 ⟨none, none, 0, .ascending, .lte, true⟩ =
      some (heap₁, part1, part2) ∧
    orderedListMerge false heap₁ part1 part2 = some (heap₂, merged1, merged2) ∧
    ¬ Sorted heap₂ merged1 [1, 2, 3] := by
  have hsorted : Sorted equalPair equalList ([1] ++ 2 :: [3]) :=
    ⟨⟨List.isChain_cons_cons.mpr ⟨⟨rfl, rfl⟩, List.isChain_cons_cons.mpr ⟨⟨rfl, rfl⟩,
      List.isChain_cons_cons.mpr ⟨⟨rfl, rfl⟩, List.isChain_pair.mpr ⟨rfl, rfl⟩⟩⟩⟩, by decide⟩,
      rfl, rfl, List.pairwise_cons.mpr ⟨by decide, List.pairwise_pair.mpr rfl⟩⟩
  obtain ⟨heap₁, part1, part2, heap₂, merged1, merged2, hsplit, -, -, hmerge, -, hiff⟩ :=
    @split_merge equalPair equalList ⟨none, none, 0, .ascending, .lte, true⟩ [1] [3] 2 hsorted
      rfl ⟨rfl, rfl⟩
  refine ⟨heap₁, part1, part2, heap₂, merged1, merged2, hsplit, (hmerge false).mpr (.inr (.inr
    ⟨rfl, ⟨1, by simp, rfl⟩, 1, by simp, 3, by simp, by decide⟩)), fun hback => ?_⟩
  exact hiff.mp hback rfl 1 List.mem_cons_self rfl

end OrderedLists
