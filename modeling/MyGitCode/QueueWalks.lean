import MyGitCode.QueueServices

/-! # Walks along a queue

The items are looked at from the head on. A search changes nothing, and the deletions take out
the first item that matches, by way of the item before it, if the lock they hold can be taken
again. -/
namespace QueueServices

open LinkRings
open RelockableLocks (relocked relocked_true)

variable {s t : State} {both : Bool} {a d q fuel : ℕ} {xs ys zs ns : List ℕ} {compare : ℕ → Bool}

theorem Queued.qCheck (h : Queued s both q ns) : qCheck s q = some ns.head? := by
  have hhead : nextPtr s (some q) = some (some (ns.headD q)) := h.head_eq
  have hcnt := h.cnt
  simp only [QueueServices.qCheck, hhead, Option.bind_eq_bind, Option.bind_some]
  cases ns with
  | nil => exact congrArg some (if_neg (Int.not_lt.mpr (Int.le_of_eq hcnt)))
  | cons n ns => exact congrArg some (if_pos (h.cnt_pos nofun))

theorem Queued.qLastCheck (h : Queued s both q ns) : qLastCheck s q = some ns.getLast? := by
  have hback : prevPtr s (some q) = some (some (ns.getLastD q)) := h.back
  have hcnt := h.cnt
  simp only [QueueServices.qLastCheck, hback, Option.bind_eq_bind, Option.bind_some]
  cases ns with
  | nil => exact congrArg some (if_neg (Int.not_lt.mpr (Int.le_of_eq hcnt)))
  | cons n ns =>
    rw [List.getLastD_cons, List.getLast?_cons, ← List.getLastD_eq_getLast?]
    exact congrArg some (if_pos (h.cnt_pos nofun))

theorem Queued.qNext (h : Queued s both q (xs ++ a :: ys)) : qNext s q a = some ys.head? := by
  have hnext : nextPtr s (some a) = some (some (ys.headD q)) := h.next_eq
  simp only [QueueServices.qNext, hnext, Option.bind_eq_bind, Option.bind_some]
  cases ys with
  | nil => exact congrArg some (if_neg (not_not.mpr rfl))
  | cons y ys =>
    refine congrArg some (if_pos fun heq => ?_)
    obtain rfl : y = q := Option.some_inj.mp heq
    exact (List.nodup_cons.mp h.nodup).1 (by simp)

theorem Queued.searchLoop (h : Queued s both q (xs ++ ys)) (hfuel : ys.length < fuel) :
    searchLoop s q compare fuel ys.head? = some (ys.find? compare) := by
  induction ys generalizing xs fuel with
  | nil =>
    obtain ⟨fuel, rfl⟩ := Nat.exists_eq_add_one_of_ne_zero (Nat.ne_of_gt hfuel)
    rfl
  | cons y ys ih =>
    obtain ⟨fuel, rfl⟩ := Nat.exists_eq_add_one_of_ne_zero (Nat.ne_of_gt (Nat.zero_lt_of_lt hfuel))
    have hnext := h.qNext
    rw [← List.singleton_append, ← List.append_assoc] at h
    rw [List.head?_cons, QueueServices.searchLoop, List.find?_cons]
    by_cases hy : compare y = true
    · simp only [hy, if_true]
    · rw [if_neg hy, hnext, Option.bind_eq_bind, Option.bind_some,
        ih h (Nat.lt_of_succ_lt_succ hfuel)]
      simp only [hy]

theorem Queued.qLinearSearch (h : Queued s both q ns) (hfuel : ns.length < fuel) :
    qLinearSearch fuel s q compare = some (ns.find? compare) := by
  rw [QueueServices.qLinearSearch, h.qCheck]
  have h' : Queued s both q ([] ++ ns) := h
  exact h'.searchLoop hfuel

theorem Queued.deleteNewLoop_skip (h : Queued s both q (zs ++ (xs ++ ys)))
    (hxs : ∀ a ∈ xs, compare a = false) :
    deleteNewLoop true s q compare (xs.length + fuel) zs.getLast? (xs ++ ys).head? =
      deleteNewLoop true s q compare fuel (zs ++ xs).getLast? ys.head? := by
  induction xs generalizing zs with
  | nil => rw [List.length_nil, Nat.zero_add, List.nil_append, List.append_nil]
  | cons x xs ih =>
    rw [List.forall_mem_cons] at hxs
    have hnext : QueueServices.qNext s q x = some (xs ++ ys).head? := h.qNext
    have h' : Queued s both q ((zs ++ [x]) ++ (xs ++ ys)) := by simpa using h
    have hskip := ih h' hxs.2
    rw [List.getLast?_concat, List.append_assoc, List.singleton_append] at hskip
    rw [List.length_cons, Nat.add_right_comm, List.cons_append, List.head?_cons, deleteNewLoop,
      hxs.1, if_neg Bool.false_ne_true, relocked_true, hnext, Option.bind_eq_bind,
      Option.bind_some, hskip]

theorem Queued.deleteLoop_skip (h : Queued s both q (zs ++ (xs ++ ys)))
    (hxs : ∀ a ∈ xs, compare a = false) :
    deleteLoop true s q compare (xs.length + fuel) zs.getLast? (xs ++ ys).head? =
      deleteLoop true s q compare fuel (zs ++ xs).getLast? ys.head? := by
  induction xs generalizing zs with
  | nil => rw [List.length_nil, Nat.zero_add, List.nil_append, List.append_nil]
  | cons x xs ih =>
    rw [List.forall_mem_cons] at hxs
    have hnext : QueueServices.qNext s q x = some (xs ++ ys).head? := h.qNext
    have h' : Queued s both q ((zs ++ [x]) ++ (xs ++ ys)) := by simpa using h
    have hskip := ih h' hxs.2
    rw [List.getLast?_concat, List.append_assoc, List.singleton_append] at hskip
    rw [List.length_cons, Nat.add_right_comm, List.cons_append, List.head?_cons, deleteLoop,
      hxs.1, if_neg Bool.false_ne_true, relocked_true, hnext, Option.bind_eq_bind,
      Option.bind_some, hskip]

/-- `d` is taken out behind `a`, and no link back is written. -/
structure Unlinked (s t : State) (q d a b : ℕ) : Prop where
  next : nextOf t = Function.update (Function.update (nextOf s) a (some (some b))) d (some none)
  prev : prevOf t = prevOf s
  cnt : t.cnt = Function.update s.cnt q (s.cnt q - 1)

theorem Queued.unlink (h : Queued s both q (xs ++ a :: d :: ys)) :
    ∃ t u, nextPtr s (some d) = some (some (ys.headD q)) ∧
      setNext s (some a) (some (ys.headD q)) = some t ∧ setNext t (some d) none = some u ∧
      Unlinked s (addCnt u q (-1)) q d a (ys.headD q) := by
  have h' : Queued s both q ((xs ++ [a]) ++ d :: ys) := by simpa using h
  have hmem := h.allocated
  obtain ⟨t, ht, hnt, hpt, hct⟩ := setNext_some (hmem a (by simp)) (some (ys.headD q))
  have hd : nextOf t d ≠ none := hnt ▸ update_ne_none (hmem d (by simp))
  obtain ⟨u, hu, hnu, hpu, hcu⟩ := setNext_some hd none
  refine ⟨t, u, h'.next_eq, ht, hu, ?_, ?_, ?_⟩
  · rw [nextOf_addCnt, hnu, hnt]
  · rw [prevOf_addCnt, hpu, hpt]
  · rw [addCnt, hcu, hct, Int.sub_eq_add_neg]

theorem Unlinked.forward (hun : Unlinked s t q d a (ys.headD q))
    (h : Queued s both q (xs ++ a :: d :: ys)) :
    (q :: (xs ++ a :: ys)).Nodup ∧ Ring (Next t) q (xs ++ a :: ys) ∧
      t.cnt q = (xs ++ a :: ys).length := by
  have h' : Queued s both q ((xs ++ [a]) ++ d :: ys) := by simpa using h
  have hnodup := h'.nodup
  rw [← List.cons_append, List.nodup_middle, List.cons_append, List.nodup_cons] at hnodup
  obtain ⟨hd, hnodup⟩ := hnodup
  have hlast : (xs ++ [a]).getLastD q = a := List.getLastD_concat
  have hring : Ring (Next t) q ((xs ++ [a]) ++ ys) := by
    refine h'.forward.remove h'.nodup (fun c hc _ _ hca _ hlink => ?_) ?_
    · have hcd : c ≠ d := fun heq => hd (heq ▸ hc)
      rw [Next, hun.next, Function.update_of_ne hcd, Function.update_of_ne (hlast ▸ hca)]
      exact hlink
    · have had : a ≠ d := fun heq => hd (heq ▸ by simp)
      rw [hlast, Next, hun.next, Function.update_of_ne had, Function.update_self]
  refine ⟨by simpa using hnodup, by simpa using hring, ?_⟩
  rw [hun.cnt, Function.update_self, h.cnt]
  simp only [List.length_append, List.length_cons]
  push_cast
  omega

theorem Unlinked.back (hun : Unlinked s t q d a (ys.headD q))
    (h : Queued s true q (xs ++ a :: d :: ys)) : prevOf t (ys.headD q) = some (some d) := by
  have h' : Queued s true q ((xs ++ [a]) ++ d :: ys) := by simpa using h
  rw [hun.prev]
  exact (h'.backward rfl).around.2

theorem Unlinked.tail (hun : Unlinked s t q d a (ys.headD q))
    (h : Queued s both q (xs ++ a :: d :: ys)) :
    prevOf t q = some (some (ys.getLastD d)) := by
  rw [hun.prev, h.back, getLastD_append_cons, List.getLastD_cons]

theorem Unlinked.queued_iff (hun : Unlinked s t q d a (ys.headD q))
    (h : Queued s true q (xs ++ a :: d :: ys)) :
    (Queued t false q (xs ++ a :: ys) ↔ ys ≠ []) ∧ ¬ Queued t true q (xs ++ a :: ys) := by
  obtain ⟨hnodup, hring, hcnt⟩ := hun.forward h
  have hpair : (a :: d :: ys).Nodup :=
    (List.nodup_append'.mp (List.nodup_cons.mp h.nodup).2).2.1
  have had : a ≠ d := fun heq => (List.nodup_cons.mp hpair).1 (heq ▸ List.mem_cons_self)
  have htail := hun.tail h
  constructor
  · constructor
    · rintro hqueued rfl
      have hback := hqueued.back
      rw [htail, getLastD_append_cons] at hback
      exact had (Option.some_inj.mp (Option.some_inj.mp hback)).symm
    · intro hys
      refine ⟨hnodup, hring, nofun, ?_, hcnt⟩
      obtain ⟨y, ys, rfl⟩ := List.exists_cons_of_ne_nil hys
      rw [htail, getLastD_append_cons, List.getLastD_cons, List.getLastD_cons]
  · intro hqueued
    have hback := hun.back h
    cases ys with
    | nil =>
      have hlast := hqueued.back
      rw [getLastD_append_cons] at hlast
      exact had (Option.some_inj.mp (Option.some_inj.mp (hlast.symm.trans hback)))
    | cons y ys =>
      have hsplit : xs ++ a :: y :: ys = (xs ++ [a]) ++ y :: ys := by simp
      have hprev := (hsplit ▸ hqueued).prev_eq
      rw [List.getLastD_concat] at hprev
      exact had (Option.some_inj.mp (Option.some_inj.mp (hprev.symm.trans hback)))

theorem Queued.weaken (h : Queued s both q ns) : Queued s false q ns :=
  ⟨h.nodup, h.forward, nofun, h.back, h.cnt⟩

theorem Queued.qGet_head (h : Queued s true q (d :: ys)) :
    ∃ t, QueueServices.qGet s q = some (t, some d) ∧ Queued t true q ys := by
  obtain ⟨t, hget, hrem⟩ := h.qGet
  have h' : Queued s true q ([] ++ d :: ys) := h
  exact ⟨t, hget, h'.remove hrem⟩

theorem Queued.deleteNew_none (h : Queued s true q ns) (hns : ∀ a ∈ ns, compare a = false)
    (hfuel : ns.length < fuel) : qLinearDeleteNew true fuel s q compare = some (s, none) := by
  obtain ⟨k, rfl⟩ := Nat.exists_eq_add_of_lt hfuel
  have hskip : Queued s true q ([] ++ (ns ++ [])) := by simpa using h
  have hloop := @Queued.deleteNewLoop_skip s true q (k + 1) ns [] [] compare hskip hns
  rw [List.append_nil] at hloop
  rw [Nat.add_assoc, qLinearDeleteNew, relocked_true, h.qCheck, Option.bind_eq_bind,
    Option.bind_some]
  exact hloop.trans (by rw [List.head?_nil, deleteNewLoop])

theorem Queued.deleteNew_found (h : Queued s true q (xs ++ d :: ys))
    (hxs : ∀ a ∈ xs, compare a = false) (hd : compare d = true)
    (hfuel : xs.length < fuel) :
    ∃ t, qLinearDeleteNew true fuel s q compare = some (t, some d) ∧
      (Queued t true q (xs ++ ys) ↔ xs = []) ∧
      (Queued t false q (xs ++ ys) ↔ xs = [] ∨ ys ≠ []) := by
  obtain ⟨k, rfl⟩ := Nat.exists_eq_add_of_lt hfuel
  have hskip : Queued s true q ([] ++ (xs ++ d :: ys)) := h
  rw [Nat.add_assoc, qLinearDeleteNew, relocked_true, h.qCheck, Option.bind_eq_bind,
    Option.bind_some, ← List.getLast?_nil, hskip.deleteNewLoop_skip hxs, List.nil_append,
    List.head?_cons, deleteNewLoop, if_pos hd]
  rcases List.eq_nil_or_concat xs with rfl | ⟨xs, a, rfl⟩
  · obtain ⟨t, hget, hqueued⟩ := h.qGet_head
    refine ⟨t, ?_, iff_of_true hqueued rfl, iff_of_true hqueued.weaken (.inl rfl)⟩
    rw [List.getLast?_nil]
    exact hget
  · rw [List.concat_eq_append] at *
    have h' : Queued s true q (xs ++ a :: d :: ys) := by simpa using h
    obtain ⟨t, u, hnext, ht, hu, hun⟩ := h'.unlink
    obtain ⟨hfalse, htrue⟩ := hun.queued_iff h'
    have hne : xs ++ [a] ≠ [] := by simp
    have hsplit : xs ++ [a] ++ ys = xs ++ a :: ys := by simp
    refine ⟨addCnt u q (-1), ?_, ?_, ?_⟩
    · simp only [List.getLast?_concat, Option.isSome_some, if_true, hnext, ht, hu,
        Option.bind_eq_bind, Option.bind_some]
      rfl
    · rw [hsplit]
      exact iff_of_false htrue hne
    · rw [hsplit, hfalse]
      exact ⟨.inr, fun hor => hor.resolve_left hne⟩

/-- If the lock can be taken again, the first item that matches is taken out, and the queue is a
sound one afterwards exactly if that item was the head. Its tail is right also if the item was not
the last one. -/
theorem qLinearDeleteNew_queued (h : Queued s true q ns) (hfuel : ns.length < fuel) :
    (∀ k, qLinearDeleteNew false k s q compare = none) ∧
      ((∀ a ∈ ns, compare a = false) →
        qLinearDeleteNew true fuel s q compare = some (s, none)) ∧
      ∀ xs d ys, ns = xs ++ d :: ys → (∀ a ∈ xs, compare a = false) → compare d = true →
        ∃ t, qLinearDeleteNew true fuel s q compare = some (t, some d) ∧
          (Queued t true q (xs ++ ys) ↔ xs = []) ∧
          (Queued t false q (xs ++ ys) ↔ xs = [] ∨ ys ≠ []) := by
  refine ⟨fun _ => rfl, fun hns => h.deleteNew_none hns hfuel, ?_⟩
  rintro xs d ys rfl hxs hd
  rw [List.length_append] at hfuel
  exact h.deleteNew_found hxs hd (Nat.lt_of_le_of_lt (Nat.le_add_right _ _) hfuel)

theorem qLinearDeleteNew_twoQueues : qLinearDeleteNew false 4 twoQueues 1 (· == 11) = none ∧
    ∃ t, qLinearDeleteNew true 4 twoQueues 1 (· == 11) = some (t, some 11) ∧
      Queued t false 1 [10, 12] ∧ ¬ Queued t true 1 [10, 12] := by
  obtain ⟨hlocked, -, hfound⟩ :=
    @qLinearDeleteNew_queued _ _ _ _ (· == 11) twoQueues_first (by decide : 3 < 4)
  obtain ⟨t, hdelete, hboth, hforward⟩ := hfound [10] 11 [12] rfl (by decide) rfl
  exact ⟨hlocked 4, t, hdelete, hforward.mpr (.inr nofun), hboth.not.mpr nofun⟩

theorem Unlinked.fixTail (hun : Unlinked s t q d a q) (h : Queued s true q [a, d]) :
    ∃ u, fixTail t q = some u ∧ Queued u true q [a] := by
  have h' : Queued s true q ([] ++ a :: d :: []) := h
  obtain ⟨hnodup, hring, hcnt⟩ := hun.forward h'
  have hone : t.cnt q = 1 := hcnt
  have hnext : nextPtr t (some q) = some (some a) := hring.first.1
  have hq : nextOf t q ≠ none := by
    rw [nextOf, hnext]
    nofun
  have hprev : prevOf t a = some (some q) := by
    rw [hun.prev]
    exact h.prev_head
  have haq : a ≠ q := by
    rintro rfl
    simp at hnodup
  obtain ⟨u, hu, hnu, hpu, hcu⟩ := setPrev_some hq (some a)
  refine ⟨u, ?_, hnodup, ?_, fun _ => ?_, ?_, ?_⟩
  · simp only [QueueServices.fixTail, if_pos hone, hnext, Option.bind_eq_bind, Option.bind_some, hu]
  · exact hring.congr fun c _ d _ hlink => by rwa [Next, hnu]
  · refine List.isChain_cons_cons.mpr ⟨?_, List.isChain_pair.mpr ?_⟩
    · rw [Prev, hpu, Function.update_of_ne haq, hprev]
    · rw [Prev, hpu, Function.update_self]
  · rw [hpu, Function.update_self]
    rfl
  · rw [hcu]
    exact hcnt

theorem Queued.delete_none (h : Queued s true q ns) (hns : ∀ a ∈ ns, compare a = false)
    (hfuel : ns.length < fuel) : qLinearDelete true fuel s q compare = some s := by
  obtain ⟨k, rfl⟩ := Nat.exists_eq_add_of_lt hfuel
  have hskip : Queued s true q ([] ++ (ns ++ [])) := by simpa using h
  have hloop := @Queued.deleteLoop_skip s true q (k + 1) ns [] [] compare hskip hns
  rw [List.append_nil] at hloop
  rw [Nat.add_assoc, qLinearDelete, relocked_true, h.qCheck, Option.bind_eq_bind,
    Option.bind_some]
  exact hloop.trans (by rw [List.head?_nil, deleteLoop])

theorem Queued.delete_found (h : Queued s true q (xs ++ d :: ys))
    (hxs : ∀ a ∈ xs, compare a = false) (hd : compare d = true)
    (hfuel : xs.length < fuel) :
    ∃ t, qLinearDelete true fuel s q compare = some t ∧
      (Queued t true q (xs ++ ys) ↔ xs = [] ∨ (xs.length = 1 ∧ ys = [])) ∧
      (Queued t false q (xs ++ ys) ↔ xs.length ≤ 1 ∨ ys ≠ []) := by
  obtain ⟨k, rfl⟩ := Nat.exists_eq_add_of_lt hfuel
  have hskip : Queued s true q ([] ++ (xs ++ d :: ys)) := h
  rw [Nat.add_assoc, qLinearDelete, relocked_true, h.qCheck, Option.bind_eq_bind,
    Option.bind_some, ← List.getLast?_nil, hskip.deleteLoop_skip hxs, List.nil_append,
    List.head?_cons, deleteLoop, if_pos hd]
  rcases List.eq_nil_or_concat xs with rfl | ⟨xs, a, rfl⟩
  · obtain ⟨t, hget, hqueued⟩ := h.qGet_head
    refine ⟨t, ?_, iff_of_true hqueued (.inl rfl), iff_of_true hqueued.weaken (.inl (by simp))⟩
    rw [List.getLast?_nil, if_neg (by simp), relocked_true, hget]
    rfl
  rw [List.concat_eq_append] at *
  have h' : Queued s true q (xs ++ a :: d :: ys) := by simpa using h
  obtain ⟨t, u, hnext, ht, hu, hun⟩ := h'.unlink
  obtain ⟨hfalse, htrue⟩ := hun.queued_iff h'
  obtain ⟨-, -, hcnt⟩ := hun.forward h'
  have hne : xs ++ [a] ≠ [] := by simp
  have hsplit : xs ++ [a] ++ ys = xs ++ a :: ys := by simp
  have hlength : (xs ++ [a]).length = xs.length + 1 := by simp
  have hlength' : (xs ++ a :: ys).length = xs.length + ys.length + 1 := by simp [Nat.add_assoc]
  simp only [List.getLast?_concat, Option.isSome_some, if_true, hnext, ht, hu,
    Option.bind_eq_bind, Option.bind_some]
  by_cases hone : xs = [] ∧ ys = []
  · obtain ⟨rfl, rfl⟩ := hone
    obtain ⟨v, hv, hqueued⟩ := hun.fixTail h'
    exact ⟨v, hv, iff_of_true hqueued (.inr ⟨rfl, rfl⟩),
      iff_of_true hqueued.weaken (.inl (Nat.le_refl 1))⟩
  · have hmany : ¬ (addCnt u q (-1)).cnt q = 1 := by
      rw [hcnt, hlength']
      intro heq
      refine hone ⟨List.length_eq_zero_iff.mp ?_, List.length_eq_zero_iff.mp ?_⟩ <;> omega
    refine ⟨addCnt u q (-1), by rw [QueueServices.fixTail, if_neg hmany], ?_, ?_⟩
    · rw [hsplit]
      refine iff_of_false htrue fun hor => hone ?_
      obtain ⟨hlen, rfl⟩ := hor.resolve_left hne
      exact ⟨List.length_eq_zero_iff.mp (by omega), rfl⟩
    · rw [hsplit, hfalse]
      refine ⟨.inr, fun hor => hor.elim (fun hle hys => hone ⟨?_, hys⟩) id⟩
      exact List.length_eq_zero_iff.mp (by omega)

/-- As above, and the queue is also a sound one afterwards if the last of two items was taken. -/
theorem qLinearDelete_queued (h : Queued s true q ns) (hfuel : ns.length < fuel) :
    (∀ k, qLinearDelete false k s q compare = none) ∧
      ((∀ a ∈ ns, compare a = false) → qLinearDelete true fuel s q compare = some s) ∧
      ∀ xs d ys, ns = xs ++ d :: ys → (∀ a ∈ xs, compare a = false) → compare d = true →
        ∃ t, qLinearDelete true fuel s q compare = some t ∧
          (Queued t true q (xs ++ ys) ↔ xs = [] ∨ (xs.length = 1 ∧ ys = [])) ∧
          (Queued t false q (xs ++ ys) ↔ xs.length ≤ 1 ∨ ys ≠ []) := by
  refine ⟨fun _ => rfl, fun hns => h.delete_none hns hfuel, ?_⟩
  rintro xs d ys rfl hxs hd
  rw [List.length_append] at hfuel
  exact h.delete_found hxs hd (Nat.lt_of_le_of_lt (Nat.le_add_right _ _) hfuel)

theorem qLinearDelete_twoQueues : qLinearDelete false 4 twoQueues 1 (· == 12) = none ∧
    ∃ t, qLinearDelete true 4 twoQueues 1 (· == 12) = some t ∧ ¬ Queued t false 1 [10, 11] := by
  obtain ⟨hlocked, -, hfound⟩ :=
    @qLinearDelete_queued _ _ _ _ (· == 12) twoQueues_first (by decide : 3 < 4)
  obtain ⟨t, hdelete, -, hforward⟩ := hfound [10, 11] 12 [] rfl (by decide) rfl
  exact ⟨hlocked 4, t, hdelete, hforward.not.mpr (by decide)⟩

end QueueServices
