import MyGitCode.QueueWalks
import MyGitCode.TransitionRuns

/-! # Runs of the queue functions

Any number of queues in one memory, none with more items than an `int` counts. A queue that items
were moved to has links forward only, and the functions that use the links back are not called for
it. -/
namespace QueueServices

open LinkRings TransitionRuns

/-- The items of each queue in their order, and whether it has links in both directions. -/
abbrev Contents := ℕ → Option (Bool × List ℕ)

structure System where
  state : State
  queues : Contents

def Free (m : Contents) (x : ℕ) : Prop := ∀ q both ns, m q = some (both, ns) → x ∉ q :: ns

inductive Event where
  | init (q : ℕ)
  | destroy (q : ℕ)
  | link (x : ℕ)
  | put (q x : ℕ)
  | get (q : ℕ) (r : Option ℕ)
  | lastGet (q : ℕ) (r : Option ℕ)
  | insert (q x item : ℕ)
  | delete (q d : ℕ)
  | deleteExt (q d : ℕ) (found : Bool)
  | mPut (target source : ℕ)
  deriving DecidableEq

inductive Step : System → Event → System → Prop where
  | init {S q} : Free S.queues q → Step S (.init q)
      ⟨qInit S.state q, Function.update S.queues q (some (true, []))⟩
  | destroy {S q} : S.queues q ≠ none → Step S (.destroy q)
      ⟨qDestroy S.state q, Function.update S.queues q none⟩
  | link {S x} : Free S.queues x → Step S (.link x) ⟨qLink S.state x, S.queues⟩
  | put {S q x both ns t} : S.queues q = some (both, ns) → Free S.queues x →
      nextOf S.state x ≠ none → qPut S.state q x = some t →
      Step S (.put q x) ⟨t, Function.update S.queues q (some (both, ns ++ [x]))⟩
  | get {S q both ns t r} : S.queues q = some (both, ns) → qGet S.state q = some (t, r) →
      Step S (.get q r)
        ⟨t, Function.update S.queues q (some (both || ns.tail.isEmpty, ns.tail))⟩
  | lastGet {S q ns t r} : S.queues q = some (true, ns) → qLastGet S.state q = some (t, r) →
      Step S (.lastGet q r) ⟨t, Function.update S.queues q (some (true, ns.dropLast))⟩
  | insert {S q x item xs ys t} : S.queues q = some (true, xs ++ item :: ys) →
      Free S.queues x → nextOf S.state x ≠ none → qInsert S.state q x item = some t →
      Step S (.insert q x item)
        ⟨t, Function.update S.queues q (some (true, xs ++ x :: item :: ys))⟩
  | delete {S q d xs ys t} : S.queues q = some (true, xs ++ d :: ys) →
      qDelete S.state q d = some t →
      Step S (.delete q d) ⟨t, Function.update S.queues q (some (true, xs ++ ys))⟩
  | deleteExt {S q d xs ys t found} : S.queues q = some (true, xs ++ d :: ys) →
      qDeleteExt S.state q d = some (t, found) →
      Step S (.deleteExt q d found) ⟨t, Function.update S.queues q (some (true, xs ++ ys))⟩
  | mPut {S target source both both' ns ms t} : target ≠ source →
      S.queues target = some (both, ns) → S.queues source = some (both', ms) →
      qMPut S.state target source = some t →
      Step S (.mPut target source) ⟨t, Function.update (Function.update S.queues target
        (some (both && ms.isEmpty, ns ++ ms))) source (some (true, []))⟩

def Init (S : System) : Prop := S.queues = fun _ => none

/-- The queues are in memory, and no link is in two of them. -/
structure Held (s : State) (m : Contents) : Prop where
  queued : ∀ q both ns, m q = some (both, ns) → Queued s both q ns
  apart : ∀ q both ns q' both' ns', q ≠ q' → m q = some (both, ns) → m q' = some (both', ns') →
    ∀ a ∈ q :: ns, a ∉ q' :: ns'

variable {s t u : State} {m : Contents} {S T : System} {e : Event} {both both' : Bool}
  {q x d a b target source : ℕ} {ns ns' ms xs ys : List ℕ}

def Framed (s t : State) (m : Contents) (q : ℕ) : Prop :=
  ∀ q' both ns, q' ≠ q → m q' = some (both, ns) →
    (∀ c ∈ q' :: ns, nextOf t c = nextOf s c ∧ prevOf t c = prevOf s c) ∧ t.cnt q' = s.cnt q'

theorem Held.update (h : Held s m) (hqueued : Queued t both q ns) (hframe : Framed s t m q)
    (hapart : ∀ q' both' ns', q' ≠ q → m q' = some (both', ns') → ∀ a ∈ q :: ns, a ∉ q' :: ns') :
    Held t (Function.update m q (some (both, ns))) := by
  have hother : ∀ q' both' ns', Function.update m q (some (both, ns)) q' = some (both', ns') →
      (q' = q ∧ both' = both ∧ ns' = ns) ∨ (q' ≠ q ∧ m q' = some (both', ns')) := by
    intro q' both' ns' hq'
    by_cases hqq : q' = q
    · rw [hqq, Function.update_self, Option.some_inj, Prod.mk.injEq] at hq'
      exact .inl ⟨hqq, hq'.1.symm, hq'.2.symm⟩
    · rw [Function.update_of_ne hqq] at hq'
      exact .inr ⟨hqq, hq'⟩
  refine ⟨fun q' both' ns' hq' => ?_, fun q₁ both₁ ns₁ q₂ both₂ ns₂ hne h₁ h₂ a ha ha' => ?_⟩
  · rcases hother q' both' ns' hq' with ⟨rfl, rfl, rfl⟩ | ⟨hne, hm⟩
    · exact hqueued
    · obtain ⟨hlinks, hcnt⟩ := hframe q' both' ns' hne hm
      exact (h.queued q' both' ns' hm).congr (fun c hc => (hlinks c hc).1)
        (fun c hc => (hlinks c hc).2) hcnt
  · rcases hother _ _ _ h₁ with ⟨rfl, rfl, rfl⟩ | ⟨hne₁, hm₁⟩
    · rcases hother _ _ _ h₂ with ⟨rfl, -⟩ | ⟨hne₂, hm₂⟩
      · exact hne rfl
      · exact hapart _ _ _ hne₂ hm₂ a ha ha'
    · rcases hother _ _ _ h₂ with ⟨rfl, rfl, rfl⟩ | ⟨hne₂, hm₂⟩
      · exact hapart _ _ _ hne₁ hm₁ a ha' ha
      · exact h.apart _ _ _ _ _ _ hne hm₁ hm₂ a ha ha'

theorem Held.insert (h : Held s m) (hq : m q = some (both, xs ++ ys)) (hfree : Free m x)
    (hins : Inserted s t q x (xs.getLastD q) (ys.headD q)) :
    Held t (Function.update m q (some (both, xs ++ x :: ys))) := by
  have hmem : ∀ c, c ∈ q :: (xs ++ x :: ys) → c ∈ q :: (xs ++ ys) ∨ c = x := by
    intro c hc
    rw [← List.cons_append, List.mem_append, List.mem_cons (a := c) (b := x)] at hc
    rw [← List.cons_append, List.mem_append]
    tauto
  refine h.update ((h.queued q both _ hq).insert (hfree q both _ hq) hins)
    (fun q' both' ns' hne hm => ⟨fun c hc => ?_, ?_⟩) fun q' both' ns' hne hm a ha ha' => ?_
  · have hcx : c ≠ x := fun heq => hfree q' both' ns' hm (heq ▸ hc)
    have hc' : c ∉ q :: (xs ++ ys) := h.apart _ _ _ _ _ _ hne hm hq c hc
    have hca : c ≠ xs.getLastD q := fun heq => hc' (heq ▸ last_mem)
    have hcb : c ≠ ys.headD q := fun heq => hc' (heq ▸ first_mem)
    rw [hins.next, hins.prev, Function.update_of_ne hca, Function.update_of_ne hcx,
      Function.update_of_ne hcb, Function.update_of_ne hcx]
    exact ⟨rfl, rfl⟩
  · rw [hins.cnt, Function.update_of_ne hne]
  · rcases hmem a ha with hold | rfl
    · exact h.apart _ _ _ _ _ _ hne.symm hq hm a hold ha'
    · exact hfree q' both' ns' hm ha'

theorem Held.remove (h : Held s m) (hq : m q = some (both, xs ++ d :: ys))
    (hrem : Removed s t q d (xs.getLastD q) (ys.headD q)) :
    Held t (Function.update m q (some (both, xs ++ ys))) := by
  have hmem : ∀ c, c ∈ q :: (xs ++ ys) → c ∈ q :: (xs ++ d :: ys) := by
    intro c hc
    rw [← List.cons_append, List.mem_append] at hc ⊢
    exact hc.imp_right (List.mem_cons_of_mem d)
  refine h.update ((h.queued q both _ hq).remove hrem)
    (fun q' both' ns' hne hm => ⟨fun c hc => ?_, ?_⟩) fun q' both' ns' hne hm a ha =>
      h.apart _ _ _ _ _ _ hne.symm hq hm a (hmem a ha)
  · have hc' : c ∉ q :: (xs ++ d :: ys) := h.apart _ _ _ _ _ _ hne hm hq c hc
    have hcd : c ≠ d := fun heq => hc' (heq ▸ by simp)
    have hca : c ≠ xs.getLastD q := fun heq => hc' (heq ▸ last_mem)
    have hcb : c ≠ ys.headD q := fun heq => hc' (hmem _ (heq ▸ first_mem))
    rw [hrem.next, hrem.prev, Function.update_of_ne hcd, Function.update_of_ne hca,
      Function.update_of_ne hcb]
    exact ⟨rfl, rfl⟩
  · rw [hrem.cnt, Function.update_of_ne hne]

theorem Queued.flag (h : Queued s both q ns) : Queued s (both || ns.isEmpty) q ns := by
  cases ns with
  | cons n ns => simpa using h
  | nil =>
    refine ⟨h.nodup, h.forward, fun _ => List.isChain_pair.mpr h.back, h.back, h.cnt⟩

theorem Held.flag (h : Held s m) (hq : m q = some (both, ns)) :
    Held s (Function.update m q (some (both || ns.isEmpty, ns))) :=
  h.update (h.queued q both ns hq).flag (fun _ _ _ _ _ => ⟨fun _ _ => ⟨rfl, rfl⟩, rfl⟩)
    fun _ _ _ hne hm => h.apart _ _ _ _ _ _ hne.symm hq hm

theorem Held.get (h : Held s m) (hq : m q = some (both, ns)) :
    ∃ t, qGet s q = some (t, ns.head?) ∧
      Held t (Function.update m q (some (both || ns.tail.isEmpty, ns.tail))) := by
  have hqueued := h.queued q both ns hq
  cases ns with
  | nil =>
    have hhead : nextPtr s (some q) = some (some q) := hqueued.head_eq
    have hcnt : ¬ s.cnt q > 0 := Int.not_lt.mpr (Int.le_of_eq hqueued.cnt)
    refine ⟨s, ?_, h.flag hq⟩
    simp only [qGet, hhead, if_neg hcnt, Option.bind_eq_bind, Option.bind_some]
    rfl
  | cons d ys =>
    obtain ⟨t, hget, hrem⟩ := hqueued.qGet
    have hq' : m q = some (both, [] ++ d :: ys) := hq
    have hheld := h.remove hq' hrem
    refine ⟨t, hget, ?_⟩
    have hflag := hheld.flag (Function.update_self ..)
    rw [Function.update_idem] at hflag
    exact hflag

theorem Held.lastGet (h : Held s m) (hq : m q = some (true, ns)) :
    ∃ t, qLastGet s q = some (t, ns.getLast?) ∧
      Held t (Function.update m q (some (true, ns.dropLast))) := by
  have hqueued := h.queued q true ns hq
  rcases List.eq_nil_or_concat ns with rfl | ⟨xs, d, rfl⟩
  · have hback : prevPtr s (some q) = some (some q) := hqueued.back
    have hcnt : ¬ s.cnt q > 0 := Int.not_lt.mpr (Int.le_of_eq hqueued.cnt)
    refine ⟨s, ?_, ?_⟩
    · simp only [qLastGet, hback, if_neg hcnt, Option.bind_eq_bind, Option.bind_some]
      rfl
    · rw [List.dropLast_nil, ← hq, Function.update_eq_self]
      exact h
  · rw [List.concat_eq_append] at *
    obtain ⟨t, hget, hrem⟩ := hqueued.qLastGet
    refine ⟨t, by rw [List.getLast?_concat]; exact hget, ?_⟩
    rw [List.dropLast_concat, ← List.append_nil xs]
    exact h.remove hq hrem

theorem Held.put (h : Held s m) (hq : m q = some (both, ns)) (hfree : Free m x)
    (halloc : nextOf s x ≠ none) :
    ∃ t, qPut s q x = some t ∧ Held t (Function.update m q (some (both, ns ++ [x]))) := by
  obtain ⟨t, hput, hins⟩ := (h.queued q both ns hq).qPut (hfree q both ns hq) halloc
  have hq' : m q = some (both, ns ++ []) := by rwa [List.append_nil]
  exact ⟨t, hput, h.insert hq' hfree hins⟩

theorem Held.insertBefore (h : Held s m) (hq : m q = some (true, xs ++ b :: ys))
    (hfree : Free m x) (halloc : nextOf s x ≠ none) :
    ∃ t, qInsert s q x b = some t ∧
      Held t (Function.update m q (some (true, xs ++ x :: b :: ys))) := by
  obtain ⟨t, hput, hins⟩ := (h.queued q true _ hq).qInsert (hfree q true _ hq) halloc
  exact ⟨t, hput, h.insert hq hfree hins⟩

theorem Held.delete (h : Held s m) (hq : m q = some (true, xs ++ d :: ys)) :
    ∃ t, qDelete s q d = some t ∧ Held t (Function.update m q (some (true, xs ++ ys))) := by
  obtain ⟨t, hdelete, hrem⟩ := (h.queued q true _ hq).qDelete
  exact ⟨t, hdelete, h.remove hq hrem⟩

theorem Held.init (h : Held s m) (hfree : Free m q) :
    Held (qInit s q) (Function.update m q (some (true, []))) := by
  refine h.update qInit_queued (fun q' both ns hne hm => ⟨fun c hc => ?_, ?_⟩)
    fun q' both ns hne hm a ha ha' => ?_
  · have hcq : c ≠ q := fun heq => hfree q' both ns hm (heq ▸ hc)
    rw [nextOf_qInit, prevOf_qInit, Function.update_of_ne hcq, Function.update_of_ne hcq]
    exact ⟨rfl, rfl⟩
  · exact Function.update_of_ne hne ..
  · obtain rfl := List.mem_singleton.mp ha
    exact hfree q' both ns hm ha'

theorem nextOf_qLink (hx : a ≠ x) : nextOf (qLink s x) a = nextOf s a := by
  simp [nextOf, nextPtr, qLink, hx]

theorem prevOf_qLink (hx : a ≠ x) : prevOf (qLink s x) a = prevOf s a := by
  simp [prevOf, prevPtr, qLink, hx]

theorem Held.link (h : Held s m) (hfree : Free m x) : Held (qLink s x) m := by
  refine ⟨fun q both ns hm => ?_, h.apart⟩
  have hne : ∀ c ∈ q :: ns, c ≠ x := fun c hc heq => hfree q both ns hm (heq ▸ hc)
  exact (h.queued q both ns hm).congr (fun c hc => nextOf_qLink (hne c hc))
    (fun c hc => prevOf_qLink (hne c hc)) rfl

theorem Held.destroy (h : Held s m) (hq : m q ≠ none) :
    Held (qDestroy s q) (Function.update m q none) := by
  have hold : ∀ q' both ns, Function.update m q none q' = some (both, ns) →
      q' ≠ q ∧ m q' = some (both, ns) := by
    intro q' both ns hm
    by_cases hqq : q' = q
    · rw [hqq, Function.update_self] at hm
      exact absurd hm nofun
    · rw [Function.update_of_ne hqq] at hm
      exact ⟨hqq, hm⟩
  obtain ⟨⟨both', ns'⟩, hq⟩ := Option.ne_none_iff_exists'.mp hq
  refine ⟨fun q' both ns hm => ?_, fun q₁ both₁ ns₁ q₂ both₂ ns₂ hne h₁ h₂ =>
    h.apart _ _ _ _ _ _ hne (hold _ _ _ h₁).2 (hold _ _ _ h₂).2⟩
  obtain ⟨hne, hm⟩ := hold _ _ _ hm
  have hcq : ∀ c ∈ q' :: ns, c ≠ q := fun c hc heq =>
    h.apart _ _ _ _ _ _ hne hm hq c hc (heq ▸ List.mem_cons_self)
  exact (h.queued q' both ns hm).congr (fun c hc => nextOf_qLink (hcq c hc))
    (fun c hc => prevOf_qLink (hcq c hc)) (Function.update_of_ne hne ..)

theorem Joined.framed (hjoin : Joined s t target source ns ms) (h : Held s m)
    (htarget : m target = some (both, ns)) (hsource : m source = some (both', ms)) {q' : ℕ}
    {both'' : Bool} (hne : q' ≠ target) (hne' : q' ≠ source) (hm : m q' = some (both'', ns')) :
    (∀ c ∈ q' :: ns', nextOf t c = nextOf s c ∧ prevOf t c = prevOf s c) ∧
      t.cnt q' = s.cnt q' := by
  refine ⟨fun c hc => ?_, ?_⟩
  · have hct : c ∉ target :: ns := h.apart _ _ _ _ _ _ hne hm htarget c hc
    have hcs : c ∉ source :: ms := h.apart _ _ _ _ _ _ hne' hm hsource c hc
    have h₁ : c ≠ source := fun heq => hcs (heq ▸ List.mem_cons_self)
    have h₂ : c ≠ ns.getLastD target := fun heq => hct (heq ▸ getLastD_mem)
    have h₃ : c ≠ ms.getLastD source := fun heq => hcs (heq ▸ getLastD_mem)
    have h₄ : c ≠ target := fun heq => hct (heq ▸ List.mem_cons_self)
    rw [hjoin.next, hjoin.prev, Function.update_of_ne h₁, Function.update_of_ne h₂,
      Function.update_of_ne h₃, Function.update_of_ne h₁, Function.update_of_ne h₄]
    exact ⟨rfl, rfl⟩
  · rw [hjoin.cnt, Function.update_of_ne hne', Function.update_of_ne hne]

theorem moved_cases (hm : Function.update (Function.update m target (some (false, ns ++ ms)))
      source (some (true, [])) q = some (both, ns')) :
    (q = source ∧ both = true ∧ ns' = []) ∨ (q = target ∧ both = false ∧ ns' = ns ++ ms) ∨
      (q ≠ target ∧ q ≠ source ∧ m q = some (both, ns')) := by
  by_cases hs : q = source
  · rw [hs, Function.update_self, Option.some_inj, Prod.mk.injEq] at hm
    exact .inl ⟨hs, hm.1.symm, hm.2.symm⟩
  rw [Function.update_of_ne hs] at hm
  by_cases ht : q = target
  · rw [ht, Function.update_self, Option.some_inj, Prod.mk.injEq] at hm
    exact .inr (.inl ⟨ht, hm.1.symm, hm.2.symm⟩)
  · rw [Function.update_of_ne ht] at hm
    exact .inr (.inr ⟨ht, hs, hm⟩)

theorem Held.source_apart (h : Held s m) (hne : target ≠ source)
    (htarget : m target = some (both, ns)) (hsource : m source = some (both', ms)) :
    ∀ a ∈ target :: (ns ++ ms), a ∉ [source] := by
  intro a ha hsingle
  obtain rfl := List.mem_singleton.mp hsingle
  rw [← List.cons_append, List.mem_append] at ha
  rcases ha with ha | ha
  · exact h.apart _ _ _ _ _ _ hne htarget hsource a ha List.mem_cons_self
  · exact (List.nodup_cons.mp (h.queued _ _ _ hsource).nodup).1 ha

theorem Held.stays_apart (h : Held s m) (htarget : m target = some (both, ns))
    (hsource : m source = some (both', ms)) {both'' : Bool} (ht : q ≠ target) (hs : q ≠ source)
    (hq : m q = some (both'', ns')) :
    ∀ a ∈ q :: ns', a ∉ target :: (ns ++ ms) ∧ a ∉ [source] := by
  intro a ha
  have hat := h.apart _ _ _ _ _ _ ht hq htarget a ha
  have has := h.apart _ _ _ _ _ _ hs hq hsource a ha
  refine ⟨fun hmem => ?_, fun hmem => has (List.mem_singleton.mp hmem ▸ List.mem_cons_self)⟩
  rw [← List.cons_append, List.mem_append] at hmem
  exact hmem.elim hat fun hms => has (List.mem_cons_of_mem source hms)

theorem Joined.held (hjoin : Joined s t target source ns ms) (h : Held s m)
    (hne : target ≠ source) (htarget : m target = some (both, ns))
    (hsource : m source = some (both', ms)) (hms : ms ≠ []) :
    Held t (Function.update (Function.update m target (some (false, ns ++ ms))) source
      (some (true, []))) := by
  obtain ⟨htarget', hsource'⟩ := hjoin.queued (h.queued _ _ _ htarget) (h.queued _ _ _ hsource)
    hms (h.apart _ _ _ _ _ _ hne htarget hsource)
  have hempty := h.source_apart hne htarget hsource
  refine ⟨fun q both'' ns' hq => ?_,
    fun q₁ both₁ ns₁ q₂ both₂ ns₂ hne₁₂ hq₁ hq₂ a ha ha' => ?_⟩
  · rcases moved_cases hq with ⟨rfl, rfl, rfl⟩ | ⟨rfl, rfl, rfl⟩ | ⟨ht, hs, hold⟩
    · exact hsource'
    · exact htarget'
    · obtain ⟨hlinks, hcnt⟩ := hjoin.framed h htarget hsource ht hs hold
      exact (h.queued _ _ _ hold).congr (fun c hc => (hlinks c hc).1)
        (fun c hc => (hlinks c hc).2) hcnt
  · rcases moved_cases hq₁ with ⟨rfl, -, rfl⟩ | ⟨rfl, -, rfl⟩ | ⟨ht₁, hs₁, hold₁⟩ <;>
      rcases moved_cases hq₂ with ⟨rfl, -, rfl⟩ | ⟨rfl, -, rfl⟩ | ⟨ht₂, hs₂, hold₂⟩
    · exact hne₁₂ rfl
    · exact hempty a ha' ha
    · exact (h.stays_apart htarget hsource ht₂ hs₂ hold₂ a ha').2 ha
    · exact hempty a ha ha'
    · exact hne₁₂ rfl
    · exact (h.stays_apart htarget hsource ht₂ hs₂ hold₂ a ha').1 ha
    · exact (h.stays_apart htarget hsource ht₁ hs₁ hold₁ a ha).2 ha'
    · exact (h.stays_apart htarget hsource ht₁ hs₁ hold₁ a ha).1 ha'
    · exact h.apart _ _ _ _ _ _ hne₁₂ hold₁ hold₂ a ha ha'

theorem Held.mPut (h : Held s m) (hne : target ≠ source) (htarget : m target = some (both, ns))
    (hsource : m source = some (both', ms)) :
    ∃ t, qMPut s target source = some t ∧ Held t (Function.update (Function.update m target
      (some (both && ms.isEmpty, ns ++ ms))) source (some (true, []))) := by
  have hqueued := h.queued _ _ _ htarget
  have hqueued' := h.queued _ _ _ hsource
  by_cases hms : ms = []
  · subst hms
    have hcnt : s.cnt source = 0 := hqueued'.cnt_eq_zero.mpr rfl
    refine ⟨s, by simp only [qMPut, if_pos hcnt]; rfl, ?_⟩
    rw [List.append_nil, List.isEmpty_nil, Bool.and_true, ← htarget, Function.update_eq_self]
    simpa using h.flag hsource
  · obtain ⟨t, hput, hjoin⟩ := hqueued.qMPut hqueued' hms
      (h.apart _ _ _ _ _ _ hne htarget hsource)
    have hflag : (both && ms.isEmpty) = false := by simp [hms]
    rw [hflag]
    exact ⟨t, hput, hjoin.held h hne htarget hsource hms⟩

def Answers (m : Contents) : Event → Prop
  | .get q r => ∃ both ns, m q = some (both, ns) ∧ r = ns.head?
  | .lastGet q r => ∃ both ns, m q = some (both, ns) ∧ r = ns.getLast?
  | .deleteExt _ _ found => found = true
  | _ => True

theorem step_held (h : Held S.state S.queues) (he : Step S e T) :
    Held T.state T.queues ∧ Answers S.queues e := by
  cases he with
  | @init q hfree => exact ⟨h.init hfree, trivial⟩
  | @destroy q hq => exact ⟨h.destroy hq, trivial⟩
  | @link x hfree => exact ⟨h.link hfree, trivial⟩
  | @put q x both ns t hq hfree halloc hput =>
    obtain ⟨t', hput', hheld⟩ := h.put hq hfree halloc
    obtain rfl := Option.some_inj.mp (hput'.symm.trans hput)
    exact ⟨hheld, trivial⟩
  | @get q both ns t r hq hget =>
    obtain ⟨t', hget', hheld⟩ := h.get hq
    obtain ⟨rfl, rfl⟩ := Prod.mk.inj (Option.some_inj.mp (hget'.symm.trans hget))
    exact ⟨hheld, both, ns, hq, rfl⟩
  | @lastGet q ns t r hq hget =>
    obtain ⟨t', hget', hheld⟩ := h.lastGet hq
    obtain ⟨rfl, rfl⟩ := Prod.mk.inj (Option.some_inj.mp (hget'.symm.trans hget))
    exact ⟨hheld, true, ns, hq, rfl⟩
  | @insert q x item xs ys t hq hfree halloc hinsert =>
    obtain ⟨t', hinsert', hheld⟩ := h.insertBefore hq hfree halloc
    obtain rfl := Option.some_inj.mp (hinsert'.symm.trans hinsert)
    exact ⟨hheld, trivial⟩
  | @delete q d xs ys t hq hdelete =>
    obtain ⟨t', hdelete', hheld⟩ := h.delete hq
    obtain rfl := Option.some_inj.mp (hdelete'.symm.trans hdelete)
    exact ⟨hheld, trivial⟩
  | @deleteExt q d xs ys t found hq hdelete =>
    obtain ⟨t', hdelete', hheld⟩ := h.delete hq
    rw [qDeleteExt, hdelete', Option.bind_eq_bind, Option.bind_some] at hdelete
    obtain ⟨rfl, rfl⟩ := Prod.mk.inj (Option.some_inj.mp hdelete)
    exact ⟨hheld, rfl⟩
  | @mPut target source both both' ns ms t hne htarget hsource hput =>
    obtain ⟨t', hput', hheld⟩ := h.mPut hne htarget hsource
    obtain rfl := Option.some_inj.mp (hput'.symm.trans hput)
    exact ⟨hheld, trivial⟩

theorem reachable_held (h : Reachable Init Step S) : Held S.state S.queues := by
  obtain ⟨ts, h⟩ := h
  refine Run.invariant (I := fun S => Held S.state S.queues) (fun S hinit => ?_)
    (fun _ _ _ hheld he => (step_held hheld he).1) h
  rw [show S.queues = fun _ => none from hinit]
  exact ⟨nofun, nofun⟩

/-- Every call for a queue has a result, and those that only look say what its items are. -/
structure Serves (S : System) (q : ℕ) (both : Bool) (ns : List ℕ) : Prop where
  check : qCheck S.state q = some ns.head?
  lastCheck : qLastCheck S.state q = some ns.getLast?
  count : qCnt S.state q = ns.length
  next : ∀ xs a ys, ns = xs ++ a :: ys → qNext S.state q a = some ys.head?
  search : ∀ compare fuel, ns.length < fuel →
    qLinearSearch fuel S.state q compare = some (ns.find? compare)
  get : ∃ t, qGet S.state q = some (t, ns.head?)
  put : ∀ x, Free S.queues x → nextOf S.state x ≠ none → ∃ t, qPut S.state q x = some t
  mPut : ∀ source both' ms, q ≠ source → S.queues source = some (both', ms) →
    ∃ t, qMPut S.state q source = some t
  lastGet : both = true → ∃ t, qLastGet S.state q = some (t, ns.getLast?)
  insert : both = true → ∀ item ∈ ns, ∀ x, Free S.queues x → nextOf S.state x ≠ none →
    ∃ t, qInsert S.state q x item = some t
  delete : both = true → ∀ d ∈ ns, ∃ t, qDelete S.state q d = some t
  deleteExt : both = true → ∀ d ∈ ns, ∃ t, qDeleteExt S.state q d = some (t, true)

theorem Held.serves (h : Held S.state S.queues) (hq : S.queues q = some (both, ns)) :
    Serves S q both ns := by
  have hqueued := h.queued q both ns hq
  refine ⟨hqueued.qCheck, hqueued.qLastCheck, hqueued.cnt, ?_, fun _ _ => hqueued.qLinearSearch,
    ?_, ?_, ?_, ?_, ?_, ?_, ?_⟩
  · rintro xs a ys rfl
    exact hqueued.qNext
  · exact (h.get hq).imp fun _ hget => hget.1
  · exact fun x hfree halloc => (h.put hq hfree halloc).imp fun _ hput => hput.1
  · exact fun _ _ _ hne hsource => (h.mPut hne hq hsource).imp fun _ hput => hput.1
  · rintro rfl
    exact (h.lastGet hq).imp fun _ hget => hget.1
  · rintro rfl item hitem x hfree halloc
    obtain ⟨xs, ys, rfl⟩ := List.append_of_mem hitem
    exact (h.insertBefore hq hfree halloc).imp fun _ hinsert => hinsert.1
  · rintro rfl d hd
    obtain ⟨xs, ys, rfl⟩ := List.append_of_mem hd
    exact (h.delete hq).imp fun _ hdelete => hdelete.1
  · rintro rfl d hd
    obtain ⟨xs, ys, rfl⟩ := List.append_of_mem hd
    obtain ⟨t, hdelete, -⟩ := h.delete hq
    exact ⟨t, by rw [qDeleteExt, hdelete]; rfl⟩

/-- In every run of calls for any number of queues the links stand for lists of items that
share nothing: each call returned what it takes from the list, and every later call has a
result by the lists that are there then. -/
theorem run_queues {ts : List (Taken System Event)} (h : Run Init Step ts S) :
    (∀ x ∈ ts, Answers x.before.queues x.event) ∧
      (∀ q both ns, S.queues q = some (both, ns) → (q :: ns).Nodup ∧ Serves S q both ns) ∧
      ∀ q both ns q' both' ns', q ≠ q' → S.queues q = some (both, ns) →
        S.queues q' = some (both', ns') → ∀ a ∈ q :: ns, a ∉ q' :: ns' := by
  have hheld := reachable_held h.reachable
  refine ⟨?_, fun q both ns hq => ⟨(hheld.queued q both ns hq).nodup, hheld.serves hq⟩,
    hheld.apart⟩
  induction h with
  | start => nofun
  | snoc hrun he ih =>
    intro x hx
    have hbefore := reachable_held hrun.reachable
    rcases List.mem_append.mp hx with hx | hx
    · exact ih hbefore x hx
    · obtain rfl := List.mem_singleton.mp hx
      exact (step_held hbefore he).2

/-- Two items are put to a queue and moved to another one, which gives out the first. -/
def movedItems : List Event :=
  [.init 1, .init 2, .link 10, .link 11, .put 1 10, .put 1 11, .mPut 2 1, .get 2 (some 10)]

theorem Free.update (h : Free m x) (hx : x ∉ q :: ns) :
    Free (Function.update m q (some (both, ns))) x := by
  intro q' both' ns' hq'
  by_cases hqq : q' = q
  · rw [hqq, Function.update_self, Option.some_inj, Prod.mk.injEq] at hq'
    obtain ⟨-, rfl⟩ := hq'
    rwa [hqq]
  · rw [Function.update_of_ne hqq] at hq'
    exact h q' both' ns' hq'

theorem run_queues_moved : ∃ (ts : List (Taken System Event)) (S : System),
    ts.map Taken.event = movedItems ∧ (∀ x ∈ ts, Answers x.before.queues x.event) ∧
      Serves S 2 false [11] := by
  have hnone : ∀ x, Free (fun _ => none) x := fun _ => nofun
  have hstart : Run Init Step [] ⟨⟨fun _ => none, fun _ => 0⟩, fun _ => none⟩ := .start rfl
  have hone := hstart.snoc (@Step.init _ 1 (hnone 1))
  have htwo := hone.snoc (@Step.init _ 2 ((hnone 2).update (by decide)))
  have hlink := htwo.snoc (@Step.link _ 10 (((hnone 10).update (by decide)).update (by decide)))
  have hlink' := hlink.snoc
    (@Step.link _ 11 (((hnone 11).update (by decide)).update (by decide)))
  have hput := hlink'.snoc (@Step.put _ 1 10 true [] _ rfl
    (((hnone 10).update (by decide)).update (by decide)) nofun rfl)
  have hput' := hput.snoc (@Step.put _ 1 11 true [10] _ rfl
    ((((hnone 11).update (by decide)).update (by decide)).update (by decide)) nofun rfl)
  have hmove := hput'.snoc (@Step.mPut _ 2 1 true true [] [10, 11] _ (by decide) rfl rfl rfl)
  have hget := hmove.snoc (@Step.get _ 2 false [10, 11] _ (some 10) rfl rfl)
  obtain ⟨hanswers, hserves, -⟩ := run_queues hget
  exact ⟨_, _, rfl, hanswers, (hserves 2 false [11] rfl).2⟩

end QueueServices
