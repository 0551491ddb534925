import MyGitCode.CrawlSystem

/-! # What `m_curJobs` counts

It counts every socket whose request was sent until a receiver takes it off in `stopJob`.
A socket that the event loop drops after an error is never taken off. -/
namespace CrawlJobs

open TransitionRuns CrawlSystem

variable {U : Type*}

/-- Sent, and neither finished by a receiver nor dropped. -/
def isLive (k : Socket U) : Bool :=
  match k.stage with
  | .finished | .dropped => false
  | _ => true

def isDropped (k : Socket U) : Bool :=
  match k.stage with
  | .dropped => true
  | _ => false

def live (s : State U) : ℕ := s.sockets.countP isLive

/-- `m_curJobs` counts the sockets whose request was sent and that neither a receiver has finished
nor the event loop has dropped, and these are no more than the limit. -/
structure JobsCounted (c : Config) (s : State U) : Prop where
  exact : s.curJobs = live s
  done : live s = 0 → s.curJobs = 0
  bounds : 0 ≤ c.maxJobs → 0 ≤ s.curJobs ∧ s.curJobs ≤ c.maxJobs

/-- The event loop handles an error or hang-up of a socket. -/
def DropsSocket (s : State U) (e : Event U) : Prop :=
  ∃ ready i rest, e = .exec ready ∧ s.main = .handle ((i, false) :: rest)

def isCounted (k : Socket U) : Bool :=
  match k.stage with
  | .leaving | .finished => false
  | _ => true

def isInside (k : Socket U) : Bool :=
  match k.stage with
  | .counting _ | .leaving => true
  | _ => false

def holds : Sender U → Bool
  | .test | .popDns | .sendRequest _ | .count _ | .unlock => true
  | .lock | .wait | .woken => false

def due : Sender U → ℤ
  | .count _ => 1
  | _ => 0

/-- Between the test of `m_curJobs` and its increment. -/
def belowLimit : Sender U → Bool
  | .popDns | .sendRequest _ | .count _ => true
  | _ => false

structure Accounts (c : Config) (s : State U) : Prop where
  sender : holds s.sender = true → s.owner = some .sender
  receiver : ∀ i k, s.sockets[i]? = some k → isInside k = true → s.owner = some (.receiver i)
  count : s.curJobs + due s.sender = s.sockets.countP isCounted
  nonneg : 0 ≤ s.curJobs
  limit : 0 ≤ c.maxJobs → s.curJobs ≤ c.maxJobs
  below : 0 ≤ c.maxJobs → belowLimit s.sender = true → s.curJobs < c.maxJobs

variable {c : Config} {s t : State U} {e : Event U} {i j : ℕ} {k k' : Socket U}
  {l : List (Socket U)}

theorem countP_set_add (p : Socket U → Bool) (k' : Socket U) (h : l[i]? = some k) :
    (l.set i k').countP p + (if p k then 1 else 0) = l.countP p + (if p k' then 1 else 0) := by
  obtain ⟨hi, hk⟩ := List.getElem?_eq_some_iff.mp h
  rw [List.countP_set hi, hk]
  have hpos : p k = true → 0 < l.countP p := by
    intro hp
    exact List.countP_pos_iff.mpr ⟨k, hk ▸ List.getElem_mem hi, hp⟩
  split <;> rename_i hp
  · have := hpos hp
    omega
  · omega

theorem getElem?_set_cases (h : (l.set i k')[j]? = some k) : k = k' ∨ j ≠ i ∧ l[j]? = some k := by
  by_cases hji : j = i
  · subst hji
    rw [List.getElem?_set_self'] at h
    obtain ⟨_, _, hk⟩ := Option.map_eq_some_iff.mp h
    exact .inl hk.symm
  · rw [List.getElem?_set_ne (Ne.symm hji)] at h
    exact .inr ⟨hji, h⟩

theorem accounts_started (h : Started c s) : Accounts c s := by
  obtain ⟨seeds, _, rfl⟩ := h
  refine ⟨nofun, ?_, rfl, le_rfl, fun h => h, nofun⟩
  intro i k hk
  cases hk

theorem Accounts.frame (h : Accounts c s) (howner : t.owner = s.owner)
    (hjobs : t.curJobs = s.curJobs) (hsender : t.sender = s.sender)
    (hsockets : t.sockets = s.sockets) : Accounts c t := by
  obtain ⟨h₁, h₂, h₃, h₄, h₅, h₆⟩ := h
  rw [← howner, ← hsender] at h₁
  rw [← hsockets, ← howner] at h₂
  rw [← hjobs, ← hsender, ← hsockets] at h₃
  rw [← hjobs] at h₄ h₅ h₆
  rw [← hsender] at h₆
  exact ⟨h₁, h₂, h₃, h₄, h₅, h₆⟩

theorem Accounts.sends (h : Accounts c s) (hjobs : t.curJobs = s.curJobs)
    (hsockets : t.sockets = s.sockets) (hdue : due t.sender = due s.sender)
    (hholds : holds t.sender = true → t.owner = some .sender)
    (howner : t.owner = s.owner ∨ s.owner = none ∨ s.owner = some .sender)
    (hbelow : 0 ≤ c.maxJobs → belowLimit t.sender = true → s.curJobs < c.maxJobs) :
    Accounts c t := by
  obtain ⟨h₁, h₂, h₃, h₄, h₅, h₆⟩ := h
  refine ⟨hholds, ?_, ?_, hjobs ▸ h₄, hjobs ▸ h₅, hjobs ▸ hbelow⟩
  · intro i k hk hin
    have hold := h₂ i k (hsockets ▸ hk) hin
    rcases howner with ho | ho | ho
    · rw [ho, hold]
    · rw [ho] at hold
      cases hold
    · rw [ho] at hold
      cases hold
  · rw [hjobs, hdue, hsockets, h₃]

theorem Accounts.moves_socket (h : Accounts c s) (hk : s.sockets[i]? = some k)
    (howner : t.owner = s.owner) (hjobs : t.curJobs = s.curJobs) (hsender : t.sender = s.sender)
    (hsockets : t.sockets = s.sockets.set i k') (hcounted : isCounted k' = isCounted k)
    (hin : isInside k' = false) : Accounts c t := by
  refine ⟨?_, ?_, ?_, hjobs ▸ h.nonneg, hjobs ▸ h.limit, ?_⟩
  · rw [hsender, howner]
    exact h.sender
  · intro j x hx hxin
    rw [hsockets] at hx
    rw [howner]
    rcases getElem?_set_cases hx with rfl | ⟨_, hold⟩
    · rw [hin] at hxin
      cases hxin
    · exact h.receiver j x hold hxin
  · have hcount := countP_set_add isCounted k' hk
    rw [hcounted] at hcount
    rw [hjobs, hsender, hsockets, h.count]
    omega
  · rw [hjobs, hsender]
    exact h.below

theorem Accounts.send_request (h : Accounts c s) {url : U} (hpc : s.sender = .sendRequest url) :
    Accounts c { s with sockets := s.sockets ++ [⟨url, .watched⟩], sender := .count url } := by
  have hholds : s.owner = some .sender := h.sender (by simp [hpc, holds])
  have hcount := h.count
  rw [hpc] at hcount
  refine ⟨fun _ => hholds, ?_, ?_, h.nonneg, h.limit, ?_⟩
  · intro j k hk hin
    rw [List.getElem?_append] at hk
    split at hk
    · exact h.receiver j k hk hin
    · obtain rfl := List.mem_singleton.mp (List.mem_of_getElem? hk)
      cases hin
  · simp only [due, add_zero] at hcount
    simp [due, isCounted, hcount]
  · intro hmax _
    exact h.below hmax (by simp [hpc, belowLimit])

theorem Accounts.counts (h : Accounts c s) {url : U} (hpc : s.sender = .count url) :
    Accounts c { s with curJobs := s.curJobs + 1, sender := .unlock } := by
  have hholds : s.owner = some .sender := h.sender (by simp [hpc, holds])
  have hcount := h.count
  rw [hpc] at hcount
  refine ⟨fun _ => hholds, h.receiver, ?_, ?_, ?_, nofun⟩
  · simpa [due] using hcount
  · have := h.nonneg
    simp only
    omega
  · intro hmax
    have := h.below hmax (by simp [hpc, belowLimit])
    simp only
    omega

theorem Accounts.enters (h : Accounts c s) {url : U} {success : Bool}
    (hk : s.sockets[i]? = some ⟨url, .stopping success⟩) (hfree : s.owner = none) :
    Accounts c { s with
      owner := some (.receiver i), sockets := s.sockets.set i ⟨url, .counting success⟩ } := by
  refine ⟨?_, ?_, ?_, h.nonneg, h.limit, h.below⟩
  · intro hs
    have := h.sender hs
    rw [hfree] at this
    cases this
  · intro j x hx hin
    by_cases hji : j = i
    · rw [hji]
    · rw [List.getElem?_set_ne (Ne.symm hji)] at hx
      have := h.receiver j x hx hin
      rw [hfree] at this
      cases this
  · have hcount := countP_set_add isCounted ⟨url, .counting success⟩ hk
    rw [h.count]
    simp only [isCounted, if_true] at hcount ⊢
    omega

theorem Accounts.inside (h : Accounts c s) (hk : s.sockets[i]? = some k) (hin : isInside k = true) :
    holds s.sender = false ∧
      ∀ j x, j ≠ i → s.sockets[j]? = some x → isInside x = false := by
  have howner := h.receiver i k hk hin
  constructor
  · by_contra hs
    have := h.sender (Bool.eq_true_of_not_eq_false hs)
    rw [howner] at this
    cases this
  · intro j x hji hx
    by_contra hxin
    have := h.receiver j x hx (Bool.eq_true_of_not_eq_false hxin)
    rw [howner] at this
    cases this
    exact hji rfl

theorem due_of_not_holds {pc : Sender U} (h : holds pc = false) : due pc = 0 := by
  cases pc <;> first | rfl | cases h

theorem Accounts.discounts (h : Accounts c s) {url : U} {success : Bool} {sender : Sender U}
    {done lost : ℕ} (hk : s.sockets[i]? = some ⟨url, .counting success⟩)
    (hsender : sender = s.sender ∨ s.sender = .wait ∧ sender = .woken) :
    Accounts c { s with
      curJobs := s.curJobs - 1, sender := sender, success := done, failure := lost
      sockets := s.sockets.set i ⟨url, .leaving⟩ } := by
  obtain ⟨hout, hothers⟩ := h.inside hk rfl
  have howner := h.receiver i _ hk rfl
  have hsame : holds sender = false ∧ belowLimit sender = belowLimit s.sender := by
    rcases hsender with rfl | ⟨hw, rfl⟩
    · exact ⟨hout, rfl⟩
    · rw [hw]
      exact ⟨rfl, rfl⟩
  have hcount := countP_set_add isCounted ⟨url, .leaving⟩ hk
  have hold := h.count
  rw [due_of_not_holds hout] at hold
  simp only [isCounted, if_true, Bool.false_eq_true, if_false] at hcount
  refine ⟨?_, ?_, ?_, ?_, ?_, ?_⟩
  · intro hs
    rw [hsame.1] at hs
    cases hs
  · intro j x hx hin
    rcases getElem?_set_cases hx with rfl | ⟨hji, hxold⟩
    · by_cases hji : j = i
      · rw [hji]
        exact howner
      · rw [List.getElem?_set_ne (Ne.symm hji)] at hx
        rw [hothers j _ hji hx] at hin
        cases hin
    · rw [hothers j x hji hxold] at hin
      cases hin
  · simp only [due_of_not_holds hsame.1]
    omega
  · simp only
    omega
  · intro hmax
    have := h.limit hmax
    simp only
    omega
  · intro hmax hb
    have := h.below hmax (hsame.2 ▸ hb)
    simp only
    omega

theorem Accounts.leaves (h : Accounts c s) {url : U}
    (hk : s.sockets[i]? = some ⟨url, .leaving⟩) :
    Accounts c { s with owner := none, sockets := s.sockets.set i ⟨url, .finished⟩ } := by
  obtain ⟨hout, hothers⟩ := h.inside hk rfl
  refine ⟨?_, ?_, ?_, h.nonneg, h.limit, h.below⟩
  · intro hs
    rw [hout] at hs
    cases hs
  · intro j x hx hin
    rcases getElem?_set_cases hx with rfl | ⟨hji, hxold⟩
    · cases hin
    · rw [hothers j x hji hxold] at hin
      cases hin
  · have hcount := countP_set_add isCounted ⟨url, .finished⟩ hk
    rw [h.count]
    simp only [isCounted, Bool.false_eq_true, if_false] at hcount ⊢
    omega

theorem Accounts.step (h : Accounts c s) (hs : Steps (next c) s e t) : Accounts c t := by
  cases next_moves hs with
  | popRaw | found | lost | pushDns | pushRawUrl | turns | passes | fails | clears =>
    exact h.frame rfl rfl rfl rfl
  | lock hpc hfree =>
    refine h.sends rfl rfl ?_ (fun _ => rfl) (.inr (.inl hfree)) nofun
    rcases hpc with hpc | hpc <;> rw [hpc] <;> rfl
  | sleeps hpc _ =>
    refine h.sends rfl rfl (by rw [hpc]; rfl) nofun (.inr (.inr ?_)) nofun
    exact h.sender (by rw [hpc]; rfl)
  | goesOn hpc hmax =>
    refine h.sends rfl rfl (by rw [hpc]; rfl) (fun _ => h.sender (by rw [hpc]; rfl)) (.inl rfl) ?_
    intro hpos _
    exact lt_of_le_of_ne (h.limit hpos) hmax
  | popDns hpc _ =>
    refine h.sends rfl rfl (by rw [hpc]; rfl) (fun _ => h.sender (by rw [hpc]; rfl)) (.inl rfl) ?_
    exact fun hpos _ => h.below hpos (by rw [hpc]; rfl)
  | sends hpc => exact h.send_request hpc
  | givesUp hpc =>
    exact h.sends rfl rfl (by rw [hpc]; rfl) (fun _ => h.sender (by rw [hpc]; rfl)) (.inl rfl) nofun
  | counts hpc => exact h.counts hpc
  | unlock hpc =>
    refine h.sends rfl rfl (by rw [hpc]; rfl) nofun (.inr (.inr ?_)) nofun
    exact h.sender (by rw [hpc]; rfl)
  | spurious hpc => exact h.sends rfl rfl (by rw [hpc]; rfl) nofun (.inl rfl) nofun
  | recvResponse hk => exact h.moves_socket hk rfl rfl rfl rfl rfl rfl
  | enters hk hfree => exact h.enters hk hfree
  | discounts hk hsender => exact h.discounts hk hsender
  | leaves hk => exact h.leaves hk
  | @handles _ _ readable _ _ _ hk =>
    refine h.moves_socket hk rfl rfl rfl rfl ?_ ?_ <;> cases readable <;> rfl

theorem accounts_run {ts : List (Taken (State U) (Event U))}
    (h : Run (Started c) (Steps (next c)) ts s) : Accounts c s :=
  h.invariant (fun _ => accounts_started) fun _ _ _ hi hs => hi.step hs

def dropped (s : State U) : ℕ := s.sockets.countP isDropped

theorem countP_counted (h : ∀ k ∈ l, isInside k = false) :
    l.countP isCounted = l.countP isLive + l.countP isDropped := by
  induction l with
  | nil => rfl
  | cons k l ih =>
    have hrest := ih fun x hx => h x (List.mem_cons_of_mem _ hx)
    have hk := h k List.mem_cons_self
    simp only [List.countP_cons, hrest]
    obtain ⟨url, stage⟩ := k
    cases stage with
    | counting | leaving => cases hk
    | watched | receiving | stopping | finished | dropped =>
      simp only [isCounted, isLive, isDropped, if_true, Bool.false_eq_true, if_false]
      omega

theorem Accounts.free (h : Accounts c s) (hfree : s.owner = none) :
    s.curJobs = live s + dropped s := by
  have hout : holds s.sender = false := by
    by_contra hn
    have := h.sender (Bool.eq_true_of_not_eq_false hn)
    rw [hfree] at this
    cases this
  have hsockets : ∀ k ∈ s.sockets, isInside k = false := by
    intro k hk
    obtain ⟨i, hi⟩ := List.getElem?_of_mem hk
    by_contra hn
    have := h.receiver i k hi (Bool.eq_true_of_not_eq_false hn)
    rw [hfree] at this
    cases this
  have hcount := h.count
  rw [due_of_not_holds hout, countP_counted hsockets] at hcount
  simp only [live, dropped]
  omega

theorem Accounts.counted_iff (h : Accounts c s) (hfree : s.owner = none) :
    JobsCounted c s ↔ dropped s = 0 := by
  have hcount := h.free hfree
  constructor
  · intro hj
    have := hj.exact
    omega
  · intro hd
    refine ⟨by omega, by omega, ?_⟩
    exact fun hmax => ⟨h.nonneg, h.limit hmax⟩

theorem dropped_set (hk : s.sockets[i]? = some k) (h : isDropped k' = isDropped k) :
    (s.sockets.set i k').countP isDropped = dropped s := by
  have := countP_set_add isDropped k' hk
  rw [h] at this
  simp only [dropped]
  omega

theorem dropped_step (h : Moves c s e t) :
    (DropsSocket s e ∧ dropped t = dropped s + 1) ∨
      (¬ DropsSocket s e ∧ dropped t = dropped s) := by
  cases h with
  | popRaw | found | lost | pushDns | lock | sleeps | goesOn | popDns | givesUp | counts | unlock |
      spurious | pushRawUrl =>
    refine .inr ⟨?_, rfl⟩
    rintro ⟨_, _, _, ⟨⟩, _⟩
  | sends =>
    refine .inr ⟨?_, by simp [dropped, isDropped]⟩
    rintro ⟨_, _, _, ⟨⟩, _⟩
  | recvResponse hk | enters hk _ | discounts hk _ | leaves hk =>
    refine .inr ⟨?_, dropped_set hk rfl⟩
    rintro ⟨_, _, _, ⟨⟩, _⟩
  | turns hpc =>
    refine .inr ⟨?_, rfl⟩
    rintro ⟨_, i, rest, _, hmain⟩
    simp [hmain] at hpc
  | passes hpc | fails hpc | clears hpc =>
    refine .inr ⟨?_, rfl⟩
    rintro ⟨_, i, rest, _, hmain⟩
    simp [hmain] at hpc
  | @handles ready i readable rest url hpc hk =>
    cases readable with
    | true =>
      refine .inr ⟨?_, dropped_set hk rfl⟩
      rintro ⟨_, _, _, _, hmain⟩
      rw [hpc] at hmain
      cases hmain
    | false =>
      refine .inl ⟨⟨ready, i, rest, rfl, hpc⟩, ?_⟩
      have hcount := countP_set_add isDropped ⟨url, .dropped⟩ hk
      simpa only [dropped, isDropped, if_true, Bool.false_eq_true, if_false, add_zero] using hcount

theorem run_dropped {ts : List (Taken (State U) (Event U))}
    (h : Run (Started c) (Steps (next c)) ts s) :
    dropped s = 0 ↔ ∀ x ∈ ts, ¬ DropsSocket x.before x.event := by
  induction h with
  | start hs =>
    obtain ⟨seeds, _, rfl⟩ := hs
    simp [dropped, initialState]
  | snoc hr hs ih =>
    simp only [List.mem_append, List.mem_singleton, or_imp, forall_and, forall_eq, ← ih]
    rcases dropped_step (next_moves hs) with ⟨hdrop, hd⟩ | ⟨hkeep, hd⟩
    · simp [hd, hdrop]
    · simp [hd, hkeep]

/-- Where `m_mutex` is free, `m_curJobs` is right exactly as long as the event loop has
dropped no socket. -/
theorem jobsCounted_iff {ts : List (Taken (State U) (Event U))}
    (h : Run (Started c) (Steps (next c)) ts s) (hfree : s.owner = none) :
    JobsCounted c s ↔ ∀ x ∈ ts, ¬ DropsSocket x.before x.event := by
  rw [(accounts_run h).counted_iff hfree]
  exact run_dropped h

def firstJob : List (Event String) :=
  [.dnsThread true, .dnsThread true, .dnsThread true, .startJob true, .startJob true,
    .startJob true, .startJob true, .startJob true, .startJob true]

theorem first_job_counted :
    ∃ s, runTrace (next shippedConfig) (initialState ["tmooc.cn"]) firstJob = some s ∧
      s.curJobs = 1 ∧ JobsCounted shippedConfig s := by
  have hcheck : (runTrace (next shippedConfig) (initialState ["tmooc.cn"]) firstJob).any
      (fun s => s.owner = none ∧ s.curJobs = 1) = true := by decide
  obtain ⟨s, hs, hgood⟩ := (Option.any_eq_true _ _).mp hcheck
  obtain ⟨hfree, hcur⟩ := of_decide_eq_true hgood
  obtain ⟨us, hrun, hevents⟩ := runTrace_run (fun _ _ _ _ hs => hs) (.start started_shipped) hs
  refine ⟨s, hs, hcur, (jobsCounted_iff hrun hfree).mpr ?_⟩
  rintro x hx ⟨ready, i, rest, he, _⟩
  have hmem : x.event ∈ firstJob := by
    rw [← hevents]
    exact List.mem_map_of_mem hx
  rw [he] at hmem
  simp [firstJob] at hmem

/-- A hang-up of the one socket leaves the counter at 1 for good. -/
theorem hangup_keeps_job :
    ¬ ∀ (ts : List (Taken (State String) (Event String))) s,
      Run (Started shippedConfig) (Steps (next shippedConfig)) ts s → s.owner = none →
        JobsCounted shippedConfig s := by
  intro h
  have hcheck : (runTrace (next shippedConfig) (initialState ["tmooc.cn"])
      (firstJob ++ [.exec [(0, false)], .exec []])).any
      (fun s => s.owner = none ∧ s.curJobs = 1 ∧ live s = 0) = true := by decide
  obtain ⟨s, hs, hbad⟩ := (Option.any_eq_true _ _).mp hcheck
  obtain ⟨hfree, hcur, hlive⟩ := of_decide_eq_true hbad
  obtain ⟨us, hrun, -⟩ := runTrace_run (fun _ _ _ _ hs => hs) (.start started_shipped) hs
  have hzero := (h _ s hrun hfree).done hlive
  rw [hcur] at hzero
  cases hzero

end CrawlJobs
