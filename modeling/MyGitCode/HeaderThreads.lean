import Mathlib.Data.Fintype.Basic
import Mathlib.Logic.Function.Basic
import MyGitCode.HttpHeader
import MyGitCode.TransitionRuns

/-! # Receiver threads that parse headers at the same time

All threads share the position that `strtok` saves. Each call of `split` has a buffer of
its own, which is gone when the call returns. -/
namespace HeaderThreads

open TransitionRuns StrKit HttpHeader

structure Ptr where
  block : ℕ
  offset : ℕ
  deriving DecidableEq, Repr

/-- A call of `split` under way: its buffer `temp`, what is left of `limit`, the parts found
so far, and whether `strtok` is still to be called with `temp`. -/
structure Frame where
  call : Call
  resume : Resume
  temp : ℕ
  limit : ℤ
  strv : List (List Char)
  first : Bool
  deriving DecidableEq, Repr

/-- `stray` stands for undefined behaviour: `strtok` without a position saved, a buffer
that is gone, a read past the end, the difference of pointers into two buffers. -/
inductive Thread where
  | start
  | calling (f : Frame)
  | reading (f : Frame) (token : Ptr)
  | returning (f : Frame)
  | done (header : Header)
  | stray
  deriving DecidableEq, Repr

/-- The buffers in use, the position that `strtok` saved last, and, for each thread, the
position that its own last call saved, which the code does not keep. -/
structure State (T : Type*) where
  mem : ℕ → Option (List Char)
  fresh : ℕ
  saved : Option Ptr
  own : T → Option Ptr
  thread : T → Thread

/-- A header text has no NUL, as it was found with `strstr`. -/
structure HeaderText where
  text : List Char
  noNul : nul ∉ text

variable {T : Type*}

def initialState : State T := ⟨fun _ => none, 0, none, fun _ => none, fun _ => .start⟩

inductive Event (T : Type*) where
  | parseHeader (t : T)
  | strtok (t : T)
  | read (t : T)
  | leave (t : T)
  deriving DecidableEq

section Steps

variable [DecidableEq T]

def State.setThread (s : State T) (t : T) (thread : Thread) : State T :=
  { s with thread := Function.update s.thread t thread }

/-- The thread enters the next call of `split`, with its copy of the string, or is done. -/
def State.go (s : State T) (t : T) : Outcome → State T
  | .call c resume => { s.setThread t (.calling ⟨c, resume, s.fresh, c.limit, [], true⟩) with
      mem := Function.update s.mem s.fresh (some (c.str ++ [nul]))
      fresh := s.fresh + 1 }
  | .done header => s.setThread t (.done header)

def position (s : State T) (f : Frame) : Option Ptr :=
  if f.first then some ⟨f.temp, 0⟩ else s.saved

def callStrtok (s : State T) (t : T) (f : Frame) : State T :=
  match position s f with
  | none => s.setThread t .stray
  | some p =>
    match s.mem p.block with
    | none => s.setThread t .stray
    | some buf =>
      match strtok buf f.call.delim p.offset with
      | none => s.setThread t .stray
      | some r =>
        let thread := match r.token with
          | none => .returning f
          | some token => .reading { f with first := false } ⟨p.block, token⟩
        { s.setThread t thread with
          mem := Function.update s.mem p.block (some r.buf)
          saved := some ⟨p.block, r.saved⟩
          own := Function.update s.own t (some ⟨p.block, r.saved⟩) }

def readToken (s : State T) (t : T) (f : Frame) (token : Ptr) : State T :=
  match s.mem token.block with
  | none => s.setThread t .stray
  | some buf =>
    let part := cString buf token.offset
    let stop := token.offset + part.length
    let g := { f with limit := f.limit - 1, strv := f.strv ++ [trim part] }
    if f.limit - 1 = 0 then
      if token.block ≠ f.temp then s.setThread t .stray
      else if stop < f.call.str.length then
        s.setThread t (.returning { g with strv := g.strv ++ [trim (cString buf (stop + 1))] })
      else s.setThread t (.calling g)
    else s.setThread t (.calling g)

def next (texts : T → HeaderText) (s : State T) : Event T → Option (State T)
  | .parseHeader t =>
    match s.thread t with
    | .start => some (s.go t (begin (texts t).text))
    | _ => none
  | .strtok t =>
    match s.thread t with
    | .calling f => some (callStrtok s t f)
    | _ => none
  | .read t =>
    match s.thread t with
    | .reading f token => some (readToken s t f token)
    | _ => none
  | .leave t =>
    match s.thread t with
    | .returning f =>
      some (({ s with mem := Function.update s.mem f.temp none }).go t (f.resume.next f.strv))
    | _ => none

end Steps

/-- Every call of `split` returns what it returns alone, and every header is the thread's own. -/
structure HeadersOwn (texts : T → HeaderText) (s : State T) : Prop where
  parts : ∀ t f, s.thread t = .returning f → f.strv = split f.call.str f.call.delim f.call.limit
  header : ∀ t header, s.thread t = .done header → header = parseHeader (texts t).text
  sound : ∀ t, s.thread t ≠ .stray

/-- A thread that goes on with its string finds the position that its own last call saved. -/
def FindsOwn (s : State T) (e : Event T) : Prop :=
  ∀ t f, e = .strtok t → s.thread t = .calling f → f.first = false → s.saved = s.own t

def findsOwn (s : State T) (t : T) : Bool :=
  match s.thread t with
  | .calling f => f.first || s.saved = s.own t
  | _ => true

theorem findsOwn_of {s : State T} {e : Event T} (h : ∀ t, e = .strtok t → findsOwn s t = true) :
    FindsOwn s e := by
  rintro t f rfl ht hfirst
  have hown := h t rfl
  simp only [findsOwn, ht, hfirst, Bool.false_or] at hown
  exact of_decide_eq_true hown

variable {texts : T → HeaderText} {s s' : State T} {e : Event T} {t u : T} {f g : Frame}

def alone (f : Frame) : List (List Char) := split f.call.str f.call.delim f.call.limit

/-- What a thread keeps while a call of `split` is under way. -/
structure Framed (texts : T → HeaderText) (s : State T) (t : T) (f : Frame) : Prop where
  allocated : f.temp < s.fresh
  delim : nul ∉ f.call.delim
  header : f.resume.header (alone f) = parseHeader (texts t).text

/-- The frame's buffer, and the position of its next call of `strtok`. -/
structure Placed (s : State T) (t : T) (f : Frame) (buf : List Char) (pos : ℕ) : Prop where
  mem : s.mem f.temp = some buf
  terminated : Terminated buf
  inside : pos < buf.length
  start : f.first = true → pos = 0
  own : f.first = false → s.own t = some ⟨f.temp, pos⟩

/-- What holds of one thread: the rest of its loop, run alone, gives the parts it should. -/
def Sound (texts : T → HeaderText) (s : State T) (t : T) : Prop :=
  match s.thread t with
  | .start => True
  | .calling f => Framed texts s t f ∧ ∃ buf pos, Placed s t f buf pos ∧
      splitLoop f.call.delim f.call.str.length buf pos f.limit f.strv = alone f
  | .reading f token => Framed texts s t f ∧ token.block = f.temp ∧ f.first = false ∧
      ∃ buf pos, Placed s t f buf pos ∧
        loopBody f.call.delim f.call.str.length buf pos f.limit f.strv token.offset = alone f
  | .returning f => Framed texts s t f ∧ f.strv = alone f
  | .done header => header = parseHeader (texts t).text
  | .stray => False

def frame? : Thread → Option Frame
  | .calling f | .reading f _ | .returning f => some f
  | .start | .done _ | .stray => none

structure Safe (texts : T → HeaderText) (s : State T) : Prop where
  sound : ∀ t, Sound texts s t
  apart : ∀ t u f g, frame? (s.thread t) = some f → frame? (s.thread u) = some g →
    f.temp = g.temp → t = u

theorem safe_initial : Safe texts initialState where
  sound _ := trivial
  apart t u f g hf := by cases hf

theorem Safe.headersOwn (h : Safe texts s) : HeadersOwn texts s where
  parts t f ht := by
    have := h.sound t
    simp only [Sound, ht] at this
    exact this.2
  header t header ht := by
    have := h.sound t
    simpa only [Sound, ht] using this
  sound t ht := by
    have := h.sound t
    simp only [Sound, ht] at this

theorem Sound.framed (h : Sound texts s t) (hf : frame? (s.thread t) = some f) :
    Framed texts s t f := by
  unfold Sound at h
  split at h <;> rename_i hthread <;> rw [hthread] at hf <;> cases hf
  · exact h.1
  · exact h.1
  · exact h.1

theorem Placed.kept {buf : List Char} {pos : ℕ} (h : Placed s t f buf pos)
    (hmem : s'.mem f.temp = s.mem f.temp) (hown : s'.own t = s.own t) :
    Placed s' t f buf pos :=
  ⟨hmem.trans h.mem, h.terminated, h.inside, h.start, fun hf => hown.trans (h.own hf)⟩

theorem Framed.kept (h : Framed texts s t f) (hfresh : s.fresh ≤ s'.fresh) :
    Framed texts s' t f :=
  ⟨lt_of_lt_of_le h.allocated hfresh, h.delim, h.header⟩

theorem Sound.kept (h : Sound texts s t) (hthread : s'.thread t = s.thread t)
    (hown : s'.own t = s.own t) (hfresh : s.fresh ≤ s'.fresh)
    (hmem : ∀ f, frame? (s.thread t) = some f → s'.mem f.temp = s.mem f.temp) :
    Sound texts s' t := by
  unfold Sound at h ⊢
  rw [hthread]
  cases hcase : s.thread t with
  | start => trivial
  | calling f =>
    rw [hcase] at h hmem
    obtain ⟨hframed, buf, pos, hplaced, hloop⟩ := h
    exact ⟨hframed.kept hfresh, buf, pos, hplaced.kept (hmem f rfl) hown, hloop⟩
  | reading f token =>
    rw [hcase] at h hmem
    obtain ⟨hframed, hblock, hfirst, buf, pos, hplaced, hloop⟩ := h
    exact ⟨hframed.kept hfresh, hblock, hfirst, buf, pos, hplaced.kept (hmem f rfl) hown, hloop⟩
  | returning f =>
    rw [hcase] at h
    exact ⟨h.1.kept hfresh, h.2⟩
  | done header =>
    rw [hcase] at h
    exact h
  | stray =>
    rw [hcase] at h
    exact h.elim

theorem Safe.move (h : Safe texts s) (hfresh : s.fresh ≤ s'.fresh)
    (hothers : ∀ u, u ≠ t → s'.thread u = s.thread u ∧ s'.own u = s.own u)
    (hmem : ∀ u, u ≠ t → ∀ f, frame? (s.thread u) = some f → s'.mem f.temp = s.mem f.temp)
    (ht : Sound texts s' t)
    (htemp : ∀ f, frame? (s'.thread t) = some f →
      f.temp = s.fresh ∨ ∃ g, frame? (s.thread t) = some g ∧ g.temp = f.temp) :
    Safe texts s' := by
  have hapart : ∀ u f g, u ≠ t → frame? (s'.thread t) = some f →
      frame? (s'.thread u) = some g → f.temp ≠ g.temp := by
    intro u f g hu hf hg hfg
    rw [(hothers u hu).1] at hg
    rcases htemp f hf with hnew | ⟨f', hf', hold⟩
    · have := ((h.sound u).framed hg).allocated
      omega
    · exact hu (h.apart t u f' g hf' hg (hold.trans hfg)).symm
  constructor
  · intro u
    by_cases hu : u = t
    · rw [hu]
      exact ht
    · exact (h.sound u).kept (hothers u hu).1 (hothers u hu).2 hfresh (hmem u hu)
  · intro u v f g hf hg hfg
    by_cases hu : u = t
    · by_cases hv : v = t
      · rw [hu, hv]
      · exact absurd hfg (hapart v f g hv (hu ▸ hf) hg)
    · by_cases hv : v = t
      · exact absurd hfg.symm (hapart u g f hu (hv ▸ hg) hf)
      · rw [(hothers u hu).1] at hf
        rw [(hothers v hv).1] at hg
        exact h.apart u v f g hf hg hfg

theorem position_own {buf : List Char} {pos : ℕ} (hp : Placed s t f buf pos)
    (hown : f.first = false → s.saved = s.own t) : position s f = some ⟨f.temp, pos⟩ := by
  rw [position]
  cases hf : f.first with
  | true =>
    rw [hp.start hf]
    rfl
  | false =>
    rw [← hp.own hf, ← hown hf]
    rfl

section Steps

variable [DecidableEq T]

theorem Safe.go (h : Safe texts s) {o : Outcome} (mem : ℕ → Option (List Char))
    (hmem : ∀ u, u ≠ t → ∀ f, frame? (s.thread u) = some f → mem f.temp = s.mem f.temp)
    (hheader : o.header = parseHeader (texts t).text)
    (hdelim : ∀ c resume, o = .call c resume → nul ∉ c.delim) :
    Safe texts (({ s with mem := mem }).go t o) := by
  cases o with
  | done header =>
    refine h.move (t := t) le_rfl ?_ hmem ?_ ?_
    · intro u hu
      exact ⟨Function.update_of_ne hu _ _, rfl⟩
    · simp only [Sound, State.go, State.setThread, Function.update_self]
      exact hheader
    · intro f hf
      simp [State.go, State.setThread, frame?] at hf
  | call c resume =>
    refine h.move (t := t) (Nat.le_succ _) ?_ ?_ ?_ ?_
    · intro u hu
      exact ⟨Function.update_of_ne hu _ _, rfl⟩
    · intro u hu f hf
      have hlt := ((h.sound u).framed hf).allocated
      rw [← hmem u hu f hf]
      exact Function.update_of_ne (show f.temp ≠ s.fresh by omega) _ _
    · simp only [Sound, State.go, State.setThread, Function.update_self]
      refine ⟨⟨Nat.lt_succ_self _, hdelim c resume rfl, hheader⟩, c.str ++ [nul], 0, ?_, rfl⟩
      exact ⟨Function.update_self .., terminated_append _, by simp, fun _ => rfl, nofun⟩
    · intro f hf
      simp only [State.go, State.setThread, Function.update_self, frame?,
        Option.some.injEq] at hf
      exact .inl (by rw [← hf])

theorem Safe.callStrtok (h : Safe texts s) (ht : s.thread t = .calling f)
    (hown : f.first = false → s.saved = s.own t) : Safe texts (callStrtok s t f) := by
  have hsound := h.sound t
  simp only [Sound, ht] at hsound
  obtain ⟨hframed, buf, pos, hplaced, hloop⟩ := hsound
  obtain ⟨r, hr, hlen, hterm, hin⟩ := strtok_inside hplaced.terminated hplaced.inside hframed.delim
  simp only [HeaderThreads.callStrtok, position_own hplaced hown, hplaced.mem, hr]
  refine h.move (t := t) le_rfl ?_ ?_ ?_ ?_
  · intro u hu
    exact ⟨Function.update_of_ne hu _ _, Function.update_of_ne hu _ _⟩
  · intro u hu g hg
    refine Function.update_of_ne ?_ _ _
    intro hgf
    exact hu (h.apart u t g f hg (by rw [ht]; rfl) hgf)
  · simp only [Sound, State.setThread, Function.update_self]
    cases htok : r.token with
    | none =>
      rw [splitLoop_end hr htok] at hloop
      exact ⟨hframed.kept le_rfl, hloop⟩
    | some token =>
      rw [splitLoop_token hr htok] at hloop
      refine ⟨⟨hframed.allocated, hframed.delim, hframed.header⟩, rfl, rfl, r.buf, r.saved,
        ?_, hloop⟩
      exact ⟨Function.update_self .., hterm, hin, nofun, fun _ => Function.update_self ..⟩
  · intro g hg
    refine .inr ⟨f, by rw [ht]; rfl, ?_⟩
    simp only [State.setThread, Function.update_self] at hg
    cases htok : r.token <;> rw [htok] at hg <;> cases hg <;> rfl

theorem Safe.readToken (h : Safe texts s) {token : Ptr} (ht : s.thread t = .reading f token) :
    Safe texts (readToken s t f token) := by
  have hsound := h.sound t
  simp only [Sound, ht] at hsound
  obtain ⟨hframed, hblock, hfirst, buf, pos, hplaced, hloop⟩ := hsound
  -- the thread stays in its frame, whatever its next stage is
  have hmove : ∀ thread, (∀ g, frame? thread = some g → g.temp = f.temp) →
      Sound texts (s.setThread t thread) t → Safe texts (s.setThread t thread) := by
    intro thread htemp hs
    refine h.move (t := t) le_rfl ?_ (fun _ _ _ _ => rfl) hs ?_
    · intro u hu
      exact ⟨Function.update_of_ne hu _ _, rfl⟩
    · intro g hg
      simp only [State.setThread, Function.update_self] at hg
      exact .inr ⟨f, by rw [ht]; rfl, (htemp g hg).symm⟩
  have hcalls : ∀ limit strv,
      splitLoop f.call.delim f.call.str.length buf pos limit strv = alone f →
        Safe texts (s.setThread t (.calling { f with limit := limit, strv := strv })) := by
    intro limit strv hrest
    apply hmove
    · rintro g ⟨⟩
      rfl
    · simp only [Sound, State.setThread, Function.update_self]
      exact ⟨⟨hframed.allocated, hframed.delim, hframed.header⟩, buf, pos,
        ⟨hplaced.mem, hplaced.terminated, hplaced.inside, hplaced.start, hplaced.own⟩, hrest⟩
  simp only [HeaderThreads.readToken, hblock, hplaced.mem]
  rw [loopBody] at hloop
  split
  · rename_i hlimit
    rw [if_neg (by simp)]
    split
    · rename_i hstop
      rw [if_pos ⟨hlimit, hstop⟩] at hloop
      apply hmove
      · rintro g ⟨⟩
        rfl
      · simp only [Sound, State.setThread, Function.update_self]
        exact ⟨⟨hframed.allocated, hframed.delim, hframed.header⟩, hloop⟩
    · rename_i hstop
      rw [if_neg fun hn => hstop hn.2] at hloop
      exact hcalls _ _ hloop
  · rename_i hlimit
    rw [if_neg fun hn => hlimit hn.1] at hloop
    exact hcalls _ _ hloop

theorem Safe.step (h : Safe texts s) (hc : FindsOwn s e) (hs : Steps (next texts) s e s') :
    Safe texts s' := by
  cases e with
  | parseHeader t =>
    simp only [Steps, next] at hs
    split at hs
    · cases hs
      exact h.go s.mem (fun _ _ _ _ => rfl) (begin_header _) fun _ _ => begin_delim
    · cases hs
  | strtok t =>
    simp only [Steps, next] at hs
    split at hs
    · rename_i f ht
      cases hs
      exact h.callStrtok ht (hc t f rfl ht)
    · cases hs
  | read t =>
    simp only [Steps, next] at hs
    split at hs
    · rename_i f token ht
      cases hs
      exact h.readToken ht
    · cases hs
  | leave t =>
    simp only [Steps, next] at hs
    split at hs
    · rename_i f ht
      cases hs
      have hsound := h.sound t
      simp only [Sound, ht] at hsound
      obtain ⟨hframed, hparts⟩ := hsound
      refine h.go _ ?_ ?_ fun _ _ => next_delim
      · intro u hu g hg
        refine Function.update_of_ne ?_ _ _
        intro hgf
        exact hu (h.apart u t g f hg (by rw [ht]; rfl) hgf)
      · rw [next_header, hparts]
        exact hframed.header
    · cases hs

/-- In a run in which every call of `strtok` that goes on finds its own position, all calls
of `split` and all headers are what they are alone. -/
theorem run_headersOwn {ts : List (Taken (State T) (Event T))}
    (h : Run (· = initialState) (Steps (next texts)) ts s)
    (hc : ∀ x ∈ ts, FindsOwn x.before x.event) : HeadersOwn texts s := by
  have hsafe : Safe texts s := by
    refine h.guarded (C := FindsOwn) ?_ (fun s e s' hs hc he => hs.step hc he) hc
    rintro s rfl
    exact safe_initial
  exact hsafe.headersOwn

theorem go_saved (o : Outcome) (h : s.saved = s.own t) :
    (s.go u o).saved = (s.go u o).own t := by
  cases o <;> exact h

theorem callStrtok_saved (h : s.saved = s.own t) :
    (callStrtok s t f).saved = (callStrtok s t f).own t := by
  unfold callStrtok
  split
  · exact h
  · split
    · exact h
    · split
      · exact h
      · exact (Function.update_self t _ s.own).symm

theorem readToken_saved {token : Ptr} (h : s.saved = s.own t) :
    (readToken s u f token).saved = (readToken s u f token).own t := by
  unfold readToken
  split
  · exact h
  · simp only
    split
    · split
      · exact h
      · split <;> exact h
    · exact h

/-- Where one thread alone calls `strtok`, it always finds its own position. -/
theorem one_thread_finds_own {ts : List (Taken (State T) (Event T))}
    (h : Run (· = initialState) (Steps (next texts)) ts s)
    (hone : ∀ x ∈ ts, ∀ u, x.event = .strtok u → u = t) :
    ∀ x ∈ ts, FindsOwn x.before x.event := by
  refine h.all_steps (C := fun _ e => ∀ u, e = .strtok u → u = t) (I := fun s => s.saved = s.own t)
    (Q := fun s e _ => FindsOwn s e) ?_ ?_ hone
  · rintro s rfl
    rfl
  · intro s e s' hsaved hu hs
    refine ⟨?_, fun u f he _ _ => by rw [hu u he, hsaved]⟩
    cases e with
    | parseHeader u =>
      simp only [Steps, next] at hs
      split at hs <;> cases hs
      exact go_saved _ hsaved
    | strtok u =>
      obtain rfl := hu u rfl
      simp only [Steps, next] at hs
      split at hs <;> cases hs
      exact callStrtok_saved hsaved
    | read u =>
      simp only [Steps, next] at hs
      split at hs <;> cases hs
      exact readToken_saved hsaved
    | leave u =>
      simp only [Steps, next] at hs
      split at hs <;> cases hs
      exact go_saved _ hsaved

end Steps

def typedTexts : Bool → HeaderText
  | false => ⟨"HTTP/1.1 200 OK\r\nContent-Type: a/b\r\nServer: x".toList, by decide⟩
  | true => ⟨"HTTP/1.1 404 Not Found\r\nContent-Type: c/d\r\nServer: y".toList, by decide⟩

def inTurns : List (Event Bool) :=
  [.parseHeader false, .parseHeader true, .strtok false, .read false, .strtok false, .strtok true,
    .read false, .leave false, .read true, .strtok true, .read true, .strtok false, .leave true,
    .read false, .strtok true, .leave false, .read true, .leave true]

theorem headersOwn_inTurns : ∃ s, runTrace (next typedTexts) initialState inTurns = some s ∧
    s.thread false = .done ⟨200, "a/b".toList⟩ ∧ s.thread true = .done ⟨404, "c/d".toList⟩ ∧
      HeadersOwn typedTexts s := by
  have hcheck : (runTrace (next typedTexts) initialState inTurns).any (fun s =>
      s.thread false = .done ⟨200, "a/b".toList⟩ ∧
        s.thread true = .done ⟨404, "c/d".toList⟩) = true := by decide +kernel
  obtain ⟨s, hs, hdone⟩ := (Option.any_eq_true _ _).mp hcheck
  obtain ⟨hfalse, htrue⟩ := of_decide_eq_true hdone
  refine ⟨s, hs, hfalse, htrue, run_headersOwn (takenSteps_run (.start rfl) hs) ?_⟩
  have hown : ∀ x ∈ takenSteps (next typedTexts) initialState inTurns, ∀ t,
      x.event = .strtok t → findsOwn x.before t = true := by decide +kernel
  exact fun x hx => findsOwn_of (hown x hx)

def twoTexts : Bool → HeaderText
  | false => ⟨"HTTP/1.1 200 OK\r\nServer: nginx".toList, by decide⟩
  | true => ⟨"HTTP/1.1 200\r\nServer: nginx".toList, by decide⟩

/-- The second thread is at the end of its status line when the first one goes on: the
first finds no further part, and its response gets the status code 600. -/
theorem second_response_ends_first : ¬ ∀ (ts : List (Taken (State Bool) (Event Bool))) s,
    Run (· = initialState) (Steps (next twoTexts)) ts s → HeadersOwn twoTexts s := by
  intro h
  have hcheck : (runTrace (next twoTexts) initialState
      [.parseHeader false, .strtok false, .parseHeader true, .strtok true, .read true, .strtok true,
        .read true, .read false, .strtok false, .leave false]).any
      (fun s => s.thread false = .done ⟨600, []⟩) = true := by decide +kernel
  obtain ⟨s, hs, hdone⟩ := (Option.any_eq_true _ _).mp hcheck
  obtain ⟨us, hrun, -⟩ : ∃ us, Run (· = initialState) (Steps (next twoTexts)) ([] ++ us) s ∧ _ :=
    runTrace_run (fun _ _ _ _ hs => hs) (.start rfl) hs
  have hown := (h _ s hrun).header false _ (of_decide_eq_true hdone)
  have halone : parseHeader (twoTexts false).text = ⟨200, []⟩ := by decide +kernel
  rw [halone] at hown
  cases hown

end HeaderThreads
