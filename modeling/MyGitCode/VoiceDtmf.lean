import Mathlib.Data.List.TakeDrop
import MyGitCode.TransitionRuns
import MyGitCode.VoicePhone

/-! # The digit queue between the device handler and the sender thread

Every read and write of the queue is a step. The sender holds `jan_key_signal` over its
loop, but the handler, which nothing else runs beside, takes no lock. A call begins and
ends with the on-hook that clears the queue. -/
namespace VoiceDtmf

open TransitionRuns VoicePhone

/-- The next step of `jan_voice_al_digit_dtmf_thread`. -/
inductive Sender where
  | lock | testHead
  | testTail (head : ℕ)
  | wait | waiting | woken | loopHead
  | loopTail (head : ℕ)
  | slotHead
  | slot (head : ℕ)
  | start (digit : Char)
  | stop | incHead
  | incStore (head : ℕ)
  | unlock
  deriving DecidableEq, Repr

/-- The next step of `jan_voice_core_device_event_handle`. A digit is `none` where reading it
from the device fails. -/
inductive Handler where
  | idle
  | limit (digit : Option Char)
  | store (digit : Option Char)
  | bumpTail | checkHead
  | checkSlot (head : ℕ)
  | signal | resetHead | resetTail
  deriving DecidableEq, Repr

/-- `pressed` and `sent` are the digits of the current call. No code reads them. -/
structure State where
  queue : DtmfQueue
  sender : Sender
  handler : Handler
  pressed : List Char
  sent : List Char

def initialState : State := ⟨⟨Vector.replicate 64 nul, 0, 0⟩, .lock, .idle, [], []⟩

def digitAt (q : DtmfQueue) (i : ℕ) : Char := q.dtmfNum[i]?.getD nul

def senderStep (s : State) : Option State :=
  match s.sender with
  | .lock => some { s with sender := .testHead }
  | .testHead => some { s with sender := .testTail s.queue.head }
  | .testTail head => some { s with sender := if head = s.queue.tail then .wait else .loopHead }
  | .wait => some { s with sender := .waiting }
  | .waiting => none
  | .woken => some { s with sender := .loopHead }
  | .loopHead => some { s with sender := .loopTail s.queue.head }
  | .loopTail head => some { s with sender := if head < s.queue.tail then .slotHead else .unlock }
  | .slotHead => some { s with sender := .slot s.queue.head }
  | .slot head => some { s with sender := .start (digitAt s.queue head) }
  | .start digit => some { s with sender := .stop, sent := s.sent ++ [digit] }
  | .stop => some { s with sender := .incHead }
  | .incHead => some { s with sender := .incStore s.queue.head }
  | .incStore head =>
    some { s with queue := { s.queue with head := head + 1 }, sender := .loopHead }
  | .unlock => some { s with sender := .lock }

def Sender.signalled : Sender → Sender
  | .waiting => .woken
  | pc => pc

/-- A key pressed on a full queue stays unread. -/
def handlerStep (s : State) : Option State :=
  match s.handler with
  | .idle => none
  | .limit digit =>
    if s.queue.tail < 63 then some { s with handler := .store digit }
    else some { s with handler := .idle, pressed := s.pressed ++ digit.toList }
  | .store none => some { s with handler := .idle }
  | .store (some digit) => some { s with
      queue := { s.queue with dtmfNum := s.queue.dtmfNum.setIfInBounds s.queue.tail digit }
      handler := .bumpTail
      pressed := s.pressed ++ [digit] }
  | .bumpTail => some { s with
      queue := { s.queue with tail := s.queue.tail + 1 }, handler := .checkHead }
  | .checkHead => some { s with handler := .checkSlot s.queue.head }
  | .checkSlot head =>
    some { s with handler := if digitAt s.queue head ≠ nul then .signal else .idle }
  | .signal => some { s with handler := .idle, sender := s.sender.signalled }
  | .resetHead => some { s with
      queue := { s.queue with head := 0 }, handler := .resetTail, pressed := [], sent := [] }
  | .resetTail => some { s with queue := { s.queue with tail := 0 }, handler := .idle }

inductive Event where
  | press (digit : Option Char)
  | onHook
  | handler
  | sender
  | spurious
  deriving DecidableEq, Repr

def next (s : State) : Event → Option State
  | .press digit => if s.handler = .idle then some { s with handler := .limit digit } else none
  | .onHook => if s.handler = .idle then some { s with handler := .resetHead } else none
  | .handler => handlerStep s
  | .sender => senderStep s
  | .spurious => if s.sender = .waiting then some { s with sender := .woken } else none

/-- What the queue promises: a prefix of the keys of a call is sent, the indices stay in
order, and between two events of the device the sender sleeps on an empty queue only. -/
structure Delivers (s : State) : Prop where
  sent : s.pressed.length ≤ 63 → s.sent <+: s.pressed
  order : s.queue.head ≤ s.queue.tail
  awake : s.sender = .waiting → s.handler = .idle → ¬ s.queue.head < s.queue.tail

/-- Between the end of the loop test and the store of `head++`. -/
def Sender.sending : Sender → Bool
  | .slotHead | .slot _ | .start _ | .stop | .incHead | .incStore _ => true
  | _ => false

/-- Whether the sender goes on with a `head` it has read. -/
def Sender.relies : Sender → Bool
  | .testTail _ => true
  | pc => pc.sending

def Sender.passes (tail : ℕ) : Sender → Bool
  | .loopTail head => head < tail
  | _ => false

/-- No reset of `head` under a sender that relies on it, no loop test passed between the two
writes of a reset, no signal between the emptiness test and the wait, and no NUL key. -/
def Careful (s : State) : Event → Prop
  | .handler =>
    (s.handler = .resetHead → s.sender.relies = false) ∧
      (s.handler = .signal → s.sender ≠ .wait) ∧ s.handler ≠ .store (some nul)
  | .sender => s.handler = .resetTail → s.sender.passes s.queue.tail = false
  | _ => True

instance (s : State) : DecidablePred (Careful s)
  | .handler => inferInstanceAs (Decidable (_ ∧ _ ∧ _))
  | .sender => inferInstanceAs (Decidable (_ → _))
  | .press _ | .onHook | .spurious => .isTrue trivial

def State.live (s : State) : ℕ :=
  match s.handler with
  | .resetTail => 0
  | .bumpTail => s.queue.tail + 1
  | _ => s.queue.tail

/-- The keys sent, one more than `head` from the sending to the store of `head++`. -/
def State.done (s : State) : ℕ :=
  match s.sender with
  | .stop | .incHead | .incStore _ => s.queue.head + 1
  | _ => s.queue.head

structure InStep (s : State) : Prop where
  order : s.queue.head ≤ s.queue.tail
  bound : s.queue.tail ≤ 63
  stored : ∀ i < s.live, s.pressed[i]? = some (digitAt s.queue i) ∧ digitAt s.queue i ≠ nul
  count : s.pressed.length = s.live ∨ 63 ≤ s.live
  room : (∃ digit, s.handler = .store digit) ∨ s.handler = .bumpTail → s.queue.tail < 63
  reset : s.handler = .resetTail → s.queue.head = 0
  sent : s.sent = s.pressed.take s.done
  sending : s.sender.sending = true → s.handler ≠ .resetTail ∧ s.queue.head < s.queue.tail
  read : ∀ head, s.sender = .testTail head ∨ s.sender = .slot head ∨ s.sender = .incStore head →
    head = s.queue.head
  digit : ∀ digit, s.sender = .start digit → digit = digitAt s.queue s.queue.head
  loop : ∀ head, s.sender = .loopTail head → s.queue.head ≤ head
  awake : s.sender = .wait ∨ s.sender = .waiting → s.queue.head < s.queue.tail →
    s.handler = .checkHead ∨ s.handler = .checkSlot s.queue.head ∨ s.handler = .signal ∨
      s.handler = .resetTail

variable {s t : State} {e : Event}

theorem inStep_initial : InStep initialState where
  order := Nat.le_refl 0
  bound := Nat.zero_le _
  stored i hi := absurd hi (Nat.not_lt_zero i)
  count := .inl rfl
  room h := by simp [initialState] at h
  reset h := by cases h
  sent := rfl
  sending h := by cases h
  read head h := by simp [initialState] at h
  digit digit h := by cases h
  loop head h := by cases h
  awake h := by simp [initialState] at h

theorem InStep.delivers (h : InStep s) : Delivers s where
  sent _ := by
    rw [h.sent]
    exact List.take_prefix _ _
  order := h.order
  awake hwait hidle hlt := by
    rcases h.awake (.inr hwait) hlt with hp | hp | hp | hp <;> simp [hidle] at hp

theorem InStep.goto (h : InStep s) (pc : Sender) (hdone : { s with sender := pc }.done = s.done)
    (hsending : pc.sending = true → s.handler ≠ .resetTail ∧ s.queue.head < s.queue.tail)
    (hread : ∀ head, pc = .testTail head ∨ pc = .slot head ∨ pc = .incStore head →
      head = s.queue.head)
    (hdigit : ∀ digit, pc = .start digit → digit = digitAt s.queue s.queue.head)
    (hloop : ∀ head, pc = .loopTail head → s.queue.head ≤ head)
    (hawake : pc = .wait ∨ pc = .waiting → s.queue.head < s.queue.tail →
      s.handler = .checkHead ∨ s.handler = .checkSlot s.queue.head ∨ s.handler = .signal ∨
        s.handler = .resetTail) : InStep { s with sender := pc } where
  order := h.order
  bound := h.bound
  stored := h.stored
  count := h.count
  room := h.room
  reset := h.reset
  sent := by rw [hdone]; exact h.sent
  sending := hsending
  read := hread
  digit := hdigit
  loop := hloop
  awake := hawake

theorem InStep.rest (h : InStep s) {pc : Sender} (hdone : { s with sender := pc }.done = s.done)
    (hpc : pc = .lock ∨ pc = .testHead ∨ pc = .woken ∨ pc = .loopHead ∨ pc = .unlock) :
    InStep { s with sender := pc } := by
  rcases hpc with rfl | rfl | rfl | rfl | rfl <;>
    exact h.goto _ hdone nofun (by simp) (by simp) (by simp) (by simp)

theorem InStep.next_key (h : InStep s) (hpc : s.sender.sending = true) :
    s.pressed[s.queue.head]? = some (digitAt s.queue s.queue.head) := by
  obtain ⟨hreset, hlt⟩ := h.sending hpc
  refine (h.stored s.queue.head ?_).1
  unfold State.live
  split
  · exact absurd ‹_› hreset
  all_goals omega

theorem InStep.carry (h : InStep s) {pc : Sender} (hdone : { s with sender := pc }.done = s.done)
    (hsending : s.sender.sending = true) (hpc : pc = .slot s.queue.head ∨
      pc = .start (digitAt s.queue s.queue.head) ∨ pc = .incHead ∨ pc = .incStore s.queue.head) :
    InStep { s with sender := pc } := by
  rcases hpc with rfl | rfl | rfl | rfl <;>
    exact h.goto _ hdone (fun _ => h.sending hsending) (by simp) (by simp) (by simp) (by simp)

theorem InStep.start (h : InStep s) {digit : Char} (hpc : s.sender = .start digit) :
    InStep { s with sender := .stop, sent := s.sent ++ [digit] } := by
  obtain rfl := h.digit digit hpc
  have hsending : s.sender.sending = true := by rw [hpc]; rfl
  have hkey := h.next_key hsending
  have hsent := h.sent
  simp only [State.done, hpc] at hsent
  refine ⟨h.order, h.bound, h.stored, h.count, h.room, h.reset, ?_, fun _ => h.sending hsending,
    by simp, by simp, by simp, by simp⟩
  simp only [State.done, hsent, List.take_add_one, hkey, Option.toList_some]

theorem InStep.incStore (h : InStep s) {head : ℕ} (hpc : s.sender = .incStore head) :
    InStep { s with queue := { s.queue with head := head + 1 }, sender := .loopHead } := by
  obtain rfl := h.read head (.inr (.inr hpc))
  obtain ⟨hreset, hlt⟩ := h.sending (by rw [hpc]; rfl)
  have hsent := h.sent
  simp only [State.done, hpc] at hsent
  exact ⟨hlt, h.bound, h.stored, h.count, h.room, fun hr => absurd hr hreset, hsent, nofun,
    by simp, by simp, by simp, by simp⟩

theorem InStep.loopTail (h : InStep s) {head : ℕ} (hpc : s.sender = .loopTail head)
    (hcare : Careful s .sender) :
    InStep { s with sender := if head < s.queue.tail then .slotHead else .unlock } := by
  have hle := h.loop head hpc
  split
  · rename_i hlt
    refine h.goto _ (by simp [State.done, hpc]) (fun _ => ⟨fun hreset => ?_, by omega⟩)
      (by simp) (by simp) (by simp) (by simp)
    simpa [Sender.passes, hpc, hlt] using hcare hreset
  · exact h.rest (by simp [State.done, hpc]) (by simp)

theorem InStep.testTail (h : InStep s) {head : ℕ} (hpc : s.sender = .testTail head) :
    InStep { s with sender := if head = s.queue.tail then .wait else .loopHead } := by
  obtain rfl := h.read head (.inl hpc)
  split
  · rename_i heq
    exact h.goto _ (by simp [State.done, hpc]) nofun (by simp) (by simp) (by simp)
      fun _ hlt => absurd hlt (by omega)
  · exact h.rest (by simp [State.done, hpc]) (by simp)

theorem InStep.senderStep (h : InStep s) (hcare : Careful s .sender) (hs : senderStep s = some t) :
    InStep t := by
  cases hpc : s.sender <;> simp only [VoiceDtmf.senderStep, hpc, Option.some.injEq] at hs
  case waiting => cases hs
  all_goals subst hs
  case lock => exact h.rest (by simp [State.done, hpc]) (by simp)
  case testHead =>
    exact h.goto _ (by simp [State.done, hpc]) nofun (by simp) (by simp) (by simp) (by simp)
  case testTail head => exact h.testTail hpc
  case wait =>
    exact h.goto _ (by simp [State.done, hpc]) nofun (by simp) (by simp) (by simp)
      fun _ => h.awake (.inl hpc)
  case woken => exact h.rest (by simp [State.done, hpc]) (by simp)
  case loopHead =>
    exact h.goto _ (by simp [State.done, hpc]) nofun (by simp) (by simp) (by simp) (by simp)
  case loopTail head => exact h.loopTail hpc hcare
  case slotHead =>
    exact h.carry (by simp [State.done, hpc]) (by rw [hpc]; rfl) (.inl rfl)
  case slot head =>
    obtain rfl := h.read head (.inr (.inl hpc))
    exact h.carry (by simp [State.done, hpc]) (by rw [hpc]; rfl) (.inr (.inl rfl))
  case start digit => exact h.start hpc
  case stop =>
    exact h.carry (by simp [State.done, hpc]) (by rw [hpc]; rfl) (.inr (.inr (.inl rfl)))
  case incHead =>
    exact h.carry (by simp [State.done, hpc]) (by rw [hpc]; rfl) (.inr (.inr (.inr rfl)))
  case incStore head => exact h.incStore hpc
  case unlock => exact h.rest (by simp [State.done, hpc]) (by simp)

theorem InStep.handle (h : InStep s) (pc : Handler) (hlive : { s with handler := pc }.live = s.live)
    (hroom : (∃ digit, pc = .store digit) ∨ pc = .bumpTail → s.queue.tail < 63)
    (hreset : pc ≠ .resetTail)
    (hawake : s.sender = .wait ∨ s.sender = .waiting → s.queue.head < s.queue.tail →
      pc = .checkHead ∨ pc = .checkSlot s.queue.head ∨ pc = .signal ∨ pc = .resetTail) :
    InStep { s with handler := pc } where
  order := h.order
  bound := h.bound
  stored := by rw [hlive]; exact h.stored
  count := by rw [hlive]; exact h.count
  room := hroom
  reset hr := absurd hr hreset
  sent := h.sent
  sending hs := ⟨hreset, (h.sending hs).2⟩
  read := h.read
  digit := h.digit
  loop := h.loop
  awake := hawake

/-- A handler outside the three places before a signal or the end of a reset finds no sender
asleep on digits. -/
theorem InStep.asleep (h : InStep s) (hpc : s.handler ≠ .checkHead ∧
      s.handler ≠ .checkSlot s.queue.head ∧ s.handler ≠ .signal ∧ s.handler ≠ .resetTail)
    (hwait : s.sender = .wait ∨ s.sender = .waiting) : ¬ s.queue.head < s.queue.tail := by
  intro hlt
  rcases h.awake hwait hlt with hp | hp | hp | hp
  · exact hpc.1 hp
  · exact hpc.2.1 hp
  · exact hpc.2.2.1 hp
  · exact hpc.2.2.2 hp

theorem digitAt_store {q : DtmfQueue} {digit : Char} {i : ℕ} (hq : q.tail < 63) :
    digitAt { q with dtmfNum := q.dtmfNum.setIfInBounds q.tail digit } i =
      if i = q.tail then digit else digitAt q i := by
  have htail : q.tail < 64 := by omega
  unfold digitAt
  by_cases hi : i = q.tail
  · simp [hi, htail]
  · rw [Vector.getElem?_setIfInBounds_ne (Ne.symm hi), if_neg hi]

theorem InStep.live_le (h : InStep s) : s.live ≤ s.pressed.length := by
  by_contra hlt
  have hkey := (h.stored s.pressed.length (by omega)).1
  simp at hkey

theorem InStep.done_le (h : InStep s) : s.done ≤ s.queue.tail := by
  have horder := h.order
  unfold State.done
  split
  case h_4 => exact horder
  all_goals exact (h.sending (by rw [‹s.sender = _›]; rfl)).2

theorem State.tail_le_live (hpc : s.handler ≠ .resetTail) : s.queue.tail ≤ s.live := by
  unfold State.live
  split
  · exact absurd ‹_› hpc
  all_goals omega

theorem InStep.sent_append (h : InStep s) (hpc : s.handler ≠ .resetTail) (digits : List Char) :
    s.sent = (s.pressed ++ digits).take s.done := by
  have hle : s.done ≤ s.pressed.length :=
    Nat.le_trans h.done_le (Nat.le_trans (State.tail_le_live hpc) h.live_le)
  rw [List.take_append_of_le_length hle, h.sent]

theorem InStep.stored_append (h : InStep s) (digits : List Char) {i : ℕ} (hi : i < s.live) :
    (s.pressed ++ digits)[i]? = some (digitAt s.queue i) := by
  rw [List.getElem?_append_left (Nat.lt_of_lt_of_le hi h.live_le)]
  exact (h.stored i hi).1

theorem InStep.drop (h : InStep s) {digit : Option Char} (hpc : s.handler = .limit digit)
    (hfull : ¬ s.queue.tail < 63) :
    InStep { s with handler := .idle, pressed := s.pressed ++ digit.toList } where
  order := h.order
  bound := h.bound
  stored i hi := by
    have hlive : i < s.live := by simpa [State.live, hpc] using hi
    exact ⟨h.stored_append _ hlive, (h.stored i hlive).2⟩
  count := .inr (by simp only [State.live]; omega)
  room := by simp
  reset := by simp
  sent := h.sent_append (by simp [hpc]) _
  sending hs := ⟨by simp, (h.sending hs).2⟩
  read := h.read
  digit := h.digit
  loop := h.loop
  awake hw hlt := absurd hlt (h.asleep (by simp [hpc]) hw)

theorem InStep.store (h : InStep s) {digit : Char} (hpc : s.handler = .store (some digit))
    (hnul : digit ≠ nul) :
    InStep { s with
      queue := { s.queue with dtmfNum := s.queue.dtmfNum.setIfInBounds s.queue.tail digit }
      handler := .bumpTail
      pressed := s.pressed ++ [digit] } := by
  have hroom := h.room (.inl ⟨_, hpc⟩)
  have hlive : s.live = s.queue.tail := by simp [State.live, hpc]
  have hlen : s.pressed.length = s.queue.tail := by
    rcases h.count with hc | hc <;> omega
  refine ⟨h.order, h.bound, fun i hi => ?_, .inl ?_, fun _ => hroom, by simp,
    h.sent_append (by simp [hpc]) _, fun hs => ⟨by simp, (h.sending hs).2⟩, h.read,
    fun d hd => ?_, h.loop, fun hw hlt => absurd hlt (h.asleep (by simp [hpc]) hw)⟩
  · rw [digitAt_store hroom]
    by_cases hi' : i = s.queue.tail
    · simp [hi', ← hlen, hnul]
    · have hlt : i < s.live := by simp only [State.live] at hi; omega
      simpa [hi'] using ⟨h.stored_append _ hlt, (h.stored i hlt).2⟩
  · simp [State.live, hlen]
  · have hlt := (h.sending (by rw [show s.sender = .start d from hd]; rfl)).2
    rw [digitAt_store hroom, if_neg (Nat.ne_of_lt hlt)]
    exact h.digit d hd

theorem InStep.bumpTail (h : InStep s) (hpc : s.handler = .bumpTail) :
    InStep { s with
      queue := { s.queue with tail := s.queue.tail + 1 }, handler := .checkHead } where
  order := Nat.le_succ_of_le h.order
  bound := h.room (.inr hpc)
  stored i hi := h.stored i (by simpa [State.live, hpc] using hi)
  count := by simpa [State.live, hpc] using h.count
  room := by simp
  reset := by simp
  sent := h.sent
  sending hs := ⟨by simp, Nat.lt_succ_of_lt (h.sending hs).2⟩
  read := h.read
  digit := h.digit
  loop := h.loop
  awake _ _ := .inl rfl

theorem InStep.signal (h : InStep s) (hpc : s.handler = .signal) (hwait : s.sender ≠ .wait) :
    InStep { s with handler := .idle, sender := s.sender.signalled } := by
  by_cases hs : s.sender = .waiting
  · rw [hs]
    have hwoken : InStep { s with sender := .woken } := h.rest (by simp [State.done, hs]) (by simp)
    exact hwoken.handle .idle (by simp [State.live, hpc]) (by simp) (by simp) (by simp)
  · have hsame : s.sender.signalled = s.sender := by
      unfold Sender.signalled
      split
      · contradiction
      · rfl
    rw [hsame]
    exact h.handle .idle (by simp [State.live, hpc]) (by simp) (by simp)
      fun hw => absurd hw (by simp [hs, hwait])

theorem Sender.relies_of_eq {pc pc' : Sender} (heq : pc = pc') (hrelies : pc.relies = false) :
    pc'.relies = false := heq ▸ hrelies

theorem InStep.resetHead (h : InStep s) (hrelies : s.sender.relies = false) :
    InStep { s with
      queue := { s.queue with head := 0 }, handler := .resetTail, pressed := [], sent := [] } where
  order := Nat.zero_le _
  bound := h.bound
  stored i hi := absurd hi (Nat.not_lt_zero i)
  count := .inl rfl
  room := by simp
  reset _ := rfl
  sent := List.take_nil.symm
  sending hs := by
    unfold Sender.relies at hrelies
    split at hrelies
    · cases hrelies
    · exact absurd hs (by simp [hrelies])
  read head hr := by
    rcases hr with hr | hr | hr <;> exact absurd (Sender.relies_of_eq hr hrelies) nofun
  digit d hd := absurd (Sender.relies_of_eq hd hrelies) nofun
  loop _ _ := Nat.zero_le _
  awake _ _ := by simp

theorem InStep.resetTail (h : InStep s) (hpc : s.handler = .resetTail) :
    InStep { s with queue := { s.queue with tail := 0 }, handler := .idle } where
  order := Nat.le_of_eq (h.reset hpc)
  bound := Nat.zero_le _
  stored i hi := absurd hi (Nat.not_lt_zero i)
  count := by simpa [State.live, hpc] using h.count
  room := by simp
  reset := by simp
  sent := h.sent
  sending hs := absurd hpc (h.sending hs).1
  read := h.read
  digit := h.digit
  loop := h.loop
  awake _ hlt := absurd hlt (Nat.not_lt_zero _)

theorem InStep.checkSlot (h : InStep s) {head : ℕ} (hpc : s.handler = .checkSlot head) :
    InStep { s with handler := if digitAt s.queue head ≠ nul then .signal else .idle } := by
  have hlive : s.live = s.queue.tail := by simp [State.live, hpc]
  split
  · exact h.handle _ (by simp [State.live, hpc]) (by simp) (by simp) (by simp)
  · rename_i hempty
    refine h.handle _ (by simp [State.live, hpc]) (by simp) (by simp) fun hw hlt => ?_
    obtain rfl : head = s.queue.head := by simpa [hpc] using h.awake hw hlt
    exact absurd (h.stored s.queue.head (by omega)).2 hempty

theorem InStep.handlerStep (h : InStep s) (hcare : Careful s .handler)
    (hs : handlerStep s = some t) : InStep t := by
  cases hpc : s.handler <;> simp only [VoiceDtmf.handlerStep, hpc, Option.some.injEq] at hs
  case idle => cases hs
  case limit digit =>
    have hnone := h.asleep (by simp [hpc])
    split at hs
    · rename_i hroom
      cases hs
      exact h.handle _ (by simp [State.live, hpc]) (fun _ => hroom) (by simp)
        fun hw hlt => absurd hlt (hnone hw)
    · cases hs
      exact h.drop hpc ‹_›
  case store digit =>
    rcases digit with _ | digit
    · cases hs
      have hnone := h.asleep (by simp [hpc])
      exact h.handle _ (by simp [State.live, hpc]) (by simp) (by simp)
        fun hw hlt => absurd hlt (hnone hw)
    · cases hs
      exact h.store hpc fun hnul => hcare.2.2 (by rw [hpc, hnul])
  all_goals subst hs
  case bumpTail => exact h.bumpTail hpc
  case checkHead =>
    exact h.handle _ (by simp [State.live, hpc]) (by simp) (by simp) (by simp)
  case checkSlot head => exact h.checkSlot hpc
  case signal => exact h.signal hpc (hcare.2.1 hpc)
  case resetHead => exact h.resetHead (hcare.1 hpc)
  case resetTail => exact h.resetTail hpc

theorem InStep.taken_up (h : InStep s) (hpc : s.handler = .idle) {pc : Handler}
    (hnext : pc = .resetHead ∨ ∃ digit, pc = .limit digit) : InStep { s with handler := pc } := by
  have hnone := h.asleep (by simp [hpc])
  rcases hnext with rfl | ⟨digit, rfl⟩
  · exact h.handle _ (by simp [State.live, hpc]) (by simp) (by simp)
      fun hw hlt => absurd hlt (hnone hw)
  · exact h.handle _ (by simp [State.live, hpc]) (by simp) (by simp)
      fun hw hlt => absurd hlt (hnone hw)

theorem InStep.step (h : InStep s) (hcare : Careful s e) (hs : Steps next s e t) : InStep t := by
  cases e with
  | press digit =>
    obtain ⟨hpc, hs⟩ := Option.ite_none_right_eq_some.mp hs
    cases hs
    exact h.taken_up hpc (.inr ⟨digit, rfl⟩)
  | onHook =>
    obtain ⟨hpc, hs⟩ := Option.ite_none_right_eq_some.mp hs
    cases hs
    exact h.taken_up hpc (.inl rfl)
  | handler => exact h.handlerStep hcare hs
  | sender => exact h.senderStep hcare hs
  | spurious =>
    obtain ⟨hpc, hs⟩ := Option.ite_none_right_eq_some.mp hs
    cases hs
    exact h.rest (by simp [State.done, hpc]) (by simp)

/-- A run without a careless step delivers in all its states. -/
theorem careful_run_delivers {ts : List (Taken State Event)}
    (h : Run (· = initialState) (Steps next) ts s)
    (hcare : ∀ x ∈ ts, Careful x.before x.event) : Delivers s := by
  have hinv : InStep s := by
    refine h.guarded (C := Careful) ?_ (fun s e t hi hc hs => hi.step hc hs) hcare
    rintro s rfl
    exact inStep_initial
  exact hinv.delivers

/-- A key pressed while the sender waits is sent, and `head++` ends the loop. -/
def onePress : List Event :=
  List.replicate 4 .sender ++ [.press (some '5')] ++ List.replicate 6 .handler ++
    List.replicate 9 .sender

theorem one_press_delivers : ∃ ts s, Run (· = initialState) (Steps next) ts s ∧
    s.sent = ['5'] ∧ s.queue.head = 1 ∧ Delivers s := by
  have hlast : (runTrace next initialState onePress).map (fun s => (s.sent, s.queue.head)) =
      some (['5'], 1) := by decide
  obtain ⟨s, hs, hsent⟩ := Option.map_eq_some_iff.mp hlast
  have hrun : Run (· = initialState) (Steps next) _ s := takenSteps_run (.start rfl) hs
  have hcare : ∀ x ∈ takenSteps next initialState onePress, Careful x.before x.event := by decide
  obtain ⟨hsent, hhead⟩ := Prod.mk.inj hsent
  exact ⟨_, s, hrun, hsent, hhead, careful_run_delivers hrun hcare⟩

/-- The signal comes after the sender has found the queue empty and before it waits. -/
def lostWakeUp : List Event :=
  List.replicate 3 .sender ++ [.press (some '5')] ++ List.replicate 6 .handler ++ [.sender]

theorem lost_wake_up : ∃ ts s, Run (· = initialState) (Steps next) ts s ∧ ¬ Delivers s := by
  have hlast : (runTrace next initialState lostWakeUp).map
      (fun s => (s.sender, s.handler, decide (s.queue.head < s.queue.tail))) =
      some (.waiting, .idle, true) := by decide
  obtain ⟨s, hs, hpcs⟩ := Option.map_eq_some_iff.mp hlast
  simp only [Prod.mk.injEq, decide_eq_true_eq] at hpcs
  refine ⟨_, s, takenSteps_run (.start rfl) hs, fun h => ?_⟩
  exact h.awake hpcs.1 hpcs.2.1 hpcs.2.2

end VoiceDtmf
