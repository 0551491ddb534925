import MyGitCode.VoiceStatusTable
import MyGitCode.VoiceRecordSteps

/-! # One record for each call

A ledger follows `curr_status` from outside and notes the record each call owes when it is
over. The store logs the same records while calls end through the status handler: the
timers, the third-call wake-up and a stray key end or start calls behind its back. -/
namespace VoiceCallLog

open TransitionRuns VoiceModem VoiceDatastore VoicePhone VoiceStatusTable
open VoiceCallRecords (Malloc emptyStore)

inductive Call where
  | ringing | answered | dialled
  deriving DecidableEq, Repr

def Call.record : Call → CallType
  | .ringing => .missed
  | .answered => .incoming
  | .dialled => .outgoing

/-- The call `curr_status` stands for and the records due so far, one for each call that is
over and one MISSED for a third call that waits. Of the third calls it counts those that
waited and those with their record, and it knows whether the last one has it. -/
structure Ledger where
  call : Option Call
  records : List CallType
  waits : ℕ
  thirds : ℕ
  thirdLogged : Bool

def emptyLedger : Ledger := ⟨none, [], 0, 0, false⟩

def Ledger.close (l : Ledger) : Ledger :=
  { l with call := none, records := l.records ++ (l.call.map Call.record).toList }

/-- `curr_status` went from `a` to `b`, and `wakes` says that a third call took over. -/
def Ledger.follow (l : Ledger) (wakes : Bool) (a b : Status) : Ledger :=
  if wakes then { l.close with call := some .ringing }
  else match b with
    | .idle => l.close
    | .ring => if a = .ring then l else { l.close with call := some .ringing }
    | .alerting => if l.call = none then { l with call := some .dialled } else l
    | .conversation => if a = .ring then { l with call := some .answered } else l
    | .wait => l
    | .dialing => l

instance (state : DeviceState) (p : Phone) (e : Event) : Decidable (Reports state p e) := by
  cases e <;> simp only [Reports] <;> infer_instance

instance (p : Phone) (e : Event) : Decidable (ThirdCallWakes p e) := by
  unfold ThirdCallWakes
  infer_instance

def TonePlays (p : Phone) : Event → Bool
  | .network info _ =>
    (info.callState = .ccInProgress ∨ info.callState = .originating ∨ info.callState = .waiting) ∧
      p.toneFlag < 1 ∧ p.currStatus = .conversation ∧ p.calls.thirdCallInfo.callState = .waiting
  | _ => false

/-- The third call recorded in `b` waits, and in `a` it did not or was another one. -/
def newWaiting (a b : CallInfo) : Bool :=
  b.callState = .waiting ∧ (a.callState ≠ .waiting ∨ a.callId ≠ b.callId)

def Ledger.logThird (l : Ledger) : Ledger :=
  { l with records := l.records ++ [.missed], thirds := l.thirds + 1, thirdLogged := true }

def Ledger.third (l : Ledger) (p : Phone) (e : Event) (q : Phone) : Ledger :=
  if newWaiting p.calls.thirdCallInfo q.calls.thirdCallInfo then
    { l with waits := l.waits + 1, thirdLogged := false }
  else if TonePlays p e && !l.thirdLogged then l.logThird
  else l

def observe (l : Ledger) (p : Phone) (e : Event) (q : Phone) : Ledger :=
  (l.third p e q).follow (ThirdCallWakes p e) p.currStatus q.currStatus

structure Watched where
  phone : Phone
  ledger : Ledger

def watchedNext (w : Watched) (e : Event) : Option Watched :=
  (next w.phone e).map fun q => ⟨q, observe w.ledger w.phone e q⟩

def WatchStarted (w : Watched) : Prop := Started w.phone ∧ w.ledger = emptyLedger

/-- The records stored are exactly those due, in their order. -/
structure LogsExact (w : Watched) : Prop where
  records : w.phone.logged = w.ledger.records
  thirds : w.ledger.thirds ≤ w.ledger.waits

def HoldsCall (p : Phone) : Prop :=
  p.currStatus = .ring ∨ p.currStatus = .alerting ∨ p.currStatus = .conversation

def Allocates (m : Malloc) : Prop := m.record = true ∧ m.node ≠ none ∧ m.typeNode = true

def Event.env : Event → Option Env
  | .device _ _ env => some env
  | .network _ env => some env
  | _ => none

structure CallsKept (w : Watched) (e : Event) : Prop where
  digit : Reports .digit w.phone e → w.phone.currStatus ≠ .idle ∧
    (w.phone.currStatus = .ring → 63 ≤ w.phone.dtmfQueue.tail)
  wake : ThirdCallWakes w.phone e → ¬ HoldsCall w.phone
  timer : (e = .waitTimeout ∨ ∃ callId, e = .dialAlarm callId) →
    w.phone.lateStatus ≠ .dialing → ¬ HoldsCall w.phone
  tone : TonePlays w.phone e = true → w.ledger.thirdLogged = false
  nodes : HoldsCall w.phone → ∀ env, Event.env e = some env → Allocates env.malloc

variable {p q : Phone} {l : Ledger} {w w' : Watched} {e : Event} {env : Env}
  {reported : DeviceState} {digit : Option Char} {type : CallType} {s b : Status}

def CallOf : Status → Option Call → Prop
  | .ring, c => c = some .ringing
  | .alerting, c => c = some .dialled
  | .conversation, c => c = some .answered ∨ c = some .dialled
  | _, c => c = none

/-- What holds of a phone whose `late_status` may still wait to be handled. -/
structure Books (p : Phone) (l : Ledger) : Prop where
  call : CallOf p.currStatus l.call
  incoming : p.isIncoming = true ↔ l.call = some .answered
  log : LogsExact ⟨p, l⟩
  room : p.calls.thirdCallInfo.callState = .waiting → l.thirdLogged = false → l.thirds < l.waits

/-- The pairs of statuses the status handler is called with. -/
def Due (p : Phone) (l : Ledger) : Prop :=
  p.lateStatus = p.currStatus ∨ Edge p.currStatus p.lateStatus ∨
    (p.currStatus = .conversation ∧ p.lateStatus = .alerting ∧ l.call = some .dialled)

/-- The pairs an event can leave behind. -/
def Rests (p : Phone) (l : Ledger) : Prop :=
  p.lateStatus = p.currStatus ∨ (p.currStatus = .wait ∧ p.lateStatus = .dialing) ∨
    (p.currStatus = .conversation ∧ p.lateStatus = .alerting ∧ l.call = some .dialled)

structure Kept (w : Watched) : Prop where
  books : Books w.phone w.ledger
  rests : Rests w.phone w.ledger

theorem Rests.due (h : Rests p l) : Due p l := by
  rcases h with h | ⟨hc, hl⟩ | h
  · exact .inl h
  · refine .inr (.inl ?_)
    rw [hc, hl]
    exact .wait_dialing
  · exact .inr (.inr h)

theorem kept_start (h : WatchStarted w) : Kept w := by
  obtain ⟨⟨store, tz, hp⟩, hl⟩ := h
  obtain ⟨p, l⟩ := w
  simp only at hp hl
  subst hp hl
  refine ⟨⟨rfl, ?_, ⟨rfl, Nat.le_refl 0⟩, nofun⟩, .inl rfl⟩
  simp [initialPhone, emptyLedger]

theorem addRecord_logs (hm : Allocates env.malloc) (h : addRecord p type env = some q) :
    ∃ store, q = { p with store := store, logged := p.logged ++ [type] } := by
  simp only [addRecord, Option.map_eq_some_iff] at h
  obtain ⟨⟨rc, store⟩, hadd, rfl⟩ := h
  have hrc : rc = .noErr := by
    cases VoiceRecordSteps.addRecordToList_added hadd with
    | noRecord hr => simp [hm.1] at hr
    | unknownType => rfl
    | noNode _ _ hn => exact absurd hn hm.2.1
    | unlisted _ _ _ htn => simp [hm.2.2] at htn
    | listed => rfl
  exact ⟨store, by simp [hrc]⟩

theorem Books.after (h : Books p l) {l' : Ledger} (rs : List CallType)
    (hcall : CallOf q.currStatus l'.call)
    (hin : q.isIncoming = true ↔ l'.call = some .answered)
    (hthird : q.calls.thirdCallInfo.callState = .waiting →
      p.calls.thirdCallInfo.callState = .waiting)
    (hlogged : q.logged = p.logged ++ rs) (hdue : l'.records = l.records ++ rs)
    (hcount : l'.waits = l.waits ∧ l'.thirds = l.thirds ∧ l'.thirdLogged = l.thirdLogged) :
    Books q l' := by
  obtain ⟨hwaits, hthirds, hlast⟩ := hcount
  obtain ⟨hrecords, hle⟩ := h.log
  simp only at hrecords hle
  refine ⟨hcall, hin, ⟨?_, ?_⟩, ?_⟩
  · rw [hlogged, hdue, hrecords]
  · rwa [hwaits, hthirds]
  · intro hw ht
    rw [hwaits, hthirds]
    exact h.room (hthird hw) (hlast ▸ ht)

theorem Books.same (h : Books p l) (hcall : CallOf q.currStatus l.call)
    (hin : q.isIncoming = p.isIncoming) (hcalls : q.calls = p.calls)
    (hlogged : q.logged = p.logged) : Books q l :=
  h.after [] hcall (hin ▸ h.incoming) (fun hw => hcalls ▸ hw) (by simp [hlogged]) (by simp)
    ⟨rfl, rfl, rfl⟩

theorem close_of_none (h : l.call = none) : l.close = l := by
  obtain ⟨call, records, waits, thirds, thirdLogged⟩ := l
  simp_all [Ledger.close]

theorem follow_same (h : CallOf s l.call) : l.follow false s s = l := by
  obtain ⟨call, records, waits, thirds, thirdLogged⟩ := l
  cases s <;> simp only [CallOf] at h <;> simp [Ledger.follow, Ledger.close, h]

theorem Books.closed (h : Books p l) (hq : q.currStatus = .idle) (hin : q.isIncoming = false)
    (hcalls : q.calls = p.calls)
    (hlogged : q.logged = p.logged ++ (l.call.map Call.record).toList) : Books q l.close := by
  refine h.after _ ?_ ?_ (fun hw => hcalls ▸ hw) hlogged rfl ⟨rfl, rfl, rfl⟩
  · rw [hq]
    rfl
  · simp [hin, Ledger.close]

theorem settle_handled (hne : p.currStatus ≠ p.lateStatus) (h : settle p env = some q) :
    ∃ u, statusHandle p p.currStatus p.lateStatus env = some u ∧
      q = { u with currStatus := u.lateStatus } := by
  rw [settle, if_pos hne, Option.map_eq_some_iff] at h
  obtain ⟨u, hu, rfl⟩ := h
  exact ⟨u, hu, rfl⟩

theorem Books.handled_idle {u : Phone} (h : Books p l) (hc : p.currStatus ≠ .idle)
    (hm : HoldsCall p → Allocates env.malloc)
    (hs : statusHandle p p.currStatus .idle env = some u) :
    u.isIncoming = false ∧ u.calls = p.calls ∧
      u.logged = p.logged ++ (l.call.map Call.record).toList := by
  have hcall := h.call
  have hin := h.incoming
  have hstore : ∀ {type : CallType} {v : Phone}, HoldsCall p → addRecord p type env = some v →
      v.calls = p.calls ∧ v.logged = p.logged ++ [type] := by
    intro type v hh hv
    obtain ⟨store, rfl⟩ := addRecord_logs (hm hh) hv
    exact ⟨rfl, rfl⟩
  cases ha : p.currStatus <;> rw [ha] at hs hcall
  case idle => exact absurd ha hc
  case ring =>
    have hone : l.call = some .ringing := hcall
    obtain ⟨v, hv, rfl⟩ := Option.map_eq_some_iff.mp hs
    obtain ⟨hcalls, hlog⟩ := hstore (.inl ha) hv
    exact ⟨rfl, hcalls, by simpa [hone, Call.record, clearCall] using hlog⟩
  case alerting =>
    have hone : l.call = some .dialled := hcall
    obtain ⟨v, hv, rfl⟩ := Option.map_eq_some_iff.mp hs
    obtain ⟨hcalls, hlog⟩ := hstore (.inr (.inl ha)) hv
    exact ⟨rfl, hcalls, by simpa [hone, Call.record, clearCall] using hlog⟩
  case conversation =>
    obtain ⟨v, hv, rfl⟩ := Option.map_eq_some_iff.mp hs
    obtain ⟨hcalls, hlog⟩ := hstore (.inr (.inr ha)) hv
    refine ⟨rfl, hcalls, ?_⟩
    rcases (hcall : l.call = some .answered ∨ l.call = some .dialled) with hone | hone
    · have hyes : p.isIncoming = true := hin.mpr hone
      simpa [hone, hyes, Call.record, clearCall] using hlog
    · have hno : p.isIncoming = false := by simpa [hone] using hin
      simpa [hone, hno, Call.record, clearCall] using hlog
  case dialing | wait =>
    have hnone : l.call = none := hcall
    obtain rfl := Option.some.inj hs
    exact ⟨rfl, rfl, by simp [hnone, clearCall]⟩

theorem Books.edge (h : Books p l) (hedge : Edge p.currStatus p.lateStatus)
    (hm : HoldsCall p → Allocates env.malloc) (hs : settle p env = some q) :
    Books q (l.follow false p.currStatus p.lateStatus) := by
  have hne : p.currStatus ≠ p.lateStatus := hedge.ne
  have hq := (settle_status hs).1
  obtain ⟨u, hu, rfl⟩ := settle_handled hne hs
  by_cases hidle : p.lateStatus = .idle
  · rw [hidle] at hu hq hne ⊢
    obtain ⟨hin, hcalls, hlog⟩ := h.handled_idle hne hm hu
    exact h.closed hq hin hcalls hlog
  have hcall := h.call
  have hin := h.incoming
  generalize ha : p.currStatus = a at hedge hcall hu ⊢
  generalize hb : p.lateStatus = b at hedge hq hu hidle ⊢
  cases hedge with
  | idle_wait | wait_dialing =>
    have hnone : l.call = none := hcall
    obtain rfl := Option.some.inj hu
    exact h.same (by rw [hq]; exact hnone) rfl rfl rfl
  | idle_ring =>
    have hnone : l.call = none := hcall
    obtain ⟨_, _, rfl⟩ := Option.map_eq_some_iff.mp hu
    refine h.after [] ?_ ?_ id ?_ ?_ ⟨rfl, rfl, rfl⟩
    · rw [hq]
      rfl
    · simpa [Ledger.follow, hnone] using hin
    · simp
    · simp [Ledger.follow, Ledger.close, hnone]
  | dialing_alerting =>
    have hnone : l.call = none := hcall
    obtain rfl := Option.some.inj hu
    have hl : l.follow false .dialing .alerting = { l with call := some .dialled } := by
      simp [Ledger.follow, hnone]
    rw [hl]
    refine h.after [] ?_ ?_ id ?_ ?_ ⟨rfl, rfl, rfl⟩
    · rw [hq]
      rfl
    · simpa [hnone] using hin
    · simp
    · simp
  | alerting_conversation =>
    have hone : l.call = some .dialled := hcall
    obtain rfl := Option.some.inj hu
    exact h.same (by rw [hq]; exact .inr hone) rfl rfl rfl
  | ring_conversation =>
    obtain rfl := Option.some.inj hu
    refine h.after [] ?_ ?_ id ?_ ?_ ⟨rfl, rfl, rfl⟩
    · rw [hq]
      exact .inl rfl
    · simp [Ledger.follow]
    · simp
    · simp [Ledger.follow]
  | _ => exact absurd rfl hidle

theorem Books.after_settle (h : Books p l) (hd : Due p l) (hm : HoldsCall p → Allocates env.malloc)
    (hs : settle p env = some q) :
    Books q (l.follow false p.currStatus q.currStatus) ∧ q.lateStatus = q.currStatus := by
  obtain ⟨hc, hl⟩ := settle_status hs
  refine ⟨?_, hl.trans hc.symm⟩
  rw [hc]
  rcases hd with heq | hedge | ⟨hconv, halert, hone⟩
  · rw [settle, if_neg (by simp [heq])] at hs
    obtain rfl := Option.some.inj hs
    rw [heq, follow_same h.call]
    exact h
  · exact h.edge hedge hm hs
  · obtain ⟨u, hu, rfl⟩ := settle_handled (by simp [hconv, halert]) hs
    rw [halert] at hu hc ⊢
    obtain rfl := Option.some.inj hu
    have hfollow : l.follow false p.currStatus .alerting = l := by simp [Ledger.follow, hone]
    rw [hfollow]
    exact h.same (by rw [hc]; exact hone) rfl rfl rfl

theorem newWaiting_false {a b : CallInfo}
    (h : b.callState = .waiting → a.callState = .waiting ∧ a.callId = b.callId) :
    newWaiting a b = false := by
  simp only [newWaiting, decide_eq_false_iff_not]
  rintro ⟨hb, ha | hid⟩
  · exact ha (h hb).1
  · exact hid (h hb).2

theorem third_same (ht : TonePlays p e = false)
    (h : q.calls.thirdCallInfo.callState = .waiting →
      q.calls.thirdCallInfo = p.calls.thirdCallInfo) :
    l.third p e q = l := by
  have hnew : newWaiting p.calls.thirdCallInfo q.calls.thirdCallInfo = false :=
    newWaiting_false fun hw => ⟨h hw ▸ hw, by rw [h hw]⟩
  simp [Ledger.third, hnew, ht]

theorem Kept.of_follow (hw : ¬ ThirdCallWakes p e) (ht : TonePlays p e = false)
    (hthird : q.calls.thirdCallInfo.callState = .waiting →
      q.calls.thirdCallInfo = p.calls.thirdCallInfo)
    (hb : Books q (l.follow false p.currStatus q.currStatus))
    (hr : Rests q (l.follow false p.currStatus q.currStatus)) : Kept ⟨q, observe l p e q⟩ := by
  have hobs : observe l p e q = l.follow false p.currStatus q.currStatus := by
    simp [observe, third_same ht hthird, hw]
  exact ⟨by rwa [hobs], by rwa [hobs]⟩

theorem Kept.of_settle {u : Phone} (hs : settle u env = some q) (hw : ¬ ThirdCallWakes p e)
    (ht : TonePlays p e = false) (hu : Books u l) (hd : Due u l)
    (hfrom : ∀ b, l.follow false u.currStatus b = l.follow false p.currStatus b)
    (hthird : u.calls.thirdCallInfo.callState = .waiting →
      u.calls.thirdCallInfo = p.calls.thirdCallInfo)
    (hm : HoldsCall u → Allocates env.malloc) : Kept ⟨q, observe l p e q⟩ := by
  obtain ⟨hb, hl⟩ := hu.after_settle hd hm hs
  rw [hfrom] at hb
  exact .of_follow hw ht (settle_calls hs ▸ hthird) hb (.inl hl)

theorem onHook_same (h : p.calls.thirdCallInfo.callState ≠ .incoming) :
    (onHook p).currStatus = p.currStatus ∧ (onHook p).isIncoming = p.isIncoming ∧
      (onHook p).calls = p.calls ∧ (onHook p).logged = p.logged := by
  simp only [onHook, if_neg h]
  split <;> exact ⟨rfl, rfl, rfl, rfl⟩

theorem offHook_same (p : Phone) : (offHook p).currStatus = p.currStatus ∧
    (offHook p).isIncoming = p.isIncoming ∧ (offHook p).calls = p.calls ∧
      (offHook p).logged = p.logged := by
  unfold offHook
  split <;> exact ⟨rfl, rfl, rfl, rfl⟩

theorem Books.idle_of_noCall (h : Books p l) (hn : ¬ HoldsCall p) : l.call = none := by
  have hcall := h.call
  simp only [HoldsCall, not_or] at hn
  cases hc : p.currStatus <;> simp_all [CallOf]

theorem Kept.wake (h : Kept ⟨p, l⟩) (hwakes : ThirdCallWakes p (.device reported digit env))
    (hn : ¬ HoldsCall p) (hs : settle (onHook p) env = some q) :
    Kept ⟨q, observe l p (.device reported digit env) q⟩ := by
  have hnone : l.call = none := h.books.idle_of_noCall hn
  let u : Phone := { p with
    dtmfQueue := { p.dtmfQueue with head := 0, tail := 0 }
    currStatus := .idle
    lateStatus := .ring
    calls := clearThirdCallState p.calls }
  have hu : onHook p = u := by simp [onHook, hwakes.2, u]
  rw [hu] at hs
  have hclear : u.calls.thirdCallInfo.callState ≠ .waiting := by
    intro hw
    cases hw
  have hbooks : Books u l :=
    h.books.after [] hnone h.books.incoming (fun hw => absurd hw hclear) (by simp [u]) (by simp)
      ⟨rfl, rfl, rfl⟩
  obtain ⟨hb, hl⟩ := hbooks.after_settle (.inr (.inl .idle_ring)) (by simp [HoldsCall, u]) hs
  have hring : q.currStatus = .ring := (settle_status hs).1
  have hthird : l.third p (.device reported digit env) q = l :=
    third_same rfl fun hw => absurd (settle_calls hs ▸ hw) hclear
  have hobs : observe l p (.device reported digit env) q =
      l.follow false u.currStatus q.currStatus := by
    simp [observe, hthird, hwakes, hring, Ledger.follow, u]
  exact ⟨hobs ▸ hb, .inl hl⟩

theorem Kept.after_dialDigit (h : Kept ⟨p, l⟩) (hc : p.currStatus = .wait ∨ p.currStatus = .dialing)
    (hw : ¬ ThirdCallWakes p (.device reported digit env))
    (hm : HoldsCall p → Allocates env.malloc) (hq : dialDigit p digit env = some q) :
    Kept ⟨q, observe l p (.device reported digit env) q⟩ := by
  have hsettle : ∀ {u : Phone}, settle u env = some q → u.currStatus = p.currStatus →
      u.lateStatus = .dialing → u.isIncoming = p.isIncoming → u.calls = p.calls →
      u.logged = p.logged → Kept ⟨q, observe l p (.device reported digit env) q⟩ := by
    intro u hs hcu hlu hin hcalls hlog
    have hm' : HoldsCall u → Allocates env.malloc := by
      simpa only [HoldsCall, hcu] using hm
    refine .of_settle hs hw rfl (h.books.same (hcu ▸ h.books.call) hin hcalls hlog) ?_
      (fun _ => by rw [hcu]) (fun _ => by rw [hcalls]) hm'
    rcases hc with hc | hc
    · refine .inr (.inl ?_)
      rw [hcu, hlu, hc]
      exact .wait_dialing
    · exact .inl (by rw [hcu, hlu, hc])
  unfold dialDigit at hq
  simp only at hq
  split at hq
  · cases digit with
    | none =>
      obtain rfl := Option.some.inj hq
      have hsame : l.follow false p.currStatus p.currStatus = l := follow_same h.books.call
      refine .of_follow hw rfl (fun _ => rfl) ?_ ?_
      · rw [hsame]
        exact h.books.same h.books.call rfl rfl rfl
      · rcases hc with hc | hc
        · exact .inr (.inl ⟨hc, rfl⟩)
        · exact .inl hc.symm
    | some c => exact hsettle hq rfl rfl rfl rfl rfl
  · exact hsettle hq rfl rfl rfl rfl rfl

theorem follow_from {a : Status} (ha : a ≠ .ring) (hs : s ≠ .ring) (b : Status) :
    l.follow false a b = l.follow false s b := by
  cases b <;> simp [Ledger.follow, ha, hs]

theorem Kept.conversing (h : Kept ⟨p, l⟩)
    (hc : p.currStatus = .alerting ∨ p.currStatus = .conversation) :
    Kept ⟨{ p with currStatus := .conversation }, l⟩ := by
  have hbooks : Books p l := h.books
  have hrests : Rests p l := h.rests
  have hcall := hbooks.call
  rcases hc with hc | hc <;> rw [hc] at hcall
  · have hone : l.call = some .dialled := hcall
    refine ⟨hbooks.same (.inr hone) rfl rfl rfl, .inr (.inr ⟨rfl, ?_, hone⟩)⟩
    rcases hrests with hl | ⟨hw, -⟩ | ⟨hv, -⟩
    · exact hl.trans hc
    · rw [hc] at hw
      cases hw
    · rw [hc] at hv
      cases hv
  · refine ⟨hbooks.same hcall rfl rfl rfl, ?_⟩
    rcases hrests with hl | ⟨hw, -⟩ | ⟨-, hv⟩
    · exact .inl (hl.trans hc)
    · rw [hc] at hw
      cases hw
    · exact .inr (.inr ⟨rfl, hv⟩)

theorem Kept.after_dtmfDigit (h : Kept ⟨p, l⟩)
    (hc : p.currStatus = .alerting ∨ p.currStatus = .conversation)
    (hw : ¬ ThirdCallWakes p (.device reported digit env))
    (hm : Allocates env.malloc) (hq : dtmfDigit p digit env = some q) :
    Kept ⟨q, observe l p (.device reported digit env) q⟩ := by
  obtain ⟨hbooks, hrests⟩ := h.conversing hc
  have hring : p.currStatus ≠ .ring := by rcases hc with hc | hc <;> simp [hc]
  have hfrom := follow_from (l := l) (a := Status.conversation) nofun hring
  unfold dtmfDigit at hq
  simp only at hq
  split at hq
  · cases digit with
    | none =>
      obtain rfl := Option.some.inj hq
      refine .of_follow hw rfl (fun _ => rfl) ?_ ?_ <;> rw [← hfrom, follow_same hbooks.call]
      · exact hbooks
      · exact hrests
    | some c =>
      refine .of_settle hq hw rfl ?_ (.inl rfl) hfrom (fun _ => rfl) fun _ => hm
      exact hbooks.same hbooks.call rfl rfl rfl
  · exact .of_settle hq hw rfl hbooks hrests.due hfrom (fun _ => rfl) fun _ => hm

theorem Kept.ringDigit (h : Kept ⟨p, l⟩) (hc : p.currStatus = .ring)
    (hfull : 63 ≤ p.dtmfQueue.tail) (hw : ¬ ThirdCallWakes p (.device reported digit env))
    (hq : dtmfDigit p digit env = some q) :
    Kept ⟨q, observe l p (.device reported digit env) q⟩ := by
  have hbooks : Books p l := h.books
  have hlate : p.lateStatus = .ring := by
    rcases (h.rests : Rests p l) with hl | ⟨hv, -⟩ | ⟨hv, -⟩
    · exact hl.trans hc
    · rw [hc] at hv
      cases hv
    · rw [hc] at hv
      cases hv
  unfold dtmfDigit at hq
  simp only [dif_neg (Nat.not_lt.mpr hfull)] at hq
  have hne : Status.conversation ≠ p.lateStatus := by simp [hlate]
  have hnothing : ∀ {v : Phone} {b : Status}, b = .ring →
      statusHandle v .conversation b env = some v := by
    rintro v _ rfl
    rfl
  obtain ⟨u, hu, rfl⟩ := settle_handled hne hq
  obtain rfl := Option.some.inj ((hnothing hlate).symm.trans hu)
  have hring : CallOf .ring l.call := hc ▸ hbooks.call
  have hfollow : l.follow false p.currStatus p.lateStatus = l := by
    rw [hc, hlate, follow_same hring]
  refine .of_follow hw rfl (fun _ => rfl) ?_ (.inl rfl)
  simp only [hfollow]
  exact hbooks.same (hlate ▸ hring) rfl rfl rfl

theorem not_wakes (h : deviceState p reported ≠ .onhook) :
    ¬ ThirdCallWakes p (.device reported digit env) := fun hw => h hw.1

theorem Kept.device (h : Kept ⟨p, l⟩) (hk : CallsKept ⟨p, l⟩ (.device reported digit env))
    (hs : deviceEventHandle p reported digit env = some q) :
    Kept ⟨q, observe l p (.device reported digit env) q⟩ := by
  have hbooks : Books p l := h.books
  have hm : HoldsCall p → Allocates env.malloc := fun hh => hk.nodes hh env rfl
  unfold deviceEventHandle at hs
  cases hstate : deviceState p reported <;> simp only [hstate] at hs
  case onhook =>
    by_cases hthird : p.calls.thirdCallInfo.callState = .incoming
    · have hwakes : ThirdCallWakes p (.device reported digit env) := ⟨hstate, hthird⟩
      exact h.wake hwakes (hk.wake hwakes) hs
    · have hw : ¬ ThirdCallWakes p (.device reported digit env) := fun hw => hthird hw.2
      obtain ⟨hc, hin, hcalls, hlog⟩ := onHook_same hthird
      have hu : Books (onHook p) l := hbooks.same (hc ▸ hbooks.call) hin hcalls hlog
      refine .of_settle hs hw rfl hu ?_ (fun _ => by rw [hc]) (fun _ => by rw [hcalls]) ?_
      · simp only [onHook, if_neg hthird] at hc ⊢
        split
        · exact (h.rests : Rests p l).due
        · rcases edge_to_idle p.currStatus with hi | hi
          · exact .inl hi
          · exact .inr (.inl hi)
      · simpa only [HoldsCall, hc] using hm
  case offhook =>
    have hw : ¬ ThirdCallWakes p (.device reported digit env) := not_wakes (by simp [hstate])
    obtain ⟨hc, hin, hcalls, hlog⟩ := offHook_same p
    have hu : Books (offHook p) l := hbooks.same (hc ▸ hbooks.call) hin hcalls hlog
    refine .of_settle hs hw rfl hu (.inr (.inl ?_)) (fun _ => by rw [hc])
      (fun _ => by rw [hcalls]) ?_
    · rw [hc]
      exact offHook_late
    · simpa only [HoldsCall, hc] using hm
  case digit =>
    have hw : ¬ ThirdCallWakes p (.device reported digit env) := not_wakes (by simp [hstate])
    obtain ⟨hidle, hfull⟩ := hk.digit hstate
    split at hs
    · next hdial => exact h.after_dialDigit hdial hw hm hs
    · next hdial =>
      rw [not_or] at hdial
      cases hc : p.currStatus with
      | idle => exact absurd hc hidle
      | ring => exact h.ringDigit hc (hfull hc) hw hs
      | dialing => exact absurd hc hdial.2
      | wait => exact absurd hc hdial.1
      | alerting => exact h.after_dtmfDigit (.inl hc) hw (hm (.inr (.inl hc))) hs
      | conversation => exact h.after_dtmfDigit (.inr hc) hw (hm (.inr (.inr hc))) hs
  case unknown =>
    have hw : ¬ ThirdCallWakes p (.device reported digit env) := not_wakes (by simp [hstate])
    obtain rfl := Option.some.inj hs
    refine .of_follow hw rfl (fun _ => rfl) ?_ ?_ <;> rw [follow_same hbooks.call]
    · exact hbooks
    · exact h.rests

theorem Books.tone {u : Phone} (h : Books p l) (hm : Allocates env.malloc)
    (hwaits : p.calls.thirdCallInfo.callState = .waiting) (hfirst : l.thirdLogged = false)
    (hu : addRecord { p with toneFlag := p.toneFlag + 1 } .missed env = some u) :
    Books u l.logThird := by
  obtain ⟨store, rfl⟩ := addRecord_logs hm hu
  have hrecords : p.logged = l.records := h.log.records
  refine ⟨h.call, h.incoming, ⟨?_, h.room hwaits hfirst⟩, nofun⟩
  simp [Ledger.logThird, hrecords]

theorem dialedOut_same (p : Phone) : (dialedOut p).currStatus = p.currStatus ∧
    (dialedOut p).isIncoming = p.isIncoming ∧ (dialedOut p).calls = p.calls ∧
      (dialedOut p).logged = p.logged := by
  unfold dialedOut
  split <;> exact ⟨rfl, rfl, rfl, rfl⟩

theorem Rests.dialedOut_due (h : Rests p l) : Due (dialedOut p) l := by
  unfold dialedOut
  split
  · next hc =>
    refine .inr (.inl ?_)
    simp only [hc]
    exact .dialing_alerting
  · exact h.due

theorem Kept.after_dialedOut (h : Kept ⟨p, l⟩) {info : CallInfo}
    (ht : TonePlays p (.network info env) = false) (hm : HoldsCall p → Allocates env.malloc)
    (hs : settle (dialedOut p) env = some q) :
    Kept ⟨q, observe l p (.network info env) q⟩ := by
  obtain ⟨hc, hin, hcalls, hlog⟩ := dialedOut_same p
  have hbooks : Books p l := h.books
  have hrests : Rests p l := h.rests
  refine .of_settle hs (fun hw => hw.1) ht (hbooks.same (hc ▸ hbooks.call) hin hcalls hlog)
    hrests.dialedOut_due (fun _ => by rw [hc]) (fun _ => by rw [hcalls]) ?_
  simpa only [HoldsCall, hc] using hm

theorem Kept.toned (h : Kept ⟨p, l⟩) {info : CallInfo}
    (hinfo : info.callState = .ccInProgress ∨ info.callState = .originating ∨
      info.callState = .waiting)
    (htone : TonePlays p (.network info env) = true → l.thirdLogged = false)
    (hm : HoldsCall p → Allocates env.malloc)
    (hs : ((thirdCallTone p env).bind fun p => settle (dialedOut p) env) = some q) :
    Kept ⟨q, observe l p (.network info env) q⟩ := by
  obtain ⟨u, hu, hs⟩ := Option.bind_eq_some_iff.mp hs
  unfold thirdCallTone at hu
  split at hu
  · next hplays =>
    obtain ⟨hflag, hconv, hwaits⟩ := hplays
    have ht : TonePlays p (.network info env) = true := by
      simpa [TonePlays, hflag, hconv, hwaits] using hinfo
    have hbooks : Books u l.logThird :=
      (h.books : Books p l).tone (hm (.inr (.inr hconv))) hwaits (htone ht) hu
    have hframe : Framed { p with toneFlag := p.toneFlag + 1 } u := addRecord_frame hu
    have hc : u.currStatus = p.currStatus := hframe.currStatus
    have hrests : Rests u l.logThird := by
      simp only [Rests, hc, hframe.lateStatus]
      exact h.rests
    have hout : dialedOut u = u := by simp [dialedOut, hc, hconv]
    rw [hout] at hs
    obtain ⟨hb, hl⟩ := hbooks.after_settle hrests.due (fun _ => hm (.inr (.inr hconv))) hs
    have hcalls : q.calls = p.calls := (settle_calls hs).trans hframe.calls
    have hthird : l.third p (.network info env) q = l.logThird := by
      have hnew : newWaiting p.calls.thirdCallInfo q.calls.thirdCallInfo = false :=
        newWaiting_false fun hw => ⟨hcalls ▸ hw, by rw [hcalls]⟩
      simp [Ledger.third, hnew, ht, htone ht]
    have hobs : observe l p (.network info env) q =
        l.logThird.follow false u.currStatus q.currStatus := by
      simp [observe, hthird, hc, ThirdCallWakes, Reports]
    exact ⟨hobs ▸ hb, .inl hl⟩
  · next hplays =>
    obtain rfl := Option.some.inj hu
    refine h.after_dialedOut ?_ hm hs
    simp only [TonePlays, decide_eq_false_iff_not]
    exact fun ht => hplays ht.2

theorem ringOver_same (p : Phone) : (ringOver p).currStatus = p.currStatus ∧
    (ringOver p).isIncoming = p.isIncoming ∧ (ringOver p).calls = p.calls ∧
      (ringOver p).logged = p.logged := by
  unfold ringOver
  split <;> exact ⟨rfl, rfl, rfl, rfl⟩

theorem Rests.ringOver_due (h : Rests p l) : Due (ringOver p) l := by
  unfold ringOver
  split
  · next hc =>
    refine .inr (.inl ?_)
    simp only [hc]
    exact .ring_idle
  · exact h.due

theorem Kept.thirdOver (h : Kept ⟨p, l⟩) : Kept ⟨thirdCallOver p, l⟩ ∧
    ((thirdCallOver p).calls.thirdCallInfo.callState = .waiting →
      (thirdCallOver p).calls.thirdCallInfo = p.calls.thirdCallInfo) := by
  have hbooks : Books p l := h.books
  unfold thirdCallOver
  simp only
  split
  · refine ⟨⟨?_, h.rests⟩, nofun⟩
    exact hbooks.after [] hbooks.call hbooks.incoming nofun (by simp) (by simp) ⟨rfl, rfl, rfl⟩
  · exact ⟨h, fun _ => rfl⟩

theorem Kept.network (h : Kept ⟨p, l⟩) {info : CallInfo}
    (hk : CallsKept ⟨p, l⟩ (.network info env)) (hs : networkEventHandle p info env = some q) :
    Kept ⟨q, observe l p (.network info env) q⟩ := by
  have hbooks : Books p l := h.books
  have hdue : Due p l := (h.rests : Rests p l).due
  have hm : HoldsCall p → Allocates env.malloc := fun hh => hk.nodes hh env rfl
  have hw : ¬ ThirdCallWakes p (.network info env) := fun hw => hw.1
  have hquiet : ∀ {u : Phone}, settle u env = some q →
      TonePlays p (.network info env) = false → Due u l → u.currStatus = p.currStatus →
      u.isIncoming = p.isIncoming → u.calls = p.calls → u.logged = p.logged →
      Kept ⟨q, observe l p (.network info env) q⟩ := by
    intro u hs ht hd hc hin hcalls hlog
    refine .of_settle hs hw ht (hbooks.same (hc ▸ hbooks.call) hin hcalls hlog) hd
      (fun _ => by rw [hc]) (fun _ => by rw [hcalls]) ?_
    simpa only [HoldsCall, hc] using hm
  unfold networkEventHandle at hs
  cases hinfo : info.callState <;> simp only [hinfo] at hs
  case incoming =>
    have ht : TonePlays p (.network info env) = false := by simp [TonePlays, hinfo]
    split at hs
    · next hc =>
      refine hquiet hs ht (.inr (.inl ?_)) rfl rfl rfl rfl
      simp only [hc]
      exact .idle_ring
    · exact hquiet hs ht hdue rfl rfl rfl rfl
  case ccInProgress => exact h.toned (.inl hinfo) hk.tone hm hs
  case originating => exact h.toned (.inr (.inl hinfo)) hk.tone hm hs
  case waiting => exact h.toned (.inr (.inr hinfo)) hk.tone hm hs
  case alerting => exact h.after_dialedOut (by simp [TonePlays, hinfo]) hm hs
  case conversation =>
    have ht : TonePlays p (.network info env) = false := by simp [TonePlays, hinfo]
    split at hs
    · next hc =>
      refine hquiet hs ht (.inr (.inl ?_)) rfl rfl rfl rfl
      simp only [hc]
      exact .alerting_conversation
    · exact hquiet hs ht hdue rfl rfl rfl rfl
  case disconnecting | ended =>
    have ht : TonePlays p (.network info env) = false := by simp [TonePlays, hinfo]
    obtain ⟨⟨hb, hr⟩, hthird⟩ := h.thirdOver
    have hcurr : (thirdCallOver p).currStatus = p.currStatus := (thirdCallOver_status p).1
    obtain ⟨hc, hin, hcalls, hlog⟩ := ringOver_same (thirdCallOver p)
    refine .of_settle hs hw ht (hb.same (hc ▸ hb.call) hin hcalls hlog) (Rests.ringOver_due hr)
      (fun _ => by rw [hc, hcurr]) (by rwa [hcalls]) ?_
    simpa only [HoldsCall, hc, hcurr] using hm
  case setup | hold | invalid =>
    exact hquiet hs (by simp [TonePlays, hinfo]) hdue rfl rfl rfl rfl

theorem Kept.after_giveUp (h : Kept ⟨p, l⟩) (hn : ¬ HoldsCall p) (hw : ¬ ThirdCallWakes p e)
    (ht : TonePlays p e = false) : Kept ⟨giveUp p, observe l p e (giveUp p)⟩ := by
  have hbooks : Books p l := h.books
  have hnone : l.call = none := hbooks.idle_of_noCall hn
  have hclose : l.follow false p.currStatus (giveUp p).currStatus = l := close_of_none hnone
  refine .of_follow hw ht (fun _ => rfl) ?_ (.inl rfl)
  rw [hclose]
  exact hbooks.same hnone rfl rfl rfl

theorem Kept.still (h : Kept ⟨p, l⟩) (hw : ¬ ThirdCallWakes p e) (ht : TonePlays p e = false)
    (hc : q.currStatus = p.currStatus) (hl : q.lateStatus = p.lateStatus)
    (hin : q.isIncoming = p.isIncoming) (hlog : q.logged = p.logged)
    (hthird : q.calls.thirdCallInfo = p.calls.thirdCallInfo) : Kept ⟨q, observe l p e q⟩ := by
  have hbooks : Books p l := h.books
  have hsame : l.follow false p.currStatus q.currStatus = l := by
    rw [hc, follow_same hbooks.call]
  refine .of_follow hw ht (fun _ => hthird) ?_ ?_ <;> rw [hsame]
  · exact hbooks.after [] (hc ▸ hbooks.call) (hin ▸ hbooks.incoming) (fun hw => hthird ▸ hw)
      (by simp [hlog]) (by simp) ⟨rfl, rfl, rfl⟩
  · simpa only [Rests, hc, hl] using h.rests

theorem Kept.indication (h : Kept ⟨p, l⟩) {calls : Calls} {numberValid : Bool}
    {slots : List QmiCall} :
    Kept ⟨{ p with calls := calls },
      observe l p (.indication numberValid slots) { p with calls := calls }⟩ := by
  have hbooks : Books p l := h.books
  have hle : l.thirds ≤ l.waits := hbooks.log.thirds
  by_cases hnew : newWaiting p.calls.thirdCallInfo calls.thirdCallInfo = true
  · let l' : Ledger := { l with waits := l.waits + 1, thirdLogged := false }
    have hobs : observe l p (.indication numberValid slots) { p with calls := calls } =
        l'.follow false p.currStatus p.currStatus := by
      simp [observe, Ledger.third, hnew, ThirdCallWakes, Reports, l']
    have hsame : l'.follow false p.currStatus p.currStatus = l' := follow_same hbooks.call
    refine ⟨?_, ?_⟩ <;> rw [hobs, hsame]
    · exact ⟨hbooks.call, hbooks.incoming, ⟨hbooks.log.records, Nat.le_succ_of_le hle⟩,
        fun _ _ => Nat.lt_succ_of_le hle⟩
    · exact h.rests
  · have hold : calls.thirdCallInfo.callState = .waiting →
        p.calls.thirdCallInfo.callState = .waiting := by
      intro hw
      by_contra hp
      exact hnew (by simp [newWaiting, hw, hp])
    have hobs : observe l p (.indication numberValid slots) { p with calls := calls } =
        l.follow false p.currStatus p.currStatus := by
      simp [observe, Ledger.third, hnew, TonePlays, ThirdCallWakes, Reports]
    have hsame : l.follow false p.currStatus p.currStatus = l := follow_same hbooks.call
    refine ⟨?_, ?_⟩ <;> rw [hobs, hsame]
    · exact ⟨hbooks.call, hbooks.incoming, ⟨hbooks.log.records, hle⟩,
        fun hw => hbooks.room (hold hw)⟩
    · exact h.rests

theorem Kept.step (h : Kept w) (hk : CallsKept w e) (hs : Steps watchedNext w e w') : Kept w' := by
  obtain ⟨p, l⟩ := w
  obtain ⟨q, hq, rfl⟩ := Option.map_eq_some_iff.mp hs
  simp only at hq ⊢
  cases e with
  | device reported digit env => exact h.device hk hq
  | network info env => exact h.network hk hq
  | waitTimeout =>
    obtain rfl := Option.some.inj hq
    unfold waitTimeout
    split
    · exact h.still (fun hw => hw.1) rfl rfl rfl rfl rfl rfl
    · next hl => exact h.after_giveUp (hk.timer (.inl rfl) hl) (fun hw => hw.1) rfl
  | dialAlarm callId =>
    obtain rfl := Option.some.inj hq
    unfold dialingOut
    split
    · cases callId with
      | none => exact h.still (fun hw => hw.1) rfl rfl rfl rfl rfl rfl
      | some id => exact h.still (fun hw => hw.1) rfl rfl rfl rfl rfl rfl
    · next hl => exact h.after_giveUp (hk.timer (.inr ⟨_, rfl⟩) hl) (fun hw => hw.1) rfl
  | indication numberValid slots =>
    obtain rfl := Option.some.inj hq
    exact h.indication

theorem run_logsExact {ts : List (Taken Watched Event)}
    (h : Run WatchStarted (Steps watchedNext) ts w)
    (hk : ∀ x ∈ ts, CallsKept x.before x.event) : LogsExact w := by
  have hkept : Kept w :=
    h.guarded (fun _ => kept_start) (fun _ _ _ hw hc hs => hw.step hc hs) hk
  exact hkept.books.log

theorem watched_of_run {ts : List (Taken Phone Event)} (h : Run Started (Steps next) ts p) :
    ∃ ws l, Run WatchStarted (Steps watchedNext) ws ⟨p, l⟩ ∧
      ws.map (fun x => (⟨x.before.phone, x.event, x.after.phone⟩ : Taken Phone Event)) = ts := by
  induction h with
  | start hp => exact ⟨[], emptyLedger, .start ⟨hp, rfl⟩, rfl⟩
  | @snoc ts p e q _ hs ih =>
    obtain ⟨ws, l, hrun, rfl⟩ := ih
    have hstep : Steps watchedNext ⟨p, l⟩ e ⟨q, observe l p e q⟩ := by
      rw [Steps, watchedNext, show next p e = some q from hs]
      rfl
    exact ⟨_, _, hrun.snoc hstep, by simp⟩

theorem callsKept_network {info : CallInfo} (ht : TonePlays w.phone (.network info env) = false)
    (hm : Allocates env.malloc) : CallsKept w (.network info env) where
  digit h := absurd h id
  wake h := absurd h.1 id
  timer h := absurd h (by simp)
  tone h := absurd h (by simp [ht])
  nodes _ env' henv := by
    obtain rfl := Option.some.inj henv
    exact hm

def callInfoOf (state : CallState) : CallInfo :=
  { zeroCallInfo with callId := 1, callState := state }

def storingEnv : Env := ⟨0, (.noErr, .unknown), ⟨true, some 0, true⟩, fun _ => true⟩

theorem missed_call_logged : ∃ w, runTrace watchedNext ⟨initialPhone emptyStore 0, emptyLedger⟩
    [.network (callInfoOf .incoming) storingEnv, .network (callInfoOf .ended) storingEnv] =
      some w ∧ LogsExact w := by
  have hm : Allocates storingEnv.malloc := ⟨rfl, nofun, rfl⟩
  obtain ⟨w₁, hring⟩ : ∃ w, watchedNext ⟨initialPhone emptyStore 0, emptyLedger⟩
      (.network (callInfoOf .incoming) storingEnv) = some w := Option.isSome_iff_exists.mp rfl
  obtain ⟨w₂, hover⟩ : ∃ w, (watchedNext ⟨initialPhone emptyStore 0, emptyLedger⟩
      (.network (callInfoOf .incoming) storingEnv)).bind (fun w =>
        watchedNext w (.network (callInfoOf .ended) storingEnv)) = some w :=
    Option.isSome_iff_exists.mp rfl
  rw [hring] at hover
  have hstart : Run WatchStarted (Steps watchedNext) []
      ⟨initialPhone emptyStore 0, emptyLedger⟩ := .start ⟨⟨_, _, rfl⟩, rfl⟩
  have hrun := (hstart.snoc hring).snoc (show Steps watchedNext w₁ _ w₂ from hover)
  refine ⟨w₂, by simp [runTrace, hring, show watchedNext w₁ _ = some w₂ from hover], ?_⟩
  refine run_logsExact hrun ?_
  intro x hx
  simp only [List.nil_append, List.cons_append, List.mem_cons, List.not_mem_nil, or_false] at hx
  rcases hx with rfl | rfl
  · exact callsKept_network (by simp [TonePlays, callInfoOf]) hm
  · exact callsKept_network (by simp [TonePlays, callInfoOf]) hm

/-- A number begun and given up leaves its alarm behind, which ends the next call that
rings: the phone is idle and the call has no record. -/
theorem alarm_loses_missed_call :
    ¬ ∀ ts w, Run WatchStarted (Steps watchedNext) ts w → LogsExact w := by
  intro h
  have hcheck : (runTrace watchedNext ⟨initialPhone emptyStore 0, emptyLedger⟩
      [.device .offhook none storingEnv, .device .digit (some '5') storingEnv,
        .device .onhook none storingEnv,
        .indication true [⟨1, 0x02, 0x00, 0x02, 0x03, .empty (by decide)⟩],
        .network (callInfoOf .incoming) storingEnv, .dialAlarm none]).any
      (fun w => w.phone.logged = [] ∧ w.ledger.records = [.missed]) = true := by decide +kernel
  obtain ⟨w, hw, hlost⟩ := (Option.any_eq_true _ _).mp hcheck
  obtain ⟨hlogged, hdue⟩ := of_decide_eq_true hlost
  obtain ⟨ts, hrun, -⟩ : ∃ ts, Run WatchStarted (Steps watchedNext) ([] ++ ts) w ∧ _ :=
    runTrace_run (fun _ _ _ _ hs => hs) (.start ⟨⟨_, _, rfl⟩, rfl⟩) hw
  have hexact := (h _ w hrun).records
  rw [hlogged, hdue] at hexact
  cases hexact

end VoiceCallLog
