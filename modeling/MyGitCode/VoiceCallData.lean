import MyGitCode.VoiceStatusTable

/-! # What the phone keeps of one call

The digits, flags and times of a call lie in `g_voice_data` beside the two status variables.
They are cleared where the status handler leaves a call for IDLE, but the alarm and the
timer go to IDLE on their own. -/
namespace VoiceCallData

open TransitionRuns VoiceModem VoiceDatastore VoicePhone
open VoiceCallRecords (emptyStore)
open VoiceStatusTable (Reports settle_status quietEnv)

/-- What `Clear call-out number and current call record` clears. -/
structure CallData where
  len : ℕ
  callNum : Vector Char 32
  isIncoming : Bool
  isOnline : Bool
  previousTime : ℤ
  toneFlag : ℕ
  deriving DecidableEq

def callData (p : Phone) : CallData :=
  ⟨p.len, p.callNum, p.isIncoming, p.isOnline, p.previousTime, p.toneFlag⟩

def cleared : CallData := ⟨0, Vector.replicate 32 nul, false, false, 0, 0⟩

def IdleClear (p : Phone) : Prop := p.currStatus = .idle → callData p = cleared

/-- The alarm and the timer do nothing while a number is dialled. At any other time they are
to find nothing of a call. -/
def StrikesClear (p : Phone) : Event → Prop
  | .waitTimeout | .dialAlarm _ => p.lateStatus = .dialing ∨ callData p = cleared
  | _ => True

variable {p q : Phone} {e : Event} {env : Env} {reported : DeviceState} {digit : Option Char}
  {curr late : Status} {type : CallType} {info : CallInfo}

structure SameBuffers (p q : Phone) : Prop where
  data : callData q = callData p
  dtmfQueue : q.dtmfQueue = p.dtmfQueue

theorem addRecord_sameBuffers (h : addRecord p type env = some q) : SameBuffers p q := by
  simp only [addRecord, Option.map_eq_some_iff] at h
  obtain ⟨_, _, rfl⟩ := h
  exact ⟨rfl, rfl⟩

theorem clearCall_data (p : Phone) : callData (clearCall p) = cleared := rfl

theorem statusHandle_idle (hc : curr ≠ .idle) (h : statusHandle p curr .idle env = some q) :
    callData q = cleared := by
  cases curr with
  | idle => exact absurd rfl hc
  | ring | conversation | alerting =>
    simp only [statusHandle, Option.map_eq_some_iff] at h
    obtain ⟨u, _, rfl⟩ := h
    exact clearCall_data _
  | dialing | wait =>
    obtain rfl := Option.some.inj h
    exact clearCall_data _

theorem statusHandle_buffers (h : statusHandle p curr late env = some q) :
    q.dtmfQueue = p.dtmfQueue ∧
      (q.len = p.len ∧ q.callNum = p.callNum ∨ callData q = cleared) := by
  cases late with
  | idle =>
    by_cases hc : curr = .idle
    · subst hc
      obtain rfl := Option.some.inj h
      exact ⟨rfl, .inl ⟨rfl, rfl⟩⟩
    · refine ⟨?_, .inr (statusHandle_idle hc h)⟩
      cases curr <;> simp only [statusHandle, Option.map_eq_some_iff, Option.some.injEq] at h
      case idle => exact absurd rfl hc
      case ring | conversation | alerting =>
        obtain ⟨u, hu, rfl⟩ := h
        exact (addRecord_sameBuffers hu).dtmfQueue
      case dialing | wait =>
        subst h
        rfl
  | ring =>
    cases curr <;> simp only [statusHandle, Option.map_eq_some_iff, Option.some.injEq] at h
    case idle =>
      obtain ⟨_, _, rfl⟩ := h
      exact ⟨rfl, .inl ⟨rfl, rfl⟩⟩
    all_goals
      subst h
      exact ⟨rfl, .inl ⟨rfl, rfl⟩⟩
  | conversation =>
    cases curr <;> obtain rfl := Option.some.inj h <;> exact ⟨rfl, .inl ⟨rfl, rfl⟩⟩
  | wait | dialing | alerting =>
    obtain rfl := Option.some.inj h
    exact ⟨rfl, .inl ⟨rfl, rfl⟩⟩

inductive Prepared (p : Phone) : Phone → Prop where
  | same {p'} : callData p' = callData p → p'.dtmfQueue.tail ≤ p.dtmfQueue.tail →
      p'.currStatus = p.currStatus → Prepared p p'
  /-- The waiting call goes on from IDLE to RING. -/
  | wakes {p'} : callData p' = callData p → p'.dtmfQueue.tail ≤ p.dtmfQueue.tail →
      p'.lateStatus = .ring → Prepared p p'
  | digit {p'} (h : p.len < 31) (c : Char) :
      callData p' = { callData p with
        callNum := p.callNum.set p.len c (Nat.lt_succ_of_lt h), len := p.len + 1 } →
      p'.dtmfQueue = p.dtmfQueue → p'.lateStatus = .dialing → Prepared p p'
  | dtmf {p'} : callData p' = callData p → p'.dtmfQueue.tail ≤ max p.dtmfQueue.tail 63 →
      p'.currStatus = .conversation → Prepared p p'
  | tone {p'} : callData p' = { callData p with toneFlag := p.toneFlag + 1 } →
      p'.dtmfQueue = p.dtmfQueue → p'.currStatus = .conversation → Prepared p p'

/-- Nothing is settled where the hook state is unknown or no digit can be read. -/
structure Kept (p q : Phone) : Prop where
  data : callData q = callData p
  dtmfQueue : q.dtmfQueue = p.dtmfQueue
  currStatus : q.currStatus = p.currStatus ∨ q.currStatus = .conversation

def Handled (p : Phone) (env : Env) (q : Phone) : Prop :=
  Kept p q ∨ ∃ p', Prepared p p' ∧ settle p' env = some q

theorem onHook_prepared (p : Phone) : Prepared p (onHook p) := by
  unfold onHook
  simp only
  split
  · exact .wakes rfl (Nat.zero_le _) rfl
  · split <;> exact .same rfl (Nat.zero_le _) rfl

theorem offHook_prepared (p : Phone) : Prepared p (offHook p) := by
  unfold offHook
  split <;> exact .same rfl (Nat.le_refl _) rfl

theorem dialDigit_handled (h : dialDigit p digit env = some q) : Handled p env q := by
  unfold dialDigit at h
  simp only at h
  split at h
  · next hlen =>
    cases digit with
    | none =>
      obtain rfl := Option.some.inj h
      exact .inl ⟨rfl, rfl, .inl rfl⟩
    | some c =>
      refine .inr ⟨_, ?_, (h :)⟩
      exact .digit hlen c rfl rfl rfl
  · refine .inr ⟨_, ?_, h⟩
    exact .same rfl (Nat.le_refl _) rfl

theorem dtmfDigit_handled (h : dtmfDigit p digit env = some q) : Handled p env q := by
  unfold dtmfDigit at h
  simp only at h
  split at h
  · next htail =>
    cases digit with
    | none =>
      obtain rfl := Option.some.inj h
      exact .inl ⟨rfl, rfl, .inr rfl⟩
    | some c =>
      refine .inr ⟨_, ?_, (h :)⟩
      exact .dtmf rfl (Nat.le_trans htail (Nat.le_max_right _ _)) rfl
  · refine .inr ⟨_, ?_, h⟩
    exact .dtmf rfl (Nat.le_max_left _ _) rfl

theorem deviceEventHandle_handled (h : deviceEventHandle p reported digit env = some q) :
    Handled p env q := by
  unfold deviceEventHandle at h
  cases hstate : deviceState p reported <;> simp only [hstate] at h
  case onhook => exact .inr ⟨_, onHook_prepared p, h⟩
  case offhook => exact .inr ⟨_, offHook_prepared p, h⟩
  case digit =>
    split at h
    · exact dialDigit_handled h
    · exact dtmfDigit_handled h
  case unknown =>
    obtain rfl := Option.some.inj h
    exact .inl ⟨rfl, rfl, .inl rfl⟩

theorem thirdCallTone_prepared (h : thirdCallTone p env = some q) : Prepared p (dialedOut q) := by
  have hdialed : callData (dialedOut q) = callData q ∧ (dialedOut q).dtmfQueue = q.dtmfQueue ∧
      (dialedOut q).currStatus = q.currStatus := by
    unfold dialedOut
    split <;> exact ⟨rfl, rfl, rfl⟩
  obtain ⟨hdata, hqueue, hcurr⟩ := hdialed
  unfold thirdCallTone at h
  split at h
  · next htone =>
    have hsame := addRecord_sameBuffers h
    have hconv := (VoiceStatusTable.addRecord_frame h).currStatus
    exact .tone (hdata.trans hsame.data) (hqueue.trans hsame.dtmfQueue)
      (hcurr.trans (hconv.trans htone.2.1))
  · obtain rfl := Option.some.inj h
    exact .same hdata (Nat.le_of_eq (congrArg DtmfQueue.tail hqueue)) hcurr

theorem networkEventHandle_handled (h : networkEventHandle p info env = some q) :
    ∃ p', Prepared p p' ∧ settle p' env = some q := by
  unfold networkEventHandle at h
  cases hstate : info.callState <;> simp only [hstate] at h
  case ccInProgress | originating | waiting =>
    obtain ⟨u, hu, h⟩ := Option.bind_eq_some_iff.mp h
    exact ⟨_, thirdCallTone_prepared hu, h⟩
  all_goals
    refine ⟨_, ?_, h⟩
  case setup | hold | invalid => exact .same rfl (Nat.le_refl _) rfl
  case alerting =>
    unfold dialedOut
    split <;> exact .same rfl (Nat.le_refl _) rfl
  case disconnecting | ended =>
    unfold ringOver thirdCallOver
    simp only
    split <;> split <;> exact .same rfl (Nat.le_refl _) rfl
  case incoming | conversation =>
    split <;> exact .same rfl (Nat.le_refl _) rfl

theorem settle_idleClear (hp : p.currStatus = .idle → p.lateStatus = .idle → callData p = cleared)
    (h : settle p env = some q) : IdleClear q := by
  intro hq
  rw [(settle_status h).1] at hq
  unfold settle at h
  split at h
  · next hne =>
    rw [hq] at hne
    simp only [hq, Option.map_eq_some_iff] at h
    obtain ⟨u, hu, rfl⟩ := h
    exact (statusHandle_idle hne hu :)
  · next heq =>
    rw [not_not, hq] at heq
    obtain rfl := Option.some.inj h
    exact hp heq hq

theorem IdleClear.prepared (hp : IdleClear p) (h : Prepared p q) (hc : q.currStatus = .idle)
    (hl : q.lateStatus = .idle) : callData q = cleared := by
  cases h with
  | same hdata _ hcurr => exact hdata.trans (hp (hcurr.symm.trans hc))
  | wakes _ _ hlate | digit _ _ _ _ hlate => cases hlate.symm.trans hl
  | dtmf _ _ hcurr | tone _ _ hcurr => cases hcurr.symm.trans hc

theorem IdleClear.handled (hp : IdleClear p) (h : Handled p env q) : IdleClear q := by
  rcases h with hkept | ⟨p', hprepared, hsettle⟩
  · intro hq
    rcases hkept.currStatus with hcurr | hcurr
    · exact hkept.data.trans (hp (hcurr.symm.trans hq))
    · cases hcurr.symm.trans hq
  · exact settle_idleClear (hp.prepared hprepared) hsettle

theorem IdleClear.step (hp : IdleClear p) (hc : StrikesClear p e) (hs : Steps next p e q) :
    IdleClear q := by
  cases e with
  | device reported digit env => exact hp.handled (deviceEventHandle_handled hs)
  | network info env => exact hp.handled (.inr (networkEventHandle_handled hs))
  | waitTimeout =>
    obtain rfl := Option.some.inj hs
    unfold waitTimeout
    split
    · exact hp
    · next hlate => exact fun _ => hc.resolve_left hlate
  | dialAlarm callId =>
    obtain rfl := Option.some.inj hs
    unfold dialingOut
    split
    · cases callId <;> exact hp
    · next hlate => exact fun _ => hc.resolve_left hlate
  | indication numberValid slots =>
    obtain rfl := Option.some.inj hs
    exact hp

theorem strike_leaves_data (hc : ¬ StrikesClear p e) (hs : Steps next p e q) : ¬ IdleClear q := by
  have hgiveUp (hdata : callData p ≠ cleared) : ¬ IdleClear (giveUp p) :=
    fun hq => hdata (hq rfl)
  cases e with
  | waitTimeout =>
    obtain ⟨hlate, hdata⟩ := not_or.mp hc
    obtain rfl := Option.some.inj hs
    rw [waitTimeout, if_neg hlate]
    exact hgiveUp hdata
  | dialAlarm callId =>
    obtain ⟨hlate, hdata⟩ := not_or.mp hc
    obtain rfl := Option.some.inj hs
    unfold dialingOut
    rw [if_neg hlate]
    exact hgiveUp hdata
  | device | network | indication => exact absurd trivial hc

theorem started_idleClear (h : Started p) : IdleClear p := by
  obtain ⟨store, timezoneDiff, rfl⟩ := h
  exact fun _ => rfl

/-- In IDLE, nothing is left of an earlier call: exactly in the runs where neither the alarm
nor the timer strikes with data of a call there and no number being dialled. -/
theorem run_idleClear_iff {ts : List (Taken Phone Event)} (h : Run Started (Steps next) ts p) :
    (∀ x ∈ ts, IdleClear x.before ∧ IdleClear x.after) ↔
      ∀ x ∈ ts, StrikesClear x.before x.event := by
  refine h.all_iff (I := IdleClear) (Q := fun p _ q => IdleClear p ∧ IdleClear q) ?_ ?_ ?_
  · intro p
    exact started_idleClear
  · intro p e q hp hc hs
    have hq := hp.step hc hs
    exact ⟨hq, hp, hq⟩
  · intro p e q _ hc hs hclear
    exact strike_leaves_data hc hs hclear.2

theorem started_run (es : List Event) (h : runTrace next (initialPhone emptyStore 0) es = some p) :
    Run Started (Steps next) (takenSteps next (initialPhone emptyStore 0) es) p :=
  takenSteps_run (.start ⟨emptyStore, 0, rfl⟩) h

theorem timeout_idleClear :
    ∃ p, runTrace next (initialPhone emptyStore 0)
        [.device .offhook none quietEnv, .waitTimeout] = some p ∧
      p.currStatus = .idle ∧ callData p = cleared := by
  have hrun := started_run [.device .offhook none quietEnv, .waitTimeout] rfl
  have hclear := (run_idleClear_iff hrun).mpr fun x hx => by
    rcases List.mem_cons.mp hx with rfl | hx
    · trivial
    · obtain rfl := List.mem_singleton.mp hx
      exact .inr rfl
  have hlast := (hclear _ (List.mem_cons_of_mem _ (List.mem_singleton_self _))).2
  exact ⟨_, rfl, rfl, hlast rfl⟩

/-- A second digit, read after the number was dialled, sets the alarm once more, and the alarm
strikes while the other side is rung. The two digits are still there in IDLE. -/
theorem alarm_leaves_digits :
    ¬ ∀ ts p, Run Started (Steps next) ts p → p.currStatus = .idle → callData p = cleared := by
  intro h
  have hrun := started_run
    [.device .offhook none quietEnv, .device .digit (some '1') quietEnv,
      .dialAlarm (some 1), .device .digit (some '2') quietEnv,
      .network { zeroCallInfo with callState := .alerting } quietEnv, .dialAlarm none] rfl
  cases congrArg CallData.len (h _ _ hrun rfl)

structure Fits (d : CallData) (queue : DtmfQueue) : Prop where
  len : d.len ≤ 31
  rest : ∀ i (_ : i < 32), d.len ≤ i → d.callNum[i] = nul
  tail : queue.tail ≤ 63

def Buffered (p : Phone) : Prop := Fits (callData p) p.dtmfQueue

theorem cleared_fits {queue : DtmfQueue} (htail : queue.tail ≤ 63) : Fits cleared queue :=
  ⟨Nat.zero_le _, fun _ hi _ => Vector.getElem_replicate hi, htail⟩

theorem Buffered.statusHandle (hp : Buffered p) (h : statusHandle p curr late env = some q) :
    Buffered q := by
  obtain ⟨hqueue, ⟨hlen, hnum⟩ | hcleared⟩ := statusHandle_buffers h
  · obtain ⟨hplen, hprest, hptail⟩ := hp
    simp only [callData, ← hlen, ← hnum, ← hqueue] at hplen hprest hptail
    exact ⟨hplen, hprest, hptail⟩
  · rw [Buffered, hcleared, hqueue]
    exact cleared_fits hp.tail

theorem Buffered.settle (hp : Buffered p) (h : settle p env = some q) : Buffered q := by
  unfold VoicePhone.settle at h
  split at h
  · simp only [Option.map_eq_some_iff] at h
    obtain ⟨u, hu, rfl⟩ := h
    exact (hp.statusHandle hu :)
  · obtain rfl := Option.some.inj h
    exact hp

theorem Buffered.nextDigit (hp : Buffered p) (hlen : p.len < 31) (c : Char) :
    Fits { callData p with
        callNum := p.callNum.set p.len c (Nat.lt_succ_of_lt hlen), len := p.len + 1 }
      p.dtmfQueue := by
  refine ⟨Nat.succ_le_of_lt hlen, fun i hi hle => ?_, hp.tail⟩
  have hlt : p.len < i := hle
  have hset : (p.callNum.set p.len c)[i] = p.callNum[i] :=
    Vector.getElem_set_ne _ hi (Nat.ne_of_lt hlt)
  exact hset.trans (hp.rest i hi (Nat.le_of_lt hlt))

theorem Buffered.prepared (hp : Buffered p) (h : Prepared p q) : Buffered q := by
  cases h with
  | same hdata htail | wakes hdata htail =>
    rw [Buffered, hdata]
    exact ⟨hp.len, hp.rest, Nat.le_trans htail hp.tail⟩
  | digit hlen c hdata hqueue =>
    rw [Buffered, hdata, hqueue]
    exact hp.nextDigit hlen c
  | dtmf hdata htail =>
    rw [Buffered, hdata]
    exact ⟨hp.len, hp.rest, Nat.le_trans htail (Nat.max_le.mpr ⟨hp.tail, Nat.le_refl _⟩)⟩
  | tone hdata hqueue =>
    rw [Buffered, hdata, hqueue]
    exact ⟨hp.len, hp.rest, hp.tail⟩

theorem Buffered.handled (hp : Buffered p) (h : Handled p env q) : Buffered q := by
  rcases h with hkept | ⟨p', hprepared, hsettle⟩
  · rw [Buffered, hkept.data, hkept.dtmfQueue]
    exact hp
  · exact (hp.prepared hprepared).settle hsettle

theorem Buffered.step (hp : Buffered p) (hs : Steps next p e q) : Buffered q := by
  cases e with
  | device reported digit env => exact hp.handled (deviceEventHandle_handled hs)
  | network info env => exact hp.handled (.inr (networkEventHandle_handled hs))
  | waitTimeout =>
    obtain rfl := Option.some.inj hs
    unfold waitTimeout
    split <;> exact hp
  | dialAlarm callId =>
    obtain rfl := Option.some.inj hs
    unfold dialingOut
    split
    · cases callId <;> exact hp
    · exact hp
  | indication numberValid slots =>
    obtain rfl := Option.some.inj hs
    exact hp

theorem Fits.number_length {d : CallData} {queue : DtmfQueue} (h : Fits d queue) :
    (d.callNum.toList.takeWhile (· ≠ nul)).length ≤ d.len := by
  by_contra hlong
  rw [Nat.not_le] at hlong
  have hlen : d.len < 32 := Nat.lt_succ_of_le h.len
  have hsame := (List.takeWhile_prefix (l := d.callNum.toList) (· ≠ nul)).getElem hlong
  have hne := List.all_eq_true.mp List.all_takeWhile _ (List.getElem_mem hlong)
  rw [hsame, Vector.getElem_toList, h.rest d.len hlen (Nat.le_refl _)] at hne
  simp at hne

/-- In every reachable state, the digits stand inside their arrays, with zeros behind the
number. -/
theorem reachable_buffers (h : Reachable Started (Steps next) p) :
    p.len ≤ 31 ∧ (∀ i (_ : i < 32), p.len ≤ i → p.callNum[i] = nul) ∧
      (p.callNum.toList.takeWhile (· ≠ nul)).length ≤ p.len ∧ p.dtmfQueue.tail ≤ 63 := by
  have hp : Buffered p := by
    refine h.invariant ?_ fun _ _ _ hp hs => hp.step hs
    rintro p ⟨store, timezoneDiff, rfl⟩
    exact cleared_fits (Nat.zero_le _)
  exact ⟨hp.len, hp.rest, hp.number_length, hp.tail⟩

theorem reachable_buffers_digit :
    ∃ p, runTrace next (initialPhone emptyStore 0)
        [.device .offhook none quietEnv, .device .digit (some '7') quietEnv] = some p ∧
      p.len = 1 ∧ ∀ i (_ : i < 32), 1 ≤ i → p.callNum[i] = nul := by
  have hrun := started_run
    [.device .offhook none quietEnv, .device .digit (some '7') quietEnv] rfl
  exact ⟨_, rfl, rfl, (reachable_buffers hrun.reachable).2.1⟩

/-- Whether a digit event has room for a digit and asks the device for it. -/
def ReadsDigit (p : Phone) : Prop :=
  if p.currStatus = .wait ∨ p.currStatus = .dialing then p.len < 31 else p.dtmfQueue.tail < 63

instance (p : Phone) : Decidable (ReadsDigit p) := by
  unfold ReadsDigit
  infer_instance

/-- The return value of `jan_voice_core_device_event_handle`. -/
def deviceEventReturn (p : Phone) (reported : DeviceState) (digit : Option Char) : Rc :=
  match deviceState p reported, digit with
  | .digit, none => if ReadsDigit p then .fail else .noErr
  | _, _ => .noErr

structure FailsUnchanged (p : Phone) (reported : DeviceState) (env : Env) : Prop where
  fails : deviceEventReturn p reported none = .fail
  unchanged : ∃ q, deviceEventHandle p reported none env = some q ∧
    q.currStatus = p.currStatus ∧ q.lateStatus = p.lateStatus ∧ q.len = p.len ∧
    q.callNum = p.callNum ∧ q.dtmfQueue = p.dtmfQueue

/-- The statuses the handler assigns before it reads are there already. -/
def AssignsNothing (p : Phone) : Prop :=
  if p.currStatus = .wait ∨ p.currStatus = .dialing then p.lateStatus = .dialing
  else p.currStatus = .conversation

theorem failed_read (env : Env) (hstate : deviceState p reported = .digit)
    (hroom : ReadsDigit p) :
    deviceEventHandle p reported none env = some
      (if p.currStatus = .wait ∨ p.currStatus = .dialing then { p with lateStatus := .dialing }
      else { p with currStatus := .conversation }) := by
  unfold ReadsDigit at hroom
  simp only [deviceEventHandle, hstate, dialDigit, dtmfDigit]
  split at hroom <;> simp only [if_pos, if_neg, *, dif_pos, not_false_eq_true]

/-- A failed read leaves the phone as it was exactly where the handler has no status to assign
before it reads. -/
theorem failed_read_iff (hstate : deviceState p reported = .digit) (hroom : ReadsDigit p) :
    FailsUnchanged p reported env ↔ AssignsNothing p := by
  have hfails : deviceEventReturn p reported none = .fail := by
    simp only [deviceEventReturn, hstate, if_pos hroom]
  have hread := failed_read env hstate hroom
  unfold AssignsNothing
  split at hread <;> rename_i hdial
  · rw [if_pos hdial]
    constructor
    · rintro ⟨-, q, hq, -, hlate, -⟩
      rw [hread] at hq
      obtain rfl := Option.some.inj hq
      exact hlate.symm
    · intro hlate
      exact ⟨hfails, _, hread, rfl, hlate.symm, rfl, rfl, rfl⟩
  · rw [if_neg hdial]
    constructor
    · rintro ⟨-, q, hq, hcurr, -⟩
      rw [hread] at hq
      obtain rfl := Option.some.inj hq
      exact hcurr.symm
    · intro hcurr
      exact ⟨hfails, _, hread, hcurr.symm, rfl, rfl, rfl, rfl⟩

theorem failed_read_dialing :
    FailsUnchanged { initialPhone emptyStore 0 with currStatus := .dialing, lateStatus := .dialing }
      .digit quietEnv :=
  (failed_read_iff rfl (by decide)).mpr rfl

/-- The first digit after an off-hook cannot be read, and the phone is dialling all the same. -/
theorem failed_read_dials :
    ¬ ∀ p, Reachable Started (Steps next) p → ∀ reported env,
      deviceState p reported = .digit → ReadsDigit p → FailsUnchanged p reported env := by
  intro h
  have hrun := started_run [.device .offhook none quietEnv] rfl
  have hroom : ReadsDigit { initialPhone emptyStore 0 with
      currStatus := .wait, lateStatus := .wait } := by decide
  obtain ⟨-, q, hq, -, hlate, -⟩ := h _ hrun.reachable .digit quietEnv rfl hroom
  obtain rfl := Option.some.inj hq
  cases hlate

end VoiceCallData
