import Mathlib.Algebra.Ring.Int.Defs
import Mathlib.Data.List.Induction
import MyGitCode.VoiceDatastore
import MyGitCode.VoiceModem

/-! # Which call `jan_voice_al_call_end` ends

The modem layer keeps two calls over a sequence of indications. A call state is compared
with a number of the modem's own enumeration, which counts from 1 where the decoded one
counts from 0. -/
namespace VoiceCallEnd

open VoiceModem VoiceDatastore

/-- The enumerators of `e_jan_voice_call_state_t`. -/
def stateCode : CallState → ℤ
  | .invalid => -1
  | .originating => 0
  | .incoming => 1
  | .conversation => 2
  | .ccInProgress => 3
  | .alerting => 4
  | .hold => 5
  | .waiting => 6
  | .disconnecting => 7
  | .ended => 8
  | .setup => 9

def callStateWaitingV02 : ℤ := 0x07

/-- The call id the modem is asked to end, and what the function returns when the modem
answers `accepts`. -/
def callEnd (calls : Calls) (accepts : ℕ → Bool) : ℕ × Rc :=
  let callId :=
    if stateCode calls.thirdCallInfo.callState = callStateWaitingV02 then
      calls.thirdCallInfo.callId
    else calls.callInfo.callId
  (callId, if accepts callId then .noErr else .fail)

structure Indication where
  numberValid : Bool
  slots : List QmiCall

def Indication.listed (ind : Indication) : List QmiCall :=
  ind.slots.takeWhile fun q => q.callId ≠ 0

structure Indication.Formed (ind : Indication) : Prop where
  count : ind.listed.length = 1 ∨ ind.listed.length = 2
  rest : ∀ q ∈ ind.slots.drop ind.listed.length, q.callId = 0

def handle (calls : Calls) (ind : Indication) : Calls :=
  msgCallback calls ind.numberValid ind.slots

def callsAfter (inds : List Indication) : Calls := inds.foldl handle initialCalls

/-- The two calls kept are those of the indication, with nothing left of an earlier third
call, and ending a call means the waiting third one or else the current one. -/
structure Follows (ind : Indication) (calls : Calls) : Prop where
  current : ∃ q ∈ ind.listed, calls.callInfo = decodeCallInfo ind.numberValid q
  third : ind.listed.length = 2 →
    ∃ q ∈ ind.listed, calls.thirdCallInfo = decodeCallInfo ind.numberValid q
  leftOver : ind.listed.length < 2 → calls.thirdCallInfo.callState ≠ .waiting ∧
    calls.thirdCallInfo.callState ≠ .incoming ∧ calls.thirdCallInfo.callState ≠ .ccInProgress
  ends : ∀ accepts, (callEnd calls accepts).1 =
    if calls.thirdCallInfo.callState = .waiting then calls.thirdCallInfo.callId
    else calls.callInfo.callId

def lastThird : List Indication → Option QmiCall
  | [] => none
  | ind :: inds =>
    (lastThird inds).or (if ind.listed.length = 2 then ind.listed.head? else none)

/-- What the two slips spare: a third call of a pair is neither waiting nor being
disconnected, and one left over from a pair was not waiting, incoming or in progress either.
A call being disconnected does no harm where the current call has its id. -/
def Spared (inds : List Indication) (ind : Indication) : Prop :=
  ∀ t, lastThird (inds ++ [ind]) = some t →
    if ind.listed.length = 2 then
      (t.callState = 0x07 ∨ t.callState = 0x08) → ∀ q ∈ ind.listed, q.callId = t.callId
    else
      t.callState ≠ 0x07 ∧ t.callState ≠ 0x02 ∧ t.callState ≠ 0x04 ∧
        (t.callState = 0x08 → ∀ q ∈ ind.listed, q.callId = t.callId)

variable {ind : Indication} {inds : List Indication} {calls : Calls}

theorem Indication.Formed.cases (h : ind.Formed) :
    (∃ q, ind.listed = [q] ∧
      ∀ calls, handle calls ind = { calls with callInfo := decodeCallInfo ind.numberValid q }) ∨
    ∃ t q, ind.listed = [t, q] ∧
      ∀ calls, handle calls ind =
        ⟨decodeCallInfo ind.numberValid q, decodeCallInfo ind.numberValid t⟩ := by
  have hprefix : ind.listed <+: ind.slots := List.takeWhile_prefix _
  obtain ⟨rest, hslots⟩ := hprefix
  rcases h.count with hone | htwo
  · obtain ⟨q, hq⟩ := List.length_eq_one_iff.mp hone
    refine .inl ⟨q, hq, fun calls => ?_⟩
    rw [Indication.listed] at hone
    rw [hq] at hslots
    rw [handle, msgCallback, hone, ← hslots]
    rfl
  · obtain ⟨t, q, hq⟩ := List.length_eq_two.mp htwo
    refine .inr ⟨t, q, hq, fun calls => ?_⟩
    rw [Indication.listed] at htwo
    rw [hq] at hslots
    rw [handle, msgCallback, htwo, ← hslots]
    rfl

theorem decodeState_eq {n : ℕ} :
    (decodeState n = .waiting ↔ n = 0x07) ∧ (decodeState n = .disconnecting ↔ n = 0x08) ∧
      (decodeState n = .incoming ↔ n = 0x02) ∧ (decodeState n = .ccInProgress ↔ n = 0x04) := by
  unfold decodeState
  split <;> simp_all

theorem code_waiting {state : CallState} :
    stateCode state = callStateWaitingV02 ↔ state = .disconnecting := by
  cases state <;> decide

theorem callEnd_eq (accepts : ℕ → Bool) : (callEnd calls accepts).1 =
    if calls.thirdCallInfo.callState = .disconnecting then calls.thirdCallInfo.callId
    else calls.callInfo.callId := by
  simp only [callEnd, code_waiting]

theorem ends_iff (calls : Calls) : (∀ accepts, (callEnd calls accepts).1 =
      if calls.thirdCallInfo.callState = .waiting then calls.thirdCallInfo.callId
      else calls.callInfo.callId) ↔
    ((calls.thirdCallInfo.callState = .waiting ∨ calls.thirdCallInfo.callState = .disconnecting) →
      calls.callInfo.callId = calls.thirdCallInfo.callId) := by
  simp only [callEnd_eq, forall_const]
  cases calls.thirdCallInfo.callState <;> simp [eq_comm]

theorem lastThird_append : lastThird (inds ++ [ind]) =
    if ind.listed.length = 2 then ind.listed.head? else lastThird inds := by
  induction inds with
  | nil => simp [lastThird]
  | cons first inds ih =>
    rw [List.cons_append, lastThird, ih]
    split
    · rename_i htwo
      obtain ⟨t, q, hq⟩ := List.length_eq_two.mp htwo
      simp [hq]
    · rfl

theorem callsAfter_append : callsAfter (inds ++ [ind]) = handle (callsAfter inds) ind := by
  simp [callsAfter]

theorem third_callsAfter (h : ∀ i ∈ inds, Indication.Formed i) :
    match lastThird inds with
    | none => (callsAfter inds).thirdCallInfo = zeroCallInfo
    | some t => ∃ valid, (callsAfter inds).thirdCallInfo = decodeCallInfo valid t := by
  induction inds using List.reverseRecOn with
  | nil => rfl
  | append_singleton inds ind ih =>
    have hformed : ind.Formed := h ind (by simp)
    have hthird := ih fun i hi => h i (by simp [hi])
    rw [callsAfter_append, lastThird_append]
    rcases hformed.cases with ⟨q, hlisted, hstep⟩ | ⟨t, q, hlisted, hstep⟩
    · rw [hstep, hlisted]
      exact hthird
    · rw [hstep, hlisted]
      exact ⟨ind.numberValid, rfl⟩

theorem follows_pair {t q : QmiCall} (hlisted : ind.listed = [t, q]) :
    Follows ind ⟨decodeCallInfo ind.numberValid q, decodeCallInfo ind.numberValid t⟩ ↔
      (t.callState = 0x07 ∨ t.callState = 0x08 → q.callId = t.callId) := by
  have hends := ends_iff ⟨decodeCallInfo ind.numberValid q, decodeCallInfo ind.numberValid t⟩
  have hstate : ((decodeCallInfo ind.numberValid t).callState = .waiting ∨
      (decodeCallInfo ind.numberValid t).callState = .disconnecting) ↔
        (t.callState = 0x07 ∨ t.callState = 0x08) :=
    or_congr decodeState_eq.1 decodeState_eq.2.1
  rw [hstate] at hends
  constructor
  · intro hf
    exact hends.mp hf.ends
  · intro hspared
    refine ⟨⟨q, by simp [hlisted], rfl⟩, fun _ => ⟨t, by simp [hlisted], rfl⟩, ?_,
      hends.mpr hspared⟩
    intro hshort
    simp [hlisted] at hshort

theorem follows_single {q : QmiCall} {third : CallInfo} (hlisted : ind.listed = [q]) :
    Follows ind ⟨decodeCallInfo ind.numberValid q, third⟩ ↔
      third.callState ≠ .waiting ∧ third.callState ≠ .incoming ∧
        third.callState ≠ .ccInProgress ∧
        (third.callState = .disconnecting → q.callId = third.callId) := by
  have hends := ends_iff ⟨decodeCallInfo ind.numberValid q, third⟩
  constructor
  · intro hf
    obtain ⟨h₁, h₂, h₃⟩ := hf.leftOver (by simp [hlisted])
    exact ⟨h₁, h₂, h₃, fun hdisc => hends.mp hf.ends (.inr hdisc)⟩
  · rintro ⟨h₁, h₂, h₃, hdisc⟩
    refine ⟨⟨q, by simp [hlisted], rfl⟩, ?_, fun _ => ⟨h₁, h₂, h₃⟩, hends.mpr ?_⟩
    · intro htwo
      simp [hlisted] at htwo
    · rintro (hwait | hstate)
      · exact absurd hwait h₁
      · exact hdisc hstate

/-- After a sequence of indications the two calls follow the last one, and the right call is
ended, exactly where the third call is one the slips spare. -/
theorem follows_iff (inds : List Indication) (ind : Indication)
    (h : ∀ i ∈ inds ++ [ind], Indication.Formed i) :
    Follows ind (callsAfter (inds ++ [ind])) ↔ Spared inds ind := by
  have hthird := third_callsAfter fun i hi => h i (List.mem_append_left _ hi)
  rw [callsAfter_append]
  rcases (h ind (by simp)).cases with ⟨q, hlisted, hstep⟩ | ⟨t, q, hlisted, hstep⟩
  · rw [hstep, Spared, lastThird_append, hlisted, follows_single hlisted]
    simp only [List.length_singleton]
    cases hlast : lastThird inds with
    | none =>
      rw [hlast] at hthird
      simp [hthird, zeroCallInfo]
    | some t =>
      rw [hlast] at hthird
      obtain ⟨valid, hthird⟩ := hthird
      rw [hthird]
      simp [decodeCallInfo, decodeState_eq]
  · rw [hstep, Spared, lastThird_append, hlisted, follows_pair hlisted]
    simp

def voiceCall (callId callState : ℕ) : QmiCall :=
  ⟨callId, callState, 0x00, 0x02, 0x04, zeroCallInfo.callNumber⟩

theorem held_call_follows :
    Follows ⟨false, [voiceCall 2 0x06, voiceCall 1 0x03, voiceCall 0 0]⟩
      (callsAfter ([] ++ [⟨false, [voiceCall 2 0x06, voiceCall 1 0x03, voiceCall 0 0]⟩])) := by
  refine (follows_iff [] _ ?_).mpr ?_
  · intro i hi
    obtain rfl := List.mem_singleton.mp hi
    exact ⟨by decide, by decide⟩
  · intro t ht
    obtain rfl : voiceCall 2 0x06 = t := Option.some.inj ht
    decide

/-- With a waiting call beside the current one the current one is ended. -/
theorem waiting_call_not_ended : ∃ ind : Indication, ind.Formed ∧
    (callsAfter [ind]).thirdCallInfo.callState = .waiting ∧
    (callEnd (callsAfter [ind]) fun _ => true).1 ≠ (callsAfter [ind]).thirdCallInfo.callId ∧
    ¬ Follows ind (callsAfter [ind]) := by
  refine ⟨⟨false, [voiceCall 2 0x07, voiceCall 1 0x03, voiceCall 0 0]⟩, ⟨by decide, by decide⟩,
    rfl, by decide, fun h => ?_⟩
  exact absurd (h.ends fun _ => true) (by decide)

end VoiceCallEnd
