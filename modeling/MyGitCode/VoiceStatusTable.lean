import MyGitCode.TransitionRuns
import MyGitCode.VoicePhone

/-! # The transition table of `curr_status`

Between events the two status variables agree, except after a failed digit read in WAIT.
Every event then moves along the table, but for a key outside WAIT, DIALING and
CONVERSATION, which the assignment in the digit branch turns into a conversation. -/
namespace VoiceStatusTable

open TransitionRuns VoiceModem VoiceDatastore VoicePhone
open VoiceCallRecords (emptyStore)

variable {p q : Phone} {e : Event} {env : Env} {reported : DeviceState} {digit : Option Char}
  {curr late : Status} {type : CallType}

inductive Edge : Status → Status → Prop where
  | idle_wait : Edge .idle .wait
  | idle_ring : Edge .idle .ring
  | wait_dialing : Edge .wait .dialing
  | wait_idle : Edge .wait .idle
  | dialing_alerting : Edge .dialing .alerting
  | dialing_idle : Edge .dialing .idle
  | alerting_conversation : Edge .alerting .conversation
  | alerting_idle : Edge .alerting .idle
  | ring_conversation : Edge .ring .conversation
  | ring_idle : Edge .ring .idle
  | conversation_idle : Edge .conversation .idle

theorem Edge.ne {a b : Status} (h : Edge a b) : a ≠ b := by
  cases h <;> decide

def Reports (state : DeviceState) (p : Phone) : Event → Prop
  | .device reported _ _ => deviceState p reported = state
  | _ => False

def ThirdCallWakes (p : Phone) (e : Event) : Prop :=
  Reports .onhook p e ∧ p.calls.thirdCallInfo.callState = .incoming

structure MovesByTable (p : Phone) (e : Event) (q : Phone) : Prop where
  edge : q.currStatus = p.currStatus ∨ Edge p.currStatus q.currStatus ∨
    (q.currStatus = .ring ∧ ThirdCallWakes p e)
  digit : Reports .digit p e → p.currStatus ≠ .wait → p.currStatus ≠ .dialing →
    p.currStatus ≠ .conversation → q.currStatus = p.currStatus

/-- No key outside WAIT, DIALING and CONVERSATION while the digit queue has room. -/
def NoStrayDigit (p : Phone) (e : Event) : Prop :=
  Reports .digit p e → p.currStatus ≠ .wait → p.currStatus ≠ .dialing →
    p.currStatus ≠ .conversation → 63 ≤ p.dtmfQueue.tail

def Settled (p : Phone) : Prop :=
  p.lateStatus = p.currStatus ∨ (p.currStatus = .wait ∧ p.lateStatus = .dialing)

structure Framed (p q : Phone) : Prop where
  currStatus : q.currStatus = p.currStatus
  lateStatus : q.lateStatus = p.lateStatus
  calls : q.calls = p.calls

theorem addRecord_frame (h : addRecord p type env = some q) : Framed p q := by
  simp only [addRecord, Option.map_eq_some_iff] at h
  obtain ⟨_, _, rfl⟩ := h
  exact ⟨rfl, rfl, rfl⟩

theorem statusHandle_frame (h : statusHandle p curr late env = some q) : Framed p q := by
  cases late <;> cases curr <;>
    simp only [statusHandle, Option.map_eq_some_iff, Option.some.injEq] at h
  all_goals
    first
    | subst h
      exact ⟨rfl, rfl, rfl⟩
    | obtain ⟨u, hu, rfl⟩ := h
      first
      | exact ⟨rfl, rfl, rfl⟩
      | have hframe := addRecord_frame hu
        exact ⟨hframe.currStatus, hframe.lateStatus, hframe.calls⟩

theorem settle_status (h : settle p env = some q) :
    q.currStatus = p.lateStatus ∧ q.lateStatus = p.lateStatus := by
  unfold settle at h
  split at h
  · simp only [Option.map_eq_some_iff] at h
    obtain ⟨u, hu, rfl⟩ := h
    have hlate := (statusHandle_frame hu).lateStatus
    exact ⟨hlate, hlate⟩
  · next heq =>
    obtain rfl := Option.some.inj h
    exact ⟨by simpa using heq, rfl⟩

theorem settle_calls (h : settle p env = some q) : q.calls = p.calls := by
  unfold settle at h
  split at h
  · simp only [Option.map_eq_some_iff] at h
    obtain ⟨u, hu, rfl⟩ := h
    exact (statusHandle_frame hu).calls
  · exact congrArg Phone.calls (Option.some.inj h).symm

theorem settled_of_settle (h : settle p env = some q) : Settled q :=
  .inl ((settle_status h).2.trans (settle_status h).1.symm)

theorem Settled.late_edge (h : Settled p) :
    p.lateStatus = p.currStatus ∨ Edge p.currStatus p.lateStatus := by
  rcases h with h | ⟨hc, hl⟩
  · exact .inl h
  · rw [hc, hl]
    exact .inr .wait_dialing

theorem edge_to_idle (curr : Status) : .idle = curr ∨ Edge curr .idle := by
  cases curr with
  | idle => exact .inl rfl
  | ring => exact .inr .ring_idle
  | dialing => exact .inr .dialing_idle
  | wait => exact .inr .wait_idle
  | alerting => exact .inr .alerting_idle
  | conversation => exact .inr .conversation_idle

theorem Settled.onHook_late (h : Settled p)
    (hthird : p.calls.thirdCallInfo.callState ≠ .incoming) :
    (onHook p).lateStatus = p.currStatus ∨ Edge p.currStatus (onHook p).lateStatus := by
  simp only [onHook, if_neg hthird]
  split
  · exact h.late_edge
  · exact edge_to_idle p.currStatus

theorem offHook_late : Edge p.currStatus (offHook p).lateStatus := by
  unfold offHook
  cases hc : p.currStatus with
  | idle => exact .idle_wait
  | ring => exact .ring_conversation
  | dialing => exact .dialing_idle
  | wait => exact .wait_idle
  | alerting => exact .alerting_idle
  | conversation => exact .conversation_idle

theorem dialDigit_status (hc : p.currStatus = .wait ∨ p.currStatus = .dialing)
    (hq : dialDigit p digit env = some q) :
    Settled q ∧ (q.currStatus = p.currStatus ∨ Edge p.currStatus q.currStatus) := by
  have hedge : ∀ {p' : Phone}, p'.lateStatus = .dialing → settle p' env = some q →
      Settled q ∧ (q.currStatus = p.currStatus ∨ Edge p.currStatus q.currStatus) := by
    intro p' hl hs
    refine ⟨settled_of_settle hs, ?_⟩
    rw [(settle_status hs).1, hl]
    rcases hc with hc | hc
    · rw [hc]
      exact .inr .wait_dialing
    · exact .inl hc.symm
  unfold dialDigit at hq
  simp only at hq
  split at hq
  · cases digit with
    | none =>
      obtain rfl := Option.some.inj hq
      refine ⟨?_, .inl rfl⟩
      rcases hc with hc | hc
      · exact .inr ⟨hc, rfl⟩
      · exact .inl hc.symm
    | some c => exact hedge rfl hq
  · exact hedge rfl hq

theorem Settled.dtmfDigit_status (h : Settled p) (hw : p.currStatus ≠ .wait)
    (hroom : p.currStatus ≠ .conversation → 63 ≤ p.dtmfQueue.tail)
    (hq : dtmfDigit p digit env = some q) : Settled q ∧ q.currStatus = p.currStatus := by
  have hlate : p.lateStatus = p.currStatus := h.resolve_right fun hc => hw hc.1
  unfold dtmfDigit at hq
  simp only at hq
  split at hq
  · next htail =>
    have hconv : p.currStatus = .conversation := by
      by_contra hne
      have := hroom hne
      omega
    cases digit with
    | none =>
      obtain rfl := Option.some.inj hq
      exact ⟨.inl (hlate.trans hconv), hconv.symm⟩
    | some c => exact ⟨settled_of_settle hq, (settle_status hq).1.trans hconv.symm⟩
  · exact ⟨settled_of_settle hq, (settle_status hq).1.trans hlate⟩

theorem dtmfDigit_strays (htail : p.dtmfQueue.tail < 63) (hq : dtmfDigit p digit env = some q) :
    q.currStatus = .conversation := by
  unfold dtmfDigit at hq
  simp only [dif_pos htail] at hq
  cases digit with
  | none =>
    obtain rfl := Option.some.inj hq
    rfl
  | some c => exact (settle_status hq).1

theorem thirdCallTone_status (h : thirdCallTone p env = some q) :
    q.currStatus = p.currStatus ∧ q.lateStatus = p.lateStatus := by
  unfold thirdCallTone at h
  split at h
  · exact ⟨(addRecord_frame h).currStatus, (addRecord_frame h).lateStatus⟩
  · obtain rfl := Option.some.inj h
    exact ⟨rfl, rfl⟩

theorem thirdCallOver_status (p : Phone) : (thirdCallOver p).currStatus = p.currStatus ∧
    (thirdCallOver p).lateStatus = p.lateStatus := by
  unfold thirdCallOver
  simp only
  split <;> exact ⟨rfl, rfl⟩

theorem Settled.dialedOut_late (h : Settled p) : (dialedOut p).lateStatus = p.currStatus ∨
    Edge p.currStatus (dialedOut p).lateStatus := by
  unfold dialedOut
  split
  · next hc =>
    rw [hc]
    exact .inr .dialing_alerting
  · exact h.late_edge

theorem Settled.network {info : CallInfo} (h : Settled p)
    (hq : networkEventHandle p info env = some q) :
    Settled q ∧ (q.currStatus = p.currStatus ∨ Edge p.currStatus q.currStatus) := by
  have hedge : ∀ {p' : Phone}, settle p' env = some q →
      (p'.lateStatus = p.currStatus ∨ Edge p.currStatus p'.lateStatus) →
      Settled q ∧ (q.currStatus = p.currStatus ∨ Edge p.currStatus q.currStatus) := by
    intro p' hs hl
    rw [(settle_status hs).1]
    exact ⟨settled_of_settle hs, hl⟩
  have htone : ((thirdCallTone p env).bind fun p => settle (dialedOut p) env) = some q →
      Settled q ∧ (q.currStatus = p.currStatus ∨ Edge p.currStatus q.currStatus) := by
    intro hs
    obtain ⟨u, hu, hs⟩ := Option.bind_eq_some_iff.mp hs
    obtain ⟨hc, hl⟩ := thirdCallTone_status hu
    have hsettled : Settled u := by rwa [Settled, hc, hl]
    exact hedge hs (hc ▸ hsettled.dialedOut_late)
  unfold networkEventHandle at hq
  cases hstate : info.callState <;> simp only [hstate] at hq
  case incoming =>
    refine hedge hq ?_
    split
    · next hc =>
      rw [hc]
      exact .inr .idle_ring
    · exact h.late_edge
  case ccInProgress | originating | waiting => exact htone hq
  case alerting => exact hedge hq h.dialedOut_late
  case conversation =>
    refine hedge hq ?_
    split
    · next hc =>
      rw [hc]
      exact .inr .alerting_conversation
    · exact h.late_edge
  case disconnecting | ended =>
    have hthird := thirdCallOver_status p
    refine hedge hq ?_
    unfold ringOver
    split
    · exact edge_to_idle p.currStatus
    · exact hthird.2 ▸ h.late_edge
  case setup | hold | invalid => exact hedge hq h.late_edge

theorem Settled.device (h : Settled p) (hc : NoStrayDigit p (.device reported digit env))
    (hq : deviceEventHandle p reported digit env = some q) :
    Settled q ∧ MovesByTable p (.device reported digit env) q := by
  unfold deviceEventHandle at hq
  cases hstate : deviceState p reported <;> simp only [hstate] at hq
  case onhook =>
    refine ⟨settled_of_settle hq, ?_, fun hd => by simp [Reports, hstate] at hd⟩
    rw [(settle_status hq).1]
    by_cases hthird : p.calls.thirdCallInfo.callState = .incoming
    · refine .inr (.inr ⟨?_, hstate, hthird⟩)
      simp [onHook, hthird]
    · exact (h.onHook_late hthird).imp_right .inl
  case offhook =>
    refine ⟨settled_of_settle hq, ?_, fun hd => by simp [Reports, hstate] at hd⟩
    rw [(settle_status hq).1]
    exact .inr (.inl offHook_late)
  case digit =>
    split at hq
    · next hdial =>
      obtain ⟨hs, hedge⟩ := dialDigit_status hdial hq
      refine ⟨hs, hedge.imp_right .inl, fun _ hw hd _ => ?_⟩
      exact absurd hdial (by simp [hw, hd])
    · next hdial =>
      rw [not_or] at hdial
      obtain ⟨hs, hsame⟩ := h.dtmfDigit_status hdial.1 (hc hstate hdial.1 hdial.2) hq
      exact ⟨hs, .inl hsame, fun _ _ _ _ => hsame⟩
  case unknown =>
    obtain rfl := Option.some.inj hq
    exact ⟨h, .inl rfl, fun _ _ _ _ => rfl⟩

theorem MovesByTable.of_edge (h : q.currStatus = p.currStatus ∨ Edge p.currStatus q.currStatus)
    (hd : ¬ Reports .digit p e) : MovesByTable p e q :=
  ⟨h.imp_right .inl, fun hr => absurd hr hd⟩

theorem Settled.step (h : Settled p) (hc : NoStrayDigit p e) (hs : Steps next p e q) :
    Settled q ∧ MovesByTable p e q := by
  cases e with
  | device reported digit env => exact h.device hc hs
  | network info env =>
    obtain ⟨hq, hedge⟩ := h.network hs
    exact ⟨hq, .of_edge hedge id⟩
  | waitTimeout =>
    obtain rfl := Option.some.inj hs
    unfold waitTimeout
    split
    · exact ⟨h, .of_edge (.inl rfl) id⟩
    · exact ⟨.inl rfl, .of_edge (edge_to_idle p.currStatus) id⟩
  | dialAlarm callId =>
    obtain rfl := Option.some.inj hs
    unfold dialingOut
    split
    · cases callId with
      | none => exact ⟨h, .of_edge (.inl rfl) id⟩
      | some id' => exact ⟨h, .of_edge (.inl rfl) id⟩
    · exact ⟨.inl rfl, .of_edge (edge_to_idle p.currStatus) id⟩
  | indication numberValid slots =>
    obtain rfl := Option.some.inj hs
    exact ⟨h, .of_edge (.inl rfl) id⟩

theorem stray_digit_moves (hc : ¬ NoStrayDigit p e) (hs : Steps next p e q) :
    ¬ MovesByTable p e q := by
  simp only [NoStrayDigit, not_forall, Nat.not_le] at hc
  obtain ⟨hd, hw, hdial, hconv, htail⟩ := hc
  intro hm
  cases e with
  | device reported digit env =>
    have hstate : deviceState p reported = .digit := hd
    have hq : dtmfDigit p digit env = some q := by
      simpa [Steps, next, deviceEventHandle, hstate, hw, hdial] using hs
    exact hconv ((hm.digit hd hw hdial hconv).symm.trans (dtmfDigit_strays htail hq))
  | _ => exact hd

theorem run_movesByTable_iff {ts : List (Taken Phone Event)}
    (h : Run Started (Steps next) ts p) :
    (∀ x ∈ ts, MovesByTable x.before x.event x.after) ↔
      ∀ x ∈ ts, NoStrayDigit x.before x.event := by
  refine h.all_iff (I := Settled) ?_ ?_ ?_
  · rintro p ⟨store, tz, rfl⟩
    exact .inl rfl
  · intro p e q hp hc hs
    exact hp.step hc hs
  · intro p e q _ hc hs
    exact stray_digit_moves hc hs

def quietEnv : Env := ⟨0, (.noErr, .unknown), ⟨true, none, true⟩, fun _ => true⟩

theorem offHook_movesByTable :
    ∃ q, next (initialPhone emptyStore 0) (.device .offhook none quietEnv) = some q ∧
      MovesByTable (initialPhone emptyStore 0) (.device .offhook none quietEnv) q := by
  let q : Phone := { initialPhone emptyStore 0 with currStatus := .wait, lateStatus := .wait }
  have hs : Steps next (initialPhone emptyStore 0) (.device .offhook none quietEnv) q := rfl
  have hstart : Run Started (Steps next) [] (initialPhone emptyStore 0) := .start ⟨_, _, rfl⟩
  have hdigit : NoStrayDigit (initialPhone emptyStore 0) (.device .offhook none quietEnv) := by
    intro h
    cases h
  exact ⟨q, hs, by simpa using (run_movesByTable_iff (hstart.snoc hs)).mpr (by simpa using hdigit)⟩

/-- Off-hook, the wait timeout and a key lead from IDLE to CONVERSATION. -/
theorem key_after_timeout_starts_conversation :
    ¬ ∀ ts p, Run Started (Steps next) ts p →
      ∀ x ∈ ts, MovesByTable x.before x.event x.after := by
  intro h
  let p₀ := initialPhone emptyStore 0
  let p₁ : Phone := { p₀ with currStatus := .wait, lateStatus := .wait }
  obtain ⟨p₃, hkey⟩ : ∃ q, next p₀ (.device .digit (some '5') quietEnv) = some q :=
    Option.isSome_iff_exists.mp rfl
  have hstart : Run Started (Steps next) [] p₀ := .start ⟨_, _, rfl⟩
  have hwait := hstart.snoc (show Steps next p₀ (.device .offhook none quietEnv) p₁ from rfl)
  have hidle := hwait.snoc (show Steps next p₁ .waitTimeout p₀ from rfl)
  have hmoves : MovesByTable p₀ (.device .digit (some '5') quietEnv) p₃ :=
    h _ _ (hidle.snoc hkey) _ (List.mem_append_right _ (List.mem_singleton.mpr rfl))
  have hconv : p₃.currStatus = .conversation :=
    dtmfDigit_strays (show (0 : ℕ) < 63 by decide)
      (show dtmfDigit p₀ (some '5') quietEnv = some p₃ from hkey)
  have hsame := hmoves.digit rfl nofun nofun nofun
  rw [hconv] at hsame
  cases hsame

end VoiceStatusTable
