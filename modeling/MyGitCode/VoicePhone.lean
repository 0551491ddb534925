import MyGitCode.VoiceCallRecords

/-! # The phone of `voice_core.c`

`g_voice_data`, the digit queue and the two calls of the modem layer form one state. A
handler runs to its end before the next event, and the alarm and the timer are events.
What the line device and the modem are told is left out, and what they answer is input. -/
namespace VoicePhone

open CText VoiceModem VoiceDatastore VoiceCallRecords

inductive Status where
  | idle | ring | dialing | wait | alerting | conversation
  deriving DecidableEq, Repr

/-- The states the handler names. Every other one takes the `default` branch. -/
inductive DeviceState where
  | unknown | onhook | offhook | digit
  deriving DecidableEq, Repr

def nul : Char := Char.ofNat 0

structure DtmfQueue where
  dtmfNum : Vector Char 64
  head : ℕ
  tail : ℕ

structure Phone where
  devState : DeviceState
  currStatus : Status
  lateStatus : Status
  callNum : Vector Char 32
  len : ℕ
  toneFlag : ℕ
  isIncoming : Bool
  isOnline : Bool
  previousTime : ℤ
  store : Store
  dtmfQueue : DtmfQueue
  calls : Calls
  timezoneDiff : ℤ
  /-- The types of all records stored so far. No code reads it. -/
  logged : List CallType

/-- What one event finds outside the program: the clock, the result of sending the caller
id with the hook state it reports, the allocations and the SQL results. -/
structure Env where
  now : ℤ
  cid : Rc × DeviceState
  malloc : Malloc
  ok : Stmt → Bool

inductive Event where
  /-- The state read from the device, and the digit if reading one succeeds. -/
  | device (state : DeviceState) (digit : Option Char) (env : Env)
  | network (info : CallInfo) (env : Env)
  | waitTimeout
  /-- The call id the modem answers a dial request with. -/
  | dialAlarm (callId : Option ℕ)
  | indication (numberValid : Bool) (slots : List QmiCall)

/-- `jan_voice_core_init` over the records it loads. -/
def initialPhone (store : Store) (timezoneDiff : ℤ) : Phone where
  devState := .unknown
  currStatus := .idle
  lateStatus := .idle
  callNum := Vector.replicate 32 nul
  len := 0
  toneFlag := 0
  isIncoming := false
  isOnline := false
  previousTime := 0
  store := store
  dtmfQueue := ⟨Vector.replicate 64 nul, 0, 0⟩
  calls := initialCalls
  timezoneDiff := timezoneDiff
  logged := []

def Started (p : Phone) : Prop := ∃ store timezoneDiff, p = initialPhone store timezoneDiff

def callContext (p : Phone) (env : Env) : CallContext where
  now := env.now
  timezoneDiff := p.timezoneDiff
  calls := p.calls
  previousTime := p.previousTime
  isOnline := p.isOnline
  callNum := p.callNum.toList.takeWhile (· ≠ nul)
  len := p.len

def addRecord (p : Phone) (type : CallType) (env : Env) : Option Phone :=
  (addRecordToList p.store type (callContext p env) env.malloc env.ok).map fun (rc, store) =>
    { p with
      store := store
      logged := if rc = .noErr then p.logged ++ [type] else p.logged }

/-- The lines under `Clear call-out number and current call record`. -/
def clearCall (p : Phone) : Phone :=
  { p with
    callNum := Vector.replicate 32 nul
    previousTime := 0
    isIncoming := false
    isOnline := false
    len := 0
    toneFlag := 0 }

def callerNumber (calls : Calls) : Option (Text 32) :=
  let state := calls.callInfo.callState
  let number := if state = .disconnecting ∨ state = .ended then calls.thirdCallInfo.callNumber
    else calls.callInfo.callNumber
  strncpy 32 number.chars number.chars.length

def statusHandle (p : Phone) (curr late : Status) (env : Env) : Option Phone :=
  match late with
  | .idle =>
    match curr with
    | .ring =>
      (addRecord p .missed env).map fun p => clearCall { p with devState := .unknown }
    | .conversation =>
      (addRecord p (if p.isIncoming then .incoming else .outgoing) env).map clearCall
    | .alerting => (addRecord p .outgoing env).map clearCall
    | .dialing => some (clearCall p)
    | .wait => some (clearCall p)
    | .idle => some p
  | .ring =>
    match curr with
    | .idle => (callerNumber p.calls).map fun _ => { p with devState := env.cid.2 }
    | _ => some p
  | .conversation =>
    match curr with
    | .ring => some { p with
        isOnline := true, isIncoming := true, previousTime := env.now + p.timezoneDiff }
    | .alerting => some { p with
        isOnline := true, previousTime := env.now + p.timezoneDiff }
    | _ => some { p with isOnline := true }
  | .wait => some p
  | .dialing => some p
  | .alerting => some p

def settle (p : Phone) (env : Env) : Option Phone :=
  if p.currStatus ≠ p.lateStatus then
    (statusHandle p p.currStatus p.lateStatus env).map fun p =>
      { p with currStatus := p.lateStatus }
  else some p

/-- The hook state an event is handled with: the one the caller id left while ringing. -/
def deviceState (p : Phone) (reported : DeviceState) : DeviceState :=
  if p.currStatus = .ring ∧ p.devState = .offhook then p.devState else reported

def onHook (p : Phone) : Phone :=
  let p := { p with dtmfQueue := { p.dtmfQueue with head := 0, tail := 0 } }
  if p.calls.thirdCallInfo.callState = .incoming then
    { p with currStatus := .idle, lateStatus := .ring, calls := clearThirdCallState p.calls }
  else if p.currStatus = .ring then p
  else { p with lateStatus := .idle }

def offHook (p : Phone) : Phone :=
  match p.currStatus with
  | .idle => { p with lateStatus := .wait }
  | .ring => { p with lateStatus := .conversation }
  | _ => { p with lateStatus := .idle }

def dialDigit (p : Phone) (digit : Option Char) (env : Env) : Option Phone :=
  let p := { p with lateStatus := .dialing }
  if h : p.len < 31 then
    match digit with
    | none => some p
    | some c => settle { p with callNum := p.callNum.set p.len c, len := p.len + 1 } env
  else settle p env

/-- Any other key. The test before this branch, written with one `=`, stores the status. -/
def dtmfDigit (p : Phone) (digit : Option Char) (env : Env) : Option Phone :=
  let p := { p with currStatus := .conversation }
  if h : p.dtmfQueue.tail < 63 then
    match digit with
    | none => some p
    | some c =>
      let queue := { p.dtmfQueue with
        dtmfNum := p.dtmfQueue.dtmfNum.set p.dtmfQueue.tail c
        tail := p.dtmfQueue.tail + 1 }
      settle { p with dtmfQueue := queue, lateStatus := .conversation } env
  else settle p env

def deviceEventHandle (p : Phone) (reported : DeviceState) (digit : Option Char) (env : Env) :
    Option Phone :=
  match deviceState p reported with
  | .onhook => settle (onHook p) env
  | .offhook => settle (offHook p) env
  | .digit =>
    if p.currStatus = .wait ∨ p.currStatus = .dialing then dialDigit p digit env
    else dtmfDigit p digit env
  | .unknown => some p

def thirdCallTone (p : Phone) (env : Env) : Option Phone :=
  if p.toneFlag < 1 ∧ p.currStatus = .conversation ∧
      p.calls.thirdCallInfo.callState = .waiting then
    addRecord { p with toneFlag := p.toneFlag + 1 } .missed env
  else some p

def dialedOut (p : Phone) : Phone :=
  if p.currStatus = .dialing then { p with lateStatus := .alerting } else p

def thirdCallOver (p : Phone) : Phone :=
  let third := p.calls.thirdCallInfo.callState
  if p.currStatus = .conversation ∧ (third = .disconnecting ∨ third = .ended) then
    { p with calls := clearThirdCallState p.calls }
  else p

def ringOver (p : Phone) : Phone :=
  if p.currStatus = .ring then { p with lateStatus := .idle } else p

def networkEventHandle (p : Phone) (info : CallInfo) (env : Env) : Option Phone :=
  match info.callState with
  | .incoming => settle (if p.currStatus = .idle then { p with lateStatus := .ring } else p) env
  | .ccInProgress | .originating | .waiting =>
    (thirdCallTone p env).bind fun p => settle (dialedOut p) env
  | .alerting => settle (dialedOut p) env
  | .conversation =>
    settle (if p.currStatus = .alerting then { p with lateStatus := .conversation } else p) env
  | .disconnecting | .ended => settle (ringOver (thirdCallOver p)) env
  | .setup | .hold | .invalid => settle p env

def giveUp (p : Phone) : Phone := { p with currStatus := .idle, lateStatus := .idle }

def waitTimeout (p : Phone) : Phone := if p.lateStatus = .dialing then p else giveUp p

def dialingOut (p : Phone) (callId : Option ℕ) : Phone :=
  if p.lateStatus = .dialing then
    match callId with
    | some id =>
      { p with calls := { p.calls with callInfo := { p.calls.callInfo with callId := id } } }
    | none => p
  else giveUp p

def next (p : Phone) : Event → Option Phone
  | .device state digit env => deviceEventHandle p state digit env
  | .network info env => networkEventHandle p info env
  | .waitTimeout => some (waitTimeout p)
  | .dialAlarm callId => some (dialingOut p callId)
  | .indication numberValid slots =>
    some { p with calls := msgCallback p.calls numberValid slots }

end VoicePhone
