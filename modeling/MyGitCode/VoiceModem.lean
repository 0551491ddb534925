import MyGitCode.CText

/-! # The call bookkeeping of `voice_al.c`

The modem reports all its calls in one indication of fixed slots. The layer keeps two of
them, the current call and a third one that waits. QMI codes are those of the comments
beside the `_V02` names. -/
namespace VoiceModem

open CText

inductive CallState where
  | invalid | originating | incoming | conversation | ccInProgress | alerting | hold
  | waiting | disconnecting | ended | setup
  deriving DecidableEq, Repr

inductive NetworkCallType where
  | invalid | voice | voiceIp | emergency | emergencyIp
  deriving DecidableEq, Repr

inductive CallDirection where
  | invalid | mo | mt
  deriving DecidableEq, Repr

inductive CallMode where
  | invalid | noSrv | cdma | gsm | umts | lte | tds | unknown | wlan
  deriving DecidableEq, Repr

structure CallInfo where
  callId : ℕ
  callState : CallState
  callType : NetworkCallType
  callDirection : CallDirection
  callMode : CallMode
  callNumber : Text 84
  deriving DecidableEq

/-- One slot of the indication, with the remote number of the same index. -/
structure QmiCall where
  callId : ℕ
  callState : ℕ
  callType : ℕ
  direction : ℕ
  mode : ℕ
  number : Text 84

def decodeState : ℕ → CallState
  | 0x01 => .originating
  | 0x02 => .incoming
  | 0x03 => .conversation
  | 0x04 => .ccInProgress
  | 0x05 => .alerting
  | 0x06 => .hold
  | 0x07 => .waiting
  | 0x08 => .disconnecting
  | 0x09 => .ended
  | 0x0A => .setup
  | _ => .invalid

def decodeType : ℕ → NetworkCallType
  | 0x00 => .voice
  | 0x02 => .voiceIp
  | 0x09 => .emergency
  | 0x0B => .emergencyIp
  | _ => .invalid

def decodeDirection : ℕ → CallDirection
  | 0x01 => .mo
  | 0x02 => .mt
  | _ => .invalid

def decodeMode : ℕ → CallMode
  | 0x00 => .noSrv
  | 0x01 => .cdma
  | 0x02 => .gsm
  | 0x03 => .umts
  | 0x04 => .lte
  | 0x05 => .tds
  | 0x06 => .unknown
  | 0x07 => .wlan
  | _ => .invalid

def decodeCallInfo (numberValid : Bool) (q : QmiCall) : CallInfo where
  callId := q.callId
  callState := decodeState q.callState
  callType := decodeType q.callType
  callDirection := decodeDirection q.direction
  callMode := decodeMode q.mode
  callNumber := if numberValid then q.number else .empty (by decide)

/-- `g_call_info` and `g_third_call_info`. -/
structure Calls where
  callInfo : CallInfo
  thirdCallInfo : CallInfo
  deriving DecidableEq

/-- A zeroed `jan_voice_call_info_t`: every enumerator of value 0. -/
def zeroCallInfo : CallInfo :=
  ⟨0, .originating, .voice, .mo, .noSrv, .empty (by decide)⟩

def initialCalls : Calls := ⟨{ zeroCallInfo with callId := 255 }, zeroCallInfo⟩

/-- `jan_voice_al_msg_cb` on an all-call-status indication. The loop stops at the first slot
with id 0, and exactly two calls before it are taken as a third call and the current one. -/
def msgCallback (calls : Calls) (numberValid : Bool) (slots : List QmiCall) : Calls :=
  let info := slots.map (decodeCallInfo numberValid)
  let index := (slots.takeWhile fun q => q.callId ≠ 0).length
  match index, info with
  | 2, third :: current :: _ => ⟨current, third⟩
  | _, first :: _ => { calls with callInfo := first }
  | _, [] => calls

def clearThirdCallState (calls : Calls) : Calls :=
  { calls with thirdCallInfo := { calls.thirdCallInfo with callState := .invalid } }

end VoiceModem
