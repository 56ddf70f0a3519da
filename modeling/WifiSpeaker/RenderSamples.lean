import WifiSpeaker.Common.Runs
import WifiSpeaker.Wire

namespace WifiSpeaker.RenderSamples
open Common Wire

/-- `uint8_t buf_bytes_per_sample = (buf_desc->wBitsPerSample / 8)`: the quotient
is cut to eight bits. -/
def bufBytesPerSample (bufDesc : WaveFormatEx) : UInt8 := (bufDesc.wBitsPerSample / 8).toUInt8

/-- `buf_len / buf_bytes_per_sample / buf_desc->nChannels`, which
`render_samples` computes before it looks at the bit depth. No result where a
divisor is zero: the processor traps. -/
def numSamples (bufLen : UInt32) (bufDesc : WaveFormatEx) : Option UInt32 :=
  if bufBytesPerSample bufDesc = 0 ∨ bufDesc.nChannels = 0 then none
  else some (bufLen / (bufBytesPerSample bufDesc).toUInt32 / bufDesc.nChannels.toUInt32)

/-- `component_status_t`. -/
inductive ComponentStatus
  | uninitialized
  | initialized
  | running
  | stopped
  deriving DecidableEq, Repr

/-- `*(short *) ptr`, with the memory from `buf` on. -/
def short (buf : Nat → UInt8) (ptr : Nat) : Int16 := (word [buf ptr,buf (ptr + 1)]).toInt16

/-- `left = left + 0x8000`: the sum is an `int`, and the assignment cuts it. -/
def shifted (sample : Int16) : Int16 := Int16.ofInt (sample.toInt + 0x8000)

/-- The word handed to `i2s_push_sample`. -/
def sample (left right : Int16) : UInt32 :=
  let left := shifted left
  let right := shifted right
  let sample := left.toUInt16.toUInt32
  (sample <<< 16 &&& 0xffff0000) ||| right.toUInt16.toUInt32

/-- The locals of `render_samples` at the head of its loop. Pointers are
offsets into `buf`. -/
structure Loop where
  numSamples : UInt32
  stride : UInt8
  ptrL : Nat
  ptrR : Nat
  i : Int
  deriving DecidableEq, Repr

/-- A call of `i2s_push_sample`: where its two samples were read, the word, and
the result. -/
structure Push where
  ptrL : Nat
  ptrR : Nat
  sample : UInt32
  bytesPushed : Int
  deriving DecidableEq, Repr

/-- The code in front of the loop. -/
def Loop.enter (numSamples : UInt32) (bufDesc : WaveFormatEx) : Loop where
  numSamples := numSamples
  stride := bufBytesPerSample bufDesc * 2
  ptrL := 0
  ptrR := if bufDesc.nChannels = 1 then 0 else (bufBytesPerSample bufDesc).toNat
  i := 0

/-- `i < num_samples` compares as unsigned. -/
def Loop.more (l : Loop) : Bool := UInt32.ofInt l.i < l.numSamples

/-- The push of one turn of the loop. -/
def Loop.push (l : Loop) (buf : Nat → UInt8) (bytesPushed : Int) : Push :=
  ⟨l.ptrL,l.ptrR,sample (short buf l.ptrL) (short buf l.ptrR),bytesPushed⟩

/-- The rest of the turn: a full DMA buffer takes the count back, and `i++`. -/
def Loop.next (l : Loop) (bytesPushed : Int) : Loop :=
  if bytesPushed = 0 then { l with i := l.i - 1 + 1 }
  else { l with
    ptrR := l.ptrR + l.stride.toNat, ptrL := l.ptrL + l.stride.toNat, i := l.i + 1 }

/-- Where a call of `render_samples` is. -/
inductive Place
  | entry
  | loop (l : Loop)
  | returned
  | trapped
  deriving DecidableEq, Repr

/-- A call with the rate the renderer remembers. The logs hold the calls of
`i2s_set_sample_rates` with their results, the offsets of the bytes read from
`buf`, and the pushes, oldest first. -/
structure State where
  sampleRate : UInt32
  place : Place
  rates : List (UInt32 × Int)
  reads : List Nat
  pushes : List Push
  deriving DecidableEq, Repr

/-- What the driver and the other tasks contribute to a step: the result of
`i2s_set_sample_rates`; and for a turn of the loop the status it sees and the
result of `i2s_push_sample`. -/
inductive Act
  | enter (ret : Int)
  | turn (status : ComponentStatus) (bytesPushed : Int)
  deriving DecidableEq, Repr

/-- A changed rate is set and remembered, whatever the driver answers. -/
def State.changeRate (s : State) (bufDesc : WaveFormatEx) (ret : Int) : State :=
  if s.sampleRate = bufDesc.nSamplesPerSec then s
  else { s with
    sampleRate := bufDesc.nSamplesPerSec
    rates := s.rates ++ [(bufDesc.nSamplesPerSec,ret)] }

/-- One turn of the loop. -/
def State.turn (s : State) (buf : Nat → UInt8) (l : Loop) (status : ComponentStatus)
    (bytesPushed : Int) : State :=
  if l.more then
    if status = .stopped then { s with place := .returned }
    else { s with
      place := .loop (l.next bytesPushed)
      reads := s.reads ++ [l.ptrL,l.ptrL + 1,l.ptrR,l.ptrR + 1]
      pushes := s.pushes ++ [l.push buf bytesPushed] }
  else { s with place := .returned }

def step (buf : Nat → UInt8) (bufLen : UInt32) (bufDesc : WaveFormatEx) (s : State) :
    Act → Option State
  | .enter ret =>
    match s.place with
    | .entry =>
      let s := s.changeRate bufDesc ret
      match numSamples bufLen bufDesc with
      | none => some { s with place := .trapped }
      | some n =>
        if bufDesc.wBitsPerSample ≠ 16 then some { s with place := .returned }
        else some { s with place := .loop (.enter n bufDesc) }
    | _ => none
  | .turn status bytesPushed =>
    match s.place with
    | .loop l => some (s.turn buf l status bytesPushed)
    | _ => none

/-- `render_samples(buf, buf_len, buf_desc)`. -/
def renderSamples (sampleRate : UInt32) (buf : Nat → UInt8) (bufLen : UInt32)
    (bufDesc : WaveFormatEx) : System State Act where
  init := ⟨sampleRate,.entry,[],[],[]⟩
  step := step buf bufLen bufDesc

/-- The pushes that went through. -/
def accepted (pushes : List Push) : List Push := pushes.filter (fun p => p.bytesPushed ≠ 0)

end WifiSpeaker.RenderSamples
